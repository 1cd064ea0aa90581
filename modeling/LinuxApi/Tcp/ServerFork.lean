import LinuxApi.Lib.CInt
import LinuxApi.Lib.Transition

/-!
# The forking server (`tcp_code/server_fork.c`)

The server process is its `main` and the handler `recycle_child`, each a program counter (line
numbers are those of `server_fork.c`); a C statement is one step. Of the kernel the model has what
the two look at: the children, the pending bit of `SIGCHLD`, whether the signal is blocked, and
whether the handler is installed. A child is its index, in the order of the forks; what it
does before it exits is not modelled. Calls into the kernel take their outcome from the action.
-/

set_option autoImplicit false

namespace ForkServer

/-- The values of `errno` that are told apart. -/
inductive Errno
  | EINTR
  | ECHILD
  | other
deriving DecidableEq, Repr

inductive Child
  | running
  | zombie     -- has exited, not waited for yet
  | reaped
deriving DecidableEq, Repr

/-- Where `main` is. -/
inductive MainPc
  | block      -- 75
  | accept     -- 85, 89
  | cfdTest    -- 87: `cfd == -1`
  | errnoTest  -- 87: `errno == EINTR`
  | errTest    -- 92
  | count      -- 97
  | fork       -- 99
  | sigaction  -- 148
  | unblock    -- 150
  | close      -- 152
  | exited     -- `perro_exit`
deriving DecidableEq, Repr

/-- Where `recycle_child` is. -/
inductive HandlerPc
  | waitpid    -- 20: the loop test
  | print      -- 21
  | decr       -- 22
  | ret        -- 25
deriving DecidableEq, Repr

/-- The server and what the kernel keeps for it. `handler` is `none` while the handler does not
run; while it runs `main` stands still and `SIGCHLD` is held back. -/
structure State where
  user : Int
  cfd : Int
  errno : Errno
  pc : MainPc
  handler : Option HandlerPc
  installed : Bool
  blocked : Bool
  pending : Bool
  children : List Child
deriving DecidableEq, Repr

/-- The server after `listen`. -/
def init : State where
  user := 0
  cfd := 0
  errno := .other
  pc := .block
  handler := none
  installed := false
  blocked := false
  pending := false
  children := []

/-! ## Signals -/

/-- `SIGCHLD` is sent. It is kept while it is blocked, and when the handler is to run; the default
action is to ignore it. -/
def State.raise (s : State) : State :=
  if s.blocked ∨ s.installed then { s with pending := true } else s

/-- `sigprocmask(SIG_UNBLOCK)`: a signal kept for the default action is ignored now. -/
def State.unblock (s : State) : State :=
  { s with blocked := false, pending := s.pending && s.installed }

/-! ## Steps -/

/-- A step of the server, of the kernel or of a child. -/
inductive Act
  | main
  | accept (fd : Int) (errno : Errno)
  | fork (ok : Bool)
  | deliver
  | handler
  | waitpid (pid : Option Nat)
  | exit (pid : Nat)
deriving DecidableEq, Repr

/-- The next statement of `main`; `accept` and `fork` are steps of `step`. -/
def stepMain (s : State) : Option State :=
  match s.pc with
  | .block => some { s with blocked := true, pc := .accept }
  | .accept => none
  | .cfdTest => some { s with pc := if s.cfd = -1 then .errnoTest else .errTest }
  | .errnoTest => some { s with pc := if s.errno = .EINTR then .accept else .errTest }
  | .errTest => some { s with pc := if s.cfd = -1 then .exited else .count }
  | .count => (CInt.incr s.user).map fun n => { s with user := n, pc := .fork }
  | .fork => none
  | .sigaction => some { s with installed := true, pc := .unblock }
  | .unblock => some { s.unblock with pc := .close }
  | .close => some { s with pc := .accept }
  | .exited => none

/-- `accept` returns `fd`, and sets `errno` if it fails. -/
def stepAccept (s : State) (fd : Int) (errno : Errno) : Option State :=
  if s.pc = .accept then
    some { s with cfd := fd, errno := if fd = -1 then errno else s.errno, pc := .cfdTest }
  else none

/-- `fork`, in the server. -/
def stepFork (s : State) (ok : Bool) : Option State :=
  if s.pc = .fork then
    if ok then some { s with children := s.children ++ [.running], pc := .sigaction }
    else some { s with pc := .exited }
  else none

/-- The next statement of the handler; `waitpid` is a step of `step`. -/
def stepHandler (s : State) : Option State :=
  match s.handler with
  | some .print => some { s with handler := some .decr }
  | some .decr => (CInt.decr s.user).map fun n => { s with user := n, handler := some .waitpid }
  | some .ret => some { s with handler := none }
  | _ => none

/-- `waitpid(0, NULL, WNOHANG)`: it reaps the child `pid`, which has exited, or returns 0 if there are
only running children, or fails if there are none. -/
def stepWaitpid (s : State) (pid : Option Nat) : Option State :=
  if s.handler = some .waitpid then
    match pid with
    | some pid =>
      if s.children[pid]? = some .zombie then
        some { s with children := s.children.set pid .reaped, handler := some .print }
      else none
    | none =>
      if .zombie ∈ s.children then none
      else if .running ∈ s.children then some { s with handler := some .ret }
      else some { s with errno := .ECHILD, handler := some .ret }
  else none

def step (s : State) (a : Act) : Option State :=
  if s.pc = .exited then none
  else
    match a with
    | .main => if s.handler = none then stepMain s else none
    | .accept fd errno => if s.handler = none then stepAccept s fd errno else none
    | .fork ok => if s.handler = none then stepFork s ok else none
    | .deliver =>
      if s.pending ∧ s.blocked = false ∧ s.installed ∧ s.handler = none then
        some { s with pending := false, handler := some .waitpid }
      else none
    | .handler => stepHandler s
    | .waitpid pid => stepWaitpid s pid
    | .exit pid =>
      if s.children[pid]? = some .running then
        some { s with children := s.children.set pid .zombie }.raise
      else none

/-! ## A failing `accept` -/

/-- `accept` has failed, and `errno` has not been tested yet. -/
def Testing (s : State) : Prop := s.cfd = -1 ∧ (s.pc = .cfdTest ∨ s.pc = .errnoTest)

instance (s : State) : Decidable (Testing s) := inferInstanceAs (Decidable (_ ∧ _))

/-- The next statement is `perro_exit("accept")`. -/
def AcceptFails (s : State) : Prop := s.pc = .errTest ∧ s.cfd = -1

instance (s : State) : Decidable (AcceptFails s) := inferInstanceAs (Decidable (_ ∧ _))

/-- `accept` fails only with `EINTR`. -/
def OnlyEintr (_ : State) : Act → Prop
  | .accept fd errno => fd = -1 → errno = .EINTR
  | _ => True

instance : ∀ s a, Decidable (OnlyEintr s a)
  | _, .accept fd errno => inferInstanceAs (Decidable (fd = -1 → errno = .EINTR))
  | _, .main | _, .fork _ | _, .deliver | _, .handler | _, .waitpid _ | _, .exit _ =>
    inferInstanceAs (Decidable True)

/-- If the handler comes to the end of its loop before `errno` is tested, there are children left. -/
def Undisturbed (s : State) (a : Act) : Prop :=
  OnlyEintr s a ∧ (Testing s → a = .waitpid none → .running ∈ s.children)

instance (s : State) (a : Act) : Decidable (Undisturbed s a) := inferInstanceAs (Decidable (_ ∧ _))

/-! ## History -/

/-- How many connections have been counted at 97, and which children `waitpid` has returned. The
child of the `k`-th connection counted is the `k`-th child forked. -/
structure Hist where
  counted : Nat
  reaped : List Nat
deriving DecidableEq, Repr

def Hist.empty : Hist := ⟨0, []⟩

def record (s : State) (a : Act) (h : Hist) : Hist :=
  match a with
  | .main => if s.pc = .count then { h with counted := h.counted + 1 } else h
  | .waitpid (some pid) => { h with reaped := h.reaped ++ [pid] }
  | _ => h

/-- The number of connections counted whose child has not been reaped. -/
def Hist.unreaped (h : Hist) : Nat := (List.range h.counted).countP (· ∉ h.reaped)

/-- The server with its history. -/
def histStep : State × Hist → Act → Option (State × Hist) := Lts.withHist step record

/-- `recycle_child` is in its `waitpid` loop. -/
def InLoop (s : State) : Prop :=
  s.handler = some .waitpid ∨ s.handler = some .print ∨ s.handler = some .decr

/-- 1 while `recycle_child` has reaped a child that `user` still counts. -/
def reaping (s : State) : Nat :=
  match s.handler with
  | some .print | some .decr => 1
  | _ => 0

end ForkServer
