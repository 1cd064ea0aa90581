import LinuxApi.Lib.Signals
import LinuxApi.Lib.Transition

/-!
# Reaping children in a handler (`signal_code/recycle_process_signal.c`)

The parent process, one call a step, and its children, which exit at any time; line numbers are those
of `recycle_process_signal.c`. `new_sigset` is not initialised: what else is in it is a parameter,
and so is the mask that the process starts with. Only `SIGCHLD` is sent. The parent sleeps for
good when it has come to its last loop; a child is its index, in the order of the forks.
-/

set_option autoImplicit false

namespace Recycle

open Signals

def SIGCHLD : Nat := 17

inductive Child
  | running
  | zombie  -- has exited, not waited for yet
  | reaped
deriving DecidableEq, Repr

/-- Where `recycle_child` is. -/
inductive HandlerPc
  | enter           -- 10
  | waitpid         -- 14
  | print (k : Nat) -- 15
  | finish          -- 18
  | ret             -- 20
deriving DecidableEq, Repr

/-- Where `main` is. -/
inductive MainPc
  | block      -- 26
  | loopTest   -- 29, 37
  | fork       -- 30
  | sigaction  -- 47
  | restore    -- 50
  | sleep      -- 55
deriving DecidableEq, Repr

/-- `old` is `old_sigset`, `printed` the children of which `recycle_child` has printed the pid. -/
structure State where
  proc : Proc Nat HandlerPc
  old : Finset Nat
  pc : MainPc
  i : Nat
  children : List Child
  printed : List Nat

/-- The start of `main`: every signal has its default action, which for `SIGCHLD` is to ignore it. -/
def init (mask : Finset Nat) : State where
  proc := ⟨fun n => if n = SIGCHLD then .ignore else .terminate, mask, ∅, [], none⟩
  old := ∅
  pc := .block
  i := 0
  children := []
  printed := []

section
variable (junk : Finset Nat)

/-- The next call of `main`; `fork` is a step of `step`. -/
def stepMain (s : State) : Option State :=
  match s.pc with
  | .block =>
    some { s with
           old := s.proc.blocked
           proc := s.proc.setMask (s.proc.blocked ∪ insert SIGCHLD junk)
           pc := .loopTest }
  | .loopTest => some { s with pc := if s.i < 5 then .fork else .sigaction }
  | .fork => none
  | .sigaction => some { s with proc := s.proc.setAction SIGCHLD (.handle ∅), pc := .restore }
  | .restore => some { s with proc := s.proc.setMask s.old, pc := .sleep }
  | .sleep => none

/-- The next call of `recycle_child`; `waitpid` is a step of `step`. -/
def stepHandler (s : State) : HandlerPc → Option State
  | .enter => some { s with proc := s.proc.goto .waitpid }
  | .waitpid => none
  | .print k => some { s with proc := s.proc.goto .waitpid, printed := s.printed ++ [k] }
  | .finish => some { s with proc := s.proc.goto .ret }
  | .ret => some { s with proc := s.proc.ret }

/-- `waitpid(-1, NULL, WNOHANG)`: it reaps a child that has exited, or there is none (it returns 0 or
-1). -/
def stepWaitpid (s : State) : Option Nat → Option State
  | some k =>
    if s.children[k]? = some .zombie then
      some { s with proc := s.proc.goto (.print k), children := s.children.set k .reaped }
    else none
  | none => if .zombie ∉ s.children then some { s with proc := s.proc.goto .finish } else none

/-- `fork` may fail; then the loop goes on. -/
inductive Act
  | main
  | fork (ok : Bool)
  | handler
  | waitpid (k : Option Nat)
  | deliver
  | exit (k : Nat)
deriving DecidableEq, Repr

def step (s : State) : Act → Option State
  | .main => if s.proc.frames = [] then stepMain junk s else none
  | .fork ok =>
    if s.proc.frames = [] ∧ s.pc = .fork then
      some { s with
             children := s.children ++ if ok then [.running] else []
             i := s.i + 1
             pc := .loopTest }
    else none
  | .handler =>
    match s.proc.frames with
    | [] => none
    | f :: _ => stepHandler s f.pc
  | .waitpid k =>
    match s.proc.frames with
    | [] => none
    | f :: _ => if f.pc = .waitpid then stepWaitpid s k else none
  | .deliver => (s.proc.deliver .enter SIGCHLD).map fun proc => { s with proc }
  | .exit k =>
    if s.children[k]? = some .running then
      some { s with children := s.children.set k .zombie, proc := s.proc.raise SIGCHLD }
    else none

end

/-- The parent sleeps, and all its children have exited, been reaped and been printed, each once. -/
structure Done (s : State) : Prop where
  pc : s.pc = .sleep
  idle : s.proc.frames = []
  reaped : ∀ c ∈ s.children, c = .reaped
  printed : s.printed.Perm (List.range s.children.length)

end Recycle
