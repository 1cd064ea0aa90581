import LinuxApi.Lib.CInt
import LinuxApi.Lib.Transition

/-!
# The chat server (`server_code/server.c`)

`main` registers connections in `fds` and starts a `service_thread` for each; a thread sends what
its client says to the descriptors in `fds`, and takes its own out when the client is gone. A step is
an access to a shared variable: to a slot, to `user`, or to `new_sock`, whose address the threads
are given; a message is sent to all in one step. `accept` succeeds and returns a descriptor that it
has not returned before, as the server closes none. `pthread_create` succeeds. The text of the
messages is left out.
-/

set_option autoImplicit false

namespace Chat

/-- `size` -/
def size : Nat := 20

/-- Where `main` is. -/
inductive MainPc
  | accept  -- 102
  | search  -- 103–106: the loop test and the body
  | count   -- 107: `user++`
  | create  -- 113–115
deriving DecidableEq, Repr

/-- Where a thread is. -/
inductive ThreadPc
  | start   -- 57
  | recv    -- 66
  | clear   -- 68–71: the loop test and the body
  | decr    -- 74: `user--`
  | exited  -- 76
deriving DecidableEq, Repr

/-- A thread; `fd` is not set before 57. -/
structure Thread where
  pc : ThreadPc
  fd : Int
  i : Nat
deriving DecidableEq, Repr

/-- The server; `returned` are the descriptors that `accept` has returned. -/
structure State where
  fds : List Int
  user : Int
  newSock : Int
  pc : MainPc
  i : Nat
  threads : List Thread
  returned : Finset Int
deriving DecidableEq

def init : State where
  fds := List.replicate size 0
  user := 0
  newSock := 0
  pc := .accept
  i := 0
  threads := []
  returned := ∅

/-- 84–88, for `n` slots to go: the descriptors that the message is sent to. Behind the last slot there
is no other. -/
def broadcast (fd : Int) : Nat → List Int → Option (List Int)
  | 0, _ => some []
  | _ + 1, [] => none
  | n + 1, x :: fds => (broadcast fd n fds).map fun sent => if x ≠ fd then x :: sent else sent

/-- The descriptors that a message of `fd` is sent to: `i` goes from 0 to `user`. -/
def State.sends (s : State) (fd : Int) : Option (List Int) := broadcast fd (s.user + 1).toNat s.fds

/-- A step of a thread. `accept` returns a descriptor; `recv` returns a message, or no message. -/
inductive Act
  | accept (fd : Nat)
  | main
  | recv (t : Nat) (message : Bool)
  | thread (t : Nat)
deriving DecidableEq, Repr

/-- The next step of `main`; the return of `accept` is a step of `step`. There is no `tid` at an index
below 0. -/
def stepMain (s : State) : Option State :=
  match s.pc with
  | .accept => none
  | .search =>
    if s.i < size then
      match s.fds[s.i]? with
      | some fd =>
        if fd = 0 then some { s with fds := s.fds.set s.i s.newSock, pc := .count }
        else some { s with i := s.i + 1 }
      | none => none
    else some { s with pc := .create }
  | .count => (CInt.incr s.user).map fun n => { s with user := n, pc := .create }
  | .create =>
    if s.user < 19 then
      if 0 ≤ s.user then some { s with threads := s.threads ++ [⟨.start, 0, 0⟩], pc := .accept }
      else none
    else some { s with pc := .accept }

def stepRecv (s : State) (t : Nat) (th : Thread) (message : Bool) : Option State :=
  if th.pc = .recv then
    if message then (s.sends th.fd).map fun _ => s
    else some { s with threads := s.threads.set t { th with pc := .clear, i := 0 } }
  else none

def stepThread (s : State) (t : Nat) (th : Thread) : Option State :=
  match th.pc with
  | .start => some { s with threads := s.threads.set t { th with pc := .recv, fd := s.newSock } }
  | .recv => none
  | .clear =>
    if th.i < size then
      match s.fds[th.i]? with
      | some x =>
        if th.fd = x then
          some { s with
                 fds := s.fds.set th.i 0
                 threads := s.threads.set t { th with pc := .decr } }
        else some { s with threads := s.threads.set t { th with i := th.i + 1 } }
      | none => none
    else some { s with threads := s.threads.set t { th with pc := .decr } }
  | .decr =>
    (CInt.decr s.user).map fun n =>
      { s with user := n, threads := s.threads.set t { th with pc := .exited } }
  | .exited => none

def step (s : State) : Act → Option State
  | .accept fd =>
    if s.pc = .accept ∧ 0 < fd ∧ (fd : Int) ∉ s.returned then
      some { s with
             newSock := fd
             returned := insert (fd : Int) s.returned
             pc := .search
             i := 0 }
    else none
  | .main => stepMain s
  | .recv t message =>
    match s.threads[t]? with
    | some th => stepRecv s t th message
    | none => none
  | .thread t =>
    match s.threads[t]? with
    | some th => stepThread s t th
    | none => none

/-! ## What is claimed of the server -/

/-- The clients that are recorded. -/
def State.recorded (s : State) : List Int := s.fds.filter (· ≠ 0)

/-- A message of `fd` is sent to all other recorded clients, once to each, and to nobody else. -/
def ReachesOthers (s : State) (fd : Int) : Prop :=
  ∃ sent, s.sends fd = some sent ∧ sent.Nodup ∧ ∀ d, d ∈ sent ↔ d ∈ s.recorded ∧ d ≠ fd

/-- No two threads serve the same descriptor. -/
def OneEach (s : State) : Prop :=
  ∀ (t u : Nat) (th th' : Thread), s.threads[t]? = some th → s.threads[u]? = some th' →
    th.pc ≠ .start → th'.pc ≠ .start → th.fd = th'.fd → t = u

/-- The thread serves `d`, or is about to. -/
def Thread.Serves (th : Thread) (s : State) (d : Int) : Prop :=
  if th.pc = .start then s.newSock = d else th.fd = d

/-- When `main` waits for the next client, every recorded one has a thread. -/
def AllServed (s : State) : Prop :=
  s.pc = .accept → ∀ d ∈ s.recorded, ∃ th ∈ s.threads, th.Serves s d

/-- Every thread has read its descriptor before `accept` returns the next one. -/
def InTime (s : State) : Act → Prop
  | .accept _ => ∀ th ∈ s.threads, th.pc ≠ .start
  | _ => True

/-- Besides, at most 18 clients are counted when `main` comes to start the thread of a recorded one. -/
def Orderly (s : State) (a : Act) : Prop :=
  InTime s a ∧ (a = .main → s.pc = .create → s.newSock ∈ s.recorded → s.user < 19)

instance : ∀ s a, Decidable (InTime s a)
  | s, .accept _ => inferInstanceAs (Decidable (∀ th ∈ s.threads, th.pc ≠ .start))
  | _, .main | _, .recv _ _ | _, .thread _ => inferInstanceAs (Decidable True)

instance (s : State) (a : Act) : Decidable (Orderly s a) := inferInstanceAs (Decidable (_ ∧ _))

end Chat
