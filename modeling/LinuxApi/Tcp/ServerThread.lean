import LinuxApi.Lib.CInt
import LinuxApi.Lib.Transition

/-!
# The threaded server (`tcp_code/server_thread.c`)

`main` accepts connections into a table of `MAX_USER` slots and starts a worker for each; the
worker frees its slot when the client is gone. A thread is its program counter (line numbers are
those of `server_thread.c`) and its locals. `++user` and `user--` are a read and a write of the
shared counter; `tmp` is the value that was read. `pthread_create` succeeds; what a worker says to
its client is not modelled.
-/

set_option autoImplicit false

namespace ThreadServer

/-- `MAX_USER` -/
def maxUser : Nat := 21

/-- Where `main` is. -/
inductive MainPc
  | test       -- 116
  | scan       -- 122–126: the loop test and the body
  | accept     -- 128–129
  | create     -- 134–135
  | loadUser   -- 138: `++user` reads
  | storeUser  -- 138: `++user` writes
  | exited     -- 141
deriving DecidableEq, Repr

structure Main where
  pc : MainPc
  i : Nat
  tmp : Int
deriving DecidableEq, Repr

/-- Where a worker is. -/
inductive WorkerPc
  | serve      -- 34–62
  | close      -- 64
  | free       -- 65: `info->fd = -1`
  | loadUser   -- 66: `user--` reads
  | storeUser  -- 66: `user--` writes
  | exited     -- 67
deriving DecidableEq, Repr

/-- A worker; `info` is the index of its slot. -/
structure Worker where
  pc : WorkerPc
  info : Nat
  tmp : Int
deriving DecidableEq, Repr

/-- `userSock` are the `fd` fields of the slots. -/
structure State where
  user : Int
  userSock : List Int
  main : Main
  workers : List Worker
deriving DecidableEq, Repr

def init : State where
  user := 0
  userSock := List.replicate maxUser (-1)
  main := ⟨.test, 0, 0⟩
  workers := []

/-! ## Steps -/

/-- A step of a thread. `accept fd` is the return of `accept`, with a descriptor or without. -/
inductive Act
  | main
  | accept (fd : Option Nat)
  | worker (w : Nat)
deriving DecidableEq, Repr

/-- The next step of `main`; the return of `accept` is a step of `step`. -/
def stepMain (s : State) : Option State :=
  match s.main.pc with
  | .test =>
    -- a full house waits and tests again
    if s.user = maxUser then some s else some { s with main := { s.main with pc := .scan, i := 0 } }
  | .scan =>
    if s.main.i < maxUser then
      match s.userSock[s.main.i]? with
      | some fd =>
        if fd = -1 then some { s with main := { s.main with pc := .accept } }
        else some { s with main := { s.main with i := s.main.i + 1 } }
      | none => none
    else some { s with main := { s.main with pc := .accept } }
  | .accept => none
  | .create =>
    some { s with
           main := { s.main with pc := .loadUser }
           workers := s.workers ++ [⟨.serve, s.main.i, 0⟩] }
  | .loadUser => some { s with main := { s.main with pc := .storeUser, tmp := s.user } }
  | .storeUser =>
    (CInt.incr s.main.tmp).map fun n =>
      { s with user := n, main := { s.main with pc := .test } }
  | .exited => none

/-- `accept` returns; an index past the table has no slot to store into. -/
def stepAccept (s : State) (fd : Option Nat) : Option State :=
  if s.main.pc = .accept ∧ s.main.i < s.userSock.length then
    match fd with
    | some fd =>
      some { s with
             userSock := s.userSock.set s.main.i fd
             main := { s.main with pc := .create } }
    | none =>
      some { s with
             userSock := s.userSock.set s.main.i (-1)
             main := { s.main with pc := .exited } }
  else none

def stepWorker (s : State) (w : Nat) : Option State :=
  match s.workers[w]? with
  | some t =>
    match t.pc with
    | .serve => some { s with workers := s.workers.set w { t with pc := .close } }
    | .close => some { s with workers := s.workers.set w { t with pc := .free } }
    | .free =>
      some { s with
             userSock := s.userSock.set t.info (-1)
             workers := s.workers.set w { t with pc := .loadUser } }
    | .loadUser =>
      some { s with workers := s.workers.set w { t with pc := .storeUser, tmp := s.user } }
    | .storeUser =>
      (CInt.decr t.tmp).map fun n =>
        { s with user := n, workers := s.workers.set w { t with pc := .exited } }
    | .exited => none
  | none => none

def step (s : State) : Act → Option State
  | .main => stepMain s
  | .accept fd => stepAccept s fd
  | .worker w => stepWorker s w

/-- The step does not write over a change of `user` made since its read. -/
def Unraced (s : State) : Act → Prop
  | .main => s.main.pc = .storeUser → s.user = s.main.tmp
  | .accept _ => True
  | .worker w => ∀ t ∈ s.workers[w]?, t.pc = .storeUser → s.user = t.tmp

instance : ∀ s a, Decidable (Unraced s a)
  | s, .main => inferInstanceAs (Decidable (s.main.pc = .storeUser → s.user = s.main.tmp))
  | _, .accept _ => inferInstanceAs (Decidable True)
  | s, .worker w =>
    inferInstanceAs (Decidable (∀ t ∈ s.workers[w]?, t.pc = .storeUser → s.user = t.tmp))

/-! ## Counting -/

/-- The number of occupied slots. -/
def occupied (s : State) : Nat := s.userSock.countP (· ≠ -1)

/-- `main` has filled a slot and not counted it yet. -/
def MainPc.entering : MainPc → Bool
  | .create | .loadUser | .storeUser => true
  | _ => false

/-- The worker has freed its slot and not counted that yet. -/
def WorkerPc.leaving : WorkerPc → Bool
  | .loadUser | .storeUser => true
  | _ => false

/-- Some thread has changed the table and not yet the counter. -/
def Updating (s : State) : Prop :=
  s.main.pc.entering = true ∨ ∃ t ∈ s.workers, t.pc.leaving = true

instance (s : State) : Decidable (Updating s) :=
  inferInstanceAs (Decidable (_ ∨ ∃ t ∈ s.workers, t.pc.leaving = true))

end ThreadServer
