import LinuxApi.Echo.Convert
import LinuxApi.Lib.Transition

/-!
# The select server (`select_poll_epoll/select_server.c`)

The loop of `main`, 52–102; a statement that calls the kernel is one step. The kernel keeps the
descriptors that are open: `held` are those of the process that are not clients' (the
listening one, and all below it), `clients` those that were accepted and have not been closed since.
`accept` succeeds and returns the lowest descriptor that is free. A failing `select` leaves `reads` as
it is, which is one of the sets it may report. A client's data is handled as
`Convert.selectServer` says; where that leaves the buffer, the run has no next state.
-/

set_option autoImplicit false

namespace Select

open Convert

/-- `FD_SETSIZE` -/
def fdSetSize : Nat := 1024

/-- The listening descriptor, and the descriptors that stay open. -/
structure Env where
  lfd : Nat
  held : Finset Nat
  low : ∀ k ≤ lfd, k ∈ held
  small : lfd < fdSetSize

/-- The lowest descriptor that is not open. -/
def firstFree (opened : Finset Nat) : Nat :=
  ((List.range (opened.card + 1)).find? (· ∉ opened)).getD 0

/-- Where `main` is. -/
inductive Pc
  | select  -- 55–56
  | test    -- 58
  | loop    -- 71: the loop test, and 74
  | read    -- 76
deriving DecidableEq, Repr

structure State where
  clientFds : Finset Nat
  reads : Finset Nat
  maxFd : Nat
  i : Nat
  revBuff : CLib.Bytes
  pc : Pc
  clients : Finset Nat
deriving DecidableEq

/-- 45–51 -/
def init (env : Env) : State where
  clientFds := {env.lfd}
  reads := ∅
  maxFd := env.lfd
  i := 0
  revBuff := List.replicate 512 0
  pc := .select
  clients := ∅

/-- What happens next: `select` reports descriptors, `main` goes on, `read` returns. -/
inductive Act
  | select (ready : Finset Nat)
  | main
  | read (r : Read)
deriving DecidableEq

section
variable (env : Env)

/-- 60–68. A descriptor that no `fd_set` holds is outside the array. -/
def accept (s : State) : Option State :=
  let cfd := firstFree (env.held ∪ s.clients)
  if cfd < fdSetSize then
    some { s with
           clientFds := insert cfd s.clientFds
           maxFd := if cfd > s.maxFd then cfd else s.maxFd
           clients := insert cfd s.clients
           i := env.lfd + 1
           pc := .loop }
  else none

/-- The next statement of `main`; `select` and `read` are steps of `step`. -/
def stepMain (s : State) : Option State :=
  match s.pc with
  | .select => none
  | .test =>
    if env.lfd ∈ s.reads then accept env s else some { s with i := env.lfd + 1, pc := .loop }
  | .loop =>
    if s.i ≤ s.maxFd then
      if s.i ∈ s.reads then some { s with pc := .read } else some { s with i := s.i + 1 }
    else some { s with pc := .select }
  | .read => none

/-- 76–98 -/
def stepRead (s : State) : Read → Option State
  | .data chunk =>
    if chunk ≠ [] ∧ chunk.length ≤ 512 then
      (selectServer.handle s.revBuff chunk).map fun x =>
        { s with revBuff := x.1, i := s.i + 1, pc := .loop }
    else none
  | .eof =>
    some { s with
           clients := s.clients.erase s.i
           clientFds := s.clientFds.erase s.i
           i := s.i + 1
           pc := .loop }
  | .error => some { s with pc := .select }

def step (s : State) : Act → Option State
  | .select ready =>
    if s.pc = .select ∧ ready ⊆ s.clientFds then some { s with reads := ready, pc := .test }
    else none
  | .main => stepMain env s
  | .read r => if s.pc = .read then stepRead s r else none

/-! ## History -/

/-- A pass: what `select` reported in it, on which descriptors `read` was called since, and which of
these calls failed. -/
structure Pass where
  reported : Finset Nat
  calls : List Nat
  failed : Option Nat
deriving DecidableEq

def Pass.empty : Pass := ⟨∅, [], none⟩

def record (s : State) (a : Act) (p : Pass) : Pass :=
  match a with
  | .select ready => ⟨ready, [], none⟩
  | .main => p
  | .read r => { p with
                 calls := p.calls ++ [s.i]
                 failed := if r = .error then some s.i else p.failed }

/-- The server with its last pass. -/
def passStep : State × Pass → Act → Option (State × Pass) := Lts.withHist (step env) record

end

end Select
