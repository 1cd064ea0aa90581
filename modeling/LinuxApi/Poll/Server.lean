import LinuxApi.Echo.Convert
import LinuxApi.Lib.Transition

/-!
# The poll server (`select_poll_epoll/poll_server.c`)

The loop of `main`, 59–120; a statement that calls the kernel is one step. The kernel keeps the
clients that were accepted and have not been closed since; `accept` succeeds and returns a descriptor
that is not open, and `poll` does not fail (an `assert` would stop the server). `events` is `POLLIN`
in every entry and left out. An entry whose `fd` is negative gets no `revents`, any other one what
the kernel says. A client's data is handled as `Convert.pollServer` says; where that, or an index,
leaves its array, the run has no next state.
-/

set_option autoImplicit false

namespace Poll

open Convert

/-- An entry of `client_fds`. -/
structure PollFd where
  fd : Int
  revents : UInt16
deriving DecidableEq, Repr

/-- `POLLIN` -/
def pollin : UInt16 := 1

/-- `revents & POLLIN` -/
def PollFd.Readable (e : PollFd) : Prop := e.revents &&& pollin ≠ 0

instance (e : PollFd) : Decidable e.Readable := inferInstanceAs (Decidable (_ ≠ _))

/-- Where `main` is. -/
inductive Pc
  | poll   -- 62
  | test   -- 65
  | loop   -- 90: the loop test, and 92–96
  | read   -- 98
deriving DecidableEq, Repr

structure State where
  clientFds : List PollFd
  maxFd : Nat
  i : Nat
  revBuff : CLib.Bytes
  pc : Pc
  clients : Finset Int
deriving DecidableEq

/-- The `fd` fields. -/
def State.fds (s : State) : List Int := s.clientFds.map (·.fd)

/-- 45–58. The loop does not set `revents`; `junk` is what they hold. -/
def init (lfd : Nat) (junk : Nat → UInt16) : State where
  clientFds := (List.range 1024).map fun i => ⟨if i = 0 then lfd else -1, junk i⟩
  maxFd := 0
  i := 0
  revBuff := List.replicate 512 0
  pc := .poll
  clients := ∅

/-- What happens next: `poll` and `accept` return, `main` goes on, `read` returns. -/
inductive Act
  | poll (revents : List UInt16)
  | accept (cfd : Nat)
  | main
  | read (r : Read)
deriving DecidableEq

/-- What `poll` writes into the entries it is given. -/
def polled : List PollFd → List UInt16 → List PollFd
  | e :: es, r :: rs => { e with revents := if e.fd < 0 then 0 else r } :: polled es rs
  | es, _ => es

/-- 71–82: the first free slot, or 1024. -/
def search (fds : List Int) : Nat := 1 + fds.tail.findIdx (· = -1)

/-- 68–88. There may be no slot at the index to store into. -/
def accept (s : State) (cfd : Nat) : State :=
  let i := search s.fds
  { s with
    clientFds := s.clientFds.modify i fun e => { e with fd := cfd }
    maxFd := if i > s.maxFd then i else s.maxFd
    clients := insert (cfd : Int) s.clients
    i := 1
    pc := .loop }

/-- The next statement of `main`; the calls are steps of `step`. -/
def stepMain (s : State) : Option State :=
  match s.pc with
  | .poll => none
  | .test =>
    match s.clientFds[0]? with
    | some e => if e.Readable then none else some { s with i := 1, pc := .loop }
    | none => none
  | .loop =>
    if s.i ≤ s.maxFd then
      match s.clientFds[s.i]? with
      | some e =>
        if e.fd = -1 then some { s with i := s.i + 1 }
        else if e.Readable then some { s with pc := .read }
        else some { s with i := s.i + 1 }
      | none => none
    else some { s with pc := .poll }
  | .read => none

/-- 111–112 -/
def close (s : State) (fd : Int) : State :=
  { s with
    clients := s.clients.erase fd
    clientFds := s.clientFds.modify s.i fun e => { e with fd := -1 }
    i := s.i + 1
    pc := .loop }

/-- 98–117, for the descriptor of the slot -/
def stepRead (s : State) (fd : Int) : Read → Option State
  | .data chunk =>
    if chunk ≠ [] ∧ chunk.length ≤ 512 then
      (pollServer.handle s.revBuff chunk).map fun x =>
        { s with revBuff := x.1, i := s.i + 1, pc := .loop }
    else none
  | .eof => some (close s fd)
  | .error => some { s with pc := .poll }

/-- `lfd` is the listening descriptor. -/
def step (lfd : Nat) (s : State) : Act → Option State
  | .poll revents =>
    if s.pc = .poll ∧ s.maxFd < s.clientFds.length ∧ revents.length = s.maxFd + 1 then
      some { s with clientFds := polled s.clientFds revents, pc := .test }
    else none
  | .accept cfd =>
    match s.clientFds[0]? with
    | some e =>
      if s.pc = .test ∧ e.Readable ∧ cfd ≠ lfd ∧ (cfd : Int) ∉ s.clients then some (accept s cfd)
      else none
    | none => none
  | .main => stepMain s
  | .read r =>
    match s.clientFds[s.i]? with
    | some e => if s.pc = .read then stepRead s e.fd r else none
    | none => none

/-! ## History -/

/-- A pass: the entries that `poll` was given, with what it reported; the client accepted since; and
the descriptors on which `read` was called since. -/
structure Pass where
  given : List PollFd
  accepted : Option Int
  calls : List Int
deriving DecidableEq

def Pass.empty : Pass := ⟨[], none, []⟩

/-- The descriptors on which a `read` is called at an index: one, if the array has the index. -/
def State.slotFd (s : State) : List Int := (s.fds[s.i]?).toList

def record (s : State) (a : Act) (p : Pass) : Pass :=
  match a with
  | .poll revents => ⟨(polled s.clientFds revents).take (s.maxFd + 1), none, []⟩
  | .accept cfd => { p with accepted := some cfd }
  | .main => p
  | .read _ => { p with calls := p.calls ++ s.slotFd }

/-- The server with its last pass. -/
def passStep (lfd : Nat) : State × Pass → Act → Option (State × Pass) :=
  Lts.withHist (step lfd) record

/-! ## What is claimed of the server -/

/-- The table has every client in one slot between 1 and `max_fd`, and is free behind it. -/
def Tabled (s : State) : Prop :=
  s.maxFd ≤ 1023 ∧ (∀ c ∈ s.clients, ((s.fds.drop 1).take s.maxFd).count c = 1) ∧
    ∀ fd ∈ s.fds.drop (s.maxFd + 1), fd = -1

/-- A client connects only while there are less than 1023. -/
def Room (s : State) : Act → Prop
  | .accept _ => s.clients.card < 1023
  | _ => True

instance : ∀ s a, Decidable (Room s a)
  | s, .accept _ => inferInstanceAs (Decidable (s.clients.card < 1023))
  | _, .poll _ => inferInstanceAs (Decidable True)
  | _, .main => inferInstanceAs (Decidable True)
  | _, .read _ => inferInstanceAs (Decidable True)

/-- `poll` was given the descriptor in this pass, and has reported `POLLIN` for it. -/
def Pass.Reported (p : Pass) (fd : Int) : Prop := ∃ e ∈ p.given, e.fd = fd ∧ e.Readable

/-- Whatever was read in this pass was reported in it; the client accepted in it was not read. -/
def Pass.Fresh (p : Pass) : Prop :=
  (∀ fd ∈ p.calls, p.Reported fd) ∧ ∀ fd ∈ p.accepted, fd ∉ p.calls

end Poll
