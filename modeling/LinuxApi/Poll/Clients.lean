import LinuxApi.Lib.LevelLoop
import LinuxApi.Poll.Server

/-!
# The clients of the poll server (`select_poll_epoll/poll_server.c`)

The server with the connections of its clients: `poll` reports every entry that is ready and waits
until there is one, `accept` takes the first connection that waits, and `read` waits until something
has arrived and takes it, up to 512 bytes. The clients may shut down their sides of the connections
but not reset them, so that neither `read` nor `write` fails.
-/

set_option autoImplicit false

namespace Poll

open CLib Convert

structure Net where
  srv : State
  conns : List (LevelLoop.Conn Int)
deriving DecidableEq

namespace Net

def init (lfd : Nat) (junk : Nat → UInt16) : Net := ⟨Poll.init lfd junk, []⟩

inductive Act
  | peer (p : LevelLoop.Peer)
  | poll
  | accept (cfd : Nat)
  | main
  | read
deriving DecidableEq, Repr

/-- The steps of the server. -/
def Act.isServer : Act → Bool
  | .peer _ => false
  | .poll | .accept _ | .main | .read => true

section
variable (lfd : Nat)

/-- What the kernel says of an entry. -/
def revents (x : Net) (e : PollFd) : UInt16 :=
  if LevelLoop.ready (lfd : Int) x.conns e.fd then pollin else 0

/-- 63. The entries up to `max_fd` are looked at. -/
def stepPoll (x : Net) : Option Net :=
  let entries := x.srv.clientFds.take (x.srv.maxFd + 1)
  if ∀ e ∈ entries, LevelLoop.ready (lfd : Int) x.conns e.fd = false then none
  else (Poll.step lfd x.srv (.poll (entries.map (revents lfd x)))).map fun srv => { x with srv }

/-- 71. The connection gets the descriptor `cfd`. -/
def stepAccept (x : Net) (cfd : Nat) : Option Net := do
  let k ← LevelLoop.find x.conns .waiting
  let c ← x.conns[k]?
  let srv ← Poll.step lfd x.srv (.accept cfd)
  some ⟨srv, x.conns.set k (c.accepted cfd)⟩

/-- 98. Without a connection the descriptor is not open. -/
def stepRead (x : Net) (fd : Int) : Option Net :=
  match LevelLoop.find x.conns (.opened fd) with
  | none => (Poll.step lfd x.srv (.read .error)).map fun srv => { x with srv }
  | some k => do
    let c ← x.conns[k]?
    let chunk ← c.read 512
    let srv ← Poll.step lfd x.srv (.read (if chunk = [] then .eof else .data chunk))
    some ⟨srv, x.conns.set k (c.handled chunk (pollServer.answer x.srv.revBuff chunk))⟩

def step (x : Net) : Act → Option Net
  | .peer p => (LevelLoop.peer x.conns p).map fun conns => { x with conns }
  | .poll => stepPoll lfd x
  | .accept cfd => stepAccept lfd x cfd
  | .main => (Poll.step lfd x.srv .main).map fun srv => { x with srv }
  | .read =>
    match x.srv.clientFds[x.srv.i]? with
    | some e => if x.srv.pc = .read then stepRead lfd x e.fd else none
    | none => none

/-- Clients send less than 512 bytes before they are read, and connect only while there are less than
1023. -/
def Modest (x : Net) : Act → Prop
  | .peer p => LevelLoop.Modest 512 1023 x.conns p
  | _ => True

instance : ∀ x a, Decidable (Modest x a)
  | x, .peer p => inferInstanceAs (Decidable (LevelLoop.Modest 512 1023 x.conns p))
  | _, .poll | _, .accept _ | _, .main | _, .read => inferInstanceAs (Decidable True)

/-- The server waits in `poll`: every client was accepted and read to its end, exactly those that have
ended are closed, and text was answered in upper case. -/
def Quiet (x : Net) : Prop := x.srv.pc = .poll ∧ LevelLoop.Settled (lfd : Int) toupper x.conns

end

end Net

end Poll
