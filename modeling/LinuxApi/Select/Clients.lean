import LinuxApi.Lib.LevelLoop
import LinuxApi.Select.Server

/-!
# The clients of the select server (`select_poll_epoll/select_server.c`)

The server with the connections of its clients, which determine what its calls return: `select` reports
every descriptor that is ready and waits until there is one, `accept` takes the first connection that
waits, and `read` takes what has arrived, up to 512 bytes. The clients may shut down their sides of
the connections but not reset them, so that neither `read` nor `write` fails.
-/

set_option autoImplicit false

namespace Select

open CLib Convert

structure Net where
  srv : State
  conns : List (LevelLoop.Conn Nat)
deriving DecidableEq

namespace Net

def init (env : Env) : Net := ⟨Select.init env, []⟩

inductive Act
  | peer (p : LevelLoop.Peer)
  | select
  | main
  | read
deriving DecidableEq, Repr

/-- The steps of the server. -/
def Act.isServer : Act → Bool
  | .peer _ => false
  | .select | .main | .read => true

section
variable (env : Env)

def stepSelect (x : Net) : Option Net :=
  let ready := x.srv.clientFds.filter (LevelLoop.ready env.lfd x.conns · = true)
  if ready = ∅ then none
  else (Select.step env x.srv (.select ready)).map fun srv => { x with srv }

/-- At the call of `accept`, 64, a connection is taken; at the other statements none. -/
def stepMain (x : Net) : Option Net :=
  if x.srv.pc = .test ∧ env.lfd ∈ x.srv.reads then do
    let k ← LevelLoop.find x.conns .waiting
    let c ← x.conns[k]?
    let srv ← Select.step env x.srv .main
    some ⟨srv, x.conns.set k (c.accepted (firstFree (env.held ∪ x.srv.clients)))⟩
  else (Select.step env x.srv .main).map fun srv => { x with srv }

/-- 77. Without a connection the descriptor is not open. -/
def stepRead (x : Net) : Option Net :=
  match LevelLoop.find x.conns (.opened x.srv.i) with
  | none => (Select.step env x.srv (.read .error)).map fun srv => { x with srv }
  | some k => do
    let c ← x.conns[k]?
    let chunk ← c.read 512
    let srv ← Select.step env x.srv (.read (if chunk = [] then .eof else .data chunk))
    some ⟨srv, x.conns.set k (c.handled chunk (selectServer.answer x.srv.revBuff chunk))⟩

def step (x : Net) : Act → Option Net
  | .peer p => (LevelLoop.peer x.conns p).map fun conns => { x with conns }
  | .select => stepSelect env x
  | .main => stepMain env x
  | .read => if x.srv.pc = .read then stepRead env x else none

/-- Clients send less than 512 bytes before they are read, and connect only while there is a descriptor
for them that an `fd_set` can hold. -/
def Modest (x : Net) : Act → Prop
  | .peer p => LevelLoop.Modest 512 (fdSetSize - env.held.card) x.conns p
  | _ => True

instance : ∀ x a, Decidable (Modest env x a)
  | x, .peer p =>
    inferInstanceAs (Decidable (LevelLoop.Modest 512 (fdSetSize - env.held.card) x.conns p))
  | _, .select | _, .main | _, .read => inferInstanceAs (Decidable True)

/-- The server waits in `select`: every client was accepted and read to its end, exactly those that have
ended are closed, and text was answered in upper case. -/
def Quiet (x : Net) : Prop := x.srv.pc = .select ∧ LevelLoop.Settled env.lfd toupper x.conns

end

end Net

end Select
