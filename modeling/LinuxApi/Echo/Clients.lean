import LinuxApi.Echo.EtWork
import LinuxApi.Echo.Servers
import LinuxApi.Lib.EventLoop

/-!
# The clients of the epoll servers (`select_poll_epoll/`)

The loops of `epoll_server.c`, `epoll_server2.c` and `mtlt.cpp` with all their clients, as event loops.
The clients may shut down their sides of the connections but not reset them, so that neither `recv`
nor `send` fails; the sockets do not block, so that `recv` is not interrupted. What a run reads is
recorded as the events of `Echo.Server`.
-/

set_option autoImplicit false

namespace EtWork

open CLib

/-- `lt_work` of both servers, 73–99, and whether it comes to `exit(-1)`. -/
def ltWork : Body
  | .data chunk => ([.send chunk.length], false)
  | .eof => ([.ctlDel, .close], false)
  | .again | .intr | .badf | .error => ([], false)

def ltWorkExits : Recv → Bool
  | .data _ | .eof => false
  | .again | .intr | .badf | .error => true

/-- `lt` of `mtlt.cpp`, 52–63 -/
def lt : Body
  | .data _ => ([], false)
  | .eof | .again | .intr | .badf | .error => ([.close], false)

/-- The loops over the events. In `mtlt.cpp` the call of `lt` is commented out. -/
inductive Program
  | ltWork
  | etWork1
  | etWork2
  | lt
  | et
deriving DecidableEq, Repr

/-- What `recv` reports to the loop. -/
def recvOf : EventLoop.Result → Recv
  | .data chunk => .data chunk
  | .eof => .eof
  | .again => .again
  | .badf => .badf

namespace Program

def body : Program → Body
  | .ltWork => EtWork.ltWork
  | .etWork1 => EtWork.etWork1
  | .etWork2 => EtWork.etWork2
  | .lt => EtWork.lt
  | .et => EtWork.et

def exits : Program → Recv → Bool
  | .ltWork => ltWorkExits
  | .etWork1 | .etWork2 | .lt | .et => fun _ => false

/-- The argument of `epoll_addfd` and of `addfd` for a client. -/
def enableEt : Program → Bool
  | .ltWork | .lt => false
  | .etWork1 | .etWork2 | .et => true

/-- `BUFF_SIZE-1` and `BUFFER_SIZE-1` -/
def size : Program → Nat
  | .ltWork | .etWork1 | .etWork2 => 5
  | .lt | .et => 9

/-- `MAX_EVENT_NUM` and `MAX_EVENT_NUMBER` -/
def maxEvents : Program → Nat
  | .ltWork | .etWork1 | .etWork2 => 21
  | .lt | .et => 1024

def loop (p : Program) : EventLoop.Loop where
  et := p.enableEt
  size := p.size
  maxEvents := p.maxEvents
  next r := ⟨decide (.close ∈ (p.body (recvOf r)).1), (p.body (recvOf r)).2, p.exits (recvOf r)⟩

/-- The buffer, of those that convert what is in it. -/
def server : Program → Option Echo.Server
  | .ltWork => some Echo.ltWork
  | .etWork1 => some Echo.etWorkMemset
  | .etWork2 => some Echo.etWork
  | .lt | .et => none

end Program

/-- The event that a `recv` is. -/
def seen (k : Nat) : EventLoop.Result → List Echo.Event
  | .data chunk => [.data k chunk]
  | .eof => [.eof k]
  | .again | .badf => []

/-- What has been read, round by round. -/
def record (L : EventLoop.Loop) (s : EventLoop.State) (a : EventLoop.Act)
    (events : List Echo.Event) : List Echo.Event :=
  match a, s.pc with
  | .wait _, _ => events ++ [.round]
  | .next, .recv k _ => events ++ (s.conns[k]?).elim [] fun c => seen k (c.recv L.size).1
  | _, _ => events

end EtWork
