import LinuxApi.Lib.Transition

/-!
# Accepting connections from an edge-triggered listening socket

The servers of `http_code/epoll/http_epoll.c` (`epoll_run`) and of
`select_poll_epoll/epoll_server.c` and `epoll_server2.c` (`main` with `lt_work` or `et_work`)
register the listening socket with `EPOLLET` and accept once for each report. The kernel's part is
the accept queue and one flag: a report of the listening socket is outstanding if a
connection has arrived since the last one. Connections arrive at any time, also while the server
handles a batch of events.
-/

set_option autoImplicit false

namespace Epoll

/-- An entry of `events`: the listening socket or a client. -/
inductive Event
  | listen
  | client (fd : Nat)
deriving DecidableEq, Repr

/-- A registered client; `et` says whether with `EPOLLET`. -/
structure Client where
  fd : Nat
  et : Bool
deriving DecidableEq, Repr

/-- Where the server is: in `epoll_wait`, or with these events of the batch before it. -/
inductive Phase
  | wait
  | handle (events : List Event)
deriving DecidableEq, Repr

/-- The accept queue (of the descriptors `accept` will return), whether a report of the listening
socket is outstanding, and the server. -/
structure State where
  queue : List Nat
  report : Bool
  phase : Phase
  clients : List Client
deriving DecidableEq, Repr

/-- The listening socket has just been registered. -/
def init : State := ⟨[], false, .wait, []⟩

/-- The loops: `epoll_run`, and `main` with `lt_work` or with `et_work`. -/
inductive Server
  | epollRun
  | ltWork
  | etWork
deriving DecidableEq, Repr

/-- `MAX_EVENTS`, and `MAX_EVENT_NUM` of the other two. -/
def Server.maxEvents : Server → Nat
  | .epollRun => 1024
  | .ltWork | .etWork => 21

/-- `do_accept`: the assertion fails if there is no connection. -/
def doAccept (s : State) : Option State :=
  match s.queue with
  | cfd :: queue => some { s with queue, clients := s.clients ++ [⟨cfd, true⟩] }
  | [] => none

/-- The branch `fd == listenfd` of `lt_work` and `et_work`, which do not look at what `accept`
returned: `epoll_addfd` of `-1` does nothing. -/
def workAccept (enableEt : Bool) (s : State) : State :=
  match s.queue with
  | cfd :: queue => { s with queue, clients := s.clients ++ [⟨cfd, enableEt⟩] }
  | [] => s

def Server.accept (srv : Server) (s : State) : Option State :=
  match srv with
  | .epollRun => doAccept s
  | .ltWork => some (workAccept false s)
  | .etWork => some (workAccept true s)

/-- The handling of one event. A client is read, and removed if `close` says so; that depends on
what it has sent. -/
def Server.handle (srv : Server) (close : Bool) (s : State) : Event → Option State
  | .listen => srv.accept s
  | .client fd =>
    some (if close then { s with clients := s.clients.filter (·.fd ≠ fd) } else s)

/-- A connection arrives, `epoll_wait` returns `events`, or the loop over the batch goes on. -/
inductive Act
  | arrive (cfd : Nat)
  | epollWait (events : List Event)
  | next (close : Bool)
deriving DecidableEq, Repr

/-- The kernel may report the descriptor. -/
def State.ready (s : State) : Event → Bool
  | .listen => s.report
  | .client fd => (s.clients.map (·.fd)).contains fd

/-- What `epoll_wait` may return. -/
def Server.batch (srv : Server) (s : State) (events : List Event) : Prop :=
  events ≠ [] ∧ events.length ≤ srv.maxEvents ∧ events.Nodup ∧
    ∀ e ∈ events, s.ready e = true

instance (srv : Server) (s : State) (events : List Event) : Decidable (srv.batch s events) :=
  inferInstanceAs (Decidable (_ ∧ _ ∧ _ ∧ _))

def step (srv : Server) (s : State) : Act → Option State
  | .arrive cfd => some { s with queue := s.queue ++ [cfd], report := true }
  | .epollWait events =>
    if s.phase = .wait ∧ srv.batch s events then
      some { s with
        phase := .handle events
        report := s.report && !events.contains .listen }
    else none
  | .next close =>
    match s.phase with
    | .wait => none
    | .handle [] => some { s with phase := .wait }
    | .handle (e :: events) =>
      (srv.handle close s e).map fun s' => { s' with phase := .handle events }

/-- The server is blocked, and there is no report of the listening socket that would wake it. -/
def blocked (s : State) : Prop := s.phase = .wait ∧ s.report = false

instance (s : State) : Decidable (blocked s) := inferInstanceAs (Decidable (_ ∧ _))

end Epoll
