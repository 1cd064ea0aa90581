import LinuxApi.Lib.CString

/-!
# The echo servers (`select_poll_epoll/`)

Every server reads what a client has sent into its one buffer, rewrites the string in the buffer
with `toupper`, and writes back as many bytes as it has read. The servers differ in the size of the
buffer, in how much they read at once and in when the buffer is zeroed. `serve` is the run of a
server over the events it handles, with writes completing; it ends in `none` where the loop over
the string runs past the buffer.
-/

set_option autoImplicit false

namespace Echo

open CLib

/-- When the buffer is zeroed after the start. -/
inductive Clear
  | never
  | round  -- with every return of `epoll_wait`, where the array is declared
  | read   -- before every `recv`
deriving DecidableEq, Repr

/-- The buffer of a server and the limit of its reads. -/
structure Server where
  size : Nat
  limit : Nat
  clear : Clear
deriving DecidableEq, Repr

/-- `lt_work` (`epoll_server.c` 53–107, `epoll_server2.c` 53–107) -/
def ltWork : Server := ⟨6, 5, .round⟩

/-- `et_work` of `epoll_server2.c`, 111–179 -/
def etWork : Server := ⟨6, 5, .round⟩

/-- `et_work` of `epoll_server.c`, 111–177 -/
def etWorkMemset : Server := ⟨6, 5, .read⟩

/-- `main` of `select_server.c`, 51–102 -/
def selectServer : Server := ⟨512, 512, .never⟩

/-- `main` of `poll_server.c`, 58–123 -/
def pollServer : Server := ⟨512, 512, .never⟩

/-- What a server meets: a new round of events, a read that returns bytes of a client, the end of
a client's stream. -/
inductive Event
  | round
  | data (client : Nat) (chunk : Bytes)
  | eof (client : Nat)
deriving DecidableEq, Repr

namespace Server

variable (srv : Server)

/-- The buffer at the start. -/
def zeros : Bytes := List.replicate srv.size 0

/-- The buffer at an event, before anything is read into it. -/
def ready (buf : Bytes) : Event → Bytes
  | .round => if srv.clear = .round then srv.zeros else buf
  | .data _ _ | .eof _ => if srv.clear = .read then srv.zeros else buf

/-- What the server writes, client by client, over its events. -/
def serve : Bytes → List Event → Option (List (Nat × Bytes))
  | _, [] => some []
  | buf, .data client chunk :: events =>
    match mapCstr toupper (fill (srv.ready buf (.data client chunk)) chunk) with
    | some buf' => (serve buf' events).map ((client, buf'.take chunk.length) :: ·)
    | none => none
  | buf, ev :: events => serve (srv.ready buf ev) events

end Server

/-- What each read returns, client by client. -/
def reads : List Event → List (Nat × Bytes)
  | [] => []
  | .data client chunk :: events => (client, chunk) :: reads events
  | _ :: events => reads events

/-- The bytes of one client, in order. -/
def stream (client : Nat) (log : List (Nat × Bytes)) : Bytes :=
  ((log.filter (·.1 = client)).map (·.2)).flatten

/-- The server writes every client's stream back to it in upper case. -/
def Echoes (srv : Server) (events : List Event) : Prop :=
  ∃ log, srv.serve srv.zeros events = some log ∧
    ∀ client, stream client log = (stream client (reads events)).map toupper

/-- What each read returns fits the call. -/
def Cut (srv : Server) (events : List Event) : Prop :=
  ∀ x ∈ reads events, 0 < x.2.length ∧ x.2.length ≤ srv.limit

/-- `toupper` changes nothing after the first `NUL`. -/
def PlainTail (chunk : Bytes) : Prop :=
  ∀ b ∈ chunk.drop (cstr chunk).length, toupper b = b

/-- What the reads return, laid over each other in the buffer, always leaves a `NUL` in it. -/
def Server.Ended (srv : Server) : Bytes → List Event → Prop
  | _, [] => True
  | buf, .data client chunk :: events =>
    (0 : UInt8) ∈ fill (srv.ready buf (.data client chunk)) chunk ∧
      srv.Ended (fill (srv.ready buf (.data client chunk)) chunk) events
  | buf, ev :: events => srv.Ended (srv.ready buf ev) events

end Echo
