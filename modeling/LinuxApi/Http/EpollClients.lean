import LinuxApi.Http.EpollServer
import LinuxApi.Lib.Transition

/-!
# The clients of the epoll server (`http_code/epoll/http_epoll.c`)

`epoll_run` with any number of clients, one call of `recv` a step; clients connect, send and close at
any time in between. A client is its index, in the order of the connections, and the record also
keeps what the server has done to its descriptor. The descriptors are registered with `EPOLLET`: a
report is made when bytes arrive, when the client closes, and at registration if there is
something to read; `epoll_wait` takes reports of descriptors that can be read. What the server sends
is not modelled here, and a close is an orderly one.
-/

set_option autoImplicit false

namespace EpollHttp

open CLib

/-- A client. `inbox` is what has arrived and not been read, `fin` that it has closed; `eof` says that
a `recv` on its descriptor has returned 0, `removes` and `closes` how often the descriptor was taken
out of the epoll set and closed. -/
structure Client where
  inbox : Bytes
  fin : Bool
  accepted : Bool
  registered : Bool
  report : Bool
  eof : Bool
  removes : Nat
  closes : Nat
deriving DecidableEq, Repr

/-- A client that has connected. -/
def Client.new : Client := ⟨[], false, false, false, false, false, 0, 0⟩

/-- `recv` would not return -1. -/
def Client.readable (c : Client) : Bool := !c.inbox.isEmpty || c.fin

/-- The server holds a descriptor for the client. -/
def Client.held (c : Client) : Bool := c.accepted && c.closes == 0

/-- The locals of `do_read`, and of `get_line` in it: `line` is the first line, `buff` the line after
it that is being read, if it is one of those. -/
structure Reading where
  client : Nat
  rest : List (Option Nat)
  line : Bytes
  buff : Option Bytes
deriving DecidableEq, Repr

/-- Where the server is. An event is the index of a client, or `none` for the listening descriptor;
`loop` has the events that are still to be handled. -/
inductive Pc
  | wait                               -- 21
  | loop (events : List (Option Nat))  -- 23
  | recv (r : Reading)                 -- 264
  | peek (r : Reading)                 -- 271
  | eat (r : Reading)                  -- 275
  | check (r : Reading)                -- 102
  | remove (r : Reading)               -- 163
  | close (r : Reading)                -- 165
deriving DecidableEq, Repr

/-- The clients, those that wait for `accept`, and the server. -/
structure Sys where
  clients : List Client
  backlog : List Nat
  report : Bool
  pc : Pc
deriving DecidableEq, Repr

def Sys.init : Sys := ⟨[], [], false, .wait⟩

/-! ## `get_line` -/

/-- The bytes that the current `get_line` has stored. -/
def Reading.cur (r : Reading) : Bytes := r.buff.getD r.line

/-- `buf[i] = c; i++;` -/
def Reading.push (r : Reading) (b : UInt8) : Reading :=
  match r.buff with
  | none => { r with line := r.line ++ [b] }
  | some buff => { r with buff := some (buff ++ [b]) }

/-- `get_line` returns to the loop of `do_read`. -/
def Reading.return (r : Reading) : Pc :=
  if r.cur = [] then .check r else .recv { r with buff := some [] }

/-- The end of a round of the loop of `get_line`, with `b` in `c`. -/
def Reading.store (r : Reading) (b : UInt8) : Pc :=
  if b = 10 ∨ (r.push b).cur.length = 1023 then (r.push b).return else .recv (r.push b)

/-! ## Steps -/

/-- The end of the stream, if it is one, is seen. -/
def Client.seeEnd (c : Client) : Client := { c with eof := c.eof || c.fin }

/-- `recv`, `recv` with `MSG_PEEK` and `recv` again, in `get_line`: what becomes of the client, and
where the server goes on. -/
def recvStep (r : Reading) (c : Client) : Client × Pc :=
  match c.inbox with
  | b :: inbox => ({ c with inbox }, if b = 13 then .peek r else r.store b)
  | [] => (c.seeEnd, r.return)

def peekStep (r : Reading) (c : Client) : Client × Pc :=
  match c.inbox with
  | b :: _ => (c, if b = 10 then .eat r else r.store 10)
  | [] => (c.seeEnd, r.store 10)

def eatStep (r : Reading) (c : Client) : Client × Pc :=
  match c.inbox with
  | b :: inbox => ({ c with inbox }, r.store b)
  | [] => (c.seeEnd, r.store 10)

/-- A step that does something to the client that is being read. -/
def Sys.update (s : Sys) (r : Reading) (f : Client → Client × Pc) : Option Sys :=
  (s.clients[r.client]?).map fun c =>
    { s with clients := s.clients.set r.client (f c).1, pc := (f c).2 }

/-- `do_accept`; without a connection the assertion fails. -/
def stepAccept (s : Sys) (rest : List (Option Nat)) : Option Sys :=
  match s.backlog with
  | k :: backlog =>
    (s.clients[k]?).map fun c =>
      { s with
        clients := s.clients.set k
          { c with accepted := true, registered := true, report := c.readable }
        backlog
        pc := .loop rest }
  | [] => none

/-- The next step of the server; `epoll_wait` is a step of `sysStep`. -/
def stepServer (s : Sys) : Option Sys :=
  match s.pc with
  | .wait => none
  | .loop [] => some { s with pc := .wait }
  | .loop (none :: rest) => stepAccept s rest
  | .loop (some k :: rest) => some { s with pc := .recv ⟨k, rest, [], none⟩ }
  | .recv r => s.update r (recvStep r)
  | .peek r => s.update r (peekStep r)
  | .eat r => s.update r (eatStep r)
  -- the answer to the request is sent before `disconnect`
  | .check r => some { s with pc := if isGet r.line then .remove r else .loop r.rest }
  | .remove r =>
    s.update r fun c =>
      ({ c with registered := false, report := false, removes := c.removes + 1 }, .close r)
  | .close r => s.update r fun c => ({ c with closes := c.closes + 1 }, .loop r.rest)

/-- A report of this event can be taken. -/
def Sys.reported (s : Sys) : Option Nat → Bool
  | none => s.report && !s.backlog.isEmpty
  | some k =>
    match s.clients[k]? with
    | some c => c.registered && c.report && c.readable
    | none => false

/-- `epoll_wait` returns `events`. -/
def stepWait (s : Sys) (events : List (Option Nat)) : Option Sys :=
  if s.pc = .wait ∧ events ≠ [] ∧ events.length ≤ 1024 ∧ events.Nodup ∧
      ∀ e ∈ events, s.reported e = true then
    some { s with
           clients := s.clients.mapIdx fun k c =>
             if some k ∈ events then { c with report := false } else c
           report := if none ∈ events then false else s.report
           pc := .loop events }
  else none

inductive Act
  | connect
  | send (k : Nat) (bytes : Bytes)
  | close (k : Nat)
  | wait (events : List (Option Nat))
  | server
deriving DecidableEq, Repr

def sysStep (s : Sys) : Act → Option Sys
  | .connect =>
    some { s with
           clients := s.clients ++ [.new]
           backlog := s.backlog ++ [s.clients.length]
           report := true }
  | .send k bytes =>
    match s.clients[k]? with
    | some c =>
      if c.fin then none
      else
        some { s with
               clients := s.clients.set k
                 { c with
                   inbox := c.inbox ++ bytes
                   report := c.report || (c.registered && !bytes.isEmpty) } }
    | none => none
  | .close k =>
    match s.clients[k]? with
    | some c =>
      if c.fin then none
      else
        some { s with
               clients := s.clients.set k { c with fin := true, report := c.report || c.registered } }
    | none => none
  | .wait events => stepWait s events
  | .server => stepServer s

/-! ## The ends of streams -/

/-- Where a `recv` is about to be called. -/
def Pc.receiving : Pc → Option Reading
  | .recv r | .peek r | .eat r => some r
  | _ => none

/-- A `recv` returns 0 only after a first line that begins with `get`. -/
def EndsInGet (s : Sys) : Act → Prop
  | .server => ∀ r ∈ s.pc.receiving, ∀ c ∈ s.clients[r.client]?,
      c.inbox = [] → c.fin = true → isGet r.line = true
  | _ => True

instance : ∀ s a, Decidable (EndsInGet s a)
  | s, .server => inferInstanceAs (Decidable (∀ r ∈ s.pc.receiving, ∀ c ∈ s.clients[r.client]?,
      c.inbox = [] → c.fin = true → isGet r.line = true))
  | _, .connect | _, .send _ _ | _, .close _ | _, .wait _ => inferInstanceAs (Decidable True)

end EpollHttp
