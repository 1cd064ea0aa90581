import LinuxApi.Chat.Server
import LinuxApi.Lib.Fanout
import LinuxApi.Tcp.Client

/-!
# What the clients of the chat are shown (`server_code/server.c`, `server_code/client.c`)

The clients of `fds` and the threads that serve them, while nobody comes or goes. A step is a line that
`sendsocket` reads and sends, a `recv` of a thread, one turn of its loop over `fds`, or a `recv` of a
client and what it prints. A `recv` returns some of the bytes that are there, at most 512. `send` does
not fail on a client and does on descriptor 0.
-/

set_option autoImplicit false

namespace Relay

open CLib

/-- `"fd=%d:"` -/
def header (fd : Nat) : Bytes := ascii "fd=" ++ dec fd ++ ascii ":"

/-- `recvbuf` of `server.c` and `client.c` after `recv`. -/
def recvbuf (chunk : Bytes) : Bytes := fill (List.replicate 512 0) chunk

/-- 80–82 of `server.c`: the string that is appended to the header; `none` if it has no end or does
not fit into `sendbuf`. -/
def relayed (fd : Nat) (chunk : Bytes) : Option Bytes :=
  if (0 : UInt8) ∈ recvbuf chunk ∧ (header fd).length + (cstr (recvbuf chunk)).length < 512 then
    some (cstr (recvbuf chunk))
  else none

/-- `sendbuf` of `server.c` after 82. -/
def sendbuf (fd : Nat) (text : Bytes) : Bytes :=
  fill (List.replicate 512 0) (header fd ++ text)

/-- `fds`, when its first slots are taken. -/
def table (fds : List Nat) : List Nat := fds ++ List.replicate (Chat.size - fds.length) 0

/-- Indexed by the descriptors of the server. `stdin` is what was typed and is not read yet, `up` what
is on its way to the server and `down` what is on its way back, `shown` what was printed. Of `room`,
`started` are the strings that a thread sends on, and `given` those that were sent to a client, with
the descriptors that they are from. `overrun` and `past` say that the server or a client has left a
buffer. -/
structure State where
  stdin : Nat → Bytes
  up : Nat → Bytes
  room : Fanout Nat Bytes
  overrun : Bool
  down : Nat → Bytes
  shown : Nat → List Bytes
  past : Nat → Bool

/-- `i` goes from 0 to `user`, which counts the clients. -/
def init (fds : List Nat) (text : Nat → Bytes) : State where
  stdin := text
  up _ := []
  room := .init ((table fds).take (fds.length + 1))
  overrun := false
  down _ := []
  shown _ := []
  past _ := false

inductive Act
  | fgets (d : Nat)
  | recv (d n : Nat)
  | send (d : Nat)
  | print (d n : Nat)
deriving DecidableEq, Repr

/-- 46–49 of `client.c`. At the end of its input the client sends nothing, for ever; this is no step. -/
def stepFgets (s : State) (d : Nat) : Option State :=
  match s.stdin d with
  | [] => none
  | b :: input =>
    let line := TcpClient.fgets 511 (b :: input)
    some { s with
      stdin := Function.update s.stdin d line.2
      up := Function.update s.up d (s.up d ++ cstr (fill (List.replicate 512 0) line.1)) }

/-- 63–82 of `server.c`. -/
def stepRecv (s : State) (d n : Nat) : Option State :=
  if s.overrun = false ∧ s.room.loop d = none ∧ 0 < n ∧ n ≤ 512 ∧ n ≤ (s.up d).length then
    match relayed d ((s.up d).take n) with
    | some text =>
      some { s with
        up := Function.update s.up d ((s.up d).drop n)
        room := s.room.start d text }
    | none =>
      some { s with up := Function.update s.up d ((s.up d).drop n), overrun := true }
  else none

/-- 86 of `server.c`, in the slot where the loop is. -/
def State.sent (s : State) (d i : Nat) (text : Bytes) : Nat → Bytes :=
  match s.room.slots[i]? with
  | some x =>
    if x ≠ d then Function.update s.down x (s.down x ++ cstr (sendbuf d text)) else s.down
  | none => s.down

/-- 84–88 of `server.c`. -/
def stepSend (s : State) (d : Nat) : Option State :=
  if s.overrun = false then
    match s.room.loop d with
    | none => none
    | some (i, text) =>
      some { s with room := s.room.advance d i text, down := s.sent d i text }
  else none

/-- 60–65 of `client.c`. -/
def stepPrint (s : State) (d n : Nat) : Option State :=
  if 0 < n ∧ n ≤ 512 ∧ n ≤ (s.down d).length then
    if n < 512 then
      some { s with
        down := Function.update s.down d ((s.down d).drop n)
        shown := Function.update s.shown d
          (s.shown d ++ [cstr ((recvbuf ((s.down d).take n)).set n 0)]) }
    else
      some { s with
        down := Function.update s.down d ((s.down d).drop n)
        past := Function.update s.past d true }
  else none

def step (fds : List Nat) (s : State) : Act → Option State
  | .fgets d => if d ∈ fds ∧ s.past d = false then stepFgets s d else none
  | .recv d n => if d ∈ fds then stepRecv s d n else none
  | .send d => if d ∈ fds then stepSend s d else none
  | .print d n => if d ∈ fds ∧ s.past d = false then stepPrint s d n else none

/-! ## What is said of the relay -/

/-- What `sendsocket` sends of a text. -/
def typed (text : Bytes) : Bytes := ((TcpClient.pieces text).map cstr).flatten

/-- A string from a client, as the others are sent it. -/
def message (x : Nat × Bytes) : Bytes := header x.1 ++ x.2

/-- Descriptors of clients that all have a thread, by 113. -/
structure Clients (fds : List Nat) : Prop where
  nodup : fds.Nodup
  pos : 0 ∉ fds
  int : ∀ d ∈ fds, d < 2 ^ 31
  served : fds.length < 19

/-- A `recv` returns no more than the buffers hold: behind the header, and before the `NUL`. -/
def Act.Fits : Act → Prop
  | .recv d n => (header d).length + n < 512
  | .print _ n => n < 512
  | _ => True

instance : ∀ a : Act, Decidable a.Fits
  | .recv d n => inferInstanceAs (Decidable ((header d).length + n < 512))
  | .print _ n => inferInstanceAs (Decidable (n < 512))
  | .fgets _ | .send _ => inferInstanceAs (Decidable True)

/-- Nothing is received that a buffer cannot hold. -/
def Within (_ : State) (a : Act) : Prop := a.Fits

instance (s : State) (a : Act) : Decidable (Within s a) := inferInstanceAs (Decidable a.Fits)

/-- Everything that was typed has been shown to everybody else: what a client is shown is made up of
the messages of the others, and those of one of them are what it typed. -/
structure Delivered (fds : List Nat) (text : Nat → Bytes) (s : State) : Prop where
  overrun : s.overrun = false
  past : ∀ d ∈ fds, s.past d = false
  quiet : ∀ d ∈ fds, s.stdin d = [] ∧ s.up d = [] ∧ s.room.loop d = none ∧ s.down d = []
  shown : ∀ b ∈ fds, (s.shown b).flatten = (s.room.given b).flatMap message
  others : ∀ b ∈ fds, ∀ x ∈ s.room.given b, x.1 ∈ fds ∧ x.1 ≠ b
  texts : ∀ a ∈ fds, ∀ b ∈ fds, b ≠ a → (s.room.got a b).flatten = typed (text a)

end Relay
