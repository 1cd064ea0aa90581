import LinuxApi.Lib.CString

/-!
# The conversion loops

Six servers answer a message in the same way: it is read into a buffer, the string in the buffer is
rewritten with `toupper`, and some of the buffer is sent back. They differ in the size of the
buffer, in whether it is zeroed before the read, in what they do with the end of the string and in
how much they send. `indices` are the indices of the buffer that they use on the way, in this
order; `handle` is what becomes of the buffer, and what is sent. One buffer serves all messages,
from whatever client.
-/

set_option autoImplicit false

namespace Convert

open CLib

/-- What the servers do not have in common. -/
structure Server where
  size : Nat
  clear : Bool      -- the buffer is zeroed before every read
  guarded : Bool    -- the conversion is only run for a message that has bytes
  chop : Bool       -- `*(ptr-1) = 0;`
  out : Nat → Nat   -- how many bytes are sent after so many were read

/-- `main` of `select_server.c`, 51–87 -/
def selectServer : Server := ⟨512, false, true, false, id⟩

/-- `main` of `poll_server.c`, 58–108 -/
def pollServer : Server := ⟨512, false, true, false, id⟩

/-- `worker` of `server_thread.c`, 29–48 -/
def serverThread : Server := ⟨512, true, true, true, id⟩

/-- The child in `main` of `server_fork.c`, 105–123 -/
def serverFork : Server := ⟨512, false, true, true, fun _ => 512⟩

/-- `main` of `udp_server.c`, 36–54. `assert` stops it at an empty datagram; what the buffer holds at
the start is not said. -/
def udpServer : Server := ⟨1024, false, true, false, id⟩

/-- `cb_read` of `event_server.c`, 16–24: a new array at every call -/
def eventServer : Server := ⟨1024, true, false, false, (· + 1)⟩

/-- The indices of the loop `for (; *ptr; ptr++)` from index `i` on. Without a `NUL` it goes on after
the last byte. -/
def touched (i : Int) : Bytes → List Int
  | [] => [i]
  | b :: buf => i :: if b = 0 then [] else touched (i + 1) buf

namespace Server

variable (srv : Server)

/-- The buffer after the read. -/
def full (buf msg : Bytes) : Bytes :=
  fill (if srv.clear then List.replicate srv.size 0 else buf) msg

/-- The message is not converted. `server_thread.c`, `server_fork.c` and `udp_server.c` end at it, so
that their lists of messages end with it; what is said of messages behind it is about no run. -/
def Skips (msg : Bytes) : Prop := srv.guarded = true ∧ msg = []

instance (msg : Bytes) : Decidable (srv.Skips msg) := inferInstanceAs (Decidable (_ ∧ _))

/-- Every index that the loop, the store behind it and the write use. -/
def indices (buf msg : Bytes) : List Int :=
  if srv.Skips msg then []
  else
    touched 0 (srv.full buf msg) ++
      (if srv.chop then [((cstr (srv.full buf msg)).length : Int) - 1] else []) ++
      (List.range (srv.out msg.length)).map fun i : Nat => (i : Int)

/-- All of them lie in the buffer. -/
def Inside (buf msg : Bytes) : Prop := ∀ i ∈ srv.indices buf msg, 0 ≤ i ∧ i < srv.size

instance (buf msg : Bytes) : Decidable (srv.Inside buf msg) :=
  inferInstanceAs (Decidable (∀ i ∈ _, _))

/-- The buffer after the message, and what is sent; `none` if the loop or the store leave the
buffer. -/
def handle (buf msg : Bytes) : Option (Bytes × Bytes) :=
  if srv.Skips msg then some (buf, [])
  else
    match mapCstr toupper (srv.full buf msg), (cstr (srv.full buf msg)).length with
    | none, _ => none
    | some up, ptr =>
      if srv.chop then
        match ptr with
        | 0 => none
        | last + 1 => some (up.set last 0, (up.set last 0).take (srv.out msg.length))
      else some (up, up.take (srv.out msg.length))

/-- What is sent for the message; nothing if the loop leaves the buffer. -/
def answer (buf msg : Bytes) : Bytes :=
  match srv.handle buf msg with
  | some x => x.2
  | none => []

/-- Every index that is used for these messages lies in the buffer. -/
def Stays : Bytes → List Bytes → Prop
  | _, [] => True
  | buf, msg :: msgs => srv.Inside buf msg ∧ ∀ x ∈ srv.handle buf msg, Stays x.1 msgs

/-- No message is longer than what is read at once. -/
def Fits (msgs : List Bytes) : Prop := ∀ msg ∈ msgs, msg.length ≤ srv.size

end Server

/-- What a `read` reports. -/
inductive Read
  | data (chunk : Bytes)
  | eof
  | error
deriving DecidableEq, Repr

/-- The messages laid over each other in a buffer. -/
def overlay (buf : Bytes) (msgs : List Bytes) : Bytes := msgs.foldl fill buf

end Convert
