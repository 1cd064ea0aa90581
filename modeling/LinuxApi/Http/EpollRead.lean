import LinuxApi.Http.Buffers

/-!
# `do_read` on a socket (`http_code/epoll/http_epoll.c`)

`get_line` with its variables and its array, and `do_read` as the calls it makes. All bytes of the
client have arrived; after them `recv` returns `0` or `-1`.
-/

set_option autoImplicit false

namespace EpollHttp

open CLib Http

/-! ## The socket -/

/-- The bytes that have arrived, and what `recv` returns after them, call by call. -/
structure Sock where
  bytes : Bytes
  last : Nat → Int
  last_ok : ∀ k, last k = 0 ∨ last k = -1

namespace Sock

/-- A call of `recv` after the last byte. -/
def ended (sock : Sock) : Sock :=
  { sock with last := fun k => sock.last (k + 1), last_ok := fun k => sock.last_ok (k + 1) }

/-- `recv(sock, &c, 1, 0)`: the result, and `c` and the socket after it. -/
def recv (sock : Sock) (c : UInt8) : Int × UInt8 × Sock :=
  match sock.bytes with
  | [] => (sock.last 0, c, sock.ended)
  | b :: bytes => (1, b, { sock with bytes })

/-- `recv(sock, &c, 1, MSG_PEEK)` -/
def recvPeek (sock : Sock) (c : UInt8) : Int × UInt8 × Sock :=
  match sock.bytes with
  | [] => (sock.last 0, c, sock.ended)
  | b :: _ => (1, b, sock)

/-! ## `get_line` -/

/-- What a call of `get_line` returns, and the array and the socket after it. -/
structure Call where
  len : Nat
  buf : Bytes
  sock : Sock

/-- `buf[0..i)` -/
def Call.piece (call : Call) : Bytes := call.buf.take call.len

/-- The loop of `get_line`. -/
def getLineLoop (size i : Nat) (c : UInt8) (buf : Bytes) (sock : Sock) : Call :=
  if i < size - 1 ∧ c ≠ 10 then
    match sock.recv c with
    | (n, c, sock) =>
      if 0 < n then
        if c = 13 then
          match sock.recvPeek c with
          | (n, c, sock) =>
            if 0 < n ∧ c = 10 then
              match sock.recv c with
              | (_, c, sock) => getLineLoop size (i + 1) c (buf.set i c) sock
            else getLineLoop size (i + 1) 10 (buf.set i 10) sock
        else getLineLoop size (i + 1) c (buf.set i c) sock
      else getLineLoop size i 10 buf sock
  else ⟨i, buf, sock⟩
termination_by (size - i, if c = 10 then 0 else 1)
decreasing_by
  · exact Prod.Lex.left _ _ (by omega)
  · exact Prod.Lex.left _ _ (by omega)
  · exact Prod.Lex.left _ _ (by omega)
  · rename_i h
    exact Prod.Lex.right _ (by simp [h.2])

/-- `get_line` -/
def getLine (sock : Sock) (buf : Bytes) (size : Nat) : Call :=
  let call := getLineLoop size 0 0 buf sock
  { call with buf := call.buf.set call.len 0 }

/-! ## What a call uses up -/

section
variable {sock sock' : Sock} {c c' : UInt8} {n : Int}

theorem recv_length (h : sock.recv c = (n, c', sock')) :
    sock'.bytes.length ≤ sock.bytes.length ∧
      (0 < n → sock'.bytes.length + 1 = sock.bytes.length) := by
  unfold recv at h
  split at h
  · obtain ⟨rfl, -, rfl⟩ : sock.last 0 = n ∧ c = c' ∧ sock.ended = sock' := by simpa using h
    have := sock.last_ok 0
    exact ⟨Nat.le_refl _, fun h => by omega⟩
  · rename_i b bytes hb
    obtain ⟨-, -, rfl⟩ : (1 : Int) = n ∧ b = c' ∧ { sock with bytes } = sock' := by simpa using h
    simp [hb]

theorem recvPeek_length (h : sock.recvPeek c = (n, c', sock')) :
    sock'.bytes.length = sock.bytes.length := by
  unfold recvPeek at h
  split at h
  · obtain ⟨-, -, rfl⟩ : sock.last 0 = n ∧ c = c' ∧ sock.ended = sock' := by simpa using h
    rfl
  · rename_i b bytes hb
    obtain ⟨-, -, rfl⟩ : (1 : Int) = n ∧ b = c' ∧ sock = sock' := by simpa using h
    rfl

end

/-- The bytes that the loop stores were in the socket. -/
theorem getLineLoop_length (size i : Nat) (c : UInt8) (buf : Bytes) (sock : Sock) :
    (getLineLoop size i c buf sock).len + (getLineLoop size i c buf sock).sock.bytes.length ≤
      i + sock.bytes.length := by
  fun_induction getLineLoop size i c buf sock with
  | case1 =>
    rename_i hlf hcr hpeek ih
    have := recv_length hlf
    have := recv_length hcr
    have := recvPeek_length hpeek
    omega
  | case2 =>
    rename_i hcr hpeek ih
    have := recv_length hcr
    have := recvPeek_length hpeek
    omega
  | case3 =>
    rename_i hrecv _ _ ih
    have := recv_length hrecv
    omega
  | case4 =>
    rename_i hrecv _ ih
    have := recv_length hrecv
    omega
  | case5 => exact Nat.le_refl _

theorem getLine_length (sock : Sock) (buf : Bytes) (size : Nat) :
    (sock.getLine buf size).len + (sock.getLine buf size).sock.bytes.length ≤ sock.bytes.length := by
  have h := getLineLoop_length size 0 0 buf sock
  rw [Nat.zero_add] at h
  exact h

/-! ## `do_read` -/

/-- Calls of `get_line` until one returns `0`, with these arrays. -/
def getLines (size : Nat) (bufs : Nat → Bytes) (sock : Sock) : List Call :=
  if (sock.getLine (bufs 0) size).len = 0 then [sock.getLine (bufs 0) size]
  else
    sock.getLine (bufs 0) size ::
      (sock.getLine (bufs 0) size).sock.getLines size fun k => bufs (k + 1)
termination_by sock.bytes.length
decreasing_by
  have := sock.getLine_length (bufs 0) size
  have := Nat.pos_of_ne_zero ‹_›
  omega

/-- The socket after these calls. -/
def after (sock : Sock) (calls : List Call) : Sock := (calls.getLast?).elim sock Call.sock

/-- What `do_read` does for the client: the calls of `http_get_request`, of `stat` in it and of
`disconnect`, and what is sent. -/
inductive Event
  | httpGetRequest (line : Bytes)
  | stat (path : Bytes)
  | send (blocks : List Bytes)
  | disconnect
deriving DecidableEq

/-- `http_get_request`; `none` if a word does not fit into its array. -/
def httpGetRequest (fs : Fs) (line : Bytes) : Option (List Event) :=
  (scan requestFormat (cstr line)).map fun words =>
    [.httpGetRequest line, .stat (filePath ((words[1]?).getD [])),
      .send (EpollHttp.httpGetRequest fs line)]

/-- `do_read`, where the array `buff` holds `junk k` before the `k`-th round of the loop. -/
def doRead (fs : Fs) (junk : Nat → Bytes) (sock : Sock) : Option (List Event) × Sock :=
  let call := sock.getLine (List.replicate 1024 0) 1024
  let sock := if call.len = 0 then call.sock else call.sock.after (call.sock.getLines 1024 junk)
  (if isGet call.buf then (httpGetRequest fs call.buf).map (· ++ [.disconnect]) else some [], sock)

end Sock

end EpollHttp
