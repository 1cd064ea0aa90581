import LinuxApi.Http.EpollRead
import LinuxApi.Lib.Lines

/-!
# What `get_line` reads

A call of `get_line` is `Lines.cutLine` on what has arrived (`getLine_eq`).
-/

set_option autoImplicit false

namespace EpollHttp.Sock

open CLib Http Lines

/-! ## Rounds of the loop -/

section
variable {size i : Nat} {c : UInt8} {buf : Bytes} {sock : Sock}

theorem getLineLoop_stop (h : ¬ (i < size - 1 ∧ c ≠ 10)) :
    getLineLoop size i c buf sock = ⟨i, buf, sock⟩ := by
  rw [getLineLoop, if_neg h]

theorem recv_nil (h : sock.bytes = []) (c : UInt8) :
    sock.recv c = (sock.last 0, c, sock.ended) ∧ sock.recvPeek c = (sock.last 0, c, sock.ended) ∧
      ¬ 0 < sock.last 0 := by
  refine ⟨by simp [recv, h], by simp [recvPeek, h], ?_⟩
  rcases sock.last_ok 0 with h | h <;> omega

theorem recv_cons {b : UInt8} {bytes : Bytes} (h : sock.bytes = b :: bytes) (c : UInt8) :
    sock.recv c = (1, b, { sock with bytes }) ∧ sock.recvPeek c = (1, b, sock) := by
  constructor
  · simp only [recv, h]
  · simp only [recvPeek, h]

/-- A round at the end of the stream. -/
theorem getLineLoop_end (hi : i < size - 1) (hc : c ≠ 10) (h : sock.bytes = []) :
    getLineLoop size i c buf sock = ⟨i, buf, sock.ended⟩ := by
  obtain ⟨hr, -, hn⟩ := recv_nil h c
  rw [getLineLoop, if_pos ⟨hi, hc⟩, hr]
  simp only [if_neg hn]
  exact getLineLoop_stop fun h => h.2 rfl

/-- A round that stores a byte. -/
theorem getLineLoop_next (hi : i < size - 1) (hc : c ≠ 10) {b : UInt8} {rest : Bytes}
    (h : next sock.bytes = some (b, rest)) :
    ∃ sock' : Sock, sock'.bytes = rest ∧
      getLineLoop size i c buf sock = getLineLoop size (i + 1) b (buf.set i b) sock' := by
  cases hs : sock.bytes with
  | nil => rw [hs] at h; cases h
  | cons b0 bytes =>
    rw [getLineLoop, if_pos ⟨hi, hc⟩, (recv_cons hs c).1]
    rw [hs] at h
    simp only [next] at h
    simp only [Int.zero_lt_one, if_true]
    by_cases h13 : b0 = 13
    · rw [if_pos h13] at h
      obtain ⟨rfl, rfl⟩ := Prod.mk.inj (Option.some.inj h)
      rw [if_pos h13]
      -- the byte behind the `CR`, if there is one, is looked at
      generalize hs1 : ({ sock with bytes := bytes } : Sock) = sock1
      have hb1 : sock1.bytes = bytes := by rw [← hs1]
      cases bytes with
      | nil =>
        obtain ⟨-, hp, hn⟩ := recv_nil hb1 b0
        rw [hp]
        simp only [hn, false_and, if_false]
        exact ⟨sock1.ended, hb1, rfl⟩
      | cons b1 bytes =>
        rw [(recv_cons hb1 b0).2]
        simp only [Int.zero_lt_one, true_and, List.head?_cons, Option.some.injEq, List.tail_cons]
        by_cases h10 : b1 = 10
        · rw [if_pos h10, if_pos h10, (recv_cons hb1 b1).1, h10]
          exact ⟨{ sock1 with bytes }, rfl, rfl⟩
        · rw [if_neg h10, if_neg h10]
          exact ⟨sock1, hb1, rfl⟩
    · rw [if_neg h13] at h
      obtain ⟨rfl, rfl⟩ := Prod.mk.inj (Option.some.inj h)
      rw [if_neg h13]
      exact ⟨_, rfl, rfl⟩

end

/-! ## Calls -/

/-- The array after the bytes of `p` have been stored from `i` on. -/
def store (buf : Bytes) : Nat → Bytes → Bytes
  | _, [] => buf
  | i, b :: p => store (buf.set i b) (i + 1) p

theorem store_append (pre junk p : Bytes) (h : p.length ≤ junk.length) :
    store (pre ++ junk) pre.length p = pre ++ p ++ junk.drop p.length := by
  induction p generalizing pre junk with
  | nil => simp [store]
  | cons b p ih =>
    cases junk with
    | nil => cases h
    | cons b' junk =>
      have hset : (pre ++ b' :: junk).set pre.length b = (pre ++ [b]) ++ junk := by
        simp [List.set_append_right]
      have hlen : pre.length + 1 = (pre ++ [b]).length := by simp
      rw [store, hset, hlen, ih _ _ (Nat.le_of_succ_le_succ h)]
      simp

/-- The loop takes what `cutLine` takes. -/
theorem getLineLoop_eq (n : Nat) {size i : Nat} {c : UInt8} (hn : size - 1 = i + n) (hc : c ≠ 10)
    (buf : Bytes) (sock : Sock) : ∃ sock' : Sock, sock'.bytes = (cutLine n sock.bytes).2 ∧
      getLineLoop size i c buf sock = ⟨i + (cutLine n sock.bytes).1.length,
        store buf i (cutLine n sock.bytes).1, sock'⟩ := by
  induction n generalizing i c buf sock with
  | zero => exact ⟨sock, rfl, getLineLoop_stop fun h => absurd h.1 (by omega)⟩
  | succ n ih =>
    have hi : i < size - 1 := by omega
    rw [cutLine]
    cases hnext : next sock.bytes with
    | none => exact ⟨sock.ended, rfl, getLineLoop_end hi hc (next_eq_none.1 hnext)⟩
    | some x =>
      obtain ⟨b, rest⟩ := x
      obtain ⟨sock1, rfl, h1⟩ : ∃ sock1 : Sock, sock1.bytes = rest ∧
          getLineLoop size i c buf sock = getLineLoop size (i + 1) b (buf.set i b) sock1 :=
        getLineLoop_next hi hc hnext
      rw [h1]
      simp only
      split
      · rename_i h10
        exact ⟨sock1, rfl, h10 ▸ getLineLoop_stop fun h => h.2 h10⟩
      · rename_i h10
        obtain ⟨sock', hb, h⟩ := ih (i := i + 1) (by omega) h10 (buf.set i b) sock1
        refine ⟨sock', hb, h.trans ?_⟩
        rw [List.length_cons, Nat.add_assoc, Nat.add_comm 1]
        rfl

/-- **What a call of `get_line` does**: it takes a piece off the stream and stores it with its
terminator. -/
theorem getLine_eq {size : Nat} {buf : Bytes} (hs : 0 < size) (hbuf : buf.length = size)
    (sock : Sock) : ∃ sock' : Sock, sock'.bytes = (cutLine (size - 1) sock.bytes).2 ∧
      sock.getLine buf size = ⟨(cutLine (size - 1) sock.bytes).1.length,
        (cutLine (size - 1) sock.bytes).1 ++ 0 ::
          buf.drop ((cutLine (size - 1) sock.bytes).1.length + 1), sock'⟩ := by
  obtain ⟨sock', hb, h⟩ := getLineLoop_eq (size - 1) (Nat.zero_add _).symm
    (by decide : (0 : UInt8) ≠ 10) buf sock
  have hle := cutLine_length_le (size - 1) sock.bytes
  refine ⟨sock', hb, ?_⟩
  generalize cutLine (size - 1) sock.bytes = cut at *
  obtain ⟨p, rest⟩ := cut
  have hp : p.length < buf.length := by
    simp only at hle
    omega
  have hst : store buf 0 p = p ++ buf.drop p.length := store_append [] buf p (Nat.le_of_lt hp)
  simp only [getLine, h, hst, Nat.zero_add, List.set_append_right _ _ (Nat.le_refl _),
    Nat.sub_self, List.drop_eq_getElem_cons hp, List.set_cons_zero]

/-! ## Runs of calls -/

/-- What a call of `get_line` on an array of `size` bytes has done. -/
structure Call.Ok (size : Nat) (call : Call) : Prop where
  line : IsLine (size - 1) call.piece call.sock.bytes
  terminated : call.buf[call.len]? = some 0
  len : call.piece.length = call.len

theorem getLine_ok {size : Nat} {buf : Bytes} (hs : 0 < size) (hbuf : buf.length = size)
    (sock : Sock) : (sock.getLine buf size).Ok size ∧
      (sock.getLine buf size).piece = (cutLine (size - 1) sock.bytes).1 ∧
      (sock.getLine buf size).sock.bytes = (cutLine (size - 1) sock.bytes).2 := by
  obtain ⟨sock', hb, h⟩ := getLine_eq hs hbuf sock
  have hp : (sock.getLine buf size).piece = (cutLine (size - 1) sock.bytes).1 := by
    rw [h, Call.piece]
    exact List.take_left' rfl
  have hr : (sock.getLine buf size).sock.bytes = (cutLine (size - 1) sock.bytes).2 := by
    rw [h, hb]
  refine ⟨⟨?_, ?_, ?_⟩, hp, hr⟩
  · rw [hp, hr]
    exact cutLine_isLine _ _
  · rw [h]
    simp
  · rw [hp, h]

theorem after_cons (sock : Sock) (call : Call) (calls : List Call) :
    sock.after (call :: calls) = call.sock.after calls := by
  cases calls with
  | nil => rfl
  | cons call' calls =>
    rw [after, after, List.getLast?_cons_cons, List.getLast?_eq_some_getLast (List.cons_ne_nil _ _)]
    rfl

/-- What the calls of `get_line` up to the first that returns `0` have done to a stream. -/
structure Split (size : Nat) (sock : Sock) (calls : List Call) : Prop where
  ok : ∀ call ∈ calls, call.Ok size
  pieces : calls.flatMap Call.piece = newlines sock.bytes
  drained : (sock.after calls).bytes = []
  ends : ∃ lines last, calls = lines ++ [last] ∧ last.len = 0 ∧ ∀ call ∈ lines, call.len ≠ 0

section
variable {size : Nat} {sock : Sock} {call : Call} {calls : List Call}

/-- The first call returns `0`: nothing had arrived. -/
theorem Split.last (h : call.Ok size) (hp : newlines sock.bytes = [])
    (hd : call.sock.bytes = []) (h0 : call.len = 0) : Split size sock [call] where
  ok := by simpa using h
  pieces := by
    rw [hp, List.flatMap_singleton]
    exact List.eq_nil_of_length_eq_zero (h.len.trans h0)
  drained := hd
  ends := ⟨[], call, rfl, h0, nofun⟩

/-- The first call takes a piece. -/
theorem Split.cons (hs : Split size call.sock calls) (h : call.Ok size)
    (hp : newlines sock.bytes = call.piece ++ newlines call.sock.bytes) (h0 : call.len ≠ 0) :
    Split size sock (call :: calls) where
  ok := List.forall_mem_cons.2 ⟨h, hs.ok⟩
  pieces := by rw [List.flatMap_cons, hs.pieces, hp]
  drained := by
    rw [after_cons]
    exact hs.drained
  ends := by
    obtain ⟨lines, last, rfl, hl, hn⟩ := hs.ends
    exact ⟨call :: lines, last, rfl, hl, List.forall_mem_cons.2 ⟨h0, hn⟩⟩

end

/-- **`get_line` splits a stream without loss**, whatever is in the arrays it is called with: the
calls up to the first that returns `0` consume all of it, their pieces are the stream with its line
breaks read as `LF`, and each piece is terminated and is a line, or as much of one as fits. -/
theorem getLines_split {size : Nat} (hs : 2 ≤ size) (bufs : Nat → Bytes)
    (hbufs : ∀ k, (bufs k).length = size) (sock : Sock) :
    Split size sock (sock.getLines size bufs) := by
  obtain ⟨hok, hp, hr⟩ := getLine_ok (by omega) (hbufs 0) sock
  have hcut := cutLine_newlines (size - 1) sock.bytes
  rw [← hp, ← hr] at hcut
  rw [getLines]
  split
  · rename_i h0
    have hnil : (cutLine (size - 2 + 1) sock.bytes).1 = [] := by
      rw [show size - 2 + 1 = size - 1 by omega, ← hp]
      exact List.eq_nil_of_length_eq_zero (hok.len.trans h0)
    have hb : sock.bytes = [] := cutLine_eq_nil hnil
    exact .last hok (by rw [hb]; rfl) (by rw [hr, hb, cutLine_nil]) h0
  · rename_i h0
    have := sock.getLine_length (bufs 0) size
    exact (getLines_split hs (fun k => bufs (k + 1)) (fun k => hbufs (k + 1)) _).cons hok hcut h0
termination_by sock.bytes.length
decreasing_by omega

/-- Runs of `CR`, a `CR` that is the last byte that fits, and one at the end of the input. -/
theorem getLines_split_cr :
    Split 4 ⟨ascii "ab\r\r\nabc\r\r", fun _ => -1, fun _ => .inr rfl⟩
      (getLines 4 (fun _ => [1, 2, 3, 4])
        ⟨ascii "ab\r\r\nabc\r\r", fun _ => -1, fun _ => .inr rfl⟩) :=
  getLines_split (by decide) (fun _ => [1, 2, 3, 4]) (fun _ => rfl) _

end EpollHttp.Sock

namespace EpollHttp

open CLib Lines

/-- The model of `get_line` for bytes that arrive in segments does the same once they are there. -/
theorem getLine_eq_cutLine (n : Nat) (s : Bytes) (report : Bool) :
    getLine n ⟨[], s, report⟩ = ((cutLine n s).1, ⟨[], (cutLine n s).2, report⟩) := by
  induction n generalizing s with
  | zero => rfl
  | succ n ih =>
    cases s with
    | nil => rfl
    | cons b s =>
      rw [getLine, cutLine]
      by_cases h13 : b = 13
      · cases s with
        | nil => simp [recv, recvPeek, Conn.tick, next, h13]
        | cons b' s =>
          by_cases h10 : b' = 10 <;> simp [recv, recvPeek, Conn.tick, next, h13, h10]
      · by_cases h10 : b = 10
        · simp [recv, Conn.tick, next, h10]
        · simp [recv, Conn.tick, next, h13, h10, ih]

end EpollHttp
