import LinuxApi.Http.EpollServer
import LinuxApi.Http.Request

/-!
# How the epoll server reads a request that arrives in segments

`get_line` ends a line where the receive buffer is empty. A request of which the method and the
target are there when the server reads them is answered (`serve_of_ahead`), however the rest
arrives; a request whose first byte arrives alone is never answered (`serve_alone`).
-/

set_option autoImplicit false

namespace EpollHttp

open CLib Http

/-! ## The request line -/

/-- A line that starts with method and target, followed by a blank or by nothing, is a request for
the target. -/
theorem requestPath_start (r : GetRequest) {rest : Bytes} (h0 : (0 : UInt8) ∉ rest)
    (hr : ∀ b ∈ rest.head?, b = 32) :
    isGet (r.start ++ rest) = true ∧ requestPath (r.start ++ rest) = filePath r.target := by
  have hc : cstr (r.start ++ rest) = r.start ++ rest := by
    apply cstr_of_notMem
    intro h
    rcases List.mem_append.1 h with h | h
    · exact r.zero_notMem_start h
    · exact h0 h
  refine ⟨by rw [isGet, hc]; rfl, ?_⟩
  rw [requestPath, hc, scanPath, r.scan_method]
  simp only [r.skip_target, r.scan_target hr]

/-! ## One line -/

/-- The first `n` calls of `recv` find a byte. -/
def Supplied : Nat → Conn → Prop
  | 0, _ => True
  | n + 1, c => ∃ b c', recv c = (some b, c') ∧ Supplied n c'

/-- What `get_line` stores of a line without line breaks in it: a beginning of it, at least as long
as the bytes are there, or all of it with a line feed. -/
theorem getLine_line {line rest : Bytes} (hl : ∀ b ∈ line, b ≠ 10 ∧ b ≠ 13) {n size : Nat}
    {c : Conn} (hs : c.stream = line ++ 13 :: rest) (hn : Supplied n c) (hsize : n ≤ size)
    (hlen : n ≤ line.length) :
    (getLine size c).1 = line ++ [10] ∨
      ∃ k, n ≤ k ∧ (getLine size c).1 = line.take k := by
  induction size generalizing line n c with
  | zero => exact .inr ⟨0, hsize, rfl⟩
  | succ size ih =>
    rw [getLine]
    split
    · rename_i c' h
      cases n with
      | zero => exact .inr ⟨0, Nat.le_refl _, rfl⟩
      | succ n =>
        obtain ⟨b, c'', hb, -⟩ := hn
        rw [h] at hb
        cases hb
    · rename_i b c' h
      have hst := recv_stream h
      rw [hs] at hst
      cases line with
      | nil =>
        obtain ⟨rfl, -⟩ := List.cons.inj hst
        rw [if_pos rfl]
        left
        split <;> rfl
      | cons a line =>
        obtain ⟨rfl, hs'⟩ := List.cons.inj hst
        obtain ⟨h10, h13⟩ := hl a List.mem_cons_self
        have hl' : ∀ b ∈ line, b ≠ 10 ∧ b ≠ 13 := by
          intro b hb
          exact hl b (List.mem_cons_of_mem _ hb)
        rw [if_neg h13, if_neg h10]
        have hn' : Supplied (n - 1) c' := by
          cases n with
          | zero => trivial
          | succ n =>
            obtain ⟨b', c'', hb, hn'⟩ := hn
            rw [h] at hb
            cases hb
            exact hn'
        simp only [List.length_cons] at hlen
        rcases ih hl' hs'.symm hn' (by omega) (by omega) with he | ⟨k, hk, he⟩
        · exact .inl (by simp [he])
        · exact .inr ⟨k + 1, by omega, by simp [he]⟩

/-! ## The main loop -/

/-- Among the first `n` bytes, each has arrived when the server calls `recv` for it. `epoll_wait`
returns with the first segment that is not empty. -/
def Ahead (n : Nat) (segments : List Bytes) : Prop :=
  ∀ i < n, i < ((segments.dropWhile (·.isEmpty)).take (i + 2)).flatten.length

theorem supplied_of_lt {n : Nat} {c : Conn}
    (h : ∀ i < n, i < (c.avail ++ (c.ticks.take (i + 1)).flatten).length) : Supplied n c := by
  induction n generalizing c with
  | zero => trivial
  | succ n ih =>
    have htick : ∀ i, c.avail ++ (c.ticks.take (i + 1)).flatten =
        c.tick.avail ++ (c.tick.ticks.take i).flatten := by
      intro i
      unfold Conn.tick
      split <;> simp [*]
    have h0 := h 0 (Nat.succ_pos n)
    rw [htick] at h0
    cases ha : c.tick.avail with
    | nil => simp [ha] at h0
    | cons b avail =>
      refine ⟨b, { c.tick with avail }, by simp [recv, ha], ih fun i hi => ?_⟩
      have hi1 := h (i + 1) (Nat.succ_lt_succ hi)
      rw [htick, ha, List.cons_append, List.length_cons] at hi1
      exact Nat.lt_of_succ_lt_succ hi1

theorem flatten_dropWhile_isEmpty (segments : List Bytes) :
    (segments.dropWhile (·.isEmpty)).flatten = segments.flatten := by
  induction segments with
  | nil => rfl
  | cons t ticks ih => cases t <;> simp [ih]

/-- The server sleeps until the first segment that is not empty. -/
theorem serve_dropWhile (segments : List Bytes) :
    serve (segments.dropWhile (·.isEmpty)) = serve segments := by
  induction segments with
  | nil => rfl
  | cons t ticks ih =>
    cases t with
    | cons b t => rfl
    | nil =>
      have hs : serve ([] :: ticks) = serve ticks := by
        rw [serve, epollRun]
        simp [Conn.tick, serve]
      show serve (ticks.dropWhile (·.isEmpty)) = serve ([] :: ticks)
      rw [hs, ih]

/-- The server reads with the first segment in the buffer, and answers, -/
theorem serve_cons_some {t path : Bytes} {ticks : List Bytes} (ht : t ≠ [])
    (h : (doRead ⟨ticks, t, false⟩).1 = some path) : serve (t :: ticks) = [path] := by
  rw [serve, epollRun]
  simp [Conn.tick, ht, h]

/-- or goes on waiting. -/
theorem serve_cons_none {t : Bytes} {ticks : List Bytes} (ht : t ≠ [])
    (h : (doRead ⟨ticks, t, false⟩).1 = none) :
    serve (t :: ticks) = epollRun (doRead ⟨ticks, t, false⟩).2 := by
  rw [serve, epollRun]
  simp [Conn.tick, ht, h]

/-- The line that is read of a request whose method and target arrive in time: the start of the
request line, then a blank or nothing. -/
theorem getLine_request {r : GetRequest} (hlen : r.requestLine.length ≤ 1023) {c : Conn}
    (hs : c.stream = r.bytes) (hn : Supplied (r.target.length + 4) c) :
    ∃ tail, (getLine 1023 c).1 = r.start ++ tail ∧ (0 : UInt8) ∉ tail ∧
      ∀ b ∈ tail.head?, b = 32 := by
  have hstream : c.stream =
      r.requestLine ++ 13 :: 10 :: (r.headers.flatMap (· ++ crlf) ++ crlf) := by
    rw [hs]
    simp [GetRequest.bytes, crlf]
  have hle : r.target.length + 4 ≤ r.requestLine.length := by
    simp [GetRequest.requestLine, r.start_length]
  have h0 : ∀ {tail : Bytes}, (∀ b ∈ tail, b ∈ r.requestLine ∨ b = 10) → (0 : UInt8) ∉ tail := by
    intro tail hsub h
    rcases hsub 0 h with hm | h10
    · exact absurd (r.requestLine_ok 0 hm) (by decide)
    · exact absurd h10 (by decide)
  rcases getLine_line r.requestLine_noBreak hstream hn (Nat.le_trans hle hlen) hle with
    he | ⟨k, hk, he⟩
  · refine ⟨32 :: (r.version ++ [10]), by simp [he, GetRequest.requestLine], h0 ?_, by simp⟩
    intro b hb
    simp only [GetRequest.requestLine, List.mem_append, List.mem_cons, List.not_mem_nil,
      or_false] at hb ⊢
    tauto
  · refine ⟨(32 :: r.version).take (k - (r.target.length + 4)), ?_, h0 ?_, ?_⟩
    · rw [he, GetRequest.requestLine, List.take_append, r.start_length,
        List.take_of_length_le (by rw [r.start_length]; omega)]
    · intro b hb
      exact .inl (List.mem_append_right _ (List.mem_of_mem_take hb))
    · cases k - (r.target.length + 4) <;> simp

/-- **A request whose method and target arrive in time is answered**, once and for its target. -/
theorem serve_of_ahead {r : GetRequest} (hlen : r.requestLine.length ≤ 1023)
    {segments : List Bytes} (hs : segments.flatten = r.bytes)
    (ha : Ahead (r.target.length + 4) segments) : serve segments = [filePath r.target] := by
  rw [← serve_dropWhile]
  rw [← flatten_dropWhile_isEmpty] at hs
  unfold Ahead at ha
  cases hd : segments.dropWhile (·.isEmpty) with
  | nil => simp [hd, GetRequest.bytes, crlf] at hs
  | cons t ticks =>
    have ht : t ≠ [] := by
      have hne := List.head?_dropWhile_not (fun s : Bytes => s.isEmpty) segments
      rw [hd] at hne
      simpa using hne
    rw [hd] at hs ha
    have hsup : Supplied (r.target.length + 4) ⟨ticks, t, false⟩ :=
      supplied_of_lt fun i hi => by simpa using ha i hi
    obtain ⟨tail, hline, h0, hb⟩ := getLine_request hlen (c := ⟨ticks, t, false⟩) hs hsup
    obtain ⟨hget, hpath⟩ := requestPath_start r h0 hb
    apply serve_cons_some ht
    simp only [doRead, hline, hget, hpath, if_true]

/-- Nothing is done when there is nothing to wait for. -/
theorem epollRun_of_work {c : Conn} (h : c.work = 0) : epollRun c = [] := by
  have ht : c.ticks = [] ∧ c.report = false := by
    unfold Conn.work at h
    cases hr : c.report with
    | true => simp [hr] at h
    | false => exact ⟨List.length_eq_zero_iff.1 (by omega), rfl⟩
  rw [epollRun, if_pos ht]

theorem getLine_alone (size : Nat) (ticks : List Bytes) {b : UInt8} (h10 : b ≠ 10)
    (h13 : b ≠ 13) :
    getLine (size + 2) ⟨[] :: [] :: ticks, [b], false⟩ = ([b], ⟨ticks, [], false⟩) := by
  simp [getLine, recv, Conn.tick, h10, h13]

theorem getLine_idle (size : Nat) (ticks : List Bytes) :
    getLine (size + 1) ⟨[] :: ticks, [], false⟩ = ([], ⟨ticks, [], false⟩) := by
  simp [getLine, recv, Conn.tick]

/-- A line starts with the first byte, unless that ends it. -/
theorem getLine_head (size : Nat) {b : UInt8} (h10 : b ≠ 10) (h13 : b ≠ 13) (avail : Bytes) :
    ∃ tail, (getLine (size + 1) ⟨[], b :: avail, false⟩).1 = b :: tail := by
  simp [getLine, recv, Conn.tick, h10, h13]

theorem isGet_cons {b : UInt8} (h0 : b ≠ 0) (hg : tolower b ≠ 103) (tail : Bytes) :
    isGet (b :: tail) = false := by
  simp [isGet, cstr, ascii, h0, hg]

/-- **A request whose first byte arrives alone is not answered.** -/
theorem serve_alone (r : GetRequest) : serve [[71], [], [], [], r.bytes.tail] = [] := by
  obtain ⟨avail, hbytes⟩ : ∃ avail, r.bytes.tail = 69 :: avail := ⟨_, rfl⟩
  have hfirst : doRead ⟨[[], [], [], r.bytes.tail], [71], false⟩ =
      (none, ⟨[r.bytes.tail], [], false⟩) := by
    have h1 : getLine 1023 ⟨[[], [], [], r.bytes.tail], [71], false⟩ =
        ([71], ⟨[[], r.bytes.tail], [], false⟩) := getLine_alone 1021 _ (by decide) (by decide)
    have h2 : getLine 1023 ⟨[[], r.bytes.tail], [], false⟩ = ([], ⟨[r.bytes.tail], [], false⟩) :=
      getLine_idle 1022 _
    have h3 : readLines ⟨[[], r.bytes.tail], [], false⟩ = ⟨[r.bytes.tail], [], false⟩ := by
      rw [readLines, h2, if_pos rfl]
    have hget : isGet [71] = false := by decide
    simp [doRead, h1, h3, hget]
  have hsecond : (doRead ⟨[], r.bytes.tail, false⟩).1 = none := by
    obtain ⟨tail, hline⟩ := getLine_head 1022 (b := 69) (by decide) (by decide) avail
    have hget : isGet (69 :: tail) = false := isGet_cons (by decide) (by decide) tail
    simp only [Nat.reduceAdd] at hline
    simp [doRead, hbytes, hline, hget]
  have hrest : serve [r.bytes.tail] = [] := by
    rw [serve_cons_none (by simp [hbytes]) hsecond]
    exact epollRun_of_work (Nat.le_zero.1 (doRead_work ⟨[], r.bytes.tail, false⟩))
  rw [serve_cons_none (by simp) (by rw [hfirst]), hfirst]
  exact hrest

end EpollHttp
