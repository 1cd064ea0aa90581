import LinuxApi.Lib.CString

/-!
# Lines of a stream

A line break is `CR LF`, a `CR` that no `LF` follows, or an `LF`; `newlines` writes all of them as
`LF`. `cutLine n` takes the next line off a stream, or its first `n` bytes if it is longer. What is
taken and what is left make up the stream (`cutLine_newlines`), and no more than a line is taken
(`cutLine_isLine`).
-/

set_option autoImplicit false

namespace Lines

open CLib

/-- A `CR` before an `LF` is left out, any other `CR` is an `LF`. -/
def newlines : Bytes → Bytes
  | [] => []
  | b :: s =>
    if b = 13 then
      if s.head? = some 10 then newlines s else 10 :: newlines s
    else b :: newlines s

/-- The first byte of the stream with its line breaks read as `LF`, and what follows it. -/
def next : Bytes → Option (UInt8 × Bytes)
  | [] => none
  | b :: s =>
    if b = 13 then some (10, if s.head? = some 10 then s.tail else s) else some (b, s)

/-- The next line, or as much of it as `n` bytes hold, and what follows it. -/
def cutLine : Nat → Bytes → Bytes × Bytes
  | 0, s => ([], s)
  | n + 1, s =>
    match next s with
    | none => ([], s)
    | some (b, rest) =>
      if b = 10 then ([10], rest) else (b :: (cutLine n rest).1, (cutLine n rest).2)

/-! ## The next byte -/

theorem next_eq_none {s : Bytes} : next s = none ↔ s = [] := by
  cases s with
  | nil => simp [next]
  | cons b s =>
    simp only [next, reduceCtorEq, iff_false]
    split <;> simp

theorem newlines_next {s rest : Bytes} {b : UInt8} (h : next s = some (b, rest)) :
    newlines s = b :: newlines rest := by
  cases s with
  | nil => cases h
  | cons b0 s =>
    simp only [next] at h
    split at h
    · rename_i h13
      obtain ⟨rfl, rfl⟩ := Prod.mk.inj (Option.some.inj h)
      rw [newlines, if_pos h13]
      split
      · rename_i hs
        obtain ⟨s', rfl⟩ : ∃ s', s = 10 :: s' := List.head?_eq_some_iff.1 hs
        rw [newlines, if_neg (by decide), List.tail_cons]
      · rfl
    · rename_i h13
      obtain ⟨rfl, rfl⟩ := Prod.mk.inj (Option.some.inj h)
      rw [newlines, if_neg h13]

/-! ## The next line -/

theorem cutLine_nil (n : Nat) : cutLine n [] = ([], []) := by
  cases n <;> rfl

/-- Nothing is lost: what is taken is the beginning of the stream, and the rest is left. -/
theorem cutLine_newlines (n : Nat) (s : Bytes) :
    newlines s = (cutLine n s).1 ++ newlines (cutLine n s).2 := by
  induction n generalizing s with
  | zero => rfl
  | succ n ih =>
    rw [cutLine]
    split
    · rfl
    · rename_i b rest hn
      rw [newlines_next hn]
      split
      · rename_i h10
        rw [h10]
        rfl
      · rw [ih rest]
        rfl

theorem cutLine_length_le (n : Nat) (s : Bytes) : (cutLine n s).1.length ≤ n := by
  induction n generalizing s with
  | zero => exact Nat.le_refl _
  | succ n ih =>
    rw [cutLine]
    split
    · exact Nat.zero_le _
    · split
      · exact Nat.succ_le_succ (Nat.zero_le n)
      · exact Nat.succ_le_succ (ih _)

/-- Nothing is taken only from the end of the stream. -/
theorem cutLine_eq_nil {n : Nat} {s : Bytes} (h : (cutLine (n + 1) s).1 = []) : s = [] := by
  rw [cutLine] at h
  split at h
  · exact next_eq_none.1 ‹_›
  · split at h <;> cases h

/-- A whole line that fits. -/
theorem cutLine_crlf {n : Nat} {line : Bytes} (h : ∀ b ∈ line, b ≠ 10 ∧ b ≠ 13)
    (hn : line.length < n) (rest : Bytes) :
    cutLine n (line ++ (crlf ++ rest)) = (line ++ [10], rest) := by
  induction line generalizing n with
  | nil =>
    obtain ⟨n, rfl⟩ := Nat.exists_eq_succ_of_ne_zero (Nat.ne_of_gt hn)
    rfl
  | cons b line ih =>
    obtain ⟨n, rfl⟩ := Nat.exists_eq_succ_of_ne_zero (Nat.ne_of_gt (Nat.zero_lt_of_lt hn))
    obtain ⟨⟨h10, h13⟩, hl⟩ := List.forall_mem_cons.1 h
    rw [List.cons_append, cutLine, next, if_neg h13]
    simp only [if_neg h10, ih hl (Nat.lt_of_succ_lt_succ hn)]
    rfl

/-- A piece is no more than a line, and less only if it has `n` bytes or the stream has ended. -/
structure IsLine (n : Nat) (piece rest : Bytes) : Prop where
  length_le : piece.length ≤ n
  last : ∀ b ∈ piece.dropLast, b ≠ 10
  ends : piece.getLast? = some 10 ∨ piece.length = n ∨ rest = []

theorem IsLine.cons {n : Nat} {piece rest : Bytes} (h : IsLine n piece rest) {b : UInt8}
    (hb : b ≠ 10) : IsLine (n + 1) (b :: piece) rest where
  length_le := Nat.succ_le_succ h.length_le
  last := by
    cases piece with
    | nil => exact nofun
    | cons b' piece => exact List.forall_mem_cons.2 ⟨hb, h.last⟩
  ends := by
    rcases h.ends with he | he | he
    · cases piece with
      | nil => cases he
      | cons b' piece => exact .inl (List.getLast?_cons_cons.trans he)
    · exact .inr (.inl (congrArg (· + 1) he))
    · exact .inr (.inr he)

theorem cutLine_isLine (n : Nat) (s : Bytes) : IsLine n (cutLine n s).1 (cutLine n s).2 := by
  induction n generalizing s with
  | zero => exact ⟨Nat.le_refl _, nofun, .inr (.inl rfl)⟩
  | succ n ih =>
    rw [cutLine]
    split
    · rename_i hn
      exact ⟨Nat.zero_le _, nofun, .inr (.inr (next_eq_none.1 hn))⟩
    · rename_i b rest hn
      split
      · exact ⟨Nat.succ_le_succ (Nat.zero_le n), nofun, .inl rfl⟩
      · exact (ih rest).cons ‹_›

end Lines
