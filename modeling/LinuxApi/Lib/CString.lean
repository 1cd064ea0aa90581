import Mathlib

/-!
# Bytes and C strings

A buffer is a list of bytes; `cstr` is the string it holds, up to the first `NUL`. `ascii` writes
the bytes of a string literal, `dec` what `%d` and `%ld` print of a number that is not negative, and
`undec` reads it back (`undec_dec`). `fill` is a `read` into a buffer, `mapCstr` a loop that rewrites
the string in it.
-/

set_option autoImplicit false

namespace CLib

abbrev Bytes := List UInt8

/-- The bytes of a literal of ASCII characters. -/
def ascii (s : String) : Bytes := s.toList.map fun c => c.toNat.toUInt8

/-- The string that a buffer holds. -/
def cstr (buf : Bytes) : Bytes := buf.takeWhile (· ≠ 0)

def crlf : Bytes := [13, 10]

theorem cstr_of_notMem {s : Bytes} (h : (0 : UInt8) ∉ s) : cstr s = s := by
  apply List.takeWhile_eq_self_iff.2
  intro b hb
  simpa using fun h0 : b = 0 => h (h0 ▸ hb)

theorem notMem_cstr (s : Bytes) : (0 : UInt8) ∉ cstr s := by
  intro h
  simpa using List.mem_takeWhile_imp h

theorem cstr_length_le (s : Bytes) : (cstr s).length ≤ s.length :=
  (List.takeWhile_sublist _).length_le

/-- No `NUL` cuts the buffer. -/
theorem cstr_of_length {s : Bytes} (h : (cstr s).length = s.length) : cstr s = s :=
  (List.takeWhile_prefix _).eq_of_length h

theorem cstr_append (s t : Bytes) :
    cstr (s ++ t) = if (cstr s).length = s.length then s ++ cstr t else cstr s :=
  List.takeWhile_append

/-- What is behind a `NUL` does not matter. -/
theorem cstr_append_of_mem {s : Bytes} (h : (0 : UInt8) ∈ s) (t : Bytes) :
    cstr (s ++ t) = cstr s := by
  rw [cstr_append, if_neg]
  intro hlen
  rw [← cstr_of_length hlen] at h
  simpa using List.mem_takeWhile_imp h

theorem cstr_terminated (s t : Bytes) : cstr (s ++ 0 :: t) = cstr s := by
  have h0 : cstr (0 :: t) = [] := by simp [cstr]
  rw [cstr_append, h0, List.append_nil]
  split
  · exact (cstr_of_length ‹_›).symm
  · rfl

/-! ## Buffers -/

/-- `toupper` in the C locale. -/
def toupper (b : UInt8) : UInt8 := if 97 ≤ b ∧ b ≤ 122 then b - 32 else b

theorem toupper_eq_zero {b : UInt8} : toupper b = 0 ↔ b = 0 := by
  unfold toupper
  split
  · rename_i h
    simp only [UInt8.le_iff_toNat_le, ← UInt8.toNat_inj] at h ⊢
    have h1 : (97 : UInt8).toNat = 97 := rfl
    have h0 : (0 : UInt8).toNat = 0 := rfl
    have hs : (b - 32).toNat = b.toNat - 32 := by
      apply UInt8.toNat_sub_of_le
      simp only [UInt8.le_iff_toNat_le]
      have h2 : (32 : UInt8).toNat = 32 := rfl
      omega
    omega
  · exact Iff.rfl

/-- The buffer after a `read` that returns `chunk`. -/
def fill (buf chunk : Bytes) : Bytes := chunk ++ buf.drop chunk.length

/-- A string that is read into a buffer of zeros, with room for a `NUL`. -/
theorem fill_zeros {n : Nat} {chunk : Bytes} (hlen : chunk.length < n) :
    (0 : UInt8) ∈ fill (List.replicate n 0) chunk ∧
      cstr (fill (List.replicate n 0) chunk) = cstr chunk := by
  obtain ⟨m, hm⟩ : ∃ m, n - chunk.length = m + 1 := ⟨n - chunk.length - 1, by omega⟩
  rw [fill, List.drop_replicate, hm, List.replicate_succ, cstr_terminated]
  exact ⟨by simp, rfl⟩

/-- Without a `NUL` of its own, what fills the buffer has none behind it. -/
theorem fill_zeros_iff {n : Nat} {chunk : Bytes} (h0 : (0 : UInt8) ∉ chunk)
    (hlen : chunk.length ≤ n) :
    (0 : UInt8) ∈ fill (List.replicate n 0) chunk ↔ chunk.length < n := by
  constructor
  · intro hm
    by_contra hge
    have hf : fill (List.replicate n 0) chunk = chunk := by
      rw [fill, List.drop_eq_nil_of_le (by simp; omega), List.append_nil]
    exact h0 (hf ▸ hm)
  · exact fun hlt => (fill_zeros hlt).1

/-- `for (char *ptr = buf; *ptr; ptr++) *ptr = f(*ptr);`: without a `NUL` it leaves the buffer. -/
def mapCstr (f : UInt8 → UInt8) : Bytes → Option Bytes
  | [] => none
  | b :: buf => if b = 0 then some (b :: buf) else (mapCstr f buf).map (f b :: ·)

/-- The buffers have their `NUL`s in the same places. -/
def SameNul (buf buf' : Bytes) : Prop := buf.map (· == 0) = buf'.map (· == 0)

theorem SameNul.mem {buf buf' : Bytes} (h : SameNul buf buf') :
    (0 : UInt8) ∈ buf ↔ (0 : UInt8) ∈ buf' := by
  have hmem : ∀ buf : Bytes, (0 : UInt8) ∈ buf ↔ true ∈ buf.map (· == 0) := by simp
  rw [hmem, hmem, h]

theorem SameNul.fill {buf buf' : Bytes} (h : SameNul buf buf') (chunk : Bytes) :
    SameNul (fill buf chunk) (fill buf' chunk) := by
  unfold SameNul CLib.fill at *
  rw [List.map_append, List.map_append, List.map_drop, List.map_drop, h]

section
variable {f : UInt8 → UInt8}

theorem mapCstr_sameNul (hf : ∀ b, f b = 0 ↔ b = 0) :
    ∀ {buf buf' : Bytes}, mapCstr f buf = some buf' → SameNul buf' buf
  | [], _, h => nomatch h
  | b :: buf, buf', h => by
    simp only [mapCstr] at h
    split at h
    · obtain ⟨⟩ := h
      rfl
    · obtain ⟨buf1, h1, rfl⟩ := Option.map_eq_some_iff.1 h
      have ih := mapCstr_sameNul hf h1
      unfold SameNul at ih ⊢
      have hb : (f b == 0) = (b == 0) := by
        rw [Bool.eq_iff_iff, beq_iff_eq, beq_iff_eq]
        exact hf b
      rw [List.map_cons, List.map_cons, ih, hb]

/-- The loop rewrites the string and nothing after it. -/
theorem mapCstr_eq_some : ∀ {buf buf' : Bytes}, mapCstr f buf = some buf' ↔
    (0 : UInt8) ∈ buf ∧ buf' = (cstr buf).map f ++ buf.drop (cstr buf).length
  | [], _ => by simp [mapCstr]
  | b :: buf, buf' => by
    by_cases hb : b = 0
    · subst hb
      simp [mapCstr, cstr, eq_comm]
    · have hcons : cstr (b :: buf) = b :: cstr buf := by simp [cstr, hb]
      have h0 : (0 : UInt8) ≠ b := fun h => hb h.symm
      rw [mapCstr, if_neg hb, Option.map_eq_some_iff, hcons]
      simp only [mapCstr_eq_some, List.mem_cons, h0, false_or, List.map_cons, List.cons_append,
        List.length_cons, List.drop_succ_cons]
      constructor
      · rintro ⟨_, ⟨hm, rfl⟩, rfl⟩
        exact ⟨hm, rfl⟩
      · rintro ⟨hm, rfl⟩
        exact ⟨_, ⟨hm, rfl⟩, rfl⟩

/-- Of what was just read, the loop rewrites the bytes before the first `NUL`, and only them. -/
theorem mapCstr_fill_take {buf buf' chunk : Bytes} (h : mapCstr f (fill buf chunk) = some buf') :
    buf'.take chunk.length = (cstr chunk).map f ++ chunk.drop (cstr chunk).length := by
  obtain ⟨-, rfl⟩ := mapCstr_eq_some.1 h
  have hle := cstr_length_le chunk
  by_cases hc : (cstr chunk).length = chunk.length
  · have hfill : cstr (fill buf chunk) = chunk ++ cstr (buf.drop chunk.length) :=
      (cstr_append _ _).trans (if_pos hc)
    rw [hfill, cstr_of_length hc, List.map_append, List.append_assoc,
      List.take_left' (List.length_map _), List.drop_length, List.append_nil]
  · have hfill : cstr (fill buf chunk) = cstr chunk := (cstr_append _ _).trans (if_neg hc)
    rw [hfill, fill, List.drop_append_of_le_length hle, ← List.append_assoc, List.take_left']
    rw [List.length_append, List.length_map, List.length_drop]
    omega

end

/-! ## Decimal numbers -/

def dec (n : Nat) : Bytes := (Nat.toDigits 10 n).map fun c => c.toNat.toUInt8

def isDigit (b : UInt8) : Bool := 48 ≤ b && b ≤ 57

def undec (s : Bytes) : Option Nat :=
  if s ≠ [] ∧ s.all isDigit = true then
    some (Nat.ofDigitChars 10 (s.map fun b => Char.ofNat b.toNat) 0)
  else none

/-- The byte of a decimal digit. -/
theorem toNat_digit {c : Char} (h : c.isDigit = true) :
    c.toNat.toUInt8.toNat = c.toNat ∧ 48 ≤ c.toNat ∧ c.toNat ≤ 57 := by
  obtain ⟨h1, h2⟩ : 48 ≤ c.toNat ∧ c.toNat ≤ 57 := by
    simp only [Char.isDigit, Bool.and_eq_true, decide_eq_true_eq, ge_iff_le,
      UInt32.le_iff_toNat_le] at h
    exact h
  exact ⟨Nat.mod_eq_of_lt (by omega), h1, h2⟩

theorem isDigit_dec {n : Nat} {b : UInt8} (h : b ∈ dec n) : isDigit b = true := by
  obtain ⟨c, hc, rfl⟩ := List.mem_map.1 h
  obtain ⟨he, h1, h2⟩ := toNat_digit (Nat.isDigit_of_mem_toDigits (by decide) (by decide) hc)
  simp only [isDigit, Bool.and_eq_true, decide_eq_true_eq, UInt8.le_iff_toNat_le, he]
  exact ⟨h1, h2⟩

/-- Printed numbers are read back. -/
theorem undec_dec (n : Nat) : undec (dec n) = some n := by
  have hne : dec n ≠ [] := by simp [dec, Nat.toDigits_ne_nil]
  have hd : (dec n).all isDigit = true := List.all_eq_true.2 fun _ => isDigit_dec
  rw [undec, if_pos ⟨hne, hd⟩, dec, List.map_map]
  have hmap : (Nat.toDigits 10 n).map ((fun b : UInt8 => Char.ofNat b.toNat) ∘
      fun c : Char => c.toNat.toUInt8) = Nat.toDigits 10 n := by
    refine (List.map_congr_left fun c hc => ?_).trans (List.map_id _)
    have hd := Nat.isDigit_of_mem_toDigits (by decide) (by decide) hc
    simp only [Function.comp_apply, (toNat_digit hd).1, Char.ofNat_toNat, id]
  rw [hmap, Nat.ofDigitChars_toDigits (by decide) (by decide)]

end CLib
