import LinuxApi.Lib.CString

/-!
# Scansets of `sscanf`

`scanSet stop` is the conversion `%[^…]`: the longest non-empty run of bytes that are not in the
set. A blank in a format is `skipSpace`. A format is the sequence of its parts; the first conversion
that fails ends it, and what comes after it is not assigned. `scan` interprets a format with the
sizes of the arrays that its conversions fill.
-/

set_option autoImplicit false

namespace CLib

/-- `isspace` -/
def isspace (b : UInt8) : Bool := b = 32 || (9 ≤ b && b ≤ 13)

/-- `tolower` -/
def tolower (b : UInt8) : UInt8 := if 65 ≤ b ∧ b ≤ 90 then b + 32 else b

/-- Printable bytes are not space. -/
theorem isspace_of_lt {b : UInt8} (h : 32 < b) : isspace b = false := by
  have hn : 32 < b.toNat := h
  have h1 : b ≠ 32 := by
    intro he
    simp [he] at hn
  have h2 : ¬ b ≤ 13 := by
    intro he
    have : b.toNat ≤ 13 := he
    omega
  simp [isspace, h1, h2]

/-- `%[^…]`: the bytes converted and the input after them. -/
def scanSet (stop : UInt8 → Bool) (s : Bytes) : Option (Bytes × Bytes) :=
  match s.takeWhile (!stop ·) with
  | [] => none
  | tok => some (tok, s.dropWhile (!stop ·))

def skipSpace (s : Bytes) : Bytes := s.dropWhile isspace

/-- The word that ends at a blank. -/
theorem scanSet_append {stop : UInt8 → Bool} {tok : Bytes} (hne : tok ≠ [])
    (h : ∀ b ∈ tok, stop b = false) {rest : Bytes} (hr : ∀ b ∈ rest.head?, stop b = true) :
    scanSet stop (tok ++ rest) = some (tok, rest) := by
  have hp : ∀ b ∈ tok, (!stop b) = true := by
    intro b hb
    rw [h b hb]
    rfl
  have hrest : rest.takeWhile (!stop ·) = [] ∧ rest.dropWhile (!stop ·) = rest := by
    cases rest with
    | nil => exact ⟨rfl, rfl⟩
    | cons b rest => simp [hr b rfl]
  unfold scanSet
  rw [List.takeWhile_append_of_pos hp, List.dropWhile_append_of_pos hp, hrest.1, hrest.2,
    List.append_nil]
  cases tok with
  | nil => exact absurd rfl hne
  | cons => rfl

theorem skipSpace_cons_space {b : UInt8} (h : isspace b = true) (s : Bytes) :
    skipSpace (b :: s) = skipSpace s := by
  simp [skipSpace, h]

theorem skipSpace_of_head {b : UInt8} (h : isspace b = false) (s : Bytes) :
    skipSpace (b :: s) = b :: s := by
  simp [skipSpace, h]

/-- What a blank skips ends before a byte that is not space. -/
theorem not_isspace_of_skipSpace {s rest : Bytes} {b : UInt8} (h : skipSpace s = b :: rest) :
    isspace b = false := by
  have hne : s.dropWhile isspace ≠ [] := by
    intro hn
    rw [skipSpace, hn] at h
    cases h
  have hd := List.head_dropWhile_not isspace hne
  simp only [skipSpace] at h
  simpa [h] using hd

/-! ## Formats -/

/-- The bytes before the first one of the set. -/
def word (stop : UInt8 → Bool) (s : Bytes) : Bytes := s.takeWhile (!stop ·)

def afterWord (stop : UInt8 → Bool) (s : Bytes) : Bytes := s.dropWhile (!stop ·)

/-- A part of a format: a blank, or a conversion `%[^…]` into an array of `size` bytes. -/
inductive Directive
  | blank
  | word (size : Nat) (stop : UInt8 → Bool)

/-- `sscanf`: the words that are stored, in the order of the conversions; `none` if one of them does
not fit into its array together with its terminator. -/
def scan : List Directive → Bytes → Option (List Bytes)
  | [], _ => some []
  | .blank :: fmt, s => scan fmt (skipSpace s)
  | .word size stop :: fmt, s =>
    match scanSet stop s with
    | none => some []
    | some (tok, rest) => if tok.length < size then (scan fmt rest).map (tok :: ·) else none

@[simp] theorem scan_nil (s : Bytes) : scan [] s = some [] := rfl

@[simp] theorem scan_blank (fmt : List Directive) (s : Bytes) :
    scan (.blank :: fmt) s = scan fmt (skipSpace s) := rfl

section
variable {size : Nat} {stop : UInt8 → Bool} {fmt : List Directive} {s : Bytes}

theorem scanSet_of_nil (h : word stop s = []) : scanSet stop s = none := by
  unfold word at h
  simp only [scanSet, h]

theorem scanSet_of_ne (h : word stop s ≠ []) :
    scanSet stop s = some (word stop s, afterWord stop s) := by
  unfold scanSet
  split
  · rename_i hn
    exact absurd hn h
  · rfl

/-- A conversion that fails ends the scan. -/
theorem scan_word_of_nil (h : word stop s = []) : scan (.word size stop :: fmt) s = some [] := by
  simp only [scan, scanSet_of_nil h]

theorem scan_word_of_ne (h : word stop s ≠ []) :
    scan (.word size stop :: fmt) s =
      if (word stop s).length < size then (scan fmt (afterWord stop s)).map (word stop s :: ·)
      else none := by
  simp only [scan, scanSet_of_ne h]

theorem scan_word_eq_some {words : List Bytes} :
    scan (.word size stop :: fmt) s = some words ↔
      word stop s = [] ∧ words = [] ∨
      word stop s ≠ [] ∧ (word stop s).length < size ∧
        ∃ rest, scan fmt (afterWord stop s) = some rest ∧ words = word stop s :: rest := by
  by_cases h : word stop s = []
  · simp [scan_word_of_nil h, h, eq_comm]
  · rw [scan_word_of_ne h]
    split <;> simp [*, eq_comm]

/-- The accesses are in bounds if those for the first word are, and those for the rest. -/
theorem scan_word_isSome : (scan (.word size stop :: fmt) s).isSome = true ↔
    word stop s = [] ∨
      (word stop s).length < size ∧ (scan fmt (afterWord stop s)).isSome = true := by
  by_cases h : word stop s = []
  · simp [scan_word_of_nil h, h]
  · rw [scan_word_of_ne h]
    split <;> simp [*]

theorem word_append (stop : UInt8 → Bool) {tok : Bytes} (h : ∀ b ∈ tok, stop b = false)
    (s : Bytes) :
    word stop (tok ++ s) = tok ++ word stop s ∧ afterWord stop (tok ++ s) = afterWord stop s := by
  have hp : ∀ b ∈ tok, (!stop b) = true := fun b hb => by simp [h b hb]
  exact ⟨List.takeWhile_append_of_pos hp, List.dropWhile_append_of_pos hp⟩

theorem word_stop {b : UInt8} (h : stop b = true) (s : Bytes) :
    word stop (b :: s) = [] ∧ afterWord stop (b :: s) = b :: s := by
  simp [word, afterWord, h]

/-- A word ends at a byte of the set, whatever is behind it. -/
theorem word_append_stop {b : UInt8} (h : stop b = true) (s rest : Bytes) :
    word stop (s ++ b :: rest) = word stop s := by
  have hb : (b :: rest).takeWhile (!stop ·) = [] := (word_stop h rest).1
  unfold word
  rw [List.takeWhile_append, hb, List.append_nil]
  split
  · exact ((List.takeWhile_prefix _).eq_of_length ‹_›).symm
  · rfl

theorem stop_of_mem_word {b : UInt8} (h : b ∈ word stop s) : stop b = false := by
  have := List.mem_takeWhile_imp h
  simpa using this

theorem word_eq_self : word stop s = s ↔ ∀ b ∈ s, stop b = false := by
  simp [word, List.takeWhile_eq_self_iff]

theorem word_length_le (stop : UInt8 → Bool) (s : Bytes) : (word stop s).length ≤ s.length :=
  (List.takeWhile_sublist _).length_le

theorem afterWord_length_le (stop : UInt8 → Bool) (s : Bytes) :
    (afterWord stop s).length ≤ s.length :=
  (List.dropWhile_sublist _).length_le

theorem skipSpace_length_le (s : Bytes) : (skipSpace s).length ≤ s.length :=
  (List.dropWhile_sublist _).length_le

/-- A word behind a blank does not begin with space. -/
theorem skipSpace_word (stop : UInt8 → Bool) (s : Bytes) :
    skipSpace (word stop (skipSpace s)) = word stop (skipSpace s) := by
  cases hw : word stop (skipSpace s) with
  | nil => rfl
  | cons b w =>
    obtain ⟨rest, hr⟩ : word stop (skipSpace s) <+: skipSpace s := List.takeWhile_prefix _
    rw [hw] at hr
    exact skipSpace_of_head (not_isspace_of_skipSpace hr.symm) w

/-- After a blank, a conversion up to a space fails at the end of the input only. -/
theorem skipSpace_eq_nil (hs : ∀ b, stop b = true → isspace b = true)
    (h : word stop (skipSpace s) = []) : skipSpace s = [] := by
  cases hk : skipSpace s with
  | nil => rfl
  | cons b rest =>
    have hb := not_isspace_of_skipSpace hk
    rw [hk] at h
    cases hstop : stop b with
    | true => rw [hs b hstop] at hb; cases hb
    | false => simp [word, hstop] at h

end

end CLib
