import LinuxApi.Http.Buffers
import LinuxApi.Lib.Percent

/-!
# What `decode_str` computes

`decodeStr` is `Percent.decode` (`decodeStr_eq_decode`), and the reads of the loop stay within the
string and its terminator (`decodeMem_eq`).
-/

set_option autoImplicit false

namespace Libevent

open CLib Http Percent

/-- `isxdigit` and `hexit` together are the value of a hex digit. -/
theorem hexVal_eq (c : UInt8) :
    hexVal c = if isxdigit c = true then some (hexit c).toNat else none := by
  revert c
  decide +kernel

theorem toNat_hexit_lt (c : UInt8) : (hexit c).toNat < 16 := by
  revert c
  decide +kernel

theorem unescape_eq (c h l : UInt8) : unescape c h l =
    if c = 37 ∧ isxdigit h = true ∧ isxdigit l = true then some (hexit h * 16 + hexit l)
    else none := by
  unfold unescape
  rw [hexVal_eq, hexVal_eq]
  by_cases hh : isxdigit h = true
  · by_cases hl : isxdigit l = true
    · have hb : UInt8.ofNat (16 * (hexit h).toNat + (hexit l).toNat) = hexit h * 16 + hexit l := by
        apply UInt8.toNat.inj
        have h16 : (16 : UInt8).toNat = 16 := rfl
        have := toNat_hexit_lt h
        have := toNat_hexit_lt l
        simp only [UInt8.toNat_ofNat', UInt8.toNat_add, UInt8.toNat_mul, h16]
        omega
      simp [hh, hl, hb]
    · simp [hh, hl]
  · simp [hh]

theorem decodeStr_eq_decode (s : Bytes) : decodeStr s = decode s := by
  fun_induction decodeStr s with
  | case1 c h l s hc ih => rw [decode_escape ((unescape_eq c h l).trans (if_pos hc)), ih]
  | case2 c h l s hc ih =>
    have hn : unescape c h l = none := (unescape_eq c h l).trans (if_neg hc)
    rw [decode_copy (by simp [hn]), ih]
  | case3 c s hs ih => rw [decode_copy fun h l s' he => absurd he (hs h l s'), ih]
  | case4 => rfl

/-! ## The reads -/

section
variable {c h l b : UInt8} {s : Bytes}

theorem decodeMem_escape (hb : unescape c h l = some b) (mem : Bytes) :
    decodeMem (c :: h :: l :: mem) = (decodeMem mem).map (b :: ·) := by
  rw [unescape_eq] at hb
  split at hb
  · rename_i hc
    obtain ⟨rfl, hh, hl⟩ := hc
    obtain rfl := Option.some.inj hb
    simp [decodeMem, hh, hl]
  · cases hb

/-- The terminator is no hex digit, so that the tests for an escape stop there. -/
theorem decodeMem_copy (hc : c ≠ 0)
    (hn : ∀ h l s', s = h :: l :: s' → unescape c h l = none) (rest : Bytes) :
    decodeMem (c :: (s ++ 0 :: rest)) = (decodeMem (s ++ 0 :: rest)).map (c :: ·) := by
  have h0 : isxdigit 0 = false := rfl
  rw [decodeMem.eq_def]
  simp only [if_neg hc]
  by_cases h37 : c = 37
  · rw [if_pos h37]
    rcases s with _ | ⟨h, _ | ⟨l, s'⟩⟩
    · simp [h0]
    · by_cases hh : isxdigit h = true <;> simp [hh, h0]
    · have hx : ¬ (isxdigit h = true ∧ isxdigit l = true) := by
        intro hx
        obtain ⟨hh, hl⟩ := hx
        simpa [unescape_eq, h37, hh, hl] using hn h l s' rfl
      by_cases hh : isxdigit h = true
      · simp [hh, show ¬ isxdigit l = true from fun hl => hx ⟨hh, hl⟩]
      · simp [hh]
  · rw [if_neg h37]

end

/-- The loop ends at the terminator, whatever comes after it. -/
theorem decodeMem_decoding {s t : Bytes} {k : Nat} (d : Decoding s t k) (h0 : (0 : UInt8) ∉ s)
    (rest : Bytes) : decodeMem (s ++ 0 :: rest) = some t := by
  induction d with
  | nil => exact decodeMem.eq_def (0 :: rest)
  | escape hb _ ih =>
    simp only [List.mem_cons, not_or] at h0
    rw [List.cons_append, List.cons_append, List.cons_append, decodeMem_escape hb, ih h0.2.2.2]
    rfl
  | copy hn _ ih =>
    simp only [List.mem_cons, not_or] at h0
    rw [List.cons_append, decodeMem_copy (Ne.symm h0.1) hn, ih h0.2]
    rfl

/-- The accesses of the loop are in bounds, and it writes what `decodeStr` says. -/
theorem decodeMem_eq {s : Bytes} (h0 : (0 : UInt8) ∉ s) (rest : Bytes) :
    decodeMem (s ++ 0 :: rest) = some (decodeStr s) := by
  rw [decodeStr_eq_decode]
  exact decodeMem_decoding (decoding_decode s) h0 rest

/-- **`decode_str` is a percent decoder**: of every string it reads the bytes up to the terminator
only, and writes the decoding, which is shorter by two bytes for each escape. What an encoding
stands for is read back from it. -/
theorem decode_correct :
    (∀ s rest : Bytes, (0 : UInt8) ∉ s → ∃ t k, decodeMem (s ++ 0 :: rest) = some t ∧
      Decoding s t k ∧ t.length + 2 * k = s.length) ∧
    ∀ w e rest : Bytes, (0 : UInt8) ∉ w → Encoding w e → decodeMem (e ++ 0 :: rest) = some w := by
  constructor
  · intro s rest h0
    have d := decoding_decode s
    exact ⟨_, _, decodeMem_decoding d h0 rest, d, d.length⟩
  · intro w e rest h0 he
    obtain ⟨k, d⟩ := he.decoding
    exact decodeMem_decoding d (he.zero_notMem h0) rest

/-- Mixed encodings of a string with a `%` and with escapes that are cut off. -/
theorem decode_correct_mixed :
    (∃ t k, decodeMem (ascii "%%41%4" ++ [0]) = some t ∧ Decoding (ascii "%%41%4") t k ∧
      t.length + 2 * k = 6) ∧
    decodeMem (ascii "a%2f%25%42" ++ [0]) = some (ascii "a/%B") := by
  have henc : Encoding (ascii "a/%B") (ascii "a%2f%25%42") :=
    .literal (by decide) (.escaped (by decide) (.escaped (by decide) (.escaped (by decide) .nil)))
  exact ⟨decode_correct.1 (ascii "%%41%4") [] (by decide),
    decode_correct.2 (ascii "a/%B") (ascii "a%2f%25%42") [] (by decide) henc⟩

end Libevent
