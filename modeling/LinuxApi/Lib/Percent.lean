import LinuxApi.Lib.CString

/-!
# Percent-encoding

`Decoding s t k`: `t` is `s`, read from left to right, with each `%` that two hex digits follow
replaced by the byte they stand for, and `k` is the number of these escapes; what is produced is not
read again. `decode` and `escapes` compute it. `Encoding w e`: `e` writes each byte of `w` as an
escape or, unless it is `%`, as itself; decoding gives `w` back (`Encoding.decoding`). What decoding
makes of the end of a string when more bytes follow is `decode_append`.
-/

set_option autoImplicit false

namespace Percent

open CLib

/-- The value of a hex digit of either case. -/
def hexVal (c : UInt8) : Option Nat :=
  if 48 ≤ c ∧ c ≤ 57 then some (c.toNat - 48)
  else if 97 ≤ c ∧ c ≤ 102 then some (c.toNat - 87)
  else if 65 ≤ c ∧ c ≤ 70 then some (c.toNat - 55)
  else none

/-- The byte that `%` and two hex digits stand for. -/
def unescape (c h l : UInt8) : Option UInt8 :=
  match hexVal h, hexVal l with
  | some x, some y => if c = 37 then some (UInt8.ofNat (16 * x + y)) else none
  | _, _ => none

theorem unescape_of_ne {c : UInt8} (hc : c ≠ 37) (h l : UInt8) : unescape c h l = none := by
  unfold unescape
  split
  · exact if_neg hc
  · rfl

theorem eq_percent {c h l b : UInt8} (hb : unescape c h l = some b) : c = 37 := by
  by_contra hc
  simp [unescape_of_ne hc] at hb

/-- `NUL` is no hex digit. -/
theorem ne_zero_of_unescape {c h l b : UInt8} (hb : unescape c h l = some b) :
    h ≠ 0 ∧ l ≠ 0 := by
  have h0 : hexVal 0 = none := rfl
  constructor
  · rintro rfl
    simp [unescape, h0] at hb
  · rintro rfl
    simp [unescape, h0] at hb

/-! ## Decoding -/

inductive Decoding : Bytes → Bytes → Nat → Prop
  | nil : Decoding [] [] 0
  | escape {c h l b : UInt8} {s t : Bytes} {k : Nat} : unescape c h l = some b →
      Decoding s t k → Decoding (c :: h :: l :: s) (b :: t) (k + 1)
  | copy {c : UInt8} {s t : Bytes} {k : Nat} :
      (∀ h l s', s = h :: l :: s' → unescape c h l = none) →
      Decoding s t k → Decoding (c :: s) (c :: t) k

def decode : Bytes → Bytes
  | c :: h :: l :: s =>
    match unescape c h l with
    | some b => b :: decode s
    | none => c :: decode (h :: l :: s)
  | c :: s => c :: decode s
  | [] => []

/-- The number of escapes that are decoded. -/
def escapes : Bytes → Nat
  | c :: h :: l :: s =>
    match unescape c h l with
    | some _ => escapes s + 1
    | none => escapes (h :: l :: s)
  | _ :: s => escapes s
  | [] => 0

section
variable {c h l b : UInt8} {s : Bytes}

theorem decode_escape (hb : unescape c h l = some b) : decode (c :: h :: l :: s) = b :: decode s := by
  simp [decode, hb]

theorem escapes_escape (hb : unescape c h l = some b) :
    escapes (c :: h :: l :: s) = escapes s + 1 := by
  simp [escapes, hb]

theorem decode_copy (hn : ∀ h l s', s = h :: l :: s' → unescape c h l = none) :
    decode (c :: s) = c :: decode s := by
  match s with
  | [] => rfl
  | [_] => rfl
  | h :: l :: s' => simp [decode, hn h l s' rfl]

theorem escapes_copy (hn : ∀ h l s', s = h :: l :: s' → unescape c h l = none) :
    escapes (c :: s) = escapes s := by
  match s with
  | [] => rfl
  | [_] => rfl
  | h :: l :: s' => simp [escapes, hn h l s' rfl]

end

theorem decode_ne_nil {s : Bytes} (h : s ≠ []) : decode s ≠ [] := by
  match s with
  | [] => exact absurd rfl h
  | [_] => exact nofun
  | [_, _] => exact nofun
  | c :: h :: l :: s =>
    unfold decode
    split <;> exact nofun

/-- Either an escape is at the head, or the first byte is copied. -/
theorem head_cases (c : UInt8) (s : Bytes) :
    (∃ h l s' b, s = h :: l :: s' ∧ unescape c h l = some b) ∨
      ∀ h l s', s = h :: l :: s' → unescape c h l = none := by
  match s with
  | [] => exact .inr nofun
  | [_] => exact .inr nofun
  | h :: l :: s' =>
    cases hb : unescape c h l with
    | some b => exact .inl ⟨h, l, s', b, rfl, hb⟩
    | none =>
      refine .inr fun h' l' s'' he => ?_
      obtain ⟨rfl, rfl, rfl⟩ : h = h' ∧ l = l' ∧ s' = s'' := by simpa using he
      exact hb

theorem decoding_decode (s : Bytes) : Decoding s (decode s) (escapes s) := by
  match s with
  | [] => exact .nil
  | c :: s =>
    rcases head_cases c s with ⟨h, l, s', b, rfl, hb⟩ | hn
    · rw [decode_escape hb, escapes_escape hb]
      exact .escape hb (decoding_decode s')
    · rw [decode_copy hn, escapes_copy hn]
      exact .copy hn (decoding_decode s)
termination_by s.length

/-- There is one way to decode. -/
theorem Decoding.eq_decode {s t : Bytes} {k : Nat} (d : Decoding s t k) :
    t = decode s ∧ k = escapes s := by
  induction d with
  | nil => exact ⟨rfl, rfl⟩
  | escape hb _ ih => rw [decode_escape hb, escapes_escape hb, ← ih.1, ← ih.2]; exact ⟨rfl, rfl⟩
  | copy hn _ ih => rw [decode_copy hn, escapes_copy hn, ← ih.1, ← ih.2]; exact ⟨rfl, rfl⟩

/-- An escape is two bytes longer than its byte. -/
theorem Decoding.length {s t : Bytes} {k : Nat} (d : Decoding s t k) :
    t.length + 2 * k = s.length := by
  induction d with
  | nil => rfl
  | escape _ _ ih =>
    simp only [List.length_cons]
    omega
  | copy _ _ ih =>
    simp only [List.length_cons]
    omega

/-! ## Decoding an append -/

/-- The first bytes of `t` complete an escape that `s` ends with: `v` is copied at the end of `s`, and
decoded together with `q` where `t` follows. -/
structure Completes (s t u v q t' : Bytes) (b : UInt8) : Prop where
  left : v ≠ []
  right : q ≠ []
  escape : ∃ c h l, v ++ q = [c, h, l] ∧ unescape c h l = some b
  append : t = q ++ t'
  alone : decode s = u ++ v
  together : decode (s ++ t) = u ++ b :: decode t'
  count : escapes (s ++ t) = escapes s + 1 + escapes t'

/-- What follows changes nothing before the end. -/
theorem copied_of_append {c : UInt8} {s t : Bytes}
    (hn : ∀ h l s', s ++ t = h :: l :: s' → unescape c h l = none) :
    ∀ h l s', s = h :: l :: s' → unescape c h l = none := by
  intro h l s' hs
  subst hs
  exact hn h l _ rfl

theorem Completes.cons {s t u v q t' : Bytes} {b c : UInt8} (hc : Completes s t u v q t' b)
    (hn : ∀ h l s', s ++ t = h :: l :: s' → unescape c h l = none) :
    Completes (c :: s) t (c :: u) v q t' b := by
  have hns := copied_of_append hn
  refine { hc with alone := ?_, together := ?_, count := ?_ }
  · rw [decode_copy hns, hc.alone]
    rfl
  · rw [List.cons_append, decode_copy hn, hc.together]
    rfl
  · rw [List.cons_append, escapes_copy hn, escapes_copy hns, hc.count]

theorem Completes.escapeCons {s t u v q t' : Bytes} {b c h l b' : UInt8}
    (hc : Completes s t u v q t' b) (hb : unescape c h l = some b') :
    Completes (c :: h :: l :: s) t (b' :: u) v q t' b := by
  refine { hc with alone := ?_, together := ?_, count := ?_ }
  · rw [decode_escape hb, hc.alone]
    rfl
  · rw [List.cons_append, List.cons_append, List.cons_append, decode_escape hb, hc.together]
    rfl
  · rw [List.cons_append, List.cons_append, List.cons_append, escapes_escape hb,
      escapes_escape hb, hc.count]
    omega

/-- What is appended is decoded for itself, unless it completes an escape. -/
theorem decode_append (s t : Bytes) :
    (decode (s ++ t) = decode s ++ decode t ∧ escapes (s ++ t) = escapes s + escapes t) ∨
      ∃ u v q t' b, Completes s t u v q t' b := by
  match s with
  | [] => exact .inl ⟨rfl, (Nat.zero_add _).symm⟩
  | c :: s =>
    rcases head_cases c (s ++ t) with ⟨h, l, r, b, hr, hb⟩ | hn
    · -- an escape at the head, of which `s` may hold the first byte, two or all of them
      match s with
      | [] =>
        obtain rfl : t = h :: l :: r := hr
        exact .inr ⟨[], [c], [h, l], r, b, nofun, nofun, ⟨c, h, l, rfl, hb⟩, rfl, rfl,
          decode_escape hb, (escapes_escape hb).trans (by simp [escapes, Nat.add_comm])⟩
      | [h'] =>
        obtain ⟨rfl, rfl⟩ : h' = h ∧ t = l :: r := by simpa using hr
        exact .inr ⟨[], [c, h'], [l], r, b, nofun, nofun, ⟨c, h', l, rfl, hb⟩, rfl, rfl,
          decode_escape hb, (escapes_escape hb).trans (by simp [escapes, Nat.add_comm])⟩
      | h' :: l' :: s' =>
        obtain ⟨rfl, rfl, rfl⟩ : h' = h ∧ l' = l ∧ s' ++ t = r := by simpa using hr
        rcases decode_append s' t with ⟨hd, he⟩ | ⟨u, v, q, t', b', hc⟩
        · left
          simp only [List.cons_append]
          rw [decode_escape hb, decode_escape hb, escapes_escape hb, escapes_escape hb, hd, he]
          exact ⟨rfl, by omega⟩
        · exact .inr ⟨b :: u, v, q, t', b', hc.escapeCons hb⟩
    · have hns := copied_of_append hn
      rcases decode_append s t with ⟨hd, he⟩ | ⟨u, v, q, t', b, hc⟩
      · left
        rw [List.cons_append, decode_copy hn, decode_copy hns, escapes_copy hn, escapes_copy hns,
          hd, he]
        exact ⟨rfl, rfl⟩
      · exact .inr ⟨c :: u, v, q, t', b, hc.cons hn⟩
termination_by s.length

theorem escapes_le_append (s t : Bytes) : escapes s ≤ escapes (s ++ t) := by
  rcases decode_append s t with ⟨-, he⟩ | ⟨u, v, q, t', b, hc⟩
  · omega
  · have := hc.count
    omega

theorem decode_of_escapes {t : Bytes} (h : escapes t = 0) : decode t = t := by
  match t with
  | [] => rfl
  | c :: t =>
    rcases head_cases c t with ⟨h', l, s', b, rfl, hb⟩ | hn
    · rw [escapes_escape hb] at h
      cases h
    · rw [escapes_copy hn] at h
      rw [decode_copy hn, decode_of_escapes h]

/-- What adds no escape is copied. -/
theorem decode_append_of_escapes {s t : Bytes} (h : escapes (s ++ t) = escapes s) :
    decode (s ++ t) = decode s ++ t := by
  rcases decode_append s t with ⟨hd, he⟩ | ⟨u, v, q, t', b, hc⟩
  · have ht : escapes t = 0 := by omega
    rw [hd, decode_of_escapes ht]
  · have := hc.count
    omega

/-- A byte that is no hex digit completes no escape. -/
theorem escapes_append_of_head {s t : Bytes} {b : UInt8} (hb : hexVal b = none)
    (ht : t.head? = some b) : escapes (s ++ t) = escapes s + escapes t := by
  rcases decode_append s t with ⟨-, he⟩ | ⟨u, v, q, t', b', hc⟩
  · exact he
  · obtain ⟨c, h, l, hv, hu⟩ := hc.escape
    have hdigits : hexVal h ≠ none ∧ hexVal l ≠ none := by
      unfold unescape at hu
      split at hu
      · simp [*]
      · cases hu
    exfalso
    match v, q, hc.left, hc.right with
    | [_], x :: q, _, _ =>
      have hx : x = b := by simpa [hc.append] using ht
      have hh : x = h := (List.cons.inj (List.cons.inj hv).2).1
      exact hdigits.1 (hh ▸ hx ▸ hb)
    | [_, _], x :: q, _, _ =>
      have hx : x = b := by simpa [hc.append] using ht
      have hl : x = l := (List.cons.inj (List.cons.inj (List.cons.inj hv).2).2).1
      exact hdigits.2 (hl ▸ hx ▸ hb)
    | _ :: _ :: _ :: v, x :: q, _, _ => simp at hv

/-- Only bytes of an escape at the end of `s`, of which none is `NUL`, depend on what follows. -/
theorem decode_append_prefix (s t : Bytes) :
    ∃ u v w, decode s = u ++ v ∧ decode (s ++ t) = u ++ w ∧ (0 : UInt8) ∉ v := by
  rcases decode_append s t with ⟨hd, -⟩ | ⟨u, v, q, t', b, hc⟩
  · exact ⟨decode s, [], decode t, (List.append_nil _).symm, hd, nofun⟩
  · refine ⟨u, v, _, hc.alone, hc.together, fun h0 => ?_⟩
    obtain ⟨c, h, l, hv, hb⟩ := hc.escape
    have hmem : (0 : UInt8) ∈ [c, h, l] := hv ▸ List.mem_append_left q h0
    obtain ⟨hh, hl⟩ := ne_zero_of_unescape hb
    simp only [List.mem_cons, List.not_mem_nil, or_false] at hmem
    rcases hmem with h | h | h
    · rw [eq_percent hb] at h
      cases h
    · exact hh h.symm
    · exact hl h.symm

/-! ## Encodings -/

inductive Encoding : Bytes → Bytes → Prop
  | nil : Encoding [] []
  | literal {b : UInt8} {w e : Bytes} : b ≠ 37 → Encoding w e → Encoding (b :: w) (b :: e)
  | escaped {b h l : UInt8} {w e : Bytes} : unescape 37 h l = some b → Encoding w e →
      Encoding (b :: w) (37 :: h :: l :: e)

/-- A byte that is written as itself starts no escape. -/
theorem Encoding.decoding {w e : Bytes} (h : Encoding w e) : ∃ k, Decoding e w k := by
  induction h with
  | nil => exact ⟨0, .nil⟩
  | literal hb _ ih =>
    obtain ⟨k, d⟩ := ih
    exact ⟨k, .copy (fun h l _ _ => unescape_of_ne hb h l) d⟩
  | escaped hb _ ih =>
    obtain ⟨k, d⟩ := ih
    exact ⟨k + 1, .escape hb d⟩

/-- An encoding has a `NUL` only where one is written as itself. -/
theorem Encoding.zero_notMem {w e : Bytes} (h : Encoding w e) (hw : (0 : UInt8) ∉ w) :
    (0 : UInt8) ∉ e := by
  induction h with
  | nil => exact hw
  | literal _ _ ih =>
    simp only [List.mem_cons, not_or] at hw ⊢
    exact ⟨hw.1, ih hw.2⟩
  | escaped hb _ ih =>
    simp only [List.mem_cons, not_or] at hw ⊢
    obtain ⟨h1, h2⟩ := ne_zero_of_unescape hb
    exact ⟨by decide, h1.symm, h2.symm, ih hw.2⟩

end Percent
