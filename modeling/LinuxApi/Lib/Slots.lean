import LinuxApi.Lib.Threads

/-!
# Tables of slots

A table is a list, one value of which marks a free slot. `Distinct free table` says that nothing
else is in two slots, and `Holds free table held` that the table has the members of `held`, each in
one slot. Both are kept when a slot is taken (`put`) and when it is freed (`clear`). A table with more
slots than members has a free one (`Holds.free_mem`).
-/

set_option autoImplicit false

namespace Slots

section
variable {α : Type} [DecidableEq α]

/-- Apart from `free`, nothing is in two slots. -/
def Distinct (free : α) (table : List α) : Prop := ∀ a, a ≠ free → table.count a ≤ 1

/-- The table has the members of `held`, each in one slot. -/
structure Holds (free : α) (table : List α) (held : Finset α) : Prop where
  distinct : Distinct free table
  mem : ∀ a, a ∈ held ↔ a ∈ table ∧ a ≠ free

variable {free a : α} {table : List α} {held : Finset α} {i : Nat}

theorem count_set_add {b : α} (c : α) (h : table[i]? = some a) :
    (table.set i b).count c + (if a = c then 1 else 0) =
      table.count c + (if b = c then 1 else 0) := by
  simpa only [beq_iff_eq, List.count] using Threads.countP_set_add (b := b) (· == c) h

theorem Distinct.unique (h : Distinct free table) {j : Nat} (hi : table[i]? = some a)
    (hj : table[j]? = some a) (ha : a ≠ free) : i = j := by
  by_contra hne
  have hcount := count_set_add (b := free) a hi
  have hmem : a ∈ table.set i free := by
    apply List.mem_of_getElem? (i := j)
    rw [List.getElem?_set_ne hne, hj]
  have hpos := List.count_pos_iff.2 hmem
  have hle := h a ha
  rw [if_pos rfl, if_neg (Ne.symm ha)] at hcount
  omega

theorem Distinct.put (h : Distinct free table) (hi : table[i]? = some free) (ha : a ∉ table) :
    Distinct free (table.set i a) := by
  intro c hc
  have hcount := count_set_add (b := a) c hi
  have hle := h c hc
  by_cases hac : a = c
  · have hzero : table.count c = 0 := List.count_eq_zero.2 (hac ▸ ha)
    simp only [hac, if_true] at hcount
    rw [if_neg (Ne.symm hc)] at hcount
    rw [hac]
    omega
  · rw [if_neg hac] at hcount
    omega

theorem Distinct.clear (h : Distinct free table) : Distinct free (table.set i free) := by
  intro c hc
  have hle := h c hc
  cases hi : table[i]? with
  | none => rwa [List.set_eq_of_length_le (List.getElem?_eq_none_iff.1 hi)]
  | some b =>
    have hcount := count_set_add (b := free) c hi
    rw [if_neg (Ne.symm hc)] at hcount
    omega

theorem Holds.replicate (n : Nat) : Holds free (List.replicate n free) ∅ where
  distinct a ha := by
    rw [List.count_eq_zero.2 fun hmem => ha (List.eq_of_mem_replicate hmem)]
    exact Nat.zero_le 1
  mem a := iff_of_false (Finset.notMem_empty a) fun h => h.2 (List.eq_of_mem_replicate h.1)

section
variable (h : Holds free table held)
include h

theorem Holds.count_eq_one (ha : a ∈ held) : table.count a = 1 := by
  obtain ⟨hmem, hne⟩ := (h.mem a).1 ha
  have hle := h.distinct a hne
  have hpos := List.count_pos_iff.2 hmem
  omega

theorem Holds.notMem_table (ha : a ∉ held) (hne : a ≠ free) : a ∉ table :=
  fun hmem => ha ((h.mem a).2 ⟨hmem, hne⟩)

/-- A new member takes a free slot. -/
theorem Holds.put (hi : table[i]? = some free) (ha : a ∉ held) (hne : a ≠ free) :
    Holds free (table.set i a) (insert a held) := by
  refine ⟨h.distinct.put hi (h.notMem_table ha hne), fun c => ?_⟩
  have hcount := count_set_add (b := a) c hi
  rw [Finset.mem_insert, h.mem, ← List.count_pos_iff, ← List.count_pos_iff]
  by_cases hc : c = free
  · simp [hc, Ne.symm hne]
  · rw [if_neg (Ne.symm hc)] at hcount
    by_cases hac : a = c
    · rw [if_pos hac] at hcount
      exact iff_of_true (.inl hac.symm) ⟨by omega, hc⟩
    · rw [if_neg hac, Nat.add_zero, Nat.add_zero] at hcount
      rw [or_iff_right (Ne.symm hac), hcount]

/-- A member frees its slot. -/
theorem Holds.clear (hi : table[i]? = some a) :
    Holds free (table.set i free) (held.erase a) := by
  refine ⟨h.distinct.clear, fun c => ?_⟩
  have hcount := count_set_add (b := free) c hi
  rw [Finset.mem_erase, h.mem, ← List.count_pos_iff, ← List.count_pos_iff]
  by_cases hc : c = free
  · simp [hc]
  · rw [if_neg (Ne.symm hc)] at hcount
    by_cases hac : a = c
    · have hle := h.distinct c hc
      rw [if_pos hac] at hcount
      exact iff_of_false (fun hx => hx.1 hac.symm) fun hx => by omega
    · rw [if_neg hac, Nat.add_zero, Nat.add_zero] at hcount
      rw [and_iff_right (Ne.symm hac), hcount]

/-- There is a free slot as long as there are more slots than members. -/
theorem Holds.free_mem (hlt : held.card < table.length) : free ∈ table := by
  by_contra hfree
  have hnodup : table.Nodup := by
    apply List.nodup_iff_count_le_one.2
    intro a
    by_cases ha : a = free
    · rw [ha, List.count_eq_zero.2 hfree]
      exact Nat.zero_le 1
    · exact h.distinct a ha
  have hsub : table.toFinset ⊆ held := by
    intro a ha
    have hmem := List.mem_toFinset.1 ha
    exact (h.mem a).2 ⟨hmem, fun he => hfree (he ▸ hmem)⟩
  have hcard := Finset.card_le_card hsub
  rw [List.toFinset_card_of_nodup hnodup] at hcard
  omega

end

end

end Slots
