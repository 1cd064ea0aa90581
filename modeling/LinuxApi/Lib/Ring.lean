import LinuxApi.Lib.Transition

/-!
# Rings

A ring of `cap` slots into which entries are written one after another: entry number `k` goes to
slot `k % cap`. `Lap slots added cap` says that the slots hold the last `cap` of the entries
`added`; it is kept by every write (`Lap.push`), whatever is read in between. A reader that
has read the first `t` of the entries and is at most one lap behind finds the rest of them,
in order, in the slots from `t % cap` on (`Lap.window`): the ring is a bounded queue.
-/

set_option autoImplicit false

namespace Ring

variable {α : Type}

/-- The ring holds the last `cap` entries that were added. -/
structure Lap (slots added : List α) (cap : Nat) : Prop where
  length : slots.length = cap
  last : ∀ k, added.length ≤ k + cap → k < added.length → slots[k % cap]? = added[k]?

/-- Two entries less than a lap apart are in different slots. -/
theorem mod_ne {k n cap : Nat} (hk : k < n) (hn : n < k + cap) : k % cap ≠ n % cap := by
  intro he
  have hd : cap ∣ n - k := (Nat.modEq_iff_dvd' (Nat.le_of_lt hk)).1 he
  have := Nat.le_of_dvd (by omega) hd
  omega

theorem Lap.nil {slots : List α} {cap : Nat} (h : slots.length = cap) : Lap slots [] cap :=
  ⟨h, fun _ _ hk => absurd hk (by simp)⟩

/-- Writing the next entry. -/
theorem Lap.push {slots added : List α} {cap : Nat} (h : Lap slots added cap) (hc : 0 < cap)
    (x : α) : Lap (slots.set (added.length % cap) x) (added ++ [x]) cap := by
  refine ⟨by rw [List.length_set, h.length], fun k hk hlt => ?_⟩
  simp only [List.length_append, List.length_cons, List.length_nil] at hk hlt
  by_cases hkn : k = added.length
  · subst hkn
    have : added.length % cap < slots.length := by rw [h.length]; exact Nat.mod_lt _ hc
    rw [List.getElem?_set_self this, List.getElem?_concat_length]
  · rw [List.getElem?_set_ne (mod_ne (by omega) (by omega)).symm,
      List.getElem?_append_left (by omega)]
    exact h.last k (by omega) (by omega)

/-- The entries a reader has not read yet, in the slots it will read them from. -/
theorem Lap.window {slots added : List α} {cap t : Nat} (h : Lap slots added cap)
    (ht : t ≤ added.length) (hl : added.length ≤ t + cap) (d : α) :
    (List.range (added.length - t)).map (fun i => slots.getD ((t + i) % cap) d) =
      added.drop t := by
  apply List.ext_getElem?
  intro i
  simp only [List.getElem?_map, List.getElem?_drop]
  by_cases hi : i < added.length - t
  · rw [List.getElem?_range hi, Option.map_some, List.getD_eq_getElem?_getD,
      h.last (t + i) (by omega) (by omega), List.getElem?_eq_getElem (by omega), Option.getD_some]
  · rw [List.getElem?_eq_none (by simp; omega), List.getElem?_eq_none (by omega), Option.map_none]

/-- The next entry that a reader will read. -/
theorem Lap.front {slots added : List α} {cap t : Nat} (h : Lap slots added cap)
    (ht : t < added.length) (hl : added.length ≤ t + cap) : slots[t % cap]? = added[t]? :=
  h.last t hl ht

/-- The entry that the next write replaces is the one written a lap earlier. -/
theorem Lap.replaced {slots added : List α} {cap : Nat} (h : Lap slots added cap)
    (hc : 0 < cap) (hl : cap ≤ added.length) :
    slots[added.length % cap]? = added[added.length - cap]? := by
  rw [← h.last (added.length - cap) (by omega) (by omega)]
  congr 1
  exact (Nat.mod_eq_sub_mod hl)

/-! ## Counters modulo the number of slots, in integers -/

theorem tmod_succ {n cap : Nat} :
    (((n % cap : Nat) : Int) + 1).tmod cap = ((n + 1) % cap : Nat) := by
  rw [Int.tmod_eq_emod_of_nonneg (by omega)]
  have : ((n % cap : Nat) : Int) + 1 = ((n % cap + 1 : Nat) : Int) := by push_cast; rfl
  rw [this, ← Int.natCast_emod, Nat.mod_add_mod]

end Ring
