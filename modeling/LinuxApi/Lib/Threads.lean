import LinuxApi.Lib.Transition

/-!
# Lists of threads and mutual exclusion

A program whose threads are the entries of a list updates one entry a step, or appends one. This
file has what that does to the entries (`getElem?_set_cases`, `getElem?_concat_cases`) and to a count
of them (`countP_set_add`) or a sum over them (`sum_set_add`), and the step rule of mutual exclusion: `Excl holds lock` says
that whoever is inside the critical section owns the mutex; a step of one thread that takes the
mutex when it is free, leaves the section when it gives it back, and does neither otherwise,
keeps it (`Excl.step`).
-/

set_option autoImplicit false

namespace Threads

section
variable {α : Type}

theorem getElem?_set_cases {l : List α} {i j : Nat} {a b : α} (h : (l.set i a)[j]? = some b) :
    (j = i ∧ b = a) ∨ (j ≠ i ∧ l[j]? = some b) := by
  by_cases hji : j = i
  · subst hji
    rw [List.getElem?_set_self'] at h
    simp only [Option.map_eq_map, Option.map_eq_some_iff, Function.const_apply] at h
    obtain ⟨_, _, rfl⟩ := h
    exact .inl ⟨rfl, rfl⟩
  · rw [List.getElem?_set_ne (Ne.symm hji)] at h
    exact .inr ⟨hji, h⟩

theorem getElem?_set_of_some {l : List α} {i : Nat} {a : α} (b : α) (h : l[i]? = some a) :
    (l.set i b)[i]? = some b :=
  List.getElem?_set_self (List.getElem?_eq_some_iff.1 h).1

/-- What an entry satisfies it still does if the update of another one, or its own, keeps it. -/
theorem exists_getElem?_set {l : List α} {i j : Nat} {a b : α} {p : α → Prop} (ha : l[i]? = some a)
    (hab : p a → p b) (h : ∃ c, l[j]? = some c ∧ p c) : ∃ c, (l.set i b)[j]? = some c ∧ p c := by
  obtain ⟨c, hc, hp⟩ := h
  by_cases hij : i = j
  · subst hij
    obtain rfl := Option.some.inj (ha.symm.trans hc)
    exact ⟨b, getElem?_set_of_some b ha, hab hp⟩
  · exact ⟨c, by rw [List.getElem?_set_ne hij]; exact hc, hp⟩

/-- The same, wherever the entry is. -/
theorem exists_mem_set {l : List α} {i : Nat} {a b : α} {p : α → Prop} (ha : l[i]? = some a)
    (hab : p a → p b) (h : ∃ c ∈ l, p c) : ∃ c ∈ l.set i b, p c := by
  obtain ⟨c, hc, hp⟩ := h
  obtain ⟨j, hj⟩ := List.mem_iff_getElem?.1 hc
  obtain ⟨d, hd, hpd⟩ := exists_getElem?_set ha hab ⟨c, hj, hp⟩
  exact ⟨d, List.mem_of_getElem? hd, hpd⟩

theorem getElem?_concat_of_some {l : List α} {i : Nat} {a : α} (b : α) (h : l[i]? = some a) :
    (l ++ [b])[i]? = some a := by
  rw [List.getElem?_append_left (List.getElem?_eq_some_iff.1 h).1]
  exact h

theorem getElem?_concat_cases {l : List α} {i : Nat} {a b : α} (h : (l ++ [b])[i]? = some a) :
    l[i]? = some a ∨ (i = l.length ∧ a = b) := by
  rcases Nat.lt_or_ge i l.length with hlt | hge
  · rw [List.getElem?_append_left hlt] at h
    exact .inl h
  · rw [List.getElem?_append_right hge, List.getElem?_singleton] at h
    simp only [Option.ite_none_right_eq_some, Option.some.injEq] at h
    exact .inr ⟨by omega, h.2.symm⟩

/-- An update of all entries that may not happen. -/
theorem getElem?_ite_map_cases {l : List α} {f : α → α} {c : Prop} [Decidable c] {i : Nat} {b : α}
    (h : (if c then l.map f else l)[i]? = some b) : ∃ a, l[i]? = some a ∧ (b = a ∨ b = f a) := by
  split at h
  · rw [List.getElem?_map, Option.map_eq_some_iff] at h
    obtain ⟨a, ha, rfl⟩ := h
    exact ⟨a, ha, .inr rfl⟩
  · exact ⟨b, h, .inl rfl⟩

/-- The count after the update of one entry, without subtraction. -/
theorem countP_set_add {l : List α} {i : Nat} {a b : α} (p : α → Bool) (h : l[i]? = some a) :
    (l.set i b).countP p + (if p a then 1 else 0) = l.countP p + (if p b then 1 else 0) := by
  obtain ⟨hi, rfl⟩ := List.getElem?_eq_some_iff.1 h
  rw [List.countP_set hi]
  have hpos : (if p l[i] = true then 1 else 0) ≤ l.countP p := by
    split
    · exact List.countP_pos_iff.2 ⟨l[i], List.getElem_mem hi, by assumption⟩
    · exact Nat.zero_le _
  omega

/-- The sum of weights after the update of one entry, without subtraction. -/
theorem sum_set_add {l : List α} {i : Nat} {a : α} (w : α → Nat) (b : α) (h : l[i]? = some a) :
    ((l.set i b).map w).sum + w a = (l.map w).sum + w b := by
  induction l generalizing i with
  | nil => simp at h
  | cons c l ih =>
    cases i with
    | zero =>
      obtain rfl : c = a := by simpa using h
      simp only [List.set_cons_zero, List.map_cons, List.sum_cons]
      omega
    | succ i =>
      have := ih (i := i) (by simpa using h)
      simp only [List.set_cons_succ, List.map_cons, List.sum_cons]
      omega

theorem sum_modify_add {l : List α} {i : Nat} {a : α} (w : α → Nat) (f : α → α)
    (h : l[i]? = some a) : ((l.modify i f).map w).sum + w a = (l.map w).sum + w (f a) := by
  have hset : l.modify i f = l.set i (f a) := by
    apply List.ext_getElem?
    intro j
    rw [List.getElem?_modify, List.getElem?_set]
    by_cases hij : i = j
    · subst hij
      rw [if_pos rfl, if_pos (List.getElem?_eq_some_iff.1 h).1, h]
      simp
    · simp [hij]
  rw [hset, sum_set_add w (f a) h]

/-- A counter that follows what the update of one entry does to the count. -/
theorem counter_set {l : List α} {i : Nat} {a b : α} {p : α → Bool} {n n' : Int}
    (h : l[i]? = some a) (hn : n = (l.countP p : Nat))
    (hs : n' + (if p a then 1 else 0) = n + (if p b then 1 else 0)) :
    n' = ((l.set i b).countP p : Nat) := by
  have hc := countP_set_add (b := b) p h
  cases ha : p a <;> cases hb : p b <;>
    simp only [ha, hb, if_true, if_false, Bool.false_eq_true] at hc hs <;> omega

theorem countP_map_eq {l : List α} {f : α → α} {p : α → Bool} (h : ∀ a, p (f a) = p a) :
    (l.map f).countP p = l.countP p := by
  rw [List.countP_map]
  exact List.countP_congr fun a _ => by simp [h a]

end

/-! ## Mutual exclusion -/

section
variable {ι : Type} {holds holds' : ι → Prop} {lock lock' : Option ι}

/-- Whoever is inside the critical section owns the mutex. -/
def Excl (holds : ι → Prop) (lock : Option ι) : Prop := ∀ i, holds i → lock = some i

theorem Excl.unique (h : Excl holds lock) {i j : ι} (hi : holds i) (hj : holds j) : i = j :=
  Option.some.inj ((h i hi).symm.trans (h j hj))

theorem Excl.not_of_none (h : Excl holds none) (i : ι) : ¬ holds i :=
  fun hi => nomatch h i hi

/-- What a step of thread `i` may do to the mutex. -/
inductive MutexStep (i : ι) (holds holds' : ι → Prop) (lock lock' : Option ι) : Prop
  | acquire : lock = none → lock' = some i → MutexStep i holds holds' lock lock'
  | release : holds i → ¬ holds' i → MutexStep i holds holds' lock lock'
  | keep : lock' = lock → (holds' i → holds i) → MutexStep i holds holds' lock lock'

/-- A step of thread `i` keeps mutual exclusion if no other thread enters the section in it. -/
theorem Excl.step (h : Excl holds lock) {i : ι} (hs : MutexStep i holds holds' lock lock')
    (ho : ∀ j, j ≠ i → holds' j → holds j) : Excl holds' lock' := by
  intro j hj
  cases hs with
  | acquire hn hl =>
    by_cases hji : j = i
    · rw [hji, hl]
    · exact absurd (hn ▸ h) fun h' => h'.not_of_none j (ho j hji hj)
  | release hi hni =>
    by_cases hji : j = i
    · exact absurd (hji ▸ hj) hni
    · exact absurd (h.unique (ho j hji hj) hi) hji
  | keep hl hi =>
    rw [hl]
    by_cases hji : j = i
    · exact h j (hji ▸ hi (hji ▸ hj))
    · exact h j (ho j hji hj)

/-- Whoever owns the mutex is inside the critical section. -/
def Inside (holds : ι → Prop) (lock : Option ι) : Prop := ∀ i, lock = some i → holds i

/-- What a step of thread `i`, which is inside with `c` before and with `c'` after it, may do to the
mutex: whoever owns it afterwards is `i`, inside, or owned it before, and `i` does not leave. -/
def OwnStep (i : ι) (c c' : Prop) (lock lock' : Option ι) : Prop :=
  ∀ j, lock' = some j → (j = i ∧ c') ∨ (lock = some j ∧ (c → c'))

theorem OwnStep.taken {i : ι} {c c' : Prop} (hl : lock' = some i) (hc : c') :
    OwnStep i c c' lock lock' :=
  fun _ hj => .inl ⟨(Option.some.inj (hl.symm.trans hj)).symm, hc⟩

theorem OwnStep.freed {i : ι} {c c' : Prop} (hl : lock' = none) : OwnStep i c c' lock lock' :=
  fun _ hj => nomatch hl.symm.trans hj

theorem OwnStep.same {i : ι} {c c' : Prop} (hl : lock' = lock) (hc : c → c') :
    OwnStep i c c' lock lock' :=
  fun _ hj => .inr ⟨hl ▸ hj, hc⟩

theorem Inside.step (h : Inside holds lock) {i : ι}
    (hs : OwnStep i (holds i) (holds' i) lock lock') (ho : ∀ j, j ≠ i → holds j → holds' j) :
    Inside holds' lock' := by
  intro j hj
  rcases hs j hj with ⟨rfl, hc⟩ | ⟨hl, hc⟩
  · exact hc
  · by_cases hji : j = i
    · subst hji
      exact hc (h j hl)
    · exact ho j hji (h j hl)

end

end Threads
