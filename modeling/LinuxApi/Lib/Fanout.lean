import Mathlib

/-!
# Loops that send a message to all others

Senders who each go through the same slots and give their message to whom they find there, except to
themselves. The loops of several senders run at the same time, a slot a step. Each receiver is given
the messages of a sender in their order and once each, whatever the others do: all of them, except
the one that is being sent while the loop has not come to its slot (`Inv`).
-/

set_option autoImplicit false

/-- `loop` is how far a sender is with which message, `started` are all its messages, `given` are the
messages that were given to a receiver, with their senders. -/
structure Fanout (ι μ : Type) where
  slots : List ι
  loop : ι → Option (Nat × μ)
  started : ι → List μ
  given : ι → List (ι × μ)

namespace Fanout

variable {ι μ : Type}

def init (slots : List ι) : Fanout ι μ := ⟨slots, fun _ => none, fun _ => [], fun _ => []⟩

section
variable [DecidableEq ι]

/-- `a` begins with a message. -/
def start (g : Fanout ι μ) (a : ι) (m : μ) : Fanout ι μ :=
  { g with
    loop := Function.update g.loop a (some (0, m))
    started := Function.update g.started a (g.started a ++ [m]) }

def give (g : Fanout ι μ) (a b : ι) (m : μ) : ι → List (ι × μ) :=
  if b ≠ a then Function.update g.given b (g.given b ++ [(a, m)]) else g.given

/-- `a` is at slot `i`. -/
def advance (g : Fanout ι μ) (a : ι) (i : Nat) (m : μ) : Fanout ι μ :=
  match g.slots[i]? with
  | some b =>
    { g with
      loop := Function.update g.loop a (some (i + 1, m))
      given := g.give a b m }
  | none => { g with loop := Function.update g.loop a none }

/-- What `b` was given by `a`. -/
def got (g : Fanout ι μ) (a b : ι) : List μ := ((g.given b).filter (·.1 = a)).map (·.2)

/-- What `a` is sending and `b` has not been given. -/
def pending (g : Fanout ι μ) (a b : ι) : List μ :=
  match g.loop a with
  | none => []
  | some (i, m) => if b ∈ g.slots.take i then [] else [m]

structure Inv (g : Fanout ι μ) : Prop where
  nodup : g.slots.Nodup
  others : ∀ b, ∀ x ∈ g.given b, x.1 ≠ b
  all : ∀ a, ∀ b ∈ g.slots, b ≠ a → g.got a b ++ g.pending a b = g.started a

variable {g : Fanout ι μ} {a b : ι} {i : Nat} {m : μ}

theorem inv_init {slots : List ι} (h : slots.Nodup) : (init slots : Fanout ι μ).Inv := by
  refine ⟨h, fun _ _ hx => ?_, fun _ _ _ _ => rfl⟩
  cases hx

/-! ## What is pending -/

theorem pending_none (hl : g.loop a = none) : g.pending a b = [] := by
  rw [pending, hl]

theorem pending_some (hl : g.loop a = some (i, m)) :
    g.pending a b = if b ∈ g.slots.take i then [] else [m] := by
  rw [pending, hl]

theorem pending_congr {g' : Fanout ι μ} (hs : g'.slots = g.slots) (hl : g'.loop a = g.loop a) :
    g'.pending a b = g.pending a b := by
  rw [pending, pending, hs, hl]

omit [DecidableEq ι] in
/-- The slot that is looked at has not been looked at before. -/
theorem mem_take_succ (hnd : g.slots.Nodup) {x : ι} (hx : g.slots[i]? = some x) :
    x ∉ g.slots.take i ∧ ∀ b, b ∈ g.slots.take (i + 1) ↔ b ∈ g.slots.take i ∨ b = x := by
  have htake : g.slots.take (i + 1) = g.slots.take i ++ [x] := by
    rw [List.take_add_one, hx]
    rfl
  have hsub := (List.take_sublist (i + 1) g.slots).nodup hnd
  rw [htake, List.nodup_append] at hsub
  refine ⟨fun hm => hsub.2.2 x hm x List.mem_cons_self rfl, fun b => ?_⟩
  rw [htake, List.mem_append, List.mem_singleton]

/-! ## What a turn of the loop does -/

section
variable {a' : ι}

theorem advance_some (hb : g.slots[i]? = some b) : g.advance a i m =
    { g with loop := Function.update g.loop a (some (i + 1, m)), given := g.give a b m } := by
  rw [advance, hb]

theorem advance_none (hi : g.slots[i]? = none) :
    g.advance a i m = { g with loop := Function.update g.loop a none } := by
  rw [advance, hi]

@[simp] theorem slots_advance : (g.advance a i m).slots = g.slots := by
  unfold advance
  split
  all_goals rfl

@[simp] theorem started_advance : (g.advance a i m).started = g.started := by
  unfold advance
  split
  all_goals rfl

theorem loop_advance_of_ne (h : a' ≠ a) : (g.advance a i m).loop a' = g.loop a' := by
  unfold advance
  split
  all_goals exact Function.update_of_ne h ..

theorem loop_advance_self :
    (g.advance a i m).loop a = if i < g.slots.length then some (i + 1, m) else none := by
  cases hb : g.slots[i]? with
  | some b =>
    rw [advance_some hb, if_pos (List.getElem?_eq_some_iff.1 hb).1]
    exact Function.update_self ..
  | none =>
    rw [advance_none hb, if_neg (Nat.not_lt.2 (List.getElem?_eq_none_iff.1 hb))]
    exact Function.update_self ..

/-- The receiver in the slot is given the message, and nobody else. -/
theorem given_advance : (g.advance a i m).given b =
    g.given b ++ if g.slots[i]? = some b ∧ b ≠ a then [(a, m)] else [] := by
  cases hx : g.slots[i]? with
  | none => simp [advance_none hx]
  | some x =>
    rw [advance_some hx]
    show g.give a x m b = _
    unfold give
    by_cases hb : b = x
    · subst hb
      by_cases ha : b = a
      · simp [ha]
      · simp [ha]
    · have hb' : ¬ x = b := fun he => hb he.symm
      by_cases ha : x = a
      · simp [ha, ha ▸ hb']
      · simp [ha, hb', Function.update_of_ne hb]

theorem got_advance : (g.advance a i m).got a' b =
    g.got a' b ++ if a' = a ∧ g.slots[i]? = some b ∧ b ≠ a then [m] else [] := by
  rw [got, given_advance, List.filter_append, List.map_append, got]
  by_cases hb : g.slots[i]? = some b ∧ b ≠ a
  · by_cases ha : a' = a
    · simp [ha, hb]
    · simp [ha, hb, Ne.symm ha]
  · simp [hb]

end

/-! ## The invariant -/

theorem Inv.start (h : g.Inv) (hl : g.loop a = none) : (g.start a m).Inv := by
  refine ⟨h.nodup, h.others, fun a' b hb hne => ?_⟩
  have hall := h.all a' b hb hne
  show g.got a' b ++ _ = _
  by_cases ha : a' = a
  · subst ha
    have hl' : (g.start a' m).loop a' = some (0, m) := Function.update_self ..
    have hs' : (g.start a' m).started a' = g.started a' ++ [m] := Function.update_self ..
    rw [pending_none hl, List.append_nil] at hall
    rw [pending_some hl', hs', hall]
    simp
  · have hs' : (g.start a m).started a' = g.started a' := Function.update_of_ne ha ..
    have hp : (g.start a m).pending a' b = g.pending a' b :=
      pending_congr rfl (Function.update_of_ne ha ..)
    rw [hp, hs', hall]

theorem Inv.advance (h : g.Inv) (hl : g.loop a = some (i, m)) : (g.advance a i m).Inv := by
  refine ⟨by simpa using h.nodup, fun b y hy => ?_, fun a' b hb hne => ?_⟩
  · rw [given_advance, List.mem_append] at hy
    rcases hy with hy | hy
    · exact h.others b y hy
    · split at hy
      · rename_i hba
        rw [List.mem_singleton.1 hy]
        exact hba.2.symm
      · cases hy
  · rw [slots_advance] at hb
    have hall := h.all a' b hb hne
    rw [got_advance, started_advance]
    by_cases ha : a' = a
    · subst ha
      rw [pending_some hl] at hall
      have hloop := loop_advance_self (g := g) (a := a') (i := i) (m := m)
      cases hx : g.slots[i]? with
      | some x =>
        obtain ⟨hnew, hsucc⟩ := mem_take_succ h.nodup hx
        rw [if_pos (List.getElem?_eq_some_iff.1 hx).1] at hloop
        rw [pending_some hloop, slots_advance]
        simp only [hsucc]
        by_cases hbx : b = x
        · subst hbx
          simpa [hnew, hne] using hall
        · have hxb : ¬ x = b := fun he => hbx he.symm
          simpa [hbx, hxb] using hall
      | none =>
        -- the loop has come to all slots
        have hle := List.getElem?_eq_none_iff.1 hx
        rw [if_neg (Nat.not_lt.2 hle)] at hloop
        rw [List.take_of_length_le hle, if_pos hb] at hall
        simpa [pending_none hloop] using hall
    · rw [pending_congr slots_advance (loop_advance_of_ne ha)]
      simpa [ha] using hall

/-! ## What receivers are given -/

/-- In the order of the sender, and once each. -/
theorem Inv.got_begins (h : g.Inv) (hb : b ∈ g.slots) (hne : b ≠ a) :
    g.got a b <+: g.started a :=
  ⟨g.pending a b, h.all a b hb hne⟩

/-- Between two messages, everything. -/
theorem Inv.got_all (h : g.Inv) (hb : b ∈ g.slots) (hne : b ≠ a) (hl : g.loop a = none) :
    g.got a b = g.started a := by
  have hall := h.all a b hb hne
  rwa [pending, hl, List.append_nil] at hall

theorem Inv.got_self (h : g.Inv) : g.got a a = [] := by
  rw [got, List.map_eq_nil_iff, List.filter_eq_nil_iff]
  exact fun x hx => by simpa using h.others a x hx

end

end Fanout
