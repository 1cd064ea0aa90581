import Mathlib

/-!
# Signals of a process

What the kernel keeps for a process: what is done on each signal, the signals that are blocked and the
ones that are pending (one bit a signal), and the handlers that are running, the innermost first. A
handler runs with its own signal and the signals of its mask blocked, and with the old mask again
when it returns.

`Nested` says that the masks of the running handlers lie in each other. It is kept by every
operation, so that no handler is interrupted by its own signal or by one of its mask
(`Nested.subset`), and handlers nest at most as deep as there are signals that have one
(`Nested.length_le`).
-/

set_option autoImplicit false

namespace Signals

section
variable {σ α : Type}

/-- What is done when a signal is delivered. -/
inductive Action (σ : Type)
  | ignore
  | terminate
  | handle (mask : Finset σ)

/-- A handler that is running: its signal and its mask, the signals that are blocked when it has
returned, and where it is. -/
structure Frame (σ α : Type) where
  sig : σ
  mask : Finset σ
  saved : Finset σ
  pc : α
deriving DecidableEq

structure Proc (σ α : Type) where
  action : σ → Action σ
  blocked : Finset σ
  pending : Finset σ
  frames : List (Frame σ α)
  killed : Option σ

/-- The masks lie in each other, up to the signals that are blocked now. -/
inductive Nested [DecidableEq σ] : Finset σ → List (Frame σ α) → Prop
  | nil (blocked : Finset σ) : Nested blocked []
  | cons {blocked : Finset σ} {f : Frame σ α} {frames : List (Frame σ α)} :
      blocked = f.saved ∪ insert f.sig f.mask → f.sig ∉ f.saved → Nested f.saved frames →
      Nested blocked (f :: frames)

end

/-! ## Operations -/

namespace Proc

variable {σ α : Type} [DecidableEq σ]

/-- A signal is sent. One that is blocked is kept even if it would be ignored. -/
def raise (p : Proc σ α) (n : σ) : Proc σ α :=
  match p.action n with
  | .ignore => if n ∈ p.blocked then { p with pending := insert n p.pending } else p
  | .terminate | .handle _ => { p with pending := insert n p.pending }

/-- A pending signal is delivered; a handler starts at `start`. -/
def deliver (start : α) (p : Proc σ α) (n : σ) : Option (Proc σ α) :=
  if n ∈ p.pending ∧ n ∉ p.blocked ∧ p.killed = none then
    match p.action n with
    | .ignore => some { p with pending := p.pending.erase n }
    | .terminate => some { p with pending := p.pending.erase n, killed := some n }
    | .handle mask =>
      some { p with
             pending := p.pending.erase n
             frames := ⟨n, mask, p.blocked, start⟩ :: p.frames
             blocked := p.blocked ∪ insert n mask }
  else none

/-- The innermost handler goes on to `pc`. -/
def goto (p : Proc σ α) (pc : α) : Proc σ α :=
  match p.frames with
  | [] => p
  | f :: frames => { p with frames := { f with pc } :: frames }

/-- The innermost handler returns. -/
def ret (p : Proc σ α) : Proc σ α :=
  match p.frames with
  | [] => p
  | f :: frames => { p with blocked := f.saved, frames }

/-- `sigaction` -/
def setAction (p : Proc σ α) (n : σ) (a : Action σ) : Proc σ α :=
  { p with action := Function.update p.action n a }

/-- `sigprocmask`, of a process that runs no handler. -/
def setMask (p : Proc σ α) (blocked : Finset σ) : Proc σ α := { p with blocked }

end Proc

/-! ## Handlers that are running -/

section
variable {σ α : Type} [DecidableEq σ]

namespace Nested

variable {blocked : Finset σ} {frames : List (Frame σ α)}

/-- What a running handler blocks is blocked. -/
theorem subset (h : Nested blocked frames) {f : Frame σ α} (hf : f ∈ frames) :
    insert f.sig f.mask ⊆ blocked := by
  induction h with
  | nil => cases hf
  | cons hb _ _ ih =>
    rw [hb]
    rcases List.mem_cons.1 hf with rfl | hf
    · exact Finset.subset_union_right
    · exact (ih hf).trans Finset.subset_union_left

theorem sig_mem (h : Nested blocked frames) {f : Frame σ α} (hf : f ∈ frames) :
    f.sig ∈ blocked := h.subset hf (Finset.mem_insert_self _ _)

/-- No two running handlers are for the same signal. -/
theorem nodup (h : Nested blocked frames) : (frames.map Frame.sig).Nodup := by
  induction h with
  | nil => exact List.nodup_nil
  | cons _ hf hn ih =>
    refine List.nodup_cons.2 ⟨fun hm => ?_, ih⟩
    obtain ⟨g, hg, he⟩ := List.mem_map.1 hm
    exact hf (he ▸ hn.sig_mem hg)

/-- Handlers nest at most as deep as there are signals that have one. -/
theorem length_le (h : Nested blocked frames) {t : Finset σ}
    (hs : ∀ f ∈ frames, f.sig ∈ t) : frames.length ≤ t.card := by
  have hsub : (frames.map Frame.sig).toFinset ⊆ t := by
    intro n hn
    obtain ⟨f, hf, rfl⟩ := List.mem_map.1 (List.mem_toFinset.1 hn)
    exact hs f hf
  calc frames.length = (frames.map Frame.sig).length := (List.length_map _).symm
    _ = (frames.map Frame.sig).toFinset.card := (List.toFinset_card_of_nodup h.nodup).symm
    _ ≤ t.card := Finset.card_le_card hsub

end Nested

namespace Proc

variable {p p' : Proc σ α} {n : σ}

/-- The masks of the running handlers lie in each other, and each handler is one that is installed. -/
structure Ok (p : Proc σ α) : Prop where
  nested : Nested p.blocked p.frames
  installed : ∀ f ∈ p.frames, p.action f.sig = .handle f.mask

/-! ### What the operations do -/

theorem raise_keeps (p : Proc σ α) (n : σ) : (p.raise n).action = p.action ∧
    (p.raise n).blocked = p.blocked ∧ (p.raise n).frames = p.frames ∧
    (p.raise n).killed = p.killed := by
  unfold raise
  split
  · split <;> exact ⟨rfl, rfl, rfl, rfl⟩
  · exact ⟨rfl, rfl, rfl, rfl⟩
  · exact ⟨rfl, rfl, rfl, rfl⟩

theorem Ok.raise (h : p.Ok) (n : σ) : (p.raise n).Ok := by
  obtain ⟨ha, hb, hf, -⟩ := p.raise_keeps n
  exact ⟨by rw [hb, hf]; exact h.nested, by rw [ha, hf]; exact h.installed⟩

/-- What a delivery is, by what is done on the signal. -/
inductive Delivered (start : α) (p : Proc σ α) (n : σ) : Proc σ α → Prop
  | ignored : p.action n = .ignore →
      Delivered start p n { p with pending := p.pending.erase n }
  | killed : p.action n = .terminate →
      Delivered start p n { p with pending := p.pending.erase n, killed := some n }
  | handled {mask : Finset σ} : p.action n = .handle mask →
      Delivered start p n
        { p with
          pending := p.pending.erase n
          frames := ⟨n, mask, p.blocked, start⟩ :: p.frames
          blocked := p.blocked ∪ insert n mask }

theorem deliver_cases {start : α} (h : p.deliver start n = some p') :
    (n ∈ p.pending ∧ n ∉ p.blocked ∧ p.killed = none) ∧ Delivered start p n p' := by
  unfold deliver at h
  split at h
  · rename_i hg
    refine ⟨hg, ?_⟩
    split at h
    · rename_i ha
      cases h
      exact .ignored ha
    · rename_i ha
      cases h
      exact .killed ha
    · rename_i mask ha
      cases h
      exact .handled ha
  · cases h

theorem Ok.deliver (h : p.Ok) {start : α} (hd : p.deliver start n = some p') : p'.Ok := by
  obtain ⟨⟨-, hb, -⟩, hd⟩ := deliver_cases hd
  cases hd with
  | ignored => exact ⟨h.nested, h.installed⟩
  | killed => exact ⟨h.nested, h.installed⟩
  | handled ha =>
    refine ⟨.cons rfl hb h.nested, fun f hf => ?_⟩
    rcases List.mem_cons.1 hf with rfl | hf
    · exact ha
    · exact h.installed f hf

theorem Ok.goto (h : p.Ok) (pc : α) : (p.goto pc).Ok := by
  unfold Proc.goto
  split
  · exact h
  · rename_i f frames hf
    obtain ⟨hn, hi⟩ := h
    rw [hf] at hn hi
    refine ⟨?_, fun g hg => ?_⟩
    · cases hn with
      | cons hb hs hn => exact .cons (f := { f with pc }) hb hs hn
    · rcases List.mem_cons.1 hg with rfl | hg
      · exact hi f List.mem_cons_self
      · exact hi g (List.mem_cons_of_mem _ hg)

theorem Ok.ret (h : p.Ok) : p.ret.Ok := by
  unfold Proc.ret
  split
  · exact h
  · rename_i f frames hf
    obtain ⟨hn, hi⟩ := h
    rw [hf] at hn hi
    refine ⟨?_, fun g hg => hi g (List.mem_cons_of_mem _ hg)⟩
    cases hn with
    | cons _ _ hn => exact hn

end Proc

end

end Signals
