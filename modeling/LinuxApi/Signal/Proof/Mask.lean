import LinuxApi.Signal.Mask

/-!
# What the mask protects

Only one call of `catch` runs at a time, and `SIGQUIT` does not kill the process in it
(`catch_whole`). The lines that `catch` has printed follow from where the call is (`Printed`).
-/

set_option autoImplicit false

namespace MaskSignal

open Signals

theorem whole_succ (k : Nat) : whole (k + 1) = whole k ++ [.beginCatch] ++ [.endCatch] := by
  simp [whole, List.replicate_succ']

/-- What `catch` has printed, with `k` calls over, by where the call that runs is. -/
def Printed (out : List Line) (k : Nat) : List (Frame Sig CatchPc) → Prop
  | [] => catchLines out = whole k
  | f :: _ =>
    match f.pc with
    | .enter | .ret => catchLines out = whole k
    | .sleep | .finish => catchLines out = whole k ++ [.beginCatch]

/-- The signal that a call of `catch` is still to print for. -/
def owed : List (Frame Sig CatchPc) → Nat
  | [] => 0
  | f :: _ => if f.pc = .ret then 0 else 1

structure Inv (s : State) : Prop where
  action : s.proc.action = action
  ok : s.proc.Ok
  printed : ∃ k, Printed s.out k s.proc.frames ∧
    k + owed s.proc.frames + (if Sig.tstp ∈ s.proc.pending then 1 else 0) ≤ s.sent
  quit : s.proc.killed = some .quit → s.proc.frames = []

theorem inv_init : Inv init where
  action := rfl
  ok := ⟨.nil _, fun f hf => by cases hf⟩
  printed := ⟨0, rfl, Nat.le_refl _⟩
  quit h := by cases h

section
variable {s s' : State}

/-- Every handler that runs is `catch`. -/
theorem Inv.sig (h : Inv s) {f : Frame Sig CatchPc} (hf : f ∈ s.proc.frames) :
    f.sig = .tstp ∧ Sig.quit ∈ f.mask := by
  have hi := h.ok.installed f hf
  rw [h.action] at hi
  cases hsig : f.sig with
  | tstp =>
    rw [hsig] at hi
    injection hi with hm
    exact ⟨rfl, by rw [← hm]; exact Finset.mem_singleton_self _⟩
  | quit => rw [hsig] at hi; cases hi
  | int => rw [hsig] at hi; cases hi

/-- At most one call of `catch` runs. -/
theorem Inv.length_le (h : Inv s) : s.proc.frames.length ≤ 1 :=
  h.ok.nested.length_le (t := {Sig.tstp}) fun _ hf =>
    Finset.mem_singleton.2 (h.sig hf).1

/-- While `catch` runs, its signal and `SIGQUIT` are blocked. -/
theorem Inv.blocked (h : Inv s) (hne : s.proc.frames ≠ []) :
    Sig.tstp ∈ s.proc.blocked ∧ Sig.quit ∈ s.proc.blocked := by
  obtain ⟨f, frames, hf⟩ := List.exists_cons_of_ne_nil hne
  have hmem : f ∈ s.proc.frames := hf ▸ List.mem_cons_self
  obtain ⟨hs, hq⟩ := h.sig hmem
  exact ⟨hs ▸ h.ok.nested.sig_mem hmem,
    h.ok.nested.subset hmem (Finset.mem_insert_of_mem hq)⟩

theorem Inv.raise (h : Inv s) (n : Sig) : Inv
    { s with proc := s.proc.raise n, sent := s.sent + if n = .tstp then 1 else 0 } := by
  obtain ⟨ha, hb, hf, hk⟩ := s.proc.raise_keeps n
  refine ⟨by rw [ha, h.action], h.ok.raise n, ?_, by rw [hf, hk]; exact h.quit⟩
  obtain ⟨k, hp, hc⟩ := h.printed
  refine ⟨k, by rw [hf]; exact hp, ?_⟩
  rw [hf]
  have hpend : (s.proc.raise n).pending = insert n s.proc.pending := by
    cases n <;> simp [Proc.raise, h.action, MaskSignal.action]
  rw [hpend]
  cases n with
  | tstp =>
    simp only [Finset.mem_insert_self, if_true]
    split at hc <;> omega
  | quit => simpa using hc
  | int => simpa using hc

theorem Inv.deliver (h : Inv s) {n : Sig} {proc : Proc Sig CatchPc}
    (hd : s.proc.deliver .enter n = some proc) : Inv { s with proc } := by
  have hok := h.ok.deliver hd
  obtain ⟨⟨hp, hb, hk⟩, hd⟩ := Proc.deliver_cases hd
  obtain ⟨k, hpr, hc⟩ := h.printed
  cases hd with
  | ignored ha =>
    rw [h.action] at ha
    cases n <;> cases ha
  | killed ha =>
    have hn : n ≠ .tstp := by
      rintro rfl
      rw [h.action] at ha
      cases ha
    refine ⟨h.action, hok, ⟨k, hpr, ?_⟩, fun hq => ?_⟩
    · simpa [Finset.mem_erase, hn.symm] using hc
    · obtain rfl := Option.some.inj hq
      by_contra hne
      exact hb (h.blocked hne).2
  | handled ha =>
    have hn : n = .tstp := by
      rw [h.action] at ha
      cases n with
      | tstp => rfl
      | quit => cases ha
      | int => cases ha
    subst hn
    have hnil : s.proc.frames = [] := by
      by_contra hne
      exact hb (h.blocked hne).1
    refine ⟨h.action, hok, ⟨k, ?_, ?_⟩, fun hq => ?_⟩
    · rw [hnil] at hpr
      exact hpr
    · rw [hnil] at hc
      simp only [hp, if_true, owed] at hc
      simp [owed]
      omega
    · rw [hk] at hq
      cases hq

theorem catchLines_append (out : List Line) (l : Line) :
    catchLines (out ++ [l]) = catchLines out ++ if l = .runing then [] else [l] := by
  cases l <;> simp [catchLines]

theorem Inv.main (h : Inv s) (hf : s.proc.frames = []) : Inv (stepMain s) := by
  obtain ⟨k, hpr, hc⟩ := h.printed
  unfold stepMain
  split
  · refine ⟨h.action, h.ok, ⟨k, ?_, hc⟩, h.quit⟩
    rw [hf] at hpr ⊢
    show catchLines (s.out ++ [.runing]) = whole k
    rw [catchLines_append, if_pos rfl, List.append_nil]
    exact hpr
  · exact ⟨h.action, h.ok, ⟨k, hpr, hc⟩, h.quit⟩

theorem Inv.catch (h : Inv s) {f : Frame Sig CatchPc} {frames : List (Frame Sig CatchPc)}
    (hf : s.proc.frames = f :: frames) (hk : s.proc.killed = none) : Inv (stepCatch s f.pc) := by
  have hlen := h.length_le
  rw [hf, List.length_cons] at hlen
  obtain rfl : frames = [] := List.length_eq_zero_iff.1 (by omega)
  obtain ⟨k, hpr, hc⟩ := h.printed
  rw [hf] at hpr hc
  have hgoto : ∀ pc, s.proc.goto pc = { s.proc with frames := [{ f with pc }] } := by
    intro pc
    rw [Proc.goto, hf]
  have hret : s.proc.ret = { s.proc with blocked := f.saved, frames := [] } := by
    rw [Proc.ret, hf]
  have hok := h.ok
  cases hpc : f.pc with
  | enter =>
    simp only [Printed, owed, hpc] at hpr hc
    refine ⟨?_, hok.goto _, ⟨k, ?_, ?_⟩, fun hq => ?_⟩
    · simp only [stepCatch, hgoto]
      exact h.action
    · simp only [stepCatch, hgoto, Printed, catchLines_append, hpr]
      rfl
    · simpa [stepCatch, hgoto, owed] using hc
    · simp only [stepCatch, hgoto, hk] at hq
      cases hq
  | sleep =>
    simp only [Printed, owed, hpc] at hpr hc
    refine ⟨?_, hok.goto _, ⟨k, ?_, ?_⟩, fun hq => ?_⟩
    · simp only [stepCatch, hgoto]
      exact h.action
    · simpa only [stepCatch, hgoto, Printed] using hpr
    · simpa [stepCatch, hgoto, owed] using hc
    · simp only [stepCatch, hgoto, hk] at hq
      cases hq
  | finish =>
    simp only [Printed, owed, hpc] at hpr hc
    refine ⟨?_, hok.goto _, ⟨k + 1, ?_, ?_⟩, fun hq => ?_⟩
    · simp only [stepCatch, hgoto]
      exact h.action
    · simp only [stepCatch, hgoto, Printed, catchLines_append, hpr, whole_succ]
      rfl
    · simp [stepCatch, hgoto, owed] at hc ⊢
      omega
    · simp only [stepCatch, hgoto, hk] at hq
      cases hq
  | ret =>
    simp only [Printed, owed, hpc] at hpr hc
    refine ⟨?_, hok.ret, ⟨k, ?_, ?_⟩, fun hq => ?_⟩
    · simp only [stepCatch, hret]
      exact h.action
    · simpa only [stepCatch, hret, Printed] using hpr
    · simpa [stepCatch, hret, owed] using hc
    · simp only [stepCatch, hret, hk] at hq
      cases hq

theorem Inv.step (h : Inv s) {a : Act} (hst : step s a = some s') : Inv s' := by
  cases a with
  | raise n =>
    cases hst
    exact h.raise n
  | deliver n =>
    obtain ⟨proc, hd, rfl⟩ := Option.map_eq_some_iff.1 hst
    exact h.deliver hd
  | run =>
    simp only [MaskSignal.step] at hst
    split at hst
    · rename_i hk
      split at hst
      · rename_i hf
        cases hst
        exact h.main hf
      · rename_i f frames hf
        cases hst
        exact h.catch hf hk
    · cases hst

end

/-- **`catch` is not cut off by `SIGQUIT`.** In every run, whatever signals are sent and whenever
they are delivered: at most one call of `catch` runs at a time, what the calls have printed is whole
pairs of lines up to the one that runs, no more of them than `SIGTSTP`s were sent, and if the
process is killed by `SIGQUIT`, all calls have printed both lines. -/
theorem catch_whole {s : State} (h : Lts.Run step Lts.Free init s) :
    s.proc.frames.length ≤ 1 ∧
    (∃ k ≤ s.sent, catchLines s.out = whole k ∨
      catchLines s.out = whole k ++ [.beginCatch] ∧ k < s.sent ∧ s.proc.frames ≠ []) ∧
    (s.proc.killed = some .quit → ∃ k ≤ s.sent, catchLines s.out = whole k) := by
  have hi : Inv s := h.inv inv_init fun _ _ _ hi _ hst => hi.step hst
  obtain ⟨k, hpr, hc⟩ := hi.printed
  refine ⟨hi.length_le, ⟨k, by omega, ?_⟩, fun hq => ⟨k, by omega, ?_⟩⟩
  · cases hf : s.proc.frames with
    | nil =>
      rw [hf] at hpr
      exact .inl hpr
    | cons f frames =>
      rw [hf] at hpr hc
      cases hpc : f.pc with
      | enter =>
        simp only [Printed, hpc] at hpr
        exact .inl hpr
      | sleep =>
        simp only [Printed, owed, hpc] at hpr hc
        exact .inr ⟨hpr, by simp at hc; omega, List.cons_ne_nil _ _⟩
      | finish =>
        simp only [Printed, owed, hpc] at hpr hc
        exact .inr ⟨hpr, by simp at hc; omega, List.cons_ne_nil _ _⟩
      | ret =>
        simp only [Printed, hpc] at hpr
        exact .inl hpr
  · rw [hi.quit hq] at hpr
    exact hpr

/-- `SIGQUIT` arrives in the middle of `catch`. -/
theorem catch_whole_quit : ∃ s : State, (s.proc.killed = some .quit ∧
    catchLines s.out = [.beginCatch, .endCatch]) ∧ ∃ k ≤ s.sent, catchLines s.out = whole k := by
  obtain ⟨s, hr, hs⟩ := Lts.Run.exists_of_exec step
    [.run, .raise .tstp, .deliver .tstp, .run, .raise .quit, .run, .run, .run, .deliver .quit] init
    (fun s => s.proc.killed = some .quit ∧ catchLines s.out = [.beginCatch, .endCatch])
    (by decide +kernel)
  exact ⟨s, hs, (catch_whole hr).2.2 hs.1⟩

end MaskSignal
