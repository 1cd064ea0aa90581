import LinuxApi.Pool.Proof.Slots
import LinuxApi.Pool.Schedule

/-!
# What a pass of the growth loop does to the slots

The loop goes over the slots once and puts a new worker into each that is empty or holds a
terminated thread, until ten are added or `live_thr_num` is at its maximum. If `live_thr_num` is the
number of slots that hold a running worker, a slot that the loop has passed holds one
(`GrowInv.before`); so a loop that gets to the end of the array has filled it, and in all three
exits it has added as many threads as there was room for (`grow_adds`).
-/

set_option autoImplicit false

namespace Pool

open Threads

/-- The thread id is that of a thread that has not terminated. -/
def running (ws : List Worker) (tid : Nat) : Bool := tid != 0 && !joinable ws tid

/-- The number of slots that hold a running worker. -/
def runningSlots (s : State) : Nat := s.pool.threads.countP (running s.workers)

/-- The growth loop runs, and `pthread_kill` tells the truth. -/
def Growing (s : State) (a : Act) : Prop := (∃ esrch, a = .grow esrch) ∧ EsrchExact s a

/-! ## New threads -/

theorem joinable_concat (ws : List Worker) (tid : Nat) :
    joinable (ws ++ [newWorker]) tid = joinable ws tid := by
  rw [Bool.eq_iff_iff, joinable_iff, joinable_iff]
  constructor
  · rintro ⟨w, t, rfl, ht, hd⟩
    obtain ht | ⟨-, rfl⟩ := getElem?_concat_cases ht
    · exact ⟨w, t, rfl, ht, hd⟩
    · cases hd
  · rintro ⟨w, t, rfl, ht, hd⟩
    exact ⟨w, t, rfl, getElem?_concat_of_some _ ht, hd⟩

theorem running_tidOf_length (ws : List Worker) : running ws (tidOf ws.length) = true := by
  simp [running, tidOf, joinable]

/-! ## The invariant -/

/-- The loop that began in `s₀` is in `s` and has written into `slots`. -/
structure GrowInv (s₀ s : State) (slots : List Nat) : Prop where
  max : s.pool.maxThrNum = s₀.pool.maxThrNum
  length : s.pool.threads.length = s₀.pool.threads.length
  workers : s₀.workers.length ≤ s.workers.length
  joined : joinable s.workers = joinable s₀.workers
  nodup : slots.Nodup
  add : s.manager.add = slots.length
  add_le : slots.length ≤ defaultThreadVary
  live : s.pool.liveThrNum = s₀.pool.liveThrNum + slots.length
  count : s.pool.liveThrNum = runningSlots s
  free : ∀ k ∈ slots, k < s.manager.i ∧
    ∃ tid, s₀.pool.threads[k]? = some tid ∧ (tid = 0 ∨ joinable s₀.workers tid = true)
  filled : ∀ k ∈ slots, ∃ w, s₀.workers.length ≤ w ∧ w < s.workers.length ∧
    s.pool.threads[k]? = some (tidOf w)
  kept : ∀ k, k ∉ slots → s.pool.threads[k]? = s₀.pool.threads[k]?
  before : ∀ k tid, k < s.manager.i → s.pool.threads[k]? = some tid →
    running s.workers tid = true

theorem GrowInv.start {s : State} (hi : s.manager.i = 0) (ha : s.manager.add = 0)
    (hc : s.pool.liveThrNum = runningSlots s) : GrowInv s s [] where
  max := rfl
  length := rfl
  workers := Nat.le_refl _
  joined := rfl
  nodup := List.nodup_nil
  add := ha
  add_le := Nat.zero_le _
  live := (Int.add_zero _).symm
  count := hc
  free k hk := nomatch hk
  filled k hk := nomatch hk
  kept k _ := rfl
  before k tid hk := by omega

section
variable {s₀ s : State} {slots : List Nat} (h : GrowInv s₀ s slots)
include h

/-- The slot holds a running worker. -/
theorem GrowInv.skip {tid : Nat} (ht : s.pool.threads[s.manager.i]? = some tid)
    (hr : running s.workers tid = true) :
    GrowInv s₀ { s with manager := { s.manager with i := s.manager.i + 1 } } slots := by
  refine ⟨h.max, h.length, h.workers, h.joined, h.nodup, h.add, h.add_le, h.live, h.count, ?_,
    h.filled, h.kept, ?_⟩
  · intro k hk
    exact ⟨Nat.lt_succ_of_lt (h.free k hk).1, (h.free k hk).2⟩
  · intro k tid' hk ht'
    rcases Nat.lt_succ_iff_lt_or_eq.1 hk with hlt | rfl
    · exact h.before k tid' hlt ht'
    · obtain rfl := Option.some.inj (ht.symm.trans ht')
      exact hr

/-- The slot does not, and a new worker is put into it. -/
theorem GrowInv.create {tid : Nat} (ht : s.pool.threads[s.manager.i]? = some tid)
    (hr : running s.workers tid = false) (hadd : s.manager.add < defaultThreadVary) :
    GrowInv s₀
      { s with
        pool :=
          { s.pool with
            threads := s.pool.threads.set s.manager.i (tidOf s.workers.length)
            liveThrNum := s.pool.liveThrNum + 1 }
        manager := { s.manager with i := s.manager.i + 1, add := s.manager.add + 1 }
        workers := s.workers ++ [newWorker] } (s.manager.i :: slots) := by
  have hnew : s.manager.i ∉ slots := fun hm => Nat.lt_irrefl _ (h.free _ hm).1
  have hrun : running (s.workers ++ [newWorker]) = running s.workers := by
    funext tid
    rw [running, running, joinable_concat]
  have hne : ∀ {k : Nat}, k ∈ slots → s.manager.i ≠ k := by
    rintro k hk rfl
    exact hnew hk
  refine ⟨h.max, by rw [List.length_set]; exact h.length, ?_, ?_, List.nodup_cons.2 ⟨hnew, h.nodup⟩,
    ?_, ?_, ?_, ?_, ?_, ?_, ?_, ?_⟩
  · rw [List.length_append]
    exact Nat.le_add_right_of_le h.workers
  · funext tid
    rw [joinable_concat, h.joined]
  · rw [h.add, List.length_cons]
  · rw [h.add] at hadd
    exact hadd
  · have hlive := h.live
    show s.pool.liveThrNum + 1 = s₀.pool.liveThrNum + ((slots.length + 1 : Nat) : Int)
    omega
  · show s.pool.liveThrNum + 1 = ((s.pool.threads.set s.manager.i (tidOf s.workers.length)).countP
      (running (s.workers ++ [newWorker])) : Nat)
    rw [hrun]
    exact counter_set ht h.count (by rw [hr, running_tidOf_length]; simp)
  · intro k hk
    rcases List.mem_cons.1 hk with rfl | hk
    · refine ⟨Nat.lt_succ_self _, tid, ?_, ?_⟩
      · rw [← h.kept _ hnew, ht]
      · rw [← h.joined]
        simpa [running, or_iff_not_imp_left] using hr
    · exact ⟨Nat.lt_succ_of_lt (h.free k hk).1, (h.free k hk).2⟩
  · intro k hk
    rcases List.mem_cons.1 hk with rfl | hk
    · exact ⟨s.workers.length, h.workers, by simp, getElem?_set_of_some _ ht⟩
    · obtain ⟨w, h0, hw, hk'⟩ := h.filled k hk
      refine ⟨w, h0, by rw [List.length_append]; exact Nat.lt_add_right _ hw, ?_⟩
      rw [List.getElem?_set_ne (hne hk)]
      exact hk'
  · intro k hk
    rw [List.mem_cons, not_or] at hk
    rw [List.getElem?_set_ne (Ne.symm hk.1)]
    exact h.kept k hk.2
  · intro k tid' hk ht'
    rw [hrun]
    obtain ⟨-, rfl⟩ | ⟨hki, ht'⟩ := getElem?_set_cases ht'
    · exact running_tidOf_length _
    · exact h.before k tid' (Nat.lt_of_le_of_ne (Nat.le_of_lt_succ hk) hki) ht'

/-- At each of the three exits of the loop there is no room left, or ten threads are added. -/
theorem GrowInv.exit (hlen : s₀.pool.threads.length = s₀.pool.maxThrNum)
    (ht : growTest s.pool s.manager = false) :
    (slots.length : Int) =
      min (defaultThreadVary : Int) (s₀.pool.maxThrNum - s₀.pool.liveThrNum) := by
  have hlive := h.live
  have hadd := h.add_le
  have hle : runningSlots s ≤ s.pool.threads.length := List.countP_le_length
  have hcount := h.count
  have hmax := h.max
  rw [h.length] at hle
  simp only [growTest, Bool.and_eq_false_iff, decide_eq_false_iff_not, Int.not_lt, Nat.not_lt]
    at ht
  rw [h.add] at ht
  rcases ht with (hi | ha) | hl
  · -- every slot has been passed
    have hall : runningSlots s = s.pool.threads.length := by
      apply List.countP_eq_length.2
      intro tid hm
      obtain ⟨k, hk⟩ := List.mem_iff_getElem?.1 hm
      have hkl := (List.getElem?_eq_some_iff.1 hk).1
      rw [h.length] at hkl
      exact h.before k tid (by omega) hk
    rw [h.length] at hall
    omega
  · omega
  · omega

end

/-! ## The loop -/

/-- A round of the loop. -/
theorem GrowInv.step {s₀ s s' : State} {slots : List Nat} {a : Act} (h : GrowInv s₀ s slots)
    (hok : Growing s a) (hst : step s a = some s') :
    (∃ slots', GrowInv s₀ s' slots' ∧ s'.manager.pc = .growLoop) ∨
      GrowInv s₀ s' slots ∧ s'.manager.pc = .growUnlock ∧ growTest s'.pool s'.manager = false := by
  obtain ⟨⟨esrch, rfl⟩, hes⟩ := hok
  have hesrch : ∀ {tid : Nat}, s.pool.threads[s.manager.i]? = some tid → tid ≠ 0 →
      esrch = joinable s.workers tid := fun ht h0 => hes _ ht h0
  cases step_move hst with
  | grow hpc hg =>
    cases hg with
    | @create tid htest ht he =>
      have hr : running s.workers tid = false := by
        by_cases h0 : tid = 0
        · simp [running, h0]
        · simp [running, ← hesrch ht h0, he h0]
      have hadd : s.manager.add < defaultThreadVary := by
        simp only [growTest, Bool.and_eq_true, decide_eq_true_eq] at htest
        exact htest.1.2
      exact .inl ⟨_, h.create ht hr hadd, hpc⟩
    | @skip tid htest ht h0 he =>
      have hr : running s.workers tid = true := by
        simp [running, h0, ← hesrch ht h0, he]
      exact .inl ⟨_, h.skip ht hr, hpc⟩
    | done htest =>
      refine .inr ⟨?_, rfl, htest⟩
      exact ⟨h.max, h.length, h.workers, h.joined, h.nodup, h.add, h.add_le, h.live, h.count, h.free,
        h.filled, h.kept, h.before⟩

theorem growInv_of_run {s₀ s : State} (h0 : GrowInv s₀ s₀ []) (hpc : s₀.manager.pc = .growLoop)
    (h : Lts.Run step Growing s₀ s) :
    ∃ slots, GrowInv s₀ s slots ∧ (s.manager.pc = .growLoop ∨
      s.manager.pc = .growUnlock ∧ growTest s.pool s.manager = false) := by
  apply h.inv (P := fun s => ∃ slots, GrowInv s₀ s slots ∧ (s.manager.pc = .growLoop ∨
    s.manager.pc = .growUnlock ∧ growTest s.pool s.manager = false))
  · exact ⟨[], h0, .inl hpc⟩
  · rintro s a s' ⟨slots, hi, -⟩ hok hst
    rcases hi.step hok hst with ⟨slots', hi', hp⟩ | ⟨hi', hp⟩
    · exact ⟨slots', hi', .inl hp⟩
    · exact ⟨slots, hi', .inr hp⟩

/-- The next round of the loop can run. -/
theorem exists_growing {s : State} (hpc : s.manager.pc = .growLoop)
    (hlen : s.pool.threads.length = s.pool.maxThrNum) :
    ∃ esrch s', Growing s (.grow esrch) ∧ step s (.grow esrch) = some s' := by
  have hex : Growing s (.grow ((s.pool.threads[s.manager.i]?).any (joinable s.workers))) := by
    refine ⟨⟨_, rfl⟩, ?_⟩
    intro tid ht _
    rw [Option.mem_def.1 ht, Option.any_some]
  generalize (s.pool.threads[s.manager.i]?).any (joinable s.workers) = esrch at hex
  obtain ⟨x, hx⟩ : ∃ x, growStep (tidOf s.workers.length) esrch s.pool s.manager = some x := by
    unfold growStep
    split
    · rename_i htest
      simp only [growTest, Bool.and_eq_true, decide_eq_true_eq] at htest
      have hlt : s.manager.i < s.pool.threads.length := by omega
      rw [List.getElem?_eq_getElem hlt]
      simp only
      split <;> exact ⟨_, rfl⟩
    · exact ⟨_, rfl⟩
  exact ⟨esrch, _, hex, by rw [step, stepGrow, if_pos hpc, hx]; rfl⟩

/-- A round goes on to the next slot, or ends the loop. -/
theorem StepMove.grow_cases {s s' : State} {esrch : Bool} (h : StepMove s (.grow esrch) s') :
    s'.manager.pc = .growUnlock ∨ s'.manager.pc = .growLoop ∧
      s'.pool.threads.length = s.pool.threads.length ∧ s'.pool.maxThrNum = s.pool.maxThrNum ∧
      s'.manager.i = s.manager.i + 1 ∧ (s.manager.i : Int) < s.pool.maxThrNum := by
  have hlt : growTest s.pool s.manager = true → (s.manager.i : Int) < s.pool.maxThrNum := by
    intro htest
    simp only [growTest, Bool.and_eq_true, decide_eq_true_eq] at htest
    exact htest.1.1
  cases h with
  | grow hpc hg =>
    cases hg with
    | create htest => exact .inr ⟨hpc, List.length_set, rfl, rfl, hlt htest⟩
    | skip htest => exact .inr ⟨hpc, rfl, rfl, rfl, hlt htest⟩
    | done => exact .inl rfl

/-- The loop ends. -/
theorem growing_ends {n : Nat} {s : State} (hpc : s.manager.pc = .growLoop)
    (hlen : s.pool.threads.length = s.pool.maxThrNum)
    (hn : s.pool.maxThrNum - s.manager.i < n) :
    ∃ s', Lts.Run step Growing s s' ∧ s'.manager.pc = .growUnlock := by
  induction n generalizing s with
  | zero =>
    obtain ⟨esrch, s', hok, hst⟩ := exists_growing hpc hlen
    rcases (step_move hst).grow_cases with hend | ⟨-, -, -, -, hlt⟩
    · exact ⟨s', .next .start hok hst, hend⟩
    · omega
  | succ n ih =>
    obtain ⟨esrch, s', hok, hst⟩ := exists_growing hpc hlen
    have hnext : Lts.Run step Growing s s' := .next .start hok hst
    rcases (step_move hst).grow_cases with hend | ⟨hpc', hl, hm, hi, -⟩
    · exact ⟨s', hnext, hend⟩
    · obtain ⟨s'', hrun, hend⟩ := ih hpc' (by rw [hl, hm]; exact hlen) (by rw [hm, hi]; omega)
      exact ⟨s'', hnext.trans hrun, hend⟩

/-- **What the growth loop does.** Let the loop begin in any state in which `live_thr_num` is the
number of slots that hold a running worker. It ends; and at its end it has written into as many
slots as `DEFAULT_THREAD_VARY` and the room up to `max_thr_num` allow, each of which was 0 or held a
terminated thread and now holds a new one, and into no others; `live_thr_num` has grown by that
number and is again the number of slots that hold a running worker. -/
theorem grow_adds (s : State) (hpc : s.manager.pc = .growLoop) (hi : s.manager.i = 0)
    (hadd : s.manager.add = 0) (hlen : s.pool.threads.length = s.pool.maxThrNum)
    (hcount : s.pool.liveThrNum = runningSlots s) :
    (∃ s', Lts.Run step Growing s s' ∧ s'.manager.pc = .growUnlock) ∧
    ∀ s', Lts.Run step Growing s s' → s'.manager.pc = .growUnlock →
      ∃ slots : List Nat, slots.Nodup ∧
        (slots.length : Int) =
          min (defaultThreadVary : Int) (s.pool.maxThrNum - s.pool.liveThrNum) ∧
        s'.pool.liveThrNum = s.pool.liveThrNum + slots.length ∧
        (∀ k ∈ slots, ∃ tid, s.pool.threads[k]? = some tid ∧
          (tid = 0 ∨ joinable s.workers tid = true)) ∧
        (∀ k ∈ slots, ∃ w, s.workers.length ≤ w ∧ w < s'.workers.length ∧
          s'.pool.threads[k]? = some (tidOf w)) ∧
        (∀ k, k ∉ slots → s'.pool.threads[k]? = s.pool.threads[k]?) ∧
        s'.pool.liveThrNum = runningSlots s' := by
  refine ⟨growing_ends (n := (s.pool.maxThrNum - s.manager.i).toNat + 1) hpc hlen (by omega), ?_⟩
  intro s' hrun hend
  obtain ⟨slots, h, hp⟩ := growInv_of_run (.start hi hadd hcount) hpc hrun
  have htest : growTest s'.pool s'.manager = false := by
    rcases hp with hp | ⟨-, htest⟩
    · rw [hend] at hp
      cases hp
    · exact htest
  exact ⟨slots, h.nodup, h.exit hlen htest, h.live, fun k hk => (h.free k hk).2, h.filled, h.kept,
    h.count⟩

/-- A running worker, a terminated one and two empty slots. -/
def fourSlots : State where
  pool :=
    { (threadpoolCreate (demoCfg 1 4 10 0)).pool with
      threads := [2, 1, 0, 0]
      lock := some .manager }
  workers := [⟨.retired, ⟨0, 0⟩⟩, newWorker]
  producers := []
  manager := ⟨.growLoop, 10, 1, 0, 0, 0⟩
  destroyer := ⟨.idle, 0⟩

theorem grow_adds_three : ∃ s', Lts.Run step Growing fourSlots s' ∧
    s'.pool.liveThrNum = 4 ∧ s'.pool.liveThrNum = runningSlots s' := by
  obtain ⟨⟨s', hrun, hend⟩, hall⟩ := grow_adds fourSlots rfl rfl rfl rfl (by decide)
  obtain ⟨slots, -, hn, hlive, -, -, -, hcount⟩ := hall s' hrun hend
  refine ⟨s', hrun, ?_, hcount⟩
  have h1 : fourSlots.pool.liveThrNum = 1 := rfl
  have h4 : fourSlots.pool.maxThrNum = 4 := rfl
  have hv : (defaultThreadVary : Int) = 10 := rfl
  rw [h1, h4, hv] at hn
  omega

end Pool
