import LinuxApi.Pool.Proof.Mutex
import LinuxApi.Pool.Schedule

/-!
# Thread accounting

`AccInv s`: `live_thr_num` counts the workers that have not passed the decrement of the retire
branch, `busy_thr_num` those between their increment and their decrement of it, and
`live_thr_num` stays between the limits. Every step of every thread keeps it, whatever the
manager's snapshots and `wait_exit_thr_num` are (`accInv_of_run`).
-/

set_option autoImplicit false

namespace Pool

open Threads

/-- The worker is counted by `live_thr_num`: it has not passed line 182. -/
def WorkerPc.counted : WorkerPc → Bool
  | .exitUnlock | .retired => false
  | _ => true

/-- The worker is between 212 and 220. -/
def WorkerPc.busy : WorkerPc → Bool
  | .unlockBusy | .callback | .lockIdle | .decBusy => true
  | _ => false

theorem WorkerPc.counted_of_busy {pc : WorkerPc} (h : pc.busy = true) : pc.counted = true := by
  cases pc <;> first | rfl | cases h

/-! ## The limits and the thread table -/

/-- The limits are the same. -/
structure SameLimits (p p' : Threadpool) : Prop where
  minThrNum : p'.minThrNum = p.minThrNum
  maxThrNum : p'.maxThrNum = p.maxThrNum

theorem StepMove.sameLimits {s s' : State} {a : Act} (h : StepMove s a s') :
    SameLimits s.pool s'.pool := by
  cases h with
  | worker _ hm => cases hm <;> exact ⟨rfl, rfl⟩
  | producer _ hm => cases hm <;> exact ⟨rfl, rfl⟩
  | manager hm => cases hm <;> exact ⟨rfl, rfl⟩
  | grow _ hg => cases hg <;> exact ⟨rfl, rfl⟩
  | destroy hd => cases hd <;> exact ⟨rfl, rfl⟩
  | _ => exact ⟨rfl, rfl⟩

theorem sameLimits_of_run {c : Cfg} {ok : State → Act → Prop} {s : State}
    (h : Lts.Run step ok (threadpoolCreate c) s) :
    SameLimits (threadpoolCreate c).pool s.pool := by
  apply h.inv (P := fun s => SameLimits (threadpoolCreate c).pool s.pool)
  · exact ⟨rfl, rfl⟩
  · intro s a s' ih _ hst
    have hm := (step_move hst).sameLimits
    exact ⟨hm.minThrNum.trans ih.minThrNum, hm.maxThrNum.trans ih.maxThrNum⟩

/-! ## The invariant -/

structure AccInv (s : State) : Prop where
  live : s.pool.liveThrNum = (s.workers.countP (·.pc.counted) : Nat)
  busy : s.pool.busyThrNum = (s.workers.countP (·.pc.busy) : Nat)
  min_le : s.pool.minThrNum ≤ s.pool.liveThrNum
  le_max : s.pool.liveThrNum ≤ s.pool.maxThrNum

/-- What a worker's move adds to `live_thr_num`, it adds to the number of counted workers. -/
theorem WorkerMove.live {w : Nat} {p p' : Threadpool} {t t' : Worker}
    (h : WorkerMove w p t p' t') :
    p'.liveThrNum + (if t.pc.counted then 1 else 0) =
      p.liveThrNum + (if t'.pc.counted then 1 else 0) := by
  cases h with
  | retire hpc => rw [hpc]; simp [Worker.goto, WorkerPc.counted]
  | _ hpc => rw [hpc]; rfl

theorem WorkerMove.busy {w : Nat} {p p' : Threadpool} {t t' : Worker}
    (h : WorkerMove w p t p' t') :
    p'.busyThrNum + (if t.pc.busy then 1 else 0) =
      p.busyThrNum + (if t'.pc.busy then 1 else 0) := by
  cases h with
  | incBusy hpc | decBusy hpc => rw [hpc]; simp [Worker.goto, WorkerPc.busy]
  | _ hpc => rw [hpc]; rfl

/-- A worker's move never takes `live_thr_num` below the minimum. -/
theorem WorkerMove.min_le {w : Nat} {p p' : Threadpool} {t t' : Worker}
    (h : WorkerMove w p t p' t') (hl : p.minThrNum ≤ p.liveThrNum) :
    p.minThrNum ≤ p'.liveThrNum ∧ p'.liveThrNum ≤ p.liveThrNum := by
  cases h with
  | retire => simp only; omega
  | _ => exact ⟨hl, Int.le_refl _⟩

/-- Threads that are woken stay what they were to both counters. -/
theorem Signalled.countP {ws ws' : List Worker} (h : Signalled ws ws') {p : WorkerPc → Bool}
    (hp : p .woken = p .asleep) :
    ws'.countP (fun t => p t.pc) = ws.countP (fun t => p t.pc) := by
  cases h with
  | noWaiter => rfl
  | @woken w t ht hpc =>
    have := countP_set_add (b := t.goto .woken) (fun t : Worker => p t.pc) ht
    simp only [Worker.goto, hpc, hp] at this ⊢
    omega

theorem countP_wake (ws : List Worker) {p : WorkerPc → Bool} (hp : p .woken = p .asleep) :
    (ws.map Worker.wake).countP (fun t => p t.pc) = ws.countP (fun t => p t.pc) := by
  apply countP_map_eq
  intro t
  rcases t.wake_cases with he | ⟨hpc, he⟩
  · rw [he]
  · rw [he, hpc]; exact hp

/-- What a step adds to the counters, it adds to the numbers of workers they count. -/
theorem AccInv.step {s s' : State} {a : Act} (hi : AccInv s) (h : StepMove s a s') :
    AccInv s' := by
  obtain ⟨hlive, hbusy, hmin, hmax⟩ := hi
  have hsig : ∀ {ws : List Worker}, Signalled s.workers ws →
      ws.countP (·.pc.counted) = s.workers.countP (·.pc.counted) ∧
        ws.countP (·.pc.busy) = s.workers.countP (·.pc.busy) := by
    intro ws hs
    exact ⟨hs.countP (p := WorkerPc.counted) rfl, hs.countP (p := WorkerPc.busy) rfl⟩
  cases h with
  | @worker w t t' p' ht hm =>
    have hlim := (StepMove.worker ht hm).sameLimits
    obtain ⟨h1, h2⟩ := hm.min_le hmin
    refine ⟨counter_set ht hlive hm.live, counter_set ht hbusy hm.busy, ?_, ?_⟩
    · rw [hlim.minThrNum]; exact h1
    · rw [hlim.maxThrNum]; exact Int.le_trans h2 hmax
  | @spuriousWorker w t ht hpc =>
    obtain ⟨h1, h2⟩ := hsig (.woken ht hpc)
    exact ⟨by rw [hlive, h1], by rw [hbusy, h2], hmin, hmax⟩
  | call | spuriousProducer | shrinkDone => exact ⟨hlive, hbusy, hmin, hmax⟩
  | producer ht hm => cases hm <;> exact ⟨hlive, hbusy, hmin, hmax⟩
  | addSignal ht hpc hs | shrinkSignal ht hpc hs =>
    obtain ⟨h1, h2⟩ := hsig hs
    exact ⟨by rw [hlive, h1], by rw [hbusy, h2], hmin, hmax⟩
  | manager hm => cases hm <;> exact ⟨hlive, hbusy, hmin, hmax⟩
  | grow hpc hg =>
    cases hg with
    | create hgt =>
      have hlt : s.pool.liveThrNum < s.pool.maxThrNum := by
        simp only [growTest, Bool.and_eq_true, decide_eq_true_eq] at hgt
        exact hgt.2
      refine ⟨?_, ?_, ?_, ?_⟩
      · simp [hlive, newWorker, WorkerPc.counted, List.countP_append]
      · simp [hbusy, newWorker, WorkerPc.busy, List.countP_append]
      · simp only; omega
      · simp only; omega
    | skip | done => exact ⟨hlive, hbusy, hmin, hmax⟩
  | destroy hd =>
    have h1 : (if s.destroyer.pc = .broadcast then s.workers.map Worker.wake
        else s.workers).countP (·.pc.counted) = s.workers.countP (·.pc.counted) := by
      split
      · exact countP_wake (p := WorkerPc.counted) _ rfl
      · rfl
    have h2 : (if s.destroyer.pc = .broadcast then s.workers.map Worker.wake
        else s.workers).countP (·.pc.busy) = s.workers.countP (·.pc.busy) := by
      split
      · exact countP_wake (p := WorkerPc.busy) _ rfl
      · rfl
    cases hd <;> exact ⟨by rw [hlive, h1], by rw [hbusy, h2], hmin, hmax⟩

theorem AccInv.create (c : Cfg) (h0 : 0 ≤ c.minThrNum) (hm : c.minThrNum ≤ c.maxThrNum) :
    AccInv (threadpoolCreate c) := by
  refine ⟨?_, ?_, Int.le_refl _, hm⟩
  · simp [threadpoolCreate, newWorker, WorkerPc.counted, List.countP_replicate,
      Int.toNat_of_nonneg h0]
  · simp [threadpoolCreate, newWorker, WorkerPc.busy, List.countP_replicate]

/-- `AccInv` in every state of a run. -/
theorem accInv_of_run {c : Cfg} {ok : State → Act → Prop} (h0 : 0 ≤ c.minThrNum)
    (hm : c.minThrNum ≤ c.maxThrNum) {s : State} (h : Lts.Run step ok (threadpoolCreate c) s) :
    AccInv s := by
  apply h.inv
  · exact .create c h0 hm
  · intro s a s' ih _ hst
    exact ih.step (step_move hst)

/-- **Thread accounting.** Before `shutdown`, outside `pool->lock`, `live_thr_num` is the number of
workers that have not retired; `busy_thr_num` is the number of workers between their increment
and their decrement of it; and both stay within their bounds. -/
theorem thread_accounting (c : Cfg) (h0 : 0 ≤ c.minThrNum) (hm : c.minThrNum ≤ c.maxThrNum)
    (s : State) (h : Lts.Run step Lts.Free (threadpoolCreate c) s)
    (hs : s.pool.shutdown = false) (hl : s.pool.lock = none) :
    s.pool.liveThrNum = (s.workers.countP (·.pc ≠ .retired) : Nat) ∧
    s.pool.busyThrNum = (s.workers.countP (·.pc.busy) : Nat) ∧
    (c.minThrNum ≤ s.pool.liveThrNum ∧ s.pool.liveThrNum ≤ c.maxThrNum) ∧
    0 ≤ s.pool.busyThrNum ∧ s.pool.busyThrNum ≤ s.pool.liveThrNum := by
  have hi := accInv_of_run h0 hm h
  have hlim := sameLimits_of_run h
  have hexcl := (lockInv_of_run h hs).excl
  rw [hl] at hexcl
  -- no worker is between the decrement and its unlock
  have hcount : s.workers.countP (·.pc ≠ .retired) = s.workers.countP (·.pc.counted) := by
    apply List.countP_congr
    intro t ht
    obtain ⟨w, hw⟩ := List.mem_iff_getElem?.1 ht
    have hne : t.pc ≠ .exitUnlock := by
      intro hpc
      apply hexcl.not_of_none (.worker w)
      exact ⟨t, hw, by rw [hpc]; rfl⟩
    cases hpc : t.pc <;> first | exact absurd hpc hne | simp [WorkerPc.counted]
  refine ⟨by rw [hcount]; exact hi.live, hi.busy, ⟨?_, ?_⟩, ?_, ?_⟩
  · have := hi.min_le; rwa [hlim.minThrNum] at this
  · have := hi.le_max; rwa [hlim.maxThrNum] at this
  · rw [hi.busy]; omega
  · rw [hi.busy, hi.live, Int.ofNat_le]
    exact List.countP_mono_left fun t _ ht => WorkerPc.counted_of_busy ht

/-- Worker 1 has been created and has retired; worker 0 is in a callback. -/
theorem thread_accounting_busy : ∃ s, Lts.Run step Lts.Free (threadpoolCreate (demoCfg 1 2 10 1)) s ∧
    s.workers.length = 2 ∧ s.pool.liveThrNum = 1 ∧ s.pool.busyThrNum = 1 ∧
      s.pool.busyThrNum ≤ s.pool.liveThrNum := by
  obtain ⟨s, hr, hs, hl, hw, hlive, hb⟩ := Lts.Run.exists_of_exec step
    (Sched.growAndShrink ++ Sched.times 4 [.worker 0] ++ Sched.add 0 ⟨1, 7⟩ (some 0) ++
      Sched.times 10 [.worker 0])
    (threadpoolCreate (demoCfg 1 2 10 1))
    (fun s => s.pool.shutdown = false ∧ s.pool.lock = none ∧ s.workers.length = 2 ∧
      s.pool.liveThrNum = 1 ∧ s.pool.busyThrNum = 1)
    (by decide +kernel)
  exact ⟨s, hr, hw, hlive, hb,
    (thread_accounting _ (by decide) (by decide) s hr hs hl).2.2.2.2⟩

end Pool
