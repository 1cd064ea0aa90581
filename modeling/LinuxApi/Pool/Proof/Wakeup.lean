import LinuxApi.Pool.Proof.Accounting

/-!
# No task is stranded, unless a worker retires on a task's wake-up

`threadpool_add` wakes one worker for each task, and the retire branch of `threadpool_thread` does
not look at the queue: the worker that is woken for a task may retire and leave the task to
sleeping workers (`noStranded_fails`). `WakeSafe` excludes that step, and the addition of a
task to a pool without live workers. In a run all of whose steps meet it, a task in the queue
always has a live worker that is not asleep (`noStranded_of_run`). The invariant, `WakeInv`,
allows for the producer that has stored a task and not signalled yet.
-/

set_option autoImplicit false

namespace Pool

open Threads

/-- The worker has not ended and is not about to. -/
def WorkerPc.live : WorkerPc → Bool
  | .exitUnlock | .retired | .exited => false
  | _ => true

/-- A live worker that is not blocked on `queue_not_empty` without a wake-up pending. -/
def WorkerPc.awake (pc : WorkerPc) : Bool := pc.live && pc != .asleep

/-- If there is a task in the queue, some live worker is not asleep. -/
def NoStranded (s : State) : Prop :=
  0 < s.pool.queueSize → ∃ t ∈ s.workers, t.pc.awake = true

/-- A worker retires with a task in the queue only while another live worker is not asleep. -/
def RetireSafe (s : State) : Act → Prop
  | .worker w => retires s w = true → 0 < s.pool.queueSize →
      ∃ t ∈ s.workers.eraseIdx w, t.pc.awake = true
  | _ => True

/-- A task is added only while some worker is live, and the step is `RetireSafe`. -/
def WakeSafe (s : State) (a : Act) : Prop :=
  (adds s a = true → ∃ t ∈ s.workers, t.pc.live = true) ∧ RetireSafe s a

instance (s : State) : ∀ a, Decidable (RetireSafe s a)
  | .worker _ => inferInstanceAs (Decidable (_ → _ → _))
  | .spuriousWorker _ | .call _ _ | .producer _ | .addSignal _ _ | .spuriousProducer _ | .manager
  | .grow _ | .shrinkSignal _ | .destroy => inferInstanceAs (Decidable True)

instance (s : State) (a : Act) : Decidable (WakeSafe s a) :=
  inferInstanceAs (Decidable (_ ∧ _))

/-- A task in the queue has an awake worker, or its producer has still to signal. -/
def WakeInv (s : State) : Prop :=
  0 < s.pool.queueSize → (∃ (w : Nat) (t : Worker), s.workers[w]? = some t ∧ t.pc.awake = true) ∨
    (∃ (i : Nat) (u : Producer), s.producers[i]? = some u ∧ u.pc = .signal) ∧
      ∃ (w : Nat) (t : Worker), s.workers[w]? = some t ∧ t.pc.live = true

theorem WorkerPc.live_of_awake {pc : WorkerPc} (h : pc.awake = true) : pc.live = true := by
  simp only [awake, Bool.and_eq_true] at h
  exact h.1

theorem WorkerPc.awake_of_live {pc : WorkerPc} (h : pc.live = true) (hne : pc ≠ .asleep) :
    pc.awake = true := by
  simp [awake, h, hne]

/-! ## Workers stay awake -/

/-- A live worker's move, before `shutdown`, with a task in the queue: it is awake afterwards, or
it retired. -/
theorem WorkerMove.awake {w : Nat} {p p' : Threadpool} {t t' : Worker}
    (h : WorkerMove w p t p' t') (hok : WorkerOk p t.pc) (hq : 0 < p.queueSize)
    (hl : t.pc.live = true) :
    t'.pc.awake = true ∨
      (t.pc = .chkExit ∧ 0 < p.waitExitThrNum ∧ p.minThrNum < p.liveThrNum) := by
  cases h with
  | wait hpc => rw [hpc] at hok; simp only [WorkerOk] at hok; omega
  | exit hpc => rw [hpc] at hok; exact hok.elim
  | retired hpc => rw [hpc] at hl; cases hl
  | retire hpc h0 hlt => exact .inr ⟨hpc, h0, hlt⟩
  | _ => exact .inl rfl

/-- A worker that does not take the step stays live, and awake if it was. -/
theorem StepMove.still_live {s s' : State} {a : Act} (h : StepMove s a s') {w : Nat} {t : Worker}
    (ht : s.workers[w]? = some t) (hl : t.pc.live = true) (ha : a.owner ≠ some (.worker w)) :
    ∃ t', s'.workers[w]? = some t' ∧ t'.pc.live = true ∧ (t.pc ≠ .asleep → t'.pc ≠ .asleep) := by
  obtain ⟨t', ht', rfl | ⟨hpc, rfl⟩⟩ := h.still_worker ht ha
  · exact ⟨t', ht', hl, id⟩
  · exact ⟨_, ht', rfl, fun _ => by simp [Worker.goto]⟩

theorem StepMove.still_awake {s s' : State} {a : Act} (h : StepMove s a s') {w : Nat} {t : Worker}
    (ht : s.workers[w]? = some t) (hw : t.pc.awake = true) (ha : a.owner ≠ some (.worker w)) :
    ∃ (v : Nat) (t' : Worker), s'.workers[v]? = some t' ∧ t'.pc.awake = true := by
  obtain ⟨t', ht', hl, hne⟩ := h.still_live ht (WorkerPc.live_of_awake hw) ha
  refine ⟨w, t', ht', WorkerPc.awake_of_live hl (hne fun hpc => ?_)⟩
  rw [hpc] at hw
  cases hw

/-- With a task in the queue, a step leaves an awake worker where there was one. -/
theorem StepMove.awake {s s' : State} {a : Act} (h : StepMove s a s') (hi : LockInv s)
    (hok : WakeSafe s a) (hq : 0 < s.pool.queueSize) {w : Nat} {t : Worker}
    (ht : s.workers[w]? = some t) (hw : t.pc.awake = true) :
    ∃ (v : Nat) (t' : Worker), s'.workers[v]? = some t' ∧ t'.pc.awake = true := by
  by_cases ha : a.owner = some (.worker w)
  · obtain ⟨rfl, t0, t1, _, ht0, ht1, -, hm⟩ := h.own_worker ha
    obtain rfl : t0 = t := Option.some.inj (ht0.symm.trans ht)
    rcases hm.awake (hi.worker _ _ ht) hq (WorkerPc.live_of_awake hw) with h1 | ⟨hpc, h0, hlt⟩
    · exact ⟨w, t1, ht1, h1⟩
    · -- it retires: `WakeSafe` names another worker
      obtain ⟨u, hu, hua⟩ := hok.2 (retires_of ht hpc h0 hlt) hq
      obtain ⟨v, hne, hv⟩ := List.mem_eraseIdx_iff_getElem?.1 hu
      exact h.still_awake hv hua (by simpa [Act.owner] using Ne.symm hne)
  · exact h.still_awake ht hw ha

/-- Before `shutdown`, while a producer is at its signal, no worker retires. -/
theorem StepMove.live_of_signal {s s' : State} {a : Act} (h : StepMove s a s') (hi : LockInv s)
    {i : Nat} {u : Producer} (hu : s.producers[i]? = some u) (hsig : u.pc = .signal) {w : Nat}
    {t : Worker} (ht : s.workers[w]? = some t) (hl : t.pc.live = true) :
    ∃ (v : Nat) (t' : Worker), s'.workers[v]? = some t' ∧ t'.pc.live = true := by
  by_cases ha : a.owner = some (.worker w)
  · have hhold : Holds s (.producer i) := ⟨u, hu, by rw [hsig]; rfl⟩
    have hnot : ¬ Holds s (.worker w) := by
      intro hh
      simpa using hi.excl.unique hh hhold
    obtain ⟨-, t0, t1, _, ht0, ht1, -, hm⟩ := h.own_worker ha
    obtain rfl : t0 = t := Option.some.inj (ht0.symm.trans ht)
    refine ⟨w, t1, ht1, ?_⟩
    cases hm with
    | retire hpc | retired hpc | exit hpc => exact absurd ⟨t0, ht, by rw [hpc]; rfl⟩ hnot
    | _ => rfl
  · obtain ⟨t', ht', hl', -⟩ := h.still_live ht hl ha
    exact ⟨w, t', ht', hl'⟩

/-! ## The invariant -/

/-- After a signal a live worker is awake: the one that was woken, or all of them were. -/
theorem Signalled.awake {ws ws' : List Worker} (h : Signalled ws ws') {w : Nat} {t : Worker}
    (ht : ws[w]? = some t) (hl : t.pc.live = true) :
    ∃ (v : Nat) (t' : Worker), ws'[v]? = some t' ∧ t'.pc.awake = true := by
  cases h with
  | @woken v u hu hpc =>
    exact ⟨v, u.goto .woken, by simp [(List.getElem?_eq_some_iff.1 hu).1], rfl⟩
  | noWaiter hn =>
    exact ⟨w, t, ht, WorkerPc.awake_of_live hl (hn t (List.mem_of_getElem? ht))⟩

/-- A producer that is about to signal does nothing else, -/
theorem ProducerMove.pc_ne_signal {i : Nat} {p p' : Threadpool} {t t' : Producer}
    (h : ProducerMove i p t p' t') : t.pc ≠ .signal := by
  intro hsig
  cases h with
  | lock hpc => rcases hpc with hpc | hpc <;> rw [hsig] at hpc <;> cases hpc
  | _ hpc => rw [hsig] at hpc; cases hpc

/-- and it is about to after it has stored its task. -/
theorem ProducerMove.of_enqueue {i : Nat} {p p' : Threadpool} {t t' : Producer}
    (h : ProducerMove i p t p' t') (he : t.pc = .enqueue) : t'.pc = .signal := by
  cases h with
  | enqueue => rfl
  | lock hpc => rcases hpc with hpc | hpc <;> rw [he] at hpc <;> cases hpc
  | _ hpc => rw [he] at hpc; cases hpc

/-- A step of the producer that is about to signal is the signal. -/
theorem StepMove.signalled {s s' : State} {a : Act} (h : StepMove s a s') {i : Nat} {u : Producer}
    (hu : s.producers[i]? = some u) (hsig : u.pc = .signal)
    (ha : a.owner = some (.producer i)) : Signalled s.workers s'.workers := by
  have heq : ∀ {j : Nat} {v : Producer}, some (Owner.producer j) = some (Owner.producer i) →
      s.producers[j]? = some v → v.pc = .signal := by
    intro j v hj hv
    cases hj
    obtain rfl : v = u := Option.some.inj (hv.symm.trans hu)
    exact hsig
  cases h with
  | addSignal hv hpc hs => exact hs
  | producer hv hm => exact absurd (heq ha hv) hm.pc_ne_signal
  | call hv hpc => exact absurd (hpc.symm.trans (heq ha hv)) (by decide)
  | _ => simp [Act.owner] at ha

theorem WakeInv.step {s s' : State} {a : Act} (hw : WakeInv s) (h : StepMove s a s')
    (hi : LockInv s) (hok : WakeSafe s a) (hs' : s'.pool.shutdown = false) : WakeInv s' := by
  intro hq'
  cases hqm : h.queue with
  | @enqueue i u hu hpc _ he hws =>
    -- the task is in the queue, and its producer is about to signal
    obtain ⟨t, ht, hl⟩ := hok.1 (by simp [adds, hu, hpc])
    obtain ⟨w, ht⟩ := List.mem_iff_getElem?.1 ht
    refine .inr ⟨?_, w, t, by rw [hws]; exact ht, hl⟩
    cases h with
    | @producer _ u0 u1 p' hu0 hm =>
      obtain rfl : u0 = u := Option.some.inj (hu0.symm.trans hu)
      exact ⟨i, u1, by simp [(List.getElem?_eq_some_iff.1 hu).1], hm.of_enqueue hpc⟩
  | shutdown he => simp [he] at hs'
  | take ht hpc _ he =>
    -- the queue held a task before, and the worker that took one is awake
    have hq : 0 < s.pool.queueSize := by rw [he] at hq'; simp only at hq'; omega
    exact .inl (h.awake hi hok hq ht (by rw [hpc]; rfl))
  | same he =>
    have hq : 0 < s.pool.queueSize := by rw [he.queueSize] at hq'; exact hq'
    rcases hw hq with ⟨w, t, ht, ha⟩ | ⟨⟨i, u, hu, hsig⟩, w, t, ht, hl⟩
    · exact .inl (h.awake hi hok hq ht ha)
    by_cases ha : a.owner = some (.producer i)
    · exact .inl ((h.signalled hu hsig ha).awake ht hl)
    · obtain ⟨u', hu', rfl | ⟨hpc, -⟩⟩ := h.still_producer hu ha
      · exact .inr ⟨⟨i, u', hu', hsig⟩, h.live_of_signal hi hu hsig ht hl⟩
      · rw [hsig] at hpc
        cases hpc

/-- **No stranded task**, in every run whose steps are `WakeSafe`. -/
theorem noStranded_of_run (c : Cfg) (s : State) (h : Lts.Run step WakeSafe (threadpoolCreate c) s)
    (hs : s.pool.shutdown = false) (hl : s.pool.lock = none) : NoStranded s := by
  have hw : WakeInv s := by
    refine h.inv_of (P := fun s => s.pool.shutdown = false → WakeInv s)
      (Q := fun s => s.pool.shutdown = false → LockInv s) ?_ ?_ ?_ hs
    · intro s hr
      exact lockInv_of_run hr
    · intro _ hq
      simp [threadpoolCreate] at hq
    · intro s a s' hL ih hok hst hs'
      have hm := step_move hst
      have hs0 := hm.shutdown_mono hs'
      exact (ih hs0).step hm (hL hs0) hok hs'
  intro hq
  have hexcl := (lockInv_of_run h hs).excl
  rw [hl] at hexcl
  rcases hw hq with ⟨w, t, ht, ha⟩ | ⟨⟨i, u, hu, hsig⟩, -⟩
  · exact ⟨t, List.mem_of_getElem? ht, ha⟩
  · exact absurd ⟨u, hu, by rw [hsig]; rfl⟩ (hexcl.not_of_none (.producer i))

/-- The task wakes the sleeping worker. -/
theorem noStranded_of_run_woken : ∃ s,
    Lts.Run step WakeSafe (threadpoolCreate (demoCfg 1 1 1 1)) s ∧
      0 < s.pool.queueSize ∧ NoStranded s := by
  obtain ⟨s, hr, hs, hl, hq⟩ := Lts.Run.exists_of_execOk step WakeSafe
    (Sched.sleep 0 ++ Sched.add 0 ⟨1, 7⟩ (some 0)) (threadpoolCreate (demoCfg 1 1 1 1))
    (fun s => s.pool.shutdown = false ∧ s.pool.lock = none ∧ 0 < s.pool.queueSize)
    (by decide +kernel)
  exact ⟨s, hr, hq, noStranded_of_run _ s hr hs hl⟩

/-- One to two workers. A shrink pass leaves `wait_exit_thr_num` at 10 while both are busy; later
both sleep, a task is added, and the worker it wakes retires. -/
theorem noStranded_fails : ¬ ∀ s, Lts.Run step Lts.Free (threadpoolCreate (demoCfg 1 2 10 1)) s →
    s.pool.shutdown = false → s.pool.lock = none → NoStranded s := by
  intro hall
  obtain ⟨s, hr, hs, hl, hq, hn⟩ := Lts.Run.exists_of_exec step
    (Sched.times 10 (Sched.add 0 ⟨1, 7⟩ none) ++
      Sched.toGrowLoop ++ Sched.times 3 [.grow false] ++ Sched.afterGrow ++ Sched.shrinkPass ++
      Sched.times 10 (Sched.runTask 0) ++ Sched.sleep 0 ++ Sched.sleep 1 ++
      Sched.add 0 ⟨1, 7⟩ (some 0) ++ Sched.times 3 [.worker 0])
    (threadpoolCreate (demoCfg 1 2 10 1))
    (fun s => s.pool.shutdown = false ∧ s.pool.lock = none ∧ 0 < s.pool.queueSize ∧
      ¬ ∃ t ∈ s.workers, t.pc.awake = true) (by decide +kernel)
  exact hn (hall s hr hs hl hq)

/-! ## Pools with a positive minimum -/

/-- Before `shutdown` no worker has ended at 193. -/
theorem StepMove.not_exited {s s' : State} {a : Act} (h : StepMove s a s') (hi : LockInv s)
    (hn : ∀ t ∈ s.workers, t.pc ≠ .exited) : ∀ t ∈ s'.workers, t.pc ≠ .exited := by
  intro t' ht' hpc
  obtain ⟨w, hw⟩ := List.mem_iff_getElem?.1 ht'
  by_cases ha : a.owner = some (.worker w)
  · cases h with
    | @worker w0 t0 t1 p' ht0 hm =>
      obtain rfl : w0 = w := by simpa [Act.owner] using ha
      obtain ⟨-, rfl⟩ | ⟨hne, -⟩ := getElem?_set_cases hw
      · cases hm with
        | exit h0 =>
          have := hi.worker _ _ ht0
          rw [h0] at this
          exact this.elim
        | _ => cases hpc
      · exact hne rfl
    | _ => simp [Act.owner] at ha
  obtain ⟨t, ht, rfl | ⟨-, rfl⟩⟩ | ⟨-, rfl⟩ := h.other_worker hw ha
  · exact hn t' (List.mem_of_getElem? ht) hpc
  · cases hpc
  · cases hpc

/-- With a positive minimum there is always a live worker. -/
theorem live_of_run {c : Cfg} {ok : State → Act → Prop} (h1 : 1 ≤ c.minThrNum)
    (hm : c.minThrNum ≤ c.maxThrNum) {s : State} (h : Lts.Run step ok (threadpoolCreate c) s)
    (hs : s.pool.shutdown = false) : ∃ t ∈ s.workers, t.pc.live = true := by
  have hex : ∀ t ∈ s.workers, t.pc ≠ .exited := by
    refine h.inv_of (P := fun s => s.pool.shutdown = false → ∀ t ∈ s.workers, t.pc ≠ .exited)
      (Q := fun s => s.pool.shutdown = false → LockInv s) ?_ ?_ ?_ hs
    · intro s hr
      exact lockInv_of_run hr
    · intro _ t ht
      obtain ⟨-, rfl⟩ := List.mem_replicate.1 ht
      decide
    · intro s a s' hL ih _ hst hs'
      have hs0 := (step_move hst).shutdown_mono hs'
      exact (step_move hst).not_exited (hL hs0) (ih hs0)
  have hi := accInv_of_run (by omega) hm h
  have hmin := hi.min_le
  rw [(sameLimits_of_run h).minThrNum, hi.live] at hmin
  have hmin' : c.minThrNum ≤ ((s.workers.countP (·.pc.counted) : Nat) : Int) := hmin
  have hpos : 0 < s.workers.countP (·.pc.counted) := by omega
  obtain ⟨t, ht, hc⟩ := List.countP_pos_iff.1 hpos
  refine ⟨t, ht, ?_⟩
  have hne := hex t ht
  cases hpc : t.pc <;> simp_all [WorkerPc.counted, WorkerPc.live]

/-- With a positive minimum, `WakeSafe` asks something of the retiring workers only. -/
theorem noStranded_of_retireSafe {c : Cfg} (h1 : 1 ≤ c.minThrNum) (hm : c.minThrNum ≤ c.maxThrNum)
    {s : State} (h : Lts.Run step RetireSafe (threadpoolCreate c) s)
    (hs : s.pool.shutdown = false) (hl : s.pool.lock = none) : NoStranded s := by
  have hw : Lts.Run step WakeSafe (threadpoolCreate c) s := by
    refine h.inv_of
      (P := fun s => s.pool.shutdown = false → Lts.Run step WakeSafe (threadpoolCreate c) s)
      (Q := fun s => s.pool.shutdown = false → ∃ t ∈ s.workers, t.pc.live = true) ?_ ?_ ?_ hs
    · intro s hr
      exact live_of_run h1 hm hr
    · intro _
      exact .start
    · intro s a s' hlive ih hok hst hs'
      have hs0 := (step_move hst).shutdown_mono hs'
      exact .next (ih hs0) ⟨fun _ => hlive hs0, hok⟩ hst
  exact noStranded_of_run c s hw hs hl

end Pool
