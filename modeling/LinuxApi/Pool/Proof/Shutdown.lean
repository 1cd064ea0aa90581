import LinuxApi.Pool.Proof.Destroy

/-!
# Who is woken by `threadpool_destroy`

`threadpool_destroy` sets `shutdown` and broadcasts `queue_not_empty` without `pool->lock`, and
never touches `queue_not_full`. A worker that tested `shutdown` before it was set may go to
sleep after the last broadcast, and a producer that sleeps on a full queue is not woken at all
(`quiet_fails`). `QuietSafe` excludes such waits, the retirements that end the broadcast loop
early, and producers that wait for room when `shutdown` is set; then nobody is asleep when the
loop is over (`quiet_of_run`).
-/

set_option autoImplicit false

namespace Pool

open Threads

/-- `threadpool_destroy` has finished its broadcast loop. -/
def DestroyerPc.pastBroadcasts : DestroyerPc → Bool
  | .joinTest | .join | .free | .returned => true
  | _ => false

/-- `threadpool_destroy` has a broadcast before it, if `live_thr_num` stays what it is. -/
def broadcastAhead (s : State) : Bool :=
  match s.destroyer.pc with
  | .idle | .setShutdown | .joinManager | .broadcast => true
  | .broadcastTest => s.destroyer.i < s.pool.liveThrNum
  | .joinTest | .join | .free | .returned => false

def NoWorkerAsleep (s : State) : Prop := ∀ t ∈ s.workers, t.pc ≠ .asleep

def NoProducerAsleep (s : State) : Prop := ∀ t ∈ s.producers, t.pc ≠ .asleep

/-- The producer has found the queue full and waits for room, or is about to. -/
def ProducerPc.waiting : ProducerPc → Bool
  | .wait | .asleep => true
  | _ => false

def NoProducerWaiting (s : State) : Prop := ∀ t ∈ s.producers, t.pc.waiting = false

instance (s : State) : Decidable (NoWorkerAsleep s) :=
  inferInstanceAs (Decidable (∀ t ∈ _, _))

instance (s : State) : Decidable (NoProducerAsleep s) :=
  inferInstanceAs (Decidable (∀ t ∈ _, _))

instance (s : State) : Decidable (NoProducerWaiting s) :=
  inferInstanceAs (Decidable (∀ t ∈ _, _))

/-- A worker goes to sleep only while a broadcast is ahead, and does not retire when that leaves a
sleeping one without a broadcast; the loop starts with a broadcast if a worker is asleep; and no
producer waits for room when `shutdown` is set. -/
def QuietSafe (s : State) : Act → Prop
  | .worker w =>
    ((s.workers[w]?).any (·.pc = .wait) = true → broadcastAhead s = true) ∧
      (retires s w = true → s.destroyer.pc = .broadcastTest →
        s.pool.liveThrNum - 1 ≤ s.destroyer.i → NoWorkerAsleep s)
  | .destroy =>
    (s.destroyer.pc = .joinManager → s.pool.liveThrNum ≤ 0 → NoWorkerAsleep s) ∧
      (s.destroyer.pc = .setShutdown → NoProducerWaiting s)
  | _ => True

instance (s : State) : ∀ a, Decidable (QuietSafe s a)
  | .worker _ => inferInstanceAs (Decidable ((_ → _) ∧ (_ → _ → _ → _)))
  | .destroy => inferInstanceAs (Decidable ((_ → _ → _) ∧ (_ → _)))
  | .spuriousWorker _ | .call _ _ | .producer _ | .addSignal _ _ | .spuriousProducer _ | .manager
  | .grow _ | .shrinkSignal _ => inferInstanceAs (Decidable True)

/-! ## Who goes to sleep -/

/-- A worker that is asleep was so before the step, or the step was its wait. -/
theorem StepMove.asleep_worker {s s' : State} {a : Act} (h : StepMove s a s') {w : Nat}
    {t' : Worker} (ht' : s'.workers[w]? = some t') (hpc' : t'.pc = .asleep) :
    (∃ t, s.workers[w]? = some t ∧ t.pc = .asleep) ∨
      a = .worker w ∧ (s.workers[w]?).any (·.pc = .wait) = true := by
  by_cases ha : a.owner = some (.worker w)
  · obtain ⟨rfl, t, t1, _, ht, ht1, -, hm⟩ := h.own_worker ha
    obtain rfl : t1 = t' := Option.some.inj (ht1.symm.trans ht')
    cases hm with
    | wait hpc => exact .inr ⟨rfl, by simp [ht, hpc]⟩
    | _ => cases hpc'
  · obtain ⟨t, ht, rfl | ⟨-, rfl⟩⟩ | ⟨-, rfl⟩ := h.other_worker ht' ha
    · exact .inl ⟨t', ht, hpc'⟩
    · cases hpc'
    · cases hpc'

/-- After `shutdown` no producer starts to wait. -/
theorem StepMove.waiting_producer {s s' : State} {a : Act} (h : StepMove s a s')
    (hs : s.pool.shutdown = true) {i : Nat} {t' : Producer} (ht' : s'.producers[i]? = some t')
    (hw : t'.pc.waiting = true) : ∃ t, s.producers[i]? = some t ∧ t.pc.waiting = true := by
  by_cases ha : a.owner = some (.producer i)
  · obtain ⟨t, p', -, ht, -, hm⟩ | ⟨task, -, rfl⟩ | ⟨t, woken, -, -, -, rfl⟩ :=
      h.own_producer ha ht'
    · cases hm with
      | testFull _ _ hf => rw [hs] at hf; cases hf
      | wait hpc => exact ⟨t, ht, by rw [hpc]; rfl⟩
      | _ => cases hw
    · cases hw
    · cases hw
  · obtain ⟨t, ht, rfl | ⟨-, rfl⟩⟩ := h.other_producer ht' ha
    · exact ⟨t', ht, hw⟩
    · cases hw

theorem StepMove.noProducerWaiting {s s' : State} {a : Act} (h : StepMove s a s')
    (hs : s.pool.shutdown = true) (hn : NoProducerWaiting s) : NoProducerWaiting s' := by
  intro t' ht'
  obtain ⟨i, hi⟩ := List.mem_iff_getElem?.1 ht'
  apply Bool.eq_false_iff.2
  intro hw
  obtain ⟨t, ht, htw⟩ := h.waiting_producer hs hi hw
  rw [hn t (List.mem_of_getElem? ht)] at htw
  cases htw

/-- `shutdown` is set by `threadpool_destroy` only. -/
theorem StepMove.shutdown_eq {s s' : State} {a : Act} (h : StepMove s a s') (ha : a ≠ .destroy) :
    s'.pool.shutdown = s.pool.shutdown := by
  cases h.queue with
  | take _ _ _ he | enqueue _ _ _ he => rw [he]
  | shutdown => exact absurd rfl ha
  | same he => exact he.shutdown

/-- Only a retirement lowers `live_thr_num`. -/
theorem StepMove.live_le {s s' : State} {a : Act} (h : StepMove s a s') :
    s.pool.liveThrNum ≤ s'.pool.liveThrNum ∨
      ∃ w, a = .worker w ∧ retires s w = true ∧
        s'.pool.liveThrNum = s.pool.liveThrNum - 1 := by
  cases h with
  | @worker w t t' p' ht hm =>
    cases hm with
    | retire hpc h0 hl => exact .inr ⟨w, rfl, retires_of ht hpc h0 hl, rfl⟩
    | _ => exact .inl (Int.le_refl _)
  | producer _ hm => cases hm <;> exact .inl (Int.le_refl _)
  | manager hm => cases hm <;> exact .inl (Int.le_refl _)
  | grow _ hg =>
    cases hg with
    | create => exact .inl (by simp only; omega)
    | skip | done => exact .inl (Int.le_refl _)
  | destroy hd => cases hd <;> exact .inl (Int.le_refl _)
  | _ => exact .inl (Int.le_refl _)

/-! ## The invariant -/

/-- `threadpool_destroy` has set `shutdown`. -/
def DestroyerPc.shutdownSet : DestroyerPc → Bool
  | .idle | .setShutdown => false
  | _ => true

structure QuietInv (s : State) : Prop where
  workers : broadcastAhead s = false → NoWorkerAsleep s
  producers : s.pool.shutdown = true → NoProducerWaiting s
  shutdown : s.destroyer.pc.shutdownSet = true → s.pool.shutdown = true

/-- Unless it is a retirement that ends the loop, a step of another thread than the caller of
`threadpool_destroy` takes no broadcast away. -/
theorem StepMove.broadcastAhead {s s' : State} {a : Act} (h : StepMove s a s') (ha : a ≠ .destroy)
    (hb : broadcastAhead s = true) (hb' : broadcastAhead s' = false) :
    s.destroyer.pc = .broadcastTest ∧
      ∃ w, a = .worker w ∧ retires s w = true ∧ s.pool.liveThrNum - 1 ≤ s.destroyer.i := by
  have hd := h.other_destroyer ha
  cases hpc : s.destroyer.pc <;> simp only [Pool.broadcastAhead, hd, hpc] at hb hb' <;>
    try contradiction
  simp only [decide_eq_true_eq, decide_eq_false_iff_not] at hb hb'
  rcases h.live_le with hle | ⟨w, rfl, hr, hl⟩
  · omega
  · exact ⟨rfl, w, rfl, hr, by omega⟩

/-- A step of a thread other than the caller of `threadpool_destroy`. -/
theorem QuietInv.step_other {s s' : State} {a : Act} (hi : QuietInv s) (h : StepMove s a s')
    (hok : QuietSafe s a) (ha : a ≠ .destroy) : QuietInv s' := by
  have hd := h.other_destroyer ha
  have hsh := h.shutdown_eq ha
  refine ⟨?_, ?_, ?_⟩
  · intro hb' t' ht' hpc'
    obtain ⟨w, hw⟩ := List.mem_iff_getElem?.1 ht'
    have hb : Pool.broadcastAhead s = false ∨ NoWorkerAsleep s := by
      cases hb : Pool.broadcastAhead s with
      | false => exact .inl rfl
      | true =>
        obtain ⟨hpc, v, rfl, hr, hl⟩ := h.broadcastAhead ha hb hb'
        exact .inr (hok.2 hr hpc hl)
    have hno : NoWorkerAsleep s := hb.elim hi.workers id
    rcases h.asleep_worker hw hpc' with ⟨t, ht, hpc⟩ | ⟨rfl, hwait⟩
    · exact hno t (List.mem_of_getElem? ht) hpc
    · -- the wait itself: a broadcast is ahead, and stays
      have hb := hok.1 hwait
      obtain ⟨-, v, hv, hr, -⟩ := h.broadcastAhead ha hb hb'
      cases hv
      cases hw0 : s.workers[w]? with
      | none => simp [hw0] at hwait
      | some t =>
        simp only [retires, hw0, Option.any_some, Bool.and_eq_true, decide_eq_true_eq] at hwait hr
        rw [hwait] at hr
        cases hr.1
  · intro hs'
    rw [hsh] at hs'
    exact h.noProducerWaiting hs' (hi.producers hs')
  · intro hp
    rw [hd] at hp
    rw [hsh]
    exact hi.shutdown hp

theorem not_asleep_wake (t : Worker) : t.wake.pc ≠ .asleep := by
  unfold Worker.wake
  split
  · simp [Worker.goto]
  · assumption

/-- A step of `threadpool_destroy`. -/
theorem QuietInv.step_destroy {s s' : State} (hi : QuietInv s) (h : StepMove s .destroy s')
    (hok : QuietSafe s .destroy) : QuietInv s' := by
  have hkeep : NoWorkerAsleep s → NoWorkerAsleep s' := by
    intro hno t' ht' hpc'
    obtain ⟨w, hw⟩ := List.mem_iff_getElem?.1 ht'
    rcases h.asleep_worker hw hpc' with ⟨t, ht, hpc⟩ | ⟨ha, -⟩
    · exact hno t (List.mem_of_getElem? ht) hpc
    · cases ha
  refine ⟨?_, ?_, ?_⟩
  · intro hb'
    cases h with
    | destroy hd =>
      cases hd with
      | call | setShutdown | broadcastTest => cases hb'
      | joinManager hpc => exact hkeep (hok.1 hpc (by simpa [broadcastAhead] using hb'))
      | broadcastDone hpc hl => exact hkeep (hi.workers (by simp [broadcastAhead, hpc, hl]))
      | broadcast hpc =>
        intro t ht
        simp only [hpc, if_true] at ht
        obtain ⟨u, -, rfl⟩ := List.mem_map.1 ht
        exact not_asleep_wake u
      | _ hpc => exact hkeep (hi.workers (by simp [broadcastAhead, hpc]))
  · intro hs'
    cases hs : s.pool.shutdown with
    | true => exact h.noProducerWaiting hs (hi.producers hs)
    | false =>
      -- the step sets `shutdown`
      cases h with
      | destroy hd =>
        cases hd with
        | setShutdown hpc => exact hok.2 hpc
        | _ => simp [hs] at hs'
  · intro hp
    cases h with
    | destroy hd =>
      cases hd with
      | call => cases hp
      | setShutdown => rfl
      | _ hpc => exact hi.shutdown (by rw [hpc]; rfl)

/-- **Nobody is asleep after the broadcast loop**, in every run whose steps are `QuietSafe`. -/
theorem quiet_of_run (c : Cfg) (s : State) (h : Lts.Run step QuietSafe (threadpoolCreate c) s)
    (hd : s.destroyer.pc.pastBroadcasts = true) : NoWorkerAsleep s ∧ NoProducerAsleep s := by
  have hi : QuietInv s := by
    apply h.inv (P := QuietInv)
    · refine ⟨?_, ?_, ?_⟩
      · intro hb
        cases hb
      · intro hs
        cases hs
      · intro hp
        cases hp
    · intro s a s' ih hok hst
      by_cases ha : a = .destroy
      · subst ha
        exact ih.step_destroy (step_move hst) hok
      · exact ih.step_other (step_move hst) hok ha
  refine ⟨hi.workers ?_, ?_⟩
  · cases hpc : s.destroyer.pc <;> simp_all [DestroyerPc.pastBroadcasts, broadcastAhead]
  · intro t ht hpc
    have hset : s.destroyer.pc.shutdownSet = true := by
      cases hd' : s.destroyer.pc <;> simp_all [DestroyerPc.pastBroadcasts, DestroyerPc.shutdownSet]
    have hw := hi.producers (hi.shutdown hset) t ht
    rw [hpc] at hw
    cases hw

/-- Producer 1 has waited for room and was woken, and the worker is asleep when
`threadpool_destroy` is called. -/
theorem quiet_of_run_woken : ∃ s, Lts.Run step QuietSafe (threadpoolCreate (demoCfg 1 1 1 2)) s ∧
    s.destroyer.pc.pastBroadcasts = true ∧ NoWorkerAsleep s ∧ NoProducerAsleep s := by
  obtain ⟨s, hr, hd⟩ := Lts.Run.exists_of_execOk step QuietSafe
    (Sched.add 0 ⟨1, 7⟩ none ++ .call 1 ⟨1, 7⟩ :: Sched.times 3 [.producer 1] ++
      Sched.runTask 0 ++ Sched.times 4 [.producer 1] ++ [.addSignal 1 none, .producer 1] ++
      Sched.runTask 0 ++ Sched.sleep 0 ++ Sched.destroyBegin ++ [.manager] ++
      Sched.times 4 [.destroy])
    (threadpoolCreate (demoCfg 1 1 1 2)) (fun s => s.destroyer.pc.pastBroadcasts = true)
    (by decide +kernel)
  exact ⟨s, hr, hd, quiet_of_run _ s hr hd⟩

/-- A producer that sleeps on a full queue is not woken; and a worker that has found the queue empty
and `shutdown` not set waits after the only broadcast. -/
theorem quiet_fails :
    (¬ ∀ s, Lts.Run step Lts.Free (threadpoolCreate (demoCfg 1 1 1 2)) s →
      s.destroyer.pc.pastBroadcasts = true → NoProducerAsleep s) ∧
    ¬ ∀ s, Lts.Run step Lts.Free (threadpoolCreate (demoCfg 1 1 1 0)) s →
      s.destroyer.pc.pastBroadcasts = true → NoWorkerAsleep s := by
  refine ⟨fun hall => ?_, fun hall => ?_⟩
  · obtain ⟨s, hr, hd, hn⟩ := Lts.Run.exists_of_exec step
      (Sched.add 0 ⟨1, 7⟩ none ++ .call 1 ⟨1, 7⟩ :: Sched.times 3 [.producer 1] ++
        Sched.destroyBegin ++ [.manager] ++ Sched.times 4 [.destroy])
      (threadpoolCreate (demoCfg 1 1 1 2))
      (fun s => s.destroyer.pc.pastBroadcasts = true ∧ ¬ NoProducerAsleep s) (by decide +kernel)
    exact hn (hall s hr hd)
  · obtain ⟨s, hr, hd, hn⟩ := Lts.Run.exists_of_exec step
      (Sched.times 2 [.worker 0] ++ Sched.destroyBegin ++ [.manager] ++
        Sched.times 4 [.destroy] ++ [.worker 0])
      (threadpoolCreate (demoCfg 1 1 1 0))
      (fun s => s.destroyer.pc.pastBroadcasts = true ∧ ¬ NoWorkerAsleep s) (by decide +kernel)
    exact hn (hall s hr hd)

end Pool
