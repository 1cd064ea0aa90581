import LinuxApi.Pool.Proof.Accounting

/-!
# The slot table and `live_thr_num`

The growth loop overwrites empty slots and those of terminated threads only, so every running worker
is in some slot (`Slotted`). If a worker retires only while the slots behind its own are empty or
hold terminated threads, those from `live_thr_num` on hold no worker that is not on its way out
(`SlotInv`). The growth loop relies on the mutex for that: a retirement in the middle of it, which
only the unlock at line 138 makes possible, would shift the counter behind its index.
-/

set_option autoImplicit false

namespace Pool

open Threads

/-- What `pthread_kill` says of the thread in the slot that the growth loop looks at is true. -/
def EsrchExact (s : State) : Act → Prop
  | .grow esrch => ∀ tid ∈ s.pool.threads[s.manager.i]?, tid ≠ 0 → esrch = joinable s.workers tid
  | _ => True

instance (s : State) : ∀ a, Decidable (EsrchExact s a)
  | .grow _ => inferInstanceAs (Decidable (∀ tid ∈ _, _ → _))
  | .worker _ | .spuriousWorker _ | .call _ _ | .producer _ | .addSignal _ _ | .spuriousProducer _
  | .manager | .shrinkSignal _ | .destroy => inferInstanceAs (Decidable True)

/-- No worker is between the decrement of `live_thr_num` and its end, 179–184. -/
def NoneRetiring (s : State) : Prop := ∀ t ∈ s.workers, t.pc ≠ .exitUnlock

/-- The slots behind that of worker `w` are empty or hold terminated threads. -/
def InLastSlot (s : State) (w : Nat) : Prop :=
  ∀ k < s.pool.threads.length, s.pool.threads[k]? = some (tidOf w) →
    ∀ tid ∈ s.pool.threads.drop (k + 1), tid ≠ 0 → joinable s.workers tid = true

/-- Workers retire from the last slot in use, and none while the growth loop runs. Before `shutdown`
the mutex sees to the latter. -/
def InOrder (s : State) : Act → Prop
  | .worker w => retires s w = true →
      InLastSlot s w ∧ (s.pool.shutdown = true → s.manager.pc ≠ .growLoop)
  | .grow _ => s.pool.shutdown = true → NoneRetiring s
  | _ => True

instance (s : State) : Decidable (NoneRetiring s) :=
  inferInstanceAs (Decidable (∀ t ∈ s.workers, _))

instance (s : State) (w : Nat) : Decidable (InLastSlot s w) :=
  inferInstanceAs (Decidable (∀ k < _, _ → ∀ tid ∈ _, _ → _))

instance (s : State) : ∀ a, Decidable (InOrder s a)
  | .worker w => inferInstanceAs (Decidable (retires s w = true → InLastSlot s w ∧ (_ → _)))
  | .grow _ => inferInstanceAs (Decidable (_ → NoneRetiring s))
  | .spuriousWorker _ | .call _ _ | .producer _ | .addSignal _ _ | .spuriousProducer _
  | .manager | .shrinkSignal _ | .destroy => inferInstanceAs (Decidable True)

/-! ## Terminated threads -/

theorem joinable_tidOf {ws : List Worker} {w : Nat} {t : Worker} (ht : ws[w]? = some t) :
    joinable ws (tidOf w) = t.pc.dead := by
  simp [joinable, tidOf, ht]

theorem joinable_iff {ws : List Worker} {tid : Nat} :
    joinable ws tid = true ↔ ∃ w t, tid = tidOf w ∧ ws[w]? = some t ∧ t.pc.dead = true := by
  cases tid with
  | zero => simp [joinable, tidOf]
  | succ w => simp [joinable, tidOf, Option.any_eq_true]

theorem WorkerMove.not_dead {w : Nat} {p p' : Threadpool} {t t' : Worker}
    (h : WorkerMove w p t p' t') : t.pc.dead = false := by
  cases h with
  | _ hpc => rw [hpc]; rfl

/-- A terminated thread stays terminated. -/
theorem StepMove.still_dead {s s' : State} {a : Act} (h : StepMove s a s') {w : Nat} {t : Worker}
    (ht : s.workers[w]? = some t) (hd : t.pc.dead = true) :
    ∃ t', s'.workers[w]? = some t' ∧ t'.pc.dead = true := by
  by_cases ha : a.owner = some (.worker w)
  · obtain ⟨-, t0, _, _, ht0, -, -, hm⟩ := h.own_worker ha
    obtain rfl : t0 = t := Option.some.inj (ht0.symm.trans ht)
    rw [hm.not_dead] at hd
    cases hd
  · obtain ⟨t', ht', rfl | ⟨hpc, -⟩⟩ := h.still_worker ht ha
    · exact ⟨t', ht', hd⟩
    · rw [hpc] at hd
      cases hd

theorem StepMove.joinable {s s' : State} {a : Act} (h : StepMove s a s') {tid : Nat}
    (hj : joinable s.workers tid = true) : joinable s'.workers tid = true := by
  obtain ⟨w, t, rfl, ht, hd⟩ := joinable_iff.1 hj
  obtain ⟨t', ht', hd'⟩ := h.still_dead ht hd
  exact joinable_iff.2 ⟨w, t', rfl, ht', hd'⟩

/-- A running thread was running before the step, or the step created it. -/
theorem StepMove.running_before {s s' : State} {a : Act} (h : StepMove s a s') {w : Nat}
    {t' : Worker} (ht' : s'.workers[w]? = some t') (hd : t'.pc.dead = false) :
    (∃ t, s.workers[w]? = some t ∧ t.pc.dead = false) ∨ w = s.workers.length := by
  by_cases ha : a.owner = some (.worker w)
  · obtain ⟨-, t0, _, _, ht0, -, -, hm⟩ := h.own_worker ha
    exact .inl ⟨t0, ht0, hm.not_dead⟩
  · obtain ⟨t, ht, rfl | ⟨hpc, -⟩⟩ | ⟨rfl, -⟩ := h.other_worker ht' ha
    · exact .inl ⟨t', ht, hd⟩
    · exact .inl ⟨t, ht, by rw [hpc]; rfl⟩
    · exact .inr rfl

/-! ## The slot table -/

/-- What a step does to the slot table and `live_thr_num`: the growth loop creates a thread, a worker
retires, or nothing happens. -/
inductive TableMove (s s' : State) : Act → Prop
  | create {esrch : Bool} {tid : Nat} : s.manager.pc = .growLoop →
      s.pool.threads[s.manager.i]? = some tid → (tid ≠ 0 → esrch = true) →
      s'.pool.threads = s.pool.threads.set s.manager.i (tidOf s.workers.length) →
      s'.pool.liveThrNum = s.pool.liveThrNum + 1 → TableMove s s' (.grow esrch)
  | retire {w : Nat} {t : Worker} : s.workers[w]? = some t → t.pc = .chkExit →
      s.pool.minThrNum < s.pool.liveThrNum → retires s w = true →
      s'.workers = s.workers.set w (t.goto .exitUnlock) →
      s'.pool.threads = s.pool.threads → s'.pool.liveThrNum = s.pool.liveThrNum - 1 →
      TableMove s s' (.worker w)
  | same {a : Act} : s'.pool.threads = s.pool.threads →
      s'.pool.liveThrNum = s.pool.liveThrNum → s'.workers.length = s.workers.length →
      TableMove s s' a

theorem StepMove.table {s s' : State} {a : Act} (h : StepMove s a s') : TableMove s s' a := by
  cases h with
  | worker ht hm =>
    cases hm with
    | retire hpc h0 hl => exact .retire ht hpc hl (retires_of ht hpc h0 hl) rfl rfl rfl
    | _ => exact .same rfl rfl (by simp)
  | producer _ hm => exact .same (by cases hm <;> rfl) (by cases hm <;> rfl) rfl
  | addSignal _ _ hs | shrinkSignal _ _ hs => exact .same rfl rfl (by cases hs <;> simp)
  | manager hm => exact .same (by cases hm <;> rfl) (by cases hm <;> rfl) rfl
  | grow hpc hg =>
    cases hg with
    | create _ ht he => exact .create hpc ht he rfl rfl
    | skip | done => exact .same rfl rfl rfl
  | destroy hd =>
    exact .same (by cases hd <;> rfl) (by cases hd <;> rfl) (by simp only; split <;> simp)
  | _ => exact .same rfl rfl (by simp)

theorem StepMove.threads_length {s s' : State} {a : Act} (h : StepMove s a s') :
    s'.pool.threads.length = s.pool.threads.length := by
  cases h.table with
  | create _ _ _ he => rw [he, List.length_set]
  | retire _ _ _ _ _ he | same he => rw [he]

/-- Every running worker is in a slot. -/
def Slotted (s : State) : Prop :=
  ∀ (w : Nat) (t : Worker), s.workers[w]? = some t → t.pc.dead = false → tidOf w ∈ s.pool.threads

/-- The growth loop overwrites no running worker. -/
theorem Slotted.step {s s' : State} {a : Act} (hi : Slotted s) (h : StepMove s a s')
    (hok : EsrchExact s a) : Slotted s' := by
  intro w t' ht' hd'
  have hlt' := (List.getElem?_eq_some_iff.1 ht').1
  rcases h.running_before ht' hd' with ⟨t, ht, hd⟩ | rfl
  · have hm := hi w t ht hd
    cases h.table with
    | retire _ _ _ _ _ he | same he => rw [he]; exact hm
    | create _ htid hes he =>
      obtain ⟨k, hk⟩ := List.mem_iff_getElem?.1 hm
      rw [he]
      by_cases hki : s.manager.i = k
      · -- the slot held `w`, which `pthread_kill` would have found running
        subst hki
        obtain rfl := Option.some.inj (htid.symm.trans hk)
        have h0 : tidOf w ≠ 0 := by simp [tidOf]
        have hj := hok _ hk h0
        rw [hes h0, joinable_tidOf ht, hd] at hj
        cases hj
      · exact List.mem_iff_getElem?.2 ⟨k, by rw [List.getElem?_set_ne hki]; exact hk⟩
  · cases h.table with
    | same _ _ hl => omega
    | retire _ _ _ _ he =>
      rw [he, List.length_set] at hlt'
      omega
    | create _ htid _ he =>
      have hlt := (List.getElem?_eq_some_iff.1 htid).1
      rw [he]
      exact List.mem_iff_getElem?.2 ⟨s.manager.i, by simp [hlt]⟩

/-! ## The slots from `live_thr_num` on -/

/-- The worker has terminated, or retires. -/
def WorkerPc.leaving : WorkerPc → Bool
  | .exitUnlock => true
  | pc => pc.dead

theorem WorkerPc.leaving_iff {pc : WorkerPc} :
    pc.leaving = true ↔ pc = .exitUnlock ∨ pc.dead = true := by
  cases pc <;> simp [leaving, dead]

/-- The thread id is that of such a worker. -/
def Leaving (ws : List Worker) (tid : Nat) : Prop :=
  ∃ w t, tid = tidOf w ∧ ws[w]? = some t ∧ t.pc.leaving = true

theorem leaving_tidOf {ws : List Worker} {w : Nat} {t : Worker} (ht : ws[w]? = some t)
    (h : Leaving ws (tidOf w)) : t.pc.leaving = true := by
  obtain ⟨v, u, hv, hu, hl⟩ := h
  obtain rfl : w = v := Nat.succ.inj hv
  rwa [Option.some.inj (ht.symm.trans hu)]

theorem Leaving.of_joinable {ws : List Worker} {tid : Nat} (h : joinable ws tid = true) :
    Leaving ws tid := by
  obtain ⟨w, t, rfl, ht, hd⟩ := joinable_iff.1 h
  exact ⟨w, t, rfl, ht, WorkerPc.leaving_iff.2 (.inr hd)⟩

/-- If no worker retires, those that leave have terminated. -/
theorem Leaving.joinable {s : State} (hn : NoneRetiring s) {tid : Nat}
    (h : Leaving s.workers tid) : joinable s.workers tid = true := by
  obtain ⟨w, t, rfl, ht, hl⟩ := h
  rw [joinable_tidOf ht]
  exact (WorkerPc.leaving_iff.1 hl).resolve_left (hn t (List.mem_of_getElem? ht))

/-- A worker that leaves goes on leaving. -/
theorem StepMove.still_leaving {s s' : State} {a : Act} (h : StepMove s a s') {tid : Nat}
    (hl : Leaving s.workers tid) : Leaving s'.workers tid := by
  obtain ⟨w, t, rfl, ht, hl⟩ := hl
  rcases WorkerPc.leaving_iff.1 hl with hpc | hd
  · by_cases ha : a.owner = some (.worker w)
    · obtain ⟨-, t0, t', _, ht0, ht', -, hm⟩ := h.own_worker ha
      obtain rfl : t0 = t := Option.some.inj (ht0.symm.trans ht)
      refine ⟨w, t', rfl, ht', ?_⟩
      cases hm with
      | retired => rfl
      | _ hpc' => rw [hpc] at hpc'; cases hpc'
    · obtain ⟨t', ht', rfl | ⟨hpc', -⟩⟩ := h.still_worker ht ha
      · exact ⟨w, t', rfl, ht', hl⟩
      · rw [hpc] at hpc'
        cases hpc'
  · obtain ⟨t', ht', hd'⟩ := h.still_dead ht hd
    exact ⟨w, t', rfl, ht', WorkerPc.leaving_iff.2 (.inr hd')⟩

/-- A worker that retires began to before the step, or begins to with it. -/
theorem StepMove.retiring_before {s s' : State} {a : Act} (h : StepMove s a s') {w : Nat}
    {t' : Worker} (ht' : s'.workers[w]? = some t') (hpc' : t'.pc = .exitUnlock) :
    (∃ t, s.workers[w]? = some t ∧ t.pc = .exitUnlock) ∨
      (a = .worker w ∧ retires s w = true) := by
  by_cases ha : a.owner = some (.worker w)
  · obtain ⟨rfl, t, t0, _, ht, ht0, -, hm⟩ := h.own_worker ha
    obtain rfl : t0 = t' := Option.some.inj (ht0.symm.trans ht')
    cases hm with
    | retire hpc h0 hl => exact .inr ⟨rfl, retires_of ht hpc h0 hl⟩
    | _ => simp [Worker.goto] at hpc'
  · obtain ⟨t, ht, rfl | ⟨-, rfl⟩⟩ | ⟨-, rfl⟩ := h.other_worker ht' ha
    · exact .inl ⟨t', ht, hpc'⟩
    · cases hpc'
    · cases hpc'

/-- Every running worker is in a slot, and the slots from `live_thr_num` on hold only workers that
leave. The growth loop has not gone past `live_thr_num`. -/
structure SlotInv (s : State) : Prop where
  slotted : Slotted s
  tail : ∀ (k tid : Nat), s.pool.liveThrNum ≤ k → s.pool.threads[k]? = some tid → tid ≠ 0 →
    Leaving s.workers tid
  loop : s.manager.pc = .growLoop → s.manager.i ≤ s.pool.liveThrNum

/-- While the growth loop runs, no worker is inside its critical section. -/
theorem LockInv.not_crit {s : State} (hi : LockInv s) (hm : s.manager.pc = .growLoop) {w : Nat}
    {t : Worker} (ht : s.workers[w]? = some t) : t.pc.crit = false := by
  by_contra hc
  have hworker : Holds s (.worker w) := ⟨t, ht, by simpa using hc⟩
  have hmanager : Holds s .manager := by rw [Holds, hm]; rfl
  cases hi.excl.unique hworker hmanager

theorem LockInv.none_retiring {s : State} (hi : LockInv s) (hm : s.manager.pc = .growLoop) :
    NoneRetiring s := by
  intro t ht hpc
  obtain ⟨w, hw⟩ := List.mem_iff_getElem?.1 ht
  have hc := hi.not_crit hm hw
  rw [hpc] at hc
  cases hc

section
variable {s s' : State} {a : Act} (hi : SlotInv s) (h : StepMove s a s') (hok : InOrder s a)
include hi h hok

/-- A worker that retires is in the slot before `live_thr_num`, or the slots between hold terminated
threads. -/
theorem SlotInv.step_tail {k tid : Nat} (hk : s'.pool.liveThrNum ≤ k)
    (htid : s'.pool.threads[k]? = some tid) (h0 : tid ≠ 0) : Leaving s'.workers tid := by
  cases h.table with
  | same he hl =>
    rw [hl] at hk
    rw [he] at htid
    exact h.still_leaving (hi.tail k tid hk htid h0)
  | create hpc _ _ he hl =>
    have hloop := hi.loop hpc
    rw [he, List.getElem?_set_ne (by omega)] at htid
    exact h.still_leaving (hi.tail k tid (by omega) htid h0)
  | @retire w t ht hpc _ hr hws he hl =>
    rw [he] at htid
    by_cases hlk : s.pool.liveThrNum ≤ k
    · exact h.still_leaving (hi.tail k tid hlk htid h0)
    obtain ⟨j, hj⟩ := List.mem_iff_getElem?.1 (hi.slotted w t ht (by rw [hpc]; rfl))
    have hjk : j ≤ k := by
      by_contra hjk
      have hleaving := leaving_tidOf ht (hi.tail j _ (by omega) hj (by simp [tidOf]))
      rw [hpc] at hleaving
      cases hleaving
    rcases Nat.eq_or_lt_of_le hjk with rfl | hlt
    · obtain rfl := Option.some.inj (hj.symm.trans htid)
      exact ⟨w, _, rfl, by rw [hws]; exact getElem?_set_of_some _ ht, rfl⟩
    · have hmem : tid ∈ s.pool.threads.drop (j + 1) := by
        refine List.mem_iff_getElem?.2 ⟨k - (j + 1), ?_⟩
        rw [List.getElem?_drop, ← htid]
        congr 1
        omega
      have hjl := (List.getElem?_eq_some_iff.1 hj).1
      exact h.still_leaving (.of_joinable ((hok hr).1 j hjl hj tid hmem h0))

/-- The growth loop goes past a slot that holds a running worker, and that slot is before
`live_thr_num`. -/
theorem SlotInv.step_loop (hlive : 0 ≤ s.pool.liveThrNum) (hesrch : EsrchExact s a)
    (hlock : s.pool.shutdown = false → LockInv s) (hpc' : s'.manager.pc = .growLoop) :
    s'.manager.i ≤ s'.pool.liveThrNum := by
  cases h with
  | manager hm =>
    cases hm with
    | growLock => exact hlive
    | _ => cases hpc'
  | grow hpc hg =>
    have hloop := hi.loop hpc
    cases hg with
    | create => simp only; omega
    | @skip tid _ htid h0 hes =>
      have hne : s.pool.liveThrNum ≠ s.manager.i := by
        intro heq
        -- the thread found alive there would have left
        have hquiet : NoneRetiring s := by
          cases hs : s.pool.shutdown with
          | false => exact (hlock hs).none_retiring hpc
          | true => exact hok hs
        have hj := (hi.tail _ tid (Int.le_of_eq heq) htid h0).joinable hquiet
        rw [← hesrch tid htid h0, hes] at hj
        cases hj
      simp only
      omega
    | done => cases hpc'
  | shrinkSignal hpc => rw [hpc] at hpc'; cases hpc'
  | shrinkDone => cases hpc'
  | worker ht hm =>
    cases hm with
    | retire hpc hw hl =>
      cases hs : s.pool.shutdown with
      | false =>
        have hc := (hlock hs).not_crit hpc' ht
        rw [hpc] at hc
        cases hc
      | true => exact absurd hpc' ((hok (retires_of ht hpc hw hl)).2 hs)
    | _ => exact hi.loop hpc'
  | producer _ hm => cases hm <;> exact hi.loop hpc'
  | destroy hd => cases hd <;> exact hi.loop hpc'
  | _ => exact hi.loop hpc'

theorem SlotInv.step (hlive : 0 ≤ s.pool.liveThrNum) (hesrch : EsrchExact s a)
    (hlock : s.pool.shutdown = false → LockInv s) : SlotInv s' :=
  ⟨hi.slotted.step h hesrch, fun _ _ => hi.step_tail h hok,
    hi.step_loop h hok hlive hesrch hlock⟩

end

/-! ## The slots that `threadpool_create` fills -/

theorem createWorkers_length (n : Nat) (threads : List Nat) :
    (createWorkers n threads).length = threads.length := by
  induction n with
  | zero => rfl
  | succ n ih => rw [createWorkers, List.length_set, ih]

theorem createWorkers_getElem? {n : Nat} {threads : List Nat} (hn : n ≤ threads.length) {w : Nat}
    (hw : w < n) : (createWorkers n threads)[w]? = some (tidOf w) := by
  induction n with
  | zero => omega
  | succ n ih =>
    rw [createWorkers]
    rcases Nat.lt_succ_iff_lt_or_eq.1 hw with hlt | rfl
    · rw [List.getElem?_set_ne (by omega)]
      exact ih (by omega) hlt
    · exact List.getElem?_set_self (by rw [createWorkers_length]; omega)

/-- The slots behind are left alone. -/
theorem createWorkers_getElem?_of_le {n : Nat} {threads : List Nat} {w : Nat} (hw : n ≤ w) :
    (createWorkers n threads)[w]? = threads[w]? := by
  induction n with
  | zero => rfl
  | succ n ih =>
    rw [createWorkers, List.getElem?_set_ne (by omega)]
    exact ih (by omega)

theorem SlotInv.create {c : Cfg} (hm : c.minThrNum.toNat ≤ c.maxThrNum.toNat) :
    SlotInv (threadpoolCreate c) where
  slotted w t ht hd := by
    have hw : w < c.minThrNum.toNat := by
      simpa [threadpoolCreate] using (List.getElem?_eq_some_iff.1 ht).1
    exact List.mem_of_getElem? (createWorkers_getElem? (by simpa using hm) hw)
  tail k tid hk htid h0 := by
    simp only [threadpoolCreate] at hk htid
    rw [createWorkers_getElem?_of_le (by omega), List.getElem?_replicate] at htid
    split at htid
    · exact absurd (Option.some.inj htid).symm h0
    · cases htid
  loop hpc := by cases hpc

end Pool
