import LinuxApi.Pool.Hist
import LinuxApi.Pool.Proof.StepFacts

/-!
# Mutual exclusion and the guards of the queue operations

Before `shutdown` is set, a thread inside a critical section of `pool->lock` owns it
(`Excl (Holds s) s.pool.lock`), and what it tested about the queue is still true when it acts
on it (`WorkerOk`, `ProducerOk`). Both are one invariant, `LockInv` (`LockInv.step`). After
`shutdown` they fail: line 138 of `threadpool_add` unlocks and goes on.
-/

set_option autoImplicit false

namespace Pool

open Threads

/-! ## Critical sections of `pool->lock` -/

def WorkerPc.crit : WorkerPc → Bool
  | .test | .wait | .chkExit | .exitUnlock | .chkShutdown | .shutUnlock | .take | .broadcast
  | .unlockPool => true
  | _ => false

def ProducerPc.crit : ProducerPc → Bool
  | .test | .wait | .chkShutdown | .shutUnlock | .enqueue | .signal | .unlockPool => true
  | _ => false

def ManagerPc.crit : ManagerPc → Bool
  | .snapshot | .unlockPool | .growLoop | .growUnlock | .setExit | .shrinkUnlock => true
  | _ => false

/-- The thread is inside a critical section of `pool->lock`. -/
def Holds (s : State) : Owner → Prop
  | .worker w => ∃ t, s.workers[w]? = some t ∧ t.pc.crit = true
  | .producer i => ∃ t, s.producers[i]? = some t ∧ t.pc.crit = true
  | .manager => s.manager.pc.crit = true

/-- The thread that takes the step; a spurious wake-up is nobody's, and `threadpool_destroy` takes
no mutex. -/
def Act.owner : Act → Option Owner
  | .worker w => some (.worker w)
  | .call i _ | .producer i | .addSignal i _ => some (.producer i)
  | .manager | .grow _ | .shrinkSignal _ => some .manager
  | .spuriousWorker _ | .spuriousProducer _ | .destroy => none

/-! ## The thread that takes the step -/

theorem StepMove.own_worker {s s' : State} {a : Act} (h : StepMove s a s') {w : Nat}
    (ha : a.owner = some (.worker w)) :
    a = .worker w ∧ ∃ t t' p', s.workers[w]? = some t ∧ s'.workers[w]? = some t' ∧
      s'.pool = p' ∧ WorkerMove w s.pool t p' t' := by
  cases h with
  | @worker w0 t t' p' ht hm =>
    obtain rfl : w0 = w := by simpa [Act.owner] using ha
    exact ⟨rfl, t, t', p', ht, by simp [(List.getElem?_eq_some_iff.1 ht).1], rfl, hm⟩
  | _ => simp [Act.owner] at ha

/-- The producer that takes the step makes a move, begins a call or has called
`pthread_cond_signal`. -/
theorem StepMove.own_producer {s s' : State} {a : Act} (h : StepMove s a s') {i : Nat}
    (ha : a.owner = some (.producer i)) {t' : Producer} (ht' : s'.producers[i]? = some t') :
    (∃ t p', a = .producer i ∧ s.producers[i]? = some t ∧ s'.pool = p' ∧
      ProducerMove i s.pool t p' t') ∨
    (∃ task, a = .call i task ∧ t' = { pc := .lockPool, task, ret := none }) ∨
    ∃ t woken, a = .addSignal i woken ∧ s.producers[i]? = some t ∧ t.pc = .signal ∧
      t' = t.goto .unlockPool := by
  cases h with
  | @producer j t t1 p' ht hm =>
    obtain rfl : j = i := by simpa [Act.owner] using ha
    obtain rfl := Option.some.inj ((getElem?_set_of_some t1 ht).symm.trans ht')
    exact .inl ⟨t, p', rfl, ht, rfl, hm⟩
  | @call j t task ht hpc =>
    obtain rfl : j = i := by simpa [Act.owner] using ha
    obtain rfl := Option.some.inj ((getElem?_set_of_some _ ht).symm.trans ht')
    exact .inr (.inl ⟨task, rfl, rfl⟩)
  | @addSignal j t woken ws ht hpc hs =>
    obtain rfl : j = i := by simpa [Act.owner] using ha
    obtain rfl := Option.some.inj ((getElem?_set_of_some _ ht).symm.trans ht')
    exact .inr (.inr ⟨t, woken, rfl, ht, hpc, rfl⟩)
  | _ => simp [Act.owner] at ha

/-! ## Threads that do not take the step -/

theorem Signalled.cases_getElem? {ws ws' : List Worker} (h : Signalled ws ws') {w : Nat}
    {t' : Worker} (ht : ws'[w]? = some t') :
    ∃ t, ws[w]? = some t ∧ (t' = t ∨ t.pc = .asleep ∧ t' = t.goto .woken) := by
  cases h with
  | noWaiter => exact ⟨t', ht, .inl rfl⟩
  | woken ht0 hpc =>
    obtain ⟨rfl, rfl⟩ | ⟨-, ht⟩ := getElem?_set_cases ht
    · exact ⟨_, ht0, .inr ⟨hpc, rfl⟩⟩
    · exact ⟨t', ht, .inl rfl⟩

theorem Worker.wake_cases (t : Worker) :
    t.wake = t ∨ t.pc = .asleep ∧ t.wake = t.goto .woken := by
  unfold Worker.wake
  split
  · exact .inr ⟨by assumption, rfl⟩
  · exact .inl rfl

theorem Producer.wake_cases (t : Producer) :
    t.wake = t ∨ t.pc = .asleep ∧ t.wake = t.goto .woken := by
  unfold Producer.wake
  split
  · exact .inr ⟨by assumption, rfl⟩
  · exact .inl rfl

theorem getElem?_wakeProducers {ps : List Producer} {c : Prop} [Decidable c] {i : Nat}
    {t' : Producer} (h : (if c then ps.map Producer.wake else ps)[i]? = some t') :
    ∃ t, ps[i]? = some t ∧ (t' = t ∨ t.pc = .asleep ∧ t' = t.goto .woken) := by
  obtain ⟨t, ht, rfl | rfl⟩ := getElem?_ite_map_cases h
  · exact ⟨t', ht, .inl rfl⟩
  · exact ⟨t, ht, t.wake_cases⟩

theorem getElem?_wakeWorkers {ws : List Worker} {c : Prop} [Decidable c] {w : Nat}
    {t' : Worker} (h : (if c then ws.map Worker.wake else ws)[w]? = some t') :
    ∃ t, ws[w]? = some t ∧ (t' = t ∨ t.pc = .asleep ∧ t' = t.goto .woken) := by
  obtain ⟨t, ht, rfl | rfl⟩ := getElem?_ite_map_cases h
  · exact ⟨t', ht, .inl rfl⟩
  · exact ⟨t, ht, t.wake_cases⟩

/-- A worker that does not take the step is unchanged, woken or new. -/
theorem StepMove.other_worker {s s' : State} {a : Act} (h : StepMove s a s') {w : Nat}
    {t' : Worker} (ht : s'.workers[w]? = some t') (ha : a.owner ≠ some (.worker w)) :
    (∃ t, s.workers[w]? = some t ∧ (t' = t ∨ t.pc = .asleep ∧ t' = t.goto .woken)) ∨
      (w = s.workers.length ∧ t' = newWorker) := by
  cases h with
  | @worker w0 t t1 p' ht0 hm =>
    obtain ⟨rfl, -⟩ | ⟨-, ht⟩ := getElem?_set_cases ht
    · exact absurd rfl ha
    · exact .inl ⟨t', ht, .inl rfl⟩
  | spuriousWorker ht0 hpc =>
    obtain ⟨rfl, rfl⟩ | ⟨-, ht⟩ := getElem?_set_cases ht
    · exact .inl ⟨_, ht0, .inr ⟨hpc, rfl⟩⟩
    · exact .inl ⟨t', ht, .inl rfl⟩
  | call | producer | spuriousProducer | manager | shrinkDone => exact .inl ⟨t', ht, .inl rfl⟩
  | addSignal _ _ hs => exact .inl (hs.cases_getElem? ht)
  | shrinkSignal _ _ hs => exact .inl (hs.cases_getElem? ht)
  | grow _ hg =>
    simp only at ht
    split at ht
    · obtain ht | ⟨rfl, rfl⟩ := getElem?_concat_cases ht
      · exact .inl ⟨t', ht, .inl rfl⟩
      · exact .inr ⟨rfl, rfl⟩
    · exact .inl ⟨t', ht, .inl rfl⟩
  | destroy hd => exact .inl (getElem?_wakeWorkers ht)

/-- A producer that does not take the step is unchanged or woken. -/
theorem StepMove.other_producer {s s' : State} {a : Act} (h : StepMove s a s') {i : Nat}
    {t' : Producer} (ht : s'.producers[i]? = some t') (ha : a.owner ≠ some (.producer i)) :
    ∃ t, s.producers[i]? = some t ∧ (t' = t ∨ t.pc = .asleep ∧ t' = t.goto .woken) := by
  cases h with
  | worker => exact getElem?_wakeProducers ht
  | spuriousWorker | manager | grow | shrinkSignal | shrinkDone | destroy =>
    exact ⟨t', ht, .inl rfl⟩
  | call | producer | addSignal =>
    obtain ⟨rfl, -⟩ | ⟨-, ht⟩ := getElem?_set_cases ht
    · exact absurd rfl ha
    · exact ⟨t', ht, .inl rfl⟩
  | spuriousProducer ht0 hpc =>
    obtain ⟨rfl, rfl⟩ | ⟨-, ht⟩ := getElem?_set_cases ht
    · exact ⟨_, ht0, .inr ⟨hpc, rfl⟩⟩
    · exact ⟨t', ht, .inl rfl⟩

theorem StepMove.workers_length {s s' : State} {a : Act} (h : StepMove s a s') :
    s.workers.length ≤ s'.workers.length := by
  cases h with
  | addSignal _ _ hs | shrinkSignal _ _ hs => cases hs <;> simp
  | grow _ hg => simp only; split <;> simp
  | destroy hd => simp only; split <;> simp
  | _ => simp

/-- A worker that does not take the step is still there, unchanged or woken. -/
theorem StepMove.still_worker {s s' : State} {a : Act} (h : StepMove s a s') {w : Nat}
    {t : Worker} (ht : s.workers[w]? = some t) (ha : a.owner ≠ some (.worker w)) :
    ∃ t', s'.workers[w]? = some t' ∧ (t' = t ∨ t.pc = .asleep ∧ t' = t.goto .woken) := by
  have hlt := (List.getElem?_eq_some_iff.1 ht).1
  have hlt' := Nat.lt_of_lt_of_le hlt h.workers_length
  have ht' : s'.workers[w]? = some s'.workers[w] := List.getElem?_eq_getElem hlt'
  obtain ⟨t0, ht0, hc⟩ | ⟨he, -⟩ := h.other_worker ht' ha
  · obtain rfl : t0 = t := Option.some.inj (ht0.symm.trans ht)
    exact ⟨_, ht', hc⟩
  · omega

theorem StepMove.producers_length {s s' : State} {a : Act} (h : StepMove s a s') :
    s'.producers.length = s.producers.length := by
  cases h with
  | worker _ hm => simp only; split <;> simp
  | _ => simp

/-- A producer that does not take the step is still there, unchanged or woken. -/
theorem StepMove.still_producer {s s' : State} {a : Act} (h : StepMove s a s') {i : Nat}
    {t : Producer} (ht : s.producers[i]? = some t) (ha : a.owner ≠ some (.producer i)) :
    ∃ t', s'.producers[i]? = some t' ∧ (t' = t ∨ t.pc = .asleep ∧ t' = t.goto .woken) := by
  have hlt := (List.getElem?_eq_some_iff.1 ht).1
  rw [← h.producers_length] at hlt
  have ht' : s'.producers[i]? = some s'.producers[i] := List.getElem?_eq_getElem hlt
  obtain ⟨t0, ht0, hc⟩ := h.other_producer ht' ha
  obtain rfl : t0 = t := Option.some.inj (ht0.symm.trans ht)
  exact ⟨_, ht', hc⟩

theorem StepMove.other_manager {s s' : State} {a : Act} (h : StepMove s a s')
    (ha : a.owner ≠ some .manager) : s'.manager = s.manager := by
  cases h with
  | manager | grow | shrinkSignal | shrinkDone => exact absurd rfl ha
  | _ => rfl

/-- A thread that does not take the step does not enter a critical section in it. -/
theorem StepMove.other_holds {s s' : State} {a : Act} (h : StepMove s a s') {o : Owner}
    (ha : a.owner ≠ some o) (ho : Holds s' o) : Holds s o := by
  cases o with
  | worker w =>
    obtain ⟨t', ht', hc⟩ := ho
    obtain ⟨t, ht, rfl | ⟨-, rfl⟩⟩ | ⟨-, rfl⟩ := h.other_worker ht' ha
    · exact ⟨t', ht, hc⟩
    · simp [Worker.goto, WorkerPc.crit] at hc
    · simp [newWorker, WorkerPc.crit] at hc
  | producer i =>
    obtain ⟨t', ht', hc⟩ := ho
    obtain ⟨t, ht, rfl | ⟨-, rfl⟩⟩ := h.other_producer ht' ha
    · exact ⟨t', ht, hc⟩
    · simp [Producer.goto, ProducerPc.crit] at hc
  | manager => rwa [Holds, h.other_manager ha] at ho

/-! ## What a step does to the queue -/

/-- The queue, the size limit and `shutdown` are the same. -/
structure SameQueue (p p' : Threadpool) : Prop where
  taskQueue : p'.taskQueue = p.taskQueue
  queueFront : p'.queueFront = p.queueFront
  queueRear : p'.queueRear = p.queueRear
  queueSize : p'.queueSize = p.queueSize
  queueMaxSize : p'.queueMaxSize = p.queueMaxSize
  shutdown : p'.shutdown = p.shutdown

theorem SameQueue.refl (p : Threadpool) : SameQueue p p := ⟨rfl, rfl, rfl, rfl, rfl, rfl⟩

theorem ManagerMove.sameQueue {p p' : Threadpool} {m m' : Manager}
    (h : ManagerMove p m p' m') : SameQueue p p' := by
  cases h <;> exact ⟨rfl, rfl, rfl, rfl, rfl, rfl⟩

theorem GrowMove.sameQueue {n : Nat} {e c : Bool} {p p' : Threadpool} {m m' : Manager}
    (h : GrowMove n e p m p' m' c) : SameQueue p p' := by
  cases h <;> exact ⟨rfl, rfl, rfl, rfl, rfl, rfl⟩

/-- What a step does to the queue: it takes a task, adds one, sets `shutdown` or leaves the
queue alone. -/
inductive QueueMove (s s' : State) : Act → Prop
  | take {w : Nat} {t : Worker} {task : Task} : s.workers[w]? = some t → t.pc = .take →
      s.pool.taskQueue[s.pool.queueFront.toNat]? = some task →
      s'.pool = { s.pool with
        queueFront := (s.pool.queueFront + 1).tmod s.pool.queueMaxSize
        queueSize := s.pool.queueSize - 1 } →
      s'.workers = s.workers.set w { pc := .broadcast, task } → QueueMove s s' (.worker w)
  | enqueue {i : Nat} {t : Producer} : s.producers[i]? = some t → t.pc = .enqueue →
      s.pool.queueRear.toNat < s.pool.taskQueue.length →
      s'.pool = { s.pool with
        taskQueue := s.pool.taskQueue.set s.pool.queueRear.toNat t.task
        queueRear := (s.pool.queueRear + 1).tmod s.pool.queueMaxSize
        queueSize := s.pool.queueSize + 1 } →
      s'.workers = s.workers → QueueMove s s' (.producer i)
  | shutdown : s'.pool = { s.pool with shutdown := true } → QueueMove s s' .destroy
  | same {a : Act} : SameQueue s.pool s'.pool → takes s a = false → adds s a = false →
      QueueMove s s' a

theorem StepMove.queue {s s' : State} {a : Act} (h : StepMove s a s') : QueueMove s s' a := by
  cases h with
  | worker ht hm =>
    cases hm with
    | take hpc hq => exact .take ht hpc hq rfl rfl
    | _ hpc => exact .same ⟨rfl, rfl, rfl, rfl, rfl, rfl⟩ (by simp [takes, ht, hpc]) rfl
  | producer ht hm =>
    cases hm with
    | enqueue hpc hr => exact .enqueue ht hpc hr rfl rfl
    | lock hpc =>
      refine .same ⟨rfl, rfl, rfl, rfl, rfl, rfl⟩ rfl ?_
      rcases hpc with hpc | hpc <;> simp [adds, ht, hpc]
    | _ hpc => exact .same ⟨rfl, rfl, rfl, rfl, rfl, rfl⟩ rfl (by simp [adds, ht, hpc])
  | manager hm => exact .same hm.sameQueue rfl rfl
  | grow _ hg => exact .same hg.sameQueue rfl rfl
  | destroy hd =>
    cases hd with
    | setShutdown => exact .shutdown rfl
    | _ => exact .same (.refl _) rfl rfl
  | _ => exact .same (.refl _) rfl rfl

/-- `shutdown` is never reset. -/
theorem StepMove.shutdown_mono {s s' : State} {a : Act} (h : StepMove s a s')
    (hs : s'.pool.shutdown = false) : s.pool.shutdown = false := by
  cases h.queue with
  | take _ _ _ he | enqueue _ _ _ he => rw [he] at hs; exact hs
  | shutdown he => rw [he] at hs; cases hs
  | same he => rw [← he.shutdown]; exact hs

/-- The step that sets `shutdown` changes neither the workers nor the queue. -/
theorem StepMove.set_shutdown {s s' : State} {a : Act} (h : StepMove s a s')
    (hs : s.pool.shutdown = false) (hs' : s'.pool.shutdown = true) :
    s'.workers = s.workers ∧ s'.pool = { s.pool with shutdown := true } := by
  cases h.queue with
  | take _ _ _ he | enqueue _ _ _ he => simp [he, hs] at hs'
  | same he => simp [he.shutdown, hs] at hs'
  | shutdown he =>
    refine ⟨?_, he⟩
    cases h with
    | destroy hd =>
      cases hd with
      | setShutdown hpc => exact if_neg (by rw [hpc]; decide)
      | _ => simp [hs] at hs'

theorem retires_of {s : State} {w : Nat} {t : Worker} (ht : s.workers[w]? = some t)
    (hpc : t.pc = .chkExit) (h0 : 0 < s.pool.waitExitThrNum)
    (hl : s.pool.minThrNum < s.pool.liveThrNum) : retires s w = true := by
  simp [retires, ht, hpc, Threadpool.chkExit, h0, hl]

/-! ## The invariant -/

/-- What a worker inside its critical section knows of the queue. -/
def WorkerOk (p : Threadpool) : WorkerPc → Prop
  | .wait => p.queueSize = 0
  | .chkShutdown | .take => p.queueSize ≠ 0
  | .shutUnlock => False
  | _ => True

/-- What a producer inside its critical section knows of the queue. -/
def ProducerOk (p : Threadpool) : ProducerPc → Prop
  | .wait => p.queueSize = p.queueMaxSize
  | .chkShutdown | .enqueue => p.queueSize ≠ p.queueMaxSize
  | .shutUnlock => False
  | _ => True

theorem WorkerOk.of_not_crit {p : Threadpool} {pc : WorkerPc} (h : pc.crit = false) :
    WorkerOk p pc := by
  cases pc <;> trivial

theorem ProducerOk.of_not_crit {p : Threadpool} {pc : ProducerPc} (h : pc.crit = false) :
    ProducerOk p pc := by
  cases pc <;> trivial

theorem WorkerOk.sameQueue {p p' : Threadpool} {pc : WorkerPc} (h : WorkerOk p pc)
    (hq : SameQueue p p') : WorkerOk p' pc := by
  cases pc <;> simp_all [WorkerOk, hq.queueSize]

theorem ProducerOk.sameQueue {p p' : Threadpool} {pc : ProducerPc} (h : ProducerOk p pc)
    (hq : SameQueue p p') : ProducerOk p' pc := by
  cases pc <;> simp_all [ProducerOk, hq.queueSize, hq.queueMaxSize]

theorem WorkerMove.ok {w : Nat} {p p' : Threadpool} {t t' : Worker}
    (h : WorkerMove w p t p' t') (hs : p.shutdown = false) (hok : WorkerOk p t.pc) :
    WorkerOk p' t'.pc := by
  cases h with
  | testEmpty _ h0 => exact h0
  | testPass _ hp => exact fun h0 => by simp [hp h0] at hs
  | seeShutdown _ h => simp [h] at hs
  | noShutdown hpc => rw [hpc] at hok; exact hok
  | _ => trivial

theorem ProducerMove.ok {i : Nat} {p p' : Threadpool} {t t' : Producer}
    (h : ProducerMove i p t p' t') (hs : p.shutdown = false) (hok : ProducerOk p t.pc) :
    ProducerOk p' t'.pc := by
  cases h with
  | testFull _ h0 => exact h0
  | testPass _ hp => exact fun h0 => by simp [hp h0] at hs
  | seeShutdown _ h => simp [h] at hs
  | noShutdown hpc => rw [hpc] at hok; exact hok
  | shutUnlock hpc => rw [hpc] at hok; exact hok.elim
  | _ => trivial

theorem WorkerMove.mutex {w : Nat} {p p' : Threadpool} {t t' : Worker}
    (h : WorkerMove w p t p' t') :
    (p.lock = none ∧ p'.lock = some (.worker w)) ∨ (t.pc.crit = true ∧ t'.pc.crit = false) ∨
      (p'.lock = p.lock ∧ (t'.pc.crit = true → t.pc.crit = true)) := by
  cases h with
  | lock _ hl | relock _ hl => exact .inl ⟨hl, rfl⟩
  | wait hp | retired hp | exit hp | unlock hp => exact .inr (.inl ⟨by rw [hp]; rfl, rfl⟩)
  | _ hp => exact .inr (.inr ⟨rfl, by simp [hp, Worker.goto, WorkerPc.crit]⟩)

theorem ProducerMove.mutex {i : Nat} {p p' : Threadpool} {t t' : Producer}
    (h : ProducerMove i p t p' t') (hok : ProducerOk p t.pc) :
    (p.lock = none ∧ p'.lock = some (.producer i)) ∨ (t.pc.crit = true ∧ t'.pc.crit = false) ∨
      (p'.lock = p.lock ∧ (t'.pc.crit = true → t.pc.crit = true)) := by
  cases h with
  | lock _ hl => exact .inl ⟨hl, rfl⟩
  | wait hp | unlock hp => exact .inr (.inl ⟨by rw [hp]; rfl, rfl⟩)
  | shutUnlock hp => rw [hp] at hok; exact hok.elim
  | _ hp => exact .inr (.inr ⟨rfl, by simp [hp, Producer.goto, ProducerPc.crit]⟩)

theorem ManagerMove.mutex {p p' : Threadpool} {m m' : Manager} (h : ManagerMove p m p' m') :
    (p.lock = none ∧ p'.lock = some .manager) ∨ (m.pc.crit = true ∧ m'.pc.crit = false) ∨
      (p'.lock = p.lock ∧ (m'.pc.crit = true → m.pc.crit = true)) := by
  cases h with
  | lock _ hl | growLock _ hl | shrinkLock _ hl => exact .inl ⟨hl, rfl⟩
  | unlock hp | growUnlock hp | shrinkUnlock hp => exact .inr (.inl ⟨by rw [hp]; rfl, rfl⟩)
  | _ hp => exact .inr (.inr ⟨rfl, by simp [hp, Manager.goto, ManagerPc.crit]⟩)

/-- Mutual exclusion, and what the threads inside their critical sections know. -/
structure LockInv (s : State) : Prop where
  excl : Excl (Holds s) s.pool.lock
  worker : ∀ (w : Nat) (t : Worker), s.workers[w]? = some t → WorkerOk s.pool t.pc
  producer : ∀ (i : Nat) (t : Producer), s.producers[i]? = some t → ProducerOk s.pool t.pc

theorem holds_worker_set {s : State} {ws : List Worker} {w : Nat} {t' : Worker}
    (hw : s.workers = ws.set w t') (h : Holds s (.worker w)) : t'.pc.crit = true := by
  obtain ⟨t, ht, hc⟩ := h
  rw [hw] at ht
  obtain ⟨-, rfl⟩ | ⟨hne, -⟩ := getElem?_set_cases ht
  · exact hc
  · exact absurd rfl hne

theorem holds_producer_set {s : State} {ps : List Producer} {i : Nat} {t' : Producer}
    (hp : s.producers = ps.set i t') (h : Holds s (.producer i)) : t'.pc.crit = true := by
  obtain ⟨t, ht, hc⟩ := h
  rw [hp] at ht
  obtain ⟨-, rfl⟩ | ⟨hne, -⟩ := getElem?_set_cases ht
  · exact hc
  · exact absurd rfl hne

/-- What a step does to `pool->lock`. -/
theorem StepMove.mutex {s s' : State} {a : Act} (h : StepMove s a s') (hi : LockInv s) :
    (∃ o, a.owner = some o ∧ MutexStep o (Holds s) (Holds s') s.pool.lock s'.pool.lock) ∨
      (a.owner = none ∧ s'.pool.lock = s.pool.lock) := by
  cases h with
  | @worker w t t' p' ht hm =>
    refine .inl ⟨.worker w, rfl, ?_⟩
    rcases hm.mutex with ⟨hl, hl'⟩ | ⟨hc, hc'⟩ | ⟨hl, hc⟩
    · exact .acquire hl hl'
    · refine .release ⟨t, ht, hc⟩ ?_
      intro hh
      have := holds_worker_set rfl hh
      simp [hc'] at this
    · refine .keep hl ?_
      intro hh
      exact ⟨t, ht, hc (holds_worker_set rfl hh)⟩
  | @producer i t t' p' ht hm =>
    refine .inl ⟨.producer i, rfl, ?_⟩
    rcases hm.mutex (hi.producer i t ht) with ⟨hl, hl'⟩ | ⟨hc, hc'⟩ | ⟨hl, hc⟩
    · exact .acquire hl hl'
    · refine .release ⟨t, ht, hc⟩ ?_
      intro hh
      have := holds_producer_set rfl hh
      simp [hc'] at this
    · refine .keep hl ?_
      intro hh
      exact ⟨t, ht, hc (holds_producer_set rfl hh)⟩
  | @call i t task ht hpc =>
    refine .inl ⟨.producer i, rfl, .keep rfl ?_⟩
    intro hh
    have := holds_producer_set rfl hh
    simp [ProducerPc.crit] at this
  | @addSignal i t woken ws ht hpc hs =>
    exact .inl ⟨.producer i, rfl, .keep rfl fun _ => ⟨t, ht, by rw [hpc]; rfl⟩⟩
  | manager hm =>
    refine .inl ⟨.manager, rfl, ?_⟩
    rcases hm.mutex with ⟨hl, hl'⟩ | ⟨hc, hc'⟩ | ⟨hl, hc⟩
    · exact .acquire hl hl'
    · exact .release hc (by simp [Holds, hc'])
    · exact .keep hl hc
  | grow hpc hg =>
    refine .inl ⟨.manager, rfl, .keep ?_ fun _ => ?_⟩
    · cases hg <;> rfl
    · rw [Holds, hpc]; rfl
  | shrinkSignal hpc hlt hs =>
    refine .inl ⟨.manager, rfl, .keep rfl ?_⟩
    intro hh
    simp [Holds, hpc, ManagerPc.crit] at hh
  | shrinkDone hpc hlt =>
    refine .inl ⟨.manager, rfl, .keep rfl ?_⟩
    intro hh
    simp [Holds, Manager.goto, ManagerPc.crit] at hh
  | spuriousWorker | spuriousProducer => exact .inr ⟨rfl, rfl⟩
  | destroy hd => exact .inr ⟨rfl, by cases hd <;> rfl⟩

theorem StepMove.excl {s s' : State} {a : Act} (h : StepMove s a s') (hi : LockInv s) :
    Excl (Holds s') s'.pool.lock := by
  rcases h.mutex hi with ⟨o, ho, hm⟩ | ⟨ho, hl⟩
  · apply hi.excl.step hm
    intro o' hne hh
    apply h.other_holds _ hh
    rw [ho]
    intro he
    exact hne (Option.some.inj he).symm
  · intro o hh
    rw [hl]
    exact hi.excl o (h.other_holds (by simp [ho]) hh)

/-- While a thread is inside its critical section, no other thread changes the queue. -/
theorem StepMove.frame {s s' : State} {a : Act} (h : StepMove s a s') (hi : LockInv s)
    (hs : s'.pool.shutdown = false) {o : Owner} (ha : a.owner ≠ some o) :
    SameQueue s.pool s'.pool ∨ ¬ Holds s o := by
  cases h.queue with
  | @take w t task ht hpc =>
    refine .inr fun hh => ha ?_
    have hw : Holds s (.worker w) := ⟨t, ht, by rw [hpc]; rfl⟩
    rw [hi.excl.unique hh hw]
    rfl
  | @enqueue i t ht hpc =>
    refine .inr fun hh => ha ?_
    have hp : Holds s (.producer i) := ⟨t, ht, by rw [hpc]; rfl⟩
    rw [hi.excl.unique hh hp]
    rfl
  | shutdown he => simp [he] at hs
  | same he => exact .inl he

theorem StepMove.worker_ok {s s' : State} {a : Act} (h : StepMove s a s') (hi : LockInv s)
    (hs : s'.pool.shutdown = false) {w : Nat} {t' : Worker} (ht' : s'.workers[w]? = some t') :
    WorkerOk s'.pool t'.pc := by
  by_cases ha : a.owner = some (.worker w)
  · obtain ⟨-, t, t1, _, ht, ht1, rfl, hm⟩ := h.own_worker ha
    obtain rfl : t1 = t' := Option.some.inj (ht1.symm.trans ht')
    exact hm.ok (h.shutdown_mono hs) (hi.worker _ _ ht)
  obtain ⟨t, ht, rfl | ⟨-, rfl⟩⟩ | ⟨-, rfl⟩ := h.other_worker ht' ha
  · rcases h.frame hi hs ha with hq | hn
    · exact (hi.worker w t' ht).sameQueue hq
    · exact .of_not_crit (by simpa [Holds, ht] using hn)
  · trivial
  · trivial

theorem StepMove.producer_ok {s s' : State} {a : Act} (h : StepMove s a s') (hi : LockInv s)
    (hs : s'.pool.shutdown = false) {i : Nat} {t' : Producer} (ht' : s'.producers[i]? = some t') :
    ProducerOk s'.pool t'.pc := by
  by_cases ha : a.owner = some (.producer i)
  · obtain ⟨t, p', -, ht, rfl, hm⟩ | ⟨task, -, rfl⟩ | ⟨t, woken, -, -, -, rfl⟩ :=
      h.own_producer ha ht'
    · exact hm.ok (h.shutdown_mono hs) (hi.producer _ _ ht)
    · trivial
    · trivial
  obtain ⟨t, ht, rfl | ⟨-, rfl⟩⟩ := h.other_producer ht' ha
  · rcases h.frame hi hs ha with hq | hn
    · exact (hi.producer i t' ht).sameQueue hq
    · exact .of_not_crit (by simpa [Holds, ht] using hn)
  · trivial

/-- A step before `shutdown` keeps mutual exclusion. -/
theorem LockInv.step {s s' : State} {a : Act} (hi : LockInv s) (h : StepMove s a s')
    (hs : s'.pool.shutdown = false) : LockInv s' :=
  ⟨h.excl hi, fun _ _ => h.worker_ok hi hs, fun _ _ => h.producer_ok hi hs⟩

theorem LockInv.create (c : Cfg) : LockInv (threadpoolCreate c) := by
  have hw : ∀ (w : Nat) (t : Worker), (threadpoolCreate c).workers[w]? = some t →
      t.pc = .lockPool := by
    intro w t ht
    obtain ⟨-, rfl⟩ := by simpa [threadpoolCreate, List.getElem?_replicate] using ht
    rfl
  have hp : ∀ (i : Nat) (t : Producer), (threadpoolCreate c).producers[i]? = some t →
      t.pc = .idle := by
    intro i t ht
    obtain ⟨-, rfl⟩ := by simpa [threadpoolCreate, List.getElem?_replicate] using ht
    rfl
  refine ⟨?_, ?_, ?_⟩
  · intro o ho
    cases o with
    | worker w => obtain ⟨t, ht, hc⟩ := ho; simp [hw w t ht, WorkerPc.crit] at hc
    | producer i => obtain ⟨t, ht, hc⟩ := ho; simp [hp i t ht, ProducerPc.crit] at hc
    | manager => simp [Holds, threadpoolCreate, ManagerPc.crit] at ho
  · intro w t ht
    rw [hw w t ht]
    trivial
  · intro i t ht
    rw [hp i t ht]
    trivial

/-- **Mutual exclusion**: `LockInv` holds in every state of a run before `shutdown` is set. -/
theorem lockInv_of_run {c : Cfg} {ok : State → Act → Prop} {s : State}
    (h : Lts.Run step ok (threadpoolCreate c) s) (hs : s.pool.shutdown = false) : LockInv s := by
  refine h.inv (P := fun s => s.pool.shutdown = false → LockInv s) ?_ ?_ hs
  · intro _
    exact .create c
  · intro s a s' ih _ hst hs'
    have hm := step_move hst
    exact (ih (hm.shutdown_mono hs')).step hm hs'

end Pool
