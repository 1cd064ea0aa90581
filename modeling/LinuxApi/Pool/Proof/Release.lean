import LinuxApi.Pool.Proof.Destroy
import LinuxApi.Pool.Proof.Queue
import LinuxApi.Pool.Schedule

/-!
# The mutexes of the pool are always given back

Whoever owns a mutex is inside a critical section of it (`Owned`), and from everywhere in the section
the owner gets to its end by steps of its own: it never waits for the other mutex, for another
thread or for a condition, and the growth loop, which runs with `pool->lock` held, ends. So before
`shutdown` no thread waits for a mutex forever (`released`).
-/

set_option autoImplicit false

namespace Pool

open Lts Threads

/-! ## Owners are inside -/

/-- The thread is between locking and unlocking `thread_counter`. -/
def WorkerPc.counting : WorkerPc → Bool
  | .incBusy | .unlockBusy | .decBusy | .unlockIdle => true
  | _ => false

def ManagerPc.counting : ManagerPc → Bool
  | .snapshotBusy | .unlockBusy => true
  | _ => false

def Counts (s : State) : Owner → Prop
  | .worker w => ∃ t, s.workers[w]? = some t ∧ t.pc.counting = true
  | .producer _ => False
  | .manager => s.manager.pc.counting = true

structure Owned (s : State) : Prop where
  lock : Inside (Holds s) s.pool.lock
  counter : Inside (Counts s) s.pool.threadCounter

theorem WorkerMove.owned {w : Nat} {p p' : Threadpool} {t t' : Worker}
    (h : WorkerMove w p t p' t') :
    OwnStep (.worker w) (t.pc.crit = true) (t'.pc.crit = true) p.lock p'.lock ∧
    OwnStep (.worker w) (t.pc.counting = true) (t'.pc.counting = true)
      p.threadCounter p'.threadCounter := by
  cases h with
  | lock hpc | relock hpc => exact ⟨.taken rfl rfl, .same rfl (by simp [hpc, WorkerPc.counting])⟩
  | wait hpc | retired hpc | exit hpc | unlock hpc =>
    exact ⟨.freed rfl, .same rfl (by simp [hpc, WorkerPc.counting])⟩
  | lockBusy hpc | lockIdle hpc =>
    exact ⟨.same rfl (by simp [hpc, WorkerPc.crit]), .taken rfl rfl⟩
  | unlockBusy hpc | unlockIdle hpc =>
    exact ⟨.same rfl (by simp [hpc, WorkerPc.crit]), .freed rfl⟩
  | _ hpc =>
    exact ⟨.same rfl (by simp [hpc, Worker.goto, WorkerPc.crit]),
      .same rfl (by simp [hpc, Worker.goto, WorkerPc.counting])⟩

theorem ProducerMove.owned {i : Nat} {p p' : Threadpool} {t t' : Producer}
    (h : ProducerMove i p t p' t') (hok : ProducerOk p t.pc) :
    OwnStep (.producer i) (t.pc.crit = true) (t'.pc.crit = true) p.lock p'.lock ∧
    p'.threadCounter = p.threadCounter := by
  cases h with
  | lock => exact ⟨.taken rfl rfl, rfl⟩
  | wait | unlock => exact ⟨.freed rfl, rfl⟩
  | shutUnlock hpc => simp [hpc, ProducerOk] at hok
  | _ hpc => exact ⟨.same rfl (by simp [hpc, Producer.goto, ProducerPc.crit]), rfl⟩

theorem ManagerMove.owned {p p' : Threadpool} {m m' : Manager} (h : ManagerMove p m p' m') :
    OwnStep .manager (m.pc.crit = true) (m'.pc.crit = true) p.lock p'.lock ∧
    OwnStep .manager (m.pc.counting = true) (m'.pc.counting = true)
      p.threadCounter p'.threadCounter := by
  cases h with
  | lock hpc | growLock hpc | shrinkLock hpc =>
    exact ⟨.taken rfl rfl, .same rfl (by simp [hpc, ManagerPc.counting])⟩
  | unlock hpc | growUnlock hpc | shrinkUnlock hpc =>
    exact ⟨.freed rfl, .same rfl (by simp [hpc, ManagerPc.counting])⟩
  | lockBusy hpc => exact ⟨.same rfl (by simp [hpc, ManagerPc.crit]), .taken rfl rfl⟩
  | unlockBusy hpc => exact ⟨.same rfl (by simp [hpc, ManagerPc.crit]), .freed rfl⟩
  | _ hpc =>
    exact ⟨.same rfl (by simp [hpc, Manager.goto, ManagerPc.crit]),
      .same rfl (by simp [hpc, Manager.goto, ManagerPc.counting])⟩

/-! ## The other threads -/

theorem StepMove.still_holds {s s' : State} {a : Act} (h : StepMove s a s') {o : Owner}
    (ha : a.owner ≠ some o) : (Holds s o → Holds s' o) ∧ (Counts s o → Counts s' o) := by
  cases o with
  | worker w =>
    constructor
    all_goals
      rintro ⟨t, ht, hc⟩
      obtain ⟨t', ht', rfl | ⟨hpc, -⟩⟩ := h.still_worker ht ha
      · exact ⟨t', ht', hc⟩
      · simp [hpc, WorkerPc.crit, WorkerPc.counting] at hc
  | producer i =>
    refine ⟨?_, False.elim⟩
    rintro ⟨t, ht, hc⟩
    obtain ⟨t', ht', rfl | ⟨hpc, -⟩⟩ := h.still_producer ht ha
    · exact ⟨t', ht', hc⟩
    · simp [hpc, ProducerPc.crit] at hc
  | manager => simp only [Holds, Counts, h.other_manager ha, imp_self, and_self]

theorem holds_worker {s : State} {w : Nat} {t : Worker} (ht : s.workers[w]? = some t) :
    (Holds s (.worker w) ↔ t.pc.crit = true) ∧ (Counts s (.worker w) ↔ t.pc.counting = true) := by
  simp [Holds, Counts, ht]

theorem holds_producer {s : State} {i : Nat} {t : Producer} (ht : s.producers[i]? = some t) :
    Holds s (.producer i) ↔ t.pc.crit = true := by
  simp [Holds, ht]

/-- What a step does to the two mutexes. -/
theorem StepMove.owned {s s' : State} {a : Act} (h : StepMove s a s') (hi : LockInv s) :
    (∃ o, a.owner = some o ∧
      OwnStep o (Holds s o) (Holds s' o) s.pool.lock s'.pool.lock ∧
      OwnStep o (Counts s o) (Counts s' o) s.pool.threadCounter s'.pool.threadCounter) ∨
    (a.owner = none ∧ s'.pool.lock = s.pool.lock ∧
      s'.pool.threadCounter = s.pool.threadCounter) := by
  cases h with
  | @worker w t t' p' ht hm =>
    refine .inl ⟨.worker w, rfl, ?_⟩
    have ht' := getElem?_set_of_some t' ht
    rw [(holds_worker ht).1, (holds_worker ht).2, (holds_worker ht').1, (holds_worker ht').2]
    exact hm.owned
  | @producer i t t' p' ht hm =>
    refine .inl ⟨.producer i, rfl, ?_⟩
    have ht' := getElem?_set_of_some t' ht
    obtain ⟨hl, hc⟩ := hm.owned (hi.producer i t ht)
    rw [holds_producer ht, holds_producer ht']
    exact ⟨hl, .same hc id⟩
  | @call i t task ht hpc =>
    refine .inl ⟨.producer i, rfl, .same rfl ?_, .same rfl id⟩
    rw [holds_producer ht, hpc]
    exact nofun
  | @addSignal i t woken ws ht hpc hs =>
    refine .inl ⟨.producer i, rfl, .same rfl ?_, .same rfl id⟩
    rw [holds_producer ht, holds_producer (getElem?_set_of_some _ ht)]
    exact fun _ => rfl
  | manager hm => exact .inl ⟨.manager, rfl, hm.owned⟩
  | grow hpc hg =>
    refine .inl ⟨.manager, rfl, .same ?_ fun _ => ?_, .same ?_ fun hc => ?_⟩
    · cases hg <;> rfl
    · cases hg with
      | done => rfl
      | _ => simp [Holds, hpc, ManagerPc.crit]
    · cases hg <;> rfl
    · simp [Counts, hpc, ManagerPc.counting] at hc
  | shrinkSignal hpc hlt hs =>
    exact .inl ⟨.manager, rfl, .same rfl id, .same rfl id⟩
  | shrinkDone hpc hlt =>
    refine .inl ⟨.manager, rfl, .same rfl fun hc => ?_, .same rfl fun hc => ?_⟩
    · simp [Holds, hpc, ManagerPc.crit] at hc
    · simp [Counts, hpc, ManagerPc.counting] at hc
  | spuriousWorker | spuriousProducer => exact .inr ⟨rfl, rfl, rfl⟩
  | destroy hd => exact .inr ⟨rfl, by cases hd <;> rfl, by cases hd <;> rfl⟩

theorem Owned.step {s s' : State} {a : Act} (ho : Owned s) (h : StepMove s a s')
    (hi : LockInv s) : Owned s' := by
  rcases h.owned hi with ⟨o, ha, hl, hc⟩ | ⟨ha, hl, hc⟩
  · have hne : ∀ o', o' ≠ o → a.owner ≠ some o' := by
      intro o' hne he
      exact hne (Option.some.inj (he.symm.trans ha))
    exact ⟨ho.lock.step hl fun o' hne' => (h.still_holds (hne o' hne')).1,
      ho.counter.step hc fun o' hne' => (h.still_holds (hne o' hne')).2⟩
  · have hne : ∀ o', a.owner ≠ some o' := by simp [ha]
    refine ⟨fun o hlo => ?_, fun o hco => ?_⟩
    · exact (h.still_holds (hne o)).1 (ho.lock o (hl ▸ hlo))
    · exact (h.still_holds (hne o)).2 (ho.counter o (hc ▸ hco))

theorem owned_of_run {c : Cfg} {ok : State → Act → Prop} {s : State}
    (h : Run step ok (threadpoolCreate c) s) (hs : s.pool.shutdown = false) : Owned s := by
  refine h.inv_of (P := fun s => s.pool.shutdown = false → Owned s)
    (fun _ hr hs => lockInv_of_run hr hs) ?_ ?_ hs
  · intro _
    exact ⟨fun o ho => (nomatch ho), fun o ho => (nomatch ho)⟩
  · intro s a s' hl hi _ hst hs'
    have hm := step_move hst
    have hs := hm.shutdown_mono hs'
    exact (hi hs).step hm (hl hs)

/-! ## To the end of the section -/

/-- Thread `o` alone. -/
def Alone (o : Owner) (_ : State) (a : Act) : Prop := a.owner = some o

/-- `o` alone gets to where `pool->lock` is free, whatever the calls it makes return. -/
def Frees (o : Owner) : State → Prop := Must step (Alone o) fun s => s.pool.lock = none

/-- `o` alone gets to where `thread_counter` is free. -/
def FreesCounter (o : Owner) : State → Prop :=
  Must step (Alone o) fun s => s.pool.threadCounter = none

/-- The accesses to the arrays of the pool stay inside them. -/
structure Sound (p : Threadpool) : Prop where
  front : ∃ task, p.taskQueue[p.queueFront.toNat]? = some task
  rear : ∃ task, p.taskQueue[p.queueRear.toNat]? = some task
  threads : p.maxThrNum ≤ p.threads.length

section
variable {s : State} {w : Nat} {t t' : Worker} {p' : Threadpool} {P : State → Prop}

/-- The next step of a worker. -/
theorem must_worker (ht : s.workers[w]? = some t) (hst : workerStep w s.pool t = some (p', t'))
    (h : ∀ s', s'.pool = p' → s'.workers[w]? = some t' → Must step (Alone (.worker w)) P s') :
    Must step (Alone (.worker w)) P s := by
  have hstep : step s (.worker w) = some { s with
      pool := p'
      workers := s.workers.set w t'
      producers :=
        if t.pc = .broadcast then s.producers.map Producer.wake else s.producers } := by
    simp only [step, stepWorker, ht, hst, Option.map_some]
  refine .next ⟨.worker w, _, rfl, hstep⟩ ?_
  intro a s' ha hst'
  obtain ⟨rfl, -⟩ := (step_move hst').own_worker ha
  obtain rfl := Option.some.inj (hstep.symm.trans hst')
  exact h _ rfl (getElem?_set_of_some t' ht)

theorem frees_unlock (ht : s.workers[w]? = some t)
    (hpc : t.pc = .wait ∨ t.pc = .exitUnlock ∨ t.pc = .shutUnlock ∨ t.pc = .unlockPool) :
    Frees (.worker w) s := by
  have hst : ∃ t', workerStep w s.pool t = some (s.pool.release, t') := by
    rcases hpc with hpc | hpc | hpc | hpc <;> exact ⟨_, by rw [workerStep, hpc]⟩
  obtain ⟨t', hst⟩ := hst
  apply must_worker ht hst
  intro s' hp _
  exact .now (by rw [hp]; rfl)

theorem frees_take (hp : Sound s.pool) (ht : s.workers[w]? = some t) (hpc : t.pc = .take) :
    Frees (.worker w) s := by
  obtain ⟨task, hfront⟩ := hp.front
  have hst : workerStep w s.pool t = some
      ({ s.pool with
          queueFront := (s.pool.queueFront + 1).tmod s.pool.queueMaxSize
          queueSize := s.pool.queueSize - 1 }, ⟨.broadcast, task⟩) := by
    rw [workerStep, hpc, Threadpool.dequeue, hfront]
    rfl
  apply must_worker ht hst
  intro s₁ _ ht₁
  have hst₁ : workerStep w s₁.pool ⟨.broadcast, task⟩ = some (s₁.pool, ⟨.unlockPool, task⟩) := rfl
  apply must_worker ht₁ hst₁
  intro s₂ _ ht₂
  exact frees_unlock ht₂ (.inr (.inr (.inr rfl)))

theorem frees_chkShutdown (hp : Sound s.pool) (ht : s.workers[w]? = some t)
    (hpc : t.pc = .chkShutdown) : Frees (.worker w) s := by
  have hst : workerStep w s.pool t =
      some (s.pool, t.goto (if s.pool.shutdown then .shutUnlock else .take)) := by
    rw [workerStep, hpc]
  apply must_worker ht hst
  intro s₁ hp₁ ht₁
  by_cases hs : s.pool.shutdown = true
  · exact frees_unlock ht₁ (by simp [hs, Worker.goto])
  · exact frees_take (hp₁ ▸ hp) ht₁ (by simp [hs, Worker.goto])

theorem frees_test (hp : Sound s.pool) (ht : s.workers[w]? = some t) (hpc : t.pc = .test) :
    Frees (.worker w) s := by
  have hst : workerStep w s.pool t = some (s.pool,
      t.goto (if s.pool.queueSize = 0 ∧ s.pool.shutdown = false then .wait else .chkShutdown)) := by
    rw [workerStep, hpc]
  apply must_worker ht hst
  intro s₁ hp₁ ht₁
  by_cases hq : s.pool.queueSize = 0 ∧ s.pool.shutdown = false
  · exact frees_unlock ht₁ (by simp [hq, Worker.goto])
  · exact frees_chkShutdown (hp₁ ▸ hp) ht₁ (by simp [hq, Worker.goto])

/-- A worker gives `pool->lock` back. -/
theorem frees_worker (hp : Sound s.pool) (h : Holds s (.worker w)) : Frees (.worker w) s := by
  obtain ⟨t, ht, hc⟩ := h
  cases hpc : t.pc with
  | test => exact frees_test hp ht hpc
  | chkShutdown => exact frees_chkShutdown hp ht hpc
  | take => exact frees_take hp ht hpc
  | wait | exitUnlock | shutUnlock | unlockPool => exact frees_unlock ht (by simp [hpc])
  | broadcast =>
    have hst : workerStep w s.pool t = some (s.pool, t.goto .unlockPool) := by rw [workerStep, hpc]
    apply must_worker ht hst
    intro s₁ _ ht₁
    exact frees_unlock ht₁ (.inr (.inr (.inr rfl)))
  | chkExit =>
    have hst : workerStep w s.pool t = some (s.pool.chkExit.1,
        t.goto (if s.pool.chkExit.2 then .exitUnlock else .test)) := by
      rw [workerStep, hpc]
    apply must_worker ht hst
    intro s₁ hp₁ ht₁
    cases hr : s.pool.chkExit.2 with
    | true => exact frees_unlock ht₁ (by simp [hr, Worker.goto])
    | false =>
      have hsound : Sound s₁.pool := by
        rw [hp₁, Threadpool.chkExit]
        split
        · split <;> exact ⟨hp.front, hp.rear, hp.threads⟩
        · exact hp
      exact frees_test hsound ht₁ (by simp [hr, Worker.goto])
  | _ => simp [hpc, WorkerPc.crit] at hc

/-- A worker gives `thread_counter` back. -/
theorem freesCounter_worker (h : Counts s (.worker w)) : FreesCounter (.worker w) s := by
  have hlast : ∀ {s : State} {t : Worker}, s.workers[w]? = some t →
      t.pc = .unlockBusy ∨ t.pc = .unlockIdle → FreesCounter (.worker w) s := by
    intro s t ht hpc
    have hst : ∃ t', workerStep w s.pool t = some (s.pool.releaseCounter, t') := by
      rcases hpc with hpc | hpc <;> exact ⟨_, by rw [workerStep, hpc]⟩
    obtain ⟨t', hst⟩ := hst
    apply must_worker ht hst
    intro s' hp _
    exact .now (by rw [hp]; rfl)
  obtain ⟨t, ht, hc⟩ := h
  cases hpc : t.pc with
  | unlockBusy | unlockIdle => exact hlast ht (by simp [hpc])
  | incBusy =>
    have hst : workerStep w s.pool t =
        some ({ s.pool with busyThrNum := s.pool.busyThrNum + 1 }, t.goto .unlockBusy) := by
      rw [workerStep, hpc]
    apply must_worker ht hst
    intro s₁ _ ht₁
    exact hlast ht₁ (.inl rfl)
  | decBusy =>
    have hst : workerStep w s.pool t =
        some ({ s.pool with busyThrNum := s.pool.busyThrNum - 1 }, t.goto .unlockIdle) := by
      rw [workerStep, hpc]
    apply must_worker ht hst
    intro s₁ _ ht₁
    exact hlast ht₁ (.inr rfl)
  | _ => simp [hpc, WorkerPc.counting] at hc

end

/-! ## Producers -/

section
variable {s : State} {i : Nat} {t t' : Producer} {p' : Threadpool} {P : State → Prop}

/-- The next step of a producer. -/
theorem must_producer (ht : s.producers[i]? = some t)
    (hst : producerStep i s.pool t = some (p', t'))
    (h : ∀ s', s'.pool = p' → s'.producers[i]? = some t' → Must step (Alone (.producer i)) P s') :
    Must step (Alone (.producer i)) P s := by
  have hstep : step s (.producer i) =
      some { s with pool := p', producers := s.producers.set i t' } := by
    simp only [step, stepProducer, ht, hst, Option.map_some]
  refine .next ⟨.producer i, _, rfl, hstep⟩ ?_
  intro a s' ha hst'
  have hpc : t.pc ≠ .idle ∧ t.pc ≠ .signal := by
    constructor
    all_goals
      intro hpc
      rw [producerStep, hpc] at hst
      cases hst
  cases a with
  | producer j =>
    obtain ⟨⟩ := ha
    obtain rfl := Option.some.inj (hstep.symm.trans hst')
    exact h _ rfl (getElem?_set_of_some t' ht)
  | call j task =>
    obtain ⟨⟩ := ha
    simp [step, ht, hpc.1] at hst'
  | addSignal j woken =>
    obtain ⟨⟩ := ha
    simp [step, stepAddSignal, ht, hpc.2] at hst'
  | _ => cases ha

theorem frees_release (ht : s.producers[i]? = some t)
    (hpc : t.pc = .wait ∨ t.pc = .unlockPool) : Frees (.producer i) s := by
  have hst : ∃ t', producerStep i s.pool t = some (s.pool.release, t') := by
    rcases hpc with hpc | hpc <;> exact ⟨_, by rw [producerStep, hpc]⟩
  obtain ⟨t', hst⟩ := hst
  apply must_producer ht hst
  intro s' hp _
  exact .now (by rw [hp]; rfl)

theorem frees_signal (ht : s.producers[i]? = some t) (hpc : t.pc = .signal) :
    Frees (.producer i) s := by
  obtain ⟨woken, ws, hws⟩ := exists_signal s.workers
  have hstep : step s (.addSignal i woken) =
      some { s with workers := ws, producers := s.producers.set i (t.goto .unlockPool) } := by
    simp only [step, stepAddSignal, ht, hpc, if_true, hws, Option.map_some]
  refine .next ⟨.addSignal i woken, _, rfl, hstep⟩ ?_
  intro a s' ha hst'
  cases a with
  | addSignal j woken' =>
    obtain ⟨⟩ := ha
    simp only [step, stepAddSignal, ht, hpc, if_true, Option.map_eq_some_iff] at hst'
    obtain ⟨ws', -, rfl⟩ := hst'
    exact frees_release (getElem?_set_of_some _ ht) (.inr rfl)
  | producer j =>
    obtain ⟨⟩ := ha
    simp [step, stepProducer, ht, producerStep, hpc] at hst'
  | call j task =>
    obtain ⟨⟩ := ha
    simp [step, ht, hpc] at hst'
  | _ => cases ha

theorem frees_enqueue (hp : Sound s.pool) (ht : s.producers[i]? = some t)
    (hpc : t.pc = .enqueue) : Frees (.producer i) s := by
  obtain ⟨slot, hrear⟩ := hp.rear
  have hst : producerStep i s.pool t = some
      ({ s.pool with
          taskQueue := s.pool.taskQueue.set s.pool.queueRear.toNat t.task
          queueRear := (s.pool.queueRear + 1).tmod s.pool.queueMaxSize
          queueSize := s.pool.queueSize + 1 }, t.goto .signal) := by
    rw [producerStep, hpc, Threadpool.enqueue, hrear]
    rfl
  apply must_producer ht hst
  intro s₁ _ ht₁
  exact frees_signal ht₁ rfl

theorem frees_addChkShutdown (hp : Sound s.pool) (hs : s.pool.shutdown = false)
    (ht : s.producers[i]? = some t) (hpc : t.pc = .chkShutdown) : Frees (.producer i) s := by
  have hst : producerStep i s.pool t = some (s.pool, t.goto .enqueue) := by
    simp only [producerStep, hpc, hs, Bool.false_eq_true, if_false]
  apply must_producer ht hst
  intro s₁ hp₁ ht₁
  exact frees_enqueue (hp₁ ▸ hp) ht₁ rfl

/-- A producer gives `pool->lock` back. -/
theorem frees_producer (hp : Sound s.pool) (hs : s.pool.shutdown = false)
    (hok : ∀ t, s.producers[i]? = some t → ProducerOk s.pool t.pc) (h : Holds s (.producer i)) :
    Frees (.producer i) s := by
  obtain ⟨t, ht, hc⟩ := h
  cases hpc : t.pc with
  | wait | unlockPool => exact frees_release ht (by simp [hpc])
  | signal => exact frees_signal ht hpc
  | enqueue => exact frees_enqueue hp ht hpc
  | chkShutdown => exact frees_addChkShutdown hp hs ht hpc
  | shutUnlock =>
    have hno := hok t ht
    simp [hpc, ProducerOk] at hno
  | test =>
    have hst : producerStep i s.pool t = some (s.pool, t.goto
        (if s.pool.queueSize = s.pool.queueMaxSize ∧ s.pool.shutdown = false then .wait
          else .chkShutdown)) := by
      rw [producerStep, hpc]
    apply must_producer ht hst
    intro s₁ hp₁ ht₁
    by_cases hq : s.pool.queueSize = s.pool.queueMaxSize ∧ s.pool.shutdown = false
    · exact frees_release ht₁ (by simp [hq, Producer.goto])
    · exact frees_addChkShutdown (hp₁ ▸ hp) (hp₁ ▸ hs) ht₁ (by simp [hq, Producer.goto])
  | _ => simp [hpc, ProducerPc.crit] at hc

end

/-! ## The manager -/

section
variable {s : State} {p' : Threadpool} {m' : Manager} {P : State → Prop}

/-- The next step of the manager. -/
theorem must_manager (hst : managerStep s.pool s.manager = some (p', m'))
    (h : ∀ s', s'.pool = p' → s'.manager = m' → Must step (Alone .manager) P s') :
    Must step (Alone .manager) P s := by
  have hstep : step s .manager = some { s with pool := p', manager := m' } := by
    simp only [step, hst, Option.map_some]
  refine .next ⟨.manager, _, rfl, hstep⟩ ?_
  intro a s' ha hst'
  have hpc : s.manager.pc ≠ .growLoop ∧ s.manager.pc ≠ .signal := by
    constructor
    all_goals
      intro hpc
      rw [managerStep, hpc] at hst
      cases hst
  cases a with
  | manager =>
    obtain rfl := Option.some.inj (hstep.symm.trans hst')
    exact h _ rfl rfl
  | grow esrch => simp [step, stepGrow, hpc.1] at hst'
  | shrinkSignal woken => simp [step, stepShrinkSignal, hpc.2] at hst'
  | _ => cases ha

theorem frees_managerUnlock (hpc : s.manager.pc = .unlockPool ∨ s.manager.pc = .growUnlock ∨
    s.manager.pc = .shrinkUnlock) : Frees .manager s := by
  have hst : ∃ m', managerStep s.pool s.manager = some (s.pool.release, m') := by
    rcases hpc with hpc | hpc | hpc <;> exact ⟨_, by rw [managerStep, hpc]⟩
  obtain ⟨m', hst⟩ := hst
  apply must_manager hst
  intro s' hp _
  exact .now (by rw [hp]; rfl)

/-- A round of the growth loop can be run. -/
theorem exists_grow (hlen : s.pool.maxThrNum ≤ s.pool.threads.length)
    (hpc : s.manager.pc = .growLoop) : ∃ s', step s (.grow true) = some s' := by
  have hgrow : ∃ x, growStep (tidOf s.workers.length) true s.pool s.manager = some x := by
    unfold growStep
    split
    · rename_i ht
      simp only [growTest, Bool.and_eq_true, decide_eq_true_eq] at ht
      have hget := List.getElem?_eq_getElem (l := s.pool.threads) (i := s.manager.i) (by omega)
      simp [hget, isThreadAlive]
    · exact ⟨_, rfl⟩
  obtain ⟨x, hx⟩ := hgrow
  simp only [step, stepGrow, hpc, if_true, hx, Option.map_some]
  exact ⟨_, rfl⟩

/-- The growth loop ends: at most `n` slots are left to look at. -/
theorem frees_growLoop : ∀ (n : Nat) {s : State}, s.pool.maxThrNum ≤ s.pool.threads.length →
    s.pool.maxThrNum ≤ s.manager.i + n → s.manager.pc = .growLoop → Frees .manager s
  | n, s, hlen, hn, hpc => by
    obtain ⟨s', hs'⟩ := exists_grow hlen hpc
    refine .next ⟨.grow true, s', rfl, hs'⟩ ?_
    intro a s' ha hst'
    cases a with
    | grow esrch =>
      simp only [step, stepGrow, hpc, if_true, Option.map_eq_some_iff] at hst'
      obtain ⟨⟨p', m', created⟩, hg, rfl⟩ := hst'
      have hnext : growTest s.pool s.manager = true → ∃ k, n = k + 1 := by
        intro ht
        simp only [growTest, Bool.and_eq_true, decide_eq_true_eq] at ht
        exact Nat.exists_eq_succ_of_ne_zero (by omega)
      cases growStep_move hg with
      | create ht =>
        obtain ⟨n, rfl⟩ := hnext ht
        apply frees_growLoop n
        · simpa using hlen
        · simp only
          omega
        · exact hpc
      | skip ht =>
        obtain ⟨n, rfl⟩ := hnext ht
        apply frees_growLoop n
        · exact hlen
        · simp only
          omega
        · exact hpc
      | done => exact frees_managerUnlock (.inr (.inl rfl))
    | manager => simp [step, managerStep, hpc] at hst'
    | shrinkSignal woken => simp [step, stepShrinkSignal, hpc] at hst'
    | _ => cases ha

/-- The manager gives `pool->lock` back. -/
theorem frees_manager (hp : Sound s.pool) (h : Holds s .manager) : Frees .manager s := by
  cases hpc : s.manager.pc with
  | unlockPool | growUnlock | shrinkUnlock => exact frees_managerUnlock (by simp [hpc])
  | growLoop =>
    exact frees_growLoop s.pool.maxThrNum.toNat hp.threads (by omega) hpc
  | snapshot =>
    have hst : managerStep s.pool s.manager = some (s.pool, { s.manager with
        pc := .unlockPool, queueSize := s.pool.queueSize, liveThrNum := s.pool.liveThrNum }) := by
      rw [managerStep, hpc]
    apply must_manager hst
    intro s₁ _ hm₁
    exact frees_managerUnlock (by simp [hm₁])
  | setExit =>
    have hst : managerStep s.pool s.manager =
        some ({ s.pool with waitExitThrNum := defaultThreadVary },
          s.manager.goto .shrinkUnlock) := by
      rw [managerStep, hpc]
    apply must_manager hst
    intro s₁ _ hm₁
    exact frees_managerUnlock (by simp [hm₁, Manager.goto])
  | _ => simp [Holds, hpc, ManagerPc.crit] at h

/-- The manager gives `thread_counter` back. -/
theorem freesCounter_manager (h : Counts s .manager) : FreesCounter .manager s := by
  have hlast : ∀ {s : State}, s.manager.pc = .unlockBusy → FreesCounter .manager s := by
    intro s hpc
    have hst : managerStep s.pool s.manager =
        some (s.pool.releaseCounter, s.manager.goto .growTest) := by
      rw [managerStep, hpc]
    apply must_manager hst
    intro s' hp _
    exact .now (by rw [hp]; rfl)
  cases hpc : s.manager.pc with
  | unlockBusy => exact hlast hpc
  | snapshotBusy =>
    have hst : managerStep s.pool s.manager = some (s.pool, { s.manager with
        pc := .unlockBusy, busyThrNum := s.pool.busyThrNum }) := by
      rw [managerStep, hpc]
    apply must_manager hst
    intro s₁ _ hm₁
    exact hlast (by simp [hm₁])
  | _ => simp [Counts, hpc, ManagerPc.counting] at h

end

/-! ## Runs -/

theorem sound_of_run {c : Cfg} (hq : 1 ≤ c.queueMaxSize) {s : State}
    (h : Run step Free (threadpoolCreate c) s) (hs : s.pool.shutdown = false) : Sound s.pool := by
  have hslot : ∀ (l : List Task) (n m : Nat), l.length = m → 0 < m →
      ∃ task, l[((n % m : Nat) : Int).toNat]? = some task := by
    intro l n m hl hm
    exact ⟨_, List.getElem?_eq_getElem (by rw [Int.toNat_natCast, hl]; exact Nat.mod_lt _ hm)⟩
  obtain ⟨hist, hr⟩ : ∃ hist, Reach c (fun x a => Free x.1 a) (s, hist) :=
    h.lift Hist.empty
  have hi := queueInv_of_reach (c := c) (x := (s, hist)) hq (hr.mono fun _ _ _ => trivial) hs
  refine ⟨?_, ?_, ?_⟩
  · rw [hi.front]
    exact hslot _ _ _ hi.lap.length hi.toNat_pos
  · rw [hi.rear]
    exact hslot _ _ _ hi.lap.length hi.toNat_pos
  · have hlen : s.pool.threads.length = (threadpoolCreate c).pool.threads.length := by
      apply h.inv (P := fun s =>
        s.pool.threads.length = (threadpoolCreate c).pool.threads.length) rfl
      intro s a s' ih _ hst
      rw [(step_move hst).threads_length, ih]
    rw [hlen, (sameLimits_of_run h).maxThrNum]
    simp only [threadpoolCreate, createWorkers_length, List.length_replicate]
    omega

/-- **No mutex of the pool is kept.** Before `shutdown`, whenever a thread owns `pool->lock`, every
way in which it can go on, and it can, leads it to unlock it, without a step of any other thread;
and the same for `thread_counter`. So nobody who waits for a mutex waits forever, and there is
no deadlock between the two. -/
theorem released (c : Cfg) (hq : 1 ≤ c.queueMaxSize) (s : State)
    (h : Run step Free (threadpoolCreate c) s) (hs : s.pool.shutdown = false) (o : Owner) :
    (s.pool.lock = some o → Frees o s) ∧ (s.pool.threadCounter = some o → FreesCounter o s) := by
  have hp := sound_of_run hq h hs
  have ho := owned_of_run h hs
  constructor
  · intro hl
    have hin := ho.lock o hl
    cases o with
    | worker w => exact frees_worker hp hin
    | producer i => exact frees_producer hp hs (fun t ht => (lockInv_of_run h hs).producer i t ht) hin
    | manager => exact frees_manager hp hin
  · intro hc
    have hin := ho.counter o hc
    cases o with
    | worker w => exact freesCounter_worker hin
    | producer i => exact hin.elim
    | manager => exact freesCounter_manager hin

/-- The manager in its growth loop, with ten tasks waiting. -/
theorem released_growLoop : ∃ s, Run step Free (threadpoolCreate (demoCfg 1 3 10 1)) s ∧
    s.pool.lock = some .manager ∧ s.manager.pc = .growLoop ∧ Frees .manager s := by
  obtain ⟨s, hr, hs, hl, hpc⟩ := Run.exists_of_exec step
    (Sched.times 10 (Sched.add 0 ⟨1, 7⟩ none) ++ Sched.toGrowLoop)
    (threadpoolCreate (demoCfg 1 3 10 1))
    (fun s => s.pool.shutdown = false ∧ s.pool.lock = some .manager ∧ s.manager.pc = .growLoop)
    (by decide +kernel)
  exact ⟨s, hr, hl, hpc, (released (demoCfg 1 3 10 1) (by decide) s hr hs .manager).1 hl⟩

end Pool
