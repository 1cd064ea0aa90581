import LinuxApi.Lib.Threads
import LinuxApi.Pool.Step

/-!
# What one step of a thread can do

The inversion lemmas of the step functions: `WorkerMove`, `ProducerMove` and `ManagerMove` list
the moves of a thread with everything each can rely on and does (`workerStep_move`, …). From them,
once for each kind of thread: what a step does to the queue (`SameQueue`), to the thread table
(`SameThreads`) and to `pool->lock` (`MutexStep`).
-/

set_option autoImplicit false

namespace Pool

open Threads

theorem acquire_eq_some {p p' : Threadpool} {o : Owner} :
    p.acquire o = some p' ↔ p.lock = none ∧ { p with lock := some o } = p' := by
  unfold Threadpool.acquire
  split <;> simp_all

theorem acquireCounter_eq_some {p p' : Threadpool} {o : Owner} :
    p.acquireCounter o = some p' ↔
      p.threadCounter = none ∧ { p with threadCounter := some o } = p' := by
  unfold Threadpool.acquireCounter
  split <;> simp_all

/-! ## Workers -/

/-- The moves of worker `w`. -/
inductive WorkerMove (w : Nat) (p : Threadpool) (t : Worker) : Threadpool → Worker → Prop
  | lock : t.pc = .lockPool → p.lock = none →
      WorkerMove w p t { p with lock := some (.worker w) } (t.goto .test)
  | testEmpty : t.pc = .test → p.queueSize = 0 → p.shutdown = false →
      WorkerMove w p t p (t.goto .wait)
  | testPass : t.pc = .test → (p.queueSize = 0 → p.shutdown = true) →
      WorkerMove w p t p (t.goto .chkShutdown)
  | wait : t.pc = .wait → WorkerMove w p t p.release (t.goto .asleep)
  | relock : t.pc = .woken → p.lock = none →
      WorkerMove w p t { p with lock := some (.worker w) } (t.goto .chkExit)
  | stay : t.pc = .chkExit → p.waitExitThrNum ≤ 0 → WorkerMove w p t p (t.goto .test)
  | spare : t.pc = .chkExit → 0 < p.waitExitThrNum → p.liveThrNum ≤ p.minThrNum →
      WorkerMove w p t { p with waitExitThrNum := p.waitExitThrNum - 1 } (t.goto .test)
  | retire : t.pc = .chkExit → 0 < p.waitExitThrNum → p.minThrNum < p.liveThrNum →
      WorkerMove w p t { p with
        waitExitThrNum := p.waitExitThrNum - 1, liveThrNum := p.liveThrNum - 1 }
        (t.goto .exitUnlock)
  | retired : t.pc = .exitUnlock → WorkerMove w p t p.release (t.goto .retired)
  | seeShutdown : t.pc = .chkShutdown → p.shutdown = true →
      WorkerMove w p t p (t.goto .shutUnlock)
  | noShutdown : t.pc = .chkShutdown → p.shutdown = false → WorkerMove w p t p (t.goto .take)
  | exit : t.pc = .shutUnlock → WorkerMove w p t p.release (t.goto .exited)
  | take {task : Task} : t.pc = .take → p.taskQueue[p.queueFront.toNat]? = some task →
      WorkerMove w p t { p with
        queueFront := (p.queueFront + 1).tmod p.queueMaxSize, queueSize := p.queueSize - 1 }
        { pc := .broadcast, task }
  | broadcast : t.pc = .broadcast → WorkerMove w p t p (t.goto .unlockPool)
  | unlock : t.pc = .unlockPool → WorkerMove w p t p.release (t.goto .lockBusy)
  | lockBusy : t.pc = .lockBusy → p.threadCounter = none →
      WorkerMove w p t { p with threadCounter := some (.worker w) } (t.goto .incBusy)
  | incBusy : t.pc = .incBusy →
      WorkerMove w p t { p with busyThrNum := p.busyThrNum + 1 } (t.goto .unlockBusy)
  | unlockBusy : t.pc = .unlockBusy → WorkerMove w p t p.releaseCounter (t.goto .callback)
  | callback : t.pc = .callback → WorkerMove w p t p (t.goto .lockIdle)
  | lockIdle : t.pc = .lockIdle → p.threadCounter = none →
      WorkerMove w p t { p with threadCounter := some (.worker w) } (t.goto .decBusy)
  | decBusy : t.pc = .decBusy →
      WorkerMove w p t { p with busyThrNum := p.busyThrNum - 1 } (t.goto .unlockIdle)
  | unlockIdle : t.pc = .unlockIdle → WorkerMove w p t p.releaseCounter (t.goto .lockPool)

theorem chkExit_move {w : Nat} {p : Threadpool} {t : Worker} (hpc : t.pc = .chkExit) :
    WorkerMove w p t p.chkExit.1 (t.goto (if p.chkExit.2 then .exitUnlock else .test)) := by
  unfold Threadpool.chkExit
  split
  · rename_i h
    split
    · rename_i h'
      exact .retire hpc h h'
    · rename_i h'
      exact .spare hpc h (Int.not_lt.1 h')
  · rename_i h
    exact .stay hpc (Int.not_lt.1 h)

/-- The inversion lemma of `workerStep`. -/
theorem workerStep_move {w : Nat} {p p' : Threadpool} {t t' : Worker}
    (h : workerStep w p t = some (p', t')) : WorkerMove w p t p' t' := by
  cases hp : t.pc <;>
    simp only [workerStep, hp, Option.map_eq_some_iff, acquire_eq_some, acquireCounter_eq_some,
      Option.some.injEq, Prod.mk.injEq, reduceCtorEq] at h
  case lockPool => obtain ⟨_, ⟨hl, rfl⟩, rfl, rfl⟩ := h; exact .lock hp hl
  case test =>
    obtain ⟨rfl, rfl⟩ := h
    split
    · rename_i hc; exact .testEmpty hp hc.1 hc.2
    · rename_i hc; exact .testPass hp fun h0 => by simpa [h0] using hc
  case wait => obtain ⟨rfl, rfl⟩ := h; exact .wait hp
  case woken => obtain ⟨_, ⟨hl, rfl⟩, rfl, rfl⟩ := h; exact .relock hp hl
  case chkExit => obtain ⟨rfl, rfl⟩ := h; exact chkExit_move hp
  case exitUnlock => obtain ⟨rfl, rfl⟩ := h; exact .retired hp
  case chkShutdown =>
    obtain ⟨rfl, rfl⟩ := h
    cases hs : p.shutdown
    · exact .noShutdown hp hs
    · exact .seeShutdown hp hs
  case shutUnlock => obtain ⟨rfl, rfl⟩ := h; exact .exit hp
  case take =>
    obtain ⟨⟨_, task⟩, hd, rfl, rfl⟩ := h
    unfold Threadpool.dequeue at hd
    split at hd
    · rename_i hq; cases hd; exact .take hp hq
    · cases hd
  case broadcast => obtain ⟨rfl, rfl⟩ := h; exact .broadcast hp
  case unlockPool => obtain ⟨rfl, rfl⟩ := h; exact .unlock hp
  case lockBusy => obtain ⟨_, ⟨hl, rfl⟩, rfl, rfl⟩ := h; exact .lockBusy hp hl
  case incBusy => obtain ⟨rfl, rfl⟩ := h; exact .incBusy hp
  case unlockBusy => obtain ⟨rfl, rfl⟩ := h; exact .unlockBusy hp
  case callback => obtain ⟨rfl, rfl⟩ := h; exact .callback hp
  case lockIdle => obtain ⟨_, ⟨hl, rfl⟩, rfl, rfl⟩ := h; exact .lockIdle hp hl
  case decBusy => obtain ⟨rfl, rfl⟩ := h; exact .decBusy hp
  case unlockIdle => obtain ⟨rfl, rfl⟩ := h; exact .unlockIdle hp

/-! ## Producers -/

/-- The moves of producer `i` inside a call. -/
inductive ProducerMove (i : Nat) (p : Threadpool) (t : Producer) : Threadpool → Producer → Prop
  | lock : t.pc = .lockPool ∨ t.pc = .woken → p.lock = none →
      ProducerMove i p t { p with lock := some (.producer i) } (t.goto .test)
  | testFull : t.pc = .test → p.queueSize = p.queueMaxSize → p.shutdown = false →
      ProducerMove i p t p (t.goto .wait)
  | testPass : t.pc = .test → (p.queueSize = p.queueMaxSize → p.shutdown = true) →
      ProducerMove i p t p (t.goto .chkShutdown)
  | wait : t.pc = .wait → ProducerMove i p t p.release (t.goto .asleep)
  | seeShutdown : t.pc = .chkShutdown → p.shutdown = true →
      ProducerMove i p t p (t.goto .shutUnlock)
  | noShutdown : t.pc = .chkShutdown → p.shutdown = false →
      ProducerMove i p t p (t.goto .enqueue)
  | shutUnlock : t.pc = .shutUnlock → ProducerMove i p t p.release (t.goto .enqueue)
  | enqueue : t.pc = .enqueue → p.queueRear.toNat < p.taskQueue.length →
      ProducerMove i p t { p with
        taskQueue := p.taskQueue.set p.queueRear.toNat t.task
        queueRear := (p.queueRear + 1).tmod p.queueMaxSize
        queueSize := p.queueSize + 1 } (t.goto .signal)
  | unlock : t.pc = .unlockPool →
      ProducerMove i p t p.release { t with pc := .idle, ret := some 0 }

/-- The inversion lemma of `producerStep`. -/
theorem producerStep_move {i : Nat} {p p' : Threadpool} {t t' : Producer}
    (h : producerStep i p t = some (p', t')) : ProducerMove i p t p' t' := by
  cases hp : t.pc <;>
    simp only [producerStep, hp, Option.map_eq_some_iff, acquire_eq_some, Option.some.injEq,
      Prod.mk.injEq, reduceCtorEq] at h
  case lockPool => obtain ⟨_, ⟨hl, rfl⟩, rfl, rfl⟩ := h; exact .lock (.inl hp) hl
  case test =>
    obtain ⟨rfl, rfl⟩ := h
    split
    · rename_i hc; exact .testFull hp hc.1 hc.2
    · rename_i hc; exact .testPass hp fun h0 => by simpa [h0] using hc
  case wait => obtain ⟨rfl, rfl⟩ := h; exact .wait hp
  case woken => obtain ⟨_, ⟨hl, rfl⟩, rfl, rfl⟩ := h; exact .lock (.inr hp) hl
  case chkShutdown =>
    obtain ⟨rfl, rfl⟩ := h
    cases hs : p.shutdown
    · exact .noShutdown hp hs
    · exact .seeShutdown hp hs
  case shutUnlock => obtain ⟨rfl, rfl⟩ := h; exact .shutUnlock hp
  case enqueue =>
    obtain ⟨_, he, rfl, rfl⟩ := h
    unfold Threadpool.enqueue at he
    split at he
    · rename_i hq
      cases he
      exact .enqueue hp (List.getElem?_eq_some_iff.1 hq).1
    · cases he
  case unlockPool => obtain ⟨rfl, rfl⟩ := h; exact .unlock hp

/-! ## The manager -/

/-- The moves of the manager outside the bodies of its two loops. -/
inductive ManagerMove (p : Threadpool) (m : Manager) : Threadpool → Manager → Prop
  | stop : m.pc = .loopTest → p.shutdown = true → ManagerMove p m p (m.goto .returned)
  | loop : m.pc = .loopTest → p.shutdown = false → ManagerMove p m p (m.goto .sleep)
  | sleep : m.pc = .sleep → ManagerMove p m p (m.goto .lockPool)
  | lock : m.pc = .lockPool → p.lock = none →
      ManagerMove p m { p with lock := some .manager } (m.goto .snapshot)
  | snapshot : m.pc = .snapshot →
      ManagerMove p m p
        { m with pc := .unlockPool, queueSize := p.queueSize, liveThrNum := p.liveThrNum }
  | unlock : m.pc = .unlockPool → ManagerMove p m p.release (m.goto .lockBusy)
  | lockBusy : m.pc = .lockBusy → p.threadCounter = none →
      ManagerMove p m { p with threadCounter := some .manager } (m.goto .snapshotBusy)
  | snapshotBusy : m.pc = .snapshotBusy →
      ManagerMove p m p { m with pc := .unlockBusy, busyThrNum := p.busyThrNum }
  | unlockBusy : m.pc = .unlockBusy → ManagerMove p m p.releaseCounter (m.goto .growTest)
  | grow : m.pc = .growTest → minWaitTaskNum ≤ m.queueSize → m.liveThrNum < p.maxThrNum →
      ManagerMove p m p (m.goto .growLock)
  | noGrow : m.pc = .growTest → (minWaitTaskNum ≤ m.queueSize → p.maxThrNum ≤ m.liveThrNum) →
      ManagerMove p m p (m.goto .shrinkTest)
  | growLock : m.pc = .growLock → p.lock = none →
      ManagerMove p m { p with lock := some .manager } { m with pc := .growLoop, i := 0, add := 0 }
  | growUnlock : m.pc = .growUnlock → ManagerMove p m p.release (m.goto .shrinkTest)
  | shrink : m.pc = .shrinkTest → m.busyThrNum * 2 < m.liveThrNum →
      p.minThrNum < m.liveThrNum → ManagerMove p m p (m.goto .shrinkLock)
  | noShrink : m.pc = .shrinkTest →
      (m.busyThrNum * 2 < m.liveThrNum → m.liveThrNum ≤ p.minThrNum) →
      ManagerMove p m p (m.goto .loopTest)
  | shrinkLock : m.pc = .shrinkLock → p.lock = none →
      ManagerMove p m { p with lock := some .manager } (m.goto .setExit)
  | setExit : m.pc = .setExit →
      ManagerMove p m { p with waitExitThrNum := defaultThreadVary } (m.goto .shrinkUnlock)
  | shrinkUnlock : m.pc = .shrinkUnlock →
      ManagerMove p m p.release { m with pc := .signal, i := 0 }

/-- The inversion lemma of `managerStep`. -/
theorem managerStep_move {p p' : Threadpool} {m m' : Manager}
    (h : managerStep p m = some (p', m')) : ManagerMove p m p' m' := by
  cases hp : m.pc <;>
    simp only [managerStep, hp, Option.map_eq_some_iff, acquire_eq_some, acquireCounter_eq_some,
      Option.some.injEq, Prod.mk.injEq, reduceCtorEq] at h
  case loopTest =>
    obtain ⟨rfl, rfl⟩ := h
    cases hs : p.shutdown
    · exact .loop hp hs
    · exact .stop hp hs
  case sleep => obtain ⟨rfl, rfl⟩ := h; exact .sleep hp
  case lockPool => obtain ⟨_, ⟨hl, rfl⟩, rfl, rfl⟩ := h; exact .lock hp hl
  case snapshot => obtain ⟨rfl, rfl⟩ := h; exact .snapshot hp
  case unlockPool => obtain ⟨rfl, rfl⟩ := h; exact .unlock hp
  case lockBusy => obtain ⟨_, ⟨hl, rfl⟩, rfl, rfl⟩ := h; exact .lockBusy hp hl
  case snapshotBusy => obtain ⟨rfl, rfl⟩ := h; exact .snapshotBusy hp
  case unlockBusy => obtain ⟨rfl, rfl⟩ := h; exact .unlockBusy hp
  case growTest =>
    obtain ⟨rfl, rfl⟩ := h
    split
    · rename_i hc; exact .grow hp hc.1 hc.2
    · rename_i hc; exact .noGrow hp fun h => Int.not_lt.1 fun h' => hc ⟨h, h'⟩
  case growLock => obtain ⟨_, ⟨hl, rfl⟩, rfl, rfl⟩ := h; exact .growLock hp hl
  case growUnlock => obtain ⟨rfl, rfl⟩ := h; exact .growUnlock hp
  case shrinkTest =>
    obtain ⟨rfl, rfl⟩ := h
    split
    · rename_i hc; exact .shrink hp hc.1 hc.2
    · rename_i hc; exact .noShrink hp fun h => Int.not_lt.1 fun h' => hc ⟨h, h'⟩
  case shrinkLock => obtain ⟨_, ⟨hl, rfl⟩, rfl, rfl⟩ := h; exact .shrinkLock hp hl
  case setExit => obtain ⟨rfl, rfl⟩ := h; exact .setExit hp
  case shrinkUnlock => obtain ⟨rfl, rfl⟩ := h; exact .shrinkUnlock hp

/-- The rounds of the growth loop. -/
inductive GrowMove (newTid : Nat) (esrch : Bool) (p : Threadpool) (m : Manager) :
    Threadpool → Manager → Bool → Prop
  | create {tid : Nat} : growTest p m = true → p.threads[m.i]? = some tid →
      (tid ≠ 0 → esrch = true) →
      GrowMove newTid esrch p m
        { p with threads := p.threads.set m.i newTid, liveThrNum := p.liveThrNum + 1 }
        { m with i := m.i + 1, add := m.add + 1 } true
  | skip {tid : Nat} : growTest p m = true → p.threads[m.i]? = some tid → tid ≠ 0 →
      esrch = false → GrowMove newTid esrch p m p { m with i := m.i + 1 } false
  | done : growTest p m = false → GrowMove newTid esrch p m p (m.goto .growUnlock) false

/-- The inversion lemma of `growStep`. -/
theorem growStep_move {newTid : Nat} {esrch created : Bool} {p p' : Threadpool} {m m' : Manager}
    (h : growStep newTid esrch p m = some (p', m', created)) :
    GrowMove newTid esrch p m p' m' created := by
  unfold growStep at h
  split at h
  · rename_i hg
    split at h
    · rename_i tid ht
      split at h
      · rename_i hc
        cases h
        exact .create hg ht fun h0 => by simpa [h0, isThreadAlive] using hc
      · rename_i hc
        cases h
        simp only [isThreadAlive, not_or, Bool.not_eq_false', Bool.not_eq_true] at hc
        exact .skip hg ht hc.1 hc.2
    · cases h
  · rename_i hg
    cases h
    exact .done (by simpa using hg)

/-! ## The caller of `threadpool_destroy` -/

/-- The moves of `threadpool_destroy`. -/
inductive DestroyerMove (s : State) (d : Destroyer) : Threadpool → Destroyer → Prop
  | call : d.pc = .idle → DestroyerMove s d s.pool { d with pc := .setShutdown }
  | setShutdown : d.pc = .setShutdown →
      DestroyerMove s d { s.pool with shutdown := true } { d with pc := .joinManager }
  | joinManager : d.pc = .joinManager → s.manager.pc = .returned →
      DestroyerMove s d s.pool { pc := .broadcastTest, i := 0 }
  | broadcastTest : d.pc = .broadcastTest → (d.i : Int) < s.pool.liveThrNum →
      DestroyerMove s d s.pool { d with pc := .broadcast }
  | broadcastDone : d.pc = .broadcastTest → s.pool.liveThrNum ≤ (d.i : Int) →
      DestroyerMove s d s.pool { pc := .joinTest, i := 0 }
  | broadcast : d.pc = .broadcast →
      DestroyerMove s d s.pool { pc := .broadcastTest, i := d.i + 1 }
  | joinTest : d.pc = .joinTest → (d.i : Int) < s.pool.liveThrNum →
      DestroyerMove s d s.pool { d with pc := .join }
  | joinDone : d.pc = .joinTest → s.pool.liveThrNum ≤ (d.i : Int) →
      DestroyerMove s d s.pool { d with pc := .free }
  | join {tid : Nat} : d.pc = .join → s.pool.threads[d.i]? = some tid →
      joinable s.workers tid = true → DestroyerMove s d s.pool { pc := .joinTest, i := d.i + 1 }
  | free : d.pc = .free → DestroyerMove s d s.pool { d with pc := .returned }

/-- The inversion lemma of `destroyerStep`. -/
theorem destroyerStep_move {s : State} {d d' : Destroyer} {p' : Threadpool}
    (h : destroyerStep s d = some (p', d')) : DestroyerMove s d p' d' := by
  cases hp : d.pc <;> simp only [destroyerStep, hp, reduceCtorEq] at h
  case idle => cases h; exact .call hp
  case setShutdown => cases h; exact .setShutdown hp
  case joinManager =>
    split at h
    · rename_i hm; cases h; exact .joinManager hp hm
    · cases h
  case broadcastTest =>
    split at h
    · rename_i hl; cases h; exact .broadcastTest hp hl
    · rename_i hl; cases h; exact .broadcastDone hp (Int.not_lt.1 hl)
  case broadcast => cases h; exact .broadcast hp
  case joinTest =>
    cases h
    split
    · rename_i hl; exact .joinTest hp hl
    · rename_i hl; exact .joinDone hp (Int.not_lt.1 hl)
  case join =>
    split at h
    · rename_i tid ht
      split at h
      · rename_i hj; cases h; exact .join hp ht hj
      · cases h
    · cases h
  case free => cases h; exact .free hp

/-! ## Steps of the program -/

/-- What a signal on `queue_not_empty` does: it wakes one blocked worker, or there is none. -/
inductive Signalled (ws : List Worker) : List Worker → Prop
  | woken {w : Nat} {t : Worker} : ws[w]? = some t → t.pc = .asleep →
      Signalled ws (ws.set w (t.goto .woken))
  | noWaiter : (∀ t ∈ ws, t.pc ≠ .asleep) → Signalled ws ws

theorem signalNotEmpty_signalled {ws ws' : List Worker} {woken : Option Nat}
    (h : signalNotEmpty ws woken = some ws') : Signalled ws ws' := by
  unfold signalNotEmpty at h
  split at h
  · split at h
    · rename_i t ht
      split at h
      · rename_i hpc; cases h; exact .woken ht hpc
      · cases h
    · cases h
  · split at h
    · rename_i ha; cases h; exact .noWaiter (by simpa using ha)
    · cases h

/-- A signal can always be sent: some waiter is woken, or there is none. -/
theorem exists_signal (ws : List Worker) : ∃ woken ws', signalNotEmpty ws woken = some ws' := by
  by_cases h : ws.all (·.pc ≠ .asleep) = true
  · exact ⟨none, ws, by rw [signalNotEmpty, if_pos h]⟩
  · simp only [List.all_eq_true, decide_eq_true_eq, not_forall, ne_eq, Decidable.not_not] at h
    obtain ⟨t, ht, hpc⟩ := h
    obtain ⟨w, hw⟩ := List.mem_iff_getElem?.1 ht
    exact ⟨some w, ws.set w (t.goto .woken), by simp only [signalNotEmpty, hw, hpc, if_true]⟩

/-- The steps of the program. -/
inductive StepMove (s : State) : Act → State → Prop
  | worker {w : Nat} {t t' : Worker} {p' : Threadpool} : s.workers[w]? = some t →
      WorkerMove w s.pool t p' t' →
      StepMove s (.worker w) { s with
        pool := p'
        workers := s.workers.set w t'
        producers := if t.pc = .broadcast then s.producers.map Producer.wake else s.producers }
  | spuriousWorker {w : Nat} {t : Worker} : s.workers[w]? = some t → t.pc = .asleep →
      StepMove s (.spuriousWorker w) { s with workers := s.workers.set w (t.goto .woken) }
  | call {i : Nat} {t : Producer} {task : Task} : s.producers[i]? = some t → t.pc = .idle →
      StepMove s (.call i task)
        { s with producers := s.producers.set i { pc := .lockPool, task, ret := none } }
  | producer {i : Nat} {t t' : Producer} {p' : Threadpool} : s.producers[i]? = some t →
      ProducerMove i s.pool t p' t' →
      StepMove s (.producer i) { s with pool := p', producers := s.producers.set i t' }
  | addSignal {i : Nat} {t : Producer} {woken : Option Nat} {ws : List Worker} :
      s.producers[i]? = some t → t.pc = .signal → Signalled s.workers ws →
      StepMove s (.addSignal i woken)
        { s with workers := ws, producers := s.producers.set i (t.goto .unlockPool) }
  | spuriousProducer {i : Nat} {t : Producer} : s.producers[i]? = some t → t.pc = .asleep →
      StepMove s (.spuriousProducer i)
        { s with producers := s.producers.set i (t.goto .woken) }
  | manager {p' : Threadpool} {m' : Manager} : ManagerMove s.pool s.manager p' m' →
      StepMove s .manager { s with pool := p', manager := m' }
  | grow {esrch created : Bool} {p' : Threadpool} {m' : Manager} : s.manager.pc = .growLoop →
      GrowMove (tidOf s.workers.length) esrch s.pool s.manager p' m' created →
      StepMove s (.grow esrch) { s with
        pool := p'
        manager := m'
        workers := if created then s.workers ++ [newWorker] else s.workers }
  | shrinkSignal {woken : Option Nat} {ws : List Worker} : s.manager.pc = .signal →
      s.manager.i < defaultThreadVary → Signalled s.workers ws →
      StepMove s (.shrinkSignal woken)
        { s with workers := ws, manager := { s.manager with i := s.manager.i + 1 } }
  | shrinkDone {woken : Option Nat} : s.manager.pc = .signal →
      defaultThreadVary ≤ s.manager.i →
      StepMove s (.shrinkSignal woken) { s with manager := s.manager.goto .loopTest }
  | destroy {p' : Threadpool} {d' : Destroyer} : DestroyerMove s s.destroyer p' d' →
      StepMove s .destroy { s with
        pool := p'
        destroyer := d'
        workers := if s.destroyer.pc = .broadcast then s.workers.map Worker.wake else s.workers }

theorem stepWorker_move {s s' : State} {w : Nat} (h : stepWorker s w = some s') :
    StepMove s (.worker w) s' := by
  unfold stepWorker at h
  split at h
  · rename_i t ht
    obtain ⟨⟨p', t'⟩, hw, rfl⟩ := Option.map_eq_some_iff.1 h
    exact .worker ht (workerStep_move hw)
  · cases h

theorem stepProducer_move {s s' : State} {i : Nat} (h : stepProducer s i = some s') :
    StepMove s (.producer i) s' := by
  unfold stepProducer at h
  split at h
  · rename_i t ht
    obtain ⟨⟨p', t'⟩, hw, rfl⟩ := Option.map_eq_some_iff.1 h
    exact .producer ht (producerStep_move hw)
  · cases h

theorem stepAddSignal_move {s s' : State} {i : Nat} {woken : Option Nat}
    (h : stepAddSignal s i woken = some s') : StepMove s (.addSignal i woken) s' := by
  unfold stepAddSignal at h
  split at h
  · rename_i t ht
    split at h
    · rename_i hpc
      obtain ⟨ws, hw, rfl⟩ := Option.map_eq_some_iff.1 h
      exact .addSignal ht hpc (signalNotEmpty_signalled hw)
    · cases h
  · cases h

theorem stepGrow_move {s s' : State} {esrch : Bool} (h : stepGrow s esrch = some s') :
    StepMove s (.grow esrch) s' := by
  unfold stepGrow at h
  split at h
  · rename_i hpc
    obtain ⟨⟨p', m', created⟩, hg, rfl⟩ := Option.map_eq_some_iff.1 h
    exact .grow hpc (growStep_move hg)
  · cases h

theorem stepShrinkSignal_move {s s' : State} {woken : Option Nat}
    (h : stepShrinkSignal s woken = some s') : StepMove s (.shrinkSignal woken) s' := by
  unfold stepShrinkSignal at h
  split at h
  · rename_i hpc
    split at h
    · rename_i hi
      obtain ⟨ws, hw, rfl⟩ := Option.map_eq_some_iff.1 h
      exact .shrinkSignal hpc hi (signalNotEmpty_signalled hw)
    · rename_i hi
      cases h
      exact .shrinkDone hpc (Nat.not_lt.1 hi)
  · cases h

theorem stepDestroy_move {s s' : State} (h : stepDestroy s = some s') :
    StepMove s .destroy s' := by
  obtain ⟨⟨p', d'⟩, hd, rfl⟩ := Option.map_eq_some_iff.1 h
  exact .destroy (destroyerStep_move hd)

/-- The inversion lemma of `step`. -/
theorem step_move {s s' : State} {a : Act} (h : step s a = some s') : StepMove s a s' := by
  cases a with
  | worker w => exact stepWorker_move h
  | spuriousWorker w =>
    simp only [step] at h
    split at h
    · rename_i t ht
      split at h
      · rename_i hpc
        cases h
        rw [Worker.wake, if_pos hpc]
        exact .spuriousWorker ht hpc
      · cases h
    · cases h
  | call i task =>
    simp only [step] at h
    split at h
    · rename_i t ht
      split at h
      · rename_i hpc; cases h; exact .call ht hpc
      · cases h
    · cases h
  | producer i => exact stepProducer_move h
  | addSignal i woken => exact stepAddSignal_move h
  | spuriousProducer i =>
    simp only [step] at h
    split at h
    · rename_i t ht
      split at h
      · rename_i hpc
        cases h
        rw [Producer.wake, if_pos hpc]
        exact .spuriousProducer ht hpc
      · cases h
    · cases h
  | manager =>
    obtain ⟨⟨p', m'⟩, hm, rfl⟩ := Option.map_eq_some_iff.1 h
    exact .manager (managerStep_move hm)
  | grow esrch => exact stepGrow_move h
  | shrinkSignal woken => exact stepShrinkSignal_move h
  | destroy => exact stepDestroy_move h

end Pool
