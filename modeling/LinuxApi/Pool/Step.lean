import LinuxApi.Pool.Defs

/-!
# Steps of the pool's threads

`workerStep`, `producerStep`, `managerStep` and `destroyerStep` are the next step of one thread of
`threadpool_thread`, `threadpool_add`, `adjust_thread` and `threadpool_destroy`: its effect on the
pool and on the thread's own state. `step` is a step of the whole program; it adds the effects on
other threads (wake-ups, `pthread_create`). A step that cannot be taken (a mutex that is not
free, a blocked or ended thread, a join of a running thread, an index outside an array) is
`none`.
-/

set_option autoImplicit false

namespace Pool

/-! ## Mutexes -/

/-- `pthread_mutex_lock(&pool->lock)` by `o`. -/
def Threadpool.acquire (p : Threadpool) (o : Owner) : Option Threadpool :=
  if p.lock = none then some { p with lock := some o } else none

/-- `pthread_mutex_unlock(&pool->lock)`: whoever calls it, the mutex is free afterwards. -/
def Threadpool.release (p : Threadpool) : Threadpool := { p with lock := none }

/-- `pthread_mutex_lock(&pool->thread_counter)` by `o`. -/
def Threadpool.acquireCounter (p : Threadpool) (o : Owner) : Option Threadpool :=
  if p.threadCounter = none then some { p with threadCounter := some o } else none

def Threadpool.releaseCounter (p : Threadpool) : Threadpool := { p with threadCounter := none }

/-! ## Workers -/

/-- The body of the `if` at 176–186. The flag says whether the worker retires. -/
def Threadpool.chkExit (p : Threadpool) : Threadpool × Bool :=
  if 0 < p.waitExitThrNum then
    if p.minThrNum < p.liveThrNum then
      ({ p with waitExitThrNum := p.waitExitThrNum - 1, liveThrNum := p.liveThrNum - 1 }, true)
    else ({ p with waitExitThrNum := p.waitExitThrNum - 1 }, false)
  else (p, false)

/-- 197–201: the task at `queue_front` is taken out. -/
def Threadpool.dequeue (p : Threadpool) : Option (Threadpool × Task) :=
  match p.taskQueue[p.queueFront.toNat]? with
  | some task =>
    some ({ p with
            queueFront := (p.queueFront + 1).tmod p.queueMaxSize
            queueSize := p.queueSize - 1 }, task)
  | none => none

def Worker.goto (t : Worker) (pc : WorkerPc) : Worker := { t with pc }

/-- The next step of worker `w`. -/
def workerStep (w : Nat) (p : Threadpool) (t : Worker) : Option (Threadpool × Worker) :=
  match t.pc with
  | .lockPool => (p.acquire (.worker w)).map (·, t.goto .test)
  | .test =>
    some (p, t.goto (if p.queueSize = 0 ∧ p.shutdown = false then .wait else .chkShutdown))
  | .wait => some (p.release, t.goto .asleep)
  | .asleep => none
  | .woken => (p.acquire (.worker w)).map (·, t.goto .chkExit)
  | .chkExit =>
    -- a worker that does not retire tests the loop condition again
    some (p.chkExit.1, t.goto (if p.chkExit.2 then .exitUnlock else .test))
  | .exitUnlock => some (p.release, t.goto .retired)
  | .retired => none
  | .chkShutdown => some (p, t.goto (if p.shutdown then .shutUnlock else .take))
  | .shutUnlock => some (p.release, t.goto .exited)
  | .exited => none
  | .take => p.dequeue.map fun x => (x.1, { pc := .broadcast, task := x.2 })
  | .broadcast => some (p, t.goto .unlockPool)
  | .unlockPool => some (p.release, t.goto .lockBusy)
  | .lockBusy => (p.acquireCounter (.worker w)).map (·, t.goto .incBusy)
  | .incBusy => some ({ p with busyThrNum := p.busyThrNum + 1 }, t.goto .unlockBusy)
  | .unlockBusy => some (p.releaseCounter, t.goto .callback)
  | .callback => some (p, t.goto .lockIdle)
  | .lockIdle => (p.acquireCounter (.worker w)).map (·, t.goto .decBusy)
  | .decBusy => some ({ p with busyThrNum := p.busyThrNum - 1 }, t.goto .unlockIdle)
  | .unlockIdle => some (p.releaseCounter, t.goto .lockPool)

/-! ## Producers -/

/-- The argument that 142–143 frees: what the slot at `queue_rear` holds, if it is not `NULL`. -/
def Threadpool.freedArg (p : Threadpool) : Option Nat :=
  match p.taskQueue[p.queueRear.toNat]? with
  | some slot => if slot.arg ≠ 0 then some slot.arg else none
  | none => none

/-- 142–150: the slot's old argument is freed, the task stored and the queue extended. -/
def Threadpool.enqueue (p : Threadpool) (task : Task) : Option Threadpool :=
  match p.taskQueue[p.queueRear.toNat]? with
  | some _ =>
    some { p with
           taskQueue := p.taskQueue.set p.queueRear.toNat task
           queueRear := (p.queueRear + 1).tmod p.queueMaxSize
           queueSize := p.queueSize + 1 }
  | none => none

def Producer.goto (t : Producer) (pc : ProducerPc) : Producer := { t with pc }

/-- The next step of the call that producer `i` is in; the signal is a step of `step`. -/
def producerStep (i : Nat) (p : Threadpool) (t : Producer) : Option (Threadpool × Producer) :=
  match t.pc with
  | .idle => none
  | .lockPool => (p.acquire (.producer i)).map (·, t.goto .test)
  | .test =>
    some (p, t.goto
      (if p.queueSize = p.queueMaxSize ∧ p.shutdown = false then .wait else .chkShutdown))
  | .wait => some (p.release, t.goto .asleep)
  | .asleep => none
  | .woken => (p.acquire (.producer i)).map (·, t.goto .test)
  | .chkShutdown => some (p, t.goto (if p.shutdown then .shutUnlock else .enqueue))
  -- no return after the unlock: 142–151 then run without the mutex, still as one step
  | .shutUnlock => some (p.release, t.goto .enqueue)
  | .enqueue => (p.enqueue t.task).map (·, t.goto .signal)
  | .signal => none
  | .unlockPool => some (p.release, { t with pc := .idle, ret := some 0 })

/-! ## The manager -/

def Manager.goto (m : Manager) (pc : ManagerPc) : Manager := { m with pc }

/-- The next step of `adjust_thread`; the body of the growth loop and the signals are steps of
`step`. -/
def managerStep (p : Threadpool) (m : Manager) : Option (Threadpool × Manager) :=
  match m.pc with
  | .loopTest => some (p, m.goto (if p.shutdown then .returned else .sleep))
  | .sleep => some (p, m.goto .lockPool)
  | .lockPool => (p.acquire .manager).map (·, m.goto .snapshot)
  | .snapshot =>
    some (p, { m with pc := .unlockPool, queueSize := p.queueSize, liveThrNum := p.liveThrNum })
  | .unlockPool => some (p.release, m.goto .lockBusy)
  | .lockBusy => (p.acquireCounter .manager).map (·, m.goto .snapshotBusy)
  | .snapshotBusy => some (p, { m with pc := .unlockBusy, busyThrNum := p.busyThrNum })
  | .unlockBusy => some (p.releaseCounter, m.goto .growTest)
  | .growTest =>
    some (p, m.goto
      (if minWaitTaskNum ≤ m.queueSize ∧ m.liveThrNum < p.maxThrNum then .growLock
       else .shrinkTest))
  | .growLock => (p.acquire .manager).map (·, { m with pc := .growLoop, i := 0, add := 0 })
  | .growLoop => none
  | .growUnlock => some (p.release, m.goto .shrinkTest)
  | .shrinkTest =>
    some (p, m.goto
      (if m.busyThrNum * 2 < m.liveThrNum ∧ p.minThrNum < m.liveThrNum then .shrinkLock
       else .loopTest))
  | .shrinkLock => (p.acquire .manager).map (·, m.goto .setExit)
  | .setExit => some ({ p with waitExitThrNum := defaultThreadVary }, m.goto .shrinkUnlock)
  | .shrinkUnlock => some (p.release, { m with pc := .signal, i := 0 })
  | .signal => none
  | .returned => none

/-- The test of the growth loop, 251–252. -/
def growTest (p : Threadpool) (m : Manager) : Bool :=
  (m.i : Int) < p.maxThrNum && m.add < defaultThreadVary && p.liveThrNum < p.maxThrNum

/-- `is_thread_alive(tid)`, where `esrch` says whether `pthread_kill(tid, 0)` is `ESRCH`. -/
def isThreadAlive (esrch : Bool) : Bool := !esrch

/-- One round of the growth loop. `newTid` is the id `pthread_create` would return; the flag says
whether it was called. -/
def growStep (newTid : Nat) (esrch : Bool) (p : Threadpool) (m : Manager) :
    Option (Threadpool × Manager × Bool) :=
  if growTest p m then
    match p.threads[m.i]? with
    | some tid =>
      if tid = 0 ∨ isThreadAlive esrch = false then
        some ({ p with threads := p.threads.set m.i newTid, liveThrNum := p.liveThrNum + 1 },
          { m with i := m.i + 1, add := m.add + 1 }, true)
      else some (p, { m with i := m.i + 1 }, false)
    | none => none
  else some (p, m.goto .growUnlock, false)

/-! ## `threadpool_destroy` -/

/-- A terminated thread. -/
def WorkerPc.dead : WorkerPc → Bool
  | .retired | .exited => true
  | _ => false

/-- `pthread_join(tid, NULL)` can return. -/
def joinable (ws : List Worker) (tid : Nat) : Bool :=
  match tid with
  | 0 => false
  | w + 1 => (ws[w]?).any (·.pc.dead)

/-- The next step of `threadpool_destroy`. -/
def destroyerStep (s : State) (d : Destroyer) : Option (Threadpool × Destroyer) :=
  match d.pc with
  | .idle => some (s.pool, { d with pc := .setShutdown })
  | .setShutdown => some ({ s.pool with shutdown := true }, { d with pc := .joinManager })
  | .joinManager =>
    if s.manager.pc = .returned then some (s.pool, { pc := .broadcastTest, i := 0 }) else none
  | .broadcastTest =>
    if (d.i : Int) < s.pool.liveThrNum then some (s.pool, { d with pc := .broadcast })
    else some (s.pool, { pc := .joinTest, i := 0 })
  | .broadcast => some (s.pool, { pc := .broadcastTest, i := d.i + 1 })
  | .joinTest =>
    some (s.pool, { d with pc := if (d.i : Int) < s.pool.liveThrNum then .join else .free })
  | .join =>
    match s.pool.threads[d.i]? with
    | some tid =>
      if joinable s.workers tid then some (s.pool, { pc := .joinTest, i := d.i + 1 }) else none
    | none => none
  | .free => some (s.pool, { d with pc := .returned })
  | .returned => none

/-! ## Wake-ups -/

def Worker.wake (t : Worker) : Worker := if t.pc = .asleep then t.goto .woken else t

def Producer.wake (t : Producer) : Producer := if t.pc = .asleep then t.goto .woken else t

/-- `pthread_cond_signal(&pool->queue_not_empty)`: it wakes one waiter, `woken`, if there is
one. -/
def signalNotEmpty (ws : List Worker) : Option Nat → Option (List Worker)
  | some w =>
    match ws[w]? with
    | some t => if t.pc = .asleep then some (ws.set w (t.goto .woken)) else none
    | none => none
  | none => if ws.all (·.pc ≠ .asleep) then some ws else none

/-! ## The program -/

/-- A step of the program: the next step of one thread, the start of a call of `threadpool_add`
or a spurious wake-up. Where the step leaves a choice to the environment, the action makes
it: the waiter a signal wakes, and what `pthread_kill` says of the thread in the slot that the
growth loop looks at. -/
inductive Act
  | worker (w : Nat)
  | spuriousWorker (w : Nat)
  | call (i : Nat) (task : Task)
  | producer (i : Nat)
  | addSignal (i : Nat) (woken : Option Nat)
  | spuriousProducer (i : Nat)
  | manager
  | grow (esrch : Bool)
  | shrinkSignal (woken : Option Nat)
  | destroy
deriving DecidableEq, Repr

def stepWorker (s : State) (w : Nat) : Option State :=
  match s.workers[w]? with
  | some t =>
    (workerStep w s.pool t).map fun x =>
      { s with
        pool := x.1
        workers := s.workers.set w x.2
        producers := if t.pc = .broadcast then s.producers.map Producer.wake else s.producers }
  | none => none

def stepProducer (s : State) (i : Nat) : Option State :=
  match s.producers[i]? with
  | some t =>
    (producerStep i s.pool t).map fun x =>
      { s with pool := x.1, producers := s.producers.set i x.2 }
  | none => none

def stepAddSignal (s : State) (i : Nat) (woken : Option Nat) : Option State :=
  match s.producers[i]? with
  | some t =>
    if t.pc = .signal then
      (signalNotEmpty s.workers woken).map fun ws =>
        { s with workers := ws, producers := s.producers.set i (t.goto .unlockPool) }
    else none
  | none => none

def stepGrow (s : State) (esrch : Bool) : Option State :=
  if s.manager.pc = .growLoop then
    (growStep (tidOf s.workers.length) esrch s.pool s.manager).map fun x =>
      { s with
        pool := x.1
        manager := x.2.1
        workers := if x.2.2 then s.workers ++ [newWorker] else s.workers }
  else none

def stepShrinkSignal (s : State) (woken : Option Nat) : Option State :=
  if s.manager.pc = .signal then
    if s.manager.i < defaultThreadVary then
      (signalNotEmpty s.workers woken).map fun ws =>
        { s with workers := ws, manager := { s.manager with i := s.manager.i + 1 } }
    else some { s with manager := s.manager.goto .loopTest }
  else none

def stepDestroy (s : State) : Option State :=
  (destroyerStep s s.destroyer).map fun x =>
    { s with
      pool := x.1
      destroyer := x.2
      workers := if s.destroyer.pc = .broadcast then s.workers.map Worker.wake else s.workers }

def step (s : State) : Act → Option State
  | .worker w => stepWorker s w
  | .spuriousWorker w =>
    match s.workers[w]? with
    | some t => if t.pc = .asleep then some { s with workers := s.workers.set w t.wake } else none
    | none => none
  | .call i task =>
    match s.producers[i]? with
    | some t =>
      if t.pc = .idle then
        some { s with producers := s.producers.set i { pc := .lockPool, task, ret := none } }
      else none
    | none => none
  | .producer i => stepProducer s i
  | .addSignal i woken => stepAddSignal s i woken
  | .spuriousProducer i =>
    match s.producers[i]? with
    | some t =>
      if t.pc = .asleep then some { s with producers := s.producers.set i t.wake } else none
    | none => none
  | .manager =>
    (managerStep s.pool s.manager).map fun x => { s with pool := x.1, manager := x.2 }
  | .grow esrch => stepGrow s esrch
  | .shrinkSignal woken => stepShrinkSignal s woken
  | .destroy => stepDestroy s

end Pool
