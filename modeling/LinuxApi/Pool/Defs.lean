import LinuxApi.Lib.Transition

/-!
# The thread pool (`thread_pool/threadpool.c`)

Data of the pool and of the threads that work on it. A thread is its program counter and its
local variables; a program counter names the next call into `pthread`, the next test or the next
block of assignments of the source (line numbers are those of `threadpool.c`). A block of
assignments that the source runs with `pool->lock` held is one step.

Pointers are numbers, `0` is `NULL`. The worker with index `w` in `State.workers` has the
thread id `tidOf w`, which is never `0` and never reused.
-/

set_option autoImplicit false

namespace Pool

/-- `DEFAULT_THREAD_VARY` -/
def defaultThreadVary : Nat := 10

/-- `MIN_WAIT_TASK_NUM` -/
def minWaitTaskNum : Int := 10

/-- `threadpool_task_t` -/
structure Task where
  function : Nat
  arg : Nat
deriving DecidableEq, Repr

/-- A thread that can own a mutex. -/
inductive Owner
  | worker (w : Nat)
  | producer (i : Nat)
  | manager
deriving DecidableEq, Repr

/-- `struct threadpool_t`. The mutexes are their owners; the threads blocked on the condition
variables are those whose program counter is `asleep`. -/
structure Threadpool where
  lock : Option Owner
  threadCounter : Option Owner
  threads : List Nat
  taskQueue : List Task
  minThrNum : Int
  maxThrNum : Int
  liveThrNum : Int
  busyThrNum : Int
  waitExitThrNum : Int
  queueFront : Int
  queueRear : Int
  queueSize : Int
  queueMaxSize : Int
  shutdown : Bool
deriving DecidableEq, Repr

/-- Thread id of the worker with index `w`. -/
def tidOf (w : Nat) : Nat := w + 1

/-! ## Threads -/

/-- Where a worker is in `threadpool_thread`. -/
inductive WorkerPc
  | lockPool      -- 168
  | test          -- 171: the loop test
  | wait          -- 173: about to call `pthread_cond_wait(queue_not_empty)`
  | asleep        -- 173: blocked, no wake-up pending
  | woken         -- 173: woken, has to take `pool->lock` again
  | chkExit       -- 176–182
  | exitUnlock    -- 183
  | retired       -- 184: ended through the `wait_exit_thr_num` branch
  | chkShutdown   -- 190
  | shutUnlock    -- 191
  | exited        -- 193: ended by shutdown
  | take          -- 197–201
  | broadcast     -- 204
  | unlockPool    -- 207
  | lockBusy      -- 211
  | incBusy       -- 212
  | unlockBusy    -- 213
  | callback      -- 214: in the callback
  | lockIdle      -- 219
  | decBusy       -- 220
  | unlockIdle    -- 221
deriving DecidableEq, Repr

structure Worker where
  pc : WorkerPc
  task : Task
deriving DecidableEq, Repr

/-- Where a caller is in `threadpool_add`. -/
inductive ProducerPc
  | idle          -- not in a call
  | lockPool      -- 131
  | test          -- 134: the loop test
  | wait          -- 135: about to call `pthread_cond_wait(queue_not_full)`
  | asleep        -- 135: blocked, no wake-up pending
  | woken         -- 135: woken, has to take `pool->lock` again
  | chkShutdown   -- 137
  | shutUnlock    -- 138: the function goes on at 142 after it
  | enqueue       -- 142–150
  | signal        -- 153
  | unlockPool    -- 154
deriving DecidableEq, Repr

/-- A thread that calls `threadpool_add`; `ret` is what its last call returned. -/
structure Producer where
  pc : ProducerPc
  task : Task
  ret : Option Int
deriving DecidableEq, Repr

/-- Where the manager is in `adjust_thread`. -/
inductive ManagerPc
  | loopTest      -- 232
  | sleep         -- 234
  | lockPool      -- 236
  | snapshot      -- 237–238
  | unlockPool    -- 239
  | lockBusy      -- 241
  | snapshotBusy  -- 242
  | unlockBusy    -- 243
  | growTest      -- 246
  | growLock      -- 247–248
  | growLoop      -- 251–258: loop test and body, with local `i` and `add`
  | growUnlock    -- 260
  | shrinkTest    -- 264
  | shrinkLock    -- 267
  | setExit       -- 268
  | shrinkUnlock  -- 269
  | signal        -- 271–274, with local `i`
  | returned      -- 278
deriving DecidableEq, Repr

structure Manager where
  pc : ManagerPc
  queueSize : Int
  liveThrNum : Int
  busyThrNum : Int
  i : Nat
  add : Nat
deriving DecidableEq, Repr

/-- Where the caller of `threadpool_destroy` is. -/
inductive DestroyerPc
  | idle          -- not called yet
  | setShutdown   -- 287
  | joinManager   -- 290
  | broadcastTest -- 292: the loop test
  | broadcast     -- 294
  | joinTest      -- 296: the loop test
  | join          -- 297
  | free          -- 299
  | returned      -- 301
deriving DecidableEq, Repr

structure Destroyer where
  pc : DestroyerPc
  i : Nat
deriving DecidableEq, Repr

/-- The pool, every worker ever created, the callers of `threadpool_add`, the manager and the
caller of `threadpool_destroy`. -/
structure State where
  pool : Threadpool
  workers : List Worker
  producers : List Producer
  manager : Manager
  destroyer : Destroyer
deriving DecidableEq, Repr

/-! ## `threadpool_create` -/

/-- A fresh worker: `pthread_create(…, threadpool_thread, pool)`. -/
def newWorker : Worker := ⟨.lockPool, ⟨0, 0⟩⟩

/-- The arguments of `threadpool_create`, the number of threads that call `threadpool_add`, and
what `malloc` left in the memory that `threadpool_create` does not set: the task slots and
`wait_exit_thr_num`. -/
structure Cfg where
  minThrNum : Int
  maxThrNum : Int
  queueMaxSize : Int
  producers : Nat
  junkSlot : Nat → Task
  junkWaitExit : Int

/-- The loop at 113–116: the ids of the first `n` workers go into the first `n` slots. -/
def createWorkers : Nat → List Nat → List Nat
  | 0, threads => threads
  | n + 1, threads => (createWorkers n threads).set n (tidOf n)

/-- The state in which `threadpool_create` returns, all allocations having succeeded. Steps that
the new threads take before it returns are steps from this state too: creating a thread
commutes with the steps of those created before it. -/
def threadpoolCreate (c : Cfg) : State where
  pool :=
    { lock := none
      threadCounter := none
      threads := createWorkers c.minThrNum.toNat (List.replicate c.maxThrNum.toNat 0)
      taskQueue := (List.range c.queueMaxSize.toNat).map c.junkSlot
      minThrNum := c.minThrNum
      maxThrNum := c.maxThrNum
      liveThrNum := c.minThrNum
      busyThrNum := 0
      waitExitThrNum := c.junkWaitExit
      queueFront := 0
      queueRear := 0
      queueSize := 0
      queueMaxSize := c.queueMaxSize
      shutdown := false }
  workers := List.replicate c.minThrNum.toNat newWorker
  producers := List.replicate c.producers ⟨.idle, ⟨0, 0⟩, none⟩
  manager := ⟨.loopTest, 0, 0, 0, 0, 0⟩
  destroyer := ⟨.idle, 0⟩

end Pool
