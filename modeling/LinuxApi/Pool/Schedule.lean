import LinuxApi.Pool.Hist

/-!
# Schedules

Pieces of schedules from which concrete runs of the pool are put together: a whole call of
`threadpool_add`, a worker that takes a task, runs it or goes to sleep, a pass of the manager.
-/

set_option autoImplicit false

namespace Pool

/-- A pool with zeroed memory. -/
def demoCfg (minThrNum maxThrNum queueMaxSize : Int) (producers : Nat) : Cfg where
  minThrNum
  maxThrNum
  queueMaxSize
  producers
  junkSlot _ := ⟨0, 0⟩
  junkWaitExit := 0

namespace Sched

/-- `n` times the same schedule. -/
def times (n : Nat) (as : List Act) : List Act := (List.replicate n as).flatten

/-- A whole call of `threadpool_add` on a queue that is not full; `woken` is the worker its signal
wakes. -/
def add (i : Nat) (task : Task) (woken : Option Nat) : List Act :=
  .call i task :: times 4 [.producer i] ++ [.addSignal i woken, .producer i]

/-- A worker that is not waiting takes a task and enters the callback. -/
def take (w : Nat) : List Act := times 9 [.worker w]

/-- A worker that is not waiting takes a task and runs it to the end. -/
def runTask (w : Nat) : List Act := times 13 [.worker w]

/-- A worker that finds the queue empty goes to sleep. -/
def sleep (w : Nat) : List Act := times 3 [.worker w]

/-- A pass of the manager up to the growth loop. -/
def toGrowLoop : List Act := times 10 [.manager]

/-- From the end of the growth loop to the loop test, without a shrink pass. -/
def afterGrow : List Act := times 2 [.manager]

/-- A pass of the manager that shrinks and finds no waiter. -/
def shrinkPass : List Act := times 13 [.manager] ++ times 11 [.shrinkSignal none]

/-- One to two workers: the manager creates worker 1 for ten tasks, which worker 0 runs, and wakes both
in a shrink pass; worker 1 retires. The pass has one step left, worker 0 has to take `pool->lock`. -/
def growAndShrink : List Act :=
  times 10 (add 0 ⟨1, 7⟩ none) ++ toGrowLoop ++ times 3 [.grow false] ++ afterGrow ++
    times 10 (runTask 0) ++ sleep 0 ++ sleep 1 ++ times 13 [.manager] ++ [.shrinkSignal (some 1)] ++
    times 3 [.worker 1] ++ [.shrinkSignal (some 0)] ++ times 8 [.shrinkSignal none]

/-- The call of `threadpool_destroy`, up to the join of the manager. -/
def destroyBegin : List Act := times 2 [.destroy]

end Sched

end Pool
