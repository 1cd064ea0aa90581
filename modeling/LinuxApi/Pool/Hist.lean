import LinuxApi.Pool.Step

/-!
# The history of a run of the pool

`record` keeps, along a run, what the pool's queue was asked to do: the tasks added and taken, the
callbacks that returned and the pointers that `threadpool_add` passed to `free`. Nothing of it
influences a step (`Lts.withHist`); it is what the claims about the queue talk about. Tasks
are counted: task `k` is the one that the `k`-th `threadpool_add` stored.
-/

set_option autoImplicit false

namespace Pool

/-- The step takes a task out of the queue (197–201). -/
def takes (s : State) : Act → Bool
  | .worker w => (s.workers[w]?).any (·.pc = .take)
  | _ => false

/-- The step adds a task to the queue (142–150). -/
def adds (s : State) : Act → Bool
  | .producer i => (s.producers[i]?).any (·.pc = .enqueue)
  | _ => false

theorem exists_of_takes {s : State} {a : Act} (h : takes s a = true) :
    ∃ w t, a = .worker w ∧ s.workers[w]? = some t ∧ t.pc = .take := by
  cases a with
  | worker w =>
    obtain ⟨t, ht, hpc⟩ : ∃ t, s.workers[w]? = some t ∧ t.pc = .take := by
      simpa [takes, Option.any_eq_true] using h
    exact ⟨w, t, rfl, ht, hpc⟩
  | _ => cases h

theorem exists_of_adds {s : State} {a : Act} (h : adds s a = true) :
    ∃ i t, a = .producer i ∧ s.producers[i]? = some t ∧ t.pc = .enqueue := by
  cases a with
  | producer i =>
    obtain ⟨t, ht, hpc⟩ : ∃ t, s.producers[i]? = some t ∧ t.pc = .enqueue := by
      simpa [adds, Option.any_eq_true] using h
    exact ⟨i, t, rfl, ht, hpc⟩
  | _ => cases h

/-- The next step of worker `w` is that of the retire branch (177–182). -/
def retires (s : State) (w : Nat) : Bool :=
  (s.workers[w]?).any (·.pc = .chkExit) && s.pool.chkExit.2

/-- The `queue_size` tasks stored from `queue_front` on, cyclically. -/
def Threadpool.stored (p : Threadpool) : List Task :=
  (List.range p.queueSize.toNat).map fun i =>
    p.taskQueue.getD ((p.queueFront.toNat + i) % p.queueMaxSize.toNat) ⟨0, 0⟩

/-- The worker has taken a task whose callback has not returned. -/
def WorkerPc.executing : WorkerPc → Bool
  | .broadcast | .unlockPool | .lockBusy | .incBusy | .unlockBusy | .callback => true
  | _ => false

/-- The arguments of the tasks that are queued or executing. -/
def State.argsInUse (s : State) : List Nat :=
  (s.pool.stored ++ (s.workers.filter (·.pc.executing)).map (·.task)).map (·.arg)

/-- A pointer passed to `free`, with the arguments of the tasks whose callback had returned and of
those that were queued or executing at that moment. -/
structure Freed where
  arg : Nat
  returned : List Nat
  inUse : List Nat
deriving DecidableEq, Repr

structure Hist where
  added : List Task
  taken : List Task
  /-- Which task a worker took last. -/
  ordinal : Nat → Nat
  /-- The tasks whose callback has returned. -/
  returned : List Nat
  freed : List Freed

def Hist.empty : Hist := ⟨[], [], fun _ => 0, [], []⟩

/-- The arguments of the tasks whose callback has returned. -/
def Hist.returnedArgs (h : Hist) : List Nat :=
  h.returned.filterMap fun k => (h.added[k]?).map (·.arg)

def recordTake (w : Nat) (p : Threadpool) (h : Hist) : Hist :=
  match p.dequeue with
  | some (_, task) =>
    { h with
      taken := h.taken ++ [task]
      ordinal := fun v => if v = w then h.taken.length else h.ordinal v }
  | none => h

def recordAdd (s : State) (task : Task) (h : Hist) : Hist :=
  { h with
    added := h.added ++ [task]
    freed :=
      match s.pool.freedArg with
      | some arg => h.freed ++ [⟨arg, h.returnedArgs, s.argsInUse⟩]
      | none => h.freed }

/-- The history after a step. -/
def record (s : State) (a : Act) (h : Hist) : Hist :=
  match a with
  | .worker w =>
    match s.workers[w]? with
    | some t =>
      match t.pc with
      | .take => recordTake w s.pool h
      | .callback => { h with returned := h.returned ++ [h.ordinal w] }
      | _ => h
    | none => h
  | .producer i =>
    match s.producers[i]? with
    | some t => if t.pc = .enqueue then recordAdd s t.task h else h
    | none => h
  | _ => h

/-- The program with its history. -/
def histStep : State × Hist → Act → Option (State × Hist) := Lts.withHist step record

/-- The run with history from `threadpool_create`, all of whose steps satisfy `ok`. -/
def Reach (c : Cfg) (ok : State × Hist → Act → Prop) (x : State × Hist) : Prop :=
  Lts.Run histStep ok (threadpoolCreate c, Hist.empty) x

theorem Reach.run {c : Cfg} {ok : State × Hist → Act → Prop} {x : State × Hist}
    (h : Reach c ok x) : Lts.Run step Lts.Free (threadpoolCreate c) x.1 :=
  have h' : Lts.Run histStep (fun x a => Lts.Free x.1 a) (threadpoolCreate c, Hist.empty) x :=
    h.mono fun _ _ _ => trivial
  h'.fst

end Pool
