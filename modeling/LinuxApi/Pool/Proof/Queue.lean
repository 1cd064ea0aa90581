import LinuxApi.Lib.Ring
import LinuxApi.Pool.Proof.Mutex

/-!
# The task queue is a bounded FIFO

`QueueInv p h`: the ring of `p` and the history `h` agree: `queue_rear` and `queue_front` are the
numbers of added and taken tasks modulo the capacity, the slots hold the last lap of the added
tasks (`Ring.Lap`), and what was taken is a prefix of what was added. A step keeps it if it adds
to a queue that is not full and takes from one that is not empty (`QueueInv.step`); before
`shutdown` the critical sections see to that (`LockInv`).

`FifoStep` is the bounded queue that the ring implements; `stored_step` is the refinement.
-/

set_option autoImplicit false

namespace Pool

open Threads

/-! ## The history of a step -/

theorem record_added {s : State} {a : Act} {h : Hist} (ha : adds s a = false) :
    (record s a h).added = h.added := by
  cases a with
  | worker w =>
    simp only [record]
    split
    · split
      · unfold recordTake
        split <;> rfl
      · rfl
      · rfl
    · rfl
  | producer i =>
    simp only [record]
    split
    · rename_i t ht
      rw [if_neg (by simpa [adds, ht] using ha)]
    · rfl
  | _ => rfl

theorem record_taken {s : State} {a : Act} {h : Hist} (ha : takes s a = false) :
    (record s a h).taken = h.taken := by
  cases a with
  | worker w =>
    simp only [record]
    split
    · rename_i t ht
      split
      · rename_i hpc; simp [takes, ht, hpc] at ha
      · rfl
      · rfl
    · rfl
  | producer i =>
    simp only [record]
    split
    · split <;> rfl
    · rfl
  | _ => rfl

theorem record_take {s : State} {w : Nat} {t : Worker} {task : Task} {h : Hist}
    (ht : s.workers[w]? = some t) (hpc : t.pc = .take)
    (hq : s.pool.taskQueue[s.pool.queueFront.toNat]? = some task) :
    record s (.worker w) h = { h with
      taken := h.taken ++ [task]
      ordinal := fun v => if v = w then h.taken.length else h.ordinal v } := by
  simp [record, ht, hpc, recordTake, Threadpool.dequeue, hq]

theorem record_enqueue {s : State} {i : Nat} {t : Producer} {h : Hist}
    (ht : s.producers[i]? = some t) (hpc : t.pc = .enqueue) :
    record s (.producer i) h = recordAdd s t.task h := by
  simp [record, ht, hpc]

/-! ## The invariant -/

/-- The ring agrees with the history. -/
structure QueueInv (p : Threadpool) (h : Hist) : Prop where
  pos : 1 ≤ p.queueMaxSize
  lap : Ring.Lap p.taskQueue h.added p.queueMaxSize.toNat
  taken : h.taken <+: h.added
  front : p.queueFront = ((h.taken.length % p.queueMaxSize.toNat : Nat) : Int)
  rear : p.queueRear = ((h.added.length % p.queueMaxSize.toNat : Nat) : Int)
  size : p.queueSize = (h.added.length : Int) - h.taken.length
  bound : h.added.length ≤ h.taken.length + p.queueMaxSize.toNat

namespace QueueInv

variable {p p' : Threadpool} {h h' : Hist}

theorem le (hi : QueueInv p h) : h.taken.length ≤ h.added.length := hi.taken.length_le

theorem toNat_pos (hi : QueueInv p h) : 0 < p.queueMaxSize.toNat := by have := hi.pos; omega

theorem congr (hi : QueueInv p h) (hq : SameQueue p p') (ha : h'.added = h.added)
    (ht : h'.taken = h.taken) : QueueInv p' h' := by
  refine ⟨?_, ?_, ?_, ?_, ?_, ?_, ?_⟩
  · rw [hq.queueMaxSize]; exact hi.pos
  · rw [hq.queueMaxSize, hq.taskQueue, ha]; exact hi.lap
  · rw [ha, ht]; exact hi.taken
  · rw [hq.queueMaxSize, hq.queueFront, ht]; exact hi.front
  · rw [hq.queueMaxSize, hq.queueRear, ha]; exact hi.rear
  · rw [hq.queueSize, ha, ht]; exact hi.size
  · rw [hq.queueMaxSize, ha, ht]; exact hi.bound

/-- The task at `queue_front` is the next one that was added and not taken. -/
theorem next (hi : QueueInv p h) (h0 : p.queueSize ≠ 0) :
    h.taken.length < h.added.length ∧
      p.taskQueue[p.queueFront.toNat]? = h.added[h.taken.length]? := by
  have hlt : h.taken.length < h.added.length := by
    have := hi.le
    have := hi.size
    omega
  refine ⟨hlt, ?_⟩
  rw [hi.front, Int.toNat_natCast]
  exact hi.lap.front hlt hi.bound

theorem take (hi : QueueInv p h) (h0 : p.queueSize ≠ 0) {task : Task}
    (hq : p.taskQueue[p.queueFront.toNat]? = some task) {ord : Nat → Nat} :
    QueueInv { p with
        queueFront := (p.queueFront + 1).tmod p.queueMaxSize
        queueSize := p.queueSize - 1 }
      { h with taken := h.taken ++ [task], ordinal := ord } := by
  obtain ⟨hlt, hnext⟩ := hi.next h0
  have htask : h.added[h.taken.length]? = some task := hnext ▸ hq
  obtain ⟨rest, hrest⟩ := hi.taken
  refine ⟨hi.pos, hi.lap, ?_, ?_, hi.rear, ?_, ?_⟩
  · cases rest with
    | nil => rw [← hrest] at hlt; simp at hlt
    | cons x rest =>
      rw [← hrest] at htask
      obtain rfl : x = task := by simpa using htask
      exact ⟨rest, by rw [← hrest]; simp⟩
  · have hm : (p.queueMaxSize.toNat : Int) = p.queueMaxSize := Int.toNat_of_nonneg (by
      have := hi.pos; omega)
    simp only [hi.front, List.length_append, List.length_cons, List.length_nil]
    rw [← Ring.tmod_succ, hm]
  · have := hi.size
    simp only [List.length_append, List.length_cons, List.length_nil]
    omega
  · have := hi.bound
    simp only [List.length_append, List.length_cons, List.length_nil]
    omega

theorem add (hi : QueueInv p h) (h0 : p.queueSize ≠ p.queueMaxSize) (task : Task)
    {fr : List Freed} :
    QueueInv { p with
        taskQueue := p.taskQueue.set p.queueRear.toNat task
        queueRear := (p.queueRear + 1).tmod p.queueMaxSize
        queueSize := p.queueSize + 1 }
      { h with added := h.added ++ [task], freed := fr } := by
  have hm : (p.queueMaxSize.toNat : Int) = p.queueMaxSize := Int.toNat_of_nonneg (by
    have := hi.pos; omega)
  have hsize := hi.size
  have hbound := hi.bound
  refine ⟨hi.pos, ?_, hi.taken.trans (List.prefix_append _ _), hi.front, ?_, ?_, ?_⟩
  · rw [hi.rear, Int.toNat_natCast]
    exact hi.lap.push hi.toNat_pos task
  · simp only [hi.rear, List.length_append, List.length_cons, List.length_nil]
    rw [← Ring.tmod_succ, hm]
  · simp only [List.length_append, List.length_cons, List.length_nil]
    omega
  · simp only [List.length_append, List.length_cons, List.length_nil]
    omega

theorem create (c : Cfg) (hq : 1 ≤ c.queueMaxSize) :
    QueueInv (threadpoolCreate c).pool Hist.empty := by
  refine ⟨hq, .nil (by simp [threadpoolCreate]), List.prefix_rfl, ?_, ?_, rfl, ?_⟩ <;>
    simp [threadpoolCreate, Hist.empty]

/-- A step that adds only to a queue that is not full and takes only from one that is not
empty keeps the invariant. -/
theorem step {s s' : State} {a : Act} (hi : QueueInv s.pool h) (hm : StepMove s a s')
    (hadd : adds s a = true → s.pool.queueSize ≠ s.pool.queueMaxSize)
    (htake : takes s a = true → s.pool.queueSize ≠ 0) : QueueInv s'.pool (record s a h) := by
  cases hm.queue with
  | take ht hpc hq he =>
    rw [he, record_take ht hpc hq]
    exact hi.take (htake (by simp [takes, ht, hpc])) hq
  | enqueue ht hpc _ he =>
    rw [he, record_enqueue ht hpc]
    exact hi.add (hadd (by simp [adds, ht, hpc])) _
  | shutdown he =>
    rw [he]
    exact ⟨hi.pos, hi.lap, hi.taken, hi.front, hi.rear, hi.size, hi.bound⟩
  | same he ht ha => exact hi.congr he (record_added ha) (record_taken ht)

/-- The stored tasks are those added and not taken. -/
theorem stored (hi : QueueInv p h) : p.stored = h.added.drop h.taken.length := by
  have hs := hi.size
  have hle := hi.le
  have h1 : p.queueSize.toNat = h.added.length - h.taken.length := by omega
  rw [Threadpool.stored, h1, ← hi.lap.window hle hi.bound ⟨0, 0⟩, hi.front, Int.toNat_natCast]
  simp only [Nat.mod_add_mod]

end QueueInv

/-! ## Before `shutdown` -/

theorem LockInv.adds {s : State} {a : Act} (hi : LockInv s) (ha : adds s a = true) :
    s.pool.queueSize ≠ s.pool.queueMaxSize := by
  obtain ⟨i, t, -, ht, hpc⟩ := exists_of_adds ha
  have hok := hi.producer i t ht
  rwa [hpc] at hok

theorem LockInv.takes {s : State} {a : Act} (hi : LockInv s) (ha : takes s a = true) :
    s.pool.queueSize ≠ 0 := by
  obtain ⟨w, t, -, ht, hpc⟩ := exists_of_takes ha
  have hok := hi.worker w t ht
  rwa [hpc] at hok

/-- `QueueInv` in every state of a run before `shutdown` is set. -/
theorem queueInv_of_reach {c : Cfg} (hq : 1 ≤ c.queueMaxSize) {ok : State × Hist → Act → Prop}
    {x : State × Hist} (h : Reach c ok x) (hs : x.1.pool.shutdown = false) :
    QueueInv x.1.pool x.2 := by
  refine Lts.Run.inv_of (P := fun x => x.1.pool.shutdown = false → QueueInv x.1.pool x.2)
    (Q := fun x => x.1.pool.shutdown = false → LockInv x.1) h ?_ (fun _ => .create c hq) ?_ hs
  · intro x hx
    exact lockInv_of_run (Reach.run hx)
  · intro x a x' hl ih _ hst hs'
    obtain ⟨hst, hh⟩ := Lts.withHist_eq_some.1 hst
    have hm := step_move hst
    have hs0 := hm.shutdown_mono hs'
    rw [hh]
    exact (ih hs0).step hm (hl hs0).adds (hl hs0).takes

/-! ## The abstract queue -/

/-- A bounded FIFO queue. -/
inductive FifoStep (cap : Nat) : List Task → List Task → Prop
  | push {l : List Task} (task : Task) : l.length < cap → FifoStep cap l (l ++ [task])
  | pop {l : List Task} {task : Task} : FifoStep cap (task :: l) l

/-- Every step of the program is a step of the bounded queue on the stored tasks, or leaves them
alone. -/
theorem stored_step {c : Cfg} (hq : 1 ≤ c.queueMaxSize) {ok : State × Hist → Act → Prop}
    {x x' : State × Hist} {a : Act} (h : Reach c ok x) (hok : ok x a)
    (hst : histStep x a = some x') (hs : x'.1.pool.shutdown = false) :
    x'.1.pool.stored = x.1.pool.stored ∨
      FifoStep x.1.pool.queueMaxSize.toNat x.1.pool.stored x'.1.pool.stored := by
  have hm := step_move (Lts.withHist_eq_some.1 hst).1
  have hh := (Lts.withHist_eq_some.1 hst).2
  have hi := queueInv_of_reach hq h (hm.shutdown_mono hs)
  have hi' := queueInv_of_reach hq (.next h hok hst) hs
  have hlt := hi.le
  have hlt' := hi'.le
  rw [hi.stored, hi'.stored, hh]
  cases hm.queue with
  | @take w t task ht hpc hq he =>
    right
    rw [hh, record_take ht hpc hq] at hlt'
    simp only [List.length_append, List.length_cons, List.length_nil] at hlt'
    rw [record_take ht hpc hq]
    simp only [List.length_append, List.length_cons, List.length_nil]
    rw [List.drop_eq_getElem_cons (i := x.2.taken.length) (by omega)]
    exact .pop
  | @enqueue i t ht hpc _ he =>
    right
    have hb := hi'.bound
    rw [hh, record_enqueue ht hpc, he] at hb
    rw [record_enqueue ht hpc]
    simp only [recordAdd, List.length_append, List.length_cons, List.length_nil] at hb ⊢
    rw [List.drop_append_of_le_length hlt]
    exact .push _ (by simp only [List.length_drop]; omega)
  | shutdown he => simp [he] at hs
  | same he ht ha => exact .inl (by rw [record_added ha, record_taken ht])

end Pool
