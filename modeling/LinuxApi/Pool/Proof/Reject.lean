import LinuxApi.Pool.Proof.Mutex
import LinuxApi.Pool.Schedule

/-!
# `threadpool_add` after `shutdown`

A call that finds `shutdown` set at 137 gives the mutex back and goes on: it stores its task, returns
0 and gives the mutex back a second time (`add_not_rejected`). `threadpool.h` says that the call
returns -1 if it does not succeed. The log of a call is what it has done since it began.
-/

set_option autoImplicit false

namespace Pool

open Threads

/-! ## The log of a call -/

/-- Whether the call has seen `shutdown` at 137, how often it has given `pool->lock` back (138, 154)
and how often it has run 142–150. -/
structure CallLog where
  refused : Bool
  unlocks : Nat
  stores : Nat
deriving DecidableEq, Repr

def CallLog.empty : CallLog := ⟨false, 0, 0⟩

/-- What the next step of producer `t` adds to the log of its call. -/
def logStep (p : Threadpool) (t : Producer) (l : CallLog) : CallLog :=
  match t.pc with
  | .chkShutdown => { l with refused := p.shutdown }
  | .shutUnlock | .unlockPool => { l with unlocks := l.unlocks + 1 }
  | .enqueue => { l with stores := l.stores + 1 }
  | _ => l

def recordCalls (s : State) (a : Act) (h : Nat → CallLog) : Nat → CallLog :=
  match a with
  | .call i _ => fun j => if j = i then .empty else h j
  | .producer i =>
    match s.producers[i]? with
    | some t => fun j => if j = i then logStep s.pool t (h i) else h j
    | none => h
  | _ => h

/-- The program with the logs of the current calls. -/
def callStep : State × (Nat → CallLog) → Act → Option (State × (Nat → CallLog)) :=
  Lts.withHist step recordCalls

/-- The call has returned as a rejected one: -1, one unlock and nothing stored. -/
def Rejected (t : Producer) (l : CallLog) : Prop :=
  t.pc = .idle ∧ t.ret = some (-1) ∧ l.unlocks = 1 ∧ l.stores = 0

/-! ## What a call has done -/

/-- What a call has done when it is where `t` is. -/
def CallOk (t : Producer) (l : CallLog) : Prop :=
  match t.pc with
  | .lockPool | .test | .wait | .asleep | .woken | .chkShutdown => l = .empty
  | .shutUnlock => l = ⟨true, 0, 0⟩
  | .enqueue => l.stores = 0 ∧ l.unlocks = if l.refused then 1 else 0
  | .signal | .unlockPool => l.stores = 1 ∧ l.unlocks = if l.refused then 1 else 0
  | .idle =>
    t.ret = none ∧ l.refused = false ∨
      t.ret = some 0 ∧ l.stores = 1 ∧ l.unlocks = if l.refused then 2 else 1

theorem ProducerMove.callOk {i : Nat} {p p' : Threadpool} {t t' : Producer} {l : CallLog}
    (h : ProducerMove i p t p' t') (hc : CallOk t l) : CallOk t' (logStep p t l) := by
  unfold CallOk at hc
  cases h with
  | lock hpc => rcases hpc with hpc | hpc <;> simp_all [CallOk, logStep, Producer.goto]
  | seeShutdown hpc hs => simp_all [CallOk, logStep, Producer.goto, CallLog.empty]
  | noShutdown hpc hs => simp_all [CallOk, logStep, Producer.goto, CallLog.empty]
  | unlock hpc =>
    rw [hpc] at hc
    obtain ⟨h1, h2⟩ := hc
    refine .inr ⟨rfl, ?_, ?_⟩
    · simpa [logStep, hpc] using h1
    · simp only [logStep, hpc, h2]
      split <;> rfl
  | _ hpc => simp_all [CallOk, logStep, Producer.goto]

theorem CallOk.step {s s' : State} {a : Act} {h : Nat → CallLog} (hs : StepMove s a s')
    (hi : ∀ (i : Nat) (t : Producer), s.producers[i]? = some t → CallOk t (h i)) :
    ∀ (i : Nat) (t : Producer), s'.producers[i]? = some t → CallOk t (recordCalls s a h i) := by
  intro i t' ht'
  by_cases ha : a.owner = some (.producer i)
  · obtain ⟨t, p', rfl, ht, -, hm⟩ | ⟨task, rfl, rfl⟩ | ⟨t, woken, rfl, ht, hpc, rfl⟩ :=
      hs.own_producer ha ht'
    · simpa [recordCalls, ht] using hm.callOk (hi i t ht)
    · simp [recordCalls, CallOk]
    · have hc := hi i t ht
      unfold CallOk at hc
      rw [hpc] at hc
      exact hc
  · have hrec : recordCalls s a h i = h i := by
      cases a with
      | call j task =>
        have hne : i ≠ j := fun he => ha (by rw [he]; rfl)
        simp [recordCalls, hne]
      | producer j =>
        have hne : i ≠ j := fun he => ha (by rw [he]; rfl)
        cases hj : s.producers[j]? <;> simp [recordCalls, hj, hne]
      | _ => rfl
    rw [hrec]
    obtain ⟨t, ht, rfl | ⟨hpc, rfl⟩⟩ := hs.other_producer ht' ha
    · exact hi i t' ht
    · have hc := hi i t ht
      unfold CallOk at hc
      rw [hpc] at hc
      exact hc

theorem callOk_of_run {c : Cfg} {x : State × (Nat → CallLog)}
    (h : Lts.Run callStep Lts.Free (threadpoolCreate c, fun _ => .empty) x) (i : Nat)
    (t : Producer) (ht : x.1.producers[i]? = some t) : CallOk t (x.2 i) := by
  have hall : ∀ (i : Nat) (t : Producer), x.1.producers[i]? = some t → CallOk t (x.2 i) := by
    apply Lts.Run.inv (P := fun x : State × (Nat → CallLog) =>
      ∀ (i : Nat) (t : Producer), x.1.producers[i]? = some t → CallOk t (x.2 i)) h
    · intro i t ht
      obtain ⟨-, rfl⟩ := by simpa [threadpoolCreate, List.getElem?_replicate] using ht
      exact .inl ⟨rfl, rfl⟩
    · intro x a x' ih _ hst
      obtain ⟨hst, hh⟩ := Lts.withHist_eq_some.1 hst
      rw [hh]
      exact CallOk.step (step_move hst) ih
  exact hall i t ht

/-! ## A call runs to its end -/

/-- `queue_rear` is the index of a slot. -/
structure RearInv (p : Threadpool) : Prop where
  length : p.taskQueue.length = p.queueMaxSize.toNat
  nonneg : 0 ≤ p.queueRear
  lt : p.queueRear < p.queueMaxSize

theorem RearInv.step {s s' : State} {a : Act} (hi : RearInv s.pool) (h : StepMove s a s') :
    RearInv s'.pool := by
  obtain ⟨hlen, h0, hlt⟩ := hi
  cases h.queue with
  | take _ _ _ he => rw [he]; exact ⟨hlen, h0, hlt⟩
  | enqueue _ _ _ he =>
    rw [he]
    refine ⟨by simpa using hlen, ?_, ?_⟩
    · exact Int.tmod_nonneg _ (by omega)
    · exact Int.tmod_lt_of_pos _ (by omega)
  | shutdown he => rw [he]; exact ⟨hlen, h0, hlt⟩
  | same he =>
    exact ⟨by rw [he.taskQueue, he.queueMaxSize]; exact hlen, by rw [he.queueRear]; exact h0,
      by rw [he.queueRear, he.queueMaxSize]; exact hlt⟩

theorem rearInv_of_run {c : Cfg} (hq : 1 ≤ c.queueMaxSize) {ok : State → Act → Prop} {s : State}
    (h : Lts.Run step ok (threadpoolCreate c) s) : RearInv s.pool := by
  apply h.inv (P := fun s => RearInv s.pool)
  · refine ⟨by simp [threadpoolCreate], Int.le_refl _, ?_⟩
    show 0 < c.queueMaxSize
    omega
  · intro s a s' ih _ hst
    exact ih.step (step_move hst)

/-- The state in which producer `i` is at `t` and the pool is `p`. -/
def State.withProducer (s : State) (i : Nat) (p : Threadpool) (t : Producer) : State :=
  { s with pool := p, producers := s.producers.set i t }

theorem withProducer_self {s : State} {i : Nat} {t : Producer} (ht : s.producers[i]? = some t) :
    s.withProducer i s.pool t = s := by
  obtain ⟨hi, rfl⟩ := List.getElem?_eq_some_iff.1 ht
  simp [State.withProducer]

theorem withProducer_next {s₀ s : State} {i : Nat} (hi : i < s.producers.length)
    {p p' : Threadpool} {t t' : Producer} (hr : Lts.Run step Lts.Free s₀ (s.withProducer i p t))
    (h : producerStep i p t = some (p', t')) :
    Lts.Run step Lts.Free s₀ (s.withProducer i p' t') := by
  apply hr.next (a := .producer i) trivial
  simp [step, stepProducer, State.withProducer, List.getElem?_set_self hi, h]

/-- The pool after 142–150 have run and the mutex has been given back. -/
def Threadpool.stuffed (p : Threadpool) (task : Task) : Threadpool :=
  { p with
    lock := none
    taskQueue := p.taskQueue.set p.queueRear.toNat task
    queueRear := (p.queueRear + 1).tmod p.queueMaxSize
    queueSize := p.queueSize + 1 }

/-- A call that begins after `shutdown`, or is woken after it, stores its task and returns 0 when it
runs alone. -/
theorem add_alone {s : State} (hs : s.pool.shutdown = true) (hl : s.pool.lock = none)
    (hr : RearInv s.pool) {i : Nat} {t : Producer} (ht : s.producers[i]? = some t)
    (hpc : t.pc = .lockPool ∨ t.pc = .woken) :
    ∃ s', Lts.Run step Lts.Free s s' ∧ s'.pool = s.pool.stuffed t.task ∧
      s'.producers[i]? = some { t with pc := .idle, ret := some 0 } := by
  have hi := (List.getElem?_eq_some_iff.1 ht).1
  have hslot : s.pool.queueRear.toNat < s.pool.taskQueue.length := by
    rw [hr.length]
    have := hr.nonneg
    have := hr.lt
    omega
  obtain ⟨held, hacq, hrel, hsh⟩ : ∃ held, s.pool.acquire (.producer i) = some held ∧
      held.release = s.pool ∧ held.shutdown = true := by
    refine ⟨_, if_pos hl, ?_, hs⟩
    show { s.pool with lock := none } = s.pool
    rw [← hl]
  have henq : s.pool.enqueue t.task = some (s.pool.stuffed t.task) := by
    simp [Threadpool.enqueue, Threadpool.stuffed, List.getElem?_eq_getElem hslot, hl]
  have r0 : Lts.Run step Lts.Free s (s.withProducer i s.pool t) := by
    rw [withProducer_self ht]
    exact .start
  have r1 : Lts.Run step Lts.Free s (s.withProducer i held (t.goto .test)) := by
    apply withProducer_next hi r0
    rcases hpc with hpc | hpc <;> simp [producerStep, hpc, hacq]
  have r2 : Lts.Run step Lts.Free s (s.withProducer i held (t.goto .chkShutdown)) := by
    apply withProducer_next hi r1
    simp [producerStep, Producer.goto, hsh]
  have r3 : Lts.Run step Lts.Free s (s.withProducer i held (t.goto .shutUnlock)) := by
    apply withProducer_next hi r2
    simp [producerStep, Producer.goto, hsh]
  have r4 : Lts.Run step Lts.Free s (s.withProducer i s.pool (t.goto .enqueue)) := by
    apply withProducer_next hi r3
    simp [producerStep, Producer.goto, hrel]
  have r5 : Lts.Run step Lts.Free s
      (s.withProducer i (s.pool.stuffed t.task) (t.goto .signal)) := by
    apply withProducer_next hi r4
    simp [producerStep, Producer.goto, henq]
  obtain ⟨woken, ws, hw⟩ := exists_signal s.workers
  have r6 : Lts.Run step Lts.Free s ({ s with workers := ws }.withProducer i
      (s.pool.stuffed t.task) (t.goto .unlockPool)) := by
    apply r5.next (a := .addSignal i woken) trivial
    simp [step, stepAddSignal, State.withProducer, List.getElem?_set_self hi, hw, Producer.goto]
  have r7 : Lts.Run step Lts.Free s ({ s with workers := ws }.withProducer i
      (s.pool.stuffed t.task) { t with pc := .idle, ret := some 0 }) :=
    withProducer_next (s := { s with workers := ws }) hi r6 rfl
  exact ⟨_, r7, rfl, List.getElem?_set_self hi⟩

/-- **`threadpool_add` after `shutdown` is never rejected.** In every run, a call that has seen
`shutdown` is at no time a rejected one, and when it has returned it has returned 0 with its task
stored and the mutex given back twice; and a call that begins after `shutdown`, or is woken after it,
can always get there: alone, it leaves the pool with its task in the slot at `queue_rear`, whatever the
queue holds. -/
theorem add_not_rejected (c : Cfg) (x : State × (Nat → CallLog))
    (h : Lts.Run callStep Lts.Free (threadpoolCreate c, fun _ => .empty) x)
    (i : Nat) (t : Producer) (ht : x.1.producers[i]? = some t) :
    ((x.2 i).refused = true → ¬ Rejected t (x.2 i) ∧
      (t.pc = .idle → t.ret = some 0 ∧ (x.2 i).unlocks = 2 ∧ (x.2 i).stores = 1)) ∧
    (1 ≤ c.queueMaxSize → x.1.pool.shutdown = true → x.1.pool.lock = none →
      t.pc = .lockPool ∨ t.pc = .woken →
      ∃ s', Lts.Run step Lts.Free x.1 s' ∧ s'.pool = x.1.pool.stuffed t.task ∧
        s'.pool.queueSize = x.1.pool.queueSize + 1 ∧
        s'.producers[i]? = some { t with pc := .idle, ret := some 0 }) := by
  refine ⟨?_, ?_⟩
  · intro hr
    have hc := callOk_of_run h i t ht
    have hidle : t.pc = .idle → t.ret = some 0 ∧ (x.2 i).unlocks = 2 ∧ (x.2 i).stores = 1 := by
      intro hpc
      unfold CallOk at hc
      rw [hpc, hr] at hc
      rcases hc with ⟨-, hn⟩ | ⟨h0, hs, hu⟩
      · cases hn
      · exact ⟨h0, hu, hs⟩
    refine ⟨?_, hidle⟩
    rintro ⟨hpc, hret, -, -⟩
    rw [(hidle hpc).1] at hret
    cases hret
  · intro hq hs hl hpc
    have h' : Lts.Run callStep (fun x a => Lts.Free x.1 a)
        (threadpoolCreate c, fun _ => CallLog.empty) x := h
    obtain ⟨s', hrun, hp, hi⟩ := add_alone hs hl (rearInv_of_run hq h'.fst) ht hpc
    refine ⟨s', hrun, hp, ?_, hi⟩
    rw [hp]
    rfl

/-- A pool with one slot: a task waits in it, `threadpool_destroy` sets `shutdown`, and a call with
another task begins. -/
theorem add_not_rejected_full : ∃ x x' : State × (Nat → CallLog),
    (x.1.pool.shutdown = true ∧ x.1.pool.queueSize = 1 ∧
      ∃ s', Lts.Run step Lts.Free x.1 s' ∧ s'.pool.queueSize = 2) ∧
    (x'.2 0).refused = true ∧ ∀ t, x'.1.producers[0]? = some t → ¬ Rejected t (x'.2 0) := by
  obtain ⟨x, hx, hs, hl, hq, ht⟩ := Lts.Run.exists_of_exec callStep
    (Sched.add 0 ⟨1, 7⟩ none ++ Sched.destroyBegin ++ [.call 0 ⟨2, 9⟩])
    (threadpoolCreate (demoCfg 1 1 1 1), fun _ => CallLog.empty)
    (fun x => x.1.pool.shutdown = true ∧ x.1.pool.lock = none ∧ x.1.pool.queueSize = 1 ∧
      x.1.producers[0]? = some ⟨.lockPool, ⟨2, 9⟩, none⟩) (by decide +kernel)
  obtain ⟨s', hrun, -, hsz, -⟩ :=
    (add_not_rejected _ x hx 0 _ ht).2 (by decide) hs hl (.inl rfl)
  obtain ⟨x', hx', hr'⟩ := Lts.Run.exists_of_exec callStep
    (Sched.add 0 ⟨1, 7⟩ none ++ Sched.destroyBegin ++ [.call 0 ⟨2, 9⟩] ++
      Sched.times 3 [.producer 0])
    (threadpoolCreate (demoCfg 1 1 1 1), fun _ => CallLog.empty)
    (fun x => (x.2 0).refused = true) (by decide +kernel)
  refine ⟨x, x', ⟨hs, hq, s', hrun, ?_⟩, hr', ?_⟩
  · rw [hsz, hq]
    rfl
  · intro t ht'
    exact ((add_not_rejected _ x' hx' 0 t ht').1 hr').1

/-- The same pool after the call: it has returned 0, the task that waited is gone from the ring, and
`queue_size` is 2 in a ring of one slot. -/
theorem add_rejected_fails :
    (¬ ∀ c (x : State × (Nat → CallLog)), 1 ≤ c.queueMaxSize →
      Lts.Run callStep Lts.Free (threadpoolCreate c, fun _ => .empty) x →
        ∀ (i : Nat) (t : Producer), x.1.producers[i]? = some t → (x.2 i).refused = true →
          t.pc = .idle → Rejected t (x.2 i)) ∧
    ¬ ∀ c (x : State × (Nat → CallLog)), 1 ≤ c.queueMaxSize →
      Lts.Run callStep Lts.Free (threadpoolCreate c, fun _ => .empty) x →
        x.1.pool.queueSize ≤ x.1.pool.queueMaxSize := by
  obtain ⟨x, hx, ⟨hq, hm, -⟩, ht, hr⟩ := Lts.Run.exists_of_exec callStep
    (Sched.add 0 ⟨1, 7⟩ none ++ Sched.destroyBegin ++ [.call 0 ⟨2, 9⟩] ++
      Sched.times 5 [.producer 0] ++ [.addSignal 0 none, .producer 0])
    (threadpoolCreate (demoCfg 1 1 1 1), fun _ => CallLog.empty)
    (fun x => (x.1.pool.queueSize = 2 ∧ x.1.pool.queueMaxSize = 1 ∧
        x.1.pool.taskQueue = [⟨2, 9⟩]) ∧
      x.1.producers[0]? = some ⟨.idle, ⟨2, 9⟩, some 0⟩ ∧ (x.2 0).refused = true)
    (by decide +kernel)
  refine ⟨?_, ?_⟩
  · intro hall
    have hret := (hall _ x (by decide) hx 0 _ ht hr rfl).2.1
    exact absurd hret (by decide)
  · intro hall
    have hle := hall _ x (by decide) hx
    rw [hq, hm] at hle
    exact absurd hle (by decide)

end Pool
