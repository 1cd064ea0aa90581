import LinuxApi.Pool.Proof.Queue
import LinuxApi.Pool.Schedule

/-!
# Every task is run once, with its own argument

`CallInv s h`: a worker between taking a task and the return of its callback holds exactly the
task it took, no two workers hold the same one, and a task whose callback has returned is held by
nobody. It holds in every run, also after `shutdown` (`callInv_of_reach`). With `QueueInv` it
gives `ring_refines_fifo`: the pool hands the tasks to its workers as a bounded FIFO.
-/

set_option autoImplicit false

namespace Pool

open Threads

/-- The step is the return of a callback (214). -/
def returns (s : State) : Act → Bool
  | .worker w => (s.workers[w]?).any (·.pc = .callback)
  | _ => false

theorem record_calls {s : State} {a : Act} {h : Hist} (ht : takes s a = false)
    (hr : returns s a = false) :
    (record s a h).ordinal = h.ordinal ∧ (record s a h).returned = h.returned := by
  cases a with
  | worker w =>
    simp only [record]
    split
    · rename_i t htw
      split
      · rename_i hpc; simp [takes, htw, hpc] at ht
      · rename_i hpc; simp [returns, htw, hpc] at hr
      · exact ⟨rfl, rfl⟩
    · exact ⟨rfl, rfl⟩
  | producer i =>
    simp only [record]
    split
    · split <;> exact ⟨rfl, rfl⟩
    · exact ⟨rfl, rfl⟩
  | _ => exact ⟨rfl, rfl⟩

theorem record_return {s : State} {w : Nat} {t : Worker} {h : Hist}
    (ht : s.workers[w]? = some t) (hpc : t.pc = .callback) :
    record s (.worker w) h = { h with returned := h.returned ++ [h.ordinal w] } := by
  simp [record, ht, hpc]

/-- Who holds which task. -/
structure CallInv (s : State) (h : Hist) : Prop where
  task : ∀ (w : Nat) (t : Worker), s.workers[w]? = some t → t.pc.executing = true →
    h.taken[h.ordinal w]? = some t.task
  pending : ∀ (w : Nat) (t : Worker), s.workers[w]? = some t → t.pc.executing = true →
    h.ordinal w ∉ h.returned
  distinct : ∀ (w v : Nat) (t u : Worker), s.workers[w]? = some t → s.workers[v]? = some u →
    t.pc.executing = true → u.pc.executing = true → h.ordinal w = h.ordinal v → w = v
  returned : ∀ k ∈ h.returned, k < h.taken.length

theorem WorkerMove.executing {w : Nat} {p p' : Threadpool} {t t' : Worker}
    (h : WorkerMove w p t p' t') (ht : t.pc ≠ .take) (he : t'.pc.executing = true) :
    t.pc.executing = true ∧ t'.task = t.task := by
  cases h with
  | take hpc => exact absurd hpc ht
  | broadcast hpc | unlock hpc | lockBusy hpc | incBusy hpc | unlockBusy hpc =>
    exact ⟨by rw [hpc]; rfl, rfl⟩
  | _ => cases he

/-- An executing worker after a step that takes no task was executing the same task before. -/
theorem StepMove.executing {s s' : State} {a : Act} (h : StepMove s a s')
    (hta : takes s a = false) {w : Nat} {t' : Worker} (ht' : s'.workers[w]? = some t')
    (he : t'.pc.executing = true) :
    ∃ t, s.workers[w]? = some t ∧ t.pc.executing = true ∧ t'.task = t.task := by
  by_cases ha : a.owner = some (.worker w)
  · obtain ⟨rfl, t, t1, _, ht, ht1, -, hm⟩ := h.own_worker ha
    obtain rfl : t1 = t' := Option.some.inj (ht1.symm.trans ht')
    have hpc : t.pc ≠ .take := by
      intro hpc
      simp [takes, ht, hpc] at hta
    obtain ⟨h1, h2⟩ := hm.executing hpc he
    exact ⟨t, ht, h1, h2⟩
  obtain ⟨t, ht, rfl | ⟨-, rfl⟩⟩ | ⟨-, rfl⟩ := h.other_worker ht' ha
  · exact ⟨t', ht, he, rfl⟩
  · cases he
  · cases he

namespace CallInv

variable {s s' : State} {h : Hist}

theorem ordinal_lt (hi : CallInv s h) {w : Nat} {t : Worker} (ht : s.workers[w]? = some t)
    (he : t.pc.executing = true) : h.ordinal w < h.taken.length :=
  (List.getElem?_eq_some_iff.1 (hi.task w t ht he)).1

/-- A step that takes no task and returns from no callback. -/
theorem keep {h' : Hist} (hi : CallInv s h)
    (hex : ∀ (w : Nat) (t' : Worker), s'.workers[w]? = some t' → t'.pc.executing = true →
      ∃ t, s.workers[w]? = some t ∧ t.pc.executing = true ∧ t'.task = t.task)
    (ht : h'.taken = h.taken) (ho : h'.ordinal = h.ordinal) (hr : h'.returned = h.returned) :
    CallInv s' h' := by
  refine ⟨fun w t' ht' he => ?_, fun w t' ht' he => ?_, fun w v t' u' ht' hu' he he' => ?_, ?_⟩
  · obtain ⟨t, ht0, he0, htask⟩ := hex w t' ht' he
    rw [ht, ho, htask]
    exact hi.task w t ht0 he0
  · obtain ⟨t, ht0, he0, -⟩ := hex w t' ht' he
    rw [ho, hr]
    exact hi.pending w t ht0 he0
  · obtain ⟨t, ht0, he0, -⟩ := hex w t' ht' he
    obtain ⟨u, hu0, hu1, -⟩ := hex v u' hu' he'
    rw [ho]
    exact hi.distinct w v t u ht0 hu0 he0 hu1
  · rw [ht, hr]
    exact hi.returned

/-- A worker takes a task: it gets the next number. -/
theorem take (hi : CallInv s h) {w : Nat} {task : Task}
    (hw : s'.workers = s.workers.set w { pc := .broadcast, task }) :
    CallInv s' { h with
      taken := h.taken ++ [task]
      ordinal := fun v => if v = w then h.taken.length else h.ordinal v } := by
  have hex : ∀ (v : Nat) (u : Worker), s'.workers[v]? = some u → u.pc.executing = true →
      (v = w ∧ u.task = task) ∨ (v ≠ w ∧ s.workers[v]? = some u ∧ h.ordinal v < h.taken.length) := by
    intro v u hu he
    rw [hw] at hu
    obtain ⟨rfl, rfl⟩ | ⟨hne, hu⟩ := getElem?_set_cases hu
    · exact .inl ⟨rfl, rfl⟩
    · exact .inr ⟨hne, hu, hi.ordinal_lt hu he⟩
  refine ⟨fun v u hu he => ?_, fun v u hu he => ?_, fun v v' u u' hu hu' he he' => ?_, ?_⟩
  · rcases hex v u hu he with ⟨rfl, rfl⟩ | ⟨hne, hu, hlt⟩
    · simp
    · simp only [if_neg hne]
      rw [List.getElem?_append_left hlt]
      exact hi.task v u hu he
  · rcases hex v u hu he with ⟨rfl, rfl⟩ | ⟨hne, hu, -⟩
    · simp only [if_true]
      exact fun hm => Nat.lt_irrefl _ (hi.returned _ hm)
    · simp only [if_neg hne]
      exact hi.pending v u hu he
  · rcases hex v u hu he with ⟨rfl, -⟩ | ⟨hne, hu, hlt⟩ <;>
      rcases hex v' u' hu' he' with ⟨rfl, -⟩ | ⟨hne', hu', hlt'⟩
    · exact fun _ => rfl
    · simp only [if_neg hne', if_true]
      omega
    · simp only [if_neg hne, if_true]
      omega
    · simp only [if_neg hne, if_neg hne']
      exact hi.distinct v v' u u' hu hu' he he'
  · intro k hk
    have := hi.returned k hk
    simp only [List.length_append, List.length_cons, List.length_nil]
    omega

/-- A callback returns. -/
theorem ret (hi : CallInv s h) {w : Nat} {t t' : Worker} (ht : s.workers[w]? = some t)
    (hpc : t.pc = .callback) (hw : s'.workers = s.workers.set w t')
    (ht' : t'.pc.executing = false) :
    CallInv s' { h with returned := h.returned ++ [h.ordinal w] } := by
  have he0 : t.pc.executing = true := by rw [hpc]; rfl
  have hex : ∀ (v : Nat) (u : Worker), s'.workers[v]? = some u → u.pc.executing = true →
      v ≠ w ∧ s.workers[v]? = some u := by
    intro v u hu he
    rw [hw] at hu
    obtain ⟨rfl, rfl⟩ | ⟨hne, hu⟩ := getElem?_set_cases hu
    · simp [ht'] at he
    · exact ⟨hne, hu⟩
  refine ⟨fun v u hu he => ?_, fun v u hu he => ?_, fun v v' u u' hu hu' he he' => ?_, ?_⟩
  · exact hi.task v u (hex v u hu he).2 he
  · obtain ⟨hne, hu⟩ := hex v u hu he
    simp only [List.mem_append, List.mem_singleton, not_or]
    exact ⟨hi.pending v u hu he, fun heq => hne (hi.distinct v w u t hu ht he he0 heq)⟩
  · exact hi.distinct v v' u u' (hex v u hu he).2 (hex v' u' hu' he').2 he he'
  · intro k hk
    simp only [List.mem_append, List.mem_singleton] at hk
    rcases hk with hk | rfl
    · exact hi.returned k hk
    · exact hi.ordinal_lt ht he0

theorem step {a : Act} (hi : CallInv s h) (hm : StepMove s a s') :
    CallInv s' (record s a h) := by
  by_cases hr : returns s a = true
  · cases hm with
    | @worker w t t' p' ht hw =>
      have hpc : t.pc = .callback := by simpa [returns, ht] using hr
      rw [record_return ht hpc]
      apply hi.ret ht hpc rfl
      cases hw with
      | callback => rfl
      | _ h =>
        rw [hpc] at h
        cases h
    | _ => cases hr
  by_cases hta : takes s a = true
  · cases hm.queue with
    | take ht hpc hq _ hw =>
      rw [record_take ht hpc hq]
      exact hi.take hw
    | enqueue | shutdown => cases hta
    | same _ hf => rw [hta] at hf; cases hf
  · obtain ⟨ho, hre⟩ := record_calls (h := h) (by simpa using hta) (by simpa using hr)
    exact hi.keep (fun _ _ => hm.executing (by simpa using hta))
      (record_taken (by simpa using hta)) ho hre

theorem create (c : Cfg) : CallInv (threadpoolCreate c) Hist.empty := by
  have hw : ∀ (w : Nat) (t : Worker), (threadpoolCreate c).workers[w]? = some t →
      t.pc.executing = false := by
    intro w t ht
    obtain ⟨-, rfl⟩ := by simpa [threadpoolCreate, List.getElem?_replicate] using ht
    rfl
  refine ⟨?_, ?_, ?_, ?_⟩
  · intro w t ht he
    simp [hw w t ht] at he
  · intro w t ht he
    simp [hw w t ht] at he
  · intro w _ t _ ht _ he
    simp [hw w t ht] at he
  · simp [Hist.empty]

end CallInv

/-- `CallInv` in every state of a run. -/
theorem callInv_of_reach {c : Cfg} {ok : State × Hist → Act → Prop} {x : State × Hist}
    (h : Reach c ok x) : CallInv x.1 x.2 := by
  apply Lts.Run.inv (P := fun x => CallInv x.1 x.2) h
  · exact .create c
  · intro x a x' ih _ hst
    obtain ⟨hst, hh⟩ := Lts.withHist_eq_some.1 hst
    rw [hh]
    exact ih.step (step_move hst)

/-- **The ring buffer refines a bounded FIFO.** Before `shutdown` the indices stay in range and
belong together, the tasks taken so far followed by the stored ones are the tasks added so far,
and a worker runs the pair that it took. -/
theorem ring_refines_fifo (c : Cfg) (hq : 1 ≤ c.queueMaxSize) (x : State × Hist)
    (h : Reach c Lts.Free x) (hs : x.1.pool.shutdown = false) :
    (0 ≤ x.1.pool.queueSize ∧ x.1.pool.queueSize ≤ x.1.pool.queueMaxSize) ∧
    (0 ≤ x.1.pool.queueFront ∧ x.1.pool.queueFront < x.1.pool.queueMaxSize) ∧
    (0 ≤ x.1.pool.queueRear ∧ x.1.pool.queueRear < x.1.pool.queueMaxSize) ∧
    x.1.pool.queueRear = (x.1.pool.queueFront + x.1.pool.queueSize).tmod x.1.pool.queueMaxSize ∧
    x.2.taken ++ x.1.pool.stored = x.2.added ∧
    ∀ (w : Nat) (t : Worker), x.1.workers[w]? = some t → t.pc.executing = true →
      x.2.taken[x.2.ordinal w]? = some t.task := by
  have hi := queueInv_of_reach hq h hs
  have hmax : (x.1.pool.queueMaxSize.toNat : Int) = x.1.pool.queueMaxSize :=
    Int.toNat_of_nonneg (by have := hi.pos; omega)
  have hlt := fun n => Nat.mod_lt n hi.toNat_pos
  have hsize := hi.size
  have hle := hi.le
  have hbound := hi.bound
  refine ⟨by omega, ?_, ?_, ?_, ?_, (callInv_of_reach h).task⟩
  · have := hlt x.2.taken.length
    rw [hi.front]
    omega
  · have := hlt x.2.added.length
    rw [hi.rear]
    omega
  · have hsum : x.1.pool.queueFront + x.1.pool.queueSize =
        ((x.2.taken.length % x.1.pool.queueMaxSize.toNat + (x.2.added.length - x.2.taken.length) :
          Nat) : Int) := by
      rw [hi.front, hsize]
      omega
    rw [hsum, hi.rear, Int.tmod_eq_emod_of_nonneg (by omega), ← hmax, ← Int.natCast_emod,
      Int.toNat_natCast, Nat.mod_add_mod]
    congr 2
    omega
  · rw [hi.stored]
    obtain ⟨rest, hrest⟩ := hi.taken
    rw [← hrest, List.drop_left]

/-- At a pool of one worker and one slot, after the slot has been used a second time. -/
theorem ring_refines_fifo_wrap : ∃ x, Reach (demoCfg 1 1 1 1) Lts.Free x ∧
    x.2.added = [⟨1, 7⟩, ⟨1, 8⟩] ∧ x.2.taken = [⟨1, 7⟩] ∧
    x.2.taken ++ x.1.pool.stored = x.2.added := by
  obtain ⟨x, hx, hs, ha, ht⟩ := Lts.Run.exists_of_exec histStep
    (Sched.add 0 ⟨1, 7⟩ none ++ Sched.take 0 ++ Sched.add 0 ⟨1, 8⟩ none)
    (threadpoolCreate (demoCfg 1 1 1 1), Hist.empty)
    (fun x => x.1.pool.shutdown = false ∧ x.2.added = [⟨1, 7⟩, ⟨1, 8⟩] ∧ x.2.taken = [⟨1, 7⟩])
    (by decide +kernel)
  exact ⟨x, hx, ha, ht, (ring_refines_fifo _ (by decide) x hx hs).2.2.2.2.1⟩

end Pool
