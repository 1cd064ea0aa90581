import LinuxApi.Pool.Proof.Callback

/-!
# The arguments that `threadpool_add` frees

`threadpool_add` frees whatever the slot at `queue_rear` holds (142–143): the argument of the task
added one lap earlier, or on the first lap what `malloc` left there. `FreeSafe` is the condition
under which that argument is done with. In a run all of whose steps meet it, every freed
pointer is the argument of an accepted task whose callback has returned, and of no task that is
queued or executing (`freesOnlyReturned_of_reach`); without it, a worker that is slower than one
lap loses its argument (`freesOnlyReturned_fails`).
-/

set_option autoImplicit false

namespace Pool

open Threads

/-- Every freed pointer was the argument of a task whose callback had returned, and of no task
that was queued or executing. -/
def FreesOnlyReturned (h : Hist) : Prop :=
  ∀ e ∈ h.freed, e.arg ∈ e.returned ∧ e.arg ∉ e.inUse

/-- If the step adds a task, the queue is not full, and the slot at `queue_rear` holds `NULL`, or
it was filled one lap earlier by a task whose callback has returned and no other task whose
callback has not returned was given the same argument. -/
def FreeSafe (x : State × Hist) (a : Act) : Prop :=
  adds x.1 a = true → x.1.pool.queueSize ≠ x.1.pool.queueMaxSize ∧
    ∀ arg ∈ x.1.pool.freedArg,
      x.1.pool.queueMaxSize.toNat ≤ x.2.added.length ∧
      x.2.added.length - x.1.pool.queueMaxSize.toNat ∈ x.2.returned ∧
      ∀ k < x.2.added.length, k ∉ x.2.returned → (x.2.added[k]?).map (·.arg) ≠ some arg

instance (x : State × Hist) (a : Act) : Decidable (FreeSafe x a) :=
  inferInstanceAs (Decidable (_ → _ ∧ _))

/-! ## Taking after `shutdown`

A worker that passed the test of `shutdown` before it was set may still take its task. There is
at most one, and no one can take the task it tested for. -/

structure TakeInv (s : State) : Prop where
  size : ∀ (w : Nat) (t : Worker), s.workers[w]? = some t → t.pc = .take → s.pool.queueSize ≠ 0
  unique : ∀ (w v : Nat) (t u : Worker), s.workers[w]? = some t → s.workers[v]? = some u →
    t.pc = .take → u.pc = .take → w = v

theorem TakeInv.takes {s : State} {a : Act} (hi : TakeInv s) (ha : takes s a = true) :
    s.pool.queueSize ≠ 0 := by
  obtain ⟨w, t, -, ht, hpc⟩ := exists_of_takes ha
  exact hi.size w t ht hpc

theorem LockInv.takeInv {s : State} (hi : LockInv s) : TakeInv s := by
  refine ⟨fun w t ht hpc => ?_, fun w v t u ht hu hpc hpc' => ?_⟩
  · have := hi.worker w t ht
    rwa [hpc] at this
  · have h1 : Holds s (.worker w) := ⟨t, ht, by rw [hpc]; rfl⟩
    have h2 : Holds s (.worker v) := ⟨u, hu, by rw [hpc']; rfl⟩
    simpa using hi.excl.unique h1 h2

/-- After `shutdown` no worker gets to the point where it takes a task. -/
theorem StepMove.atTake {s s' : State} {a : Act} (h : StepMove s a s')
    (hs : s.pool.shutdown = true) {w : Nat} {t' : Worker} (ht' : s'.workers[w]? = some t')
    (hpc : t'.pc = .take) : s.workers[w]? = some t' ∧ a.owner ≠ some (.worker w) := by
  by_cases ha : a.owner = some (.worker w)
  · obtain ⟨-, t, t1, _, ht, ht1, -, hm⟩ := h.own_worker ha
    obtain rfl : t1 = t' := Option.some.inj (ht1.symm.trans ht')
    cases hm with
    | noShutdown _ hf => rw [hs] at hf; cases hf
    | _ => cases hpc
  obtain ⟨t, ht, rfl | ⟨-, rfl⟩⟩ | ⟨-, rfl⟩ := h.other_worker ht' ha
  · exact ⟨ht, ha⟩
  · cases hpc
  · cases hpc

theorem TakeInv.step {s s' : State} {a : Act} (hi : TakeInv s) (h : StepMove s a s')
    (hs : s.pool.shutdown = true) (h0 : 0 ≤ s.pool.queueSize) : TakeInv s' := by
  refine ⟨fun w t ht hpc => ?_, fun w v t u ht hu hpc hpc' => ?_⟩
  · obtain ⟨ht0, ha⟩ := h.atTake hs ht hpc
    have hn := hi.size w t ht0 hpc
    cases h.queue with
    | @take v u task hu hpc' =>
      obtain rfl := hi.unique w v t u ht0 hu hpc hpc'
      exact absurd rfl ha
    | enqueue _ _ _ he => rw [he]; simp only; omega
    | shutdown he => rw [he]; exact hn
    | same he => rw [he.queueSize]; exact hn
  · exact hi.unique w v t u (h.atTake hs ht hpc).1 (h.atTake hs hu hpc').1 hpc hpc'

/-- With room in the queue at every `threadpool_add`, the ring agrees with the history in every
state of a run, also after `shutdown`. -/
theorem queueInv_of_freeSafe {c : Cfg} (hq : 1 ≤ c.queueMaxSize) {x : State × Hist}
    (h : Reach c FreeSafe x) : QueueInv x.1.pool x.2 ∧ TakeInv x.1 := by
  refine Lts.Run.inv_of (P := fun x => QueueInv x.1.pool x.2 ∧ TakeInv x.1)
    (Q := fun x => x.1.pool.shutdown = false → LockInv x.1) h ?_ ?_ ?_
  · intro x hx
    exact lockInv_of_run (Reach.run hx)
  · exact ⟨.create c hq, (LockInv.create c).takeInv⟩
  intro x a x' hl ⟨hi, ht⟩ hok hst
  obtain ⟨hst, hh⟩ := Lts.withHist_eq_some.1 hst
  have hm := step_move hst
  refine ⟨hh ▸ hi.step hm (fun ha => (hok ha).1) ht.takes, ?_⟩
  have hsize := hi.size
  have hle := hi.le
  cases hs : x.1.pool.shutdown with
  | true => exact ht.step hm hs (by omega)
  | false =>
    cases hs' : x'.1.pool.shutdown with
    | false => exact ((hl hs).step hm hs').takeInv
    | true =>
      obtain ⟨hw, hp⟩ := hm.set_shutdown hs hs'
      exact ⟨by rw [hw, hp]; exact ht.size, by rw [hw]; exact ht.unique⟩

/-! ## What is freed -/

/-- The pointer in the slot at `queue_rear` is the argument of the task added a lap earlier. -/
theorem QueueInv.freedArg {p : Threadpool} {h : Hist} (hi : QueueInv p h)
    (hl : p.queueMaxSize.toNat ≤ h.added.length) {arg : Nat} (ha : arg ∈ p.freedArg) :
    (h.added[h.added.length - p.queueMaxSize.toNat]?).map (·.arg) = some arg := by
  unfold Threadpool.freedArg at ha
  rw [← hi.lap.replaced hi.toNat_pos hl]
  rw [hi.rear, Int.toNat_natCast] at ha
  split at ha
  · rename_i slot hslot
    rw [hslot]
    split at ha
    · exact ha
    · cases ha
  · cases ha

/-- A task that is queued or executing was accepted, and its callback has not returned. -/
theorem CallInv.argsInUse {s : State} {h : Hist} (hc : CallInv s h) (hq : QueueInv s.pool h)
    {arg : Nat} (ha : arg ∈ s.argsInUse) :
    ∃ k < h.added.length, k ∉ h.returned ∧ (h.added[k]?).map (·.arg) = some arg := by
  simp only [State.argsInUse, hq.stored, List.mem_map, List.mem_append, List.mem_filter] at ha
  obtain ⟨task, hm | ⟨t, ⟨ht, he⟩, rfl⟩, rfl⟩ := ha
  · obtain ⟨i, hi⟩ := List.mem_iff_getElem?.1 hm
    rw [List.getElem?_drop] at hi
    refine ⟨h.taken.length + i, (List.getElem?_eq_some_iff.1 hi).1, fun hr => ?_, by rw [hi]; rfl⟩
    have := hc.returned _ hr
    omega
  · obtain ⟨w, hw⟩ := List.mem_iff_getElem?.1 ht
    have htask := hc.task w t hw he
    obtain ⟨rest, hrest⟩ := hq.taken
    have hlt := hc.ordinal_lt hw he
    have hadd : h.added[h.ordinal w]? = some t.task := by
      rw [← hrest, List.getElem?_append_left hlt, htask]
    exact ⟨h.ordinal w, (List.getElem?_eq_some_iff.1 hadd).1, hc.pending w t hw he,
      by rw [hadd]; rfl⟩

theorem mem_returnedArgs {h : Hist} {k arg : Nat} (hk : k ∈ h.returned)
    (ha : (h.added[k]?).map (·.arg) = some arg) : arg ∈ h.returnedArgs :=
  List.mem_filterMap.2 ⟨k, hk, ha⟩

theorem record_freed {s : State} {a : Act} {h : Hist} {e : Freed}
    (he : e ∈ (record s a h).freed) : e ∈ h.freed ∨
      (adds s a = true ∧ e.arg ∈ s.pool.freedArg ∧ e.returned = h.returnedArgs ∧
        e.inUse = s.argsInUse) := by
  cases a with
  | worker w =>
    left
    simp only [record] at he
    split at he
    · split at he
      · unfold recordTake at he
        split at he <;> exact he
      · exact he
      · exact he
    · exact he
  | producer i =>
    simp only [record] at he
    split at he
    · rename_i t ht
      split at he
      · rename_i hpc
        simp only [recordAdd] at he
        split at he
        · rename_i arg harg
          rcases List.mem_append.1 he with he | he
          · exact .inl he
          · obtain rfl := List.mem_singleton.1 he
            exact .inr ⟨by simp [adds, ht, hpc], harg, rfl, rfl⟩
        · exact .inl he
      · exact .inl he
    · exact .inl he
  | _ => exact .inl he

/-- **What `threadpool_add` frees is done with**, in every run whose steps are `FreeSafe`. -/
theorem freesOnlyReturned_of_reach (c : Cfg) (hq : 1 ≤ c.queueMaxSize) (x : State × Hist)
    (h : Reach c FreeSafe x) : FreesOnlyReturned x.2 := by
  refine Lts.Run.inv_of (P := fun x => FreesOnlyReturned x.2)
    (Q := fun x => QueueInv x.1.pool x.2 ∧ CallInv x.1 x.2) h ?_ ?_ ?_
  · intro x hx
    exact ⟨(queueInv_of_freeSafe hq hx).1, callInv_of_reach hx⟩
  · intro e he
    cases he
  intro x a x' ⟨hqi, hci⟩ ih hok hst e he
  rw [(Lts.withHist_eq_some.1 hst).2] at he
  rcases record_freed he with he | ⟨ha, harg, hret, huse⟩
  · exact ih e he
  · obtain ⟨hl, hr, hn⟩ := (hok ha).2 e.arg harg
    rw [hret, huse]
    refine ⟨mem_returnedArgs hr (hqi.freedArg hl harg), ?_⟩
    intro hu
    obtain ⟨k, hk, hkr, hka⟩ := hci.argsInUse hqi hu
    exact hn k hk hkr hka

/-- One slot, one worker: the second call waits for the first task to finish. -/
theorem freesOnlyReturned_of_reach_slow : ∃ x, Reach (demoCfg 1 1 1 1) FreeSafe x ∧
    x.2.freed = [⟨7, [7], []⟩] ∧ FreesOnlyReturned x.2 := by
  obtain ⟨x, hx, hp⟩ := Lts.Run.exists_of_execOk histStep FreeSafe
    (Sched.add 0 ⟨1, 7⟩ none ++ Sched.runTask 0 ++ Sched.add 0 ⟨1, 8⟩ none)
    (threadpoolCreate (demoCfg 1 1 1 1), Hist.empty)
    (fun x => x.2.freed = [⟨7, [7], []⟩]) (by decide +kernel)
  exact ⟨x, hx, hp, freesOnlyReturned_of_reach _ (by decide) x hx⟩

/-- One slot, one worker: the second call frees the argument of the task that is still running. -/
theorem freesOnlyReturned_fails :
    ¬ ∀ x, Reach (demoCfg 1 1 1 1) Lts.Free x → FreesOnlyReturned x.2 := by
  intro hall
  obtain ⟨x, hx, hp⟩ := Lts.Run.exists_of_exec histStep
    (Sched.add 0 ⟨1, 7⟩ none ++ Sched.take 0 ++ Sched.add 0 ⟨1, 8⟩ none)
    (threadpoolCreate (demoCfg 1 1 1 1), Hist.empty)
    (fun x => x.2.freed = [⟨7, [], [7]⟩]) (by decide +kernel)
  have hf := hall x hx
  rw [FreesOnlyReturned, hp] at hf
  exact absurd (hf _ (List.mem_singleton.2 rfl)).1 (by decide)

end Pool
