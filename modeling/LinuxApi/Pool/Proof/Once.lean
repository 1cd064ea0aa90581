import LinuxApi.Pool.Proof.Callback

/-!
# Every accepted task is run exactly once

`CallInv` says that no task is run twice at the same time. `OnceInv` adds that none is forgotten: a
task that was taken is held by a worker until its callback has returned. With the ring this
gives `exactly_once`.
-/

set_option autoImplicit false

namespace Pool

open Threads

/-- Worker `w` executes task `k`. -/
def Executes (x : State × Hist) (w k : Nat) : Prop :=
  ∃ t, x.1.workers[w]? = some t ∧ t.pc.executing = true ∧ x.2.ordinal w = k

/-- No task returns twice, and none that was taken is forgotten. -/
structure OnceInv (s : State) (h : Hist) : Prop where
  nodup : h.returned.Nodup
  covered : ∀ k < h.taken.length, k ∈ h.returned ∨ ∃ w, Executes (s, h) w k

/-! ## Steps -/

theorem WorkerMove.still_executing {w : Nat} {p p' : Threadpool} {t t' : Worker}
    (h : WorkerMove w p t p' t') (ht : t.pc.executing = true) (hc : t.pc ≠ .callback) :
    t'.pc.executing = true := by
  cases h with
  | broadcast | unlock | lockBusy | incBusy | unlockBusy => rfl
  | callback hpc => exact absurd hpc hc
  | take hpc => simp [hpc, WorkerPc.executing] at ht
  | _ hpc => simp [hpc, WorkerPc.executing] at ht

/-- Only the return of its callback ends what a worker executes. -/
theorem StepMove.still_executing {s s' : State} {a : Act} (h : StepMove s a s')
    (hr : returns s a = false) {w : Nat} {t : Worker} (ht : s.workers[w]? = some t)
    (he : t.pc.executing = true) : ∃ t', s'.workers[w]? = some t' ∧ t'.pc.executing = true := by
  by_cases ha : a.owner = some (.worker w)
  · obtain ⟨rfl, t₀, t', _, ht₀, ht', -, hm⟩ := h.own_worker ha
    obtain rfl : t₀ = t := Option.some.inj (ht₀.symm.trans ht)
    refine ⟨t', ht', hm.still_executing he ?_⟩
    intro hpc
    simp [returns, ht, hpc] at hr
  · obtain ⟨t', ht', rfl | ⟨hpc, -⟩⟩ := h.still_worker ht ha
    · exact ⟨t', ht', he⟩
    · simp [hpc, WorkerPc.executing] at he

namespace OnceInv

variable {s s' : State} {h : Hist}

theorem keep {h' : Hist} (hi : OnceInv s h)
    (hex : ∀ (w : Nat) (t : Worker), s.workers[w]? = some t → t.pc.executing = true →
      ∃ t', s'.workers[w]? = some t' ∧ t'.pc.executing = true)
    (ht : h'.taken = h.taken) (ho : h'.ordinal = h.ordinal) (hr : h'.returned = h.returned) :
    OnceInv s' h' := by
  refine ⟨hr ▸ hi.nodup, ?_⟩
  intro k hk
  rw [ht] at hk
  rcases hi.covered k hk with hret | ⟨w, t, htw, he, hord⟩
  · exact .inl (hr ▸ hret)
  · obtain ⟨t', ht', he'⟩ := hex w t htw he
    exact .inr ⟨w, t', ht', he', by rw [ho, hord]⟩

/-- A worker takes a task. -/
theorem take (hi : OnceInv s h) {w : Nat} {t : Worker} {task : Task}
    (htw : s.workers[w]? = some t) (hpc : t.pc = .take)
    (hw : s'.workers = s.workers.set w { pc := .broadcast, task }) :
    OnceInv s' { h with
      taken := h.taken ++ [task]
      ordinal := fun v => if v = w then h.taken.length else h.ordinal v } := by
  refine ⟨hi.nodup, ?_⟩
  intro k hk
  rw [List.length_append, List.length_singleton] at hk
  rcases Nat.lt_succ_iff_lt_or_eq.1 hk with hk | rfl
  · rcases hi.covered k hk with hret | ⟨v, u, hu, he, hord⟩
    · exact .inl hret
    · have hne : v ≠ w := by
        rintro rfl
        obtain rfl : t = u := Option.some.inj (htw.symm.trans hu)
        simp [hpc, WorkerPc.executing] at he
      refine .inr ⟨v, u, ?_, he, ?_⟩
      · rw [hw, List.getElem?_set_ne hne.symm]
        exact hu
      · simp only [if_neg hne]
        exact hord
  · refine .inr ⟨w, { pc := .broadcast, task }, ?_, rfl, if_pos rfl⟩
    rw [hw]
    exact getElem?_set_of_some _ htw

/-- A callback returns. -/
theorem ret (hi : OnceInv s h) (hc : CallInv s h) {w : Nat} {t t' : Worker}
    (htw : s.workers[w]? = some t) (hpc : t.pc = .callback)
    (hw : s'.workers = s.workers.set w t') :
    OnceInv s' { h with returned := h.returned ++ [h.ordinal w] } := by
  refine ⟨?_, ?_⟩
  · have hnew := hc.pending w t htw (by rw [hpc]; rfl)
    exact List.nodup_append.2 ⟨hi.nodup, List.nodup_singleton _, by
      intro a ha b hb heq
      rw [List.mem_singleton.1 hb] at heq
      exact hnew (heq ▸ ha)⟩
  · intro k hk
    rcases hi.covered k hk with hret | ⟨v, u, hu, he, hord⟩
    · exact .inl (List.mem_append_left _ hret)
    · by_cases hne : v = w
      · subst hne
        exact .inl (by simp [← hord])
      · refine .inr ⟨v, u, ?_, he, hord⟩
        rw [hw, List.getElem?_set_ne (Ne.symm hne)]
        exact hu

theorem step {a : Act} (hi : OnceInv s h) (hc : CallInv s h) (hm : StepMove s a s') :
    OnceInv s' (record s a h) := by
  by_cases hr : returns s a = true
  · cases hm with
    | @worker w t t' p' ht hw =>
      have hpc : t.pc = .callback := by simpa [returns, ht] using hr
      rw [record_return ht hpc]
      exact hi.ret hc ht hpc rfl
    | _ => cases hr
  by_cases hta : takes s a = true
  · cases hm.queue with
    | take ht hpc hq _ hw =>
      rw [record_take ht hpc hq]
      exact hi.take ht hpc hw
    | enqueue | shutdown => cases hta
    | same _ hf => rw [hta] at hf; cases hf
  · obtain ⟨ho, hre⟩ := record_calls (h := h) (by simpa using hta) (by simpa using hr)
    exact hi.keep (fun _ _ ht he => hm.still_executing (by simpa using hr) ht he)
      (record_taken (by simpa using hta)) ho hre

end OnceInv

theorem onceInv_of_reach {c : Cfg} {ok : State × Hist → Act → Prop} {x : State × Hist}
    (h : Reach c ok x) : OnceInv x.1 x.2 := by
  refine Lts.Run.inv_of (P := fun x => OnceInv x.1 x.2) h
    (fun _ hx => callInv_of_reach hx) ?_ ?_
  · exact ⟨List.nodup_nil, fun k hk => absurd hk (Nat.not_lt_zero k)⟩
  · intro x a x' hc hi _ hst
    obtain ⟨hst, hh⟩ := Lts.withHist_eq_some.1 hst
    rw [hh]
    exact hi.step hc (step_move hst)

/-! ## The fate of a task -/

/-- **Every accepted task is run exactly once.** Before `shutdown`, in every run: the `k`-th task
that was added is in the queue, in the place of its turn, and nobody has taken it; or exactly one
worker executes it, with the function and the argument it was added with, and it has not
returned; or its callback has returned, once, and nobody executes it. -/
theorem exactly_once (c : Cfg) (hq : 1 ≤ c.queueMaxSize) (x : State × Hist)
    (h : Reach c Lts.Free x) (hs : x.1.pool.shutdown = false) (k : Nat) (task : Task)
    (hk : x.2.added[k]? = some task) :
    (x.2.taken.length ≤ k ∧ x.1.pool.stored[k - x.2.taken.length]? = some task ∧
      k ∉ x.2.returned ∧ ∀ w, ¬ Executes x w k) ∨
    (k < x.2.taken.length ∧ k ∉ x.2.returned ∧ ∃ w, Executes x w k ∧
      (∀ v, Executes x v k → v = w) ∧ ∀ t, x.1.workers[w]? = some t → t.task = task) ∨
    (k < x.2.taken.length ∧ x.2.returned.count k = 1 ∧ ∀ w, ¬ Executes x w k) := by
  have hqi := queueInv_of_reach hq h hs
  have hc := callInv_of_reach h
  have ho := onceInv_of_reach h
  rcases Nat.lt_or_ge k x.2.taken.length with hlt | hge
  · by_cases hret : k ∈ x.2.returned
    · refine .inr (.inr ⟨hlt, List.count_eq_one_of_mem ho.nodup hret, ?_⟩)
      rintro w ⟨t, ht, he, hord⟩
      exact hc.pending w t ht he (hord ▸ hret)
    · obtain ⟨w, t, ht, he, hord⟩ := (ho.covered k hlt).resolve_left hret
      refine .inr (.inl ⟨hlt, hret, w, ⟨t, ht, he, hord⟩, ?_, ?_⟩)
      · rintro v ⟨u, hu, heu, hordv⟩
        exact hc.distinct v w u t hu ht heu he (hordv.trans hord.symm)
      · intro t' ht'
        obtain rfl : t = t' := Option.some.inj (ht.symm.trans ht')
        have htask := hc.task w t ht he
        obtain ⟨rest, hrest⟩ := hqi.taken
        rw [hord] at htask
        rw [← hrest, List.getElem?_append_left hlt, htask] at hk
        exact Option.some.inj hk
  · refine .inl ⟨hge, ?_, ?_, ?_⟩
    · rw [hqi.stored, List.getElem?_drop, Nat.add_sub_cancel' hge]
      exact hk
    · exact fun hret => Nat.not_lt.2 hge (hc.returned k hret)
    · rintro w ⟨t, ht, he, hord⟩
      exact Nat.not_lt.2 hge (hord ▸ hc.ordinal_lt ht he)

/-- Three tasks on one worker: the first has returned, the second is running, the third waits. -/
theorem exactly_once_three : ∃ x, Reach (demoCfg 1 1 2 1) Lts.Free x ∧
    x.2.added = [⟨1, 7⟩, ⟨1, 8⟩, ⟨1, 9⟩] ∧ x.2.returned = [0] ∧ x.2.taken.length = 2 ∧
    x.1.pool.stored[0]? = some ⟨1, 9⟩ := by
  obtain ⟨x, hx, hs, ha, hr, ht⟩ := Lts.Run.exists_of_exec histStep
    (Sched.add 0 ⟨1, 7⟩ none ++ Sched.add 0 ⟨1, 8⟩ none ++ Sched.runTask 0 ++ Sched.take 0 ++
      Sched.add 0 ⟨1, 9⟩ none) (threadpoolCreate (demoCfg 1 1 2 1), Hist.empty)
    (fun x => x.1.pool.shutdown = false ∧ x.2.added = [⟨1, 7⟩, ⟨1, 8⟩, ⟨1, 9⟩] ∧
      x.2.returned = [0] ∧ x.2.taken.length = 2) (by decide +kernel)
  have h2 := exactly_once (demoCfg 1 1 2 1) (by decide) x hx hs 2 ⟨1, 9⟩ (by rw [ha]; rfl)
  refine ⟨x, hx, ha, hr, ht, ?_⟩
  rcases h2 with ⟨-, hst, -⟩ | ⟨hlt, -⟩ | ⟨hlt, -⟩
  · rwa [ht] at hst
  · omega
  · omega

end Pool
