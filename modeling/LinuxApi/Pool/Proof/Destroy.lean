import LinuxApi.Pool.Proof.Slots

/-!
# When `threadpool_destroy` frees the pool after the last worker

`threadpool_destroy` joins the threads in the first `live_thr_num` slots. Workers retire from any
slot, so a running worker can sit in a later one, and a worker that retires is not counted while it
still has the mutex to give back (`destroyed_fails`). If workers retire in the order of the slots
(`InOrder`), and none while the others are joined (`JoinQuiet`), the slots that are left out hold no
running worker by `SlotInv`, and none is running when the pool is freed (`destroyed_of_run`).
-/

set_option autoImplicit false

namespace Pool

open Threads

/-- `threadpool_destroy` joins the workers, 296–298. -/
def DestroyerPc.joins : DestroyerPc → Bool
  | .joinTest | .join => true
  | _ => false

/-- No worker retires while `threadpool_destroy` joins the workers: none is about to end when it
begins to, and none begins to retire after that. -/
def JoinQuiet (s : State) : Act → Prop
  | .worker w => retires s w = true → s.destroyer.pc.joins = false
  | .destroy => s.destroyer.pc = .broadcastTest → s.pool.liveThrNum ≤ s.destroyer.i →
      NoneRetiring s
  | _ => True

def DestroySafe (s : State) (a : Act) : Prop := EsrchExact s a ∧ InOrder s a ∧ JoinQuiet s a

instance (s : State) : ∀ a, Decidable (JoinQuiet s a)
  | .worker _ => inferInstanceAs (Decidable (_ → _ = _))
  | .destroy => inferInstanceAs (Decidable (_ → _ → NoneRetiring s))
  | .spuriousWorker _ | .call _ _ | .producer _ | .addSignal _ _ | .spuriousProducer _
  | .manager | .grow _ | .shrinkSignal _ => inferInstanceAs (Decidable True)

instance (s : State) (a : Act) : Decidable (DestroySafe s a) :=
  inferInstanceAs (Decidable (_ ∧ _ ∧ _))

/-! ## The invariant -/

/-- The manager has been joined. -/
def DestroyerPc.managerJoined : DestroyerPc → Bool
  | .idle | .setShutdown | .joinManager => false
  | _ => true

structure DestroyInv (s : State) : Prop where
  lock : s.pool.shutdown = false → LockInv s
  slots : s.pool.minThrNum ≤ s.pool.threads.length → SlotInv s
  min_le : s.pool.minThrNum ≤ s.pool.liveThrNum
  manager : s.destroyer.pc.managerJoined = true → s.manager.pc = .returned
  quiet : s.destroyer.pc.joins = true → NoneRetiring s
  joined : s.destroyer.pc = .joinTest ∨ s.destroyer.pc = .join → ∀ k < s.destroyer.i,
    ∃ tid, s.pool.threads[k]? = some tid ∧ joinable s.workers tid = true
  freed : s.destroyer.pc = .free ∨ s.destroyer.pc = .returned → ∀ t ∈ s.workers, t.pc.dead = true

theorem StepMove.min_le {s s' : State} {a : Act} (h : StepMove s a s')
    (hl : s.pool.minThrNum ≤ s.pool.liveThrNum) : s'.pool.minThrNum ≤ s'.pool.liveThrNum := by
  rw [h.sameLimits.minThrNum]
  cases h with
  | worker _ hm => exact (hm.min_le hl).1
  | producer _ hm => cases hm <;> exact hl
  | manager hm => cases hm <;> exact hl
  | grow _ hg =>
    cases hg with
    | create => simp only; omega
    | skip | done => exact hl
  | destroy hd => cases hd <;> exact hl
  | _ => exact hl

/-- The manager takes no step after it has returned. -/
theorem StepMove.manager_returned {s s' : State} {a : Act} (h : StepMove s a s')
    (hm : s.manager.pc = .returned) : s'.manager.pc = .returned := by
  cases h with
  | manager hmv => cases hmv <;> simp_all
  | grow hpc => simp [hm] at hpc
  | shrinkSignal hpc | shrinkDone hpc => simp [hm] at hpc
  | _ => exact hm

/-- No thread is created after the manager has returned. -/
theorem StepMove.table_of_returned {s s' : State} {a : Act} (h : StepMove s a s')
    (hm : s.manager.pc = .returned) :
    s'.pool.threads = s.pool.threads ∧ s'.workers.length = s.workers.length := by
  cases h.table with
  | create hpc => simp [hm] at hpc
  | retire _ _ _ _ hws ht => exact ⟨ht, by rw [hws, List.length_set]⟩
  | same ht _ hl => exact ⟨ht, hl⟩

theorem StepMove.other_destroyer {s s' : State} {a : Act} (h : StepMove s a s')
    (ha : a ≠ .destroy) : s'.destroyer = s.destroyer := by
  cases h with
  | destroy => exact absurd rfl ha
  | _ => rfl

theorem DestroyInv.step_manager {s s' : State} {a : Act} (hi : DestroyInv s) (h : StepMove s a s')
    (hj : s'.destroyer.pc.managerJoined = true) : s'.manager.pc = .returned := by
  by_cases ha : a = .destroy
  · subst ha
    cases h with
    | destroy hd =>
      cases hd with
      | joinManager _ hm => exact hm
      | call | setShutdown => cases hj
      | _ hpc => exact hi.manager (by rw [hpc]; rfl)
  · rw [h.other_destroyer ha] at hj
    exact h.manager_returned (hi.manager hj)

/-- A joined slot stays joined. -/
theorem DestroyInv.step_joined {s s' : State} {a : Act} (hi : DestroyInv s) (h : StepMove s a s')
    (hj : s'.destroyer.pc = .joinTest ∨ s'.destroyer.pc = .join) :
    ∀ k < s'.destroyer.i, ∃ tid, s'.pool.threads[k]? = some tid ∧
      joinable s'.workers tid = true := by
  have hold : ∀ {k tid : Nat}, s.destroyer.pc.managerJoined = true → s.pool.threads[k]? = some tid →
      joinable s.workers tid = true →
      ∃ tid, s'.pool.threads[k]? = some tid ∧ joinable s'.workers tid = true := by
    intro k tid hm hk hj
    exact ⟨tid, by rw [(h.table_of_returned (hi.manager hm)).1]; exact hk, h.joinable hj⟩
  by_cases ha : a = .destroy
  · subst ha
    intro k hk
    cases h with
    | destroy hd =>
      cases hd with
      | joinTest hpc =>
        obtain ⟨tid, htid, hjn⟩ := hi.joined (.inl hpc) k hk
        exact hold (by rw [hpc]; rfl) htid hjn
      | join hpc htid hjn =>
        rcases Nat.lt_succ_iff_lt_or_eq.1 hk with hlt | rfl
        · obtain ⟨tid, htid, hjn⟩ := hi.joined (.inr hpc) k hlt
          exact hold (by rw [hpc]; rfl) htid hjn
        · exact hold (by rw [hpc]; rfl) htid hjn
      | broadcastDone => cases hk
      | _ => simp at hj
  · rw [h.other_destroyer ha] at hj ⊢
    intro k hk
    obtain ⟨tid, htid, hjn⟩ := hi.joined hj k hk
    exact hold (by rcases hj with hpc | hpc <;> rw [hpc] <;> rfl) htid hjn

/-- While the workers are joined, none retires. -/
theorem DestroyInv.step_quiet {s s' : State} {a : Act} (hi : DestroyInv s) (h : StepMove s a s')
    (hok : JoinQuiet s a) (hj : s'.destroyer.pc.joins = true) : NoneRetiring s' := by
  by_cases ha : a = .destroy
  · subst ha
    cases h with
    | destroy hd =>
      cases hd with
      | broadcastDone hpc hl => simpa [NoneRetiring, hpc] using hok hpc hl
      | joinTest hpc => simpa [NoneRetiring, hpc] using hi.quiet (by rw [hpc]; rfl)
      | join hpc => simpa [NoneRetiring, hpc] using hi.quiet (by rw [hpc]; rfl)
      | _ => cases hj
  · rw [h.other_destroyer ha] at hj
    intro t' ht' hpc'
    obtain ⟨w, hw⟩ := List.mem_iff_getElem?.1 ht'
    rcases h.retiring_before hw hpc' with ⟨t, ht, hpc⟩ | ⟨rfl, hr⟩
    · exact hi.quiet hj t (List.mem_of_getElem? ht) hpc
    · rw [hok hr] at hj
      cases hj

/-- When the join loop ends, the slots before its index are joined, and those from there on hold no
running worker. -/
theorem DestroyInv.all_dead {s : State} (hi : DestroyInv s) (hpc : s.destroyer.pc = .joinTest)
    (hl : s.pool.liveThrNum ≤ s.destroyer.i) : ∀ t ∈ s.workers, t.pc.dead = true := by
  intro t ht
  obtain ⟨w, hw⟩ := List.mem_iff_getElem?.1 ht
  by_contra hd
  have hlen : s.destroyer.i ≤ s.pool.threads.length := by
    by_contra hlt
    obtain ⟨tid, htid, -⟩ := hi.joined (.inl hpc) s.pool.threads.length (by omega)
    simp at htid
  have hmin := hi.min_le
  have hslots := hi.slots (by omega)
  obtain ⟨k, hk⟩ := List.mem_iff_getElem?.1 (hslots.slotted w t hw (by simpa using hd))
  have hj : joinable s.workers (tidOf w) = true := by
    by_cases hki : k < s.destroyer.i
    · obtain ⟨tid, htid, hjn⟩ := hi.joined (.inl hpc) k hki
      rwa [Option.some.inj (htid.symm.trans hk)] at hjn
    · have hleaving := hslots.tail k _ (by omega) hk (by simp [tidOf])
      exact hleaving.joinable (hi.quiet (by rw [hpc]; rfl))
  rw [joinable_tidOf hw] at hj
  exact hd hj

theorem DestroyInv.step_freed {s s' : State} {a : Act} (hi : DestroyInv s) (h : StepMove s a s')
    (hf : s'.destroyer.pc = .free ∨ s'.destroyer.pc = .returned) :
    ∀ t ∈ s'.workers, t.pc.dead = true := by
  -- the workers that have terminated are all there are
  have hkeep : s.destroyer.pc.managerJoined = true → (∀ t ∈ s.workers, t.pc.dead = true) →
      ∀ t ∈ s'.workers, t.pc.dead = true := by
    intro hm hall t' ht'
    obtain ⟨w, hw⟩ := List.mem_iff_getElem?.1 ht'
    by_contra hd
    rcases h.running_before hw (by simpa using hd) with ⟨t, ht, hdt⟩ | rfl
    · rw [hall t (List.mem_of_getElem? ht)] at hdt
      cases hdt
    · have := (List.getElem?_eq_some_iff.1 hw).1
      have := (h.table_of_returned (hi.manager hm)).2
      omega
  by_cases ha : a = .destroy
  · subst ha
    have hcases : s.destroyer.pc = .free ∨
        s.destroyer.pc = .joinTest ∧ s.pool.liveThrNum ≤ s.destroyer.i := by
      cases h with
      | destroy hd =>
        cases hd with
        | joinDone hpc hl => exact .inr ⟨hpc, hl⟩
        | free hpc => exact .inl hpc
        | _ => simp at hf
    rcases hcases with hpc | ⟨hpc, hl⟩
    · exact hkeep (by rw [hpc]; rfl) (hi.freed (.inl hpc))
    · exact hkeep (by rw [hpc]; rfl) (hi.all_dead hpc hl)
  · rw [h.other_destroyer ha] at hf
    exact hkeep (by rcases hf with hpc | hpc <;> rw [hpc] <;> rfl) (hi.freed hf)

theorem DestroyInv.step {s s' : State} {a : Act} (hi : DestroyInv s) (h0 : 0 ≤ s.pool.minThrNum)
    (h : StepMove s a s') (hok : DestroySafe s a) : DestroyInv s' where
  lock hs := (hi.lock (h.shutdown_mono hs)).step h hs
  slots hm := by
    rw [h.sameLimits.minThrNum, h.threads_length] at hm
    exact (hi.slots hm).step h hok.2.1 (h0.trans hi.min_le) hok.1 hi.lock
  min_le := h.min_le hi.min_le
  manager := hi.step_manager h
  quiet := hi.step_quiet h hok.2.2
  joined := hi.step_joined h
  freed := hi.step_freed h

theorem DestroyInv.create {c : Cfg} (h0 : 0 ≤ c.minThrNum) : DestroyInv (threadpoolCreate c) where
  lock _ := .create c
  slots hm := by
    simp only [threadpoolCreate, createWorkers_length, List.length_replicate] at hm
    exact .create (by omega)
  min_le := Int.le_refl _
  manager hj := by cases hj
  quiet hj := by cases hj
  joined hj := by simp [threadpoolCreate] at hj
  freed hf := by simp [threadpoolCreate] at hf

/-- **The pool is freed after the last worker**, in every run whose steps are `DestroySafe`. -/
theorem destroyed_of_run (c : Cfg) (h0 : 0 ≤ c.minThrNum) (s : State)
    (h : Lts.Run step DestroySafe (threadpoolCreate c) s)
    (hf : s.destroyer.pc = .free ∨ s.destroyer.pc = .returned) :
    ∀ t ∈ s.workers, t.pc.dead = true := by
  have hi : DestroyInv s := by
    apply h.inv_of (Q := fun s => 0 ≤ s.pool.minThrNum) _ (.create h0)
    · intro s a s' hmin ih hok hst
      exact ih.step hmin (step_move hst) hok
    · intro s hr
      rw [(sameLimits_of_run hr).minThrNum]
      exact h0
  exact hi.freed hf

/-- Worker 1 has been created in slot 1 and has retired; `threadpool_destroy` joins slot 0. -/
theorem destroyed_of_run_shrunk : ∃ s,
    Lts.Run step DestroySafe (threadpoolCreate (demoCfg 1 2 10 1)) s ∧
      s.destroyer.pc = .returned ∧ s.workers.length = 2 ∧ ∀ t ∈ s.workers, t.pc.dead = true := by
  obtain ⟨s, hr, hpc, hl⟩ := Lts.Run.exists_of_execOk step DestroySafe
    (Sched.growAndShrink ++ [.shrinkSignal none] ++ Sched.destroyBegin ++ [.manager] ++
      Sched.times 4 [.destroy] ++ Sched.times 5 [.worker 0] ++ Sched.times 4 [.destroy])
    (threadpoolCreate (demoCfg 1 2 10 1))
    (fun s => s.destroyer.pc = .returned ∧ s.workers.length = 2) (by decide +kernel)
  exact ⟨s, hr, hpc, hl, destroyed_of_run _ (by decide) s hr (.inr hpc)⟩

/-- One to two workers. Worker 0 sleeps, the manager creates worker 1 and starts a shrink pass, and
worker 0, woken for a task, retires from slot 0. `threadpool_destroy` joins slot 0 and frees the
pool while worker 1 is running. -/
theorem destroyed_fails : ¬ ∀ s,
    Lts.Run step EsrchExact (threadpoolCreate (demoCfg 1 2 10 1)) s → s.destroyer.pc = .free →
      ∀ t ∈ s.workers, t.pc.dead = true := by
  intro hall
  obtain ⟨s, hr, hpc, hn⟩ := Lts.Run.exists_of_execOk step EsrchExact
    (Sched.sleep 0 ++ Sched.add 0 ⟨1, 7⟩ (some 0) ++ Sched.times 9 (Sched.add 0 ⟨1, 7⟩ none) ++
      Sched.toGrowLoop ++ Sched.times 3 [.grow false] ++ Sched.afterGrow ++ Sched.shrinkPass ++
      Sched.times 3 [.worker 0] ++ Sched.destroyBegin ++ [.manager] ++ Sched.times 7 [.destroy])
    (threadpoolCreate (demoCfg 1 2 10 1))
    (fun s => s.destroyer.pc = .free ∧ ¬ ∀ t ∈ s.workers, t.pc.dead = true) (by decide +kernel)
  exact hn (hall s hr hpc)

end Pool
