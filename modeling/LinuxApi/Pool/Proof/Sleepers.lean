import LinuxApi.Pool.Proof.Queue
import LinuxApi.Pool.Schedule

/-!
# Who sleeps on `queue_not_full`

A producer goes to sleep on a full queue, and the worker that makes room broadcasts before it
gives `pool->lock` back. So while a producer is asleep the queue is full, or a worker stands
between its task and its broadcast (`FullInv`); outside the critical sections the queue is full
(`sleeps_on_full`).
-/

set_option autoImplicit false

namespace Pool

open Threads

/-- A worker has taken a task and is about to broadcast. -/
def Broadcasting (s : State) : Prop :=
  ∃ (w : Nat) (t : Worker), s.workers[w]? = some t ∧ t.pc = .broadcast

def FullInv (s : State) : Prop :=
  ∀ (i : Nat) (t : Producer), s.producers[i]? = some t → t.pc = .asleep →
    s.pool.queueSize = s.pool.queueMaxSize ∨ Broadcasting s

/-- A producer that is asleep was so before the step, or the step was its wait. -/
theorem StepMove.asleep_producer {s s' : State} {a : Act} (h : StepMove s a s') {i : Nat}
    {t' : Producer} (ht' : s'.producers[i]? = some t') (hpc' : t'.pc = .asleep) :
    (∃ t, s.producers[i]? = some t ∧ t.pc = .asleep) ∨
      ∃ t, s.producers[i]? = some t ∧ t.pc = .wait ∧ s'.pool = s.pool.release := by
  by_cases ha : a.owner = some (.producer i)
  · obtain ⟨t, p', -, ht, hp, hm⟩ | ⟨task, -, rfl⟩ | ⟨t, woken, -, -, -, rfl⟩ :=
      h.own_producer ha ht'
    · cases hm with
      | wait hpc => exact .inr ⟨t, ht, hpc, hp⟩
      | _ => cases hpc'
    · cases hpc'
    · cases hpc'
  · obtain ⟨t, ht, rfl | ⟨-, rfl⟩⟩ := h.other_producer ht' ha
    · exact .inl ⟨t', ht, hpc'⟩
    · cases hpc'

/-- The broadcast wakes every producer; until then the worker stays where it is. -/
theorem StepMove.broadcasting {s s' : State} {a : Act} (h : StepMove s a s')
    (hb : Broadcasting s) :
    Broadcasting s' ∨ ∀ (i : Nat) (t' : Producer), s'.producers[i]? = some t' → t'.pc ≠ .asleep := by
  obtain ⟨w, t, ht, hpc⟩ := hb
  by_cases ha : a.owner = some (.worker w)
  · right
    cases h with
    | @worker w0 t0 t1 p' ht0 hm =>
      obtain rfl : w0 = w := by simpa [Act.owner] using ha
      obtain rfl : t0 = t := Option.some.inj (ht0.symm.trans ht)
      intro i u hu
      simp only [hpc, if_true, List.getElem?_map, Option.map_eq_some_iff] at hu
      obtain ⟨v, -, rfl⟩ := hu
      unfold Producer.wake
      split
      · simp [Producer.goto]
      · assumption
    | _ => simp [Act.owner] at ha
  · left
    obtain ⟨t', ht', rfl | ⟨hpc', -⟩⟩ := h.still_worker ht ha
    · exact ⟨w, t', ht', hpc⟩
    · rw [hpc] at hpc'
      cases hpc'

theorem FullInv.step {s s' : State} {a : Act} (hi : FullInv s) (h : StepMove s a s')
    (hl : LockInv s) (hs' : s'.pool.shutdown = false) : FullInv s' := by
  intro i t' ht' hpc'
  rcases h.asleep_producer ht' hpc' with ⟨t, ht, hpc⟩ | ⟨t, ht, hpc, he⟩
  · rcases hi i t ht hpc with hfull | hb
    · cases h.queue with
      | @take w u task hw hpcw _ _ hws =>
        refine .inr ⟨w, { pc := .broadcast, task }, ?_, rfl⟩
        rw [hws]
        exact getElem?_set_of_some _ hw
      | @enqueue j u hu hpcu =>
        have hroom := hl.adds (a := .producer j) (by simp [Pool.adds, hu, hpcu])
        exact absurd hfull hroom
      | shutdown he => simp [he] at hs'
      | same he => exact .inl (by rw [he.queueSize, he.queueMaxSize]; exact hfull)
    · rcases h.broadcasting hb with hb' | hno
      · exact .inr hb'
      · exact absurd hpc' (hno i t' ht')
  · -- it has tested the queue, and has had the mutex since
    have hfull := hl.producer i t ht
    rw [hpc] at hfull
    rw [he]
    exact .inl hfull

/-- **Producers sleep only on a full queue**, outside `pool->lock` and before `shutdown`. -/
theorem sleeps_on_full (c : Cfg) (s : State) (h : Lts.Run step Lts.Free (threadpoolCreate c) s)
    (hs : s.pool.shutdown = false) (hl : s.pool.lock = none) {t : Producer}
    (ht : t ∈ s.producers) (hpc : t.pc = .asleep) : s.pool.queueSize = s.pool.queueMaxSize := by
  have hi : FullInv s := by
    refine h.inv_of (P := fun s => s.pool.shutdown = false → FullInv s)
      (Q := fun s => s.pool.shutdown = false → LockInv s) ?_ ?_ ?_ hs
    · intro s hr
      exact lockInv_of_run hr
    · intro _ i t ht hpc
      obtain ⟨-, rfl⟩ := by simpa [threadpoolCreate, List.getElem?_replicate] using ht
      cases hpc
    · intro s a s' hL ih _ hst hs'
      have hm := step_move hst
      have hs0 := hm.shutdown_mono hs'
      exact (ih hs0).step hm (hL hs0) hs'
  obtain ⟨i, hi'⟩ := List.mem_iff_getElem?.1 ht
  rcases hi i t hi' hpc with hfull | ⟨w, u, hu, hpcu⟩
  · exact hfull
  · have hexcl := (lockInv_of_run h hs).excl
    rw [hl] at hexcl
    exact absurd ⟨u, hu, by rw [hpcu]; rfl⟩ (hexcl.not_of_none (.worker w))

/-- Two producers wait for room in a queue of one; a worker takes the task, and one of the
producers fills the queue again before the other is back. -/
theorem sleeps_on_full_refilled : ∃ s,
    Lts.Run step Lts.Free (threadpoolCreate (demoCfg 1 1 1 3)) s ∧
      (∃ t ∈ s.producers, t.pc = .asleep) ∧ s.pool.queueSize = s.pool.queueMaxSize := by
  obtain ⟨s, hr, hs, hl, t, ht, hpc⟩ := Lts.Run.exists_of_exec step
    (Sched.add 0 ⟨1, 7⟩ none ++ .call 1 ⟨1, 8⟩ :: Sched.times 3 [.producer 1] ++
      .call 2 ⟨1, 9⟩ :: Sched.times 3 [.producer 2] ++ Sched.take 0 ++
      Sched.times 4 [.producer 2] ++ [.addSignal 2 none, .producer 2] ++
      Sched.times 3 [.producer 1])
    (threadpoolCreate (demoCfg 1 1 1 3))
    (fun s => s.pool.shutdown = false ∧ s.pool.lock = none ∧ ∃ t ∈ s.producers, t.pc = .asleep)
    (by decide +kernel)
  exact ⟨s, hr, ⟨t, ht, hpc⟩, sleeps_on_full _ s hr hs hl ht hpc⟩

end Pool
