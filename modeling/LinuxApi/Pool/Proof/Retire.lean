import LinuxApi.Pool.Proof.Mutex
import LinuxApi.Pool.Hist
import LinuxApi.Pool.Schedule

/-!
# Retirements and shrink decisions

Every shrink decision of `adjust_thread` sets `wait_exit_thr_num` to `DEFAULT_THREAD_VARY`, and every
retirement takes one off it, so the retirements are bounded by the decisions (`RetireInv`).
`threadpool_create` does not set the field: what `malloc` left there counts as requests that
nobody made (`retired_fails`). `Requested` excludes retirements before the first request.
-/

set_option autoImplicit false

namespace Pool

/-! ## Decisions and retirements -/

/-- The shrink decisions and the retirements so far, and whether `wait_exit_thr_num` has been set. -/
structure Shrinks where
  decisions : Nat
  retired : Nat
  requested : Bool
deriving DecidableEq, Repr

def Shrinks.none : Shrinks := ⟨0, 0, false⟩

/-- The next step of the manager decides to shrink the pool (264). -/
def decides (s : State) : Bool :=
  s.manager.pc = .shrinkTest && s.manager.busyThrNum * 2 < s.manager.liveThrNum &&
    s.pool.minThrNum < s.manager.liveThrNum

def recordShrinks (s : State) (a : Act) (h : Shrinks) : Shrinks :=
  match a with
  | .worker w => if retires s w then { h with retired := h.retired + 1 } else h
  | .manager =>
    if decides s then { h with decisions := h.decisions + 1 }
    else if s.manager.pc = .setExit then { h with requested := true }
    else h
  | _ => h

/-- The program with its shrink decisions. -/
def shrinkStep : State × Shrinks → Act → Option (State × Shrinks) :=
  Lts.withHist step recordShrinks

/-- A worker enters the retire branch only after `adjust_thread` has set `wait_exit_thr_num`. -/
def Requested (x : State × Shrinks) : Act → Prop
  | .worker w => retires x.1 w = true → x.2.requested = true
  | _ => True

instance (x : State × Shrinks) : ∀ a, Decidable (Requested x a)
  | .worker _ => inferInstanceAs (Decidable (_ → _))
  | .spuriousWorker _ | .call _ _ | .producer _ | .addSignal _ _ | .spuriousProducer _ | .manager
  | .grow _ | .shrinkSignal _ | .destroy => inferInstanceAs (Decidable True)

/-! ## The invariant -/

/-- The manager has decided and not set `wait_exit_thr_num` yet. -/
def ManagerPc.deciding : ManagerPc → Bool
  | .shrinkLock | .setExit => true
  | _ => false

/-- The retirements that can still be charged to the decisions. -/
def credit (s : State) (h : Shrinks) : Nat :=
  (if h.requested then s.pool.waitExitThrNum.toNat else 0) +
    (if s.manager.pc.deciding then defaultThreadVary else 0)

def RetireInv (s : State) (h : Shrinks) : Prop :=
  h.retired + credit s h ≤ defaultThreadVary * h.decisions

/-- What a step does to `wait_exit_thr_num`, and what is recorded of it. -/
inductive ExitMove (s s' : State) (h : Shrinks) : Act → Shrinks → Prop
  | retire {w : Nat} : retires s w = true → 0 < s.pool.waitExitThrNum →
      s'.pool.waitExitThrNum = s.pool.waitExitThrNum - 1 → s'.manager = s.manager →
      ExitMove s s' h (.worker w) { h with retired := h.retired + 1 }
  | spare {a : Act} : s'.pool.waitExitThrNum ≤ s.pool.waitExitThrNum →
      s'.manager = s.manager → ExitMove s s' h a h
  | decide : s'.pool.waitExitThrNum = s.pool.waitExitThrNum → s.manager.pc.deciding = false →
      s'.manager.pc.deciding = true →
      ExitMove s s' h .manager { h with decisions := h.decisions + 1 }
  | request : s'.pool.waitExitThrNum = defaultThreadVary → s.manager.pc.deciding = true →
      s'.manager.pc.deciding = false → ExitMove s s' h .manager { h with requested := true }
  | same {a : Act} : s'.pool.waitExitThrNum = s.pool.waitExitThrNum →
      s'.manager.pc.deciding = s.manager.pc.deciding → ExitMove s s' h a h

theorem retires_eq {s : State} {w : Nat} {t : Worker} (ht : s.workers[w]? = some t) :
    retires s w = (decide (t.pc = .chkExit) && s.pool.chkExit.2) := by
  simp [retires, ht]

theorem StepMove.exitMove {s s' : State} {a : Act} (h : StepMove s a s') (r : Shrinks) :
    ExitMove s s' r a (recordShrinks s a r) := by
  cases h with
  | @worker w t t' p' ht hm =>
    cases hm with
    | retire hpc h0 hl =>
      have hr := retires_of ht hpc h0 hl
      simp only [recordShrinks, hr, if_true]
      exact .retire hr h0 rfl rfl
    | spare hpc h0 hl =>
      have hr : retires s w = false := by
        rw [retires_eq ht]
        simp [Threadpool.chkExit, h0, Int.not_lt.2 hl]
      simp only [recordShrinks, hr]
      exact .spare (by simp only; omega) rfl
    | stay hpc h0 =>
      have hr : retires s w = false := by
        rw [retires_eq ht]
        simp [Threadpool.chkExit, Int.not_lt.2 h0]
      simp only [recordShrinks, hr]
      exact .same rfl rfl
    | _ hpc =>
      have hr : retires s w = false := by
        rw [retires_eq ht, hpc]
        rfl
      simp only [recordShrinks, hr]
      exact .same rfl rfl
  | producer _ hm => exact .same (by cases hm <;> rfl) rfl
  | grow hpc hg =>
    refine .same (by cases hg <;> rfl) ?_
    cases hg <;> simp [hpc, Manager.goto, ManagerPc.deciding]
  | destroy hd => exact .same (by cases hd <;> rfl) rfl
  | shrinkDone hpc => exact .same rfl (by simp [hpc, Manager.goto, ManagerPc.deciding])
  | manager hm =>
    cases hm with
    | shrink hpc hb hl =>
      have hd : decides s = true := by simp [decides, hpc, hb, hl]
      simp only [recordShrinks, hd, if_true]
      exact .decide rfl (by rw [hpc]; rfl) rfl
    | noShrink hpc hn =>
      have hd : decides s = false := by
        simp only [decides, hpc, decide_true, Bool.true_and, Bool.and_eq_false_iff,
          decide_eq_false_iff_not]
        by_cases hb : s.manager.busyThrNum * 2 < s.manager.liveThrNum
        · exact .inr (Int.not_lt.2 (hn hb))
        · exact .inl hb
      simp only [recordShrinks, hd, hpc]
      exact .same rfl (by rw [hpc]; rfl)
    | setExit hpc =>
      have hd : decides s = false := by simp [decides, hpc]
      simp only [recordShrinks, hd, hpc]
      exact .request rfl (by rw [hpc]; rfl) rfl
    | _ hpc =>
      have hd : decides s = false := by simp [decides, hpc]
      simp only [recordShrinks, hd, hpc]
      exact .same rfl (by rw [hpc]; rfl)
  | _ => exact .same rfl rfl

theorem RetireInv.step {s s' : State} {a : Act} {r : Shrinks} (hi : RetireInv s r)
    (h : StepMove s a s') (hok : Requested (s, r) a) : RetireInv s' (recordShrinks s a r) := by
  unfold RetireInv credit at hi ⊢
  generalize hr' : recordShrinks s a r = r'
  have hm := h.exitMove r
  rw [hr'] at hm
  cases hm with
  | retire hr h0 he hmgr =>
    rw [he, hmgr, if_pos (hok hr)]
    rw [if_pos (hok hr)] at hi
    simp only
    omega
  | spare he hmgr =>
    rw [hmgr]
    by_cases hr : r.requested = true
    · simp only [hr, if_true] at hi ⊢
      omega
    · simp only [hr] at hi ⊢
      exact hi
  | decide he hd hd' =>
    simp only [hd, hd', he, if_true, Bool.false_eq_true, if_false, Nat.mul_add, Nat.mul_one]
      at hi ⊢
    omega
  | request he hd hd' =>
    simp only [hd, hd', he, if_true, Bool.false_eq_true, if_false, Int.toNat_natCast] at hi ⊢
    omega
  | same he hd =>
    rw [he, hd]
    exact hi

theorem retireInv_of_run {c : Cfg} {x : State × Shrinks}
    (h : Lts.Run shrinkStep Requested (threadpoolCreate c, Shrinks.none) x) :
    RetireInv x.1 x.2 := by
  apply Lts.Run.inv (P := fun x => RetireInv x.1 x.2) h
  · exact Nat.zero_le _
  · intro x a x' ih hok hst
    obtain ⟨hst, hh⟩ := Lts.withHist_eq_some.1 hst
    rw [hh]
    exact ih.step (step_move hst) hok

/-- Nobody asks for retirements before the first decision if `malloc` left nothing to ask for. -/
def Unasked (x : State × Shrinks) : Prop :=
  x.2.requested = false → x.1.pool.waitExitThrNum ≤ 0

theorem Unasked.requested {s s' : State} {a : Act} {r : Shrinks} (hi : Unasked (s, r))
    (h : StepMove s a s') : Requested (s, r) a := by
  cases a with
  | worker w =>
    intro hr
    by_contra hn
    have h0 := hi (Bool.eq_false_iff.2 hn)
    simp only at h0
    simp [retires, Threadpool.chkExit, Int.not_lt.2 h0] at hr
  | _ => trivial

theorem Unasked.step {s s' : State} {a : Act} {r : Shrinks} (hi : Unasked (s, r))
    (h : StepMove s a s') : Unasked (s', recordShrinks s a r) := by
  unfold Unasked at hi ⊢
  simp only at hi ⊢
  generalize hr' : recordShrinks s a r = r'
  have hm := h.exitMove r
  rw [hr'] at hm
  cases hm with
  | retire _ _ he => intro hn; have := hi hn; omega
  | spare he => intro hn; have := hi hn; omega
  | decide he => rw [he]; exact hi
  | request => intro hn; cases hn
  | same he => rw [he]; exact hi

/-- A pool in which `wait_exit_thr_num` starts without requests meets `Requested` in every run. -/
theorem requested_of_run {c : Cfg} (h0 : c.junkWaitExit ≤ 0) {x : State × Shrinks}
    (h : Lts.Run shrinkStep Lts.Free (threadpoolCreate c, Shrinks.none) x) :
    Lts.Run shrinkStep Requested (threadpoolCreate c, Shrinks.none) x := by
  have hboth : Unasked x ∧
      Lts.Run shrinkStep Requested (threadpoolCreate c, Shrinks.none) x := by
    apply Lts.Run.inv (P := fun x => Unasked x ∧
      Lts.Run shrinkStep Requested (threadpoolCreate c, Shrinks.none) x) h
    · exact ⟨fun _ => h0, .start⟩
    · intro x a x' ih _ hst
      obtain ⟨hu, hr⟩ := ih
      obtain ⟨hst', hh⟩ := Lts.withHist_eq_some.1 hst
      have hm := step_move hst'
      refine ⟨?_, .next hr (hu.requested hm) hst⟩
      have := hu.step hm
      rwa [← hh] at this
  exact hboth.2

/-- **Retirements are bounded by the manager's requests**, in every run whose steps are `Requested`,
and so in every run of a pool whose `wait_exit_thr_num` starts at most at zero. -/
theorem retired_le (c : Cfg) (x : State × Shrinks) :
    (Lts.Run shrinkStep Requested (threadpoolCreate c, Shrinks.none) x →
      x.2.retired ≤ defaultThreadVary * x.2.decisions) ∧
    (c.junkWaitExit ≤ 0 → Lts.Run shrinkStep Lts.Free (threadpoolCreate c, Shrinks.none) x →
      x.2.retired ≤ defaultThreadVary * x.2.decisions) := by
  have hrun : Lts.Run shrinkStep Requested (threadpoolCreate c, Shrinks.none) x →
      x.2.retired ≤ defaultThreadVary * x.2.decisions := by
    intro h
    have hi := retireInv_of_run h
    unfold RetireInv at hi
    omega
  refine ⟨hrun, ?_⟩
  intro h0 h
  exact hrun (requested_of_run h0 h)

/-- A shrink pass, and the worker that its signal wakes retires. -/
theorem retired_le_shrunk : ∃ x,
    Lts.Run shrinkStep Requested (threadpoolCreate (demoCfg 1 2 10 1), Shrinks.none) x ∧
      x.2.retired = 1 ∧ x.2.retired ≤ defaultThreadVary * x.2.decisions := by
  obtain ⟨x, hx, hr⟩ := Lts.Run.exists_of_execOk shrinkStep Requested
    (Sched.times 10 (Sched.add 0 ⟨1, 7⟩ none) ++
      Sched.toGrowLoop ++ Sched.times 3 [.grow false] ++ Sched.afterGrow ++
      Sched.times 10 (Sched.runTask 0) ++ Sched.sleep 0 ++ Sched.sleep 1 ++
      Sched.times 13 [.manager] ++ [.shrinkSignal (some 0)] ++ Sched.times 3 [.worker 0])
    (threadpoolCreate (demoCfg 1 2 10 1), Shrinks.none) (fun x => x.2.retired = 1)
    (by decide +kernel)
  exact ⟨x, hx, hr, (retired_le _ x).1 hx⟩

/-- One to two workers, and `malloc` left 5 in `wait_exit_thr_num`. Ten tasks make `adjust_thread`
create the second worker; they are run, both workers sleep, and the one that the next task wakes
retires, although `adjust_thread` never decided to shrink. -/
theorem retired_fails : ¬ ∀ c x,
    Lts.Run shrinkStep Lts.Free (threadpoolCreate c, Shrinks.none) x →
      x.1.pool.shutdown = false → x.2.retired ≤ defaultThreadVary * x.2.decisions := by
  intro hall
  obtain ⟨x, hx, hs, hr, hd⟩ := Lts.Run.exists_of_exec shrinkStep
    (Sched.times 10 (Sched.add 0 ⟨1, 7⟩ none) ++
      Sched.toGrowLoop ++ Sched.times 3 [.grow false] ++ Sched.afterGrow ++
      Sched.times 10 (Sched.runTask 0) ++ Sched.sleep 0 ++ Sched.sleep 1 ++
      Sched.add 0 ⟨1, 7⟩ (some 0) ++ Sched.times 3 [.worker 0])
    (threadpoolCreate { demoCfg 1 2 10 1 with junkWaitExit := 5 }, Shrinks.none)
    (fun x => x.1.pool.shutdown = false ∧ x.2.retired = 1 ∧ x.2.decisions = 0)
    (by decide +kernel)
  have hle := hall _ x hx hs
  rw [hr, hd] at hle
  exact absurd hle (by decide)

end Pool
