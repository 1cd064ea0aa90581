import LinuxApi.Lib.Threads
import LinuxApi.Tcp.ServerFork

/-!
# Children and their count in the forking server

A child that has exited is found by the handler: the signal that its exit sends is kept until
the handler runs, and the handler leaves its loop only when nobody is left to reap
(`Inv.zombie`). What `user` counts is `Inv.user`. The main result is `children_reaped`.
-/

set_option autoImplicit false

namespace ForkServer

open Threads

/-! ## Steps, case by case -/

/-- `main` is between its signal calls and its count. -/
def MainPc.quiet : MainPc → Bool
  | .accept | .cfdTest | .errnoTest | .errTest | .close => true
  | _ => false

inductive StepMove (s : State) : Act → State → Prop
  | block : s.pc = .block → StepMove s .main { s with blocked := true, pc := .accept }
  | go {a : Act} {cfd : Int} {errno : Errno} {pc : MainPc} :
      a = .main ∨ (∃ fd e, a = .accept fd e) → s.pc.quiet = true →
      pc ≠ .block → pc ≠ .fork → pc ≠ .unblock →
      StepMove s a { s with cfd, errno, pc }
  | count : s.pc = .count → StepMove s .main { s with user := s.user + 1, pc := .fork }
  | fork : s.pc = .fork →
      StepMove s (.fork true) { s with children := s.children ++ [.running], pc := .sigaction }
  | forkFails : s.pc = .fork → StepMove s (.fork false) { s with pc := .exited }
  | sigaction : s.pc = .sigaction → StepMove s .main { s with installed := true, pc := .unblock }
  | unblock : s.pc = .unblock → StepMove s .main { s.unblock with pc := .close }
  | deliver : s.handler = none →
      StepMove s .deliver { s with pending := false, handler := some .waitpid }
  | print : s.handler = some .print → StepMove s .handler { s with handler := some .decr }
  | decr : s.handler = some .decr →
      StepMove s .handler { s with user := s.user - 1, handler := some .waitpid }
  | ret : s.handler = some .ret → StepMove s .handler { s with handler := none }
  | reap {pid : Nat} : s.handler = some .waitpid → s.children[pid]? = some .zombie →
      StepMove s (.waitpid (some pid))
        { s with children := s.children.set pid .reaped, handler := some .print }
  | noZombie {errno : Errno} : s.handler = some .waitpid → .zombie ∉ s.children →
      StepMove s (.waitpid none) { s with errno, handler := some .ret }
  | exit {pid : Nat} : s.children[pid]? = some .running →
      StepMove s (.exit pid) { s with children := s.children.set pid .zombie }.raise

theorem main_move {s s' : State} (h : stepMain s = some s') : StepMove s .main s' := by
  unfold stepMain at h
  cases hpc : s.pc <;> simp only [hpc] at h
  case block => obtain ⟨⟩ := h; exact .block hpc
  case accept => cases h
  case cfdTest | errnoTest | errTest =>
    obtain ⟨⟩ := h
    exact .go (.inl rfl) (by rw [hpc]; rfl) (by split <;> nofun) (by split <;> nofun)
      (by split <;> nofun)
  case count =>
    obtain ⟨n, hn, rfl⟩ := Option.map_eq_some_iff.1 h
    obtain ⟨-, rfl⟩ := CInt.incr_eq_some.1 hn
    exact .count hpc
  case fork => cases h
  case sigaction => obtain ⟨⟩ := h; exact .sigaction hpc
  case unblock => obtain ⟨⟩ := h; exact .unblock hpc
  case close =>
    obtain ⟨⟩ := h
    exact .go (.inl rfl) (by rw [hpc]; rfl) nofun nofun nofun
  case exited => cases h

theorem handler_move {s s' : State} (h : stepHandler s = some s') : StepMove s .handler s' := by
  unfold stepHandler at h
  split at h
  · obtain ⟨⟩ := h
    exact .print (by assumption)
  · obtain ⟨n, hn, rfl⟩ := Option.map_eq_some_iff.1 h
    obtain ⟨-, rfl⟩ := CInt.decr_eq_some.1 hn
    exact .decr (by assumption)
  · obtain ⟨⟩ := h
    exact .ret (by assumption)
  · cases h

theorem waitpid_move {s s' : State} {pid : Option Nat} (h : stepWaitpid s pid = some s') :
    StepMove s (.waitpid pid) s' := by
  unfold stepWaitpid at h
  split at h
  · rename_i hw
    cases pid with
    | some pid =>
      simp only [Option.ite_none_right_eq_some, Option.some.injEq] at h
      obtain ⟨hz, rfl⟩ := h
      exact .reap hw hz
    | none =>
      simp only at h
      split at h
      · cases h
      · rename_i hz
        split at h <;> obtain ⟨⟩ := h <;> exact .noZombie hw hz
  · cases h

theorem step_move {s s' : State} {a : Act} (h : step s a = some s') : StepMove s a s' := by
  simp only [step, Option.ite_none_left_eq_some] at h
  obtain ⟨-, h⟩ := h
  cases a with
  | main =>
    simp only [Option.ite_none_right_eq_some] at h
    exact main_move h.2
  | accept fd errno =>
    simp only [stepAccept, Option.ite_none_right_eq_some, Option.some.injEq] at h
    obtain ⟨-, hpc, rfl⟩ := h
    exact .go (.inr ⟨fd, errno, rfl⟩) (by rw [hpc]; rfl) nofun nofun nofun
  | fork ok =>
    simp only [stepFork, Option.ite_none_right_eq_some] at h
    obtain ⟨-, hpc, h⟩ := h
    cases ok with
    | true => obtain ⟨⟩ := h; exact .fork hpc
    | false => obtain ⟨⟩ := h; exact .forkFails hpc
  | deliver =>
    simp only [Option.ite_none_right_eq_some, Option.some.injEq] at h
    obtain ⟨⟨-, -, -, hh⟩, rfl⟩ := h
    exact .deliver hh
  | handler => exact handler_move h
  | waitpid pid => exact waitpid_move h
  | exit pid =>
    simp only [Option.ite_none_right_eq_some, Option.some.injEq] at h
    obtain ⟨hr, rfl⟩ := h
    exact .exit hr

/-! ## The invariant -/

theorem Hist.unreaped_add {h : Hist} (hn : h.reaped.Nodup) (hlt : ∀ k ∈ h.reaped, k < h.counted) :
    h.unreaped + h.reaped.length = h.counted := by
  have hperm : ((List.range h.counted).filter (· ∈ h.reaped)).Perm h.reaped := by
    apply (List.perm_ext_iff_of_nodup (List.nodup_range.filter _) hn).2
    intro k
    simpa using hlt k
  have hsplit := List.length_eq_countP_add_countP (fun k => decide (k ∈ h.reaped))
    (l := List.range h.counted)
  rw [List.length_range, List.countP_eq_length_filter, hperm.length_eq] at hsplit
  have he : h.unreaped =
      (List.range h.counted).countP (fun k => decide ¬ (decide (k ∈ h.reaped)) = true) := by
    unfold Hist.unreaped
    congr 1
    funext k
    simp
  omega

structure Inv (s : State) (h : Hist) : Prop where
  counted : s.pc ≠ .exited → h.counted = s.children.length + if s.pc = .fork then 1 else 0
  forked : s.children.length ≤ h.counted
  reaped : ∀ k, k ∈ h.reaped ↔ s.children[k]? = some .reaped
  nodup : h.reaped.Nodup
  user : s.user + h.reaped.length = h.counted + reaping s
  zombie : ∀ k : Nat, s.children[k]? = some .zombie → s.pending = true ∨ InLoop s
  fresh : s.pc = .block → s.children = []
  kept : s.pc ≠ .block → s.blocked = true ∨ s.installed = true
  installed : s.pc = .unblock → s.installed = true

theorem inv_init : Inv init Hist.empty where
  counted _ := rfl
  forked := Nat.le_refl _
  reaped k := by simp [init, Hist.empty]
  nodup := List.nodup_nil
  user := rfl
  zombie k hk := by simp [init] at hk
  fresh _ := rfl
  kept h := absurd rfl h
  installed h := nomatch h

section
variable {s : State} {h : Hist} (hi : Inv s h)
include hi

theorem Inv.reaped_lt {k : Nat} (hk : k ∈ h.reaped) : k < h.counted := by
  have hlt := (List.getElem?_eq_some_iff.1 ((hi.reaped k).1 hk)).1
  have := hi.forked
  omega

theorem Inv.unreaped_add : h.unreaped + h.reaped.length = h.counted :=
  Hist.unreaped_add hi.nodup fun _ hk => hi.reaped_lt hk

/-- A child exits: the signal is kept, whether it is blocked or the handler is installed. -/
theorem Inv.raise {pid : Nat} (hr : s.children[pid]? = some .running) :
    { s with children := s.children.set pid .zombie }.raise =
      { s with children := s.children.set pid .zombie, pending := true } := by
  have hpc : s.pc ≠ .block := by
    intro hpc
    rw [hi.fresh hpc] at hr
    simp at hr
  exact if_pos (hi.kept hpc)

/-- The children after `waitpid` has reaped `pid`. -/
theorem Inv.reap_reaped {pid : Nat} (hz : s.children[pid]? = some .zombie) (k : Nat) :
    k ∈ h.reaped ++ [pid] ↔ (s.children.set pid .reaped)[k]? = some .reaped := by
  rw [List.mem_append, List.mem_singleton, hi.reaped]
  by_cases hk : k = pid
  · subst hk
    rw [getElem?_set_of_some _ hz]
    simp
  · rw [List.getElem?_set_ne (Ne.symm hk)]
    simp [hk]

theorem Inv.reap_nodup {pid : Nat} (hz : s.children[pid]? = some .zombie) :
    (h.reaped ++ [pid]).Nodup := by
  rw [List.nodup_append]
  refine ⟨hi.nodup, List.nodup_singleton _, ?_⟩
  rintro k hk _ hp rfl
  rw [List.mem_singleton.1 hp] at hk
  have hr := (hi.reaped pid).1 hk
  rw [hz] at hr
  cases hr

/-- A step in which only `main` moves, between statements that touch neither the counter, the
children nor the signals. -/
theorem Inv.go {cfd : Int} {errno : Errno} {pc : MainPc} (hq : s.pc.quiet = true)
    (hb : pc ≠ .block) (hf : pc ≠ .fork) (hu : pc ≠ .unblock) :
    Inv { s with cfd, errno, pc } h := by
  have hq' : s.pc ≠ .exited ∧ s.pc ≠ .fork ∧ s.pc ≠ .block := by
    refine ⟨?_, ?_, ?_⟩ <;> intro he <;> rw [he] at hq <;> cases hq
  obtain ⟨hne, hnf, hnb⟩ := hq'
  have hc := hi.counted hne
  rw [if_neg hnf] at hc
  exact
    { counted := fun _ => by rw [hc, if_neg hf]
      forked := hi.forked
      reaped := hi.reaped
      nodup := hi.nodup
      user := hi.user
      zombie := hi.zombie
      fresh := fun he => absurd he hb
      kept := fun _ => hi.kept hnb
      installed := fun he => absurd he hu }

theorem Inv.fork (hpc : s.pc = .fork) :
    Inv { s with children := s.children ++ [.running], pc := .sigaction } h := by
  have hc := hi.counted (by rw [hpc]; nofun)
  rw [if_pos hpc] at hc
  refine ⟨fun _ => ?_, ?_, ?_, hi.nodup, hi.user, ?_, nofun,
    fun _ => hi.kept (by rw [hpc]; nofun), nofun⟩
  · show h.counted = (s.children ++ [Child.running]).length + 0
    rw [hc]
    simp
  · show (s.children ++ [Child.running]).length ≤ h.counted
    rw [hc]
    simp
  · intro k
    refine (hi.reaped k).trans ⟨fun hk => getElem?_concat_of_some _ hk, ?_⟩
    intro hk
    obtain hk | ⟨-, hr⟩ := getElem?_concat_cases hk
    · exact hk
    · cases hr
  · intro k hk
    obtain hk | ⟨-, hr⟩ := getElem?_concat_cases hk
    · exact hi.zombie k hk
    · cases hr

/-- A step of the handler in which nobody is reaped. -/
theorem Inv.handle {user : Int} {pending : Bool} {errno : Errno} {handler : Option HandlerPc}
    (hu : user + reaping s = s.user + reaping { s with handler })
    (hz : ∀ k : Nat, s.children[k]? = some .zombie → pending = true ∨ InLoop { s with handler }) :
    Inv { s with user, pending, errno, handler } h := by
  refine ⟨hi.counted, hi.forked, hi.reaped, hi.nodup, ?_, hz, hi.fresh, hi.kept, hi.installed⟩
  have huser := hi.user
  show user + h.reaped.length = h.counted + (reaping { s with handler } : Int)
  omega

theorem Inv.reap {pid : Nat} (hh : s.handler = some .waitpid)
    (hz : s.children[pid]? = some .zombie) :
    Inv { s with children := s.children.set pid .reaped, handler := some .print }
      { h with reaped := h.reaped ++ [pid] } := by
  have hlen : (s.children.set pid .reaped).length = s.children.length := List.length_set
  refine ⟨fun he => by rw [hlen]; exact hi.counted he, by rw [hlen]; exact hi.forked,
    hi.reap_reaped hz, hi.reap_nodup hz, ?_, fun _ _ => .inr (.inr (.inl rfl)), ?_, hi.kept,
    hi.installed⟩
  · have hr : reaping s = 0 := by rw [reaping, hh]
    have huser := hi.user
    rw [hr] at huser
    show s.user + (h.reaped ++ [pid]).length = (h.counted : Int) + 1
    rw [List.length_append, List.length_singleton]
    omega
  · intro hpc
    rw [hi.fresh hpc] at hz
    simp at hz

theorem Inv.exit {pid : Nat} (hr : s.children[pid]? = some .running) :
    Inv { s with children := s.children.set pid .zombie, pending := true } h := by
  have hlen : (s.children.set pid .zombie).length = s.children.length := List.length_set
  refine ⟨fun he => by rw [hlen]; exact hi.counted he, by rw [hlen]; exact hi.forked, ?_, hi.nodup,
    hi.user, fun _ _ => .inl rfl, ?_, hi.kept, hi.installed⟩
  · intro k
    apply (hi.reaped k).trans
    show _ ↔ (s.children.set pid .zombie)[k]? = some .reaped
    by_cases hk : k = pid
    · subst hk
      rw [getElem?_set_of_some _ hr, hr]
      simp
    · rw [List.getElem?_set_ne (Ne.symm hk)]
  · intro hpc
    rw [hi.fresh hpc] at hr
    simp at hr

theorem Inv.step {s' : State} {a : Act} (hm : StepMove s a s') : Inv s' (record s a h) := by
  have hi' := hi
  obtain ⟨hcounted, hforked, hreaped, hnodup, huser, hzombie, hfresh, hkept, hinst⟩ := hi'
  cases hm with
  | block hpc =>
    have hc := hcounted (by rw [hpc]; nofun)
    rw [hpc] at hc
    simp only [record, hpc, reduceCtorEq, if_false]
    exact ⟨fun _ => hc, hforked, hreaped, hnodup, huser, hzombie, nofun, fun _ => .inl rfl, nofun⟩
  | go ha hq hb hf hu =>
    have hrec : record s a h = h := by
      rcases ha with rfl | ⟨fd, e, rfl⟩
      · apply if_neg
        intro he
        rw [he] at hq
        cases hq
      · rfl
    rw [hrec]
    exact hi.go hq hb hf hu
  | count hpc =>
    have hc := hcounted (by rw [hpc]; nofun)
    rw [hpc] at hc
    simp only [record, hpc, if_true]
    refine ⟨fun _ => by rw [hc]; rfl, Nat.le_succ_of_le hforked, hreaped, hnodup, ?_, hzombie,
      nofun, fun _ => hkept (by rw [hpc]; nofun), nofun⟩
    show s.user + 1 + h.reaped.length = ((h.counted + 1 : Nat) : Int) + reaping s
    omega
  | fork hpc => exact hi.fork hpc
  | forkFails hpc =>
    exact ⟨fun he => absurd rfl he, hforked, hreaped, hnodup, huser, hzombie, nofun,
      fun _ => hkept (by rw [hpc]; nofun), nofun⟩
  | sigaction hpc =>
    have hc := hcounted (by rw [hpc]; nofun)
    rw [hpc] at hc
    simp only [record, hpc, reduceCtorEq, if_false]
    exact ⟨fun _ => hc, hforked, hreaped, hnodup, huser, hzombie, nofun, fun _ => .inr rfl,
      fun _ => rfl⟩
  | unblock hpc =>
    have hc := hcounted (by rw [hpc]; nofun)
    have hon := hinst hpc
    rw [hpc] at hc
    simp only [record, hpc, reduceCtorEq, if_false]
    refine ⟨fun _ => hc, hforked, hreaped, hnodup, huser, ?_, nofun, fun _ => .inr hon, nofun⟩
    intro k hk
    rcases hzombie k hk with hp | hl
    · exact .inl (by simp [State.unblock, hp, hon])
    · exact .inr hl
  | deliver hh => exact hi.handle (by simp [reaping, hh]) fun _ _ => .inr (.inl rfl)
  | print hh => exact hi.handle (by simp [reaping, hh]) fun _ _ => .inr (.inr (.inr rfl))
  | decr hh => exact hi.handle (by simp [reaping, hh]) fun _ _ => .inr (.inl rfl)
  | ret hh =>
    apply hi.handle (by simp [reaping, hh])
    intro k hk
    rcases hzombie k hk with hp | hl
    · exact .inl hp
    · simp [InLoop, hh] at hl
  | reap hh hz => exact hi.reap hh hz
  | noZombie hh hz =>
    apply hi.handle (by simp [reaping, hh])
    intro k hk
    exact absurd (List.mem_of_getElem? hk) hz
  | exit hr =>
    rw [hi.raise hr]
    exact hi.exit hr

end

theorem inv_of_run {x : State × Hist} (h : Lts.Run histStep Lts.Free (init, Hist.empty) x) :
    Inv x.1 x.2 := by
  apply Lts.Run.inv (P := fun x => Inv x.1 x.2) h
  · exact inv_init
  · intro x a x' ih _ hst
    obtain ⟨hst, hh⟩ := Lts.withHist_eq_some.1 hst
    rw [hh]
    exact ih.step (step_move hst)

/-- **Every child is reaped, and counted.** In every run `user` is the number of connections counted
whose child has not been reaped, and one more between a `waitpid` that has reaped a child and the
`user--` after it; no child is reaped twice; and while a child that has exited is not reaped,
`SIGCHLD` is pending or the handler is in its loop. -/
theorem children_reaped (x : State × Hist)
    (h : Lts.Run histStep Lts.Free (init, Hist.empty) x) :
    x.1.user = x.2.unreaped + reaping x.1 ∧
    x.2.reaped.Nodup ∧
    (.zombie ∈ x.1.children → x.1.pending = true ∨ InLoop x.1) := by
  have hi := inv_of_run h
  refine ⟨?_, hi.nodup, ?_⟩
  · have huser := hi.user
    have hadd := hi.unreaped_add
    omega
  · intro hz
    obtain ⟨k, hk⟩ := List.mem_iff_getElem?.1 hz
    exact hi.zombie k hk

/-- A connection is served, its child exits before the handler is installed, and the handler has just
reaped it. -/
def reapedOne : List Act :=
  Lts.repeats [(1, .main), (1, .accept 5 .other), (3, .main), (1, .fork true), (1, .exit 0),
    (2, .main), (1, .deliver), (1, .waitpid (some 0))]

theorem children_reaped_one : ∃ x, Lts.Run histStep Lts.Free (init, Hist.empty) x ∧
    x.2.reaped = [0] ∧ x.1.user = x.2.unreaped + reaping x.1 := by
  obtain ⟨x, hx, hr⟩ := Lts.Run.exists_of_exec histStep reapedOne (init, Hist.empty)
    (fun x => x.2.reaped = [0]) (by decide +kernel)
  exact ⟨x, hx, hr, (children_reaped x hx).1⟩

/-- After that `waitpid` there is nobody left to count, and `user` is still 1. -/
theorem user_unreaped_fails : ¬ ∀ x, Lts.Run histStep Lts.Free (init, Hist.empty) x →
    x.1.user = x.2.unreaped := by
  intro hall
  obtain ⟨x, hx, hu, hn⟩ := Lts.Run.exists_of_exec histStep reapedOne (init, Hist.empty)
    (fun x => x.1.user = 1 ∧ x.2.unreaped = 0) (by decide +kernel)
  have he := hall x hx
  rw [hu, hn] at he
  exact absurd he (by decide)

end ForkServer
