import LinuxApi.Tcp.Proof.ServerFork

/-!
# A failing `accept` in the forking server

`recycle_child` does not save `errno`. If its last `waitpid` fails, as nobody is left to wait for, in
between a failing `accept` and the test of `errno`, the test finds `ECHILD` and the server
stops (`accept_survives_fails`). While a child is left, `waitpid` returns 0 there and `errno` stays as it
is (`accept_survives`).
-/

set_option autoImplicit false

namespace ForkServer

/-! ## Steps -/

/-- The tests of `main`: where they are reached from. -/
theorem main_tests {s s' : State} (h : stepMain s = some s') :
    (s'.cfd = s.cfd ∧ s'.errno = s.errno) ∧ s'.pc ≠ .cfdTest ∧
    (s'.pc = .errnoTest → s.pc = .cfdTest ∧ s.cfd = -1) ∧
    (s'.pc = .errTest → s.pc = .cfdTest ∧ s.cfd ≠ -1 ∨ s.pc = .errnoTest ∧ s.errno ≠ .EINTR) := by
  unfold stepMain at h
  cases hpc : s.pc <;> simp only [hpc] at h
  case accept | fork | exited => cases h
  case count =>
    obtain ⟨n, -, rfl⟩ := Option.map_eq_some_iff.1 h
    exact ⟨⟨rfl, rfl⟩, nofun, nofun, nofun⟩
  case cfdTest =>
    obtain ⟨⟩ := h
    by_cases hc : s.cfd = -1 <;> simp [hc]
  case errnoTest =>
    obtain ⟨⟩ := h
    by_cases he : s.errno = .EINTR <;> simp [he]
  case errTest =>
    obtain ⟨⟩ := h
    by_cases hc : s.cfd = -1 <;> simp [hc]
  case block | sigaction | unblock | close =>
    obtain ⟨⟩ := h
    exact ⟨⟨rfl, rfl⟩, nofun, nofun, nofun⟩

/-- The handler leaves `main` where it is, and `errno` too unless it has nobody to wait for. -/
theorem waitpid_frame {s s' : State} {pid : Option Nat} (h : stepWaitpid s pid = some s') :
    (s'.pc = s.pc ∧ s'.cfd = s.cfd) ∧
      (s'.errno = s.errno ∨ pid = none ∧ .running ∉ s.children) := by
  unfold stepWaitpid at h
  split at h
  · cases pid with
    | some pid =>
      simp only [Option.ite_none_right_eq_some, Option.some.injEq] at h
      obtain ⟨-, rfl⟩ := h
      exact ⟨⟨rfl, rfl⟩, .inl rfl⟩
    | none =>
      simp only at h
      split at h
      · cases h
      · split at h <;> obtain ⟨⟩ := h
        · exact ⟨⟨rfl, rfl⟩, .inl rfl⟩
        · exact ⟨⟨rfl, rfl⟩, .inr ⟨rfl, ‹_›⟩⟩
  · cases h

theorem raise_frame (s : State) :
    s.raise.pc = s.pc ∧ s.raise.cfd = s.cfd ∧ s.raise.errno = s.errno := by
  unfold State.raise
  split <;> exact ⟨rfl, rfl, rfl⟩

/-! ## The invariant -/

structure AcceptInv (s : State) : Prop where
  errno : Testing s → s.errno = .EINTR
  cfd : s.pc = .errnoTest → s.cfd = -1
  survives : ¬ AcceptFails s

section
variable {s s' : State} (hi : AcceptInv s)
include hi

/-- A step that `main` does not notice. -/
theorem AcceptInv.frame (hpc : s'.pc = s.pc) (hcfd : s'.cfd = s.cfd)
    (herrno : Testing s → s'.errno = s.errno) : AcceptInv s' := by
  have htest : Testing s' ↔ Testing s := by rw [Testing, Testing, hpc, hcfd]
  refine ⟨fun ht => ?_, ?_, ?_⟩
  · have ht := htest.1 ht
    rw [herrno ht]
    exact hi.errno ht
  · rw [hpc, hcfd]
    exact hi.cfd
  · rw [AcceptFails, hpc, hcfd]
    exact hi.survives

theorem AcceptInv.main (h : stepMain s = some s') : AcceptInv s' := by
  obtain ⟨⟨hcfd, herrno⟩, hne, htest, hfail⟩ := main_tests h
  refine ⟨fun ht => ?_, fun hpc => ?_, fun hf => ?_⟩
  · obtain ⟨hpc, -⟩ := htest (ht.2.resolve_left hne)
    rw [herrno]
    exact hi.errno ⟨hcfd ▸ ht.1, .inl hpc⟩
  · rw [hcfd]
    exact (htest hpc).2
  · obtain ⟨hpc, hc⟩ := hf
    rcases hfail hpc with ⟨-, hok⟩ | ⟨hpc, he⟩
    · exact hok (hcfd ▸ hc)
    · exact he (hi.errno ⟨hi.cfd hpc, .inr hpc⟩)

theorem AcceptInv.step {a : Act} (hok : Undisturbed s a) (h : step s a = some s') :
    AcceptInv s' := by
  cases a with
  | main =>
    simp only [ForkServer.step, Option.ite_none_left_eq_some, Option.ite_none_right_eq_some] at h
    exact hi.main h.2.2
  | accept fd errno =>
    simp only [ForkServer.step, stepAccept, Option.ite_none_left_eq_some,
      Option.ite_none_right_eq_some, Option.some.injEq] at h
    obtain ⟨-, -, -, rfl⟩ := h
    refine ⟨fun ht => ?_, by simp, by simp [AcceptFails]⟩
    exact (if_pos ht.1).trans (hok.1 ht.1)
  | fork ok =>
    cases step_move h with
    | fork | forkFails => exact ⟨by simp [Testing], by simp, by simp [AcceptFails]⟩
    | go ha => simp at ha
  | deliver =>
    cases step_move h with
    | deliver => exact hi.frame rfl rfl fun _ => rfl
    | go ha => simp at ha
  | handler =>
    cases step_move h with
    | print | decr | ret => exact hi.frame rfl rfl fun _ => rfl
    | go ha => simp at ha
  | waitpid pid =>
    simp only [ForkServer.step, Option.ite_none_left_eq_some] at h
    obtain ⟨⟨hpc, hcfd⟩, herrno⟩ := waitpid_frame h.2
    refine hi.frame hpc hcfd fun ht => herrno.resolve_right ?_
    intro hno
    obtain ⟨rfl, hno⟩ := hno
    exact hno (hok.2 ht rfl)
  | exit pid =>
    cases step_move h with
    | exit =>
      obtain ⟨hpc, hcfd, herrno⟩ := raise_frame { s with children := s.children.set pid .zombie }
      exact hi.frame hpc hcfd fun _ => herrno
    | go ha => simp at ha

end

/-- **A dying child does not stop the server.** In every run in which `accept` fails only with `EINTR`,
and in which a child is left whenever the handler comes to its last `waitpid` between a failing
`accept` and the test of `errno`, `main` never gets to `perro_exit("accept")`. -/
theorem accept_survives (s : State) (h : Lts.Run step Undisturbed init s) : ¬ AcceptFails s := by
  have hi : AcceptInv s := by
    apply h.inv
    · exact ⟨by simp [Testing, init], nofun, fun hf => nomatch hf.1⟩
    · intro s a s' hi hok hs
      exact hi.step hok hs
  exact hi.survives

/-- A client connects and gets a child. -/
def connect (fd : Int) : List Act :=
  [.accept fd .other, .main, .main, .main, .fork true, .main, .main, .main]

/-- The child `pid` exits, and the handler runs. -/
def recycled (pid : Nat) : List Act :=
  [.exit pid, .deliver, .waitpid (some pid), .handler, .handler, .waitpid none, .handler]

/-- These clients are served. The first child exits during `accept`, which fails; before its `errno` is
tested, the second one exits too. -/
def interrupted (clients : List Int) : List Act :=
  .main :: clients.flatMap connect ++ recycled 0 ++ [.accept (-1) .EINTR] ++ recycled 1 ++
    [.main, .main]

/-- A third child is still there: `accept` is called again. -/
theorem accept_survives_again : ∃ s, Lts.Run step Undisturbed init s ∧
    (s.pc = .accept ∧ s.cfd = -1 ∧ s.children = [.reaped, .reaped, .running]) ∧
      ¬ AcceptFails s := by
  obtain ⟨s, hs, hend⟩ := Lts.Run.exists_of_execOk step Undisturbed (interrupted [5, 6, 7]) init
    (fun s => s.pc = .accept ∧ s.cfd = -1 ∧ s.children = [.reaped, .reaped, .running])
    (by decide +kernel)
  exact ⟨s, hs, hend, accept_survives s hs⟩

/-- There is no other child: the handler finds nobody. -/
theorem accept_survives_fails : ¬ ∀ s, Lts.Run step OnlyEintr init s → ¬ AcceptFails s := by
  intro hall
  obtain ⟨s, hs, hfails⟩ := Lts.Run.exists_of_execOk step OnlyEintr (interrupted [5, 6]) init
    AcceptFails (by decide +kernel)
  exact hall s hs hfails

end ForkServer
