import LinuxApi.Chat.Proof.Server

/-!
# Who serves a client

The threads are given the address of `new_sock`, which `main` writes again for the next client. If
every thread has read its descriptor before that, and a thread is started for every recorded client, then
each is served by its own thread (`served_of_run`): `Kept.fresh` is the invariant, nobody serves
the descriptor that `main` has in hand.
-/

set_option autoImplicit false

namespace Chat

structure Kept (s : State) : Prop where
  started : s.pc ≠ .accept → ∀ t, ¬ Unstarted s.threads t
  one : ∀ t u, Unstarted s.threads t → Unstarted s.threads u → t = u
  each : ∀ t u d, Started s.threads t d → Started s.threads u d → t = u
  fresh : s.pc ≠ .accept ∨ (∃ t, Unstarted s.threads t) → ∀ t, ¬ Started s.threads t s.newSock
  covered : ∀ d ∈ s.fds, d ≠ 0 → (∃ t, Started s.threads t d) ∨
    d = s.newSock ∧ (s.pc = .count ∨ s.pc = .create ∨ ∃ t, Unstarted s.threads t)

theorem not_unstarted_nil {t : Nat} : ¬ Unstarted [] t := by
  intro h
  obtain ⟨th, hth, -⟩ := h
  simp at hth

theorem not_started_nil {t : Nat} {d : Int} : ¬ Started [] t d := by
  intro h
  obtain ⟨th, hth, -⟩ := h
  simp at hth

theorem kept_init : Kept init where
  started _ _ := not_unstarted_nil
  one _ _ h := absurd h not_unstarted_nil
  each _ _ _ h := absurd h not_started_nil
  fresh _ _ := not_started_nil
  covered _ hd h0 := absurd (List.eq_of_mem_replicate hd) h0

section
variable {s s' : State} {a : Act} (hk : Kept s)
include hk

/-- A thread that serves a descriptor goes on; it may free its slot. -/
theorem Kept.move {fds : List Int} {user : Int} {t : Nat} {th th' : Thread}
    (ht : s.threads[t]? = some th) (hpc : th.pc ≠ .start) (hpc' : th'.pc ≠ .start)
    (hfd : th'.fd = th.fd) (hfds : ∀ d ∈ fds, d ≠ 0 → d ∈ s.fds) :
    Kept { s with fds, user, threads := s.threads.set t th' } := by
  have hs : ∀ u d, Started (s.threads.set t th') u d ↔ Started s.threads u d :=
    fun u d => started_move ht hpc hpc' hfd
  have hu : ∀ u, Unstarted (s.threads.set t th') u ↔ Unstarted s.threads u :=
    fun u => unstarted_move ht hpc hpc'
  refine ⟨?_, ?_, ?_, ?_, fun d hd h0 => ?_⟩
  · simpa only [hu] using hk.started
  · simpa only [hu] using hk.one
  · simpa only [hs] using hk.each
  · simpa only [hs, hu] using hk.fresh
  · simpa only [hs, hu] using hk.covered d (hfds d hd h0) h0

/-- A thread reads its descriptor. -/
theorem Kept.start {t : Nat} {th : Thread} (ht : s.threads[t]? = some th) (hpc : th.pc = .start) :
    Kept { s with threads := s.threads.set t { th with pc := .recv, fd := s.newSock } } := by
  have hun : Unstarted s.threads t := ⟨th, ht, hpc⟩
  have haccept : s.pc = .accept := by
    by_contra hne
    exact hk.started hne t hun
  have hno : ∀ u, ¬ Started s.threads u s.newSock := hk.fresh (.inr ⟨t, hun⟩)
  have hnone : ∀ u, ¬ Unstarted (s.threads.set t { th with pc := .recv, fd := s.newSock }) u := by
    intro u hu
    obtain ⟨hne, hu⟩ := unstarted_set (by nofun) hu
    exact hne (hk.one u t hu hun)
  have hsplit : ∀ u d, Started (s.threads.set t { th with pc := .recv, fd := s.newSock }) u d →
      u = t ∧ d = s.newSock ∨ u ≠ t ∧ Started s.threads u d := fun _ _ => started_set
  have hserves : Started (s.threads.set t { th with pc := .recv, fd := s.newSock }) t s.newSock :=
    ⟨_, Threads.getElem?_set_of_some _ ht, nofun, rfl⟩
  have hkeep : ∀ u d, Started s.threads u d →
      Started (s.threads.set t { th with pc := .recv, fd := s.newSock }) u d := by
    intro u d h
    obtain ⟨th0, h0, hp⟩ := h
    exact Threads.exists_getElem?_set ht (p := fun th => th.pc ≠ .start ∧ th.fd = d)
      (fun hp => absurd hpc hp.1) ⟨th0, h0, hp⟩
  refine ⟨fun _ => hnone, fun u _ hu => absurd hu (hnone u), fun u v d hu hv => ?_, fun hor => ?_,
    fun d hd h0 => ?_⟩
  · rcases hsplit u d hu with ⟨hut, hdu⟩ | ⟨-, hu⟩
    · rcases hsplit v d hv with ⟨hvt, -⟩ | ⟨-, hv⟩
      · exact hut.trans hvt.symm
      · exact (hno v (hdu ▸ hv)).elim
    · rcases hsplit v d hv with ⟨-, hdv⟩ | ⟨-, hv⟩
      · exact (hno u (hdv ▸ hu)).elim
      · exact hk.each u v d hu hv
  · rcases hor with hne | ⟨u, hu⟩
    · exact absurd haccept hne
    · exact absurd hu (hnone u)
  · rcases hk.covered d hd h0 with ⟨u, hu⟩ | ⟨rfl, -⟩
    · exact .inl ⟨u, hkeep u d hu⟩
    · exact .inl ⟨t, hserves⟩

/-- `main` starts a thread for the client that it has in hand. -/
theorem Kept.create (hpc : s.pc = .create) :
    Kept { s with threads := s.threads ++ [⟨.start, 0, 0⟩], pc := .accept } := by
  have hnone := hk.started (by rw [hpc]; nofun)
  have hnew : Unstarted (s.threads ++ [⟨.start, 0, 0⟩]) s.threads.length :=
    ⟨⟨.start, 0, 0⟩, by rw [List.getElem?_append_right (Nat.le_refl _), Nat.sub_self]; rfl, rfl⟩
  have honly : ∀ u, Unstarted (s.threads ++ [⟨.start, 0, 0⟩]) u → u = s.threads.length :=
    fun u hu => (unstarted_append hu).resolve_left (hnone u)
  have hs : ∀ u d, Started (s.threads ++ [⟨.start, 0, 0⟩]) u d ↔ Started s.threads u d :=
    fun u d => started_append rfl
  refine ⟨fun h => absurd rfl h, fun u v hu hv => (honly u hu).trans (honly v hv).symm, ?_,
    fun _ u hu => ?_, fun d hd h0 => ?_⟩
  · simpa only [hs] using hk.each
  · exact hk.fresh (.inl (by rw [hpc]; nofun)) u ((hs _ _).1 hu)
  · rcases hk.covered d hd h0 with ⟨u, hu⟩ | ⟨rfl, -⟩
    · exact .inl ⟨u, (hs _ _).2 hu⟩
    · exact .inr ⟨rfl, .inr (.inr ⟨_, hnew⟩)⟩

/-- `main` goes on with the client that it has in hand. -/
theorem Kept.main {fds : List Int} {user : Int} {pc : MainPc} {i : Nat} (hne : s.pc ≠ .accept)
    (hcov : ∀ d ∈ fds, d ≠ 0 → (∃ t, Started s.threads t d) ∨
      d = s.newSock ∧ (pc = .count ∨ pc = .create ∨ ∃ t, Unstarted s.threads t)) :
    Kept { s with fds, user, pc, i } where
  started _ := hk.started hne
  one := hk.one
  each := hk.each
  fresh _ := hk.fresh (.inl hne)
  covered := hcov

/-- A client other than the one in hand has its thread. -/
theorem Kept.served_of_ne {d : Int} (hd : d ∈ s.fds) (h0 : d ≠ 0) (hne : d ≠ s.newSock) :
    ∃ t, Started s.threads t d :=
  (hk.covered d hd h0).resolve_right fun hnew => hne hnew.1

theorem Kept.step (hi : Inv s) (hok : Orderly s a) (h : step s a = some s') : Kept s' := by
  cases step_move h with
  | @accept fd hpc hpos hfresh =>
    have hnone : ∀ t, ¬ Unstarted s.threads t := by
      intro t ht
      obtain ⟨th, ht, hstart⟩ := ht
      exact hok.1 th (List.mem_of_getElem? ht) hstart
    have hnew : ∀ t, ¬ Started s.threads t fd := fun t ht => hfresh (hi.served t _ ht)
    refine ⟨fun _ => hnone, hk.one, hk.each, fun _ => hnew, fun d hd h0 => ?_⟩
    left
    apply (hk.covered d hd h0).resolve_right
    intro hhand
    rcases hhand.2 with h' | h' | ⟨t, ht⟩
    · exact nomatch hpc.symm.trans h'
    · exact nomatch hpc.symm.trans h'
    · exact hnone t ht
  | store hpc hfree =>
    apply hk.main (by rw [hpc]; nofun)
    intro d hd h0
    rcases List.mem_or_eq_of_mem_set hd with hd | rfl
    · exact .inl (hk.served_of_ne hd h0 fun hnew => hi.fresh hpc (hnew ▸ hd))
    · exact .inr ⟨rfl, .inl rfl⟩
  | next hpc | full hpc =>
    apply hk.main (by rw [hpc]; nofun)
    intro d hd h0
    exact .inl (hk.served_of_ne hd h0 fun hnew => hi.fresh hpc (hnew ▸ hd))
  | count hpc =>
    apply hk.main (by rw [hpc]; nofun)
    intro d hd h0
    exact (hk.covered d hd h0).imp_right fun hnew => ⟨hnew.1, .inr (.inl rfl)⟩
  | create hpc => exact hk.create hpc
  | refuse hpc hfull =>
    apply hk.main (by rw [hpc]; nofun)
    intro d hd h0
    left
    apply hk.served_of_ne hd h0
    intro hnew
    apply hfull
    apply hok.2 rfl hpc
    rw [State.recorded, List.mem_filter, decide_eq_true_eq, ← hnew]
    exact ⟨hd, h0⟩
  | message => exact hk
  | start ht hpc => exact hk.start ht hpc
  | move _ ht hpc hpc' hfd => exact hk.move ht hpc hpc' hfd fun _ hd _ => hd
  | free ht hpc =>
    exact hk.move ht hpc nofun rfl fun d hd h0 => (List.mem_or_eq_of_mem_set hd).resolve_right h0

theorem Kept.oneEach : OneEach s := fun t u th th' ht hu hpc hpc' hfd =>
  hk.each t u th.fd ⟨th, ht, hpc, rfl⟩ ⟨th', hu, hpc', hfd.symm⟩

theorem Kept.allServed : AllServed s := by
  intro hpc d hd
  rw [State.recorded, List.mem_filter, decide_eq_true_eq] at hd
  rcases hk.covered d hd.1 hd.2 with ⟨t, th, ht, hstart, hfd⟩ | ⟨hnew, h⟩
  · exact ⟨th, List.mem_of_getElem? ht, (if_neg hstart).mpr hfd⟩
  · rcases h with h | h | ⟨t, th, ht, hstart⟩
    · exact nomatch hpc.symm.trans h
    · exact nomatch hpc.symm.trans h
    · exact ⟨th, List.mem_of_getElem? ht, (if_pos hstart).mpr hnew.symm⟩

end

/-- **Every recorded client has its own thread.** In every run in which each thread has read its
descriptor before `accept` returns the next one, and at most 18 clients are counted whenever `main`
comes to start the thread of a recorded client: no two threads serve the same descriptor, and
whenever `main` is back at `accept`, every recorded client has a thread that serves it. -/
theorem served_of_run (s : State) (h : Lts.Run step Orderly init s) : OneEach s ∧ AllServed s := by
  have hk : Kept s := by
    apply h.inv_of (Q := Inv) (fun _ => inv_of_run) kept_init
    intro s a s' hi hk hok hs
    exact hk.step hi hok hs
  exact ⟨hk.oneEach, hk.allServed⟩

/-- Two clients come, one after the other. -/
theorem served_of_run_two : ∃ s, Lts.Run step Orderly init s ∧ s.fds.take 2 = [4, 5] ∧
    OneEach s ∧ AllServed s := by
  obtain ⟨s, hs, hfds⟩ := Lts.Run.exists_of_execOk step Orderly
    (Lts.repeats [(1, .accept 4), (3, .main), (1, .thread 0), (1, .accept 5), (4, .main)]) init
    (fun s => s.fds.take 2 = [4, 5]) (by decide +kernel)
  exact ⟨s, hs, hfds, served_of_run s hs⟩

/-- 19 clients come, and each thread starts at once. -/
def nineteen : List Act :=
  ((List.range 18).flatMap fun k =>
    Lts.repeats [(1, .accept (k + 4)), (k + 3, .main), (1, .thread k)]) ++
    Lts.repeats [(1, .accept 22), (21, .main)]

/-- The second client comes before the first thread has started: both threads serve the second one,
and nobody the first. The 19th client is recorded and gets no thread, even if all start in time. -/
theorem served_fails :
    (¬ ∀ s, Lts.Run step Lts.Free init s → OneEach s) ∧
    (¬ ∀ s, Lts.Run step Lts.Free init s → AllServed s) ∧
    ¬ ∀ s, Lts.Run step InTime init s → AllServed s := by
  obtain ⟨s, hs, hth, hpc, hfds⟩ := Lts.Run.exists_of_exec step
    (Lts.repeats [(1, .accept 4), (3, .main), (1, .accept 5), (1, .thread 0), (4, .main),
      (1, .thread 1)]) init
    (fun s => s.threads = [⟨.recv, 5, 0⟩, ⟨.recv, 5, 0⟩] ∧ s.pc = .accept ∧ 4 ∈ s.recorded)
    (by decide +kernel)
  obtain ⟨s', hs', hpc', hrec, hno⟩ := Lts.Run.exists_of_execOk step InTime nineteen init
    (fun s => s.pc = .accept ∧ 22 ∈ s.recorded ∧ ∀ th ∈ s.threads, th.pc ≠ .start ∧ th.fd ≠ 22)
    (by decide +kernel)
  refine ⟨fun hall => ?_, fun hall => ?_, fun hall => ?_⟩
  · have heq := hall s hs 0 1 ⟨.recv, 5, 0⟩ ⟨.recv, 5, 0⟩ (by rw [hth]; rfl) (by rw [hth]; rfl)
      nofun nofun rfl
    exact absurd heq (by decide)
  · obtain ⟨th, hmem, hserves⟩ := hall s hs hpc 4 hfds
    rw [hth] at hmem
    simp only [List.mem_cons, List.not_mem_nil, or_false, or_self] at hmem
    simp [hmem, Thread.Serves] at hserves
  · obtain ⟨th, hmem, hserves⟩ := hall s' hs' hpc' 22 hrec
    obtain ⟨hstart, hfd⟩ := hno th hmem
    rw [Thread.Serves, if_neg hstart] at hserves
    exact hfd hserves

end Chat
