import LinuxApi.Chat.Server
import LinuxApi.Lib.Slots

/-!
# The table of the chat server

What each step does (`StepMove`), and what holds in every run (`Inv`): no client is in two slots, and
what is in the table or served by a thread has been returned by `accept`.
-/

set_option autoImplicit false

namespace Chat

open Threads

/-! ## Steps, case by case -/

inductive StepMove (s : State) : Act → State → Prop
  | accept {fd : Nat} : s.pc = .accept → 0 < fd → (fd : Int) ∉ s.returned →
      StepMove s (.accept fd) { s with
        newSock := fd, returned := insert (fd : Int) s.returned, pc := .search, i := 0 }
  | store : s.pc = .search → s.fds[s.i]? = some 0 →
      StepMove s .main { s with fds := s.fds.set s.i s.newSock, pc := .count }
  | next : s.pc = .search → StepMove s .main { s with i := s.i + 1, pc := .search }
  | full : s.pc = .search → StepMove s .main { s with pc := .create }
  | count {n : Int} : s.pc = .count → StepMove s .main { s with user := n, pc := .create }
  | create : s.pc = .create →
      StepMove s .main { s with threads := s.threads ++ [⟨.start, 0, 0⟩], pc := .accept }
  | refuse : s.pc = .create → ¬ s.user < 19 → StepMove s .main { s with pc := .accept }
  | message {t : Nat} : StepMove s (.recv t true) s
  | start {t : Nat} {th : Thread} : s.threads[t]? = some th → th.pc = .start →
      StepMove s (.thread t)
        { s with threads := s.threads.set t { th with pc := .recv, fd := s.newSock } }
  | move {a : Act} {t : Nat} {th th' : Thread} {user : Int} :
      a = .recv t false ∨ a = .thread t → s.threads[t]? = some th → th.pc ≠ .start →
      th'.pc ≠ .start → th'.fd = th.fd →
      StepMove s a { s with user, threads := s.threads.set t th' }
  | free {t k : Nat} {th : Thread} : s.threads[t]? = some th → th.pc ≠ .start →
      StepMove s (.thread t)
        { s with fds := s.fds.set k 0, threads := s.threads.set t { th with pc := .decr } }

section
variable {s s' : State}

theorem main_move (h : stepMain s = some s') : StepMove s .main s' := by
  unfold stepMain at h
  cases hpc : s.pc <;> simp only [hpc] at h
  case accept => cases h
  case search =>
    split at h
    · split at h
      · rename_i fd hfd
        split at h
        · rename_i h0
          obtain ⟨⟩ := h
          exact .store hpc (h0 ▸ hfd)
        · obtain ⟨⟩ := h
          exact .next hpc
      · cases h
    · obtain ⟨⟩ := h
      exact .full hpc
  case count =>
    obtain ⟨n, -, rfl⟩ := Option.map_eq_some_iff.1 h
    exact .count hpc
  case create =>
    split at h
    · split at h
      · obtain ⟨⟩ := h
        exact .create hpc
      · cases h
    · obtain ⟨⟩ := h
      exact .refuse hpc ‹_›

theorem thread_move {t : Nat} {th : Thread} (ht : s.threads[t]? = some th)
    (h : stepThread s t th = some s') : StepMove s (.thread t) s' := by
  unfold stepThread at h
  cases hpc : th.pc <;> simp only [hpc] at h
  case start =>
    obtain ⟨⟩ := h
    exact .start ht hpc
  case recv | exited => cases h
  case clear =>
    have hne : th.pc ≠ .start := by rw [hpc]; nofun
    split at h
    · split at h
      · split at h
        · obtain ⟨⟩ := h
          exact .free ht hne
        · obtain ⟨⟩ := h
          exact .move (.inr rfl) ht hne nofun rfl
      · cases h
    · obtain ⟨⟩ := h
      exact .move (.inr rfl) ht hne nofun rfl
  case decr =>
    obtain ⟨n, -, rfl⟩ := Option.map_eq_some_iff.1 h
    exact .move (.inr rfl) ht (by rw [hpc]; nofun) nofun rfl

theorem step_move {a : Act} (h : step s a = some s') : StepMove s a s' := by
  cases a with
  | accept fd =>
    simp only [step, Option.ite_none_right_eq_some, Option.some.injEq] at h
    obtain ⟨⟨hpc, hpos, hfresh⟩, rfl⟩ := h
    exact .accept hpc hpos hfresh
  | main => exact main_move h
  | recv t message =>
    simp only [step] at h
    split at h
    · rename_i th ht
      simp only [stepRecv, Option.ite_none_right_eq_some] at h
      obtain ⟨hpc, h⟩ := h
      cases message with
      | true =>
        obtain ⟨_, -, rfl⟩ := Option.map_eq_some_iff.1 h
        exact .message
      | false =>
        obtain ⟨⟩ := h
        exact .move (.inl rfl) ht (by rw [hpc]; nofun) nofun rfl
    · cases h
  | thread t =>
    simp only [step] at h
    split at h
    · exact thread_move ‹_› h
    · cases h

end

/-! ## Threads -/

/-- Thread `t` serves `d`. -/
def Started (threads : List Thread) (t : Nat) (d : Int) : Prop :=
  ∃ th, threads[t]? = some th ∧ th.pc ≠ .start ∧ th.fd = d

/-- Thread `t` has not read its descriptor yet. -/
def Unstarted (threads : List Thread) (t : Nat) : Prop :=
  ∃ th, threads[t]? = some th ∧ th.pc = .start

section
variable {threads : List Thread} {t : Nat} {th th' : Thread}

theorem started_set {u : Nat} {d : Int}
    (h : Started (threads.set t th') u d) : u = t ∧ d = th'.fd ∨ u ≠ t ∧ Started threads u d := by
  obtain ⟨th0, h0, hpc0, hd⟩ := h
  rcases getElem?_set_cases h0 with ⟨hu, he⟩ | ⟨hu, h0⟩
  · exact .inl ⟨hu, by rw [← hd, he]⟩
  · exact .inr ⟨hu, th0, h0, hpc0, hd⟩

theorem unstarted_set (hpc : th'.pc ≠ .start) {u : Nat} (h : Unstarted (threads.set t th') u) :
    u ≠ t ∧ Unstarted threads u := by
  obtain ⟨th0, h0, hpc0⟩ := h
  rcases getElem?_set_cases h0 with ⟨-, rfl⟩ | ⟨hu, h0⟩
  · exact absurd hpc0 hpc
  · exact ⟨hu, th0, h0, hpc0⟩

/-- A thread that goes on serves what it served. -/
theorem started_move (ht : threads[t]? = some th) (hpc : th.pc ≠ .start) (hpc' : th'.pc ≠ .start)
    (hfd : th'.fd = th.fd) {u : Nat} {d : Int} :
    Started (threads.set t th') u d ↔ Started threads u d := by
  constructor
  · intro h
    rcases started_set h with ⟨rfl, rfl⟩ | ⟨-, h⟩
    · exact ⟨th, ht, hpc, hfd.symm⟩
    · exact h
  · intro h
    obtain ⟨th0, h0, hp0⟩ := h
    refine exists_getElem?_set ht (p := fun th => th.pc ≠ .start ∧ th.fd = d) (fun hp => ?_)
      ⟨th0, h0, hp0⟩
    exact ⟨hpc', hfd.trans hp.2⟩

theorem unstarted_move (ht : threads[t]? = some th) (hpc : th.pc ≠ .start)
    (hpc' : th'.pc ≠ .start) {u : Nat} :
    Unstarted (threads.set t th') u ↔ Unstarted threads u := by
  constructor
  · exact fun h => (unstarted_set hpc' h).2
  · intro h
    obtain ⟨th0, h0, hp0⟩ := h
    exact exists_getElem?_set ht (p := fun th => th.pc = .start) (fun hp => absurd hp hpc)
      ⟨th0, h0, hp0⟩

theorem started_append {u : Nat} {d : Int} (hpc : th.pc = .start) :
    Started (threads ++ [th]) u d ↔ Started threads u d := by
  constructor
  · intro h
    obtain ⟨th0, h0, hpc0, hd⟩ := h
    rcases getElem?_concat_cases h0 with h0 | ⟨-, rfl⟩
    · exact ⟨th0, h0, hpc0, hd⟩
    · exact absurd hpc hpc0
  · intro h
    obtain ⟨th0, h0, hp⟩ := h
    exact ⟨th0, getElem?_concat_of_some th h0, hp⟩

theorem unstarted_append {u : Nat} (h : Unstarted (threads ++ [th]) u) :
    Unstarted threads u ∨ u = threads.length := by
  obtain ⟨th0, h0, hpc0⟩ := h
  exact (getElem?_concat_cases h0).imp (fun h0 => ⟨th0, h0, hpc0⟩) (·.1)

end

/-! ## The invariant -/

structure Inv (s : State) : Prop where
  length : s.fds.length = size
  distinct : Slots.Distinct 0 s.fds
  accepted : ∀ d ∈ s.fds, d ≠ 0 → d ∈ s.returned
  positive : ∀ d ∈ s.returned, 0 < d
  newSock : s.newSock ∈ s.returned ∨ s.threads = [] ∧ s.pc = .accept
  fresh : s.pc = .search → s.newSock ∉ s.fds
  served : ∀ t d, Started s.threads t d → d ∈ s.returned

theorem inv_init : Inv init where
  length := List.length_replicate
  distinct := (Slots.Holds.replicate size).distinct
  accepted d hd h0 := absurd (List.eq_of_mem_replicate hd) h0
  positive d hd := absurd hd (Finset.notMem_empty d)
  newSock := .inr ⟨rfl, rfl⟩
  fresh h := nomatch h
  served t d h := by
    obtain ⟨th, hth, -⟩ := h
    simp [init] at hth

section
variable {s s' : State} {a : Act} (hi : Inv s)
include hi

/-- While `main` handles a connection, its descriptor is one that `accept` has returned. -/
theorem Inv.sock_of_main (hpc : s.pc ≠ .accept) : s.newSock ∈ s.returned :=
  hi.newSock.resolve_right fun hn => hpc hn.2

/-- So it is once there is a thread. -/
theorem Inv.sock_of_thread {t : Nat} {th : Thread} (ht : s.threads[t]? = some th) :
    s.newSock ∈ s.returned := by
  apply hi.newSock.resolve_right
  intro hn
  rw [hn.1] at ht
  simp at ht

/-- A step of a thread that serves a descriptor. -/
theorem Inv.move {fds : List Int} {user : Int} {t : Nat} {th th' : Thread}
    (ht : s.threads[t]? = some th) (hpc : th.pc ≠ .start) (hpc' : th'.pc ≠ .start)
    (hfd : th'.fd = th.fd) (hfds : fds = s.fds ∨ ∃ k, fds = s.fds.set k 0) :
    Inv { s with fds, user, threads := s.threads.set t th' } := by
  have hmem : ∀ d ∈ fds, d ≠ 0 → d ∈ s.fds := by
    intro d hd h0
    rcases hfds with rfl | ⟨k, rfl⟩
    · exact hd
    · exact (List.mem_or_eq_of_mem_set hd).resolve_right h0
  have hret := hi.sock_of_thread ht
  refine ⟨?_, ?_, fun d hd h0 => hi.accepted d (hmem d hd h0) h0, hi.positive, .inl hret, ?_, ?_⟩
  · rcases hfds with rfl | ⟨k, rfl⟩
    · exact hi.length
    · exact List.length_set.trans hi.length
  · rcases hfds with rfl | ⟨k, rfl⟩
    · exact hi.distinct
    · exact hi.distinct.clear
  · intro hpc hsock
    have hsock0 : s.newSock ≠ 0 := (hi.positive _ hret).ne'
    exact hi.fresh hpc (hmem _ hsock hsock0)
  · intro u d h
    exact hi.served u d ((started_move ht hpc hpc' hfd).1 h)

theorem Inv.step (h : step s a = some s') : Inv s' := by
  cases step_move h with
  | @accept fd hpc hpos hfresh =>
    refine ⟨hi.length, hi.distinct, ?_, ?_, .inl (Finset.mem_insert_self _ _), fun _ hmem => ?_, ?_⟩
    · exact fun d hd h0 => Finset.mem_insert_of_mem (hi.accepted d hd h0)
    · intro d hd
      rcases Finset.mem_insert.1 hd with rfl | hd
      · omega
      · exact hi.positive d hd
    · exact hfresh (hi.accepted _ hmem (show (fd : Int) ≠ 0 by omega))
    · exact fun t d h => Finset.mem_insert_of_mem (hi.served t d h)
  | store hpc hfree =>
    have hsock := hi.sock_of_main (by rw [hpc]; nofun)
    refine ⟨List.length_set.trans hi.length, hi.distinct.put hfree (hi.fresh hpc), ?_, hi.positive,
      .inl hsock, nofun, hi.served⟩
    intro d hd h0
    rcases List.mem_or_eq_of_mem_set hd with hd | rfl
    · exact hi.accepted d hd h0
    · exact hsock
  | next hpc =>
    have hsock := hi.sock_of_main (by rw [hpc]; nofun)
    exact ⟨hi.length, hi.distinct, hi.accepted, hi.positive, .inl hsock, fun _ => hi.fresh hpc,
      hi.served⟩
  | full hpc | count hpc | refuse hpc =>
    have hsock := hi.sock_of_main (by rw [hpc]; nofun)
    exact ⟨hi.length, hi.distinct, hi.accepted, hi.positive, .inl hsock, nofun, hi.served⟩
  | create hpc =>
    have hsock := hi.sock_of_main (by rw [hpc]; nofun)
    exact ⟨hi.length, hi.distinct, hi.accepted, hi.positive, .inl hsock, nofun,
      fun t d h => hi.served t d ((started_append rfl).1 h)⟩
  | message => exact hi
  | start ht hpc =>
    have hsock := hi.sock_of_thread ht
    refine ⟨hi.length, hi.distinct, hi.accepted, hi.positive, .inl hsock, hi.fresh, ?_⟩
    intro u d h
    rcases started_set h with ⟨-, rfl⟩ | ⟨-, h⟩
    · exact hsock
    · exact hi.served u d h
  | move _ ht hpc hpc' hfd => exact hi.move ht hpc hpc' hfd (.inl rfl)
  | free ht hpc => exact hi.move ht hpc nofun rfl (.inr ⟨_, rfl⟩)

end

theorem inv_of_run {ok : State → Act → Prop} {s : State} (h : Lts.Run step ok init s) : Inv s :=
  h.inv inv_init fun _ _ _ hi _ hs => hi.step hs

end Chat
