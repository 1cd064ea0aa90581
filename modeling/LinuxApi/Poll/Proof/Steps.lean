import LinuxApi.Lib.Slots
import LinuxApi.Poll.Server

/-!
# The table of the poll server, step by step

What each step does (`StepMove`), and what holds of the table in every run (`Base`): nothing but
clients that are open is in it, none of them twice, and behind `max_fd` it is as it was at the
start.
-/

set_option autoImplicit false

namespace Poll

open Convert

/-! ## Operations on the table -/

theorem polled_fds : ∀ (es : List PollFd) (rs : List UInt16),
    (polled es rs).map (·.fd) = es.map (·.fd)
  | [], rs => by cases rs <;> rfl
  | _ :: _, [] => rfl
  | e :: es, r :: rs => congrArg (e.fd :: ·) (polled_fds es rs)

/-- What an entry holds after `poll`. -/
theorem polled_getElem? : ∀ (es : List PollFd) (rs : List UInt16) (j : Nat),
    (polled es rs)[j]? = (es[j]?).map fun e =>
      { e with revents := match rs[j]? with
                          | some r => if e.fd < 0 then 0 else r
                          | none => e.revents }
  | [], rs, j => by cases rs <;> rfl
  | e :: es, [], j => by simp [polled]
  | e :: es, r :: rs, 0 => rfl
  | e :: es, r :: rs, j + 1 => by
    simpa only [polled, List.getElem?_cons_succ] using polled_getElem? es rs j

theorem modify_fds (es : List PollFd) (i : Nat) (fd : Int) :
    (es.modify i fun e => { e with fd := fd }).map (·.fd) = (es.map (·.fd)).set i fd := by
  apply List.ext_getElem?
  intro j
  rw [List.getElem?_map, List.getElem?_modify, List.getElem?_set, List.length_map]
  by_cases hij : i = j
  · subst hij
    cases hi : es[i]? with
    | none => simp [List.getElem?_eq_none_iff.1 hi]
    | some e => simp [(List.getElem?_eq_some_iff.1 hi).1]
  · simp [hij]

theorem fds_getElem? (s : State) (j : Nat) : s.fds[j]? = (s.clientFds[j]?).map (·.fd) :=
  List.getElem?_map

section
variable {fds : List Int}

/-- The slot that `search` finds is the first free one. -/
theorem search_spec (hlen : fds.length = 1024) :
    (fds[search fds]? = some (-1) ∨ search fds = 1024) ∧
    ∀ j, 1 ≤ j → j < search fds → fds[j]? ≠ some (-1) := by
  have hget : ∀ k : Nat, fds[1 + k]? = fds.tail[k]? := by
    intro k
    rw [List.getElem?_tail, Nat.add_comm]
  refine ⟨?_, ?_⟩
  · rcases Nat.lt_or_ge (fds.tail.findIdx (· = -1)) fds.tail.length with hlt | hge
    · left
      have hp := List.findIdx_getElem (w := hlt)
      rw [search, hget, List.getElem?_eq_getElem hlt]
      exact congrArg some (of_decide_eq_true hp)
    · right
      have hle : fds.tail.findIdx (· = -1) ≤ fds.tail.length := List.findIdx_le_length
      rw [List.length_tail, hlen] at hge hle
      rw [search]
      omega
  · intro j hj hlt hfree
    obtain ⟨k, rfl⟩ := Nat.exists_eq_add_of_le hj
    rw [hget] at hfree
    obtain ⟨hk, he⟩ := List.getElem?_eq_some_iff.1 hfree
    have hno : decide (fds.tail[k] = -1) = false :=
      List.not_of_lt_findIdx (Nat.lt_of_add_lt_add_left hlt)
    exact absurd he (of_decide_eq_false hno)

end

/-! ## Steps, case by case -/

inductive StepMove (lfd : Nat) (s : State) : Act → State → Prop
  | poll {revents : List UInt16} : s.pc = .poll → s.maxFd < s.clientFds.length →
      revents.length = s.maxFd + 1 →
      StepMove lfd s (.poll revents) { s with clientFds := polled s.clientFds revents, pc := .test }
  | accept {cfd : Nat} : s.pc = .test → cfd ≠ lfd → (cfd : Int) ∉ s.clients →
      StepMove lfd s (.accept cfd) (accept s cfd)
  | quiet : s.pc = .test → StepMove lfd s .main { s with i := 1, pc := .loop }
  | skip {e : PollFd} : s.pc = .loop → s.clientFds[s.i]? = some e → e.fd = -1 ∨ ¬ e.Readable →
      StepMove lfd s .main { s with i := s.i + 1, pc := .loop }
  | found {e : PollFd} : s.pc = .loop → s.i ≤ s.maxFd → s.clientFds[s.i]? = some e → e.fd ≠ -1 →
      e.Readable → StepMove lfd s .main { s with pc := .read }
  | done : s.pc = .loop → s.maxFd < s.i → StepMove lfd s .main { s with pc := .poll }
  | data {e : PollFd} {chunk buf : CLib.Bytes} : s.pc = .read → s.clientFds[s.i]? = some e →
      StepMove lfd s (.read (.data chunk)) { s with revBuff := buf, i := s.i + 1, pc := .loop }
  | eof {e : PollFd} : s.pc = .read → s.clientFds[s.i]? = some e →
      StepMove lfd s (.read .eof) (close s e.fd)
  | error {e : PollFd} : s.pc = .read → s.clientFds[s.i]? = some e →
      StepMove lfd s (.read .error) { s with pc := .poll }

section
variable {lfd : Nat} {s s' : State}

theorem main_move (h : stepMain s = some s') : StepMove lfd s .main s' := by
  unfold stepMain at h
  cases hpc : s.pc <;> simp only [hpc] at h
  case poll => cases h
  case test =>
    split at h
    · split at h
      · cases h
      · obtain ⟨⟩ := h
        exact .quiet hpc
    · cases h
  case loop =>
    split at h
    · rename_i hle
      split at h
      · rename_i e he
        split at h
        · obtain ⟨⟩ := h
          exact .skip hpc he (.inl ‹_›)
        · split at h
          · obtain ⟨⟩ := h
            exact .found hpc hle he ‹_› ‹_›
          · obtain ⟨⟩ := h
            exact .skip hpc he (.inr ‹_›)
      · cases h
    · obtain ⟨⟩ := h
      exact .done hpc (Nat.lt_of_not_le ‹_›)
  case read => cases h

theorem step_move {a : Act} (h : step lfd s a = some s') : StepMove lfd s a s' := by
  cases a with
  | poll revents =>
    simp only [step, Option.ite_none_right_eq_some, Option.some.injEq] at h
    obtain ⟨⟨hpc, hlt, hlen⟩, rfl⟩ := h
    exact .poll hpc hlt hlen
  | accept cfd =>
    simp only [step] at h
    split at h
    · simp only [Option.ite_none_right_eq_some, Option.some.injEq] at h
      obtain ⟨⟨hpc, -, hne, hfresh⟩, rfl⟩ := h
      exact .accept hpc hne hfresh
    · cases h
  | main => exact main_move h
  | read r =>
    simp only [step] at h
    split at h
    · rename_i e he
      simp only [Option.ite_none_right_eq_some] at h
      obtain ⟨hpc, h⟩ := h
      cases r with
      | data chunk =>
        simp only [stepRead, Option.ite_none_right_eq_some, Option.map_eq_some_iff] at h
        obtain ⟨-, x, -, rfl⟩ := h
        exact .data hpc he
      | eof =>
        obtain ⟨⟩ := h
        exact .eof hpc he
      | error =>
        obtain ⟨⟩ := h
        exact .error hpc he
    · cases h

end

/-! ## The table in every run -/

structure Base (lfd : Nat) (junk : Nat → UInt16) (s : State) : Prop where
  length : s.clientFds.length = 1024
  listen : s.fds[0]? = some (lfd : Int)
  distinct : Slots.Distinct (-1) s.fds.tail
  only : ∀ fd ∈ s.fds.tail, fd ≠ -1 → fd ∈ s.clients
  unused : ∀ j, s.maxFd < j → j < 1024 → s.clientFds[j]? = some ⟨-1, junk j⟩
  index : s.pc = .loop ∨ s.pc = .read → 1 ≤ s.i
  bound : s.pc = .read → s.i ≤ s.maxFd

section
variable {lfd : Nat} {junk : Nat → UInt16}

theorem init_length : (init lfd junk).clientFds.length = 1024 := by
  rw [init, List.length_map, List.length_range]

theorem init_getElem? {j : Nat} (hj : j < 1024) : (init lfd junk).clientFds[j]? =
    some ⟨if j = 0 then lfd else -1, junk j⟩ := by
  rw [init, List.getElem?_map, List.getElem?_range hj]
  rfl

theorem init_tail : (init lfd junk).fds.tail = List.replicate 1023 (-1) := by
  refine List.eq_replicate_iff.2 ⟨?_, fun fd hfd => ?_⟩
  · rw [List.length_tail, State.fds, List.length_map, init_length]
  obtain ⟨k, hk⟩ := List.mem_iff_getElem?.1 hfd
  rw [List.getElem?_tail, fds_getElem?] at hk
  have hlt : k + 1 < 1024 := by
    by_contra hge
    rw [List.getElem?_eq_none (by rw [init_length]; omega)] at hk
    cases hk
  rw [init_getElem? hlt] at hk
  exact (Option.some.inj hk).symm

theorem base_init : Base lfd junk (init lfd junk) where
  length := init_length
  listen := by
    rw [fds_getElem?, init_getElem? (by decide)]
    rfl
  distinct := by
    rw [init_tail]
    exact (Slots.Holds.replicate 1023).distinct
  only fd hfd hne := by
    rw [init_tail] at hfd
    exact absurd (List.eq_of_mem_replicate hfd) hne
  unused j hlt hj := by
    rw [init_getElem? hj, if_neg (Nat.ne_of_gt (Nat.zero_lt_of_lt hlt))]
  index h := by rcases h with h | h <;> cases h
  bound h := nomatch h

variable {s s' : State} {a : Act} (hb : Base lfd junk s)
include hb

theorem Base.fds_length : s.fds.length = 1024 := by
  rw [State.fds, List.length_map, hb.length]

/-- The slot of a new client was free. -/
theorem Base.search_tail : ∃ k, search s.fds = k + 1 ∧
    (s.fds.tail[k]? = some (-1) ∨ s.fds.tail.length ≤ k) := by
  obtain ⟨hfree, -⟩ := search_spec hb.fds_length
  refine ⟨s.fds.tail.findIdx (· = -1), Nat.add_comm _ _, ?_⟩
  rcases hfree with hfree | hfull
  · rw [search, Nat.add_comm] at hfree
    exact .inl (List.getElem?_tail.trans hfree)
  · rw [search] at hfull
    right
    rw [List.length_tail, hb.fds_length]
    omega

theorem Base.accept_tail (cfd : Nat) : ∃ k, search s.fds = k + 1 ∧
    (s.fds.tail[k]? = some (-1) ∨ s.fds.tail.length ≤ k) ∧
    (accept s cfd).fds = s.fds.set (k + 1) cfd ∧
    (accept s cfd).fds.tail = s.fds.tail.set k cfd := by
  obtain ⟨k, hk, hfree⟩ := hb.search_tail
  have hfds : (Poll.accept s cfd).fds = s.fds.set (k + 1) cfd := by
    rw [← hk]
    exact modify_fds s.clientFds (search s.fds) cfd
  exact ⟨k, hk, hfree, hfds, by rw [hfds, List.set_tail]⟩

/-- The slot of a client that is closed. -/
theorem Base.close_tail {e : PollFd} (hpc : s.pc = .read) (he : s.clientFds[s.i]? = some e) :
    ∃ k, (close s e.fd).fds = s.fds.set (k + 1) (-1) ∧
      (close s e.fd).fds.tail = s.fds.tail.set k (-1) ∧ s.fds.tail[k]? = some e.fd := by
  obtain ⟨k, hk⟩ : ∃ k, s.i = k + 1 :=
    Nat.exists_eq_succ_of_ne_zero (Nat.ne_of_gt (hb.index (.inr hpc)))
  have hfds : (close s e.fd).fds = s.fds.set (k + 1) (-1) := by
    rw [← hk]
    exact modify_fds s.clientFds s.i (-1)
  refine ⟨k, hfds, by rw [hfds, List.set_tail], ?_⟩
  rw [List.getElem?_tail, ← hk, fds_getElem?, he]
  rfl

theorem Base.accept {cfd : Nat} (hfresh : (cfd : Int) ∉ s.clients) :
    Base lfd junk (accept s cfd) := by
  obtain ⟨k, hk, hfree, hfds, htail⟩ := hb.accept_tail cfd
  have hne : (cfd : Int) ≠ -1 := by omega
  refine ⟨?_, ?_, ?_, ?_, ?_, fun _ => Nat.le_refl 1, nofun⟩
  · exact (List.length_modify _ _ _).trans hb.length
  · rw [hfds, List.getElem?_set_ne (Nat.succ_ne_zero k)]
    exact hb.listen
  · rw [htail]
    rcases hfree with hfree | hfull
    · exact hb.distinct.put hfree fun hmem => hfresh (hb.only _ hmem hne)
    · rw [List.set_eq_of_length_le hfull]
      exact hb.distinct
  · intro fd hfd hne
    rw [htail] at hfd
    rcases List.mem_or_eq_of_mem_set hfd with hfd | rfl
    · exact Finset.mem_insert_of_mem (hb.only fd hfd hne)
    · exact Finset.mem_insert_self _ _
  · intro j hlt hj
    have hlt : (if search s.fds > s.maxFd then search s.fds else s.maxFd) < j := hlt
    rw [Poll.accept, List.getElem?_modify_ne _ _ (by split at hlt <;> omega)]
    exact hb.unused j (by split at hlt <;> omega) hj

theorem Base.close {e : PollFd} (hpc : s.pc = .read) (he : s.clientFds[s.i]? = some e) :
    Base lfd junk (close s e.fd) := by
  obtain ⟨k, hfds, htail, hslot⟩ := hb.close_tail hpc he
  refine ⟨?_, ?_, ?_, ?_, ?_, fun _ => Nat.le_add_left 1 s.i, nofun⟩
  · exact (List.length_modify _ _ _).trans hb.length
  · rw [hfds, List.getElem?_set_ne (Nat.succ_ne_zero k)]
    exact hb.listen
  · rw [htail]
    exact hb.distinct.clear
  · intro fd hfd hne
    rw [htail] at hfd
    have hmem := (List.mem_or_eq_of_mem_set hfd).resolve_right hne
    refine Finset.mem_erase.2 ⟨fun heq => ?_, hb.only fd hmem hne⟩
    -- the slot was the only one with this descriptor
    have hcount := Slots.count_set_add (b := -1) fd hslot
    have hle := hb.distinct fd hne
    have hpos := List.count_pos_iff.2 hfd
    rw [if_pos heq.symm, if_neg (Ne.symm hne)] at hcount
    omega
  · intro j hlt hj
    have hlt : s.maxFd < j := hlt
    have hle := hb.bound hpc
    rw [Poll.close, List.getElem?_modify_ne _ _ (by omega)]
    exact hb.unused j hlt hj

/-- `main` goes on with the same table. -/
theorem Base.main {revBuff : CLib.Bytes} {i : Nat} {pc : Pc}
    (hindex : pc = .loop ∨ pc = .read → 1 ≤ i) (hbound : pc = .read → i ≤ s.maxFd) :
    Base lfd junk { s with revBuff, i, pc } where
  length := hb.length
  listen := hb.listen
  distinct := hb.distinct
  only := hb.only
  unused := hb.unused
  index := hindex
  bound := hbound

theorem Base.step (h : step lfd s a = some s') : Base lfd junk s' := by
  cases step_move h with
  | @poll revents hpc hlt hlen =>
    have hfds : ({ s with clientFds := polled s.clientFds revents, pc := .test } : State).fds =
        s.fds := polled_fds s.clientFds revents
    refine ⟨?_, ?_, ?_, ?_, ?_, nofun, nofun⟩
    · have hlen := congrArg List.length hfds
      rwa [State.fds, List.length_map, hb.fds_length] at hlen
    · rw [hfds]
      exact hb.listen
    · rw [hfds]
      exact hb.distinct
    · rw [hfds]
      exact hb.only
    · intro j hj hlt'
      have hj : s.maxFd < j := hj
      rw [polled_getElem?, hb.unused j hj hlt', List.getElem?_eq_none (by omega)]
      rfl
  | accept _ _ hfresh => exact hb.accept hfresh
  | quiet => exact hb.main (fun _ => Nat.le_refl 1) nofun
  | skip | data => exact hb.main (fun _ => Nat.le_add_left 1 s.i) nofun
  | found hpc hle => exact hb.main (fun _ => hb.index (.inl hpc)) fun _ => hle
  | done | error => exact hb.main (by simp) nofun
  | eof hpc he => exact hb.close hpc he

end

theorem base_of_run {lfd : Nat} {junk : Nat → UInt16} {ok : State → Act → Prop} {s : State}
    (h : Lts.Run (step lfd) ok (init lfd junk) s) : Base lfd junk s :=
  h.inv base_init fun _ _ _ hb _ hs => hb.step hs

end Poll
