import LinuxApi.Poll.Proof.Steps

/-!
# Runs of the poll server that fill its table

Clients connect one after another and none of them sends anything: `exists_filled` has any number of
them in the table, as long as no slot starts with `POLLIN` in its `revents`. One more
connection is `Filled.connect`; a pass in which nothing is reported is `loop_quiet`.
-/

set_option autoImplicit false

namespace Poll

open Convert

section
variable {lfd : Nat} {junk : Nat → UInt16}

/-- In `poll`, with a client in each of the slots up to `k`. -/
structure Filled (lfd k : Nat) (s : State) : Prop where
  pc : s.pc = .poll
  maxFd : s.maxFd = k
  taken : ∀ j, 1 ≤ j → j ≤ k → ∃ e, s.clientFds[j]? = some e ∧ 0 ≤ e.fd
  fresh : ∀ c ∈ s.clients, (lfd : Int) < c ∧ c ≤ lfd + k

/-- `poll` has reported a connection and nothing else. -/
structure Pending (lfd : Nat) (junk : Nat → UInt16) (k : Nat) (s : State) : Prop where
  pc : s.pc = .test
  maxFd : s.maxFd = k
  listen : s.clientFds[0]? = some ⟨lfd, pollin⟩
  quiet : ∀ j, 1 ≤ j → j ≤ k → ∃ e, s.clientFds[j]? = some e ∧ 0 ≤ e.fd ∧ ¬ e.Readable
  free : s.clientFds[k + 1]? = some ⟨-1, junk (k + 1)⟩
  fresh : ∀ c ∈ s.clients, (lfd : Int) < c ∧ c ≤ lfd + k

/-- One more client has been accepted, and no other one was reported. -/
structure Connected (lfd : Nat) (junk : Nat → UInt16) (k : Nat) (s : State) : Prop where
  pc : s.pc = .loop
  i : s.i = 1
  maxFd : s.maxFd = k + 1
  quiet : ∀ j, 1 ≤ j → j ≤ k → ∃ e, s.clientFds[j]? = some e ∧ 0 ≤ e.fd ∧ ¬ e.Readable
  last : s.clientFds[k + 1]? = some ⟨lfd + k + 1, junk (k + 1)⟩
  fresh : ∀ c ∈ s.clients, (lfd : Int) < c ∧ c ≤ lfd + (k + 1)

theorem card_lt_of_fresh {clients : Finset Int} {k : Nat}
    (h : ∀ c ∈ clients, (lfd : Int) < c ∧ c ≤ lfd + k) (hk : k < 1023) : clients.card < 1023 := by
  have hsub : clients ⊆ Finset.Ioc (lfd : Int) (lfd + k) := fun c hc => Finset.mem_Ioc.2 (h c hc)
  have hle := Finset.card_le_card hsub
  rw [Int.card_Ioc] at hle
  omega

theorem search_eq {fds : List Int} {k : Nat} (hlen : fds.length = 1024) (hk : 1 ≤ k)
    (hfree : fds[k]? = some (-1)) (htaken : ∀ j, 1 ≤ j → j < k → fds[j]? ≠ some (-1)) :
    search fds = k := by
  obtain ⟨hfound, hbefore⟩ := search_spec hlen
  have hle : ¬ k < search fds := fun hlt => hbefore k hk hlt hfree
  have hlt : k < 1024 := by
    rw [← hlen]
    exact (List.getElem?_eq_some_iff.1 hfree).1
  rcases hfound with hfound | hfull
  · by_contra hne
    exact htaken (search fds) (Nat.le_add_right _ _) (by omega) hfound
  · omega

/-- A table without a free slot. -/
theorem search_full {s : State} (hlen : s.fds.length = 1024)
    (htaken : ∀ j, 1 ≤ j → j ≤ 1023 → ∃ e, s.clientFds[j]? = some e ∧ 0 ≤ e.fd) :
    search s.fds = 1024 := by
  apply (search_spec hlen).1.resolve_left
  intro hfree
  have hlt := (List.getElem?_eq_some_iff.1 hfree).1
  rw [hlen] at hlt
  obtain ⟨e, he, hfd⟩ := htaken (search s.fds) (Nat.le_add_right 1 _) (by omega)
  rw [fds_getElem?, he] at hfree
  have hfd' : e.fd = -1 := Option.some.inj hfree
  omega

/-- `poll` reports the descriptors in the slots of `revents`. -/
theorem step_poll {s : State} {revents : List UInt16} (hpc : s.pc = .poll)
    (hlt : s.maxFd < s.clientFds.length) (hlen : revents.length = s.maxFd + 1) :
    step lfd s (.poll revents) =
      some { s with clientFds := polled s.clientFds revents, pc := .test } :=
  if_pos ⟨hpc, hlt, hlen⟩

theorem step_accept {s : State} {cfd : Nat} {e : PollFd} (h0 : s.clientFds[0]? = some e)
    (hpc : s.pc = .test) (he : e.Readable) (hne : cfd ≠ lfd) (hfresh : (cfd : Int) ∉ s.clients) :
    step lfd s (.accept cfd) = some (accept s cfd) := by
  simp only [step, h0]
  exact if_pos ⟨hpc, he, hne, hfresh⟩

theorem step_found {s : State} {e : PollFd} (hpc : s.pc = .loop) (hle : s.i ≤ s.maxFd)
    (he : s.clientFds[s.i]? = some e) (hfd : e.fd ≠ -1) (hr : e.Readable) :
    step lfd s .main = some { s with pc := .read } := by
  simp only [step, stepMain, hpc, he]
  rw [if_pos hle, if_neg hfd, if_pos hr]

theorem step_error {s : State} {e : PollFd} (hpc : s.pc = .read) (he : s.clientFds[s.i]? = some e) :
    step lfd s (.read .error) = some { s with pc := .poll } := by
  simp only [step, he, hpc]
  rfl

/-- What `poll` leaves in an occupied slot. -/
theorem polled_taken {es : List PollFd} {rs : List UInt16} {j : Nat} {e : PollFd} {r : UInt16}
    (he : es[j]? = some e) (hr : rs[j]? = some r) (hfd : 0 ≤ e.fd) :
    (polled es rs)[j]? = some ⟨e.fd, r⟩ := by
  rw [polled_getElem?, he, hr]
  simp [Int.not_lt.2 hfd]

theorem not_readable_zero (fd : Int) : ¬ (⟨fd, 0⟩ : PollFd).Readable :=
  fun h => h (by decide : (0 : UInt16) &&& pollin = 0)

theorem readable_pollin (fd : Int) : (⟨fd, pollin⟩ : PollFd).Readable :=
  show pollin &&& pollin ≠ 0 by decide

theorem Base.listen_entry {s : State} (hb : Base lfd junk s) :
    ∃ r, s.clientFds[0]? = some ⟨lfd, r⟩ := by
  have h0 := hb.listen
  rw [fds_getElem?, Option.map_eq_some_iff] at h0
  obtain ⟨⟨fd, r⟩, he, rfl⟩ := h0
  exact ⟨r, he⟩

/-- What `poll` reports when a client connects and nobody else does anything. -/
def connects (k : Nat) : List UInt16 := pollin :: List.replicate k 0

/-- A client connects to a table with room. -/
theorem Filled.poll {s : State} {k : Nat} (h : Filled lfd k s) (hb : Base lfd junk s)
    (hk : k < 1023) :
    ∃ s₁, step lfd s (.poll (connects k)) = some s₁ ∧ Pending lfd junk k s₁ := by
  have hpoll : step lfd s (.poll (connects k)) =
      some { s with clientFds := polled s.clientFds (connects k), pc := .test } := by
    apply step_poll h.pc
    · rw [h.maxFd, hb.length]
      omega
    · rw [h.maxFd, connects, List.length_cons, List.length_replicate]
  refine ⟨_, hpoll, rfl, h.maxFd, ?_, ?_, ?_, h.fresh⟩
  · obtain ⟨r0, h0⟩ := hb.listen_entry
    exact polled_taken h0 rfl (Int.natCast_nonneg lfd)
  · intro j hj hjk
    obtain ⟨e, he, hfd⟩ := h.taken j hj hjk
    obtain ⟨i, rfl⟩ := Nat.exists_eq_add_of_le' hj
    refine ⟨⟨e.fd, 0⟩, polled_taken he ?_ hfd, hfd, not_readable_zero _⟩
    rw [connects, List.getElem?_cons_succ, List.getElem?_replicate, if_pos (by omega)]
  · show (polled s.clientFds (connects k))[k + 1]? = _
    rw [polled_getElem?, hb.unused (k + 1) (by rw [h.maxFd]; omega) (by omega),
      List.getElem?_eq_none (by simp [connects])]
    rfl

/-- The client gets the slot behind the others. -/
theorem Pending.accept {s : State} {k : Nat} (h : Pending lfd junk k s) (hb : Base lfd junk s) :
    ∃ s₁, step lfd s (.accept (lfd + k + 1)) = some s₁ ∧ Connected lfd junk k s₁ := by
  have hfresh : ((lfd + k + 1 : Nat) : Int) ∉ s.clients := fun hmem => by
    have hle := h.fresh _ hmem
    omega
  have hsearch : search s.fds = k + 1 := by
    apply search_eq hb.fds_length (Nat.le_add_left 1 k)
    · rw [fds_getElem?, h.free]
      rfl
    · intro j hj hjk
      obtain ⟨e, he, hfd, -⟩ := h.quiet j hj (Nat.le_of_lt_succ hjk)
      rw [fds_getElem?, he]
      intro heq
      have hfd' : e.fd = -1 := Option.some.inj heq
      omega
  have hentry : ∀ j : Nat, (Poll.accept s (lfd + k + 1)).clientFds[j]? =
      (s.clientFds.modify (k + 1) fun e => { e with fd := (lfd + k + 1 : Nat) })[j]? := by
    intro j
    rw [← hsearch]
    rfl
  have haccept : step lfd s (.accept (lfd + k + 1)) = _ :=
    step_accept h.listen h.pc (readable_pollin _) (by omega) hfresh
  refine ⟨_, haccept, rfl, rfl, ?_, ?_, ?_, ?_⟩
  · show (if search s.fds > s.maxFd then search s.fds else s.maxFd) = k + 1
    rw [hsearch, h.maxFd, if_pos (Nat.lt_succ_self k)]
  · intro j hj hjk
    rw [hentry, List.getElem?_modify_ne _ _ (by omega)]
    exact h.quiet j hj hjk
  · rw [hentry, List.getElem?_modify_eq, h.free]
    rfl
  · intro c hc
    rcases Finset.mem_insert.1 hc with rfl | hc
    · omega
    · have hle := h.fresh c hc
      omega

/-- One more client is in the table. -/
theorem Filled.connect {s : State} {k : Nat} (h : Filled lfd k s) (hb : Base lfd junk s)
    (hk : k < 1023) : ∃ s₁ s₂, step lfd s (.poll (connects k)) = some s₁ ∧
      Room s₁ (.accept (lfd + k + 1)) ∧ step lfd s₁ (.accept (lfd + k + 1)) = some s₂ ∧
        Connected lfd junk k s₂ := by
  obtain ⟨s₁, hpoll, hp⟩ := h.poll hb hk
  obtain ⟨s₂, haccept, hc⟩ := hp.accept (hb.step hpoll)
  exact ⟨s₁, s₂, hpoll, card_lt_of_fresh hp.fresh hk, haccept, hc⟩

/-- `main` goes past slots that are not readable. -/
theorem loop_to (lfd : Nat) : ∀ {n : Nat} {s : State}, s.pc = .loop → s.i + n ≤ s.maxFd + 1 →
    (∀ j, s.i ≤ j → j < s.i + n → ∃ e, s.clientFds[j]? = some e ∧ ¬ e.Readable) →
    Lts.Run (step lfd) (fun _ a => a = .main) s { s with i := s.i + n }
  | 0, s, _, _, _ => .start
  | n + 1, s, hpc, hle, h => by
    obtain ⟨e, he, hq⟩ := h s.i (Nat.le_refl _) (by omega)
    have hstep : step lfd s .main = some { s with i := s.i + 1 } := by
      simp only [step, stepMain, hpc, he]
      rw [if_pos (by omega), if_neg hq, ite_self]
    have hone : Lts.Run (step lfd) (fun _ a => a = .main) s _ := .next .start rfl hstep
    have hrest := loop_to lfd (n := n) (s := { s with i := s.i + 1 }) hpc
      (show s.i + 1 + n ≤ s.maxFd + 1 by omega) fun j hj hjn => by
        have hjn : j < s.i + 1 + n := hjn
        exact h j (Nat.le_of_succ_le hj) (by omega)
    have heq : s.i + 1 + n = s.i + (n + 1) := by omega
    rw [← heq]
    exact hone.trans hrest

/-- Nothing is reported in the slots that are left, so `main` gets to the next `poll`. -/
theorem loop_quiet (lfd : Nat) {s : State} (hpc : s.pc = .loop) (hle : s.i ≤ s.maxFd + 1)
    (h : ∀ j, s.i ≤ j → j ≤ s.maxFd → ∃ e, s.clientFds[j]? = some e ∧ ¬ e.Readable) :
    Lts.Run (step lfd) (fun _ a => a = .main) s { s with i := s.maxFd + 1, pc := .poll } := by
  have hend : s.i + (s.maxFd + 1 - s.i) = s.maxFd + 1 := by omega
  have hrun := loop_to lfd (n := s.maxFd + 1 - s.i) hpc (Nat.le_of_eq hend) fun j hj hjn =>
    h j hj (by omega)
  rw [hend] at hrun
  have hdone : step lfd { s with i := s.maxFd + 1 } .main =
      some { s with i := s.maxFd + 1, pc := .poll } := by
    simp only [step, stepMain, hpc]
    exact if_neg (Nat.not_succ_le_self _)
  exact .next hrun rfl hdone

/-- The new client is not marked, so `main` gets to the next `poll`. -/
theorem Connected.pass {s : State} {k : Nat} (h : Connected lfd junk k s)
    (hjunk : junk (k + 1) &&& pollin = 0) :
    Lts.Run (step lfd) (fun _ a => a = .main) s { s with i := s.maxFd + 1, pc := .poll } ∧
      Filled lfd (k + 1) { s with i := s.maxFd + 1, pc := .poll } := by
  have hslot : ∀ j, 1 ≤ j → j ≤ k + 1 → ∃ e, s.clientFds[j]? = some e ∧ 0 ≤ e.fd ∧
      ¬ e.Readable := by
    intro j hj hjk
    rcases Nat.lt_or_eq_of_le hjk with hlt | rfl
    · exact h.quiet j hj (Nat.le_of_lt_succ hlt)
    · refine ⟨_, h.last, ?_, fun hr => hr hjunk⟩
      show (0 : Int) ≤ lfd + k + 1
      omega
  have hloop := loop_quiet lfd h.pc (by rw [h.i]; exact Nat.le_add_left 1 _) fun j hj hjm => by
    rw [h.i] at hj
    rw [h.maxFd] at hjm
    obtain ⟨e, he, -, hq⟩ := hslot j hj hjm
    exact ⟨e, he, hq⟩
  refine ⟨hloop, rfl, h.maxFd, fun j hj hjk => ?_, h.fresh⟩
  obtain ⟨e, he, hfd, -⟩ := hslot j hj hjk
  exact ⟨e, he, hfd⟩

/-- The new client is marked, and `main` calls `read`. -/
theorem Connected.marked {s : State} {k : Nat} (h : Connected lfd junk k s)
    (hjunk : junk (k + 1) &&& pollin ≠ 0) :
    Lts.Run (step lfd) (fun _ a => a = .main) s { s with i := k + 1, pc := .read } := by
  have hslot : s.i + k = k + 1 := by rw [h.i, Nat.add_comm]
  have hloop : Lts.Run (step lfd) (fun _ a => a = .main) s { s with i := k + 1 } := by
    rw [← hslot]
    apply loop_to lfd h.pc (by rw [hslot, h.maxFd]; exact Nat.le_succ _)
    intro j hj hjk
    rw [h.i] at hj
    obtain ⟨e, he, -, hq⟩ := h.quiet j hj (by omega)
    exact ⟨e, he, hq⟩
  exact .next hloop rfl (step_found h.pc (Nat.le_of_eq h.maxFd.symm) h.last
    (show (lfd : Int) + k + 1 ≠ -1 by omega) hjunk)

/-- The table with any number of clients. -/
theorem exists_filled (lfd : Nat) : ∀ {k : Nat}, k ≤ 1023 →
    (∀ j, 1 ≤ j → j ≤ k → junk j &&& pollin = 0) →
    ∃ s, Lts.Run (step lfd) Room (init lfd junk) s ∧ Filled lfd k s
  | 0, _, _ => by
    refine ⟨init lfd junk, .start, rfl, rfl, fun j hj hj0 => ?_, fun c hc => ?_⟩
    · omega
    · exact absurd hc (Finset.notMem_empty c)
  | k + 1, hk, hquiet => by
    obtain ⟨s, hs, hf⟩ := exists_filled lfd (k := k) (by omega)
      fun j hj hjk => hquiet j hj (Nat.le_succ_of_le hjk)
    obtain ⟨s₁, s₂, hpoll, hroom, haccept, hc⟩ := hf.connect (base_of_run hs) hk
    have hrun : Lts.Run (step lfd) Room (init lfd junk) s₂ :=
      .next (.next hs (a := .poll _) trivial hpoll) hroom haccept
    obtain ⟨hloop, hf'⟩ := hc.pass (hquiet (k + 1) (Nat.le_add_left 1 k) (Nat.le_refl _))
    have hmain : ∀ s a, a = .main → Room s a := by
      rintro s _ rfl
      trivial
    exact ⟨_, hrun.trans (hloop.mono hmain), hf'⟩

/-- The first slot that starts with `POLLIN`. -/
theorem exists_first_marked (hbad : ¬ ∀ k, 1 ≤ k → k < 1024 → junk k &&& pollin = 0) :
    ∃ k, k < 1023 ∧ (∀ j, 1 ≤ j → j ≤ k → junk j &&& pollin = 0) ∧ junk (k + 1) &&& pollin ≠ 0 := by
  push Not at hbad
  have hex : ∃ k, k < 1023 ∧ junk (k + 1) &&& pollin ≠ 0 := by
    obtain ⟨k, hk, hlt, hr⟩ := hbad
    obtain ⟨j, rfl⟩ := Nat.exists_eq_add_of_le' hk
    exact ⟨j, by omega, hr⟩
  obtain ⟨hlt, hr⟩ := Nat.find_spec hex
  refine ⟨Nat.find hex, hlt, fun j hj hjk => ?_, hr⟩
  obtain ⟨i, rfl⟩ := Nat.exists_eq_add_of_le' hj
  by_contra hne
  exact Nat.find_min hex (Nat.lt_of_succ_le hjk) ⟨by omega, hne⟩

end

end Poll
