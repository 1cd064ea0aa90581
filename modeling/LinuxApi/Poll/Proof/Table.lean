import LinuxApi.Poll.Proof.Fill

/-!
# Every client has a slot

As long as less than 1023 clients are connected when another one comes, the table has a free slot for
it (`Slots.Holds.free_mem`), and every client keeps its own (`tabled_of_run`). The 1024th client gets
none, and `max_fd` becomes the size of the table (`tabled_fails`).
-/

set_option autoImplicit false

namespace Poll

open Convert

structure Kept (s : State) : Prop where
  maxFd : s.maxFd ≤ 1023
  holds : Slots.Holds (-1) s.fds.tail s.clients

section
variable {lfd : Nat} {junk : Nat → UInt16} {s s' : State} {a : Act}

theorem kept_init : Kept (init lfd junk) where
  maxFd := Nat.zero_le _
  holds := by
    rw [init_tail]
    exact .replicate 1023

theorem Kept.accept (hk : Kept s) (hb : Base lfd junk s) (hroom : s.clients.card < 1023) {cfd : Nat}
    (hfresh : (cfd : Int) ∉ s.clients) : Kept (accept s cfd) := by
  have hlen : s.fds.tail.length = 1023 := by rw [List.length_tail, hb.fds_length]
  obtain ⟨k, hsearch, hfree, -, htail⟩ := hb.accept_tail cfd
  have hslot : s.fds.tail[k]? = some (-1) := by
    apply hfree.resolve_right
    intro hfull
    obtain ⟨j, hj⟩ := List.mem_iff_getElem?.1 (hk.holds.free_mem (hlen ▸ hroom))
    have hlt := (List.getElem?_eq_some_iff.1 hj).1
    apply (search_spec hb.fds_length).2 (j + 1) (Nat.le_add_left 1 j) (by omega)
    rw [← List.getElem?_tail]
    exact hj
  have hlt := (List.getElem?_eq_some_iff.1 hslot).1
  refine ⟨?_, ?_⟩
  · show (if search s.fds > s.maxFd then search s.fds else s.maxFd) ≤ 1023
    have hle := hk.maxFd
    split <;> omega
  · rw [htail]
    exact hk.holds.put hslot hfresh (by omega)

theorem Kept.step (hk : Kept s) (hb : Base lfd junk s) (hroom : Room s a)
    (h : step lfd s a = some s') : Kept s' := by
  cases step_move h with
  | @poll revents =>
    have hfds : ({ s with clientFds := polled s.clientFds revents, pc := .test } : State).fds =
        s.fds := polled_fds s.clientFds revents
    exact ⟨hk.maxFd, by rw [hfds]; exact hk.holds⟩
  | accept _ _ hfresh => exact hk.accept hb hroom hfresh
  | quiet | skip | found | done | data | error => exact ⟨hk.maxFd, hk.holds⟩
  | eof hpc he =>
    obtain ⟨k, -, htail, hslot⟩ := hb.close_tail hpc he
    exact ⟨hk.maxFd, by rw [htail]; exact hk.holds.clear hslot⟩

/-- All clients are in the part of the table that `poll` looks at. -/
theorem Kept.tabled (hk : Kept s) (hb : Base lfd junk s) : Tabled s := by
  have hfree : ∀ fd ∈ s.fds.drop (s.maxFd + 1), fd = -1 := by
    intro fd hfd
    obtain ⟨j, hj⟩ := List.mem_iff_getElem?.1 hfd
    rw [List.getElem?_drop] at hj
    have hlt := (List.getElem?_eq_some_iff.1 hj).1
    rw [hb.fds_length] at hlt
    rw [fds_getElem?, hb.unused _ (by omega) hlt] at hj
    exact (Option.some.inj hj).symm
  refine ⟨hk.maxFd, fun c hc => ?_, hfree⟩
  have hcount := hk.holds.count_eq_one hc
  have hrest : (s.fds.drop (s.maxFd + 1)).count c = 0 := by
    rw [List.count_eq_zero]
    intro hmem
    exact ((hk.holds.mem c).1 hc).2 (hfree c hmem)
  rw [← List.drop_one, ← List.take_append_drop s.maxFd (s.fds.drop 1), List.count_append,
    List.drop_drop, Nat.add_comm 1, hrest] at hcount
  exact hcount

end

/-- **The poll server's table holds every client.** In every run in which each client connects while
less than 1023 are connected, in every state and so at every call of `poll`: `max_fd` is at most
1023, every client is in exactly one slot between 1 and `max_fd`, and the slots behind it are
free. -/
theorem tabled_of_run (lfd : Nat) (junk : Nat → UInt16) (s : State)
    (h : Lts.Run (step lfd) Room (init lfd junk) s) : Tabled s := by
  have hk : Kept s := by
    apply h.inv_of (Q := Base lfd junk) (fun _ => base_of_run) kept_init
    intro s a s' hb hk hroom hs
    exact hk.step hb hroom hs
  exact hk.tabled (base_of_run h)

/-- Two clients connect; while a third one does, the first leaves; the fourth one gets its
slot and its descriptor. -/
def threeClients : List Act :=
  Lts.repeats [(1, .poll [1]), (1, .accept 4), (2, .main), (1, .poll [1, 0]), (1, .accept 5),
    (3, .main), (1, .poll [1, 1, 0]), (1, .accept 6), (1, .main), (1, .read .eof), (3, .main),
    (1, .poll [1, 0, 0, 0]), (1, .accept 4), (4, .main)]

theorem tabled_of_run_three : ∃ s, Lts.Run (step 3) Room (init 3 fun _ => 0) s ∧
    (s.pc = .poll ∧ s.clients = {4, 5, 6} ∧ s.fds.take 4 = [3, 4, 5, 6]) ∧ Tabled s := by
  obtain ⟨s, hs, hend⟩ := Lts.Run.exists_of_execOk (step 3) Room threeClients (init 3 fun _ => 0)
    (fun s => s.pc = .poll ∧ s.clients = {4, 5, 6} ∧ s.fds.take 4 = [3, 4, 5, 6])
    (by decide +kernel)
  exact ⟨s, hs, hend, tabled_of_run 3 _ s hs⟩

/-- All slots are taken when one more client connects, and the `read` of the first one fails in that
pass: `poll` is called with 1025 entries. -/
theorem tabled_fails : ¬ ∀ s, Lts.Run (step 3) Lts.Free (init 3 fun _ => 0) s → s.pc = .poll →
    Tabled s := by
  intro hall
  obtain ⟨s, hs, hf⟩ : ∃ s, Lts.Run (step 3) Room (init 3 fun _ => 0) s ∧ Filled 3 1023 s :=
    exists_filled 3 (Nat.le_refl 1023) fun _ _ _ => rfl
  have hb := base_of_run hs
  let revents : List UInt16 := List.replicate 1024 pollin
  let s₁ : State := { s with clientFds := polled s.clientFds revents, pc := .test }
  have hpoll : step 3 s (.poll revents) = some s₁ := by
    apply step_poll hf.pc
    · rw [hf.maxFd, hb.length]
      decide
    · rw [hf.maxFd, List.length_replicate]
  have hentry : ∀ {j : Nat} {e : PollFd}, j < 1024 → s.clientFds[j]? = some e → 0 ≤ e.fd →
      s₁.clientFds[j]? = some ⟨e.fd, pollin⟩ := by
    intro j e hj he hfd
    exact polled_taken he (by rw [List.getElem?_replicate, if_pos hj]) hfd
  obtain ⟨r0, h0⟩ := hb.listen_entry
  have hfresh : ((3 + 1024 : Nat) : Int) ∉ s₁.clients := fun hmem => by
    have hle := hf.fresh _ hmem
    omega
  have haccept : step 3 s₁ (.accept (3 + 1024)) = _ :=
    step_accept (hentry (by decide) h0 (Int.natCast_nonneg 3)) rfl (readable_pollin _) (by decide)
      hfresh
  have hsearch : search s₁.fds = 1024 := by
    apply search_full (hb.step hpoll).fds_length
    intro j hj hjk
    obtain ⟨e, he, hfd⟩ := hf.taken j hj hjk
    exact ⟨_, hentry (Nat.lt_succ_of_le hjk) he hfd, hfd⟩
  obtain ⟨e1, he1, hfd1⟩ := hf.taken 1 (Nat.le_refl 1) (by decide)
  have hslot : (accept s₁ (3 + 1024)).clientFds[1]? = some ⟨e1.fd, pollin⟩ := by
    rw [accept, hsearch]
    exact (List.getElem?_modify_ne _ _ (by decide)).trans (hentry (by decide) he1 hfd1)
  have hmax : (accept s₁ (3 + 1024)).maxFd = 1024 := by
    show (if search s₁.fds > s.maxFd then search s₁.fds else s.maxFd) = 1024
    rw [hsearch, hf.maxFd]
    rfl
  have hle : 1 ≤ (accept s₁ (3 + 1024)).maxFd := by
    rw [hmax]
    decide
  have hread : step 3 (accept s₁ (3 + 1024)) .main = _ :=
    step_found rfl hle hslot (show e1.fd ≠ -1 by omega) (readable_pollin _)
  have herror : step 3 { accept s₁ (3 + 1024) with pc := .read } (.read .error) = _ :=
    step_error rfl hslot
  have hrun := Lts.Run.next (Lts.Run.next (Lts.Run.next (Lts.Run.next hs.free trivial hpoll) trivial
    haccept) trivial hread) trivial herror
  have hle := (hall _ hrun rfl).1
  rw [hmax] at hle
  exact absurd hle (by decide)

end Poll
