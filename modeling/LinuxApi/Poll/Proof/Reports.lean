import LinuxApi.Poll.Proof.Fill

/-!
# Only reported clients are read

`main` tests `revents` in the slot of a new client, which this pass has not polled. The slot was free: if
`poll` was given it, it has cleared its `revents`; otherwise it is behind `max_fd` and never was
polled, so `revents` is what it was at the start. So as long as there is a slot for every client, the
initial contents of the table alone decide (`fresh_iff`). When there is none, the pass goes on behind
the table, and the model has no next step.
-/

set_option autoImplicit false

namespace Poll

open Convert

section
variable {lfd : Nat} {junk : Nat → UInt16}

structure Inv (s : State) (p : Pass) : Prop where
  given : s.pc = .test → p.given = s.clientFds.take (s.maxFd + 1) ∧ p.calls = []
  idle : s.pc = .test → ∀ e ∈ p.given, e.fd = -1 → ¬ e.Readable
  loop : s.pc = .loop ∨ s.pc = .read → ∀ (j : Nat) (e : PollFd), s.i ≤ j →
    s.clientFds[j]? = some e → e.fd ≠ -1 → e.Readable → p.Reported e.fd
  read : s.pc = .read → ∀ e, s.clientFds[s.i]? = some e → e.fd ≠ -1 ∧ e.Readable
  calls : ∀ fd ∈ p.calls, p.Reported fd
  accepted : ∀ fd ∈ p.accepted, ¬ p.Reported fd

theorem inv_init : Inv (init lfd junk) Pass.empty where
  given h := nomatch h
  idle h := nomatch h
  loop h := by rcases h with h | h <;> cases h
  read h := nomatch h
  calls := nofun
  accepted := nofun

theorem Inv.fresh {s : State} {p : Pass} (hi : Inv s p) : p.Fresh :=
  ⟨hi.calls, fun fd hfd hmem => hi.accepted fd hfd (hi.calls fd hmem)⟩

/-- The entries that `poll` has filled in. -/
theorem mem_take_polled {s : State} {revents : List UInt16} (hlen : revents.length = s.maxFd + 1)
    {e : PollFd} (he : e ∈ (polled s.clientFds revents).take (s.maxFd + 1)) (hfd : e.fd = -1) :
    ¬ e.Readable := by
  obtain ⟨j, hj⟩ := List.mem_iff_getElem?.1 he
  have hlt : j < s.maxFd + 1 := by
    have hlt := (List.getElem?_eq_some_iff.1 hj).1
    rw [List.length_take] at hlt
    omega
  rw [List.getElem?_take_of_lt hlt, polled_getElem?, Option.map_eq_some_iff] at hj
  obtain ⟨e0, -, rfl⟩ := hj
  rw [List.getElem?_eq_getElem (hlen ▸ hlt)]
  have hneg : e0.fd < 0 := by
    rw [show e0.fd = -1 from hfd]
    decide
  simp only [if_pos hneg]
  exact not_readable_zero _

section
variable {s : State} {p : Pass} (hi : Inv s p) (hb : Base lfd junk s)
include hi hb

/-- What `poll` was given, while nothing has been done with it. -/
theorem Inv.reported (hpc : s.pc = .test) {j : Nat} {e : PollFd} (he : s.clientFds[j]? = some e)
    (hfd : e.fd ≠ -1) (hr : e.Readable) : p.Reported e.fd := by
  rcases Nat.lt_or_ge s.maxFd j with hlt | hle
  · have hj := (List.getElem?_eq_some_iff.1 he).1
    rw [hb.length] at hj
    rw [hb.unused j hlt hj] at he
    exact absurd (congrArg PollFd.fd (Option.some.inj he)).symm hfd
  · refine ⟨e, ?_, rfl, hr⟩
    rw [(hi.given hpc).1]
    exact List.mem_of_getElem? ((List.getElem?_take_of_lt (Nat.lt_succ_of_le hle)).trans he)

/-- A free slot is not readable: it was polled, or never was. -/
theorem Inv.free_slot (hjunk : ∀ k, 1 ≤ k → k < 1024 → junk k &&& pollin = 0) (hpc : s.pc = .test)
    {j : Nat} (hj1 : 1 ≤ j) {e : PollFd} (he : s.clientFds[j]? = some e) (hfd : e.fd = -1) :
    ¬ e.Readable := by
  rcases Nat.lt_or_ge s.maxFd j with hlt | hle
  · have hj := (List.getElem?_eq_some_iff.1 he).1
    rw [hb.length] at hj
    rw [hb.unused j hlt hj] at he
    obtain rfl := Option.some.inj he
    exact fun hr => hr (hjunk j hj1 hj)
  · refine hi.idle hpc e ?_ hfd
    rw [(hi.given hpc).1]
    exact List.mem_of_getElem? ((List.getElem?_take_of_lt (Nat.lt_succ_of_le hle)).trans he)

/-- A descriptor that is not open was not given to `poll`. -/
theorem Inv.not_reported (hpc : s.pc = .test) {cfd : Nat} (hne : cfd ≠ lfd)
    (hfresh : (cfd : Int) ∉ s.clients) : ¬ p.Reported cfd := by
  intro hrep
  obtain ⟨e, he, hfd, -⟩ := hrep
  rw [(hi.given hpc).1] at he
  obtain ⟨j, hj⟩ := List.mem_iff_getElem?.1 (List.mem_of_mem_take he)
  have hslot : s.fds[j]? = some (cfd : Int) := by
    rw [fds_getElem?, hj, ← hfd]
    rfl
  cases j with
  | zero =>
    rw [hb.listen] at hslot
    exact hne (Int.ofNat.inj (Option.some.inj hslot)).symm
  | succ j =>
    rw [← List.getElem?_tail] at hslot
    exact hfresh (hb.only _ (List.mem_of_getElem? hslot) (by omega))

theorem Inv.accept (hjunk : ∀ k, 1 ≤ k → k < 1024 → junk k &&& pollin = 0) (hpc : s.pc = .test)
    {cfd : Nat} (hne : cfd ≠ lfd) (hfresh : (cfd : Int) ∉ s.clients) :
    Inv (accept s cfd) { p with accepted := some (cfd : Int) } := by
  refine ⟨nofun, nofun, fun _ j e hj he hfd hr => ?_, nofun, ?_, ?_⟩
  · rw [Poll.accept, List.getElem?_modify, Option.map_eq_map, Option.map_eq_some_iff] at he
    obtain ⟨e0, he0, rfl⟩ := he
    split at hfd
    · rename_i heq
      rw [if_pos heq] at hr
      have hfree : e0.fd = -1 := by
        have hslot : s.fds[search s.fds]? = some e0.fd := by
          rw [heq, fds_getElem?, he0]
          rfl
        have hlt := (List.getElem?_eq_some_iff.1 hslot).1
        rw [hb.fds_length] at hlt
        have hsearch := (search_spec hb.fds_length).1.resolve_right (by omega)
        exact Option.some.inj (hslot.symm.trans hsearch)
      have hno := hi.free_slot hb hjunk hpc hj he0 hfree
      exact absurd hr hno
    · rename_i heq
      rw [if_neg heq] at hr ⊢
      exact hi.reported hb hpc he0 hfd hr
  · intro fd hmem
    rw [(hi.given hpc).2] at hmem
    cases hmem
  · intro fd hmem
    obtain rfl : (cfd : Int) = fd := Option.some.inj hmem
    exact hi.not_reported hb hpc hne hfresh

omit hb in
/-- The `read` of the descriptor in the slot. -/
theorem Inv.read_calls (hpc : s.pc = .read) {e : PollFd} (he : s.clientFds[s.i]? = some e) :
    ∀ fd ∈ p.calls ++ s.slotFd, p.Reported fd := by
  obtain ⟨hfd, hr⟩ := hi.read hpc e he
  have hslot : s.slotFd = [e.fd] := by
    rw [State.slotFd, fds_getElem?, he]
    rfl
  rw [hslot, List.forall_mem_append, List.forall_mem_singleton]
  exact ⟨hi.calls, hi.loop (.inr hpc) s.i e (Nat.le_refl _) he hfd hr⟩

theorem Inv.step (hjunk : ∀ k, 1 ≤ k → k < 1024 → junk k &&& pollin = 0) {s' : State} {a : Act}
    (h : step lfd s a = some s') : Inv s' (record s a p) := by
  cases step_move h with
  | poll hpc hlt hlen =>
    exact ⟨fun _ => ⟨rfl, rfl⟩, fun _ e he hfd => mem_take_polled hlen he hfd, by simp, by simp,
      by simp [record], by simp [record]⟩
  | accept hpc hne hfresh => exact hi.accept hb hjunk hpc hne hfresh
  | quiet hpc =>
    exact ⟨by simp, by simp, fun _ j e _ he hfd hr => hi.reported hb hpc he hfd hr, by simp, hi.calls,
      hi.accepted⟩
  | skip hpc he hno =>
    exact ⟨by simp, by simp,
      fun _ j e hj he hfd hr => hi.loop (.inl hpc) j e (Nat.le_of_succ_le hj) he hfd hr, by simp,
      hi.calls, hi.accepted⟩
  | found hpc hle he hfd hr =>
    refine ⟨by simp, by simp, fun _ => hi.loop (.inl hpc), fun _ e' he' => ?_, hi.calls, hi.accepted⟩
    obtain rfl := Option.some.inj (he.symm.trans he')
    exact ⟨hfd, hr⟩
  | done hpc => exact ⟨by simp, by simp, by simp, by simp, hi.calls, hi.accepted⟩
  | data hpc he =>
    exact ⟨by simp, by simp,
      fun _ j e hj he hfd hr => hi.loop (.inr hpc) j e (Nat.le_of_succ_le hj) he hfd hr, by simp,
      hi.read_calls hpc he, hi.accepted⟩
  | eof hpc he =>
    refine ⟨by simp [Poll.close], by simp [Poll.close], fun _ j e hj he hfd hr => ?_,
      by simp [Poll.close], hi.read_calls hpc he, hi.accepted⟩
    have hj : s.i + 1 ≤ j := hj
    rw [Poll.close, List.getElem?_modify_ne _ _ (by omega)] at he
    exact hi.loop (.inr hpc) j e (Nat.le_of_succ_le hj) he hfd hr
  | error hpc he => exact ⟨by simp, by simp, by simp, by simp, hi.read_calls hpc he, hi.accepted⟩

end

theorem inv_of_run (hjunk : ∀ k, 1 ≤ k → k < 1024 → junk k &&& pollin = 0) {x : State × Pass}
    (h : Lts.Run (passStep lfd) (fun x a => Room x.1 a) (init lfd junk, Pass.empty) x) :
    Inv x.1 x.2 := by
  have hbase : ∀ x, Lts.Run (passStep lfd) (fun x a => Room x.1 a) (init lfd junk, Pass.empty) x →
      Base lfd junk x.1 := fun _ hx => base_of_run hx.fst
  apply h.inv_of (P := fun x => Inv x.1 x.2) hbase inv_init
  intro x a x' hb hi _ hs
  obtain ⟨hs, hp⟩ := Lts.withHist_eq_some.1 hs
  rw [hp]
  exact hi.step hb hjunk hs

/-! ## A slot that starts with `POLLIN` -/

/-- Statements of `main` leave the pass as it is. -/
theorem run_main {s s' : State} (h : Lts.Run (step lfd) (fun _ a => a = .main) s s') (p : Pass) :
    Lts.Run (passStep lfd) (fun x a => Room x.1 a) (s, p) (s', p) := by
  induction h with
  | start => exact .start
  | next _ ha hs ih =>
    subst ha
    exact .next ih (a := .main) trivial (Lts.withHist_eq_some.2 ⟨hs, rfl⟩)

/-- A client that gets such a slot is read in the pass in which it is accepted. -/
theorem exists_read_early (lfd : Nat) {k : Nat} (hk : k < 1023)
    (hquiet : ∀ j, 1 ≤ j → j ≤ k → junk j &&& pollin = 0) (hr : junk (k + 1) &&& pollin ≠ 0) :
    ∃ x, Lts.Run (passStep lfd) (fun x a => Room x.1 a) (init lfd junk, Pass.empty) x ∧
      ¬ x.2.Fresh := by
  obtain ⟨s, hs, hf⟩ := exists_filled lfd (Nat.le_of_lt hk) hquiet
  obtain ⟨s₁, s₂, hpoll, hroom, haccept, hc⟩ := hf.connect (base_of_run hs) hk
  obtain ⟨p, hp⟩ : ∃ p, Lts.Run (passStep lfd) (fun x a => Room x.1 a)
      (init lfd junk, Pass.empty) (s, p) := hs.lift Pass.empty
  let p₁ : Pass := ⟨(polled s.clientFds (connects k)).take (s.maxFd + 1), none, []⟩
  let p₂ : Pass := { p₁ with accepted := some (lfd + k + 1 : Nat) }
  have hpoll' : passStep lfd (s, p) (.poll (connects k)) = some (s₁, p₁) :=
    Lts.withHist_eq_some.2 ⟨hpoll, rfl⟩
  have haccept' : passStep lfd (s₁, p₁) (.accept (lfd + k + 1)) = some (s₂, p₂) :=
    Lts.withHist_eq_some.2 ⟨haccept, rfl⟩
  have hrun : Lts.Run (passStep lfd) (fun x a => Room x.1 a) (init lfd junk, Pass.empty) (s₂, p₂) :=
    .next (.next hp (a := .poll _) trivial hpoll') hroom haccept'
  let s₃ : State := { s₂ with i := k + 1, pc := .read }
  have herror : passStep lfd (s₃, p₂) (.read .error) =
      some ({ s₃ with pc := .poll }, { p₂ with calls := p₂.calls ++ s₃.slotFd }) :=
    Lts.withHist_eq_some.2 ⟨step_error rfl hc.last, rfl⟩
  refine ⟨_, .next (hrun.trans (run_main (hc.marked hr) p₂)) (a := .read .error) trivial herror, ?_⟩
  intro hfresh
  refine hfresh.2 _ rfl (List.mem_append_right _ ?_)
  rw [State.slotFd, fds_getElem?, hc.last]
  simp

/-- **Only reported clients are read.** In all runs of the poll server in which each client connects
while less than 1023 are connected, and for everything that the `revents` of the table may hold at the
start: every `read` is for a descriptor that `poll` was given in that pass and has reported, and no
client is read in the pass that accepts it, exactly if no slot from 1 to 1023 starts with
`POLLIN`. -/
theorem fresh_iff (lfd : Nat) (junk : Nat → UInt16) :
    (∀ x, Lts.Run (passStep lfd) (fun x a => Room x.1 a) (init lfd junk, Pass.empty) x →
      x.2.Fresh) ↔
      ∀ k, 1 ≤ k → k < 1024 → junk k &&& pollin = 0 := by
  constructor
  · intro hall
    by_contra hbad
    obtain ⟨k, hk, hquiet, hr⟩ := exists_first_marked hbad
    obtain ⟨x, hx, hno⟩ := exists_read_early lfd hk hquiet hr
    exact hno (hall x hx)
  · intro hjunk x hx
    exact (inv_of_run hjunk hx).fresh

/-- The first slot starts with `POLLIN`: the first client is read in the pass that accepts it. -/
theorem fresh_fails : ¬ ∀ junk x,
    Lts.Run (passStep 3) Lts.Free (init 3 junk, Pass.empty) x → x.2.Fresh := by
  intro hall
  obtain ⟨x, hx, hcalls, hgiven, hacc⟩ := Lts.Run.exists_of_exec (passStep 3)
    [.poll [1], .accept 4, .main, .read .error] (init 3 fun _ => 1, Pass.empty)
    (fun x => x.2.calls = [4] ∧ x.2.given = [⟨3, 1⟩] ∧ x.2.accepted = some 4) (by decide +kernel)
  apply (hall (fun _ => 1) x hx).2 4 hacc
  rw [hcalls]
  exact List.mem_singleton_self 4

end

end Poll
