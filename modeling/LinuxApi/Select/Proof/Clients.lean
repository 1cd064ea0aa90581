import LinuxApi.Echo.Proof.Convert
import LinuxApi.Select.Clients
import LinuxApi.Select.Proof.Server

/-!
# The select server serves all its clients

A pass handles the descriptors that `select` has reported and that are not below the loop counter
(`todo`). With these the server is a loop of `LevelLoop`: every call is a step of it, and at the other
statements nothing changes but the counter (`server_step`). So, when nobody sends anything more, the
server comes to wait in `select` with all clients served (`clients_served`).
-/

set_option autoImplicit false

namespace Select

open CLib Convert

/-! ## The pass -/

/-- What is still to be handled. -/
def todo (s : State) : Finset Nat :=
  match s.pc with
  | .select => ∅
  | .test => s.reads
  | .loop | .read => s.reads.filter (s.i ≤ ·)

/-- How far the loop counter has to go. -/
def State.rest (s : State) : Nat :=
  match s.pc with
  | .select => 0
  | .test => 2 * s.maxFd + 4
  | .loop => 2 * (s.maxFd + 1 - s.i) + 1
  | .read => 2 * (s.maxFd + 1 - s.i)

section
variable {env : Env} {s s' : State} {p : Pass} (hi : Inv env s p)
include hi

theorem Inv.reads_range (hpc : s.pc ≠ .select) :
    ∀ fd ∈ s.reads, fd = env.lfd ∨ env.lfd < fd ∧ fd ≤ s.maxFd := by
  have hr : s.reads = p.reported := by
    cases h : s.pc with
    | select => exact absurd h hpc
    | test => exact (hi.test h).1
    | loop => exact (hi.loop (.inl h)).reads
    | read => exact (hi.loop (.inr h)).reads
  rw [hr]
  exact hi.reported

/-- The statements that do not call the kernel. -/
theorem Inv.stutter (hno : ¬ (s.pc = .test ∧ env.lfd ∈ s.reads)) (hst : stepMain env s = some s') :
    s'.clients = s.clients ∧ s'.revBuff = s.revBuff ∧ todo s' = todo s ∧ s'.rest < s.rest := by
  unfold stepMain at hst
  cases hpc : s.pc <;> simp only [hpc] at hst
  case select => cases hst
  case test =>
    have hl : env.lfd ∉ s.reads := fun h => hno ⟨hpc, h⟩
    rw [if_neg hl] at hst
    cases hst
    refine ⟨rfl, rfl, ?_, ?_⟩
    · simp only [todo, hpc]
      refine Finset.filter_true_of_mem fun fd hfd => ?_
      rcases hi.reads_range (by rw [hpc]; decide) fd hfd with rfl | hr
      · exact absurd hfd hl
      · exact hr.1
    · simp only [State.rest, hpc]
      omega
  case loop =>
    split at hst
    · rename_i hle
      split at hst
      · cases hst
        refine ⟨rfl, rfl, ?_, ?_⟩
        · simp only [todo, hpc]
        · simp only [State.rest, hpc]
          omega
      · rename_i hn
        cases hst
        refine ⟨rfl, rfl, ?_, ?_⟩
        · simp only [todo, hpc]
          refine Finset.filter_congr fun fd hfd => ?_
          have hne : fd ≠ s.i := fun he => hn (he ▸ hfd)
          omega
        · simp only [State.rest, hpc]
          omega
    · cases hst
      refine ⟨rfl, rfl, ?_, ?_⟩
      · simp only [todo, hpc]
        refine (Finset.filter_eq_empty_iff.2 fun fd hfd => ?_).symm
        have habove := (hi.loop (.inl hpc)).above
        rcases hi.reads_range (by rw [hpc]; decide) fd hfd with rfl | hr
        · omega
        · omega
      · simp only [State.rest, hpc]
        omega
  case read => cases hst

/-- The call of `accept`. -/
theorem Inv.accepted (hpc : s.pc = .test) (hl : env.lfd ∈ s.reads) (hst : stepMain env s = some s') :
    s'.clients = insert (firstFree (env.held ∪ s.clients)) s.clients ∧ s'.revBuff = s.revBuff ∧
      todo s' = (todo s).erase env.lfd := by
  simp only [stepMain, hpc, if_pos hl, accept, Option.ite_none_right_eq_some, Option.some.injEq] at hst
  obtain ⟨-, rfl⟩ := hst
  refine ⟨rfl, rfl, ?_⟩
  simp only [todo, hpc]
  ext fd
  rw [Finset.mem_filter, Finset.mem_erase]
  constructor
  · rintro ⟨hm, hlt⟩
    exact ⟨by omega, hm⟩
  · rintro ⟨hne, hm⟩
    have hr := (hi.reads_range (by rw [hpc]; decide) fd hm).resolve_left hne
    exact ⟨hm, hr.1⟩

/-- The descriptor that is read. -/
theorem Inv.reading (hpc : s.pc = .read) : s.i ∈ todo s ∧ s.i ≠ env.lfd ∧
    (todo s).erase s.i = s.reads.filter (s.i + 1 ≤ ·) := by
  have habove := (hi.loop (.inr hpc)).above
  refine ⟨?_, by omega, ?_⟩
  · simp only [todo, hpc, Finset.mem_filter]
    exact ⟨hi.read hpc, Nat.le_refl _⟩
  · simp only [todo, hpc]
    ext fd
    rw [Finset.mem_erase, Finset.mem_filter, Finset.mem_filter]
    constructor
    · rintro ⟨hne, hm, hle⟩
      exact ⟨hm, by omega⟩
    · rintro ⟨hm, hle⟩
      exact ⟨by omega, hm, by omega⟩

end

/-! ## The connections -/

/-- A new descriptor is at most as large as there are descriptors. -/
theorem firstFree_le (opened : Finset Nat) : firstFree opened ≤ opened.card := by
  have hsub : Finset.range (firstFree opened) ⊆ opened := fun k hk =>
    (firstFree_spec opened).2 k (Finset.mem_range.1 hk)
  simpa using Finset.card_le_card hsub

namespace Net

/-- The server as a loop of `LevelLoop`. -/
def abs (x : Net) : LevelLoop.State Nat := ⟨x.conns, todo x.srv⟩

structure Inv (env : Env) (x : Net) : Prop where
  table : ∃ p, Select.Inv env x.srv p
  clients : ∀ fd, fd ∈ x.srv.clients ↔ fd ∈ LevelLoop.opened x.conns
  net : LevelLoop.Inv env.lfd x.abs
  orderly : LevelLoop.Orderly 512 (fdSetSize - env.held.card) toupper x.conns
  buff : Terminated x.srv.revBuff

section
variable {env : Env} {x x' : Net}

theorem inv_init (env : Env) : Inv env (init env) where
  table := ⟨_, Select.inv_init env⟩
  clients fd := ⟨fun h => absurd h (Finset.notMem_empty fd), fun h => absurd h List.not_mem_nil⟩
  net := LevelLoop.inv_nil
  orderly := LevelLoop.orderly_nil
  buff := terminated_init

theorem Inv.peer (h : Inv env x) {p : LevelLoop.Peer} (hok : Modest env x (.peer p))
    {conns : List (LevelLoop.Conn Nat)} (hp : LevelLoop.peer x.conns p = some conns) :
    Inv env { x with conns } where
  table := h.table
  clients fd := (h.clients fd).trans (LevelLoop.mem_opened_peer hp).symm
  net := h.net.peer hp
  orderly := h.orderly.peer (by decide) hok hp
  buff := h.buff

/-! ## The calls -/

theorem Inv.select (h : Inv env x) (hst : stepSelect env x = some x') :
    Inv env x' ∧ LevelLoop.Step env.lfd 512 x.abs x'.abs := by
  unfold stepSelect at hst
  simp only at hst
  split at hst
  · cases hst
  · rename_i hne
    obtain ⟨srv, hsrv, rfl⟩ := Option.map_eq_some_iff.1 hst
    obtain ⟨p, hp⟩ := h.table
    have hp' := hp.step hsrv
    simp only [Select.step, Option.ite_none_right_eq_some, Option.some.injEq] at hsrv
    obtain ⟨⟨hpc, -⟩, rfl⟩ := hsrv
    have hstep : LevelLoop.Step env.lfd 512 x.abs
        ⟨x.conns, x.srv.clientFds.filter (LevelLoop.ready env.lfd x.conns · = true)⟩ :=
      .wait (show todo x.srv = ∅ by simp only [todo, hpc]) (Finset.nonempty_iff_ne_empty.2 hne)
        fun fd hfd => (Finset.mem_filter.1 hfd).2
    exact ⟨⟨⟨_, hp'⟩, h.clients, h.net.step (by decide) hstep, h.orderly, h.buff⟩, hstep⟩

theorem Inv.main (h : Inv env x) (hst : stepMain env x = some x') : Inv env x' ∧
    (LevelLoop.Step env.lfd 512 x.abs x'.abs ∨
      x'.abs = x.abs ∧ x'.srv.rest < x.srv.rest) := by
  obtain ⟨p, hp⟩ := h.table
  unfold stepMain at hst
  split at hst
  · rename_i hacc
    simp only [bind, Option.bind_eq_some_iff, Option.some.injEq] at hst
    obtain ⟨k, hf, c, hk, srv, hsrv, rfl⟩ := hst
    obtain ⟨hcl, hbuf, htodo⟩ := hp.accepted hacc.1 hacc.2 hsrv
    obtain ⟨hlt, hnew⟩ := firstFree_client env x.srv.clients
    have hno : ∀ d ∈ x.conns, d.status ≠ .opened (firstFree (env.held ∪ x.srv.clients)) :=
      fun d hd hs => hnew ((h.clients _).2 (LevelLoop.mem_opened.2 ⟨d, hd, hs⟩))
    have hmem : env.lfd ∈ todo x.srv := by
      simp only [todo, hacc.1]
      exact hacc.2
    have hstep : LevelLoop.Step env.lfd 512 x.abs ⟨x.conns.set k
        (c.accepted (firstFree (env.held ∪ x.srv.clients))), (todo x.srv).erase env.lfd⟩ :=
      .accept hmem hf hk (Nat.ne_of_gt hlt) hno
    rw [← htodo] at hstep
    have hw := LevelLoop.find_status hf hk
    refine ⟨⟨⟨_, hp.step hsrv⟩, fun fd => ?_, h.net.step (by decide) hstep,
      h.orderly.accepted hk hw, hbuf ▸ h.buff⟩, .inl hstep⟩
    show fd ∈ srv.clients ↔ _
    rw [hcl, Finset.mem_insert, h.clients]
    exact (LevelLoop.mem_opened_accepted hk hw).symm
  · rename_i hacc
    obtain ⟨srv, hsrv, rfl⟩ := Option.map_eq_some_iff.1 hst
    obtain ⟨hcl, hbuf, htodo, hrest⟩ := hp.stutter hacc hsrv
    have habs : (⟨srv, x.conns⟩ : Net).abs = x.abs := by
      simp only [abs, htodo]
    refine ⟨⟨⟨_, hp.step hsrv⟩, fun fd => ?_, habs ▸ h.net, h.orderly, ?_⟩, .inr ⟨habs, hrest⟩⟩
    · show fd ∈ srv.clients ↔ _
      rw [hcl]
      exact h.clients fd
    · show Terminated srv.revBuff
      rw [hbuf]
      exact h.buff

/-- The connection that is read. -/
theorem Inv.conn (h : Inv env x) (hpc : x.srv.pc = .read) : ∃ k c,
    LevelLoop.find x.conns (.opened x.srv.i) = some k ∧ x.conns[k]? = some c ∧
      c.status = .opened x.srv.i ∧ c.readable = true := by
  obtain ⟨p, hp⟩ := h.table
  obtain ⟨hmem, hne, -⟩ := hp.reading hpc
  exact h.net.reads hmem hne

theorem Inv.read (h : Inv env x) (hpc : x.srv.pc = .read) (hst : stepRead env x = some x') :
    Inv env x' ∧ LevelLoop.Step env.lfd 512 x.abs x'.abs := by
  obtain ⟨p, hp⟩ := h.table
  obtain ⟨hmem, hne, herase⟩ := hp.reading hpc
  obtain ⟨k, c, hf, hk, hs, -⟩ := h.conn hpc
  unfold stepRead at hst
  simp only [hf, hk, bind, Option.bind_eq_some_iff, Option.some.injEq] at hst
  obtain ⟨_, rfl, chunk, hr, srv, hsrv, rfl⟩ := hst
  have hstep : LevelLoop.Step env.lfd 512 x.abs
      ⟨x.conns.set k (c.handled chunk (selectServer.answer x.srv.revBuff chunk)),
        (todo x.srv).erase x.srv.i⟩ :=
    .read hmem hne hf hk hr
  have hp' := hp.step hsrv
  have hlen := h.orderly.length_lt (by decide) hk hr
  have horderly := h.orderly.handled (by decide) hk (h.net.conns c (List.mem_of_getElem? hk)) hs hr
    (fun hnil h0 => h.buff.answer hlen hnil h0)
  simp only [Select.step, hpc, if_true] at hsrv
  rw [herase] at hstep
  by_cases hnil : chunk = []
  · rw [if_pos hnil] at hsrv
    cases hsrv
    refine ⟨⟨⟨_, hp'⟩, fun fd => ?_, h.net.step (by decide) hstep, horderly, h.buff⟩, hstep⟩
    show fd ∈ x.srv.clients.erase x.srv.i ↔ _
    rw [Finset.mem_erase, h.clients]
    exact (h.net.mem_opened_closed hk hs (c.handled_closed hnil _)).symm
  · obtain ⟨y, hy, hterm⟩ := h.buff.handle hlen hnil
    rw [if_neg hnil, Select.stepRead, if_pos ⟨hnil, Nat.le_of_lt hlen⟩, hy, Option.map_some] at hsrv
    cases hsrv
    refine ⟨⟨⟨_, hp'⟩, fun fd => (h.clients fd).trans ?_, h.net.step (by decide) hstep, horderly, hterm⟩,
      hstep⟩
    exact (LevelLoop.mem_opened_of_status hk (c.handled_status hnil _)).symm

theorem Inv.step (h : Inv env x) {a : Act} (hok : Modest env x a) (hst : Net.step env x a = some x') :
    Inv env x' := by
  cases a with
  | peer p =>
    obtain ⟨conns, hp, rfl⟩ := Option.map_eq_some_iff.1 hst
    exact h.peer hok hp
  | select => exact (h.select hst).1
  | main => exact (h.main hst).1
  | read =>
    simp only [Net.step, Option.ite_none_right_eq_some] at hst
    exact (h.read hst.1 hst.2).1

theorem inv_of_run (h : Lts.Run (step env) (Modest env) (init env) x) : Inv env x := by
  apply h.inv (inv_init env)
  intro x a x' hi hok hst
  exact hi.step hok hst

/-! ## The server does not stop before it is done -/

theorem Inv.quiet (h : Inv env x) (hpc : x.srv.pc = .select)
    (hready : x.srv.clientFds.filter (LevelLoop.ready env.lfd x.conns · = true) = ∅) :
    Quiet env x := by
  obtain ⟨p, hp⟩ := h.table
  refine ⟨hpc, h.net.settled h.orderly ⟨show todo x.srv = ∅ by simp only [todo, hpc], fun fd => ?_⟩⟩
  -- a descriptor that is ready is watched
  rw [← Bool.not_eq_true]
  intro hr
  refine Finset.filter_eq_empty_iff.1 hready ?_ hr
  rw [hp.watched, Finset.mem_insert]
  by_cases hl : fd = env.lfd
  · exact .inl hl
  · obtain ⟨c, hc, hs, -⟩ := (LevelLoop.ready_of_ne hl).1 hr
    exact .inr ((h.clients fd).2 (LevelLoop.mem_opened.2 ⟨c, hc, hs⟩))

/-- There is a descriptor for a client that waits. -/
theorem Inv.descriptor (h : Inv env x) (hw : ∃ c ∈ x.conns, c.status = .waiting) :
    firstFree (env.held ∪ x.srv.clients) < fdSetSize := by
  have hlt := LevelLoop.card_lt_alive (fun fd => (h.clients fd).1) hw
  have hroom := h.orderly.alive
  calc firstFree (env.held ∪ x.srv.clients)
      ≤ (env.held ∪ x.srv.clients).card := firstFree_le _
    _ ≤ env.held.card + x.srv.clients.card := Finset.card_union_le _ _
    _ < fdSetSize := by omega

theorem Inv.enabled_main (h : Inv env x) (hpc : x.srv.pc = .test ∨ x.srv.pc = .loop) :
    ∃ x', stepMain env x = some x' := by
  by_cases hacc : x.srv.pc = .test ∧ env.lfd ∈ x.srv.reads
  · have hl : env.lfd ∈ x.abs.todo := by
      show env.lfd ∈ todo x.srv
      simp only [todo, hacc.1]
      exact hacc.2
    obtain ⟨k, c, hf, hk⟩ := h.net.accepts hl
    have hf : LevelLoop.find x.conns .waiting = some k := hf
    have hk : x.conns[k]? = some c := hk
    have hfree := h.descriptor (LevelLoop.ready_lfd.1 (h.net.ready _ hl))
    rw [stepMain, if_pos hacc]
    simp [hf, hk, Select.step, Select.stepMain, hacc, Select.accept, hfree]
  · rw [stepMain, if_neg hacc]
    rcases hpc with hpc | hpc
    · have hl : env.lfd ∉ x.srv.reads := fun hl => hacc ⟨hpc, hl⟩
      simp [Select.step, Select.stepMain, hpc, hl]
    · simp only [Select.step, Select.stepMain, hpc]
      split
      · split
        all_goals exact ⟨_, rfl⟩
      · exact ⟨_, rfl⟩

theorem Inv.enabled_read (h : Inv env x) (hpc : x.srv.pc = .read) :
    ∃ x', stepRead env x = some x' := by
  obtain ⟨k, c, hf, hk, -, hreadable⟩ := h.conn hpc
  have hr : c.read 512 = some (c.inbox.take 512) := if_pos hreadable
  have hlen := h.orderly.length_lt (by decide) hk hr
  unfold stepRead
  simp only [hf, hk, hr, bind, Option.bind_some]
  by_cases hnil : c.inbox.take 512 = []
  · simp only [if_pos hnil, Select.step, if_pos hpc]
    exact ⟨_, rfl⟩
  · obtain ⟨y, hy, -⟩ := h.buff.handle hlen hnil
    simp only [if_neg hnil, Select.step, if_pos hpc, Select.stepRead]
    rw [if_pos ⟨hnil, Nat.le_of_lt hlen⟩, hy]
    exact ⟨_, rfl⟩

theorem Inv.enabled (h : Inv env x) (hq : ¬ Quiet env x) :
    ∃ a x', a.isServer = true ∧ Net.step env x a = some x' := by
  cases hpc : x.srv.pc with
  | select =>
    have hne : x.srv.clientFds.filter (LevelLoop.ready env.lfd x.conns · = true) ≠ ∅ :=
      fun he => hq (h.quiet hpc he)
    obtain ⟨x', hx'⟩ : ∃ x', stepSelect env x = some x' := by
      simp only [stepSelect, if_neg hne, Select.step]
      rw [if_pos ⟨hpc, Finset.filter_subset _ _⟩]
      exact ⟨_, rfl⟩
    exact ⟨.select, x', rfl, hx'⟩
  | test =>
    obtain ⟨x', hx'⟩ := h.enabled_main (.inl hpc)
    exact ⟨.main, x', rfl, hx'⟩
  | loop =>
    obtain ⟨x', hx'⟩ := h.enabled_main (.inr hpc)
    exact ⟨.main, x', rfl, hx'⟩
  | read =>
    obtain ⟨x', hx'⟩ := h.enabled_read hpc
    exact ⟨.read, x', rfl, (if_pos hpc).trans hx'⟩

/-! ## Results -/

/-- **When the clients do nothing more, the select server comes to serve them all**: it accepts every one of
them, reads all they have sent, answers in upper case, closes those that have ended, and waits. -/
theorem clients_served (env : Env) (x : Net) (h : Lts.Run (step env) (Modest env) (init env) x) :
    Lts.Must (step env) (fun _ a => a.isServer = true) (Quiet env) x := by
  apply LevelLoop.must_settle env.lfd 512 (by decide) abs (·.srv.rest) ?_ ?_
    (inv_of_run h)
  · exact fun x hi hq => hi.enabled hq
  · intro x a x' hi ha hst
    cases a with
    | peer p => cases ha
    | select =>
      obtain ⟨hi', hs⟩ := hi.select hst
      exact ⟨hi', .inl hs⟩
    | main => exact hi.main hst
    | read =>
      simp only [Net.step, Option.ite_none_right_eq_some] at hst
      obtain ⟨hi', hs⟩ := hi.read hst.1 hst.2
      exact ⟨hi', .inl hs⟩

/-- A client sends a line, and another one leaves at once. -/
def twoClients : List Act :=
  [.peer .connect, .peer .connect, .peer (.send 0 (ascii "hi")), .select, .peer (.finish 1)]

theorem clients_served_two : ∃ x, Lts.Run (step env3) (Modest env3) (init env3) x ∧
    x.srv.reads = {3} ∧ Lts.Must (step env3) (fun _ a => a.isServer = true) (Quiet env3) x := by
  obtain ⟨x, hx, hr⟩ := Lts.Run.exists_of_execOk (step env3) (Modest env3) twoClients (init env3)
    (fun x => x.srv.reads = {3}) (by decide +kernel)
  exact ⟨x, hx, hr, clients_served env3 x hx⟩

end

end Net

end Select
