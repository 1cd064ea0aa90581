import LinuxApi.Echo.Proof.Convert
import LinuxApi.Poll.Clients
import LinuxApi.Poll.Proof.Reports
import LinuxApi.Poll.Proof.Table

/-!
# The poll server serves all its clients

A pass handles the entries that `poll` has marked and that are not before the loop counter (`todo`).
If no slot starts with `POLLIN`, a slot that a client gets is not marked, and the server is a loop of
`LevelLoop` like the select server. So, when nobody sends anything more, it comes to wait in `poll`
with all clients served. Otherwise a silent client that gets such a slot keeps it in `read`
(`exists_waiting`). So the initial contents of the table alone decide (`clients_served_iff`).
-/

set_option autoImplicit false

namespace Poll

open CLib Convert

/-! ## Entries that are marked -/

/-- The descriptors that the loop will read. -/
def pending (es : List PollFd) : Finset Int :=
  ((es.filter fun e => e.fd ≠ -1 ∧ e.Readable).map (·.fd)).toFinset

theorem mem_pending {es : List PollFd} {fd : Int} :
    fd ∈ pending es ↔ ∃ e ∈ es, e.fd = fd ∧ fd ≠ -1 ∧ e.Readable := by
  simp only [pending, List.mem_toFinset, List.mem_map, List.mem_filter, decide_eq_true_eq]
  constructor
  · rintro ⟨e, ⟨he, hne, hr⟩, rfl⟩
    exact ⟨e, he, rfl, hne, hr⟩
  · rintro ⟨e, he, rfl, hne, hr⟩
    exact ⟨e, ⟨he, hne, hr⟩, rfl⟩

theorem mem_drop {es : List PollFd} {i : Nat} {e : PollFd} :
    e ∈ es.drop i ↔ ∃ j, i ≤ j ∧ es[j]? = some e := by
  rw [List.mem_iff_getElem?]
  constructor
  · rintro ⟨j, hj⟩
    rw [List.getElem?_drop] at hj
    exact ⟨i + j, Nat.le_add_right i j, hj⟩
  · rintro ⟨j, hij, hj⟩
    obtain ⟨k, rfl⟩ := Nat.exists_eq_add_of_le hij
    exact ⟨k, by rw [List.getElem?_drop, hj]⟩

theorem mem_take {es : List PollFd} {n : Nat} {e : PollFd} :
    e ∈ es.take n ↔ ∃ j, j < n ∧ es[j]? = some e := by
  rw [List.mem_iff_getElem?]
  constructor
  · rintro ⟨j, hj⟩
    have hlt := (List.getElem?_eq_some_iff.1 hj).1
    rw [List.length_take] at hlt
    rw [List.getElem?_take_of_lt (by omega)] at hj
    exact ⟨j, by omega, hj⟩
  · rintro ⟨j, hlt, hj⟩
    exact ⟨j, by rw [List.getElem?_take_of_lt hlt, hj]⟩

theorem mem_pending_drop {es : List PollFd} {i : Nat} {fd : Int} : fd ∈ pending (es.drop i) ↔
    ∃ j e, i ≤ j ∧ es[j]? = some e ∧ e.fd = fd ∧ fd ≠ -1 ∧ e.Readable := by
  rw [mem_pending]
  constructor
  · rintro ⟨e, he, hfd⟩
    obtain ⟨j, hij, hj⟩ := mem_drop.1 he
    exact ⟨j, e, hij, hj, hfd⟩
  · rintro ⟨j, e, hij, hj, hfd⟩
    exact ⟨e, mem_drop.2 ⟨j, hij, hj⟩, hfd⟩

theorem pending_drop {es : List PollFd} {i : Nat} {e : PollFd} (he : es[i]? = some e) :
    pending (es.drop i) = if e.fd ≠ -1 ∧ e.Readable then insert e.fd (pending (es.drop (i + 1)))
      else pending (es.drop (i + 1)) := by
  obtain ⟨hlt, rfl⟩ := List.getElem?_eq_some_iff.1 he
  rw [List.drop_eq_getElem_cons hlt]
  unfold pending
  by_cases hp : (es[i]).fd ≠ -1 ∧ (es[i]).Readable
  · rw [if_pos hp, List.filter_cons, if_pos (decide_eq_true hp), List.map_cons, List.toFinset_cons]
  · rw [if_neg hp, List.filter_cons, if_neg (by rwa [decide_eq_true_eq])]

/-- A slot that is not marked may change its descriptor. -/
theorem pending_modify {es : List PollFd} {k i : Nat} (fd : Int)
    (hk : ∀ e, es[k]? = some e → i ≤ k → ¬ e.Readable) :
    pending ((es.modify k fun e => { e with fd := fd }).drop i) = pending (es.drop i) := by
  ext fd'
  rw [mem_pending_drop, mem_pending_drop]
  constructor
  · rintro ⟨j, e', hij, hj, hfd, hne, hr⟩
    rw [List.getElem?_modify, Option.map_eq_map, Option.map_eq_some_iff] at hj
    obtain ⟨e, he, rfl⟩ := hj
    by_cases hkj : k = j
    · subst hkj
      rw [if_pos rfl] at hr
      exact absurd hr (hk e he hij)
    · rw [if_neg hkj] at hfd hr
      exact ⟨j, e, hij, he, hfd, hne, hr⟩
  · rintro ⟨j, e, hij, hj, hfd, hne, hr⟩
    have hkj : k ≠ j := by
      rintro rfl
      exact hk e hj hij hr
    exact ⟨j, e, hij, (List.getElem?_modify_ne _ _ hkj).trans hj, hfd, hne, hr⟩

/-! ## The pass -/

/-- What is still to be handled. -/
def todo (s : State) : Finset Int :=
  match s.pc with
  | .poll => ∅
  | .test => pending s.clientFds
  | .loop | .read => pending (s.clientFds.drop s.i)

/-- How far the loop counter has to go. -/
def State.rest (s : State) : Nat :=
  match s.pc with
  | .poll => 0
  | .test => 2 * s.maxFd + 4
  | .loop => 2 * (s.maxFd + 1 - s.i) + 1
  | .read => 2 * (s.maxFd + 1 - s.i)

/-- No slot starts with `POLLIN`. -/
def Clean (junk : Nat → UInt16) : Prop := ∀ k, 1 ≤ k → k < 1024 → junk k &&& pollin = 0

structure Table (lfd : Nat) (junk : Nat → UInt16) (s : State) : Prop where
  pass : ∃ p, Inv s p
  base : Base lfd junk s
  kept : Kept s
  nonneg : ∀ c ∈ s.clients, 0 ≤ c

section
variable {lfd : Nat} {junk : Nat → UInt16} {s s' : State}

theorem table_init : Table lfd junk (init lfd junk) where
  pass := ⟨_, inv_init⟩
  base := base_init
  kept := kept_init
  nonneg c hc := absurd hc (Finset.notMem_empty c)

theorem Table.step (h : Table lfd junk s) (hjunk : Clean junk) {a : Act} (hroom : Room s a)
    (hst : step lfd s a = some s') : Table lfd junk s' := by
  obtain ⟨p, hp⟩ := h.pass
  refine ⟨⟨_, hp.step h.base hjunk hst⟩, h.base.step hst, h.kept.step h.base hroom hst, ?_⟩
  cases step_move hst with
  | accept =>
    intro c hc
    rcases Finset.mem_insert.1 hc with rfl | hc
    · exact Int.natCast_nonneg _
    · exact h.nonneg c hc
  | eof => exact fun c hc => h.nonneg c (Finset.mem_of_mem_erase hc)
  | poll | quiet | skip | found | done | data | error => exact h.nonneg

/-- `poll` looks at the listening descriptor and at all clients. -/
theorem Table.watched (h : Table lfd junk s) {fd : Int} (hfd : fd = lfd ∨ fd ∈ s.clients) :
    0 ≤ fd ∧ ∃ e ∈ s.clientFds.take (s.maxFd + 1), e.fd = fd := by
  rcases hfd with rfl | hfd
  · obtain ⟨r, h0⟩ := h.base.listen_entry
    refine ⟨Int.natCast_nonneg lfd, ⟨lfd, r⟩, List.mem_of_getElem? (i := 0) ?_, rfl⟩
    rw [List.getElem?_take_of_lt (Nat.zero_lt_succ _), h0]
  · have hnonneg := h.nonneg fd hfd
    obtain ⟨hmem, hne⟩ := (h.kept.holds.mem fd).1 hfd
    obtain ⟨j, hj⟩ := List.mem_iff_getElem?.1 hmem
    rw [List.getElem?_tail, fds_getElem?, Option.map_eq_some_iff] at hj
    obtain ⟨e, he, hefd⟩ := hj
    refine ⟨hnonneg, e, List.mem_of_getElem? (i := j + 1) ?_, hefd⟩
    rw [List.getElem?_take_of_lt ?_, he]
    -- behind `max_fd` the table is free
    by_contra hge
    have hlt := (List.getElem?_eq_some_iff.1 he).1
    rw [h.base.length] at hlt
    rw [h.base.unused (j + 1) (by omega) hlt] at he
    obtain rfl := Option.some.inj he
    exact hne hefd.symm

theorem Table.slot_client (h : Table lfd junk s) {i : Nat} (hi : 1 ≤ i) {e : PollFd}
    (he : s.clientFds[i]? = some e) (hne : e.fd ≠ -1) : e.fd ∈ s.clients := by
  obtain ⟨k, rfl⟩ := Nat.exists_eq_add_of_le' hi
  refine h.base.only e.fd (List.mem_of_getElem? (i := k) ?_) hne
  rw [List.getElem?_tail, fds_getElem?, he]
  rfl

theorem Table.pending_unused (h : Table lfd junk s) {i : Nat} (hi : s.maxFd < i) :
    pending (s.clientFds.drop i) = ∅ := by
  rw [Finset.eq_empty_iff_forall_notMem]
  intro fd hfd
  obtain ⟨j, e, hij, he, hefd, hne, -⟩ := mem_pending_drop.1 hfd
  have hlt := (List.getElem?_eq_some_iff.1 he).1
  rw [h.base.length] at hlt
  rw [h.base.unused j (by omega) hlt] at he
  obtain rfl := Option.some.inj he
  exact hne hefd.symm

/-- The statements that do not call the kernel. -/
theorem Table.stutter (h : Table lfd junk s) (hst : stepMain s = some s') :
    s'.clients = s.clients ∧ s'.revBuff = s.revBuff ∧ todo s' = todo s ∧ s'.rest < s.rest := by
  unfold stepMain at hst
  cases hpc : s.pc <;> simp only [hpc] at hst
  case poll => cases hst
  case test =>
    split at hst
    · rename_i e he
      split at hst
      · cases hst
      · rename_i hr
        cases hst
        refine ⟨rfl, rfl, ?_, ?_⟩
        · have hp := pending_drop he
          rw [if_neg fun hx => hr hx.2, List.drop_zero] at hp
          simp only [todo, hpc]
          exact hp.symm
        · simp only [State.rest, hpc]
          omega
    · cases hst
  case loop =>
    split at hst
    · rename_i hle
      split at hst
      · rename_i e he
        have hskip : ¬ (e.fd ≠ -1 ∧ e.Readable) →
            pending (s.clientFds.drop (s.i + 1)) = pending (s.clientFds.drop s.i) := by
          intro hno
          rw [pending_drop he, if_neg hno]
        split at hst
        · rename_i hfree
          cases hst
          refine ⟨rfl, rfl, ?_, ?_⟩
          · simp only [todo, hpc]
            exact hskip fun hx => hx.1 hfree
          · simp only [State.rest, hpc]
            omega
        · split at hst
          · cases hst
            refine ⟨rfl, rfl, ?_, ?_⟩
            · simp only [todo, hpc]
            · simp only [State.rest, hpc]
              omega
          · rename_i hr
            cases hst
            refine ⟨rfl, rfl, ?_, ?_⟩
            · simp only [todo, hpc]
              exact hskip fun hx => hr hx.2
            · simp only [State.rest, hpc]
              omega
      · cases hst
    · rename_i hgt
      cases hst
      refine ⟨rfl, rfl, ?_, ?_⟩
      · simp only [todo, hpc]
        exact (h.pending_unused (Nat.lt_of_not_le hgt)).symm
      · simp only [State.rest, hpc]
        omega
  case read => cases hst

/-- The call of `accept`. -/
theorem Table.accepted (h : Table lfd junk s) (hjunk : Clean junk) (hpc : s.pc = .test)
    (hl : (lfd : Int) ∉ s.clients) (cfd : Nat) :
    todo (accept s cfd) = (todo s).erase lfd := by
  obtain ⟨p, hp⟩ := h.pass
  obtain ⟨r, h0⟩ := h.base.listen_entry
  have hnew : todo (accept s cfd) = pending (s.clientFds.drop 1) := by
    refine pending_modify cfd fun e he hk => ?_
    have hlt := (List.getElem?_eq_some_iff.1 he).1
    rw [h.base.length] at hlt
    have hfree := (search_spec h.base.fds_length).1.resolve_right (Nat.ne_of_lt hlt)
    rw [fds_getElem?, he] at hfree
    exact hp.free_slot h.base hjunk hpc hk he (Option.some.inj hfree)
  have hnot : (lfd : Int) ∉ pending (s.clientFds.drop 1) := by
    intro hmem
    obtain ⟨j, e, hj, he, hefd, hne, -⟩ := mem_pending_drop.1 hmem
    exact hl (hefd ▸ h.slot_client hj he (hefd ▸ hne))
  have hold : todo s = pending (s.clientFds.drop 0) := by simp only [todo, hpc, List.drop_zero]
  rw [hnew, hold, pending_drop h0]
  split
  · rw [Finset.erase_insert hnot]
  · rw [Finset.erase_eq_of_notMem hnot]

/-- The slot that is read. -/
theorem Table.reading (h : Table lfd junk s) (hpc : s.pc = .read) {e : PollFd}
    (he : s.clientFds[s.i]? = some e) : e.fd ∈ todo s ∧ e.fd ∈ s.clients ∧
      (todo s).erase e.fd = pending (s.clientFds.drop (s.i + 1)) := by
  obtain ⟨p, hp⟩ := h.pass
  obtain ⟨hne, hr⟩ := hp.read hpc e he
  have hi := h.base.index (.inr hpc)
  have htodo : todo s = insert e.fd (pending (s.clientFds.drop (s.i + 1))) := by
    have hold := pending_drop he
    rw [if_pos ⟨hne, hr⟩] at hold
    simp only [todo, hpc]
    exact hold
  have hnot : e.fd ∉ pending (s.clientFds.drop (s.i + 1)) := by
    intro hmem
    obtain ⟨j, e', hj, he', hefd, -, -⟩ := mem_pending_drop.1 hmem
    -- no descriptor is in two slots
    obtain ⟨m, hm⟩ := Nat.exists_eq_add_of_le' hi
    obtain ⟨n, rfl⟩ := Nat.exists_eq_add_of_le' (Nat.le_trans hi (Nat.le_of_succ_le hj))
    have hfst : s.fds.tail[m]? = some e.fd := by
      rw [List.getElem?_tail, ← hm, fds_getElem?, he]
      rfl
    have hsnd : s.fds.tail[n]? = some e.fd := by
      rw [List.getElem?_tail, fds_getElem?, he', ← hefd]
      rfl
    have hmn := h.base.distinct.unique hfst hsnd hne
    omega
  refine ⟨htodo ▸ Finset.mem_insert_self _ _, h.slot_client hi he hne, ?_⟩
  rw [htodo, Finset.erase_insert hnot]

end

/-! ## The connections -/

namespace Net

/-- The server as a loop of `LevelLoop`. -/
def abs (x : Net) : LevelLoop.State Int := ⟨x.conns, todo x.srv⟩

structure Inv (lfd : Nat) (junk : Nat → UInt16) (x : Net) : Prop where
  table : Table lfd junk x.srv
  clients : ∀ fd, fd ∈ x.srv.clients ↔ fd ∈ LevelLoop.opened x.conns
  net : LevelLoop.Inv (lfd : Int) x.abs
  orderly : LevelLoop.Orderly 512 1023 toupper x.conns
  buff : Terminated x.srv.revBuff

section
variable {lfd : Nat} {junk : Nat → UInt16} {x x' : Net}

theorem inv_init : Inv lfd junk (init lfd junk) where
  table := table_init
  clients fd := ⟨fun h => absurd h (Finset.notMem_empty fd), fun h => absurd h List.not_mem_nil⟩
  net := LevelLoop.inv_nil
  orderly := LevelLoop.orderly_nil
  buff := terminated_init

theorem Inv.peer (h : Inv lfd junk x) {p : LevelLoop.Peer} (hok : Modest x (.peer p))
    {conns : List (LevelLoop.Conn Int)} (hp : LevelLoop.peer x.conns p = some conns) :
    Inv lfd junk { x with conns } where
  table := h.table
  clients fd := (h.clients fd).trans (LevelLoop.mem_opened_peer hp).symm
  net := h.net.peer hp
  orderly := h.orderly.peer (by decide) hok hp
  buff := h.buff

theorem Inv.listen_notMem (h : Inv lfd junk x) : (lfd : Int) ∉ x.srv.clients := by
  intro hmem
  obtain ⟨c, hc, hs⟩ := LevelLoop.mem_opened.1 ((h.clients lfd).1 hmem)
  exact (h.net.conns c hc).client hs

/-- There is a slot for a client that waits. -/
theorem Inv.slot (h : Inv lfd junk x) (hw : ∃ c ∈ x.conns, c.status = .waiting) :
    x.srv.clients.card < 1023 :=
  Nat.lt_of_lt_of_le (LevelLoop.card_lt_alive (fun fd => (h.clients fd).1) hw) h.orderly.alive

/-! ## The calls -/

theorem Inv.of_ready (h : Inv lfd junk x) {fd : Int}
    (hr : LevelLoop.ready (lfd : Int) x.conns fd = true) : fd = lfd ∨ fd ∈ x.srv.clients := by
  by_cases hl : fd = lfd
  · exact .inl hl
  · obtain ⟨c, hc, hs, -⟩ := (LevelLoop.ready_of_ne hl).1 hr
    exact .inr ((h.clients fd).2 (LevelLoop.mem_opened.2 ⟨c, hc, hs⟩))

/-- What `poll` marks: the entries up to `max_fd` that are ready. -/
theorem Inv.mem_polled (h : Inv lfd junk x) {fd : Int} :
    fd ∈ pending (polled x.srv.clientFds
        ((x.srv.clientFds.take (x.srv.maxFd + 1)).map (revents lfd x))) ↔
      LevelLoop.ready (lfd : Int) x.conns fd = true := by
  rw [mem_pending]
  constructor
  · rintro ⟨e', he', rfl, hne, hr⟩
    obtain ⟨j, hj⟩ := List.mem_iff_getElem?.1 he'
    rw [polled_getElem?, Option.map_eq_some_iff] at hj
    obtain ⟨e, he, rfl⟩ := hj
    rcases Nat.lt_or_ge x.srv.maxFd j with hlt | hle
    · have hj := (List.getElem?_eq_some_iff.1 he).1
      rw [h.table.base.length] at hj
      rw [h.table.base.unused j hlt hj] at he
      obtain rfl := Option.some.inj he
      exact absurd rfl hne
    · have hrev : ((x.srv.clientFds.take (x.srv.maxFd + 1)).map (revents lfd x))[j]? =
          some (revents lfd x e) := by
        rw [List.getElem?_map, List.getElem?_take_of_lt (Nat.lt_succ_of_le hle), he]
        rfl
      simp only [hrev] at hr
      split at hr
      · exact absurd hr (not_readable_zero _)
      · by_contra hno
        rw [revents, if_neg hno] at hr
        exact not_readable_zero _ hr
  · intro hready
    obtain ⟨hnonneg, e, he, rfl⟩ := h.table.watched (h.of_ready hready)
    obtain ⟨j, hlt, hj⟩ := mem_take.1 he
    have hrev : ((x.srv.clientFds.take (x.srv.maxFd + 1)).map (revents lfd x))[j]? = some pollin := by
      rw [List.getElem?_map, List.getElem?_take_of_lt hlt, hj, Option.map_some, revents, if_pos hready]
    refine ⟨⟨e.fd, pollin⟩, List.mem_of_getElem? (polled_taken hj hrev hnonneg), rfl, by omega, ?_⟩
    exact readable_pollin _

theorem Inv.poll (h : Inv lfd junk x) (hjunk : Clean junk) (hst : stepPoll lfd x = some x') :
    Inv lfd junk x' ∧ LevelLoop.Step (lfd : Int) 512 x.abs x'.abs := by
  unfold stepPoll at hst
  simp only at hst
  split at hst
  · cases hst
  · rename_i hnot
    obtain ⟨srv, hsrv, rfl⟩ := Option.map_eq_some_iff.1 hst
    have htable := h.table.step hjunk (a := .poll _) trivial hsrv
    simp only [Poll.step, Option.ite_none_right_eq_some, Option.some.injEq] at hsrv
    obtain ⟨⟨hpc, -⟩, rfl⟩ := hsrv
    have hne : (pending (polled x.srv.clientFds
        ((x.srv.clientFds.take (x.srv.maxFd + 1)).map (revents lfd x)))).Nonempty := by
      push Not at hnot
      obtain ⟨e, -, hr⟩ := hnot
      exact ⟨e.fd, h.mem_polled.2 (by simpa using hr)⟩
    have hstep : LevelLoop.Step (lfd : Int) 512 x.abs ⟨x.conns, pending (polled x.srv.clientFds
        ((x.srv.clientFds.take (x.srv.maxFd + 1)).map (revents lfd x)))⟩ :=
      .wait (show todo x.srv = ∅ by simp only [todo, hpc]) hne fun fd hfd => h.mem_polled.1 hfd
    exact ⟨⟨htable, h.clients, h.net.step (by decide) hstep, h.orderly, h.buff⟩, hstep⟩

theorem Inv.accept (h : Inv lfd junk x) (hjunk : Clean junk) {cfd : Nat}
    (hst : stepAccept lfd x cfd = some x') :
    Inv lfd junk x' ∧ LevelLoop.Step (lfd : Int) 512 x.abs x'.abs := by
  simp only [stepAccept, bind, Option.bind_eq_some_iff, Option.some.injEq] at hst
  obtain ⟨k, hf, c, hk, srv, hsrv, rfl⟩ := hst
  have hw := LevelLoop.find_status hf hk
  have htable := h.table.step hjunk (a := .accept cfd) (h.slot ⟨c, List.mem_of_getElem? hk, hw⟩) hsrv
  obtain ⟨r, h0⟩ := h.table.base.listen_entry
  simp only [Poll.step, h0, Option.ite_none_right_eq_some, Option.some.injEq] at hsrv
  obtain ⟨⟨hpc, hr, hne, hfresh⟩, rfl⟩ := hsrv
  have hmem : (lfd : Int) ∈ todo x.srv := by
    simp only [todo, hpc]
    exact mem_pending.2 ⟨⟨lfd, r⟩, List.mem_of_getElem? h0, rfl, by omega, hr⟩
  have hno : ∀ d ∈ x.conns, d.status ≠ .opened (cfd : Int) :=
    fun d hd hs => hfresh ((h.clients _).2 (LevelLoop.mem_opened.2 ⟨d, hd, hs⟩))
  have hstep : LevelLoop.Step (lfd : Int) 512 x.abs
      ⟨x.conns.set k (c.accepted cfd), (todo x.srv).erase lfd⟩ :=
    .accept hmem hf hk (by omega) hno
  rw [← h.table.accepted hjunk hpc h.listen_notMem cfd] at hstep
  refine ⟨⟨htable, fun fd => ?_, h.net.step (by decide) hstep, h.orderly.accepted hk hw, h.buff⟩,
    hstep⟩
  show fd ∈ insert (cfd : Int) x.srv.clients ↔ _
  rw [Finset.mem_insert, h.clients]
  exact (LevelLoop.mem_opened_accepted hk hw).symm

theorem Inv.main (h : Inv lfd junk x) (hjunk : Clean junk) {srv : State}
    (hsrv : Poll.step lfd x.srv .main = some srv) :
    Inv lfd junk { x with srv } ∧ (⟨srv, x.conns⟩ : Net).abs = x.abs ∧ srv.rest < x.srv.rest := by
  obtain ⟨hcl, hbuf, htodo, hrest⟩ := h.table.stutter hsrv
  have habs : (⟨srv, x.conns⟩ : Net).abs = x.abs := by
    simp only [abs, htodo]
  refine ⟨⟨h.table.step hjunk (a := .main) trivial hsrv, fun fd => ?_, habs ▸ h.net, h.orderly, ?_⟩, habs, hrest⟩
  · show fd ∈ srv.clients ↔ _
    rw [hcl]
    exact h.clients fd
  · show Terminated srv.revBuff
    rw [hbuf]
    exact h.buff

/-- The connection that is read. -/
theorem Inv.conn (h : Inv lfd junk x) (hpc : x.srv.pc = .read) {e : PollFd}
    (he : x.srv.clientFds[x.srv.i]? = some e) : e.fd ≠ lfd ∧ ∃ k c,
      LevelLoop.find x.conns (.opened e.fd) = some k ∧ x.conns[k]? = some c ∧
        c.status = .opened e.fd ∧ c.readable = true := by
  obtain ⟨hmem, hclient, -⟩ := h.table.reading hpc he
  have hne : e.fd ≠ lfd := fun heq => h.listen_notMem (heq ▸ hclient)
  exact ⟨hne, h.net.reads hmem hne⟩

theorem Inv.read (h : Inv lfd junk x) (hjunk : Clean junk) (hpc : x.srv.pc = .read) {e : PollFd}
    (he : x.srv.clientFds[x.srv.i]? = some e) (hst : stepRead lfd x e.fd = some x') :
    Inv lfd junk x' ∧ LevelLoop.Step (lfd : Int) 512 x.abs x'.abs := by
  obtain ⟨hmem, -, herase⟩ := h.table.reading hpc he
  obtain ⟨hne, k, c, hf, hk, hs, -⟩ := h.conn hpc he
  unfold stepRead at hst
  simp only [hf, hk, bind, Option.bind_eq_some_iff, Option.some.injEq] at hst
  obtain ⟨_, rfl, chunk, hr, srv, hsrv, rfl⟩ := hst
  have hstep : LevelLoop.Step (lfd : Int) 512 x.abs
      ⟨x.conns.set k (c.handled chunk (pollServer.answer x.srv.revBuff chunk)),
        (todo x.srv).erase e.fd⟩ :=
    .read hmem hne hf hk hr
  have htable := h.table.step hjunk (a := .read _) trivial hsrv
  have hlen := h.orderly.length_lt (by decide) hk hr
  have horderly := h.orderly.handled (by decide) hk (h.net.conns c (List.mem_of_getElem? hk)) hs hr
    (fun hnil h0 => h.buff.answer hlen hnil h0)
  simp only [Poll.step, he, hpc, if_true] at hsrv
  rw [herase] at hstep
  by_cases hnil : chunk = []
  · rw [if_pos hnil] at hsrv
    cases hsrv
    have htodo : todo (close x.srv e.fd) = pending (x.srv.clientFds.drop (x.srv.i + 1)) :=
      pending_modify (-1) fun _ _ hle => absurd hle (Nat.not_succ_le_self _)
    rw [← htodo] at hstep
    refine ⟨⟨htable, fun fd => ?_, h.net.step (by decide) hstep, horderly, h.buff⟩, hstep⟩
    show fd ∈ x.srv.clients.erase e.fd ↔ _
    rw [Finset.mem_erase, h.clients]
    exact (h.net.mem_opened_closed hk hs (c.handled_closed hnil _)).symm
  · obtain ⟨y, hy, hterm⟩ := h.buff.handle hlen hnil
    have hy : pollServer.handle x.srv.revBuff chunk = some y := hy
    rw [if_neg hnil, Poll.stepRead, if_pos ⟨hnil, Nat.le_of_lt hlen⟩, hy, Option.map_some] at hsrv
    cases hsrv
    refine ⟨⟨htable, fun fd => (h.clients fd).trans ?_, h.net.step (by decide) hstep, horderly, hterm⟩,
      hstep⟩
    exact (LevelLoop.mem_opened_of_status hk (c.handled_status hnil _)).symm

theorem Inv.server (h : Inv lfd junk x) (hjunk : Clean junk) {a : Act} (ha : a.isServer = true)
    (hst : Net.step lfd x a = some x') : Inv lfd junk x' ∧
      (LevelLoop.Step (lfd : Int) 512 x.abs x'.abs ∨ x'.abs = x.abs ∧ x'.srv.rest < x.srv.rest) := by
  cases a with
  | peer p => cases ha
  | poll =>
    obtain ⟨h', hs⟩ := h.poll hjunk hst
    exact ⟨h', .inl hs⟩
  | accept cfd =>
    obtain ⟨h', hs⟩ := h.accept hjunk hst
    exact ⟨h', .inl hs⟩
  | main =>
    obtain ⟨srv, hsrv, rfl⟩ := Option.map_eq_some_iff.1 hst
    obtain ⟨h', hs⟩ := h.main hjunk hsrv
    exact ⟨h', .inr hs⟩
  | read =>
    simp only [Net.step] at hst
    split at hst
    · rename_i e he
      simp only [Option.ite_none_right_eq_some] at hst
      obtain ⟨h', hs⟩ := h.read hjunk hst.1 he hst.2
      exact ⟨h', .inl hs⟩
    · cases hst

theorem Inv.step (h : Inv lfd junk x) (hjunk : Clean junk) {a : Act} (hok : Modest x a)
    (hst : Net.step lfd x a = some x') : Inv lfd junk x' := by
  cases a with
  | peer p =>
    obtain ⟨conns, hp, rfl⟩ := Option.map_eq_some_iff.1 hst
    exact h.peer hok hp
  | poll | accept | main | read => exact (h.server hjunk rfl hst).1

theorem inv_of_run (hjunk : Clean junk) (h : Lts.Run (step lfd) Modest (init lfd junk) x) :
    Inv lfd junk x := by
  apply h.inv inv_init
  intro x a x' hi hok hst
  exact hi.step hjunk hok hst

/-! ## The server does not stop before it is done -/

theorem Inv.quiet (h : Inv lfd junk x) (hpc : x.srv.pc = .poll)
    (hno : ∀ e ∈ x.srv.clientFds.take (x.srv.maxFd + 1),
      LevelLoop.ready (lfd : Int) x.conns e.fd = false) : Quiet lfd x := by
  refine ⟨hpc, h.net.settled h.orderly ⟨show todo x.srv = ∅ by simp only [todo, hpc], fun fd => ?_⟩⟩
  rw [← Bool.not_eq_true]
  intro hr
  obtain ⟨-, e, he, rfl⟩ := h.table.watched (h.of_ready hr)
  exact Bool.false_ne_true ((hno e he).symm.trans hr)

theorem Inv.enabled_poll (h : Inv lfd junk x) (hpc : x.srv.pc = .poll) (hq : ¬ Quiet lfd x) :
    ∃ x', stepPoll lfd x = some x' := by
  have hmax := h.table.kept.maxFd
  have hlen := h.table.base.length
  have hlt : x.srv.maxFd < x.srv.clientFds.length := by omega
  have hrev : ((x.srv.clientFds.take (x.srv.maxFd + 1)).map (revents lfd x)).length =
      x.srv.maxFd + 1 := by
    rw [List.length_map, List.length_take]
    omega
  simp only [stepPoll, if_neg fun hno => hq (h.quiet hpc hno), step_poll hpc hlt hrev]
  exact ⟨_, rfl⟩

theorem Inv.enabled_test (h : Inv lfd junk x) (hpc : x.srv.pc = .test) :
    ∃ a x', a.isServer = true ∧ Net.step lfd x a = some x' := by
  obtain ⟨r, h0⟩ := h.table.base.listen_entry
  by_cases hr : (⟨lfd, r⟩ : PollFd).Readable
  · have hl : (lfd : Int) ∈ x.abs.todo := by
      show (lfd : Int) ∈ todo x.srv
      simp only [todo, hpc]
      exact mem_pending.2 ⟨⟨lfd, r⟩, List.mem_of_getElem? h0, rfl, by omega, hr⟩
    obtain ⟨k, c, hf, hk⟩ := h.net.accepts hl
    have hf : LevelLoop.find x.conns .waiting = some k := hf
    have hk : x.conns[k]? = some c := hk
    obtain ⟨cfd, hcfd⟩ := Infinite.exists_notMem_finset (insert lfd (x.srv.clients.image Int.toNat))
    rw [Finset.mem_insert, not_or] at hcfd
    have hfresh : (cfd : Int) ∉ x.srv.clients := fun hmem =>
      hcfd.2 (Finset.mem_image.2 ⟨_, hmem, Int.toNat_natCast cfd⟩)
    have hacc := step_accept h0 hpc hr hcfd.1 hfresh
    obtain ⟨x', hx'⟩ : ∃ x', stepAccept lfd x cfd = some x' := by
      simp [stepAccept, hf, hk, hacc]
    exact ⟨.accept cfd, x', rfl, hx'⟩
  · have hmain : Poll.step lfd x.srv .main = some { x.srv with i := 1, pc := .loop } := by
      simp only [Poll.step, stepMain, hpc, h0, if_neg hr]
    exact ⟨.main, _, rfl, congrArg (Option.map _) hmain⟩

theorem Inv.enabled_loop (h : Inv lfd junk x) (hpc : x.srv.pc = .loop) :
    ∃ srv, Poll.step lfd x.srv .main = some srv := by
  simp only [Poll.step, stepMain, hpc]
  split
  · rename_i hle
    have hmax := h.table.kept.maxFd
    have hlen := h.table.base.length
    have hlt : x.srv.i < x.srv.clientFds.length := by omega
    simp only [List.getElem?_eq_getElem hlt]
    split
    · exact ⟨_, rfl⟩
    · split
      all_goals exact ⟨_, rfl⟩
  · exact ⟨_, rfl⟩

theorem Inv.enabled_read (h : Inv lfd junk x) (hpc : x.srv.pc = .read) {e : PollFd}
    (he : x.srv.clientFds[x.srv.i]? = some e) : ∃ x', stepRead lfd x e.fd = some x' := by
  obtain ⟨-, k, c, hf, hk, -, hreadable⟩ := h.conn hpc he
  have hr : c.read 512 = some (c.inbox.take 512) := if_pos hreadable
  have hlen := h.orderly.length_lt (by decide) hk hr
  unfold stepRead
  simp only [hf, hk, hr, bind, Option.bind_some]
  by_cases hnil : c.inbox.take 512 = []
  · simp only [if_pos hnil, Poll.step, he, if_pos hpc]
    exact ⟨_, rfl⟩
  · obtain ⟨y, hy, -⟩ := h.buff.handle hlen hnil
    have hy : pollServer.handle x.srv.revBuff (c.inbox.take 512) = some y := hy
    simp only [if_neg hnil, Poll.step, he, if_pos hpc, Poll.stepRead]
    rw [if_pos ⟨hnil, Nat.le_of_lt hlen⟩, hy]
    exact ⟨_, rfl⟩

theorem Inv.enabled (h : Inv lfd junk x) (hq : ¬ Quiet lfd x) :
    ∃ a x', a.isServer = true ∧ Net.step lfd x a = some x' := by
  cases hpc : x.srv.pc with
  | poll =>
    obtain ⟨x', hx'⟩ := h.enabled_poll hpc hq
    exact ⟨.poll, x', rfl, hx'⟩
  | test => exact h.enabled_test hpc
  | loop =>
    obtain ⟨srv, hsrv⟩ := h.enabled_loop hpc
    exact ⟨.main, _, rfl, congrArg (Option.map _) hsrv⟩
  | read =>
    have hlt : x.srv.i < x.srv.clientFds.length := by
      have hmax := h.table.kept.maxFd
      have hlen := h.table.base.length
      have hle := h.table.base.bound hpc
      omega
    have he := List.getElem?_eq_getElem hlt
    obtain ⟨x', hx'⟩ := h.enabled_read hpc he
    refine ⟨.read, x', rfl, ?_⟩
    simp only [Net.step, he, if_pos hpc, hx']

/-! ## Results -/

/-- **When the clients do nothing more, the poll server comes to serve them all**, if no slot of its table
starts with `POLLIN`. -/
theorem clients_served_of_clean (lfd : Nat) (junk : Nat → UInt16)
    (hjunk : ∀ k, 1 ≤ k → k < 1024 → junk k &&& pollin = 0) (x : Net)
    (h : Lts.Run (step lfd) Modest (init lfd junk) x) :
    Lts.Must (step lfd) (fun _ a => a.isServer = true) (Quiet lfd) x := by
  apply LevelLoop.must_settle (lfd : Int) 512 (by decide) abs (·.srv.rest) ?_ ?_
    (inv_of_run hjunk h)
  · exact fun x hi hq => hi.enabled hq
  · exact fun x a x' hi ha hst => hi.server hjunk ha hst

/-! ## A slot that starts with `POLLIN` -/

/-- Clients that have sent nothing. -/
def silent (lfd k : Nat) : List (LevelLoop.Conn Int) :=
  (List.range k).map fun j => LevelLoop.Conn.new.accepted ((lfd + j + 1 : Nat) : Int)

theorem silent_succ (lfd k : Nat) : silent lfd (k + 1) =
    silent lfd k ++ [LevelLoop.Conn.new.accepted ((lfd + k + 1 : Nat) : Int)] := by
  simp [silent, List.range_succ]

theorem silent_length (lfd k : Nat) : (silent lfd k).length = k := by
  rw [silent, List.length_map, List.length_range]

theorem not_readable_silent {k : Nat} {c : LevelLoop.Conn Int} (hc : c ∈ silent lfd k) :
    c.readable = false := by
  obtain ⟨j, -, rfl⟩ := List.mem_map.1 hc
  rfl

theorem find_silent (lfd k : Nat) :
    LevelLoop.find (silent lfd k ++ [LevelLoop.Conn.new]) .waiting = some k := by
  have hnone : LevelLoop.find (silent lfd k) .waiting = none := by
    rw [LevelLoop.find, List.findIdx?_eq_none_iff]
    intro c hc
    obtain ⟨j, -, rfl⟩ := List.mem_map.1 hc
    rfl
  unfold LevelLoop.find at hnone ⊢
  rw [List.findIdx?_append, hnone, silent_length]
  simp [LevelLoop.Conn.new]

theorem ready_silent (lfd k : Nat) (fd : Int) :
    LevelLoop.ready (lfd : Int) (silent lfd k ++ [LevelLoop.Conn.new]) fd = true ↔ fd = lfd := by
  constructor
  · intro hr
    by_contra hne
    obtain ⟨c, hc, -, hreadable⟩ := (LevelLoop.ready_of_ne hne).1 hr
    rcases List.mem_append.1 hc with hc | hc
    · exact Bool.false_ne_true ((not_readable_silent hc).symm.trans hreadable)
    · rw [List.mem_singleton.1 hc] at hreadable
      cases hreadable
  · rintro rfl
    exact LevelLoop.ready_lfd.2 ⟨_, List.mem_append_right _ (List.mem_singleton_self _), rfl⟩

/-- When one more client connects, `poll` reports that and nothing else. -/
theorem revents_silent {s : State} {k : Nat} (hf : Filled lfd k s) (hb : Base lfd junk s) :
    (s.clientFds.take (s.maxFd + 1)).map
      (revents lfd ⟨s, silent lfd k ++ [LevelLoop.Conn.new]⟩) = connects k := by
  apply List.ext_getElem?
  intro j
  rw [List.getElem?_map]
  rcases Nat.lt_or_ge k j with hlt | hle
  · rw [List.getElem?_eq_none (by rw [List.length_take, hf.maxFd]; omega),
      List.getElem?_eq_none (by simp [connects]; omega)]
    rfl
  · rw [List.getElem?_take_of_lt (by rw [hf.maxFd]; omega)]
    cases j with
    | zero =>
      obtain ⟨r, h0⟩ := hb.listen_entry
      rw [h0, Option.map_some, revents, if_pos ((ready_silent lfd k _).2 rfl)]
      rfl
    | succ j =>
      obtain ⟨e, he, hfd⟩ := hf.taken (j + 1) (Nat.le_add_left 1 j) hle
      have hclient : e.fd ∈ s.clients := by
        refine hb.only e.fd (List.mem_of_getElem? (i := j) ?_) (by omega)
        rw [List.getElem?_tail, fds_getElem?, he]
        rfl
      have hne : e.fd ≠ lfd := by
        have hlt := (hf.fresh _ hclient).1
        omega
      rw [he, Option.map_some, revents, if_neg fun hr => hne ((ready_silent lfd k _).1 hr), connects,
        List.getElem?_cons_succ, List.getElem?_replicate, if_pos (by omega)]

/-- One more client connects. -/
theorem connect_silent {s : State} {k : Nat} (hf : Filled lfd k s) (hb : Base lfd junk s)
    (hk : k < 1023) : ∃ s₂, Lts.Run (step lfd) Modest ⟨s, silent lfd k⟩ ⟨s₂, silent lfd (k + 1)⟩ ∧
      Connected lfd junk k s₂ ∧ Base lfd junk s₂ := by
  obtain ⟨s₁, s₂, hpoll, -, haccept, hc⟩ := hf.connect hb hk
  have hroom : LevelLoop.alive (silent lfd k) < 1023 := by
    have hle := List.countP_le_length (p := LevelLoop.Conn.alive) (l := silent lfd k)
    rw [silent_length] at hle
    exact Nat.lt_of_le_of_lt hle hk
  have hready : ¬ ∀ e ∈ s.clientFds.take (s.maxFd + 1), LevelLoop.ready (lfd : Int)
      (silent lfd k ++ [LevelLoop.Conn.new]) e.fd = false := by
    intro hall
    obtain ⟨r, h0⟩ := hb.listen_entry
    have hno := hall ⟨lfd, r⟩ (mem_take.2 ⟨0, Nat.zero_lt_succ _, h0⟩)
    exact Bool.false_ne_true (hno.symm.trans ((ready_silent lfd k _).2 rfl))
  have hstep₁ : step lfd ⟨s, silent lfd k ++ [LevelLoop.Conn.new]⟩ .poll =
      some ⟨s₁, silent lfd k ++ [LevelLoop.Conn.new]⟩ := by
    simp only [Net.step, stepPoll]
    rw [if_neg hready, revents_silent hf hb, hpoll]
    rfl
  have hstep₂ : step lfd ⟨s₁, silent lfd k ++ [LevelLoop.Conn.new]⟩ (.accept (lfd + k + 1)) =
      some ⟨s₂, silent lfd (k + 1)⟩ := by
    have hget : (silent lfd k ++ [LevelLoop.Conn.new])[k]? = some LevelLoop.Conn.new := by
      rw [List.getElem?_append_right (Nat.le_of_eq (silent_length lfd k)), silent_length, Nat.sub_self]
      rfl
    simp only [Net.step, stepAccept, find_silent, hget, haccept, bind, Option.bind_some, silent_succ]
    rw [List.set_append_right _ _ (Nat.le_of_eq (silent_length lfd k)), silent_length, Nat.sub_self]
    rfl
  refine ⟨s₂, .next (.next (.next .start (a := .peer .connect) hroom rfl) (a := .poll) trivial hstep₁)
    (a := .accept _) trivial hstep₂, hc, ?_⟩
  exact (hb.step hpoll).step haccept

theorem run_main {s s' : State} (h : Lts.Run (Poll.step lfd) (fun _ a => a = .main) s s')
    (conns : List (LevelLoop.Conn Int)) : Lts.Run (step lfd) Modest ⟨s, conns⟩ ⟨s', conns⟩ := by
  induction h with
  | start => exact .start
  | next _ ha hs ih =>
    subst ha
    exact .next ih (a := .main) trivial (congrArg (Option.map _) hs)

theorem exists_silent (lfd : Nat) : ∀ {k : Nat}, k ≤ 1023 →
    (∀ j, 1 ≤ j → j ≤ k → junk j &&& pollin = 0) →
    ∃ s, Lts.Run (step lfd) Modest (init lfd junk) ⟨s, silent lfd k⟩ ∧ Filled lfd k s ∧ Base lfd junk s
  | 0, _, _ => by
    refine ⟨Poll.init lfd junk, .start, ⟨rfl, rfl, fun j hj hj0 => ?_, fun c hc => ?_⟩, base_init⟩
    · omega
    · exact absurd hc (Finset.notMem_empty c)
  | k + 1, hk, hquiet => by
    obtain ⟨s, hs, hf, hb⟩ := exists_silent lfd (k := k) (by omega)
      fun j hj hjk => hquiet j hj (Nat.le_succ_of_le hjk)
    obtain ⟨s₂, hrun, hc, hb₂⟩ := connect_silent hf hb hk
    obtain ⟨hloop, hf'⟩ := hc.pass (hquiet (k + 1) (Nat.le_add_left 1 k) (Nat.le_refl _))
    exact ⟨_, (hs.trans hrun).trans (run_main hloop _), hf',
      hloop.inv hb₂ fun _ _ _ hb _ hst => hb.step hst⟩

/-- A `read` that waits. -/
theorem no_step {e : PollFd} {k : Nat} (hpc : x.srv.pc = .read)
    (he : x.srv.clientFds[x.srv.i]? = some e) (hf : LevelLoop.find x.conns (.opened e.fd) = some k)
    (hwait : ∀ c ∈ x.conns, c.readable = false) {a : Act} (ha : a.isServer = true) :
    step lfd x a = none := by
  cases a with
  | peer p => cases ha
  | poll =>
    have hno : ∀ revents, Poll.step lfd x.srv (.poll revents) = none := fun revents =>
      if_neg fun hx => by
        rw [hpc] at hx
        cases hx.1
    simp only [Net.step, stepPoll, hno, Option.map_none, ite_self]
  | accept cfd =>
    have hno : Poll.step lfd x.srv (.accept cfd) = none := by
      simp only [Poll.step, hpc]
      split
      · exact if_neg fun hx => by cases hx.1
      · rfl
    simp [Net.step, stepAccept, hno]
  | main => simp only [Net.step, Poll.step, stepMain, hpc, Option.map_none]
  | read =>
    obtain ⟨c, hk, -⟩ := LevelLoop.find_eq_some hf
    have hr : c.read 512 = none := by
      rw [LevelLoop.Conn.read, hwait c (List.mem_of_getElem? hk)]
      rfl
    simp only [Net.step, he, if_pos hpc, stepRead, hf, hk, hr, bind, Option.bind_some, Option.bind_none]

/-- A client that gets such a slot and sends nothing keeps the server in `read`. -/
theorem exists_waiting (lfd : Nat) {k : Nat} (hk : k < 1023)
    (hquiet : ∀ j, 1 ≤ j → j ≤ k → junk j &&& pollin = 0) (hr : junk (k + 1) &&& pollin ≠ 0) :
    ∃ x, Lts.Run (step lfd) Modest (init lfd junk) x ∧
      ¬ Lts.Must (step lfd) (fun _ a => a.isServer = true) (Quiet lfd) x := by
  obtain ⟨s, hs, hf, hb⟩ := exists_silent lfd (Nat.le_of_lt hk) hquiet
  obtain ⟨s₂, hrun, hc, -⟩ := connect_silent hf hb hk
  refine ⟨_, (hs.trans hrun).trans (run_main (hc.marked hr) _), fun hmust => ?_⟩
  obtain ⟨j, hj⟩ : ∃ j, LevelLoop.find (silent lfd (k + 1)) (.opened ((lfd : Int) + k + 1)) = some j := by
    apply LevelLoop.exists_find
    refine ⟨LevelLoop.Conn.new.accepted ((lfd + k + 1 : Nat) : Int), ?_, ?_⟩
    · rw [silent_succ]
      exact List.mem_append_right _ (List.mem_singleton_self _)
    · simp [LevelLoop.Conn.accepted]
  cases hmust with
  | now hq => cases hq.1
  | next hex _ =>
    obtain ⟨a, x', ha, hst⟩ := hex
    have hnone : step lfd ⟨{ s₂ with i := k + 1, pc := .read }, silent lfd (k + 1)⟩ a = none :=
      no_step rfl hc.last hj (fun c hc => not_readable_silent hc) ha
    rw [hst] at hnone
    cases hnone

/-- **Whether the poll server serves all its clients depends on what its table holds at the start.** In every
run, when the clients do nothing more, the server comes to accept every one of them, to read all they
have sent and to answer it, to close those that have ended, and to wait in `poll`, exactly if no slot
from 1 to 1023 starts with `POLLIN`. -/
theorem clients_served_iff (lfd : Nat) (junk : Nat → UInt16) :
    (∀ x, Lts.Run (step lfd) Modest (init lfd junk) x →
      Lts.Must (step lfd) (fun _ a => a.isServer = true) (Quiet lfd) x) ↔
      ∀ k, 1 ≤ k → k < 1024 → junk k &&& pollin = 0 := by
  constructor
  · intro hall
    by_contra hbad
    obtain ⟨k, hk, hquiet, hr⟩ := exists_first_marked hbad
    obtain ⟨x, hx, hno⟩ := exists_waiting lfd hk hquiet hr
    exact hno (hall x hx)
  · intro hjunk x hx
    exact clients_served_of_clean lfd junk hjunk x hx

end

end Net

end Poll
