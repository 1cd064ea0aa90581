import LinuxApi.Epoll.Listen

/-!
# Connections forgotten in the accept queue

A report of the listening socket leads to one `accept`, however many connections have arrived
(`accept_forgets`). `AcceptSafe` asks, at each accept, that it empties the queue or that another
connection has arrived since the report; in a run all of whose steps meet it, the queue of a
blocked server is empty (`noneForgotten_of_run`).
-/

set_option autoImplicit false

namespace Epoll

/-- The events of the batch that are still to be handled. -/
def State.pending (s : State) : List Event :=
  match s.phase with
  | .wait => []
  | .handle events => events

/-- If the step accepts, it empties the queue, or there is a new report. -/
def AcceptSafe (s : State) : Act → Prop
  | .next _ => s.pending.head? = some .listen → s.queue.length ≤ 1 ∨ s.report = true
  | .arrive _ | .epollWait _ => True

instance (s : State) : ∀ a, Decidable (AcceptSafe s a)
  | .next _ => inferInstanceAs (Decidable (_ → _))
  | .arrive _ | .epollWait _ => inferInstanceAs (Decidable True)

/-! ## What a step does -/

/-- The steps: an arrival, a return of `epoll_wait`, the end of a batch, the handling of a client
and an accept, of a connection if there is one. -/
inductive StepMove (srv : Server) (s : State) : Act → State → Prop
  | arrive {cfd : Nat} :
      StepMove srv s (.arrive cfd) { s with queue := s.queue ++ [cfd], report := true }
  | epollWait {events : List Event} : s.phase = .wait → srv.batch s events →
      StepMove srv s (.epollWait events)
        { s with phase := .handle events, report := s.report && !events.contains .listen }
  | done {close : Bool} : s.phase = .handle [] →
      StepMove srv s (.next close) { s with phase := .wait }
  | client {close : Bool} {fd : Nat} {events : List Event} {clients : List Client} :
      s.phase = .handle (.client fd :: events) →
      StepMove srv s (.next close) { s with clients, phase := .handle events }
  | accept {close : Bool} {cfd : Nat} {queue : List Nat} {events : List Event} {et : Bool} :
      s.phase = .handle (.listen :: events) → s.queue = cfd :: queue →
      StepMove srv s (.next close)
        { s with queue, clients := s.clients ++ [⟨cfd, et⟩], phase := .handle events }
  | empty {close : Bool} {events : List Event} :
      s.phase = .handle (.listen :: events) → s.queue = [] → srv ≠ .epollRun →
      StepMove srv s (.next close) { s with phase := .handle events }

theorem accept_cases {srv : Server} {s s' : State} (h : srv.accept s = some s') :
    (∃ cfd queue et, s.queue = cfd :: queue ∧
      s' = { s with queue, clients := s.clients ++ [⟨cfd, et⟩] }) ∨
      s.queue = [] ∧ srv ≠ .epollRun ∧ s' = s := by
  cases hq : s.queue with
  | nil =>
    refine .inr ⟨rfl, ?_, ?_⟩ <;> cases srv <;>
      simp_all [Server.accept, doAccept, workAccept]
  | cons cfd queue =>
    refine .inl ⟨cfd, queue, ?_⟩
    cases srv <;> simp only [Server.accept, doAccept, workAccept, hq, Option.some.injEq] at h <;>
      exact ⟨_, rfl, h.symm⟩

/-- The inversion lemma of `step`. -/
theorem step_move {srv : Server} {s s' : State} {a : Act} (h : step srv s a = some s') :
    StepMove srv s a s' := by
  cases a with
  | arrive cfd => cases h; exact .arrive
  | epollWait events =>
    simp only [step] at h
    split at h
    · rename_i hc; cases h; exact .epollWait hc.1 hc.2
    · cases h
  | next close =>
    simp only [step] at h
    split at h
    · cases h
    · rename_i hp; cases h; exact .done hp
    · rename_i e events hp
      obtain ⟨s1, hh, rfl⟩ := Option.map_eq_some_iff.1 h
      cases e with
      | listen =>
        rcases accept_cases hh with ⟨cfd, queue, et, hq, rfl⟩ | ⟨hq, hne, rfl⟩
        · exact .accept hp hq
        · exact .empty hp hq hne
      | client fd =>
        simp only [Server.handle, Option.some.injEq] at hh
        subst hh
        split
        · exact .client hp
        · exact .client hp

/-! ## The accept queue -/

/-- There are at least as many connections in the queue as reports that are outstanding or about to
be handled. -/
def ReportInv (s : State) : Prop :=
  s.report.toNat + s.pending.count .listen ≤ s.queue.length

theorem Server.batch.count {srv : Server} {s : State} {events : List Event}
    (h : srv.batch s events) :
    (s.report && !events.contains .listen).toNat + events.count .listen ≤ s.report.toNat := by
  obtain ⟨-, -, hnd, hready⟩ := h
  by_cases hm : Event.listen ∈ events
  · have hr : s.report = true := hready _ hm
    rw [List.count_eq_one_of_mem hnd hm]
    simp [hr, hm]
  · rw [List.count_eq_zero_of_not_mem hm]
    simp [hm]

theorem ReportInv.step {srv : Server} {s s' : State} {a : Act} (hi : ReportInv s)
    (h : StepMove srv s a s') : ReportInv s' := by
  unfold ReportInv at hi ⊢
  cases h with
  | arrive =>
    have := s.report.toNat_le
    simp only [State.pending, List.length_append, List.length_singleton, Bool.toNat_true] at hi ⊢
    omega
  | epollWait hp hb =>
    have := hb.count
    simp only [State.pending, hp, List.count_nil] at hi ⊢
    omega
  | done hp => simpa [State.pending, hp] using hi
  | client hp => simpa [State.pending, hp] using hi
  | accept hp hq =>
    simp only [State.pending, hp, hq, List.count_cons_self, List.length_cons] at hi ⊢
    omega
  | empty hp hq => simp [State.pending, hp, hq] at hi

theorem reportInv_of_run {srv : Server} {ok : State → Act → Prop} {s : State}
    (h : Lts.Run (step srv) ok init s) : ReportInv s := by
  apply h.inv (P := ReportInv)
  · exact Nat.zero_le _
  · intro s a s' ih _ hst
    exact ih.step (step_move hst)

/-- **`accept` always finds a connection**: the assertion of `do_accept` never fails. -/
theorem doAccept_isSome {srv : Server} {ok : State → Act → Prop} {s : State}
    (h : Lts.Run (step srv) ok init s) (hp : s.pending.head? = some .listen) :
    (doAccept s).isSome = true := by
  have hi := reportInv_of_run h
  have hc := List.count_pos_iff.2 (List.mem_of_head? hp)
  unfold ReportInv at hi
  unfold doAccept
  cases hq : s.queue with
  | nil => simp [hq] at hi; omega
  | cons => rfl

/-- A connection in the queue has a report that is outstanding or about to be handled. -/
def Announced (s : State) : Prop :=
  s.queue ≠ [] → s.report = true ∨ .listen ∈ s.pending

theorem Announced.step {srv : Server} {s s' : State} {a : Act} (hi : Announced s)
    (h : StepMove srv s a s') (hok : AcceptSafe s a) : Announced s' := by
  intro hne
  cases h with
  | arrive => exact .inl rfl
  | @epollWait events hp hb =>
    by_cases hm : Event.listen ∈ events
    · exact .inr hm
    · rcases hi hne with hr | hl
      · exact .inl (by simp [hr, hm])
      · simp [State.pending, hp] at hl
  | done hp =>
    rcases hi hne with hr | hl
    · exact .inl hr
    · simp [State.pending, hp] at hl
  | client hp =>
    rcases hi hne with hr | hl
    · exact .inl hr
    · exact .inr (by simpa [State.pending, hp] using hl)
  | @accept _ cfd queue events et hp hq =>
    rcases hok (by simp [State.pending, hp]) with hlen | hr
    · exact absurd (List.length_eq_zero_iff.1 (by simpa [hq] using hlen)) hne
    · exact .inl hr
  | empty hp hq => exact absurd hq hne

/-- **No connection is forgotten**, in every run whose steps are `AcceptSafe`. -/
theorem noneForgotten_of_run (srv : Server) (s : State)
    (h : Lts.Run (step srv) AcceptSafe init s) (hb : blocked s) : s.queue = [] := by
  have hi : Announced s := by
    apply h.inv (P := Announced)
    · intro hne
      exact absurd rfl hne
    · intro s a s' ih hok hst
      exact ih.step (step_move hst) hok
  by_contra hne
  rcases hi hne with hr | hl
  · rw [hb.2] at hr
    cases hr
  · simp [State.pending, hb.1] at hl

/-- Two connections, the second of which arrives while the server handles the report of the first. -/
theorem noneForgotten_of_run_two : ∃ s, Lts.Run (step .epollRun) AcceptSafe init s ∧
    s.clients.length = 2 ∧ s.queue = [] := by
  obtain ⟨s, hr, hb, hc⟩ := Lts.Run.exists_of_execOk (step .epollRun) AcceptSafe
    [.arrive 5, .epollWait [.listen], .arrive 6, .next false, .next false,
      .epollWait [.listen], .next false, .next false] init
    (fun s => blocked s ∧ s.clients.length = 2) (by decide)
  exact ⟨s, hr, hc, noneForgotten_of_run _ s hr hb⟩

/-- Two connections arrive before `epoll_wait` returns. -/
theorem forgotten (srv : Server) :
    ∃ s, Lts.Run (step srv) Lts.Free init s ∧ blocked s ∧ s.queue = [6] := by
  cases srv <;> exact Lts.Run.exists_of_exec _
    [.arrive 5, .arrive 6, .epollWait [.listen], .next false, .next false] init _ (by decide)

/-- None of the servers accepts all connections. -/
theorem noneForgotten_fails : ¬ ∃ srv, ∀ s, Lts.Run (step srv) Lts.Free init s → blocked s →
    s.queue = [] := by
  rintro ⟨srv, hall⟩
  obtain ⟨s, hr, hb, hq⟩ := forgotten srv
  rw [hall s hr hb] at hq
  cases hq

end Epoll
