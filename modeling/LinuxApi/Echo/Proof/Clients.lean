import LinuxApi.Echo.Clients
import LinuxApi.Echo.Proof.Servers

/-!
# No client of the epoll servers is forgotten

Every loop is `Complete`, level-triggered or edge-triggered (`Program.complete`), and so every byte of
every client is read (`all_served`). What is read is what the buffer of the server is filled with, so
that a client gets everything it has sent back in upper case (`all_echoed`).
-/

set_option autoImplicit false

namespace EtWork

open CLib Lts EventLoop

theorem Program.complete (p : Program) : p.loop.Complete where
  size := by cases p <;> decide
  maxEvents := by cases p <;> decide
  data chunk := by cases p <;> rfl
  eof := by cases p <;> decide
  once := by cases p <;> decide
  again := by cases p <;> decide
  badf := by cases p <;> decide

/-- **No client is forgotten.** In every run of each of the loops, with any number of clients that
connect, send and shut down at any time: `exit` is never called; when the server would wait for ever, it has
read all that its clients have sent, and of these exactly the ones that have shut down are closed;
and it cannot but get there, when the clients do nothing more. -/
theorem all_served (p : Program) {s : State} (h : Run (step p.loop) Free init s) :
    s.pc ≠ .exited ∧ (Blocked p.loop s → Served s) ∧
      Must (step p.loop) (fun _ a => a.isLoop = true) (fun s => Blocked p.loop s ∧ Served s) s :=
  ⟨p.complete.not_exited h, p.complete.served_of_blocked h, p.complete.must_serve h⟩

/-! ## What is read -/

theorem reads_append (events events' : List Echo.Event) :
    Echo.reads (events ++ events') = Echo.reads events ++ Echo.reads events' := by
  induction events with
  | nil => rfl
  | cons e events ih =>
    cases e with
    | data k chunk => simp [Echo.reads, ih]
    | round => simpa [Echo.reads] using ih
    | eof k => simpa [Echo.reads] using ih

theorem stream_append (k : Nat) (log log' : List (Nat × Bytes)) :
    Echo.stream k (log ++ log') = Echo.stream k log ++ Echo.stream k log' := by
  simp [Echo.stream]

/-- What has been read on connection `k`. -/
def gotOn (s : State) (k : Nat) : Bytes := (s.conns[k]?).elim [] Conn.got

/-- The record says what was read, in pieces that fit. -/
structure Recorded (L : Loop) (s : State) (events : List Echo.Event) : Prop where
  got : ∀ k, Echo.stream k (Echo.reads events) = gotOn s k
  cut : ∀ x ∈ Echo.reads events, 0 < x.2.length ∧ x.2.length ≤ L.size

section
variable {L : Loop} {s s' : State} {events events' : List Echo.Event}

theorem Recorded.keep (h : Recorded L s events) (hg : ∀ k, gotOn s' k = gotOn s k)
    (he : Echo.reads events' = Echo.reads events) : Recorded L s' events' where
  got k := by rw [he, h.got, hg]
  cut := by
    rw [he]
    exact h.cut

theorem gotOn_modify {conns : List Conn} {k : Nat} {f : Conn → Conn} {pc : Pc} {backlog : List Nat}
    {report : Bool} (hf : ∀ c, (f c).got = c.got) (hs : s.conns = conns) (j : Nat) :
    gotOn ⟨conns.modify k f, backlog, report, pc⟩ j = gotOn s j := by
  simp only [gotOn, getElem?_modify', hs]
  cases conns[j]? with
  | none => rfl
  | some c =>
    simp only [Option.map_some, Option.elim_some]
    split
    · exact hf c
    · rfl

theorem gotOn_connect (backlog : List Nat) (report : Bool) (pc : Pc) (j : Nat) :
    gotOn ⟨s.conns ++ [.new], backlog, report, pc⟩ j = gotOn s j := by
  simp only [gotOn]
  rcases Nat.lt_trichotomy j s.conns.length with hlt | rfl | hgt
  · rw [List.getElem?_append_left hlt]
  · simp [Conn.new]
  · rw [List.getElem?_eq_none (by simp; omega), List.getElem?_eq_none (by omega)]

theorem reads_seen (k : Nat) (r : Result) : Echo.reads (events ++ seen k r) =
    Echo.reads events ++ (match r with | .data chunk => [(k, chunk)] | _ => []) := by
  rw [reads_append]
  cases r <;> rfl

/-- A `recv` adds what it returns to what has been got. -/
theorem Conn.got_read (c : Conn) : (L.read c).got =
    c.got ++ (match (c.recv L.size).1 with | .data chunk => chunk | _ => []) := by
  unfold Loop.read Conn.closeIf Conn.recv
  by_cases hc : c.closes = 0
  · by_cases hi : c.inbox = []
    · cases hf : c.fin <;> simp [hc, hi]
    · simp [hc, hi]
  · simp [hc]

theorem Conn.recv_length {c : Conn} (hsize : 0 < L.size) {chunk : Bytes}
    (h : (c.recv L.size).1 = .data chunk) : 0 < chunk.length ∧ chunk.length ≤ L.size := by
  unfold Conn.recv at h
  split at h
  · split at h
    · split at h <;> cases h
    · rename_i hi
      cases h
      have := List.length_pos_iff.2 hi
      rw [List.length_take]
      omega
  · cases h

theorem Recorded.step (hsize : 0 < L.size) (h : Recorded L s events) {a : Act}
    (hst : EventLoop.step L s a = some s') : Recorded L s' (record L s a events) := by
  cases a with
  | connect =>
    cases hst
    exact h.keep (gotOn_connect _ _ _) rfl
  | send k bytes =>
    simp only [EventLoop.step, State.peer] at hst
    split at hst
    · cases hst
      exact h.keep (gotOn_modify (fun _ => rfl) rfl) rfl
    · cases hst
  | finish k =>
    simp only [EventLoop.step, State.peer] at hst
    split at hst
    · cases hst
      exact h.keep (gotOn_modify (fun _ => rfl) rfl) rfl
    · cases hst
  | wait evs =>
    simp only [EventLoop.step] at hst
    split at hst
    · cases hst
      apply h.keep
      · intro k
        simp only [gotOn, List.getElem?_mapIdx]
        cases s.conns[k]? <;> rfl
      · simp [record, reads_append, Echo.reads]
    · cases hst
  | next =>
    simp only [EventLoop.step, stepLoop] at hst
    split at hst
    · cases hst
    · cases hst
    · rename_i hpc
      cases hst
      exact h.keep (fun _ => rfl) (by simp [record, hpc])
    · rename_i rest hpc
      cases hst
      have he : Echo.reads (record L s .next events) = Echo.reads events := by simp [record, hpc]
      unfold accept
      split
      · exact h.keep (gotOn_modify (fun _ => rfl) rfl) he
      · exact h.keep (fun _ => rfl) he
    · rename_i hpc
      cases hst
      exact h.keep (fun _ => rfl) (by simp [record, hpc])
    · rename_i k rest hpc
      obtain ⟨c, hk, rfl⟩ := Option.map_eq_some_iff.1 hst
      have he : record L s .next events = events ++ seen k (c.recv L.size).1 := by
        simp [record, hpc, hk]
      rw [he]
      refine ⟨fun j => ?_, ?_⟩
      · rw [reads_seen, stream_append, h.got]
        simp only [gotOn, getElem?_modify']
        by_cases hj : k = j
        · subst hj
          simp only [hk, Option.map_some, Option.elim_some, if_true, Conn.got_read]
          congr 1
          cases (c.recv L.size).1 <;> simp [Echo.stream]
        · have hnil : ∀ r : Result, Echo.stream j
              (match r with | .data chunk => [(k, chunk)] | _ => []) = [] := by
            intro r
            cases r <;> simp [Echo.stream, hj]
          rw [hnil, List.append_nil]
          cases s.conns[j]? <;> simp [hj]
      · intro x hx
        rw [reads_seen] at hx
        rcases List.mem_append.1 hx with hx | hx
        · exact h.cut x hx
        · cases hr : (c.recv L.size).1 with
          | data chunk =>
            rw [hr] at hx
            obtain rfl := List.mem_singleton.1 hx
            exact Conn.recv_length hsize hr
          | eof => rw [hr] at hx; cases hx
          | again => rw [hr] at hx; cases hx
          | badf => rw [hr] at hx; cases hx

end

theorem recorded_of_run {L : Loop} (hsize : 0 < L.size) {s : State} {events : List Echo.Event}
    (h : Run (withHist (step L) (record L)) Free (init, []) (s, events)) :
    Recorded L s events := by
  apply h.inv (P := fun x => Recorded L x.1 x.2)
  · exact ⟨fun k => rfl, fun x hx => by cases hx⟩
  · intro x a x' hi _ hst
    obtain ⟨hst, hh⟩ := withHist_eq_some.1 hst
    rw [hh]
    exact hi.step hsize hst

/-! ## What is written -/

/-- A reply without `NUL` is in upper case. -/
theorem stream_reply {log : List (Nat × Bytes)} {k : Nat} (h0 : (0 : UInt8) ∉ Echo.stream k log) :
    Echo.stream k (log.map fun x => (x.1, Echo.reply x.2)) = (Echo.stream k log).map toupper := by
  induction log with
  | nil => rfl
  | cons x log ih =>
    have hcons : ∀ (y : Nat × Bytes) (l : List (Nat × Bytes)), Echo.stream k (y :: l) =
        (if y.1 = k then y.2 else []) ++ Echo.stream k l := by
      intro y l
      by_cases hy : y.1 = k <;> simp [Echo.stream, hy]
    rw [hcons, List.mem_append, not_or] at h0
    rw [List.map_cons, hcons, hcons, List.map_append, ih h0.2]
    congr 1
    by_cases hx : x.1 = k
    · simp only [hx, if_true] at h0 ⊢
      rw [Echo.reply_eq_iff, Echo.PlainTail, cstr_of_notMem h0.1, List.drop_length]
      exact fun b hb => by cases hb
    · simp [hx]

/-- **Clients are echoed.** In every run of an epoll server, with all that it reads: the loop over the
buffer never runs past it; and when the server would wait for ever, each client it has accepted that
has sent no `NUL` has been written all that it has sent, in order and in upper case. -/
theorem all_echoed (p : Program) (srv : Echo.Server) (hsrv : p.server = some srv) {s : State}
    {events : List Echo.Event}
    (h : Run (withHist (step p.loop) (record p.loop)) Free (init, []) (s, events)) :
    ∃ out, srv.serve srv.zeros events = some out ∧ (Blocked p.loop s →
      ∀ (k : Nat) (c : Conn), s.conns[k]? = some c → c.accepted = true → (0 : UInt8) ∉ c.sent →
        Echo.stream k out = c.sent.map toupper ∧ (c.closes ≠ 0 ↔ c.fin = true)) := by
  have hrun : Run (step p.loop) Free init s :=
    Run.fst (h.mono fun _ _ _ => trivial)
  have hrec := recorded_of_run p.complete.size h
  have hmem : srv ∈ [Echo.ltWork, Echo.etWork, Echo.etWorkMemset] := by
    cases p <;> simp [Program.server] at hsrv <;> simp [← hsrv]
  have hlimit : srv.limit = p.loop.size := by
    cases p <;> simp [Program.server] at hsrv <;> rw [← hsrv] <;> rfl
  have hcut : Echo.Cut srv events := by
    intro x hx
    rw [hlimit]
    exact hrec.cut x hx
  have hserve := (Echo.serve_eq_some (show SameNul srv.zeros srv.zeros from rfl)).2
    ⟨Echo.epoll_ended hmem hcut, rfl⟩
  refine ⟨_, hserve, fun hb k c hk hacc h0 => ?_⟩
  obtain ⟨hgot, hcl⟩ := p.complete.served_of_blocked hrun hb k c hk hacc
  have hstream : Echo.stream k (Echo.reads events) = c.sent := by
    rw [hrec.got, gotOn, hk, Option.elim_some, hgot]
  rw [stream_reply (by rwa [hstream]), hstream]
  exact ⟨rfl, hcl⟩

/-- The state in which a client has sent `hi` and has been served. -/
def hiServed : State := ⟨[⟨ascii "hi", ascii "hi", [], false, true, false, 0⟩], [], false, .wait⟩

theorem blocked_hiServed : Blocked Program.etWork2.loop hiServed := by
  refine ⟨rfl, fun e => ?_⟩
  match e with
  | none => rfl
  | some 0 => rfl
  | some (k + 1) => rfl

theorem run_hiServed : ∃ events,
    Run (withHist (step Program.etWork2.loop) (record Program.etWork2.loop)) Free (init, [])
      (hiServed, events) := by
  obtain ⟨x, hr, hx⟩ := Run.exists_of_exec
    (withHist (step Program.etWork2.loop) (record Program.etWork2.loop))
    [.connect, .wait [none], .next, .next, .send 0 (ascii "hi"), .wait [some 0], .next, .next,
      .next, .next] (init, []) (fun x => x.1 = hiServed) (by decide +kernel)
  exact ⟨x.2, hx ▸ hr⟩

/-- A client that sends two bytes. -/
theorem all_served_hi : Served hiServed := by
  obtain ⟨events, hr⟩ := run_hiServed
  exact (all_served .etWork2 (Run.fst (hr.mono fun _ _ _ => trivial))).2.1 blocked_hiServed

theorem all_echoed_hi : ∃ (events : List Echo.Event) (out : List (Nat × Bytes)),
    Echo.etWork.serve Echo.etWork.zeros events = some out ∧ Echo.stream 0 out = ascii "HI" := by
  obtain ⟨events, hr⟩ := run_hiServed
  obtain ⟨out, hout, hall⟩ := all_echoed .etWork2 Echo.etWork rfl hr
  obtain ⟨hs, -⟩ := hall blocked_hiServed 0 _ rfl rfl (by decide +kernel)
  exact ⟨events, out, hout, hs.trans (by decide +kernel)⟩

end EtWork
