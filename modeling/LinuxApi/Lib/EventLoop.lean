import LinuxApi.Lib.CString
import LinuxApi.Lib.Threads
import LinuxApi.Lib.Transition

/-!
# Event loops

A process accepts connections and reads them in a loop around `epoll_wait`, one call of `accept` or
`recv` a step. Connections are made, bytes arrive and streams end at any time in between. The
listening descriptor is edge-triggered; the connections are, or are level-triggered, as the `Loop`
says, and the `Loop` also says what is done after a `recv`. A stream ends by a shutdown of the
sending side, so that what is written to the peer does not matter.

A loop is `Complete` if, edge-triggered, it goes on reading until there is nothing left, and closes at
the end of a stream. Then no byte and no end is forgotten (`Complete.served_of_blocked`), `exit` is
never reached (`Complete.not_exited`), and when nothing arrives any more everything gets
served (`Complete.must_serve`).
-/

set_option autoImplicit false

namespace EventLoop

open CLib

/-! ## The model -/

/-- A connection: what the peer has `sent` in all, what the loop has `got` of it and what is waiting;
`fin` says that the stream ends there. -/
structure Conn where
  sent : Bytes
  got : Bytes
  inbox : Bytes
  fin : Bool
  accepted : Bool
  report : Bool
  closes : Nat
deriving DecidableEq, Repr

def Conn.new : Conn := ⟨[], [], [], false, false, false, 0⟩

/-- The process has a descriptor for the connection. -/
def Conn.held (c : Conn) : Bool := c.accepted && c.closes == 0

/-- `recv` would not return -1. -/
def Conn.readable (c : Conn) : Bool := !c.inbox.isEmpty || c.fin

/-- What `recv` reports. -/
inductive Result
  | data (chunk : Bytes)
  | eof
  | again
  | badf
deriving DecidableEq, Repr

/-- What is done after a `recv`: whether the descriptor is closed, whether `recv` is called again, and
whether the process exits. -/
structure Next where
  close : Bool
  more : Bool
  exit : Bool
deriving DecidableEq, Repr

structure Loop where
  et : Bool
  size : Nat
  maxEvents : Nat
  next : Result → Next

/-- An event is the index of a connection, or `none` for the listening descriptor. -/
inductive Pc
  | wait
  | handle (events : List (Option Nat))
  | recv (k : Nat) (rest : List (Option Nat))
  | exited
deriving DecidableEq, Repr

/-- The connections, those that wait for `accept`, whether there is a report of the listening
descriptor, and the process. -/
structure State where
  conns : List Conn
  backlog : List Nat
  report : Bool
  pc : Pc
deriving DecidableEq, Repr

def init : State := ⟨[], [], false, .wait⟩

/-- A call of `recv`, and the connection after it. -/
def Conn.recv (size : Nat) (c : Conn) : Result × Conn :=
  if c.closes = 0 then
    if c.inbox = [] then (if c.fin then .eof else .again, c)
    else
      (.data (c.inbox.take size),
        { c with got := c.got ++ c.inbox.take size, inbox := c.inbox.drop size })
  else (.badf, c)

/-- `close`, if the loop does it. -/
def Conn.closeIf (c : Conn) (b : Bool) : Conn := { c with closes := c.closes + b.toNat }

section
variable (L : Loop)

/-- `epoll_wait` may return the event. -/
def State.reported (s : State) : Option Nat → Bool
  | none => s.report && !s.backlog.isEmpty
  | some k => (s.conns[k]?).any fun c => c.held && c.readable && (!L.et || c.report)

/-- `accept` and the registration of the connection, if there is one. -/
def accept (s : State) (rest : List (Option Nat)) : State :=
  match s.backlog with
  | k :: backlog =>
    { s with
      backlog
      conns := s.conns.modify k fun c => { c with accepted := true, report := c.readable }
      pc := .handle rest }
  | [] => { s with pc := .handle rest }

/-- A connection after `recv` and what is done then. -/
def Loop.read (c : Conn) : Conn := (c.recv L.size).2.closeIf (L.next (c.recv L.size).1).close

/-- Where a `recv` leads. -/
def Next.pc (n : Next) (k : Nat) (rest : List (Option Nat)) : Pc :=
  if n.exit then .exited else if n.more then .recv k rest else .handle rest

/-- The next call of the loop; `epoll_wait` is a step of its own. -/
def stepLoop (s : State) : Option State :=
  match s.pc with
  | .wait | .exited => none
  | .handle [] => some { s with pc := .wait }
  | .handle (none :: rest) => some (accept s rest)
  | .handle (some k :: rest) => some { s with pc := .recv k rest }
  | .recv k rest =>
    (s.conns[k]?).map fun c =>
      { s with conns := s.conns.modify k L.read, pc := (L.next (c.recv L.size).1).pc k rest }

inductive Act
  | connect
  | send (k : Nat) (bytes : Bytes)
  | finish (k : Nat)
  | wait (events : List (Option Nat))
  | next
deriving DecidableEq, Repr

/-- The steps of the process. -/
def Act.isLoop : Act → Bool
  | .wait _ | .next => true
  | _ => false

/-- Something happens at the peer's end of a stream that has not ended. -/
def State.peer (s : State) (k : Nat) (f : Conn → Conn) : Option State :=
  if (s.conns[k]?).any (fun c => !c.fin) then some { s with conns := s.conns.modify k f } else none

def Conn.arrive (c : Conn) (bytes : Bytes) : Conn :=
  { c with
    sent := c.sent ++ bytes
    inbox := c.inbox ++ bytes
    report := c.report || (c.held && !bytes.isEmpty) }

def Conn.finish (c : Conn) : Conn := { c with fin := true, report := c.report || c.held }

/-- The report of an event is taken. -/
def Conn.take (c : Conn) (b : Bool) : Conn := { c with report := c.report && !b }

def step (s : State) : Act → Option State
  | .connect =>
    some { s with
           conns := s.conns ++ [.new]
           backlog := s.backlog ++ [s.conns.length]
           report := true }
  | .send k bytes => s.peer k (·.arrive bytes)
  | .finish k => s.peer k .finish
  | .wait events =>
    if s.pc = .wait ∧ events ≠ [] ∧ events.length ≤ L.maxEvents ∧ events.Nodup ∧
        ∀ e ∈ events, s.reported L e = true then
      some { s with
             conns := s.conns.mapIdx fun k c => c.take (events.contains (some k))
             report := s.report && !events.contains none
             pc := .handle events }
    else none
  | .next => stepLoop L s

/-- The process is in `epoll_wait`, and nothing is reported. -/
def Blocked (s : State) : Prop := s.pc = .wait ∧ ∀ e, s.reported L e = false

/-- All that was sent on the accepted connections has been read, and of these exactly the ones that
have ended are closed. -/
def Served (s : State) : Prop :=
  ∀ (k : Nat) (c : Conn), s.conns[k]? = some c → c.accepted = true →
    c.got = c.sent ∧ (c.closes ≠ 0 ↔ c.fin = true)

/-- What a loop has to do after a `recv`. -/
structure Loop.Complete : Prop where
  size : 0 < L.size
  maxEvents : 0 < L.maxEvents
  data : ∀ chunk, L.next (.data chunk) = ⟨false, L.et, false⟩
  eof : (L.next .eof).close = true ∧ (L.next .eof).exit = false
  once : L.et = false → (L.next .eof).more = false
  again : L.et = true → L.next .again = ⟨false, false, false⟩
  badf : L.et = true → (L.next .badf).more = false ∧ (L.next .badf).exit = false

end

/-! ## Small facts -/

section
variable {L : Loop} {c : Conn} {k : Nat} {rest : List (Option Nat)}

theorem Conn.held_iff : c.held = true ↔ c.accepted = true ∧ c.closes = 0 := by
  simp [Conn.held]

theorem Conn.readable_iff : c.readable = true ↔ c.inbox ≠ [] ∨ c.fin = true := by
  simp [Conn.readable]

@[simp] theorem Conn.closeIf_false : c.closeIf false = c := rfl

theorem Conn.recv_data (h : c.closes = 0) (hi : c.inbox ≠ []) (size : Nat) : c.recv size =
    (.data (c.inbox.take size),
      { c with got := c.got ++ c.inbox.take size, inbox := c.inbox.drop size }) := by
  rw [Conn.recv, if_pos h, if_neg hi]

theorem Conn.recv_eof (h : c.closes = 0) (hi : c.inbox = []) (hf : c.fin = true) (size : Nat) :
    c.recv size = (.eof, c) := by
  rw [Conn.recv, if_pos h, if_pos hi, if_pos hf]

theorem Conn.recv_again (h : c.closes = 0) (hi : c.inbox = []) (hf : c.fin = false) (size : Nat) :
    c.recv size = (.again, c) := by
  rw [Conn.recv, if_pos h, if_pos hi, hf, if_neg Bool.false_ne_true]

theorem Conn.recv_badf (h : c.closes ≠ 0) (size : Nat) : c.recv size = (.badf, c) := by
  rw [Conn.recv, if_neg h]

end

/-! ## The invariant -/

/-- The events that are still to be handled. -/
def Pc.rest : Pc → List (Option Nat)
  | .handle events => events
  | .recv _ rest => rest
  | .wait | .exited => []

/-- These, and the one that is being handled. -/
def Pc.todo : Pc → List (Option Nat)
  | .handle events => events
  | .recv k rest => some k :: rest
  | .wait | .exited => []

/-- What holds of connection `k` when the events `todo` are not over. -/
structure Conn.Ok (L : Loop) (todo : List (Option Nat)) (k : Nat) (c : Conn) : Prop where
  bytes : c.got ++ c.inbox = c.sent
  fresh : c.accepted = false → c.closes = 0
  closed : c.closes ≠ 0 → c.inbox = [] ∧ c.fin = true
  seen : c.held = true → c.readable = true → L.et = true → c.report = true ∨ some k ∈ todo

/-- The connection that is being read: it has something to read if it is level-triggered. -/
def Conn.Reading (L : Loop) (c : Conn) : Prop :=
  c.accepted = true ∧ (L.et = false → c.held = true ∧ c.readable = true)

structure Inv (L : Loop) (s : State) : Prop where
  conns : ∀ (k : Nat) (c : Conn), s.conns[k]? = some c → c.Ok L s.pc.todo k
  events : ∀ k : Nat, some k ∈ s.pc.rest →
    ∃ c, s.conns[k]? = some c ∧ c.held = true ∧ c.readable = true
  reading : ∀ k rest, s.pc = .recv k rest → ∃ c, s.conns[k]? = some c ∧ c.Reading L
  nodup : s.pc.todo.Nodup
  listen : none ∈ s.pc.rest → s.backlog ≠ []
  backlog : ∀ k ∈ s.backlog, ∃ c, s.conns[k]? = some c ∧ c.accepted = false
  waiting : s.backlog.Nodup
  running : s.pc ≠ .exited

theorem inv_init (L : Loop) : Inv L init where
  conns k c h := by simp [init] at h
  events k h := by simp [init, Pc.rest] at h
  reading k rest h := by cases h
  nodup := List.nodup_nil
  listen h := by simp [init, Pc.rest] at h
  backlog k h := by simp [init] at h
  waiting := List.nodup_nil
  running h := by cases h

section
variable {L : Loop} {s s' : State}

/-- The invariant after each connection has been changed by `g`. -/
theorem Inv.update (g : Nat → Conn → Conn)
    (hc : ∀ j : Nat, s'.conns[j]? = (s.conns[j]?).map (g j))
    (hok : ∀ j c, s.conns[j]? = some c → (g j c).Ok L s'.pc.todo j)
    (hev : ∀ k : Nat, some k ∈ s'.pc.rest →
      ∃ c, s.conns[k]? = some c ∧ (g k c).held = true ∧ (g k c).readable = true)
    (hre : ∀ k rest, s'.pc = .recv k rest → ∃ c, s.conns[k]? = some c ∧ (g k c).Reading L)
    (hn : s'.pc.todo.Nodup) (hl : none ∈ s'.pc.rest → s'.backlog ≠ [])
    (hb : ∀ k ∈ s'.backlog, ∃ c, s.conns[k]? = some c ∧ (g k c).accepted = false)
    (hw : s'.backlog.Nodup) (hr : s'.pc ≠ .exited) : Inv L s' where
  conns k c h := by
    rw [hc] at h
    obtain ⟨c₀, h0, rfl⟩ := Option.map_eq_some_iff.1 h
    exact hok k c₀ h0
  events k h := by
    obtain ⟨c, h0, hh⟩ := hev k h
    exact ⟨g k c, by rw [hc, h0]; rfl, hh⟩
  reading k rest h := by
    obtain ⟨c, h0, hh⟩ := hre k rest h
    exact ⟨g k c, by rw [hc, h0]; rfl, hh⟩
  nodup := hn
  listen := hl
  backlog k h := by
    obtain ⟨c, h0, hh⟩ := hb k h
    exact ⟨g k c, by rw [hc, h0]; rfl, hh⟩
  waiting := hw
  running := hr

theorem getElem?_modify' (l : List Conn) (k : Nat) (f : Conn → Conn) (j : Nat) :
    (l.modify k f)[j]? = (l[j]?).map fun c => if k = j then f c else c := by
  rw [List.getElem?_modify]
  rfl

/-! ## The peers -/

/-- What a peer can do to a connection that has not ended. -/
structure Peer (f : Conn → Conn) : Prop where
  accepted : ∀ c, (f c).accepted = c.accepted
  closes : ∀ c, (f c).closes = c.closes
  readable : ∀ c, c.readable = true → (f c).readable = true
  ok : ∀ (L : Loop) todo k (c : Conn), c.fin = false → c.Ok L todo k → (f c).Ok L todo k

theorem Peer.held {f : Conn → Conn} (hf : Peer f) (c : Conn) : (f c).held = c.held := by
  rw [Conn.held, hf.accepted, hf.closes, Conn.held]

theorem peer_arrive (bytes : Bytes) : Peer (·.arrive bytes) where
  accepted _ := rfl
  closes _ := rfl
  readable c h := by
    rw [Conn.readable_iff] at h ⊢
    exact h.imp_left fun hi => List.append_ne_nil_of_left_ne_nil hi bytes
  ok L todo k c hf h := by
    refine ⟨?_, h.fresh, ?_, ?_⟩
    · simp only [Conn.arrive]
      rw [← h.bytes, List.append_assoc]
    · intro hc
      rw [(h.closed hc).2] at hf
      cases hf
    · intro hh hr he
      by_cases hb : bytes = []
      · subst hb
        have hr' : c.readable = true := by simpa [Conn.readable, Conn.arrive] using hr
        refine (h.seen hh hr' he).imp_left fun hrep => ?_
        simp [Conn.arrive, hrep]
      · have hh' : c.held = true := hh
        exact .inl (by simp [Conn.arrive, hh', hb])

theorem peer_finish : Peer Conn.finish where
  accepted _ := rfl
  closes _ := rfl
  readable c _ := by simp [Conn.readable, Conn.finish]
  ok L todo k c _ h := by
    refine ⟨h.bytes, h.fresh, fun hc => ⟨(h.closed hc).1, rfl⟩, ?_⟩
    intro hh _ _
    have hh' : c.held = true := hh
    exact .inl (by simp [Conn.finish, hh'])

theorem Inv.peer (h : Inv L s) {f : Conn → Conn} (hf : Peer f) {k : Nat}
    (hst : s.peer k f = some s') : Inv L s' := by
  unfold State.peer at hst
  split at hst
  · rename_i hfin
    cases hst
    apply Inv.update (s := s) (fun j c => if k = j then f c else c)
    · exact getElem?_modify' s.conns k f
    · intro j c hj
      split
      · rename_i hkj
        rw [hkj, hj] at hfin
        exact hf.ok L _ j c (by simpa using hfin) (h.conns j c hj)
      · exact h.conns j c hj
    · intro j hj
      obtain ⟨c, hc, hh, hr⟩ := h.events j hj
      refine ⟨c, hc, ?_⟩
      split
      · exact ⟨by rw [hf.held, hh], hf.readable c hr⟩
      · exact ⟨hh, hr⟩
    · intro j rest hj
      obtain ⟨c, hc, ha, hl⟩ := h.reading j rest hj
      refine ⟨c, hc, ?_⟩
      split
      · refine ⟨by rw [hf.accepted, ha], fun he => ?_⟩
        exact ⟨by rw [hf.held, (hl he).1], hf.readable c (hl he).2⟩
      · exact ⟨ha, hl⟩
    · exact h.nodup
    · exact h.listen
    · intro j hj
      obtain ⟨c, hc, ha⟩ := h.backlog j hj
      refine ⟨c, hc, ?_⟩
      split
      · rw [hf.accepted, ha]
      · exact ha
    · exact h.waiting
    · exact h.running
  · cases hst

theorem Inv.connect (h : Inv L s) : Inv L
    { s with conns := s.conns ++ [.new], backlog := s.backlog ++ [s.conns.length], report := true } := by
  have hold : ∀ {k : Nat} {c : Conn}, s.conns[k]? = some c →
      (s.conns ++ [.new])[k]? = some c := by
    intro k c hk
    rw [List.getElem?_append_left (List.getElem?_eq_some_iff.1 hk).1, hk]
  refine ⟨?_, ?_, ?_, h.nodup, ?_, ?_, ?_, h.running⟩
  · intro k c hk
    rcases Nat.lt_or_ge k s.conns.length with hlt | hge
    · rw [List.getElem?_append_left hlt] at hk
      exact h.conns k c hk
    · rw [List.getElem?_append_right hge] at hk
      obtain rfl := List.mem_singleton.1 (List.mem_of_getElem? hk)
      exact ⟨rfl, fun _ => rfl, fun hc => absurd rfl hc, fun hh => by cases hh⟩
  · intro k hk
    obtain ⟨c, hc, hh⟩ := h.events k hk
    exact ⟨c, hold hc, hh⟩
  · intro k rest hk
    obtain ⟨c, hc, hh⟩ := h.reading k rest hk
    exact ⟨c, hold hc, hh⟩
  · intro _
    simp
  · intro k hk
    rcases List.mem_append.1 hk with hk | hk
    · obtain ⟨c, hc, ha⟩ := h.backlog k hk
      exact ⟨c, hold hc, ha⟩
    · rw [List.mem_singleton.1 hk]
      exact ⟨.new, by simp, rfl⟩
  · refine List.nodup_append.2 ⟨h.waiting, by simp, ?_⟩
    intro k hk j hj
    rw [List.mem_singleton.1 hj]
    obtain ⟨c, hc, -⟩ := h.backlog k hk
    exact (List.getElem?_eq_some_iff.1 hc).1.ne

/-! ## The loop -/

/-- A step that changes no connection. -/
theorem Inv.goto (h : Inv L s) {pc : Pc} (ht : pc.todo = s.pc.todo)
    (hre : ∀ k rest, pc = .recv k rest → ∃ c, s.conns[k]? = some c ∧ c.Reading L)
    (hrest : ∀ e ∈ pc.rest, e ∈ s.pc.rest) (hr : pc ≠ .exited) : Inv L { s with pc } where
  conns k c hk := by
    rw [ht]
    exact h.conns k c hk
  events k hk := h.events k (hrest _ hk)
  reading := hre
  nodup := by
    rw [ht]
    exact h.nodup
  listen hn := h.listen (hrest _ hn)
  backlog := h.backlog
  waiting := h.waiting
  running := hr

theorem Inv.wait (h : Inv L s) {events : List (Option Nat)} (hpc : s.pc = .wait)
    (hn : events.Nodup) (hr : ∀ e ∈ events, s.reported L e = true) : Inv L
    { s with
      conns := s.conns.mapIdx fun k c => c.take (events.contains (some k))
      report := s.report && !events.contains none
      pc := .handle events } := by
  apply Inv.update (s := s) fun k c => c.take (events.contains (some k))
  · intro j
    exact List.getElem?_mapIdx
  · intro k c hk
    have hok := h.conns k c hk
    refine ⟨hok.bytes, hok.fresh, hok.closed, fun hh hrd he => ?_⟩
    have hseen := hok.seen hh hrd he
    rw [hpc] at hseen
    by_cases hm : some k ∈ events
    · exact .inr hm
    · left
      simpa [Conn.take, hm, Pc.todo] using hseen
  · intro k hk
    have hrep := hr _ hk
    simp only [State.reported, Option.any_eq_true, Bool.and_eq_true] at hrep
    obtain ⟨c, hc, ⟨hh, hrd⟩, -⟩ := hrep
    exact ⟨c, hc, hh, hrd⟩
  · intro k rest hk
    cases hk
  · exact hn
  · intro hl
    have hrep := hr _ hl
    simp only [State.reported, Bool.and_eq_true] at hrep
    simpa using hrep.2
  · exact h.backlog
  · exact h.waiting
  · exact fun he => by cases he

theorem Conn.Ok.tail {c : Conn} {k j : Nat} {rest : List (Option Nat)}
    (h : c.Ok L (some k :: rest) j) (hne : k ≠ j) : c.Ok L rest j where
  bytes := h.bytes
  fresh := h.fresh
  closed := h.closed
  seen hh hr he := (h.seen hh hr he).imp_right fun hm => by
    rcases List.mem_cons.1 hm with he | hm
    · exact absurd (Option.some.inj he).symm hne
    · exact hm

theorem Inv.accept (h : Inv L s) {rest : List (Option Nat)} (hpc : s.pc = .handle (none :: rest)) :
    Inv L (accept s rest) := by
  have hrest : ∀ {e}, e ∈ rest → e ∈ s.pc.rest := by
    intro e he
    rw [hpc]
    exact List.mem_cons_of_mem _ he
  have hnd : none ∉ rest ∧ rest.Nodup := by
    have := h.nodup
    rw [hpc] at this
    exact List.nodup_cons.1 this
  have htail : ∀ {c : Conn} {j : Nat}, c.Ok L s.pc.todo j → c.Ok L rest j := by
    intro c j hc
    refine ⟨hc.bytes, hc.fresh, hc.closed, fun hh hr he => ?_⟩
    have := hc.seen hh hr he
    rw [hpc] at this
    simpa [Pc.todo] using this
  unfold EventLoop.accept
  split
  · rename_i k backlog hb
    obtain ⟨ck, hck, hak⟩ := h.backlog k (by rw [hb]; exact List.mem_cons_self)
    have hw := h.waiting
    rw [hb] at hw
    apply Inv.update (s := s) (fun j c =>
      if k = j then { c with accepted := true, report := c.readable } else c)
    · exact getElem?_modify' s.conns k _
    · intro j c hj
      have hok := h.conns j c hj
      split
      · rename_i hkj
        obtain rfl : ck = c := by
          rw [← hkj, hck] at hj
          exact Option.some.inj hj
        exact ⟨hok.bytes, fun ha => (by cases ha), hok.closed, fun _ hr _ => .inl hr⟩
      · exact htail hok
    · intro j hj
      obtain ⟨c, hc, hh, hr⟩ := h.events j (hrest hj)
      have hne : k ≠ j := by
        rintro rfl
        rw [hck] at hc
        cases hc
        rw [Conn.held_iff, hak] at hh
        cases hh.1
      exact ⟨c, hc, by rw [if_neg hne]; exact ⟨hh, hr⟩⟩
    · intro j rest' hj
      cases hj
    · exact hnd.2
    · intro hn
      exact absurd hn hnd.1
    · intro j hj
      obtain ⟨c, hc, ha⟩ := h.backlog j (by rw [hb]; exact List.mem_cons_of_mem _ hj)
      have hne : k ≠ j := by
        rintro rfl
        exact (List.nodup_cons.1 hw).1 hj
      exact ⟨c, hc, by rw [if_neg hne]; exact ha⟩
    · exact (List.nodup_cons.1 hw).2
    · exact fun he => by cases he
  · rename_i hb
    exact absurd hb (h.listen (by rw [hpc]; exact List.mem_cons_self))

/-- After a `recv` on connection `k`, which is now `f c`. -/
theorem Inv.received (h : Inv L s) {k : Nat} {rest : List (Option Nat)} (hpc : s.pc = .recv k rest)
    {c : Conn} (hk : s.conns[k]? = some c) {f : Conn → Conn} {pc : Pc}
    (hto : pc = .handle rest ∨ pc = .recv k rest ∧ (f c).Reading L)
    (hok : (f c).Ok L pc.todo k) : Inv L { s with conns := s.conns.modify k f, pc } := by
  have hnd : some k ∉ rest ∧ rest.Nodup := by
    have := h.nodup
    rw [hpc] at this
    exact List.nodup_cons.1 this
  obtain ⟨ck, hck, hacc, -⟩ := h.reading k rest hpc
  obtain rfl : ck = c := Option.some.inj (hck.symm.trans hk)
  have hrest : pc.rest = rest := by
    rcases hto with rfl | ⟨rfl, -⟩ <;> rfl
  apply Inv.update (s := s) (fun j c => if k = j then f c else c)
  · exact getElem?_modify' s.conns k f
  · intro j c' hj
    split
    · rename_i hkj
      subst hkj
      obtain rfl : ck = c' := Option.some.inj (hk.symm.trans hj)
      exact hok
    · rename_i hkj
      have hold := h.conns j c' hj
      rw [hpc] at hold
      rcases hto with rfl | ⟨rfl, -⟩
      · exact Conn.Ok.tail hold hkj
      · exact hold
  · intro j hj
    simp only [hrest] at hj
    obtain ⟨c', hc', hh⟩ := h.events j (by rw [hpc]; exact hj)
    have hne : k ≠ j := by
      rintro rfl
      exact hnd.1 hj
    exact ⟨c', hc', by rw [if_neg hne]; exact hh⟩
  · intro j rest' hj
    rcases hto with rfl | ⟨rfl, hr⟩
    · cases hj
    · cases hj
      exact ⟨ck, hk, by rw [if_pos rfl]; exact hr⟩
  · rcases hto with rfl | ⟨rfl, -⟩
    · exact hnd.2
    · exact List.nodup_cons.2 hnd
  · intro hn
    simp only [hrest] at hn
    exact h.listen (by rw [hpc]; exact hn)
  · intro j hj
    obtain ⟨c', hc', ha⟩ := h.backlog j hj
    have hne : k ≠ j := by
      rintro rfl
      rw [hk] at hc'
      cases hc'
      rw [hacc] at ha
      cases ha
    exact ⟨c', hc', by rw [if_neg hne]; exact ha⟩
  · exact h.waiting
  · rcases hto with rfl | ⟨rfl, -⟩ <;> exact fun he => by cases he

/-- What a `recv` of a complete loop does to the connection, and where it leads. -/
inductive Read (L : Loop) (c : Conn) (k : Nat) (rest : List (Option Nat)) : Conn → Pc → Prop
  | data : c.closes = 0 → c.inbox ≠ [] → Read L c k rest
      { c with got := c.got ++ c.inbox.take L.size, inbox := c.inbox.drop L.size }
      (if L.et then .recv k rest else .handle rest)
  | eof {pc : Pc} : c.closes = 0 → c.inbox = [] → c.fin = true →
      (pc = .handle rest ∨ pc = .recv k rest ∧ L.et = true) →
      Read L c k rest { c with closes := 1 } pc
  | again : c.closes = 0 → c.inbox = [] → c.fin = false → Read L c k rest c (.handle rest)
  | badf (b : Bool) : c.closes ≠ 0 → Read L c k rest (c.closeIf b) (.handle rest)

theorem Loop.Complete.read (hL : L.Complete) {c : Conn} (hr : c.Reading L) (k : Nat)
    (rest : List (Option Nat)) :
    Read L c k rest (L.read c) ((L.next (c.recv L.size).1).pc k rest) := by
  unfold Loop.read
  by_cases hc : c.closes = 0
  · by_cases hi : c.inbox = []
    · cases hf : c.fin with
      | true =>
        rw [Conn.recv_eof hc hi hf]
        have hclose : c.closeIf (L.next .eof).close = { c with closes := 1 } := by
          rw [Conn.closeIf, hL.eof.1, hc]
          rfl
        rw [hclose]
        apply Read.eof hc hi hf
        rw [Next.pc, hL.eof.2, if_neg Bool.false_ne_true]
        cases hm : (L.next .eof).more with
        | true =>
          refine .inr ⟨rfl, ?_⟩
          cases he : L.et with
          | true => rfl
          | false =>
            rw [hL.once he] at hm
            cases hm
        | false => exact .inl rfl
      | false =>
        -- a level-triggered connection is read only if there is something
        have het : L.et = true := by
          cases he : L.et with
          | true => rfl
          | false =>
            have := (hr.2 he).2
            rw [Conn.readable_iff] at this
            simp [hi, hf] at this
        rw [Conn.recv_again hc hi hf, hL.again het]
        exact .again hc hi hf
    · rw [Conn.recv_data hc hi, hL.data]
      exact .data hc hi
  · have het : L.et = true := by
      cases he : L.et with
      | true => rfl
      | false => exact absurd (Conn.held_iff.1 (hr.2 he).1).2 hc
    rw [Conn.recv_badf hc]
    have hpc : (L.next .badf).pc k rest = .handle rest := by
      rw [Next.pc, (hL.badf het).1, (hL.badf het).2]
      rfl
    rw [hpc]
    exact .badf _ hc

theorem Inv.recv (h : Inv L s) {k : Nat} {rest : List (Option Nat)} (hpc : s.pc = .recv k rest)
    {c : Conn} (hk : s.conns[k]? = some c) {f : Conn → Conn} {pc : Pc}
    (hr : Read L c k rest (f c) pc) : Inv L { s with conns := s.conns.modify k f, pc } := by
  have hok := h.conns k c hk
  rw [hpc] at hok
  have hacc : c.accepted = true := by
    obtain ⟨c', hc', ha, -⟩ := h.reading k rest hpc
    obtain rfl : c' = c := Option.some.inj (hc'.symm.trans hk)
    exact ha
  have hgot : c.got ++ c.inbox.take L.size ++ c.inbox.drop L.size = c.sent := by
    rw [List.append_assoc, List.take_append_drop, hok.bytes]
  generalize hc' : f c = c' at hr
  cases hr with
  | data h0 hi =>
    cases he : L.et with
    | true =>
      apply h.received hpc hk
      · exact .inr ⟨rfl, by rw [hc']; exact ⟨hacc, fun hf => by rw [he] at hf; cases hf⟩⟩
      · rw [hc']
        exact ⟨hgot, fun _ => h0, fun hn => absurd h0 hn, fun _ _ _ => .inr List.mem_cons_self⟩
    | false =>
      apply h.received hpc hk (.inl rfl)
      rw [hc']
      exact ⟨hgot, fun _ => h0, fun hn => absurd h0 hn, fun _ _ ht => by rw [he] at ht; cases ht⟩
  | eof h0 hi hf hto =>
    apply h.received hpc hk
    · rcases hto with rfl | ⟨rfl, he⟩
      · exact .inl rfl
      · exact .inr ⟨rfl, by rw [hc']; exact ⟨hacc, fun ht => by rw [he] at ht; cases ht⟩⟩
    · rw [hc']
      refine ⟨hok.bytes, fun ha => ?_, fun _ => ⟨hi, hf⟩, fun hh => ?_⟩
      · rw [hacc] at ha
        cases ha
      · cases (Conn.held_iff.1 hh).2
  | again h0 hi hf =>
    apply h.received hpc hk (.inl rfl)
    rw [hc']
    refine ⟨hok.bytes, hok.fresh, hok.closed, fun _ hr => ?_⟩
    rw [Conn.readable_iff] at hr
    simp [hi, hf] at hr
  | badf b h0 =>
    apply h.received hpc hk (.inl rfl)
    rw [hc']
    refine ⟨hok.bytes, fun ha => ?_, fun _ => hok.closed h0, fun hh => ?_⟩
    · rw [show c.accepted = false from ha] at hacc
      cases hacc
    · have h1 : c.closes + b.toNat = 0 := (Conn.held_iff.1 hh).2
      omega

/-- A step of the process, apart from `epoll_wait`. -/
theorem Inv.stepLoop (hL : L.Complete) (h : Inv L s) (hst : stepLoop L s = some s') : Inv L s' := by
  unfold EventLoop.stepLoop at hst
  split at hst
  · cases hst
  · cases hst
  · rename_i hpc
    cases hst
    apply h.goto
    · rw [hpc]
      rfl
    · exact fun k rest he => by cases he
    · exact fun e he => by cases he
    · exact fun he => by cases he
  · rename_i rest hpc
    cases hst
    exact h.accept hpc
  · rename_i k rest hpc
    cases hst
    have hev : ∀ e ∈ rest, e ∈ s.pc.rest := by
      intro e he
      rw [hpc]
      exact List.mem_cons_of_mem _ he
    apply h.goto
    · rw [hpc]
      rfl
    · intro j rest' he
      cases he
      obtain ⟨c, hc, hh, hr⟩ := h.events k (by rw [hpc]; exact List.mem_cons_self)
      exact ⟨c, hc, (Conn.held_iff.1 hh).1, fun _ => ⟨hh, hr⟩⟩
    · exact hev
    · exact fun he => by cases he
  · rename_i k rest hpc
    obtain ⟨c, hk, rfl⟩ := Option.map_eq_some_iff.1 hst
    obtain ⟨c', hc', hr⟩ := h.reading k rest hpc
    obtain rfl : c' = c := Option.some.inj (hc'.symm.trans hk)
    exact h.recv hpc hk (hL.read hr k rest)

theorem Inv.step (hL : L.Complete) (h : Inv L s) {a : Act} (hst : step L s a = some s') :
    Inv L s' := by
  cases a with
  | connect =>
    cases hst
    exact h.connect
  | send k bytes => exact h.peer (peer_arrive bytes) hst
  | finish k => exact h.peer peer_finish hst
  | wait events =>
    simp only [EventLoop.step] at hst
    split at hst
    · rename_i hg
      cases hst
      exact h.wait hg.1 hg.2.2.2.1 hg.2.2.2.2
    · cases hst
  | next => exact h.stepLoop hL hst

theorem inv_of_run (hL : L.Complete) {ok : State → Act → Prop}
    (h : Lts.Run (EventLoop.step L) ok init s) : Inv L s := by
  apply h.inv (inv_init L)
  intro s a s' hi _ hst
  exact hi.step hL hst

/-! ## Nothing is forgotten -/

theorem Inv.served (h : Inv L s) (hb : Blocked L s) : Served s := by
  intro k c hk hacc
  have hok := h.conns k c hk
  by_cases hc : c.closes = 0
  · have hh : c.held = true := Conn.held_iff.2 ⟨hacc, hc⟩
    -- what could be read would be reported
    have hr : c.readable = false := by
      by_contra hr
      rw [Bool.not_eq_false] at hr
      have hrep := hb.2 (some k)
      simp only [State.reported, hk, Option.any_some, hh, hr, Bool.true_and] at hrep
      cases he : L.et with
      | false => simp [he] at hrep
      | true =>
        have hseen := hok.seen hh hr he
        rw [hb.1] at hseen
        simp only [Pc.todo, List.not_mem_nil, or_false] at hseen
        simp [hseen] at hrep
    have hi : c.inbox = [] ∧ c.fin = false := by simpa [Conn.readable] using hr
    have hbytes := hok.bytes
    rw [hi.1, List.append_nil] at hbytes
    exact ⟨hbytes, by simp [hc, hi.2]⟩
  · have hbytes := hok.bytes
    rw [(hok.closed hc).1, List.append_nil] at hbytes
    exact ⟨hbytes, by simp [hc, (hok.closed hc).2]⟩

/-- **Nothing is forgotten**: when the process would wait for ever, it has read everything. -/
theorem Loop.Complete.served_of_blocked (hL : L.Complete) {ok : State → Act → Prop}
    (h : Lts.Run (EventLoop.step L) ok init s) (hb : Blocked L s) : Served s :=
  (inv_of_run hL h).served hb

theorem Loop.Complete.not_exited (hL : L.Complete) {ok : State → Act → Prop}
    (h : Lts.Run (EventLoop.step L) ok init s) : s.pc ≠ .exited :=
  (inv_of_run hL h).running

/-! ## Everything gets served -/

/-- What there is to do for a connection. -/
def Conn.work (c : Conn) : Nat := if c.closes = 0 then c.inbox.length + c.fin.toNat else 0

def State.work (s : State) : Nat := (s.conns.map Conn.work).sum + s.backlog.length

/-- The next event is sure to find something to do. -/
def State.credit (s : State) : Nat :=
  match s.pc with
  | .handle (_ :: _) => 1
  | .recv k _ => ((s.conns[k]?).any fun c => c.closes == 0 && c.readable).toNat
  | _ => 0

def Pc.length : Pc → Nat
  | .wait | .exited => 0
  | .handle events => 2 * events.length + 1
  | .recv _ rest => 2 * rest.length + 2

def State.measure (s : State) : Nat × Nat := (2 * s.work - s.credit, s.pc.length)

theorem work_mapIdx (l : List Conn) (f : Nat → Bool) :
    (l.mapIdx fun k c => c.take (f k)).map Conn.work = l.map Conn.work := by
  apply List.ext_getElem?
  intro k
  simp only [List.getElem?_map, List.getElem?_mapIdx, Option.map_map]
  rfl

theorem State.credit_le (s : State) : s.credit ≤ 1 := by
  unfold State.credit
  split
  · exact Nat.le_refl _
  · exact Bool.toNat_le _
  · exact Nat.zero_le _

theorem Conn.work_pos {c : Conn} (hc : c.closes = 0) (hr : c.readable = true) : 0 < c.work := by
  rw [Conn.readable_iff] at hr
  rw [Conn.work, if_pos hc]
  rcases hr with hi | hf
  · have := List.length_pos_iff.2 hi
    omega
  · simp [hf]

/-- Smaller in the lexicographic order. -/
abbrev Less : Nat × Nat → Nat × Nat → Prop := Prod.Lex (· < ·) (· < ·)

theorem less_wf : WellFounded Less := (Prod.lex Nat.lt_wfRel Nat.lt_wfRel).wf

/-- Something was done. -/
theorem less_of_work (h : s'.work + 1 ≤ s.work) : Less s'.measure s.measure := by
  have := s.credit_le
  exact .left _ _ (by omega)

/-- Nothing was lost, and the events get fewer. -/
theorem less_of_length (hw : s'.work = s.work) (hc : s.credit ≤ s'.credit)
    (hl : s'.pc.length < s.pc.length) : Less s'.measure s.measure := by
  have hle : 2 * s'.work - s'.credit ≤ 2 * s.work - s.credit := by omega
  exact Prod.Lex.right' _ hle hl

/-- What there is to do for one connection is part of what there is to do. -/
theorem State.work_ge {k : Nat} {c : Conn} (h : s.conns[k]? = some c) : c.work ≤ s.work := by
  have := Threads.sum_modify_add Conn.work (fun c => { c with closes := 1 }) h
  have h0 : ({ c with closes := 1 } : Conn).work = 0 := rfl
  unfold State.work
  omega

theorem less_wait {events : List (Option Nat)} (hpc : s.pc = .wait)
    (hne : events ≠ []) (hr : ∀ e ∈ events, s.reported L e = true) : Less
      (State.measure
        { s with
          conns := s.conns.mapIdx fun k c => c.take (events.contains (some k))
          report := s.report && !events.contains none
          pc := .handle events }) s.measure := by
  obtain ⟨e, rest, rfl⟩ := List.exists_cons_of_ne_nil hne
  have hpos : 0 < s.work := by
    have hrep := hr e List.mem_cons_self
    cases e with
    | none =>
      simp only [State.reported, Bool.and_eq_true] at hrep
      have hb : s.backlog ≠ [] := by simpa using hrep.2
      have := List.length_pos_iff.2 hb
      unfold State.work
      omega
    | some k =>
      simp only [State.reported, Option.any_eq_true, Bool.and_eq_true] at hrep
      obtain ⟨c, hc, ⟨hh, hrd⟩, -⟩ := hrep
      have := State.work_ge hc
      have := Conn.work_pos (Conn.held_iff.1 hh).2 hrd
      omega
  apply Prod.Lex.left
  have hcredit : s.credit = 0 := by rw [State.credit, hpc]
  simp only [State.work, work_mapIdx, State.credit] at *
  omega

theorem Inv.less_loop (hL : L.Complete) (h : Inv L s) (hst : EventLoop.stepLoop L s = some s') :
    Less s'.measure s.measure := by
  unfold EventLoop.stepLoop at hst
  split at hst
  · cases hst
  · cases hst
  · rename_i hpc
    cases hst
    apply less_of_length (s := s)
    · rfl
    · simp [State.credit, hpc]
    · simp [Pc.length, hpc]
  · rename_i rest hpc
    cases hst
    unfold EventLoop.accept
    split
    · rename_i k backlog hb
      obtain ⟨c, hc, -⟩ := h.backlog k (by rw [hb]; exact List.mem_cons_self)
      have hm := Threads.sum_modify_add Conn.work
        (fun c => { c with accepted := true, report := c.readable }) hc
      have h0 : ({ c with accepted := true, report := c.readable } : Conn).work = c.work := rfl
      apply less_of_work
      simp only [State.work, hb, List.length_cons]
      omega
    · rename_i hb
      exact absurd hb (h.listen (by rw [hpc]; exact List.mem_cons_self))
  · rename_i k rest hpc
    cases hst
    obtain ⟨c, hc, hh, hr⟩ := h.events k (by rw [hpc]; exact List.mem_cons_self)
    apply less_of_length (s := s)
    · rfl
    · simp [State.credit, hpc, hc, hr, (Conn.held_iff.1 hh).2]
    · simp [Pc.length, hpc]
      omega
  · rename_i k rest hpc
    obtain ⟨c, hk, rfl⟩ := Option.map_eq_some_iff.1 hst
    obtain ⟨c', hc', hrd⟩ := h.reading k rest hpc
    obtain rfl : c' = c := Option.some.inj (hc'.symm.trans hk)
    have hread := hL.read hrd k rest
    have hm := Threads.sum_modify_add Conn.work L.read hk
    generalize (L.next (c'.recv L.size).1).pc k rest = pc at hread ⊢
    generalize L.read c' = x at hread hm
    cases hread with
    | data h0 hi =>
      apply less_of_work
      have hpos := List.length_pos_iff.2 hi
      have hsize := hL.size
      simp only [State.work, Conn.work, h0, if_true, List.length_drop] at hm ⊢
      omega
    | eof h0 hi hf hto =>
      apply less_of_work
      simp only [State.work, Conn.work, h0, hi, hf, if_true, List.length_nil, Bool.toNat_true,
        Nat.one_ne_zero, if_false] at hm ⊢
      omega
    | again h0 hi hf =>
      apply less_of_length
      · simp only [State.work]
        omega
      · have h0 : s.credit = 0 := by simp [State.credit, hpc, hk, Conn.readable, hi, hf]
        omega
      · simp [Pc.length, hpc]
    | badf b h0 =>
      apply less_of_length
      · have h1 : c'.closes + b.toNat ≠ 0 := by omega
        simp only [State.work, Conn.work, Conn.closeIf, h0, h1, if_false] at hm ⊢
        omega
      · have hc0 : s.credit = 0 := by simp [State.credit, hpc, hk, h0]
        omega
      · simp [Pc.length, hpc]

/-- The process can go on, unless it is blocked. -/
theorem Inv.enabled (hL : L.Complete) (h : Inv L s) (hb : ¬ Blocked L s) :
    ∃ a s', a.isLoop = true ∧ EventLoop.step L s a = some s' := by
  cases hpc : s.pc with
  | wait =>
    obtain ⟨e, he⟩ : ∃ e, s.reported L e = true := by
      by_contra hno
      refine hb ⟨hpc, fun e => ?_⟩
      rw [← Bool.not_eq_true]
      exact fun he => hno ⟨e, he⟩
    refine ⟨.wait [e], _, rfl, if_pos ⟨hpc, List.cons_ne_nil _ _, hL.maxEvents, by simp, ?_⟩⟩
    intro e' he'
    rw [List.mem_singleton.1 he', he]
  | handle events =>
    rcases events with _ | ⟨_ | k, rest⟩
    · exact ⟨.next, { s with pc := .wait }, rfl, by simp [EventLoop.step, EventLoop.stepLoop, hpc]⟩
    · exact ⟨.next, EventLoop.accept s rest, rfl,
        by simp [EventLoop.step, EventLoop.stepLoop, hpc]⟩
    · exact ⟨.next, { s with pc := .recv k rest }, rfl,
        by simp [EventLoop.step, EventLoop.stepLoop, hpc]⟩
  | recv k rest =>
    obtain ⟨c, hc, -⟩ := h.reading k rest hpc
    obtain ⟨s', hs'⟩ : ∃ s', EventLoop.stepLoop L s = some s' := by
      rw [EventLoop.stepLoop, hpc]
      exact ⟨_, congrArg (Option.map _) hc⟩
    exact ⟨.next, s', rfl, hs'⟩
  | exited => exact absurd hpc h.running

/-- **Everything gets served**: when nothing arrives any more, the process reads everything, whichever
events it is given in whichever order, and then waits. -/
theorem Loop.Complete.must_serve (hL : L.Complete) {ok : State → Act → Prop}
    (h : Lts.Run (EventLoop.step L) ok init s) :
    Lts.Must (EventLoop.step L) (fun _ a => a.isLoop = true) (fun s => Blocked L s ∧ Served s) s := by
  apply Lts.Must.of_wf less_wf State.measure _ (inv_of_run hL h)
  intro s hi hp
  have hb : ¬ Blocked L s := fun hb => hp ⟨hb, hi.served hb⟩
  refine ⟨hi.enabled hL hb, fun a s' ha hst => ⟨hi.step hL hst, ?_⟩⟩
  cases a with
  | connect => cases ha
  | send => cases ha
  | finish => cases ha
  | wait events =>
    simp only [EventLoop.step] at hst
    split at hst
    · rename_i hg
      cases hst
      exact less_wait hg.1 hg.2.1 hg.2.2.2.2
    · cases hst
  | next => exact hi.less_loop hL hst

end

end EventLoop
