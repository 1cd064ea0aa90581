import LinuxApi.Lib.CString
import LinuxApi.Lib.Threads
import LinuxApi.Lib.Transition

/-!
# Loops around `select` and `poll`

A process accepts connections and reads them in passes: a call tells it which descriptors are ready, the
listening one among them if a connection waits, and it handles each of these once, in any order, by
one `accept` or one `read`. What is ready stays ready until it is handled (`Inv.ready`), and each of
the calls gets something done (`Step.measure_lt`); when nothing is ready any more, every connection
has been accepted and read to its end (`Inv.served`).

The descriptors are of any type; a program that keeps them in tables of its own is a `Step` at a
time, or none, on the connections and the descriptors that are still to be handled in the pass
(`must_settle`).
-/

set_option autoImplicit false

namespace LevelLoop

open CLib

inductive Status (ι : Type)
  | waiting
  | opened (fd : ι)
  | closed
deriving DecidableEq, Repr

/-- A connection: what the peer has `sent` in all, what was read of it and what is there to be read;
`fin` says that the stream ends there; and what was `written` back. -/
structure Conn (ι : Type) where
  sent : Bytes
  got : Bytes
  inbox : Bytes
  fin : Bool
  written : Bytes
  status : Status ι
deriving DecidableEq, Repr

namespace Conn

variable {ι : Type}

def new : Conn ι := ⟨[], [], [], false, [], .waiting⟩

/-- `read` would not wait. -/
def readable (c : Conn ι) : Bool := !c.inbox.isEmpty || c.fin

/-- What `read` returns, if it does; nothing at the end of the stream. -/
def read (size : Nat) (c : Conn ι) : Option Bytes :=
  if c.readable then some (c.inbox.take size) else none

/-- The connection after a `read` that is answered by `reply`, or by `close`. -/
def handled (c : Conn ι) (chunk reply : Bytes) : Conn ι :=
  if chunk = [] then { c with status := .closed }
  else
    { c with
      got := c.got ++ chunk
      inbox := c.inbox.drop chunk.length
      written := c.written ++ reply }

def accepted (c : Conn ι) (fd : ι) : Conn ι := { c with status := .opened fd }

def arrive (c : Conn ι) (bytes : Bytes) : Conn ι :=
  { c with sent := c.sent ++ bytes, inbox := c.inbox ++ bytes }

def finish (c : Conn ι) : Conn ι := { c with fin := true }

end Conn

/-- What the peers do. -/
inductive Peer
  | connect
  | send (k : Nat) (bytes : Bytes)
  | finish (k : Nat)
deriving DecidableEq, Repr

section
variable {ι : Type}

/-- Something happens at the peer's end of a stream that has not ended. -/
def stream (conns : List (Conn ι)) (k : Nat) (f : Conn ι → Conn ι) : Option (List (Conn ι)) :=
  match conns[k]? with
  | some c => if c.fin then none else some (conns.set k (f c))
  | none => none

def peer (conns : List (Conn ι)) : Peer → Option (List (Conn ι))
  | .connect => some (conns ++ [.new])
  | .send k bytes => stream conns k (·.arrive bytes)
  | .finish k => stream conns k .finish

def Conn.descriptor (c : Conn ι) : Option ι :=
  match c.status with
  | .opened fd => some fd
  | .waiting | .closed => none

/-- The descriptors of the process. -/
def opened (conns : List (Conn ι)) : List ι := conns.filterMap Conn.descriptor

def Conn.alive (c : Conn ι) : Bool :=
  match c.status with
  | .waiting | .opened _ => true
  | .closed => false

/-- How many connections there are that are not closed. -/
def alive (conns : List (Conn ι)) : Nat := conns.countP Conn.alive

theorem Conn.handled_closed (c : Conn ι) {chunk : Bytes} (h : chunk = []) (reply : Bytes) :
    (c.handled chunk reply).status = .closed := by
  rw [Conn.handled, if_pos h]

theorem Conn.handled_status (c : Conn ι) {chunk : Bytes} (h : chunk ≠ []) (reply : Bytes) :
    (c.handled chunk reply).status = c.status := by
  rw [Conn.handled, if_neg h]

theorem Conn.descriptor_eq_some {c : Conn ι} {fd : ι} :
    c.descriptor = some fd ↔ c.status = .opened fd := by
  unfold Conn.descriptor
  cases c.status with
  | opened fd' => simp
  | waiting | closed => simp

theorem mem_opened {conns : List (Conn ι)} {fd : ι} :
    fd ∈ opened conns ↔ ∃ c ∈ conns, c.status = .opened fd := by
  simp only [opened, List.mem_filterMap, Conn.descriptor_eq_some]

/-- The descriptors after one connection has changed. -/
theorem mem_opened_set {conns : List (Conn ι)} {k : Nat} {c c' : Conn ι} {fd : ι}
    (hk : conns[k]? = some c) : fd ∈ opened (conns.set k c') ↔ c'.status = .opened fd ∨
      ∃ j d, j ≠ k ∧ conns[j]? = some d ∧ d.status = .opened fd := by
  rw [mem_opened]
  constructor
  · rintro ⟨d, hd, hs⟩
    obtain ⟨j, hj⟩ := List.mem_iff_getElem?.1 hd
    rcases Threads.getElem?_set_cases hj with ⟨-, rfl⟩ | ⟨hne, hj⟩
    · exact .inl hs
    · exact .inr ⟨j, d, hne, hj, hs⟩
  · rintro (hs | ⟨j, d, hne, hj, hs⟩)
    · exact ⟨c', List.mem_of_getElem? (Threads.getElem?_set_of_some c' hk), hs⟩
    · refine ⟨d, List.mem_of_getElem? (i := j) ?_, hs⟩
      rw [List.getElem?_set_ne hne.symm, hj]

theorem mem_opened_iff {conns : List (Conn ι)} {k : Nat} {c : Conn ι} {fd : ι}
    (hk : conns[k]? = some c) : fd ∈ opened conns ↔ c.status = .opened fd ∨
      ∃ j d, j ≠ k ∧ conns[j]? = some d ∧ d.status = .opened fd := by
  have hself : conns.set k c = conns := by
    obtain ⟨hlt, rfl⟩ := List.getElem?_eq_some_iff.1 hk
    exact List.set_getElem_self hlt
  rw [← mem_opened_set hk, hself]

theorem mem_opened_of_status {conns : List (Conn ι)} {k : Nat} {c c' : Conn ι} {fd : ι}
    (hk : conns[k]? = some c) (hs : c'.status = c.status) :
    fd ∈ opened (conns.set k c') ↔ fd ∈ opened conns := by
  rw [mem_opened_set hk, mem_opened_iff hk, hs]

theorem mem_opened_accepted {conns : List (Conn ι)} {k : Nat} {c : Conn ι} {fd fd' : ι}
    (hk : conns[k]? = some c) (hw : c.status = .waiting) :
    fd ∈ opened (conns.set k (c.accepted fd')) ↔ fd = fd' ∨ fd ∈ opened conns := by
  rw [mem_opened_set hk, mem_opened_iff hk, hw]
  simp [Conn.accepted, eq_comm]

theorem alive_set_le {conns : List (Conn ι)} {k : Nat} {c c' : Conn ι} (hk : conns[k]? = some c)
    (h : c'.alive = true → c.alive = true) : alive (conns.set k c') ≤ alive conns := by
  have hcount := Threads.countP_set_add (b := c') Conn.alive hk
  unfold alive
  by_cases hc : c'.alive = true
  · rw [if_pos hc, if_pos (h hc)] at hcount
    omega
  · rw [if_neg hc] at hcount
    omega

theorem Conn.alive_of_descriptor {c : Conn ι} (h : c.descriptor.isSome = true) :
    c.alive = true := by
  unfold Conn.descriptor at h
  unfold Conn.alive
  cases hs : c.status with
  | waiting | opened => rfl
  | closed =>
    rw [hs] at h
    cases h

/-- A connection that waits has no descriptor yet. -/
theorem opened_length_lt {conns : List (Conn ι)} (h : ∃ c ∈ conns, c.status = .waiting) :
    (opened conns).length < alive conns := by
  rw [opened, List.length_filterMap_eq_countP, alive]
  induction conns with
  | nil =>
    obtain ⟨c, hc, -⟩ := h
    cases hc
  | cons c conns ih =>
    have hle : conns.countP (fun a => a.descriptor.isSome) ≤ conns.countP Conn.alive :=
      List.countP_mono_left fun _ _ => Conn.alive_of_descriptor
    rw [List.countP_cons, List.countP_cons]
    by_cases hw : c.status = .waiting
    · have hd : c.descriptor.isSome = false := by simp [Conn.descriptor, hw]
      have ha : c.alive = true := by simp [Conn.alive, hw]
      rw [if_neg (by rw [hd]; exact Bool.false_ne_true), if_pos ha]
      omega
    · obtain ⟨d, hd, hdw⟩ := h
      have hlt := ih ⟨d, (List.mem_cons.1 hd).resolve_left fun he => hw (he ▸ hdw), hdw⟩
      by_cases hc : c.descriptor.isSome = true
      · rw [if_pos hc, if_pos (Conn.alive_of_descriptor hc)]
        omega
      · rw [if_neg hc]
        omega

/-- `todo` are the descriptors that are to be handled in the pass. -/
structure State (ι : Type) where
  conns : List (Conn ι)
  todo : Finset ι

end

section
variable {ι : Type} [DecidableEq ι]

/-- The connection that `accept` or `read` is about. -/
def find (conns : List (Conn ι)) (status : Status ι) : Option Nat :=
  conns.findIdx? fun c => decide (c.status = status)

variable (lfd : ι) (size : Nat)

def ready (conns : List (Conn ι)) (fd : ι) : Bool :=
  if fd = lfd then conns.any fun c => decide (c.status = .waiting)
  else conns.any fun c => decide (c.status = .opened fd) && c.readable

/-- The calls of the process. -/
inductive Step (s : State ι) : State ι → Prop
  | wait {fds : Finset ι} : s.todo = ∅ → fds.Nonempty → (∀ fd ∈ fds, ready lfd s.conns fd = true) →
      Step s { s with todo := fds }
  | accept {fd : ι} {k : Nat} {c : Conn ι} : lfd ∈ s.todo → find s.conns .waiting = some k →
      s.conns[k]? = some c → fd ≠ lfd → (∀ d ∈ s.conns, d.status ≠ .opened fd) →
      Step s { conns := s.conns.set k (c.accepted fd), todo := s.todo.erase lfd }
  | read {fd : ι} {k : Nat} {c : Conn ι} {chunk reply : Bytes} : fd ∈ s.todo → fd ≠ lfd →
      find s.conns (.opened fd) = some k → s.conns[k]? = some c → c.read size = some chunk →
      Step s { conns := s.conns.set k (c.handled chunk reply), todo := s.todo.erase fd }

/-- The process waits, and nothing is ready. -/
def Blocked (s : State ι) : Prop := s.todo = ∅ ∧ ∀ fd, ready lfd s.conns fd = false

/-- Every connection was accepted, all that was sent on it was read, and it is closed if it has ended. -/
def Served (conns : List (Conn ι)) : Prop :=
  ∀ c ∈ conns, c.status ≠ .waiting ∧ c.got = c.sent ∧ (c.status = .closed ↔ c.fin = true)

/-- Nothing is ready, everybody is served, and text was answered by its image under `f`. -/
structure Settled (f : UInt8 → UInt8) (conns : List (Conn ι)) : Prop where
  none : ∀ fd, ready lfd conns fd = false
  served : Served conns
  written : ∀ c ∈ conns, (0 : UInt8) ∉ c.sent → c.written = c.sent.map f

/-! ## The invariant -/

structure Conn.Ok (c : Conn ι) : Prop where
  bytes : c.got ++ c.inbox = c.sent
  closed : c.status = .closed → c.inbox = [] ∧ c.fin = true
  client : c.status ≠ .opened lfd

structure Inv (s : State ι) : Prop where
  conns : ∀ c ∈ s.conns, c.Ok lfd
  unique : ∀ (fd : ι) (j k : Nat) (c d : Conn ι), s.conns[j]? = some c → s.conns[k]? = some d →
    c.status = .opened fd → d.status = .opened fd → j = k
  ready : ∀ fd ∈ s.todo, ready lfd s.conns fd = true

variable {lfd : ι} {size : Nat} {s s' : State ι} {conns : List (Conn ι)} {fd : ι} {k : Nat}
  {c : Conn ι}

/-! ## Small facts -/

omit [DecidableEq ι] in
theorem Conn.readable_iff : c.readable = true ↔ c.inbox ≠ [] ∨ c.fin = true := by
  simp [Conn.readable]

omit [DecidableEq ι] in
/-- What a `read` returns is the beginning of what is there, and nothing only at the end. -/
theorem Conn.read_eq_some (hsize : 0 < size) {chunk : Bytes} (h : c.read size = some chunk) :
    c.readable = true ∧ (∃ rest, c.inbox = chunk ++ rest) ∧
      (chunk = [] → c.inbox = [] ∧ c.fin = true) ∧ chunk.length ≤ size := by
  simp only [Conn.read, Option.ite_none_right_eq_some, Option.some.injEq] at h
  obtain ⟨hr, rfl⟩ := h
  refine ⟨hr, ⟨c.inbox.drop size, (List.take_append_drop size c.inbox).symm⟩, fun hnil => ?_,
    List.length_take_le _ _⟩
  have hi : c.inbox = [] := (List.take_eq_nil_iff.1 hnil).resolve_left hsize.ne'
  exact ⟨hi, (Conn.readable_iff.1 hr).resolve_left fun hne => hne hi⟩

omit [DecidableEq ι] in
theorem Conn.Ok.handled (h : c.Ok lfd) (hsize : 0 < size) {chunk : Bytes}
    (hr : c.read size = some chunk) (ho : c.status = .opened fd) (reply : Bytes) :
    (c.handled chunk reply).Ok lfd := by
  obtain ⟨-, ⟨rest, hrest⟩, hend, -⟩ := Conn.read_eq_some hsize hr
  unfold Conn.handled
  split
  · exact ⟨h.bytes, fun _ => hend ‹_›, fun hx => by cases hx⟩
  · refine ⟨?_, fun hx => ?_, h.client⟩
    · show c.got ++ chunk ++ c.inbox.drop chunk.length = c.sent
      rw [← h.bytes, hrest, List.drop_left, List.append_assoc]
    · have hx : c.status = .closed := hx
      rw [ho] at hx
      cases hx

theorem ready_lfd : ready lfd conns lfd = true ↔ ∃ c ∈ conns, c.status = .waiting := by
  simp [ready]

theorem ready_of_ne (h : fd ≠ lfd) : ready lfd conns fd = true ↔
    ∃ c ∈ conns, c.status = .opened fd ∧ c.readable = true := by
  simp [ready, h]

theorem find_eq_some {status : Status ι} (h : find conns status = some k) :
    ∃ c, conns[k]? = some c ∧ c.status = status := by
  obtain ⟨hk, hs, -⟩ := List.findIdx?_eq_some_iff_getElem.1 h
  exact ⟨conns[k], List.getElem?_eq_getElem hk, of_decide_eq_true hs⟩

theorem find_status {status : Status ι} (h : find conns status = some k) (hk : conns[k]? = some c) :
    c.status = status := by
  obtain ⟨d, hd, hs⟩ := find_eq_some h
  rwa [Option.some.inj (hk.symm.trans hd)]

theorem exists_find {status : Status ι} (h : ∃ c ∈ conns, c.status = status) :
    ∃ k, find conns status = some k := by
  obtain ⟨c, hc, hs⟩ := h
  rw [← Option.isSome_iff_exists, find, List.findIdx?_isSome, List.any_eq_true]
  exact ⟨c, hc, decide_eq_true hs⟩

/-! ## The invariant is kept -/

theorem inv_nil : Inv lfd ⟨[], ∅⟩ where
  conns _ hc := nomatch hc
  unique _ _ _ _ _ hi := nomatch hi
  ready fd hfd := absurd hfd (Finset.notMem_empty fd)

/-- One connection changes, and what is still to be handled stays ready. -/
theorem Inv.set (h : Inv lfd s) {c' : Conn ι} {todo : Finset ι} (hk : s.conns[k]? = some c)
    (hok : c'.Ok lfd)
    (hfd : ∀ fd, c'.status = .opened fd → c.status = .opened fd ∨
      ∀ d ∈ s.conns, d.status ≠ .opened fd)
    (htodo : ∀ fd ∈ todo, fd ∈ s.todo ∧ (fd = lfd → c.status = .waiting → c'.status = .waiting) ∧
      (c.status = .opened fd ∧ c.readable = true → c'.status = .opened fd ∧ c'.readable = true)) :
    Inv lfd ⟨s.conns.set k c', todo⟩ := by
  refine ⟨fun d hd => ?_, fun fd i j d e hi hj hd he => ?_, fun fd hfd' => ?_⟩
  · rcases List.mem_or_eq_of_mem_set hd with hd | rfl
    · exact h.conns d hd
    · exact hok
  · -- the changed connection has its own descriptor, or one that nobody has
    rcases Threads.getElem?_set_cases hi with ⟨rfl, rfl⟩ | ⟨hni, hi'⟩
    · rcases Threads.getElem?_set_cases hj with ⟨rfl, rfl⟩ | ⟨hnj, hj'⟩
      · rfl
      · rcases hfd fd hd with hc | hno
        · exact h.unique fd _ _ c e hk hj' hc he
        · exact absurd he (hno e (List.mem_of_getElem? hj'))
    · rcases Threads.getElem?_set_cases hj with ⟨rfl, rfl⟩ | ⟨hnj, hj'⟩
      · rcases hfd fd he with hc | hno
        · exact h.unique fd _ _ d c hi' hk hd hc
        · exact absurd hd (hno d (List.mem_of_getElem? hi'))
      · exact h.unique fd _ _ d e hi' hj' hd he
  · obtain ⟨hmem, hw, ho⟩ := htodo fd hfd'
    have hr := h.ready fd hmem
    by_cases hl : fd = lfd
    · subst hl
      rw [ready_lfd] at hr ⊢
      exact Threads.exists_mem_set hk (hw rfl) hr
    · rw [ready_of_ne hl] at hr ⊢
      exact Threads.exists_mem_set hk ho hr

theorem Inv.step (h : Inv lfd s) (hsize : 0 < size) (hst : Step lfd size s s') : Inv lfd s' := by
  cases hst with
  | wait h0 _ hfds => exact ⟨h.conns, h.unique, hfds⟩
  | @accept fd k c hl hf hk hne hno =>
    have hst := find_status hf hk
    have hok := h.conns c (List.mem_of_getElem? hk)
    refine h.set hk ⟨hok.bytes, fun hx => (by cases hx), fun hx => ?_⟩ (fun x hx => ?_) fun x hx => ?_
    · exact hne (Status.opened.inj hx)
    · obtain rfl := Status.opened.inj hx
      exact .inr hno
    · obtain ⟨hxl, hx⟩ := Finset.mem_erase.1 hx
      refine ⟨hx, fun he => absurd he hxl, fun ho => ?_⟩
      rw [hst] at ho
      cases ho.1
  | @read fd k c chunk reply hm hne hf hk hr =>
    have hst := find_status hf hk
    have hok := h.conns c (List.mem_of_getElem? hk)
    refine h.set hk (hok.handled hsize hr hst reply) (fun x hx => ?_) fun x hx => ?_
    · left
      unfold Conn.handled at hx
      split at hx
      · cases hx
      · exact hx
    · obtain ⟨hxfd, hx⟩ := Finset.mem_erase.1 hx
      rw [hst]
      refine ⟨hx, fun _ hw => (by cases hw), fun ho => ?_⟩
      exact absurd (Status.opened.inj ho.1).symm hxfd

omit [DecidableEq ι] in
theorem stream_eq_some {f : Conn ι → Conn ι} {conns' : List (Conn ι)}
    (h : LevelLoop.stream conns k f = some conns') :
    ∃ c, conns[k]? = some c ∧ c.fin = false ∧ conns' = conns.set k (f c) := by
  unfold LevelLoop.stream at h
  split at h
  · rename_i c hk
    split at h
    · cases h
    · rename_i hfin
      cases h
      exact ⟨c, hk, by simpa using hfin, rfl⟩
  · cases h

/-- The peer does something on a stream that has not ended. -/
theorem Inv.stream (h : Inv lfd s) {f : Conn ι → Conn ι} {conns : List (Conn ι)}
    (hf : ∀ c : Conn ι, (f c).status = c.status ∧ (c.readable = true → (f c).readable = true) ∧
      (c.fin = false → c.Ok lfd → (f c).Ok lfd))
    (hst : stream s.conns k f = some conns) : Inv lfd ⟨conns, s.todo⟩ := by
  obtain ⟨c, hk, hfin, rfl⟩ := stream_eq_some hst
  obtain ⟨hs, hr, hok⟩ := hf c
  refine h.set hk (hok hfin (h.conns c (List.mem_of_getElem? hk))) (fun x hx => .inl (hs ▸ hx))
    fun x hx => ?_
  exact ⟨hx, fun _ hw => hs.trans hw, fun ho => ⟨hs.trans ho.1, hr ho.2⟩⟩

theorem Inv.connect (h : Inv lfd s) : Inv lfd ⟨s.conns ++ [.new], s.todo⟩ := by
  refine ⟨fun c hc => ?_, fun fd i j c d hi hj hc hd => ?_, fun fd hfd => ?_⟩
  · rcases List.mem_append.1 hc with hc | hc
    · exact h.conns c hc
    · rw [List.mem_singleton.1 hc]
      exact ⟨rfl, fun hx => (by cases hx), fun hx => (by cases hx)⟩
  · rcases Threads.getElem?_concat_cases hi with hi | ⟨-, rfl⟩
    · rcases Threads.getElem?_concat_cases hj with hj | ⟨-, rfl⟩
      · exact h.unique fd i j c d hi hj hc hd
      · cases hd
    · cases hc
  · have hr := h.ready fd hfd
    unfold LevelLoop.ready at hr ⊢
    rw [List.any_append, List.any_append]
    split
    · rename_i hl
      rw [if_pos hl] at hr
      rw [hr, Bool.true_or]
    · rename_i hl
      rw [if_neg hl] at hr
      rw [hr, Bool.true_or]

theorem Inv.peer (h : Inv lfd s) {p : Peer} {conns : List (Conn ι)}
    (hp : peer s.conns p = some conns) : Inv lfd ⟨conns, s.todo⟩ := by
  cases p with
  | connect =>
    cases hp
    exact h.connect
  | send k bytes =>
    refine h.stream (f := (·.arrive bytes)) (fun c => ⟨rfl, fun hr => ?_, fun hfin hok => ?_⟩) hp
    · rw [Conn.readable_iff] at hr ⊢
      exact hr.imp_left fun hne he => hne (List.append_eq_nil_iff.1 he).1
    · refine ⟨?_, fun hx => absurd (hok.closed hx).2 (by rw [hfin]; exact Bool.false_ne_true),
        hok.client⟩
      show c.got ++ (c.inbox ++ bytes) = c.sent ++ bytes
      rw [← List.append_assoc, hok.bytes]
  | finish k =>
    refine h.stream (f := Conn.finish) (fun c => ⟨rfl, fun hr => ?_, fun _ hok => ?_⟩) hp
    · rw [Conn.readable_iff] at hr ⊢
      exact .inr rfl
    · exact ⟨hok.bytes, fun hx => ⟨(hok.closed hx).1, rfl⟩, hok.client⟩

/-! ## Nothing is left -/

/-- **When nothing is ready, every connection was accepted and read to its end.** -/
theorem Inv.served (h : Inv lfd s) (hb : Blocked lfd s) : Served s.conns := by
  intro c hc
  have hok := h.conns c hc
  have hw : c.status ≠ .waiting := fun hw =>
    Bool.false_ne_true ((hb.2 lfd).symm.trans (ready_lfd.2 ⟨c, hc, hw⟩))
  cases hst : c.status with
  | waiting => exact absurd hst hw
  | opened fd =>
    have hne : fd ≠ lfd := by
      rintro rfl
      exact hok.client hst
    have hr : ¬ c.readable = true := fun hr =>
      Bool.false_ne_true ((hb.2 fd).symm.trans ((ready_of_ne hne).2 ⟨c, hc, hst, hr⟩))
    rw [Conn.readable_iff, not_or, not_not, Bool.not_eq_true] at hr
    have hbytes := hok.bytes
    rw [hr.1, List.append_nil] at hbytes
    exact ⟨fun hx => (by cases hx), hbytes, by simp [hr.2]⟩
  | closed =>
    obtain ⟨hi, hf⟩ := hok.closed hst
    have hbytes := hok.bytes
    rw [hi, List.append_nil] at hbytes
    exact ⟨fun hx => (by cases hx), hbytes, by simp [hf]⟩

/-- The descriptor of a connection that is closed is nobody else's. -/
theorem Inv.mem_opened_closed (h : Inv lfd s) {c' : Conn ι} {fd' : ι} (hk : s.conns[k]? = some c)
    (hs : c.status = .opened fd) (hc : c'.status = .closed) :
    fd' ∈ opened (s.conns.set k c') ↔ fd' ≠ fd ∧ fd' ∈ opened s.conns := by
  rw [mem_opened_set hk, mem_opened_iff hk, hs, hc]
  constructor
  · rintro (hx | ⟨j, d, hj, hd, hds⟩)
    · cases hx
    · refine ⟨fun he => hj ?_, .inr ⟨j, d, hj, hd, hds⟩⟩
      exact h.unique fd j k d c hd hk (he ▸ hds) hs
  · rintro ⟨hne, hx | hx⟩
    · exact absurd (Status.opened.inj hx).symm hne
    · exact .inr hx

/-- What is still to be handled is there. -/
theorem Inv.accepts (h : Inv lfd s) (hl : lfd ∈ s.todo) :
    ∃ k c, find s.conns .waiting = some k ∧ s.conns[k]? = some c := by
  obtain ⟨c, hc, hs⟩ := ready_lfd.1 (h.ready lfd hl)
  obtain ⟨k, hk⟩ := exists_find ⟨c, hc, hs⟩
  obtain ⟨d, hd, -⟩ := find_eq_some hk
  exact ⟨k, d, hk, hd⟩

theorem Inv.reads (h : Inv lfd s) (hfd : fd ∈ s.todo) (hne : fd ≠ lfd) : ∃ k c,
    find s.conns (.opened fd) = some k ∧ s.conns[k]? = some c ∧ c.status = .opened fd ∧
      c.readable = true := by
  obtain ⟨c, hc, hs, hr⟩ := (ready_of_ne hne).1 (h.ready fd hfd)
  obtain ⟨k, hk⟩ := exists_find ⟨c, hc, hs⟩
  obtain ⟨d, hd, hds⟩ := find_eq_some hk
  obtain ⟨j, hj⟩ := List.mem_iff_getElem?.1 hc
  obtain rfl := h.unique fd j k c d hj hd hs hds
  obtain rfl := Option.some.inj (hj.symm.trans hd)
  exact ⟨j, c, hk, hj, hs, hr⟩

/-! ## Something gets done -/

/-- What there is to do for a connection. -/
def Conn.work (c : Conn ι) : Nat :=
  c.inbox.length + match c.status with
    | .waiting => 2
    | .opened _ => 1
    | .closed => 0

def State.measure (s : State ι) : Nat :=
  2 * (s.conns.map Conn.work).sum + if s.todo = ∅ then 1 else 0

/-- Every call of the process brings it nearer to the end. -/
theorem Step.measure_lt (hsize : 0 < size) (hst : Step lfd size s s') : s'.measure < s.measure := by
  cases hst with
  | wait h0 hne _ =>
    simp only [State.measure]
    rw [if_pos h0, if_neg hne.ne_empty]
    omega
  | @accept fd k c hl hf hk =>
    have hs := find_status hf hk
    have hsum := Threads.sum_set_add Conn.work (c.accepted fd) hk
    have hw : (c.accepted fd).work + 1 = c.work := by
      simp only [Conn.work, Conn.accepted, hs]
    simp only [State.measure]
    split
    all_goals split
    all_goals omega
  | @read fd k c chunk reply hm hne hf hk hr =>
    have hs := find_status hf hk
    obtain ⟨-, ⟨rest, hrest⟩, -, -⟩ := Conn.read_eq_some hsize hr
    have hsum := Threads.sum_set_add Conn.work (c.handled chunk reply) hk
    have hw : (c.handled chunk reply).work < c.work := by
      unfold Conn.handled
      split
      · simp only [Conn.work, hs]
        omega
      · rename_i hnil
        have hpos := List.length_pos_iff.2 hnil
        simp only [Conn.work, hs, hrest, List.drop_left, List.length_append]
        omega
    simp only [State.measure]
    split
    all_goals split
    all_goals omega

variable (lfd size) in
/-- A program whose steps are calls, or statements that bring it nearer to its next call. -/
theorem must_settle {σ α : Type} {step : σ → α → Option σ} {ok : σ → α → Prop} {I P : σ → Prop}
    (hsize : 0 < size) (abs : σ → State ι) (rest : σ → Nat)
    (henabled : ∀ x, I x → ¬ P x → ∃ a x', ok x a ∧ step x a = some x')
    (hstep : ∀ x a x', I x → ok x a → step x a = some x' → I x' ∧
      (Step lfd size (abs x) (abs x') ∨ abs x' = abs x ∧ rest x' < rest x)) {x : σ} (hx : I x) :
    Lts.Must step ok P x := by
  refine Lts.Must.of_wf (Prod.lex Nat.lt_wfRel Nat.lt_wfRel).wf
    (fun x => ((abs x).measure, rest x)) (fun x hi hp => ⟨henabled x hi hp, fun a x' ha hst => ?_⟩) hx
  obtain ⟨hi', hs⟩ := hstep x a x' hi ha hst
  refine ⟨hi', ?_⟩
  rcases hs with hs | ⟨habs, hrest⟩
  · exact Prod.Lex.left _ _ (hs.measure_lt hsize)
  · rw [habs]
    exact Prod.Lex.right _ hrest

end

/-! ## Few connections and short messages -/

section
variable {ι : Type}

/-- A peer connects only while there are less than `room` connections, and sends only if less than
`size` bytes wait to be read then. -/
def Modest (size room : Nat) (conns : List (Conn ι)) : Peer → Prop
  | .connect => alive conns < room
  | .send k bytes => ∀ c ∈ conns[k]?, c.inbox.length + bytes.length < size
  | .finish _ => True

instance (size room : Nat) (conns : List (Conn ι)) : ∀ p, Decidable (Modest size room conns p)
  | .connect => inferInstanceAs (Decidable (alive conns < room))
  | .send k bytes => inferInstanceAs (Decidable (∀ c ∈ conns[k]?, c.inbox.length + bytes.length < size))
  | .finish _ => inferInstanceAs (Decidable True)

/-- What follows for the connections when text is answered by its image under `f`. -/
structure Orderly (size room : Nat) (f : UInt8 → UInt8) (conns : List (Conn ι)) : Prop where
  inbox : ∀ c ∈ conns, c.inbox.length < size
  alive : LevelLoop.alive conns ≤ room
  written : ∀ c ∈ conns, (0 : UInt8) ∉ c.sent → c.written = c.got.map f

variable {size room : Nat} {f : UInt8 → UInt8} {conns conns' : List (Conn ι)} {k : Nat}
  {c c' : Conn ι} {lfd : ι}

theorem orderly_nil : Orderly size room f ([] : List (Conn ι)) where
  inbox _ hc := nomatch hc
  alive := Nat.zero_le room
  written _ hc := nomatch hc

theorem Orderly.set (h : Orderly size room f conns) (hk : conns[k]? = some c)
    (halive : c'.alive = true → c.alive = true) (hinbox : c'.inbox.length < size)
    (hwritten : (0 : UInt8) ∉ c'.sent → c'.written = c'.got.map f) :
    Orderly size room f (conns.set k c') := by
  refine ⟨fun d hd => ?_, Nat.le_trans (alive_set_le hk halive) h.alive, fun d hd => ?_⟩
  · rcases List.mem_or_eq_of_mem_set hd with hd | rfl
    · exact h.inbox d hd
    · exact hinbox
  · rcases List.mem_or_eq_of_mem_set hd with hd | rfl
    · exact h.written d hd
    · exact hwritten

theorem Orderly.accepted (h : Orderly size room f conns) {fd : ι} (hk : conns[k]? = some c)
    (hs : c.status = .waiting) : Orderly size room f (conns.set k (c.accepted fd)) :=
  have hm := List.mem_of_getElem? hk
  h.set hk (fun _ => by rw [Conn.alive, hs]) (h.inbox c hm) (h.written c hm)

/-- What was read is less than there was room for. -/
theorem Orderly.length_lt (h : Orderly size room f conns) (hsize : 0 < size)
    (hk : conns[k]? = some c) {chunk : Bytes} (hr : c.read size = some chunk) :
    chunk.length < size := by
  obtain ⟨-, ⟨rest, hrest⟩, -, -⟩ := Conn.read_eq_some hsize hr
  have hlt := h.inbox c (List.mem_of_getElem? hk)
  rw [hrest, List.length_append] at hlt
  omega

theorem Orderly.handled (h : Orderly size room f conns) (hsize : 0 < size) {fd : ι}
    (hk : conns[k]? = some c) (hok : c.Ok lfd) (hs : c.status = .opened fd) {chunk reply : Bytes}
    (hr : c.read size = some chunk)
    (hreply : chunk ≠ [] → (0 : UInt8) ∉ chunk → reply = chunk.map f) :
    Orderly size room f (conns.set k (c.handled chunk reply)) := by
  have hm := List.mem_of_getElem? hk
  obtain ⟨-, ⟨rest, hrest⟩, -, -⟩ := Conn.read_eq_some hsize hr
  unfold Conn.handled
  split
  · exact h.set hk (fun _ => by rw [Conn.alive, hs]) (h.inbox c hm) (h.written c hm)
  · rename_i hne
    refine h.set hk (fun _ => by rw [Conn.alive, hs]) ?_ fun h0 => ?_
    · show (c.inbox.drop chunk.length).length < size
      rw [List.length_drop]
      exact Nat.lt_of_le_of_lt (Nat.sub_le _ _) (h.inbox c hm)
    · have h0 : (0 : UInt8) ∉ c.sent := h0
      have hchunk : (0 : UInt8) ∉ chunk := fun hz => h0 (by
        rw [← hok.bytes, hrest]
        exact List.mem_append_right _ (List.mem_append_left _ hz))
      show c.written ++ reply = (c.got ++ chunk).map f
      rw [h.written c hm h0, hreply hne hchunk, List.map_append]

theorem Orderly.peer (h : Orderly size room f conns) (hsize : 0 < size) {p : Peer}
    (hok : Modest size room conns p) (hp : LevelLoop.peer conns p = some conns') :
    Orderly size room f conns' := by
  cases p with
  | connect =>
    cases hp
    have hone : LevelLoop.alive (conns ++ [Conn.new]) = LevelLoop.alive conns + 1 := by
      simp [LevelLoop.alive, Conn.new, Conn.alive]
    refine ⟨fun d hd => ?_, hone ▸ hok, fun d hd => ?_⟩
    · rcases List.mem_append.1 hd with hd | hd
      · exact h.inbox d hd
      · rw [List.mem_singleton.1 hd]
        exact hsize
    · rcases List.mem_append.1 hd with hd | hd
      · exact h.written d hd
      · rw [List.mem_singleton.1 hd]
        exact fun _ => rfl
  | send k bytes =>
    obtain ⟨c, hk, -, rfl⟩ := stream_eq_some hp
    refine h.set hk (fun ha => ha) ?_ fun h0 => ?_
    · show (c.inbox ++ bytes).length < size
      rw [List.length_append]
      exact hok c hk
    · exact h.written c (List.mem_of_getElem? hk) fun hc => h0 (List.mem_append_left _ hc)
  | finish k =>
    obtain ⟨c, hk, -, rfl⟩ := stream_eq_some hp
    have hm := List.mem_of_getElem? hk
    exact h.set hk (fun ha => ha) (h.inbox c hm) (h.written c hm)

/-- The peers do not change the descriptors. -/
theorem mem_opened_peer {p : Peer} (hp : peer conns p = some conns') {fd : ι} :
    fd ∈ opened conns' ↔ fd ∈ opened conns := by
  cases p with
  | connect =>
    cases hp
    simp [opened, Conn.new, Conn.descriptor]
  | send k bytes =>
    obtain ⟨c, hk, -, rfl⟩ := stream_eq_some hp
    exact mem_opened_of_status hk rfl
  | finish k =>
    obtain ⟨c, hk, -, rfl⟩ := stream_eq_some hp
    exact mem_opened_of_status hk rfl

/-- While a connection waits, there are fewer descriptors than connections. -/
theorem card_lt_alive [DecidableEq ι] {fds : Finset ι} (h : ∀ fd ∈ fds, fd ∈ opened conns)
    (hw : ∃ c ∈ conns, c.status = .waiting) : fds.card < LevelLoop.alive conns := by
  have hsub : fds ⊆ (opened conns).toFinset := fun fd hfd => List.mem_toFinset.2 (h fd hfd)
  calc fds.card
      ≤ (opened conns).length := (Finset.card_le_card hsub).trans (List.toFinset_card_le _)
    _ < LevelLoop.alive conns := opened_length_lt hw

theorem Inv.settled [DecidableEq ι] {s : State ι} (h : Inv lfd s) (ho : Orderly size room f s.conns)
    (hb : Blocked lfd s) : Settled lfd f s.conns := by
  have hserved := h.served hb
  refine ⟨hb.2, hserved, fun c hc h0 => ?_⟩
  rw [ho.written c hc h0, (hserved c hc).2.1]

end

end LevelLoop
