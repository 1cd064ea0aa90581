import LinuxApi.Http.EpollClients
import LinuxApi.Lib.Threads

/-!
# Descriptors of the epoll server

A client that is not being read is new, open or closed, and an open one has not been seen to end
(`Idle`); of the client that is being read, `Busy` says how far it is. Nothing else is needed to
see that every end that was seen leads to one removal and one close (`ended_closed`), as long as the
ends are seen after a first line that begins with `get` (`EndsInGet`): `do_read` closes nothing
otherwise.
-/

set_option autoImplicit false

namespace EpollHttp

open CLib Threads

/-! ## Lines -/

/-- A line that begins with `get` still does when it grows. -/
theorem isGet_append {line : Bytes} (h : isGet line = true) (tail : Bytes) :
    isGet (line ++ tail) = true := by
  simp only [isGet, decide_eq_true_eq] at h ⊢
  rw [← h]
  congr 1
  have hlen : 3 ≤ (cstr line).length := by
    have hl := congrArg List.length h
    simp only [List.length_map, List.length_take] at hl
    have h3 : (ascii "get").length = 3 := rfl
    omega
  rw [cstr_append]
  split
  · rename_i hc
    rw [cstr_of_length hc, List.take_append_of_le_length (by omega)]
  · rfl

/-- The reading goes on with the same client and a first line that has not shrunk. -/
structure Reading.Goes (r r' : Reading) : Prop where
  client : r'.client = r.client
  rest : r'.rest = r.rest
  line : isGet r.line = true → isGet r'.line = true

theorem Reading.goes_push (r : Reading) (b : UInt8) : r.Goes (r.push b) := by
  unfold Reading.push
  split
  · exact ⟨rfl, rfl, fun h => isGet_append h _⟩
  · exact ⟨rfl, rfl, id⟩

theorem Reading.push_cur_ne (r : Reading) (b : UInt8) : (r.push b).cur ≠ [] := by
  unfold Reading.push Reading.cur
  split
  · rename_i h
    simp [h]
  · simp

/-- A line with something in it is not the last one. -/
theorem Reading.store_goes (r : Reading) (b : UInt8) : ∃ r', r.store b = .recv r' ∧ r.Goes r' := by
  have hp := r.goes_push b
  unfold Reading.store Reading.return
  split
  · rw [if_neg (r.push_cur_ne b)]
    exact ⟨_, rfl, hp.client, hp.rest, hp.line⟩
  · exact ⟨_, rfl, hp⟩

theorem Reading.return_goes (r : Reading) :
    r.return = .check r ∨ ∃ r', r.return = .recv r' ∧ r.Goes r' := by
  unfold Reading.return
  split
  · exact .inl rfl
  · exact .inr ⟨_, rfl, rfl, rfl, id⟩

/-! ## The life of a descriptor -/

/-- The descriptor has not been accepted. -/
structure Client.Fresh (c : Client) : Prop where
  accepted : c.accepted = false
  registered : c.registered = false
  eof : c.eof = false
  removes : c.removes = 0
  closes : c.closes = 0

structure Client.Open (c : Client) : Prop where
  accepted : c.accepted = true
  registered : c.registered = true
  removes : c.removes = 0
  closes : c.closes = 0

structure Client.Removed (c : Client) : Prop where
  accepted : c.accepted = true
  registered : c.registered = false
  removes : c.removes = 1
  closes : c.closes = 0

structure Client.Closed (c : Client) : Prop where
  accepted : c.accepted = true
  registered : c.registered = false
  removes : c.removes = 1
  closes : c.closes = 1

/-- What holds of a client that is not being read, when the events `rest` are still to be handled. -/
inductive Idle (rest : List (Option Nat)) (k : Nat) (c : Client) : Prop
  | fresh : c.Fresh → Idle rest k c
  | isOpen : c.Open → c.eof = false → (c.fin = true → c.report = true ∨ some k ∈ rest) →
      Idle rest k c
  | closed : c.Closed → Idle rest k c

/-- What holds of the client that is being read. -/
def Busy (c : Client) : Pc → Prop
  | .wait | .loop _ => True
  | .recv r | .peek r | .eat r => c.Open ∧ (c.eof = true → isGet r.line = true)
  | .check r => c.Open ∧ (c.eof = true → isGet r.line = true) ∧
      (c.fin = true → c.eof = true ∨ c.report = true)
  | .remove _ => c.Open
  | .close _ => c.Removed

/-- The client that is being read. -/
def Pc.client : Pc → Option Nat
  | .wait | .loop _ => none
  | .recv r | .peek r | .eat r | .check r | .remove r | .close r => some r.client

/-- The events that are still to be handled. -/
def Pc.rest : Pc → List (Option Nat)
  | .wait => []
  | .loop events => events
  | .recv r | .peek r | .eat r | .check r | .remove r | .close r => r.rest

structure Inv (s : Sys) : Prop where
  reading : ∀ k, s.pc.client = some k → k < s.clients.length
  busy : ∀ k c, s.clients[k]? = some c → s.pc.client = some k → Busy c s.pc
  idle : ∀ k c, s.clients[k]? = some c → s.pc.client ≠ some k → Idle s.pc.rest k c
  events : ∀ k : Nat, some k ∈ s.pc.rest →
    s.pc.client ≠ some k ∧ ∃ c, s.clients[k]? = some c ∧ c.registered = true
  nodup : s.pc.rest.Nodup
  backlog : ∀ k ∈ s.backlog, ∃ c, s.clients[k]? = some c ∧ c.accepted = false
  waiting : s.backlog.Nodup

theorem inv_init : Inv .init where
  reading k h := nomatch h
  busy k c h := by simp [Sys.init] at h
  idle k c h := by simp [Sys.init] at h
  events k h := by simp [Sys.init, Pc.rest] at h
  nodup := List.nodup_nil
  backlog k h := by simp [Sys.init] at h
  waiting := List.nodup_nil

theorem Busy.accepted {c : Client} {pc : Pc} {k : Nat} (h : Busy c pc) (hk : pc.client = some k) :
    c.accepted = true := by
  cases pc with
  | wait | loop => cases hk
  | recv | peek | eat | check => exact h.1.accepted
  | remove => exact Client.Open.accepted h
  | close => exact Client.Removed.accepted h

theorem Idle.of_registered {rest : List (Option Nat)} {k : Nat} {c : Client} (h : Idle rest k c)
    (hr : c.registered = true) :
    c.Open ∧ c.eof = false ∧ (c.fin = true → c.report = true ∨ some k ∈ rest) := by
  cases h with
  | fresh h => rw [h.registered] at hr; cases hr
  | isOpen ho he hf => exact ⟨ho, he, hf⟩
  | closed h => rw [h.registered] at hr; cases hr

/-- Other events do not matter. -/
theorem Idle.rest {rest rest' : List (Option Nat)} {k : Nat} {c : Client} (h : Idle rest k c)
    (hr : some k ∈ rest → some k ∈ rest') : Idle rest' k c := by
  cases h with
  | fresh h => exact .fresh h
  | isOpen ho he hf => exact .isOpen ho he fun hfin => (hf hfin).imp_right hr
  | closed h => exact .closed h

/-- The report of a client is taken, and the event is to be handled. -/
theorem Idle.taken {rest events : List (Option Nat)} {k : Nat} {c : Client} (h : Idle rest k c)
    (hk : some k ∈ events) : Idle events k { c with report := false } := by
  cases h with
  | fresh h => exact .fresh ⟨h.accepted, h.registered, h.eof, h.removes, h.closes⟩
  | isOpen ho he _ =>
    exact .isOpen ⟨ho.accepted, ho.registered, ho.removes, ho.closes⟩ he fun _ => .inr hk
  | closed h => exact .closed ⟨h.accepted, h.registered, h.removes, h.closes⟩

/-! ## Steps of the clients -/

/-- What a client does to its record: nothing that the server has done, and an end is reported. -/
structure Client.Acts (c c' : Client) : Prop where
  accepted : c'.accepted = c.accepted
  registered : c'.registered = c.registered
  eof : c'.eof = c.eof
  removes : c'.removes = c.removes
  closes : c'.closes = c.closes
  report : c.report = true → c'.report = true
  fin : c'.fin = true → c.registered = true → c.fin = true ∨ c'.report = true

section
variable {c c' : Client} (h : c.Acts c')
include h

theorem Client.Acts.open (ho : c.Open) : c'.Open :=
  ⟨h.accepted.trans ho.accepted, h.registered.trans ho.registered, h.removes.trans ho.removes,
    h.closes.trans ho.closes⟩

theorem Client.Acts.idle {rest : List (Option Nat)} {k : Nat} (hi : Idle rest k c) :
    Idle rest k c' := by
  cases hi with
  | fresh hf =>
    exact .fresh ⟨h.accepted.trans hf.accepted, h.registered.trans hf.registered,
      h.eof.trans hf.eof, h.removes.trans hf.removes, h.closes.trans hf.closes⟩
  | isOpen ho he hf =>
    refine .isOpen (h.open ho) (h.eof.trans he) ?_
    intro hfin
    rcases h.fin hfin ho.registered with h0 | hr
    · exact (hf h0).imp_left h.report
    · exact .inl hr
  | closed hc =>
    exact .closed ⟨h.accepted.trans hc.accepted, h.registered.trans hc.registered,
      h.removes.trans hc.removes, h.closes.trans hc.closes⟩

theorem Client.Acts.busy {pc : Pc} (hb : Busy c pc) : Busy c' pc := by
  cases pc with
  | wait | loop => trivial
  | recv r | peek r | eat r =>
    obtain ⟨ho, he⟩ := hb
    exact ⟨h.open ho, by rw [h.eof]; exact he⟩
  | check r =>
    obtain ⟨ho, he, hf⟩ := hb
    refine ⟨h.open ho, by rw [h.eof]; exact he, ?_⟩
    intro hfin
    rcases h.fin hfin ho.registered with h0 | hr
    · rw [h.eof]
      exact (hf h0).imp_right h.report
    · exact .inr hr
  | remove r => exact h.open hb
  | close r =>
    have hb : c.Removed := hb
    exact ⟨h.accepted.trans hb.accepted, h.registered.trans hb.registered,
      h.removes.trans hb.removes, h.closes.trans hb.closes⟩

end

section
variable {s : Sys} (hi : Inv s)
include hi

theorem Inv.acts {k : Nat} {c c' : Client} (hc : s.clients[k]? = some c) (h : c.Acts c') :
    Inv { s with clients := s.clients.set k c' } := by
  refine ⟨?_, ?_, ?_, ?_, hi.nodup, ?_, hi.waiting⟩
  · intro j hj
    rw [List.length_set]
    exact hi.reading j hj
  · intro j d hd hj
    obtain ⟨rfl, rfl⟩ | ⟨-, hd⟩ := getElem?_set_cases hd
    · exact h.busy (hi.busy j c hc hj)
    · exact hi.busy j d hd hj
  · intro j d hd hj
    obtain ⟨rfl, rfl⟩ | ⟨-, hd⟩ := getElem?_set_cases hd
    · exact h.idle (hi.idle j c hc hj)
    · exact hi.idle j d hd hj
  · intro j hj
    obtain ⟨hne, hex⟩ := hi.events j hj
    exact ⟨hne, exists_getElem?_set hc h.registered.trans hex⟩
  · intro j hj
    exact exists_getElem?_set hc h.accepted.trans (hi.backlog j hj)

theorem Inv.connect :
    Inv { s with
          clients := s.clients ++ [.new]
          backlog := s.backlog ++ [s.clients.length]
          report := true } := by
  refine ⟨?_, ?_, ?_, ?_, hi.nodup, ?_, ?_⟩
  · intro k hk
    have := hi.reading k hk
    rw [List.length_append]
    omega
  · intro k c hc hk
    obtain hc | ⟨rfl, -⟩ := getElem?_concat_cases hc
    · exact hi.busy k c hc hk
    · exact absurd (hi.reading _ hk) (Nat.lt_irrefl _)
  · intro k c hc hk
    obtain hc | ⟨-, rfl⟩ := getElem?_concat_cases hc
    · exact hi.idle k c hc hk
    · exact .fresh ⟨rfl, rfl, rfl, rfl, rfl⟩
  · intro k hk
    obtain ⟨hne, c, hc, hr⟩ := hi.events k hk
    exact ⟨hne, c, getElem?_concat_of_some _ hc, hr⟩
  · intro k hk
    rcases List.mem_append.1 hk with hk | hk
    · obtain ⟨c, hc, ha⟩ := hi.backlog k hk
      exact ⟨c, getElem?_concat_of_some _ hc, ha⟩
    · obtain rfl := List.mem_singleton.1 hk
      exact ⟨.new, List.getElem?_concat_length, rfl⟩
  · rw [List.nodup_append]
    refine ⟨hi.waiting, List.nodup_singleton _, ?_⟩
    rintro k hk _ hl rfl
    obtain rfl := List.mem_singleton.1 hl
    obtain ⟨c, hc, -⟩ := hi.backlog _ hk
    exact absurd (List.getElem?_eq_some_iff.1 hc).1 (Nat.lt_irrefl _)

/-! ## Steps of the server -/

/-- A step that does something to the client `k` that is being read: it stays the one, or the server
goes back to its events. -/
theorem Inv.update {k : Nat} {c c' : Client} {pc : Pc} (hc : s.clients[k]? = some c)
    (hk : s.pc.client = some k) (hr : pc.rest = s.pc.rest)
    (h : pc.client = some k ∧ Busy c' pc ∨ pc.client = none ∧ Idle pc.rest k c') :
    Inv { s with clients := s.clients.set k c', pc } := by
  refine ⟨?_, ?_, ?_, ?_, by rw [hr]; exact hi.nodup, ?_, hi.waiting⟩
  · intro j hj
    rw [List.length_set]
    rcases h with ⟨hk', -⟩ | ⟨hn, -⟩
    · exact hi.reading j (by rw [hk, ← hk']; exact hj)
    · rw [hn] at hj
      cases hj
  · intro j d hd hj
    rcases h with ⟨hk', hb⟩ | ⟨hn, -⟩
    · obtain rfl := Option.some.inj (hk'.symm.trans hj)
      obtain ⟨-, rfl⟩ | ⟨hne, -⟩ := getElem?_set_cases hd
      · exact hb
      · exact absurd rfl hne
    · rw [hn] at hj
      cases hj
  · intro j d hd hj
    obtain ⟨rfl, rfl⟩ | ⟨hne, hd⟩ := getElem?_set_cases hd
    · rcases h with ⟨hk', -⟩ | ⟨-, hidle⟩
      · exact absurd hk' hj
      · exact hidle
    · show Idle pc.rest j d
      rw [hr]
      exact hi.idle j d hd fun he => hne (Option.some.inj (he.symm.trans hk))
  · intro j hj
    obtain ⟨hne, d, hd, hreg⟩ := hi.events j (by rw [← hr]; exact hj)
    have hkj : k ≠ j := fun he => hne (by rw [hk, he])
    refine ⟨?_, d, by rw [List.getElem?_set_ne hkj]; exact hd, hreg⟩
    rcases h with ⟨hk', -⟩ | ⟨hn, -⟩
    · rw [hk']
      exact fun he => hkj (Option.some.inj he)
    · rw [hn]
      nofun
  · intro j hj
    refine exists_getElem?_set hc ?_ (hi.backlog j hj)
    intro ha
    rw [(hi.busy k c hc hk).accepted hk] at ha
    cases ha

theorem Inv.wait {events : List (Option Nat)} (hpc : s.pc = .wait) (hnd : events.Nodup)
    (hrep : ∀ e ∈ events, s.reported e = true) :
    Inv { s with
          clients := s.clients.mapIdx fun k c =>
            if some k ∈ events then { c with report := false } else c
          report := if none ∈ events then false else s.report
          pc := .loop events } := by
  have hidle := hi.idle
  rw [hpc] at hidle
  have hback : ∀ {k : Nat} {d : Client}, (s.clients.mapIdx fun k c =>
      if some k ∈ events then { c with report := false } else c)[k]? = some d →
      ∃ c, s.clients[k]? = some c ∧ d = if some k ∈ events then { c with report := false } else c := by
    intro k d hd
    rw [List.getElem?_mapIdx, Option.map_eq_some_iff] at hd
    obtain ⟨c, hc, rfl⟩ := hd
    exact ⟨c, hc, rfl⟩
  have hon : ∀ {k : Nat} {c : Client}, s.clients[k]? = some c → (s.clients.mapIdx fun k c =>
      if some k ∈ events then { c with report := false } else c)[k]? =
        some (if some k ∈ events then { c with report := false } else c) := by
    intro k c hc
    rw [List.getElem?_mapIdx, hc, Option.map_some]
  refine ⟨nofun, fun _ _ _ h => (nomatch h), ?_, ?_, hnd, ?_, hi.waiting⟩
  · intro k d hd _
    obtain ⟨c, hc, rfl⟩ := hback hd
    show Idle events k _
    split
    · exact (hidle k c hc nofun).taken (by assumption)
    · exact (hidle k c hc nofun).rest nofun
  · intro k hk
    have hr := hrep _ hk
    simp only [Sys.reported] at hr
    split at hr
    · rename_i c hc
      simp only [Bool.and_eq_true] at hr
      refine ⟨nofun, _, hon hc, ?_⟩
      split
      · exact hr.1.1
      · exact hr.1.1
    · cases hr
  · intro k hk
    obtain ⟨c, hc, ha⟩ := hi.backlog k hk
    refine ⟨_, hon hc, ?_⟩
    split
    · exact ha
    · exact ha

theorem Inv.accept {rest : List (Option Nat)} {k : Nat} {backlog : List Nat} {c : Client}
    (hpc : s.pc = .loop (none :: rest)) (hb : s.backlog = k :: backlog)
    (hc : s.clients[k]? = some c) :
    Inv { s with
          clients := s.clients.set k
            { c with accepted := true, registered := true, report := c.readable }
          backlog
          pc := .loop rest } := by
  obtain ⟨-, -, hidle, hevents, hnodup, hback, hwait⟩ := hi
  rw [hpc] at hidle hevents hnodup
  have hfresh : c.Fresh := by
    obtain ⟨d, hd, ha⟩ := hback k (by rw [hb]; exact List.mem_cons_self)
    obtain rfl := Option.some.inj (hc.symm.trans hd)
    cases hidle k c hc nofun with
    | fresh h => exact h
    | isOpen h => rw [h.accepted] at ha; cases ha
    | closed h => rw [h.accepted] at ha; cases ha
  rw [hb, List.nodup_cons] at hwait
  refine ⟨nofun, fun _ _ _ h => (nomatch h), ?_, ?_, (List.nodup_cons.1 hnodup).2, ?_, hwait.2⟩
  · intro j d hd _
    obtain ⟨rfl, rfl⟩ | ⟨-, hd⟩ := getElem?_set_cases hd
    · refine .isOpen ⟨rfl, rfl, hfresh.removes, hfresh.closes⟩ hfresh.eof ?_
      intro hfin
      left
      show c.readable = true
      have hfin : c.fin = true := hfin
      simp [Client.readable, hfin]
    · exact (hidle j d hd nofun).rest fun h => by simpa [Pc.rest] using h
  · intro j hj
    obtain ⟨-, hex⟩ := hevents j (List.mem_cons_of_mem _ hj)
    exact ⟨nofun, exists_getElem?_set hc (fun _ => rfl) hex⟩
  · intro j hj
    obtain ⟨d, hd, ha⟩ := hback j (by rw [hb]; exact List.mem_cons_of_mem _ hj)
    have hkj : k ≠ j := by
      rintro rfl
      exact hwait.1 hj
    exact ⟨d, by rw [List.getElem?_set_ne hkj]; exact hd, ha⟩

/-- The next event is a client's: its reading begins. -/
theorem Inv.begin {rest : List (Option Nat)} {k : Nat} (hpc : s.pc = .loop (some k :: rest)) :
    Inv { s with pc := .recv ⟨k, rest, [], none⟩ } := by
  obtain ⟨-, -, hidle, hevents, hnodup, hback, hwait⟩ := hi
  rw [hpc] at hidle hevents hnodup
  obtain ⟨-, c, hc, hr⟩ := hevents k List.mem_cons_self
  obtain ⟨hnot, hnodup⟩ := List.nodup_cons.1 hnodup
  refine ⟨?_, ?_, ?_, ?_, hnodup, hback, hwait⟩
  · intro j hj
    obtain rfl := Option.some.inj hj
    exact (List.getElem?_eq_some_iff.1 hc).1
  · intro j d hd hj
    obtain rfl := Option.some.inj hj
    obtain ⟨ho, he, -⟩ := (hidle _ d hd nofun).of_registered
      (by rw [← Option.some.inj (hc.symm.trans hd)]; exact hr)
    exact ⟨ho, fun h => by rw [he] at h; cases h⟩
  · intro j d hd hj
    apply (hidle j d hd nofun).rest
    intro h
    rcases List.mem_cons.1 h with h | h
    · exact absurd h.symm hj
    · exact h
  · intro j hj
    obtain ⟨-, d, hd, hrd⟩ := hevents j (List.mem_cons_of_mem _ hj)
    refine ⟨?_, d, hd, hrd⟩
    intro he
    obtain rfl := Option.some.inj he
    exact hnot hj

theorem Inv.rounds (hpc : s.pc = .loop []) : Inv { s with pc := .wait } := by
  obtain ⟨-, -, hidle, -, -, hback, hwait⟩ := hi
  rw [hpc] at hidle
  exact ⟨nofun, fun _ _ _ h => (nomatch h), fun k c hc _ => hidle k c hc nofun,
    fun _ h => (nomatch h), List.nodup_nil, hback, hwait⟩

/-- The line has been looked at. -/
theorem Inv.check {r : Reading} (hpc : s.pc = .check r) :
    Inv { s with pc := if isGet r.line then .remove r else .loop r.rest } := by
  have hk : s.pc.client = some r.client := by rw [hpc]; rfl
  have hlt : r.client < s.clients.length := hi.reading _ hk
  have hc : s.clients[r.client]? = some s.clients[r.client] := List.getElem?_eq_getElem hlt
  obtain ⟨ho, hget, hfin⟩ : Busy _ (.check r) := by
    have hb := hi.busy _ _ hc hk
    rwa [hpc] at hb
  have hset : s.clients.set r.client s.clients[r.client] = s.clients :=
    List.set_getElem_self hlt
  have hrest : s.pc.rest = r.rest := by rw [hpc]; rfl
  by_cases hg : isGet r.line = true
  · rw [if_pos hg]
    have h : Inv { s with clients := s.clients.set r.client s.clients[r.client], pc := .remove r } :=
      hi.update hc hk hrest.symm (.inl ⟨rfl, ho⟩)
    rwa [hset] at h
  · rw [if_neg hg]
    have heof : s.clients[r.client].eof = false := Bool.eq_false_iff.2 fun h => hg (hget h)
    have hrep : s.clients[r.client].fin = true → s.clients[r.client].report = true := by
      intro hf
      apply (hfin hf).resolve_left
      rw [heof]
      nofun
    have h : Inv { s with
        clients := s.clients.set r.client s.clients[r.client], pc := .loop r.rest } :=
      hi.update hc hk hrest.symm (.inr ⟨rfl, .isOpen ho heof fun hf => .inl (hrep hf)⟩)
    rwa [hset] at h

end

/-! ## Reading -/

/-- A `recv` is about to be called for `r`. -/
def Reads (c : Client) (r : Reading) : Prop := c.Open ∧ (c.eof = true → isGet r.line = true)

theorem Reads.goes {c : Client} {r r' : Reading} (h : Reads c r) (hg : r.Goes r') : Reads c r' :=
  ⟨h.1, fun he => hg.line (h.2 he)⟩

theorem Reads.seeEnd {c : Client} {r : Reading} (h : Reads c r)
    (hok : c.fin = true → isGet r.line = true) : Reads c.seeEnd r := by
  refine ⟨⟨h.1.accepted, h.1.registered, h.1.removes, h.1.closes⟩, ?_⟩
  intro he
  rcases Bool.or_eq_true_iff.1 he with he | he
  · exact h.2 he
  · exact hok he

/-- The reading of `r` goes on, or is over, as `pc` says. -/
def Follows (r : Reading) (c : Client) (pc : Pc) : Prop :=
  pc.client = some r.client ∧ pc.rest = r.rest ∧ Busy c pc

theorem Reads.store {c : Client} {r : Reading} (h : Reads c r) (b : UInt8) :
    Follows r c (r.store b) := by
  obtain ⟨r', he, hg⟩ := r.store_goes b
  rw [he]
  exact ⟨by rw [← hg.client]; rfl, hg.rest, h.goes hg⟩

theorem Reads.return {c : Client} {r : Reading} (h : Reads c r)
    (hf : c.fin = true → c.eof = true ∨ c.report = true) : Follows r c r.return := by
  rcases r.return_goes with he | ⟨r', he, hg⟩
  · rw [he]
    exact ⟨rfl, rfl, h.1, h.2, hf⟩
  · rw [he]
    exact ⟨by rw [← hg.client]; rfl, hg.rest, h.goes hg⟩

theorem Reads.inbox {c : Client} {r : Reading} (h : Reads c r) (inbox : Bytes) :
    Reads { c with inbox } r :=
  ⟨⟨h.1.accepted, h.1.registered, h.1.removes, h.1.closes⟩, h.2⟩

section
variable {c : Client} {r : Reading} (h : Reads c r)
  (hok : c.inbox = [] → c.fin = true → isGet r.line = true)
include h hok

theorem recvStep_follows : Follows r (recvStep r c).1 (recvStep r c).2 := by
  unfold recvStep
  split
  · simp only
    split
    · exact ⟨rfl, rfl, h.inbox _⟩
    · exact (h.inbox _).store _
  · rename_i hnil
    apply (h.seeEnd (hok hnil)).return
    intro hf
    exact .inl (Bool.or_eq_true_iff.2 (.inr hf))

theorem peekStep_follows : Follows r (peekStep r c).1 (peekStep r c).2 := by
  unfold peekStep
  split
  · simp only
    split
    · exact ⟨rfl, rfl, h⟩
    · exact h.store _
  · rename_i hnil
    exact (h.seeEnd (hok hnil)).store 10

theorem eatStep_follows : Follows r (eatStep r c).1 (eatStep r c).2 := by
  unfold eatStep
  split
  · exact (h.inbox _).store _
  · rename_i hnil
    exact (h.seeEnd (hok hnil)).store 10

end

section
variable {s : Sys} (hi : Inv s)
include hi

/-- A call of `recv`. -/
theorem Inv.receive {s' : Sys} {r : Reading} {f : Client → Client × Pc}
    (hpc : s.pc.receiving = some r) (hs : s.update r f = some s')
    (hf : ∀ c, s.clients[r.client]? = some c → Reads c r → Follows r (f c).1 (f c).2) : Inv s' := by
  obtain ⟨hk, hrest, hbusy⟩ : s.pc.client = some r.client ∧ s.pc.rest = r.rest ∧
      ∀ c, Busy c s.pc → Reads c r := by
    cases hp : s.pc with
    | recv | peek | eat =>
      rw [hp] at hpc
      obtain rfl := Option.some.inj hpc
      exact ⟨rfl, rfl, fun _ h => h⟩
    | _ => rw [hp] at hpc; cases hpc
  obtain ⟨c, hc, rfl⟩ := Option.map_eq_some_iff.1 hs
  obtain ⟨hk', hrest', hb⟩ := hf c hc (hbusy c (hi.busy _ c hc hk))
  exact hi.update hc hk (hrest'.trans hrest.symm) (.inl ⟨hk', hb⟩)

theorem Inv.server {s' : Sys} (hok : EndsInGet s .server) (hs : stepServer s = some s') :
    Inv s' := by
  have hend : ∀ r c, s.pc.receiving = some r → s.clients[r.client]? = some c →
      c.inbox = [] → c.fin = true → isGet r.line = true := fun r c hr hc => hok r hr c hc
  unfold stepServer at hs
  split at hs
  · cases hs
  · obtain ⟨⟩ := hs
    exact hi.rounds (by assumption)
  · rename_i rest hpc
    unfold stepAccept at hs
    split at hs
    · rename_i k backlog hb
      obtain ⟨c, hc, rfl⟩ := Option.map_eq_some_iff.1 hs
      exact hi.accept hpc hb hc
    · cases hs
  · obtain ⟨⟩ := hs
    exact hi.begin (by assumption)
  · rename_i r hpc
    have hr : s.pc.receiving = some r := by rw [hpc]; rfl
    exact hi.receive hr hs fun c hc h => recvStep_follows h (hend r c hr hc)
  · rename_i r hpc
    have hr : s.pc.receiving = some r := by rw [hpc]; rfl
    exact hi.receive hr hs fun c hc h => peekStep_follows h (hend r c hr hc)
  · rename_i r hpc
    have hr : s.pc.receiving = some r := by rw [hpc]; rfl
    exact hi.receive hr hs fun c hc h => eatStep_follows h (hend r c hr hc)
  · obtain ⟨⟩ := hs
    exact hi.check (by assumption)
  · rename_i r hpc
    obtain ⟨c, hc, rfl⟩ := Option.map_eq_some_iff.1 hs
    have hk : s.pc.client = some r.client := by rw [hpc]; rfl
    have ho : c.Open := by
      have hb := hi.busy _ c hc hk
      rwa [hpc] at hb
    refine hi.update hc hk (by rw [hpc]; rfl) (.inl ⟨rfl, ho.accepted, rfl, ?_, ho.closes⟩)
    show c.removes + 1 = 1
    rw [ho.removes]
  · rename_i r hpc
    obtain ⟨c, hc, rfl⟩ := Option.map_eq_some_iff.1 hs
    have hk : s.pc.client = some r.client := by rw [hpc]; rfl
    have hrem : c.Removed := by
      have hb := hi.busy _ c hc hk
      rwa [hpc] at hb
    refine hi.update hc hk (by rw [hpc]; rfl)
      (.inr ⟨rfl, .closed ⟨hrem.accepted, hrem.registered, hrem.removes, ?_⟩⟩)
    show c.closes + 1 = 1
    rw [hrem.closes]

theorem Inv.step {s' : Sys} {a : Act} (hok : EndsInGet s a) (hs : sysStep s a = some s') :
    Inv s' := by
  cases a with
  | connect => obtain ⟨⟩ := hs; exact hi.connect
  | send k bytes =>
    simp only [sysStep] at hs
    split at hs
    · rename_i c hc
      split at hs
      · cases hs
      · obtain ⟨⟩ := hs
        exact hi.acts hc ⟨rfl, rfl, rfl, rfl, rfl, fun h => Bool.or_eq_true_iff.2 (.inl h),
          fun h _ => .inl h⟩
    · cases hs
  | close k =>
    simp only [sysStep] at hs
    split at hs
    · rename_i c hc
      split at hs
      · cases hs
      · obtain ⟨⟩ := hs
        exact hi.acts hc ⟨rfl, rfl, rfl, rfl, rfl, fun h => Bool.or_eq_true_iff.2 (.inl h),
          fun _ h => .inr (Bool.or_eq_true_iff.2 (.inr h))⟩
    · cases hs
  | wait events =>
    simp only [sysStep, stepWait, Option.ite_none_right_eq_some, Option.some.injEq] at hs
    obtain ⟨⟨hpc, -, -, hnd, hrep⟩, rfl⟩ := hs
    exact hi.wait hpc hnd hrep
  | server => exact hi.server hok hs

end

theorem inv_of_run {s : Sys} (h : Lts.Run sysStep EndsInGet .init s) : Inv s := by
  apply h.inv (P := Inv)
  · exact inv_init
  · intro s a s' ih hok hst
    exact ih.step hok hst

/-! ## No leak -/

/-- While no event is being handled, every client is idle. -/
theorem Inv.idle_mem {s : Sys} (hi : Inv s) (hpc : s.pc.client = none) {c : Client}
    (hc : c ∈ s.clients) : ∃ k, Idle s.pc.rest k c := by
  obtain ⟨k, hk⟩ := List.mem_iff_getElem?.1 hc
  exact ⟨k, hi.idle k c hk (by rw [hpc]; nofun)⟩

/-- **No descriptor leaks.** In every run in which a `recv` returns 0 only after a first line that
begins with `get`: after each event, every client whose end a `recv` has seen has been taken out of
the epoll set once and closed once. And at each call of `epoll_wait` a client that has closed and
whose descriptor the server still holds is reported; so when there is nothing to report, the server
holds at most as many descriptors as there are clients that have not closed. -/
theorem ended_closed (s : Sys) (h : Lts.Run sysStep EndsInGet .init s) :
    (s.pc.client = none → ∀ c ∈ s.clients, c.eof = true →
      c.registered = false ∧ c.removes = 1 ∧ c.closes = 1) ∧
    (s.pc = .wait → ∀ c ∈ s.clients, c.held = true → c.fin = true → c.report = true) ∧
    (s.pc = .wait → (∀ c ∈ s.clients, c.held = true → c.report = false) →
      s.clients.countP (·.held) ≤ s.clients.countP (!·.fin)) := by
  have hi := inv_of_run h
  have hheld : s.pc = .wait → ∀ c ∈ s.clients, c.held = true → c.fin = true →
      c.report = true := by
    intro hpc c hc hh hf
    have hnone : s.pc.client = none := by rw [hpc]; rfl
    obtain ⟨ha, h0⟩ := Bool.and_eq_true_iff.1 hh
    obtain ⟨k, hidle⟩ := hi.idle_mem hnone hc
    cases hidle with
    | fresh hfr => rw [hfr.accepted] at ha; cases ha
    | isOpen _ _ hrep =>
      rw [hpc] at hrep
      exact (hrep hf).resolve_right nofun
    | closed hcl => rw [hcl.closes] at h0; cases h0
  refine ⟨?_, hheld, ?_⟩
  · intro hnone c hc he
    obtain ⟨k, hidle⟩ := hi.idle_mem hnone hc
    cases hidle with
    | fresh hfr => rw [hfr.eof] at he; cases he
    | isOpen _ hn _ => rw [hn] at he; cases he
    | closed hcl => exact ⟨hcl.registered, hcl.removes, hcl.closes⟩
  · intro hpc hno
    apply List.countP_mono_left
    intro c hc hh
    rw [Bool.not_eq_true', Bool.eq_false_iff]
    intro hf
    have hrep := hheld hpc c hc hh hf
    rw [hno c hc hh] at hrep
    cases hrep

/-- A client connects and is accepted. -/
def connected : List Act := [.connect, .wait [none], .server, .server]

/-- A client sends a request and closes. -/
theorem ended_closed_get : ∃ s, Lts.Run sysStep EndsInGet .init s ∧
    ∃ c ∈ s.clients, c.eof = true ∧ c.registered = false ∧ c.removes = 1 ∧ c.closes = 1 := by
  obtain ⟨s, hs, hpc, c, hc, he⟩ := Lts.Run.exists_of_execOk sysStep EndsInGet
    (connected ++ [.send 0 (ascii "get" ++ [10]), .close 0, .wait [some 0]] ++
      Lts.repeats [(9, .server)]) .init
    (fun s => s.pc = .loop [] ∧ ∃ c ∈ s.clients, c.eof = true) (by decide +kernel)
  have hnone : s.pc.client = none := by rw [hpc]; rfl
  exact ⟨s, hs, c, hc, he, (ended_closed s hs).1 hnone c hc he⟩

/-- A client connects and closes without a word: its end is seen, its descriptor stays open, and
nothing will report it again. -/
theorem ended_closed_fails :
    (¬ ∀ s, Lts.Run sysStep Lts.Free .init s → s.pc.client = none → ∀ c ∈ s.clients, c.eof = true →
      c.registered = false ∧ c.removes = 1 ∧ c.closes = 1) ∧
    ¬ ∀ s, Lts.Run sysStep Lts.Free .init s → s.pc = .wait →
      (∀ c ∈ s.clients, c.held = true → c.report = false) →
      s.clients.countP (·.held) ≤ s.clients.countP (!·.fin) := by
  obtain ⟨s, hs, hpc, hc⟩ := Lts.Run.exists_of_exec sysStep
    (connected ++ [.close 0, .wait [some 0]] ++ Lts.repeats [(4, .server)]) .init
    (fun s => s.pc = .wait ∧ s.clients = [⟨[], true, true, true, false, true, 0, 0⟩])
    (by decide +kernel)
  refine ⟨?_, ?_⟩
  · intro hall
    have h := (hall s hs (by rw [hpc]; rfl) _ (by rw [hc]; exact List.mem_cons_self) rfl).2.2
    exact absurd h (by decide)
  · intro hall
    have h := hall s hs hpc (by rw [hc]; decide)
    rw [hc] at h
    exact absurd h (by decide)

end EpollHttp
