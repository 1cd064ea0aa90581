import LinuxApi.Echo.Servers

/-!
# What the echo servers write back

A read is written back with its bytes before the first `NUL` in upper case and the rest as it came
(`reply`), as long as the loop over the string finds a `NUL` in the buffer (`serve_eq_some`). So the
servers echo in upper case exactly where `toupper` has nothing to change after a `NUL`
(`echoes_iff`); a buffer larger than what is read at once always has one (`ended_of_room`).
-/

set_option autoImplicit false

namespace Echo

open CLib

/-! ## What a server writes -/

/-- What is written back for a read that returns `chunk`. -/
def reply (chunk : Bytes) : Bytes :=
  (cstr chunk).map toupper ++ chunk.drop (cstr chunk).length

theorem reply_length (chunk : Bytes) : (reply chunk).length = chunk.length := by
  have hle := cstr_length_le chunk
  rw [reply, List.length_append, List.length_map, List.length_drop]
  omega

theorem reply_eq_iff {chunk : Bytes} : reply chunk = chunk.map toupper ↔ PlainTail chunk := by
  have hsplit : chunk.map toupper =
      (cstr chunk).map toupper ++ (chunk.drop (cstr chunk).length).map toupper := by
    rw [← List.map_append]
    congr 1
    exact (List.prefix_iff_eq_append.1 (List.takeWhile_prefix _)).symm
  have hself : ∀ l : Bytes, l.map toupper = l ↔ ∀ b ∈ l, toupper b = b := by
    intro l
    simpa using List.map_inj_left (f := toupper) (g := id) (l := l)
  rw [hsplit, reply, List.append_right_inj, eq_comm]
  exact hself _

theorem SameNul.ready {srv : Server} {buf buf' : Bytes} (h : SameNul buf buf') (ev : Event) :
    SameNul (srv.ready buf ev) (srv.ready buf' ev) := by
  cases ev <;> simp only [Server.ready] <;> split <;> first | exact rfl | exact h

/-- The run of a server. What is in its buffer is in upper case, but the `NUL`s are where the reads
have put them. -/
theorem serve_eq_some {srv : Server} : ∀ {events : List Event} {buf raw : Bytes}
    {log : List (Nat × Bytes)}, SameNul buf raw →
    (srv.serve buf events = some log ↔
      srv.Ended raw events ∧ log = (reads events).map fun x => (x.1, reply x.2))
  | [], _, _, _, _ => by simp [Server.serve, Server.Ended, reads, eq_comm]
  | .round :: events, buf, raw, log, h => by
    simp only [Server.serve, Server.Ended, reads]
    exact serve_eq_some (SameNul.ready h .round)
  | .eof client :: events, buf, raw, log, h => by
    simp only [Server.serve, Server.Ended, reads]
    exact serve_eq_some (SameNul.ready h (.eof client))
  | .data client chunk :: events, buf, raw, log, h => by
    have hready : SameNul (srv.ready buf (.data client chunk)) (srv.ready raw (.data client chunk)) :=
      SameNul.ready h _
    have hfill := hready.fill chunk
    simp only [Server.serve, Server.Ended, reads, List.map_cons]
    cases hm : mapCstr toupper (fill (srv.ready buf (.data client chunk)) chunk) with
    | none =>
      have hno : (0 : UInt8) ∉ fill (srv.ready raw (.data client chunk)) chunk := by
        rw [← hfill.mem]
        intro h0
        have hsome := (mapCstr_eq_some (f := toupper)).2 ⟨h0, rfl⟩
        rw [hm] at hsome
        cases hsome
      simp [hno]
    | some buf' =>
      have h0 := hfill.mem.1 (mapCstr_eq_some.1 hm).1
      have hsame : SameNul buf' (fill (srv.ready raw (.data client chunk)) chunk) :=
        (mapCstr_sameNul (fun _ => toupper_eq_zero) hm).trans hfill
      have htake : buf'.take chunk.length = reply chunk := mapCstr_fill_take hm
      simp only [Option.map_eq_some_iff, serve_eq_some hsame, h0, true_and, htake]
      constructor
      · rintro ⟨_, ⟨he, rfl⟩, rfl⟩
        exact ⟨he, rfl⟩
      · rintro ⟨he, rfl⟩
        exact ⟨_, ⟨he, rfl⟩, rfl⟩

/-! ## Streams -/

/-- The streams of all clients agree exactly if all reads and replies do: they have the same
lengths. -/
theorem streams_eq_iff {log : List (Nat × Bytes)} :
    (∀ client, stream client (log.map fun x => (x.1, reply x.2)) =
      (stream client log).map toupper) ↔ ∀ x ∈ log, PlainTail x.2 := by
  have hstream : ∀ client, stream client (log.map fun x => (x.1, reply x.2)) =
      (((log.filter (·.1 = client)).map (·.2)).map reply).flatten := by
    intro client
    simp [stream, List.filter_map, Function.comp_def]
  have hupper : ∀ client, (stream client log).map toupper =
      (((log.filter (·.1 = client)).map (·.2)).map (List.map toupper)).flatten := by
    intro client
    rw [stream, List.map_flatten]
  constructor
  · intro h x hx
    have hc := h x.1
    rw [hstream, hupper] at hc
    have hlen : (((log.filter (·.1 = x.1)).map (·.2)).map reply).map List.length =
        (((log.filter (·.1 = x.1)).map (·.2)).map (List.map toupper)).map List.length := by
      simp [Function.comp_def, reply_length]
    have hpieces := List.eq_iff_flatten_eq.2 ⟨hc, hlen⟩
    have hmem : x.2 ∈ (log.filter (·.1 = x.1)).map (·.2) :=
      List.mem_map_of_mem (List.mem_filter.2 ⟨hx, by simp⟩)
    exact reply_eq_iff.1 (List.map_inj_left.1 hpieces x.2 hmem)
  · intro h client
    rw [hstream, hupper]
    congr 1
    apply List.map_congr_left
    intro chunk hchunk
    obtain ⟨x, hx, rfl⟩ := List.mem_map.1 hchunk
    exact reply_eq_iff.2 (h x (List.mem_filter.1 hx).1)

/-- When a server echoes its clients' streams in upper case. -/
theorem echoes_iff {srv : Server} {events : List Event} : Echoes srv events ↔
    srv.Ended srv.zeros events ∧ ∀ x ∈ reads events, PlainTail x.2 := by
  rw [← streams_eq_iff]
  constructor
  · rintro ⟨log, hs, hall⟩
    obtain ⟨he, rfl⟩ := (serve_eq_some rfl).1 hs
    exact ⟨he, hall⟩
  · rintro ⟨he, hall⟩
    exact ⟨_, (serve_eq_some rfl).2 ⟨he, rfl⟩, hall⟩

/-- A buffer that is larger than what is read at once keeps a `NUL` past every read. -/
theorem ended_of_room {srv : Server} (hroom : srv.limit < srv.size) :
    ∀ {events : List Event} {buf : Bytes}, buf[srv.limit]? = some 0 → Cut srv events →
      srv.Ended buf events := by
  have hzeros : srv.zeros[srv.limit]? = some 0 := by
    rw [Server.zeros, List.getElem?_replicate, if_pos hroom]
  have hready : ∀ {buf : Bytes} (ev : Event), buf[srv.limit]? = some 0 →
      (srv.ready buf ev)[srv.limit]? = some 0 := by
    intro buf ev h
    cases ev <;> simp only [Server.ready] <;> split <;> first | exact hzeros | exact h
  intro events
  induction events with
  | nil => intro buf _ _; trivial
  | cons ev events ih =>
    intro buf hbuf hcut
    cases ev with
    | round => exact ih (hready .round hbuf) hcut
    | eof client => exact ih (hready (.eof client) hbuf) hcut
    | data client chunk =>
      have hle := (hcut (client, chunk) List.mem_cons_self).2
      have hfill : (fill (srv.ready buf (.data client chunk)) chunk)[srv.limit]? = some 0 := by
        rw [fill, List.getElem?_append_right hle, List.getElem?_drop, Nat.add_sub_cancel' hle]
        exact hready (.data client chunk) hbuf
      exact ⟨List.mem_of_getElem? hfill, ih hfill fun x hx => hcut x (List.mem_cons_of_mem _ hx)⟩

/-- The epoll handlers read one byte less than their buffer holds. -/
theorem epoll_ended {srv : Server} (hsrv : srv ∈ [ltWork, etWork, etWorkMemset])
    {events : List Event} (hcut : Cut srv events) : srv.Ended srv.zeros events := by
  have hroom : srv.limit < srv.size := by
    simp only [List.mem_cons, List.not_mem_nil, or_false] at hsrv
    rcases hsrv with rfl | rfl | rfl <;> decide
  exact ended_of_room hroom (by rw [Server.zeros, List.getElem?_replicate, if_pos hroom]) hcut

/-- **Replies do not leak.** Whatever clients the reads are from and however they follow each
other, an epoll handler never runs past its buffer, and what it writes back for a read depends on
what that read returned alone: as many bytes, in upper case before the first `NUL` and as they came
from there on. All the handlers write the same. -/
theorem reply_alone (srv : Server) (hsrv : srv ∈ [ltWork, etWork, etWorkMemset])
    (events : List Event) (hcut : Cut srv events) :
    srv.serve srv.zeros events = some ((reads events).map fun x => (x.1, reply x.2)) ∧
    ∀ x ∈ reads events, (reply x.2).length = x.2.length ∧
      reply x.2 = (cstr x.2).map toupper ++ x.2.drop (cstr x.2).length :=
  ⟨(serve_eq_some rfl).2 ⟨epoll_ended hsrv hcut, rfl⟩, fun x _ => ⟨reply_length x.2, rfl⟩⟩

/-- Five bytes of one client are in the buffer when the next one sends two. -/
theorem reply_alone_next :
    etWork.serve etWork.zeros [.round, .data 7 (ascii "hello"), .data 8 (ascii "a" ++ [0])] =
      some [(7, ascii "HELLO"), (8, ascii "A" ++ [0])] := by
  have hcut : Cut etWork [.round, .data 7 (ascii "hello"), .data 8 (ascii "a" ++ [0])] := by
    show ∀ x ∈ reads _, _
    decide
  rw [(reply_alone etWork (by decide) _ hcut).1]
  decide +kernel

/-- **When the echo servers echo.** For all events, whatever the clients send and however it is cut
into reads: the epoll servers write every stream back in upper case exactly if no read has
something to change after its first `NUL`; the select and the poll server exactly if, besides, no
read leaves their buffer without a `NUL`. -/
theorem echo_upper_iff (srv : Server) (events : List Event) (hcut : Cut srv events) :
    (srv ∈ [ltWork, etWork, etWorkMemset] →
      (Echoes srv events ↔ ∀ x ∈ reads events, PlainTail x.2)) ∧
    (srv ∈ [selectServer, pollServer] →
      (Echoes srv events ↔
        (∀ x ∈ reads events, PlainTail x.2) ∧ srv.Ended srv.zeros events)) := by
  refine ⟨?_, ?_⟩
  · intro hsrv
    rw [echoes_iff]
    exact and_iff_right (epoll_ended hsrv hcut)
  · intro _
    rw [echoes_iff]
    exact and_comm

/-- Two messages of `client.c`, each with its `NUL`. -/
def messages : Bytes := ascii "ab" ++ [0] ++ ascii "cd" ++ [0]

/-- Read one by one, the two messages come back in upper case. -/
theorem echo_upper_messages :
    Echoes ltWork [.round, .data 7 (messages.take 3), .round, .data 7 (messages.drop 3)] := by
  refine ((echo_upper_iff ltWork _ ?_).1 (by decide)).2 ?_
  · show ∀ x ∈ reads _, _
    decide
  · simp only [reads, List.mem_cons, List.not_mem_nil, or_false, PlainTail]
    rintro x (rfl | rfl) <;> decide +kernel

/-- The same bytes, but the first read also has two bytes of the second message: these come back as
they are. A select server does the same with both messages in one read, and a message that fills
its buffer makes the loop run past it. -/
theorem echo_upper_fails :
    (¬ ∀ events, Cut ltWork events → Echoes ltWork events) ∧
    (¬ ∀ events, Cut etWork events → Echoes etWork events) ∧
    (¬ ∀ events, Cut selectServer events → Echoes selectServer events) ∧
    (¬ ∀ events, Cut pollServer events → Echoes pollServer events) ∧
    selectServer.serve selectServer.zeros [.data 7 (List.replicate 512 97)] = none := by
  have hlt : ¬ ∀ events, Cut ltWork events → Echoes ltWork events := by
    intro hall
    obtain ⟨log, hs, he⟩ := hall
      [.round, .data 7 (messages.take 5), .round, .data 7 (messages.drop 5)]
      (show ∀ x ∈ reads _, _ by decide)
    have h7 := he 7
    rw [← Option.some.inj hs] at h7
    revert h7
    decide +kernel
  have hselect : ¬ ∀ events, Cut selectServer events → Echoes selectServer events := by
    intro hall
    obtain ⟨log, hs, he⟩ := hall [.data 7 messages] (show ∀ x ∈ reads _, _ by decide)
    have h7 := he 7
    rw [← Option.some.inj hs] at h7
    revert h7
    decide +kernel
  exact ⟨hlt, hlt, hselect, hselect, by decide +kernel⟩

end Echo
