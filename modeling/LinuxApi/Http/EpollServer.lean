import LinuxApi.Lib.Scanf

/-!
# The epoll server (`http_code/epoll/http_epoll.c`)

`epoll_run`, `do_read`, `get_line` and `http_get_request` up to the path that it hands to `stat`,
for one client. The bytes of the client arrive in segments, one (perhaps empty) before each call
of `recv` and `epoll_wait`. The socket is non-blocking and registered with `EPOLLET`: `epoll_wait`
reports it once after bytes have arrived. The buffers for the two words of the request line are
taken to be large enough.
-/

set_option autoImplicit false

namespace EpollHttp

open CLib

/-! ## The request line -/

/-- `strncasecmp("get", line, 3) == 0` -/
def isGet (line : Bytes) : Bool := ((cstr line).take 3).map tolower = ascii "get"

/-- What `sscanf(line, "%[^ ] %[^ ]", mothod, buff)` leaves in `buff`. -/
def scanPath (line : Bytes) : Bytes :=
  match scanSet (· = 32) line with
  | none => []
  | some (_, rest) =>
    match scanSet (· = 32) (skipSpace rest) with
    | none => []
    | some (buff, _) => buff

/-- The path without its first byte, or `.`. -/
def filePath (buff : Bytes) : Bytes :=
  let path := buff.drop 1
  if path = [] then ascii "." else path

/-- The path that `http_get_request` hands to `stat`, `open` and `scandir`. -/
def requestPath (line : Bytes) : Bytes := filePath (scanPath (cstr line))

/-! ## The socket -/

/-- The segments that are still to arrive, the bytes in the receive buffer, and whether a report is
outstanding. -/
structure Conn where
  ticks : List Bytes
  avail : Bytes
  report : Bool
deriving DecidableEq, Repr

/-- The next segment arrives. -/
def Conn.tick (c : Conn) : Conn :=
  match c.ticks with
  | [] => c
  | t :: ticks => { ticks, avail := c.avail ++ t, report := c.report || !t.isEmpty }

/-- `recv(sock, &c, 1, 0)`; `none` is `-1`. -/
def recv (c : Conn) : Option UInt8 × Conn :=
  match c.tick.avail with
  | [] => (none, c.tick)
  | b :: avail => (some b, { c.tick with avail })

/-- `recv(sock, &c, 1, MSG_PEEK)` -/
def recvPeek (c : Conn) : Option UInt8 × Conn := (c.tick.avail.head?, c.tick)

/-- The loop of `get_line`, where `size` more bytes fit into `buf`: the bytes it stores. -/
def getLine : Nat → Conn → Bytes × Conn
  | 0, c => ([], c)
  | size + 1, c =>
    match recv c with
    | (none, c) => ([], c)
    | (some b, c) =>
      if b = 13 then
        match recvPeek c with
        | (some b', c) => ([10], if b' = 10 then (recv c).2 else c)
        | (none, c) => ([10], c)
      else if b = 10 then ([10], c)
      else
        let x := getLine size c
        (b :: x.1, x.2)

/-! ## What a call of `get_line` uses up -/

/-- The bytes that have not been read. -/
def Conn.stream (c : Conn) : Bytes := c.avail ++ c.ticks.flatten

/-- A bound on the number of rounds of the main loop. -/
def Conn.work (c : Conn) : Nat := 2 * c.ticks.length + c.report.toNat

@[simp] theorem Conn.tick_stream (c : Conn) : c.tick.stream = c.stream := by
  unfold Conn.tick Conn.stream
  split <;> simp [*]

theorem Conn.tick_work (c : Conn) : c.tick.work ≤ c.work := by
  unfold Conn.tick Conn.work
  split
  · exact Nat.le_refl _
  · rename_i t ticks ht
    have := (c.report || !t.isEmpty).toNat_le
    simp only [ht, List.length_cons]
    omega

/-- A read takes the first byte of the stream. -/
theorem recv_stream {c c' : Conn} {b : UInt8} (h : recv c = (some b, c')) :
    c.stream = b :: c'.stream := by
  unfold recv at h
  split at h
  · cases h
  · rename_i b0 avail ha
    cases h
    rw [← c.tick_stream]
    simp [Conn.stream, ha]

theorem recv_none_stream {c c' : Conn} (h : recv c = (none, c')) : c'.stream = c.stream := by
  unfold recv at h
  split at h
  · cases h
    exact c.tick_stream
  · cases h

theorem recv_work (c : Conn) : (recv c).2.work ≤ c.work := by
  unfold recv
  split <;> exact c.tick_work

theorem recv_snd_length (c : Conn) : (recv c).2.stream.length ≤ c.stream.length := by
  cases h : recv c with
  | mk b c' =>
    cases b with
    | none => simp [recv_none_stream h]
    | some b => simp [recv_stream h]

/-- The bytes that `get_line` stores were in the stream. -/
theorem getLine_length (size : Nat) (c : Conn) :
    (getLine size c).2.stream.length + (getLine size c).1.length ≤ c.stream.length := by
  induction size generalizing c with
  | zero => simp [getLine]
  | succ size ih =>
    rw [getLine]
    split
    · rename_i c' h
      simp [recv_none_stream h]
    · rename_i b c' h
      have hs := congrArg List.length (recv_stream h)
      simp only [List.length_cons] at hs
      split
      · split
        · rename_i b' c'' hp
          obtain ⟨-, rfl⟩ := Prod.mk.inj hp
          have := recv_snd_length c'.tick
          split <;> simp at * <;> omega
        · rename_i c'' hp
          obtain ⟨-, rfl⟩ := Prod.mk.inj hp
          simp
          omega
      · split
        · simp
          omega
        · have := ih c'
          simp only [List.length_cons]
          omega

theorem getLine_work (size : Nat) (c : Conn) : (getLine size c).2.work ≤ c.work := by
  induction size generalizing c with
  | zero => exact Nat.le_refl _
  | succ size ih =>
    have hr := recv_work c
    rw [getLine]
    split
    · rename_i c' h
      rwa [h] at hr
    · rename_i b c' h
      rw [h] at hr
      have ht := c'.tick_work
      split
      · split
        · rename_i b' c'' hp
          obtain ⟨-, rfl⟩ := Prod.mk.inj hp
          have := recv_work c'.tick
          split <;> simp only at * <;> omega
        · rename_i c'' hp
          obtain ⟨-, rfl⟩ := Prod.mk.inj hp
          exact Nat.le_trans ht hr
      · split
        · exact hr
        · exact Nat.le_trans (ih c') hr

/-! ## `do_read` and `epoll_run` -/

/-- The loop of `do_read`: lines are read until one is empty. -/
def readLines (c : Conn) : Conn :=
  if (getLine 1023 c).1 = [] then (getLine 1023 c).2 else readLines (getLine 1023 c).2
termination_by c.stream.length
decreasing_by
  have := getLine_length 1023 c
  have := List.length_pos_of_ne_nil ‹_›
  omega

theorem readLines_work (c : Conn) : (readLines c).work ≤ c.work := by
  have hw := getLine_work 1023 c
  rw [readLines]
  split
  · exact hw
  · exact Nat.le_trans (readLines_work _) hw
termination_by c.stream.length
decreasing_by
  have := getLine_length 1023 c
  have := List.length_pos_of_ne_nil ‹_›
  omega

/-- `do_read`: the path it answers, if it does, after which the connection is closed. -/
def doRead (c : Conn) : Option Bytes × Conn :=
  let line := (getLine 1023 c).1
  let c := (getLine 1023 c).2
  (if isGet line then some (requestPath line) else none, if line = [] then c else readLines c)

theorem doRead_work (c : Conn) : (doRead c).2.work ≤ c.work := by
  have hw := getLine_work 1023 c
  unfold doRead
  simp only
  split
  · exact hw
  · exact Nat.le_trans (readLines_work _) hw

/-- A round of the main loop uses up a segment or a report. -/
theorem Conn.wait_work {c : Conn} (h : ¬ (c.ticks = [] ∧ c.report = false)) :
    ({ c.tick with report := false } : Conn).work < c.work := by
  unfold Conn.tick Conn.work
  split
  · rename_i ht
    have hr : c.report = true := by simpa [ht] using h
    simp [ht, hr]
  · rename_i t ticks ht
    simp only [ht, List.length_cons, Bool.toNat_false]
    omega

/-- The main loop of `epoll_run`, until it is blocked for ever: the paths it answers. -/
def epollRun (c : Conn) : List Bytes :=
  if c.ticks = [] ∧ c.report = false then []
  else if c.tick.report = true then
    match (doRead { c.tick with report := false }).1 with
    | some path => [path]
    | none => epollRun (doRead { c.tick with report := false }).2
  else epollRun c.tick
termination_by c.work
decreasing_by
  · exact Nat.lt_of_le_of_lt (doRead_work _) (Conn.wait_work ‹_›)
  · rename_i h hr
    have hc : ({ c.tick with report := false } : Conn) = c.tick := by
      rw [← Bool.eq_false_iff.2 hr]
    have := Conn.wait_work h
    rwa [hc] at this

/-- A connection whose bytes arrive in these segments. -/
def serve (segments : List Bytes) : List Bytes := epollRun ⟨segments, [], false⟩

end EpollHttp
