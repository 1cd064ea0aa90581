import LinuxApi.Http.Libevent
import LinuxApi.Http.Proof.EpollSegments

/-!
# What a request means does not survive every segmentation

`cb_read` parses each block of bytes on its own. A request whose first block holds the method and
the target is answered if no later block looks like a request itself (`Libevent.serve_of_first`); one
whose first byte arrives alone is not (`Libevent.serve_alone`). The epoll server does no better, and
so no request of either has one answer for all segmentations (`segmentation`).
-/

set_option autoImplicit false

namespace Libevent

open CLib Http

/-! ## The blocks of the libevent server -/

/-- The block has a first word, and it is not `get`. -/
def Silent (block : Bytes) : Prop :=
  block.head? ≠ some 32 ∧ isGet (block.takeWhile (· ≠ 32)) = false

/-- The words fit into `method[50]`, `path[1024]` and `protocol[32]`. -/
def Words.Fit (w : Words) : Prop :=
  w.method.length < 50 ∧ w.path.length < 1024 ∧ w.protocol.length < 32

/-- A block that is parsed without being answered. -/
def Quiet (block : Bytes) : Prop :=
  block ≠ [] ∧ Silent block ∧ (scanWords ⟨[], [], []⟩ block).Fit

instance (block : Bytes) : Decidable (Silent block) := inferInstanceAs (Decidable (_ ∧ _))

instance (w : Words) : Decidable w.Fit := inferInstanceAs (Decidable (_ ∧ _ ∧ _))

instance (block : Bytes) : Decidable (Quiet block) := inferInstanceAs (Decidable (_ ∧ _ ∧ _))

/-- A block that starts with method and target, followed by a blank or by nothing. -/
theorem scanWords_start (junk : Words) (r : GetRequest) {rest : Bytes}
    (hr : ∀ b ∈ rest.head?, b = 32) :
    (scanWords junk (r.start ++ rest)).method = ascii "GET" ∧
      (scanWords junk (r.start ++ rest)).path = r.target := by
  rw [scanWords, r.scan_method]
  simp only [r.skip_target, r.scan_target hr]
  split <;> exact ⟨rfl, rfl⟩

theorem scanWords_silent (junk : Words) {block : Bytes} (hne : block ≠ []) (hq : Silent block) :
    isGet (scanWords junk block).method = false := by
  obtain ⟨hhead, hget⟩ := hq
  cases block with
  | nil => exact absurd rfl hne
  | cons b block =>
    have hb : b ≠ 32 := by simpa using hhead
    have hset : scanSet (· = 32) (b :: block) =
        some ((b :: block).takeWhile (· ≠ 32), (b :: block).dropWhile (· ≠ 32)) := by
      simp [scanSet, hb]
    rw [scanWords, hset]
    simp only
    split
    · exact hget
    · split <;> exact hget

/-- A block of at most 4096 bytes without `NUL` is parsed as it is, and nothing is left of it. -/
theorem cbRead_block (junk : Words) {block : Bytes} (hlen : block.length ≤ 4096)
    (h0 : (0 : UInt8) ∉ block) :
    cbRead junk block =
      (if isGet (scanWords junk block).method then some (filePath (scanWords junk block).path)
        else none, []) := by
  rw [cbRead, List.take_of_length_le hlen, cstr_of_notMem h0, List.drop_of_length_le hlen]

/-- Silent blocks are not answered. -/
theorem serveFrom_silent (junk : Nat → Words) (i : Nat) {blocks : List Bytes}
    (hq : ∀ b ∈ blocks, b ≠ [] ∧ Silent b) (hlen : blocks.flatten.length ≤ 4096)
    (h0 : (0 : UInt8) ∉ blocks.flatten) : serveFrom junk i [] blocks = [] := by
  induction blocks generalizing i with
  | nil => rfl
  | cons block blocks ih =>
    rw [List.flatten_cons] at hlen h0
    rw [List.length_append] at hlen
    obtain ⟨hne, hb⟩ := hq block List.mem_cons_self
    have hread : cbRead (junk i) block = _ :=
      cbRead_block (junk i) (by omega) fun h => h0 (List.mem_append_left _ h)
    rw [scanWords_silent _ hne hb] at hread
    rw [serveFrom, List.nil_append, hread]
    apply ih (i + 1)
    · intro b hm
      exact hq b (List.mem_cons_of_mem _ hm)
    · omega
    · intro h
      exact h0 (List.mem_append_right _ h)

/-- **A request whose first block holds the method and the target is answered**, once and for its
target, if the later blocks are quiet. -/
theorem serve_of_first (junk : Nat → Words) {r : GetRequest} (hlen : r.bytes.length ≤ 4095)
    {first : Bytes} {later : List Bytes} (hs : (first :: later).flatten = r.bytes)
    (hf : r.target.length + 4 ≤ first.length) (hq : ∀ b ∈ later, Quiet b) :
    serve junk (first :: later) = [filePath r.target] := by
  rw [List.flatten_cons] at hs
  have h0 := r.zero_notMem_bytes
  rw [← hs] at hlen h0
  rw [List.length_append] at hlen
  obtain ⟨rest, hfirst, hr⟩ : ∃ rest, first = r.start ++ rest ∧ ∀ b ∈ rest.head?, b = 32 := by
    obtain ⟨tail, ht⟩ : ∃ tail, r.bytes = r.start ++ 32 :: tail :=
      ⟨_, by simp only [GetRequest.bytes, GetRequest.requestLine, List.append_assoc,
        List.cons_append]; rfl⟩
    have hpre : first <+: r.start ++ 32 :: tail := ⟨later.flatten, by rw [hs, ht]⟩
    refine ⟨(32 :: tail).take (first.length - r.start.length), ?_, ?_⟩
    · calc first = (r.start ++ 32 :: tail).take first.length := List.prefix_iff_eq_take.1 hpre
        _ = _ := by
          rw [List.take_append, List.take_of_length_le (by rw [r.start_length]; exact hf)]
    · cases first.length - r.start.length <;> simp
  have hread : cbRead (junk 0) first = _ :=
    cbRead_block (junk 0) (by omega) fun h => h0 (List.mem_append_left _ h)
  obtain ⟨hmethod, hpath⟩ := scanWords_start (junk 0) r hr
  rw [← hfirst] at hmethod hpath
  rw [hmethod, hpath] at hread
  have hlater : serveFrom junk 1 [] later = [] := by
    apply serveFrom_silent junk 1
    · intro b hb
      exact ⟨(hq b hb).1, (hq b hb).2.1⟩
    · omega
    · intro h
      exact h0 (List.mem_append_right _ h)
  rw [serve, serveFrom, List.nil_append, hread]
  show [filePath r.target] ++ serveFrom junk 1 [] later = [filePath r.target]
  rw [hlater, List.append_nil]

theorem isGet_cons {b : UInt8} (hg : tolower b ≠ 103) (tail : Bytes) :
    isGet (b :: tail) = false := by
  simp [isGet, ascii, hg]

/-- **A request whose first byte arrives alone is not answered.** -/
theorem serve_alone (junk : Nat → Words) {r : GetRequest} (hlen : r.bytes.length ≤ 4095) :
    serve junk [[71], r.bytes.tail] = [] := by
  obtain ⟨tail, ht⟩ : ∃ tail, r.bytes.tail = 69 :: tail := ⟨_, rfl⟩
  have hflat : [[71], r.bytes.tail].flatten = r.bytes := by
    rw [List.flatten_cons, List.flatten_cons, List.flatten_nil, List.append_nil]
    rfl
  refine serveFrom_silent junk 0 ?_ (by rw [hflat]; omega)
    (by rw [hflat]; exact r.zero_notMem_bytes)
  intro b hb
  simp only [List.mem_cons, List.not_mem_nil, or_false] at hb
  rcases hb with rfl | rfl
  · exact ⟨by simp, by decide⟩
  · rw [ht]
    refine ⟨by simp, by simp, ?_⟩
    simpa using isGet_cons (show tolower 69 ≠ 103 by decide) (tail.takeWhile (· ≠ 32))

end Libevent

namespace Http

open CLib

/-! ## Both servers -/

/-- The request has one answer, for one path, however it is cut into segments of which `ok`
holds. -/
def OneAnswer (serve : List Bytes → List Bytes) (ok : Bytes → Prop) (r : GetRequest) : Prop :=
  ∃ path, ∀ segments : List Bytes, (∀ s ∈ segments, ok s) → segments.flatten = r.bytes →
    serve segments = [path]

theorem not_oneAnswer {serve : List Bytes → List Bytes} {ok : Bytes → Prop} {r : GetRequest}
    {segments : List Bytes} (hok : ∀ s ∈ segments, ok s) (hs : segments.flatten = r.bytes)
    (h : serve segments = []) : ¬ OneAnswer serve ok r := by
  rintro ⟨path, hall⟩
  have := hall segments hok hs
  rw [h] at this
  cases this

theorem epoll_not_oneAnswer (r : GetRequest) : ¬ OneAnswer EpollHttp.serve (fun _ => True) r :=
  not_oneAnswer (fun _ _ => trivial) (by simp; rfl) (EpollHttp.serve_alone r)

theorem libevent_not_oneAnswer (junk : Nat → Libevent.Words) {r : GetRequest}
    (hlen : r.bytes.length ≤ 4095) : ¬ OneAnswer (Libevent.serve junk) (· ≠ []) r := by
  refine not_oneAnswer ?_ (by simp; rfl) (Libevent.serve_alone junk hlen)
  intro s hs
  simp only [List.mem_cons, List.not_mem_nil, or_false] at hs
  rcases hs with rfl | rfl
  · simp
  · exact List.cons_ne_nil _ _

/-- **Segmentation matters for every request**: none has one answer for all segmentations. In those
in which method and target arrive in time (and, for the libevent server, no later block looks like a
request), the request is answered once and for its target. -/
theorem segmentation (r : GetRequest) (junk : Nat → Libevent.Words) :
    (r.requestLine.length ≤ 1023 → ¬ OneAnswer EpollHttp.serve (fun _ => True) r ∧
      ∀ segments, segments.flatten = r.bytes →
        EpollHttp.Ahead (r.target.length + 4) segments →
        EpollHttp.serve segments = [EpollHttp.filePath r.target]) ∧
    (r.requestLine.length ≤ 1023 → r.bytes.length ≤ 4095 →
      ¬ OneAnswer (Libevent.serve junk) (· ≠ []) r ∧
      ∀ first later, (first :: later).flatten = r.bytes → r.target.length + 4 ≤ first.length →
        (∀ b ∈ later, Libevent.Quiet b) →
        Libevent.serve junk (first :: later) = [Libevent.filePath r.target]) := by
  refine ⟨?_, ?_⟩
  · intro hlen
    refine ⟨epoll_not_oneAnswer r, ?_⟩
    intro segments hs ha
    exact EpollHttp.serve_of_ahead hlen hs ha
  · intro _ hlen
    refine ⟨libevent_not_oneAnswer junk hlen, ?_⟩
    intro first later hs hf hq
    exact Libevent.serve_of_first junk hlen hs hf hq

/-- `GET /a HTTP/1.1` with one header. -/
def demoRequest : GetRequest where
  target := ascii "/a"
  version := ascii "HTTP/1.1"
  headers := [ascii "Host: b"]
  target_ne := by decide
  target_ok := by decide +kernel
  version_ok := ⟨49, 49, by decide, by decide, by decide⟩
  headers_ok := by decide +kernel

/-- The request is cut in the version, then in the header. -/
theorem segmentation_demo :
    EpollHttp.serve [ascii "GET /a HTT", [], [], [], [], [], [], [], [], [], [], [], [],
        ascii "P/1.1\r\nHost: b\r\n\r\n"] = [ascii "a"] ∧
      Libevent.serve (fun _ => ⟨[], [], []⟩)
        [ascii "GET /a HTTP/1.1\r\nHo", ascii "st: b\r\n\r\n"] = [ascii "a"] := by
  have h := segmentation demoRequest fun _ => ⟨[], [], []⟩
  have hlen : demoRequest.requestLine.length ≤ 1023 := by decide +kernel
  have hbytes : demoRequest.bytes.length ≤ 4095 := by decide +kernel
  constructor
  · apply (h.1 hlen).2 _ (by decide +kernel)
    unfold EpollHttp.Ahead
    decide +kernel
  · exact (h.2 hlen hbytes).2 _ _ (by decide +kernel) (by decide +kernel) (by decide +kernel)

/-- Neither server answers `demoRequest` if the `G` arrives alone. -/
theorem segmentation_fails :
    (¬ ∀ r : GetRequest, r.requestLine.length ≤ 1023 →
      OneAnswer EpollHttp.serve (fun _ => True) r) ∧
    ¬ ∀ (junk : Nat → Libevent.Words) (r : GetRequest), r.requestLine.length ≤ 1023 →
      r.bytes.length ≤ 4095 → OneAnswer (Libevent.serve junk) (· ≠ []) r := by
  have hlen : demoRequest.requestLine.length ≤ 1023 := by decide +kernel
  have hbytes : demoRequest.bytes.length ≤ 4095 := by decide +kernel
  refine ⟨?_, ?_⟩
  · intro hall
    exact epoll_not_oneAnswer demoRequest (hall demoRequest hlen)
  · intro hall
    exact libevent_not_oneAnswer _ hbytes (hall (fun _ => ⟨[], [], []⟩) demoRequest hlen hbytes)

end Http
