import LinuxApi.Http.Answer
import LinuxApi.Http.Proof.Decode
import LinuxApi.Http.Proof.DirBuffers
import LinuxApi.Http.Proof.DoRead
import LinuxApi.Http.Proof.Framing
import LinuxApi.Http.Request

/-!
# Both HTTP servers give the answer

The servers put a response together in the same way, from three functions of their own
(`respond`). As long as the request and the pages stay within the arrays of both (`InBounds`), a client
that parses what it gets has `answer` in the style of the server, and the file it is about is the same
for both exactly if the target has no percent escape (`one_service`).
-/

set_option autoImplicit false

namespace Http

open CLib Framing

/-! ## A response in general -/

namespace Style

theorem headFields_ok {v : Style} (hv : ∀ f ∈ v.fields, f.Ok) {type : Bytes}
    (ht : (13 : UInt8) ∉ type) (len : Nat) : ∀ f ∈ v.headFields type len, f.Ok := by
  intro f hf
  simp only [headFields, List.mem_cons] at hf
  rcases hf with rfl | rfl | hf
  · exact Libevent.headFields_ok ht len _ (by simp [Libevent.headFields])
  · exact Libevent.headFields_ok ht len _ (by simp [Libevent.headFields])
  · exact hv f hf

/-- The three functions write what the style says. -/
structure Writes (v : Style) (fs : Fs) (head : Nat → Bytes → Bytes → Nat → List Bytes)
    (file dir : Bytes → List Bytes) : Prop where
  fields : ∀ f ∈ v.fields, f.Ok
  head : ∀ reqNo descp type len, (head reqNo descp type len).flatten =
    renderHead (Libevent.headLine reqNo descp) (v.headFields type len)
  file : ∀ path, (file path).flatten = fs.content path
  dir : ∀ path, (dir path).flatten = v.page fs path

section
variable {v : Style} {fs : Fs} {head : Nat → Bytes → Bytes → Nat → List Bytes}
  {file dir : Bytes → List Bytes}

/-- What is parsed from a head and the blocks after it. -/
theorem Writes.parse_append (h : v.Writes fs head file dir) {reqNo : Nat} {descp status : Bytes}
    (hs : Libevent.headLine reqNo descp = ascii "http/1.1 " ++ status)
    (hr : (13 : UInt8) ∉ ascii "http/1.1 " ++ status) {type : Bytes} (ht : (13 : UInt8) ∉ type)
    (len : Nat) (body : List Bytes) :
    parse (head reqNo descp type len ++ body).flatten =
      some (v.message status type len body.flatten) := by
  rw [List.flatten_append, h.head, hs]
  exact parse_render hr (headFields_ok h.fields ht len) body.flatten

theorem Writes.parse_respond (h : v.Writes fs head file dir) (path : Bytes) :
    parse (respond head file dir fs path).flatten = answer v fs path := by
  have htype := cr_notMem_getFileType
  unfold respond answer
  cases fs.stat path with
  | none =>
    rw [← h.file]
    exact h.parse_append (by decide) (by decide) (htype _) 1024 _
  | some st =>
    obtain ⟨kind, size⟩ := st
    cases kind with
    | dir =>
      simp only
      rw [← h.dir]
      exact h.parse_append (by decide) (by decide) (htype _) 99999 _
    | reg =>
      simp only
      rw [← h.file]
      exact h.parse_append (by decide) (by decide) (htype _) size _
    | other => rfl

end

end Style

end Http

namespace EpollHttp

open CLib Http Framing

/-! ## The epoll server -/

theorem httpGetRequest_eq (fs : Fs) (line : Bytes) : httpGetRequest fs line =
    respond sendResponseHead (sendFile fs) (sendDir fs) fs (requestPath line) := by
  simp only [httpGetRequest, respond]
  cases fs.stat (requestPath line) with
  | none => rfl
  | some st =>
    obtain ⟨kind, size⟩ := st
    cases kind <;> rfl

theorem writes (fs : Fs) : Style.epoll.Writes fs sendResponseHead (sendFile fs) (sendDir fs) where
  fields := by simp [Style.epoll]
  head reqNo descp type len := by
    simp [sendResponseHead, renderHead, Libevent.headLine, Style.headFields, Style.epoll,
      Field.render, ascii, crlf]
  file path := by
    unfold sendFile Fs.content
    cases fs.openRead path with
    | none => rfl
    | some content => exact Socket.blocks_flatten (by decide) content
  dir path := by
    rw [sendDir, Libevent.dirRounds_flatten]
    simp [Style.page, Style.epoll, dirHead, ascii]

theorem parse_httpGetRequest (fs : Fs) (line : Bytes) :
    parse (httpGetRequest fs line).flatten = answer .epoll fs (requestPath line) := by
  rw [httpGetRequest_eq]
  exact (writes fs).parse_respond (requestPath line)

end EpollHttp

namespace Libevent

open CLib Http Framing

/-! ## The libevent server -/

theorem httpResponse_eq (fs : Fs) (path : Bytes) : httpResponse fs path =
    respond sendResponseHead (sendFile fs) (sendDir fs) fs (filePath path) := by
  simp only [httpResponse, respond]
  cases fs.stat (filePath path) with
  | none => rfl
  | some st =>
    obtain ⟨kind, size⟩ := st
    cases kind <;> rfl

theorem writes (fs : Fs) : Style.libevent.Writes fs sendResponseHead (sendFile fs) (sendDir fs) where
  fields f hf := by
    rw [List.mem_singleton.1 hf]
    exact ⟨by decide, by decide⟩
  head := sendResponseHead_flatten
  file path := by
    unfold sendFile Fs.content
    cases fs.openRead path with
    | none => rfl
    | some content => exact readLoop_flatten content
  dir path := by
    rw [sendDir, dirRounds_flatten]
    simp [Style.page, Style.libevent, dirHead, ascii]

theorem parse_httpResponse (fs : Fs) (path : Bytes) :
    parse (httpResponse fs path).flatten = answer .libevent fs (filePath path) := by
  rw [httpResponse_eq]
  exact (writes fs).parse_respond (filePath path)

/-! ## The file -/

/-- The servers look at the same file, if there is no escape in the target. -/
theorem filePath_eq_iff {t : Bytes} (h0 : (0 : UInt8) ∉ t) :
    filePath t = EpollHttp.filePath t ↔ Percent.escapes t = 0 := by
  constructor
  · -- an escape makes the name shorter
    intro he
    by_contra hne
    have hd := (Percent.decoding_decode t).length
    have hl := filePath_length_le t
    have hlen : t.length - 1 ≤ (EpollHttp.filePath t).length := by
      unfold EpollHttp.filePath
      simp only
      split
      · rename_i hnil
        have := congrArg List.length hnil
        rw [List.length_drop, List.length_nil] at this
        omega
      · rw [List.length_drop]
    have hpos : (Percent.decode t).length ≠ 0 := by
      rw [ne_eq, List.length_eq_zero_iff]
      apply Percent.decode_ne_nil
      rintro rfl
      exact hne rfl
    rw [he, decodeStr_eq_decode] at hl
    omega
  · intro he
    have hd : decodeStr t = t := by rw [decodeStr_eq_decode, Percent.decode_of_escapes he]
    have hc : cstr (t.drop 1) = t.drop 1 := cstr_of_notMem fun h => h0 (List.mem_of_mem_drop h)
    unfold filePath EpollHttp.filePath
    rw [hd, hc]

end Libevent

namespace Http

open CLib Framing

namespace GetRequest

theorem requestLine_eq (r : GetRequest) :
    r.requestLine = ascii "GET" ++ 32 :: (r.target ++ 32 :: r.version) := by
  simp [requestLine, start]

theorem target_byte (r : GetRequest) :
    ∀ b ∈ r.target, b ≠ 32 ∧ b ≠ 0 ∧ b ≠ 13 ∧ b ≠ 10 := by
  intro b hb
  have hlt := r.target_ok b hb
  refine ⟨?_, ?_, ?_, ?_⟩ <;> rintro rfl <;> exact absurd hlt (by decide)

theorem version_length (r : GetRequest) : r.version.length = 8 := by
  obtain ⟨major, minor, -, -, hv⟩ := r.version_ok
  rw [hv]
  rfl

/-- The words that `cb_read` scans. -/
theorem scan_libevent (r : GetRequest) (hlen : r.target.length < 1024) :
    scan Libevent.requestFormat r.bytes = some [ascii "GET", r.target, r.version] := by
  obtain ⟨rest, hbytes⟩ : ∃ rest, r.bytes = r.start ++ 32 :: (r.version ++ 13 :: rest) := by
    simp [bytes, requestLine, crlf]
  have hmethod := r.scan_method (32 :: (r.version ++ 13 :: rest))
  have hskip := r.skip_target (32 :: (r.version ++ 13 :: rest))
  have hstop : ∀ b ∈ (32 :: (r.version ++ 13 :: rest)).head?, b = 32 := by simp
  have htarget := r.scan_target hstop
  have hblank : skipSpace (32 :: (r.version ++ 13 :: rest)) = r.version ++ 13 :: rest := by
    obtain ⟨major, minor, -, -, hv⟩ := r.version_ok
    rw [skipSpace_cons_space rfl, hv]
    exact skipSpace_of_head (by decide) _
  have hversion : scanSet (fun b => b = 32 || b = 13 || b = 10) (r.version ++ 13 :: rest) =
      some (r.version, 13 :: rest) := by
    refine scanSet_append ?_ (fun b hb => ?_) (by simp)
    · exact List.ne_nil_of_length_pos (by rw [r.version_length]; decide)
    · have hlt := r.version_lt b hb
      simp only [Bool.or_eq_false_iff, decide_eq_false_iff_not]
      refine ⟨⟨?_, ?_⟩, ?_⟩ <;> rintro rfl <;> exact absurd hlt (by decide)
  have hget : (ascii "GET").length < 50 := by decide
  have hver : r.version.length < 32 := by
    rw [r.version_length]
    decide
  simp only [Libevent.requestFormat, hbytes, scan, hmethod, hskip, htarget, hblank, hversion,
    if_pos hget, if_pos hlen, if_pos hver, Option.map_some]

/-- `cb_read` passes the target of a whole request on. -/
theorem cbReadMem_bytes (r : GetRequest) (hlen : r.target.length < 1024)
    (hbytes : r.bytes.length < 4096) : Libevent.cbReadMem r.bytes = some (some r.target) := by
  have hc : cstr (Libevent.readBuff r.bytes) = r.bytes := by
    rw [Libevent.cstr_readBuff, List.take_of_length_le (Nat.le_of_lt hbytes)]
    exact cstr_of_notMem r.zero_notMem_bytes
  have hget : Libevent.isGet (ascii "GET") = true := by decide +kernel
  rw [Libevent.cbReadMem, if_pos ((Libevent.zero_mem_readBuff _).2 (.inl hbytes)), hc,
    r.scan_libevent hlen]
  simp only [hget, if_true]
  rfl

end GetRequest

/-- The request line fits the array `line` of the epoll server and the request the array `buff` of the
libevent server; names and sizes are those of a file system; and path and name of every entry fit the
array `file` of the epoll server. -/
structure InBounds (fs : Fs) (r : GetRequest) : Prop where
  line : r.requestLine.length + 1 ≤ 1023
  bytes : r.bytes.length < 4096
  sizes : Libevent.SizesOk fs
  names : ∀ path names, fs.scandir path = some names →
    ∀ name ∈ names, 1 ≤ name.length ∧ name.length ≤ 255
  file : ∀ name ∈ (fs.scandir (EpollHttp.filePath r.target)).getD [],
    (EpollHttp.filePath r.target).length + name.length ≤ 1021

section
variable {fs : Fs} {r : GetRequest} (h : InBounds fs r)
include h

theorem InBounds.target_le : r.target.length ≤ 1009 := by
  have hline := h.line
  have hget : (ascii "GET").length = 3 := rfl
  simp only [r.requestLine_eq, List.length_append, List.length_cons, hget, r.version_length] at hline
  omega

theorem InBounds.names_getD (path : Bytes) :
    ∀ name ∈ (fs.scandir path).getD [], 1 ≤ name.length ∧ name.length ≤ 255 := by
  cases hs : fs.scandir path with
  | none => exact fun name hn => absurd hn List.not_mem_nil
  | some names => exact h.names path names hs

/-- The pages stay within the arrays. -/
theorem InBounds.writes_fit :
    (∀ w ∈ EpollHttp.dirWrites fs (EpollHttp.filePath r.target), w.used < w.size) ∧
      ∀ w ∈ Libevent.dirWrites fs (Libevent.filePath r.target), w.used < w.size := by
  have htarget := h.target_le
  have hepoll : (EpollHttp.filePath r.target).length ≤ 1022 :=
    EpollHttp.filePath_length (by omega)
  have hlibevent : (Libevent.filePath r.target).length ≤ 1022 :=
    Libevent.filePath_length (r.cbReadMem_bytes (by omega) h.bytes)
  exact ⟨(dirWrites_fit_iff h.sizes hepoll (h.names_getD _)).2.2 h.file,
    (dirWrites_fit_iff h.sizes hlibevent (h.names_getD _)).1⟩

/-- What the epoll server does with the request, and what a client gets that has room for it. -/
theorem InBounds.epoll {junk : Nat → Bytes} (hjunk : ∀ k, (junk k).length = 1024)
    {sock : EpollHttp.Sock} (hs : sock.bytes = r.bytes) :
    ∃ line blocks, (sock.doRead fs junk).1 = some [.httpGetRequest line,
        .stat (EpollHttp.filePath r.target), .send blocks, .disconnect] ∧
      (sock.doRead fs junk).2.bytes = [] ∧
      ∀ room : Nat → Nat, (∀ (i : Nat) (block : Bytes), blocks[i]? = some block →
          block.length ≤ room i) →
        parse (Socket.deliver room ⟨0, []⟩ blocks).accepted =
          answer .epoll fs (EpollHttp.filePath r.target) := by
  have hhead : ∀ b ∈ r.target.head?, isspace b = false := fun b hb =>
    isspace_of_lt (r.target_ok b (List.mem_of_mem_head? hb))
  have hversion : ∀ b ∈ r.version, b ≠ 0 ∧ b ≠ 13 ∧ b ≠ 10 := by
    intro b hb
    have hlt := r.version_lt b hb
    refine ⟨?_, ?_, ?_⟩ <;> rintro rfl <;> exact absurd hlt (by decide)
  have hlen := h.line
  rw [r.requestLine_eq] at hlen
  have hbytes : sock.bytes = ascii "GET" ++ 32 :: (r.target ++ 32 :: r.version) ++
      (crlf ++ (r.headers.flatMap (· ++ crlf) ++ crlf)) := by
    rw [hs, GetRequest.bytes, r.requestLine_eq, List.append_assoc, List.append_assoc]
  obtain ⟨line, hline, hevents, hdrained⟩ := EpollHttp.Sock.doRead_whole fs hjunk
    (show (ascii "GET").map tolower = ascii "get" by decide +kernel) r.target_ne hhead r.target_byte
    hversion hlen hbytes
  refine ⟨line, _, hevents, hdrained, fun room hroom => ?_⟩
  have hpath : EpollHttp.requestPath line = EpollHttp.filePath r.target := by
    have hstart : cstr line = r.start ++ 32 :: (r.version ++ [10]) := by
      rw [hline]
      simp [GetRequest.start]
    rw [EpollHttp.requestPath, hstart, EpollHttp.scanPath, r.scan_method]
    have hblank : ∀ b ∈ (32 :: (r.version ++ [10])).head?, b = 32 := by simp
    simp only [r.skip_target, r.scan_target hblank]
  rw [(Socket.deliver_eq_iff room _ ⟨0, []⟩).2 (by simpa using hroom), List.nil_append,
    EpollHttp.parse_httpGetRequest, hpath]

end

/-- **The two servers are one service.** To every request that arrives whole and stays within the arrays,
of any file system, a client of either server gets the answer, in the style of that server, about the
file that the server takes the target for: of the epoll server if every `send` takes its whole block,
of the libevent server if its output buffer is written out. That file is the same for both exactly if
the target has no percent escape. -/
theorem one_service {fs : Fs} {r : GetRequest} (h : InBounds fs r) {junk : Nat → Bytes}
    (hjunk : ∀ k, (junk k).length = 1024) {sock : EpollHttp.Sock} (hs : sock.bytes = r.bytes) :
    (∃ line blocks, (sock.doRead fs junk).1 = some [.httpGetRequest line,
        .stat (EpollHttp.filePath r.target), .send blocks, .disconnect] ∧
      (sock.doRead fs junk).2.bytes = [] ∧
      (∀ w ∈ EpollHttp.dirWrites fs (EpollHttp.filePath r.target), w.used < w.size) ∧
      ∀ room : Nat → Nat, (∀ (i : Nat) (block : Bytes), blocks[i]? = some block →
          block.length ≤ room i) →
        parse (Socket.deliver room ⟨0, []⟩ blocks).accepted =
          answer .epoll fs (EpollHttp.filePath r.target)) ∧
    (Libevent.cbReadMem r.bytes = some (some r.target) ∧
      (∀ w ∈ Libevent.dirWrites fs (Libevent.filePath r.target), w.used < w.size) ∧
      parse (Libevent.httpResponse fs r.target).flatten =
        answer .libevent fs (Libevent.filePath r.target)) ∧
    (EpollHttp.filePath r.target = Libevent.filePath r.target ↔
      Percent.escapes r.target = 0) := by
  have h0 : (0 : UInt8) ∉ r.target := fun h0 => absurd (r.target_ok 0 h0) (by decide)
  have htarget := h.target_le
  obtain ⟨hepoll, hlibevent⟩ := h.writes_fit
  obtain ⟨line, blocks, hevents, hdrained, hparse⟩ := h.epoll hjunk hs
  refine ⟨⟨line, blocks, hevents, hdrained, hepoll, hparse⟩,
    ⟨r.cbReadMem_bytes (by omega) h.bytes, hlibevent, Libevent.parse_httpResponse fs r.target⟩, ?_⟩
  rw [eq_comm]
  exact Libevent.filePath_eq_iff h0

/-- A directory `pub` with a file and a directory in it. -/
def pubFs : Fs where
  stat path :=
    if path = ascii "pub/a.txt" then some ⟨.reg, 3⟩
    else if path = ascii "pub" ∨ path = ascii "pub/sub" then some ⟨.dir, 4096⟩
    else none
  openRead path := if path = ascii "pub/a.txt" then some (ascii "abc") else none
  scandir path := if path = ascii "pub" then some [ascii "a.txt", ascii "sub"] else none
  junk _ := ⟨.other, 0⟩
  size_eq path size content hs ho := by
    split at ho
    · obtain rfl := Option.some.inj ho
      simp_all [ascii]
    · cases ho

def pubRequest : GetRequest where
  target := ascii "/pub"
  version := ascii "HTTP/1.0"
  headers := [ascii "Accept: */*"]
  target_ne := by decide
  target_ok := by decide +kernel
  version_ok := ⟨49, 48, by decide, by decide, by decide⟩
  headers_ok := by decide +kernel

theorem pub_sizesOk : Libevent.SizesOk pubFs where
  stat path st hs := by
    simp only [pubFs] at hs
    split at hs
    · obtain rfl := Option.some.inj hs
      decide
    · split at hs
      · obtain rfl := Option.some.inj hs
        decide
      · cases hs
  junk _ := (by decide : 0 < 2 ^ 63)

theorem pub_inBounds : InBounds pubFs pubRequest where
  line := by decide
  bytes := by decide
  sizes := pub_sizesOk
  names path names hs := by
    simp only [pubFs] at hs
    split at hs
    · obtain rfl := Option.some.inj hs
      decide
    · cases hs
  file := by decide +kernel

/-- The request has arrived, and the client waits. -/
def pubSock : EpollHttp.Sock where
  bytes := pubRequest.bytes
  last := fun _ => -1
  last_ok := fun _ => .inr rfl

theorem one_service_pub : ∃ line blocks,
    (pubSock.doRead pubFs fun _ => List.replicate 1024 7).1 =
      some [.httpGetRequest line, .stat (ascii "pub"), .send blocks, .disconnect] ∧
    parse (Socket.deliver (fun _ => blocks.flatten.length) ⟨0, []⟩ blocks).accepted =
      answer .epoll pubFs (ascii "pub") ∧
    parse (Libevent.httpResponse pubFs (ascii "/pub")).flatten =
      answer .libevent pubFs (ascii "pub") := by
  have hepoll : EpollHttp.filePath pubRequest.target = ascii "pub" := by decide
  obtain ⟨⟨line, blocks, hevents, -, -, hparse⟩, ⟨-, -, hpage⟩, hsame⟩ :=
    one_service pub_inBounds (fun _ => List.length_replicate ..) (rfl : pubSock.bytes = _)
  have hlibevent : Libevent.filePath pubRequest.target = ascii "pub" :=
    (hsame.2 (by decide +kernel)).symm.trans hepoll
  rw [hepoll] at hevents hparse
  rw [hlibevent] at hpage
  refine ⟨line, blocks, hevents, hparse _ fun i block hb => ?_, hpage⟩
  exact (List.sublist_flatten_of_mem (List.mem_of_getElem? hb)).length_le

end Http
