import LinuxApi.Http.Proof.GetLine
import LinuxApi.Http.Proof.Parse

/-!
# What `do_read` does with a whole request

A `GET` request of which all bytes have arrived is read to its end, and answered once, for the path
of its target (`doRead_get`). The path is the one that the model of the server for bytes in segments
answers (`doRead_stat`).
-/

set_option autoImplicit false

namespace EpollHttp.Sock

open CLib Http Lines

/-! ## The request line -/

/-- The letters of `GET` in upper or lower case. -/
theorem get_letters {b : UInt8} (h : tolower b ∈ ascii "get") :
    b ≠ 32 ∧ b ≠ 0 ∧ b ≠ 13 ∧ b ≠ 10 := by
  revert b
  decide +kernel

section
variable {g t v : Bytes}

theorem method_ok (hg : g.map tolower = ascii "get") :
    g.length = 3 ∧ ∀ b ∈ g, b ≠ 32 ∧ b ≠ 0 ∧ b ≠ 13 ∧ b ≠ 10 := by
  constructor
  · have h := congrArg List.length hg
    rw [List.length_map] at h
    exact h
  · intro b hb
    exact get_letters (hg ▸ List.mem_map_of_mem hb)

/-- The words of the line. -/
theorem scan_get (hg : g.map tolower = ascii "get") {b : UInt8} {t : Bytes}
    (hb : isspace b = false) (ht : ∀ c ∈ b :: t, c ≠ 32) (hlen : (b :: t).length < 1024) :
    scan requestFormat (g ++ 32 :: (b :: t ++ 32 :: v)) = some [g, b :: t] := by
  obtain ⟨h3, hgok⟩ := method_ok hg
  have hmethod : scanSet (· = 32) (g ++ 32 :: (b :: t ++ 32 :: v)) =
      some (g, 32 :: (b :: t ++ 32 :: v)) :=
    scanSet_append (List.ne_nil_of_length_pos (by omega))
      (fun c hc => by simpa using (hgok c hc).1) (by simp)
  have hskip : skipSpace (32 :: (b :: t ++ 32 :: v)) = b :: t ++ 32 :: v := by
    rw [skipSpace_cons_space rfl]
    exact skipSpace_of_head hb _
  have htarget : scanSet (· = 32) (b :: t ++ 32 :: v) = some (b :: t, 32 :: v) :=
    scanSet_append (by simp) (fun c hc => by simpa using ht c hc) (by simp)
  simp only [requestFormat, scan, hmethod, hskip, htarget, if_pos hlen,
    if_pos (show g.length < 10 by omega), Option.map_some]

/-- The line passes the test of `do_read`. -/
theorem isGet_get (hg : g.map tolower = ascii "get") {line tail : Bytes}
    (h : cstr line = g ++ tail) : isGet line = true := by
  rw [isGet, h, List.take_left' (method_ok hg).1, hg]
  rfl

end

/-! ## The run -/

/-- `do_read` reads until nothing is left. -/
theorem doRead_drains (fs : Fs) {junk : Nat → Bytes} (hjunk : ∀ k, (junk k).length = 1024)
    (sock : Sock) : (sock.doRead fs junk).2.bytes = [] := by
  obtain ⟨hok, hp, hr⟩ := getLine_ok (show 0 < 1024 by decide) (List.length_replicate ..) sock
  simp only [doRead]
  split
  · rename_i h0
    have hnil : (cutLine (1022 + 1) sock.bytes).1 = [] := by
      rw [← show _ = (cutLine (1022 + 1) sock.bytes).1 from hp]
      exact List.eq_nil_of_length_eq_zero (hok.len.trans h0)
    rw [hr, cutLine_eq_nil hnil]
    rfl
  · exact (getLines_split (by decide) junk hjunk _).drained

/-- The string in the array `line` after the first call. -/
theorem cstr_getLine (sock : Sock) :
    cstr (sock.getLine (List.replicate 1024 0) 1024).buf = cstr (cutLine 1023 sock.bytes).1 := by
  obtain ⟨sock', -, h⟩ := getLine_eq (show 0 < 1024 by decide)
    (List.length_replicate ..) sock
  rw [h]
  exact cstr_terminated _ _

theorem getLine_whole {sock : Sock} {line r : Bytes}
    (hl : ∀ b ∈ line, b ≠ 0 ∧ b ≠ 13 ∧ b ≠ 10) (hlen : line.length + 1 ≤ 1023)
    (hs : sock.bytes = line ++ (crlf ++ r)) :
    cstr (sock.getLine (List.replicate 1024 0) 1024).buf = line ++ [10] := by
  have hcut : cutLine 1023 sock.bytes = (line ++ [10], r) := by
    rw [hs]
    exact cutLine_crlf (fun b hb => ⟨(hl b hb).2.2, (hl b hb).2.1⟩) (by omega) r
  rw [cstr_getLine, hcut]
  apply cstr_of_notMem
  intro h
  rcases List.mem_append.1 h with h | h
  · exact (hl 0 h).1 rfl
  · revert h
    decide

/-- The path that an event hands to `stat`. -/
def Event.path? : Event → Option Bytes
  | .stat path => some path
  | _ => none

/-- Where the words fit, the path is the one of the model of `do_read` for bytes that arrive in
segments. -/
theorem doRead_stat {fs : Fs} {junk : Nat → Bytes} {sock : Sock} {events : List Event}
    (h : (sock.doRead fs junk).1 = some events) (report : Bool) :
    (EpollHttp.doRead ⟨[], sock.bytes, report⟩).1 = events.findSome? Event.path? := by
  have hconn := getLine_eq_cutLine 1023 sock.bytes report
  have hline := cstr_getLine sock
  generalize (cutLine 1023 sock.bytes).1 = piece at hconn hline
  have hget : isGet (sock.getLine (List.replicate 1024 0) 1024).buf = isGet piece := by
    rw [isGet, isGet, hline]
  have hconn1 : (EpollHttp.doRead ⟨[], sock.bytes, report⟩).1 =
      if isGet piece then some (requestPath piece) else none := by
    rw [EpollHttp.doRead, hconn]
  rw [hconn1]
  simp only [doRead, hget, httpGetRequest, hline] at h
  by_cases hg : isGet piece = true
  · rw [if_pos hg] at h ⊢
    obtain ⟨_, hs, rfl⟩ := Option.map_eq_some_iff.1 h
    obtain ⟨words, hwords, rfl⟩ := Option.map_eq_some_iff.1 hs
    rw [requestPath, scanPath_of_scan hwords]
    rfl
  · rw [if_neg hg] at h ⊢
    obtain rfl := Option.some.inj h
    rfl

section
variable (fs : Fs) {junk : Nat → Bytes} (hjunk : ∀ k, (junk k).length = 1024) {sock : Sock}
  {g t v r : Bytes} (hg : g.map tolower = ascii "get")
include hjunk hg

/-- A request of which all bytes have arrived. -/
theorem doRead_whole (hne : t ≠ []) (hhead : ∀ b ∈ t.head?, isspace b = false)
    (ht : ∀ b ∈ t, b ≠ 32 ∧ b ≠ 0 ∧ b ≠ 13 ∧ b ≠ 10) (hv : ∀ b ∈ v, b ≠ 0 ∧ b ≠ 13 ∧ b ≠ 10)
    (hlen : (g ++ 32 :: (t ++ 32 :: v)).length + 1 ≤ 1023)
    (hs : sock.bytes = g ++ 32 :: (t ++ 32 :: v) ++ (crlf ++ r)) :
    ∃ line : Bytes, cstr line = g ++ 32 :: (t ++ 32 :: v) ++ [10] ∧
      (sock.doRead fs junk).1 = some [.httpGetRequest line, .stat (filePath t),
        .send (EpollHttp.httpGetRequest fs line), .disconnect] ∧
      (sock.doRead fs junk).2.bytes = [] := by
  have hok : ∀ b ∈ g ++ 32 :: (t ++ 32 :: v), b ≠ 0 ∧ b ≠ 13 ∧ b ≠ 10 := by
    intro b hb
    simp only [List.mem_append, List.mem_cons] at hb
    rcases hb with hb | rfl | hb | rfl | hb
    · exact ((method_ok hg).2 b hb).2
    · decide
    · exact (ht b hb).2
    · decide
    · exact hv b hb
  have hline := getLine_whole hok hlen hs
  obtain ⟨b, t, rfl⟩ := List.exists_cons_of_ne_nil hne
  refine ⟨_, hline, ?_, doRead_drains fs hjunk sock⟩
  have htlen : (b :: t).length < 1024 := by
    simp only [List.length_append, List.length_cons] at hlen ⊢
    omega
  have hscan := scan_get (v := v ++ [10]) hg (hhead b rfl) (fun c hc => (ht c hc).1) htlen
  have hassoc : g ++ 32 :: (b :: t ++ 32 :: (v ++ [10])) = g ++ 32 :: (b :: t ++ 32 :: v) ++ [10] := by
    simp
  have hget := isGet_get hg
    (hline.trans (hassoc ▸ rfl : _ = g ++ 32 :: (b :: t ++ 32 :: (v ++ [10]))))
  rw [hassoc, ← hline] at hscan
  simp only [doRead, hget, if_true, httpGetRequest, hscan]
  rfl

end

end EpollHttp.Sock
