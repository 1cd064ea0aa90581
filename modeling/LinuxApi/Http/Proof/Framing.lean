import LinuxApi.Http.Proof.Listing
import LinuxApi.Lib.Message
import LinuxApi.Lib.Socket

/-!
# When a response of the libevent server is framed

`http_response` announces 1024 bytes for the error page and 99999 for every directory, and answers
nothing at all for what is neither a directory nor a regular file. `FramedWhen` says for which
files the announced length is the length of the body that follows (`httpResponse_framed_iff`).
-/

set_option autoImplicit false

namespace Libevent

open CLib Http Framing

/-! ## The header block -/

/-- The status line that `send_response_head` writes. -/
def headLine (reqNo : Nat) (descp : Bytes) : Bytes :=
  ascii "http/1.1 " ++ dec reqNo ++ ascii " " ++ descp

/-- The fields that `send_response_head` writes. -/
def headFields (type : Bytes) (len : Nat) : List Field :=
  [⟨ascii "Content-Type", type⟩, ⟨ascii "Content-Length", dec len⟩,
    ⟨ascii "Connection", ascii " close"⟩]

theorem sendResponseHead_flatten (reqNo : Nat) (descp type : Bytes) (len : Nat) :
    (sendResponseHead reqNo descp type len).flatten =
      renderHead (headLine reqNo descp) (headFields type len) := by
  simp [sendResponseHead, renderHead, headLine, headFields, Field.render, ascii, crlf]

theorem cr_notMem_dec (n : Nat) : (13 : UInt8) ∉ dec n := by
  intro h
  have hd : isDigit 13 = true := isDigit_dec h
  revert hd
  decide

theorem headFields_ok {type : Bytes} (ht : (13 : UInt8) ∉ type) (len : Nat) :
    ∀ f ∈ headFields type len, f.Ok := by
  have htype : (58 : UInt8) ∉ ascii "Content-Type" ∧ (13 : UInt8) ∉ ascii "Content-Type" := by
    decide
  have hlen : (58 : UInt8) ∉ ascii "Content-Length" ∧ (13 : UInt8) ∉ ascii "Content-Length" := by
    decide
  have hd := cr_notMem_dec len
  intro f hf
  simp only [headFields, List.mem_cons, List.not_mem_nil, or_false] at hf
  rcases hf with rfl | rfl | rfl
  · exact ⟨htype.1, by simp [Field.render, htype.2, ht]⟩
  · exact ⟨hlen.1, by simp [Field.render, hlen.2, hd]⟩
  · exact ⟨by decide, by decide⟩

theorem headFields_contentLength (start type body : Bytes) (len : Nat) :
    (⟨start, headFields type len, body⟩ : Message).contentLength = some len := by
  have h1 : ascii "Content-Type" ≠ ascii "Content-Length" := by decide
  have h2 : ascii "Connection" ≠ ascii "Content-Length" := by decide
  simp [Message.contentLength, headFields, h1, h2, undec_dec]

/-- A response is framed if the body is as long as announced. -/
theorem framed_head_append {reqNo : Nat} {descp type : Bytes}
    (hs : statusLine (headLine reqNo descp) = true) (hr : (13 : UInt8) ∉ headLine reqNo descp)
    (ht : (13 : UInt8) ∉ type) (len : Nat) (body : List Bytes) :
    Framed (sendResponseHead reqNo descp type len ++ body).flatten ↔
      body.flatten.length = len := by
  have hp := parse_render hr (headFields_ok ht len) body.flatten
  have hl := headFields_contentLength (headLine reqNo descp) type body.flatten len
  rw [List.flatten_append, sendResponseHead_flatten]
  constructor
  · rintro ⟨m, hm, -, hc⟩
    obtain rfl := Option.some.inj (hp.symm.trans hm)
    exact (Option.some.inj (hl.symm.trans hc)).symm
  · intro hb
    exact ⟨_, hp, hs, by rw [hl, hb]⟩

/-! ## The bodies -/

theorem readLoop_eq_blocks (rest : Bytes) : readLoop rest = Socket.blocks 4096 rest := by
  rw [readLoop, Socket.blocks]
  split
  · rw [readLoop_eq_blocks (rest.drop 4096)]
  · rfl
termination_by rest.length
decreasing_by
  simp only [List.length_take, List.length_drop] at *
  omega

theorem readLoop_flatten (rest : Bytes) : (readLoop rest).flatten = rest := by
  rw [readLoop_eq_blocks]
  exact Socket.blocks_flatten (by decide) rest

theorem sendFile_length (fs : Fs) (path : Bytes) :
    (sendFile fs path).flatten.length = ((fs.openRead path).map List.length).getD 0 := by
  unfold sendFile
  split <;> simp [readLoop_flatten, *]

/-- The number of bytes of a row: the name twice and the decimal digits of the size. -/
def rowLength (name : Bytes) (st : Stat) : Nat :=
  match st.kind with
  | .reg => 42 + 2 * name.length + (dec st.size).length
  | .dir => 44 + 2 * name.length + (dec st.size).length
  | .other => 0

/-- The rows of the entries from `i` on. -/
def rowsLength (fs : Fs) (path : Bytes) : Nat → List Bytes → Nat
  | _, [] => 0
  | i, name :: names =>
    rowLength name (entryStat fs path i name) + rowsLength fs path (i + 1) names

/-- The number of bytes of the page of a directory. -/
def pageLength (fs : Fs) (path : Bytes) : Nat :=
  143 + 2 * path.length + rowsLength fs path 0 ((fs.scandir path).getD [])

theorem dirRow_length (name : Bytes) (st : Stat) : (dirRow name st).length = rowLength name st := by
  unfold dirRow rowLength
  cases st.kind with
  | reg => simp [ascii]; omega
  | dir => simp [ascii]; omega
  | other => rfl

theorem rowsFrom_length (fs : Fs) (path : Bytes) (i : Nat) (names : List Bytes) :
    (rowsFrom fs path i names).length = rowsLength fs path i names := by
  induction names generalizing i with
  | nil => rfl
  | cons name names ih => rw [rowsFrom, List.length_append, ih, dirRow_length, rowsLength]

theorem dirRounds_length (fs : Fs) (path : Bytes) (i : Nat) (names : List Bytes) (buff : Bytes) :
    (dirRounds fs path i names buff).flatten.length =
      buff.length + rowsLength fs path i names + 31 := by
  rw [dirRounds_flatten, List.length_append, List.length_append, rowsFrom_length]
  rfl

theorem sendDir_length (fs : Fs) (path : Bytes) :
    (sendDir fs path).flatten.length = pageLength fs path := by
  rw [sendDir, dirRounds_length, pageLength]
  simp [dirHead, ascii]
  omega

/-! ## `http_response` -/

/-- The files for which the announced length is right: a regular one that can be opened or is empty,
a missing one if `404.html` has 1024 bytes, a directory whose page has 99999. -/
def FramedWhen (fs : Fs) (file : Bytes) : Prop :=
  match fs.stat file with
  | none => ∃ content, fs.openRead (ascii "404.html") = some content ∧ content.length = 1024
  | some ⟨.reg, size⟩ => (fs.openRead file).isSome = true ∨ size = 0
  | some ⟨.dir, _⟩ => pageLength fs file = 99999
  | some ⟨.other, _⟩ => False

/-- **When a response is framed**: exactly when `FramedWhen` holds of the file it is about. -/
theorem httpResponse_framed_iff (fs : Fs) (path : Bytes) :
    Framed (httpResponse fs path).flatten ↔ FramedWhen fs (filePath path) := by
  have h404 : statusLine (headLine 404 (ascii "ERRO")) = true := by decide
  have h200 : statusLine (headLine 200 (ascii "OK")) = true := by decide
  have hc404 : (13 : UInt8) ∉ headLine 404 (ascii "ERRO") := by decide
  have hc200 : (13 : UInt8) ∉ headLine 200 (ascii "OK") := by decide
  have htype := cr_notMem_getFileType
  simp only [httpResponse, FramedWhen]
  cases hst : fs.stat (filePath path) with
  | none =>
    rw [framed_head_append h404 hc404 (htype _), sendFile_length]
    cases fs.openRead (ascii "404.html") <;> simp
  | some st =>
    obtain ⟨kind, size⟩ := st
    cases kind with
    | dir => rw [framed_head_append h200 hc200 (htype _), sendDir_length]
    | reg =>
      rw [framed_head_append h200 hc200 (htype _), sendFile_length]
      cases ho : fs.openRead (filePath path) with
      | none => simp [eq_comm]
      | some content => simp [fs.size_eq _ _ _ hst ho]
    | other =>
      apply iff_of_false _ id
      rintro ⟨m, hm, _⟩
      cases hm

/-- No file at all: the error page announces 1024 bytes, and no byte follows. -/
theorem httpResponse_framed_fails : ¬ ∀ fs path, Framed (httpResponse fs path).flatten := by
  intro hall
  have h := hall ⟨fun _ => none, fun _ => none, fun _ => none, fun _ => ⟨.other, 0⟩,
    fun _ _ _ h => (by cases h)⟩ (ascii "/missing")
  have hb := (framed_head_append (by decide) (by decide) (cr_notMem_getFileType _) _ _).1 h
  revert hb
  decide

end Libevent
