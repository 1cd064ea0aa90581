import LinuxApi.Lib.CString

/-!
# Messages with a header block

`parse` reads a message the way a client does: a start line, fields up to an empty line, and the
rest as body. A message is `Framed` if there is exactly one `Content-Length` field and it
announces the length of the body. `parse_render` says what is parsed from a head that was put
together line by line.
-/

set_option autoImplicit false

namespace Framing

open CLib

/-- A line up to `CR LF`, and what follows it. -/
def takeLine : Bytes → Option (Bytes × Bytes)
  | [] => none
  | b :: rest =>
    if b = 13 ∧ rest.head? = some 10 then some ([], rest.tail)
    else (takeLine rest).map fun x => (b :: x.1, x.2)

structure Field where
  name : Bytes
  value : Bytes
deriving DecidableEq, Repr

structure Message where
  start : Bytes
  fields : List Field
  body : Bytes
deriving DecidableEq, Repr

/-- `name:value` -/
def parseField (line : Bytes) : Option Field :=
  match line.dropWhile (· ≠ 58) with
  | [] => none
  | _ :: value => some ⟨line.takeWhile (· ≠ 58), value⟩

theorem takeLine_length {bs line rest : Bytes} (h : takeLine bs = some (line, rest)) :
    rest.length < bs.length := by
  induction bs generalizing line with
  | nil => cases h
  | cons b bs ih =>
    simp only [takeLine] at h
    split at h
    · cases h
      simp only [List.length_tail, List.length_cons]
      omega
    · obtain ⟨⟨line', rest'⟩, hl, he⟩ := Option.map_eq_some_iff.1 h
      cases he
      exact Nat.lt_succ_of_lt (ih hl)

/-- The fields up to the empty line, and the body. -/
def parseFields (bs : Bytes) : Option (List Field × Bytes) :=
  match h : takeLine bs with
  | none => none
  | some ([], body) => some ([], body)
  | some (line, rest) =>
    have := takeLine_length h
    match parseField line, parseFields rest with
    | some f, some (fs, body) => some (f :: fs, body)
    | _, _ => none
termination_by bs.length

def parse (bs : Bytes) : Option Message :=
  match takeLine bs with
  | none => none
  | some (start, rest) => (parseFields rest).map fun x => ⟨start, x.1, x.2⟩

/-- The announced length, if exactly one field announces it. -/
def Message.contentLength (m : Message) : Option Nat :=
  match m.fields.filter (·.name = ascii "Content-Length") with
  | [f] => undec f.value
  | _ => none

/-- `http/1.1`, in any case, a code of three digits and a reason. -/
def statusLine (line : Bytes) : Bool :=
  ((line.take 9).map fun b => if 65 ≤ b ∧ b ≤ 90 then b + 32 else b) = ascii "http/1.1 " &&
    ((line.drop 9).take 3).length = 3 && ((line.drop 9).take 3).all isDigit &&
    (line.drop 12).head? = some 32

/-- A status line and header block, and a body of the announced length. -/
def Framed (bs : Bytes) : Prop :=
  ∃ m, parse bs = some m ∧ statusLine m.start = true ∧ m.contentLength = some m.body.length

/-! ## Parsing what was put together -/

theorem takeLine_append {line : Bytes} (h : (13 : UInt8) ∉ line) (rest : Bytes) :
    takeLine (line ++ crlf ++ rest) = some (line, rest) := by
  induction line with
  | nil => rfl
  | cons b line ih =>
    obtain ⟨hb, hl⟩ := List.ne_and_not_mem_of_not_mem_cons h
    have hne : ¬ (b = 13 ∧ (line ++ crlf ++ rest).head? = some 10) := by
      intro hc
      exact hb hc.1.symm
    simp only [List.cons_append, takeLine, if_neg hne]
    rw [ih hl]
    rfl

/-- A field as it is written. -/
def Field.render (f : Field) : Bytes := f.name ++ 58 :: f.value

/-- A field that can be read back: no `:` in the name and no `CR`. -/
structure Field.Ok (f : Field) : Prop where
  name : (58 : UInt8) ∉ f.name
  line : (13 : UInt8) ∉ f.render

theorem parseField_render {f : Field} (h : (58 : UInt8) ∉ f.name) :
    parseField f.render = some f := by
  have hp : ∀ b ∈ f.name, decide (b ≠ 58) = true := by
    intro b hb
    apply decide_eq_true
    rintro rfl
    exact h hb
  simp only [parseField, Field.render]
  rw [List.dropWhile_append_of_pos hp, List.takeWhile_append_of_pos hp]
  simp

/-- A head that was put together line by line. -/
def renderHead (start : Bytes) (fields : List Field) : Bytes :=
  start ++ crlf ++ fields.flatMap (fun f => f.render ++ crlf) ++ crlf

theorem parseFields_render {fields : List Field} (h : ∀ f ∈ fields, f.Ok) (body : Bytes) :
    parseFields (fields.flatMap (fun f => f.render ++ crlf) ++ crlf ++ body) =
      some (fields, body) := by
  induction fields with
  | nil =>
    rw [parseFields]
    rfl
  | cons f fields ih =>
    have hf := h f List.mem_cons_self
    have htl : takeLine ((f :: fields).flatMap (fun f => f.render ++ crlf) ++ crlf ++ body) =
        some (f.render, fields.flatMap (fun f => f.render ++ crlf) ++ crlf ++ body) := by
      rw [List.flatMap_cons, ← takeLine_append hf.line]
      simp only [List.append_assoc]
    rw [parseFields]
    split
    · rename_i he
      rw [htl] at he
      cases he
    · rename_i b he
      rw [htl] at he
      simp [Field.render] at he
    · rename_i line rest _ he
      rw [htl] at he
      cases he
      simp only [ih fun g hg => h g (List.mem_cons_of_mem _ hg), parseField_render hf.name]

/-- What is put together is read back. -/
theorem parse_render {start : Bytes} {fields : List Field} (hs : (13 : UInt8) ∉ start)
    (h : ∀ f ∈ fields, f.Ok) (body : Bytes) :
    parse (renderHead start fields ++ body) = some ⟨start, fields, body⟩ := by
  have htl := takeLine_append hs (fields.flatMap (fun f => f.render ++ crlf) ++ crlf ++ body)
  have he : renderHead start fields ++ body =
      start ++ crlf ++ (fields.flatMap (fun f => f.render ++ crlf) ++ crlf ++ body) := by
    simp only [renderHead, List.append_assoc]
  rw [parse, he, htl]
  simp only [parseFields_render h, Option.map_some]

end Framing
