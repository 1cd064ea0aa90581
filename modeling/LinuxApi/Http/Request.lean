import LinuxApi.Lib.Scanf

/-!
# Well-formed `GET` requests

What a client may send: a request line, header lines and an empty line. The servers are modelled
on arbitrary bytes; `GetRequest` is the domain of the claims about well-formed requests.
-/

set_option autoImplicit false

namespace Http

open CLib

/-- A `GET` request without a body. The target has no blanks or control characters, the version is
`HTTP/` and two digits with a point between them, and no header line is empty or contains a line
break or a `NUL`. -/
structure GetRequest where
  target : Bytes
  version : Bytes
  headers : List Bytes
  target_ne : target ≠ []
  target_ok : ∀ b ∈ target, 32 < b
  version_ok : ∃ major minor, isDigit major = true ∧ isDigit minor = true ∧
    version = ascii "HTTP/" ++ [major, 46, minor]
  headers_ok : ∀ h ∈ headers, h ≠ [] ∧ ∀ b ∈ h, b ≠ 0 ∧ b ≠ 10 ∧ b ≠ 13

namespace GetRequest

/-- The method and the target. -/
def start (r : GetRequest) : Bytes := ascii "GET" ++ 32 :: r.target

/-- The request line without its line break. -/
def requestLine (r : GetRequest) : Bytes := r.start ++ 32 :: r.version

def bytes (r : GetRequest) : Bytes :=
  r.requestLine ++ crlf ++ r.headers.flatMap (· ++ crlf) ++ crlf

theorem start_length (r : GetRequest) : r.start.length = r.target.length + 4 := by
  simp [start, ascii]

theorem version_lt (r : GetRequest) : ∀ b ∈ r.version, 32 < b := by
  obtain ⟨major, minor, h1, h2, hv⟩ := r.version_ok
  have hhttp : ∀ b ∈ ascii "HTTP/", (32 : UInt8) < b := by decide +kernel
  have hdigit : ∀ {b : UInt8}, isDigit b = true → 32 < b := fun h => by
    simp only [isDigit, Bool.and_eq_true, decide_eq_true_eq] at h
    exact UInt8.lt_of_lt_of_le (by decide) h.1
  intro b hb
  simp only [hv, List.mem_append, List.mem_cons, List.not_mem_nil, or_false] at hb
  rcases hb with hb | rfl | rfl | rfl
  · exact hhttp b hb
  · exact hdigit h1
  · decide
  · exact hdigit h2

/-- The request line consists of printable bytes and blanks. -/
theorem requestLine_ok (r : GetRequest) : ∀ b ∈ r.requestLine, 32 ≤ b := by
  have hget : ∀ b ∈ ascii "GET", (32 : UInt8) ≤ b := by decide +kernel
  intro b hb
  simp only [requestLine, start, List.append_assoc, List.cons_append, List.mem_append,
    List.mem_cons] at hb
  rcases hb with hb | rfl | hb | rfl | hb
  · exact hget b hb
  · exact UInt8.le_refl _
  · exact UInt8.le_of_lt (r.target_ok b hb)
  · exact UInt8.le_refl _
  · exact UInt8.le_of_lt (r.version_lt b hb)

theorem requestLine_noBreak (r : GetRequest) : ∀ b ∈ r.requestLine, b ≠ 10 ∧ b ≠ 13 := by
  refine fun b hb => ⟨?_, ?_⟩ <;> rintro rfl <;> exact absurd (r.requestLine_ok _ hb) (by decide)

theorem zero_notMem_start (r : GetRequest) : (0 : UInt8) ∉ r.start := fun h =>
  absurd (r.requestLine_ok 0 (List.mem_append_left _ h)) (by decide)

/-- No byte of a request is `NUL`. -/
theorem zero_notMem_bytes (r : GetRequest) : (0 : UInt8) ∉ r.bytes := by
  intro h
  simp only [bytes, List.append_assoc, List.mem_append, List.mem_flatMap] at h
  rcases h with h | h | ⟨l, hl, h | h⟩ | h
  · exact absurd (r.requestLine_ok 0 h) (by decide)
  · revert h; decide
  · exact ((r.headers_ok l hl).2 0 h).1 rfl
  · revert h; decide
  · revert h; decide

/-! ## The words of the request line -/

theorem scan_method (r : GetRequest) (rest : Bytes) :
    scanSet (· = 32) (r.start ++ rest) = some (ascii "GET", 32 :: (r.target ++ rest)) := by
  have h : scanSet (· = 32) (ascii "GET" ++ 32 :: (r.target ++ rest)) =
      some (ascii "GET", 32 :: (r.target ++ rest)) :=
    scanSet_append (by decide) (by decide +kernel) (by simp)
  rw [start, List.append_assoc]
  exact h

theorem skip_target (r : GetRequest) (rest : Bytes) :
    skipSpace (32 :: (r.target ++ rest)) = r.target ++ rest := by
  rw [skipSpace_cons_space (by decide)]
  cases ht : r.target with
  | nil => exact absurd ht r.target_ne
  | cons b t => exact skipSpace_of_head (isspace_of_lt (r.target_ok b (by simp [ht]))) _

theorem scan_target (r : GetRequest) {rest : Bytes} (hr : ∀ b ∈ rest.head?, b = 32) :
    scanSet (· = 32) (r.target ++ rest) = some (r.target, rest) := by
  refine scanSet_append r.target_ne (fun b hb => ?_) fun b hb => by simp [hr b hb]
  simpa using (UInt8.ne_of_lt (r.target_ok b hb)).symm

end GetRequest

end Http
