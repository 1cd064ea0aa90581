import LinuxApi.Lib.CString

/-!
# Pipes

A pipe with its capacity, what is in it, and how many descriptors of its write end are open, in
whichever processes. A write of at most `PIPE_BUF` bytes is done at once or waits for room; a read takes
what there is, waits if there is nothing, and returns the end of the file when nothing can come
any more: when no descriptor of the write end is open (`read_eof_iff`). What comes out is what went in
(`Sound`).
-/

set_option autoImplicit false

open CLib

/-- `sent` and `got` are all that was ever written and read. -/
structure Pipe where
  data : Bytes
  writers : Nat
  sent : Bytes
  got : Bytes
deriving DecidableEq, Repr

namespace Pipe

/-- The room in a pipe. -/
def capacity : Nat := 65536

/-- A write of at most `PIPE_BUF` bytes, while there are readers; `none` waits. -/
def write (p : Pipe) (bytes : Bytes) : Option Pipe :=
  if p.data.length + bytes.length ≤ capacity then
    some { p with data := p.data ++ bytes, sent := p.sent ++ bytes }
  else none

/-- A read of at most `n` bytes, which is the end of the file if it returns none; `none` waits. -/
def read (p : Pipe) (n : Nat) : Option (Bytes × Pipe) :=
  if p.data = [] then if p.writers = 0 then some ([], p) else none
  else some (p.data.take n, { p with data := p.data.drop n, got := p.got ++ p.data.take n })

/-- What was read and what is left is what was written. -/
def Sound (p : Pipe) : Prop := p.got ++ p.data = p.sent

section
variable {p p' : Pipe} {bytes chunk : Bytes} {n : Nat}

theorem write_eq_some (h : p.write bytes = some p') : p.data.length + bytes.length ≤ capacity ∧
    p' = { p with data := p.data ++ bytes, sent := p.sent ++ bytes } := by
  unfold write at h
  split at h
  · rename_i hc
    exact ⟨hc, (Option.some.inj h).symm⟩
  · cases h

/-- The ways in which a read returns. -/
theorem read_cases (h : p.read n = some (chunk, p')) :
    (p.data = [] ∧ p.writers = 0 ∧ chunk = [] ∧ p' = p) ∨
      (p.data ≠ [] ∧ chunk = p.data.take n ∧
        p' = { p with data := p.data.drop n, got := p.got ++ p.data.take n }) := by
  unfold read at h
  split at h
  · rename_i hd
    split at h
    · rename_i hw
      cases h
      exact .inl ⟨hd, hw, rfl, rfl⟩
    · cases h
  · rename_i hd
    cases h
    exact .inr ⟨hd, rfl, rfl⟩

/-- A read from a pipe that is not empty is not the end of the file. -/
theorem take_ne_nil (hn : 0 < n) (hd : p.data ≠ []) : p.data.take n ≠ [] := by
  intro h
  rcases List.take_eq_nil_iff.1 h with h0 | hnil
  · omega
  · exact hd hnil

/-- When the end of the file is read. -/
theorem read_eof_iff (hn : 0 < n) :
    (∃ p', p.read n = some ([], p')) ↔ p.data = [] ∧ p.writers = 0 := by
  constructor
  · rintro ⟨p', h⟩
    rcases read_cases h with ⟨hd, hw, -, -⟩ | ⟨hd, hc, -⟩
    · exact ⟨hd, hw⟩
    · exact absurd hc.symm (take_ne_nil hn hd)
  · rintro ⟨hd, hw⟩
    exact ⟨p, by rw [read, if_pos hd, if_pos hw]⟩

theorem Sound.write (hs : p.Sound) (h : p.write bytes = some p') : p'.Sound := by
  obtain ⟨-, rfl⟩ := write_eq_some h
  show p.got ++ (p.data ++ bytes) = p.sent ++ bytes
  rw [← List.append_assoc, hs]

theorem Sound.read (hs : p.Sound) (h : p.read n = some (chunk, p')) : p'.Sound := by
  rcases read_cases h with ⟨-, -, -, rfl⟩ | ⟨-, -, rfl⟩
  · exact hs
  · show p.got ++ p.data.take n ++ p.data.drop n = p.sent
    rw [List.append_assoc, List.take_append_drop, hs]

end

end Pipe
