import LinuxApi.Lib.CString

/-!
# Writing to a non-blocking socket

A socket takes of every `send` what it has room for: `room i` bytes at call number `i`, none of
which is `EAGAIN`. Any sequence of full and short writes is some `room`. `deliver` sends blocks one
after another without looking at what `send` returns; then everything arrives exactly if
every call finds room for its whole block (`deliver_eq_iff`). `blocks size` are the blocks in which
a file is read.
-/

set_option autoImplicit false

namespace Socket

open CLib

/-- The sending side of a socket: how often `send` was called and what it has taken. -/
structure Out where
  calls : Nat
  accepted : Bytes
deriving DecidableEq, Repr

section
variable (room : Nat → Nat)

/-- `send(fd, block, len, 0)` -/
def send (o : Out) (block : Bytes) : Int × Out :=
  let taken := block.take (room o.calls)
  (if taken = [] ∧ block ≠ [] then -1 else taken.length,
    { calls := o.calls + 1, accepted := o.accepted ++ taken })

/-- `send` for each block, whatever it returns. -/
def deliver (o : Out) (bs : List Bytes) : Out := bs.foldl (fun o b => (send room o b).2) o

theorem deliver_cons (o : Out) (b : Bytes) (bs : List Bytes) :
    deliver room o (b :: bs) =
      deliver room ⟨o.calls + 1, o.accepted ++ b.take (room o.calls)⟩ bs := rfl

/-- No more arrives than is sent. -/
theorem deliver_length_le (bs : List Bytes) (o : Out) :
    (deliver room o bs).accepted.length ≤ o.accepted.length + bs.flatten.length := by
  induction bs generalizing o with
  | nil => exact Nat.le_refl _
  | cons b bs ih =>
    have h := ih ⟨o.calls + 1, o.accepted ++ b.take (room o.calls)⟩
    rw [deliver_cons, List.flatten_cons, List.length_append]
    simp only [List.length_append, List.length_take] at h
    omega

theorem deliver_eq_iff (bs : List Bytes) (o : Out) :
    (deliver room o bs).accepted = o.accepted ++ bs.flatten ↔
      ∀ (i : Nat) (b : Bytes), bs[i]? = some b → b.length ≤ room (o.calls + i) := by
  induction bs generalizing o with
  | nil => simp [deliver]
  | cons b bs ih =>
    have hsplit : (∀ (i : Nat) (b' : Bytes), (b :: bs)[i]? = some b' →
        b'.length ≤ room (o.calls + i)) ↔ b.length ≤ room o.calls ∧
          ∀ (i : Nat) (b' : Bytes), bs[i]? = some b' → b'.length ≤ room (o.calls + 1 + i) := by
      constructor
      · intro h
        refine ⟨h 0 b rfl, ?_⟩
        intro i b' hb
        have hi := h (i + 1) b' hb
        rwa [Nat.add_comm i 1, ← Nat.add_assoc] at hi
      · rintro ⟨h0, hs⟩ i b' hb
        cases i with
        | zero =>
          obtain rfl := Option.some.inj hb
          exact h0
        | succ i =>
          have hi := hs i b' hb
          rwa [Nat.add_assoc, Nat.add_comm 1 i] at hi
    rw [hsplit, deliver_cons, List.flatten_cons, ← List.append_assoc]
    by_cases hfit : b.length ≤ room o.calls
    · rw [List.take_of_length_le hfit, ih, and_iff_right hfit]
    · -- the block is cut, and what is lost does not come later
      have hle := deliver_length_le room bs ⟨o.calls + 1, o.accepted ++ b.take (room o.calls)⟩
      constructor
      · intro he
        have hlen := congrArg List.length he
        simp only [List.length_append, List.length_take] at hle hlen
        omega
      · rintro ⟨h0, -⟩
        exact absurd h0 hfit

end

/-! ## Reading a file -/

/-- What successive calls of `read` with this size return, up to the end of the file. -/
def blocks (size : Nat) (rest : Bytes) : List Bytes :=
  if 0 < (rest.take size).length then rest.take size :: blocks size (rest.drop size) else []
termination_by rest.length
decreasing_by
  simp only [List.length_take, List.length_drop] at *
  omega

theorem blocks_flatten {size : Nat} (hs : 0 < size) (rest : Bytes) :
    (blocks size rest).flatten = rest := by
  rw [blocks]
  split
  · rw [List.flatten_cons, blocks_flatten hs (rest.drop size), List.take_append_drop]
  · rename_i h
    have hnil : rest = [] := by
      rw [← List.length_eq_zero_iff]
      simp only [List.length_take] at h
      omega
    rw [hnil]
    rfl
termination_by rest.length
decreasing_by
  simp only [List.length_take, List.length_drop] at *
  omega

/-- A short file is one block. -/
theorem blocks_of_le {size : Nat} {rest : Bytes} (hne : rest ≠ []) (hle : rest.length ≤ size) :
    blocks size rest = [rest] := by
  have hpos := List.length_pos_iff.2 hne
  rw [blocks, List.take_of_length_le hle, if_pos hpos, List.drop_eq_nil_of_le hle, blocks]
  simp

end Socket
