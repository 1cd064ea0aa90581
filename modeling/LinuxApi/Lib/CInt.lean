import Mathlib

/-!
# Counters of type `int`

`++` and `--` on an `int`. C leaves an overflow undefined; here it is `none`, so a program that
would overflow a counter cannot take the step. `values b n` are the first `n` values of a counter
that starts at `b`.
-/

set_option autoImplicit false

namespace CInt

/-- `INT_MAX` -/
def max : Int := 2147483647

/-- `INT_MIN` -/
def min : Int := -2147483648

def incr (n : Int) : Option Int := if n < max then some (n + 1) else none

def decr (n : Int) : Option Int := if min < n then some (n - 1) else none

variable {n m : Int}

@[simp] theorem incr_eq_some : incr n = some m ↔ n < max ∧ m = n + 1 := by
  unfold incr
  split <;> simp_all [eq_comm]

@[simp] theorem decr_eq_some : decr n = some m ↔ min < n ∧ m = n - 1 := by
  unfold decr
  split <;> simp_all [eq_comm]

/-! ## The values of a counter -/

def values (b : Int) (n : Nat) : List Int := (List.range n).map fun k : Nat => b + (k : Int)

variable {b : Int}

theorem values_succ (n : Nat) : values b (n + 1) = values b n ++ [b + (n : Int)] := by
  simp [values, List.range_succ]

theorem values_getElem? {n k : Nat} (h : k < n) : (values b n)[k]? = some (b + (k : Int)) := by
  simp [values, List.getElem?_range h]

theorem values_nodup (n : Nat) : (values b n).Nodup := by
  apply List.nodup_range.map
  intro k l h
  simpa using h

end CInt
