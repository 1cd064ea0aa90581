import LinuxApi.Http.Libevent

/-!
# What the libevent server lists

`send_dir` does not look at what `stat` returns. `page` is the listing of the entries of which there
is a `struct stat`; the blocks that are written are this page exactly if no `struct stat` that is left
from before makes a row (`sendDir_page_iff`).
-/

set_option autoImplicit false

namespace Libevent

open CLib Http

/-- A row for each entry that `stat` knows as a regular file or as a directory. -/
def rows (fs : Fs) (path : Bytes) (names : List Bytes) : Bytes :=
  names.flatMap fun name => ((fs.stat (path ++ ascii "/" ++ name)).elim [] (dirRow name))

def page (fs : Fs) (path : Bytes) : Bytes :=
  dirHead path ++ rows fs path ((fs.scandir path).getD []) ++
    ascii "</table></center></body></html>"

/-- The rows that the rounds from `i` on write. -/
def rowsFrom (fs : Fs) (path : Bytes) : Nat → List Bytes → Bytes
  | _, [] => []
  | i, name :: names => dirRow name (entryStat fs path i name) ++ rowsFrom fs path (i + 1) names

section
variable (fs : Fs) (path : Bytes)

/-- The first block carries what was in the buffer, the last one the end of the page. -/
theorem dirRounds_flatten (i : Nat) (names : List Bytes) (buff : Bytes) :
    (dirRounds fs path i names buff).flatten =
      buff ++ rowsFrom fs path i names ++ ascii "</table></center></body></html>" := by
  induction names generalizing i buff with
  | nil => simp [dirRounds, rowsFrom]
  | cons name names ih =>
    rw [dirRounds, List.flatten_cons, ih, rowsFrom]
    simp only [List.append_assoc, List.nil_append]

theorem dirRow_eq_nil (name : Bytes) (st : Stat) : dirRow name st = [] ↔ st.kind = .other := by
  unfold dirRow
  cases st.kind with
  | reg => exact iff_of_false (by simp [ascii]) nofun
  | dir => exact iff_of_false (by simp [ascii]) nofun
  | other => exact iff_of_true rfl rfl

/-- No row is left out. -/
theorem rows_length_le (i : Nat) (names : List Bytes) :
    (rows fs path names).length ≤ (rowsFrom fs path i names).length := by
  induction names generalizing i with
  | nil => exact Nat.le_refl _
  | cons name names ih =>
    have := ih (i + 1)
    simp only [rows, List.flatMap_cons, List.length_append, rowsFrom, entryStat] at this ⊢
    cases fs.stat (path ++ ascii "/" ++ name) with
    | none => simp only [Option.elim_none, List.length_nil]; omega
    | some st => simp only [Option.elim_some, Option.getD_some]; omega

/-- The rounds write the rows of the page, if those without a `struct stat` write nothing. -/
theorem rowsFrom_eq_iff (i : Nat) (names : List Bytes) :
    rowsFrom fs path i names = rows fs path names ↔
      ∀ j name, names[j]? = some name → fs.stat (path ++ ascii "/" ++ name) = none →
        (fs.junk (i + j)).kind = .other := by
  induction names generalizing i with
  | nil => exact iff_of_true rfl nofun
  | cons name names ih =>
    -- the head of the list is the entry of round `i`
    have hsplit : (∀ j n, (name :: names)[j]? = some n →
        fs.stat (path ++ ascii "/" ++ n) = none → (fs.junk (i + j)).kind = .other) ↔
        (fs.stat (path ++ ascii "/" ++ name) = none → (fs.junk i).kind = .other) ∧
          rowsFrom fs path (i + 1) names = rows fs path names := by
      rw [ih]
      constructor
      · intro h
        refine ⟨h 0 name rfl, fun j n hn hs => ?_⟩
        rw [Nat.add_assoc, Nat.add_comm 1]
        exact h (j + 1) n hn hs
      · intro hall j n hn hs
        obtain ⟨h0, h⟩ := hall
        cases j with
        | zero =>
          obtain rfl := Option.some.inj hn
          exact h0 hs
        | succ j =>
          rw [show i + (j + 1) = i + 1 + j by omega]
          exact h j n hn hs
    have hle := rows_length_le fs path (i + 1) names
    rw [hsplit]
    simp only [rowsFrom, entryStat]
    unfold rows at *
    rw [List.flatMap_cons]
    cases fs.stat (path ++ ascii "/" ++ name) with
    | none =>
      simp only [Option.getD_none, Option.elim_none, List.nil_append, true_imp_iff]
      rw [← dirRow_eq_nil name]
      constructor
      · intro h
        have hlen := congrArg List.length h
        rw [List.length_append] at hlen
        have hnil : dirRow name (fs.junk i) = [] := List.eq_nil_of_length_eq_zero (by omega)
        rw [hnil] at h
        exact ⟨hnil, h⟩
      · intro h
        obtain ⟨hnil, h⟩ := h
        rw [hnil, h]
        rfl
    | some st =>
      simp only [Option.getD_some, Option.elim_some, reduceCtorEq, false_imp_iff, true_and]
      exact List.append_right_inj _

/-- **When the page lists each entry as it is**: exactly if no `struct stat` that a failed call leaves
as it was is that of a regular file or a directory. -/
theorem sendDir_page_iff : (sendDir fs path).flatten = page fs path ↔
    ∀ i name, ((fs.scandir path).getD [])[i]? = some name →
      fs.stat (path ++ ascii "/" ++ name) = none → (fs.junk i).kind = .other := by
  have h := rowsFrom_eq_iff fs path 0 ((fs.scandir path).getD [])
  simp only [Nat.zero_add] at h
  rw [← h, sendDir, dirRounds_flatten, page]
  constructor
  · intro he
    exact List.append_cancel_left (List.append_cancel_right he)
  · intro he
    rw [he]

end

/-- A directory with a file and a link that leads nowhere. -/
def dangling : Fs where
  stat path := if path = ascii "./a" then some ⟨.reg, 7⟩ else none
  openRead _ := none
  scandir _ := some [ascii "a", ascii "b"]
  junk _ := ⟨.reg, 7⟩
  size_eq := nofun

/-- The link is listed as a file, with the size of the file before it. -/
theorem sendDir_page_fails : ¬ ∀ fs path, (sendDir fs path).flatten = page fs path := by
  intro h
  have h1 := h dangling (ascii ".")
  revert h1
  decide +kernel

end Libevent
