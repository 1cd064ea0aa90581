import LinuxApi.Lib.CString

/-!
# Where a path leads

A location is the list of the names from the root of the file system down. `walk` follows the
steps of a path from a location, `..` at the root staying there; symbolic links do not exist.
`normal` reduces steps to a number of climbs and the names walked into after them
(`walk_eq_normal`). So a path stays inside a directory exactly when the names walked into start
with the names climbed out of (`prefix_walk_iff`).

The second part splits a path at `/` (`resolve`, `inside_iff`).
-/

set_option autoImplicit false

namespace PathWalk

section
variable {α : Type}

inductive Step (α : Type)
  | up
  | into (a : α)
deriving DecidableEq, Repr

def step (loc : List α) : Step α → List α
  | .up => loc.dropLast
  | .into a => loc ++ [a]

/-- Where the steps lead from `loc`. -/
def walk (loc : List α) (steps : List (Step α)) : List α := steps.foldl step loc

/-- First `climbs` times `..`, then the names. -/
structure Normal (α : Type) where
  climbs : Nat
  names : List α
deriving DecidableEq, Repr

/-- A `..` cancels the name in front of it. -/
def Normal.push (n : Normal α) : Step α → Normal α
  | .up =>
    match n.names with
    | [] => { n with climbs := n.climbs + 1 }
    | a :: names => { n with names := (a :: names).dropLast }
  | .into a => { n with names := n.names ++ [a] }

def normal (steps : List (Step α)) : Normal α := steps.foldl Normal.push ⟨0, []⟩

/-- Where a normal form leads from `loc`. -/
def Normal.target (n : Normal α) (loc : List α) : List α :=
  loc.take (loc.length - n.climbs) ++ n.names

theorem Normal.target_push (n : Normal α) (s : Step α) (loc : List α) :
    (n.push s).target loc = step (n.target loc) s := by
  cases s with
  | into a => simp [Normal.push, Normal.target, step]
  | up =>
    simp only [Normal.push, step]
    split
    · rename_i hn
      simp only [Normal.target, hn, List.append_nil, List.dropLast_eq_take, List.take_take,
        List.length_take]
      congr 1
      omega
    · rename_i a names hn
      simp only [Normal.target, hn]
      rw [List.dropLast_append_of_ne_nil (by simp)]

/-- The steps lead where their normal form leads. -/
theorem walk_eq_normal (loc : List α) (steps : List (Step α)) :
    walk loc steps = (normal steps).target loc := by
  have hgen : ∀ n : Normal α,
      steps.foldl step (n.target loc) = (steps.foldl Normal.push n).target loc := by
    induction steps with
    | nil => exact fun _ => rfl
    | cons s steps ih =>
      intro n
      rw [List.foldl_cons, List.foldl_cons, ← n.target_push, ih]
  simpa [Normal.target, walk, normal] using hgen ⟨0, []⟩

/-- The steps lead below `loc` exactly if the names walked into start with those climbed out of. -/
theorem prefix_walk_iff (loc : List α) (steps : List (Step α)) :
    loc <+: walk loc steps ↔
      loc.drop (loc.length - (normal steps).climbs) <+: (normal steps).names := by
  rw [walk_eq_normal, Normal.target]
  generalize loc.length - (normal steps).climbs = k
  have h : loc.take k ++ loc.drop k <+: loc.take k ++ (normal steps).names ↔
      loc.drop k <+: (normal steps).names := List.prefix_append_right_inj _
  rwa [List.take_append_drop] at h

end

/-! ## Paths -/

open CLib

/-- The step of a component: nothing for an empty one and for `.`. -/
def component (c : Bytes) : Option (Step Bytes) :=
  if c = [] ∨ c = ascii "." then none
  else if c = ascii ".." then some .up
  else some (.into c)

def isAbsolute (path : Bytes) : Bool := path.head? = some 47

def steps (path : Bytes) : List (Step Bytes) := (path.splitOn 47).filterMap component

/-- The steps of a path and of what is behind a slash. -/
theorem steps_append (dir name : Bytes) : steps (dir ++ 47 :: name) = steps dir ++ steps name := by
  rw [steps, List.splitOn_append_cons_self, List.filterMap_append]
  rfl

/-- The location that a path denotes in the working directory `cwd`. -/
def resolve (cwd : List Bytes) (path : Bytes) : List Bytes :=
  walk (if isAbsolute path then [] else cwd) (steps path)

/-- `path/name` is `name` in the location `path`. -/
theorem resolve_child (cwd : List Bytes) {path name : Bytes} (hp : path ≠ [])
    (hs : (47 : UInt8) ∉ name) (hn : component name = some (.into name)) :
    resolve cwd (path ++ 47 :: name) = resolve cwd path ++ [name] := by
  have habs : isAbsolute (path ++ 47 :: name) = isAbsolute path := by
    rw [isAbsolute, isAbsolute, List.head?_append_of_ne_nil _ hp]
  have hname : steps name = [.into name] := by
    rw [steps, List.splitOn_eq_singleton hs, List.filterMap_cons_some hn, List.filterMap_nil]
  rw [resolve, resolve, habs, steps_append, hname, walk, walk, List.foldl_append]
  rfl

/-- The names that an absolute path walks into start with those of `cwd`; those of a relative one
with the names of `cwd` that it climbs out of. -/
def Stays (cwd : List Bytes) (path : Bytes) : Prop :=
  (if isAbsolute path then cwd else cwd.drop (cwd.length - (normal (steps path)).climbs)) <+:
    (normal (steps path)).names

/-- When a path denotes a location inside `cwd`. -/
theorem inside_iff (cwd : List Bytes) (path : Bytes) :
    cwd <+: resolve cwd path ↔ Stays cwd path := by
  unfold resolve Stays
  split
  · rw [walk_eq_normal]
    simp [Normal.target]
  · exact prefix_walk_iff cwd (steps path)

end PathWalk
