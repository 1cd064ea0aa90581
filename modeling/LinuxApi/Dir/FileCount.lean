import LinuxApi.Lib.CInt
import LinuxApi.Lib.CString

/-!
# Counting files (`dir_code/file_count.c`)

A directory is what `readdir` returns of it, in any order, with the directories in it. `files` and
`dirs` say what there is to count and to open; `countFile` is the program. Not every file system lets
`readdir` report the type of an entry; where it does not, `d_type` is `DT_UNKNOWN`.
-/

set_option autoImplicit false

namespace FileCount

open CLib

/-! ## Directories -/

/-- The entries of a directory. `dots` is `..` or `.`; a `file` is regular or neither a regular file
nor a directory. `known` says whether `readdir` reports the type. -/
inductive Listing
  | nil
  | dots (up known : Bool) (rest : Listing)
  | file (regular known : Bool) (name : Bytes) (rest : Listing)
  | dir (name : Bytes) (opens known : Bool) (sub rest : Listing)
deriving DecidableEq, Repr

/-- A directory, and whether `opendir` opens it. -/
structure Dir where
  opens : Bool
  entries : Listing
deriving DecidableEq, Repr

/-- `strcmp(name,".") == 0 || strcmp(name,"..") == 0` -/
def isDots (name : Bytes) : Bool := name = ascii "." || name = ascii ".."

/-- A name that a file can have. -/
@[mk_iff]
structure ProperName (name : Bytes) : Prop where
  ne_nil : name ≠ []
  length_le : name.length ≤ 255
  no_nul : (0 : UInt8) ∉ name
  no_slash : (47 : UInt8) ∉ name
  not_dots : isDots name = false

namespace Listing

def names : Listing → List Bytes
  | nil => []
  | dots _ _ rest => rest.names
  | file _ _ name rest => name :: rest.names
  | dir name _ _ _ rest => name :: rest.names

/-- The names are proper and none is there twice, here and in every directory below. -/
def Wf : Listing → Prop
  | nil => True
  | dots _ _ rest => rest.Wf
  | file _ _ name rest => ProperName name ∧ name ∉ rest.names ∧ rest.Wf
  | dir name _ _ sub rest => ProperName name ∧ name ∉ rest.names ∧ sub.Wf ∧ rest.Wf

instance decidableProperName (name : Bytes) : Decidable (ProperName name) :=
  decidable_of_iff _ (properName_iff name).symm

instance decidableWf : (l : Listing) → Decidable l.Wf
  | nil => .isTrue trivial
  | dots _ _ rest => decidableWf rest
  | file _ _ name rest =>
    have := decidableWf rest
    inferInstanceAs (Decidable (ProperName name ∧ name ∉ rest.names ∧ rest.Wf))
  | dir name _ _ sub rest =>
    have := decidableWf sub
    have := decidableWf rest
    inferInstanceAs (Decidable (ProperName name ∧ name ∉ rest.names ∧ sub.Wf ∧ rest.Wf))

/-- The directories in the directory, by their names. -/
def subdirs : Listing → List (Bytes × Dir)
  | nil => []
  | dots _ _ rest => rest.subdirs
  | file _ _ _ rest => rest.subdirs
  | dir name opens _ sub rest => (name, ⟨opens, sub⟩) :: rest.subdirs

/-- The regular files here, and those below whose directories can all be opened. -/
def files : Listing → Nat
  | nil => 0
  | dots _ _ rest => rest.files
  | file regular _ _ rest => (if regular then 1 else 0) + rest.files
  | dir _ opens _ sub rest => (if opens then sub.files else 0) + rest.files

/-- The directories below with their full paths, in the order of the walk. What is in a directory
that cannot be opened is left out. -/
def dirs (path : Bytes) : Listing → List (Bytes × Dir)
  | nil => []
  | dots _ _ rest => rest.dirs path
  | file _ _ _ rest => rest.dirs path
  | dir name opens _ sub rest =>
    (path ++ 47 :: name, ⟨opens, sub⟩) ::
      ((if opens then sub.dirs (path ++ 47 :: name) else []) ++ rest.dirs path)

def depth : Listing → Nat
  | nil => 0
  | dots _ _ rest => rest.depth
  | file _ _ _ rest => rest.depth
  | dir _ _ _ sub rest => max (sub.depth + 1) rest.depth

/-- The type is known of the regular files, and of the directories that are reached. -/
def Typed : Listing → Prop
  | nil => True
  | dots _ _ rest => rest.Typed
  | file regular known _ rest => (regular = true → known = true) ∧ rest.Typed
  | dir _ opens known sub rest => known = true ∧ (opens = true → sub.Typed) ∧ rest.Typed

instance decidableTyped : (l : Listing) → Decidable l.Typed
  | nil => .isTrue trivial
  | dots _ _ rest => decidableTyped rest
  | file regular known _ rest =>
    have := decidableTyped rest
    inferInstanceAs (Decidable ((regular = true → known = true) ∧ rest.Typed))
  | dir _ opens known sub rest =>
    have := decidableTyped sub
    have := decidableTyped rest
    inferInstanceAs (Decidable (known = true ∧ (opens = true → sub.Typed) ∧ rest.Typed))

end Listing

/-- The regular files whose directories, from this one down, can all be opened. -/
def Dir.files (d : Dir) : Nat := if d.opens then d.entries.files else 0

/-- The directories below that are reached through directories that can be opened. -/
def Dir.dirs (path : Bytes) (d : Dir) : List (Bytes × Dir) :=
  if d.opens then d.entries.dirs path else []

def Dir.Typed (d : Dir) : Prop := d.opens = true → d.entries.Typed

instance (d : Dir) : Decidable d.Typed := inferInstanceAs (Decidable (_ → _))

/-! ## The calls -/

/-- `d_type`, as far as it is compared: `DT_DIR`, `DT_REG` or anything else, `DT_UNKNOWN` among it. -/
inductive DType
  | dir
  | reg
  | other
deriving DecidableEq, Repr

/-- `struct dirent` -/
structure Dirent where
  type : DType
  name : Bytes
deriving DecidableEq, Repr

/-- What successive calls of `readdir` return. -/
def Listing.dirents : Listing → List Dirent
  | nil => []
  | dots up known rest =>
    ⟨if known then .dir else .other, ascii (if up then ".." else ".")⟩ :: rest.dirents
  | file regular known name rest =>
    ⟨if regular && known then .reg else .other, name⟩ :: rest.dirents
  | dir name _ known _ rest => ⟨if known then .dir else .other, name⟩ :: rest.dirents

/-- `PATH_MAX`, with the `NUL`. -/
def pathMax : Nat := 4096

/-- The directories that paths denote. `path/name` is the entry `name` of the directory `path`. -/
structure Fs where
  dirAt : Bytes → Option Dir
  wf : ∀ {path d}, dirAt path = some d → d.entries.Wf
  dirAt_child : ∀ {path d}, dirAt path = some d → ∀ {name}, ProperName name →
    (path ++ 47 :: name).length < pathMax →
    dirAt (path ++ 47 :: name) = d.entries.subdirs.lookup name

/-- `opendir`, and what `readdir` returns then. -/
def Fs.opendir (fs : Fs) (path : Bytes) : Option (List Dirent) :=
  match fs.dirAt path with
  | none => none
  | some d => if d.opens then some d.entries.dirents else none

/-! ## The program -/

/-- `undefined` is a write past `newpath` or an overflow of `count`. -/
inductive Stop
  | fuel
  | undefined
deriving DecidableEq, Repr

/-- The counter, and the paths that `opendir` has been called with. -/
structure St where
  count : Int
  opened : List Bytes
deriving DecidableEq, Repr

/-- `sprintf(newpath,"%s/%s",path,name)`, with room for 256 bytes. -/
def newpath (path name : Bytes) : Option Bytes :=
  if (path ++ 47 :: name).length < 256 then some (path ++ 47 :: name) else none

/-- The loop of `count_file`, 21–34; `call` is the call in it. -/
def readLoop (call : Bytes → St → Except Stop (Int × St)) (path : Bytes) :
    List Dirent → St → Except Stop St
  | [], s => .ok s
  | ⟨.dir, name⟩ :: entries, s =>
    if isDots name then readLoop call path entries s
    else
      match newpath path name with
      | none => .error .undefined
      | some path' =>
        match call path' s with
        | .error stop => .error stop
        -- what the call returns is not looked at
        | .ok (_, s') => readLoop call path entries s'
  | ⟨.reg, _⟩ :: entries, s =>
    match CInt.incr s.count with
    | none => .error .undefined
    | some count => readLoop call path entries { s with count := count }
  | ⟨.other, _⟩ :: entries, s => readLoop call path entries s

/-- `count_file`: what it returns, and the state after it. -/
def countFile (fs : Fs) : Nat → Bytes → St → Except Stop (Int × St)
  | 0, _, _ => .error .fuel
  | n + 1, path, s =>
    match fs.opendir path with
    | none => .ok (-1, { s with opened := s.opened ++ [path] })
    | some entries =>
      match readLoop (countFile fs n) path entries { s with opened := s.opened ++ [path] } with
      | .error stop => .error stop
      | .ok s' => .ok (0, s')

/-- The call ends, counts the files, opens every directory under its path and composes no path that
`newpath` has no room for. -/
def Counts (fs : Fs) (root : Bytes) (d : Dir) (count : Int) : Prop :=
  ∃ n r s, (∀ m ≥ n, countFile fs m root ⟨count, []⟩ = .ok (r, s)) ∧
    s.count = count + d.files ∧
    s.opened = root :: (d.dirs root).map Prod.fst ∧
    (∀ x ∈ (root, d) :: d.dirs root, fs.dirAt x.1 = some x.2) ∧
    ∀ path ∈ s.opened.tail, path.length < 256

end FileCount
