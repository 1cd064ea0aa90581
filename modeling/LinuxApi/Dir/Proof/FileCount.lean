import LinuxApi.Dir.FileCount
import LinuxApi.Lib.PathWalk

/-!
# What `count_file` counts

`count_file` sees the files and directories whose type `readdir` reports (`seenFiles`, `seenDirs`),
which are all there are exactly if all are typed (`typed_iff`). A call with enough fuel is undefined
unless every path below that it sees fits `newpath` and the counter does not overflow; else it does
what `seenFiles` and `seenDirs` say (`countFile_eq`). One induction over the listing shows it of the
loop (`readLoop_eq`), whatever is still to be read when a call returns.
-/

set_option autoImplicit false

namespace FileCount

open CLib

variable {fs : Fs} {path : Bytes} {l : Listing} {d : Dir}

/-! ## The paths of a walk -/

theorem mem_names_of_mem_subdirs {x : Bytes × Dir} (h : x ∈ l.subdirs) : x.1 ∈ l.names := by
  induction l with
  | nil => cases h
  | dots up known rest ih => exact ih h
  | file regular known name rest ih => exact List.mem_cons_of_mem _ (ih h)
  | dir name opens known sub rest _ ih =>
    rcases List.mem_cons.1 h with rfl | h
    · exact List.mem_cons_self
    · exact List.mem_cons_of_mem _ (ih h)

/-- What is known of the directories in a directory. -/
theorem Listing.Wf.subdir (hw : l.Wf) {x : Bytes × Dir} (h : x ∈ l.subdirs) :
    ProperName x.1 ∧ x.2.entries.Wf ∧ l.subdirs.lookup x.1 = some x.2 := by
  induction l with
  | nil => cases h
  | dots up known rest ih => exact ih hw h
  | file regular known name rest ih => exact ih hw.2.2 h
  | dir name opens known sub rest _ ih =>
    obtain ⟨hname, hfresh, hsub, hrest⟩ := hw
    rcases List.mem_cons.1 h with rfl | h
    · exact ⟨hname, hsub, List.lookup_cons_self⟩
    · obtain ⟨h1, h2, h3⟩ := ih hrest h
      refine ⟨h1, h2, ?_⟩
      have hne : (x.1 == name) = false := by
        rw [beq_eq_false_iff_ne]
        intro he
        exact hfresh (he ▸ mem_names_of_mem_subdirs h)
      rw [Listing.subdirs, List.lookup_cons, hne]
      exact h3

theorem dirs_dir (name : Bytes) (opens known : Bool) (sub rest : Listing) :
    (Listing.dir name opens known sub rest).dirs path =
      (path ++ 47 :: name, ⟨opens, sub⟩) ::
        (Dir.dirs (path ++ 47 :: name) ⟨opens, sub⟩ ++ rest.dirs path) :=
  rfl

/-- A path is longer than that of the directory above. -/
theorem length_lt_of_mem_dirs {x : Bytes × Dir} (h : x ∈ l.dirs path) :
    path.length < x.1.length := by
  induction l generalizing path with
  | nil => cases h
  | dots up known rest ih => exact ih h
  | file regular known name rest ih => exact ih h
  | dir name opens known sub rest ihsub ih =>
    have hlen : path.length < (path ++ 47 :: name).length := by simp
    rw [Listing.dirs, List.mem_cons, List.mem_append] at h
    rcases h with rfl | h | h
    · exact hlen
    · split at h
      · exact hlen.trans (ihsub h)
      · cases h
    · exact ih h

/-- `path/name`, for a directory in the directory `path`. -/
theorem Fs.dirAt_subdir (hd : fs.dirAt path = some d) {x : Bytes × Dir} (hx : x ∈ d.entries.subdirs)
    (hlen : (path ++ 47 :: x.1).length < pathMax) : fs.dirAt (path ++ 47 :: x.1) = some x.2 := by
  obtain ⟨hname, _, hlookup⟩ := (fs.wf hd).subdir hx
  rw [fs.dirAt_child hd hname hlen, hlookup]

/-- Every path of the walk denotes the directory it was composed for. -/
theorem dirAt_of_mem_dirs (hw : l.Wf)
    (hat : ∀ x ∈ l.subdirs, (path ++ 47 :: x.1).length < pathMax →
      fs.dirAt (path ++ 47 :: x.1) = some x.2)
    {x : Bytes × Dir} (h : x ∈ l.dirs path) (hlen : x.1.length < pathMax) :
    fs.dirAt x.1 = some x.2 := by
  induction l generalizing path with
  | nil => cases h
  | dots up known rest ih => exact ih hw hat h
  | file regular known name rest ih => exact ih hw.2.2 hat h
  | dir name opens known sub rest ihsub ih =>
    obtain ⟨_, _, hsub, hrest⟩ := hw
    rw [Listing.subdirs, List.forall_mem_cons] at hat
    rw [Listing.dirs, List.mem_cons, List.mem_append] at h
    rcases h with rfl | h | h
    · exact hat.1 hlen
    · split at h
      · have hd := hat.1 ((length_lt_of_mem_dirs h).trans hlen)
        exact ihsub hsub (fun y hy hy' => fs.dirAt_subdir hd hy hy') h
      · cases h
    · exact ih hrest hat.2 h

theorem Fs.dirAt_dirs (hd : fs.dirAt path = some d) {x : Bytes × Dir} (h : x ∈ d.dirs path)
    (hlen : x.1.length < pathMax) : fs.dirAt x.1 = some x.2 := by
  unfold Dir.dirs at h
  split at h
  · exact dirAt_of_mem_dirs (fs.wf hd) (fun y hy hy' => fs.dirAt_subdir hd hy hy') h hlen
  · cases h

/-! ## What is seen -/

/-- The regular files that the loop counts. -/
def Listing.seenFiles : Listing → Nat
  | nil => 0
  | dots _ _ rest => rest.seenFiles
  | file regular known _ rest => (if regular && known then 1 else 0) + rest.seenFiles
  | dir _ opens known sub rest =>
    (if known then (if opens then sub.seenFiles else 0) else 0) + rest.seenFiles

/-- The directories that the loop calls `count_file` for. -/
def Listing.seenDirs (path : Bytes) : Listing → List (Bytes × Dir)
  | nil => []
  | dots _ _ rest => rest.seenDirs path
  | file _ _ _ rest => rest.seenDirs path
  | dir name opens known sub rest =>
    (if known then
      (path ++ 47 :: name, ⟨opens, sub⟩) ::
        (if opens then sub.seenDirs (path ++ 47 :: name) else [])
    else []) ++ rest.seenDirs path

def Dir.seenFiles (d : Dir) : Nat := if d.opens then d.entries.seenFiles else 0

def Dir.seenDirs (path : Bytes) (d : Dir) : List (Bytes × Dir) :=
  if d.opens then d.entries.seenDirs path else []

theorem seenFiles_le (l : Listing) : l.seenFiles ≤ l.files := by
  induction l with
  | nil => exact Nat.le_refl _
  | dots up known rest ih => exact ih
  | file regular known name rest ih =>
    have hhead : (if regular && known then 1 else 0) ≤ if regular then 1 else 0 := by
      cases regular <;> cases known <;> decide
    exact Nat.add_le_add hhead ih
  | dir name opens known sub rest ihsub ih =>
    have hhead : (if known then (if opens then sub.seenFiles else 0) else 0) ≤
        if opens then sub.files else 0 := by
      cases known <;> cases opens <;> simp [ihsub]
    exact Nat.add_le_add hhead ih

theorem seenDirs_sublist (path : Bytes) (l : Listing) : (l.seenDirs path).Sublist (l.dirs path) := by
  induction l generalizing path with
  | nil => exact List.Sublist.refl _
  | dots up known rest ih => exact ih path
  | file regular known name rest ih => exact ih path
  | dir name opens known sub rest ihsub ih =>
    cases known with
    | false => exact (List.sublist_append_of_sublist_right (ih path)).cons _
    | true =>
      have hsub : (if opens then sub.seenDirs (path ++ 47 :: name) else []).Sublist
          (if opens then sub.dirs (path ++ 47 :: name) else []) := by
        cases opens with
        | false => exact List.Sublist.refl _
        | true => exact ihsub _
      exact (hsub.append (ih path)).cons_cons _

theorem Dir.seenFiles_le (d : Dir) : d.seenFiles ≤ d.files := by
  unfold Dir.seenFiles Dir.files
  split
  · exact FileCount.seenFiles_le d.entries
  · exact Nat.le_refl _

theorem Dir.seenDirs_sublist (path : Bytes) (d : Dir) :
    (d.seenDirs path).Sublist (d.dirs path) := by
  unfold Dir.seenDirs Dir.dirs
  split
  · exact FileCount.seenDirs_sublist path d.entries
  · exact List.Sublist.refl _

theorem append_eq_append_iff_of_sublist {α : Type} {l₁ l₁' l₂ l₂' : List α} (h₁ : l₁.Sublist l₁')
    (h₂ : l₂.Sublist l₂') : l₁ ++ l₂ = l₁' ++ l₂' ↔ l₁ = l₁' ∧ l₂ = l₂' := by
  constructor
  · intro h
    have hlen := congrArg List.length h
    have hlen₁ := h₁.length_le
    have hlen₂ := h₂.length_le
    rw [List.length_append, List.length_append] at hlen
    exact ⟨h₁.eq_of_length (by omega), h₂.eq_of_length (by omega)⟩
  · rintro ⟨rfl, rfl⟩
    rfl

section
variable (name : Bytes) (opens : Bool) (sub rest : Listing)

theorem typed_dir : (Listing.dir name opens true sub rest).Typed ↔
    Dir.Typed ⟨opens, sub⟩ ∧ rest.Typed :=
  ⟨fun h => h.2, fun h => ⟨rfl, h⟩⟩

theorem files_dir (known : Bool) : (Listing.dir name opens known sub rest).files =
    Dir.files ⟨opens, sub⟩ + rest.files :=
  rfl

theorem seenFiles_dir : (Listing.dir name opens true sub rest).seenFiles =
    Dir.seenFiles ⟨opens, sub⟩ + rest.seenFiles :=
  rfl

theorem seenDirs_dir : (Listing.dir name opens true sub rest).seenDirs path =
    (path ++ 47 :: name, ⟨opens, sub⟩) ::
      (Dir.seenDirs (path ++ 47 :: name) ⟨opens, sub⟩ ++ rest.seenDirs path) :=
  rfl

end

/-- All is seen exactly if everything is typed. -/
theorem Listing.typed_iff (path : Bytes) (l : Listing) :
    l.Typed ↔ l.seenFiles = l.files ∧ l.seenDirs path = l.dirs path := by
  induction l generalizing path with
  | nil => exact ⟨fun _ => ⟨rfl, rfl⟩, fun _ => trivial⟩
  | dots up known rest ih => exact ih path
  | file regular known name rest ih =>
    have hle := seenFiles_le rest
    rw [Typed, ih path, seenFiles, files, seenDirs, dirs]
    cases regular <;> cases known <;> simp
    omega
  | dir name opens known sub rest ihsub ih =>
    have hle := seenFiles_le rest
    have hrest := seenDirs_sublist path rest
    cases known with
    | false =>
      constructor
      · intro h
        exact absurd h.1 Bool.false_ne_true
      · intro h
        -- the directory itself is not seen
        have hlen := congrArg List.length h.2
        have hle := hrest.length_le
        simp only [dirs_dir, seenDirs, List.length_cons, List.length_append,
          Bool.false_eq_true, if_false, List.nil_append] at hlen
        omega
    | true =>
      have hdir : Dir.Typed ⟨opens, sub⟩ ↔ Dir.seenFiles ⟨opens, sub⟩ = Dir.files ⟨opens, sub⟩ ∧
          Dir.seenDirs (path ++ 47 :: name) ⟨opens, sub⟩ =
            Dir.dirs (path ++ 47 :: name) ⟨opens, sub⟩ := by
        cases opens with
        | false => simp [Dir.Typed, Dir.seenFiles, Dir.files, Dir.seenDirs, Dir.dirs]
        | true => simpa [Dir.Typed, Dir.seenFiles, Dir.files, Dir.seenDirs, Dir.dirs] using ihsub _
      have hsubFiles : Dir.seenFiles ⟨opens, sub⟩ ≤ Dir.files ⟨opens, sub⟩ := Dir.seenFiles_le _
      have hsubDirs := Dir.seenDirs_sublist (path ++ 47 :: name) ⟨opens, sub⟩
      rw [typed_dir, hdir, ih path, seenFiles_dir, files_dir, seenDirs_dir, dirs_dir,
        List.cons_inj_right, append_eq_append_iff_of_sublist hsubDirs hrest]
      constructor
      · intro ⟨⟨h1, h2⟩, h3, h4⟩
        exact ⟨by omega, h2, h4⟩
      · intro ⟨h, h2, h4⟩
        exact ⟨⟨by omega, h2⟩, by omega, h4⟩

theorem Dir.typed_iff (path : Bytes) (d : Dir) :
    d.Typed ↔ d.seenFiles = d.files ∧ d.seenDirs path = d.dirs path := by
  obtain ⟨opens, entries⟩ := d
  cases opens with
  | false => simp [Dir.Typed, Dir.seenFiles, Dir.files, Dir.seenDirs, Dir.dirs]
  | true =>
    simpa [Dir.Typed, Dir.seenFiles, Dir.files, Dir.seenDirs, Dir.dirs] using
      entries.typed_iff path

/-! ## A tree somewhere in the file system -/

/-- The directory that the names lead to. -/
def Dir.find : Dir → List Bytes → Option Dir
  | d, [] => some d
  | d, name :: names => (d.entries.subdirs.lookup name).bind fun d' => d'.find names

theorem Dir.find_append (d : Dir) (names : List Bytes) (name : Bytes) :
    d.find (names ++ [name]) = (d.find names).bind fun d' => d'.entries.subdirs.lookup name := by
  induction names generalizing d with
  | nil =>
    change (d.entries.subdirs.lookup name).bind some = d.entries.subdirs.lookup name
    exact Option.bind_fun_some _
  | cons a names ih =>
    rw [List.cons_append, find, find, Option.bind_assoc]
    exact Option.bind_congr fun d' _ => ih d'

theorem Dir.find_wf (hw : d.entries.Wf) {names : List Bytes} {d' : Dir}
    (h : d.find names = some d') : d'.entries.Wf := by
  induction names generalizing d with
  | nil =>
    obtain ⟨⟩ := h
    exact hw
  | cons a names ih =>
    obtain ⟨d1, h1, h⟩ := Option.bind_eq_some_iff.1 h
    obtain ⟨l₁, l₂, hl, _⟩ := List.lookup_eq_some_iff.1 h1
    have hmem : (a, d1) ∈ d.entries.subdirs := by simp [hl]
    exact ih (hw.subdir hmem).2.1 h

theorem ProperName.component {name : Bytes} (h : ProperName name) :
    PathWalk.component name = some (.into name) := by
  have hdots := h.not_dots
  simp only [isDots, Bool.or_eq_false_iff, decide_eq_false_iff_not] at hdots
  rw [PathWalk.component, if_neg (not_or.2 ⟨h.ne_nil, hdots.1⟩), if_neg hdots.2]

/-- The file system with the directory `d` at `root`. -/
def Fs.ofDir (cwd : List Bytes) (root : Bytes) (d : Dir) (hw : d.entries.Wf) : Fs where
  dirAt path :=
    if path ≠ [] ∧ PathWalk.resolve cwd root <+: PathWalk.resolve cwd path then
      d.find ((PathWalk.resolve cwd path).drop (PathWalk.resolve cwd root).length)
    else none
  wf h := by
    split at h
    · exact Dir.find_wf hw h
    · cases h
  dirAt_child {path d'} h {name} hname _ := by
    split at h
    · rename_i hp
      have hchild := PathWalk.resolve_child cwd hp.1 hname.no_slash hname.component
      rw [hchild, if_pos ⟨by simp, hp.2.trans (List.prefix_append _ _)⟩,
        List.drop_append_of_le_length hp.2.length_le, Dir.find_append, h]
      rfl
    · cases h

theorem Fs.ofDir_root (cwd : List Bytes) {root : Bytes} (hr : root ≠ []) (hw : d.entries.Wf) :
    (Fs.ofDir cwd root d hw).dirAt root = some d := by
  have hfind : (ofDir cwd root d hw).dirAt root =
      d.find ((PathWalk.resolve cwd root).drop (PathWalk.resolve cwd root).length) :=
    if_pos ⟨hr, List.prefix_rfl⟩
  rw [hfind, List.drop_length]
  rfl

/-! ## The walk -/

/-- Every path fits `newpath`, and the counter does not overflow. -/
def Fits (dirs : List (Bytes × Dir)) (files : Nat) (count : Int) : Prop :=
  (∀ x ∈ dirs, x.1.length < 256) ∧ count + files ≤ CInt.max

instance (dirs : List (Bytes × Dir)) (files : Nat) (count : Int) :
    Decidable (Fits dirs files count) :=
  inferInstanceAs (Decidable (_ ∧ _))

variable {dirs dirs' : List (Bytes × Dir)} {files files' : Nat} {count : Int}

theorem fits_cons : Fits ((path, d) :: dirs) files count ↔
    path.length < 256 ∧ Fits dirs files count := by
  unfold Fits
  rw [List.forall_mem_cons, and_assoc]

theorem fits_append : Fits (dirs ++ dirs') (files + files') count ↔
    Fits dirs files count ∧ Fits dirs' files' (count + files) := by
  unfold Fits
  rw [List.forall_mem_append]
  constructor
  · intro ⟨⟨h, h'⟩, hc⟩
    exact ⟨⟨h, by omega⟩, h', by omega⟩
  · intro ⟨⟨h, _⟩, h', hc⟩
    exact ⟨⟨h, h'⟩, by omega⟩

theorem fits_file : Fits dirs (1 + files) count ↔
    count < CInt.max ∧ Fits dirs files (count + 1) := by
  unfold Fits
  constructor
  · intro ⟨h, hc⟩
    exact ⟨by omega, h, by omega⟩
  · intro ⟨_, h, hc⟩
    exact ⟨h, by omega⟩

/-- What the walk of these directories with so many files comes to. -/
def outcome (dirs : List (Bytes × Dir)) (files : Nat) (s : St) : Except Stop St :=
  if Fits dirs files s.count then .ok ⟨s.count + files, s.opened ++ dirs.map Prod.fst⟩
  else .error .undefined

variable {s : St}

theorem outcome_of_fits (h : Fits dirs files s.count) :
    outcome dirs files s = .ok ⟨s.count + files, s.opened ++ dirs.map Prod.fst⟩ :=
  if_pos h

theorem outcome_of_not_fits (h : ¬ Fits dirs files s.count) :
    outcome dirs files s = .error .undefined :=
  if_neg h

theorem outcome_nil (hc : s.count ≤ CInt.max) : outcome [] 0 s = .ok s := by
  rw [outcome_of_fits ⟨List.forall_mem_nil _, by simpa using hc⟩]
  simp

theorem outcome_count_le {s' : St} (h : outcome dirs files s = .ok s') : s'.count ≤ CInt.max := by
  unfold outcome at h
  split at h
  · obtain ⟨⟩ := h
    exact And.right ‹_›
  · cases h

/-- One directory is opened before the walk goes on. -/
theorem outcome_cons (hp : path.length < 256) (d : Dir) (dirs : List (Bytes × Dir)) (files : Nat)
    (s : St) :
    outcome ((path, d) :: dirs) files s =
      outcome dirs files { s with opened := s.opened ++ [path] } := by
  by_cases h : Fits dirs files s.count
  · have h' := outcome_of_fits (s := { s with opened := s.opened ++ [path] }) h
    rw [outcome_of_fits (fits_cons.2 ⟨hp, h⟩), h', List.append_assoc]
    rfl
  · have h' := outcome_of_not_fits (s := { s with opened := s.opened ++ [path] }) h
    rw [outcome_of_not_fits fun hf => h (fits_cons.1 hf).2, h']

/-- One file is counted before the walk goes on. -/
theorem outcome_file (dirs : List (Bytes × Dir)) (files : Nat) (s : St) :
    outcome dirs (1 + files) s =
      match CInt.incr s.count with
      | none => .error .undefined
      | some count => outcome dirs files { s with count := count } := by
  unfold CInt.incr
  by_cases hc : s.count < CInt.max
  · rw [if_pos hc]
    change outcome dirs (1 + files) s = outcome dirs files ⟨s.count + 1, s.opened⟩
    by_cases h : Fits dirs files (s.count + 1)
    · have h' := outcome_of_fits (s := ⟨s.count + 1, s.opened⟩) h
      rw [outcome_of_fits (fits_file.2 ⟨hc, h⟩), h', Nat.cast_add, Nat.cast_one, add_assoc]
    · have h' := outcome_of_not_fits (s := ⟨s.count + 1, s.opened⟩) h
      rw [outcome_of_not_fits fun hf => h (fits_file.1 hf).2, h']
  · rw [if_neg hc, outcome_of_not_fits fun h => hc (fits_file.1 h).1]

/-- One walk after the other. -/
theorem outcome_append (dirs dirs' : List (Bytes × Dir)) (files files' : Nat) (s : St) :
    outcome (dirs ++ dirs') (files + files') s =
      (outcome dirs files s).bind fun s' => outcome dirs' files' s' := by
  by_cases h : Fits dirs files s.count
  · rw [outcome_of_fits h]
    change _ = outcome dirs' files' ⟨s.count + files, s.opened ++ dirs.map Prod.fst⟩
    by_cases h' : Fits dirs' files' (s.count + files)
    · have h2 := outcome_of_fits (s := ⟨s.count + files, s.opened ++ dirs.map Prod.fst⟩) h'
      rw [outcome_of_fits (fits_append.2 ⟨h, h'⟩), h2, Nat.cast_add, add_assoc, List.map_append,
        List.append_assoc]
    · have h2 := outcome_of_not_fits (s := ⟨s.count + files, s.opened ++ dirs.map Prod.fst⟩) h'
      rw [outcome_of_not_fits fun hf => h' (fits_append.1 hf).2, h2]
  · rw [outcome_of_not_fits h, outcome_of_not_fits fun hf => h (fits_append.1 hf).1]
    rfl

/-- A directory in the loop: the call, then the entries that are left. -/
theorem readLoop_dir {call : Bytes → St → Except Stop (Int × St)} {name : Bytes} {r : Int}
    {o : Except Stop St} (hdots : isDots name = false) (hp : (path ++ 47 :: name).length < 256)
    (hcall : call (path ++ 47 :: name) s = o.map fun s' => (r, s')) (entries : List Dirent) :
    readLoop call path (⟨.dir, name⟩ :: entries) s =
      o.bind fun s' => readLoop call path entries s' := by
  rw [readLoop, hdots, newpath, if_pos hp]
  simp only [hcall]
  cases o <;> rfl

/-- A call, from what its loop does. -/
theorem countFile_of_loop {n : Nat} (hd : fs.dirAt path = some d)
    (hloop : d.opens = true → ∀ s : St, s.count ≤ CInt.max →
      readLoop (countFile fs n) path d.entries.dirents s =
        outcome (d.entries.seenDirs path) d.entries.seenFiles s)
    (hc : s.count ≤ CInt.max) :
    countFile fs (n + 1) path s =
      (outcome (d.seenDirs path) d.seenFiles { s with opened := s.opened ++ [path] }).map
        fun s' => (if d.opens then 0 else -1, s') := by
  obtain ⟨opens, entries⟩ := d
  rw [countFile, Fs.opendir, hd]
  cases opens with
  | true =>
    have h := hloop rfl { s with opened := s.opened ++ [path] } hc
    simp only [if_true, h, Dir.seenDirs, Dir.seenFiles]
    cases outcome (entries.seenDirs path) entries.seenFiles
      { s with opened := s.opened ++ [path] } <;> rfl
  | false =>
    have h := outcome_nil (s := { s with opened := s.opened ++ [path] }) hc
    simp only [if_neg Bool.false_ne_true, Dir.seenDirs, Dir.seenFiles, h]
    rfl

/-- **The loop** does what `seenFiles` and `seenDirs` say of the entries that are left. -/
theorem readLoop_eq (hw : l.Wf)
    (hat : ∀ x ∈ l.dirs path, x.1.length < pathMax → fs.dirAt x.1 = some x.2) {n : Nat}
    (hn : l.depth ≤ n) (hc : s.count ≤ CInt.max) :
    readLoop (countFile fs n) path l.dirents s = outcome (l.seenDirs path) l.seenFiles s := by
  induction l generalizing path n s with
  | nil => exact (outcome_nil hc).symm
  | dots up known rest ih =>
    cases known with
    | false => exact ih hw hat hn hc
    | true =>
      have hdots : isDots (ascii (if up then ".." else ".")) = true := by cases up <;> decide
      rw [Listing.dirents, if_pos rfl, readLoop, if_pos hdots]
      exact ih hw hat hn hc
  | file regular known name rest ih =>
    by_cases hreg : (regular && known) = true
    · rw [Listing.dirents, Listing.seenFiles, if_pos hreg, if_pos hreg, readLoop]
      change _ = outcome (rest.seenDirs path) (1 + rest.seenFiles) s
      rw [outcome_file]
      cases hi : CInt.incr s.count with
      | none => rfl
      | some count =>
        obtain ⟨hlt, rfl⟩ := CInt.incr_eq_some.1 hi
        exact ih hw.2.2 hat hn hlt
    · rw [Listing.dirents, Listing.seenFiles, if_neg hreg, if_neg hreg, readLoop, Nat.zero_add]
      exact ih hw.2.2 hat hn hc
  | dir name opens known sub rest ihsub ih =>
    obtain ⟨hname, _, hsub, hrest⟩ := hw
    rw [Listing.depth, Nat.max_le] at hn
    rw [dirs_dir, List.forall_mem_cons, List.forall_mem_append] at hat
    obtain ⟨hat0, hatsub, hatrest⟩ := hat
    cases known with
    | false =>
      -- `DT_UNKNOWN`: nothing is called
      rw [Listing.dirents, if_neg Bool.false_ne_true, readLoop, ih hrest hatrest hn.2 hc]
      simp [Listing.seenDirs, Listing.seenFiles]
    | true =>
      rw [Listing.dirents, if_pos rfl, seenDirs_dir, seenFiles_dir]
      by_cases hp : (path ++ 47 :: name).length < 256
      · obtain ⟨m, rfl⟩ : ∃ m, n = m + 1 := ⟨n - 1, by omega⟩
        have hatsub : opens = true → ∀ x ∈ sub.dirs (path ++ 47 :: name), x.1.length < pathMax →
            fs.dirAt x.1 = some x.2 := by
          intro ho
          rwa [Dir.dirs, if_pos ho] at hatsub
        have hcall : countFile fs (m + 1) (path ++ 47 :: name) s = _ :=
          countFile_of_loop (hat0 (hp.trans (by decide)))
            (fun ho _ hc => ihsub hsub (hatsub ho) (Nat.le_of_succ_le_succ hn.1) hc) hc
        rw [readLoop_dir hname.not_dots hp hcall, outcome_cons hp]
        rw [outcome_append]
        cases ho : outcome (Dir.seenDirs (path ++ 47 :: name) ⟨opens, sub⟩)
          (Dir.seenFiles ⟨opens, sub⟩) { s with opened := s.opened ++ [path ++ 47 :: name] } with
        | error stop => rfl
        | ok s' => exact ih hrest hatrest hn.2 (outcome_count_le ho)
      · have hnew : newpath path name = none := if_neg hp
        rw [readLoop, hname.not_dots, if_neg Bool.false_ne_true, hnew]
        exact (outcome_of_not_fits fun hf => hp (fits_cons.1 hf).1).symm

/-- **A call with enough fuel.** -/
theorem countFile_eq (hd : fs.dirAt path = some d) {n : Nat} (hn : d.entries.depth < n)
    (hc : s.count ≤ CInt.max) :
    countFile fs n path s =
      (outcome (d.seenDirs path) d.seenFiles { s with opened := s.opened ++ [path] }).map
        fun s' => (if d.opens then 0 else -1, s') := by
  obtain ⟨m, rfl⟩ : ∃ m, n = m + 1 := ⟨n - 1, by omega⟩
  refine countFile_of_loop hd (fun ho s hc => ?_) hc
  refine readLoop_eq (fs.wf hd) (fun x hx => fs.dirAt_dirs hd ?_) (Nat.le_of_lt_succ hn) hc
  rwa [Dir.dirs, if_pos ho]

/-- A call that counts has seen everything, and nothing has overflowed. -/
theorem typed_fits_of_counts {root : Bytes} (hroot : fs.dirAt root = some d) (hc : count ≤ CInt.max)
    (h : Counts fs root d count) : d.Typed ∧ Fits (d.dirs root) d.files count := by
  obtain ⟨n, r, s, hrun, hcount, hopened, -⟩ := h
  have hm := hrun (max n (d.entries.depth + 1)) (Nat.le_max_left _ _)
  rw [countFile_eq hroot (Nat.le_max_right _ _) hc] at hm
  by_cases hfits : Fits (d.seenDirs root) d.seenFiles count
  · rw [outcome_of_fits hfits] at hm
    obtain ⟨⟩ := hm
    have hfiles : d.seenFiles = d.files := Int.ofNat.inj (Int.add_left_cancel hcount)
    have hlen := congrArg List.length hopened
    simp only [List.nil_append, List.singleton_append, List.length_cons, List.length_map] at hlen
    have hdirs := (d.seenDirs_sublist root).eq_of_length (by omega)
    rw [hfiles, hdirs] at hfits
    exact ⟨(d.typed_iff root).2 ⟨hfiles, hdirs⟩, hfits⟩
  · rw [outcome_of_not_fits hfits] at hm
    cases hm

theorem counts_of_typed_fits {root : Bytes} (hroot : fs.dirAt root = some d) (hc : count ≤ CInt.max)
    (ht : d.Typed) (h : Fits (d.dirs root) d.files count) : Counts fs root d count := by
  obtain ⟨hfiles, hdirs⟩ := (d.typed_iff root).1 ht
  refine ⟨d.entries.depth + 1, if d.opens then 0 else -1,
    ⟨count + d.files, root :: (d.dirs root).map Prod.fst⟩, ?_, rfl, rfl, ?_, ?_⟩
  · intro m hm
    rw [countFile_eq hroot hm hc, hfiles, hdirs, outcome_of_fits h]
    rfl
  · rw [List.forall_mem_cons]
    exact ⟨hroot, fun x hx => fs.dirAt_dirs hroot hx ((h.1 x hx).trans (by decide))⟩
  · intro path hpath
    obtain ⟨x, hx, rfl⟩ := List.mem_map.1 hpath
    exact h.1 x hx

/-- **`count_file` counts the files** exactly if `readdir` reports the type of every regular file and
of every directory that is reached, every path below fits `newpath` and the counter does not
overflow. -/
theorem counts_iff (fs : Fs) (root : Bytes) (d : Dir) (count : Int)
    (hroot : fs.dirAt root = some d) (hc : count ≤ CInt.max) :
    Counts fs root d count ↔
      d.Typed ∧ (∀ x ∈ d.dirs root, x.1.length ≤ 255) ∧ count + d.files ≤ CInt.max := by
  have hfits : Fits (d.dirs root) d.files count ↔
      (∀ x ∈ d.dirs root, x.1.length ≤ 255) ∧ count + d.files ≤ CInt.max := by
    simp only [Fits, Nat.lt_succ_iff]
  rw [← hfits]
  exact ⟨typed_fits_of_counts hroot hc, fun h => counts_of_typed_fits hroot hc h.1 h.2⟩

/-- Three files, and one more in a directory that cannot be opened. `readdir` does not report the types
of that one, of the pipe and of `..`. -/
def shelf : Dir :=
  ⟨true, .dots false true (.dots true false (.file true true (ascii "a")
    (.dir (ascii "locked") false true (.file true false (ascii "lost") .nil)
      (.dir (ascii "sub") true true
        (.file true true (ascii "b") (.file false false (ascii "pipe") .nil))
        (.file true true (ascii "c") .nil)))))⟩

theorem shelf_wf : shelf.entries.Wf := by decide

theorem counts_iff_shelf :
    Counts (Fs.ofDir [] (ascii "top") shelf shelf_wf) (ascii "top") shelf 0 ∧ shelf.files = 3 :=
  ⟨(counts_iff _ _ _ _ (Fs.ofDir_root [] (by decide) shelf_wf) (by decide)).2
    ⟨by decide, by decide, by decide⟩, rfl⟩

/-- A directory with a name of 254 bytes. -/
def longName : Dir := ⟨true, .dir (List.replicate 254 97) true true .nil .nil⟩

theorem longName_wf : longName.entries.Wf := by decide +kernel

/-- The path `r/aaa…` and its `NUL` do not fit `newpath`. -/
theorem counts_fails : ¬ ∀ (fs : Fs) (root : Bytes) (d : Dir) (count : Int),
    fs.dirAt root = some d → CInt.min ≤ count → count ≤ CInt.max → Counts fs root d count := by
  intro h
  have hroot : (Fs.ofDir [] (ascii "r") longName longName_wf).dirAt (ascii "r") = some longName :=
    Fs.ofDir_root [] (by decide) longName_wf
  have hcounts := h _ _ _ 0 hroot (by decide) (by decide)
  exact absurd (typed_fits_of_counts hroot (by decide) hcounts).2 (by decide +kernel)

end FileCount
