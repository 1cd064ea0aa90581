import LinuxApi.Http.Proof.Decode
import LinuxApi.Http.Proof.Parse
import LinuxApi.Lib.PathWalk

/-!
# Where the links of a directory page lead

The rows of `send_dir` carry the name of an entry as it is, between the quotes of an attribute; a
client appends it to the target of the directory and sends it back, and `cb_read` and `decode_str`
read it. `leads_iff` says for which names and targets the entry is opened.
-/

set_option autoImplicit false

namespace Libevent

open CLib Http Percent

/-! ## Links -/

/-- The text of the attribute `href` in the row of an entry, up to the closing quote. -/
def href (name : Bytes) (st : Stat) : Bytes := ((dirRow name st).drop 17).takeWhile (· ≠ 34)

/-- A request for a target, with these bytes behind its first line. -/
def getBlock (target rest : Bytes) : Bytes :=
  ascii "GET " ++ (target ++ (ascii " HTTP/1.1" ++ crlf ++ rest))

/-- The directory that a target stands for; it is empty for the working directory. -/
def targetDir (target : Bytes) : Bytes := cstr ((decodeStr target).drop 1)

/-- The path of an entry. -/
def entryPath (dir name : Bytes) : Bytes :=
  if dir = [] ∨ dir.getLast? = some 47 then dir ++ name else dir ++ 47 :: name

/-- The block makes `http_response` open the entry, perhaps with a slash behind its name. -/
def Leads (block dir name : Bytes) : Prop :=
  ∃ path, cbReadMem block = some (some path) ∧
    (filePath path = entryPath dir name ∨ filePath path = entryPath dir name ++ [47])

/-! ## The entry -/

/-- The entry is the one that `send_dir` looks at. -/
theorem entryPath_resolve (cwd : List Bytes) (target : Bytes) {name : Bytes}
    (hslash : (47 : UInt8) ∉ name) :
    PathWalk.resolve cwd (entryPath (targetDir target) name) =
      PathWalk.resolve cwd (filePath target ++ ascii "/" ++ name) := by
  have hfile : filePath target =
      if targetDir target = [] then ascii "." else targetDir target := rfl
  rw [hfile]
  generalize targetDir target = dir
  have hone : ascii "/" = [47] := rfl
  rw [entryPath, hone, List.append_assoc, List.singleton_append]
  by_cases hd : dir = []
  · subst hd
    have habs : PathWalk.isAbsolute name = false := by
      cases name with
      | nil => rfl
      | cons b name =>
        simp only [List.mem_cons, not_or] at hslash
        simpa [PathWalk.isAbsolute, eq_comm] using hslash.1
    simp only [true_or, if_true, List.nil_append, PathWalk.resolve, habs, PathWalk.steps_append]
    rfl
  · rw [if_neg hd]
    by_cases hl : dir.getLast? = some 47
    · obtain ⟨dir', rfl⟩ := List.getLast?_eq_some_iff.1 hl
      have habs : ∀ s : Bytes, PathWalk.isAbsolute (dir' ++ [47] ++ s) =
          PathWalk.isAbsolute (dir' ++ [47]) := by
        intro s
        cases dir' <;> rfl
      rw [if_pos (.inr hl)]
      simp only [PathWalk.resolve, habs]
      rw [PathWalk.steps_append, PathWalk.steps_append, List.append_assoc, List.singleton_append,
        PathWalk.steps_append]
      simp [PathWalk.steps, PathWalk.component]
    · rw [if_neg (by simp [hd, hl])]

/-! ## The text of a link -/

/-- The entry as its row has it: the name, and a slash for a directory. -/
def linkText (name : Bytes) (st : Stat) : Bytes := name ++ if st.kind = .dir then [47] else []

theorem href_eq {name : Bytes} {st : Stat} (hk : st.kind ≠ .other) :
    href name st = word (· = 34) (linkText name st) := by
  have hrow : ∃ tail, dirRow name st =
      ascii "<tr><td><a href=\"" ++ (linkText name st ++ 34 :: tail) := by
    unfold dirRow linkText
    cases hkind : st.kind with
    | reg => exact ⟨62 :: name ++ ascii "</a></td><td>" ++ dec st.size ++ ascii "</td></tr>",
        by simp [ascii]⟩
    | dir => exact ⟨62 :: name ++ ascii "/</a></td><td>" ++ dec st.size ++ ascii "</td></tr>",
        by simp [ascii]⟩
    | other => exact absurd hkind hk
  obtain ⟨tail, hrow⟩ := hrow
  have hdrop : (dirRow name st).drop 17 = linkText name st ++ 34 :: tail := by
    rw [hrow]
    exact List.drop_left' rfl
  have hword : ∀ s : Bytes, s.takeWhile (· ≠ 34) = word (· = 34) s := by
    intro s
    simp only [word, decide_not]
  rw [href, hdrop, hword]
  exact word_append_stop rfl _ _

/-- A quote in the name ends the attribute early. -/
theorem href_prefix {name : Bytes} {st : Stat} (hk : st.kind ≠ .other) :
    href name st <+: linkText name st := by
  rw [href_eq hk]
  exact List.takeWhile_prefix _

/-! ## What `cb_read` makes of the request -/

/-- What is known of a target that was handed to `http_response`. -/
structure Target (target : Bytes) : Prop where
  ne : target ≠ []
  noSpace : ∀ b ∈ target, decide (b = 32) = false
  noNul : (0 : UInt8) ∉ target
  head : skipSpace target = target
  length_le : target.length ≤ 1023

theorem Target.of_mem {input target : Bytes} (h : cbReadMem input = some (some target)) :
    Target target := by
  have hp := parsable_of_mem h
  rw [cbReadMem_of_parsable hp] at h
  split at h
  · rename_i hg
    obtain rfl := Option.some.inj (Option.some.inj h)
    refine ⟨hp.assigned hg, fun b hb => stop_of_mem_word hb, fun h0 => ?_, skipSpace_word _ _,
      hp.path_le⟩
    have hword := (List.takeWhile_sublist _).subset h0
    have hskip := (List.dropWhile_sublist _).subset hword
    have hcstr := (List.dropWhile_sublist _).subset hskip
    simpa using List.mem_takeWhile_imp hcstr
  · cases h

section
variable {target name : Bytes} {st : Stat}

theorem linkText_length_le (name : Bytes) (st : Stat) :
    (linkText name st).length ≤ name.length + 1 := by
  unfold linkText
  split <;> simp

theorem linkText_ok (st : Stat) (h0 : (0 : UInt8) ∉ name) (hlen : name.length ≤ 255) :
    (0 : UInt8) ∉ linkText name st ∧ (linkText name st).length ≤ 256 := by
  unfold linkText
  split <;> simp [h0] <;> omega

/-- The first bytes of the buffer are those of the request line. -/
theorem cstr_getBlock {link : Bytes} (ht : Target target) (h0 : (0 : UInt8) ∉ link)
    (hlen : link.length ≤ 256) (rest : Bytes) :
    ∃ tail, cstr ((getBlock (target ++ link) rest).take 4096) =
      ascii "GET" ++ 32 :: (target ++ (link ++ 32 :: (ascii "HTTP/1.1" ++ 13 :: tail))) := by
  have htl := ht.length_le
  let line := ascii "GET" ++ 32 :: (target ++ (link ++ 32 :: (ascii "HTTP/1.1" ++ [13])))
  have hb : getBlock (target ++ link) rest = line ++ (10 :: rest) := by
    simp [getBlock, line, ascii, crlf]
  have hline : line.length ≤ 4096 := by
    simp [line, ascii]
    omega
  have hnul : (0 : UInt8) ∉ line := by
    simp [line, ascii, ht.noNul, h0]
  refine ⟨cstr ((10 :: rest).take (4096 - line.length)), ?_⟩
  rw [hb, List.take_append, List.take_of_length_le hline, cstr_append,
    if_pos (by rw [cstr_of_notMem hnul])]
  simp [line]

theorem isGet_get : isGet (ascii "GET") = true := by decide +kernel

/-- The words of the request: the path ends at the first space of the link. -/
theorem inputWords_getBlock {link : Bytes} (ht : Target target) (h0 : (0 : UInt8) ∉ link)
    (hlen : link.length ≤ 256) (rest : Bytes) :
    (inputWords (getBlock (target ++ link) rest)).method = ascii "GET" ∧
    (inputWords (getBlock (target ++ link) rest)).path = target ++ word (· = 32) link ∧
    (word (· = 32) link = link →
      (inputWords (getBlock (target ++ link) rest)).protocol = ascii "HTTP/1.1") := by
  obtain ⟨tail, hs⟩ := cstr_getBlock ht h0 hlen rest
  have hsp : ∀ s, word (· = 32) (32 :: s) = [] ∧ afterWord (· = 32) (32 :: s) = 32 :: s :=
    word_stop rfl
  have hend : ∀ s rest, word (· = 32) (s ++ 32 :: rest) = word (· = 32) s := word_append_stop rfl
  have hletters : ∀ b ∈ ascii "GET", decide (b = 32) = false := by decide +kernel
  have hget := word_append (· = 32) hletters
  have htok := word_append (· = 32) ht.noSpace
  have hskip : ∀ s, skipSpace (32 :: (target ++ s)) = target ++ s := by
    intro s
    rw [skipSpace_cons_space rfl]
    cases h : target with
    | nil => exact absurd h ht.ne
    | cons b t => exact skipSpace_of_head (not_isspace_of_skipSpace (ht.head.trans h)) _
  rw [inputWords, hs]
  simp only [requestWords, hget, hsp, hskip, htok, hend, List.append_nil, true_and]
  intro hword
  have hlink := (word_append (· = 32) (word_eq_self.1 hword)
    (32 :: (ascii "HTTP/1.1" ++ 13 :: tail))).2
  have hversion : ∀ b ∈ ascii "HTTP/1.1", (b = 32 || b = 13 || b = 10) = false := by
    decide +kernel
  have hproto := (word_append (fun b => b = 32 || b = 13 || b = 10) hversion (13 :: tail)).1
  rw [hlink, (hsp _).2, skipSpace_cons_space rfl]
  exact hproto.trans (by simp [word])

theorem path_of_getBlock {link : Bytes} (ht : Target target) (h0 : (0 : UInt8) ∉ link)
    (hlen : link.length ≤ 256) {rest path : Bytes}
    (h : cbReadMem (getBlock (target ++ link) rest) = some (some path)) :
    path = target ++ word (· = 32) link := by
  obtain ⟨hm, hp, -⟩ := inputWords_getBlock ht h0 hlen rest
  rw [cbReadMem_of_parsable (parsable_of_mem h), hm, if_pos isGet_get, hp] at h
  exact (Option.some.inj (Option.some.inj h)).symm

/-- The block can be taken exactly if it is terminated and the target is short enough. -/
theorem cbReadMem_getBlock {link : Bytes} (ht : Target target) (h0 : (0 : UInt8) ∉ link)
    (hlen : link.length ≤ 256) {rest path : Bytes} (hword : word (· = 32) link = link) :
    cbReadMem (getBlock (target ++ link) rest) = some (some path) ↔
      ((getBlock (target ++ link) rest).length < 4096 ∨
        (0 : UInt8) ∈ (getBlock (target ++ link) rest).take 4096) ∧
      target.length + link.length ≤ 1023 ∧ path = target ++ link := by
  obtain ⟨hm, hp, hproto⟩ := inputWords_getBlock ht h0 hlen rest
  have hproto := hproto hword
  rw [hword] at hp
  constructor
  · intro h
    have hpar := parsable_of_mem h
    have hple := hpar.path_le
    have hpath := path_of_getBlock ht h0 hlen h
    rw [hword] at hpath
    rw [hp, List.length_append] at hple
    exact ⟨hpar.terminated, hple, hpath⟩
  · intro h
    obtain ⟨hterm, hshort, rfl⟩ := h
    have hpar : Parsable (getBlock (target ++ link) rest) := by
      refine ⟨hterm, by rw [hm]; decide, by rw [hm]; decide, ?_, by rw [hproto]; decide, ?_⟩
      · rw [hp, List.length_append]
        exact hshort
      · intro _
        rw [hp]
        simp [ht.ne]
    rw [cbReadMem_of_parsable hpar, hm, if_pos isGet_get, hp]

end

/-! ## What `decode_str` makes of the target -/

/-- What becomes of a target without its first byte. -/
def decoded (target : Bytes) : Bytes := (decodeStr target).drop 1

section
variable {target link name : Bytes} {st : Stat}

theorem filePath_eq (target : Bytes) : filePath target =
    if cstr (decoded target) = [] then ascii "." else cstr (decoded target) := rfl

theorem decoded_length (ht : Target target) :
    (decoded target).length + 2 * escapes target + 1 = target.length := by
  have h := (decoding_decode target).length
  have hpos := List.length_pos_of_ne_nil (decode_ne_nil ht.ne)
  rw [decoded, decodeStr_eq_decode, List.length_drop]
  omega

theorem Target.append (ht : Target target) (link : Bytes) : target ++ link ≠ [] := by
  simp [ht.ne]

/-- Each escape that the link adds makes the path two bytes shorter. -/
theorem decoded_append_length (ht : Target target) (link : Bytes) :
    (decoded (target ++ link)).length + 2 * escapes (target ++ link) =
      (decoded target).length + link.length + 2 * escapes target := by
  have h := (decoding_decode (target ++ link)).length
  have hpos := List.length_pos_of_ne_nil (decode_ne_nil (ht.append link))
  have hd := decoded_length ht
  rw [List.length_append] at h
  rw [decoded, decodeStr_eq_decode, List.length_drop]
  omega

/-- A link that adds no escape is appended to the path. -/
theorem decoded_append (ht : Target target) (h : escapes (target ++ link) = escapes target) :
    decoded (target ++ link) = decoded target ++ link := by
  have hpos := List.length_pos_of_ne_nil (decode_ne_nil ht.ne)
  rw [decoded, decoded, decodeStr_eq_decode, decodeStr_eq_decode, decode_append_of_escapes h,
    List.drop_append_of_le_length hpos]

/-- A path that a `NUL` ends stays the same. -/
theorem cstr_decoded_append (h0 : (0 : UInt8) ∈ decoded target) (link : Bytes) :
    cstr (decoded (target ++ link)) = cstr (decoded target) := by
  obtain ⟨u, v, w, hu, hw, hv⟩ := decode_append_prefix target link
  rw [decoded, decodeStr_eq_decode, hu] at h0
  rw [decoded, decoded, decodeStr_eq_decode, decodeStr_eq_decode, hu, hw]
  cases u with
  | nil => exact absurd ((List.drop_sublist 1 v).subset h0) hv
  | cons b u =>
    have hmem : (0 : UInt8) ∈ u := (List.mem_append.1 h0).resolve_right hv
    exact (cstr_append_of_mem hmem w).trans (cstr_append_of_mem hmem v).symm

theorem entryPath_length_le (dir name : Bytes) :
    dir.length + name.length ≤ (entryPath dir name).length := by
  unfold entryPath
  split <;> simp only [List.length_append, List.length_cons] <;> omega

/-- A path that leads to the entry is long enough to hold its whole name, unless it is the `.` that
stands for the empty path. -/
theorem long_of_leads (ht : Target target) (hne : name ≠ []) (hlink : link.length ≤ name.length + 1)
    (hq : filePath (target ++ link) = entryPath (targetDir target) name ∨
      filePath (target ++ link) = entryPath (targetDir target) name ++ [47]) :
    (targetDir target = [] ∧ name = ascii ".") ∨
      (0 : UInt8) ∉ decoded target ∧ escapes (target ++ link) = escapes target ∧
        name.length ≤ link.length ∧ filePath (target ++ link) = cstr (decoded (target ++ link)) := by
  have hent := entryPath_length_le (targetDir target) name
  have hle : (entryPath (targetDir target) name).length ≤ (filePath (target ++ link)).length := by
    rcases hq with hq | hq <;> rw [hq]
    exact (List.length_append ▸ Nat.le_add_right _ _)
  have hpos := List.length_pos_of_ne_nil hne
  have hfile := filePath_eq (target ++ link)
  by_cases hy : cstr (decoded (target ++ link)) = []
  · left
    rw [if_pos hy] at hfile
    have hone : (filePath (target ++ link)).length = 1 := by rw [hfile]; rfl
    have hdir : targetDir target = [] := List.eq_nil_of_length_eq_zero (by omega)
    rw [hdir, entryPath, if_pos (.inl rfl), List.nil_append, hfile] at hq
    rcases hq with hq | hq
    · exact ⟨hdir, hq.symm⟩
    · have := congrArg List.length hq
      rw [List.length_append] at this
      simp only [List.length_singleton, ascii] at this
      exact absurd this (by simp; omega)
  · right
    rw [if_neg hy] at hfile
    rw [hfile] at hle
    have h0 : (0 : UInt8) ∉ decoded target := by
      intro h0
      rw [cstr_decoded_append h0] at hle
      have : (targetDir target).length = (cstr (decoded target)).length := rfl
      omega
    have hdir : targetDir target = decoded target := cstr_of_notMem h0
    have hc := cstr_length_le (decoded (target ++ link))
    have hlen := decoded_append_length ht link
    have hesc := escapes_le_append target link
    rw [hdir] at hent hle
    exact ⟨h0, by omega, by omega, hfile⟩

end

/-! ## Links that lead to their entries -/

/-- When the link of an entry leads back to it: the request fits, nothing in the name ends the
attribute or the target or is decoded, and the target of the directory ends with a slash. A target
that a `NUL` ends is all right only for the entry `.` of the working directory. -/
structure LinkOk (target rest name : Bytes) (st : Stat) : Prop where
  terminated : (getBlock (target ++ href name st) rest).length < 4096 ∨
    (0 : UInt8) ∈ (getBlock (target ++ href name st) rest).take 4096
  short : target.length + (href name st).length ≤ 1023
  noQuote : (34 : UInt8) ∉ name
  noSpace : (32 : UInt8) ∉ name
  noEscape : escapes (target ++ href name st) = escapes target
  dir : (0 : UInt8) ∉ decoded target ∧
      (decoded target = [] ∨ (decoded target).getLast? = some 47) ∨
    targetDir target = [] ∧ name = ascii "."

section
variable {target name : Bytes} {st : Stat}

/-- A name without a quote or a space is the whole text of its link. -/
theorem href_plain (hk : st.kind ≠ .other) (hq : (34 : UInt8) ∉ name) (hs : (32 : UInt8) ∉ name) :
    href name st = linkText name st ∧ word (· = 32) (href name st) = href name st := by
  have htext : ∀ c : UInt8, c ≠ 47 → c ∉ name →
      word (· = c) (linkText name st) = linkText name st := by
    intro c hc hn
    rw [word_eq_self]
    intro b hb
    have hb' : b ∈ name ∨ b = 47 := by
      rcases List.mem_append.1 hb with hb | hb
      · exact .inl hb
      · split at hb
        · exact .inr (List.mem_singleton.1 hb)
        · cases hb
    rcases hb' with hb' | rfl
    · simpa using fun h : b = c => hn (h ▸ hb')
    · simpa using hc.symm
  have hhref := (href_eq hk).trans (htext 34 (by decide) hq)
  exact ⟨hhref, hhref ▸ htext 32 (by decide) hs⟩

/-- A link that holds the whole name has neither a quote nor a space in it. -/
theorem plain_of_length (hk : st.kind ≠ .other)
    (hlen : name.length ≤ (word (· = 32) (href name st)).length) :
    (34 : UInt8) ∉ name ∧ (32 : UInt8) ∉ name := by
  have hsp : word (· = 32) (href name st) <+: href name st := List.takeWhile_prefix _
  have hqu : href name st <+: linkText name st := href_prefix hk
  have hname : name <+: word (· = 32) (href name st) :=
    List.prefix_of_prefix_length_le (List.prefix_append _ _) (hsp.trans hqu) hlen
  constructor
  · intro h
    have hmem := hsp.subset (hname.subset h)
    rw [href_eq hk] at hmem
    simpa using stop_of_mem_word hmem
  · intro h
    simpa using stop_of_mem_word (hname.subset h)

/-- `.` and `./` are not decoded. -/
theorem escapes_dot (target : Bytes) (st : Stat) :
    escapes (target ++ linkText (ascii ".") st) = escapes target := by
  have hhead : (linkText (ascii ".") st).head? = some 46 := rfl
  have hzero : escapes (linkText (ascii ".") st) = 0 := by
    unfold linkText
    split <;> rfl
  rw [escapes_append_of_head rfl hhead, hzero, Nat.add_zero]

/-- The name is not joined to the last component of the path. -/
theorem dir_of_leads (hname : (47 : UInt8) ∉ name) (hne : name ≠ []) {d : Bytes}
    (hq : d ++ linkText name st = entryPath d name ∨
      d ++ linkText name st = entryPath d name ++ [47]) : d = [] ∨ d.getLast? = some 47 := by
  by_contra hd
  rw [entryPath, if_neg hd] at hq
  have hhead : (linkText name st).head? = some 47 := by
    rcases hq with hq | hq
    · rw [List.append_cancel_left hq]
      rfl
    · rw [List.append_assoc] at hq
      rw [List.append_cancel_left hq]
      rfl
  cases name with
  | nil => exact hne rfl
  | cons b name =>
    obtain rfl : b = 47 := Option.some.inj hhead
    exact hname List.mem_cons_self

/-- What `http_response` opens for a link that is copied as it is. -/
theorem filePath_plain (ht : Target target) (h0 : (0 : UInt8) ∉ linkText name st) (hne : name ≠ [])
    (hesc : escapes (target ++ linkText name st) = escapes target)
    (hd0 : (0 : UInt8) ∉ decoded target) :
    filePath (target ++ linkText name st) = decoded target ++ linkText name st := by
  have hnul : (0 : UInt8) ∉ decoded target ++ linkText name st := by simp [hd0, h0]
  rw [filePath_eq, decoded_append ht hesc, cstr_of_notMem hnul, if_neg (by simp [linkText, hne])]

/-- A link that is copied as it is leads to the entry in a directory with a slash. -/
theorem leads_of_plain {d : Bytes} (hd : d = [] ∨ d.getLast? = some 47) :
    d ++ linkText name st = entryPath d name ∨
      d ++ linkText name st = entryPath d name ++ [47] := by
  rw [entryPath, if_pos hd, linkText]
  split
  · exact .inr (List.append_assoc ..).symm
  · exact .inl (by rw [List.append_nil])

/-- **When the link of an entry leads back to it**, for every entry of the directory that a target
stands for. -/
theorem leads_iff {input target : Bytes} (ht : cbReadMem input = some (some target))
    {name : Bytes} {st : Stat} (hne : name ≠ []) (hlen : name.length ≤ 255)
    (h0 : (0 : UInt8) ∉ name) (hslash : (47 : UInt8) ∉ name) (hk : st.kind ≠ .other)
    (rest : Bytes) :
    Leads (getBlock (target ++ href name st) rest) (targetDir target) name ↔
      LinkOk target rest name st := by
  have ht := Target.of_mem ht
  obtain ⟨htext0, htextlen⟩ := linkText_ok st h0 hlen
  have hqu : href name st <+: linkText name st := href_prefix hk
  have hlink0 : (0 : UInt8) ∉ href name st := fun h => htext0 (hqu.subset h)
  have hlinklen : (href name st).length ≤ 256 := Nat.le_trans hqu.length_le htextlen
  constructor
  · intro h
    obtain ⟨path, hpath, hq⟩ := h
    obtain rfl := path_of_getBlock ht hlink0 hlinklen hpath
    have hle : (word (· = 32) (href name st)).length ≤ name.length + 1 :=
      Nat.le_trans (word_length_le _ _) (Nat.le_trans hqu.length_le (linkText_length_le name st))
    rcases long_of_leads ht hne hle hq with ⟨hdir, rfl⟩ | ⟨hd0, hesc, hl, hfile⟩
    · have hquote : (34 : UInt8) ∉ ascii "." := by decide
      obtain ⟨hhref, hword⟩ := href_plain hk hquote (by decide)
      obtain ⟨hterm, hshort, -⟩ := (cbReadMem_getBlock ht hlink0 hlinklen hword).1 hpath
      exact ⟨hterm, hshort, hquote, by decide, hhref ▸ escapes_dot target st,
        .inr ⟨hdir, rfl⟩⟩
    · obtain ⟨hquote, hspace⟩ := plain_of_length hk hl
      obtain ⟨hhref, hword⟩ := href_plain hk hquote hspace
      obtain ⟨hterm, hshort, -⟩ := (cbReadMem_getBlock ht hlink0 hlinklen hword).1 hpath
      rw [hword] at hesc hq
      refine ⟨hterm, hshort, hquote, hspace, hesc, .inl ⟨hd0, ?_⟩⟩
      have hdir : targetDir target = decoded target := cstr_of_notMem hd0
      rw [hhref] at hesc hq
      rw [filePath_plain ht htext0 hne hesc hd0, hdir] at hq
      exact dir_of_leads hslash hne hq
  · intro h
    obtain ⟨hhref, hword⟩ := href_plain hk h.noQuote h.noSpace
    refine ⟨target ++ href name st,
      (cbReadMem_getBlock ht hlink0 hlinklen hword).2 ⟨h.terminated, h.short, rfl⟩, ?_⟩
    have hesc := h.noEscape
    rw [hhref] at hesc ⊢
    by_cases hd0 : (0 : UInt8) ∈ decoded target
    · obtain ⟨hdir, rfl⟩ := h.dir.resolve_left fun hd => hd.1 hd0
      have hcut : cstr (decoded (target ++ linkText (ascii ".") st)) = [] :=
        (cstr_decoded_append hd0 _).trans hdir
      rw [filePath_eq, if_pos hcut, hdir]
      exact .inl rfl
    · have hdir : targetDir target = decoded target := cstr_of_notMem hd0
      have hd : decoded target = [] ∨ (decoded target).getLast? = some 47 := by
        rcases h.dir with hd | hd
        · exact hd.2
        · exact .inl (hdir ▸ hd.1)
      rw [filePath_plain ht htext0 hne hesc hd0, hdir]
      exact leads_of_plain hd

end

/-- A file in the directory `/d/`. -/
theorem leads_plain : Leads (getBlock (ascii "/d/" ++ href (ascii "a.txt") ⟨.reg, 7⟩) crlf)
    (targetDir (ascii "/d/")) (ascii "a.txt") := by
  have ht : cbReadMem (ascii "GET /d/ HTTP/1.1\r\n\r\n") = some (some (ascii "/d/")) := by
    decide +kernel
  refine (leads_iff ht (by decide) (by decide) (by decide +kernel) (by decide +kernel) (by decide)
    crlf).2 ⟨.inl ?_, ?_, ?_, ?_, ?_, .inl ⟨?_, .inr ?_⟩⟩ <;> decide +kernel

/-- A name with a space is cut there. -/
theorem leads_fails : ¬ ∀ (input target name : Bytes) (st : Stat) (rest : Bytes),
    cbReadMem input = some (some target) → name ≠ [] → name.length ≤ 255 →
    (0 : UInt8) ∉ name → (47 : UInt8) ∉ name → st.kind ≠ .other →
    Leads (getBlock (target ++ href name st) rest) (targetDir target) name := by
  intro h
  obtain ⟨path, hp, hq⟩ := h (ascii "GET / HTTP/1.1\r\n\r\n") (ascii "/") (ascii "a b")
    ⟨.reg, 7⟩ crlf (by decide +kernel) (by decide) (by decide) (by decide +kernel)
    (by decide +kernel) (by decide)
  have hcut : cbReadMem (getBlock (ascii "/" ++ href (ascii "a b") ⟨.reg, 7⟩) crlf) =
      some (some (ascii "/a")) := by decide +kernel
  rw [hcut] at hp
  obtain rfl := Option.some.inj (Option.some.inj hp)
  revert hq
  decide +kernel

end Libevent
