import LinuxApi.Http.Buffers
import LinuxApi.Http.Proof.Decode
import LinuxApi.Http.Proof.Framing
import LinuxApi.Http.Proof.Parse

/-!
# When a directory page fits into the buffers of `send_dir`

The buffer of the rows is large enough in both servers; `file` is not in the epoll server
(`dirWrites_fit_iff`).
-/

set_option autoImplicit false

namespace Libevent

open CLib Http

/-- No `long` that is not negative has more than 19 digits. -/
theorem dec_length_le {n : Nat} (h : n < 2 ^ 63) : (dec n).length ≤ 19 := by
  rw [dec, List.length_map, Nat.length_toDigits_le_iff (by decide) (by decide)]
  exact Nat.lt_trans h (by decide)

/-- The sizes of the files are values of an `off_t`. -/
structure SizesOk (fs : Fs) : Prop where
  stat : ∀ path st, fs.stat path = some st → st.size < 2 ^ 63
  junk : ∀ i, (fs.junk i).size < 2 ^ 63

theorem SizesOk.entry {fs : Fs} (h : SizesOk fs) (path : Bytes) (i : Nat) (name : Bytes) :
    (entryStat fs path i name).size < 2 ^ 63 := by
  unfold entryStat
  cases hs : fs.stat (path ++ ascii "/" ++ name) with
  | none => exact h.junk i
  | some st => exact h.stat _ _ hs

theorem dirRow_length_le {name : Bytes} {st : Stat} (hn : name.length ≤ 255)
    (hs : st.size < 2 ^ 63) : (dirRow name st).length ≤ 573 := by
  have := dec_length_le hs
  rw [dirRow_length, rowLength]
  cases st.kind <;> simp only <;> omega

/-- What is carried over into a round leaves room for a row and for the end of the page, so that only
`file` can be too small. -/
theorem roundWrites_fit_iff {fileSize : Nat} {fs : Fs} (hfs : SizesOk fs) (path : Bytes) (i : Nat)
    {names : List Bytes} (hn : ∀ name ∈ names, name.length ≤ 255) {buff : Bytes}
    (hb : buff.length ≤ 2200) :
    (∀ w ∈ roundWrites fileSize fs path i names buff, w.used < w.size) ↔
      ∀ name ∈ names, path.length + name.length + 2 < fileSize := by
  induction names generalizing i buff with
  | nil =>
    refine iff_of_true (fun w hw => ?_) nofun
    obtain rfl := List.mem_singleton.1 hw
    simp [ascii]
    omega
  | cons name names ih =>
    obtain ⟨hname, hnames⟩ := List.forall_mem_cons.1 hn
    have hrow := dirRow_length_le hname (hfs.entry path i name)
    have hmid : ∀ w ∈ (if (entryStat fs path i name).kind = .other then []
        else [(⟨(buff ++ dirRow name (entryStat fs path i name)).length + 1, 4096⟩ : Write)]),
        w.used < w.size := by
      intro w hw
      split at hw
      · cases hw
      · obtain rfl := List.mem_singleton.1 hw
        simp only [List.length_append]
        omega
    rw [roundWrites]
    simp only [List.forall_mem_cons, List.forall_mem_append]
    rw [ih (i + 1) hnames (Nat.zero_le _)]
    have hfile : (path ++ ascii "/" ++ name).length + 1 = path.length + name.length + 2 := by
      simp [ascii]
      omega
    rw [hfile]
    exact and_congr_right fun _ => and_iff_right hmid

theorem dirTitle_length (path : Bytes) : (dirTitle path).length = path.length + 42 := by
  simp [dirTitle, ascii]

theorem dirHead_length (path : Bytes) : (dirHead path).length = 2 * path.length + 112 := by
  simp [dirHead, ascii]
  omega

theorem filePath_length_le (t : Bytes) : (filePath t).length ≤ max 1 ((decodeStr t).length - 1) := by
  have h := cstr_length_le ((decodeStr t).drop 1)
  rw [List.length_drop] at h
  unfold filePath
  simp only
  split
  · exact Nat.le_max_left _ _
  · omega

/-- The paths that a block can lead to. -/
theorem filePath_length {input path : Bytes} (h : cbReadMem input = some (some path)) :
    (filePath path).length ≤ 1022 := by
  have hp := parsable_of_mem h
  rw [cbReadMem_of_parsable hp] at h
  have hpath : path.length ≤ 1023 := by
    have hle := hp.path_le
    split at h
    · obtain rfl := Option.some.inj (Option.some.inj h)
      exact hle
    · cases h
  have hdec := (Percent.decoding_decode path).length
  have hle := filePath_length_le path
  rw [decodeStr_eq_decode] at hle
  omega

end Libevent

namespace EpollHttp

open CLib Http

theorem dirHead_length (path : Bytes) : (dirHead path).length = 2 * path.length + 105 := by
  simp [dirHead, ascii]
  omega

theorem filePath_length {t : Bytes} (h : t.length ≤ 1023) : (filePath t).length ≤ 1022 := by
  unfold filePath
  simp only
  split
  · decide
  · rw [List.length_drop]
    omega

/-- The paths that a request line can lead to. -/
theorem requestPath_length {c : Conn} {line : Bytes} (h : requestLine? c = some line) :
    (requestPath line).length ≤ 1022 := by
  have hl := Nat.le_trans (cstr_length_le line) (requestLine_length h)
  have hw := scanPath_length_le (cstr line)
  exact filePath_length (hw.trans hl)

end EpollHttp

namespace Http

open CLib Libevent

/-- **When no `sprintf` of `send_dir` overruns its buffer**: always in the libevent server; in the epoll
server exactly if path and name, with the slash and the terminator, are less than `file` holds. -/
theorem dirWrites_fit_iff {fs : Fs} (hfs : SizesOk fs) {path : Bytes} (hp : path.length ≤ 1022)
    (hn : ∀ name ∈ (fs.scandir path).getD [], 1 ≤ name.length ∧ name.length ≤ 255) :
    (∀ w ∈ Libevent.dirWrites fs path, w.used < w.size) ∧
    ((∀ w ∈ EpollHttp.dirWrites fs path, w.used < w.size) ↔
      ∀ name ∈ (fs.scandir path).getD [], path.length + name.length ≤ 1021) := by
  have hle : ∀ name ∈ (fs.scandir path).getD [], name.length ≤ 255 := fun name h => (hn name h).2
  have htitle := dirTitle_length path
  have hhead := Libevent.dirHead_length path
  have hhead' := EpollHttp.dirHead_length path
  simp only [Libevent.dirWrites, EpollHttp.dirWrites, List.forall_mem_cons]
  rw [roundWrites_fit_iff hfs path 0 hle (by omega), roundWrites_fit_iff hfs path 0 hle (by omega)]
  refine ⟨⟨by omega, by omega, fun name h => ?_⟩, ?_⟩
  · have := hle name h
    omega
  · rw [and_iff_right (by omega), and_iff_right (by omega)]
    exact forall₂_congr fun name _ => by omega

/-- A directory with these entries, all of them regular files of `size` bytes. -/
def oneDir (names : List Bytes) (size : Nat) : Fs where
  stat _ := some ⟨.reg, size⟩
  openRead _ := none
  scandir _ := some names
  junk _ := ⟨.reg, size⟩
  size_eq := nofun

theorem oneDir_sizesOk {names : List Bytes} {size : Nat} (h : size < 2 ^ 63) :
    SizesOk (oneDir names size) where
  stat _ st hs := by
    obtain rfl := Option.some.inj hs
    exact h
  junk _ := h

/-- Five nested directories with names of 199 bytes. -/
def longPath : Bytes := (List.replicate 5 (List.replicate 199 97 ++ [47])).flatten

/-- There, the longest name that `file` has room for. -/
theorem dirWrites_fit_long :
    (∀ w ∈ Libevent.dirWrites (oneDir [ascii "a", List.replicate 21 98] 7) longPath,
      w.used < w.size) ∧
    ∀ w ∈ EpollHttp.dirWrites (oneDir [ascii "a", List.replicate 21 98] 7) longPath,
      w.used < w.size := by
  have hs : SizesOk (oneDir [ascii "a", List.replicate 21 98] 7) := oneDir_sizesOk (by decide)
  have hp : longPath.length ≤ 1022 := by decide +kernel
  have h := dirWrites_fit_iff hs hp (by decide)
  exact ⟨h.1, h.2.2 (by decide +kernel)⟩

/-- A request for them, and a file in the innermost with a name of 255 bytes. -/
theorem dirWrites_fit_fails : ¬ ∀ (c : EpollHttp.Conn) (line : Bytes) (fs : Fs),
    EpollHttp.requestLine? c = some line → SizesOk fs →
    (∀ name ∈ (fs.scandir (EpollHttp.requestPath line)).getD [],
      1 ≤ name.length ∧ name.length ≤ 255) →
    ∀ w ∈ EpollHttp.dirWrites fs (EpollHttp.requestPath line), w.used < w.size := by
  intro h
  have hline : EpollHttp.requestLine? ⟨[], ascii "GET /" ++ longPath ++ ascii " x\r\n", false⟩ =
      some (ascii "GET /" ++ longPath ++ ascii " x\n") := by decide +kernel
  have hall := h _ _ (oneDir [List.replicate 255 98] 7) hline (oneDir_sizesOk (by decide))
    (by decide +kernel) ⟨1257, 1024⟩
  revert hall
  decide +kernel

end Http
