import LinuxApi.Lib.CString

/-!
# What the HTTP servers see of the file system

`Fs` is the state of the file system during one request, as the calls of the servers report it.
Paths and names are C strings: lists of bytes without `NUL`. `getFileType` is
`get_file_type`, which both servers have.
-/

set_option autoImplicit false

namespace Http

open CLib

/-- What `S_ISREG` and `S_ISDIR` tell apart. -/
inductive Kind
  | reg
  | dir
  | other
deriving DecidableEq, Repr

/-- `struct stat`, as far as it is used. -/
structure Stat where
  kind : Kind
  size : Nat
deriving DecidableEq, Repr

/-- The file system: `none` is a call that returns `-1`. A file that can be opened is the bytes that
successive `read`s deliver; those of a regular file are as many as `stat` said. `junk i` is what
round `i` of the loop of `send_dir` finds in its `struct stat` if the call of `stat` fails. -/
structure Fs where
  stat : Bytes → Option Stat
  openRead : Bytes → Option Bytes
  scandir : Bytes → Option (List Bytes)
  junk : Nat → Stat
  size_eq : ∀ path size content, stat path = some ⟨.reg, size⟩ →
    openRead path = some content → content.length = size

/-- `strrchr`: the string from the last `c` on. -/
def strrchr (c : UInt8) : Bytes → Option Bytes
  | [] => none
  | b :: s =>
    match strrchr c s with
    | some dot => some dot
    | none => if b = c then some (b :: s) else none

/-- The suffixes that `get_file_type` compares with, in its order. -/
def fileTypes : List (List Bytes × Bytes) :=
  [([ascii ".html", ascii ".htm"], ascii "text/html; charset=utf-8"),
   ([ascii ".jpg", ascii ".jpeg"], ascii "image/jpeg"),
   ([ascii ".gif"], ascii "image/gif"),
   ([ascii ".png"], ascii "image/png"),
   ([ascii ".css"], ascii "text/css"),
   ([ascii ".au"], ascii "audio/basic"),
   ([ascii ".wav"], ascii "audio/wav"),
   ([ascii ".avi"], ascii "video/x-msvideo"),
   ([ascii ".mov", ascii ".qt"], ascii "video/quicktime"),
   ([ascii ".mpeg", ascii ".mpe"], ascii "video/mpeg"),
   ([ascii ".vrml", ascii ".wrl"], ascii "model/vrml"),
   ([ascii ".midi", ascii ".mid"], ascii "audio/midi"),
   ([ascii ".mp3"], ascii "audio/mpeg"),
   ([ascii ".ogg"], ascii "application/ogg"),
   ([ascii ".pac"], ascii "application/x-ns-proxy-autoconfig")]

def plainText : Bytes := ascii "text/plain; charset=utf-8"

/-- `get_file_type` -/
def getFileType (name : Bytes) : Bytes :=
  match strrchr 46 name with
  | none => plainText
  | some dot =>
    match fileTypes.find? fun e => e.1.contains dot with
    | some e => e.2
    | none => plainText

/-- No type contains a line break. -/
theorem cr_notMem_getFileType (name : Bytes) : (13 : UInt8) ∉ getFileType name := by
  have hplain : (13 : UInt8) ∉ plainText := by decide
  have htypes : ∀ e ∈ fileTypes, (13 : UInt8) ∉ e.2 := by decide
  unfold getFileType
  split
  · exact hplain
  · split
    · rename_i e he
      exact htypes e (List.mem_of_find?_eq_some he)
    · exact hplain

end Http
