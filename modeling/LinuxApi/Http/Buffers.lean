import LinuxApi.Http.EpollSend
import LinuxApi.Http.Libevent

/-!
# The buffers of the HTTP servers

The models of the servers take their buffers to be large enough. Here are the accesses themselves:
the bytes that `decode_str` reads, the words that `sscanf` stores into arrays of fixed sizes, and the
calls of `sprintf` in `send_dir`.
-/

set_option autoImplicit false

namespace EpollHttp

open CLib

/-- The format of `sscanf(line, "%[^ ] %[^ ]", mothod, buff)`, for `mothod[10]` and `buff[1024]`. -/
def requestFormat : List Directive := [.word 10 (· = 32), .blank, .word 1024 (· = 32)]

/-- The line that `do_read` passes to `http_get_request`, if it calls it. -/
def requestLine? (c : Conn) : Option Bytes :=
  if isGet (getLine 1023 c).1 then some (getLine 1023 c).1 else none

end EpollHttp

namespace Libevent

open CLib Http

/-! ## `cb_read` -/

/-- The format of `sscanf(buff, "%[^ ] %[^ ] %[^ \r\n]", method, path, protocol)`, for `method[50]`,
`path[1024]` and `protocol[32]`. -/
def requestFormat : List Directive :=
  [.word 50 (· = 32), .blank, .word 1024 (· = 32), .blank,
    .word 32 fun b => b = 32 || b = 13 || b = 10]

/-- The words of that format, where they end if there is no limit to their sizes. -/
def requestWords (s : Bytes) : Words :=
  let path := skipSpace (afterWord (· = 32) s)
  let protocol := skipSpace (afterWord (· = 32) path)
  { method := word (· = 32) s
    path := word (· = 32) path
    protocol := word (fun b => b = 32 || b = 13 || b = 10) protocol }

/-- `buff` after `bufferevent_read`. -/
def readBuff (input : Bytes) : Bytes := fill (List.replicate 4096 0) (input.take 4096)

/-- `cb_read` with checked accesses: the array `path` that it passes to `http_response`, if it calls
it; `none` if `buff` has no terminator, a word does not fit into its array, or an array is used that
`sscanf` has not assigned. -/
def cbReadMem (input : Bytes) : Option (Option Bytes) :=
  if (0 : UInt8) ∈ readBuff input then
    match scan requestFormat (cstr (readBuff input)) with
    | none => none
    | some [] => none
    | some (method :: words) =>
      if isGet method then words.head?.map some else some none
  else none

/-! ## `decode_str` -/

/-- `decode_str` where `mem` is the memory from `from` on: the bytes it writes before the
terminator, `none` if it reads behind the end of `mem`. -/
def decodeMem : Bytes → Option Bytes
  | [] => none
  | c :: mem =>
    if c = 0 then some []
    else if c = 37 then
      match mem with
      | [] => none
      | h :: mem =>
        if isxdigit h then
          match mem with
          | [] => none
          | l :: mem =>
            if isxdigit l then (decodeMem mem).map ((hexit h * 16 + hexit l) :: ·)
            else (decodeMem (h :: l :: mem)).map (c :: ·)
        else (decodeMem (h :: mem)).map (c :: ·)
    else (decodeMem mem).map (c :: ·)
termination_by mem => mem.length

/-! ## `send_dir` -/

/-- A call of `sprintf`: how many bytes of the array are in use after it, the terminator included, and
the size of the array. -/
structure Write where
  used : Nat
  size : Nat
deriving DecidableEq, Repr

/-- What the first `sprintf` of `send_dir` writes. -/
def dirTitle (path : Bytes) : Bytes :=
  ascii "<html><head><title>curpath-" ++ path ++ ascii "</title></head>"

/-- The calls of `sprintf` in the rounds of the loop from `i` on and after it, for `buff[4096]` and
`file[fileSize]`. -/
def roundWrites (fileSize : Nat) (fs : Fs) (path : Bytes) : Nat → List Bytes → Bytes → List Write
  | _, [], buff => [⟨(buff ++ ascii "</table></center></body></html>").length + 1, 4096⟩]
  | i, name :: names, buff =>
    let st := entryStat fs path i name
    ⟨(path ++ ascii "/" ++ name).length + 1, fileSize⟩ ::
      ((if st.kind = .other then [] else [⟨(buff ++ dirRow name st).length + 1, 4096⟩]) ++
        roundWrites fileSize fs path (i + 1) names [])

/-- The calls of `sprintf` in `send_dir`. -/
def dirWrites (fs : Fs) (path : Bytes) : List Write :=
  ⟨(dirTitle path).length + 1, 4096⟩ :: ⟨(dirHead path).length + 1, 4096⟩ ::
    roundWrites 4096 fs path 0 ((fs.scandir path).getD []) (dirHead path)

end Libevent

namespace EpollHttp

open CLib Http

/-- The calls of `sprintf` in `send_dir`. -/
def dirWrites (fs : Fs) (path : Bytes) : List Libevent.Write :=
  ⟨(Libevent.dirTitle path).length + 1, 4096⟩ :: ⟨(dirHead path).length + 1, 4096⟩ ::
    Libevent.roundWrites 1024 fs path 0 ((fs.scandir path).getD []) (dirHead path)

end EpollHttp
