import LinuxApi.Http.Files
import LinuxApi.Lib.Scanf

/-!
# The libevent server (`http_code/libevent/libevent_http.c`)

`cb_read` and `http_response`. What `http_response` appends to the output buffer is the list of the
blocks that it passes to `bufferevent_write`. The buffers on the stack are taken to be large
enough; what the arrays `method`, `path` and `protocol` hold before `sscanf` is a parameter.
-/

set_option autoImplicit false

namespace Libevent

open CLib Http

/-! ## Percent decoding -/

/-- `isxdigit` -/
def isxdigit (c : UInt8) : Bool :=
  (48 ≤ c && c ≤ 57) || (97 ≤ c && c ≤ 102) || (65 ≤ c && c ≤ 70)

/-- `hexit` -/
def hexit (c : UInt8) : UInt8 :=
  if 48 ≤ c ∧ c ≤ 57 then c - 48
  else if 97 ≤ c ∧ c ≤ 102 then c - 97 + 10
  else if 65 ≤ c ∧ c ≤ 70 then c - 65 + 10
  else 0

/-- `decode_str`: the bytes it writes before the terminator. -/
def decodeStr : Bytes → Bytes
  | c :: h :: l :: src =>
    if c = 37 ∧ isxdigit h = true ∧ isxdigit l = true then
      (hexit h * 16 + hexit l) :: decodeStr src
    else c :: decodeStr (h :: l :: src)
  | c :: src => c :: decodeStr src
  | [] => []

/-- The path that `http_response` opens: `destr_path` without its first byte, or `.`. -/
def filePath (path : Bytes) : Bytes :=
  let file := cstr ((decodeStr path).drop 1)
  if file = [] then ascii "." else file

/-! ## `cb_read` -/

/-- The arrays that `sscanf` fills. -/
structure Words where
  method : Bytes
  path : Bytes
  protocol : Bytes
deriving DecidableEq, Repr

/-- What `sscanf(buff, "%[^ ] %[^ ] %[^ \r\n]", method, path, protocol)` leaves in the arrays. -/
def scanWords (junk : Words) (buff : Bytes) : Words :=
  match scanSet (· = 32) buff with
  | none => junk
  | some (method, rest) =>
    match scanSet (· = 32) (skipSpace rest) with
    | none => { junk with method }
    | some (path, rest) =>
      match scanSet (fun b => b = 32 || b = 13 || b = 10) (skipSpace rest) with
      | none => { junk with method, path }
      | some (protocol, _) => { method, path, protocol }

/-- `strcasecmp("get", method) == 0` -/
def isGet (method : Bytes) : Bool := method.map tolower = ascii "get"

/-- `cb_read` with these bytes in the input buffer: the path that `http_response` opens, if it is
called, and what is left in the input buffer. -/
def cbRead (junk : Words) (input : Bytes) : Option Bytes × Bytes :=
  let words := scanWords junk (cstr (input.take 4096))
  (if isGet words.method then some (filePath words.path) else none, input.drop 4096)

/-- The callbacks of a connection from the `i`-th on, one for each block that arrives: the paths
that are answered. -/
def serveFrom (junk : Nat → Words) : Nat → Bytes → List Bytes → List Bytes
  | _, _, [] => []
  | i, input, block :: blocks =>
    (cbRead (junk i) (input ++ block)).1.toList ++
      serveFrom junk (i + 1) (cbRead (junk i) (input ++ block)).2 blocks

/-- A connection whose bytes arrive in these blocks. -/
def serve (junk : Nat → Words) (blocks : List Bytes) : List Bytes := serveFrom junk 0 [] blocks

/-! ## `http_response` -/

/-- `send_response_head` -/
def sendResponseHead (reqNo : Nat) (descp type : Bytes) (len : Nat) : List Bytes :=
  [ascii "http/1.1 " ++ dec reqNo ++ ascii " " ++ descp ++ crlf,
   ascii "Content-Type:" ++ type ++ crlf ++
     (ascii "Content-Length:" ++ dec len ++ crlf) ++
     (ascii "Connection: close" ++ crlf),
   crlf]

/-- The loop of `send_file`: `rest` is what has not been read. -/
def readLoop (rest : Bytes) : List Bytes :=
  if 0 < (rest.take 4096).length then rest.take 4096 :: readLoop (rest.drop 4096) else []
termination_by rest.length
decreasing_by
  simp only [List.length_take, List.length_drop] at *
  omega

/-- `send_file` -/
def sendFile (fs : Fs) (path : Bytes) : List Bytes :=
  match fs.openRead path with
  | none => []
  | some content => readLoop content

/-- The row that a round of the loop of `send_dir` appends to `buff`. -/
def dirRow (name : Bytes) (st : Stat) : Bytes :=
  match st.kind with
  | .reg =>
    ascii "<tr><td><a href=\"" ++ name ++ ascii "\">" ++ name ++ ascii "</a></td><td>" ++
      dec st.size ++ ascii "</td></tr>"
  | .dir =>
    ascii "<tr><td><a href=\"" ++ name ++ ascii "/\">" ++ name ++ ascii "/</a></td><td>" ++
      dec st.size ++ ascii "</td></tr>"
  | .other => []

/-- The `struct stat` that round `i` looks at. -/
def entryStat (fs : Fs) (path : Bytes) (i : Nat) (name : Bytes) : Stat :=
  (fs.stat (path ++ ascii "/" ++ name)).getD (fs.junk i)

/-- The rounds of the loop of `send_dir` from `i` on, and the block after it. -/
def dirRounds (fs : Fs) (path : Bytes) : Nat → List Bytes → Bytes → List Bytes
  | _, [], buff => [buff ++ ascii "</table></center></body></html>"]
  | i, name :: names, buff =>
    (buff ++ dirRow name (entryStat fs path i name)) :: dirRounds fs path (i + 1) names []

/-- What `send_dir` puts into `buff` before the loop. -/
def dirHead (path : Bytes) : Bytes :=
  ascii "<html><head><title>curpath-" ++ path ++ ascii "</title></head>" ++
    (ascii "<body><h1 align=\"center\">Current Directory:" ++ path ++
      ascii "</h1><center><table border>")

/-- `send_dir`; after a failed `scandir` the loop is not entered. -/
def sendDir (fs : Fs) (path : Bytes) : List Bytes :=
  dirRounds fs path 0 ((fs.scandir path).getD []) (dirHead path)

/-- `http_response` -/
def httpResponse (fs : Fs) (path : Bytes) : List Bytes :=
  let file := filePath path
  match fs.stat file with
  | none =>
    sendResponseHead 404 (ascii "ERRO") (getFileType (ascii ".html")) 1024 ++
      sendFile fs (ascii "404.html")
  | some st =>
    match st.kind with
    | .dir =>
      sendResponseHead 200 (ascii "OK") (getFileType (ascii ".html")) 99999 ++ sendDir fs file
    | .reg => sendResponseHead 200 (ascii "OK") (getFileType file) st.size ++ sendFile fs file
    | .other => []

end Libevent
