import LinuxApi.Http.EpollSend
import LinuxApi.Http.Proof.Listing
import LinuxApi.Lib.Message

/-!
# What a server of files answers

`answer` says what the message is that a client gets for a file, without saying how it is put
together and sent: a page for a directory, the bytes of a regular file, and `404.html` if there is
nothing. Both servers do this (`Http.Proof.Answer`); in what they differ is a `Style`.
-/

set_option autoImplicit false

namespace Http

open CLib Framing

/-- The fields after `Content-Length`, and the tag that opens the table of a directory. -/
structure Style where
  fields : List Field
  table : Bytes
deriving DecidableEq, Repr

/-- The style of `http_epoll.c`. -/
def Style.epoll : Style := ⟨[], ascii "<table>"⟩

/-- The style of `libevent_http.c`. -/
def Style.libevent : Style := ⟨[⟨ascii "Connection", ascii " close"⟩], ascii "<table border>"⟩

namespace Style

/-- The page of a directory. -/
def page (v : Style) (fs : Fs) (path : Bytes) : Bytes :=
  ascii "<html><head><title>curpath-" ++ path ++ ascii "</title></head>" ++
    ascii "<body><h1 align=\"center\">Current Directory:" ++ path ++ ascii "</h1><center>" ++
    v.table ++ Libevent.rowsFrom fs path 0 ((fs.scandir path).getD []) ++
    ascii "</table></center></body></html>"

/-- The fields of a message. -/
def headFields (v : Style) (type : Bytes) (len : Nat) : List Field :=
  ⟨ascii "Content-Type", type⟩ :: ⟨ascii "Content-Length", dec len⟩ :: v.fields

/-- A message with this status, this type and this announced length. -/
def message (v : Style) (status type : Bytes) (len : Nat) (body : Bytes) : Message where
  start := ascii "http/1.1 " ++ status
  fields := v.headFields type len
  body := body

end Style

/-- The bytes of a file; of one that cannot be opened there are none. -/
def Fs.content (fs : Fs) (path : Bytes) : Bytes := (fs.openRead path).getD []

/-- The answer to a request of `file`, if there is one. -/
def answer (v : Style) (fs : Fs) (file : Bytes) : Option Message :=
  match fs.stat file with
  | none =>
    some (v.message (ascii "404 ERRO") (getFileType (ascii ".html")) 1024
      (fs.content (ascii "404.html")))
  | some ⟨.dir, _⟩ =>
    some (v.message (ascii "200 OK") (getFileType (ascii ".html")) 99999 (v.page fs file))
  | some ⟨.reg, size⟩ =>
    some (v.message (ascii "200 OK") (getFileType file) size (fs.content file))
  | some ⟨.other, _⟩ => none

/-! ## A response -/

section
variable (head : Nat → Bytes → Bytes → Nat → List Bytes) (file dir : Bytes → List Bytes)

/-- `http_get_request` and `http_response` from the path on, with the functions they call. -/
def respond (fs : Fs) (path : Bytes) : List Bytes :=
  match fs.stat path with
  | none => head 404 (ascii "ERRO") (getFileType (ascii ".html")) 1024 ++ file (ascii "404.html")
  | some ⟨.dir, _⟩ =>
    head 200 (ascii "OK") (getFileType (ascii ".html")) 99999 ++ dir path
  | some ⟨.reg, size⟩ => head 200 (ascii "OK") (getFileType path) size ++ file path
  | some ⟨.other, _⟩ => []

end

end Http
