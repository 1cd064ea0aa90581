import LinuxApi.Http.EpollServer
import LinuxApi.Http.Libevent
import LinuxApi.Lib.Socket

/-!
# What the epoll server sends

`http_get_request` and the functions that send for it, as the list of the blocks that they pass to
`send`; none of them looks at what `send` returns, so the blocks do not depend on it. What
the client's socket takes of them is `Socket.deliver`: it was made non-blocking by `epoll_addfd`.
The rows of a directory page are those of the libevent server. The buffers on the stack are
taken to be large enough.
-/

set_option autoImplicit false

namespace EpollHttp

open CLib Http

/-- `send_response_head` -/
def sendResponseHead (reqNo : Nat) (descp type : Bytes) (len : Nat) : List Bytes :=
  [ascii "http/1.1 " ++ dec reqNo ++ ascii " " ++ descp ++ crlf,
   ascii "Content-Type:" ++ type ++ crlf ++ (ascii "Content-Length:" ++ dec len ++ crlf),
   crlf]

/-- `send_file` -/
def sendFile (fs : Fs) (path : Bytes) : List Bytes :=
  match fs.openRead path with
  | none => []
  | some content => Socket.blocks 1024 content

/-- What `send_dir` puts into `buff` before the loop. -/
def dirHead (path : Bytes) : Bytes :=
  ascii "<html><head><title>curpath-" ++ path ++ ascii "</title></head>" ++
    (ascii "<body><h1 align=\"center\">Current Directory:" ++ path ++
      ascii "</h1><center><table>")

/-- `send_dir`; after a failed `scandir` the loop is not entered. -/
def sendDir (fs : Fs) (path : Bytes) : List Bytes :=
  Libevent.dirRounds fs path 0 ((fs.scandir path).getD []) (dirHead path)

/-- `http_get_request` -/
def httpGetRequest (fs : Fs) (line : Bytes) : List Bytes :=
  let path := requestPath line
  match fs.stat path with
  | none =>
    sendResponseHead 404 (ascii "ERRO") (getFileType (ascii ".html")) 1024 ++
      sendFile fs (ascii "404.html")
  | some st =>
    match st.kind with
    | .dir =>
      sendResponseHead 200 (ascii "OK") (getFileType (ascii ".html")) 99999 ++ sendDir fs path
    | .reg => sendResponseHead 200 (ascii "OK") (getFileType path) st.size ++ sendFile fs path
    | .other => []

end EpollHttp
