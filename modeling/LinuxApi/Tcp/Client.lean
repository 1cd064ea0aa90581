import LinuxApi.Echo.Convert

/-!
# The TCP client (`tcp_code/client.c`) and its servers

The client sends what it has read with `fgets`, with its `NUL`, waits for an answer and prints it.
Both servers convert the message in their buffer and send some of the buffer back
(`Convert.serverFork`, `Convert.serverThread`). One read takes up one write, on either side.
-/

set_option autoImplicit false

namespace TcpClient

open CLib Convert

/-- `fgets`, into a buffer of `n + 1` bytes: what is read, and the rest of the input. -/
def fgets : Nat → Bytes → Bytes × Bytes
  | 0, input => ([], input)
  | _ + 1, [] => ([], [])
  | n + 1, b :: input =>
    if b = 10 then ([b], input) else (b :: (fgets n input).1, (fgets n input).2)

/-- The first calls of `fgets(sendbuf, 512, stdin)`, up to the end of the input. -/
def calls : Nat → Bytes → List Bytes
  | 0, _ => []
  | _ + 1, [] => []
  | k + 1, b :: input => (fgets 511 (b :: input)).1 :: calls k (fgets 511 (b :: input)).2

/-- The pieces that the input is read in. -/
def pieces (text : Bytes) : List Bytes := calls text.length text

/-- At this the client stops. -/
def quit : Bytes := ascii "qqq" ++ [10]

/-- `sendbuf` after `memset` and `fgets`. -/
def sendbuf (piece : Bytes) : Bytes := fill (List.replicate 512 0) piece

/-- The loop of `main`, 40–52, with a server whose buffer is `revBuff`: the strings that are printed.
`none` if the server leaves its buffer. -/
def talk (srv : Server) : Bytes → List Bytes → Option (List Bytes)
  | _, [] => some []
  | revBuff, piece :: pieces =>
    if cstr (sendbuf piece) = quit then some []
    else
      match srv.handle revBuff ((sendbuf piece).take ((cstr (sendbuf piece)).length + 1)) with
      | none => none
      | some (revBuff', reply) =>
        (talk srv revBuff' pieces).map (cstr (fill (sendbuf piece) reply) :: ·)

/-- The strings printed for a text. -/
def printed (srv : Server) (text : Bytes) : Option (List Bytes) :=
  talk srv (List.replicate 512 0) (pieces text)

/-- The pieces that are sent. -/
def sent (pieces : List Bytes) : List Bytes := pieces.takeWhile (· ≠ quit)

/-- A piece without its newline, if it has one. -/
def chomp (piece : Bytes) : Bytes := if piece.getLast? = some 10 then piece.dropLast else piece

/-- Every piece comes back in upper case, without its newline. -/
def Echoed (srv : Server) (text : Bytes) : Prop :=
  printed srv text = some ((sent (pieces text)).map fun piece => (chomp piece).map toupper)

end TcpClient
