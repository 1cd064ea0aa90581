import LinuxApi.Echo.Convert
import LinuxApi.Lib.Transition
import LinuxApi.Tcp.Client

/-!
# The UDP client and server (`udp_code/udp_client.c`, `udp_code/udp_server.c`)

Any number of clients and one server. A client reads with `fgets`, sends the string with its `NUL`,
waits in `recvfrom` and prints what it got; at the end of its input it goes on with empty strings. The
server has one buffer for all messages (`Convert.udpServer`). The network delivers the datagrams in
any order, may lose one (`lose`) and may deliver one twice (`double`).
-/

set_option autoImplicit false

namespace Udp

open CLib Convert

/-- `%s`: without a `NUL` in the buffer `printf` reads on behind it. -/
def percentS (buf : Bytes) : Option Bytes := if (0 : UInt8) ∈ buf then some (cstr buf) else none

/-- `main` of `udp_client.c`, 31–42 -/
structure Client where
  input : Bytes                   -- what `stdin` still holds
  buf : Option Bytes              -- while it waits in `recvfrom`
  printed : List (Option Bytes)
deriving DecidableEq, Repr

inductive Packet (ι : Type)
  | request (i : ι) (data : Bytes)
  | reply (i : ι) (data : Bytes)
deriving DecidableEq, Repr

structure State (ι : Type) where
  clients : ι → Client
  recvBuff : Bytes
  shown : List (ι × Option Bytes × Option Bytes)   -- the server's `[Recv: …]` and `[Send: …]`
  stopped : Bool          -- an `assert` of the server failed, or its loop left the buffer
  net : List (Packet ι)   -- in flight

def init {ι : Type} (texts : ι → Bytes) (recvBuff : Bytes) : State ι :=
  ⟨fun i => ⟨texts i, none, []⟩, recvBuff, [], false, []⟩

inductive Act (ι : Type)
  | sendto (i : ι)
  | serve (k : Nat)
  | recvfrom (k : Nat)
  | lose (k : Nat)
  | double (k : Nat)
deriving DecidableEq, Repr

section
variable {ι : Type}

/-- Whose conversation it belongs to. -/
def Packet.client : Packet ι → ι
  | request i _ => i
  | reply i _ => i

def Act.doubles : Act ι → Bool
  | double _ => true
  | _ => false

/-- Nothing is duplicated. -/
def Single (_ : State ι) (a : Act ι) : Prop := a.doubles = false

instance (s : State ι) (a : Act ι) : Decidable (Single s a) :=
  inferInstanceAs (Decidable (_ = _))

/-- `main` of `udp_server.c`, 38–57, with a datagram of client `i` -/
def serve (s : State ι) (i : ι) (data : Bytes) : State ι :=
  let msg := data.take 1024
  if msg = [] then { s with stopped := true }
  else
    match udpServer.handle s.recvBuff msg with
    | none => { s with stopped := true }
    | some (up, reply) =>
      { s with
        recvBuff := up
        shown := s.shown ++ [(i, percentS (udpServer.full s.recvBuff msg), percentS up)]
        net := s.net ++ [.reply i reply] }

variable [DecidableEq ι]

def step (s : State ι) : Act ι → Option (State ι)
  | .sendto i =>
    match s.clients i with
    | ⟨input, none, printed⟩ =>
      let buf := fill (List.replicate 1024 0) (TcpClient.fgets 1023 input).1
      some { s with
        clients := Function.update s.clients i
          ⟨(TcpClient.fgets 1023 input).2, some buf, printed⟩
        net := s.net ++ [.request i (buf.take ((cstr buf).length + 1))] }
    | _ => none
  | .serve k =>
    match s.stopped, s.net[k]? with
    | false, some (.request i data) => some (serve { s with net := s.net.eraseIdx k } i data)
    | _, _ => none
  | .recvfrom k =>
    match s.net[k]? with
    | some (.reply i data) =>
      match s.clients i with
      | ⟨input, some buf, printed⟩ =>
        some { s with
          clients := Function.update s.clients i
            ⟨input, none, printed ++ [percentS (fill buf (data.take 1024))]⟩
          net := s.net.eraseIdx k }
      | _ => none
    | _ => none
  | .lose k => if k < s.net.length then some { s with net := s.net.eraseIdx k } else none
  | .double k =>
    match s.net[k]? with
    | some p => some { s with net := s.net ++ [p] }
    | none => none

/-- What the server shows of the messages of client `i`. -/
def State.shownOf (s : State ι) (i : ι) : List (Option Bytes × Option Bytes) :=
  s.shown.filterMap fun y => if y.1 = i then some y.2 else none

/-- The clients whose datagrams were lost, along a run. -/
def recordLost (s : State ι) (a : Act ι) (lost : List ι) : List ι :=
  match a with
  | .lose k =>
    match s.net[k]? with
    | some p => p.client :: lost
    | none => lost
  | _ => lost

end

/-! ## What is typed -/

/-- What is left of a text after so many calls of `fgets`. -/
def left (text : Bytes) : Nat → Bytes
  | 0 => text
  | n + 1 => (TcpClient.fgets 1023 (left text n)).2

/-- The string in `buf` after the call of that number. -/
def line (text : Bytes) (n : Nat) : Bytes := cstr (TcpClient.fgets 1023 (left text n)).1

end Udp
