import LinuxApi.Lib.CString

/-!
# Reading until the socket is drained (`select_poll_epoll/`)

The loops of `et_work` in `epoll_server.c` and in `epoll_server2.c`, and of `et` in `mtlt.cpp`, for one
readable event: what is called on the descriptor, given what `recv` reports. A loop is its
branches; `readable` runs it. After a `close` every `recv` fails with `EBADF`. What is in the buffer is
the matter of `Echo.Server`.
-/

set_option autoImplicit false

namespace EtWork

open CLib

/-- What a call of `recv` reports. -/
inductive Recv
  | data (chunk : Bytes)
  | eof     -- 0
  | again   -- -1, `EAGAIN` or `EWOULDBLOCK`
  | intr    -- -1, `EINTR`
  | badf    -- -1, `EBADF`
  | error   -- -1, any other error
deriving DecidableEq, Repr

/-- A call on the descriptor. -/
inductive Call
  | recv (r : Recv)
  | send (len : Nat)
  | ctlDel
  | close
deriving DecidableEq, Repr

/-- The body of a loop after its `recv`: the calls, and whether the loop goes on. -/
abbrev Body := Recv → List Call × Bool

/-- `et_work` of `epoll_server.c`, 131–169 -/
def etWork1 : Body
  | .again => ([], false)
  | .intr | .badf | .error => ([.close], false)
  -- no `break` after this `close`
  | .eof => ([.close], true)
  | .data chunk => ([.send chunk.length], true)

/-- `et_work` of `epoll_server2.c`, 131–171: what comes after the loop is done as it ends. -/
def etWork2 : Body
  | .data chunk => ([.send chunk.length], true)
  | .eof => ([.ctlDel, .close], false)
  | .again | .intr => ([], false)
  | .badf | .error => ([.ctlDel, .close], false)

/-- `et` of `mtlt.cpp`, 87–115 -/
def et : Body
  | .again => ([], false)
  | .intr | .badf | .error => ([.close], false)
  | .eof => ([.close], true)
  | .data chunk => ([.send chunk.length], true)

/-- The calls for a readable event; `none` if the loop is not over after these results, or never. -/
def readable (body : Body) : Bool → List Recv → Option (List Call)
  | true, _ => if (body .badf).2 then none else some (.recv .badf :: (body .badf).1)
  | false, [] => none
  | false, r :: rs =>
    if (body r).2 then
      (readable body (decide (.close ∈ (body r).1)) rs).map (.recv r :: (body r).1 ++ ·)
    else some (.recv r :: (body r).1)

/-! ## The discipline -/

/-- A call that must not come after `close`. -/
def Call.usesFd : Call → Bool
  | .recv _ | .send _ | .close => true
  | .ctlDel => false

def Call.received : Call → Option Recv
  | .recv r => some r
  | _ => none

/-- What the last `recv` reported. -/
def lastRecv (calls : List Call) : Option Recv := (calls.filterMap Call.received).getLast?

/-- The calls after the first `close`. -/
def afterClose (calls : List Call) : List Call := (calls.dropWhile (· ≠ .close)).drop 1

/-- The socket is drained and the descriptor open, or the descriptor was closed once and not used
after that. -/
def Disciplined (calls : List Call) : Prop :=
  lastRecv calls = some .again ∧ .close ∉ calls ∨
    .close ∈ calls ∧ ∀ c ∈ afterClose calls, c.usesFd = false

instance (calls : List Call) : Decidable (Disciplined calls) :=
  inferInstanceAs (Decidable (_ ∧ _ ∨ _ ∧ _))

def Recv.isData : Recv → Bool
  | .data _ => true
  | _ => false

/-- The first result that is not data. -/
def firstEnd (rs : List Recv) : Option Recv := rs.find? (!·.isData)

end EtWork
