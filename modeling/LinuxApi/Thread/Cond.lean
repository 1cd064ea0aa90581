import LinuxApi.Lib.CInt
import LinuxApi.Lib.Transition

/-!
# A producer and its consumers (`thread_code/cond_thread.c`)

One producer puts nodes on a list, any number of consumers empty it. A thread is its program
counter (line numbers are those of `cond_thread.c`) and its locals; the list is the sequence of
its values, `head` first. A block of assignments that runs with the mutex held is one step.
`usleep` is no step of its own: a thread may pause anywhere.

The history (`Hist`) is what has been produced and consumed so far: the values in the order of
their pushes, and those that each drain has taken. It influences no step.
-/

set_option autoImplicit false

namespace CondThread

/-- A thread that can own `mutex`. -/
inductive Owner
  | producer
  | consumer (i : Nat)
deriving DecidableEq, Repr

inductive ProducerPc
  | alloc      -- 20–21
  | lock       -- 23
  | push       -- 25–27
  | unlock     -- 29
  | signal     -- 31: the mutex is free again
deriving DecidableEq, Repr

/-- The producer; `val` is `temp->val`. -/
structure Producer where
  pc : ProducerPc
  val : Int
deriving DecidableEq, Repr

/-- Where a consumer is. -/
inductive Consumer
  | lock       -- 43
  | test       -- 45: the loop test
  | wait       -- 46: about to call `pthread_cond_wait`
  | asleep     -- 46: blocked, no wake-up pending
  | woken      -- 46: woken, has to take the mutex again
  | drainTest  -- 49: the loop test
  | drain      -- 50–53
  | unlock     -- 56
deriving DecidableEq, Repr

structure State where
  beginnum : Int
  mutex : Option Owner
  head : List Int
  producer : Producer
  consumers : List Consumer
deriving DecidableEq, Repr

/-- The start, with `n` consumers. -/
def init (n : Nat) : State where
  beginnum := 100
  mutex := none
  head := []
  producer := ⟨.alloc, 0⟩
  consumers := List.replicate n .lock

/-! ## Steps -/

/-- The next step of the producer; its signal is a step of `step`. -/
def stepProducer (s : State) : Option State :=
  match s.producer.pc with
  | .alloc =>
    (CInt.incr s.beginnum).map fun n =>
      { s with beginnum := n, producer := ⟨.lock, s.beginnum⟩ }
  | .lock =>
    if s.mutex = none then
      some { s with mutex := some .producer, producer := { s.producer with pc := .push } }
    else none
  | .push =>
    some { s with head := s.producer.val :: s.head, producer := { s.producer with pc := .unlock } }
  | .unlock => some { s with mutex := none, producer := { s.producer with pc := .signal } }
  | .signal => none

/-- `pthread_cond_signal(&cond)`: it wakes the waiters `woken`, at least one if there is one. -/
def signalCond (cs : List Consumer) (woken : List Nat) : Option (List Consumer) :=
  if (∀ i ∈ woken, cs[i]? = some .asleep) ∧ (woken = [] → .asleep ∉ cs) then
    some (cs.mapIdx fun i c => if i ∈ woken then .woken else c)
  else none

def stepSignal (s : State) (woken : List Nat) : Option State :=
  if s.producer.pc = .signal then
    (signalCond s.consumers woken).map fun cs =>
      { s with consumers := cs, producer := { s.producer with pc := .alloc } }
  else none

/-- The next step of consumer `i`, which is at `c`: the mutex and the list after it, and where the
consumer is then. -/
def consumerStep (i : Nat) (mutex : Option Owner) (head : List Int) (c : Consumer) :
    Option (Option Owner × List Int × Consumer) :=
  match c with
  | .lock => if mutex = none then some (some (.consumer i), head, .test) else none
  | .test => some (mutex, head, if head = [] then .wait else .drainTest)
  | .wait => some (none, head, .asleep)
  | .asleep => none
  | .woken => if mutex = none then some (some (.consumer i), head, .test) else none
  | .drainTest => some (mutex, head, if head = [] then .unlock else .drain)
  | .drain =>
    match head with
    | _ :: next => some (mutex, next, .drainTest)
    | [] => none
  | .unlock => some (none, head, .lock)

def stepConsumer (s : State) (i : Nat) : Option State :=
  match s.consumers[i]? with
  | some c =>
    (consumerStep i s.mutex s.head c).map fun x =>
      { s with mutex := x.1, head := x.2.1, consumers := s.consumers.set i x.2.2 }
  | none => none

/-- A step of the program, or a spurious wake-up. -/
inductive Act
  | producer
  | signal (woken : List Nat)
  | consumer (i : Nat)
  | spurious (i : Nat)
deriving DecidableEq, Repr

def step (s : State) : Act → Option State
  | .producer => stepProducer s
  | .signal woken => stepSignal s woken
  | .consumer i => stepConsumer s i
  | .spurious i =>
    if s.consumers[i]? = some .asleep then
      some { s with consumers := s.consumers.set i .woken }
    else none

/-! ## History -/

/-- What has been pushed, what each finished drain has taken, in the order in which it took it, and
what the drain under way has taken. -/
structure Hist where
  produced : List Int
  drains : List (List Int)
  cur : List Int
deriving DecidableEq, Repr

def Hist.empty : Hist := ⟨[], [], []⟩

/-- Everything that has been consumed. -/
def Hist.consumed (h : Hist) : List Int := h.drains.flatten ++ h.cur

def record (s : State) (a : Act) (h : Hist) : Hist :=
  match a with
  | .producer =>
    if s.producer.pc = .push then { h with produced := h.produced ++ [s.producer.val] } else h
  | .consumer i =>
    match s.consumers[i]? with
    | some .drain => { h with cur := h.cur ++ s.head.take 1 }
    | some .drainTest =>
      if s.head = [] then { h with drains := h.drains ++ [h.cur], cur := [] } else h
    | _ => h
  | _ => h

/-- The program with its history. -/
def histStep : State × Hist → Act → Option (State × Hist) := Lts.withHist step record

end CondThread
