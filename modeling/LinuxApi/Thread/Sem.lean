import LinuxApi.Lib.CInt
import LinuxApi.Lib.Transition

/-!
# The semaphore ring (`thread_code/sem_thread.c`)

One producer and one consumer, as `main` starts them, share a ring of six slots. A semaphore is
its count, a thread its program counter (line numbers are those of `sem_thread.c`) and its index
`i`. The lines that only print or sleep are no steps.

The history (`Hist`) is what has been written and read so far, and which slots hold a value that
has not been read. It influences no step.
-/

set_option autoImplicit false

namespace SemThread

inductive ProducerPc
  | wait   -- 14: `sem_wait(&s_empty)`
  | write  -- 15
  | incr   -- 17
  | post   -- 18: `sem_post(&s_full)`
deriving DecidableEq, Repr

inductive ConsumerPc
  | wait   -- 28: `sem_wait(&s_full)`
  | read   -- 29
  | incr   -- 30
  | post   -- 31: `sem_post(&s_empty)`
deriving DecidableEq, Repr

structure Producer where
  pc : ProducerPc
  i : Int
deriving DecidableEq, Repr

structure Consumer where
  pc : ConsumerPc
  i : Int
deriving DecidableEq, Repr

structure State where
  value : List Int
  beginnum : Int
  full : Nat
  empty : Nat
  producer : Producer
  consumer : Consumer
deriving DecidableEq, Repr

def init : State where
  value := List.replicate 6 0
  beginnum := 100
  full := 0
  empty := 6
  producer := ⟨.wait, 0⟩
  consumer := ⟨.wait, 0⟩

/-- The index of the slot `value[i % 6]`. -/
def slot (i : Int) : Nat := (i.tmod 6).toNat

/-! ## Steps -/

/-- `sem_wait`: it blocks while the count is 0. -/
def semWait (n : Nat) : Option Nat := if 0 < n then some (n - 1) else none

/-- `sem_post` -/
def semPost (n : Nat) : Nat := n + 1

def stepProducer (s : State) : Option State :=
  match s.producer.pc with
  | .wait =>
    (semWait s.empty).map fun n =>
      { s with empty := n, producer := { s.producer with pc := .write } }
  | .write =>
    (CInt.incr s.beginnum).map fun n =>
      { s with
        value := s.value.set (slot s.producer.i) s.beginnum
        beginnum := n
        producer := { s.producer with pc := .incr } }
  | .incr => (CInt.incr s.producer.i).map fun i => { s with producer := ⟨.post, i⟩ }
  | .post =>
    some { s with full := semPost s.full, producer := { s.producer with pc := .wait } }

def stepConsumer (s : State) : Option State :=
  match s.consumer.pc with
  | .wait =>
    (semWait s.full).map fun n =>
      { s with full := n, consumer := { s.consumer with pc := .read } }
  | .read => some { s with consumer := { s.consumer with pc := .incr } }
  | .incr => (CInt.incr s.consumer.i).map fun i => { s with consumer := ⟨.post, i⟩ }
  | .post =>
    some { s with empty := semPost s.empty, consumer := { s.consumer with pc := .wait } }

inductive Act
  | producer
  | consumer
deriving DecidableEq, Repr

def step (s : State) : Act → Option State
  | .producer => stepProducer s
  | .consumer => stepConsumer s

/-! ## History -/

/-- The values written and read, in order; `fresh j` says that slot `j` holds a value that was
written and not read since. -/
structure Hist where
  writes : List Int
  reads : List Int
  fresh : Nat → Bool

def Hist.empty : Hist := ⟨[], [], fun _ => false⟩

def record (s : State) (a : Act) (h : Hist) : Hist :=
  match a with
  | .producer =>
    if s.producer.pc = .write then
      { h with
        writes := h.writes ++ [s.beginnum]
        fresh := fun j => if j = slot s.producer.i then true else h.fresh j }
    else h
  | .consumer =>
    if s.consumer.pc = .read then
      { h with
        reads := h.reads ++ (s.value[slot s.consumer.i]?).toList
        fresh := fun j => if j = slot s.consumer.i then false else h.fresh j }
    else h

/-- The program with its history. -/
def histStep : State × Hist → Act → Option (State × Hist) := Lts.withHist step record

/-- How many threads are between their wait and their post. -/
def between (s : State) : Nat :=
  (if s.producer.pc = .wait then 0 else 1) + (if s.consumer.pc = .wait then 0 else 1)

end SemThread
