import LinuxApi.Lib.Pipe
import LinuxApi.Lib.Transition

/-!
# A writer and a reader of a FIFO (`IPC_code/w_fifo.c`, `IPC_code/r_fifo.c`)

Both programs, one call a step, on a FIFO that exists; line numbers are those of the two files. The
calls of `open` wait for each other and return together. The reader prints what it has read as a
string, which is in its buffer only if there is a `NUL` behind it.
-/

set_option autoImplicit false

namespace Fifo

open CLib

/-- Where `w_fifo.c` is. -/
inductive WriterPc
  | open    -- 16
  | test    -- 23
  | write   -- 24, 25
  | sleep   -- 26
  | close   -- 28
  | exited  -- 29
deriving DecidableEq, Repr

/-- Where `r_fifo.c` is. -/
inductive ReaderPc
  | open     -- 16
  | read     -- 23, 24
  | print    -- 26
  | sleep    -- 31
  | close    -- 33
  | exited   -- 34
  | overrun  -- 26: there is no `NUL` in `buff`
deriving DecidableEq, Repr

structure State where
  pipe : Pipe
  writer : WriterPc
  n : Nat
  reader : ReaderPc
  buff : Bytes
  printed : List Bytes
deriving DecidableEq, Repr

/-- `n` counts the lines that are still to be written. -/
def init : State := ⟨⟨[], 0, [], []⟩, .open, 21, .open, List.replicate 20 0, []⟩

/-- `"n = %02d\n"` -/
def line (n : Nat) : Bytes := ascii "n = " ++ (if n < 10 then 48 :: dec n else dec n) ++ [10]

/-- The next call of `w_fifo.c` after `open`. -/
def stepWriter (s : State) : Option State :=
  match s.writer with
  | .open | .exited => none
  | .test =>
    match s.n with
    | 0 => some { s with writer := .close }
    | n + 1 => some { s with n, writer := .write }
  | .write => (s.pipe.write (line s.n)).map fun pipe => { s with pipe, writer := .sleep }
  | .sleep => some { s with writer := .test }
  | .close => some { s with pipe := { s.pipe with writers := 0 }, writer := .exited }

/-- The next call of `r_fifo.c` after `open`. -/
def stepReader (s : State) : Option State :=
  match s.reader with
  | .open | .exited | .overrun => none
  | .read =>
    (s.pipe.read 20).map fun x =>
      if x.1 = [] then { s with reader := .close }
      else
        { s with
          pipe := x.2
          buff := fill (List.replicate 20 0) x.1
          reader := .print }
  | .print =>
    if (0 : UInt8) ∈ s.buff then
      some { s with printed := s.printed ++ [cstr s.buff], reader := .sleep }
    else some { s with reader := .overrun }
  | .sleep => some { s with reader := .read }
  | .close => some { s with reader := .exited }

inductive Act
  | open
  | writer
  | reader
deriving DecidableEq, Repr

def step (s : State) : Act → Option State
  | .open =>
    if s.writer = .open ∧ s.reader = .open then
      some { s with pipe := { s.pipe with writers := 1 }, writer := .test, reader := .read }
    else none
  | .writer => stepWriter s
  | .reader => stepReader s

/-- The lines that are written while `n` goes down to 0. -/
def linesFrom : Nat → Bytes
  | 0 => []
  | n + 1 => line n ++ linesFrom n

/-- The writer sleeps long enough: it does not write while there are two lines in the FIFO. -/
def Paced (s : State) : Act → Prop
  | .writer => s.writer = .write → s.pipe.data.length ≤ 7
  | _ => True

instance : ∀ s a, Decidable (Paced s a)
  | s, .writer => inferInstanceAs (Decidable (s.writer = .write → s.pipe.data.length ≤ 7))
  | _, .open | _, .reader => inferInstanceAs (Decidable True)

/-- Both programs have ended, and all lines have been printed, one or two at a time. -/
structure Finished (s : State) : Prop where
  writer : s.writer = .exited
  reader : s.reader = .exited
  printed : s.printed.flatten = linesFrom 21
  whole : ∀ x ∈ s.printed, x.length = 7 ∨ x.length = 14

end Fifo
