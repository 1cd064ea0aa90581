import LinuxApi.Lib.Signals
import LinuxApi.Lib.Transition

/-!
# A handler with a mask (`signal_code/mask_signal.c`)

`catch` handles `SIGTSTP` with `SIGQUIT` in its mask; nothing else has a handler. The process from
the loop of `main` on, one call a step, with signals that are sent at any time; line numbers are
those of `mask_signal.c`. Signals that stop the process or are ignored are left out.
-/

set_option autoImplicit false

namespace MaskSignal

open Signals

/-- `int` stands for the signals that the program does not mention and that kill it. -/
inductive Sig
  | tstp
  | quit
  | int
deriving DecidableEq, Repr

/-- Where a call of `catch` is. -/
inductive CatchPc
  | enter  -- 8
  | sleep  -- 9
  | finish -- 10
  | ret    -- 11
deriving DecidableEq, Repr

/-- Where `main` is. -/
inductive MainPc
  | print  -- 28
  | sleep  -- 29
deriving DecidableEq, Repr

inductive Line
  | runing
  | beginCatch
  | endCatch
deriving DecidableEq, Repr

/-- The process and what it has printed; `sent` counts the `SIGTSTP`s. -/
structure State where
  proc : Proc Sig CatchPc
  pc : MainPc
  out : List Line
  sent : Nat

/-- What `sigaction` has set at 24. -/
def action : Sig → Action Sig
  | .tstp => .handle {.quit}
  | .quit | .int => .terminate

def init : State := ⟨⟨action, ∅, ∅, [], none⟩, .print, [], 0⟩

/-- The next call in `catch`, at `pc`. -/
def stepCatch (s : State) : CatchPc → State
  | .enter => { s with proc := s.proc.goto .sleep, out := s.out ++ [.beginCatch] }
  | .sleep => { s with proc := s.proc.goto .finish }
  | .finish => { s with proc := s.proc.goto .ret, out := s.out ++ [.endCatch] }
  | .ret => { s with proc := s.proc.ret }

def stepMain (s : State) : State :=
  match s.pc with
  | .print => { s with pc := .sleep, out := s.out ++ [.runing] }
  | .sleep => { s with pc := .print }

inductive Act
  | raise (n : Sig)
  | deliver (n : Sig)
  | run
deriving DecidableEq, Repr

def step (s : State) : Act → Option State
  | .raise n =>
    some { s with proc := s.proc.raise n, sent := s.sent + if n = .tstp then 1 else 0 }
  | .deliver n => (s.proc.deliver .enter n).map fun proc => { s with proc }
  | .run =>
    if s.proc.killed = none then
      match s.proc.frames with
      | [] => some (stepMain s)
      | f :: _ => some (stepCatch s f.pc)
    else none

/-- The lines that `catch` has printed. -/
def catchLines (out : List Line) : List Line := out.filter (· ≠ .runing)

/-- `k` whole runs of `catch`. -/
def whole (k : Nat) : List Line := (List.replicate k [.beginCatch, .endCatch]).flatten

end MaskSignal
