import LinuxApi.Lib.Pipe
import LinuxApi.Lib.Transition

/-!
# `ps ajx | grep bash` (`IPC_code/grep_pipe.c`)

The two processes after `fork`, one call a step; line numbers are those of the file. Each has a table of
descriptors, of which `exec` keeps all and the end of a process none. What `ps` writes is a parameter;
of `grep` there is what it reads. `closes` says whether line 23 is there.
-/

set_option autoImplicit false

namespace GrepPipe

open CLib

/-- What a descriptor is open on. -/
inductive File
  | tty
  | readEnd
  | writeEnd
deriving DecidableEq, Repr

/-- The descriptors of a process, by number. -/
abbrev Fds := List (Option File)

namespace Fds

def get (t : Fds) (fd : Nat) : Option File := (t[fd]?).join

def dup2 (t : Fds) (old new : Nat) : Fds := t.set new (t.get old)

def close (t : Fds) (fd : Nat) : Fds := t.set fd none

def writers (t : Fds) : Nat := t.count (some .writeEnd)

end Fds

/-- After `pipe`: `fd[0]` is 3, `fd[1]` is 4. -/
def piped : Fds := [some .tty, some .tty, some .tty, some .readEnd, some .writeEnd]

/-- Where the parent is. -/
inductive ParentPc
  | close   -- 23
  | dup2    -- 24
  | exec    -- 25
  | grep
  | exited
deriving DecidableEq, Repr

/-- Where the child is. -/
inductive ChildPc
  | sleep   -- 15
  | dup2    -- 17
  | exec    -- 19
  | ps
  | exited
deriving DecidableEq, Repr

/-- `left` is what `ps` still has to write. -/
structure State where
  pipe : Pipe
  parent : ParentPc
  parentFds : Fds
  child : ChildPc
  childFds : Fds
  left : List Bytes
  screen : Bytes
deriving DecidableEq, Repr

/-- After `fork`. -/
def init (out : List Bytes) : State :=
  ⟨⟨[], 2, [], []⟩, .close, piped, .sleep, piped, out, []⟩

/-- Counts the descriptors of the write end again, in both processes. -/
def State.recount (s : State) : State :=
  { s with pipe := { s.pipe with writers := s.parentFds.writers + s.childFds.writers } }

/-- `grep` reads at most `size` bytes at once. -/
def stepParent (closes : Bool) (size : Nat) (s : State) : Option State :=
  match s.parent with
  | .close =>
    some { s with
      parent := .dup2
      parentFds := if closes then s.parentFds.close 4 else s.parentFds }.recount
  | .dup2 => some { s with parent := .exec, parentFds := s.parentFds.dup2 3 0 }.recount
  | .exec => some { s with parent := .grep }
  | .grep =>
    if s.parentFds.get 0 = some .readEnd then
      (s.pipe.read size).map fun x =>
        if x.1 = [] then { s with parent := .exited, parentFds := [] }.recount
        else { s with pipe := x.2 }
    else none
  | .exited => none

def stepChild (s : State) : Option State :=
  match s.child with
  | .sleep => some { s with child := .dup2 }
  | .dup2 => some { s with child := .exec, childFds := s.childFds.dup2 4 1 }.recount
  | .exec => some { s with child := .ps }
  | .ps =>
    match s.left with
    | [] => some { s with child := .exited, childFds := [] }.recount
    | bytes :: left =>
      if s.childFds.get 1 = some .writeEnd then
        (s.pipe.write bytes).map fun pipe => { s with pipe, left }
      else some { s with left, screen := s.screen ++ bytes }
  | .exited => none

inductive Act
  | parent
  | child
deriving DecidableEq, Repr

def step (closes : Bool) (size : Nat) (s : State) : Act → Option State
  | .parent => stepParent closes size s
  | .child => stepChild s

/-- Nothing happens any more: `ps` has ended, `grep` has read all that `ps` wrote, and has ended if line
23 is there; without it `grep` waits. -/
structure Over (closes : Bool) (size : Nat) (out : List Bytes) (s : State) : Prop where
  read : s.pipe.got = out.flatten
  screen : s.screen = []
  ps : s.child = .exited
  grep : s.parent = if closes then .exited else .grep
  still : ∀ a, step closes size s a = none

end GrepPipe
