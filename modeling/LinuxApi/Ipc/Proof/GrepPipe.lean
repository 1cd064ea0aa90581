import LinuxApi.Ipc.GrepPipe

/-!
# Why line 23 closes the write end

The tables of both processes are known from where the processes are (`Inv`). While `ps` runs, it has the
write end open, so that `grep` reads the end of the file only after all that was written; the parent's
own descriptor, if it is not closed, keeps that end away (`read_over`).
-/

set_option autoImplicit false

namespace GrepPipe

open CLib

def ParentPc.fds (closes : Bool) : ParentPc → Fds
  | .close => piped
  | .dup2 => if closes then piped.close 4 else piped
  | .exec | .grep => (if closes then piped.close 4 else piped).dup2 3 0
  | .exited => []

def ChildPc.fds : ChildPc → Fds
  | .sleep | .dup2 => piped
  | .exec | .ps => piped.dup2 4 1
  | .exited => []

structure Inv (closes : Bool) (out : List Bytes) (s : State) : Prop where
  parentFds : s.parentFds = s.parent.fds closes
  childFds : s.childFds = s.child.fds
  writers : s.pipe.writers = (s.parent.fds closes).writers + s.child.fds.writers
  sound : s.pipe.Sound
  sent : s.pipe.sent ++ s.left.flatten = out.flatten
  rest : s.left <:+ out
  screen : s.screen = []
  psEnd : s.child = .exited → s.left = []
  grepEnd : s.parent = .exited → closes = true ∧ s.pipe.data = [] ∧ s.child = .exited

/-! ## Who has the write end open -/

theorem ChildPc.writers_eq_zero : ∀ {pc : ChildPc}, pc.fds.writers = 0 ↔ pc = .exited := by
  intro pc
  cases pc <;> decide

theorem ParentPc.writers_grep : ∀ {closes : Bool},
    (ParentPc.grep.fds closes).writers = 0 ↔ closes = true := by
  intro closes
  cases closes <;> decide

/-- Standard input and output are the ends of the pipe. -/
theorem ParentPc.stdin (closes : Bool) : (ParentPc.grep.fds closes).get 0 = some .readEnd := by
  cases closes <;> decide

theorem ChildPc.stdout : ChildPc.ps.fds.get 1 = some .writeEnd := by
  decide

section
variable {closes : Bool} {size : Nat} {out : List Bytes} {s s' : State}

theorem inv_init : Inv closes out (init out) := by
  refine ⟨rfl, rfl, rfl, rfl, rfl, List.suffix_refl _, rfl, ?_, ?_⟩
  · exact fun h => by cases h
  · exact fun h => by cases h

theorem Inv.stepParent (h : Inv closes out s) (hsize : 0 < size)
    (hst : stepParent closes size s = some s') :
    Inv closes out s' := by
  have hp := h.parentFds
  have hc := h.childFds
  have hw := h.writers
  unfold GrepPipe.stepParent at hst
  split at hst
  · rename_i hpc
    cases hst
    rw [hpc] at hp
    have hp' : (if closes then s.parentFds.close 4 else s.parentFds) =
        ParentPc.dup2.fds closes := by
      rw [hp]
      rfl
    refine ⟨hp', hc, ?_, h.sound, h.sent, h.rest, h.screen, h.psEnd, fun he => (by cases he)⟩
    simp only [State.recount]
    rw [hp', hc]
  · rename_i hpc
    cases hst
    rw [hpc] at hp
    have hp' : s.parentFds.dup2 3 0 = ParentPc.exec.fds closes := by
      rw [hp]
      rfl
    refine ⟨hp', hc, ?_, h.sound, h.sent, h.rest, h.screen, h.psEnd, fun he => (by cases he)⟩
    simp only [State.recount]
    rw [hp', hc]
  · rename_i hpc
    cases hst
    rw [hpc] at hp hw
    exact ⟨hp, hc, hw, h.sound, h.sent, h.rest, h.screen, h.psEnd, fun he => (by cases he)⟩
  · rename_i hpc
    rw [hpc] at hp hw
    rw [if_pos (hp ▸ ParentPc.stdin closes)] at hst
    obtain ⟨⟨chunk, pipe⟩, hr, rfl⟩ := Option.map_eq_some_iff.1 hst
    have hsound := h.sound.read hr
    rcases Pipe.read_cases hr with ⟨hd, h0, rfl, rfl⟩ | ⟨hd, rfl, rfl⟩
    · -- nobody has the write end open
      rw [hw] at h0
      have hch := ChildPc.writers_eq_zero.1 (by omega : s.child.fds.writers = 0)
      have hcl := ParentPc.writers_grep.1 (by omega : (ParentPc.grep.fds closes).writers = 0)
      simp only [if_true]
      refine ⟨rfl, hc, ?_, hsound, h.sent, h.rest, h.screen, h.psEnd, fun _ => ⟨hcl, hd, hch⟩⟩
      simp only [State.recount]
      rw [hc]
      rfl
    · rw [if_neg (Pipe.take_ne_nil hsize hd)]
      refine ⟨hpc ▸ hp, hc, hpc ▸ hw, hsound, h.sent, h.rest, h.screen, h.psEnd, fun he => ?_⟩
      rw [hpc] at he
      cases he
  · cases hst

theorem Inv.stepChild (h : Inv closes out s) (hst : stepChild s = some s') :
    Inv closes out s' := by
  have hp := h.parentFds
  have hc := h.childFds
  have hw := h.writers
  have hsent := h.sent
  -- `grep` has not ended while the child has not
  have hgrep (hne : s.child ≠ .exited) : s.parent ≠ .exited := fun he => hne (h.grepEnd he).2.2
  unfold GrepPipe.stepChild at hst
  split at hst
  · rename_i hpc
    cases hst
    rw [hpc] at hc hw hgrep
    exact ⟨hp, hc, hw, h.sound, hsent, h.rest, h.screen, fun he => (by cases he),
      fun he => absurd he (hgrep (fun hx => by cases hx))⟩
  · rename_i hpc
    cases hst
    rw [hpc] at hc hgrep
    have hc' : s.childFds.dup2 4 1 = ChildPc.exec.fds := by
      rw [hc]
      rfl
    refine ⟨hp, hc', ?_, h.sound, hsent, h.rest, h.screen, fun he => (by cases he),
      fun he => absurd he (hgrep (fun hx => by cases hx))⟩
    simp only [State.recount]
    rw [hp, hc']
  · rename_i hpc
    cases hst
    rw [hpc] at hc hw hgrep
    exact ⟨hp, hc, hw, h.sound, hsent, h.rest, h.screen, fun he => (by cases he),
      fun he => absurd he (hgrep (fun hx => by cases hx))⟩
  · rename_i hpc
    rw [hpc] at hc hw hgrep
    have hne := hgrep (fun hx => by cases hx)
    split at hst
    · rename_i hl
      cases hst
      refine ⟨hp, rfl, ?_, h.sound, hsent, h.rest, h.screen, fun _ => hl, fun he => absurd he hne⟩
      simp only [State.recount]
      rw [hp]
      rfl
    · rename_i bytes left hl
      rw [if_pos (hc ▸ ChildPc.stdout)] at hst
      obtain ⟨pipe, hwr, rfl⟩ := Option.map_eq_some_iff.1 hst
      have hsound := h.sound.write hwr
      obtain ⟨-, rfl⟩ := Pipe.write_eq_some hwr
      rw [hl, List.flatten_cons, ← List.append_assoc] at hsent
      have hrest : left <:+ out := (List.suffix_cons bytes left).trans (hl ▸ h.rest)
      refine ⟨hp, hpc ▸ hc, hpc ▸ hw, hsound, hsent, hrest, h.screen, fun he => ?_,
        fun he => absurd he hne⟩
      rw [hpc] at he
      cases he
  · cases hst

theorem Inv.step (h : Inv closes out s) (hsize : 0 < size) {a : Act}
    (hst : step closes size s a = some s') : Inv closes out s' := by
  cases a with
  | parent => exact h.stepParent hsize hst
  | child => exact h.stepChild hst

/-! ## The run ends -/

def ParentPc.left : ParentPc → Nat
  | .close => 4
  | .dup2 => 3
  | .exec => 2
  | .grep => 1
  | .exited => 0

def ChildPc.left : ChildPc → Nat
  | .sleep => 4
  | .dup2 => 3
  | .exec => 2
  | .ps => 1
  | .exited => 0

/-- What is left to do: a byte is written and read. -/
def State.todo (s : State) : Nat :=
  s.parent.left + s.child.left + s.left.length + 2 * s.left.flatten.length + s.pipe.data.length

theorem todo_step (hsize : 0 < size) {a : Act} (hst : step closes size s a = some s') :
    s'.todo < s.todo := by
  cases a with
  | parent =>
    simp only [step] at hst
    unfold stepParent at hst
    split at hst
    · rename_i hpc
      cases hst
      simp only [State.todo, State.recount, hpc, ParentPc.left]
      omega
    · rename_i hpc
      cases hst
      simp only [State.todo, State.recount, hpc, ParentPc.left]
      omega
    · rename_i hpc
      cases hst
      simp only [State.todo, hpc, ParentPc.left]
      omega
    · rename_i hpc
      split at hst
      · obtain ⟨⟨chunk, pipe⟩, hr, rfl⟩ := Option.map_eq_some_iff.1 hst
        rcases Pipe.read_cases hr with ⟨-, -, rfl, rfl⟩ | ⟨hd, rfl, rfl⟩
        · simp only [State.todo, State.recount, if_true, hpc, ParentPc.left]
          omega
        · have hpos := List.length_pos_iff.2 hd
          rw [if_neg (Pipe.take_ne_nil hsize hd)]
          simp only [State.todo, List.length_drop]
          omega
      · cases hst
    · cases hst
  | child =>
    simp only [step] at hst
    unfold stepChild at hst
    split at hst
    · rename_i hpc
      cases hst
      simp only [State.todo, hpc, ChildPc.left]
      omega
    · rename_i hpc
      cases hst
      simp only [State.todo, State.recount, hpc, ChildPc.left]
      omega
    · rename_i hpc
      cases hst
      simp only [State.todo, hpc, ChildPc.left]
      omega
    · rename_i hpc
      split at hst
      · cases hst
        simp only [State.todo, State.recount, hpc, ChildPc.left]
        omega
      · rename_i bytes left hl
        split at hst
        · obtain ⟨pipe, hw, rfl⟩ := Option.map_eq_some_iff.1 hst
          obtain ⟨-, rfl⟩ := Pipe.write_eq_some hw
          simp only [State.todo, hl, List.length_append, List.flatten_cons, List.length_cons]
          omega
        · cases hst
          simp only [State.todo, hl, List.length_append, List.flatten_cons, List.length_cons]
          omega
    · cases hst

/-- The child goes on while there is room for what `ps` writes. -/
theorem child_enabled (h : Inv closes out s) (hpc : s.child ≠ .exited)
    (hroom : ∀ bytes ∈ s.left, s.pipe.data.length + bytes.length ≤ Pipe.capacity) :
    ∃ s', stepChild s = some s' := by
  have hc := h.childFds
  unfold stepChild
  cases hch : s.child with
  | exited => exact absurd hch hpc
  | sleep | dup2 | exec => exact ⟨_, rfl⟩
  | ps =>
    rw [hch] at hc
    cases hl : s.left with
    | nil => exact ⟨_, rfl⟩
    | cons bytes left =>
      have hr := hroom bytes (by rw [hl]; exact List.mem_cons_self)
      simp only [Pipe.write]
      rw [if_pos (hc ▸ ChildPc.stdout), if_pos hr]
      exact ⟨_, rfl⟩

/-- The parent goes on unless `grep` has to wait. -/
theorem parent_enabled (h : Inv closes out s) (hpc : s.parent ≠ .exited)
    (hread : s.parent = .grep → s.pipe.data ≠ [] ∨ s.pipe.writers = 0) :
    ∃ s', stepParent closes size s = some s' := by
  have hp := h.parentFds
  unfold stepParent
  cases hpar : s.parent with
  | exited => exact absurd hpar hpc
  | close | dup2 | exec => exact ⟨_, rfl⟩
  | grep =>
    rw [hpar] at hp
    simp only [Pipe.read]
    rw [if_pos (hp ▸ ParentPc.stdin closes)]
    by_cases hnil : s.pipe.data = []
    · rw [if_pos hnil, if_pos ((hread hpar).resolve_left fun hne => hne hnil)]
      exact ⟨_, rfl⟩
    · rw [if_neg hnil]
      exact ⟨_, rfl⟩

/-- How a run ends. -/
theorem Inv.over (h : Inv closes out s) (hd : s.pipe.data = []) (hch : s.child = .exited)
    (hpar : s.parent = if closes then .exited else .grep) : Over closes size out s := by
  have hsound := h.sound
  have hsent := h.sent
  rw [Pipe.Sound, hd, List.append_nil] at hsound
  rw [h.psEnd hch, List.flatten_nil, List.append_nil] at hsent
  refine ⟨hsound.trans hsent, h.screen, hch, hpar, fun a => ?_⟩
  cases a with
  | parent =>
    simp only [GrepPipe.step, GrepPipe.stepParent, hpar]
    cases closes with
    | true => rfl
    | false =>
      have hp := h.parentFds
      have hw := h.writers
      rw [hpar] at hp hw
      have hne : ¬ s.pipe.writers = 0 := by
        have hone : (ParentPc.grep.fds false).writers = 1 := by decide
        simp only [Bool.false_eq_true, if_false] at hw
        omega
      simp only [Bool.false_eq_true, if_false] at hp ⊢
      rw [if_pos (hp ▸ ParentPc.stdin false), Pipe.read, if_pos hd, if_neg hne]
      rfl
  | child =>
    simp only [GrepPipe.step, GrepPipe.stepChild, hch]

theorem enabled_or_over (h : Inv closes out s) (hout : ∀ bytes ∈ out, bytes.length ≤ 4096) :
    Over closes size out s ∨ ∃ a s', step closes size s a = some s' := by
  -- unless `grep` waits, the parent goes on
  have hparent (hpc : s.parent ≠ .exited)
      (hread : s.parent = .grep → s.pipe.data ≠ [] ∨ s.pipe.writers = 0) :
      ∃ a s', step closes size s a = some s' := by
    obtain ⟨s', hs⟩ : ∃ s', stepParent closes size s = some s' := parent_enabled h hpc hread
    exact ⟨.parent, s', hs⟩
  by_cases hch : s.child = .exited
  · by_cases hpc : s.parent = .exited
    · obtain ⟨hcl, hd, -⟩ := h.grepEnd hpc
      exact .inl (h.over hd hch (by rw [hcl, hpc]; rfl))
    by_cases hread : s.parent = .grep → s.pipe.data ≠ [] ∨ s.pipe.writers = 0
    · exact .inr (hparent hpc hread)
    · -- `grep` waits, for the write end is still open
      rw [Classical.not_imp, not_or, not_not] at hread
      obtain ⟨hgrep, hd, hwr⟩ := hread
      have hw := h.writers
      rw [hgrep, ChildPc.writers_eq_zero.2 hch] at hw
      have hcl : closes = false := by
        rw [← Bool.not_eq_true, ← ParentPc.writers_grep]
        omega
      exact .inl (h.over hd hch (by rw [hcl, hgrep]; rfl))
  · right
    by_cases hroom : ∀ bytes ∈ s.left, s.pipe.data.length + bytes.length ≤ Pipe.capacity
    · obtain ⟨s', hs⟩ := child_enabled h hch hroom
      exact ⟨.child, s', hs⟩
    · -- the pipe is full, so that there is something to read
      simp only [not_forall] at hroom
      obtain ⟨bytes, hm, hfull⟩ := hroom
      have hle := hout bytes (h.rest.subset hm)
      refine hparent (fun he => hch (h.grepEnd he).2.2) fun _ => .inl fun hd => hfull ?_
      rw [hd, Pipe.capacity, List.length_nil]
      omega

/-- **Whatever `ps` writes and however the two take turns, `grep` is given exactly that and nothing goes
to the screen; and `grep` ends if the parent has closed the write end, and otherwise waits for ever.** -/
theorem read_over (hsize : 0 < size) (hout : ∀ bytes ∈ out, bytes.length ≤ 4096)
    (h : Lts.Run (step closes size) Lts.Free (init out) s) :
    Lts.Must (step closes size) Lts.Free (Over closes size out) s := by
  have hi : Inv closes out s := h.inv inv_init fun _ _ _ hi _ hst => hi.step hsize hst
  refine Lts.Must.of_wf Nat.lt_wfRel.wf State.todo (I := Inv closes out) ?_ hi
  intro s hi hno
  obtain ⟨a, s', hst⟩ := (enabled_or_over hi hout).resolve_left hno
  refine ⟨⟨a, s', trivial, hst⟩, fun a s' _ hst => ?_⟩
  exact ⟨hi.step hsize hst, todo_step hsize hst⟩

/-- Two writes are read in one. -/
theorem read_over_two : ∃ s : State,
    Lts.Run (step true 4096) Lts.Free (init [ascii "bash", ascii "ps"]) s ∧
      s.pipe.got = ascii "bashps" ∧
      Lts.Must (step true 4096) Lts.Free (Over true 4096 [ascii "bash", ascii "ps"]) s := by
  obtain ⟨s, hr, hg⟩ := Lts.Run.exists_of_exec (step true 4096)
    [.child, .child, .child, .child, .child, .parent, .parent, .parent, .parent]
    (init [ascii "bash", ascii "ps"]) (fun s => s.pipe.got = ascii "bashps") (by decide +kernel)
  exact ⟨s, hr, hg, read_over (by decide) (by decide +kernel) hr⟩

end

end GrepPipe
