import LinuxApi.Lib.Threads
import LinuxApi.Signal.Recycle

/-!
# Every child is reaped

`SIGCHLD` is blocked from before the first `fork` until the handler is installed, so that it is kept
for a child that exits before; and `recycle_child` does not return as long as there is a child to
reap. So a child that has exited is not forgotten (`Kids.zombies`), and all of them get reaped and
printed (`all_recycled`).
-/

set_option autoImplicit false

namespace Recycle

open Signals

/-- The handler is installed. -/
def MainPc.installed : MainPc → Bool
  | .restore | .sleep => true
  | .block | .loopTest | .fork | .sigaction => false

/-- `SIGCHLD` is blocked by `main`. -/
def MainPc.holds : MainPc → Bool
  | .loopTest | .fork | .sigaction | .restore => true
  | .block | .sleep => false

/-- `waitpid` is going to be called again. -/
def HandlerPc.loops : HandlerPc → Bool
  | .enter | .waitpid | .print _ => true
  | .finish | .ret => false

/-- The child that is about to be printed. -/
def HandlerPc.child? : HandlerPc → List Nat
  | .print k => [k]
  | .enter | .waitpid | .finish | .ret => []

abbrev Frames := List (Frame Nat HandlerPc)

/-! ## `main` and the signal -/

/-- What `main` has done about `SIGCHLD`, by where it is; the handler runs only when it sleeps. -/
structure Calm (mask : Finset Nat) (s : State) : Prop where
  ok : s.proc.Ok
  action : ∀ n, s.proc.action n =
    if n = SIGCHLD then (if s.pc.installed then .handle ∅ else .ignore) else .terminate
  killed : s.proc.killed = none
  start : s.pc = .block → s.proc.blocked = mask ∧ s.proc.pending = ∅
  old : s.pc ≠ .block → s.old = mask
  held : s.pc.holds = true → SIGCHLD ∈ s.proc.blocked
  main : s.pc ≠ .sleep → s.proc.frames = []
  free : s.pc = .sleep → s.proc.frames = [] → s.proc.blocked = mask
  saved : ∀ f ∈ s.proc.frames, f.saved = mask
  counter : s.pc = .fork → s.i < 5

theorem calm_init (mask : Finset Nat) : Calm mask (init mask) where
  ok := ⟨.nil _, fun f hf => by cases hf⟩
  action n := rfl
  killed := rfl
  start _ := ⟨rfl, rfl⟩
  old h := absurd rfl h
  held h := by cases h
  main _ := rfl
  free h := by cases h
  saved f hf := by cases hf
  counter h := by cases h

section
variable {mask junk : Finset Nat} {s s' : State}

theorem Calm.sig (h : Calm mask s) {f : Frame Nat HandlerPc} (hf : f ∈ s.proc.frames) :
    f.sig = SIGCHLD := by
  by_contra hne
  have hi := h.ok.installed f hf
  rw [h.action, if_neg hne] at hi
  cases hi

theorem Calm.single (h : Calm mask s) {f : Frame Nat HandlerPc} {frames : Frames}
    (hf : s.proc.frames = f :: frames) : frames = [] := by
  have hlen := h.ok.nested.length_le (t := {SIGCHLD}) fun _ hf =>
    Finset.mem_singleton.2 (h.sig hf)
  rw [hf, List.length_cons, Finset.card_singleton] at hlen
  exact List.length_eq_zero_iff.1 (by omega)

/-- The handler runs only when `main` sleeps. -/
theorem Calm.asleep (h : Calm mask s) {f : Frame Nat HandlerPc} (hf : f ∈ s.proc.frames) :
    s.pc = .sleep := by
  by_contra hne
  rw [h.main hne] at hf
  cases hf

theorem Calm.stepMain (h : Calm mask s) (hf : s.proc.frames = [])
    (hst : stepMain junk s = some s') : Calm mask s' := by
  have hnil : ∀ blocked, Nested blocked s.proc.frames := by
    intro blocked
    rw [hf]
    exact .nil blocked
  have hact := h.action
  unfold Recycle.stepMain at hst
  split at hst
  · rename_i hpc
    cases hst
    rw [hpc] at hact
    exact
      { ok := ⟨hnil _, h.ok.installed⟩
        action := hact
        killed := h.killed
        start := fun he => by cases he
        old := fun _ => (h.start hpc).1
        held := fun _ => Finset.mem_union_right _ (Finset.mem_insert_self _ _)
        main := fun _ => hf
        free := fun he => by cases he
        saved := h.saved
        counter := fun he => by cases he }
  · rename_i hpc
    cases hst
    rw [hpc] at hact
    have hold := h.old (by rw [hpc]; exact fun he => by cases he)
    have hheld := h.held (by rw [hpc]; rfl)
    by_cases hi : s.i < 5
    · simp only [hi, if_true]
      exact ⟨h.ok, hact, h.killed, fun he => (by cases he), fun _ => hold, fun _ => hheld,
        fun _ => hf, fun he => (by cases he), h.saved, fun _ => hi⟩
    · simp only [hi, if_false]
      exact ⟨h.ok, hact, h.killed, fun he => (by cases he), fun _ => hold, fun _ => hheld,
        fun _ => hf, fun he => (by cases he), h.saved, fun he => by cases he⟩
  · cases hst
  · rename_i hpc
    cases hst
    rw [hpc] at hact
    exact
      { ok := ⟨hnil _, fun f hm => by simp [Proc.setAction, hf] at hm⟩
        action := fun n => by
          by_cases hn : n = SIGCHLD
          · simp [Proc.setAction, hn, MainPc.installed]
          · simp [Proc.setAction, hn, hact]
        killed := h.killed
        start := fun he => by cases he
        old := fun _ => h.old (by rw [hpc]; exact fun he => by cases he)
        held := fun _ => h.held (by rw [hpc]; rfl)
        main := fun _ => hf
        free := fun he => by cases he
        saved := h.saved
        counter := fun he => by cases he }
  · rename_i hpc
    cases hst
    rw [hpc] at hact
    have hold := h.old (by rw [hpc]; exact fun he => by cases he)
    exact
      { ok := ⟨hnil _, h.ok.installed⟩
        action := hact
        killed := h.killed
        start := fun he => by cases he
        old := fun _ => hold
        held := fun he => by cases he
        main := fun he => absurd rfl he
        free := fun _ _ => hold
        saved := h.saved
        counter := fun he => by cases he }
  · cases hst

theorem Calm.fork (h : Calm mask s) (hpc : s.pc = .fork) (children : List Child) :
    Calm mask { s with children, i := s.i + 1, pc := .loopTest } := by
  have hact := h.action
  rw [hpc] at hact
  exact
    { ok := h.ok
      action := hact
      killed := h.killed
      start := fun he => by cases he
      old := fun _ => h.old (by rw [hpc]; exact fun he => by cases he)
      held := fun _ => h.held (by rw [hpc]; rfl)
      main := fun _ => h.main (by rw [hpc]; exact fun he => by cases he)
      free := fun he => by cases he
      saved := h.saved
      counter := fun he => by cases he }

/-- The handler goes on, or returns. -/
theorem Calm.frame (h : Calm mask s) {f : Frame Nat HandlerPc} (hf : s.proc.frames = [f])
    (pc : HandlerPc) (children : List Child) (printed : List Nat) :
    Calm mask { s with proc := s.proc.goto pc, children, printed } ∧
      Calm mask { s with proc := s.proc.ret, children, printed } := by
  have hmem : f ∈ s.proc.frames := hf ▸ List.mem_cons_self
  have hpc := h.asleep hmem
  have hsaved := h.saved f hmem
  have hgoto : s.proc.goto pc = { s.proc with frames := [{ f with pc }] } := by rw [Proc.goto, hf]
  have hret : s.proc.ret = { s.proc with blocked := f.saved, frames := [] } := by rw [Proc.ret, hf]
  have hg := h.ok.goto pc
  have hr := h.ok.ret
  rw [hgoto] at hg ⊢
  rw [hret] at hr ⊢
  refine ⟨⟨hg, h.action, h.killed, h.start, h.old, h.held, fun hne => absurd hpc hne,
    fun _ hn => (by cases hn), fun g hg => ?_, h.counter⟩,
    ⟨hr, h.action, h.killed, fun he => ?_, h.old, fun he => ?_, fun hne => absurd hpc hne,
      fun _ _ => hsaved, fun g hg => (by cases hg), h.counter⟩⟩
  · rw [List.mem_singleton.1 hg]
    exact hsaved
  · rw [show s.pc = .block from he] at hpc
    cases hpc
  · have he' : s.pc.holds = true := he
    rw [hpc] at he'
    cases he'

theorem Calm.raise (h : Calm mask s) (hpc : s.pc ≠ .block) (n : Nat) (children : List Child) :
    Calm mask { s with children, proc := s.proc.raise n } := by
  obtain ⟨ha, hb, hf, hk⟩ := s.proc.raise_keeps n
  exact ⟨h.ok.raise n, by rw [ha]; exact h.action, by rw [hk]; exact h.killed,
    fun he => absurd he hpc, h.old, by rw [hb]; exact h.held, by rw [hf]; exact h.main,
    by rw [hf, hb]; exact h.free, by rw [hf]; exact h.saved, h.counter⟩

/-- `SIGCHLD` is not lost. -/
theorem Calm.raise_mem (h : Calm mask s) (hpc : s.pc ≠ .block) :
    SIGCHLD ∈ (s.proc.raise SIGCHLD).pending := by
  have hact := h.action SIGCHLD
  rw [if_pos rfl] at hact
  unfold Proc.raise
  cases hi : s.pc.installed with
  | true =>
    rw [hi, if_pos rfl] at hact
    rw [hact]
    exact Finset.mem_insert_self _ _
  | false =>
    rw [hi, if_neg Bool.false_ne_true] at hact
    have hb : SIGCHLD ∈ s.proc.blocked := by
      apply h.held
      cases hp : s.pc with
      | block => exact absurd hp hpc
      | restore => rw [hp] at hi; cases hi
      | sleep => rw [hp] at hi; cases hi
      | _ => rfl
    rw [hact]
    simp only [hb, if_true]
    exact Finset.mem_insert_self _ _

/-- The handler starts when `main` sleeps, and only then. -/
theorem Calm.deliver (h : Calm mask s) {proc : Proc Nat HandlerPc}
    (hd : s.proc.deliver .enter SIGCHLD = some proc) :
    Calm mask { s with proc } ∧ s.proc.frames = [] ∧ SIGCHLD ∉ mask ∧ s.pc = .sleep ∧
      ∃ f : Frame Nat HandlerPc, proc.frames = [f] ∧ f.pc = .enter := by
  have hok := h.ok.deliver hd
  obtain ⟨⟨hp, hb, hk⟩, hd⟩ := Proc.deliver_cases hd
  have hact := h.action SIGCHLD
  rw [if_pos rfl] at hact
  have hpc : s.pc = .sleep := by
    cases hpc : s.pc with
    | block =>
      rw [(h.start hpc).2] at hp
      cases hp
    | sleep => rfl
    | _ => exact absurd (h.held (by rw [hpc]; rfl)) hb
  have hnil : s.proc.frames = [] := by
    by_contra hne
    obtain ⟨f, frames, hf⟩ := List.exists_cons_of_ne_nil hne
    have hmem : f ∈ s.proc.frames := hf ▸ List.mem_cons_self
    exact hb (h.sig hmem ▸ h.ok.nested.sig_mem hmem)
  have hmask := h.free hpc hnil
  rw [hpc, MainPc.installed, if_pos rfl] at hact
  cases hd with
  | ignored ha => rw [hact] at ha; cases ha
  | killed ha => rw [hact] at ha; cases ha
  | handled ha =>
    refine ⟨⟨hok, h.action, hk, fun he => ?_, h.old, fun he => ?_, fun hne => absurd hpc hne,
      fun _ he => ?_, fun f hf => ?_, h.counter⟩, hnil, hmask ▸ hb, hpc, _, by rw [hnil], rfl⟩
    · rw [show s.pc = .block from he] at hpc
      cases hpc
    · have he' : s.pc.holds = true := he
      rw [hpc] at he'
      cases he'
    · cases he
    · simp only [hnil, List.mem_singleton] at hf
      rw [hf]
      exact hmask

end

/-! ## The children -/

/-- The children that have been printed, and the one that is about to be. -/
def counted (printed : List Nat) (frames : Frames) : List Nat :=
  printed ++ frames.flatMap fun f => f.pc.child?

/-- A child that has exited is not forgotten, and one that has been reaped is printed once. -/
structure Kids (children : List Child) (printed : List Nat) (frames : Frames)
    (pending : Finset Nat) : Prop where
  zombies : .zombie ∈ children → SIGCHLD ∈ pending ∨ ∃ f ∈ frames, f.pc.loops = true
  nodup : (counted printed frames).Nodup
  reaped : ∀ k, k ∈ counted printed frames ↔ children[k]? = some .reaped

section
variable {children : List Child} {printed : List Nat} {frames frames' : Frames}
  {pending : Finset Nat} {f : Frame Nat HandlerPc} {k : Nat}

theorem Kids.fork (h : Kids children printed frames pending) (ok : Bool) :
    Kids (children ++ if ok then [.running] else []) printed frames pending where
  zombies hz := h.zombies (by cases ok <;> simpa using hz)
  nodup := h.nodup
  reaped k := by
    rw [h.reaped]
    cases ok
    · simp
    · rcases Nat.lt_trichotomy k children.length with hlt | rfl | hgt
      · simp [List.getElem?_append_left hlt]
      · simp
      · rw [List.getElem?_eq_none (by omega), List.getElem?_eq_none (by simp; omega)]

theorem Kids.exit (h : Kids children printed frames pending) (hk : children[k]? = some .running)
    {pending' : Finset Nat} (hp : SIGCHLD ∈ pending') :
    Kids (children.set k .zombie) printed frames pending' where
  zombies _ := .inl hp
  nodup := h.nodup
  reaped j := by
    rw [h.reaped, List.getElem?_set]
    split
    · rename_i hkj
      rw [← hkj, hk]
      split <;> simp
    · exact Iff.rfl

theorem Kids.deliver (h : Kids children printed [] pending) (hf : f.pc = .enter)
    (pending' : Finset Nat) : Kids children printed [f] pending' where
  zombies _ := .inr ⟨f, List.mem_singleton_self f, by rw [hf]; rfl⟩
  nodup := by simpa [counted, hf, HandlerPc.child?] using h.nodup
  reaped j := by simpa [counted, hf, HandlerPc.child?] using h.reaped j

/-- The handler goes on with what it counts unchanged. -/
theorem Kids.goto (h : Kids children printed [f] pending) {printed' : List Nat}
    (hl : f.pc.loops = true → .zombie ∈ children → ∃ g ∈ frames', g.pc.loops = true)
    (hc : counted printed' frames' = counted printed [f]) :
    Kids children printed' frames' pending where
  zombies hz := by
    rcases h.zombies hz with hp | ⟨g, hg, hloop⟩
    · exact .inl hp
    · rw [List.mem_singleton.1 hg] at hloop
      exact .inr (hl hloop hz)
  nodup := by
    rw [hc]
    exact h.nodup
  reaped k := by
    rw [hc]
    exact h.reaped k

theorem Kids.reap (h : Kids children printed [f] pending) (hf : f.pc = .waitpid)
    (hk : children[k]? = some .zombie) :
    Kids (children.set k .reaped) printed [{ f with pc := .print k }] pending := by
  have hc : counted printed [f] = printed := by simp [counted, hf, HandlerPc.child?]
  have hc' : counted printed [{ f with pc := .print k }] = printed ++ [k] := by
    simp [counted, HandlerPc.child?]
  have hnd := h.nodup
  have hre := h.reaped
  rw [hc] at hnd hre
  have hnew : k ∉ printed := by
    rw [hre, hk]
    exact fun he => by cases he
  refine ⟨fun _ => .inr ⟨_, List.mem_singleton_self _, rfl⟩, ?_, fun j => ?_⟩
  · rw [hc']
    exact List.nodup_append.2 ⟨hnd, List.nodup_singleton k, fun a ha b hb => by
      rw [List.mem_singleton.1 hb]
      rintro rfl
      exact hnew ha⟩
  · have hlt := (List.getElem?_eq_some_iff.1 hk).1
    rw [hc', List.mem_append, List.mem_singleton, hre, List.getElem?_set]
    by_cases hkj : k = j
    · simp [hkj, hkj ▸ hlt]
    · simp [hkj, Ne.symm hkj]

end

/-! ## Runs -/

structure Inv (mask : Finset Nat) (s : State) : Prop where
  calm : Calm mask s
  kids : Kids s.children s.printed s.proc.frames s.proc.pending
  fresh : s.pc = .block → s.children = []

section
variable {mask junk : Finset Nat} {s s' : State}

theorem inv_init (mask : Finset Nat) : Inv mask (init mask) :=
  ⟨calm_init mask, ⟨fun hz => (by cases hz), List.nodup_nil, fun k => by simp [counted, init]⟩,
    fun _ => rfl⟩

/-- `main` touches neither the children nor what is pending. -/
theorem stepMain_keeps (hst : stepMain junk s = some s') : s'.children = s.children ∧
    s'.printed = s.printed ∧ s'.proc.frames = s.proc.frames ∧
    s'.proc.pending = s.proc.pending ∧ s'.pc ≠ .block := by
  unfold stepMain at hst
  split at hst
  · cases hst
    exact ⟨rfl, rfl, rfl, rfl, fun he => by cases he⟩
  · cases hst
    refine ⟨rfl, rfl, rfl, rfl, ?_⟩
    show (if s.i < 5 then MainPc.fork else .sigaction) ≠ .block
    split <;> exact fun he => by cases he
  · cases hst
  · cases hst
    exact ⟨rfl, rfl, rfl, rfl, fun he => by cases he⟩
  · cases hst
    exact ⟨rfl, rfl, rfl, rfl, fun he => by cases he⟩
  · cases hst

theorem Inv.main (h : Inv mask s) (hf : s.proc.frames = []) (hst : stepMain junk s = some s') :
    Inv mask s' := by
  obtain ⟨hc, hp, hfr, hpe, hpc⟩ := stepMain_keeps hst
  refine ⟨h.calm.stepMain hf hst, ?_, fun he => absurd he hpc⟩
  rw [hc, hp, hfr, hpe]
  exact h.kids

/-- A step of the handler, which is at `f`. -/
theorem Inv.handler (h : Inv mask s) {f : Frame Nat HandlerPc} (hf : s.proc.frames = [f])
    (hst : stepHandler s f.pc = some s') : Inv mask s' := by
  have hcalm := h.calm.frame hf
  have hsleep := h.calm.asleep (f := f) (hf ▸ List.mem_cons_self)
  have hfresh : s.pc = .block → s.children = [] := h.fresh
  have hkids := h.kids
  rw [hf] at hkids
  have hgoto : ∀ pc, (s.proc.goto pc).frames = [{ f with pc }] ∧
      (s.proc.goto pc).pending = s.proc.pending := by
    intro pc
    rw [Proc.goto, hf]
    exact ⟨rfl, rfl⟩
  have hret : s.proc.ret.frames = [] ∧ s.proc.ret.pending = s.proc.pending := by
    rw [Proc.ret, hf]
    exact ⟨rfl, rfl⟩
  cases hpc : f.pc with
  | enter =>
    rw [hpc] at hst
    cases hst
    refine ⟨(hcalm .waitpid s.children s.printed).1, ?_, hfresh⟩
    rw [(hgoto _).1, (hgoto _).2]
    exact hkids.goto (fun _ _ => ⟨_, List.mem_singleton_self _, rfl⟩)
      (by simp [counted, hpc, HandlerPc.child?])
  | waitpid =>
    rw [hpc] at hst
    cases hst
  | print k =>
    rw [hpc] at hst
    cases hst
    refine ⟨(hcalm .waitpid s.children (s.printed ++ [k])).1, ?_, hfresh⟩
    rw [(hgoto _).1, (hgoto _).2]
    exact hkids.goto (fun _ _ => ⟨_, List.mem_singleton_self _, rfl⟩)
      (by simp [counted, hpc, HandlerPc.child?])
  | finish =>
    rw [hpc] at hst
    cases hst
    refine ⟨(hcalm .ret s.children s.printed).1, ?_, hfresh⟩
    rw [(hgoto _).1, (hgoto _).2]
    exact hkids.goto (fun hl => by rw [hpc] at hl; cases hl)
      (by simp [counted, hpc, HandlerPc.child?])
  | ret =>
    rw [hpc] at hst
    cases hst
    refine ⟨(hcalm .ret s.children s.printed).2, ?_, hfresh⟩
    rw [hret.1, hret.2]
    exact hkids.goto (fun hl => by rw [hpc] at hl; cases hl)
      (by simp [counted, hpc, HandlerPc.child?])

theorem Inv.waitpid (h : Inv mask s) {f : Frame Nat HandlerPc} (hf : s.proc.frames = [f])
    (hpc : f.pc = .waitpid) {k : Option Nat} (hst : stepWaitpid s k = some s') : Inv mask s' := by
  have hcalm := h.calm.frame hf
  have hsleep := h.calm.asleep (f := f) (hf ▸ List.mem_cons_self)
  have hkids := h.kids
  rw [hf] at hkids
  have hgoto : ∀ pc, (s.proc.goto pc).frames = [{ f with pc }] ∧
      (s.proc.goto pc).pending = s.proc.pending := by
    intro pc
    rw [Proc.goto, hf]
    exact ⟨rfl, rfl⟩
  cases k with
  | some k =>
    simp only [stepWaitpid] at hst
    split at hst
    · rename_i hk
      cases hst
      refine ⟨(hcalm (.print k) _ s.printed).1, ?_, fun he => ?_⟩
      · rw [(hgoto _).1, (hgoto _).2]
        exact hkids.reap hpc hk
      · rw [show s.pc = .block from he] at hsleep
        cases hsleep
    · cases hst
  | none =>
    simp only [stepWaitpid] at hst
    split at hst
    · rename_i hz
      cases hst
      refine ⟨(hcalm .finish s.children s.printed).1, ?_, h.fresh⟩
      rw [(hgoto _).1, (hgoto _).2]
      exact hkids.goto (fun _ hz' => absurd hz' hz) (by simp [counted, hpc, HandlerPc.child?])
    · cases hst

theorem Inv.step (h : Inv mask s) {a : Act} (hst : step junk s a = some s') : Inv mask s' := by
  cases a with
  | main =>
    simp only [Recycle.step] at hst
    split at hst
    · rename_i hf
      exact h.main hf hst
    · cases hst
  | fork ok =>
    simp only [Recycle.step] at hst
    split at hst
    · rename_i hg
      cases hst
      exact ⟨h.calm.fork hg.2 _, h.kids.fork ok, fun he => by cases he⟩
    · cases hst
  | handler =>
    simp only [Recycle.step] at hst
    split at hst
    · cases hst
    · rename_i f frames hf
      rw [h.calm.single hf] at hf
      exact h.handler hf hst
  | waitpid k =>
    simp only [Recycle.step] at hst
    split at hst
    · cases hst
    · rename_i f frames hf
      rw [h.calm.single hf] at hf
      split at hst
      · rename_i hpc
        exact h.waitpid hf hpc hst
      · cases hst
  | deliver =>
    obtain ⟨proc, hd, rfl⟩ := Option.map_eq_some_iff.1 hst
    obtain ⟨hcalm, hnil, -, hpc, f, hf, henter⟩ := h.calm.deliver hd
    have hkids := h.kids
    rw [hnil] at hkids
    refine ⟨hcalm, ?_, h.fresh⟩
    rw [hf]
    exact hkids.deliver henter _
  | exit k =>
    simp only [Recycle.step] at hst
    split at hst
    · rename_i hk
      cases hst
      have hpc : s.pc ≠ .block := by
        intro he
        rw [h.fresh he] at hk
        cases hk
      refine ⟨h.calm.raise hpc SIGCHLD _, ?_, fun he => absurd he hpc⟩
      obtain ⟨-, -, hf, -⟩ := s.proc.raise_keeps SIGCHLD
      rw [hf]
      exact h.kids.exit hk (h.calm.raise_mem hpc)
    · cases hst

theorem inv_of_run {ok : State → Act → Prop} (h : Lts.Run (Recycle.step junk) ok (init mask) s) :
    Inv mask s :=
  h.inv (inv_init mask) fun _ _ _ hi _ hst => hi.step hst

end

/-! ## The end -/

def MainPc.weight (i : Nat) : MainPc → Nat
  | .block => 170
  | .loopTest => 30 * (5 - i) + 5
  | .fork => 30 * (5 - i) + 4
  | .sigaction => 2
  | .restore => 1
  | .sleep => 0

def Child.weight : Child → Nat
  | .running => 20
  | .zombie => 3
  | .reaped => 0

def HandlerPc.weight : HandlerPc → Nat
  | .enter => 4
  | .waitpid => 3
  | .print _ => 5
  | .finish => 2
  | .ret => 1

/-- What is still to be done. -/
def State.weight (s : State) : Nat :=
  s.pc.weight s.i + (s.children.map Child.weight).sum +
    (if SIGCHLD ∈ s.proc.pending then 6 else 0) + (s.proc.frames.map fun f => f.pc.weight).sum

section
variable {mask junk : Finset Nat} {s s' : State}

theorem weight_main (hst : stepMain junk s = some s') : s'.weight < s.weight := by
  obtain ⟨hc, -, hf, hp, -⟩ := stepMain_keeps hst
  have hlt : s'.pc.weight s'.i < s.pc.weight s.i := by
    unfold stepMain at hst
    split at hst
    · rename_i hpc
      cases hst
      simp only [hpc, MainPc.weight]
      omega
    · rename_i hpc
      cases hst
      simp only [hpc]
      split <;> simp only [MainPc.weight] <;> omega
    · cases hst
    · rename_i hpc
      cases hst
      simp [hpc, MainPc.weight]
    · rename_i hpc
      cases hst
      simp [hpc, MainPc.weight]
    · cases hst
  simp only [State.weight, hc, hf, hp]
  omega

theorem Inv.less (h : Inv mask s) {a : Act} (hst : Recycle.step junk s a = some s') :
    s'.weight < s.weight := by
  cases a with
  | main =>
    simp only [Recycle.step] at hst
    split at hst
    · exact weight_main hst
    · cases hst
  | fork ok =>
    simp only [Recycle.step] at hst
    split at hst
    · rename_i hg
      cases hst
      have hi := h.calm.counter hg.2
      simp only [State.weight, hg.2, MainPc.weight, List.map_append, List.sum_append]
      cases ok <;> simp [Child.weight] <;> omega
    · cases hst
  | handler =>
    simp only [Recycle.step] at hst
    split at hst
    · cases hst
    · rename_i f frames hf
      cases hpc : f.pc <;> rw [hpc] at hst <;> cases hst <;>
        simp [State.weight, Proc.goto, Proc.ret, hf, hpc, HandlerPc.weight]
  | waitpid k =>
    simp only [Recycle.step] at hst
    split at hst
    · cases hst
    · rename_i f frames hf
      split at hst
      · rename_i hpc
        cases k with
        | some k =>
          simp only [stepWaitpid] at hst
          split at hst
          · rename_i hk
            cases hst
            have hw := Threads.sum_set_add Child.weight .reaped hk
            simp only [State.weight, Proc.goto, hf, hpc, HandlerPc.weight, Child.weight,
              List.map_cons, List.sum_cons] at hw ⊢
            omega
          · cases hst
        | none =>
          simp only [stepWaitpid] at hst
          split at hst
          · cases hst
            simp [State.weight, Proc.goto, hf, hpc, HandlerPc.weight]
          · cases hst
      · cases hst
  | deliver =>
    obtain ⟨proc, hd, rfl⟩ := Option.map_eq_some_iff.1 hst
    obtain ⟨-, hnil, -, -, f, hf, henter⟩ := h.calm.deliver hd
    obtain ⟨⟨hp, -, -⟩, hdel⟩ := Proc.deliver_cases hd
    have hpend : SIGCHLD ∉ proc.pending := by
      cases hdel <;> exact Finset.notMem_erase _ _
    simp only [State.weight, hf, hnil, henter, hp, hpend, if_true, if_false, List.map_cons,
      List.map_nil, List.sum_cons, List.sum_nil, HandlerPc.weight]
    omega
  | exit k =>
    simp only [Recycle.step] at hst
    split at hst
    · rename_i hk
      cases hst
      have hw := Threads.sum_set_add Child.weight .zombie hk
      obtain ⟨-, -, hf, -⟩ := s.proc.raise_keeps SIGCHLD
      simp only [State.weight, hf, Child.weight] at hw ⊢
      split <;> split <;> omega
    · cases hst

theorem handler_enabled {f : Frame Nat HandlerPc} {frames : Frames}
    (hf : s.proc.frames = f :: frames) : ∃ a, (Recycle.step junk s a).isSome = true := by
  cases hpc : f.pc with
  | waitpid =>
    by_cases hz : .zombie ∈ s.children
    · obtain ⟨k, hk⟩ := List.getElem?_of_mem hz
      exact ⟨.waitpid (some k), by simp [Recycle.step, hf, hpc, stepWaitpid, hk]⟩
    · exact ⟨.waitpid none, by simp [Recycle.step, hf, hpc, stepWaitpid, hz]⟩
  | _ => exact ⟨.handler, by simp [Recycle.step, hf, hpc, stepHandler]⟩

theorem main_enabled (hf : s.proc.frames = []) (hpc : s.pc ≠ .sleep) :
    ∃ a, (Recycle.step junk s a).isSome = true := by
  cases hp : s.pc with
  | sleep => exact absurd hp hpc
  | fork => exact ⟨.fork true, by simp [Recycle.step, hf, hp]⟩
  | _ => exact ⟨.main, by simp [Recycle.step, hf, hp, stepMain]⟩

theorem Inv.deliver_enabled (h : Inv mask s) (hm : SIGCHLD ∉ mask) (hf : s.proc.frames = [])
    (hpc : s.pc = .sleep) (hp : SIGCHLD ∈ s.proc.pending) :
    (Recycle.step junk s .deliver).isSome = true := by
  have hb := h.calm.free hpc hf
  have hact := h.calm.action SIGCHLD
  rw [if_pos rfl, hpc, MainPc.installed, if_pos rfl] at hact
  simp [Recycle.step, Proc.deliver, hp, hb, hm, h.calm.killed, hact]

/-- Something can happen until all is done. -/
theorem Inv.enabled (h : Inv mask s) (hm : SIGCHLD ∉ mask) (hd : ¬ Done s) :
    ∃ a, (Recycle.step junk s a).isSome = true := by
  cases hf : s.proc.frames with
  | cons f frames => exact handler_enabled hf
  | nil =>
    by_cases hpc : s.pc = .sleep
    · by_cases hrun : .running ∈ s.children
      · obtain ⟨k, hk⟩ := List.getElem?_of_mem hrun
        exact ⟨.exit k, by simp [Recycle.step, hk]⟩
      · by_cases hp : SIGCHLD ∈ s.proc.pending
        · exact ⟨.deliver, h.deliver_enabled hm hf hpc hp⟩
        · have hz : .zombie ∉ s.children := by
            intro hz
            rcases h.kids.zombies hz with hp' | ⟨f, hf', -⟩
            · exact hp hp'
            · rw [hf] at hf'
              cases hf'
          have hall : ∀ c ∈ s.children, c = .reaped := by
            intro c hc
            cases c with
            | running => exact absurd hc hrun
            | zombie => exact absurd hc hz
            | reaped => rfl
          have hnd := h.kids.nodup
          have hre := h.kids.reaped
          simp only [hf, counted, List.flatMap_nil, List.append_nil] at hnd hre
          refine absurd ⟨hpc, hf, hall, ?_⟩ hd
          rw [List.perm_ext_iff_of_nodup hnd List.nodup_range]
          intro k
          rw [hre, List.mem_range]
          constructor
          · intro hk
            exact (List.getElem?_eq_some_iff.1 hk).1
          · intro hk
            rw [List.getElem?_eq_getElem hk, hall _ (List.getElem_mem hk)]
    · exact main_enabled hf hpc

/-- With `SIGCHLD` blocked from the start the handler never runs. -/
theorem unreaped_of_quiet {ok : State → Act → Prop} (hm : SIGCHLD ∈ mask)
    (h : Lts.Run (Recycle.step junk) ok (init mask) s) :
    s.proc.frames = [] ∧ s.printed = [] := by
  apply h.inv_of (P := fun s => s.proc.frames = [] ∧ s.printed = [])
    (fun _ hr => inv_of_run hr) ⟨rfl, rfl⟩
  intro s a s' hi hq _ hst
  obtain ⟨hf, hp⟩ := hq
  cases a with
  | main =>
    simp only [Recycle.step, hf, if_true] at hst
    obtain ⟨-, hp', hf', -⟩ := stepMain_keeps hst
    exact ⟨by rw [hf', hf], by rw [hp', hp]⟩
  | fork ok =>
    simp only [Recycle.step] at hst
    split at hst
    · cases hst
      exact ⟨hf, hp⟩
    · cases hst
  | handler => simp [Recycle.step, hf] at hst
  | waitpid k => simp [Recycle.step, hf] at hst
  | deliver =>
    obtain ⟨proc, hd, rfl⟩ := Option.map_eq_some_iff.1 hst
    exact absurd hm (hi.calm.deliver hd).2.2.1
  | exit k =>
    simp only [Recycle.step] at hst
    split at hst
    · cases hst
      exact ⟨by rw [(s.proc.raise_keeps SIGCHLD).2.2.1, hf], hp⟩
    · cases hst

end

/-- **All children are reaped**, whenever they exit, also before the handler is installed and in any
number at once: if the process was started with `SIGCHLD` unblocked, then from every state of every
run, whatever happens, all its children get reaped and printed, each once. If it was started with
`SIGCHLD` blocked, none is, ever. -/
theorem all_recycled (junk mask : Finset Nat) {s : State}
    (h : Lts.Run (step junk) Lts.Free (init mask) s) :
    (SIGCHLD ∉ mask → Lts.Must (step junk) Lts.Free Done s) ∧
      (SIGCHLD ∈ mask → .reaped ∉ s.children ∧ s.printed = []) := by
  have hi := inv_of_run h
  constructor
  · intro hm
    apply Lts.Must.of_wf Nat.lt_wfRel.wf State.weight _ hi
    intro s hi hd
    obtain ⟨a, ha⟩ := hi.enabled hm hd
    obtain ⟨s', hs'⟩ := Option.isSome_iff_exists.1 ha
    exact ⟨⟨a, s', trivial, hs'⟩, fun _ _ _ hst => ⟨hi.step hst, hi.less hst⟩⟩
  · intro hm
    obtain ⟨hf, hp⟩ := unreaped_of_quiet hm h
    refine ⟨fun hr => ?_, hp⟩
    obtain ⟨k, hk⟩ := List.getElem?_of_mem hr
    have hmem := (hi.kids.reaped k).2 hk
    simp [counted, hf, hp] at hmem

/-- A child exits at once; it is reaped when the handler is installed. -/
theorem all_recycled_early : ∃ s : State, s.children = [.zombie] ∧ s.pc = .loopTest ∧
    Lts.Must (step ∅) Lts.Free Done s := by
  obtain ⟨s, hr, hs⟩ := Lts.Run.exists_of_exec (step ∅) [.main, .main, .fork true, .exit 0]
    (init ∅) (fun s => s.children = [.zombie] ∧ s.pc = .loopTest) (by decide +kernel)
  exact ⟨s, hs.1, hs.2, (all_recycled ∅ ∅ hr).1 (by decide)⟩

end Recycle
