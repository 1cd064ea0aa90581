import LinuxApi.Select.Server

/-!
# What the select server watches and reads

`client_fds` is the listening descriptor with the open clients (`Inv.watched`). The descriptors read in
a pass are, in order, those reported below the loop counter (`readTo`): a client that is accepted in
the pass is not among them, as its descriptor was not watched before, and a client that is
closed is behind the counter. The main result is `watches_clients`.
-/

set_option autoImplicit false

namespace Select

open Convert

/-! ## The lowest free descriptor -/

theorem firstFree_spec (opened : Finset Nat) :
    firstFree opened ∉ opened ∧ ∀ k < firstFree opened, k ∈ opened := by
  have hsome : ∃ k, (List.range (opened.card + 1)).find? (· ∉ opened) = some k := by
    rw [← Option.isSome_iff_exists, List.find?_isSome]
    have hcard : opened.card < (Finset.range (opened.card + 1)).card := by simp
    obtain ⟨k, hk, hn⟩ := Finset.exists_mem_notMem_of_card_lt_card hcard
    exact ⟨k, by simpa using hk, by simpa using hn⟩
  obtain ⟨k, hk⟩ := hsome
  have hfree : firstFree opened = k := by rw [firstFree, hk]; rfl
  obtain ⟨hn, as, bs, hsplit, has⟩ := List.find?_eq_some_iff_append.1 hk
  rw [hfree]
  refine ⟨by simpa using hn, fun j hj => ?_⟩
  have hlt : as.length < opened.card + 1 := by
    have hlen := congrArg List.length hsplit
    rw [List.length_range, List.length_append, List.length_cons] at hlen
    omega
  have hlen : as.length = k := by
    have hget : (List.range (opened.card + 1))[as.length]? = some k := by
      rw [hsplit, List.getElem?_append_right (Nat.le_refl _), Nat.sub_self]
      rfl
    rw [List.getElem?_range hlt] at hget
    exact Option.some.inj hget
  have hmem : j ∈ as := by
    have hget : (List.range (opened.card + 1))[j]? = as[j]? := by
      rw [hsplit, List.getElem?_append_left (by omega)]
    rw [List.getElem?_range (by omega)] at hget
    exact List.mem_of_getElem? hget.symm
  simpa using has j hmem

/-- What `accept` returns is above the listening descriptor, and not a client's. -/
theorem firstFree_client (env : Env) (clients : Finset Nat) :
    env.lfd < firstFree (env.held ∪ clients) ∧ firstFree (env.held ∪ clients) ∉ clients := by
  obtain ⟨hn, -⟩ := firstFree_spec (env.held ∪ clients)
  rw [Finset.mem_union, not_or] at hn
  exact ⟨Nat.lt_of_not_le fun hle => hn.1 (env.low _ hle), hn.2⟩

/-! ## Steps, case by case -/

inductive StepMove (env : Env) (s : State) : Act → State → Prop
  | select {ready : Finset Nat} : s.pc = .select → ready ⊆ s.clientFds →
      StepMove env s (.select ready) { s with reads := ready, pc := .test }
  | accept {cfd : Nat} : s.pc = .test → env.lfd < cfd →
      StepMove env s .main { s with
        clientFds := insert cfd s.clientFds, maxFd := if cfd > s.maxFd then cfd else s.maxFd
        clients := insert cfd s.clients, i := env.lfd + 1, pc := .loop }
  | quiet : s.pc = .test → StepMove env s .main { s with i := env.lfd + 1, pc := .loop }
  | skip : s.pc = .loop → s.i ∉ s.reads → StepMove env s .main { s with i := s.i + 1, pc := .loop }
  | found : s.pc = .loop → s.i ∈ s.reads → StepMove env s .main { s with pc := .read }
  | done : s.pc = .loop → s.maxFd < s.i → StepMove env s .main { s with pc := .select }
  | data {chunk buf : CLib.Bytes} : s.pc = .read →
      StepMove env s (.read (.data chunk)) { s with revBuff := buf, i := s.i + 1, pc := .loop }
  | eof : s.pc = .read →
      StepMove env s (.read .eof) { s with
        clients := s.clients.erase s.i, clientFds := s.clientFds.erase s.i, i := s.i + 1
        pc := .loop }
  | error : s.pc = .read → StepMove env s (.read .error) { s with pc := .select }

section
variable {env : Env} {s s' : State}

theorem main_move (h : stepMain env s = some s') : StepMove env s .main s' := by
  unfold stepMain at h
  cases hpc : s.pc <;> simp only [hpc] at h
  case select => cases h
  case test =>
    split at h
    · simp only [accept, Option.ite_none_right_eq_some, Option.some.injEq] at h
      obtain ⟨-, rfl⟩ := h
      exact .accept hpc (firstFree_client env s.clients).1
    · obtain ⟨⟩ := h
      exact .quiet hpc
  case loop =>
    split at h
    · split at h
      · obtain ⟨⟩ := h
        exact .found hpc ‹_›
      · obtain ⟨⟩ := h
        exact .skip hpc ‹_›
    · obtain ⟨⟩ := h
      exact .done hpc (Nat.lt_of_not_le ‹_›)
  case read => cases h

theorem step_move {a : Act} (h : step env s a = some s') : StepMove env s a s' := by
  cases a with
  | select ready =>
    simp only [step, Option.ite_none_right_eq_some, Option.some.injEq] at h
    obtain ⟨⟨hpc, hsub⟩, rfl⟩ := h
    exact .select hpc hsub
  | main => exact main_move h
  | read r =>
    simp only [step, Option.ite_none_right_eq_some] at h
    obtain ⟨hpc, h⟩ := h
    cases r with
    | data chunk =>
      simp only [stepRead, Option.ite_none_right_eq_some, Option.map_eq_some_iff] at h
      obtain ⟨-, x, -, rfl⟩ := h
      exact .data hpc
    | eof =>
      obtain ⟨⟩ := h
      exact .eof hpc
    | error =>
      obtain ⟨⟩ := h
      exact .error hpc

end

/-! ## The descriptors read in a pass -/

/-- The descriptors reported between the listening one and `n`. -/
def readTo (env : Env) (reported : Finset Nat) (n : Nat) : List Nat :=
  (List.Ico (env.lfd + 1) n).filter (· ∈ reported)

section
variable {env : Env} {reported : Finset Nat} {n : Nat}

theorem readTo_start : readTo env reported (env.lfd + 1) = [] := by simp [readTo]

theorem readTo_succ (h : env.lfd < n) : readTo env reported (n + 1) =
    readTo env reported n ++ if n ∈ reported then [n] else [] := by
  rw [readTo, List.Ico.succ_top h, List.filter_append]
  congr 1
  split <;> simp [*]

end

/-! ## The invariant -/

/-- The last pass has read every client it was told about, up to one whose `read` failed. -/
def Ended (env : Env) (maxFd : Nat) (p : Pass) : Prop :=
  (p.failed = none ∧ ∃ n, maxFd < n ∧ p.calls = readTo env p.reported n) ∨
    ∃ g, p.failed = some g ∧ p.calls = readTo env p.reported (g + 1)

/-- The pass has read what was reported below the loop counter. -/
structure Reading (env : Env) (s : State) (p : Pass) : Prop where
  reads : s.reads = p.reported
  above : env.lfd < s.i
  calls : p.calls = readTo env p.reported s.i
  failed : p.failed = none

structure Inv (env : Env) (s : State) (p : Pass) : Prop where
  watched : s.clientFds = insert env.lfd s.clients
  range : ∀ c ∈ s.clients, env.lfd < c ∧ c ≤ s.maxFd
  reported : ∀ fd ∈ p.reported, fd = env.lfd ∨ env.lfd < fd ∧ fd ≤ s.maxFd
  select : s.pc = .select → Ended env s.maxFd p
  test : s.pc = .test → s.reads = p.reported ∧ p.calls = [] ∧ p.failed = none
  loop : s.pc = .loop ∨ s.pc = .read → Reading env s p
  read : s.pc = .read → s.i ∈ s.reads

/-- The next `read` of the pass. -/
theorem Reading.next {env : Env} {s : State} {p : Pass} (h : Reading env s p) (hmem : s.i ∈ s.reads) :
    p.calls ++ [s.i] = readTo env p.reported (s.i + 1) := by
  rw [readTo_succ h.above, if_pos (h.reads ▸ hmem), h.calls]

theorem inv_init (env : Env) : Inv env (init env) Pass.empty where
  watched := (insert_empty_eq env.lfd).symm
  range c hc := absurd hc (Finset.notMem_empty c)
  reported := by simp [Pass.empty]
  select _ := .inl ⟨rfl, env.lfd + 1, Nat.lt_succ_self _, readTo_start.symm⟩
  test h := nomatch h
  loop h := by rcases h with h | h <;> cases h
  read h := nomatch h

theorem Inv.step {env : Env} {s s' : State} {p : Pass} {a : Act} (hi : Inv env s p)
    (h : step env s a = some s') : Inv env s' (record s a p) := by
  cases step_move h with
  | select hpc hsub =>
    refine ⟨hi.watched, hi.range, ?_, nofun, fun _ => ⟨rfl, rfl, rfl⟩, by simp, nofun⟩
    intro fd hfd
    have hw := hsub hfd
    rw [hi.watched, Finset.mem_insert] at hw
    exact hw.imp_right (hi.range fd)
  | @accept cfd hpc hlt =>
    obtain ⟨hreads, hcalls, hfailed⟩ := hi.test hpc
    have hmax : s.maxFd ≤ (if cfd > s.maxFd then cfd else s.maxFd) ∧
        cfd ≤ (if cfd > s.maxFd then cfd else s.maxFd) := by
      split <;> omega
    refine ⟨?_, ?_, ?_, nofun, nofun, fun _ => ?_, nofun⟩
    · rw [hi.watched, Finset.insert_comm]
    · intro c hc
      rcases Finset.mem_insert.1 hc with rfl | hc
      · exact ⟨hlt, hmax.2⟩
      · exact ⟨(hi.range c hc).1, (hi.range c hc).2.trans hmax.1⟩
    · intro fd hfd
      exact (hi.reported fd hfd).imp_right fun hr => ⟨hr.1, hr.2.trans hmax.1⟩
    · exact ⟨hreads, Nat.lt_succ_self _, hcalls.trans readTo_start.symm, hfailed⟩
  | quiet hpc =>
    obtain ⟨hreads, hcalls, hfailed⟩ := hi.test hpc
    exact ⟨hi.watched, hi.range, hi.reported, nofun, nofun,
      fun _ => ⟨hreads, Nat.lt_succ_self _, hcalls.trans readTo_start.symm, hfailed⟩, nofun⟩
  | skip hpc hn =>
    obtain ⟨hreads, habove, hcalls, hfailed⟩ := hi.loop (.inl hpc)
    refine ⟨hi.watched, hi.range, hi.reported, nofun, nofun, fun _ => ?_, nofun⟩
    refine ⟨hreads, Nat.lt_succ_of_lt habove, ?_, hfailed⟩
    show p.calls = readTo env p.reported (s.i + 1)
    rw [readTo_succ habove, if_neg (hreads ▸ hn), List.append_nil, hcalls]
  | found hpc hmem =>
    exact ⟨hi.watched, hi.range, hi.reported, nofun, nofun,
      fun _ => ⟨(hi.loop (.inl hpc)).reads, (hi.loop (.inl hpc)).above, (hi.loop (.inl hpc)).calls,
        (hi.loop (.inl hpc)).failed⟩, fun _ => hmem⟩
  | done hpc hlt =>
    have hl := hi.loop (.inl hpc)
    exact ⟨hi.watched, hi.range, hi.reported, fun _ => .inl ⟨hl.failed, s.i, hlt, hl.calls⟩, nofun,
      by simp, nofun⟩
  | data hpc =>
    have hl := hi.loop (.inr hpc)
    exact ⟨hi.watched, hi.range, hi.reported, nofun, nofun,
      fun _ => ⟨hl.reads, Nat.lt_succ_of_lt hl.above, hl.next (hi.read hpc), hl.failed⟩, nofun⟩
  | eof hpc =>
    have hl := hi.loop (.inr hpc)
    refine ⟨?_, ?_, hi.reported, nofun, nofun,
      fun _ => ⟨hl.reads, Nat.lt_succ_of_lt hl.above, hl.next (hi.read hpc), hl.failed⟩, nofun⟩
    · show s.clientFds.erase s.i = insert env.lfd (s.clients.erase s.i)
      rw [hi.watched, Finset.erase_insert_of_ne (Nat.ne_of_lt hl.above)]
    · intro c hc
      exact hi.range c (Finset.mem_of_mem_erase hc)
  | error hpc =>
    have hl := hi.loop (.inr hpc)
    exact ⟨hi.watched, hi.range, hi.reported, fun _ => .inr ⟨s.i, rfl, hl.next (hi.read hpc)⟩,
      nofun, by simp, nofun⟩

theorem inv_of_run {env : Env} {x : State × Pass}
    (h : Lts.Run (passStep env) Lts.Free (init env, Pass.empty) x) : Inv env x.1 x.2 := by
  apply h.inv (P := fun x => Inv env x.1 x.2) (inv_init env)
  intro x a x' hi _ hs
  obtain ⟨hs, hp⟩ := Lts.withHist_eq_some.1 hs
  rw [hp]
  exact hi.step hs

/-! ## Results -/

section
variable {env : Env} {s : State} {p : Pass} (hi : Inv env s p)
include hi

/-- Wherever the pass is, it has read what was reported below some descriptor. -/
theorem Inv.calls_eq : ∃ n, p.calls = readTo env p.reported n := by
  cases hpc : s.pc with
  | select =>
    rcases hi.select hpc with ⟨-, n, -, hn⟩ | ⟨g, -, hg⟩
    · exact ⟨n, hn⟩
    · exact ⟨g + 1, hg⟩
  | test => exact ⟨env.lfd + 1, (hi.test hpc).2.1.trans readTo_start.symm⟩
  | loop => exact ⟨s.i, (hi.loop (.inl hpc)).calls⟩
  | read => exact ⟨s.i, (hi.loop (.inr hpc)).calls⟩

end

/-- Descriptor 3 listens. -/
def env3 : Env := ⟨3, {0, 1, 2, 3}, by decide, by decide⟩

/-- Two clients connect; the first one leaves, and its descriptor goes to a third; then both are
ready, and the second `read` fails. -/
def threeClients : List Act :=
  Lts.repeats [(1, .select {3}), (3, .main), (1, .select {3, 4}), (2, .main), (1, .read .eof),
    (2, .main), (1, .select {3}), (4, .main), (1, .select {4, 5}), (2, .main),
    (1, .read (.data (CLib.ascii "hi"))), (1, .main), (1, .read .error)]

end Select
