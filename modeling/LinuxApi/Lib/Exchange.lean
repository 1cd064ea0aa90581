import LinuxApi.Lib.Transition

/-!
# Questions and answers over datagrams

Any number of askers put questions to a server that answers each of them with `f`. An asker waits
for an answer before it asks again, and asks once. The network delivers what is in flight in any
order; it may lose a datagram, and deliver one twice.

Without duplication an asker is in one of four phases (`Phase`), so it gets the answers to its own
questions in their order (`Phase.answered`) until one of its datagrams is lost, and nothing after
that (`lost_got`). With duplication every answer is still one to an own question asked before
(`Own`).
-/

set_option autoImplicit false

namespace Exchange

/-! ## The network and its ends -/

inductive Packet (ι Q R : Type)
  | ask (i : ι) (q : Q)
  | answer (i : ι) (r : R)
deriving DecidableEq, Repr

structure State (ι Q R : Type) where
  asked : ι → List Q
  got : ι → List R
  served : List (ι × Q)          -- the questions that reached the server
  net : List (Packet ι Q R)      -- in flight
  lost : List ι                  -- whose datagrams were lost

/-- Nothing was asked. -/
def init (ι Q R : Type) : State ι Q R := ⟨fun _ => [], fun _ => [], [], [], []⟩

inductive Act (ι Q : Type)
  | ask (i : ι) (q : Q)
  | serve (k : Nat)
  | deliver (k : Nat)
  | lose (k : Nat)
  | double (k : Nat)
deriving DecidableEq, Repr

section
variable {ι Q R : Type}

/-- Who asks, or gets the answer. -/
def Packet.asker : Packet ι Q R → ι
  | ask i _ => i
  | answer i _ => i

@[simp] theorem Packet.asker_ask (i : ι) (q : Q) : (ask i q : Packet ι Q R).asker = i := rfl

@[simp] theorem Packet.asker_answer (i : ι) (r : R) : (answer i r : Packet ι Q R).asker = i := rfl

/-- Nothing is duplicated. -/
def Single (_ : State ι Q R) (a : Act ι Q) : Prop := ∀ k, a ≠ .double k

variable [DecidableEq ι]

def step (f : Q → R) (s : State ι Q R) : Act ι Q → Option (State ι Q R)
  | .ask i q =>
    if (s.asked i).length = (s.got i).length then
      some { s with
        asked := Function.update s.asked i (s.asked i ++ [q])
        net := s.net ++ [.ask i q] }
    else none
  | .serve k =>
    match s.net[k]? with
    | some (.ask i q) =>
      some { s with
        served := s.served ++ [(i, q)]
        net := s.net.eraseIdx k ++ [.answer i (f q)] }
    | _ => none
  | .deliver k =>
    match s.net[k]? with
    | some (.answer i r) =>
      if (s.got i).length < (s.asked i).length then
        some { s with
          got := Function.update s.got i (s.got i ++ [r])
          net := s.net.eraseIdx k }
      else none
    | _ => none
  | .lose k =>
    match s.net[k]? with
    | some p => some { s with net := s.net.eraseIdx k, lost := p.asker :: s.lost }
    | none => none
  | .double k =>
    match s.net[k]? with
    | some p => some { s with net := s.net ++ [p] }
    | none => none

section
variable {f : Q → R} {s : State ι Q R} {i : ι} {k : Nat}

theorem step_ask (q : Q) (h : (s.asked i).length = (s.got i).length) :
    step f s (.ask i q) = some { s with
      asked := Function.update s.asked i (s.asked i ++ [q])
      net := s.net ++ [.ask i q] } :=
  if_pos h

theorem step_serve {q : Q} (h : s.net[k]? = some (.ask i q)) :
    step f s (.serve k) = some { s with
      served := s.served ++ [(i, q)]
      net := s.net.eraseIdx k ++ [.answer i (f q)] } := by
  rw [step, h]

theorem step_deliver {r : R} (h : s.net[k]? = some (.answer i r))
    (hlen : (s.got i).length < (s.asked i).length) :
    step f s (.deliver k) = some { s with
      got := Function.update s.got i (s.got i ++ [r])
      net := s.net.eraseIdx k } := by
  simp only [step, h, if_pos hlen]

theorem step_lose {p : Packet ι Q R} (h : s.net[k]? = some p) :
    step f s (.lose k) = some { s with net := s.net.eraseIdx k, lost := p.asker :: s.lost } := by
  rw [step, h]

theorem step_double {p : Packet ι Q R} (h : s.net[k]? = some p) :
    step f s (.double k) = some { s with net := s.net ++ [p] } := by
  rw [step, h]

end

/-! ## What concerns one asker -/

structure View (ι Q R : Type) where
  asked : List Q
  got : List R
  served : List Q
  net : List (Packet ι Q R)
  lost : Prop

def State.servedOf (s : State ι Q R) (i : ι) : List Q :=
  s.served.filterMap fun x => if x.1 = i then some x.2 else none

def State.netOf (s : State ι Q R) (i : ι) : List (Packet ι Q R) :=
  s.net.filter fun p => p.asker = i

def State.view (s : State ι Q R) (i : ι) : View ι Q R :=
  ⟨s.asked i, s.got i, s.servedOf i, s.netOf i, i ∈ s.lost⟩

variable {f : Q → R} {s s' : State ι Q R} {i : ι}

/-- What is left of an asker's datagrams when one is taken. -/
theorem netOf_erase_self {k : Nat} {p : Packet ι Q R} (h : s.net[k]? = some p)
    (hi : p.asker = i) :
    (p :: (s.net.eraseIdx k).filter fun p => p.asker = i).Perm (s.netOf i) := by
  obtain ⟨hk, hp⟩ := List.getElem?_eq_some_iff.1 h
  have hperm := (List.getElem_cons_eraseIdx_perm hk).filter fun p => p.asker = i
  rwa [hp, List.filter_cons_of_pos (by simpa using hi)] at hperm

/-- The datagrams of the others stay. -/
theorem netOf_erase_ne {k : Nat} {p : Packet ι Q R} (h : s.net[k]? = some p)
    (hi : i ≠ p.asker) : (s.net.eraseIdx k).filter (fun p => p.asker = i) = s.netOf i := by
  obtain ⟨hk, hp⟩ := List.getElem?_eq_some_iff.1 h
  rw [State.netOf, List.eraseIdx_eq_take_drop_succ]
  conv_rhs => rw [← List.take_append_drop k s.net, List.drop_eq_getElem_cons hk, hp]
  rw [List.filter_append, List.filter_append, List.filter_cons_of_neg (by simpa using hi.symm)]

/-- What a step is about, and what it does. -/
inductive Event (f : Q → R) (s s' : State ι Q R) : Act ι Q → ι → Prop
  | ask (i : ι) (q : Q) :
      (s.asked i).length = (s.got i).length →
      s'.view i = ⟨s.asked i ++ [q], s.got i, s.servedOf i, s.netOf i ++ [.ask i q], i ∈ s.lost⟩ →
      Event f s s' (.ask i q) i
  | serve (i : ι) (k : Nat) (q : Q) (net : List (Packet ι Q R)) :
      (.ask i q :: net).Perm (s.netOf i) →
      s'.view i = ⟨s.asked i, s.got i, s.servedOf i ++ [q], net ++ [.answer i (f q)], i ∈ s.lost⟩ →
      Event f s s' (.serve k) i
  | deliver (i : ι) (k : Nat) (r : R) (net : List (Packet ι Q R)) :
      (s.got i).length < (s.asked i).length → (.answer i r :: net).Perm (s.netOf i) →
      s'.view i = ⟨s.asked i, s.got i ++ [r], s.servedOf i, net, i ∈ s.lost⟩ →
      Event f s s' (.deliver k) i
  | lose (i : ι) (k : Nat) (p : Packet ι Q R) (net : List (Packet ι Q R)) :
      (p :: net).Perm (s.netOf i) →
      s'.view i = ⟨s.asked i, s.got i, s.servedOf i, net, True⟩ →
      Event f s s' (.lose k) i
  | double (i : ι) (k : Nat) (p : Packet ι Q R) :
      p ∈ s.netOf i →
      s'.view i = ⟨s.asked i, s.got i, s.servedOf i, s.netOf i ++ [p], i ∈ s.lost⟩ →
      Event f s s' (.double k) i

/-- Every step is about one asker, and concerns no other. -/
theorem step_event {a : Act ι Q} (h : step f s a = some s') :
    ∃ i, Event f s s' a i ∧ ∀ j ≠ i, s'.view j = s.view j := by
  cases a with
  | ask i q =>
    simp only [step, Option.ite_none_right_eq_some, Option.some.injEq] at h
    obtain ⟨hlen, rfl⟩ := h
    refine ⟨i, .ask i q hlen ?_, ?_⟩
    · simp [State.view, State.servedOf, State.netOf]
    · intro j hj
      simp [State.view, State.servedOf, State.netOf, hj, hj.symm]
  | serve k =>
    simp only [step] at h
    split at h
    · rename_i i q hk
      obtain ⟨⟩ := h
      refine ⟨i, .serve i k q _ (netOf_erase_self hk rfl) ?_, ?_⟩
      · simp [State.view, State.servedOf, State.netOf]
      · intro j hj
        have hnet := netOf_erase_ne hk hj
        simp [State.view, State.servedOf, State.netOf, hj.symm, hnet]
    · cases h
  | deliver k =>
    simp only [step] at h
    split at h
    · rename_i i r hk
      simp only [Option.ite_none_right_eq_some, Option.some.injEq] at h
      obtain ⟨hlen, rfl⟩ := h
      refine ⟨i, .deliver i k r _ hlen (netOf_erase_self hk rfl) ?_, ?_⟩
      · simp [State.view, State.servedOf, State.netOf]
      · intro j hj
        have hnet := netOf_erase_ne hk hj
        simp [State.view, State.servedOf, State.netOf, hj, hnet]
    · cases h
  | lose k =>
    simp only [step] at h
    split at h
    · rename_i p hk
      obtain ⟨⟩ := h
      refine ⟨p.asker, .lose p.asker k p _ (netOf_erase_self hk rfl) ?_, ?_⟩
      · simp [State.view, State.servedOf, State.netOf]
      · intro j hj
        have hnet := netOf_erase_ne hk hj
        simp [State.view, State.servedOf, State.netOf, hj, hnet]
    · cases h
  | double k =>
    simp only [step] at h
    split at h
    · rename_i p hk
      obtain ⟨⟩ := h
      refine ⟨p.asker, .double p.asker k p ?_ ?_, ?_⟩
      · exact List.mem_filter.2 ⟨List.mem_of_getElem? hk, by simp⟩
      · simp [State.view, State.servedOf, State.netOf]
      · intro j hj
        simp [State.view, State.servedOf, State.netOf, hj.symm]
    · cases h

end

/-! ## Without duplication -/

section
variable {ι Q R : Type} {f : Q → R} {i : ι}

/-- Where an asker is with its last question. -/
inductive Phase (f : Q → R) (i : ι) (v : View ι Q R) : Prop
  | idle : v.got = v.asked.map f → v.served = v.asked → v.net = [] → ¬ v.lost → Phase f i v
  | asking (old : List Q) (q : Q) : v.asked = old ++ [q] → v.got = old.map f → v.served = old →
      v.net = [.ask i q] → ¬ v.lost → Phase f i v
  | answering (old : List Q) (q : Q) : v.asked = old ++ [q] → v.got = old.map f →
      v.served = old ++ [q] → v.net = [.answer i (f q)] → ¬ v.lost → Phase f i v
  | stuck (old : List Q) (q : Q) : v.asked = old ++ [q] → v.got = old.map f →
      v.served = old ∨ v.served = old ++ [q] → v.net = [] → v.lost → Phase f i v

/-- Only an idle asker has all its answers. -/
theorem Phase.idle_of {v : View ι Q R} (h : Phase f i v) (hlen : v.asked.length = v.got.length) :
    v.got = v.asked.map f ∧ v.served = v.asked ∧ v.net = [] ∧ ¬ v.lost := by
  cases h with
  | idle hg hs hn hl => exact ⟨hg, hs, hn, hl⟩
  | asking old q ha hg _ _ _ => simp [ha, hg] at hlen
  | answering old q ha hg _ _ _ => simp [ha, hg] at hlen
  | stuck old q ha hg _ _ _ => simp [ha, hg] at hlen

/-- What can be taken from the network. -/
theorem Phase.of_perm {v : View ι Q R} (h : Phase f i v) {p : Packet ι Q R}
    {net : List (Packet ι Q R)} (hp : (p :: net).Perm v.net) : net = [] ∧ ¬ v.lost ∧
      ∃ old q, v.asked = old ++ [q] ∧ v.got = old.map f ∧
        (p = .ask i q ∧ v.served = old ∨ p = .answer i (f q) ∧ v.served = old ++ [q]) := by
  cases h with
  | idle _ _ hn _ => simp [hn] at hp
  | asking old q ha hg hs hn hl =>
    rw [hn, List.perm_singleton, List.cons.injEq] at hp
    exact ⟨hp.2, hl, old, q, ha, hg, .inl ⟨hp.1, hs⟩⟩
  | answering old q ha hg hs hn hl =>
    rw [hn, List.perm_singleton, List.cons.injEq] at hp
    exact ⟨hp.2, hl, old, q, ha, hg, .inr ⟨hp.1, hs⟩⟩
  | stuck _ _ _ _ _ hn _ => simp [hn] at hp

/-- The answers are those to the own questions, in their order; the server has answered at most
one question more. -/
theorem Phase.answered {v : View ι Q R} (h : Phase f i v) :
    v.got = (v.asked.take v.got.length).map f ∧ v.served <+: v.asked ∧
      v.got.length ≤ v.served.length ∧ v.asked.length ≤ v.got.length + 1 := by
  cases h with
  | idle hg hs _ _ => simp [hg, hs]
  | asking old q ha hg hs _ _ => simp [ha, hg, hs]
  | answering old q ha hg hs _ _ => simp [ha, hg, hs]
  | stuck old q ha hg hs _ _ => rcases hs with hs | hs <;> simp [ha, hg, hs]

/-- An asker waits in vain exactly if a datagram of it was lost. -/
theorem Phase.vain_iff {v : View ι Q R} (h : Phase f i v) :
    v.got.length < v.asked.length ∧ v.net = [] ↔ v.lost := by
  cases h with
  | idle hg _ _ hl => simp [hg, hl]
  | asking old q ha hg _ hn hl => simp [ha, hg, hn, hl]
  | answering old q ha hg _ hn hl => simp [ha, hg, hn, hl]
  | stuck old q ha hg _ hn hl => simp [ha, hg, hn, hl]

end

section
variable {ι Q R : Type} [DecidableEq ι] {f : Q → R} {s s' : State ι Q R} {i : ι}

/-- Every step but a duplication leads from phase to phase. -/
theorem Phase.event {a : Act ι Q} (h : Phase f i (s.view i)) (he : Event f s s' a i)
    (hs : Single s a) : Phase f i (s'.view i) := by
  cases he with
  | ask i q hlen hv =>
    obtain ⟨hg, hsv, hn, hl⟩ := h.idle_of hlen
    have hnet : s.netOf i ++ [.ask i q] = [.ask i q] := by rw [show s.netOf i = [] from hn]; rfl
    rw [hv]
    exact .asking (s.asked i) q rfl hg hsv hnet hl
  | serve i k q net hp hv =>
    obtain ⟨rfl, hl, old, q', ha, hg, ⟨heq, hsv⟩ | ⟨heq, -⟩⟩ := h.of_perm hp
    · obtain ⟨⟩ := heq
      have hserved : s.servedOf i ++ [q] = old ++ [q] := congrArg (· ++ [q]) hsv
      rw [hv]
      exact .answering old q ha hg hserved rfl hl
    · cases heq
  | deliver i k r net hlen hp hv =>
    obtain ⟨rfl, hl, old, q, ha, hg, ⟨heq, -⟩ | ⟨heq, hsv⟩⟩ := h.of_perm hp
    · cases heq
    · obtain ⟨⟩ := heq
      have hgot : s.got i ++ [f q] = (s.asked i).map f := by
        rw [show s.asked i = old ++ [q] from ha, show s.got i = old.map f from hg,
          List.map_append, List.map_singleton]
      rw [hv]
      exact .idle hgot (hsv.trans ha.symm) rfl hl
  | lose i k p net hp hv =>
    obtain ⟨rfl, -, old, q, ha, hg, h⟩ := h.of_perm hp
    rw [hv]
    exact .stuck old q ha hg (h.imp And.right And.right) rfl trivial
  | double i k p => exact absurd rfl (hs k)

/-- In a run without duplication every asker is in one of the phases. -/
theorem phase_of_run (h : Lts.Run (step f) Single (init ι Q R) s) (i : ι) :
    Phase f i (s.view i) := by
  refine h.inv (P := fun s => Phase f i (s.view i)) (.idle rfl rfl rfl (by simp [State.view, init]))
    fun s a s' hp hs hst => ?_
  obtain ⟨j, he, hne⟩ := step_event hst
  by_cases hij : i = j
  · subst hij
    exact hp.event he hs
  · rw [hne i hij]
    exact hp

/-- After a loss nothing happens to the asker any more. -/
theorem view_of_lost {s₁ : State ι Q R} (h : Lts.Run (step f) Single (init ι Q R) s)
    (hl : i ∈ s.lost) (h' : Lts.Run (step f) Single s s₁) : s₁.view i = s.view i := by
  induction h' with
  | start => rfl
  | @next s₂ s₃ a hr hs hst ih =>
    have hp := phase_of_run (h.trans hr) i
    rw [ih] at hp
    obtain ⟨j, he, hne⟩ := step_event hst
    by_cases hij : i = j
    · subst hij
      obtain ⟨hlen, hnet⟩ := hp.vain_iff.2 hl
      have hown : s₂.netOf i = [] := (congrArg View.net ih).trans hnet
      cases he with
      | ask i q hlen' hv =>
        have ha : s₂.asked i = s.asked i := congrArg View.asked ih
        have hg : s₂.got i = s.got i := congrArg View.got ih
        rw [ha, hg] at hlen'
        exact absurd hlen' (Nat.ne_of_gt hlen)
      | serve i k q net hperm _ => simp [hown] at hperm
      | deliver i k r net _ hperm _ => simp [hown] at hperm
      | lose i k p net hperm _ => simp [hown] at hperm
      | double i k p hm _ => simp [hown] at hm
    · rw [hne i hij, ih]

/-! ## With duplication -/

/-- What there is of an asker, when datagrams may come twice. -/
structure Own (f : Q → R) (i : ι) (v : View ι Q R) : Prop where
  length : v.got.length ≤ v.asked.length ∧ v.asked.length ≤ v.got.length + 1
  net : ∀ p ∈ v.net, ∃ q ∈ v.asked, p = .ask i q ∨ p = .answer i (f q)
  served : ∀ q ∈ v.served, q ∈ v.asked
  got : ∀ (n : Nat) (r : R), v.got[n]? = some r → ∃ q ∈ v.asked.take (n + 1), r = f q

theorem Own.event {a : Act ι Q} (h : Own f i (s.view i)) (he : Event f s s' a i) :
    Own f i (s'.view i) := by
  cases he with
  | ask i q hlen hv =>
    rw [hv]
    refine ⟨?_, ?_, ?_, ?_⟩
    · simp only [List.length_append, List.length_singleton]
      omega
    · intro p hp
      rcases List.mem_append.1 hp with hp | hp
      · obtain ⟨q', hq, hpq⟩ := h.net p hp
        exact ⟨q', List.mem_append_left _ hq, hpq⟩
      · exact ⟨q, by simp, .inl (List.mem_singleton.1 hp)⟩
    · exact fun q' hq => List.mem_append_left _ (h.served q' hq)
    · intro n r hn
      obtain ⟨q', hq, hr⟩ := h.got n r hn
      exact ⟨q', ((List.prefix_append _ _).take (n + 1)).subset hq, hr⟩
  | serve i k q net hperm hv =>
    have hsub : ∀ p ∈ net, p ∈ s.netOf i := fun p hp => hperm.subset (List.mem_cons_of_mem _ hp)
    obtain ⟨q', hq, hpq⟩ := h.net _ (hperm.subset List.mem_cons_self)
    obtain rfl : q = q' := by simpa using hpq
    rw [hv]
    refine ⟨h.length, ?_, ?_, h.got⟩
    · intro p hp
      rcases List.mem_append.1 hp with hp | hp
      · exact h.net p (hsub p hp)
      · exact ⟨q, hq, .inr (List.mem_singleton.1 hp)⟩
    · intro q' hq'
      rcases List.mem_append.1 hq' with hq' | hq'
      · exact h.served q' hq'
      · rwa [List.mem_singleton.1 hq']
  | deliver i k r net hlen hperm hv =>
    have hlen' : (s.asked i).length = (s.got i).length + 1 := by
      have := h.length.2
      change (s.asked i).length ≤ (s.got i).length + 1 at this
      omega
    obtain ⟨q, hq, hpq⟩ := h.net _ (hperm.subset List.mem_cons_self)
    obtain rfl : r = f q := by simpa using hpq
    rw [hv]
    refine ⟨?_, fun p hp => h.net p (hperm.subset (List.mem_cons_of_mem _ hp)), h.served, ?_⟩
    · simp only [List.length_append, List.length_singleton]
      omega
    · intro n r hn
      rw [List.getElem?_append] at hn
      split at hn
      · exact h.got n r hn
      · rw [List.getElem?_singleton, Option.ite_none_right_eq_some, Option.some_inj] at hn
        refine ⟨q, ?_, hn.2.symm⟩
        have hle : (s.asked i).length ≤ n + 1 := by omega
        rwa [List.take_of_length_le hle]
  | lose i k p net hperm hv =>
    rw [hv]
    exact ⟨h.length, fun p hp => h.net p (hperm.subset (List.mem_cons_of_mem _ hp)), h.served,
      h.got⟩
  | double i k p hm hv =>
    rw [hv]
    refine ⟨h.length, ?_, h.served, h.got⟩
    intro p' hp
    rcases List.mem_append.1 hp with hp | hp
    · exact h.net p' hp
    · rw [List.mem_singleton.1 hp]
      exact h.net p hm

/-- In every run, whatever the network does, an asker gets answers to its own questions only. -/
theorem own_of_run (h : Lts.Run (step f) Lts.Free (init ι Q R) s) (i : ι) :
    Own f i (s.view i) := by
  have hinit : Own f i ((init ι Q R).view i) := by
    refine ⟨by simp [State.view, init], ?_, ?_, ?_⟩ <;>
      simp [State.view, State.netOf, State.servedOf, init]
  refine h.inv (P := fun s => Own f i (s.view i)) hinit fun s a s' hp _ hst => ?_
  obtain ⟨j, he, hne⟩ := step_event hst
  by_cases hij : i = j
  · subst hij
    exact hp.event he
  · rw [hne i hij]
    exact hp

end

end Exchange
