import LinuxApi.Lib.Threads
import LinuxApi.Thread.Cond

/-!
# Hand-over and wake-ups in `cond_thread.c`

The mutex is owned by whoever is inside its critical section. With it: the list is what has been
pushed since the last drain began less what that drain has taken, so every value is on the list
or consumed, once (`Inv.order`, `Inv.made`); and while the list is not empty, the producer is
about to signal or some consumer is awake (`Inv.awake`). The main result is `handed_over`.
-/

set_option autoImplicit false

namespace CondThread

open Threads

/-! ## Steps, case by case -/

/-- A step of consumer `i`, `consumerStep` as a relation. -/
inductive ConsumerMove (i : Nat) (mutex : Option Owner) (head : List Int) :
    Consumer → Option Owner → List Int → Consumer → Prop
  | acquire {c : Consumer} : c = .lock ∨ c = .woken → mutex = none →
      ConsumerMove i mutex head c (some (.consumer i)) head .test
  | empty : head = [] → ConsumerMove i mutex head .test mutex head .wait
  | filled : head ≠ [] → ConsumerMove i mutex head .test mutex head .drainTest
  | sleep : ConsumerMove i mutex head .wait none head .asleep
  | drained : head = [] → ConsumerMove i mutex head .drainTest mutex head .unlock
  | more : head ≠ [] → ConsumerMove i mutex head .drainTest mutex head .drain
  | drain {v : Int} {next : List Int} : head = v :: next →
      ConsumerMove i mutex head .drain mutex next .drainTest
  | release : ConsumerMove i mutex head .unlock none head .lock

theorem consumer_move {i : Nat} {m m' : Option Owner} {head head' : List Int} {c c' : Consumer}
    (h : consumerStep i m head c = some (m', head', c')) : ConsumerMove i m head c m' head' c' := by
  cases c <;> simp only [consumerStep] at h
  case lock | woken =>
    split at h
    · obtain ⟨⟩ := h
      exact .acquire (by simp) (by assumption)
    · cases h
  case test =>
    obtain ⟨⟩ := h
    split
    · exact .empty (by assumption)
    · exact .filled (by assumption)
  case wait => obtain ⟨⟩ := h; exact .sleep
  case asleep => cases h
  case drainTest =>
    obtain ⟨⟩ := h
    split
    · exact .drained (by assumption)
    · exact .more (by assumption)
  case drain =>
    split at h
    · obtain ⟨⟩ := h
      exact .drain rfl
    · cases h
  case unlock => obtain ⟨⟩ := h; exact .release

/-- A step of the program. -/
inductive StepMove (s : State) : Act → State → Prop
  | alloc : s.producer.pc = .alloc → s.beginnum < CInt.max →
      StepMove s .producer { s with beginnum := s.beginnum + 1, producer := ⟨.lock, s.beginnum⟩ }
  | lock : s.producer.pc = .lock → s.mutex = none →
      StepMove s .producer
        { s with mutex := some .producer, producer := { s.producer with pc := .push } }
  | push : s.producer.pc = .push →
      StepMove s .producer
        { s with
          head := s.producer.val :: s.head
          producer := { s.producer with pc := .unlock } }
  | unlock : s.producer.pc = .unlock →
      StepMove s .producer { s with mutex := none, producer := { s.producer with pc := .signal } }
  | signal {woken : List Nat} {cs : List Consumer} : s.producer.pc = .signal →
      signalCond s.consumers woken = some cs →
      StepMove s (.signal woken)
        { s with consumers := cs, producer := { s.producer with pc := .alloc } }
  | consumer {i : Nat} {c c' : Consumer} {m' : Option Owner} {head' : List Int} :
      s.consumers[i]? = some c → ConsumerMove i s.mutex s.head c m' head' c' →
      StepMove s (.consumer i)
        { s with mutex := m', head := head', consumers := s.consumers.set i c' }
  | spurious {i : Nat} : s.consumers[i]? = some .asleep →
      StepMove s (.spurious i) { s with consumers := s.consumers.set i .woken }

theorem step_move {s s' : State} {a : Act} (h : step s a = some s') : StepMove s a s' := by
  cases a with
  | producer =>
    simp only [step, stepProducer] at h
    cases hpc : s.producer.pc <;> simp only [hpc] at h
    case alloc =>
      obtain ⟨n, hn, rfl⟩ := Option.map_eq_some_iff.1 h
      obtain ⟨hlt, rfl⟩ := CInt.incr_eq_some.1 hn
      exact .alloc hpc hlt
    case lock =>
      split at h
      · obtain ⟨⟩ := h
        exact .lock hpc (by assumption)
      · cases h
    case push => obtain ⟨⟩ := h; exact .push hpc
    case unlock => obtain ⟨⟩ := h; exact .unlock hpc
    case signal => cases h
  | signal woken =>
    simp only [step, stepSignal] at h
    split at h
    · obtain ⟨cs, hcs, rfl⟩ := Option.map_eq_some_iff.1 h
      exact .signal (by assumption) hcs
    · cases h
  | consumer i =>
    simp only [step, stepConsumer] at h
    split at h
    · rename_i c hc
      obtain ⟨⟨m', head', c'⟩, hx, rfl⟩ := Option.map_eq_some_iff.1 h
      exact .consumer hc (consumer_move hx)
    · cases h
  | spurious i =>
    simp only [step] at h
    split at h
    · obtain ⟨⟩ := h
      exact .spurious (by assumption)
    · cases h

/-! ## Wake-ups -/

section
variable {cs cs' : List Consumer} {woken : List Nat} (h : signalCond cs woken = some cs')
include h

theorem signalCond_cases {i : Nat} {c' : Consumer} (hc : cs'[i]? = some c') :
    cs[i]? = some c' ∨ cs[i]? = some .asleep ∧ c' = .woken := by
  simp only [signalCond, Option.ite_none_right_eq_some, Option.some.injEq] at h
  obtain ⟨⟨hw, -⟩, rfl⟩ := h
  rw [List.getElem?_mapIdx] at hc
  obtain ⟨c, hc0, rfl⟩ := Option.map_eq_some_iff.1 hc
  by_cases hi : i ∈ woken
  · exact .inr ⟨hw i hi, if_pos hi⟩
  · rw [if_neg hi]
    exact .inl hc0

/-- A consumer that is awake is not touched. -/
theorem signalCond_still {i : Nat} {c : Consumer} (hc : cs[i]? = some c) (hne : c ≠ .asleep) :
    cs'[i]? = some c := by
  simp only [signalCond, Option.ite_none_right_eq_some, Option.some.injEq] at h
  obtain ⟨⟨hw, -⟩, rfl⟩ := h
  rw [List.getElem?_mapIdx, hc, Option.map_some, if_neg]
  intro hi
  exact hne (Option.some.inj (hc.symm.trans (hw i hi)))

theorem signalCond_length : cs'.length = cs.length := by
  simp only [signalCond, Option.ite_none_right_eq_some, Option.some.injEq] at h
  obtain ⟨-, rfl⟩ := h
  exact List.length_mapIdx

/-- After the signal somebody is awake. -/
theorem signalCond_awake (hpos : 0 < cs.length) : ∃ (i : Nat) (c : Consumer),
    cs'[i]? = some c ∧ c ≠ .asleep := by
  simp only [signalCond, Option.ite_none_right_eq_some, Option.some.injEq] at h
  obtain ⟨⟨hw, hn⟩, rfl⟩ := h
  cases woken with
  | nil =>
    have hc : cs[0]? = some cs[0] := List.getElem?_eq_getElem hpos
    refine ⟨0, cs[0], by simp [hc], ?_⟩
    intro he
    exact hn rfl (he ▸ List.getElem_mem hpos)
  | cons i woken => exact ⟨i, .woken, by simp [hw i List.mem_cons_self], by simp⟩

end

/-- Where a consumer is after a step: where it was, or woken, unless the step is its own. -/
theorem StepMove.consumer_cases {s s' : State} {a : Act} (h : StepMove s a s') {j : Nat}
    {c' : Consumer} (hc : s'.consumers[j]? = some c') :
    (a ≠ .consumer j ∧
      (s.consumers[j]? = some c' ∨ s.consumers[j]? = some .asleep ∧ c' = .woken)) ∨
      ∃ c, a = .consumer j ∧ s.consumers[j]? = some c ∧
        ConsumerMove j s.mutex s.head c s'.mutex s'.head c' := by
  cases h with
  | @consumer i c c1 m' head' hi hm =>
    obtain ⟨rfl, rfl⟩ | ⟨hne, hc⟩ := getElem?_set_cases hc
    · exact .inr ⟨c, rfl, hi, hm⟩
    · refine .inl ⟨?_, .inl hc⟩
      intro he
      cases he
      exact hne rfl
  | @spurious i hi =>
    refine .inl ⟨nofun, ?_⟩
    obtain ⟨rfl, rfl⟩ | ⟨hne, hc⟩ := getElem?_set_cases hc
    · exact .inr ⟨hi, rfl⟩
    · exact .inl hc
  | signal _ hcs => exact .inl ⟨nofun, signalCond_cases hcs hc⟩
  | _ => exact .inl ⟨nofun, .inl hc⟩

/-- A consumer that is awake stays where it is in a step that is not its own. -/
theorem StepMove.still {s s' : State} {a : Act} (h : StepMove s a s') {j : Nat} {c : Consumer}
    (hc : s.consumers[j]? = some c) (hne : c ≠ .asleep) (ha : a ≠ .consumer j) :
    s'.consumers[j]? = some c := by
  cases h with
  | @consumer i c0 c1 m' head' hi hm =>
    have hij : i ≠ j := fun he => ha (by rw [he])
    rw [← hc]
    exact List.getElem?_set_ne hij
  | @spurious i hi =>
    have hij : i ≠ j := by
      rintro rfl
      exact hne (Option.some.inj (hc.symm.trans hi))
    rw [← hc]
    exact List.getElem?_set_ne hij
  | signal _ hcs => exact signalCond_still hcs hc hne
  | _ => exact hc

/-! ## The critical sections -/

/-- The consumer is inside its critical section. -/
def Consumer.inside : Consumer → Bool
  | .test | .wait | .drainTest | .drain | .unlock => true
  | _ => false

def Holds (s : State) : Owner → Prop
  | .producer => s.producer.pc = .push ∨ s.producer.pc = .unlock
  | .consumer i => ∃ c, s.consumers[i]? = some c ∧ c.inside = true

theorem ConsumerMove.mutexStep {i : Nat} {s s' : State} {c c' : Consumer}
    (h : ConsumerMove i s.mutex s.head c s'.mutex s'.head c') (hc : s.consumers[i]? = some c)
    (hc' : s'.consumers[i]? = some c') :
    MutexStep (.consumer i) (Holds s) (Holds s') s.mutex s'.mutex := by
  generalize hm : s'.mutex = m' at h ⊢
  generalize s'.head = head' at h
  have hin : Holds s' (.consumer i) ↔ c'.inside = true := by simp [Holds, hc']
  have hin0 : Holds s (.consumer i) ↔ c.inside = true := by simp [Holds, hc]
  cases h with
  | acquire _ hn => exact .acquire hn rfl
  | sleep | release => exact .release (hin0.2 rfl) (by rw [hin]; nofun)
  | _ => exact .keep rfl fun _ => hin0.2 rfl

theorem StepMove.excl {s s' : State} {a : Act} (h : StepMove s a s')
    (hx : Excl (Holds s) s.mutex) : Excl (Holds s') s'.mutex := by
  have hother : ∀ j, a ≠ .consumer j → Holds s' (.consumer j) → Holds s (.consumer j) := by
    rintro j ha ⟨c', hc', hin⟩
    obtain ⟨-, hc | ⟨-, rfl⟩⟩ | ⟨c, rfl, -⟩ := h.consumer_cases hc'
    · exact ⟨c', hc, hin⟩
    · cases hin
    · exact absurd rfl ha
  by_cases ha : ∃ i, a = .consumer i
  · obtain ⟨i, rfl⟩ := ha
    obtain ⟨c', hc'⟩ : ∃ c', s'.consumers[i]? = some c' := by
      cases h with
      | consumer hi => exact ⟨_, getElem?_set_of_some _ hi⟩
    have hp : s'.producer = s.producer := by cases h; rfl
    obtain ⟨hne, -⟩ | ⟨c, -, hc, hm⟩ := h.consumer_cases hc'
    · exact absurd rfl hne
    · apply hx.step (hm.mutexStep hc hc')
      intro o ho hh
      cases o with
      | producer => rw [Holds, hp] at hh; exact hh
      | consumer j => exact hother j (fun he => ho (by cases he; rfl)) hh
  · have hoth : ∀ o, o ≠ .producer → Holds s' o → Holds s o := by
      intro o ho hh
      cases o with
      | producer => exact absurd rfl ho
      | consumer j => exact hother j (fun he => ha ⟨j, he⟩) hh
    refine hx.step (i := .producer) ?_ hoth
    cases h with
    | alloc hpc => exact .keep rfl (by rintro (h | h) <;> cases h)
    | lock hpc hn => exact .acquire hn rfl
    | push hpc => exact .keep rfl fun _ => .inl hpc
    | unlock hpc => exact .release (.inr hpc) (by rintro (h | h) <;> cases h)
    | signal hpc => exact .keep rfl (by rintro (h | h) <;> cases h)
    | spurious => exact .keep rfl id
    | @consumer i => exact absurd ⟨i, rfl⟩ ha

/-! ## The list -/

/-- Consumer `i` is in the drain loop. -/
def Draining (s : State) (i : Nat) : Prop :=
  s.consumers[i]? = some .drainTest ∨ s.consumers[i]? = some .drain

theorem Draining.holds {s : State} {i : Nat} (h : Draining s i) : Holds s (.consumer i) := by
  rcases h with h | h
  · exact ⟨_, h, rfl⟩
  · exact ⟨_, h, rfl⟩

theorem StepMove.draining {s s' : State} {a : Act} (h : StepMove s a s') {i : Nat}
    (hd : Draining s i) (ha : a ≠ .consumer i) : Draining s' i := by
  rcases hd with hd | hd
  · exact .inl (h.still hd nofun ha)
  · exact .inr (h.still hd nofun ha)

structure Inv (s : State) (h : Hist) : Prop where
  excl : Excl (Holds s) s.mutex
  wait : ∀ i : Nat, s.consumers[i]? = some .wait → s.head = []
  cur : (∀ i, ¬ Draining s i) → h.cur = []
  order : h.produced = (h.drains.map List.reverse).flatten ++ (h.cur ++ s.head).reverse
  made : h.produced = CInt.values 100 h.produced.length
  val : s.producer.pc = .lock ∨ s.producer.pc = .push → s.producer.val = 100 + h.produced.length
  next : s.beginnum = 100 + h.produced.length +
    if s.producer.pc = .lock ∨ s.producer.pc = .push then 1 else 0
  awake : 0 < s.consumers.length → s.head ≠ [] → s.producer.pc ≠ .unlock →
    s.producer.pc ≠ .signal → ∃ (i : Nat) (c : Consumer), s.consumers[i]? = some c ∧ c ≠ .asleep

theorem inv_init (n : Nat) : Inv (init n) Hist.empty := by
  refine ⟨?_, ?_, fun _ => rfl, rfl, rfl, ?_, rfl, fun _ hne => absurd rfl hne⟩
  · rintro (_ | i) hh
    · rcases hh with h | h <;> cases h
    · obtain ⟨c, hc, hin⟩ := hh
      obtain ⟨-, rfl⟩ := by simpa [init, List.getElem?_replicate] using hc
      cases hin
  · intro i hi
    simp [init, List.getElem?_replicate] at hi
  · rintro (h | h) <;> cases h

section
variable {s s' : State} {a : Act} {h : Hist} (hi : Inv s h) (hm : StepMove s a s')
include hi hm

/-- A consumer about to wait has found the list empty, and has had the mutex since. -/
theorem Inv.wait_step {j : Nat} (hj : s'.consumers[j]? = some .wait) : s'.head = [] := by
  obtain ⟨ha, hj | ⟨-, he⟩⟩ | ⟨c, rfl, hc, hcm⟩ := hm.consumer_cases hj
  · have h0 := hi.wait j hj
    cases hm with
    | push hpc => cases hi.excl.unique (i := .producer) (.inl hpc) (j := .consumer j) ⟨_, hj, rfl⟩
    | @consumer i c c' m' head' hci hcm =>
      cases hcm with
      | drain he => rw [he] at h0; cases h0
      | _ => exact h0
    | _ => exact h0
  · cases he
  · generalize s'.mutex = m' at hcm
    generalize s'.head = head' at hcm ⊢
    cases hcm with
    | empty he => exact he

theorem Inv.cur_step (hn : ∀ i, ¬ Draining s' i) : (record s a h).cur = [] := by
  by_cases ha : ∃ i, a = .consumer i ∧ Draining s i
  · obtain ⟨i, rfl, hd⟩ := ha
    cases hm with
    | @consumer i c c' m' head' hci hcm =>
      have hself : (s.consumers.set i c')[i]? = some c' := getElem?_set_of_some _ hci
      cases hcm with
      | drained he => simp [record, hci, he]
      | more => exact absurd (.inr hself) (hn i)
      | drain => exact absurd (.inl hself) (hn i)
      | acquire hor =>
        rcases hor with rfl | rfl <;> simp [Draining, hci] at hd
      | _ => simp [Draining, hci] at hd
  · have hnd : ∀ i, ¬ Draining s i := by
      intro i hd
      exact hn i (hm.draining hd fun he => ha ⟨i, he, hd⟩)
    have h0 := hi.cur hnd
    cases a with
    | producer => simp only [record]; split <;> exact h0
    | consumer i =>
      simp only [record]
      split
      · rename_i hc
        exact absurd (.inr hc) (hnd i)
      · rename_i hc
        exact absurd (.inl hc) (hnd i)
      · exact h0
    | _ => exact h0

omit hm in
/-- While the producer holds the mutex nobody drains. -/
theorem Inv.cur_push (hpc : s.producer.pc = .push) : h.cur = [] := by
  apply hi.cur
  intro i hd
  cases hi.excl.unique (i := .producer) (.inl hpc) hd.holds

theorem Inv.order_step : (record s a h).produced =
    ((record s a h).drains.map List.reverse).flatten ++
      ((record s a h).cur ++ s'.head).reverse := by
  have h0 := hi.order
  cases hm with
  | push hpc =>
    have hc := hi.cur_push hpc
    simp [record, hpc, h0, hc]
  | @consumer i c c' m' head' hci hcm =>
    simp only [record, hci]
    cases hcm with
    | drain he => simp [h0, he]
    | drained he => simp [h0, he]
    | more he => simpa [he] using h0
    | acquire hor => rcases hor with rfl | rfl <;> exact h0
    | _ => exact h0
  | lock hpc | alloc hpc | unlock hpc => simpa [record, hpc] using h0
  | _ => exact h0

theorem Inv.made_step :
    (record s a h).produced = CInt.values 100 (record s a h).produced.length ∧
    (s'.producer.pc = .lock ∨ s'.producer.pc = .push →
      s'.producer.val = 100 + (record s a h).produced.length) ∧
    s'.beginnum = 100 + (record s a h).produced.length +
      if s'.producer.pc = .lock ∨ s'.producer.pc = .push then 1 else 0 := by
  have hmade := hi.made
  have hval := hi.val
  have hnext := hi.next
  cases hm with
  | alloc hpc =>
    simp only [hpc, reduceCtorEq, or_self, if_false, Int.add_zero] at hnext
    simp only [record, hpc, reduceCtorEq, if_false, true_or, if_true]
    exact ⟨hmade, fun _ => hnext, by rw [hnext]⟩
  | push hpc =>
    have hv := hval (.inr hpc)
    simp only [hpc, or_true, if_true] at hnext
    simp only [record, hpc, if_true, List.length_append, List.length_singleton, reduceCtorEq,
      or_self, if_false, false_implies, true_and]
    refine ⟨?_, by push_cast; omega⟩
    rw [CInt.values_succ, ← hmade, hv]
  | lock hpc =>
    have hv := hval (.inl hpc)
    simp only [hpc, true_or, if_true] at hnext
    simp only [record, hpc, reduceCtorEq, if_false, or_true, if_true]
    exact ⟨hmade, fun _ => hv, hnext⟩
  | unlock hpc | signal hpc =>
    simp only [hpc, reduceCtorEq, or_self, if_false] at hnext
    simp only [record, hpc, reduceCtorEq, or_self, if_false, false_implies, true_and]
    exact ⟨hmade, hnext⟩
  | @consumer i c c' m' head' hci hcm =>
    have hp : (record s (.consumer i) h).produced = h.produced := by
      simp only [record]
      split <;> try rfl
      split <;> rfl
    rw [hp]
    exact ⟨hmade, hval, hnext⟩
  | spurious => exact ⟨hmade, hval, hnext⟩

theorem Inv.awake_step (hpos : 0 < s'.consumers.length) (hne : s'.head ≠ [])
    (hu : s'.producer.pc ≠ .unlock) (hs : s'.producer.pc ≠ .signal) :
    ∃ (i : Nat) (c : Consumer), s'.consumers[i]? = some c ∧ c ≠ .asleep := by
  cases hm with
  | push => exact absurd rfl hu
  | unlock => exact absurd rfl hs
  | signal _ hcs =>
    rw [show _ = s.consumers.length from signalCond_length hcs] at hpos
    exact signalCond_awake hcs hpos
  | @consumer i c c' m' head' hci hcm =>
    refine ⟨i, c', getElem?_set_of_some _ hci, ?_⟩
    rintro rfl
    cases hcm with
    | sleep => exact hne (hi.wait i hci)
  | @spurious i hci =>
    exact ⟨i, .woken, getElem?_set_of_some _ hci, nofun⟩
  | alloc hpc => exact hi.awake hpos hne (by simp [hpc]) (by simp [hpc])
  | lock hpc => exact hi.awake hpos hne (by simp [hpc]) (by simp [hpc])

theorem Inv.step : Inv s' (record s a h) where
  excl := hm.excl hi.excl
  wait _ hj := hi.wait_step hm hj
  cur hn := hi.cur_step hm hn
  order := hi.order_step hm
  made := (hi.made_step hm).1
  val := (hi.made_step hm).2.1
  next := (hi.made_step hm).2.2
  awake hpos hne hu hs := hi.awake_step hm hpos hne hu hs

end

theorem inv_of_run {n : Nat} {x : State × Hist}
    (h : Lts.Run histStep Lts.Free (init n, Hist.empty) x) : Inv x.1 x.2 := by
  apply Lts.Run.inv (P := fun x => Inv x.1 x.2) h
  · exact inv_init n
  · intro x a x' ih _ hst
    obtain ⟨hst, hh⟩ := Lts.withHist_eq_some.1 hst
    rw [hh]
    exact ih.step (step_move hst)

theorem StepMove.length {s s' : State} {a : Act} (h : StepMove s a s') :
    s'.consumers.length = s.consumers.length := by
  cases h with
  | signal _ hcs => exact signalCond_length hcs
  | consumer | spurious => exact List.length_set
  | _ => rfl

theorem length_of_run {n : Nat} {x : State × Hist}
    (h : Lts.Run histStep Lts.Free (init n, Hist.empty) x) : x.1.consumers.length = n := by
  apply Lts.Run.inv (P := fun x => x.1.consumers.length = n) h
  · exact List.length_replicate
  · intro x a x' ih _ hst
    rw [(step_move (Lts.withHist_eq_some.1 hst).1).length, ih]

/-! ## Hand-over -/

section
variable {s : State} {h : Hist} (hi : Inv s h)
include hi

/-- What has been produced is what has been consumed and what is on the list. -/
theorem Inv.perm : h.produced.Perm (s.head ++ h.consumed) := by
  rw [hi.order, Hist.consumed]
  have hd : ((h.drains.map List.reverse).flatten).Perm h.drains.flatten :=
    List.Perm.flatten_congr (List.forall₂_map_left_iff.2
      (List.forall₂_same.2 fun l _ => List.reverse_perm l))
  apply (hd.append (List.reverse_perm _)).trans
  rw [← List.append_assoc]
  exact List.perm_append_comm

theorem Inv.once (v : Int) :
    s.head.count v + h.consumed.count v = if v ∈ h.produced then 1 else 0 := by
  have hnd : h.produced.Nodup := by
    rw [hi.made]
    exact CInt.values_nodup _
  rw [← List.count_append, ← hi.perm.count_eq]
  exact List.Nodup.count hnd

/-- A drain is a stretch of the values in production order, backwards. -/
theorem Inv.backwards {d : List Int} (hd : d ∈ h.cur :: h.drains) :
    d.reverse.IsInfix h.produced := by
  rw [hi.order]
  rcases List.mem_cons.1 hd with rfl | hd
  · rw [List.reverse_append, ← List.append_assoc]
    exact (List.suffix_append _ _).isInfix
  · have hmem : d.reverse ∈ h.drains.map List.reverse := List.mem_map_of_mem hd
    exact (List.infix_of_mem_flatten hmem).trans (List.prefix_append _ _).isInfix

end

/-- **Exactly-once hand-over and no lost wake-up.** In every run with any number of consumers, at
least one: every value produced, and no other, is either on the list once or has been consumed once;
what a drain has taken, finished or not, is a stretch of the production order backwards; and
while the list is not empty, somebody is awake or the producer is between its push and its
signal. -/
theorem handed_over (n : Nat) (hn : 1 ≤ n) (x : State × Hist)
    (h : Lts.Run histStep Lts.Free (init n, Hist.empty) x) :
    (∀ v, x.1.head.count v + x.2.consumed.count v = if v ∈ x.2.produced then 1 else 0) ∧
    (∀ d ∈ x.2.cur :: x.2.drains, d.reverse.IsInfix x.2.produced) ∧
    (x.1.head ≠ [] → x.1.producer.pc ≠ .unlock → x.1.producer.pc ≠ .signal →
      ∃ c ∈ x.1.consumers, c ≠ .asleep) := by
  have hi := inv_of_run h
  refine ⟨hi.once, fun d hd => hi.backwards hd, ?_⟩
  intro hne hu hs
  have hlen := length_of_run h
  obtain ⟨i, c, hc, hcs⟩ := hi.awake (by omega) hne hu hs
  exact ⟨c, List.mem_of_getElem? hc, hcs⟩

/-- Both consumers wait when the first value comes. The second value is pushed and signalled for
before the woken one has the mutex; it has taken one of the two. -/
theorem handed_over_two : ∃ x, Lts.Run histStep Lts.Free (init 2, Hist.empty) x ∧
    x.1.head = [100] ∧ x.2.consumed = [101] ∧
    (∀ v, x.1.head.count v + x.2.consumed.count v = if v ∈ x.2.produced then 1 else 0) ∧
    ∃ c ∈ x.1.consumers, c ≠ .asleep := by
  obtain ⟨x, hx, hhead, hcons, hu, hs⟩ := Lts.Run.exists_of_exec histStep
    (Lts.repeats [(3, .consumer 0), (3, .consumer 1), (4, .producer), (1, .signal [1]),
      (4, .producer), (1, .signal [0]), (4, .consumer 1)])
    (init 2, Hist.empty)
    (fun x => x.1.head = [100] ∧ x.2.consumed = [101] ∧ x.1.producer.pc ≠ .unlock ∧
      x.1.producer.pc ≠ .signal)
    (by decide +kernel)
  obtain ⟨honce, -, hawake⟩ := handed_over 2 (by decide) x hx
  exact ⟨x, hx, hhead, hcons, honce, hawake (by simp [hhead]) hu hs⟩

end CondThread
