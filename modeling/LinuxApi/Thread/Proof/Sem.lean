import LinuxApi.Lib.Ring
import LinuxApi.Thread.Sem

/-!
# The semaphore ring is a FIFO

The counts of the semaphores are what the numbers of writes and reads leave them (`Inv.full`,
`Inv.empty`). So the consumer reads only what has been written and the producer is never more than
a lap ahead; the ring holds what has not been read (`Ring.Lap`). The main result is `sem_fifo`.
-/

set_option autoImplicit false

namespace SemThread

/-! ## Steps, case by case -/

inductive StepMove (s : State) : Act → State → Prop
  | waitEmpty : s.producer.pc = .wait → 0 < s.empty →
      StepMove s .producer
        { s with empty := s.empty - 1, producer := { s.producer with pc := .write } }
  | write : s.producer.pc = .write → s.beginnum < CInt.max →
      StepMove s .producer
        { s with
          value := s.value.set (slot s.producer.i) s.beginnum
          beginnum := s.beginnum + 1
          producer := { s.producer with pc := .incr } }
  | incrProducer : s.producer.pc = .incr → s.producer.i < CInt.max →
      StepMove s .producer { s with producer := ⟨.post, s.producer.i + 1⟩ }
  | postFull : s.producer.pc = .post →
      StepMove s .producer
        { s with full := s.full + 1, producer := { s.producer with pc := .wait } }
  | waitFull : s.consumer.pc = .wait → 0 < s.full →
      StepMove s .consumer
        { s with full := s.full - 1, consumer := { s.consumer with pc := .read } }
  | read : s.consumer.pc = .read →
      StepMove s .consumer { s with consumer := { s.consumer with pc := .incr } }
  | incrConsumer : s.consumer.pc = .incr → s.consumer.i < CInt.max →
      StepMove s .consumer { s with consumer := ⟨.post, s.consumer.i + 1⟩ }
  | postEmpty : s.consumer.pc = .post →
      StepMove s .consumer
        { s with empty := s.empty + 1, consumer := { s.consumer with pc := .wait } }

theorem semWait_eq_some {n m : Nat} : semWait n = some m ↔ 0 < n ∧ m = n - 1 := by
  unfold semWait
  split <;> simp_all [eq_comm]

theorem step_move {s s' : State} {a : Act} (h : step s a = some s') : StepMove s a s' := by
  cases a with
  | producer =>
    simp only [step, stepProducer] at h
    cases hpc : s.producer.pc <;> simp only [hpc] at h
    case wait =>
      obtain ⟨n, hn, rfl⟩ := Option.map_eq_some_iff.1 h
      obtain ⟨hpos, rfl⟩ := semWait_eq_some.1 hn
      exact .waitEmpty hpc hpos
    case write =>
      obtain ⟨n, hn, rfl⟩ := Option.map_eq_some_iff.1 h
      obtain ⟨hlt, rfl⟩ := CInt.incr_eq_some.1 hn
      exact .write hpc hlt
    case incr =>
      obtain ⟨n, hn, rfl⟩ := Option.map_eq_some_iff.1 h
      obtain ⟨hlt, rfl⟩ := CInt.incr_eq_some.1 hn
      exact .incrProducer hpc hlt
    case post => obtain ⟨⟩ := h; exact .postFull hpc
  | consumer =>
    simp only [step, stepConsumer] at h
    cases hpc : s.consumer.pc <;> simp only [hpc] at h
    case wait =>
      obtain ⟨n, hn, rfl⟩ := Option.map_eq_some_iff.1 h
      obtain ⟨hpos, rfl⟩ := semWait_eq_some.1 hn
      exact .waitFull hpc hpos
    case read => obtain ⟨⟩ := h; exact .read hpc
    case incr =>
      obtain ⟨n, hn, rfl⟩ := Option.map_eq_some_iff.1 h
      obtain ⟨hlt, rfl⟩ := CInt.incr_eq_some.1 hn
      exact .incrConsumer hpc hlt
    case post => obtain ⟨⟩ := h; exact .postEmpty hpc

/-! ## The invariant -/

/-- What the counts, the indices and the ring are after `h.writes.length` writes and `h.reads.length`
reads. -/
structure Inv (s : State) (h : Hist) : Prop where
  lap : Ring.Lap s.value h.writes 6
  writes : h.writes = CInt.values 100 h.writes.length
  reads : h.reads = CInt.values 100 h.reads.length
  next : s.beginnum = 100 + h.writes.length
  producer : s.producer.i + (if s.producer.pc = .incr then 1 else 0) = h.writes.length
  consumer : s.consumer.i + (if s.consumer.pc = .incr then 1 else 0) = h.reads.length
  full : s.full + (if s.consumer.pc = .read then 1 else 0) + h.reads.length +
    (if s.producer.pc = .incr ∨ s.producer.pc = .post then 1 else 0) = h.writes.length
  empty : s.empty + (if s.producer.pc = .write then 1 else 0) + h.writes.length +
    (if s.consumer.pc = .incr ∨ s.consumer.pc = .post then 1 else 0) = 6 + h.reads.length
  fresh : ∀ j, h.fresh j = true → ∃ k, h.reads.length ≤ k ∧ k < h.writes.length ∧ k % 6 = j

theorem inv_init : Inv init Hist.empty where
  lap := .nil rfl
  writes := rfl
  reads := rfl
  next := rfl
  producer := rfl
  consumer := rfl
  full := rfl
  empty := rfl
  fresh _ hj := nomatch hj

theorem slot_natCast (n : Nat) : slot n = n % 6 := by
  unfold slot
  rw [Int.tmod_eq_emod_of_nonneg (by omega)]
  omega

section
variable {s s' : State} {h : Hist} (hi : Inv s h)
include hi

/-- The slot that the producer is about to write. -/
theorem Inv.slot_write (hpc : s.producer.pc = .write) : slot s.producer.i = h.writes.length % 6 := by
  have hp := hi.producer
  simp only [hpc, reduceCtorEq, if_false, Int.add_zero] at hp
  rw [hp, slot_natCast]

/-- The slot that the consumer is about to read. -/
theorem Inv.slot_read (hpc : s.consumer.pc = .read) : slot s.consumer.i = h.reads.length % 6 := by
  have hc := hi.consumer
  simp only [hpc, reduceCtorEq, if_false, Int.add_zero] at hc
  rw [hc, slot_natCast]

/-- The producer has room: it is less than a lap ahead of the consumer. -/
theorem Inv.room (hpc : s.producer.pc = .write) : h.writes.length < h.reads.length + 6 := by
  have he := hi.empty
  rw [if_pos hpc] at he
  omega

/-- The consumer finds something: it is behind the producer, at most a lap. -/
theorem Inv.ready (hpc : s.consumer.pc = .read) :
    h.reads.length < h.writes.length ∧ h.writes.length ≤ h.reads.length + 6 := by
  have hf := hi.full
  have he := hi.empty
  rw [if_pos hpc] at hf
  omega

theorem Inv.not_fresh (hpc : s.producer.pc = .write) : h.fresh (slot s.producer.i) = false := by
  rw [hi.slot_write hpc, ← Bool.not_eq_true]
  intro hf
  obtain ⟨k, hk, hlt, he⟩ := hi.fresh _ hf
  have hroom := hi.room hpc
  exact Ring.mod_ne hlt (by omega) he

/-- The consumer reads the next of the values written. -/
theorem Inv.value_read (hpc : s.consumer.pc = .read) :
    s.value[slot s.consumer.i]? = some (100 + (h.reads.length : Int)) := by
  obtain ⟨hlt, hlap⟩ := hi.ready hpc
  rw [hi.slot_read hpc, hi.lap.front hlt hlap, hi.writes]
  exact CInt.values_getElem? (by simpa using hlt)

theorem Inv.step_write (hpc : s.producer.pc = .write) :
    Inv { s with
          value := s.value.set (slot s.producer.i) s.beginnum
          beginnum := s.beginnum + 1
          producer := { s.producer with pc := .incr } }
      { h with
        writes := h.writes ++ [s.beginnum]
        fresh := fun j => if j = slot s.producer.i then true else h.fresh j } := by
  obtain ⟨hlap, hw, hr, hn, hp, hc, hf, he, hfr⟩ := id hi
  rw [hi.slot_write hpc]
  simp only [hpc, reduceCtorEq, or_self, if_true, if_false, Nat.add_zero, Int.add_zero] at hp hf he
  refine ⟨hlap.push (by decide) _, ?_, hr, ?_, ?_, hc, ?_, ?_, ?_⟩
  · simp only [List.length_append, List.length_singleton]
    rw [CInt.values_succ, ← hw, hn]
  · simp only [List.length_append, List.length_singleton]
    omega
  · simp only [List.length_append, List.length_singleton, if_true]
    omega
  · simp only [List.length_append, List.length_singleton, reduceCtorEq, or_false, if_true]
    omega
  · simp only [List.length_append, List.length_singleton, reduceCtorEq, if_false, Nat.add_zero]
    omega
  · intro j hj
    simp only [List.length_append, List.length_singleton] at hj ⊢
    by_cases hjw : j = h.writes.length % 6
    · have := hi.room hpc
      exact ⟨h.writes.length, by omega, by omega, hjw.symm⟩
    · rw [if_neg hjw] at hj
      obtain ⟨k, hk, hlt, he⟩ := hfr j hj
      exact ⟨k, hk, by omega, he⟩

theorem Inv.step_read (hpc : s.consumer.pc = .read) :
    Inv { s with consumer := { s.consumer with pc := .incr } }
      { h with
        reads := h.reads ++ (s.value[slot s.consumer.i]?).toList
        fresh := fun j => if j = slot s.consumer.i then false else h.fresh j } := by
  obtain ⟨hlap, hw, hr, hn, hp, hc, hf, he, hfr⟩ := id hi
  rw [hi.value_read hpc, hi.slot_read hpc]
  simp only [hpc, reduceCtorEq, or_self, if_true, if_false, Nat.add_zero, Int.add_zero] at hc hf he
  refine ⟨hlap, hw, ?_, hn, hp, ?_, ?_, ?_, ?_⟩
  · simp only [Option.toList_some, List.length_append, List.length_singleton]
    rw [CInt.values_succ, ← hr]
  · simp only [Option.toList_some, List.length_append, List.length_singleton, if_true]
    omega
  · simp only [Option.toList_some, List.length_append, List.length_singleton, reduceCtorEq, if_false,
      Nat.add_zero]
    omega
  · simp only [Option.toList_some, List.length_append, List.length_singleton, reduceCtorEq, or_false,
      if_true]
    omega
  · intro j hj
    simp only [Option.toList_some, List.length_append, List.length_singleton] at hj ⊢
    by_cases hjr : j = h.reads.length % 6
    · rw [if_pos hjr] at hj
      cases hj
    · rw [if_neg hjr] at hj
      obtain ⟨k, hk, hlt, he⟩ := hfr j hj
      -- the value just read is no longer among those that wait
      have hne : k ≠ h.reads.length := by
        rintro rfl
        exact hjr he.symm
      exact ⟨k, by omega, hlt, he⟩

theorem Inv.step {a : Act} (hm : StepMove s a s') : Inv s' (record s a h) := by
  cases hm with
  | write hpc =>
    simp only [record, hpc, if_true]
    exact hi.step_write hpc
  | read hpc =>
    simp only [record, hpc, if_true]
    exact hi.step_read hpc
  | waitEmpty hpc | incrProducer hpc | postFull hpc =>
    obtain ⟨hlap, hw, hr, hn, hp, hc, hf, he, hfr⟩ := hi
    simp only [hpc, reduceCtorEq, or_self, or_true, or_false, if_true, if_false, Nat.add_zero,
      Int.add_zero] at hp hf he
    simp only [record, hpc, reduceCtorEq, if_false]
    refine ⟨hlap, hw, hr, hn, ?_, hc, ?_, ?_, hfr⟩ <;>
      simp only [reduceCtorEq, or_self, or_true, if_true, if_false] <;> omega
  | waitFull hpc | incrConsumer hpc | postEmpty hpc =>
    obtain ⟨hlap, hw, hr, hn, hp, hc, hf, he, hfr⟩ := hi
    simp only [hpc, reduceCtorEq, or_self, or_true, or_false, if_true, if_false, Nat.add_zero,
      Int.add_zero] at hc hf he
    simp only [record, hpc, reduceCtorEq, if_false]
    refine ⟨hlap, hw, hr, hn, hp, ?_, ?_, ?_, hfr⟩ <;>
      simp only [reduceCtorEq, or_self, or_true, if_true, if_false] <;> omega

end

theorem inv_of_run {x : State × Hist} (h : Lts.Run histStep Lts.Free (init, Hist.empty) x) :
    Inv x.1 x.2 := by
  apply Lts.Run.inv (P := fun x => Inv x.1 x.2) h
  · exact inv_init
  · intro x a x' ih _ hst
    obtain ⟨hst, hh⟩ := Lts.withHist_eq_some.1 hst
    rw [hh]
    exact ih.step (step_move hst)

/-- **The ring is a lossless FIFO.** In every run the values read are the first values of
`beginnum`, in order; the slot that the producer is about to write holds nothing that has not been
read; and the two counts and the threads between their wait and their post make six. -/
theorem sem_fifo (x : State × Hist) (h : Lts.Run histStep Lts.Free (init, Hist.empty) x) :
    (∀ (k : Nat) (v : Int), x.2.reads[k]? = some v → v = 100 + k) ∧
    (x.1.producer.pc = .write → x.2.fresh (slot x.1.producer.i) = false) ∧
    x.1.full + x.1.empty + between x.1 = 6 := by
  have hi := inv_of_run h
  refine ⟨?_, hi.not_fresh, ?_⟩
  · intro k v hv
    obtain ⟨hk, -⟩ := List.getElem?_eq_some_iff.1 hv
    rw [hi.reads, CInt.values_getElem? hk] at hv
    exact (Option.some.inj hv).symm
  · have hf := hi.full
    have he := hi.empty
    unfold between
    cases hp : x.1.producer.pc <;> cases hc : x.1.consumer.pc <;>
      simp only [hp, hc, reduceCtorEq, or_self, or_true, or_false, if_true, if_false] at hf he ⊢ <;>
      omega

/-- The producer laps the ring: seven values are written and the first one is read. -/
theorem sem_fifo_lap : ∃ x, Lts.Run histStep Lts.Free (init, Hist.empty) x ∧
    x.2.writes.length = 7 ∧ x.2.reads = [100] ∧ x.1.full + x.1.empty + between x.1 = 6 := by
  obtain ⟨x, hx, hw, hr⟩ := Lts.Run.exists_of_exec histStep
    (Lts.repeats [(24, .producer), (4, .consumer), (2, .producer)]) (init, Hist.empty)
    (fun x => x.2.writes.length = 7 ∧ x.2.reads = [100]) (by decide +kernel)
  exact ⟨x, hx, hw, hr, (sem_fifo x hx).2.2⟩

end SemThread
