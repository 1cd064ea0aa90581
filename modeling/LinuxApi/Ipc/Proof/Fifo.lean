import LinuxApi.Ipc.Fifo

/-!
# What the reader prints

The reader prints what the writer has written, in order, and runs past its buffer only after it has
read 20 bytes at once (`printed_of_run`). If the writer does not write while two lines are waiting, that
does not happen, and both programs end with all lines printed (`prints_all`).
-/

set_option autoImplicit false

namespace Fifo

open CLib

/-! ## Lines -/

theorem line_length {n : Nat} (h : n < 21) : (line n).length = 7 := by
  interval_cases n <;> decide +kernel

theorem zero_notMem_line {n : Nat} (h : n < 21) : (0 : UInt8) ∉ line n := by
  interval_cases n <;> decide +kernel

/-- What is still to be written. -/
def State.toWrite (s : State) : Bytes :=
  match s.writer with
  | .open | .test | .sleep => linesFrom s.n
  | .write => line s.n ++ linesFrom s.n
  | .close | .exited => []

/-- How the printed lines and what has been read go together, by where the reader is. -/
def Reads (s : State) : Prop :=
  match s.reader with
  | .print => ∃ chunk, s.buff = fill (List.replicate 20 0) chunk ∧ chunk ≠ [] ∧
      chunk.length ≤ 20 ∧ (0 : UInt8) ∉ chunk ∧ s.printed.flatten ++ chunk = s.pipe.got
  | .overrun => ∃ chunk, chunk.length = 20 ∧ s.printed.flatten ++ chunk = s.pipe.got
  | .close | .exited =>
    s.printed.flatten = s.pipe.got ∧ s.pipe.data = [] ∧ s.writer = .exited
  | .open | .read | .sleep => s.printed.flatten = s.pipe.got

structure Inv (s : State) : Prop where
  sound : s.pipe.Sound
  written : s.pipe.sent ++ s.toWrite = linesFrom 21
  plain : (0 : UInt8) ∉ s.pipe.data
  count : s.n ≤ 21 ∧ (s.writer = .write → s.n < 21)
  ends : s.pipe.writers = 0 ↔ s.writer = .open ∨ s.writer = .exited
  opened : s.writer = .open ↔ s.reader = .open
  reads : Reads s

theorem inv_init : Inv init where
  sound := rfl
  written := rfl
  plain := by simp [init]
  count := ⟨Nat.le_refl _, fun h => by cases h⟩
  ends := by simp [init]
  opened := by simp [init]
  reads := rfl

section
variable {s s' : State}

/-! ## The writer -/

/-- What the reader has to do with is not touched. -/
theorem Reads.writer (h : Reads s) (hw : s.writer ≠ .exited) {pipe : Pipe} {w : WriterPc} {n : Nat}
    (hg : pipe.got = s.pipe.got) : Reads { s with pipe, writer := w, n } := by
  have hno : ∀ {p : Prop}, s.printed.flatten = s.pipe.got ∧ s.pipe.data = [] ∧
      s.writer = .exited → p := fun hx => absurd hx.2.2 hw
  unfold Reads at h ⊢
  cases hr : s.reader <;> simp only [hr, hg] at h ⊢
  · exact h
  · exact h
  · exact h
  · exact h
  · exact hno h
  · exact hno h
  · exact h

theorem Inv.stepWriter (h : Inv s) (hst : stepWriter s = some s') : Inv s' := by
  have hwr := h.written
  have hop := h.opened
  unfold Fifo.stepWriter at hst
  split at hst
  · cases hst
  · cases hst
  · rename_i hpc
    have hne : s.writer ≠ .exited := by rw [hpc]; exact fun he => by cases he
    rw [hpc] at hop
    simp only [State.toWrite, hpc] at hwr
    have hends := h.ends
    simp only [hpc, reduceCtorEq, or_self, iff_false] at hends
    split at hst
    · rename_i hn
      cases hst
      rw [hn] at hwr
      exact ⟨h.sound, hwr, h.plain, ⟨h.count.1, fun he => by cases he⟩, by simpa using hends,
        by simpa using hop, h.reads.writer hne rfl⟩
    · rename_i n hn
      cases hst
      have hc := h.count.1
      rw [hn] at hwr hc
      exact ⟨h.sound, hwr, h.plain, ⟨by show n ≤ 21; omega, fun _ => by show n < 21; omega⟩,
        by simpa using hends, by simpa using hop, h.reads.writer hne rfl⟩
  · rename_i hpc
    obtain ⟨pipe, hw, rfl⟩ := Option.map_eq_some_iff.1 hst
    have hne : s.writer ≠ .exited := by rw [hpc]; exact fun he => by cases he
    have hn := h.count.2 hpc
    rw [hpc] at hop
    simp only [State.toWrite, hpc] at hwr
    have hends := h.ends
    simp only [hpc, reduceCtorEq, or_self, iff_false] at hends
    have hsound := h.sound.write hw
    obtain ⟨-, rfl⟩ := Pipe.write_eq_some hw
    refine ⟨hsound, ?_, ?_, ⟨h.count.1, fun he => by cases he⟩, by simpa using hends,
      by simpa using hop, h.reads.writer hne rfl⟩
    · simp only [State.toWrite]
      rw [← hwr, List.append_assoc]
    · simp only [List.mem_append, not_or]
      exact ⟨h.plain, zero_notMem_line hn⟩
  · rename_i hpc
    cases hst
    have hne : s.writer ≠ .exited := by rw [hpc]; exact fun he => by cases he
    rw [hpc] at hop
    simp only [State.toWrite, hpc] at hwr
    have hends := h.ends
    simp only [hpc, reduceCtorEq, or_self, iff_false] at hends
    exact ⟨h.sound, hwr, h.plain, ⟨h.count.1, fun he => by cases he⟩, by simpa using hends,
      by simpa using hop, h.reads.writer hne rfl⟩
  · rename_i hpc
    cases hst
    have hne : s.writer ≠ .exited := by rw [hpc]; exact fun he => by cases he
    rw [hpc] at hop
    simp only [State.toWrite, hpc] at hwr
    exact ⟨h.sound, hwr, h.plain, ⟨h.count.1, fun he => by cases he⟩, by simp, by simpa using hop,
      h.reads.writer hne rfl⟩

/-! ## The reader -/

theorem Inv.stepReader (h : Inv s) (hst : stepReader s = some s') : Inv s' := by
  have hwr := h.written
  have hop := h.opened
  have hrd := h.reads
  unfold Fifo.stepReader at hst
  split at hst
  · cases hst
  · cases hst
  · cases hst
  · rename_i hpc
    obtain ⟨⟨chunk, pipe⟩, hr, rfl⟩ := Option.map_eq_some_iff.1 hst
    simp only [hpc, reduceCtorEq, iff_false] at hop
    simp only [Reads, hpc] at hrd
    have hsound := h.sound.read hr
    rcases Pipe.read_cases hr with ⟨hd, hw, rfl, rfl⟩ | ⟨hd, rfl, rfl⟩
    · simp only [if_true]
      refine ⟨hsound, hwr, h.plain, h.count, h.ends, by simpa using hop, ?_⟩
      rcases h.ends.1 hw with he | he
      · exact absurd he hop
      · exact ⟨hrd, hd, he⟩
    · have hne := Pipe.take_ne_nil (n := 20) (by decide) hd
      simp only [hne, if_false]
      refine ⟨hsound, hwr, fun hm => h.plain (List.mem_of_mem_drop hm), h.count, h.ends,
        by simpa using hop, ?_⟩
      exact ⟨_, rfl, hne, List.length_take_le _ _, fun hm => h.plain (List.mem_of_mem_take hm),
        by rw [hrd]⟩
  · rename_i hpc
    simp only [hpc, reduceCtorEq, iff_false] at hop
    simp only [Reads, hpc] at hrd
    obtain ⟨chunk, hb, hne, hlen, h0, hg⟩ := hrd
    rw [hb] at hst
    split at hst
    · rename_i hm
      cases hst
      rw [(fill_zeros ((fill_zeros_iff h0 hlen).1 hm)).2, cstr_of_notMem h0]
      refine ⟨h.sound, hwr, h.plain, h.count, h.ends, by simpa using hop, ?_⟩
      show (s.printed ++ [chunk]).flatten = s.pipe.got
      simpa using hg
    · rename_i hm
      cases hst
      rw [fill_zeros_iff h0 hlen] at hm
      exact ⟨h.sound, hwr, h.plain, h.count, h.ends, by simpa using hop, chunk, by omega, hg⟩
  · rename_i hpc
    cases hst
    simp only [hpc, reduceCtorEq, iff_false] at hop
    simp only [Reads, hpc] at hrd
    exact ⟨h.sound, hwr, h.plain, h.count, h.ends, by simpa using hop, hrd⟩
  · rename_i hpc
    cases hst
    simp only [hpc, reduceCtorEq, iff_false] at hop
    simp only [Reads, hpc] at hrd
    exact ⟨h.sound, hwr, h.plain, h.count, h.ends, by simpa using hop, hrd⟩

theorem Inv.step (h : Inv s) {a : Act} (hst : step s a = some s') : Inv s' := by
  cases a with
  | «open» =>
    simp only [Fifo.step] at hst
    split at hst
    · rename_i hg
      cases hst
      have hwr := h.written
      have hrd := h.reads
      simp only [State.toWrite, hg.1] at hwr
      simp only [Reads, hg.2] at hrd
      exact ⟨h.sound, hwr, h.plain, ⟨h.count.1, fun he => by cases he⟩, by simp, by simp, hrd⟩
    · cases hst
  | writer => exact h.stepWriter hst
  | reader => exact h.stepReader hst

theorem inv_of_run {ok : State → Act → Prop} (h : Lts.Run Fifo.step ok init s) : Inv s :=
  h.inv inv_init fun _ _ _ hi _ hst => hi.step hst

/-! ## Any pace -/

/-- What the FIFO has given so far is the beginning of the lines. -/
theorem Inv.got_begins (h : Inv s) : s.pipe.got <+: linesFrom 21 := by
  refine ⟨s.pipe.data ++ s.toWrite, ?_⟩
  rw [← List.append_assoc, h.sound, h.written]

/-- A reader that has ended has printed all lines. -/
theorem Inv.printed_of_exited (h : Inv s) (hr : s.reader = .exited) :
    s.printed.flatten = linesFrom 21 := by
  have hrd := h.reads
  simp only [Reads, hr] at hrd
  obtain ⟨hg, hd, hw⟩ := hrd
  have hs := h.sound
  have hwr := h.written
  simp only [State.toWrite, hw, List.append_nil] at hwr
  rw [Pipe.Sound, hd, List.append_nil] at hs
  rw [hg, hs, hwr]

/-- **However the two programs take turns, what is printed is a beginning of the lines, and all of them
if the reader ends; it runs past its buffer only on 20 bytes read at once.** -/
theorem printed_of_run (h : Lts.Run step Lts.Free init s) :
    s.printed.flatten <+: linesFrom 21 ∧
      (s.reader = .exited → s.printed.flatten = linesFrom 21) ∧
      (s.reader = .overrun →
        ∃ chunk, chunk.length = 20 ∧ s.printed.flatten ++ chunk <+: linesFrom 21) := by
  have hi := inv_of_run h
  have hg := hi.got_begins
  have hrd := hi.reads
  refine ⟨?_, hi.printed_of_exited, fun hr => ?_⟩
  · cases hr : s.reader with
    | print =>
      simp only [Reads, hr] at hrd
      obtain ⟨chunk, -, -, -, -, he⟩ := hrd
      exact (List.prefix_append _ chunk).trans (he ▸ hg)
    | overrun =>
      simp only [Reads, hr] at hrd
      obtain ⟨chunk, -, he⟩ := hrd
      exact (List.prefix_append _ chunk).trans (he ▸ hg)
    | close | exited =>
      simp only [Reads, hr] at hrd
      rw [hrd.1]
      exact hg
    | «open» | read | sleep =>
      simp only [Reads, hr] at hrd
      rw [hrd]
      exact hg
  · simp only [Reads, hr] at hrd
    obtain ⟨chunk, hlen, he⟩ := hrd
    exact ⟨chunk, hlen, he ▸ hg⟩

/-! ## A slow writer -/

/-- One line or two. -/
def IsLines (len : Nat) : Prop := len = 7 ∨ len = 14

/-- Whole lines are written, read and printed. -/
structure Whole (s : State) : Prop where
  data : s.pipe.data = [] ∨ IsLines s.pipe.data.length
  buff : s.reader = .print → (0 : UInt8) ∈ s.buff ∧ IsLines (cstr s.buff).length
  printed : ∀ x ∈ s.printed, IsLines x.length
  within : s.reader ≠ .overrun

theorem whole_init : Whole init where
  data := .inl rfl
  buff := fun h => by cases h
  printed := by simp [init]
  within := by simp [init]

theorem Whole.stepWriter (h : Whole s) (hi : Inv s) (hp : Paced s .writer)
    (hst : Fifo.stepWriter s = some s') : Whole s' := by
  unfold Fifo.stepWriter at hst
  split at hst
  · cases hst
  · cases hst
  · split at hst
    all_goals
      cases hst
      exact ⟨h.data, h.buff, h.printed, h.within⟩
  · rename_i hpc
    obtain ⟨pipe, hw, rfl⟩ := Option.map_eq_some_iff.1 hst
    obtain ⟨-, rfl⟩ := Pipe.write_eq_some hw
    have hlen := line_length (hi.count.2 hpc)
    have hle := hp hpc
    refine ⟨.inr ?_, h.buff, h.printed, h.within⟩
    show IsLines (s.pipe.data ++ line s.n).length
    rw [List.length_append, hlen]
    rcases h.data with hd | hd | hd
    · rw [hd]
      exact .inl rfl
    · rw [hd]
      exact .inr rfl
    · omega
  · cases hst
    exact ⟨h.data, h.buff, h.printed, h.within⟩
  · cases hst
    exact ⟨h.data, h.buff, h.printed, h.within⟩

theorem Whole.stepReader (h : Whole s) (hi : Inv s) (hst : Fifo.stepReader s = some s') :
    Whole s' := by
  unfold Fifo.stepReader at hst
  split at hst
  · cases hst
  · cases hst
  · cases hst
  · obtain ⟨⟨chunk, pipe⟩, hr, rfl⟩ := Option.map_eq_some_iff.1 hst
    rcases Pipe.read_cases hr with ⟨-, -, rfl, rfl⟩ | ⟨hd, rfl, rfl⟩
    · exact ⟨h.data, fun he => (by cases he), h.printed, fun he => (by cases he)⟩
    · have hl : IsLines s.pipe.data.length := h.data.resolve_left hd
      have hle : s.pipe.data.length < 20 := by rcases hl with hl | hl <;> omega
      have hz := fill_zeros hle
      -- the read takes everything
      rw [List.take_of_length_le hle.le, List.drop_eq_nil_of_le hle.le]
      simp only [hd, if_false]
      exact ⟨.inl rfl, fun _ => ⟨hz.1, by rw [hz.2, cstr_of_notMem hi.plain]; exact hl⟩, h.printed, fun he => (by cases he)⟩
  · rename_i hpc
    obtain ⟨hm, hl⟩ := h.buff hpc
    rw [if_pos hm] at hst
    cases hst
    refine ⟨h.data, fun he => (by cases he), ?_, fun he => (by cases he)⟩
    intro x hx
    rcases List.mem_append.1 hx with hx | hx
    · exact h.printed x hx
    · rw [List.mem_singleton.1 hx]
      exact hl
  · cases hst
    exact ⟨h.data, fun he => (by cases he), h.printed, fun he => (by cases he)⟩
  · cases hst
    exact ⟨h.data, fun he => (by cases he), h.printed, fun he => (by cases he)⟩

theorem Whole.step (h : Whole s) (hi : Inv s) {a : Act} (hp : Paced s a)
    (hst : Fifo.step s a = some s') : Whole s' := by
  cases a with
  | «open» =>
    simp only [Fifo.step] at hst
    split at hst
    · cases hst
      exact ⟨h.data, fun he => (by cases he), h.printed, fun he => (by cases he)⟩
    · cases hst
  | writer => exact h.stepWriter hi hp hst
  | reader => exact h.stepReader hi hst

theorem inv_whole_of_run (h : Lts.Run step Paced init s) : Inv s ∧ Whole s := by
  refine ⟨inv_of_run h, h.inv_of (fun _ => inv_of_run) whole_init ?_⟩
  exact fun _ _ _ hi hw hp hst => hw.step hi hp hst

/-! ## The two programs end -/

/-- What `w_fifo.c` has still to do. -/
def WriterPc.left (n : Nat) : WriterPc → Nat
  | .open => 100
  | .test => 4 * n + 2
  | .write => 4 * n + 5
  | .sleep => 4 * n + 4
  | .close => 1
  | .exited => 0

/-- What `r_fifo.c` has still to do until its next read. -/
def ReaderPc.left : ReaderPc → Nat
  | .open => 6
  | .print => 5
  | .sleep => 4
  | .read => 3
  | .close => 2
  | .exited => 1
  | .overrun => 0

/-- A line in the FIFO is to be read and printed; one that is still to be written also to be
written. -/
def State.left (s : State) : Nat :=
  30 * s.writer.left s.n + 4 * s.pipe.data.length + s.reader.left

theorem left_writer (hi : Inv s) (hst : stepWriter s = some s') : s'.left < s.left := by
  unfold stepWriter at hst
  split at hst
  · cases hst
  · cases hst
  · rename_i hpc
    split at hst
    · cases hst
      simp only [State.left, hpc, WriterPc.left]
      omega
    · rename_i n hn
      cases hst
      simp only [State.left, hpc, hn, WriterPc.left]
      omega
  · rename_i hpc
    obtain ⟨pipe, hw, rfl⟩ := Option.map_eq_some_iff.1 hst
    obtain ⟨-, rfl⟩ := Pipe.write_eq_some hw
    have hlen := line_length (hi.count.2 hpc)
    simp only [State.left, hpc, WriterPc.left, List.length_append]
    omega
  · rename_i hpc
    cases hst
    simp only [State.left, hpc, WriterPc.left]
    omega
  · rename_i hpc
    cases hst
    simp only [State.left, hpc, WriterPc.left]
    omega

theorem left_reader (hst : stepReader s = some s') : s'.left < s.left := by
  unfold stepReader at hst
  split at hst
  · cases hst
  · cases hst
  · cases hst
  · rename_i hpc
    obtain ⟨⟨chunk, pipe⟩, hr, rfl⟩ := Option.map_eq_some_iff.1 hst
    rcases Pipe.read_cases hr with ⟨-, -, rfl, rfl⟩ | ⟨hd, rfl, rfl⟩
    · simp only [State.left, hpc, ReaderPc.left, if_true]
      omega
    · have hpos := List.length_pos_iff.2 hd
      split
      · simp only [State.left, hpc, ReaderPc.left]
        omega
      · simp only [State.left, hpc, ReaderPc.left, List.length_drop]
        omega
  · rename_i hpc
    split at hst
    all_goals
      cases hst
      simp only [State.left, hpc, ReaderPc.left]
      omega
  · rename_i hpc
    cases hst
    simp only [State.left, hpc, ReaderPc.left]
    omega
  · rename_i hpc
    cases hst
    simp only [State.left, hpc, ReaderPc.left]
    omega

theorem left_step (hi : Inv s) {a : Act} (hst : step s a = some s') : s'.left < s.left := by
  cases a with
  | «open» =>
    simp only [step] at hst
    split at hst
    · rename_i hg
      cases hst
      have hn := hi.count.1
      simp only [State.left, hg.1, hg.2, WriterPc.left, ReaderPc.left]
      omega
    · cases hst
  | writer => exact left_writer hi hst
  | reader => exact left_reader hst

/-- The reader goes on unless it has to wait for a line. -/
theorem reader_enabled (hopen : s.reader ≠ .open) (hx : s.reader ≠ .exited)
    (ho : s.reader ≠ .overrun) (hd : s.pipe.data ≠ [] ∨ s.pipe.writers = 0) :
    ∃ s', stepReader s = some s' := by
  unfold stepReader
  cases hr : s.reader with
  | «open» => exact absurd hr hopen
  | exited => exact absurd hr hx
  | overrun => exact absurd hr ho
  | read =>
    simp only [Pipe.read]
    by_cases hnil : s.pipe.data = []
    · rw [if_pos hnil, if_pos (hd.resolve_left fun h => h hnil)]
      exact ⟨_, rfl⟩
    · rw [if_neg hnil]
      exact ⟨_, rfl⟩
  | print =>
    simp only
    split
    all_goals exact ⟨_, rfl⟩
  | sleep | close => exact ⟨_, rfl⟩

/-- The writer goes on if it has not ended and there is room for its line. -/
theorem writer_enabled (hi : Inv s) (hopen : s.writer ≠ .open) (hx : s.writer ≠ .exited)
    (hp : Paced s .writer) : ∃ s', stepWriter s = some s' := by
  unfold stepWriter
  cases hpc : s.writer with
  | «open» => exact absurd hpc hopen
  | exited => exact absurd hpc hx
  | test =>
    cases s.n with
    | zero | succ => exact ⟨_, rfl⟩
  | write =>
    have hlen := line_length (hi.count.2 hpc)
    have hle := hp hpc
    simp only [Pipe.write]
    rw [if_pos (by rw [hlen, Pipe.capacity]; omega)]
    exact ⟨_, rfl⟩
  | sleep | close => exact ⟨_, rfl⟩

/-- Until both have ended, one of them goes on. -/
theorem enabled (hi : Inv s) (hw : Whole s) (hf : ¬ Finished s) :
    ∃ a s', Paced s a ∧ step s a = some s' := by
  by_cases hopen : s.writer = .open
  · have hg : s.writer = .open ∧ s.reader = .open := ⟨hopen, hi.opened.1 hopen⟩
    exact ⟨.open, _, trivial, if_pos hg⟩
  have hropen : s.reader ≠ .open := fun hr => hopen (hi.opened.2 hr)
  -- unless the reader waits, it goes on
  have hreader (hx : s.reader ≠ .exited) (hd : s.pipe.data ≠ [] ∨ s.pipe.writers = 0) :
      ∃ a s', Paced s a ∧ step s a = some s' := by
    obtain ⟨s', hs⟩ := reader_enabled hropen hx hw.within hd
    exact ⟨.reader, s', trivial, hs⟩
  by_cases hx : s.writer = .exited
  · refine hreader (fun hr => hf ?_) (.inr (hi.ends.2 (.inr hx)))
    exact ⟨hx, hr, hi.printed_of_exited hr, hw.printed⟩
  by_cases hp : Paced s .writer
  · obtain ⟨s', hs⟩ := writer_enabled hi hopen hx hp
    exact ⟨.writer, s', hp, hs⟩
  · have hlen : ¬ s.pipe.data.length ≤ 7 := fun hle => hp fun _ => hle
    refine hreader (fun hr => ?_) (.inl fun hd => hlen (by rw [hd]; exact Nat.zero_le 7))
    have hrd := hi.reads
    simp only [Reads, hr] at hrd
    exact hx hrd.2.2

/-- **If the writer does not write while two lines are waiting, the reader stays within its buffer, and
both programs cannot but end with all lines printed, one or two at a time.** -/
theorem prints_all (h : Lts.Run step Paced init s) :
    s.reader ≠ .overrun ∧ Lts.Must step Paced Finished s := by
  have hiw := inv_whole_of_run h
  refine ⟨hiw.2.within, ?_⟩
  refine Lts.Must.of_wf Nat.lt_wfRel.wf State.left (I := fun s => Inv s ∧ Whole s) ?_ hiw
  rintro s ⟨hi, hw⟩ hf
  refine ⟨enabled hi hw hf, fun a s' hp hst => ?_⟩
  exact ⟨⟨hi.step hst, hw.step hi hp hst⟩, left_step hi hst⟩

/-- Two lines are waiting. -/
theorem prints_all_two : ∃ s, Lts.Run step Paced init s ∧ s.pipe.data.length = 14 ∧
    s.reader ≠ .overrun ∧ Lts.Must step Paced Finished s := by
  obtain ⟨s, hr, hd⟩ := Lts.Run.exists_of_execOk step Paced
    [.open, .writer, .writer, .writer, .writer, .writer] init (fun s => s.pipe.data.length = 14)
    (by decide +kernel)
  exact ⟨s, hr, hd, prints_all hr⟩

/-- Three lines are waiting when the reader reads: it runs past its buffer. -/
theorem printed_of_run_overrun : ∃ s, Lts.Run step Lts.Free init s ∧ s.reader = .overrun ∧
    s.printed.flatten <+: linesFrom 21 := by
  obtain ⟨s, hr, ho⟩ := Lts.Run.exists_of_exec step
    [.open, .writer, .writer, .writer, .writer, .writer, .writer, .writer, .writer, .reader, .reader]
    init (fun s => s.reader = .overrun) (by decide +kernel)
  exact ⟨s, hr, ho, (printed_of_run hr).1⟩

end

end Fifo
