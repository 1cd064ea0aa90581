import LinuxApi.Chat.Proof.Broadcast
import LinuxApi.Chat.Relay
import LinuxApi.Tcp.Proof.Client

/-!
# Everybody is shown what the others type

What a user has typed is, in this order, what the others were sent of it, what the thread's loop and the
connection hold, and what `sendsocket` has not read (`Inv.sent`); what a client has been sent is what it
has printed and what is on its way (`Inv.seen`). This holds in every run until a buffer is left
(`relayed_in_order`), which happens on a `recv` of so many bytes that a buffer cannot hold them
(`within_iff`). Without one, everything that is typed is shown (`delivered`).
-/

set_option autoImplicit false

namespace Relay

open CLib

/-! ## Buffers -/

theorem header_length {d : Nat} (h : d < 2 ^ 31) : (header d).length ≤ 14 := by
  have hd : (dec d).length ≤ 10 := by
    rw [dec, List.length_map, Nat.length_toDigits_le_iff (by decide) (by decide)]
    omega
  have h3 : (ascii "fd=").length = 3 := by decide
  have h1 : (ascii ":").length = 1 := by decide
  simp only [header, List.length_append, h3, h1]
  omega

theorem notMem_header (d : Nat) : (0 : UInt8) ∉ header d := by
  simp only [header, List.mem_append, not_or]
  refine ⟨⟨by decide, fun h => ?_⟩, by decide⟩
  exact absurd (isDigit_dec h) (by decide)

/-- A text and its header, in `sendbuf`. -/
theorem cstr_sendbuf {d : Nat} {text : Bytes} (h0 : (0 : UInt8) ∉ text)
    (hlen : (header d).length + text.length < 512) :
    cstr (sendbuf d text) = message (d, text) := by
  have h0' : (0 : UInt8) ∉ header d ++ text := by
    simp only [List.mem_append, not_or]
    exact ⟨notMem_header d, h0⟩
  rw [sendbuf, (fill_zeros (by simpa using hlen)).2, cstr_of_notMem h0', message]

/-- When a text is sent on. -/
theorem relayed_eq {d : Nat} {chunk : Bytes} (h0 : (0 : UInt8) ∉ chunk) (hlen : chunk.length ≤ 512) :
    relayed d chunk = if (header d).length + chunk.length < 512 then some chunk else none := by
  unfold relayed
  rw [recvbuf]
  by_cases h : chunk.length < 512
  · obtain ⟨hm, hstr⟩ := fill_zeros h
    rw [hstr, cstr_of_notMem h0]
    simp only [hm, true_and]
  · have hm : (0 : UInt8) ∉ fill (List.replicate 512 0) chunk := fun hm =>
      h ((fill_zeros_iff h0 hlen).1 hm)
    rw [if_neg (fun hc => hm hc.1), if_neg (by omega)]

/-- The `NUL` that the client writes is there already. -/
theorem cstr_printed {chunk : Bytes} {n : Nat} (h0 : (0 : UInt8) ∉ chunk) (hn : chunk.length = n)
    (hlt : n < 512) : cstr ((recvbuf chunk).set n 0) = chunk := by
  obtain ⟨m, hm⟩ : ∃ m, 512 - chunk.length = m + 1 := ⟨512 - chunk.length - 1, by omega⟩
  rw [recvbuf, fill, List.drop_replicate, hm, List.replicate_succ,
    List.set_append_right _ _ hn.le, hn, Nat.sub_self, List.set_cons_zero, cstr_terminated,
    cstr_of_notMem h0]

theorem noNul_update (f : Nat → Bytes) {d : Nat} {v : Bytes} :
    (∀ x, (0 : UInt8) ∉ Function.update f d v x) ↔
      (0 : UInt8) ∉ v ∧ ∀ x, x ≠ d → (0 : UInt8) ∉ f x :=
  Function.forall_update_iff f fun _ bytes => (0 : UInt8) ∉ bytes

/-! ## What is typed -/

theorem fgets_rest_length (b : UInt8) (input : Bytes) :
    (TcpClient.fgets 511 (b :: input)).2.length ≤ input.length := by
  have happ := congrArg List.length (TcpClient.fgets_append 511 (b :: input))
  have hne : (TcpClient.fgets 511 (b :: input)).1 ≠ [] := TcpClient.fgets_ne_nil
  have hpos := List.length_pos_iff.2 hne
  rw [List.length_append, List.length_cons] at happ
  omega

/-- As many calls as there are bytes are enough. -/
theorem calls_eq {input : Bytes} : ∀ {k : Nat}, input.length ≤ k →
    TcpClient.calls k input = TcpClient.pieces input := by
  induction hlen : input.length using Nat.strong_induction_on generalizing input with
  | _ len ih =>
    intro k hk
    cases input with
    | nil =>
      cases k with
      | zero | succ => rfl
    | cons b input =>
      rw [List.length_cons] at hlen
      obtain ⟨k, rfl⟩ : ∃ k', k = k' + 1 := ⟨k - 1, by omega⟩
      have hrest := fgets_rest_length b input
      have hlt : (TcpClient.fgets 511 (b :: input)).2.length < len := by omega
      have hk' := ih _ hlt rfl (k := k) (by omega)
      have hlen' := ih _ hlt rfl hrest
      rw [TcpClient.pieces, List.length_cons, TcpClient.calls, TcpClient.calls, hk', hlen']

theorem typed_cons (b : UInt8) (input : Bytes) :
    typed (b :: input) = cstr (TcpClient.fgets 511 (b :: input)).1 ++
      typed (TcpClient.fgets 511 (b :: input)).2 := by
  rw [typed, TcpClient.pieces, List.length_cons, TcpClient.calls, calls_eq (fgets_rest_length b input),
    List.map_cons, List.flatten_cons, typed]

/-- Without a `NUL` in it, all of a text is sent. -/
theorem typed_of_notMem {text : Bytes} (h0 : (0 : UInt8) ∉ text) : typed text = text := by
  have hmap : (TcpClient.pieces text).map cstr = TcpClient.pieces text :=
    (List.map_congr_left fun p hp =>
      cstr_of_notMem (TcpClient.pieces_piece h0 hp).noNul).trans (List.map_id _)
  rw [typed, hmap, TcpClient.pieces_flatten]

/-! ## The slots -/

section
variable {fds : List Nat} (hc : Clients fds)
include hc

theorem Clients.slots : (table fds).take (fds.length + 1) = fds ++ [0] := by
  obtain ⟨m, hm⟩ : ∃ m, Chat.size - fds.length = m + 1 :=
    ⟨19 - fds.length, by have := hc.served; simp only [Chat.size]; omega⟩
  rw [table, hm, List.replicate_succ, List.take_append, List.take_of_length_le (by omega)]
  simp

theorem Clients.slots_nodup : (fds ++ [0]).Nodup := by
  refine List.nodup_append.2 ⟨hc.nodup, by simp, ?_⟩
  rintro a ha b hb rfl
  exact hc.pos (List.mem_singleton.1 hb ▸ ha)

/-- The loop of the chat server goes through these slots. -/
theorem Clients.sends {s : Chat.State} (hf : s.fds = (table fds).map Int.ofNat)
    (hu : s.user = fds.length) (a : Nat) :
    s.sends a = some (((fds ++ [0]).filter (· ≠ a)).map Int.ofNat) := by
  have hlen : (s.user + 1).toNat = fds.length + 1 := by rw [hu]; omega
  rw [Chat.State.sends, hlen, Chat.broadcast_eq_some, hf, List.length_map, ← List.map_take,
    hc.slots, List.filter_map]
  refine ⟨by simp [table, Chat.size]; have := hc.served; omega, ?_⟩
  congr 2
  funext x
  simp

/-! ## The invariant -/

structure Inv (fds : List Nat) (text : Nat → Bytes) (s : State) : Prop where
  room : s.room.Inv
  slots : s.room.slots = fds ++ [0]
  up : ∀ d, (0 : UInt8) ∉ s.up d
  down : ∀ d, (0 : UInt8) ∉ s.down d
  loop : ∀ d i m, s.room.loop d = some (i, m) →
    d ∈ fds ∧ (0 : UInt8) ∉ m ∧ (header d).length + m.length < 512
  senders : ∀ b, ∀ x ∈ s.room.given b, x.1 ∈ fds
  sent : s.overrun = false →
    ∀ d, (s.room.started d).flatten ++ s.up d ++ typed (s.stdin d) = typed (text d)
  begun : ∀ d, (s.room.started d).flatten <+: typed (text d)
  seen : ∀ d, s.past d = false → (s.shown d).flatten ++ s.down d = (s.room.given d).flatMap message
  shown : ∀ d, (s.shown d).flatten <+: (s.room.given d).flatMap message

theorem inv_init (text : Nat → Bytes) : Inv fds text (init fds text) := by
  have hslots := hc.slots
  refine ⟨?_, hslots, ?_, ?_, ?_, ?_, fun _ d => rfl, fun d => ?_, fun d _ => rfl, fun d => ?_⟩
  · rw [init, hslots]
    exact Fanout.inv_init hc.slots_nodup
  · exact fun d h => by cases h
  · exact fun d h => by cases h
  · exact fun d i m h => by cases h
  · exact fun b x h => by cases h
  · exact List.nil_prefix
  · exact List.nil_prefix

omit hc
variable {text : Nat → Bytes} {s s' : State} {d : Nat}

theorem Inv.stepFgets (h : Inv fds text s) (hst : stepFgets s d = some s') : Inv fds text s' := by
  unfold Relay.stepFgets at hst
  split at hst
  · cases hst
  · rename_i b input hin
    cases hst
    have hstr : cstr (fill (List.replicate 512 0) (TcpClient.fgets 511 (b :: input)).1) =
        cstr (TcpClient.fgets 511 (b :: input)).1 :=
      (fill_zeros (Nat.lt_succ_of_le (TcpClient.fgets_length_le _ _))).2
    have hup : (0 : UInt8) ∉ s.up d ++ cstr (TcpClient.fgets 511 (b :: input)).1 := by
      simp only [List.mem_append, not_or]
      exact ⟨h.up d, notMem_cstr _⟩
    refine ⟨h.room, h.slots, ?_, h.down, h.loop, h.senders, fun ho x => ?_, h.begun, h.seen,
      h.shown⟩
    · rw [hstr]
      exact (noNul_update s.up).2 ⟨hup, fun x _ => h.up x⟩
    · have hs := h.sent ho x
      by_cases hx : x = d
      · subst hx
        rw [hin, typed_cons] at hs
        simp only [Function.update_self, hstr]
        rw [← hs]
        simp only [List.append_assoc]
      · simp only [Function.update_of_ne hx]
        exact hs

theorem Inv.stepRecv {n : Nat} (h : Inv fds text s) (hd : d ∈ fds)
    (hst : stepRecv s d n = some s') : Inv fds text s' := by
  unfold Relay.stepRecv at hst
  split at hst
  · rename_i hg
    obtain ⟨ho, hl, hpos, h512, hn⟩ := hg
    have hup : ∀ x, (0 : UInt8) ∉ Function.update s.up d ((s.up d).drop n) x :=
      (noNul_update s.up).2 ⟨fun hm => h.up d (List.mem_of_mem_drop hm), fun x _ => h.up x⟩
    have h0 : (0 : UInt8) ∉ (s.up d).take n := fun hm => h.up d (List.mem_of_mem_take hm)
    have hlen : ((s.up d).take n).length = n := by rw [List.length_take]; omega
    rw [relayed_eq h0 (by omega), hlen] at hst
    split at hst
    · rename_i m hm
      cases hst
      split at hm
      · rename_i hfit
        obtain ⟨⟩ := hm
        have hsent : ∀ x, ((s.room.start d ((s.up d).take n)).started x).flatten ++
            Function.update s.up d ((s.up d).drop n) x ++ typed (s.stdin x) = typed (text x) := by
          intro x
          have hs := h.sent ho x
          by_cases hx : x = d
          · subst hx
            rw [← hs]
            simp [Fanout.start, Function.update_self]
          · simpa only [Fanout.start, Function.update_of_ne hx] using hs
        refine ⟨h.room.start hl, h.slots, hup, h.down, fun x i m hlx => ?_, h.senders,
          fun _ => hsent, fun x => ?_, h.seen, h.shown⟩
        · by_cases hx : x = d
          · subst hx
            simp only [Fanout.start, Function.update_self, Option.some.injEq, Prod.mk.injEq] at hlx
            obtain ⟨-, rfl⟩ := hlx
            exact ⟨hd, h0, by omega⟩
          · simp only [Fanout.start, Function.update_of_ne hx] at hlx
            exact h.loop x i m hlx
        · rw [← hsent x, List.append_assoc]
          exact List.prefix_append _ _
      · cases hm
    · cases hst
      exact ⟨h.room, h.slots, hup, h.down, h.loop, h.senders, fun hf => (by cases hf), h.begun,
        h.seen, h.shown⟩
  · cases hst

/-- A turn of the loop sends to the client in the slot. -/
theorem sent_eq {i : Nat} {m : Bytes} (x : Nat) : s.sent d i m x =
    s.down x ++ if s.room.slots[i]? = some x ∧ x ≠ d then cstr (sendbuf d m) else [] := by
  unfold State.sent
  cases hy : s.room.slots[i]? with
  | none => simp
  | some y =>
    by_cases hx : x = y
    · subst hx
      by_cases hd : x = d
      · simp [hd]
      · simp [hd]
    · have hx' : y ≠ x := Ne.symm hx
      by_cases hd : y = d
      · simp [hd, hd ▸ hx']
      · simp [hd, hx', Function.update_of_ne hx]

theorem Inv.stepSend (h : Inv fds text s) (hst : stepSend s d = some s') : Inv fds text s' := by
  unfold Relay.stepSend at hst
  split at hst
  · rename_i ho
    split at hst
    · cases hst
    · rename_i i m hl
      cases hst
      obtain ⟨hd, h0, hlen⟩ := h.loop d i m hl
      have hmsg := cstr_sendbuf h0 hlen
      have hmap (x : Nat) : ((s.room.advance d i m).given x).flatMap message =
          (s.room.given x).flatMap message ++
            if s.room.slots[i]? = some x ∧ x ≠ d then message (d, m) else [] := by
        rw [Fanout.given_advance, List.flatMap_append]
        split
        all_goals simp
      refine ⟨h.room.advance hl, (Fanout.slots_advance).trans h.slots, h.up, fun x => ?_,
        fun x j m' hx => ?_, fun x y hy => ?_, fun _ x => ?_, fun x => ?_, fun x hp => ?_,
        fun x => ?_⟩
      · show (0 : UInt8) ∉ s.sent d i m x
        rw [sent_eq, hmsg, List.mem_append, not_or]
        refine ⟨h.down x, ?_⟩
        split
        · rw [← hmsg]
          exact notMem_cstr _
        · exact List.not_mem_nil
      · by_cases hxd : x = d
        · subst hxd
          rw [Fanout.loop_advance_self] at hx
          split at hx
          · obtain ⟨⟩ := hx
            exact ⟨hd, h0, hlen⟩
          · cases hx
        · rw [Fanout.loop_advance_of_ne hxd] at hx
          exact h.loop x j m' hx
      · rw [Fanout.given_advance, List.mem_append] at hy
        rcases hy with hy | hy
        · exact h.senders x y hy
        · split at hy
          · rw [List.mem_singleton.1 hy]
            exact hd
          · cases hy
      · simpa only [Fanout.started_advance] using h.sent ho x
      · simpa only [Fanout.started_advance] using h.begun x
      · show (s.shown x).flatten ++ s.sent d i m x = _
        rw [hmap, sent_eq, hmsg, ← List.append_assoc, h.seen x hp]
      · rw [hmap]
        exact (h.shown x).trans (List.prefix_append _ _)
  · cases hst

theorem Inv.stepPrint {n : Nat} (h : Inv fds text s) (hp : s.past d = false)
    (hst : stepPrint s d n = some s') : Inv fds text s' := by
  unfold Relay.stepPrint at hst
  split at hst
  · rename_i hg
    obtain ⟨hpos, h512, hn⟩ := hg
    have hdown : ∀ x, (0 : UInt8) ∉ Function.update s.down d ((s.down d).drop n) x :=
      (noNul_update s.down).2 ⟨fun hm => h.down d (List.mem_of_mem_drop hm), fun x _ => h.down x⟩
    have h0 : (0 : UInt8) ∉ (s.down d).take n := fun hm => h.down d (List.mem_of_mem_take hm)
    have hlen : ((s.down d).take n).length = n := by rw [List.length_take]; omega
    have hseen := h.seen d hp
    split at hst
    · rename_i hlt
      cases hst
      rw [cstr_printed h0 hlen hlt]
      refine ⟨h.room, h.slots, h.up, hdown, h.loop, h.senders, h.sent, h.begun, fun x hx => ?_,
        fun x => ?_⟩
      · by_cases hxd : x = d
        · subst hxd
          simpa using hseen
        · simpa only [Function.update_of_ne hxd] using h.seen x hx
      · by_cases hxd : x = d
        · subst hxd
          rw [← hseen]
          refine ⟨(s.down x).drop n, ?_⟩
          simp
        · simpa only [Function.update_of_ne hxd] using h.shown x
    · cases hst
      refine ⟨h.room, h.slots, h.up, hdown, h.loop, h.senders, h.sent, h.begun, fun x hx => ?_,
        h.shown⟩
      by_cases hxd : x = d
      · subst hxd
        simp at hx
      · simp only [Function.update_of_ne hxd] at hx ⊢
        exact h.seen x hx
  · cases hst

theorem Inv.step (h : Inv fds text s) {a : Act} (hst : step fds s a = some s') :
    Inv fds text s' := by
  cases a with
  | fgets d =>
    obtain ⟨-, hst⟩ := Option.ite_none_right_eq_some.1 hst
    exact h.stepFgets hst
  | recv d n =>
    obtain ⟨hd, hst⟩ := Option.ite_none_right_eq_some.1 hst
    exact h.stepRecv hd hst
  | send d =>
    obtain ⟨-, hst⟩ := Option.ite_none_right_eq_some.1 hst
    exact h.stepSend hst
  | print d n =>
    obtain ⟨⟨-, hp⟩, hst⟩ := Option.ite_none_right_eq_some.1 hst
    exact h.stepPrint hp hst

theorem inv_of_run {ok : State → Act → Prop} (hc : Clients fds)
    (h : Lts.Run (Relay.step fds) ok (init fds text) s) : Inv fds text s :=
  h.inv (inv_init hc text) fun _ _ _ hi _ hst => hi.step hst

/-! ## Order -/

/-- **In every run, what a client has been sent of another one is a beginning of what that one typed, in
order and without anything lost or doubled; it is sent nothing of its own; and what it has printed
is a beginning of what it was sent.** -/
theorem relayed_in_order (hc : Clients fds)
    (h : Lts.Run (step fds) Lts.Free (init fds text) s) : ∀ b ∈ fds,
      (∀ a, a ≠ b → (s.room.got a b).flatten <+: typed (text a)) ∧
        (∀ x ∈ s.room.given b, x.1 ∈ fds ∧ x.1 ≠ b) ∧
        (s.shown b).flatten <+: (s.room.given b).flatMap message := by
  have hi := inv_of_run hc h
  intro b hb
  have hslot : b ∈ s.room.slots := by
    rw [hi.slots]
    exact List.mem_append_left _ hb
  refine ⟨fun a ha => ?_, fun x hx => ⟨hi.senders b x hx, hi.room.others b x hx⟩, hi.shown b⟩
  obtain ⟨rest, hrest⟩ := hi.room.got_begins hslot ha.symm
  refine List.IsPrefix.trans ?_ (hi.begun a)
  rw [← hrest, List.flatten_append]
  exact List.prefix_append _ _

theorem clients_two : Clients [4, 5] := ⟨by decide, by decide, by decide, by decide⟩

/-- The message of client 4 reaches client 5. -/
theorem relayed_in_order_two : ∃ s, Lts.Run (step [4, 5]) Lts.Free (init [4, 5] fun _ => ascii "hi") s ∧
    s.shown 5 = [ascii "fd=4:hi"] ∧ (s.room.got 4 5).flatten <+: typed (ascii "hi") := by
  obtain ⟨s, hr, hs⟩ := Lts.Run.exists_of_exec (step [4, 5])
    [.fgets 4, .recv 4 2, .send 4, .send 4, .print 5 7] (init [4, 5] fun _ => ascii "hi")
    (fun s => s.shown 5 = [ascii "fd=4:hi"]) (by decide +kernel)
  exact ⟨s, hr, hs, (relayed_in_order clients_two hr 5 (by decide)).1 4 (by decide)⟩

/-! ## Buffers that are left -/

def State.Left (s : State) : Prop := s.overrun = true ∨ ∃ d, s.past d = true

/-- One step leaves a buffer if it receives more than there is room for. -/
theorem left_step {a : Act} (h : Inv fds text s) (hst : step fds s a = some s') :
    s'.Left ↔ s.Left ∨ ¬ a.Fits := by
  cases a with
  | fgets d =>
    obtain ⟨-, hst⟩ := Option.ite_none_right_eq_some.1 hst
    unfold stepFgets at hst
    split at hst
    · cases hst
    · cases hst
      simp [State.Left, Act.Fits]
  | recv d n =>
    obtain ⟨hd, hst⟩ := Option.ite_none_right_eq_some.1 hst
    unfold stepRecv at hst
    obtain ⟨⟨ho, hl, hpos, h512, hn⟩, hst⟩ := Option.ite_none_right_eq_some.1 hst
    have h0 : (0 : UInt8) ∉ (s.up d).take n := fun hm => h.up d (List.mem_of_mem_take hm)
    have hlen : ((s.up d).take n).length = n := by rw [List.length_take]; omega
    rw [relayed_eq h0 (by omega), hlen] at hst
    by_cases hfit : (header d).length + n < 512
    · rw [if_pos hfit] at hst
      cases hst
      simp [State.Left, Act.Fits, hfit]
    · rw [if_neg hfit] at hst
      cases hst
      simp [State.Left, Act.Fits, hfit]
  | send d =>
    obtain ⟨-, hst⟩ := Option.ite_none_right_eq_some.1 hst
    unfold stepSend at hst
    obtain ⟨-, hst⟩ := Option.ite_none_right_eq_some.1 hst
    split at hst
    · cases hst
    · cases hst
      simp [State.Left, Act.Fits]
  | print d n =>
    obtain ⟨⟨-, hp⟩, hst⟩ := Option.ite_none_right_eq_some.1 hst
    unfold stepPrint at hst
    obtain ⟨hg, hst⟩ := Option.ite_none_right_eq_some.1 hst
    by_cases hlt : n < 512
    · rw [if_pos hlt] at hst
      cases hst
      simp [State.Left, Act.Fits, hlt]
    · rw [if_neg hlt] at hst
      cases hst
      have hex : ∃ x, Function.update s.past d true x = true := ⟨d, Function.update_self ..⟩
      simp [State.Left, Act.Fits, hlt, hex]

/-- What is left after a schedule, was left before it or is left by one of its steps. -/
theorem left_exec {as : List Act} {s₀ : State} (h : Inv fds text s₀)
    (he : Lts.exec (step fds) as s₀ = some s) :
    s.Left ↔ s₀.Left ∨ ∃ a ∈ as, ¬ a.Fits := by
  induction as generalizing s₀ with
  | nil =>
    obtain rfl := Option.some.inj he
    simp
  | cons a as ih =>
    rw [Lts.exec] at he
    split at he
    · rename_i s₁ hst
      rw [ih (h.step hst) he, left_step h hst, or_assoc]
      simp only [List.mem_cons, exists_eq_or_imp]
    · cases he

theorem not_left_init : ¬ (init fds text).Left := by
  rintro (ho | ⟨d, hd⟩)
  · cases ho
  · cases hd

theorem not_left_of_run (hc : Clients fds) (h : Lts.Run (step fds) Within (init fds text) s) :
    ¬ s.Left := by
  apply h.inv_of (P := fun s => ¬ s.Left) (fun _ => inv_of_run hc) not_left_init
  intro s a s' hi hno hok hst hleft
  exact ((left_step hi hst).1 hleft).elim hno (fun hw => hw hok)

/-- **No buffer is left in a run exactly if no `recv` of it, of the server or of a client, returns more
bytes than its buffers have room for: behind the header, and before the `NUL`.** -/
theorem within_iff (hc : Clients fds) {as : List Act}
    (h : Lts.exec (step fds) as (init fds text) = some s) :
    ¬ s.Left ↔ ∀ a ∈ as, a.Fits := by
  rw [left_exec (inv_init hc text) h, or_iff_right not_left_init]
  push Not
  rfl

/-- A long line leaves `sendbuf`; another client goes on. -/
theorem within_iff_line : ∃ s,
    Lts.exec (step [4, 5]) [.fgets 4, .recv 4 511, .fgets 5]
      (init [4, 5] fun _ => List.replicate 511 97) = some s ∧ s.Left := by
  obtain ⟨s, he⟩ : ∃ s, Lts.exec (step [4, 5]) [.fgets 4, .recv 4 511, .fgets 5]
      (init [4, 5] fun _ => List.replicate 511 97) = some s :=
    Option.isSome_iff_exists.1 (by decide +kernel)
  refine ⟨s, he, ?_⟩
  by_contra hno
  exact absurd ((within_iff clients_two he).1 hno (.recv 4 511) (by decide)) (by decide +kernel)

/-! ## Everything arrives -/

/-- What a loop over the slots is worth. -/
def loopWork (fds : List Nat) : Option (Nat × Bytes) → Nat
  | none => 0
  | some (i, _) => (fds.length + 2 - i) * 600 + 1

/-- What a byte is worth that the server has not received. -/
def byteWork (fds : List Nat) : Nat := (fds.length + 3) * 600

/-- What there is to do for a client and its thread. -/
def State.work (s : State) (fds : List Nat) (d : Nat) : Nat :=
  2 * (byteWork fds * (s.stdin d).length) + byteWork fds * (s.up d).length +
    loopWork fds (s.room.loop d)

def State.todo (s : State) (fds : List Nat) : Nat :=
  ∑ d ∈ fds.toFinset, s.work fds d + ∑ d ∈ fds.toFinset, (s.down d).length

/-- A sum of which one term changes. -/
theorem sum_update {F : Finset Nat} {f g : Nat → Nat} (hd : d ∈ F) (h : ∀ x, x ≠ d → g x = f x) :
    ∑ x ∈ F, g x + f d = ∑ x ∈ F, f x + g d := by
  have herase : ∑ x ∈ F.erase d, g x = ∑ x ∈ F.erase d, f x :=
    Finset.sum_congr rfl fun x hx => h x (Finset.ne_of_mem_erase hx)
  rw [← Finset.sum_erase_add F g hd, ← Finset.sum_erase_add F f hd, herase]
  omega

/-- The work of one client goes down by more than the clients are sent. -/
theorem todo_lt (hd : d ∈ fds) (hother : ∀ x, x ≠ d → s'.work fds x = s.work fds x)
    (hlt : s'.work fds d + ∑ x ∈ fds.toFinset, (s'.down x).length <
      s.work fds d + ∑ x ∈ fds.toFinset, (s.down x).length) : s'.todo fds < s.todo fds := by
  have hsum := sum_update (List.mem_toFinset.2 hd) hother
  unfold State.todo
  omega

theorem todo_fgets (hd : d ∈ fds) (hst : stepFgets s d = some s') : s'.todo fds < s.todo fds := by
  unfold stepFgets at hst
  split at hst
  · cases hst
  · rename_i b input hin
    cases hst
    refine todo_lt hd (fun x hx => ?_) ?_
    · simp only [State.work, Function.update_of_ne hx]
    · obtain ⟨line, hline⟩ : ∃ line, line = (TcpClient.fgets 511 (b :: input)).1 := ⟨_, rfl⟩
      have hle := TcpClient.fgets_length_le 511 (b :: input)
      have hne : (TcpClient.fgets 511 (b :: input)).1 ≠ [] := TcpClient.fgets_ne_nil
      have hpos := List.length_pos_iff.2 hne
      have happ := congrArg List.length (TcpClient.fgets_append 511 (b :: input))
      have hstr := (fill_zeros (Nat.lt_succ_of_le hle)).2
      have hcut := cstr_length_le line
      rw [← hline] at hle hpos happ hstr
      rw [List.length_append] at happ
      simp only [State.work, Function.update_self, hin, ← hline, hstr, List.length_append, ← happ,
        Nat.mul_add]
      have hmul := Nat.mul_le_mul_left (byteWork fds) hcut
      have hmul' := Nat.mul_le_mul_left (byteWork fds) hpos
      have hbyte : 0 < byteWork fds := by unfold byteWork; omega
      omega

theorem todo_recv {n : Nat} (hd : d ∈ fds) (hst : stepRecv s d n = some s') :
    s'.todo fds < s.todo fds := by
  unfold stepRecv at hst
  obtain ⟨⟨-, hl, hpos, -, hn⟩, hst⟩ := Option.ite_none_right_eq_some.1 hst
  have hmul := Nat.mul_le_mul_left (byteWork fds) hpos
  have hup : byteWork fds * (s.up d).length =
      byteWork fds * n + byteWork fds * ((s.up d).length - n) := by
    rw [← Nat.mul_add]
    congr 1
    omega
  split at hst
  · cases hst
    refine todo_lt hd (fun x hx => ?_) ?_
    · simp only [State.work, Fanout.start, Function.update_of_ne hx]
    · simp only [State.work, Fanout.start, Function.update_self, List.length_drop, hl, loopWork]
      unfold byteWork at *
      omega
  · cases hst
    refine todo_lt hd (fun x hx => ?_) ?_
    · simp only [State.work, Function.update_of_ne hx]
    · simp only [State.work, Function.update_self, List.length_drop, hl, loopWork]
      unfold byteWork at *
      omega

theorem todo_print {n : Nat} (hd : d ∈ fds) (hst : stepPrint s d n = some s') :
    s'.todo fds < s.todo fds := by
  unfold stepPrint at hst
  obtain ⟨⟨hpos, -, hn⟩, hst⟩ := Option.ite_none_right_eq_some.1 hst
  have hsum : ∑ x ∈ fds.toFinset, (Function.update s.down d ((s.down d).drop n) x).length <
      ∑ x ∈ fds.toFinset, (s.down x).length := by
    have h := sum_update (d := d) (f := fun x => (s.down x).length)
      (g := fun x => (Function.update s.down d ((s.down d).drop n) x).length)
      (List.mem_toFinset.2 hd) (fun x hx => by rw [Function.update_of_ne hx])
    simp only [Function.update_self, List.length_drop] at h
    omega
  split at hst
  all_goals
    cases hst
    exact todo_lt hd (fun x _ => rfl) (Nat.add_lt_add_left hsum _)

/-- What a turn of a loop sends. -/
theorem sum_sent_le {i : Nat} {m : Bytes} : ∑ x ∈ fds.toFinset, (s.sent d i m x).length ≤
    ∑ x ∈ fds.toFinset, (s.down x).length +
      if i < s.room.slots.length then (cstr (sendbuf d m)).length else 0 := by
  unfold State.sent
  cases hy : s.room.slots[i]? with
  | none => exact Nat.le_add_right _ _
  | some y =>
    rw [if_pos (List.getElem?_eq_some_iff.1 hy).1]
    simp only
    split
    · by_cases hf : y ∈ fds.toFinset
      · have h := sum_update (d := y) (f := fun x => (s.down x).length)
          (g := fun x => (Function.update s.down y (s.down y ++ cstr (sendbuf d m)) x).length)
          hf (fun x hx => by rw [Function.update_of_ne hx])
        simp only [Function.update_self, List.length_append] at h
        omega
      · refine (Finset.sum_congr rfl fun x hx => ?_).trans_le (Nat.le_add_right _ _)
        have hne : x ≠ y := fun he => hf (he ▸ hx)
        rw [Function.update_of_ne hne]
    · exact Nat.le_add_right _ _

theorem todo_send (h : Inv fds text s) (hd : d ∈ fds) (hst : stepSend s d = some s') :
    s'.todo fds < s.todo fds := by
  unfold stepSend at hst
  obtain ⟨-, hst⟩ := Option.ite_none_right_eq_some.1 hst
  split at hst
  · cases hst
  · rename_i i m hl
    cases hst
    obtain ⟨-, h0, hlen⟩ := h.loop d i m hl
    have hmsg : (cstr (sendbuf d m)).length < 512 := by
      rw [cstr_sendbuf h0 hlen, message, List.length_append]
      exact hlen
    have hslots : s.room.slots.length = fds.length + 1 := by
      rw [h.slots, List.length_append, List.length_singleton]
    have hsum : ∑ x ∈ fds.toFinset, (s.sent d i m x).length ≤
        ∑ x ∈ fds.toFinset, (s.down x).length +
          if i < s.room.slots.length then (cstr (sendbuf d m)).length else 0 := sum_sent_le
    rw [hslots] at hsum
    refine todo_lt hd (fun x hx => ?_) ?_
    · simp only [State.work, Fanout.loop_advance_of_ne hx]
    · simp only [State.work, Fanout.loop_advance_self, hslots, hl]
      by_cases hi : i < fds.length + 1
      · rw [if_pos hi] at hsum
        rw [if_pos hi]
        simp only [loopWork]
        omega
      · rw [if_neg hi] at hsum
        rw [if_neg hi]
        simp only [loopWork]
        omega

theorem todo_step {a : Act} (h : Inv fds text s) (hst : step fds s a = some s') :
    s'.todo fds < s.todo fds := by
  cases a with
  | fgets d =>
    obtain ⟨⟨hd, -⟩, hst⟩ := Option.ite_none_right_eq_some.1 hst
    exact todo_fgets hd hst
  | recv d n =>
    obtain ⟨hd, hst⟩ := Option.ite_none_right_eq_some.1 hst
    exact todo_recv hd hst
  | send d =>
    obtain ⟨hd, hst⟩ := Option.ite_none_right_eq_some.1 hst
    exact todo_send h hd hst
  | print d n =>
    obtain ⟨⟨hd, -⟩, hst⟩ := Option.ite_none_right_eq_some.1 hst
    exact todo_print hd hst

/-- While there is something to do for a client, somebody goes on, with a `recv` of one byte at the
least. -/
theorem enabled (hc : Clients fds) (hleft : ¬ s.Left) (hd : d ∈ fds)
    (hbusy : ¬ (s.stdin d = [] ∧ s.up d = [] ∧ s.room.loop d = none ∧ s.down d = [])) :
    ∃ a s', Within s a ∧ step fds s a = some s' := by
  obtain ⟨ho, hp⟩ := not_or.1 hleft
  rw [Bool.not_eq_true] at ho
  have hpast : s.past d = false := by
    rw [← Bool.not_eq_true]
    exact fun hx => hp ⟨d, hx⟩
  cases hin : s.stdin d with
  | cons b input =>
    obtain ⟨s', hs⟩ : ∃ s', stepFgets s d = some s' := by
      rw [stepFgets, hin]
      exact ⟨_, rfl⟩
    exact ⟨.fgets d, s', trivial, (if_pos ⟨hd, hpast⟩).trans hs⟩
  | nil =>
    cases hl : s.room.loop d with
    | some x =>
      obtain ⟨s', hs⟩ : ∃ s', stepSend s d = some s' := by
        rw [stepSend, if_pos ho, hl]
        exact ⟨_, rfl⟩
      exact ⟨.send d, s', trivial, (if_pos hd).trans hs⟩
    | none =>
      cases hup : s.up d with
      | cons b bytes =>
        have hh := header_length (hc.int d hd)
        have hw : (header d).length + 1 < 512 := by omega
        obtain ⟨s', hs⟩ : ∃ s', stepRecv s d 1 = some s' := by
          rw [stepRecv, if_pos ⟨ho, hl, by decide, by decide, by rw [hup]; simp⟩]
          split
          all_goals exact ⟨_, rfl⟩
        exact ⟨.recv d 1, s', hw, (if_pos hd).trans hs⟩
      | nil =>
        cases hdown : s.down d with
        | cons b bytes =>
          have hw : 1 < 512 := by decide
          obtain ⟨s', hs⟩ : ∃ s', stepPrint s d 1 = some s' := by
            rw [stepPrint, if_pos ⟨by decide, by decide, by rw [hdown]; simp⟩, if_pos hw]
            exact ⟨_, rfl⟩
          exact ⟨.print d 1, s', hw, (if_pos ⟨hd, hpast⟩).trans hs⟩
        | nil => exact absurd ⟨hin, hup, hl, hdown⟩ hbusy

/-- When there is nothing to do, everything has been shown. -/
theorem Inv.all_shown (h : Inv fds text s) (hleft : ¬ s.Left) (hquiet : ∀ d ∈ fds,
    s.stdin d = [] ∧ s.up d = [] ∧ s.room.loop d = none ∧ s.down d = []) :
    Delivered fds text s := by
  obtain ⟨ho, hp⟩ := not_or.1 hleft
  rw [Bool.not_eq_true] at ho
  have hpast (d : Nat) : s.past d = false := by
    rw [← Bool.not_eq_true]
    exact fun hx => hp ⟨d, hx⟩
  refine ⟨ho, fun d _ => hpast d, hquiet, fun b hb => ?_, fun b _ x hx => ?_, fun a ha b hb hne => ?_⟩
  · have hseen := h.seen b (hpast b)
    rwa [(hquiet b hb).2.2.2, List.append_nil] at hseen
  · exact ⟨h.senders b x hx, h.room.others b x hx⟩
  · have hslot : b ∈ s.room.slots := by
      rw [h.slots]
      exact List.mem_append_left _ hb
    obtain ⟨hin, hup, hl, -⟩ := hquiet a ha
    have hsent := h.sent ho a
    rw [hup, hin, List.append_nil] at hsent
    rw [h.room.got_all hslot hne hl, ← hsent]
    exact (List.append_nil _).symm

/-- **If no `recv` returns more than there is room for, then whatever was typed and however clients and
threads take turns, everybody cannot but be shown what the others typed: the whole text of each of
them, in order, in messages with its descriptor, and nothing else.** -/
theorem delivered (hc : Clients fds) (h : Lts.Run (step fds) Within (init fds text) s) :
    Lts.Must (step fds) Within (Delivered fds text) s := by
  have hrun {s : State} (h : Inv fds text s ∧ ¬ s.Left) {a : Act} {s' : State} (hw : Within s a)
      (hst : step fds s a = some s') : Inv fds text s' ∧ ¬ s'.Left :=
    ⟨h.1.step hst, fun hl => ((left_step h.1 hst).1 hl).elim h.2 (fun hn => hn hw)⟩
  have hi : Inv fds text s ∧ ¬ s.Left := ⟨inv_of_run hc h, not_left_of_run hc h⟩
  refine Lts.Must.of_wf Nat.lt_wfRel.wf (·.todo fds) (I := fun s => Inv fds text s ∧ ¬ s.Left) ?_ hi
  rintro s ⟨hi, hleft⟩ hno
  refine ⟨?_, fun a s' hw hst => ⟨hrun ⟨hi, hleft⟩ hw hst, todo_step hi hst⟩⟩
  by_contra hstuck
  refine hno (hi.all_shown hleft fun d hd => ?_)
  by_contra hbusy
  exact hstuck (enabled hc hleft hd hbusy)

/-- The two clients have written at the same time; one has been shown a part. -/
theorem delivered_both : ∃ s, Lts.Run (step [4, 5]) Within (init [4, 5] fun _ => ascii "hi") s ∧
    s.shown 5 = [ascii "fd=4"] ∧
      Lts.Must (step [4, 5]) Within (Delivered [4, 5] fun _ => ascii "hi") s := by
  obtain ⟨s, hr, hs⟩ := Lts.Run.exists_of_execOk (step [4, 5]) Within
    [.fgets 4, .fgets 5, .recv 4 1, .recv 5 2, .send 4, .send 5, .send 4, .print 5 4]
    (init [4, 5] fun _ => ascii "hi") (fun s => s.shown 5 = [ascii "fd=4"]) (by decide +kernel)
  exact ⟨s, hr, hs, delivered clients_two hr⟩

end

end Relay
