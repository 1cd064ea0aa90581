import LinuxApi.Chat.Proof.Server

/-!
# Who gets a message

The loop goes through the slots 0 to `user`. It reaches everybody else if these are all taken and no
other client is in a slot behind them (`reaches_others_iff`). But then more clients are recorded
than `user` says: when the counter is right, one of the slots is free, and the message is sent to
descriptor 0.
-/

set_option autoImplicit false

namespace Chat

/-! ## The loop -/

theorem broadcast_eq_some {fd : Int} : ∀ {n : Nat} {fds sent : List Int},
    broadcast fd n fds = some sent ↔ n ≤ fds.length ∧ sent = (fds.take n).filter (· ≠ fd)
  | 0, fds, sent => by simp [broadcast, eq_comm]
  | n + 1, [], sent => by simp [broadcast]
  | n + 1, x :: fds, sent => by
    simp only [broadcast, Option.map_eq_some_iff, broadcast_eq_some, List.length_cons,
      Nat.succ_le_succ_iff, List.take_succ_cons, List.filter_cons, decide_eq_true_eq]
    constructor
    · intro h
      obtain ⟨_, ⟨hle, rfl⟩, rfl⟩ := h
      exact ⟨hle, rfl⟩
    · intro h
      obtain ⟨hle, rfl⟩ := h
      exact ⟨_, ⟨hle, rfl⟩, rfl⟩

/-- The slots up to `user` are taken, and no other client than `fd` is in a slot behind them. -/
def Packed (s : State) (fd : Int) : Prop :=
  s.user ≤ 19 ∧ (∀ i : Nat, (i : Int) ≤ s.user → s.fds[i]? ≠ some 0) ∧
    ∀ (i : Nat) (d : Int), s.user < i → s.fds[i]? = some d → d = 0 ∨ d = fd

section
variable {s : State} {fd : Int}

theorem mem_recorded {d : Int} : d ∈ s.recorded ↔ d ∈ s.fds ∧ d ≠ 0 := by
  simp [State.recorded]

/-- A slot that the loop looks at. -/
theorem mem_take_iff {n : Nat} {d : Int} :
    d ∈ s.fds.take n ↔ ∃ i, i < n ∧ s.fds[i]? = some d := by
  rw [List.mem_iff_getElem?]
  constructor
  · intro h
    obtain ⟨i, hi⟩ := h
    have hlt : i < n := by
      have hlt := (List.getElem?_eq_some_iff.1 hi).1
      rw [List.length_take] at hlt
      omega
    exact ⟨i, hlt, (List.getElem?_take_of_lt hlt).symm.trans hi⟩
  · intro h
    obtain ⟨i, hlt, hi⟩ := h
    exact ⟨i, (List.getElem?_take_of_lt hlt).trans hi⟩

variable (hi : Inv s)
include hi

/-- A client is in one slot. -/
theorem Inv.slot_eq {i j : Nat} {d : Int} (h0 : d ≠ 0) (hdi : s.fds[i]? = some d)
    (hdj : s.fds[j]? = some d) : i = j := by
  by_contra hne
  have hcount := Slots.count_set_add (b := 0) d hdi
  have hle := hi.distinct d h0
  have hmem : d ∈ s.fds.set i 0 := by
    refine List.mem_iff_getElem?.2 ⟨j, ?_⟩
    rw [List.getElem?_set_ne hne]
    exact hdj
  have hpos := List.count_pos_iff.2 hmem
  rw [if_pos rfl, if_neg (Ne.symm h0)] at hcount
  omega

/-- A part of the table that is full has every client once. -/
theorem Inv.nodup_take {n : Nat} (hne : ∀ d ∈ s.fds.take n, d ≠ 0) : (s.fds.take n).Nodup := by
  apply List.nodup_iff_count_le_one.2
  intro d
  by_cases h0 : d = 0
  · rw [List.count_eq_zero.2 fun hd => hne d hd h0]
    exact Nat.zero_le 1
  · exact ((List.take_sublist _ _).count_le d).trans (hi.distinct d h0)

theorem Inv.reaches_iff (hfd : 0 < fd) : ReachesOthers s fd ↔ Packed s fd := by
  have hlen : (s.user + 1).toNat ≤ s.fds.length ↔ s.user ≤ 19 := by
    rw [hi.length, size]
    omega
  have hlt : ∀ i : Nat, i < (s.user + 1).toNat ↔ (i : Int) ≤ s.user := by
    intro i
    omega
  have hsent : ∀ d, d ∈ (s.fds.take (s.user + 1).toNat).filter (· ≠ fd) ↔
      (∃ i : Nat, (i : Int) ≤ s.user ∧ s.fds[i]? = some d) ∧ d ≠ fd := by
    intro d
    simp only [List.mem_filter, mem_take_iff, hlt, decide_eq_true_eq]
  constructor
  · intro h
    obtain ⟨sent, hsends, -, hall⟩ := h
    obtain ⟨hle, rfl⟩ := broadcast_eq_some.1 hsends
    refine ⟨hlen.1 hle, fun i hiu h0 => ?_, fun i d hui hd => ?_⟩
    · have hzero := (hall 0).1 ((hsent 0).2 ⟨⟨i, hiu, h0⟩, Int.ne_of_lt hfd⟩)
      exact (mem_recorded.1 hzero.1).2 rfl
    · by_contra hno
      rw [not_or] at hno
      have hmem := (hall d).2 ⟨mem_recorded.2 ⟨List.mem_of_getElem? hd, hno.1⟩, hno.2⟩
      obtain ⟨⟨j, hju, hj⟩, -⟩ := (hsent d).1 hmem
      have hij := hi.slot_eq hno.1 hd hj
      omega
  · intro h
    obtain ⟨hle, htaken, hbehind⟩ := h
    have hne : ∀ d ∈ s.fds.take (s.user + 1).toNat, d ≠ 0 := by
      intro d hd h0
      obtain ⟨i, hlt', hi'⟩ := mem_take_iff.1 hd
      exact htaken i ((hlt i).1 hlt') (h0 ▸ hi')
    refine ⟨_, broadcast_eq_some.2 ⟨hlen.2 hle, rfl⟩, (hi.nodup_take hne).filter _, fun d => ?_⟩
    rw [hsent, mem_recorded]
    apply and_congr_left
    intro hdfd
    constructor
    · intro hd
      obtain ⟨i, hiu, hd⟩ := hd
      exact ⟨List.mem_of_getElem? hd, fun h0 => htaken i hiu (h0 ▸ hd)⟩
    · intro hd
      obtain ⟨i, hdi⟩ := List.mem_iff_getElem?.1 hd.1
      refine ⟨i, Int.not_lt.1 fun hui => ?_, hdi⟩
      exact (hbehind i d hui hdi).elim hd.2 hdfd

/-- The loop looks at one slot more than there are clients. -/
theorem Inv.not_packed (huser : s.user = s.recorded.length) : ¬ Packed s fd := by
  intro h
  obtain ⟨hle, htaken, -⟩ := h
  have hall : ∀ d ∈ s.fds.take (s.user + 1).toNat, decide (d ≠ 0) = true := by
    intro d hd
    obtain ⟨i, hlt, hdi⟩ := mem_take_iff.1 hd
    rw [decide_eq_true_eq]
    exact fun h0 => htaken i (by omega) (h0 ▸ hdi)
  have hlen : (s.fds.take (s.user + 1).toNat).length = (s.user + 1).toNat := by
    rw [List.length_take, hi.length, size]
    omega
  have hsub := (List.take_sublist (s.user + 1).toNat s.fds).filter fun d => decide (d ≠ 0)
  have hcount := hsub.length_le
  rw [List.filter_eq_self.2 hall, hlen] at hcount
  have hrec : (s.fds.filter fun d => decide (d ≠ 0)).length = s.recorded.length := rfl
  omega

end

/-- **Who gets a message.** Whatever clients have come and gone, a message of the client of a thread is
sent to the other recorded clients, once to each and to nobody else, exactly if the slots up to
`user` are all taken and no other client is in a slot behind them. When `user` is the number of
recorded clients, that is never the case. -/
theorem reaches_others_iff (s : State) (h : Lts.Run step Lts.Free init s) (t : Nat) (th : Thread)
    (ht : s.threads[t]? = some th) (hpc : th.pc = .recv) :
    (ReachesOthers s th.fd ↔ Packed s th.fd) ∧
      (s.user = s.recorded.length → ¬ ReachesOthers s th.fd) := by
  have hi := inv_of_run h
  have hfd : 0 < th.fd := hi.positive _ (hi.served t th.fd ⟨th, ht, by rw [hpc]; nofun, rfl⟩)
  have hiff := hi.reaches_iff hfd
  exact ⟨hiff, fun huser hr => hi.not_packed huser (hiff.1 hr)⟩

/-- Client 4 is served. -/
def serveOne : List Act := Lts.repeats [(1, .accept 4), (3, .main), (1, .thread 0)]

/-- Client 5 is in its slot and not counted yet. -/
theorem reaches_others_iff_one : ∃ s th, Lts.Run step Lts.Free init s ∧ s.threads[0]? = some th ∧
    ReachesOthers s th.fd := by
  obtain ⟨s, hs, hth, hfds, huser⟩ := Lts.Run.exists_of_exec step
    (serveOne ++ [.accept 5, .main, .main]) init
    (fun s => s.threads = [⟨.recv, 4, 0⟩] ∧ s.fds = 4 :: 5 :: List.replicate 18 0 ∧ s.user = 1)
    (by decide +kernel)
  have ht : s.threads[0]? = some ⟨.recv, 4, 0⟩ := by rw [hth]; rfl
  refine ⟨s, _, hs, ht, ((reaches_others_iff s hs 0 _ ht rfl).1).2 ⟨by omega, ?_, ?_⟩⟩
  · intro i hi
    have hcases : i = 0 ∨ i = 1 := by omega
    rw [hfds]
    rcases hcases with rfl | rfl <;> decide
  · intro i d hui hd
    obtain ⟨k, rfl⟩ : ∃ k, i = k + 2 := ⟨i - 2, by omega⟩
    rw [hfds] at hd
    exact .inl (List.eq_of_mem_replicate (List.mem_of_getElem? hd))

/-- Clients 4 to 7 connect and the first two leave: the message of client 6 is sent to descriptor 0,
twice, and not to client 7. -/
theorem reaches_others_fails : ¬ ∀ s, Lts.Run step Lts.Free init s → ∀ th ∈ s.threads,
    th.pc = .recv → ReachesOthers s th.fd := by
  intro hall
  obtain ⟨s, hs, hth, hsends⟩ := Lts.Run.exists_of_exec step
    (serveOne ++ Lts.repeats [(1, .accept 5), (4, .main), (1, .thread 1), (1, .accept 6), (5, .main),
      (1, .thread 2), (1, .accept 7), (6, .main), (1, .thread 3), (1, .recv 0 false),
      (2, .thread 0), (1, .recv 1 false), (3, .thread 1)]) init
    (fun s => ⟨.recv, 6, 0⟩ ∈ s.threads ∧ s.sends 6 = some [0, 0]) (by decide +kernel)
  obtain ⟨sent, hsent, hnodup, -⟩ := hall s hs _ hth rfl
  obtain rfl : [0, 0] = sent := Option.some.inj (hsends.symm.trans hsent)
  exact absurd hnodup (by decide)

end Chat
