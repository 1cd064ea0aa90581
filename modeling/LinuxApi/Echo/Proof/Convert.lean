import LinuxApi.Echo.Convert

/-!
# When the conversion loops stay in the buffer

The loop stays in the buffer if it finds a `NUL` there (`touched_inside`), the store behind it if
the string is not empty, and the write if it is not longer than the buffer (`inside_iff`). Where the
buffer is never zeroed, whether there is a `NUL` depends on all messages so far. What the server
stores does not matter for it: `Holds` compares the server's buffer with the messages laid
over each other, and is kept by every message (`Holds.handle`).
-/

set_option autoImplicit false

namespace Convert

open CLib

/-! ## One message -/

/-- The loop stays in the buffer exactly if there is a `NUL`. -/
theorem touched_inside : ∀ (buf : Bytes) {i : Int}, 0 ≤ i →
    ((∀ j ∈ touched i buf, 0 ≤ j ∧ j < i + buf.length) ↔ (0 : UInt8) ∈ buf)
  | [], i, _ => by simp [touched]
  | b :: buf, i, hi => by
    have ih := touched_inside buf (i := i + 1) (by omega)
    have hlen : i + ((b :: buf).length : Int) = i + 1 + buf.length := by
      rw [List.length_cons]
      omega
    rw [touched, hlen]
    by_cases hb : b = 0
    · have hi' : i < i + 1 + (buf.length : Int) := by omega
      simp [hb, hi, hi']
    · rw [if_neg hb, List.forall_mem_cons, ih, List.mem_cons]
      have h0 : (0 : UInt8) ≠ b := Ne.symm hb
      have hi' : 0 ≤ i ∧ i < i + 1 + (buf.length : Int) := ⟨hi, by omega⟩
      simp [h0, hi']

theorem cstr_length_eq_zero {buf : Bytes} (h : (0 : UInt8) ∈ buf) :
    (cstr buf).length = 0 ↔ buf.head? = some 0 := by
  cases buf with
  | nil => simp at h
  | cons b buf => by_cases hb : b = 0 <;> simp [cstr, hb]

section
variable {srv : Server} {buf msg : Bytes}

theorem full_length (hbuf : buf.length = srv.size) (hmsg : msg.length ≤ srv.size) :
    (srv.full buf msg).length = srv.size := by
  rw [Server.full, fill, List.length_append, List.length_drop]
  split
  · rw [List.length_replicate]
    omega
  · omega

/-- When a message uses no index outside the buffer. -/
theorem inside_iff (hlen : (srv.full buf msg).length = srv.size) : srv.Inside buf msg ↔
    srv.Skips msg ∨ ((0 : UInt8) ∈ srv.full buf msg ∧
      (srv.chop = true → (srv.full buf msg).head? ≠ some 0) ∧ srv.out msg.length ≤ srv.size) := by
  by_cases hs : srv.Skips msg
  · simp [Server.Inside, Server.indices, hs]
  · have hloop := touched_inside (srv.full buf msg) (Int.le_refl 0)
    rw [Int.zero_add, hlen] at hloop
    have hwrite : (∀ i ∈ (List.range (srv.out msg.length)).map fun i : Nat => (i : Int),
        0 ≤ i ∧ i < srv.size) ↔ srv.out msg.length ≤ srv.size := by
      simp only [List.forall_mem_map, List.mem_range, Int.natCast_nonneg, true_and, Int.ofNat_lt]
      exact ⟨fun h => Nat.le_of_not_lt fun hlt => Nat.lt_irrefl _ (h _ hlt),
        fun h i hi => Nat.lt_of_lt_of_le hi h⟩
    rw [Server.Inside, Server.indices, if_neg hs, List.forall_mem_append, List.forall_mem_append,
      hloop, hwrite, or_iff_right hs, and_assoc]
    apply and_congr_right
    intro h0
    apply and_congr_left
    intro _
    have hk := cstr_length_eq_zero h0
    have hle := cstr_length_le (srv.full buf msg)
    cases srv.chop with
    | false => simp
    | true =>
      simp only [if_true, List.mem_singleton, forall_eq, true_implies, ← hk.not]
      omega

/-- A message that uses no index outside is handled. -/
theorem handle_of_inside (hlen : (srv.full buf msg).length = srv.size) (h : srv.Inside buf msg) :
    ∃ x, srv.handle buf msg = some x := by
  rcases (inside_iff hlen).1 h with hs | ⟨h0, hne, -⟩
  · exact ⟨_, if_pos hs⟩
  · by_cases hs : srv.Skips msg
    · exact ⟨_, if_pos hs⟩
    · rw [Server.handle, if_neg hs, mapCstr_eq_some.2 ⟨h0, rfl⟩]
      cases hk : (cstr (srv.full buf msg)).length with
      | succ last => cases srv.chop <;> exact ⟨_, rfl⟩
      | zero =>
        cases hc : srv.chop with
        | false => exact ⟨_, rfl⟩
        | true => exact absurd ((cstr_length_eq_zero h0).1 hk) (hne hc)

end

/-! ## All messages so far -/

/-- The buffer of the server has its `NUL`s where `raw` has them, and others only in front of
them. -/
structure Holds (buf raw : Bytes) : Prop where
  length : buf.length = raw.length
  keep : ∀ p : Nat, raw[p]? = some 0 → buf[p]? = some 0
  front : ∀ p : Nat, buf[p]? = some 0 → ∃ q, p ≤ q ∧ raw[q]? = some 0

theorem Holds.refl (buf : Bytes) : Holds buf buf :=
  ⟨rfl, fun _ h => h, fun p h => ⟨p, Nat.le_refl p, h⟩⟩

section
variable {buf raw : Bytes} (h : Holds buf raw)
include h

theorem Holds.mem : (0 : UInt8) ∈ buf ↔ (0 : UInt8) ∈ raw := by
  constructor
  · intro h0
    obtain ⟨p, hp⟩ := List.mem_iff_getElem?.1 h0
    obtain ⟨q, -, hq⟩ := h.front p hp
    exact List.mem_of_getElem? hq
  · intro h0
    obtain ⟨p, hp⟩ := List.mem_iff_getElem?.1 h0
    exact List.mem_of_getElem? (h.keep p hp)

theorem Holds.fill (msg : Bytes) : Holds (fill buf msg) (fill raw msg) := by
  have hget : ∀ (b : Bytes) (p : Nat), (CLib.fill b msg)[p]? =
      if p < msg.length then msg[p]? else b[p]? := by
    intro b p
    rw [CLib.fill, List.getElem?_append]
    split
    · rfl
    · rw [List.getElem?_drop]
      congr 1
      omega
  refine ⟨?_, ?_, ?_⟩
  · simp only [CLib.fill, List.length_append, List.length_drop, h.length]
  · intro p hp
    rw [hget] at hp ⊢
    split
    · rwa [if_pos ‹_›] at hp
    · exact h.keep p (by rwa [if_neg ‹_›] at hp)
  · intro p hp
    rw [hget] at hp
    split at hp
    · exact ⟨p, Nat.le_refl p, by rwa [hget, if_pos ‹_›]⟩
    · obtain ⟨q, hpq, hq⟩ := h.front p hp
      exact ⟨q, hpq, by rwa [hget, if_neg (by omega)]⟩

/-- The conversion keeps all `NUL`s. -/
theorem Holds.map {up : Bytes} (hup : mapCstr toupper buf = some up) : Holds up raw := by
  have hsame : up.map (· == 0) = buf.map (· == 0) := mapCstr_sameNul (fun _ => toupper_eq_zero) hup
  have hget : ∀ p : Nat, up[p]? = some 0 ↔ buf[p]? = some 0 := by
    have hp0 : ∀ (b : Bytes) (p : Nat), b[p]? = some 0 ↔ (b.map (· == 0))[p]? = some true := by
      intro b p
      simp [List.getElem?_map]
    intro p
    rw [hp0, hp0, hsame]
  have hlen : up.length = buf.length := by simpa using congrArg List.length hsame
  exact ⟨hlen.trans h.length, fun p hp => (hget p).2 (h.keep p hp),
    fun p hp => h.front p ((hget p).1 hp)⟩

/-- So does the store, in front of the end of the string. -/
theorem Holds.set {last p : Nat} (hlast : last ≤ p) (hp : buf[p]? = some 0) :
    Holds (buf.set last 0) raw := by
  refine ⟨by rw [List.length_set, h.length], ?_, ?_⟩
  · intro q hq
    rw [List.getElem?_set]
    split
    · rename_i heq
      rw [if_pos]
      obtain ⟨hlt, -⟩ := List.getElem?_eq_some_iff.1 hp
      omega
    · exact h.keep q hq
  · intro q hq
    rw [List.getElem?_set] at hq
    split at hq
    · rename_i heq
      obtain ⟨r, hr, hr0⟩ := h.front p hp
      exact ⟨r, by omega, hr0⟩
    · exact h.front q hq

end

theorem Holds.full {buf raw : Bytes} (h : Holds buf raw) (srv : Server) (msg : Bytes) :
    Holds (srv.full buf msg) (srv.full raw msg) := by
  rw [Server.full, Server.full]
  split
  · exact (Holds.refl _).fill msg
  · exact h.fill msg

/-- The end of the string. -/
theorem getElem?_cstr_length {buf : Bytes} (h : (0 : UInt8) ∈ buf) :
    buf[(cstr buf).length]? = some 0 := by
  induction buf with
  | nil => simp at h
  | cons b buf ih =>
    by_cases hb : b = 0
    · simp [cstr, hb]
    · have hcons : cstr (b :: buf) = b :: cstr buf := by simp [cstr, hb]
      rw [hcons, List.length_cons, List.getElem?_cons_succ]
      exact ih (List.mem_of_ne_of_mem (Ne.symm hb) h)

/-- What the server does to its buffer does not change where the last `NUL` is. -/
theorem Holds.handle {srv : Server} {buf raw msg : Bytes} {x : Bytes × Bytes} (h : Holds buf raw)
    (hs : ¬ srv.Skips msg) (hx : srv.handle buf msg = some x) :
    Holds x.1 (srv.full raw msg) := by
  have hfull := h.full srv msg
  rw [Server.handle, if_neg hs] at hx
  cases hup : mapCstr toupper (srv.full buf msg) with
  | none => rw [hup] at hx; cases hx
  | some up =>
    rw [hup] at hx
    have h0 := (mapCstr_eq_some.1 hup).1
    have hmap := hfull.map hup
    have hend : up[(cstr (srv.full buf msg)).length]? = some 0 :=
      ((Holds.refl _).map hup).keep _ (getElem?_cstr_length h0)
    simp only at hx
    split at hx
    · split at hx
      · cases hx
      · rename_i hk
        obtain ⟨⟩ := hx
        rw [hk] at hend
        exact hmap.set (Nat.le_succ _) hend
    · obtain ⟨⟩ := hx
      exact hmap

/-- What keeps the server inside its buffer, for the buffer without the server's own stores. -/
def Server.Safe (srv : Server) : Bytes → List Bytes → Prop
  | _, [] => True
  | raw, msg :: msgs =>
    (¬ srv.Skips msg → (0 : UInt8) ∈ srv.full raw msg ∧
      (srv.chop = true → msg.head? ≠ some 0) ∧ srv.out msg.length ≤ srv.size) ∧
    srv.Safe (if srv.Skips msg then raw else srv.full raw msg) msgs

/-- The run of a server over its messages. -/
theorem stays_iff_safe {srv : Server} (hchop : srv.chop = true → srv.guarded = true) :
    ∀ {msgs : List Bytes} {buf raw : Bytes}, Holds buf raw → raw.length = srv.size →
      srv.Fits msgs → (srv.Stays buf msgs ↔ srv.Safe raw msgs)
  | [], _, _, _, _, _ => Iff.rfl
  | msg :: msgs, buf, raw, h, hraw, hfits => by
    obtain ⟨hmsg, hfits⟩ := List.forall_mem_cons.1 hfits
    have hlen : (srv.full buf msg).length = srv.size := full_length (h.length.trans hraw) hmsg
    rw [Server.Stays, Server.Safe, inside_iff hlen, (h.full srv msg).mem]
    by_cases hs : srv.Skips msg
    · have hx : srv.handle buf msg = some (buf, []) := if_pos hs
      simp only [hs, not_true_eq_false, false_implies, true_or, true_and, if_true, hx,
        Option.mem_def, Option.some.injEq, forall_eq']
      exact stays_iff_safe hchop h hraw hfits
    · have hhead : srv.chop = true → (srv.full buf msg).head? = msg.head? := by
        intro hc
        cases msg with
        | nil => exact absurd ⟨hchop hc, rfl⟩ hs
        | cons b msg => rfl
      have hhead' : (srv.chop = true → (srv.full buf msg).head? ≠ some 0) ↔
          (srv.chop = true → msg.head? ≠ some 0) := by
        apply forall_congr'
        intro hc
        rw [hhead hc]
      rw [or_iff_right hs, hhead', if_neg hs, imp_iff_right hs]
      apply and_congr_right
      intro hin
      have hinside : srv.Inside buf msg :=
        (inside_iff hlen).2 (.inr ⟨(h.full srv msg).mem.2 hin.1, hhead'.2 hin.2.1, hin.2.2⟩)
      obtain ⟨x, hx⟩ := handle_of_inside hlen hinside
      simp only [hx, Option.mem_def, Option.some.injEq, forall_eq']
      exact stays_iff_safe hchop (h.handle hs hx) (full_length hraw hmsg) hfits

/-! ## The servers -/

/-- A property of the messages, each with those before it. -/
theorem forall_split_cons {α : Type} {P : List α → α → Prop} {a : α} {l : List α} :
    (∀ hist x rest, a :: l = hist ++ x :: rest → P hist x) ↔
      P [] a ∧ ∀ hist x rest, l = hist ++ x :: rest → P (a :: hist) x := by
  constructor
  · intro h
    exact ⟨h [] a l rfl, fun hist x rest hl => h (a :: hist) x rest (by rw [hl]; rfl)⟩
  · intro h hist x rest hl
    rcases hist with _ | ⟨b, hist⟩
    · obtain ⟨rfl, -⟩ := List.cons.inj hl
      exact h.1
    · obtain ⟨rfl, htail⟩ := List.cons.inj hl
      exact h.2 hist x rest htail

/-- A buffer that is never zeroed holds all messages. -/
theorem safe_iff_overlay {srv : Server} (hclear : srv.clear = false) (hguarded : srv.guarded = true)
    (hout : ∀ n ≤ srv.size, srv.out n ≤ srv.size) :
    ∀ {msgs : List Bytes} {raw : Bytes}, srv.Fits msgs → (srv.Safe raw msgs ↔
      ∀ hist msg rest, msgs = hist ++ msg :: rest → msg ≠ [] →
        (0 : UInt8) ∈ overlay raw (hist ++ [msg]) ∧ (srv.chop = true → msg.head? ≠ some 0))
  | [], _, _ => by simp [Server.Safe]
  | msg :: msgs, raw, hfits => by
    obtain ⟨hmsg, hfits⟩ := List.forall_mem_cons.1 hfits
    have hfull : srv.full raw msg = fill raw msg := by simp [Server.full, hclear]
    have hskip : srv.Skips msg ↔ msg = [] := and_iff_right hguarded
    have hnext : (if srv.Skips msg then raw else srv.full raw msg) = fill raw msg := by
      split
      · rw [hskip.1 ‹_›]
        rfl
      · exact hfull
    rw [Server.Safe, hnext, hskip, hfull, forall_split_cons,
      safe_iff_overlay hclear hguarded hout hfits]
    refine and_congr ?_ Iff.rfl
    simp only [hout _ hmsg, and_true]
    exact Iff.rfl

/-- A buffer that is zeroed before every read holds one message. -/
theorem safe_iff_alone {srv : Server} (hclear : srv.clear = true) :
    ∀ {msgs : List Bytes} {raw : Bytes}, srv.Safe raw msgs ↔
      ∀ msg ∈ msgs, ¬ srv.Skips msg → (msg.length < srv.size ∨ (0 : UInt8) ∈ msg) ∧
        (srv.chop = true → msg.head? ≠ some 0) ∧ srv.out msg.length ≤ srv.size
  | [], _ => by simp [Server.Safe]
  | msg :: msgs, raw => by
    have hmem : (0 : UInt8) ∈ srv.full raw msg ↔ msg.length < srv.size ∨ (0 : UInt8) ∈ msg := by
      rw [Server.full, if_pos hclear, fill, List.drop_replicate, List.mem_append,
        List.mem_replicate, or_comm]
      refine or_congr ?_ Iff.rfl
      rw [and_iff_left rfl]
      omega
    rw [Server.Safe, List.forall_mem_cons, safe_iff_alone hclear, hmem]

/-- The servers that do not zero their buffer. Of these, the child of the forking server stores in front
of a `NUL`. -/
theorem overlay_servers {srv : Server}
    (hsrv : srv ∈ [selectServer, pollServer, udpServer, serverFork]) :
    srv.clear = false ∧ srv.guarded = true ∧ (∀ n ≤ srv.size, srv.out n ≤ srv.size) ∧
      (srv.chop = true ↔ srv = serverFork) := by
  have hne : ∀ s : Server, s.chop = false → (s.chop = true ↔ s = serverFork) := by
    intro s hs
    rw [hs]
    refine ⟨nofun, ?_⟩
    intro he
    rw [he] at hs
    cases hs
  simp only [List.mem_cons, List.not_mem_nil, or_false] at hsrv
  rcases hsrv with rfl | rfl | rfl | rfl
  · exact ⟨rfl, rfl, fun _ h => h, hne _ rfl⟩
  · exact ⟨rfl, rfl, fun _ h => h, hne _ rfl⟩
  · exact ⟨rfl, rfl, fun _ h => h, hne _ rfl⟩
  · exact ⟨rfl, rfl, fun _ _ => Nat.le_refl _, by simp [serverFork]⟩

/-- **When the conversion loops stay in the buffer.** For every history of messages: the select, poll
and UDP servers and the child of the forking server exactly if, after every message, the messages
laid over each other leave a `NUL` in the buffer, and, for the child, no message starts with one.
The thread, exactly if every message is shorter than the buffer or has a `NUL`, and none starts
with one; the event server, exactly if every message is shorter than the buffer. -/
theorem stays_iff (srv : Server) (buf : Bytes) (hbuf : buf.length = srv.size) (msgs : List Bytes)
    (hfits : srv.Fits msgs) :
    (srv ∈ [selectServer, pollServer, udpServer, serverFork] →
      (srv.Stays buf msgs ↔ ∀ hist msg rest, msgs = hist ++ msg :: rest → msg ≠ [] →
        (0 : UInt8) ∈ overlay buf (hist ++ [msg]) ∧
          (srv = serverFork → msg.head? ≠ some 0))) ∧
    (srv = serverThread →
      (srv.Stays buf msgs ↔
        ∀ msg ∈ msgs, (msg.length < 512 ∨ (0 : UInt8) ∈ msg) ∧ msg.head? ≠ some 0)) ∧
    (srv = eventServer → (srv.Stays buf msgs ↔ ∀ msg ∈ msgs, msg.length < 1024)) := by
  refine ⟨?_, ?_, ?_⟩
  · intro hsrv
    obtain ⟨hclear, hguarded, hout, hchop⟩ := overlay_servers hsrv
    rw [stays_iff_safe (fun _ => hguarded) (Holds.refl buf) hbuf hfits,
      safe_iff_overlay hclear hguarded hout hfits]
    simp only [hchop]
  · intro hsrv
    subst hsrv
    rw [stays_iff_safe (fun _ => rfl) (Holds.refl buf) hbuf hfits, safe_iff_alone rfl]
    apply forall₂_congr
    intro msg hmem
    have hle : msg.length ≤ 512 := hfits msg hmem
    cases msg with
    | nil => simp [Server.Skips, serverThread]
    | cons b msg => simpa [Server.Skips, serverThread] using fun _ _ => hle
  · intro hsrv
    subst hsrv
    rw [stays_iff_safe (by decide) (Holds.refl buf) hbuf hfits, safe_iff_alone rfl]
    apply forall₂_congr
    intro msg _
    simp only [Server.Skips, eventServer, Bool.false_eq_true, false_and, not_false_eq_true,
      true_implies, false_implies, true_and]
    constructor
    · intro h
      omega
    · intro h
      exact ⟨.inl h, h⟩

/-- Two messages that a thread handles. -/
theorem stays_iff_thread :
    serverThread.Stays (List.replicate 512 0) [ascii "hello" ++ [10, 0], ascii "ab"] :=
  ((stays_iff serverThread _ (List.length_replicate ..) _ (show ∀ msg ∈ _, _ by decide +kernel)).2.1
    rfl).2 (by decide +kernel)

/-- A message without a `NUL` that fills the buffer makes every loop run past it. The servers of the
TCP clients also store in front of the buffer if a message starts with a `NUL`, and the event server
writes a byte from behind its buffer if the message only just fits. -/
theorem stays_fails :
    (∀ srv ∈ [selectServer, pollServer, serverThread, serverFork, udpServer, eventServer],
      ∃ msgs, srv.Fits msgs ∧ ¬ srv.Stays (List.replicate srv.size 0) msgs) ∧
    (∀ srv ∈ [serverThread, serverFork], ¬ srv.Stays (List.replicate srv.size 0) [[0]]) ∧
    ¬ eventServer.Stays (List.replicate 1024 0) [List.replicate 1023 97 ++ [0]] := by
  have hfull : ∀ srv ∈ [selectServer, pollServer, serverThread, serverFork, udpServer, eventServer],
      ¬ srv.Inside (List.replicate srv.size 0) (List.replicate srv.size 97) := by
    intro srv hsrv
    simp only [List.mem_cons, List.not_mem_nil, or_false] at hsrv
    rcases hsrv with rfl | rfl | rfl | rfl | rfl | rfl <;> decide +kernel
  refine ⟨?_, ?_, ?_⟩
  · intro srv hsrv
    refine ⟨[List.replicate srv.size 97], ?_, fun h => hfull srv hsrv h.1⟩
    intro msg hmsg
    rw [List.mem_singleton.1 hmsg, List.length_replicate]
  · intro srv hsrv h
    have hin := h.1
    revert hin
    simp only [List.mem_cons, List.not_mem_nil, or_false] at hsrv
    rcases hsrv with rfl | rfl <;> decide +kernel
  · intro h
    exact absurd h.1 (by decide +kernel)

/-! ## Short messages -/

/-- Nothing that is shorter than the buffer comes to its last byte. -/
structure Terminated (buf : Bytes) : Prop where
  length : buf.length = 512
  last : buf[511]? = some 0

theorem terminated_init : Terminated (List.replicate 512 0) := ⟨List.length_replicate, by
  rw [List.getElem?_replicate, if_pos (by decide)]⟩

section
variable {buf up chunk : Bytes} (h : Terminated buf) (hlen : chunk.length < 512)

theorem handle_of_upper (hne : chunk ≠ []) (hup : mapCstr toupper (fill buf chunk) = some up) :
    selectServer.handle buf chunk = some (up, up.take chunk.length) := by
  have hfull : selectServer.full buf chunk = fill buf chunk := rfl
  have hskip : ¬ selectServer.Skips chunk := fun hs => hne hs.2
  rw [Server.handle, if_neg hskip, hfull, hup]
  rfl

include h hlen

theorem Terminated.fill : Terminated (fill buf chunk) := by
  refine ⟨?_, ?_⟩
  · rw [CLib.fill, List.length_append, List.length_drop, h.length]
    omega
  · rw [CLib.fill, List.getElem?_append_right (by omega), List.getElem?_drop, ← h.last]
    congr 1
    omega

theorem Terminated.upper : ∃ up, mapCstr toupper (CLib.fill buf chunk) = some up ∧ Terminated up := by
  have hfill := h.fill hlen
  obtain ⟨up, hup⟩ : ∃ up, mapCstr toupper (CLib.fill buf chunk) = some up :=
    ⟨_, mapCstr_eq_some.2 ⟨List.mem_of_getElem? hfill.last, rfl⟩⟩
  have hnul : SameNul up (CLib.fill buf chunk) := mapCstr_sameNul (fun _ => toupper_eq_zero) hup
  have hl := congrArg List.length hnul
  have hz := congrArg (·[511]?) hnul
  rw [List.length_map, List.length_map] at hl
  simp only [List.getElem?_map, hfill.last, Option.map_some] at hz
  obtain ⟨b, hb, hz⟩ := Option.map_eq_some_iff.1 hz
  refine ⟨up, hup, hl.trans hfill.length, ?_⟩
  rw [hb]
  simpa using hz

/-- The loop finds the last byte. -/
theorem Terminated.handle (hne : chunk ≠ []) :
    ∃ x, selectServer.handle buf chunk = some x ∧ Terminated x.1 := by
  obtain ⟨up, hup, hterm⟩ := h.upper hlen
  exact ⟨_, handle_of_upper hne hup, hterm⟩

/-- Text is answered in upper case. -/
theorem Terminated.answer (hne : chunk ≠ []) (h0 : (0 : UInt8) ∉ chunk) :
    selectServer.answer buf chunk = chunk.map toupper := by
  obtain ⟨up, hup, -⟩ := h.upper hlen
  rw [Server.answer, handle_of_upper hne hup]
  show up.take chunk.length = chunk.map toupper
  rw [mapCstr_fill_take hup, cstr_of_notMem h0, List.drop_length, List.append_nil]

end

end Convert
