import LinuxApi.Tcp.Client

/-!
# What the TCP client prints

The servers put a `NUL` over the last byte of the message, whatever it is (`handle_piece`). So both
of them answer every piece with all but its last byte (`talk_eq`), and that is the piece without its
newline exactly if the piece ends with one.
-/

set_option autoImplicit false

namespace TcpClient

open CLib Convert

/-! ## Pieces -/

/-- Nothing of the input is lost. -/
theorem fgets_append (n : Nat) (input : Bytes) :
    (fgets n input).1 ++ (fgets n input).2 = input := by
  induction n, input using fgets.induct with
  | case1 input => rfl
  | case2 n => rfl
  | case3 n input => simp [fgets]
  | case4 n b input hb ih => simp [fgets, hb, ih]

theorem fgets_length_le (n : Nat) (input : Bytes) : (fgets n input).1.length ≤ n := by
  induction n, input using fgets.induct with
  | case1 input => exact Nat.le_refl _
  | case2 n => exact Nat.zero_le _
  | case3 n input => simp [fgets]
  | case4 n b input hb ih => simpa [fgets, hb] using ih

theorem fgets_ne_nil {n : Nat} {b : UInt8} {input : Bytes} : (fgets (n + 1) (b :: input)).1 ≠ [] := by
  rw [fgets]
  split <;> exact nofun

theorem calls_flatten : ∀ {k : Nat} {input : Bytes}, input.length ≤ k →
    (calls k input).flatten = input
  | 0, input, h => (List.length_eq_zero_iff.1 (Nat.le_zero.1 h)).symm ▸ rfl
  | _ + 1, [], _ => rfl
  | k + 1, b :: input, h => by
    have happ := fgets_append 511 (b :: input)
    have hlen := congrArg List.length happ
    have hpos : 0 < (fgets 511 (b :: input)).1.length := List.length_pos_iff.2 fgets_ne_nil
    rw [List.length_append] at hlen
    rw [calls, List.flatten_cons, calls_flatten (by omega), happ]

theorem pieces_flatten (text : Bytes) : (pieces text).flatten = text :=
  calls_flatten (Nat.le_refl _)

theorem calls_piece {k : Nat} {input piece : Bytes} (h : piece ∈ calls k input) :
    piece ≠ [] ∧ piece.length ≤ 511 := by
  induction k, input using calls.induct with
  | case1 input => cases h
  | case2 k => cases h
  | case3 k b input ih =>
    rw [calls, List.mem_cons] at h
    rcases h with rfl | h
    · exact ⟨fgets_ne_nil, fgets_length_le _ _⟩
    · exact ih h

/-- What the client gets from `fgets`. -/
structure Piece (piece : Bytes) : Prop where
  ne_nil : piece ≠ []
  length_le : piece.length ≤ 511
  noNul : (0 : UInt8) ∉ piece

theorem pieces_piece {text piece : Bytes} (h0 : (0 : UInt8) ∉ text) (h : piece ∈ pieces text) :
    Piece piece := by
  obtain ⟨hne, hle⟩ := calls_piece h
  refine ⟨hne, hle, fun hmem => h0 ?_⟩
  rw [← pieces_flatten text]
  exact List.mem_flatten_of_mem h hmem

/-! ## One message -/

/-- The string of a message, laid over a buffer. -/
theorem full_piece (srv : Server) {piece : Bytes} (h : Piece piece) (buf : Bytes) :
    ∃ rest, srv.full buf (piece ++ [0]) = piece ++ 0 :: rest ∧ cstr (piece ++ 0 :: rest) = piece :=
  ⟨_, by rw [Server.full, fill, List.append_assoc, List.singleton_append],
    (cstr_terminated _ _).trans (cstr_of_notMem h.noNul)⟩

/-- The last byte of the string becomes its end. -/
theorem handle_piece {srv : Server} (hchop : srv.chop = true) {piece : Bytes} (h : Piece piece)
    (buf : Bytes) : ∃ rest, srv.handle buf (piece ++ [0]) =
      some (piece.dropLast.map toupper ++ 0 :: rest,
        (piece.dropLast.map toupper ++ 0 :: rest).take (srv.out (piece.length + 1))) := by
  obtain ⟨rest, hfull, hstr⟩ := full_piece srv h buf
  have hskip : ¬ srv.Skips (piece ++ [0]) := fun hs => absurd hs.2 (by simp)
  have hup : mapCstr toupper (piece ++ 0 :: rest) = some (piece.map toupper ++ 0 :: rest) := by
    rw [mapCstr_eq_some, hstr, List.drop_left']
    · exact ⟨by simp, rfl⟩
    · rfl
  obtain ⟨last, hlast⟩ : ∃ last, piece.length = last + 1 :=
    Nat.exists_eq_succ_of_ne_zero (List.length_pos_iff.2 h.ne_nil).ne'
  have hset : (piece.map toupper ++ 0 :: rest).set last 0 =
      piece.dropLast.map toupper ++ 0 :: 0 :: rest := by
    have hsplit : piece.map toupper =
        piece.dropLast.map toupper ++ [toupper (piece.getLast h.ne_nil)] := by
      conv_lhs => rw [← List.dropLast_append_getLast h.ne_nil]
      rw [List.map_append, List.map_singleton]
    have hlen : (piece.dropLast.map toupper).length = last := by
      rw [List.length_map, List.length_dropLast, hlast]
      rfl
    rw [hsplit, List.append_assoc, List.set_append_right _ _ hlen.le, hlen, Nat.sub_self]
    rfl
  refine ⟨0 :: rest, ?_⟩
  rw [Server.handle, if_neg hskip, hfull, hup, hstr, hlast]
  simp only [hchop, if_true, hset, List.length_append, hlast, List.length_singleton]

/-- The client sends the piece with its `NUL`. -/
theorem sendbuf_piece {piece : Bytes} (h : Piece piece) : cstr (sendbuf piece) = piece ∧
    (sendbuf piece).take (piece.length + 1) = piece ++ [0] := by
  obtain ⟨n, hn⟩ : ∃ n, 512 - piece.length = n + 1 :=
    ⟨511 - piece.length, by have := h.length_le; omega⟩
  have hbuf : sendbuf piece = piece ++ 0 :: List.replicate n 0 := by
    rw [sendbuf, fill, List.drop_replicate, hn, List.replicate_succ]
  refine ⟨?_, ?_⟩
  · rw [hbuf, cstr_terminated, cstr_of_notMem h.noNul]
  · rw [hbuf, List.take_append, List.take_of_length_le (Nat.le_succ _), Nat.add_sub_cancel_left]
    rfl

/-! ## The conversation -/

theorem noNul_dropLast {piece : Bytes} (h : (0 : UInt8) ∉ piece) :
    (0 : UInt8) ∉ piece.dropLast.map toupper := by
  intro h0
  obtain ⟨b, hb, hz⟩ := List.mem_map.1 h0
  exact h (toupper_eq_zero.1 hz ▸ List.mem_of_mem_dropLast hb)

/-- Of every piece, all but its last byte is printed. -/
theorem talk_eq {srv : Server} (hchop : srv.chop = true)
    (hout : ∀ n ≤ 511, n ≤ srv.out (n + 1)) : ∀ {pieces : List Bytes} {revBuff : Bytes},
      (∀ piece ∈ pieces, Piece piece) →
      talk srv revBuff pieces = some ((sent pieces).map fun piece => piece.dropLast.map toupper)
  | [], _, _ => rfl
  | piece :: pieces, revBuff, h => by
    obtain ⟨hp, hps⟩ := List.forall_mem_cons.1 h
    obtain ⟨hstr, htake⟩ := sendbuf_piece hp
    rw [talk, hstr, htake]
    by_cases hq : piece = quit
    · simp [hq, sent]
    · obtain ⟨rest, hh⟩ := handle_piece hchop hp revBuff
      have hsent : sent (piece :: pieces) = piece :: sent pieces := by simp [sent, hq]
      have hlen : (piece.dropLast.map toupper).length < srv.out (piece.length + 1) := by
        have hout := hout piece.length hp.length_le
        have hpos := List.length_pos_iff.2 hp.ne_nil
        rw [List.length_map, List.length_dropLast]
        omega
      have hreply : ∃ t, (piece.dropLast.map toupper ++ 0 :: rest).take (srv.out (piece.length + 1)) =
          piece.dropLast.map toupper ++ 0 :: t := by
        obtain ⟨n, hn⟩ := Nat.exists_eq_add_of_lt hlen
        refine ⟨rest.take n, ?_⟩
        rw [hn, Nat.add_assoc, List.take_length_add_append, List.take_succ_cons]
      obtain ⟨t, ht⟩ := hreply
      have hprint : cstr (fill (sendbuf piece) (piece.dropLast.map toupper ++ 0 :: t)) =
          piece.dropLast.map toupper := by
        rw [fill, List.append_assoc, List.cons_append, cstr_terminated,
          cstr_of_notMem (noNul_dropLast hp.noNul)]
      rw [if_neg hq, hh, hsent]
      simp only [ht, hprint, talk_eq hchop hout hps, Option.map_some, List.map_cons]

/-- A piece has a newline at its end, or its last byte is missed. -/
theorem chomp_iff {piece : Bytes} (h : Piece piece) :
    piece.dropLast.map toupper = (chomp piece).map toupper ↔ piece.getLast? = some 10 := by
  rw [chomp]
  split
  · exact iff_of_true rfl ‹_›
  · refine iff_of_false (fun he => ?_) ‹_›
    have hlen := congrArg List.length he
    have hpos := List.length_pos_iff.2 h.ne_nil
    rw [List.length_map, List.length_map, List.length_dropLast] at hlen
    omega

/-- **When the client gets its text back.** Both servers give the same strings for every text. They
are the pieces in upper case, without their newlines, exactly if every piece ends with a
newline. -/
theorem echoed_iff (text : Bytes) (h0 : (0 : UInt8) ∉ text) :
    printed serverFork text = printed serverThread text ∧
    (Echoed serverFork text ∧ Echoed serverThread text ↔
      ∀ piece ∈ sent (pieces text), piece.getLast? = some 10) := by
  have hpieces : ∀ piece ∈ pieces text, Piece piece := fun piece => pieces_piece h0
  have hfork : printed serverFork text = _ :=
    talk_eq rfl (fun n hn => Nat.le_succ_of_le hn) hpieces
  have hthread : printed serverThread text = _ := talk_eq rfl (fun n _ => Nat.le_succ n) hpieces
  refine ⟨hfork.trans hthread.symm, ?_⟩
  rw [Echoed, Echoed, hfork, hthread, and_self, Option.some_inj, List.map_inj_left]
  refine forall₂_congr fun piece hmem => chomp_iff (hpieces piece ?_)
  exact (List.takeWhile_sublist _).subset hmem

/-- Two lines that are not long. -/
theorem echoed_iff_lines : Echoed serverFork (ascii "ab" ++ [10] ++ ascii "c" ++ [10]) ∧
    Echoed serverThread (ascii "ab" ++ [10] ++ ascii "c" ++ [10]) :=
  (echoed_iff _ (by decide +kernel)).2.2 (by decide +kernel)

/-- The input ends without a newline: its last byte is lost. -/
theorem echoed_fails : (0 : UInt8) ∉ ascii "ab" ∧ printed serverFork (ascii "ab") = some [ascii "A"] ∧
    printed serverThread (ascii "ab") = some [ascii "A"] ∧ ¬ Echoed serverFork (ascii "ab") ∧
    ¬ Echoed serverThread (ascii "ab") := by
  have hfork : printed serverFork (ascii "ab") = some [ascii "A"] := by decide +kernel
  have hthread : printed serverThread (ascii "ab") = some [ascii "A"] := by decide +kernel
  refine ⟨by decide, hfork, hthread, ?_, ?_⟩
  · rw [Echoed, hfork]
    decide +kernel
  · rw [Echoed, hthread]
    decide +kernel

end TcpClient
