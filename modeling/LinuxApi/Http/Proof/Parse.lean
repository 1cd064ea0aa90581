import LinuxApi.Http.Buffers

/-!
# Request lines and their buffers

When the words of a request line fit into the arrays that `sscanf` fills (`parse_in_bounds_iff`), and
that the checked parsers agree with the models of the servers where they do (`scanPath_of_scan`,
`cbRead_of_mem`).
-/

set_option autoImplicit false

namespace EpollHttp

open CLib

theorem getLine_fst_length (size : Nat) (c : Conn) : (getLine size c).1.length ≤ size := by
  induction size generalizing c with
  | zero => exact Nat.le_refl _
  | succ size ih =>
    rw [getLine]
    split
    · exact Nat.zero_le _
    · split
      · split <;> exact Nat.succ_le_succ (Nat.zero_le _)
      · split
        · exact Nat.succ_le_succ (Nat.zero_le _)
        · exact Nat.succ_le_succ (ih _)

theorem requestLine_length {c : Conn} {line : Bytes} (h : requestLine? c = some line) :
    line.length ≤ 1023 := by
  unfold requestLine? at h
  split at h
  · obtain rfl := Option.some.inj h
    exact getLine_fst_length 1023 c
  · cases h

/-- `buff` is as large as the line, so that only the first word can be too long. -/
theorem scan_isSome_iff {line : Bytes} (hl : line.length ≤ 1023) :
    (scan requestFormat line).isSome = true ↔ (word (· = 32) line).length ≤ 9 := by
  have hpath : (word (· = 32) (skipSpace (afterWord (· = 32) line))).length < 1024 := by
    have h1 := word_length_le (· = 32) (skipSpace (afterWord (· = 32) line))
    have h2 := skipSpace_length_le (afterWord (· = 32) line)
    have h3 := afterWord_length_le (· = 32) line
    omega
  simp only [requestFormat, scan_word_isSome, scan_blank, scan_nil, hpath, Option.isSome_some,
    and_self, or_true, and_true]
  constructor
  · intro h
    rcases h with h | h
    · simp [h]
    · omega
  · intro h
    exact .inr (by omega)

/-- Where the words fit, `buff` holds the second one, or what it was initialised with. -/
theorem scanPath_of_scan {line : Bytes} {words : List Bytes}
    (h : scan requestFormat line = some words) : scanPath line = (words[1]?).getD [] := by
  unfold scanPath
  rcases scan_word_eq_some.1 h with ⟨h1, rfl⟩ | ⟨h1, -, rest, hr, rfl⟩
  · simp only [scanSet_of_nil h1]
    rfl
  · rcases scan_word_eq_some.1 (scan_blank _ _ ▸ hr) with ⟨h2, rfl⟩ | ⟨h2, -, rest, -, rfl⟩
    · simp only [scanSet_of_ne h1, scanSet_of_nil h2]
      rfl
    · simp only [scanSet_of_ne h1, scanSet_of_ne h2]
      rfl

theorem scanPath_length_le (line : Bytes) : (scanPath line).length ≤ line.length := by
  unfold scanPath
  by_cases h1 : word (· = 32) line = []
  · simp only [scanSet_of_nil h1]
    exact Nat.zero_le _
  by_cases h2 : word (· = 32) (skipSpace (afterWord (· = 32) line)) = []
  · simp only [scanSet_of_ne h1, scanSet_of_nil h2]
    exact Nat.zero_le _
  · simp only [scanSet_of_ne h1, scanSet_of_ne h2]
    exact Nat.le_trans (word_length_le _ _)
      (Nat.le_trans (skipSpace_length_le _) (afterWord_length_le _ _))

end EpollHttp

namespace Libevent

open CLib Http

theorem zero_mem_readBuff (input : Bytes) :
    (0 : UInt8) ∈ readBuff input ↔ input.length < 4096 ∨ (0 : UInt8) ∈ input.take 4096 := by
  rw [readBuff, fill, List.mem_append, List.drop_replicate, List.mem_replicate, List.length_take]
  constructor
  · intro h
    rcases h with h | ⟨h, -⟩
    · exact .inr h
    · exact .inl (by omega)
  · intro h
    rcases h with h | h
    · exact .inr ⟨by omega, rfl⟩
    · exact .inl h

theorem cstr_readBuff (input : Bytes) : cstr (readBuff input) = cstr (input.take 4096) := by
  have hz : ∀ n, cstr (List.replicate n 0) = [] := by
    intro n
    cases n <;> simp [cstr, List.replicate_succ]
  rw [readBuff, fill, cstr_append, List.drop_replicate, hz, List.append_nil]
  split
  · exact (cstr_of_length ‹_›).symm
  · rfl

/-- Where the accesses are in bounds, the model of `cb_read` has the words that were scanned. -/
theorem scanWords_of_scan (junk : Words) {s : Bytes} {words : List Bytes}
    (h : scan requestFormat s = some words) :
    scanWords junk s =
      { method := (words[0]?).getD junk.method
        path := (words[1]?).getD junk.path
        protocol := (words[2]?).getD junk.protocol } := by
  unfold scanWords
  rcases scan_word_eq_some.1 h with ⟨h1, rfl⟩ | ⟨h1, -, rest, hr, rfl⟩
  · simp only [scanSet_of_nil h1]
    rfl
  rcases scan_word_eq_some.1 (scan_blank _ _ ▸ hr) with ⟨h2, rfl⟩ | ⟨h2, -, rest, hr', rfl⟩
  · simp only [scanSet_of_ne h1, scanSet_of_nil h2]
    rfl
  rcases scan_word_eq_some.1 (scan_blank _ _ ▸ hr') with ⟨h3, rfl⟩ | ⟨h3, -, rest, -, rfl⟩
  · simp only [scanSet_of_ne h1, scanSet_of_ne h2, scanSet_of_nil h3]
    rfl
  · simp only [scanSet_of_ne h1, scanSet_of_ne h2, scanSet_of_ne h3]
    rfl

/-- What `http_response` gets, if nothing is accessed that must not be. -/
theorem cbRead_of_mem {input : Bytes} {path : Option Bytes} (h : cbReadMem input = some path)
    (junk : Words) : (cbRead junk input).1 = path.map filePath := by
  unfold cbReadMem at h
  split at h
  · split at h
    · cases h
    · cases h
    · rename_i method words hs
      have hw := scanWords_of_scan junk hs
      rw [cstr_readBuff] at hw
      simp only [cbRead, hw, List.getElem?_cons_zero, Option.getD_some]
      split at h
      · rename_i hg
        obtain ⟨p, hp, rfl⟩ := Option.map_eq_some_iff.1 h
        simp [hg, List.head?_eq_getElem?.symm ▸ hp]
      · rename_i hg
        obtain rfl := Option.some.inj h
        simp [hg]
  · cases h

/-- The words of a block. -/
def inputWords (input : Bytes) : Words := requestWords (cstr (input.take 4096))

/-- The blocks that `cb_read` can take: with a terminator behind them, with a method, with words that
are shorter than their arrays, and with a path if the method is `get`. -/
structure Parsable (input : Bytes) : Prop where
  terminated : input.length < 4096 ∨ (0 : UInt8) ∈ input.take 4096
  method_ne : (inputWords input).method ≠ []
  method_le : (inputWords input).method.length ≤ 49
  path_le : (inputWords input).path.length ≤ 1023
  protocol_le : (inputWords input).protocol.length ≤ 31
  assigned : isGet (inputWords input).method = true → (inputWords input).path ≠ []

/-- Where there is no path there is no protocol. -/
theorem requestWords_protocol {s : Bytes} (h : (requestWords s).path = []) :
    (requestWords s).protocol = [] := by
  have hp : skipSpace (afterWord (· = 32) s) = [] := by
    refine skipSpace_eq_nil (fun b hb => ?_) h
    rw [of_decide_eq_true hb]
    rfl
  simp only [requestWords, hp]
  rfl

/-- When the words fit into their arrays. -/
theorem scan_isSome_iff (s : Bytes) : (scan requestFormat s).isSome = true ↔
    (requestWords s).method = [] ∨ (requestWords s).method.length ≤ 49 ∧
      (requestWords s).path.length ≤ 1023 ∧ (requestWords s).protocol.length ≤ 31 := by
  have hp := requestWords_protocol (s := s)
  simp only [requestFormat, scan_word_isSome, scan_blank, scan_nil, Option.isSome_some, and_true]
  simp only [requestWords] at hp ⊢
  refine or_congr_right (and_congr Nat.lt_succ_iff ?_)
  constructor
  · intro h
    rcases h with h2 | ⟨h2, h3 | h3⟩
    · simp [h2, hp h2]
    · exact ⟨Nat.lt_succ_iff.1 h2, by simp [h3]⟩
    · exact ⟨Nat.lt_succ_iff.1 h2, Nat.lt_succ_iff.1 h3⟩
  · intro h
    obtain ⟨h2, h3⟩ := h
    exact .inr ⟨Nat.lt_succ_iff.2 h2, .inr (Nat.lt_succ_iff.2 h3)⟩

/-- The words that are stored: those before the first one that is missing. -/
theorem words_of_scan {s : Bytes} {words : List Bytes} (h : scan requestFormat s = some words) :
    words = [(requestWords s).method, (requestWords s).path, (requestWords s).protocol].takeWhile
      (· ≠ []) := by
  simp only [requestWords]
  rcases scan_word_eq_some.1 h with ⟨h1, rfl⟩ | ⟨h1, -, rest, hr, rfl⟩
  · simp [h1]
  rcases scan_word_eq_some.1 (scan_blank _ _ ▸ hr) with ⟨h2, rfl⟩ | ⟨h2, -, rest, hr', rfl⟩
  · simp [h1, h2]
  rcases scan_word_eq_some.1 (scan_blank _ _ ▸ hr') with ⟨h3, rfl⟩ | ⟨h3, -, rest, hr'', rfl⟩
  · simp [h1, h2, h3]
  · obtain rfl : rest = [] := (Option.some.inj hr'').symm
    simp [h1, h2, h3]

/-- What `cb_read` passes on, of a block that it can take. -/
theorem cbReadMem_of_parsable {input : Bytes} (h : Parsable input) :
    cbReadMem input =
      some (if isGet (inputWords input).method then some (inputWords input).path else none) := by
  have hfit := (scan_isSome_iff (cstr (input.take 4096))).2
    (.inr ⟨h.method_le, h.path_le, h.protocol_le⟩)
  obtain ⟨words, hs⟩ := Option.isSome_iff_exists.1 hfit
  have hw : words = [(inputWords input).method, (inputWords input).path,
      (inputWords input).protocol].takeWhile (· ≠ []) := words_of_scan hs
  rw [List.takeWhile_cons_of_pos (by simpa using h.method_ne)] at hw
  rw [cbReadMem, if_pos ((zero_mem_readBuff input).2 h.terminated), cstr_readBuff, hs, hw]
  simp only
  by_cases hg : isGet (inputWords input).method = true
  · rw [if_pos hg, if_pos hg, List.takeWhile_cons_of_pos (by simpa using h.assigned hg)]
    rfl
  · rw [if_neg hg, if_neg hg]

theorem parsable_of_mem {input : Bytes} {path : Option Bytes}
    (h : cbReadMem input = some path) : Parsable input := by
  unfold cbReadMem at h
  split at h
  · rename_i h0
    rw [cstr_readBuff] at h
    split at h
    · cases h
    · cases h
    · rename_i method words hs
      have hw : method :: words = [(inputWords input).method, (inputWords input).path,
          (inputWords input).protocol].takeWhile (· ≠ []) := words_of_scan hs
      have hne : (inputWords input).method ≠ [] := by
        intro hn
        rw [List.takeWhile_cons_of_neg (by simpa using hn)] at hw
        cases hw
      rw [List.takeWhile_cons_of_pos (by simpa using hne)] at hw
      obtain ⟨rfl, hrest⟩ := List.cons.inj hw
      have hfit := (scan_isSome_iff (cstr (input.take 4096))).1 (hs ▸ rfl)
      obtain ⟨h1, h2, h3⟩ := hfit.resolve_left hne
      refine ⟨(zero_mem_readBuff input).1 h0, hne, h1, h2, h3, fun hg hn => ?_⟩
      rw [List.takeWhile_cons_of_neg (by simpa using hn)] at hrest
      rw [if_pos hg, hrest] at h
      cases h
  · cases h

/-- When the accesses of `cb_read` are in bounds. -/
theorem cbReadMem_isSome_iff (input : Bytes) :
    (cbReadMem input).isSome = true ↔ Parsable input := by
  constructor
  · intro h
    obtain ⟨path, hp⟩ := Option.isSome_iff_exists.1 h
    exact parsable_of_mem hp
  · intro h
    rw [cbReadMem_of_parsable h]
    rfl

end Libevent

namespace Http

open CLib

/-- **When the parsers of the two servers stay in bounds**: the one of the epoll server for the
request lines with a first word of at most 9 bytes, the one of the libevent server, which also has to
have assigned what it uses, for the blocks that are `Parsable`. -/
theorem parse_in_bounds_iff {c : EpollHttp.Conn} {line : Bytes}
    (h : EpollHttp.requestLine? c = some line) (input : Bytes) :
    ((scan EpollHttp.requestFormat (cstr line)).isSome = true ↔
      (word (· = 32) (cstr line)).length ≤ 9) ∧
    ((Libevent.cbReadMem input).isSome = true ↔ Libevent.Parsable input) := by
  refine ⟨EpollHttp.scan_isSome_iff ?_, Libevent.cbReadMem_isSome_iff input⟩
  exact Nat.le_trans (cstr_length_le line) (EpollHttp.requestLine_length h)

/-- A request that both parsers can take. -/
theorem parse_in_bounds_index :
    (scan EpollHttp.requestFormat (cstr (ascii "GET /a HTTP/1.1\n"))).isSome = true ∧
    (Libevent.cbReadMem (ascii "GET /a HTTP/1.1\r\n\r\n")).isSome = true := by
  have hline : EpollHttp.requestLine? ⟨[], ascii "GET /a HTTP/1.1\r\n\r\n", false⟩ =
      some (ascii "GET /a HTTP/1.1\n") := by decide +kernel
  have h := parse_in_bounds_iff hline (ascii "GET /a HTTP/1.1\r\n\r\n")
  refine ⟨h.1.2 ?_, h.2.2 ⟨?_, ?_, ?_, ?_, ?_, ?_⟩⟩ <;> decide +kernel

/-- A request line with a long first word overruns `mothod`, and a block that is the word `get` alone
leaves `path` unassigned. -/
theorem parse_in_bounds_fails :
    (¬ ∀ c line, EpollHttp.requestLine? c = some line →
      (scan EpollHttp.requestFormat (cstr line)).isSome = true) ∧
    ¬ ∀ input, (Libevent.cbReadMem input).isSome = true := by
  constructor
  · intro h
    exact absurd (h ⟨[], ascii "getxxxxxxxxxx /\r\n", false⟩ (ascii "getxxxxxxxxxx /\n")
      (by decide +kernel)) (by decide +kernel)
  · intro h
    exact absurd (h (ascii "get")) (by decide +kernel)

end Http
