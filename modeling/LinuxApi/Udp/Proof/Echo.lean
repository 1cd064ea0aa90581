import LinuxApi.Echo.Proof.Convert
import LinuxApi.Lib.Exchange
import LinuxApi.Tcp.Proof.Client
import LinuxApi.Udp.Echo

/-!
# The UDP client gets its own text back

The server answers a string with the string in upper case, whatever its buffer held before
(`serve_string`). So clients, server and network are an exchange of questions and answers
(`Rel`, kept by every step), and its phases tell what a client has printed (`echoed_of_run`), when it
hangs (`hangs_iff`), and what duplicates can do (`echoed_of_duplicates`).
-/

set_option autoImplicit false

namespace Udp

open CLib Convert

/-! ## Strings in a datagram -/

/-- What is sent, without the `NUL` behind it. -/
structure Str (q : Bytes) : Prop where
  noNul : (0 : UInt8) ∉ q
  length_le : q.length ≤ 1023

theorem Str.upper {q : Bytes} (h : Str q) : Str (q.map toupper) := by
  refine ⟨?_, by rw [List.length_map]; exact h.length_le⟩
  intro h0
  obtain ⟨b, hb, hz⟩ := List.mem_map.1 h0
  exact h.noNul (toupper_eq_zero.1 hz ▸ hb)

theorem percentS_terminated {q : Bytes} (h : (0 : UInt8) ∉ q) (t : Bytes) :
    percentS (q ++ 0 :: t) = some q := by
  rw [percentS, if_pos (by simp), cstr_terminated, cstr_of_notMem h]

/-- `strlen(buf) + 1` bytes. -/
theorem take_cstr {buf : Bytes} (h : (0 : UInt8) ∈ buf) :
    buf.take ((cstr buf).length + 1) = cstr buf ++ [0] := by
  have hpre : cstr buf = buf.take (cstr buf).length :=
    List.prefix_iff_eq_take.1 (List.takeWhile_prefix _)
  rw [List.take_add_one, getElem?_cstr_length h, ← hpre]
  rfl

theorem line_str (text : Bytes) (n : Nat) : Str (line text n) :=
  ⟨notMem_cstr _, (cstr_length_le _).trans (TcpClient.fgets_length_le _ _)⟩

/-- What a client sends: the string that `fgets` left in `buf`. -/
theorem sendto_data (text : Bytes) (n : Nat) :
    let buf := fill (List.replicate 1024 0) (TcpClient.fgets 1023 (left text n)).1
    buf.take ((cstr buf).length + 1) = line text n ++ [0] := by
  intro buf
  have hle := TcpClient.fgets_length_le 1023 (left text n)
  obtain ⟨hm, hstr⟩ := fill_zeros (n := 1024) (Nat.lt_of_le_of_lt hle (by decide))
  rw [take_cstr hm, hstr, line]

/-- The server's answer to a string does not depend on what its buffer held. -/
theorem serve_string {q : Bytes} (h : Str q) (buf : Bytes) :
    ∃ up, udpServer.handle buf (q ++ [0]) = some (up, q.map toupper ++ [0]) ∧
      percentS (udpServer.full buf (q ++ [0])) = some q ∧ percentS up = some (q.map toupper) := by
  have hskip : ¬ udpServer.Skips (q ++ [0]) := fun hs => absurd hs.2 (by simp)
  have hfull : udpServer.full buf (q ++ [0]) = q ++ 0 :: buf.drop (q.length + 1) := by
    simp [Server.full, udpServer, fill]
  have hstr : cstr (udpServer.full buf (q ++ [0])) = q := by
    rw [hfull, cstr_terminated, cstr_of_notMem h.noNul]
  have hup : mapCstr toupper (udpServer.full buf (q ++ [0])) =
      some (q.map toupper ++ 0 :: buf.drop (q.length + 1)) := by
    rw [mapCstr_eq_some, hstr, hfull, List.drop_left']
    · exact ⟨by simp, rfl⟩
    · rfl
  refine ⟨q.map toupper ++ 0 :: buf.drop (q.length + 1), ?_, ?_,
    percentS_terminated h.upper.noNul _⟩
  · have htake : (q.map toupper ++ 0 :: buf.drop (q.length + 1)).take (q.length + 1) =
        q.map toupper ++ [0] := by
      rw [← List.singleton_append, ← List.append_assoc, List.take_left']
      simp
    rw [Server.handle, if_neg hskip, hup]
    simp only [udpServer, Bool.false_eq_true, if_false, id, List.length_append,
      List.length_singleton, htake]
  · rw [hfull, percentS_terminated h.noNul]

theorem serve_eq {ι : Type} {q : Bytes} (h : Str q) (s : State ι) (i : ι) :
    ∃ up, serve s i (q ++ [0]) = { s with
      recvBuff := up
      shown := s.shown ++ [(i, some q, some (q.map toupper))]
      net := s.net ++ [.reply i (q.map toupper ++ [0])] } := by
  obtain ⟨up, hup, hrecv, hsend⟩ := serve_string h s.recvBuff
  have htake : (q ++ [(0 : UInt8)]).take 1024 = q ++ [0] := by
    apply List.take_of_length_le
    rw [List.length_append, List.length_singleton]
    exact Nat.succ_le_succ h.length_le
  refine ⟨up, ?_⟩
  rw [serve, htake]
  simp only [List.append_eq_nil_iff, List.cons_ne_nil, and_false, if_false, hup, hrecv, hsend]

/-! ## The simulation -/

/-- A datagram of the exchange, as it is sent. -/
def enc {ι : Type} : Exchange.Packet ι Bytes Bytes → Packet ι
  | .ask i q => .request i (q ++ [0])
  | .answer i r => .reply i (r ++ [0])

/-- The string in a datagram. -/
def str {ι : Type} : Exchange.Packet ι Bytes Bytes → Bytes
  | .ask _ q => q
  | .answer _ r => r

/-- A client with the strings it has sent and those it got. -/
structure Talks (text : Bytes) (c : Client) (asked got : List Bytes) : Prop where
  input : c.input = left text asked.length
  lines : asked = (List.range asked.length).map (line text)
  waits : c.buf = none ↔ asked.length = got.length
  length : got.length ≤ asked.length ∧ asked.length ≤ got.length + 1
  printed : c.printed = got.map some

/-- Clients, server and network, and the losses so far, as an exchange of strings. -/
structure Rel {ι : Type} (texts : ι → Bytes) (x : State ι × List ι)
    (t : Exchange.State ι Bytes Bytes) : Prop where
  client : ∀ i, Talks (texts i) (x.1.clients i) (t.asked i) (t.got i)
  shown : x.1.shown = t.served.map fun y => (y.1, some y.2, some (y.2.map toupper))
  net : x.1.net = t.net.map enc
  strs : ∀ p ∈ t.net, Str (str p)
  running : x.1.stopped = false
  lost : x.2 = t.lost

section
variable {text input : Bytes} {asked got : List Bytes} {printed : List (Option Bytes)}

theorem Talks.sendto (h : Talks text ⟨input, none, printed⟩ asked got) (buf : Bytes) :
    Talks text ⟨(TcpClient.fgets 1023 input).2, some buf, printed⟩
      (asked ++ [line text asked.length]) got := by
  have hlen : asked.length = got.length := h.waits.1 rfl
  have hinput : input = left text asked.length := h.input
  refine ⟨?_, ?_, ?_, ?_, h.printed⟩
  · rw [List.length_append, List.length_singleton, left, hinput]
  · rw [List.length_append, List.length_singleton, List.range_succ, List.map_append, ← h.lines]
    rfl
  · simp [hlen]
  · rw [List.length_append, List.length_singleton]
    omega

theorem Talks.recvfrom {buf : Bytes} (h : Talks text ⟨input, some buf, printed⟩ asked got)
    (r : Bytes) : got.length < asked.length ∧
      Talks text ⟨input, none, printed ++ [some r]⟩ asked (got ++ [r]) := by
  have hne : asked.length ≠ got.length := fun he => nomatch h.waits.2 he
  have hlen := h.length
  refine ⟨by omega, h.input, h.lines, ?_, ?_, ?_⟩
  · rw [List.length_append, List.length_singleton]
    exact iff_of_true rfl (by omega)
  · rw [List.length_append, List.length_singleton]
    omega
  · rw [List.map_append, ← h.printed]
    rfl

/-- The first strings that were sent. -/
theorem Talks.take {c : Client} (h : Talks text c asked got) {l : List Bytes}
    (hl : l <+: asked) : l = (List.range l.length).map (line text) := by
  have htake := List.prefix_iff_eq_take.1 hl
  rwa [h.lines, ← List.map_take, List.take_range, Nat.min_eq_left hl.length_le] at htake

end

section
variable {ι : Type} {texts : ι → Bytes} {x x' : State ι × List ι}
  {t : Exchange.State ι Bytes Bytes} {i : ι} {k : Nat}

theorem Rel.start (texts : ι → Bytes) (recvBuff : Bytes) :
    Rel texts (init texts recvBuff, []) (Exchange.init ι Bytes Bytes) where
  client _ := ⟨rfl, rfl, iff_of_true rfl rfl, ⟨Nat.le_refl _, Nat.le_succ _⟩, rfl⟩
  shown := rfl
  net := rfl
  strs := by simp [Exchange.init]
  running := rfl
  lost := rfl

section
variable (h : Rel texts x t)
include h

theorem Rel.packet {p : Packet ι} (hp : x.1.net[k]? = some p) :
    ∃ e, t.net[k]? = some e ∧ p = enc e ∧ Str (str e) := by
  rw [h.net, List.getElem?_map, Option.map_eq_some_iff] at hp
  obtain ⟨e, he, rfl⟩ := hp
  exact ⟨e, he, rfl, h.strs e (List.mem_of_getElem? he)⟩

theorem Rel.eraseIdx (k : Nat) :
    x.1.net.eraseIdx k = (t.net.eraseIdx k).map enc ∧ ∀ p ∈ t.net.eraseIdx k, Str (str p) :=
  ⟨by rw [h.net, List.eraseIdx_map], fun p hp => h.strs p ((List.eraseIdx_sublist _ _).subset hp)⟩

theorem Rel.append {p : Exchange.Packet ι Bytes Bytes} (hp : Str (str p)) :
    x.1.net ++ [enc p] = (t.net ++ [p]).map enc ∧ ∀ p' ∈ t.net ++ [p], Str (str p') := by
  refine ⟨by rw [h.net, List.map_append, List.map_singleton], ?_⟩
  intro p' hp'
  rcases List.mem_append.1 hp' with hp' | hp'
  · exact h.strs p' hp'
  · rwa [List.mem_singleton.1 hp']

variable [DecidableEq ι]

theorem Rel.update {c : Client} {asked got : List Bytes} (hc : Talks (texts i) c asked got)
    (j : ι) : Talks (texts j) (Function.update x.1.clients i c j)
      (Function.update t.asked i asked j) (Function.update t.got i got j) := by
  by_cases hj : j = i
  · subst hj
    simpa only [Function.update_self] using hc
  · simpa only [Function.update_of_ne hj] using h.client j

theorem Rel.sendto {s' : State ι} (hst : step x.1 (.sendto i) = some s') :
    ∃ t', Exchange.step (List.map toupper) t
      (.ask i (line (texts i) (t.asked i).length)) = some t' ∧ Rel texts (s', x.2) t' := by
  have hc := h.client i
  simp only [step] at hst
  split at hst
  · rename_i input printed heq
    rw [heq] at hc
    obtain rfl : input = left (texts i) (t.asked i).length := hc.input
    rw [sendto_data] at hst
    obtain ⟨⟩ := hst
    obtain ⟨hnet, hstrs⟩ := h.append (p := .ask i (line (texts i) (t.asked i).length))
      (line_str _ _)
    refine ⟨_, Exchange.step_ask _ (hc.waits.1 rfl), ?_, h.shown, hnet, hstrs,
      h.running, h.lost⟩
    intro j
    have hupd := h.update (hc.sendto (fill (List.replicate 1024 0)
      (TcpClient.fgets 1023 (left (texts i) (t.asked i).length)).1)) j
    rwa [Function.update_eq_self i t.got] at hupd
  · cases hst

theorem Rel.serve {s' : State ι} (hst : step x.1 (.serve k) = some s') :
    ∃ t', Exchange.step (List.map toupper) t (.serve k) = some t' ∧ Rel texts (s', x.2) t' := by
  simp only [step] at hst
  split at hst
  · rename_i i data hstop hk
    obtain ⟨e, he, henc, hstr⟩ := h.packet hk
    cases e with
    | answer j r => cases henc
    | ask j q =>
      obtain ⟨rfl, rfl⟩ := Packet.request.inj henc
      obtain ⟨hnet, hstrs⟩ := h.eraseIdx k
      obtain ⟨up, hup⟩ := serve_eq (q := q) hstr
        ⟨x.1.clients, x.1.recvBuff, x.1.shown, x.1.stopped, x.1.net.eraseIdx k⟩ i
      rw [hup] at hst
      obtain ⟨⟩ := hst
      refine ⟨_, Exchange.step_serve he, h.client, ?_, ?_, ?_, h.running, h.lost⟩
      · rw [List.map_append, ← h.shown]
        rfl
      · rw [List.map_append, ← hnet]
        rfl
      · intro p hp
        rcases List.mem_append.1 hp with hp | hp
        · exact hstrs p hp
        · rw [List.mem_singleton.1 hp]
          exact hstr.upper
  · cases hst

theorem Rel.recvfrom {s' : State ι} (hst : step x.1 (.recvfrom k) = some s') :
    ∃ t', Exchange.step (List.map toupper) t (.deliver k) = some t' ∧ Rel texts (s', x.2) t' := by
  simp only [step] at hst
  split at hst
  · rename_i i data hk
    obtain ⟨e, he, henc, hstr⟩ := h.packet hk
    cases e with
    | ask j q => cases henc
    | answer j r =>
      obtain ⟨rfl, rfl⟩ := Packet.reply.inj henc
      have hc := h.client i
      split at hst
      · rename_i input buf printed heq
        rw [heq] at hc
        obtain ⟨hlen, htalks⟩ := hc.recvfrom r
        obtain ⟨hnet, hstrs⟩ := h.eraseIdx k
        have htake : (r ++ [(0 : UInt8)]).take 1024 = r ++ [0] := by
          apply List.take_of_length_le
          rw [List.length_append, List.length_singleton]
          exact Nat.succ_le_succ hstr.length_le
        have hprint : percentS (fill buf ((r ++ [(0 : UInt8)]).take 1024)) = some r := by
          rw [htake, fill, List.append_assoc]
          exact percentS_terminated hstr.noNul _
        rw [hprint] at hst
        obtain ⟨⟩ := hst
        refine ⟨_, Exchange.step_deliver he hlen, ?_, h.shown, hnet, hstrs,
          h.running, h.lost⟩
        intro j
        have hupd := h.update htalks j
        rwa [Function.update_eq_self i t.asked] at hupd
      · cases hst
  · cases hst

theorem Rel.lose {s' : State ι} (hst : step x.1 (.lose k) = some s') :
    ∃ t', Exchange.step (List.map toupper) t (.lose k) = some t' ∧
      Rel texts (s', recordLost x.1 (.lose k) x.2) t' := by
  simp only [step, Option.ite_none_right_eq_some, Option.some.injEq] at hst
  obtain ⟨hk, rfl⟩ := hst
  have hget := List.getElem?_eq_getElem hk
  obtain ⟨e, he, henc, -⟩ := h.packet hget
  obtain ⟨hnet, hstrs⟩ := h.eraseIdx k
  refine ⟨_, Exchange.step_lose he, h.client, h.shown, hnet, hstrs, h.running, ?_⟩
  have hclient : (enc e).client = e.asker := by cases e <;> rfl
  simp only [recordLost, hget, henc, h.lost, hclient]

theorem Rel.double {s' : State ι} (hst : step x.1 (.double k) = some s') :
    ∃ t', Exchange.step (List.map toupper) t (.double k) = some t' ∧ Rel texts (s', x.2) t' := by
  simp only [step] at hst
  split at hst
  · rename_i p hk
    obtain ⟨e, he, rfl, hstr⟩ := h.packet hk
    obtain ⟨⟩ := hst
    obtain ⟨hnet, hstrs⟩ := h.append hstr
    exact ⟨_, Exchange.step_double he, h.client, h.shown, hnet, hstrs, h.running, h.lost⟩
  · cases hst

/-- Every step of the programs or the network is one of the exchange. -/
theorem Rel.step {a : Act ι} {x' : State ι × List ι}
    (hst : Lts.withHist step recordLost x a = some x') :
    ∃ a' t', Exchange.step (List.map toupper) t a' = some t' ∧ Rel texts x' t' ∧
      (Single x.1 a → Exchange.Single t a') := by
  obtain ⟨hst, hl⟩ := Lts.withHist_eq_some.1 hst
  obtain ⟨s', l'⟩ := x'
  subst hl
  cases a with
  | sendto i =>
    obtain ⟨t', ht, hrel⟩ := h.sendto hst
    exact ⟨_, t', ht, hrel, fun _ k => by simp⟩
  | serve k =>
    obtain ⟨t', ht, hrel⟩ := h.serve hst
    exact ⟨_, t', ht, hrel, fun _ k => by simp⟩
  | recvfrom k =>
    obtain ⟨t', ht, hrel⟩ := h.recvfrom hst
    exact ⟨_, t', ht, hrel, fun _ k => by simp⟩
  | lose k =>
    obtain ⟨t', ht, hrel⟩ := h.lose hst
    exact ⟨_, t', ht, hrel, fun _ k => by simp⟩
  | double k =>
    obtain ⟨t', ht, hrel⟩ := h.double hst
    exact ⟨_, t', ht, hrel, fun hs => nomatch hs⟩

end

/-! ## Runs -/

section
variable [DecidableEq ι] {lost : List ι}

/-- What follows without duplication, with the losses. -/
theorem Rel.runs {s : State ι} (h : Rel texts x t) (hr : Lts.Run Udp.step Single x.1 s) :
    ∃ lost t', Lts.Run (Exchange.step (List.map toupper)) Exchange.Single t t' ∧
      Rel texts (s, lost) t' := by
  obtain ⟨lost, hr⟩ : ∃ lost,
      Lts.Run (Lts.withHist Udp.step recordLost) (fun x a => Single x.1 a) x (s, lost) :=
    hr.lift x.2
  obtain ⟨t', ht, hrel⟩ := hr.sim (g := Exchange.Single) h fun x a x' t hrel hs hst => by
    obtain ⟨a', t', hst', hrel', hs'⟩ := hrel.step hst
    exact ⟨a', t', hs' hs, hst', hrel'⟩
  exact ⟨lost, t', ht, hrel⟩

/-- What the server shows of a client. -/
theorem Rel.shownOf (h : Rel texts x t) (i : ι) :
    x.1.shownOf i = (t.servedOf i).map fun q => (some q, some (q.map toupper)) := by
  rw [State.shownOf, h.shown, Exchange.State.servedOf, List.filterMap_map, List.map_filterMap]
  congr 1
  funext y
  by_cases hy : y.1 = i <;> simp [hy]

end

/-- **The conversation with the UDP server.** While no datagram is duplicated, every client has
printed its own strings in upper case, each once and in their order, whatever the other clients send
and in whatever order the network delivers; so has the server, which may be one string ahead. It
stays in its buffer and does not stop. -/
theorem echoed_of_run [DecidableEq ι] (texts : ι → Bytes) (recvBuff : Bytes) {s : State ι}
    (h : Lts.Run step Single (init texts recvBuff) s) (i : ι) : s.stopped = false ∧
    (s.clients i).printed = (List.range (s.clients i).printed.length).map
      (fun n => some ((line (texts i) n).map toupper)) ∧
    ∃ m, (s.clients i).printed.length ≤ m ∧ m ≤ (s.clients i).printed.length + 1 ∧
      s.shownOf i = (List.range m).map
        fun n => (some (line (texts i) n), some ((line (texts i) n).map toupper)) := by
  obtain ⟨lost, t, ht, hrel⟩ := (Rel.start texts recvBuff).runs h
  obtain ⟨hgot, hserved, hle, -⟩ : t.got i = ((t.asked i).take (t.got i).length).map _ ∧
      t.servedOf i <+: t.asked i ∧ (t.got i).length ≤ (t.servedOf i).length ∧ _ :=
    (Exchange.phase_of_run ht i).answered
  have hc := hrel.client i
  have hlen : (s.clients i).printed.length = (t.got i).length := by rw [hc.printed, List.length_map]
  have hle' := hserved.length_le
  have hle'' := hc.length
  refine ⟨hrel.running, ?_, (t.servedOf i).length, by omega, by omega, ?_⟩
  · have hlines := hc.take (List.take_prefix (t.got i).length _)
    rw [List.length_take, Nat.min_eq_left hle''.1] at hlines
    rw [hlen, hc.printed, hgot, hlines, List.map_map, List.map_map]
    simp
  · rw [hrel.shownOf, hc.take hserved, List.map_map, List.length_map, List.length_range]
    rfl

/-- Two clients, whose datagrams overtake each other. -/
theorem echoed_of_run_two : ∃ s, Lts.Run step Single
    (init (fun b => ascii (cond b "ab" "xyz") ++ [10]) (List.replicate 1024 7)) s ∧
    (s.clients true).printed = (List.range (s.clients true).printed.length).map
      (fun n => some ((line (ascii "ab" ++ [10]) n).map toupper)) ∧
    s.shownOf true = [(some (ascii "ab" ++ [10]), some (ascii "AB" ++ [10])), (some [], some [])] := by
  obtain ⟨s, hr, hs⟩ := Lts.Run.exists_of_execOk step Single
    [.sendto true, .sendto false, .serve 1, .serve 0, .recvfrom 1, .sendto true, .serve 1]
    (init (fun b => ascii (cond b "ab" "xyz") ++ [10]) (List.replicate 1024 7))
    (fun s => s.shownOf true =
      [(some (ascii "ab" ++ [10]), some (ascii "AB" ++ [10])), (some [], some [])])
    (by decide +kernel)
  exact ⟨s, hr, (echoed_of_run _ _ hr true).2.1, hs⟩

/-! ## Losses -/

section
variable [DecidableEq ι] {s : State ι}

theorem step_sendto {text : Bytes} {n : Nat} {printed : List (Option Bytes)}
    (hc : s.clients i = ⟨left text n, none, printed⟩) : ∃ buf,
    step s (.sendto i) = some { s with
      clients := Function.update s.clients i ⟨left text (n + 1), some buf, printed⟩
      net := s.net ++ [.request i (line text n ++ [0])] } := by
  refine ⟨fill (List.replicate 1024 0) (TcpClient.fgets 1023 (left text n)).1, ?_⟩
  simp only [step, hc, sendto_data, left]

theorem step_serve {data : Bytes} (hstop : s.stopped = false)
    (hk : s.net[k]? = some (.request i data)) :
    step s (.serve k) = some (serve { s with net := s.net.eraseIdx k } i data) := by
  simp only [step, hstop, hk]

theorem step_recvfrom {data input buf : Bytes} {printed : List (Option Bytes)}
    (hk : s.net[k]? = some (.reply i data)) (hc : s.clients i = ⟨input, some buf, printed⟩) :
    step s (.recvfrom k) = some { s with
      clients := Function.update s.clients i
        ⟨input, none, printed ++ [percentS (fill buf (data.take 1024))]⟩
      net := s.net.eraseIdx k } := by
  simp only [step, hk, hc]

/-- A step after which the client can print more. -/
theorem prints_next {s' : State ι} {a : Act ι} (ha : Single s a) (hst : step s a = some s')
    (hprinted : (s'.clients i).printed = (s.clients i).printed)
    (h : ∃ s'', Lts.Run step Single s' s'' ∧ (s''.clients i).printed ≠ (s'.clients i).printed) :
    ∃ s'', Lts.Run step Single s s'' ∧ (s''.clients i).printed ≠ (s.clients i).printed := by
  obtain ⟨s'', hr, hne⟩ := h
  exact ⟨s'', (Lts.Run.start.next ha hst).trans hr, hprinted ▸ hne⟩

/-- A client whose reply is in flight can print it. -/
theorem prints_of_reply {data : Bytes} (hbuf : (s.clients i).buf ≠ none)
    (hk : s.net[k]? = some (.reply i data)) :
    ∃ s', Lts.Run step Single s s' ∧ (s'.clients i).printed ≠ (s.clients i).printed := by
  obtain ⟨buf, hb⟩ := Option.ne_none_iff_exists'.1 hbuf
  have hc : s.clients i = ⟨(s.clients i).input, some buf, (s.clients i).printed⟩ := by rw [← hb]
  exact ⟨_, .next (a := .recvfrom k) .start rfl (step_recvfrom hk hc), by simp⟩

/-- A client whose string is in flight can get a reply. -/
theorem prints_of_request {q : Bytes} (hq : Str q) (hstop : s.stopped = false)
    (hbuf : (s.clients i).buf ≠ none) (hk : s.net[k]? = some (.request i (q ++ [0]))) :
    ∃ s', Lts.Run step Single s s' ∧ (s'.clients i).printed ≠ (s.clients i).printed := by
  obtain ⟨up, hup⟩ := serve_eq hq { s with net := s.net.eraseIdx k } i
  have hserve := step_serve hstop hk
  rw [hup] at hserve
  apply prints_next (a := .serve k) rfl hserve rfl
  exact prints_of_reply hbuf List.getElem?_concat_length

/-- A client that does not wait can send its next string. -/
theorem prints_of_ready {text : Bytes} {n : Nat} {printed : List (Option Bytes)}
    (hstop : s.stopped = false) (hc : s.clients i = ⟨left text n, none, printed⟩) :
    ∃ s', Lts.Run step Single s s' ∧ (s'.clients i).printed ≠ (s.clients i).printed := by
  obtain ⟨buf, hsend⟩ := step_sendto hc
  apply prints_next (a := .sendto i) rfl hsend (by simp [hc])
  exact prints_of_request (line_str text n) hstop (by simp) List.getElem?_concat_length

/-- A client none of whose datagrams was lost can print more. -/
theorem Rel.prints {lost : List ι} (h : Rel texts (s, lost) t)
    (hp : Exchange.Phase (List.map toupper) i (t.view i)) (hl : i ∉ lost) :
    ∃ s', Lts.Run Udp.step Single s s' ∧ (s'.clients i).printed ≠ (s.clients i).printed := by
  have hc := h.client i
  have hfind : ∀ e, t.netOf i = [e] → ∃ k : Nat, s.net[k]? = some (enc e) ∧ Str (str e) := by
    intro e he
    have hmem : e ∈ t.net := (List.mem_filter.1 (he ▸ List.mem_singleton_self e)).1
    obtain ⟨k, hk⟩ := List.mem_iff_getElem?.1 hmem
    refine ⟨k, ?_, h.strs e hmem⟩
    rw [show s.net = _ from h.net, List.getElem?_map, hk]
    rfl
  have hwait : (t.asked i).length ≠ (t.got i).length → (s.clients i).buf ≠ none :=
    fun hne hb => hne (hc.waits.1 hb)
  have hlast : ∀ old q, t.asked i = old ++ [q] → t.got i = old.map (List.map toupper) →
      (s.clients i).buf ≠ none := by
    intro old q ha hg
    apply hwait
    simp [ha, hg]
  cases hp with
  | idle hg hs hn _ =>
    have hg' : t.got i = (t.asked i).map _ := hg
    have hb : (s.clients i).buf = none := hc.waits.2 (by rw [hg', List.length_map])
    have hcl : s.clients i = ⟨left (texts i) (t.asked i).length, none, (s.clients i).printed⟩ := by
      rw [← hb, ← hc.input]
    exact prints_of_ready h.running hcl
  | asking old q ha hg _ hn _ =>
    obtain ⟨k, hk, hstr⟩ := hfind _ hn
    exact prints_of_request hstr h.running (hlast old q ha hg) hk
  | answering old q ha hg _ hn _ =>
    obtain ⟨k, hk, -⟩ := hfind _ hn
    exact prints_of_reply (hlast old q ha hg) hk
  | stuck _ _ _ _ _ _ hl' => exact absurd ((show lost = t.lost from h.lost) ▸ hl') hl

/-- **When a client hangs.** While no datagram is duplicated, a client can never print anything more
exactly if one of its datagrams was lost. -/
theorem hangs_iff (texts : ι → Bytes) (recvBuff : Bytes) {s : State ι} {lost : List ι}
    (h : Lts.Run (Lts.withHist step recordLost) (fun x a => Single x.1 a)
      (init texts recvBuff, []) (s, lost)) (i : ι) :
    (∀ s', Lts.Run step Single s s' → (s'.clients i).printed = (s.clients i).printed) ↔
      i ∈ lost := by
  obtain ⟨t, ht, hrel⟩ := h.sim (g := Exchange.Single) (Rel.start texts recvBuff)
    fun x a x' t hrel hs hst => by
      obtain ⟨a', t', hst', hrel', hs'⟩ := hrel.step hst
      exact ⟨a', t', hs' hs, hst', hrel'⟩
  constructor
  · intro hno
    by_contra hl
    obtain ⟨s', hr, hne⟩ := hrel.prints (Exchange.phase_of_run ht i) hl
    exact hne (hno s' hr)
  · intro hl s' hr
    obtain ⟨lost', t', ht', hrel'⟩ := hrel.runs hr
    have hview := Exchange.view_of_lost ht ((show lost = t.lost from hrel.lost) ▸ hl) ht'
    rw [(hrel'.client i).printed, (hrel.client i).printed,
      show t'.got i = t.got i from congrArg Exchange.View.got hview]

/-- The reply to the first of two clients is lost. -/
theorem hangs_iff_two : ∃ s : State Bool, ∃ lost,
    Lts.Run (Lts.withHist step recordLost) (fun x a => Single x.1 a)
      (init (fun _ => ascii "ab" ++ [10]) (List.replicate 1024 0), []) (s, lost) ∧
    (∀ s', Lts.Run step Single s s' → (s'.clients true).printed = (s.clients true).printed) ∧
    ¬ ∀ s', Lts.Run step Single s s' → (s'.clients false).printed = (s.clients false).printed := by
  obtain ⟨⟨s, lost⟩, hr, hl⟩ := Lts.Run.exists_of_execOk (Lts.withHist step recordLost)
    (fun x a => Single x.1 a)
    [.sendto true, .sendto false, .serve 0, .lose 1]
    (init (fun _ => ascii "ab" ++ [10]) (List.replicate 1024 0), []) (fun x => x.2 = [true])
    (by decide +kernel)
  obtain rfl : lost = [true] := hl
  exact ⟨s, _, hr, (hangs_iff _ _ hr true).2 (by decide),
    fun hno => absurd ((hangs_iff _ _ hr false).1 hno) (by decide)⟩

end

/-! ## Duplicates -/

/-- **What the network can do at most.** Even if it duplicates datagrams, the server stays in its
buffer and does not stop, and whatever a client prints is one of its own strings in upper case, sent
before; nothing of another client, and nothing older from the server's buffer, gets in. The same
holds of what the server shows. -/
theorem echoed_of_duplicates [DecidableEq ι] (texts : ι → Bytes) (recvBuff : Bytes) {s : State ι}
    (h : Lts.Run step Lts.Free (init texts recvBuff) s) (i : ι) : s.stopped = false ∧
    (∀ (n : Nat) (r : Option Bytes), (s.clients i).printed[n]? = some r →
      ∃ m ≤ n, r = some ((line (texts i) m).map toupper)) ∧
    ∀ y ∈ s.shownOf i, ∃ m ≤ (s.clients i).printed.length,
      y = (some (line (texts i) m), some ((line (texts i) m).map toupper)) := by
  obtain ⟨lost, hr⟩ : ∃ lost, Lts.Run (Lts.withHist Udp.step recordLost)
      (fun x a => Lts.Free x.1 a) (init texts recvBuff, []) (s, lost) :=
    h.lift []
  obtain ⟨t, ht, hrel⟩ := hr.sim (g := Lts.Free) (Rel.start texts recvBuff)
    fun x a x' t hrel _ hst => by
      obtain ⟨a', t', hst', hrel', -⟩ := hrel.step hst
      exact ⟨a', t', trivial, hst', hrel'⟩
  have hown := Exchange.own_of_run ht i
  have hc := hrel.client i
  refine ⟨hrel.running, ?_, ?_⟩
  · intro n r hn
    rw [hc.printed, List.getElem?_map, Option.map_eq_some_iff] at hn
    obtain ⟨r', hr', rfl⟩ := hn
    obtain ⟨q, hq, rfl⟩ := hown.got n r' hr'
    have hq' : q ∈ (t.asked i).take (n + 1) := hq
    rw [hc.lines, ← List.map_take, List.take_range] at hq'
    obtain ⟨m, hm, rfl⟩ := List.mem_map.1 hq'
    rw [List.mem_range] at hm
    exact ⟨m, by omega, rfl⟩
  · intro y hy
    rw [hrel.shownOf] at hy
    obtain ⟨q, hq, rfl⟩ := List.mem_map.1 hy
    have hq' : q ∈ t.asked i := hown.served q hq
    have hlen := hc.length.2
    rw [hc.lines] at hq'
    obtain ⟨m, hm, rfl⟩ := List.mem_map.1 hq'
    rw [List.mem_range] at hm
    rw [hc.printed, List.length_map]
    exact ⟨m, by omega, rfl⟩

/-- A reply that comes twice is printed for the next string, too. -/
theorem echoed_of_duplicates_one : ∃ s : State Unit, Lts.Run step Lts.Free
    (init (fun _ => ascii "ab" ++ [10] ++ ascii "c" ++ [10]) (List.replicate 1024 0)) s ∧
    (∀ (n : Nat) (r : Option Bytes), (s.clients ()).printed[n]? = some r →
      ∃ m ≤ n, r = some ((line (ascii "ab" ++ [10] ++ ascii "c" ++ [10]) m).map toupper)) ∧
    (s.clients ()).printed = [some (ascii "AB" ++ [10]), some (ascii "AB" ++ [10])] := by
  obtain ⟨s, hr, hs⟩ := Lts.Run.exists_of_exec step
    [.sendto (), .serve 0, .double 0, .recvfrom 0, .sendto (), .recvfrom 0]
    (init (fun _ => ascii "ab" ++ [10] ++ ascii "c" ++ [10]) (List.replicate 1024 0))
    (fun s => (s.clients ()).printed = [some (ascii "AB" ++ [10]), some (ascii "AB" ++ [10])])
    (by decide +kernel)
  exact ⟨s, hr, (echoed_of_duplicates _ _ hr ()).2.1, hs⟩

end

end Udp
