import LinuxApi.Echo.EtWork

/-!
# When the edge-triggered loops keep to their descriptor

Both loops read on as long as there is data, so a run is decided by the first other result
(`readable_eq`). The loop of `epoll_server.c` goes on after the end of the stream and closes the
descriptor twice; that of `epoll_server2.c` stops at `EINTR` with the socket not drained
(`disciplined_iff`).
-/

set_option autoImplicit false

namespace EtWork

open CLib

/-- The calls for the data before the first other result. -/
def echoes : List Recv → List Call
  | .data chunk :: rs => .recv (.data chunk) :: .send chunk.length :: echoes rs
  | _ => []

theorem close_notMem_echoes (rs : List Recv) : .close ∉ echoes rs := by
  fun_induction echoes rs with
  | case1 chunk rs ih => simp [ih]
  | case2 => exact List.not_mem_nil

/-- What a loop does that answers data and goes on, and that stops or closes at everything else. -/
theorem readable_eq {body : Body} (hdata : ∀ chunk, body (.data chunk) = ([.send chunk.length], true))
    (hend : ∀ r, r.isData = false → (body r).2 = true → .close ∈ (body r).1) (rs : List Recv) :
    readable body false rs =
      (firstEnd rs).bind fun r => (readable body false [r]).map (echoes rs ++ ·) := by
  induction rs with
  | nil => rfl
  | cons r rs ih =>
    by_cases hr : r.isData = true
    · cases r with
      | data chunk =>
        have hfirst : firstEnd (.data chunk :: rs) = firstEnd rs := rfl
        rw [readable, hdata, if_pos rfl, hfirst]
        show (readable body false rs).map _ = _
        rw [ih, Option.map_bind]
        congr 1
        funext r'
        rw [Function.comp_apply, Option.map_map]
        rfl
      | _ => cases hr
    · have hr : r.isData = false := Bool.eq_false_iff.2 hr
      have hfirst : firstEnd (r :: rs) = some r := by simp [firstEnd, hr]
      have hnone : echoes (r :: rs) = [] := by
        cases r with
        | data => cases hr
        | _ => rfl
      rw [hfirst, hnone, Option.bind_some, readable, readable]
      by_cases hgo : (body r).2 = true
      · rw [if_pos hgo, if_pos hgo, decide_eq_true (hend r hr hgo), readable, readable]
        simp only [List.nil_append, Option.map_id_fun', id]
      · rw [if_neg hgo, if_neg hgo]
        rfl

theorem lastRecv_append {pre calls : List Call} (h : lastRecv calls ≠ none) :
    lastRecv (pre ++ calls) = lastRecv calls := by
  unfold lastRecv at h ⊢
  rw [List.filterMap_append, List.getLast?_append]
  cases hl : (calls.filterMap Call.received).getLast? with
  | none => exact absurd hl h
  | some r => rfl

/-- Calls before, without a `close`, do not matter. -/
theorem disciplined_append {pre calls : List Call} (hpre : .close ∉ pre)
    (h : lastRecv calls ≠ none) : Disciplined (pre ++ calls) ↔ Disciplined calls := by
  have hdrop : afterClose (pre ++ calls) = afterClose calls := by
    unfold afterClose
    rw [List.dropWhile_append_of_pos]
    intro c hc
    simpa using fun he : c = .close => hpre (he ▸ hc)
  simp only [Disciplined, lastRecv_append h, hdrop, List.mem_append, hpre, false_or]

/-- A loop that is over ended at the first result that is not data. -/
theorem readable_eq_some {body : Body}
    (hdata : ∀ chunk, body (.data chunk) = ([.send chunk.length], true))
    (hend : ∀ r, r.isData = false → (body r).2 = true → .close ∈ (body r).1) {rs : List Recv}
    {calls : List Call} (h : readable body false rs = some calls) :
    ∃ r tail, firstEnd rs = some r ∧ r.isData = false ∧ readable body false [r] = some tail ∧
      (Disciplined calls ↔ Disciplined tail) := by
  rw [readable_eq hdata hend] at h
  obtain ⟨r, hr, h⟩ := Option.bind_eq_some_iff.1 h
  obtain ⟨tail, ht, rfl⟩ := Option.map_eq_some_iff.1 h
  have hno : r.isData = false := by simpa using List.find?_some hr
  refine ⟨r, tail, hr, hno, ht, disciplined_append (close_notMem_echoes rs) ?_⟩
  have hrecv : .recv r ∈ tail := by
    rw [readable] at ht
    split at ht
    · obtain ⟨_, -, rfl⟩ := Option.map_eq_some_iff.1 ht
      exact List.mem_cons_self
    · obtain ⟨⟩ := ht
      exact List.mem_cons_self
  intro hn
  have hm : r ∈ tail.filterMap Call.received := List.mem_filterMap.2 ⟨.recv r, hrecv, rfl⟩
  rw [lastRecv, List.getLast?_eq_none_iff] at hn
  rw [hn] at hm
  cases hm

theorem etWork1_closes {r : Recv} (hr : r.isData = false) (hgo : (etWork1 r).2 = true) :
    .close ∈ (etWork1 r).1 := by
  cases r with
  | data => cases hr
  | eof => exact List.mem_singleton_self _
  | again | intr | badf | error => cases hgo

theorem etWork2_closes {r : Recv} (hr : r.isData = false) (hgo : (etWork2 r).2 = true) :
    .close ∈ (etWork2 r).1 := by
  cases r with
  | data => cases hr
  | eof | again | intr | badf | error => cases hgo

/-- The loop of `mtlt.cpp` makes the same calls as that of `epoll_server.c`. -/
theorem et_eq_etWork1 : et = etWork1 := by
  funext r
  cases r <;> rfl

/-- **When the loops keep to their descriptor.** A finished loop of `epoll_server.c` does unless the
stream has ended, one of `epoll_server2.c` unless a `recv` was interrupted: the loops end in different
ways at the first result that is not data, and in no other way. -/
theorem disciplined_iff (rs : List Recv) (calls : List Call) :
    (readable etWork1 false rs = some calls → (Disciplined calls ↔ firstEnd rs ≠ some .eof)) ∧
    (readable etWork2 false rs = some calls → (Disciplined calls ↔ firstEnd rs ≠ some .intr)) := by
  refine ⟨?_, ?_⟩
  · intro h
    obtain ⟨r, tail, hr, hno, ht, hiff⟩ :=
      readable_eq_some (fun _ => rfl) (fun _ => etWork1_closes) h
    rw [hiff, hr]
    cases r with
    | data => cases hno
    | eof | again | intr | badf | error => obtain ⟨⟩ := ht; decide
  · intro h
    obtain ⟨r, tail, hr, hno, ht, hiff⟩ :=
      readable_eq_some (fun _ => rfl) (fun _ => etWork2_closes) h
    rw [hiff, hr]
    cases r with
    | data => cases hno
    | eof | again | intr | badf | error => obtain ⟨⟩ := ht; decide

/-- A client sends, and the socket is drained; another one sends and closes. -/
theorem disciplined_drained :
    Disciplined [.recv (.data (ascii "ab")), .send 2, .recv .again] ∧
      Disciplined [.recv (.data (ascii "ab")), .send 2, .recv .eof, .ctlDel, .close] := by
  have h1 := (disciplined_iff [.data (ascii "ab"), .again] _).1 rfl
  have h2 := (disciplined_iff [.data (ascii "ab"), .eof] _).2 rfl
  exact ⟨h1.2 (by decide), h2.2 (by decide)⟩

/-- A client closes: `epoll_server.c` calls `recv` on the closed descriptor and closes it again. A
`recv` is interrupted: `epoll_server2.c` leaves what is in the socket. -/
theorem disciplined_fails :
    (¬ ∀ rs calls, readable etWork1 false rs = some calls → Disciplined calls) ∧
    ¬ ∀ rs calls, readable etWork2 false rs = some calls → Disciplined calls := by
  refine ⟨?_, ?_⟩
  · intro hall
    have h := hall [.eof] [.recv .eof, .close, .recv .badf, .close] rfl
    exact absurd h (by decide)
  · intro hall
    have h := hall [.intr, .data (ascii "ab"), .again] [.recv .intr] rfl
    exact absurd h (by decide)

end EtWork
