import LinuxApi.Lib.Threads
import LinuxApi.Tcp.ServerThread

/-!
# Slots and their count in the threaded server

`user` follows the table with a delay: `main` fills a slot before it counts it, a worker frees its
slot before it counts that (`Inv.count`). So a counter below `MAX_USER` means a free slot, as
long as no update of the counter is lost (`Unraced`); the main result is `slot_found`. Two updates
that overlap do lose one, and the index then runs past the table (`slot_found_fails`).
-/

set_option autoImplicit false

namespace ThreadServer

open Threads

/-! ## Steps, case by case -/

inductive StepMove (s : State) : Act → State → Prop
  | full : s.main.pc = .test → StepMove s .main s
  | room : s.main.pc = .test → s.user ≠ maxUser →
      StepMove s .main { s with main := { s.main with pc := .scan, i := 0 } }
  | busy {fd : Int} : s.main.pc = .scan → s.userSock[s.main.i]? = some fd → fd ≠ -1 →
      StepMove s .main { s with main := { s.main with pc := .scan, i := s.main.i + 1 } }
  | found : s.main.pc = .scan → s.userSock[s.main.i]? = some (-1) →
      StepMove s .main { s with main := { s.main with pc := .accept } }
  | overrun : s.main.pc = .scan → maxUser ≤ s.main.i →
      StepMove s .main { s with main := { s.main with pc := .accept } }
  | accept {fd : Nat} : s.main.pc = .accept →
      StepMove s (.accept (some fd))
        { s with userSock := s.userSock.set s.main.i fd, main := { s.main with pc := .create } }
  | acceptFails : s.main.pc = .accept →
      StepMove s (.accept none)
        { s with userSock := s.userSock.set s.main.i (-1), main := { s.main with pc := .exited } }
  | create : s.main.pc = .create →
      StepMove s .main
        { s with
          main := { s.main with pc := .loadUser }
          workers := s.workers ++ [⟨.serve, s.main.i, 0⟩] }
  | loadUser : s.main.pc = .loadUser →
      StepMove s .main { s with main := { s.main with pc := .storeUser, tmp := s.user } }
  | storeUser : s.main.pc = .storeUser →
      StepMove s .main { s with user := s.main.tmp + 1, main := { s.main with pc := .test } }
  | serve {w : Nat} {t : Worker} {pc : WorkerPc} : s.workers[w]? = some t →
      t.pc = .serve ∧ pc = .close ∨ t.pc = .close ∧ pc = .free →
      StepMove s (.worker w) { s with workers := s.workers.set w { t with pc } }
  | free {w : Nat} {t : Worker} : s.workers[w]? = some t → t.pc = .free →
      StepMove s (.worker w)
        { s with
          userSock := s.userSock.set t.info (-1)
          workers := s.workers.set w { t with pc := .loadUser } }
  | loadWorker {w : Nat} {t : Worker} : s.workers[w]? = some t → t.pc = .loadUser →
      StepMove s (.worker w)
        { s with workers := s.workers.set w { t with pc := .storeUser, tmp := s.user } }
  | storeWorker {w : Nat} {t : Worker} : s.workers[w]? = some t → t.pc = .storeUser →
      StepMove s (.worker w)
        { s with user := t.tmp - 1, workers := s.workers.set w { t with pc := .exited } }

theorem main_move {s s' : State} (h : stepMain s = some s') : StepMove s .main s' := by
  unfold stepMain at h
  cases hpc : s.main.pc <;> simp only [hpc] at h
  case test =>
    split at h
    · obtain ⟨⟩ := h; exact .full hpc
    · obtain ⟨⟩ := h; exact .room hpc (by assumption)
  case scan =>
    split at h
    · split at h
      · rename_i fd hfd
        split at h
        · rename_i he
          obtain ⟨⟩ := h
          exact .found hpc (by rw [hfd, he])
        · obtain ⟨⟩ := h; exact .busy hpc hfd (by assumption)
      · cases h
    · obtain ⟨⟩ := h; exact .overrun hpc (by omega)
  case accept => cases h
  case create => obtain ⟨⟩ := h; exact .create hpc
  case loadUser => obtain ⟨⟩ := h; exact .loadUser hpc
  case storeUser =>
    obtain ⟨n, hn, rfl⟩ := Option.map_eq_some_iff.1 h
    obtain ⟨-, rfl⟩ := CInt.incr_eq_some.1 hn
    exact .storeUser hpc
  case exited => cases h

theorem worker_move {s s' : State} {w : Nat} (h : stepWorker s w = some s') :
    StepMove s (.worker w) s' := by
  unfold stepWorker at h
  split at h
  · rename_i t ht
    cases hpc : t.pc <;> simp only [hpc] at h
    case serve => obtain ⟨⟩ := h; exact .serve ht (.inl ⟨hpc, rfl⟩)
    case close => obtain ⟨⟩ := h; exact .serve ht (.inr ⟨hpc, rfl⟩)
    case free => obtain ⟨⟩ := h; exact .free ht hpc
    case loadUser => obtain ⟨⟩ := h; exact .loadWorker ht hpc
    case storeUser =>
      obtain ⟨n, hn, rfl⟩ := Option.map_eq_some_iff.1 h
      obtain ⟨-, rfl⟩ := CInt.decr_eq_some.1 hn
      exact .storeWorker ht hpc
    case exited => cases h
  · cases h

theorem step_move {s s' : State} {a : Act} (h : step s a = some s') : StepMove s a s' := by
  cases a with
  | main => exact main_move h
  | accept fd =>
    simp only [step, stepAccept, Option.ite_none_right_eq_some] at h
    obtain ⟨⟨hpc, -⟩, h⟩ := h
    cases fd with
    | some fd => obtain ⟨⟩ := h; exact .accept hpc
    | none => obtain ⟨⟩ := h; exact .acceptFails hpc
  | worker w => exact worker_move h

/-! ## Who has which slot -/

/-- The worker has its slot. -/
def WorkerPc.live : WorkerPc → Bool
  | .serve | .close | .free => true
  | _ => false

def Filled (socks : List Int) (i : Nat) : Prop := ∃ fd, socks[i]? = some fd ∧ fd ≠ -1

/-- The live workers have slots of their own. -/
structure Slots (socks : List Int) (ws : List Worker) : Prop where
  filled : ∀ (w : Nat) (t : Worker), ws[w]? = some t → t.pc.live = true → Filled socks t.info
  inj : ∀ (w v : Nat) (t u : Worker), ws[w]? = some t → ws[v]? = some u → t.pc.live = true →
    u.pc.live = true → t.info = u.info → w = v

section
variable {socks : List Int} {ws : List Worker} (h : Slots socks ws)
include h

theorem Slots.move {w : Nat} {t t' : Worker} (ht : ws[w]? = some t) (hinfo : t'.info = t.info)
    (hlive : t'.pc.live = true → t.pc.live = true) : Slots socks (ws.set w t') := by
  have hback : ∀ (v : Nat) (u : Worker), (ws.set w t')[v]? = some u → u.pc.live = true →
      ∃ u0, ws[v]? = some u0 ∧ u0.pc.live = true ∧ u0.info = u.info := by
    intro v u hu hl
    obtain ⟨rfl, rfl⟩ | ⟨-, hu⟩ := getElem?_set_cases hu
    · exact ⟨t, ht, hlive hl, hinfo.symm⟩
    · exact ⟨u, hu, hl, rfl⟩
  refine ⟨?_, ?_⟩
  · intro v u hu hl
    obtain ⟨u0, hu0, hl0, he⟩ := hback v u hu hl
    rw [← he]
    exact h.filled v u0 hu0 hl0
  · intro v x u y hu hy hlu hly he
    obtain ⟨u0, hu0, hlu0, heu⟩ := hback v u hu hlu
    obtain ⟨y0, hy0, hly0, hey⟩ := hback x y hy hly
    exact h.inj v x u0 y0 hu0 hy0 hlu0 hly0 (by rw [heu, hey, he])

/-- A slot that no live worker has is written. -/
theorem Slots.write {i : Nat} {fd : Int}
    (hi : ∀ (w : Nat) (t : Worker), ws[w]? = some t → t.pc.live = true → t.info ≠ i) :
    Slots (socks.set i fd) ws := by
  refine ⟨?_, h.inj⟩
  intro w t ht hl
  obtain ⟨fd', hfd, hne⟩ := h.filled w t ht hl
  exact ⟨fd', by rw [List.getElem?_set_ne (hi w t ht hl).symm, hfd], hne⟩

theorem Slots.not_free {i : Nat} (hi : socks[i]? = some (-1)) (w : Nat) (t : Worker)
    (ht : ws[w]? = some t) (hl : t.pc.live = true) : t.info ≠ i := by
  rintro rfl
  obtain ⟨fd, hfd, hne⟩ := h.filled w t ht hl
  rw [hi] at hfd
  exact hne (Option.some.inj hfd).symm

theorem Slots.create {i : Nat} (hf : Filled socks i)
    (hi : ∀ (w : Nat) (t : Worker), ws[w]? = some t → t.pc.live = true → t.info ≠ i) :
    Slots socks (ws ++ [⟨.serve, i, 0⟩]) := by
  refine ⟨?_, ?_⟩
  · intro w t ht hl
    obtain ht | ⟨-, rfl⟩ := getElem?_concat_cases ht
    · exact h.filled w t ht hl
    · exact hf
  · intro w v t u ht hu hlt hlu he
    obtain ht | ⟨rfl, rfl⟩ := getElem?_concat_cases ht
    · obtain hu | ⟨-, rfl⟩ := getElem?_concat_cases hu
      · exact h.inj w v t u ht hu hlt hlu he
      · exact absurd he (hi w t ht hlt)
    · obtain hu | ⟨rfl, -⟩ := getElem?_concat_cases hu
      · exact absurd he.symm (hi v u hu hlu)
      · rfl

end

/-! ## The invariant -/

/-- What `main` can rely on where it is. -/
def MainOk (s : State) : Prop :=
  match s.main.pc with
  | .scan => ∃ j, s.main.i ≤ j ∧ s.userSock[j]? = some (-1)
  | .accept => s.userSock[s.main.i]? = some (-1)
  | .create => Filled s.userSock s.main.i ∧
      ∀ (w : Nat) (t : Worker), s.workers[w]? = some t → t.pc.live = true → t.info ≠ s.main.i
  | _ => True

def leaving (ws : List Worker) : Nat := ws.countP (·.pc.leaving)

structure Inv (s : State) : Prop where
  length : s.userSock.length = maxUser
  count : s.user + (if s.main.pc.entering then 1 else 0) = occupied s + leaving s.workers
  le : s.user ≤ maxUser
  lt : s.main.pc ≠ .test → s.main.pc ≠ .exited → s.user < maxUser
  slots : Slots s.userSock s.workers
  main : MainOk s

theorem inv_init : Inv init where
  length := rfl
  count := rfl
  le := by decide
  lt h := absurd rfl h
  slots := ⟨fun _ _ h => by simp [init] at h, fun _ _ _ _ h => by simp [init] at h⟩
  main := trivial

/-- A table with fewer descriptors than slots has a free slot. -/
theorem exists_free {socks : List Int} (h : socks.countP (· ≠ -1) < socks.length) :
    ∃ j : Nat, socks[j]? = some (-1) := by
  have hne : ¬ ∀ fd ∈ socks, decide (fd ≠ -1) = true := by
    intro hall
    have := List.countP_eq_length.2 hall
    omega
  simp only [decide_eq_true_eq, not_forall, not_not] at hne
  obtain ⟨fd, hm, rfl⟩ := hne
  exact List.mem_iff_getElem?.1 hm

theorem leaving_set {ws : List Worker} {w : Nat} {t : Worker} (t' : Worker)
    (ht : ws[w]? = some t) :
    leaving (ws.set w t') + (if t.pc.leaving then 1 else 0) =
      leaving ws + (if t'.pc.leaving then 1 else 0) :=
  countP_set_add (fun t : Worker => t.pc.leaving) ht

theorem occupied_set {socks : List Int} {i : Nat} {fd : Int} (fd' : Int)
    (h : socks[i]? = some fd) :
    (socks.set i fd').countP (· ≠ -1) + (if fd = -1 then 0 else 1) =
      socks.countP (· ≠ -1) + (if fd' = -1 then 0 else 1) := by
  have hc := countP_set_add (b := fd') (fun fd : Int => decide (fd ≠ -1)) h
  simpa only [decide_eq_true_eq, ne_eq, ite_not] using hc

/-- A step of a worker that keeps its slot or has none. -/
theorem MainOk.worker {s : State} {w : Nat} {t t' : Worker} {user : Int} (hm : MainOk s)
    (ht : s.workers[w]? = some t) (hinfo : t'.info = t.info)
    (hlive : t'.pc.live = true → t.pc.live = true) :
    MainOk { s with user, workers := s.workers.set w t' } := by
  unfold MainOk at hm ⊢
  cases hpc : s.main.pc <;> simp only [hpc] at hm ⊢ <;> try exact hm
  refine ⟨hm.1, ?_⟩
  intro v u hu hl
  obtain ⟨rfl, rfl⟩ | ⟨-, hu⟩ := getElem?_set_cases hu
  · rw [hinfo]
    exact hm.2 v t ht (hlive hl)
  · exact hm.2 v u hu hl

/-- A worker frees its slot: a free slot stays free, and the one that `main` has filled is not it. -/
theorem MainOk.free {s : State} {w : Nat} {t : Worker} (hm : MainOk s)
    (hs : Filled s.userSock t.info) (ht : s.workers[w]? = some t) (hpc : t.pc = .free) :
    MainOk { s with
             userSock := s.userSock.set t.info (-1)
             workers := s.workers.set w { t with pc := .loadUser } } := by
  obtain ⟨fd, hfd, -⟩ := hs
  have hkeep : ∀ j : Nat, s.userSock[j]? = some (-1) →
      (s.userSock.set t.info (-1))[j]? = some (-1) := by
    intro j hj
    by_cases he : t.info = j
    · rw [← he]
      exact getElem?_set_of_some _ hfd
    · rw [List.getElem?_set_ne he]
      exact hj
  unfold MainOk at hm ⊢
  cases hmpc : s.main.pc <;> simp only [hmpc] at hm ⊢
  case scan =>
    obtain ⟨j, hij, hj⟩ := hm
    exact ⟨j, hij, hkeep j hj⟩
  case accept => exact hkeep _ hm
  case create =>
    obtain ⟨⟨fd', hfd', hne'⟩, hnone⟩ := hm
    have hti := hnone w t ht (by rw [hpc]; rfl)
    refine ⟨⟨fd', by rw [List.getElem?_set_ne hti]; exact hfd', hne'⟩, ?_⟩
    intro v u hu hl
    obtain ⟨rfl, rfl⟩ | ⟨-, hu⟩ := getElem?_set_cases hu
    · cases hl
    · exact hnone v u hu hl

section
variable {s : State} (hi : Inv s)
include hi

theorem Inv.slot (hpc : s.main.pc = .accept) : s.userSock[s.main.i]? = some (-1) := by
  have hm := hi.main
  unfold MainOk at hm
  rwa [hpc] at hm

theorem Inv.accept (hpc : s.main.pc = .accept) (fd : Nat) :
    Inv { s with
          userSock := s.userSock.set s.main.i fd
          main := { s.main with pc := .create } } := by
  have hfree := hi.slot hpc
  have hfd : (fd : Int) ≠ -1 := by omega
  have hcnt := occupied_set (fd : Int) hfree
  rw [if_pos rfl, if_neg hfd] at hcnt
  have hc := hi.count
  simp only [hpc, MainPc.entering, Bool.false_eq_true, if_false] at hc
  refine ⟨by rw [List.length_set]; exact hi.length, ?_, hi.le,
    fun _ _ => hi.lt (by rw [hpc]; nofun) (by rw [hpc]; nofun),
    hi.slots.write (hi.slots.not_free hfree), ?_, hi.slots.not_free hfree⟩
  · show s.user + 1 = ((s.userSock.set s.main.i fd).countP (· ≠ -1) : Nat) + leaving s.workers
    rw [← Nat.add_zero (List.countP _ _), hcnt]
    unfold occupied at hc
    push_cast
    omega
  · exact ⟨fd, getElem?_set_of_some _ hfree, hfd⟩

theorem Inv.acceptFails (hpc : s.main.pc = .accept) :
    Inv { s with
          userSock := s.userSock.set s.main.i (-1)
          main := { s.main with pc := .exited } } := by
  have hsame : s.userSock.set s.main.i (-1) = s.userSock := by
    obtain ⟨hlt, he⟩ := List.getElem?_eq_some_iff.1 (hi.slot hpc)
    rw [← he]
    exact List.set_getElem_self hlt
  have hc := hi.count
  rw [hpc] at hc
  rw [hsame]
  exact ⟨hi.length, hc, hi.le, fun _ h => absurd rfl h, hi.slots, trivial⟩

/-- `main` has passed the test: there is a free slot. -/
theorem Inv.room (hpc : s.main.pc = .test) (hne : s.user ≠ maxUser) :
    Inv { s with main := { s.main with pc := .scan, i := 0 } } := by
  have hc := hi.count
  have hle := hi.le
  rw [hpc] at hc
  simp only [MainPc.entering, Bool.false_eq_true, if_false] at hc
  refine ⟨hi.length, ?_, hle, fun _ _ => ?_, hi.slots, ?_⟩
  · show s.user + 0 = (occupied s : Nat) + leaving s.workers
    exact hc
  · show s.user < maxUser
    omega
  · have hocc : s.userSock.countP (· ≠ -1) < s.userSock.length := by
      rw [hi.length]
      unfold occupied at hc
      omega
    obtain ⟨j, hj⟩ := exists_free hocc
    exact ⟨j, Nat.zero_le _, hj⟩

theorem Inv.scanned (hpc : s.main.pc = .scan) : ∃ j, s.main.i ≤ j ∧ s.userSock[j]? = some (-1) := by
  have hm := hi.main
  unfold MainOk at hm
  rwa [hpc] at hm

theorem Inv.busy {fd : Int} (hpc : s.main.pc = .scan) (hfd : s.userSock[s.main.i]? = some fd)
    (hne : fd ≠ -1) : Inv { s with main := { s.main with pc := .scan, i := s.main.i + 1 } } := by
  have hc := hi.count
  rw [hpc] at hc
  refine ⟨hi.length, hc, hi.le, fun _ _ => hi.lt (by rw [hpc]; nofun) (by rw [hpc]; nofun),
    hi.slots, ?_⟩
  obtain ⟨j, hij, hj⟩ := hi.scanned hpc
  have hji : j ≠ s.main.i := by
    rintro rfl
    rw [hfd] at hj
    exact hne (Option.some.inj hj)
  exact ⟨j, by show s.main.i + 1 ≤ j; omega, hj⟩

theorem Inv.found (hpc : s.main.pc = .scan) (hfd : s.userSock[s.main.i]? = some (-1)) :
    Inv { s with main := { s.main with pc := .accept } } := by
  have hc := hi.count
  rw [hpc] at hc
  exact ⟨hi.length, hc, hi.le, fun _ _ => hi.lt (by rw [hpc]; nofun) (by rw [hpc]; nofun),
    hi.slots, hfd⟩

theorem Inv.create (hpc : s.main.pc = .create) :
    Inv { s with
          main := { s.main with pc := .loadUser }
          workers := s.workers ++ [⟨.serve, s.main.i, 0⟩] } := by
  have hm := hi.main
  unfold MainOk at hm
  rw [hpc] at hm
  have hc := hi.count
  rw [hpc] at hc
  have hl : leaving (s.workers ++ [⟨.serve, s.main.i, 0⟩]) = leaving s.workers := by
    simp [leaving, List.countP_append, WorkerPc.leaving]
  refine ⟨hi.length, ?_, hi.le, fun _ _ => hi.lt (by rw [hpc]; nofun) (by rw [hpc]; nofun),
    hi.slots.create hm.1 hm.2, trivial⟩
  show s.user + 1 = (occupied s : Nat) + leaving (s.workers ++ [⟨.serve, s.main.i, 0⟩])
  rw [hl]
  exact hc

/-- A worker frees its slot. -/
theorem Inv.free {w : Nat} {t : Worker} (ht : s.workers[w]? = some t) (hpc : t.pc = .free) :
    Inv { s with
          userSock := s.userSock.set t.info (-1)
          workers := s.workers.set w { t with pc := .loadUser } } := by
  have hlive : t.pc.live = true := by rw [hpc]; rfl
  obtain ⟨fd, hfd, hne⟩ := hi.slots.filled w t ht hlive
  have hcnt := occupied_set (-1) hfd
  rw [if_neg hne, if_pos rfl] at hcnt
  have hleave := leaving_set { t with pc := .loadUser } ht
  simp only [hpc, WorkerPc.leaving, Bool.false_eq_true, if_false, if_true] at hleave
  have hslots : Slots s.userSock (s.workers.set w { t with pc := .loadUser }) :=
    hi.slots.move ht rfl nofun
  have hother : ∀ (v : Nat) (u : Worker),
      (s.workers.set w { t with pc := .loadUser })[v]? = some u → u.pc.live = true →
        u.info ≠ t.info := by
    intro v u hu hl he
    obtain ⟨rfl, rfl⟩ | ⟨hne, hu⟩ := getElem?_set_cases hu
    · cases hl
    · exact hne (hi.slots.inj v w u t hu ht hl hlive he)
  refine ⟨by rw [List.length_set]; exact hi.length, ?_, hi.le, hi.lt, hslots.write hother,
    hi.main.free ⟨fd, hfd, hne⟩ ht hpc⟩
  have hc := hi.count
  show s.user + (if s.main.pc.entering then 1 else 0) =
    ((s.userSock.set t.info (-1)).countP (· ≠ -1) : Nat) +
      leaving (s.workers.set w { t with pc := .loadUser })
  unfold occupied at hc
  rw [hc]
  omega

/-- A step of a worker that does not touch the table. -/
theorem Inv.worker {w : Nat} {t t' : Worker} {user : Int} (ht : s.workers[w]? = some t)
    (hinfo : t'.info = t.info) (hlive : t'.pc.live = true → t.pc.live = true)
    (hle : user ≤ s.user)
    (hcount : user + (if t.pc.leaving then 1 else 0) = s.user + (if t'.pc.leaving then 1 else 0)) :
    Inv { s with user, workers := s.workers.set w t' } := by
  have hleave := leaving_set t' ht
  have hc := hi.count
  have hle0 := hi.le
  refine ⟨hi.length, ?_, by show user ≤ maxUser; omega, fun h1 h2 => ?_,
    hi.slots.move ht hinfo hlive, hi.main.worker ht hinfo hlive⟩
  · show user + (if s.main.pc.entering then 1 else 0) =
      (occupied s : Nat) + leaving (s.workers.set w t')
    cases hl : t.pc.leaving <;> cases hl' : t'.pc.leaving <;>
      simp only [hl, hl', Bool.false_eq_true, if_false, if_true] at hleave hcount <;> omega
  · have hlt := hi.lt h1 h2
    show user < maxUser
    omega

theorem Inv.step {s' : State} {a : Act} (hok : Unraced s a) (hm : StepMove s a s') : Inv s' := by
  have hc := hi.count
  cases hm with
  | full => exact hi
  | room hpc hne => exact hi.room hpc hne
  | busy hpc hfd hne => exact hi.busy hpc hfd hne
  | found hpc hfd => exact hi.found hpc hfd
  | overrun hpc hge =>
    -- the scan has passed the free slot that the test promised
    obtain ⟨j, hij, hj⟩ := hi.scanned hpc
    have hlt := (List.getElem?_eq_some_iff.1 hj).1
    have hlen := hi.length
    omega
  | accept hpc => exact hi.accept hpc _
  | acceptFails hpc => exact hi.acceptFails hpc
  | create hpc => exact hi.create hpc
  | loadUser hpc =>
    rw [hpc] at hc
    exact ⟨hi.length, hc, hi.le, fun _ _ => hi.lt (by rw [hpc]; nofun) (by rw [hpc]; nofun),
      hi.slots, trivial⟩
  | storeUser hpc =>
    have htmp : s.user = s.main.tmp := hok hpc
    have hlt := hi.lt (by rw [hpc]; nofun) (by rw [hpc]; nofun)
    rw [hpc] at hc
    simp only [MainPc.entering, if_true] at hc
    refine ⟨hi.length, ?_, by show s.main.tmp + 1 ≤ maxUser; omega, fun h => absurd rfl h,
      hi.slots, trivial⟩
    show s.main.tmp + 1 + 0 = (occupied s : Nat) + leaving s.workers
    omega
  | @serve w t pc ht hpc =>
    rcases hpc with ⟨hpc, rfl⟩ | ⟨hpc, rfl⟩
    · exact hi.worker ht rfl (by rw [hpc]; exact id) (Int.le_refl _) (by rw [hpc]; rfl)
    · exact hi.worker ht rfl (by rw [hpc]; exact id) (Int.le_refl _) (by rw [hpc]; rfl)
  | free ht hpc => exact hi.free ht hpc
  | loadWorker ht hpc => exact hi.worker ht rfl nofun (Int.le_refl _) (by rw [hpc]; rfl)
  | @storeWorker w t ht hpc =>
    have htmp : s.user = t.tmp := hok t ht hpc
    refine hi.worker ht rfl nofun (by omega) ?_
    rw [hpc, htmp]
    show t.tmp - 1 + 1 = t.tmp + 0
    omega

end

theorem inv_of_run {s : State} (h : Lts.Run step Unraced init s) : Inv s := by
  apply h.inv (P := Inv)
  · exact inv_init
  · intro s a s' ih hok hst
    exact ih.step hok (step_move hst)

/-! ## Slots -/

theorem leaving_eq_zero {ws : List Worker} (h : ∀ t ∈ ws, t.pc.leaving ≠ true) : leaving ws = 0 :=
  List.countP_eq_zero.2 h

/-- **No slot overrun.** In every run in which no update of `user` writes over another: a scan that
runs has a free slot before it, so the index that `accept` gets is that of a free slot; and `user`
is the number of occupied slots, short of the slot that `main` has filled and not counted yet and
beyond it by the workers that have freed theirs and not counted that. -/
theorem slot_found (s : State) (h : Lts.Run step Unraced init s) :
    (s.main.pc = .scan → ∃ j, s.main.i ≤ j ∧ s.userSock[j]? = some (-1)) ∧
    (s.main.pc = .accept → s.main.i ≤ maxUser - 1 ∧ s.userSock[s.main.i]? = some (-1)) ∧
    s.user + (if s.main.pc.entering then 1 else 0) = occupied s + leaving s.workers ∧
    (¬ Updating s → s.user = occupied s) := by
  have hi := inv_of_run h
  refine ⟨hi.scanned, ?_, hi.count, ?_⟩
  · intro hpc
    have hslot := hi.slot hpc
    have hlt := (List.getElem?_eq_some_iff.1 hslot).1
    rw [hi.length] at hlt
    exact ⟨Nat.le_sub_one_of_lt hlt, hslot⟩
  · intro hn
    have hc := hi.count
    have hme : s.main.pc.entering ≠ true := fun he => hn (.inl he)
    have hl : leaving s.workers = 0 := leaving_eq_zero fun t ht he => hn (.inr ⟨t, ht, he⟩)
    rw [if_neg hme, hl] at hc
    simpa using hc

/-- `main` connects a client: the test, the scan past `k` occupied slots, `accept`, the worker, the
count. -/
def connect (k : Nat) : List Act :=
  Lts.repeats [(k + 2, .main), (1, .accept (some 5)), (3, .main)]

/-- Two clients; the first has gone when the third comes, and its worker counts that in between. -/
theorem slot_found_again : ∃ s, Lts.Run step Unraced init s ∧
    s.main.pc = .accept ∧ s.main.i = 0 ∧ s.userSock[s.main.i]? = some (-1) := by
  obtain ⟨s, hs, hpc, hi⟩ := Lts.Run.exists_of_execOk step Unraced
    (connect 0 ++ connect 1 ++ Lts.repeats [(3, .worker 0), (2, .main), (2, .worker 0)]) init
    (fun s => s.main.pc = .accept ∧ s.main.i = 0) (by decide +kernel)
  exact ⟨s, hs, hpc, hi, ((slot_found s hs).2.1 hpc).2⟩

/-- A client goes while the next one is counted: both updates read 1, and the one of the worker
is written last. -/
def lostUpdate : List Act :=
  connect 0 ++ Lts.repeats [(3, .worker 0), (2, .main), (1, .accept (some 5)), (1, .main),
    (1, .worker 0), (2, .main), (1, .worker 0)]

/-- After the lost update `user` is 0 with one slot occupied; twenty clients later `main` passes the
test with a full table. -/
theorem slot_found_fails :
    (¬ ∀ s, Lts.Run step Lts.Free init s → ¬ Updating s → s.user = occupied s) ∧
    ¬ ∀ s, Lts.Run step Lts.Free init s → s.main.pc = .accept → s.main.i ≤ maxUser - 1 := by
  refine ⟨?_, ?_⟩
  · intro hall
    obtain ⟨s, hs, hn, hu, ho⟩ := Lts.Run.exists_of_exec step lostUpdate init
      (fun s => ¬ Updating s ∧ s.user = 0 ∧ occupied s = 1) (by decide +kernel)
    have he := hall s hs hn
    rw [hu, ho] at he
    exact absurd he (by decide)
  · intro hall
    obtain ⟨s, hs, hpc, hi⟩ := Lts.Run.exists_of_exec step
      (lostUpdate ++ (List.range 20).flatMap (fun k => connect (k + 1)) ++ Lts.repeats [(23, .main)]) init
      (fun s => s.main.pc = .accept ∧ s.main.i = 21) (by decide +kernel)
    have hle := hall s hs hpc
    rw [hi] at hle
    exact absurd hle (by decide)

end ThreadServer
