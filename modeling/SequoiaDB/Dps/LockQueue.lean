import SequoiaDB.Lib.Chain
import SequoiaDB.Dps.LockSafety

/-!
# The wait queues

The sessions that wait for a lock are linked through their lock infos, from the first one, which the lock unit has.
The links of a queue are exact, and the first session is called when it can have the lock, as long as no session that
finds the queue empty is put at its head with a link that an earlier wait has left in its lock info.
-/

namespace SequoiaDB.Dps

open Lib Function List Option Doing LockSystem

variable {n : Nat}

@[simp] theorem Doing.waiter_start (rest : List Level) : (Doing.start rest).waiter = none := by
  cases rest <;> rfl

@[simp] theorem Doing.waiter_above (id : LockId) (rc : Rc) : (Doing.above id rc).waiter = none := by
  unfold Doing.above
  split <;> rfl

theorem LockType.isLockCompatible_of_upgradeCheck {a b x : LockType} (h : a.upgradeCheck b)
    (hb : b.isLockCompatible x) : a.isLockCompatible x := by
  revert h hb
  cases a <;> cases b <;> cases x <;> decide

theorem LockType.isLockCompatible_X (x : LockType) : X.isLockCompatible x = false := by
  cases x <;> rfl

theorem LockView.Agrees.hold_of_waiter {lax up : Prop} {v : LockView} {w : Waiter} (h : v.Agrees lax up)
    (hw : v.session.doing.waiter = some w) :
    v.session.queued = some w.id ∧ (∃ ho, v.hold w.id = some ho ∧ ho.type = w.type) ∧
      ∀ a, v.run w.id = some a → ∀ x, w.type.isLockCompatible x → a.isLockCompatible x := by
  obtain ⟨hq, hwaits⟩ := h.waitsFor hw
  refine ⟨hq, ?_⟩
  cases hr : w.resume with
  | waitLockX =>
    simp only [hr] at hwaits
    obtain ⟨-, ht, ho, hh, hX, -⟩ := hwaits
    refine ⟨⟨ho, hh, hX.trans ht.symm⟩, fun a _ x hx => ?_⟩
    rw [ht, LockType.isLockCompatible_X] at hx
    cases hx
  | level last rest =>
    simp only [hr] at hwaits
    obtain ⟨hh, hrun, hup, -⟩ := hwaits
    refine ⟨hh, fun a ha x hx => ?_⟩
    exact LockType.isLockCompatible_of_upgradeCheck (hup a (hrun ▸ ha)) hx

namespace LockSystem

variable {s s' : LockSystem n} {t u : Fin n} {id id' : LockId} {l : List (Fin n)}

/-! ### The fields behind the operations -/

theorem waitCB_setUnit_self (l : LockUnit n) : (s.setUnit id l).waitCB id = l.pWaitCB := by
  simp [waitCB, setUnit]

theorem waitCB_setUnit_of_ne (h : id' ≠ id) (l : LockUnit n) : (s.setUnit id l).waitCB id' = s.waitCB id' := by
  simp [waitCB, setUnit, update_of_ne h]

theorem pWaitCB_unit : (s.unit id).pWaitCB = s.waitCB id := by
  unfold unit waitCB
  cases s.units id <;> rfl

theorem waitCB_setWaitCB_self (h : Option (Fin n)) : (s.setWaitCB id h).waitCB id = h :=
  waitCB_setUnit_self _

theorem waitCB_setRun (type : Option LockType) (id' : LockId) : (s.setRun id t type).waitCB id' = s.waitCB id' := by
  by_cases hid : id' = id
  · subst hid
    exact (waitCB_setUnit_self _).trans pWaitCB_unit
  · exact waitCB_setUnit_of_ne hid _

theorem infos_setInfo_self (info : Option (LockInfo n)) : (s.setInfo t id info).infos t id = info := by
  simp [setInfo]

theorem infos_setInfo_of_ne (info : Option (LockInfo n)) (h : u ≠ t ∨ id' ≠ id) :
    (s.setInfo t id info).infos u id' = s.infos u id' := by
  by_cases hu : u = t
  · subst hu
    have hid := h.resolve_left fun hne => hne rfl
    simp [setInfo, update_of_ne hid]
  · simp [setInfo, update_of_ne hu]

theorem waitCB_removeFromRun (id' : LockId) : (s.removeFromRun t id).waitCB id' = s.waitCB id' := by
  unfold removeFromRun
  split
  · exact waitCB_setRun _ _
  · exact waitCB_setRun (s := s) none id'

theorem waitCB_deleteUnused (id' : LockId) : (s.deleteUnused id).waitCB id' = s.waitCB id' := by
  unfold deleteUnused
  split
  next hempty =>
    by_cases hid : id' = id
    · subst hid
      rw [hempty.1]
      simp [waitCB]
    · simp [waitCB, update_of_ne hid]
  next => rfl

theorem waitCB_bucketRelease (id' : LockId) : (s.bucketRelease t id).waitCB id' = s.waitCB id' := by
  unfold bucketRelease
  split
  · rfl
  · rw [waitCB_deleteUnused, waitCB_removeFromRun]

theorem gen_deleteUnused (h : id' ≠ id ∨ s.waitCB id ≠ none) : (s.deleteUnused id).gen id' = s.gen id' := by
  unfold deleteUnused
  split
  next he => exact update_of_ne (h.resolve_right fun hne => hne he.1) ..
  next => rfl

theorem gen_bucketRelease (h : id' ≠ id ∨ s.waitCB id ≠ none) : (s.bucketRelease t id).gen id' = s.gen id' := by
  unfold bucketRelease
  split
  · rfl
  · rw [gen_deleteUnused (by rwa [waitCB_removeFromRun]), removeFromRun]
    split <;> rfl

theorem le_wakeUps_wakeUp (u : Fin n) : s.wakeUps u ≤ (s.wakeUp t).wakeUps u := by
  by_cases hu : u = t
  · subst hu
    simp [wakeUp]
  · simp [wakeUp, update_of_ne hu]

theorem wakeUps_wakeUp_pos : 0 < (s.wakeUp t).wakeUps t := by
  simp [wakeUp]

theorem wakeUps_bucketRelease : (s.bucketRelease t id).wakeUps =
    match s.waitCB id with
    | none => s.wakeUps
    | some h => (s.wakeUp h).wakeUps := by
  have hd : ∀ s : LockSystem n, (s.deleteUnused id).wakeUps = s.wakeUps := by
    intro s
    unfold deleteUnused
    split <;> rfl
  unfold bucketRelease
  split
  next hnone =>
    have hwait : s.waitCB id = none := by simp [waitCB, hnone]
    simp only [hwait]
  next =>
    rw [hd, removeFromRun]
    cases s.waitCB id <;> rfl

/-! ### One lock at a time -/

/-- Only the lock with the id `id` changes, and only wake-ups come in. -/
structure Touches (s s' : LockSystem n) (id : LockId) : Prop where
  waitCB : ∀ id' ≠ id, s'.waitCB id' = s.waitCB id'
  infos : ∀ id' ≠ id, ∀ u, s'.infos u id' = s.infos u id'
  runEntry : ∀ id' ≠ id, ∀ u, s'.runEntry id' u = s.runEntry id' u
  wakeUps : ∀ u, s.wakeUps u ≤ s'.wakeUps u
  sessions : s'.sessions = s.sessions
  crashed : s'.crashed = s.crashed

namespace Touches

theorem refl (s : LockSystem n) (id : LockId) : Touches s s id where
  waitCB _ _ := rfl
  infos _ _ _ := rfl
  runEntry _ _ _ := rfl
  wakeUps _ := le_rfl
  sessions := rfl
  crashed := rfl

variable (h : Touches s s' id)

include h

theorem trans {s'' : LockSystem n} (h' : Touches s' s'' id) : Touches s s'' id where
  waitCB id' hid := (h'.waitCB id' hid).trans (h.waitCB id' hid)
  infos id' hid u := (h'.infos id' hid u).trans (h.infos id' hid u)
  runEntry id' hid u := (h'.runEntry id' hid u).trans (h.runEntry id' hid u)
  wakeUps u := (h.wakeUps u).trans (h'.wakeUps u)
  sessions := h'.sessions.trans h.sessions
  crashed := h'.crashed.trans h.crashed

theorem setUnit (l : LockUnit n) : Touches s (s'.setUnit id l) id where
  __ := h
  waitCB id' hid := (waitCB_setUnit_of_ne hid l).trans (h.waitCB id' hid)
  runEntry id' hid u := (runEntry_setUnit_of_ne hid l).trans (h.runEntry id' hid u)

theorem setInfo (t : Fin n) (info : Option (LockInfo n)) : Touches s (s'.setInfo t id info) id where
  __ := h
  infos id' hid u := (infos_setInfo_of_ne info (.inr hid)).trans (h.infos id' hid u)

theorem wakeUp (t : Fin n) : Touches s (s'.wakeUp t) id where
  __ := h
  wakeUps u := (h.wakeUps u).trans (le_wakeUps_wakeUp u)

theorem bucketRelease (t : Fin n) : Touches s (s'.bucketRelease t id) id where
  waitCB id' hid := (waitCB_bucketRelease id').trans (h.waitCB id' hid)
  infos id' hid u := by
    rw [frame_bucketRelease.1]
    exact h.infos id' hid u
  runEntry id' hid u := by
    rw [runEntry_bucketRelease, runEntry_setRun_of_ne _ (.inr hid)]
    exact h.runEntry id' hid u
  wakeUps u := by
    refine (h.wakeUps u).trans ?_
    rw [wakeUps_bucketRelease]
    split
    · exact le_rfl
    · exact le_wakeUps_wakeUp u
  sessions := frame_bucketRelease.2.1.trans h.sessions
  crashed := frame_bucketRelease.2.2.trans h.crashed

omit h

end Touches

/-! ### The links of a queue -/

/-- The sessions of the queue, in their order. -/
structure Linked (s : LockSystem n) (id : LockId) (l : List (Fin n)) : Prop where
  links : LinkedFrom (fun u => s.getNextWaitCB u id) (s.waitCB id) l
  nodup : l.Nodup

namespace Linked

theorem keep (h : s.Linked id l) (hwait : s'.waitCB id = s.waitCB id)
    (hi : ∀ u ∈ l, s'.infos u id = s.infos u id) : s'.Linked id l where
  links := by
    rw [hwait]
    refine h.links.congr fun u hu => ?_
    simp only [getNextWaitCB, hi u hu]
  nodup := h.nodup

theorem length_le (h : s.Linked id l) : l.length ≤ n :=
  h.nodup.length_le_card.trans_eq (Fintype.card_fin n)

theorem waitCB_eq (h : s.Linked id l) : s.waitCB id = l.head? := by
  have hl := h.links
  cases l with
  | nil => exact hl
  | cons x xs => exact hl.1

end Linked

theorem getNextWaitCB_setNextWaitCB (hi : s.infos t id ≠ none) (next : Option (Fin n)) (u : Fin n) :
    (s.setNextWaitCB t id next).getNextWaitCB u id = if t = u then next else s.getNextWaitCB u id := by
  obtain ⟨info, hi⟩ := ne_none_iff_exists'.1 hi
  split
  next htu =>
    subst htu
    simp [getNextWaitCB, setNextWaitCB, infos_setInfo_self, hi]
  next htu =>
    have hut : u ≠ t := fun h => htu h.symm
    simp only [getNextWaitCB, setNextWaitCB, infos_setInfo_of_ne _ (.inl hut)]

theorem lastWaitCB_eq {x : Fin n} {xs : List (Fin n)} {k : Nat} (hk : xs.length < k)
    (hl : LinkedFrom (fun u => s.getNextWaitCB u id) (s.getNextWaitCB x id) xs)
    (hi : ∀ u ∈ x :: xs, s.infos u id ≠ none) : s.lastWaitCB id k x = (x :: xs).getLast? := by
  induction k generalizing x xs with
  | zero => cases hk
  | succ k ih =>
    obtain ⟨info, hx⟩ := ne_none_iff_exists'.1 (hi x (mem_cons_self ..))
    have hn : s.getNextWaitCB x id = info.nextWaitCB := by simp [getNextWaitCB, hx]
    rw [hn] at hl
    cases xs with
    | nil => simp only [lastWaitCB, hx, show info.nextWaitCB = none from hl, getLast?_singleton]
    | cons y ys =>
      simp only [lastWaitCB, hx, hl.1]
      rw [ih (Nat.lt_of_succ_lt_succ hk) hl.2 fun u hu => hi u (mem_cons_of_mem _ hu), getLast?_cons_cons]

theorem removeLoop_eq {x : Fin n} {xs ys : List (Fin n)} {k : Nat} (hk : xs.length < k)
    (hl : LinkedFrom (fun u => s.getNextWaitCB u id) (s.getNextWaitCB x id) (xs ++ t :: ys))
    (hnd : (x :: (xs ++ t :: ys)).Nodup) (hi : ∀ u ∈ x :: xs, s.infos u id ≠ none) :
    s.removeLoop t id k x = (x :: xs).getLast?.map fun last => s.setNextWaitCB last id (s.getNextWaitCB t id) := by
  induction k generalizing x xs with
  | zero => cases hk
  | succ k ih =>
    obtain ⟨info, hx⟩ := ne_none_iff_exists'.1 (hi x (mem_cons_self ..))
    have hn : s.getNextWaitCB x id = info.nextWaitCB := by simp [getNextWaitCB, hx]
    rw [hn] at hl
    cases xs with
    | nil => simp only [removeLoop, hx, hl.1, if_true, getLast?_singleton, map_some]
    | cons y zs =>
      have hyt : y ≠ t := by
        rintro rfl
        have := (nodup_cons.1 (nodup_cons.1 hnd).2).1
        exact this (by simp)
      simp only [removeLoop, hx, hl.1, if_neg hyt]
      rw [ih (Nat.lt_of_succ_lt_succ hk) hl.2 (nodup_cons.1 hnd).2 fun u hu => hi u (mem_cons_of_mem _ hu),
        getLast?_cons_cons]

theorem Linked.appendToWait (h : s.Linked id l) (ht : t ∉ l) (hnext : s.getNextWaitCB t id = none)
    (hi : ∀ u ∈ l, s.infos u id ≠ none) :
    ∃ s', s.appendToWait t id = some s' ∧ s'.Linked id (l ++ [t]) ∧ Touches s s' id ∧ s'.gen = s.gen := by
  have hn : (l ++ [t]).Nodup := by
    refine h.nodup.append (nodup_singleton t) ?_
    simpa using ht
  have hwait := h.waitCB_eq
  have hl := h.links
  cases l with
  | nil =>
    refine ⟨s.setWaitCB id (some t), ?_, ⟨⟨waitCB_setWaitCB_self _, hnext⟩, hn⟩, (Touches.refl s id).setUnit _, rfl⟩
    simp only [appendToWait, hwait, head?_nil]
  | cons x xs =>
    obtain ⟨last, hlast⟩ : ∃ last, (x :: xs).getLast? = some last := ⟨_, getLast?_eq_some_getLast (by simp)⟩
    have hmem : last ∈ x :: xs := List.mem_of_getLast? hlast
    have hnext' := getNextWaitCB_setNextWaitCB (hi last hmem) (some t)
    refine ⟨s.setNextWaitCB last id (some t), ?_, ⟨hl.snoc h.nodup ?_ ?_ ?_, hn⟩,
      (Touches.refl s id).setInfo _ _, rfl⟩
    · simp only [appendToWait, hwait, head?_cons]
      rw [lastWaitCB_eq h.length_le hl.2 hi, hlast, map_some]
    · rw [hnext', if_neg, hnext]
      rintro rfl
      exact ht hmem
    · exact (if_neg (cons_ne_nil _ _)).symm
    · intro y hy
      rw [hnext', hlast]
      simp only [some.injEq]

theorem Linked.appendHeadToWait (h : s.Linked id l) (ht : t ∉ l) (hi : s.infos t id ≠ none)
    (hnext : s.getNextWaitCB t id = none ∨ s.waitCB id ≠ none) :
    (s.appendHeadToWait t id).Linked id (t :: l) ∧ Touches s (s.appendHeadToWait t id) id ∧
      (s.appendHeadToWait t id).gen = s.gen := by
  have hn : (t :: l).Nodup := nodup_cons.2 ⟨ht, h.nodup⟩
  have hwait := h.waitCB_eq
  have hl := h.links
  unfold LockSystem.appendHeadToWait
  cases l with
  | nil =>
    simp only [hwait, head?_nil]
    refine ⟨⟨⟨waitCB_setWaitCB_self _, ?_⟩, hn⟩, (Touches.refl s id).setUnit _, rfl⟩
    exact hnext.resolve_right fun hne => hne hwait
  | cons x xs =>
    simp only [hwait, head?_cons]
    have hnext' := getNextWaitCB_setNextWaitCB (s := s.setWaitCB id (some t)) hi (some x)
    refine ⟨⟨?_, hn⟩, ((Touches.refl s id).setUnit _).setInfo _ _, rfl⟩
    rw [show ((s.setWaitCB id (some t)).setNextWaitCB t id (some x)).waitCB id = some t from waitCB_setWaitCB_self _]
    refine LinkedFrom.push (h := s.waitCB id) hl ?_ ?_
    · rw [hnext', if_pos rfl, hwait]
      rfl
    · intro y hy
      rw [hnext', if_neg]
      · rfl
      · rintro rfl
        exact ht hy

theorem Linked.removeFromWait (h : s.Linked id l) (ht : t ∈ l) (hi : ∀ u ∈ l, s.infos u id ≠ none) :
    ∃ s', s.removeFromWait t id = some s' ∧ s'.Linked id (l.erase t) ∧ Touches s s' id ∧ s'.gen = s.gen ∧
      ∀ u, l.head? = some t → (l.erase t).head? = some u → 0 < s'.wakeUps u := by
  obtain ⟨xs, ys, htxs, rfl, he⟩ := exists_erase_eq ht
  have hn : (xs ++ ys).Nodup := he ▸ h.nodup.erase t
  have hl := h.links
  unfold removeFromWait
  rw [he, h.waitCB_eq]
  cases xs with
  | nil =>
    have hnext : s.getNextWaitCB t id = ys.head? := by
      cases ys with
      | nil => exact hl.2
      | cons y ys => exact hl.2.1
    simp only [nil_append, head?_cons, if_true, hnext]
    cases ys with
    | nil =>
      refine ⟨_, rfl, ⟨waitCB_setWaitCB_self _, hn⟩, (Touches.refl s id).setUnit _, rfl, ?_⟩
      simp
    | cons y ys =>
      refine ⟨_, rfl, ⟨⟨waitCB_setWaitCB_self _, hl.2.2⟩, hn⟩, ((Touches.refl s id).setUnit _).wakeUp _, rfl, ?_⟩
      rintro u - hu
      cases hu
      exact wakeUps_wakeUp_pos
  | cons x xs =>
    have hxt : x ≠ t := fun h => htxs (by simp [h])
    obtain ⟨last, hlast⟩ : ∃ last, (x :: xs).getLast? = some last := ⟨_, getLast?_eq_some_getLast (by simp)⟩
    have hmem : last ∈ x :: xs := List.mem_of_getLast? hlast
    have hnext' := getNextWaitCB_setNextWaitCB (hi last (mem_append_left _ hmem)) (s.getNextWaitCB t id)
    refine ⟨s.setNextWaitCB last id (s.getNextWaitCB t id), ?_, ⟨hl.unlink h.nodup ?_ ?_, hn⟩,
      (Touches.refl s id).setInfo _ _, rfl, ?_⟩
    · have hlength := h.length_le
      simp only [cons_append, head?_cons, if_neg hxt]
      have hlt : xs.length < n := by
        simp at hlength
        omega
      rw [removeLoop_eq hlt hl.2 h.nodup fun u hu => hi u (mem_append_left _ hu), hlast, map_some]
    · exact (if_neg (cons_ne_nil _ _)).symm
    · intro y hy
      rw [hnext', hlast]
      simp only [some.injEq]
    · intro u hhead
      exact absurd (some.inj hhead) hxt

/-! ### The sessions of a queue -/

/-- A wake-up was posted to the session, or it was taken and the session is about to try again. -/
def Called (s : LockSystem n) (t : Fin n) : Prop :=
  0 < s.wakeUps t ∨ ∃ w, (s.sessions t).doing = .awake w

/-- The queue of a lock is `l`, and its first session is called if it can have the lock. -/
structure Queue (s : LockSystem n) (id : LockId) (l : List (Fin n)) : Prop where
  linked : s.Linked id l
  mem : ∀ u, u ∈ l ↔ (s.sessions u).queued = some id
  woken : ∀ u, l.head? = some u → ∀ hold, (s.view u).hold id = some hold → s.compatible u id hold.type = true →
    s.Called u

theorem sessions_setSession_self (x : Session) : (s.setSession t x).sessions t = x :=
  update_self ..

theorem sessions_setSession_of_ne (h : u ≠ t) (x : Session) : (s.setSession t x).sessions u = s.sessions u :=
  update_of_ne h ..

theorem hold_congr (h : s'.infos u id = s.infos u id) : (s'.view u).hold id = (s.view u).hold id := by
  simp only [view, h]

theorem compatible_congr (h : ∀ v, s'.runEntry id v = s.runEntry id v) (type : LockType) :
    s'.compatible u id type = s.compatible u id type := by
  unfold compatible
  rw [funext h]

theorem Called.of_ne (h : s.Called u) (hut : u ≠ t) (x : Session) (ht : Touches s s' id) :
    (s'.setSession t x).Called u := by
  unfold Called
  rw [sessions_setSession_of_ne hut, ht.sessions]
  exact h.imp_left fun h => h.trans_le (ht.wakeUps u)

theorem queued_setSession (hs : s'.sessions = s.sessions) (x : Session) (u : Fin n) :
    ((s'.setSession t x).sessions u).queued = some id ↔
      (u = t ∧ x.queued = some id) ∨ (u ≠ t ∧ (s.sessions u).queued = some id) := by
  by_cases hut : u = t
  · subst hut
    simp [sessions_setSession_self]
  · simp [sessions_setSession_of_ne hut, hs, hut]

variable {x : Session} {l' : List (Fin n)} (ht : (s.sessions t).queued ≠ some id) (hwait : s'.waitCB id = s.waitCB id)
  (hinfos : ∀ u ≠ t, s'.infos u id = s.infos u id)
  (hwoken : (∀ u type, s'.compatible u id type = true → s.compatible u id type = true) ∨
    ∀ u, s.waitCB id = some u → 0 < s'.wakeUps u)
  (hlinked : s'.Linked id l') (hmem : ∀ u, u ∈ l' ↔ u = t ∨ u ∈ l)
  (hhead : ∀ u, l'.head? = some u → u = t ∨ l.head? = some u)
  (hwaiter : (s.sessions t).doing.waiter = none) (hx : x.doing.waiter = none) (hq : x.queued = (s.sessions t).queued)

namespace Queue

theorem off (h : s.Queue id' l) (ht : Touches s s' id) (hid : id' ≠ id)
    (hq : x.queued = some id' ↔ (s.sessions t).queued = some id')
    (ha : (s.sessions t).queued = some id' → ∀ w, (s.sessions t).doing ≠ .awake w) :
    (s'.setSession t x).Queue id' l where
  linked := h.linked.keep (ht.waitCB id' hid) fun u _ => ht.infos id' hid u
  mem u := by
    rw [h.mem, queued_setSession ht.sessions]
    by_cases hut : u = t
    · subst hut
      simp [hq]
    · simp [hut]
  woken u hu hold hhold hok := by
    change (s'.view u).hold id' = some hold at hhold
    change s'.compatible u id' hold.type = true at hok
    rw [hold_congr (ht.infos id' hid u)] at hhold
    rw [compatible_congr (ht.runEntry id' hid)] at hok
    have hc := h.woken u hu hold hhold hok
    by_cases hut : u = t
    · subst hut
      refine .inl ((hc.resolve_right ?_).trans_le (ht.wakeUps u))
      rintro ⟨w, hw⟩
      exact ha ((h.mem u).1 (List.mem_of_head? hu)) w hw
    · exact hc.of_ne hut x ht

include ht hwait hinfos hwoken in
theorem idle (h : s.Queue id l) (htouches : Touches s s' id) (hx : x.queued ≠ some id) :
    (s'.setSession t x).Queue id l := by
  have hne : ∀ u ∈ l, u ≠ t := by
    rintro u hu rfl
    exact ht ((h.mem u).1 hu)
  refine ⟨h.linked.keep hwait fun u hu => hinfos u (hne u hu), fun u => ?_, fun u hu ho hh hok => ?_⟩
  · rw [h.mem, queued_setSession htouches.sessions]
    by_cases hut : u = t
    · subst hut
      simp [hx, ht]
    · simp [hut]
  · have hut := hne u (List.mem_of_head? hu)
    rcases hwoken with hle | hp
    · change (s'.view u).hold id = some ho at hh
      rw [hold_congr (hinfos u hut)] at hh
      exact (h.woken u hu ho hh (hle u _ hok)).of_ne hut x htouches
    · exact .inl (hp u (h.linked.waitCB_eq.trans hu))

include hlinked hmem hhead in
theorem join (h : s.Queue id l) (ht : Touches s s' id) (hx : x.queued = some id)
    (hr : ∀ u, s'.runEntry id u = s.runEntry id u) (hh : ∀ u ≠ t, (s'.view u).hold id = (s.view u).hold id)
    (hno : ∀ hold, (s'.view t).hold id = some hold → s.compatible t id hold.type = false) :
    (s'.setSession t x).Queue id l' where
  linked := hlinked.keep rfl fun _ _ => rfl
  mem u := by
    rw [hmem, h.mem, queued_setSession ht.sessions]
    by_cases hut : u = t
    · simp [hut, hx]
    · simp [hut]
  woken u hu hold hhold' hok := by
    change (s'.view u).hold id = some hold at hhold'
    change s'.compatible u id hold.type = true at hok
    rw [compatible_congr hr] at hok
    by_cases hut : u = t
    · subst hut
      rw [hno hold hhold'] at hok
      cases hok
    · rw [hh u hut] at hhold'
      exact (h.woken u ((hhead u hu).resolve_left hut) hold hhold' hok).of_ne hut x ht

theorem leave (h : s.Queue id l) (ht : Touches s s' id) (hx : x.queued ≠ some id)
    (hlinked : s'.Linked id (l.erase t)) (hh : ∀ u ≠ t, (s'.view u).hold id = (s.view u).hold id)
    (hle : ∀ u type, s'.compatible u id type → s.compatible u id type)
    (hn : ∀ u, l.head? = some t → (l.erase t).head? = some u → 0 < s'.wakeUps u) :
    (s'.setSession t x).Queue id (l.erase t) where
  linked := hlinked.keep rfl fun _ _ => rfl
  mem u := by
    rw [h.linked.nodup.mem_erase_iff, h.mem, queued_setSession ht.sessions]
    simp [hx]
  woken u hu hold hhold' hok := by
    have hut : u ≠ t := (h.linked.nodup.mem_erase_iff.1 (List.mem_of_head? hu)).1
    by_cases hf : l.head? = some t
    · exact .inl (hn u hf hu)
    · have hu' : l.head? = some u := by
        cases l with
        | nil => cases hu
        | cons y ys =>
          have hyt : y ≠ t := fun h => hf (by simp [h])
          simpa [erase_cons, hyt] using hu
      change (s'.view u).hold id = some hold at hhold'
      rw [hh u hut] at hhold'
      exact (h.woken u hu' hold hhold' (hle u _ hok)).of_ne hut x ht

end Queue

/-! ### The steps -/

/-- All queues are exact, and a session that waits has the lock unit that it found. -/
structure Exact (s : LockSystem n) : Prop where
  crashed : s.crashed = false
  queue : ∀ id, ∃ l, s.Queue id l
  gen : ∀ t w, (s.sessions t).doing.waiter = some w → s.gen w.id = w.gen

namespace Exact

variable (h : s.Exact) (hagrees : ∀ t, (s.view t).Agrees True True)

include h hagrees

theorem next (ht : Touches s s' id) (hg : ∀ id', s'.gen id' = s.gen id' ∨ s.waitCB id' = none)
    (hx : ∀ w, x.doing.waiter = some w → s'.gen w.id = w.gen)
    (hq : ∀ id' ≠ id, x.queued = some id' ↔ (s.sessions t).queued = some id')
    (ha : ∀ w, (s.sessions t).doing = .awake w → w.id = id) (hid : ∃ l, (s'.setSession t x).Queue id l) :
    (s'.setSession t x).Exact where
  crashed := ht.crashed.trans h.crashed
  queue id' := by
    by_cases hid' : id' = id
    · subst hid'
      exact hid
    · obtain ⟨l, hl⟩ := h.queue id'
      refine ⟨l, hl.off ht hid' (hq id' hid') fun hq' w hw => hid' ?_⟩
      have hqueued := ((hagrees t).hold_of_waiter (by rw [show (s.view t).session = s.sessions t from rfl, hw]; rfl)).1
      have := hqueued.symm.trans hq'
      rw [← ha w hw]
      exact (some.inj this).symm
  gen u w hw := by
    by_cases hut : u = t
    · subst hut
      rw [sessions_setSession_self] at hw
      exact hx w hw
    · rw [sessions_setSession_of_ne hut, ht.sessions] at hw
      refine ((hg w.id).resolve_right fun hn => ?_).trans (h.gen u w hw)
      obtain ⟨l, hl⟩ := h.queue w.id
      have hmem := (hl.mem u).2 ((hagrees u).hold_of_waiter hw).1
      rw [hl.linked.waitCB_eq, head?_eq_none_iff] at hn
      rw [hn] at hmem
      cases hmem

include ht hwait hinfos hwoken hwaiter hx hq in
theorem quiet (htouches : Touches s s' id) (hg : ∀ id', s'.gen id' = s.gen id' ∨ s.waitCB id' = none) :
    (s'.setSession t x).Exact := by
  obtain ⟨l, hl⟩ := h.queue id
  refine h.next hagrees htouches hg ?_ (fun _ _ => by rw [hq]) ?_
    ⟨l, hl.idle ht hwait hinfos hwoken htouches (by rwa [hq])⟩
  · intro w hw
    rw [hx] at hw
    cases hw
  · intro w hw
    rw [hw] at hwaiter
    cases hwaiter

include ht hwaiter in
theorem own {infos : Fin n → LockId → Option (LockInfo n)}
    (hinfos : ∀ u id', u ≠ t ∨ id' ≠ id → infos u id' = s.infos u id') (hx : x.doing.waiter = none)
    (hq : x.queued = (s.sessions t).queued) : ({ s with infos := infos }.setSession t x).Exact := by
  refine h.quiet ht rfl ?_ (.inl ?_) hwaiter hx hq hagrees { Touches.refl s id with infos := ?_ } fun _ => .inl rfl
  · exact fun u hu => hinfos u id (.inl hu)
  · exact fun u type hc => hc
  · exact fun id' hid u => hinfos u id' (.inr hid)

include hlinked hmem hhead hwaiter in
theorem join {info : LockInfo n} (hl : s.Queue id l) (htouches : Touches (s.setInfo t id (some info)) s' id)
    (hg : s'.gen = s.gen) (ht : (s.sessions t).queued = none)
    (hv : ∀ u, s'.view u = (s.setInfo t id (some info)).view u) (hno : s.compatible t id info.type = false)
    (hq : x.queued = some id) (hx : ∀ w, x.doing.waiter = some w → s'.gen w.id = w.gen) :
    (s'.setSession t x).Exact := by
  have hs' : Touches s s' id := ((Touches.refl s id).setInfo _ _).trans htouches
  refine h.next hagrees hs' (fun _ => .inl (by rw [hg])) hx ?_ ?_ ⟨l', hl.join hlinked hmem hhead hs' hq ?_ ?_ ?_⟩
  · intro id' hid'
    simp [hq, ht, hid'.symm]
  · intro w hw
    rw [hw] at hwaiter
    cases hwaiter
  · exact fun u => congrFun (congrArg LockView.run (hv u)) id
  · intro u hu
    rw [hv u]
    exact hold_congr (infos_setInfo_of_ne _ (.inl hu))
  · intro hold hh
    rw [hv t, view] at hh
    simp only [infos_setInfo_self, map_some, some.injEq] at hh
    rw [← hh]
    exact hno

theorem leave {w : Waiter} (hw : (s.sessions t).doing.waiter = some w) (ht : Touches s s' w.id)
    (hg : s'.gen = s.gen) (hx : x.doing.waiter = none) (hq : x.queued = none)
    (hid : ∃ l, (s'.setSession t x).Queue w.id l) : (s'.setSession t x).Exact := by
  have hqueued : (s.sessions t).queued = some w.id := ((hagrees t).hold_of_waiter hw).1
  refine h.next hagrees ht (fun _ => .inl (by rw [hg])) ?_ ?_ ?_ hid
  · intro w' hw'
    rw [hx] at hw'
    cases hw'
  · intro id' hid'
    simp [hq, hqueued, hid'.symm]
  · intro w' hw'
    rw [hw'] at hw
    exact congrArg Waiter.id (some.inj hw)

omit h hagrees

end Exact

theorem compatible_of_setRun {type : LockType} (hruns : s.RunsCompatible) (hok : s.compatible t id type)
    (hle : ∀ a, s.runEntry id t = some a → ∀ x, type.isLockCompatible x → a.isLockCompatible x)
    (u : Fin n) (x : LockType) (h : (s.setRun id t (some type)).compatible u id x) :
    s.compatible u id x = true := by
  have hruns' : (s.setRun id t (some type)).RunsCompatible :=
    hruns.of_moves (Moves.refl.setRun id (some type)) (.inr (.inr ⟨id, type, hok, rfl⟩))
  rw [compatible_iff hruns'] at h
  rw [compatible_iff hruns]
  intro v hvu a ha
  by_cases hvt : v = t
  · subst hvt
    exact hle a ha x (h v hvu type (runEntry_setRun_self _))
  · exact h v hvu a ((runEntry_setRun_of_ne _ (.inl hvt)).trans ha)

theorem Queue.infos_ne_none (h : s.Queue id l) (hagrees : ∀ t, (s.view t).Agrees True True) (hu : u ∈ l) :
    s.infos u id ≠ none := by
  intro hn
  refine (hagrees u).hold_of_queued ((h.mem u).1 hu) ?_
  simp [view, hn]

namespace Exact

variable {level : Level} {rest : List Level} (h : s.Exact)

include h

theorem session {k : Nat} (hq : x.queued = (s.sessions t).queued)
    (hx : ∀ w, x.doing.waiter = some w → s.gen w.id = w.gen)
    (hc : ∀ id ho, (s.sessions t).queued = some id → (s.view t).hold id = some ho →
      s.compatible t id ho.type → s.Called t → 0 < k ∨ ∃ w, x.doing = .awake w) :
    ({ s with wakeUps := update s.wakeUps t k }.setSession t x).Exact where
  crashed := h.crashed
  queue id := by
    obtain ⟨l, hl⟩ := h.queue id
    refine ⟨l, hl.linked.keep rfl fun _ _ => rfl, fun u => ?_, fun u hu ho hh hok => ?_⟩
    · rw [hl.mem]
      by_cases hut : u = t
      · subst hut
        rw [sessions_setSession_self, hq]
      · rw [sessions_setSession_of_ne hut]
    · have hold' := hl.woken u hu ho hh hok
      unfold Called
      by_cases hut : u = t
      · subst hut
        rw [sessions_setSession_self]
        have hp := hc id ho ((hl.mem u).1 (List.mem_of_head? hu)) hh hok hold'
        simpa [setSession] using hp
      · rw [sessions_setSession_of_ne hut]
        simpa [setSession, update_of_ne hut, Called] using hold'
  gen u w hw := by
    by_cases hut : u = t
    · subst hut
      rw [sessions_setSession_self] at hw
      exact hx w hw
    · rw [sessions_setSession_of_ne hut] at hw
      exact h.gen u w hw

theorem place (hq : x.queued = (s.sessions t).queued) (hx : ∀ w, x.doing.waiter = some w → s.gen w.id = w.gen)
    (hno : (∀ w, (s.sessions t).doing ≠ .awake w) ∨ ∀ id ho, (s.sessions t).queued = some id →
      (s.view t).hold id = some ho → s.compatible t id ho.type = false) : (s.setSession t x).Exact := by
  have hs : { s with wakeUps := update s.wakeUps t (s.wakeUps t) } = s := by
    rw [update_eq_self]
  rw [← hs]
  refine h.session hq hx fun id ho hid hh hok hc => ?_
  rcases hno with hne | hno
  · exact .inl (hc.resolve_right fun ⟨w, hw⟩ => hne w hw)
  · rw [hno id ho hid hh] at hok
    cases hok

theorem call (c : LockCall) : (s.call t c).Exact := by
  unfold LockSystem.call
  split
  next hallows =>
    have hi : ∃ rc, (s.sessions t).doing = .idle rc := by
      cases hd : (s.sessions t).doing <;> simp [Session.allows, hd] at hallows ⊢
    obtain ⟨rc, hi⟩ := hi
    refine h.place rfl (fun w hw => ?_) (.inl (by simp [hi]))
    have hs : c.start.waiter = none := by
      cases c <;> first | exact waiter_start _ | rfl
    cases hs.symm.trans hw
  next => exact h

theorem endWait (rc : Rc) : (s.endWait t rc).Exact := by
  unfold LockSystem.endWait
  split
  next w hdoing =>
    refine h.place rfl ?_ (.inl (by simp [hdoing]))
    rintro w' ⟨rfl⟩
    exact h.gen t w (by rw [hdoing]; rfl)
  next => exact h

theorem find (hd : (s.sessions t).doing = .finding id) : (s.find t id).Exact := by
  unfold LockSystem.find
  split
  · refine h.place rfl ?_ (.inl (by simp [hd]))
    rintro w ⟨⟩
  · refine h.place rfl ?_ (.inl (by simp [hd]))
    rintro w ⟨rfl⟩
    rfl

variable {w : Waiter}

theorem takeEvent (hd : (s.sessions t).doing = .waiting w) : (s.takeEvent t w).Exact := by
  unfold LockSystem.takeEvent
  split
  · exact h
  · refine h.session rfl ?_ fun _ _ _ _ _ _ => .inr ⟨w, rfl⟩
    rintro w' ⟨rfl⟩
    exact h.gen t w (by rw [hd]; rfl)

variable (hagrees : ∀ t, (s.view t).Agrees True True)

include hagrees

theorem free (ht : (s.sessions t).queued ≠ some id) (info : Option (LockInfo n)) :
    ∃ l, s.Queue id l ∧ t ∉ l ∧ (s.setInfo t id info).Linked id l ∧
      ∀ u ∈ l, (s.setInfo t id info).infos u id ≠ none := by
  obtain ⟨l, hl⟩ := h.queue id
  have htl : t ∉ l := fun hmem => ht ((hl.mem t).1 hmem)
  have hinfos : ∀ u ∈ l, (s.setInfo t id info).infos u id = s.infos u id := fun u hu =>
    infos_setInfo_of_ne _ (.inl fun hut => htl (hut ▸ hu))
  refine ⟨l, hl, htl, hl.linked.keep rfl hinfos, fun u hu => ?_⟩
  rw [hinfos u hu]
  exact hl.infos_ne_none hagrees hu

theorem lockNew (hruns : s.RunsCompatible) (hn : s.infos t level.id = none) (hq : (s.sessions t).queued = none)
    (hwaiter : (s.sessions t).doing.waiter = none) : ∃ s', s.lockNew t level rest = some s' ∧ s'.Exact := by
  have ht : (s.sessions t).queued ≠ some level.id := by simp [hq]
  have hinfos : ∀ u ≠ t, (s.addLockInfo t level.id level.type).infos u level.id = s.infos u level.id :=
    fun u hu => infos_setInfo_of_ne _ (.inl hu)
  have hadd : Touches s (s.addLockInfo t level.id level.type) level.id := (Touches.refl s level.id).setInfo _ _
  unfold LockSystem.lockNew
  simp only
  cases hok : s.compatible t level.id level.type with
  | true =>
    rw [appendToRun_of_compatible (s := s.addLockInfo t level.id level.type) hok]
    have hr : s.runEntry level.id t = none := (hagrees t).run_of_none (by simp [view, hn]) ht
    refine ⟨_, rfl, h.quiet ht (waitCB_setRun (s := s.addLockInfo t level.id level.type) _ _) hinfos (.inl ?_)
      hwaiter (waiter_start rest) rfl hagrees (hadd.setUnit _) fun _ => .inl rfl⟩
    exact compatible_of_setRun hruns hok fun a ha => by cases hr.symm.trans ha
  | false =>
    rw [appendToRun_of_not_compatible (s := s.addLockInfo t level.id level.type) hok]
    -- behind `appendToWait` the session is the last one
    have hj : ∃ s', (s.addLockInfo t level.id level.type).appendToWait t level.id = some s' ∧
        ∀ x : Session, x.queued = some level.id → (∀ w, x.doing.waiter = some w → s'.gen w.id = w.gen) →
          (s'.setSession t x).Exact := by
      obtain ⟨l, hl, htl, hk, hs⟩ := h.free hagrees ht (some ⟨level.type, 0, none⟩)
      obtain ⟨s', happend, hlinked, htouches, hg⟩ := hk.appendToWait htl
        (by simp [getNextWaitCB, infos_setInfo_self]) hs
      refine ⟨s', happend, fun x => h.join hlinked (fun u => by simp [or_comm]) (fun u hu => ?_) hwaiter hagrees hl
        htouches hg hq (fun u => view_appendToWait happend) hok⟩
      cases l with
      | nil => exact .inl (some.inj hu).symm
      | cons y ys => exact .inr hu
    cases hhow : level.how with
    | acquire =>
      obtain ⟨s', happend, he⟩ := hj
      refine ⟨_, by rw [happend]; rfl, he _ rfl ?_⟩
      rintro w ⟨rfl⟩
      rfl
    | tryAcquire =>
      refine ⟨_, rfl, h.own ht hwaiter hagrees (fun u id' hne => ?_) (waiter_above _ _) rfl⟩
      exact (infos_setInfo_of_ne _ hne).trans (infos_setInfo_of_ne _ hne)
    | tryAcquireOrAppend =>
      obtain ⟨s', happend, he⟩ := hj
      refine ⟨_, by rw [happend]; rfl, he _ rfl ?_⟩
      rintro w ⟨⟩

theorem lockUpgrade {info : LockInfo n} (hruns : s.RunsCompatible) (hi : s.infos t level.id = some info)
    (hm : info.type.isLockMatch level.type = false) (hq : (s.sessions t).queued = none)
    (hwaiter : (s.sessions t).doing.waiter = none)
    (hf : info.type.upgradeCheck level.type → s.compatible t level.id level.type = false →
      level.how ≠ .tryAcquire → info.nextWaitCB = none ∨ s.waitCB level.id ≠ none) :
    (s.lockUpgrade t level rest info.type).Exact := by
  have ht : (s.sessions t).queued ≠ some level.id := by simp [hq]
  have hinfos : ∀ u ≠ t, (s.setType t level.id level.type).infos u level.id = s.infos u level.id :=
    fun u hu => infos_setInfo_of_ne _ (.inl hu)
  have htype : Touches s (s.setType t level.id level.type) level.id := (Touches.refl s level.id).setInfo _ _
  unfold LockSystem.lockUpgrade
  by_cases hc : info.type.upgradeCheck level.type = false
  · simp only [hc, if_true]
    exact h.own ht hwaiter hagrees (fun _ _ _ => rfl) (waiter_above _ _) rfl
  simp only [if_neg hc]
  have hup : info.type.upgradeCheck level.type := by simpa using hc
  cases hok : s.compatible t level.id level.type with
  | true =>
    rw [appendToRun_of_compatible (s := s.setType t level.id level.type) hok]
    refine h.quiet ht (waitCB_setRun (s := s.setType t level.id level.type) _ _) ?_ (.inl ?_) hwaiter (waiter_start rest)
      rfl hagrees ((htype.setUnit _).setInfo _ _) fun _ => .inl rfl
    · intro u hu
      exact (infos_setInfo_of_ne _ (.inl hu)).trans (hinfos u hu)
    · refine compatible_of_setRun hruns hok fun a ha x hx => LockType.isLockCompatible_of_upgradeCheck ?_ hx
      have hh : (s.view t).hold level.id = some ⟨info.type, info.ref⟩ := by simp [view, hi]
      rcases (hagrees t).run_of_hold hh ht with hr | ⟨-, hold, hhold', hX, -⟩
      · cases hr.symm.trans ha
        exact hup
      · rw [hh] at hhold'
        cases hhold'
        simp [LockType.isLockMatch, show info.type = .X from hX] at hm
  | false =>
    rw [appendToRun_of_not_compatible (s := s.setType t level.id level.type) hok]
    -- behind `appendHeadToWait` the session is the first one
    have hs : s.setType t level.id level.type = s.setInfo t level.id (some { info with type := level.type }) := by
      rw [setType, hi, map_some]
    set s' := (s.setType t level.id level.type).appendHeadToWait t level.id with hs'
    have hj : level.how ≠ .tryAcquire → ∀ x : Session, x.queued = some level.id →
        (∀ w, x.doing.waiter = some w → s'.gen w.id = w.gen) → (s'.setSession t x).Exact := by
      intro hhow x
      obtain ⟨l, hl, htl, hk, -⟩ := h.free hagrees ht (some { info with type := level.type })
      obtain ⟨hlinked, htouches, hg⟩ := hk.appendHeadToWait htl (by simp [infos_setInfo_self])
        ((hf hup hok hhow).imp_left fun hn => by simp [getNextWaitCB, infos_setInfo_self, hn])
      rw [hs', hs]
      exact h.join hlinked (fun u => mem_cons) (fun u hu => .inl (some.inj hu).symm) hwaiter hagrees hl htouches hg hq
        (fun u => view_appendHeadToWait) hok
    cases hhow : level.how with
    | acquire =>
      refine hj (by simp [hhow]) _ rfl ?_
      rintro w ⟨rfl⟩
      rfl
    | tryAcquire =>
      refine h.own ht hwaiter hagrees (fun u id' hne => ?_) (waiter_above _ _) rfl
      exact (infos_setInfo_of_ne _ hne).trans (infos_setInfo_of_ne _ hne)
    | tryAcquireOrAppend =>
      refine hj (by simp [hhow]) _ rfl fun w hw => ?_
      cases (waiter_above level.id .dpsTransAppendToWait).symm.trans hw

theorem release {rc : Rc} (hd : (s.sessions t).doing = .releasing id rc) : (s.release t id rc).Exact := by
  have hwaiter : (s.sessions t).doing.waiter = none := by rw [hd]; rfl
  have ht : (s.sessions t).queued ≠ some id := by
    have hp := (hagrees t).placed
    rw [LockView.Placed, show (s.view t).session.doing = .releasing id rc from hd] at hp
    intro hq
    have := hp.2 (hp.1 id hq).1
    cases this.symm.trans hq
  unfold LockSystem.release
  split
  next => exact h.own ht hwaiter hagrees (fun _ _ _ => rfl) rfl rfl
  next info hinfo =>
    simp only
    split
    next href =>
      refine h.quiet ht (waitCB_bucketRelease id) ?_ (.inr ?_) hwaiter (waiter_above _ _) ?_ hagrees
        (((Touches.refl s id).bucketRelease t).setInfo _ _) ?_
      · intro u hu
        rw [delLockInfo, infos_setInfo_of_ne _ (.inl hu), frame_bucketRelease.1]
      · intro u hu
        have hw : ((s.bucketRelease t id).delLockInfo t id).wakeUps = (s.bucketRelease t id).wakeUps := rfl
        rw [hw, wakeUps_bucketRelease, hu]
        exact wakeUps_wakeUp_pos
      · exact congrArg (fun sessions => (sessions t).queued) frame_bucketRelease.2.1
      · intro id'
        by_cases hid : id' = id ∧ s.waitCB id = none
        · rw [hid.1]
          exact .inr hid.2
        · exact .inl (gen_bucketRelease (by tauto))
    next href => exact h.own ht hwaiter hagrees (fun _ _ => infos_setInfo_of_ne _) (waiter_above _ _) rfl

theorem valid (hw : (s.sessions t).doing.waiter = some w) : s.valid w := by
  obtain ⟨l, hl⟩ := h.queue w.id
  have hmem := (hl.mem t).2 ((hagrees t).hold_of_waiter hw).1
  have hu : s.units w.id ≠ none := by
    intro hn
    have hwait : s.waitCB w.id = none := by simp [waitCB, hn]
    rw [hl.linked.waitCB_eq, head?_eq_none_iff] at hwait
    rw [hwait] at hmem
    cases hmem
  simp [LockSystem.valid, isSome_iff_ne_none, hu, h.gen t w hw]

theorem removeFromWait (hw : (s.sessions t).doing.waiter = some w) (ht : Touches s s' w.id)
    (hg : s'.gen = s.gen) (hwait : s'.waitCB w.id = s.waitCB w.id) (hinfos : s'.infos = s.infos)
    (hle : ∀ u type, s'.compatible u w.id type → s.compatible u w.id type) :
    ∃ s'', s'.removeFromWait t w.id = some s'' ∧
      ∀ x : Session, x.doing.waiter = none → x.queued = none →
        (s''.setSession t x).Exact ∧ ∀ info, ((s''.setInfo t w.id info).setSession t x).Exact := by
  obtain ⟨l, hl⟩ := h.queue w.id
  have hmem := (hl.mem t).2 ((hagrees t).hold_of_waiter hw).1
  have hlinked' : s'.Linked w.id l := hl.linked.keep hwait fun _ _ => by rw [hinfos]
  obtain ⟨s'', hr, hlinked, htouches', hgen', hn⟩ := hlinked'.removeFromWait hmem fun u hu => by
    rw [hinfos]
    exact hl.infos_ne_none hagrees hu
  have hv : ∀ u, s''.view u = s'.view u := fun u => view_removeFromWait hr
  have hh : ∀ u, (s''.view u).hold w.id = (s.view u).hold w.id := fun u => by
    rw [hv u]
    exact hold_congr (by rw [hinfos])
  have hle' : ∀ u type, s''.compatible u w.id type = true → s.compatible u w.id type = true := by
    intro u type hok
    rw [compatible_congr fun v => congrFun (congrArg LockView.run (hv v)) w.id] at hok
    exact hle u type hok
  have ht := ht.trans htouches'
  have hg := hgen'.trans hg
  refine ⟨s'', hr, fun x hx hq => ?_⟩
  have hxq : x.queued ≠ some w.id := by simp [hq]
  refine ⟨?_, fun info => ?_⟩
  · exact h.leave hagrees hw ht hg hx hq ⟨_, hl.leave ht hxq hlinked (fun u _ => hh u) hle' hn⟩
  · have hinfos' : ∀ u ≠ t, (s''.setInfo t w.id info).infos u w.id = s''.infos u w.id :=
      fun u hu => infos_setInfo_of_ne _ (.inl hu)
    refine h.leave hagrees hw (ht.setInfo _ _) hg hx hq ⟨_, hl.leave (ht.setInfo _ _) hxq ?_ ?_ hle' hn⟩
    · exact hlinked.keep rfl fun u hu => hinfos' u (hl.linked.nodup.mem_erase_iff.1 hu).1
    · exact fun u hu => (hold_congr (hinfos' u hu)).trans (hh u)

theorem retry (hruns : s.RunsCompatible) (hd : (s.sessions t).doing = .awake w) :
    ∃ s', s.retry t w = some s' ∧ s'.Exact := by
  have hw : (s.sessions t).doing.waiter = some w := by rw [hd]; rfl
  obtain ⟨hq, ⟨hold, hh, ht⟩, hle⟩ := (hagrees t).hold_of_waiter hw
  unfold LockSystem.retry
  rw [if_pos (h.valid hagrees hw)]
  cases hok : s.compatible t w.id w.type with
  | false =>
    rw [appendToRun_of_not_compatible hok]
    refine ⟨_, rfl, h.place rfl ?_ (.inr ?_)⟩
    · rintro w' ⟨rfl⟩
      exact h.gen t w hw
    · intro id' hold' hid' hhold'
      cases hq.symm.trans hid'
      cases hh.symm.trans hhold'
      rwa [ht]
  | true =>
    rw [appendToRun_of_compatible hok]
    have htouches : Touches s (s.setRun w.id t (some w.type)) w.id := (Touches.refl s w.id).setUnit _
    obtain ⟨s', hr, he⟩ := h.removeFromWait hagrees hw htouches rfl (waitCB_setRun _ _) rfl
      (compatible_of_setRun hruns hok hle)
    simp only [hr, map_some, some.injEq, exists_eq_left']
    unfold granted
    simp only
    split
    · exact (he _ rfl rfl).1
    · exact (he _ (waiter_start _) rfl).1
    · exact (he _ (waiter_start _) rfl).2 _

theorem giveUp {rc : Rc} (hd : (s.sessions t).doing = .gaveUp w rc) : ∃ s', s.giveUp t w rc = some s' ∧ s'.Exact := by
  have hw : (s.sessions t).doing.waiter = some w := by rw [hd]; rfl
  unfold LockSystem.giveUp
  rw [if_pos (h.valid hagrees hw)]
  obtain ⟨s', hr, he⟩ := h.removeFromWait hagrees hw (Touches.refl s w.id) rfl rfl rfl
    fun _ _ hc => hc
  simp only [hr, map_some, some.injEq, exists_eq_left']
  unfold refused
  simp only
  split
  · exact (he _ rfl rfl).1
  · exact (he _ (waiter_above _ _) rfl).2 _
  · exact (he _ (waiter_above _ _) rfl).2 _

omit h hagrees

end Exact

/-- A session that finds a queue empty and must wait for an upgrade has no link in its lock info. -/
def upgradesFresh (s : LockSystem n) : LockAct n → Bool
  | .go t =>
    match (s.sessions t).doing with
    | .locking level _ =>
      (s.infos t level.id).all fun info =>
        info.nextWaitCB.isNone || s.hasWait level.id || info.type.isLockMatch level.type ||
          !info.type.upgradeCheck level.type || s.compatible t level.id level.type || level.how == .tryAcquire
    | _ => true
  | .call _ _ | .timeout _ | .interrupt _ => true

namespace Exact

variable (h : s.Exact) (hagrees : ∀ t, (s.view t).Agrees True True) (hruns : s.RunsCompatible)

include h hagrees hruns

theorem lock {level : Level} {rest : List Level} (hd : (s.sessions t).doing = .locking level rest)
    (hf : s.upgradesFresh (.go t)) : ∃ s', s.lock t level rest = some s' ∧ s'.Exact := by
  have hwaiter : (s.sessions t).doing.waiter = none := by rw [hd]; rfl
  have hq : (s.sessions t).queued = none := by
    have hp := (hagrees t).placed
    rw [LockView.Placed, show (s.view t).session.doing = .locking level rest from hd] at hp
    exact hp.1
  unfold LockSystem.lock
  cases hi : s.infos t level.id with
  | none => exact h.lockNew hagrees hruns hi hq hwaiter
  | some info =>
    simp only
    cases hm : info.type.isLockMatch level.type with
    | true =>
      have ht : (s.sessions t).queued ≠ some level.id := by simp [hq]
      exact ⟨_, rfl, h.own ht hwaiter hagrees (fun _ _ => infos_setInfo_of_ne _) (waiter_start rest) rfl⟩
    | false =>
      refine ⟨_, rfl, h.lockUpgrade hagrees hruns hi hm hq hwaiter fun hup hok hh => ?_⟩
      simp [upgradesFresh, hd, hi, hm, hup, hok, hh, hasWait, isSome_iff_ne_none] at hf
      exact hf

theorem go (hf : s.upgradesFresh (.go t)) : ∃ s', s.go t = some s' ∧ s'.Exact := by
  unfold LockSystem.go
  cases hd : (s.sessions t).doing with
  | idle rc => exact ⟨s, rfl, h⟩
  | locking level rest => exact h.lock hagrees hruns hd hf
  | finding id => exact ⟨_, rfl, h.find hd⟩
  | waiting w => exact ⟨_, rfl, h.takeEvent hd⟩
  | awake w => exact h.retry hagrees hruns hd
  | gaveUp w rc => exact h.giveUp hagrees hd
  | releasing id rc => exact ⟨_, rfl, h.release hagrees hd⟩

end Exact

theorem exact_initial : (initial : LockSystem n).Exact where
  crashed := rfl
  queue id := ⟨[], ⟨⟨rfl, nodup_nil⟩, fun _ => by simp [initial, Session.initial], nofun⟩⟩
  gen _ _ h := nomatch h

theorem Exact.step {a : LockAct n} (h : s.Exact) (hagrees : ∀ t, (s.view t).Agrees True True)
    (hruns : s.RunsCompatible) (hf : s.upgradesFresh a) : (s.step a).Exact := by
  unfold LockSystem.step
  rw [if_neg (by simp [h.crashed])]
  cases a with
  | call t c => exact h.call c
  | go t =>
    obtain ⟨s', hgo, he⟩ := h.go hagrees hruns hf
    simp only [hgo, getD_some]
    exact he
  | timeout t => exact h.endWait .timeout
  | interrupt t => exact h.endWait .interrupt

/-- The chain from `_pWaitCB` through the links of the lock infos, if it ends. -/
def chain (s : LockSystem n) (id : LockId) : Option (List (Fin n)) :=
  follow (fun t => s.getNextWaitCB t id) n (s.waitCB id)

end LockSystem

/-- If no upgrade is put at the head of an empty queue with a link that an earlier wait has left, then no step
crashes, the chain of every lock has exactly the sessions that wait for it, each once and with a lock info, and the
first one is called if it is compatible with the run list. -/
theorem lockQueue_exact (as : List (LockAct n))
    (has : Meets (fun s a => s.upgradesFresh a = true) LockSystem.step .initial as) :
    let s := run LockSystem.step .initial as
    s.crashed = false ∧ ∀ id, ∃ l, s.chain id = some l ∧ l.Nodup ∧
      (∀ t, t ∈ l ↔ (s.sessions t).queued = some id) ∧
      (s.hasWait id = true ↔ ∃ t, (s.sessions t).queued = some id) ∧
      (∀ t ∈ l, s.infos t id ≠ none) ∧
      ∀ t, l.head? = some t → ∀ info, s.infos t id = some info → s.compatible t id info.type = true → s.Called t := by
  intro s
  obtain ⟨hexact, hruns, hagrees⟩ : s.Exact ∧ s.RunsCompatible ∧ ∀ t, (s.view t).Agrees True True := by
    refine run_invariant (I := fun s => s.Exact ∧ s.RunsCompatible ∧ ∀ t, (s.view t).Agrees True True) ?_
      ⟨exact_initial, .initial, agrees_initial⟩ has
    rintro s a ⟨hexact, hruns, hagrees⟩ hfresh
    exact ⟨hexact.step hagrees hruns hfresh, hruns.step a,
      agrees_step (.inl trivial) (.inl trivial) hagrees⟩
  refine ⟨hexact.crashed, fun id => ?_⟩
  obtain ⟨l, hl⟩ := hexact.queue id
  refine ⟨l, hl.linked.links.follow_eq hl.linked.length_le, hl.linked.nodup, hl.mem, ?_,
    fun t => hl.infos_ne_none hagrees, fun t ht info hinfo hok => ?_⟩
  · rw [hasWait, hl.linked.waitCB_eq]
    simp only [← hl.mem]
    cases l <;> simp
  · exact hl.woken t ht ⟨info.type, info.ref⟩ (by simp [view, hinfo]) hok

-- for the numerals of the runs below
local instance neZero_queue : NeZero 3 := ⟨three_ne_zero⟩

def readers : List (LockAct 3) :=
  [.call 0 (.acquireX someRecord), .go 0, .go 0, .go 0, .call 1 (.acquireS someRecord), .go 1, .go 1, .go 1,
    .call 2 (.acquireS someRecord), .go 2, .go 2, .go 2, .call 0 (.release someRecord), .go 0, .go 0, .go 0,
    .go 1, .go 1, .go 2, .go 2]

/-- Before the release both of them wait. -/
theorem lockQueue_exact_readers :
    Meets (fun s a => s.upgradesFresh a = true) LockSystem.step .initial (readers.take 12) ∧
      (run LockSystem.step .initial (readers.take 12)).chain someRecord = some [1, 2] ∧
      (run LockSystem.step .initial (readers.take 12)).hasWait someRecord = true := by
  have hmeets : Meets (fun s a => s.upgradesFresh a = true) LockSystem.step .initial (readers.take 12) := by
    decide +kernel
  have hqueued : ((run LockSystem.step .initial (readers.take 12)).sessions 1).queued = some someRecord := by
    decide +kernel
  obtain ⟨l, -, -, -, hwait, -⟩ := (lockQueue_exact _ hmeets).2 someRecord
  exact ⟨hmeets, by decide +kernel, hwait.2 ⟨1, hqueued⟩⟩

def readerUpgrades : List (LockAct 3) :=
  readers ++ [.call 1 (.acquireX someRecord), .go 1, .go 1, .go 1]

def readerLeaves : List (LockAct 3) :=
  readerUpgrades ++ [.call 2 (.release someRecord), .go 2, .go 2, .go 2, .go 1, .go 1]

/-- The second reader is on the chain again, though it has its lock and does not wait.  At the end no session waits,
but `hasWait` is true, and the next session that has to wait meets a null pointer. -/
theorem lockQueue_staleLink :
    (run LockSystem.step .initial readerUpgrades).chain someRecord = some [1, 2] ∧
      ((run LockSystem.step .initial readerUpgrades).sessions 2).queued = none ∧
      (run LockSystem.step .initial readerUpgrades).runEntry someRecord 2 = some .S ∧
      (run LockSystem.step .initial readerLeaves).hasWait someRecord = true ∧
      (∀ t, ((run LockSystem.step .initial readerLeaves).sessions t).queued = none) ∧
      (run LockSystem.step .initial
        (readerLeaves ++ [.call 0 (.acquireS someRecord), .go 0, .go 0, .go 0])).crashed = true := by
  decide +kernel

end SequoiaDB.Dps
