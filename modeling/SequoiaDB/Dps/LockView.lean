import SequoiaDB.Dps.TransLock

/-!
# What a session sees of its locks

A session's lock infos (without the links between waiting sessions) and its own entries in the run lists are
changed by the session alone.  So they follow a machine of their own, that depends on the other sessions only by
the answers it gets: whether a lock is compatible, an event is there, or a unit is found.
-/

namespace SequoiaDB.Dps

open Function Option

structure Hold where
  type : LockType
  ref : Int
  deriving DecidableEq, Repr

structure LockView where
  hold : LockId → Option Hold
  run : LockId → Option LockType
  session : Session

namespace LockView

def setHold (v : LockView) (id : LockId) (h : Option Hold) : LockView :=
  { v with hold := update v.hold id h }

theorem setHold_setHold (v : LockView) (id : LockId) (h h' : Option Hold) :
    (v.setHold id h).setHold id h' = v.setHold id h' := by
  simp [setHold]

theorem setHold_eq_self {v : LockView} {id : LockId} {h : Option Hold} (hh : v.hold id = h) : v.setHold id h = v := by
  simp [setHold, ← hh]

def setRun (v : LockView) (id : LockId) (type : Option LockType) : LockView :=
  { v with run := update v.run id type }

def setSession (v : LockView) (x : Session) : LockView :=
  { v with session := x }

section fields

variable (v : LockView) {id id' : LockId} (h : Option Hold) (type : Option LockType) (x : Session)

@[simp] theorem hold_setHold_self : (v.setHold id h).hold id = h := update_self ..
@[simp] theorem hold_setHold_of_ne (hid : id' ≠ id) : (v.setHold id h).hold id' = v.hold id' :=
  update_of_ne hid ..
@[simp] theorem run_setHold : (v.setHold id h).run = v.run := rfl
@[simp] theorem session_setHold : (v.setHold id h).session = v.session := rfl
@[simp] theorem hold_setRun : (v.setRun id type).hold = v.hold := rfl
@[simp] theorem run_setRun_self : (v.setRun id type).run id = type := update_self ..
@[simp] theorem run_setRun_of_ne (hid : id' ≠ id) : (v.setRun id type).run id' = v.run id' :=
  update_of_ne hid ..
@[simp] theorem session_setRun : (v.setRun id type).session = v.session := rfl
@[simp] theorem hold_setSession : (v.setSession x).hold = v.hold := rfl
@[simp] theorem run_setSession : (v.setSession x).run = v.run := rfl
@[simp] theorem session_setSession : (v.setSession x).session = x := rfl

end fields

variable (v : LockView)

def lockNew (level : Level) (rest : List Level) (ok : Bool) (gen : Nat) : LockView :=
  let held := v.setHold level.id (some ⟨level.type, 0⟩)
  if ok then (held.setRun level.id (some level.type)).setSession (v.session.succeed level.id rest)
  else
    match level.how with
    | .acquire =>
      held.setSession { v.session with
          doing := .waiting ⟨level.id, level.type, gen, .level none rest⟩
          queued := some level.id }
    | .tryAcquire => v.setSession (v.session.releaseAbove level.id .dpsTransLockIncompatible)
    | .tryAcquireOrAppend =>
      held.setSession { v.session.own level.id with
          doing := .idle .dpsTransAppendToWait
          queued := some level.id }

def lockUpgrade (level : Level) (rest : List Level) (h : Hold) (ok : Bool) (gen : Nat) :
    LockView :=
  if h.type.upgradeCheck level.type = false then v.setSession (v.session.releaseAbove level.id .perm)
  else if ok then
    ((v.setHold level.id (some ⟨level.type, h.ref + 1⟩)).setRun level.id (some level.type)).setSession
      (v.session.succeed level.id rest)
  else
    match level.how with
    | .acquire =>
      (v.setHold level.id (some ⟨level.type, h.ref⟩)).setSession { v.session with
          doing := .waiting ⟨level.id, level.type, gen, .level (some h.type) rest⟩
          queued := some level.id }
    | .tryAcquire => v.setSession (v.session.releaseAbove level.id .dpsTransLockIncompatible)
    | .tryAcquireOrAppend =>
      (v.setHold level.id (some ⟨level.type, h.ref⟩)).setSession
        { v.session.releaseAbove level.id .dpsTransAppendToWait with queued := some level.id }

def lock (level : Level) (rest : List Level) (ok : Bool) (gen : Nat) : LockView :=
  match v.hold level.id with
  | none => v.lockNew level rest ok gen
  | some h =>
    if h.type.isLockMatch level.type then
      (v.setHold level.id (some ⟨h.type, h.ref + 1⟩)).setSession (v.session.succeed level.id rest)
    else v.lockUpgrade level rest h ok gen

def release (id : LockId) (rc : Rc) : LockView :=
  match v.hold id with
  | none => v.setSession { v.session with doing := .idle rc }
  | some h =>
    (if h.ref ≤ 0 then (v.setRun id none).setHold id none
      else v.setHold id (some ⟨h.type, h.ref - 1⟩)).setSession ((v.session.disown id).releaseAbove id rc)

def granted (w : Waiter) : LockView :=
  let x := { v.session with queued := none }
  let v := v.setRun w.id (some w.type)
  match w.resume with
  | .waitLockX => v.setSession { x with doing := .idle .ok }
  | .level none rest => v.setSession (x.succeed w.id rest)
  | .level (some _) rest =>
    (v.setHold w.id ((v.hold w.id).map fun h => ⟨h.type, h.ref + 1⟩)).setSession (x.succeed w.id rest)

def refused (w : Waiter) (rc : Rc) : LockView :=
  let x := { v.session with queued := none }
  match w.resume with
  | .waitLockX => v.setSession { x with doing := .idle rc }
  | .level none _ => (v.setHold w.id none).setSession (x.releaseAbove w.id rc)
  | .level (some last) _ =>
    (v.setHold w.id ((v.hold w.id).map fun h => ⟨last, h.ref⟩)).setSession (x.releaseAbove w.id rc)

def go (ok : Bool) (gen : Nat) : LockView :=
  match v.session.doing with
  | .idle _ => v
  | .locking level rest => v.lock level rest ok gen
  | .finding id =>
    v.setSession { v.session with doing := if ok then .waiting ⟨id, .X, gen, .waitLockX⟩ else .idle .sys }
  | .waiting w => if ok then v.setSession { v.session with doing := .awake w } else v
  | .awake w => if ok then v.granted w else v.setSession { v.session with doing := .waiting w }
  | .gaveUp w rc => v.refused w rc
  | .releasing id rc => v.release id rc

def call (v : LockView) (call : LockCall) : LockView :=
  if v.session.allows call then v.setSession { v.session with doing := call.start } else v

def endWait (rc : Rc) : LockView :=
  match v.session.doing with
  | .waiting w => v.setSession { v.session with doing := .gaveUp w rc }
  | _ => v

end LockView

open LockView

namespace LockSystem

variable {n : Nat} {s : LockSystem n} {t u : Fin n} {id : LockId}

def view (s : LockSystem n) (t : Fin n) : LockView where
  hold id := (s.infos t id).map fun info => ⟨info.type, info.ref⟩
  run id := s.runEntry id t
  session := s.sessions t

/-! ### What the view does not see -/

theorem runEntry_setUnit_self (l : LockUnit n) : (s.setUnit id l).runEntry id t = l.runList t := by
  simp [runEntry, setUnit]

variable {id' : LockId}

theorem runEntry_setUnit_of_ne (h : id' ≠ id) (l : LockUnit n) :
    (s.setUnit id l).runEntry id' t = s.runEntry id' t := by
  simp [runEntry, setUnit, update_of_ne h]

theorem runList_unit : (s.unit id).runList t = s.runEntry id t := by
  unfold unit runEntry
  cases s.units id <;> rfl

theorem runEntry_setWaitCB (h : Option (Fin n)) (id' : LockId) :
    (s.setWaitCB id h).runEntry id' t = s.runEntry id' t := by
  by_cases hid : id' = id
  · subst hid
    rw [setWaitCB, runEntry_setUnit_self, runList_unit]
  · rw [setWaitCB, runEntry_setUnit_of_ne hid]

theorem runEntry_setRun_self (type : Option LockType) : (s.setRun id t type).runEntry id t = type := by
  rw [setRun, runEntry_setUnit_self]
  exact update_self ..

theorem runEntry_setRun_of_ne (type : Option LockType) (h : u ≠ t ∨ id' ≠ id) :
    (s.setRun id t type).runEntry id' u = s.runEntry id' u := by
  by_cases hid : id' = id
  · subst hid
    rw [setRun, runEntry_setUnit_self, ← runList_unit]
    exact update_of_ne (h.resolve_right fun hne => hne rfl) ..
  · rw [setRun, runEntry_setUnit_of_ne hid]

@[simp] theorem view_setWaitCB (h : Option (Fin n)) : (s.setWaitCB id h).view t = s.view t := by
  simp only [view, runEntry_setWaitCB]
  rfl

@[simp] theorem view_wakeUp : (s.wakeUp u).view t = s.view t := rfl

@[simp] theorem view_setNextWaitCB (next : Option (Fin n)) : (s.setNextWaitCB u id next).view t = s.view t := by
  simp only [view, LockView.mk.injEq]
  refine ⟨funext fun id' => ?_, rfl, rfl⟩
  by_cases ht : t = u
  · subst ht
    by_cases hid : id' = id
    · subst hid
      simp only [setNextWaitCB, setInfo, update_self, map_map]
      rfl
    · simp [setNextWaitCB, setInfo, update_of_ne hid]
  · simp [setNextWaitCB, setInfo, update_of_ne ht]

variable {s' : LockSystem n}

theorem view_appendToWait (h : s.appendToWait u id = some s') : s'.view t = s.view t := by
  unfold appendToWait at h
  split at h
  · cases h
    simp
  · obtain ⟨last, -, rfl⟩ := map_eq_some_iff.1 h
    simp

@[simp] theorem view_appendHeadToWait : (s.appendHeadToWait u id).view t = s.view t := by
  unfold appendHeadToWait
  split <;> simp

theorem view_removeLoop {k : Nat} {waitCB : Fin n} (h : s.removeLoop u id k waitCB = some s') :
    s'.view t = s.view t := by
  induction k generalizing waitCB with
  | zero => simp [removeLoop] at h
  | succ k ih =>
    simp only [removeLoop] at h
    split at h
    · cases h
    · split at h
      · cases h
        rfl
      · split at h
        · cases h
          simp
        · exact ih h

theorem view_removeFromWait (h : s.removeFromWait u id = some s') : s'.view t = s.view t := by
  unfold removeFromWait at h
  split at h
  · cases h
  · split at h
    · split at h <;> cases h <;> simp
    · exact view_removeLoop h

/-! ### What the view sees of its own session and of others -/

@[simp] theorem view_setSession_self (x : Session) : (s.setSession t x).view t = (s.view t).setSession x := by
  simp only [view, setSession, update_self]
  rfl

@[simp] theorem view_setInfo_self (info : Option (LockInfo n)) :
    (s.setInfo t id info).view t = (s.view t).setHold id (info.map fun info => ⟨info.type, info.ref⟩) := by
  simp only [view, setHold, LockView.mk.injEq]
  refine ⟨funext fun id' => ?_, rfl, rfl⟩
  by_cases hid : id' = id
  · subst hid
    simp [setInfo]
  · simp [setInfo, update_of_ne hid]

@[simp] theorem view_setRun_self (type : Option LockType) :
    (s.setRun id t type).view t = (s.view t).setRun id type := by
  simp only [view, LockView.setRun, LockView.mk.injEq]
  refine ⟨rfl, funext fun id' => ?_, rfl⟩
  by_cases hid : id' = id
  · subst hid
    rw [runEntry_setRun_self, update_self]
  · rw [runEntry_setRun_of_ne _ (.inr hid), update_of_ne hid]

theorem view_setSession_of_ne (h : t ≠ u) (x : Session) : (s.setSession u x).view t = s.view t := by
  simp only [view, setSession, update_of_ne h]
  rfl

theorem view_setInfo_of_ne (h : t ≠ u) (info : Option (LockInfo n)) : (s.setInfo u id info).view t = s.view t := by
  simp only [view, setInfo, update_of_ne h]
  rfl

theorem view_setRun_of_ne (h : t ≠ u) (type : Option LockType) : (s.setRun id u type).view t = s.view t := by
  simp only [view, runEntry_setRun_of_ne _ (.inl h)]
  rfl

def compatible (s : LockSystem n) (t : Fin n) (id : LockId) (type : LockType) : Bool :=
  checkCompatible t type fun u => s.runEntry id u

variable {type : LockType}

theorem appendToRun_of_compatible (h : s.compatible t id type) :
    s.appendToRun t id type = some (s.setRun id t (some type)) :=
  if_pos h

theorem appendToRun_of_not_compatible (h : s.compatible t id type = false) : s.appendToRun t id type = none :=
  if_neg (by rw [compatible] at h; simp [h])

def answer (s : LockSystem n) (t : Fin n) : Bool :=
  match (s.sessions t).doing with
  | .locking level _ => s.compatible t level.id level.type
  | .awake w => s.compatible t w.id w.type
  | .finding id => (s.units id).isSome
  | .waiting _ => s.wakeUps t != 0
  | _ => true

theorem runEntry_removeFromRun (id' : LockId) :
    (s.removeFromRun t id).runEntry id' u = (s.setRun id t none).runEntry id' u := by
  unfold removeFromRun
  split <;> rfl

theorem runEntry_deleteUnused (id' : LockId) : (s.deleteUnused id).runEntry id' u = s.runEntry id' u := by
  unfold deleteUnused
  split
  next hempty =>
    by_cases hid : id' = id
    · subst hid
      rw [hempty.2 u]
      simp [runEntry]
    · simp [runEntry, update_of_ne hid]
  next => rfl

theorem runEntry_bucketRelease (id' : LockId) :
    (s.bucketRelease t id).runEntry id' u = (s.setRun id t none).runEntry id' u := by
  unfold bucketRelease
  split
  next hnone =>
    by_cases h : u = t ∧ id' = id
    · obtain ⟨rfl, rfl⟩ := h
      rw [runEntry_setRun_self, runEntry, hnone]
      rfl
    · rw [runEntry_setRun_of_ne _ (by tauto)]
  next => rw [runEntry_deleteUnused, runEntry_removeFromRun]

theorem frame_bucketRelease : (s.bucketRelease t id).infos = s.infos ∧ (s.bucketRelease t id).sessions = s.sessions ∧
      (s.bucketRelease t id).crashed = s.crashed := by
  unfold bucketRelease deleteUnused removeFromRun
  split
  · exact ⟨rfl, rfl, rfl⟩
  · split <;> split <;> exact ⟨rfl, rfl, rfl⟩

theorem view_bucketRelease : (s.bucketRelease t id).view u = (s.setRun id t none).view u := by
  simp only [view, runEntry_bucketRelease, frame_bucketRelease]
  rfl

/-! ### The steps -/

def Moves (s s' : LockSystem n) (t : Fin n) (v : LockView) : Prop :=
  s'.view t = v ∧ ∀ u ≠ t, s'.view u = s.view u

variable {v : LockView}

theorem Moves.setSession (h : Moves s s' t v) {x y : Session} (hxy : x = y) :
    Moves s (s'.setSession t x) t (v.setSession y) := by
  refine ⟨?_, fun u hu => ?_⟩
  · rw [view_setSession_self, h.1, hxy]
  · rw [view_setSession_of_ne hu, h.2 u hu]

theorem Moves.setInfo (h : Moves s s' t v) (id : LockId) {info : Option (LockInfo n)} {hold : Option Hold}
    (hh : (info.map fun info => ⟨info.type, info.ref⟩) = hold) :
    Moves s (s'.setInfo t id info) t (v.setHold id hold) := by
  refine ⟨?_, fun u hu => ?_⟩
  · rw [view_setInfo_self, h.1, hh]
  · rw [view_setInfo_of_ne hu, h.2 u hu]

theorem Moves.setRun (h : Moves s s' t v) (id : LockId) (type : Option LockType) :
    Moves s (s'.setRun id t type) t (v.setRun id type) := by
  refine ⟨?_, fun u hu => ?_⟩
  · rw [view_setRun_self, h.1]
  · rw [view_setRun_of_ne hu, h.2 u hu]

theorem Moves.addRef (h : Moves s s' t v) (id : LockId) (d : Int) :
    Moves s (s'.addRef t id d) t (v.setHold id ((v.hold id).map fun h => ⟨h.type, h.ref + d⟩)) := by
  refine h.setInfo id ?_
  rw [← h.1, view, map_map, map_map]
  rfl

theorem Moves.setType (h : Moves s s' t v) (id : LockId) (type : LockType) :
    Moves s (s'.setType t id type) t (v.setHold id ((v.hold id).map fun h => ⟨type, h.ref⟩)) := by
  refine h.setInfo id ?_
  rw [← h.1, view, map_map, map_map]
  rfl

theorem Moves.hidden {s' s'' : LockSystem n} (h : Moves s s' t v) (hv : ∀ u, s''.view u = s'.view u) :
    Moves s s'' t v :=
  ⟨(hv t).trans h.1, fun u hu => (hv u).trans (h.2 u hu)⟩

theorem Moves.refl : Moves s s t (s.view t) :=
  ⟨rfl, fun _ _ => rfl⟩

theorem Moves.session (h : Moves s s' t v) : s'.sessions t = v.session :=
  congrArg LockView.session h.1

variable {level : Level} {rest : List Level}

theorem moves_lockNew (h : s.lockNew t level rest = some s') (hn : s.infos t level.id = none) :
    ∃ gen, Moves s s' t ((s.view t).lockNew level rest (s.compatible t level.id level.type) gen) := by
  have ha : Moves s (s.addLockInfo t level.id level.type) t
      ((s.view t).setHold level.id (some ⟨level.type, 0⟩)) := Moves.refl.setInfo _ rfl
  unfold lockNew at h
  simp only at h
  cases hok : s.compatible t level.id level.type with
  | false =>
    rw [appendToRun_of_not_compatible (s := s.addLockInfo t level.id level.type) hok] at h
    cases hh : level.how with
    | acquire | tryAcquireOrAppend =>
      simp only [hh, map_eq_some_iff] at h
      obtain ⟨s1, hw, rfl⟩ := h
      have hm := ha.hidden fun u => view_appendToWait (t := u) hw
      refine ⟨s1.gen level.id, ?_⟩
      simp only [LockView.lockNew, hh]
      refine hm.setSession ?_
      rw [hm.session]
      rfl
    | tryAcquire =>
      simp only [hh, some.injEq] at h
      subst h
      have hb : Moves s ((s.addLockInfo t level.id level.type).delLockInfo t level.id) t
          (((s.view t).setHold level.id (some ⟨level.type, 0⟩)).setHold level.id none) := ha.setInfo _ rfl
      rw [setHold_setHold, setHold_eq_self (by simp [view, hn])] at hb
      refine ⟨0, ?_⟩
      simp only [LockView.lockNew, hh]
      exact hb.setSession rfl
  | true =>
    rw [appendToRun_of_compatible (s := s.addLockInfo t level.id level.type) hok] at h
    cases h
    exact ⟨0, (ha.setRun _ _).setSession rfl⟩

theorem moves_lockUpgrade (level : Level) (rest : List Level) {h : Hold} (hhold : (s.view t).hold level.id = some h) :
    ∃ gen, Moves s (s.lockUpgrade t level rest h.type) t
      ((s.view t).lockUpgrade level rest h (s.compatible t level.id level.type) gen) := by
  have ht : Moves s (s.setType t level.id level.type) t ((s.view t).setHold level.id (some ⟨level.type, h.ref⟩)) := by
    simpa [hhold] using (Moves.refl (s := s) (t := t)).setType level.id level.type
  unfold lockUpgrade LockView.lockUpgrade
  by_cases hc : h.type.upgradeCheck level.type = false
  · simp only [hc, if_true]
    exact ⟨0, Moves.refl.setSession rfl⟩
  simp only [if_neg hc]
  cases hok : s.compatible t level.id level.type with
  | false =>
    rw [appendToRun_of_not_compatible (s := s.setType t level.id level.type) hok]
    have hh : Moves s ((s.setType t level.id level.type).appendHeadToWait t level.id) t
        ((s.view t).setHold level.id (some ⟨level.type, h.ref⟩)) := ht.hidden fun u => view_appendHeadToWait
    cases hhow : level.how with
    | acquire =>
      refine ⟨((s.setType t level.id level.type).appendHeadToWait t level.id).gen level.id, ?_⟩
      refine hh.setSession ?_
      rw [hh.session]
      rfl
    | tryAcquire =>
      have hb := ht.setType level.id h.type
      rw [setHold_setHold, setHold_eq_self (by simp [hhold, setHold])] at hb
      exact ⟨0, hb.setSession rfl⟩
    | tryAcquireOrAppend => exact ⟨0, hh.setSession rfl⟩
  | true =>
    rw [appendToRun_of_compatible (s := s.setType t level.id level.type) hok]
    have hg := (ht.setRun level.id (some level.type)).addRef level.id 1
    simp only [setHold, LockView.setRun, update_self, map_some, update_idem] at hg
    exact ⟨0, hg.setSession rfl⟩

theorem moves_lock (h : s.lock t level rest = some s') :
    ∃ gen, Moves s s' t ((s.view t).lock level rest (s.compatible t level.id level.type) gen) := by
  unfold lock at h
  unfold LockView.lock
  split at h
  next hn =>
    simp only [show (s.view t).hold level.id = none by simp [view, hn]]
    exact moves_lockNew h hn
  next info hinfo =>
    have hh : (s.view t).hold level.id = some ⟨info.type, info.ref⟩ := by simp [view, hinfo]
    simp only [hh]
    split at h
    next hmatch =>
      cases h
      simp only [if_pos hmatch]
      have hr := (Moves.refl (s := s) (t := t)).addRef level.id 1
      rw [hh] at hr
      exact ⟨0, hr.setSession rfl⟩
    next hmatch =>
      cases h
      simp only [if_neg hmatch]
      exact moves_lockUpgrade level rest hh

theorem moves_release (rc : Rc) : Moves s (s.release t id rc) t ((s.view t).release id rc) := by
  unfold release LockView.release
  cases hi : s.infos t id with
  | none =>
    simp only [show (s.view t).hold id = none by simp [view, hi]]
    exact Moves.refl.setSession rfl
  | some info =>
    have hh : (s.view t).hold id = some ⟨info.type, info.ref⟩ := by simp [view, hi]
    simp only [hh]
    by_cases hr : info.ref ≤ 0
    · simp only [if_pos hr]
      have hrun : Moves s (s.bucketRelease t id) t ((s.view t).setRun id none) :=
        (Moves.refl.setRun id none).hidden fun u => view_bucketRelease
      refine (hrun.setInfo _ rfl).setSession ?_
      exact congrArg (fun x => (x.disown id).releaseAbove id rc) hrun.session
    · simp only [if_neg hr]
      have hd := (Moves.refl (s := s) (t := t)).addRef id (-1)
      rw [hh] at hd
      exact hd.setSession rfl

variable {s1 : LockSystem n} {w : Waiter}

theorem moves_granted (h : Moves s s1 t ((s.view t).setRun w.id (some w.type))) :
    Moves s (s1.granted t w) t ((s.view t).granted w) := by
  unfold granted LockView.granted
  simp only
  cases hresume : w.resume with
  | waitLockX => exact h.setSession (by rw [h.session]; rfl)
  | level last rest =>
    cases last with
    | none => exact h.setSession (by rw [h.session]; rfl)
    | some last => exact (h.addRef _ 1).setSession (by rw [h.session]; rfl)

theorem moves_refused (h : Moves s s1 t (s.view t)) (rc : Rc) :
    Moves s (s1.refused t w rc) t ((s.view t).refused w rc) := by
  unfold refused LockView.refused
  simp only
  cases hresume : w.resume with
  | waitLockX => exact h.setSession (by rw [h.session])
  | level last rest =>
    cases last with
    | none => exact (h.setInfo _ rfl).setSession (by rw [h.session])
    | some last => exact (h.setType _ last).setSession (by rw [h.session])

theorem moves_go (h : s.go t = some s') : ∃ gen, Moves s s' t ((s.view t).go (s.answer t) gen) := by
  unfold go at h
  unfold LockView.go answer
  rw [show (s.view t).session = s.sessions t from rfl]
  revert h
  cases hdoing : (s.sessions t).doing with
  | idle rc =>
    rintro ⟨⟩
    exact ⟨0, Moves.refl⟩
  | locking level rest => exact moves_lock
  | finding id =>
    rintro ⟨⟩
    refine ⟨s.gen id, ?_⟩
    unfold find
    cases hu : s.units id with
    | none | some l =>
      simp only [hu]
      exact Moves.refl.setSession rfl
  | waiting w =>
    rintro ⟨⟩
    refine ⟨0, ?_⟩
    unfold takeEvent
    by_cases he : s.wakeUps t = 0
    · rw [if_pos he, he]
      exact Moves.refl
    · simp only [if_neg he, bne_iff_ne.2 he]
      exact (Moves.refl.hidden fun _ => rfl).setSession rfl
  | awake w =>
    intro h
    simp only [retry] at h
    refine ⟨0, ?_⟩
    split at h
    · cases hok : s.compatible t w.id w.type with
      | false =>
        rw [appendToRun_of_not_compatible hok] at h
        cases h
        simp only [hok]
        exact Moves.refl.setSession rfl
      | true =>
        rw [appendToRun_of_compatible hok] at h
        obtain ⟨s1, hr, rfl⟩ := map_eq_some_iff.1 h
        simp only [hok]
        exact moves_granted ((Moves.refl.setRun _ _).hidden fun u => view_removeFromWait hr)
    · cases h
  | gaveUp w rc =>
    intro h
    simp only [giveUp] at h
    split at h
    · obtain ⟨s1, hr, rfl⟩ := map_eq_some_iff.1 h
      exact ⟨0, moves_refused (Moves.refl.hidden fun u => view_removeFromWait hr) rc⟩
    · cases h
  | releasing id rc =>
    rintro ⟨⟩
    exact ⟨0, moves_release rc⟩

theorem moves_call (c : LockCall) : Moves s (s.call t c) t ((s.view t).call c) := by
  unfold call LockView.call
  by_cases ha : (s.sessions t).allows c
  · rw [if_pos ha, if_pos (show (s.view t).session.allows c from ha)]
    exact Moves.refl.setSession rfl
  · rw [if_neg ha, if_neg (show ¬ (s.view t).session.allows c from ha)]
    exact Moves.refl

theorem moves_endWait (rc : Rc) : Moves s (s.endWait t rc) t ((s.view t).endWait rc) := by
  unfold endWait LockView.endWait
  rw [show (s.view t).session = s.sessions t from rfl]
  cases (s.sessions t).doing with
  | waiting w => exact Moves.refl.setSession rfl
  | idle _ | locking _ _ | finding _ | awake _ | gaveUp _ _ | releasing _ _ => exact Moves.refl

theorem step_cases (s : LockSystem n) (a : LockAct n) : (∀ u, (s.step a).view u = s.view u) ∨
      (∃ t c, a = .call t c ∧ Moves s (s.step a) t ((s.view t).call c)) ∨
        (∃ t gen, a = .go t ∧ Moves s (s.step a) t ((s.view t).go (s.answer t) gen)) ∨
          ∃ t rc, (a = .timeout t ∨ a = .interrupt t) ∧ Moves s (s.step a) t ((s.view t).endWait rc) := by
  unfold step
  split
  · exact .inl fun _ => rfl
  cases a with
  | call t c => exact .inr (.inl ⟨t, c, rfl, moves_call c⟩)
  | go t =>
    simp only
    cases hs' : s.go t with
    | none => exact .inl fun _ => rfl
    | some s' =>
      obtain ⟨gen, hm⟩ := moves_go hs'
      exact .inr (.inr (.inl ⟨t, gen, rfl, hm⟩))
  | timeout t => exact .inr (.inr (.inr ⟨t, .timeout, .inl rfl, moves_endWait .timeout⟩))
  | interrupt t => exact .inr (.inr (.inr ⟨t, .interrupt, .inr rfl, moves_endWait .interrupt⟩))

theorem view_step {P : LockView → Prop} (a : LockAct n)
    (hc : ∀ t c, a = .call t c → P (s.view t) → P ((s.view t).call c))
    (hgo : ∀ t gen, a = .go t → P (s.view t) → P ((s.view t).go (s.answer t) gen))
    (he : ∀ t rc, a = .timeout t ∨ a = .interrupt t → P (s.view t) → P ((s.view t).endWait rc))
    (h : ∀ t, P (s.view t)) (t : Fin n) : P ((s.step a).view t) := by
  have hmoves : ∀ {u : Fin n} {v : LockView}, Moves s (s.step a) u v → P v → P ((s.step a).view t) := by
    intro u v hmoves hv
    by_cases htu : t = u
    · subst htu
      rwa [hmoves.1]
    · rw [hmoves.2 t htu]
      exact h t
  rcases step_cases s a with hs | ⟨u, c, ha, hm⟩ | ⟨u, gen, ha, hm⟩ | ⟨u, rc, ha, hm⟩
  · rw [hs t]
    exact h t
  · exact hmoves hm (hc u c ha (h u))
  · exact hmoves hm (hgo u gen ha (h u))
  · exact hmoves hm (he u rc ha (h u))

end LockSystem

end SequoiaDB.Dps
