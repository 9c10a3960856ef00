import SequoiaDB.Rtn.LobAccess

/-!
# Access to a LOB is exclusive and given back

The entry of a LOB agrees with the privileges that are held in every run: they are of its mode, they are at most as many
as it counts, and the sections that were locked lie in its sections, which are apart.  The count is exact, and the entry
goes with the last privilege, as long as nobody releases a privilege to write while another access id has locked the
whole LOB: `releaseAccessPrivilege` takes the access id of the entry, which such a lock has set, for the one that holds
the entry, and returns without giving the reference back.
-/

namespace SequoiaDB.Rtn

open Lib List

variable {info : LobAccessInfo} {entry : Option LobAccessInfo} {mode : LobMode} {id : Int} {sec : LobSection}
  {grants : List Grant} {locked : List LobSection} {tight : Prop}

/-! ### What the calls do -/

theorem getAccessPrivilege_cases (h : (getAccessPrivilege entry mode id).1 = .ok) : (mode = .write → 0 ≤ id) ∧
      ((entry = none ∧ (getAccessPrivilege entry mode id).2 =
          some (if mode.shared then (LobAccessInfo.new mode id).incRefCount else LobAccessInfo.new mode id)) ∨
        ∃ info, entry = some info ∧ info.mode = mode ∧ mode.shared = true ∧
          (getAccessPrivilege entry mode id).2 = some info.incRefCount) := by
  unfold getAccessPrivilege at h ⊢
  by_cases hw : mode = .write ∧ id ≤ -1
  · rw [if_pos hw] at h
    cases h
  rw [if_neg hw] at h ⊢
  refine ⟨fun hm => ?_, ?_⟩
  · have : ¬ id ≤ -1 := fun hle => hw ⟨hm, hle⟩
    omega
  cases entry with
  | none => exact .inl ⟨rfl, by cases mode <;> rfl⟩
  | some info =>
    refine .inr ⟨info, rfl, ?_⟩
    cases hm : info.mode <;> cases mode <;> simp_all [LobMode.shared]

theorem getAccessPrivilege_of_ne (h : (getAccessPrivilege entry mode id).1 ≠ .ok) :
    (getAccessPrivilege entry mode id).2 = entry := by
  unfold getAccessPrivilege at h ⊢
  split
  · rfl
  next hw =>
    rw [if_neg hw] at h
    cases entry with
    | none => exact absurd rfl h
    | some info => cases hm : info.mode <;> cases mode <;> simp_all

theorem getAccessPrivilege_none (h : mode = .write → 0 ≤ id) : (getAccessPrivilege none mode id).1 = .ok := by
  unfold getAccessPrivilege
  rw [if_neg]
  rintro ⟨hm, hle⟩
  have := h hm
  omega

namespace LobAccessInfo

@[simp] theorem mode_markWhole : (info.markWhole sec).mode = info.mode := by
  unfold markWhole
  split <;> rfl

@[simp] theorem refCount_markWhole : (info.markWhole sec).refCount = info.refCount := by
  unfold markWhole
  split <;> rfl

@[simp] theorem sections_markWhole : (info.markWhole sec).sections = info.sections := by
  unfold markWhole
  split <;> rfl

/-- What `lockSection` leaves of an entry. -/
inductive Locked (info : LobAccessInfo) (sec : LobSection) : Rc → LobAccessInfo → Prop
  /-- The section is refused, and the entry is as before. -/
  | refused {rc} (hrc : rc ≠ .ok) : Locked info sec rc info
  /-- Its access id has locked the whole LOB already. -/
  | owned (hmode : info.mode = .write) (hid : info.accessId ≠ -1) (hown : info.accessId = sec.accessId) :
    Locked info sec .ok info
  /-- The section is added; if it is the whole LOB and all sections have its access id, so has the entry. -/
  | added {info'} (hmode : info.mode = .write) (hid : info.accessId = -1) (hmode' : info'.mode = .write)
      (hcount : info'.refCount = info.refCount)
      (hown : info'.accessId = -1 ∨ info'.accessId = sec.accessId ∧ sec.whole = true ∧
        ∀ s ∈ info.sections, s.accessId = sec.accessId)
      (hsec : addSection info.sections sec = some info'.sections) : Locked info sec .ok info'
  /-- The section is refused by the sections. -/
  | conflicted {rc info'} (hrc : rc ≠ .ok) (hmode' : info'.mode = info.mode) (hcount : info'.refCount = info.refCount)
      (hid : info'.accessId = info.accessId) (hsec : info'.sections = info.sections) : Locked info sec rc info'

theorem lockSection_locked (info : LobAccessInfo) (sec : LobSection) :
    Locked info sec (info.lockSection sec).1 (info.lockSection sec).2 := by
  unfold lockSection
  split
  · exact .refused (by simp)
  next hmode =>
  have hmode := not_not.1 hmode
  split
  next hid =>
    split
    · exact .refused (by simp)
    next heq => exact .owned hmode hid (not_not.1 heq).symm
  next hid =>
  have hid := not_not.1 hid
  split
  · exact .refused (by simp)
  next hconf =>
  have ho : (info.markWhole sec).accessId = info.accessId ∨ (info.markWhole sec).accessId = sec.accessId ∧
      sec.whole = true ∧ ∀ s ∈ info.sections, s.accessId = sec.accessId := by
    unfold markWhole
    split
    next hwhole => exact .inr ⟨rfl, hwhole, conflicted_eq_false_iff.1 (by simpa [hwhole] using hconf)⟩
    next => exact .inl rfl
  simp only [sections_markWhole]
  split
  next ha =>
    exact .added hmode hid (mode_markWhole.trans hmode) refCount_markWhole (ho.imp_left fun h => h.trans hid) ha
  next hnone =>
    rcases ho with ho | ⟨-, -, hall⟩
    · exact .conflicted (by simp) mode_markWhole refCount_markWhole ho rfl
    · exact absurd hnone (addSection_ne_none hall)

end LobAccessInfo

open LobAccessInfo

/-- What `releaseAccessPrivilege` leaves of the entry of its own mode. -/
inductive ReleaseOf (info : LobAccessInfo) (id : Int) : Rc → Option LobAccessInfo → Prop
  /-- The access id is not the one of the entry. -/
  | refused (hid : info.accessId ≠ -1) (hne : id ≠ info.accessId) : ReleaseOf info id .sys (some info)
  | alone (hmode : info.mode.shared = false) : ReleaseOf info id .ok none
  | reader (hmode : info.mode = .read) : ReleaseOf info id .ok (dropReference info)
  | writer (hmode : info.mode = .write) (hid : info.accessId = -1 ∨ info.accessId = id) :
    ReleaseOf info id .ok (dropReference (info.unlockSectionByAccessId id).2)

theorem releaseAccessPrivilege_of (hid : info.mode = .write → 0 ≤ id) :
    ReleaseOf info id (releaseAccessPrivilege (some info) info.mode id).1
      (releaseAccessPrivilege (some info) info.mode id).2 := by
  unfold releaseAccessPrivilege
  simp only [ne_eq, not_true_eq_false, if_false]
  split
  next hne => exact .refused hne.2.1 hne.2.2
  next hne =>
    cases hmode : info.mode with
    | createOnly | remove | truncate => exact .alone (by rw [hmode]; rfl)
    | read => exact .reader hmode
    | write =>
      have hpos := hid hmode
      have hrc : (info.unlockSectionByAccessId id).1 = .ok := by simp [unlockSectionByAccessId, hmode]
      have ho : info.accessId = -1 ∨ info.accessId = id := by
        by_contra hcon
        obtain ⟨h1, h2⟩ := not_or.1 hcon
        exact hne ⟨by omega, h1, fun heq => h2 heq.symm⟩
      simp only
      rw [if_neg (by omega), if_pos hrc]
      exact .writer hmode ho

theorem incRefCount_eq (hpos : 0 ≤ info.refCount) (hfits : info.refCount < 2 ^ 31 - 1) :
    info.incRefCount = { info with refCount := info.refCount + 1 } := by
  unfold incRefCount
  rw [Int.bmod_eq_of_le (by omega) (by omega)]

theorem dropReference_cases (hpos : 0 ≤ info.refCount) (hfits : info.refCount < 2 ^ 31) :
    info.refCount ≤ 1 ∧ dropReference info = none ∨
      1 < info.refCount ∧ dropReference info = some { info with refCount := info.refCount - 1 } := by
  have hd : info.decRefCount = { info with refCount := info.refCount - 1 } := by
    unfold decRefCount
    rw [Int.bmod_eq_of_le (by omega) (by omega)]
  unfold dropReference
  rw [hd]
  by_cases h : info.refCount - 1 ≤ 0
  · exact .inl ⟨by omega, if_pos h⟩
  · exact .inr ⟨by omega, if_neg h⟩

namespace LobAccessInfo

theorem unlockSectionByAccessId_eq (hmode : info.mode = .write) (hid : info.accessId = -1 ∨ info.accessId = id) :
    (info.unlockSectionByAccessId id).2 =
      { info with accessId := -1, lockSections := info.lockSections.map fun l => delSectionById l id } := by
  unfold unlockSectionByAccessId
  rw [if_neg (not_not.2 hmode)]
  rcases hid with hid | hid
  · simp [hid]
  · by_cases h : id = -1 <;> simp [hid, h]

theorem sections_delete (info : LobAccessInfo) (mode : LobMode) (refs accessId id : Int) :
    sections ⟨mode, refs, accessId, info.lockSections.map fun l => delSectionById l id⟩ =
      delSectionById info.sections id := by
  unfold sections
  cases info.lockSections <;> rfl

end LobAccessInfo

/-! ### The entry and its holders -/

/-- The entry agrees with the privileges that are held and the sections that have been locked; if `tight`, its
references are the privileges. -/
structure Agrees (tight : Prop) (info : LobAccessInfo) (grants : List Grant) (locked : List LobSection) : Prop where
  mode : ∀ g ∈ grants, g.mode = info.mode
  alone : info.mode.shared = false → ∃ id, grants = [⟨info.mode, id⟩] ∧ info.accessId = id
  reader : info.mode = .read → info.accessId = -1
  writer : info.mode = .write → ∀ g ∈ grants, 0 ≤ g.accessId
  nonneg : 0 ≤ info.refCount
  fits : info.refCount < 2 ^ 31
  count : info.mode.shared = true → (grants.length : Int) ≤ info.refCount
  exactly : tight → info.mode.shared = true → info.refCount = grants.length ∧ grants ≠ []
  inOrder : InOrder info.sections
  owner : info.mode = .write → info.accessId ≠ -1 → ∀ s ∈ info.sections, s.accessId = info.accessId
  whole : info.mode = .write → info.accessId ≠ -1 → ∀ b < sint64Max,
    ∃ t ∈ info.sections, t.accessId = info.accessId ∧ t.includes b
  covered : ∀ s ∈ locked, ∀ b, s.includes b → ∃ t ∈ info.sections, t.accessId = s.accessId ∧ t.includes b
  held : ∀ s ∈ locked, ⟨.write, s.accessId⟩ ∈ grants

namespace LobSystem

variable {s : LobSystem}

/-- An entry is there when a privilege is held, and it agrees with the privileges. -/
structure Inv (tight : Prop) (s : LobSystem) : Prop where
  absent : s.entry = none → s.grants = [] ∧ s.locked = []
  agrees : ∀ info, s.entry = some info → Agrees tight info s.grants s.locked

theorem inv_init : Inv tight {} where
  absent _ := ⟨rfl, rfl⟩
  agrees _ h := by cases h

theorem Inv.of_some (he : s.entry = some info) (h : Agrees tight info s.grants s.locked) : Inv tight s where
  absent hnone := by rw [he] at hnone; cases hnone
  agrees info' h' := by
    rw [he] at h'
    obtain rfl := Option.some.inj h'
    exact h

end LobSystem

namespace Agrees

theorem new (hid : mode = .write → 0 ≤ id) :
    Agrees tight (if mode.shared then (LobAccessInfo.new mode id).incRefCount else LobAccessInfo.new mode id)
      [⟨mode, id⟩] [] := by
  have hi : (LobAccessInfo.new mode id).incRefCount = { LobAccessInfo.new mode id with refCount := 0 + 1 } :=
    incRefCount_eq (Int.le_refl 0) (by show (0 : Int) < 2 ^ 31 - 1; decide)
  rw [hi]
  cases mode <;>
    constructor <;> simp_all [LobMode.shared, LobAccessInfo.new, LobAccessInfo.sections, InOrder]

variable (h : Agrees tight info grants locked)

include h

theorem join (hshared : info.mode.shared) (hf : info.refCount < 2 ^ 31 - 1) (hid : info.mode = .write → 0 ≤ id) :
    Agrees tight info.incRefCount (⟨info.mode, id⟩ :: grants) locked := by
  have hp := h.nonneg
  rw [incRefCount_eq hp hf]
  exact { h with
      mode := forall_mem_cons.2 ⟨rfl, h.mode⟩
      alone := fun hm => absurd (hshared.symm.trans hm) (by simp)
      writer := fun hm => forall_mem_cons.2 ⟨hid hm, h.writer hm⟩
      nonneg := by show 0 ≤ info.refCount + 1; omega
      fits := by show info.refCount + 1 < 2 ^ 31; omega
      count := fun hm => by
        have := h.count hshared
        simp only [length_cons]
        omega
      exactly := fun ht _ => by
        have := (h.exactly ht hshared).1
        exact ⟨by simp only [length_cons]; omega, by simp⟩
      held := fun s hs => mem_cons_of_mem _ (h.held s hs) }

variable {info' : LobAccessInfo}

theorem lock (hg : ⟨.write, sec.accessId⟩ ∈ grants) {rc : Rc} (hl : Locked info sec rc info') :
    Agrees tight info' grants (if rc = .ok then sec :: locked else locked) := by
  cases hl with
  | refused hrc => exact (if_neg hrc).symm ▸ h
  | owned hmode hid ho =>
    exact { h with
        covered := forall_mem_cons.2 ⟨fun b hb => ho ▸ h.whole hmode hid b (LobSection.lt_of_includes hb), h.covered⟩
        held := forall_mem_cons.2 ⟨hg, h.held⟩ }
  | added hmode _ hmode' hcount ho hsec =>
    obtain ⟨horder, hk, hn, hc⟩ := addSection_spec h.inOrder hsec
    exact
      { mode := fun g hg => (h.mode g hg).trans (hmode.trans hmode'.symm)
        alone := fun hm => by simp [hmode', LobMode.shared] at hm
        reader := fun hm => by simp [hmode'] at hm
        writer := fun _ => h.writer hmode
        nonneg := hcount ▸ h.nonneg
        fits := hcount ▸ h.fits
        count := fun _ => hcount ▸ h.count (by rw [hmode]; rfl)
        exactly := fun ht _ => hcount ▸ h.exactly ht (by rw [hmode]; rfl)
        inOrder := horder
        owner := fun _ hne s hs => by
          obtain ⟨hid, -, ha⟩ := ho.resolve_left hne
          rw [hid]
          exact (hn s hs).elim (ha s) id
        whole := fun _ hne b hb => by
          obtain ⟨hid, hw, -⟩ := ho.resolve_left hne
          rw [hid]
          exact hc b (LobSection.includes_of_whole hw hb)
        covered := forall_mem_cons.2 ⟨hc, fun s hs b hb => by
          obtain ⟨t, ht, hid, htb⟩ := h.covered s hs b hb
          exact ⟨t, hk t ht, hid, htb⟩⟩
        held := forall_mem_cons.2 ⟨hg, h.held⟩ }
  | conflicted hrc hmode hcount hid hsec =>
    rw [if_neg hrc]
    exact
      { mode := hmode ▸ h.mode
        alone := hmode ▸ hid ▸ h.alone
        reader := hmode ▸ hid ▸ h.reader
        writer := hmode ▸ h.writer
        nonneg := hcount ▸ h.nonneg
        fits := hcount ▸ h.fits
        count := hmode ▸ hcount ▸ h.count
        exactly := hmode ▸ hcount ▸ h.exactly
        inOrder := hsec ▸ h.inOrder
        owner := hmode ▸ hid ▸ hsec ▸ h.owner
        whole := hmode ▸ hid ▸ hsec ▸ h.whole
        covered := hsec ▸ h.covered
        held := h.held }

theorem held_erase (mode : LobMode) (id : Int) :
    ∀ s ∈ locked.filter (fun sec => sec.accessId ≠ id), ⟨.write, s.accessId⟩ ∈ grants.erase ⟨mode, id⟩ := by
  intro s hs
  obtain ⟨hs, hne⟩ := mem_filter.1 hs
  refine (mem_erase_of_ne fun heq => ?_).2 (h.held s hs)
  rw [Grant.mk.injEq] at heq
  simp [heq.2] at hne

theorem eq_write_of_refused {mode : LobMode} (hg : ⟨mode, id⟩ ∈ grants)
    (hne : info.accessId ≠ -1) (ho : id ≠ info.accessId) : info.mode = .write := by
  cases hmode : info.mode with
  | read => exact absurd (h.reader hmode) hne
  | write => rfl
  | createOnly | remove | truncate =>
    obtain ⟨id', hgrants, hid'⟩ := h.alone (by rw [hmode]; rfl)
    rw [hgrants, mem_singleton, Grant.mk.injEq] at hg
    exact absurd (hg.2.trans hid'.symm) ho

theorem giveUp (hmode : info.mode = .write) (id : Int) (hl : ¬ tight) :
    Agrees tight info (grants.erase ⟨.write, id⟩) (locked.filter fun sec => sec.accessId ≠ id) :=
  { h with
    mode := fun g hg => h.mode g (mem_of_mem_erase hg)
    alone := fun hm => by simp [hmode, LobMode.shared] at hm
    writer := fun hm g hg => h.writer hm g (mem_of_mem_erase hg)
    count := fun hm => by
      have := h.count hm
      have := length_erase_le (a := (⟨.write, id⟩ : Grant)) (l := grants)
      omega
    exactly := fun ht => absurd ht hl
    covered := fun s hs => h.covered s (mem_of_mem_filter hs)
    held := h.held_erase .write id }

theorem leave_last (hg : ⟨info.mode, id⟩ ∈ grants) (hlen : grants.length ≤ 1) :
    grants.erase ⟨info.mode, id⟩ = [] ∧ locked.filter (fun sec => sec.accessId ≠ id) = [] := by
  have he : grants.erase ⟨info.mode, id⟩ = [] := by
    have := length_erase_of_mem hg
    exact eq_nil_of_length_eq_zero (by omega)
  refine ⟨he, eq_nil_iff_forall_not_mem.2 fun s hs => ?_⟩
  have := h.held_erase info.mode id s hs
  rw [he] at this
  exact not_mem_nil this

variable (hg : ⟨info.mode, id⟩ ∈ grants) (hshared : info.mode.shared = true) (hmode : info'.mode = info.mode)
  (hcount : info'.refCount = info.refCount) (hid : info'.accessId = -1) (horder : InOrder info'.sections)
  (hsec : ∀ t ∈ info.sections, t.accessId ≠ id → t ∈ info'.sections)

include hg hshared hmode hcount hid horder hsec

theorem leave (hmore : 1 < info.refCount) : Agrees tight { info' with refCount := info'.refCount - 1 }
    (grants.erase ⟨info.mode, id⟩) (locked.filter fun sec => sec.accessId ≠ id) where
  mode g hg := (h.mode g (mem_of_mem_erase hg)).trans hmode.symm
  alone hm := by simp [hmode, hshared] at hm
  reader _ := hid
  writer hm g hg := h.writer (hmode ▸ hm) g (mem_of_mem_erase hg)
  nonneg := by simp only; omega
  fits := by have := h.fits; simp only; omega
  count hm := by
    have := h.count hshared
    have := length_erase_of_mem hg
    have := length_pos_of_mem hg
    simp only
    omega
  exactly ht _ := by
    have hlen := (h.exactly ht hshared).1
    have herase := length_erase_of_mem hg
    refine ⟨?_, ne_nil_of_length_pos (by omega)⟩
    simp only
    omega
  inOrder := horder
  owner _ hne := absurd hid hne
  whole _ hne := absurd hid hne
  covered s hs b hb := by
    obtain ⟨hs, hne⟩ := mem_filter.1 hs
    obtain ⟨t, ht, htid, htb⟩ := h.covered s hs b hb
    exact ⟨t, hsec t ht (htid ▸ of_decide_eq_true hne), htid, htb⟩
  held := h.held_erase info.mode id

theorem dropReference : LobSystem.Inv tight ⟨Rtn.dropReference info', grants.erase ⟨info.mode, id⟩,
      locked.filter fun sec => sec.accessId ≠ id⟩ := by
  have hlen := h.count hshared
  rcases dropReference_cases (hcount ▸ h.nonneg) (hcount ▸ h.fits) with ⟨hle, hd⟩ | ⟨hlt, hd⟩
  · rw [hd]
    exact ⟨fun _ => h.leave_last hg (by omega), nofun⟩
  · rw [hd]
    exact LobSystem.Inv.of_some rfl (h.leave hg hshared hmode hcount hid horder hsec (by omega))

omit h hg hshared hmode hcount hid horder hsec

end Agrees

namespace LobSystem

variable {s : LobSystem}

theorem inv_get (h : Inv tight s) (hf : s.countFits) (mode : UInt32) (id : Int) : Inv tight (s.get mode id) := by
  unfold get
  split
  · exact h
  next m _ =>
    by_cases hok : (getAccessPrivilege s.entry m id).1 = .ok
    · simp only [if_pos hok]
      obtain ⟨hid, ⟨hn, hnew⟩ | ⟨info, hsome, rfl, hshared, hinc⟩⟩ := getAccessPrivilege_cases hok
      · refine Inv.of_some hnew ?_
        obtain ⟨hg, hl⟩ := h.absent hn
        simp only [hg, hl]
        exact Agrees.new hid
      · refine Inv.of_some hinc ((h.agrees info hsome).join hshared ?_ hid)
        simpa [countFits, hsome] using hf
    · simp only [if_neg hok, getAccessPrivilege_of_ne hok]
      exact h

theorem inv_lock (h : Inv tight s) (sec : LobSection) : Inv tight (s.lock sec) := by
  unfold lock
  split
  · exact h
  next info hentry =>
    split
    next hg =>
      have ha := (h.agrees info hentry).lock hg (info.lockSection_locked sec)
      simp only
      split_ifs at ha ⊢
      · exact Inv.of_some rfl ha
      · exact Inv.of_some rfl ha
    next => exact h

theorem Inv.releaseOf (h : Inv tight s) {g : Grant} (hg : g ∈ s.grants) :
    ∃ info, s.entry = some info ∧ Agrees tight info s.grants s.locked ∧ g.mode = info.mode ∧
      ReleaseOf info g.accessId (releaseAccessPrivilege s.entry g.mode g.accessId).1
        (releaseAccessPrivilege s.entry g.mode g.accessId).2 := by
  cases he : s.entry with
  | none => exact absurd hg (by simp [(h.absent he).1])
  | some info =>
    have ha := h.agrees info he
    have hmode := ha.mode g hg
    refine ⟨info, rfl, ha, hmode, ?_⟩
    rw [hmode]
    exact releaseAccessPrivilege_of fun hm => ha.writer hm g hg

theorem inv_release (h : Inv tight s) (mode : LobMode) (id : Int) (hc : tight → s.wholeLockedByOther id = false) :
    Inv tight (s.release mode id) := by
  unfold release
  split
  next hg =>
    obtain ⟨info, he, ha, hmode, hr⟩ := h.releaseOf hg
    obtain rfl : mode = info.mode := hmode
    generalize releaseAccessPrivilege s.entry info.mode id = r at hr ⊢
    obtain ⟨rc, entry'⟩ := r
    cases hr with
    | refused hne ho =>
      have hmode := ha.eq_write_of_refused hg hne ho
      have hl : ¬ tight := fun ht => by
        have hall := hc ht
        simp [wholeLockedByOther, he, hmode, hne, ho.symm] at hall
      exact Inv.of_some rfl (hmode ▸ ha.giveUp hmode id hl)
    | alone hmode =>
      obtain ⟨id', hgrants, -⟩ := ha.alone hmode
      exact ⟨fun _ => ha.leave_last hg (by simp [hgrants]), nofun⟩
    | reader hmode =>
      exact ha.dropReference hg (by rw [hmode]; rfl) rfl rfl (ha.reader hmode) ha.inOrder
        fun t ht _ => ht
    | writer hmode hown =>
      have hu := unlockSectionByAccessId_eq hmode hown
      rw [hu]
      refine ha.dropReference hg (by rw [hmode]; rfl) rfl rfl rfl ?_ fun t ht hne => ?_
      · rw [sections_delete]
        exact ha.inOrder.delSectionById id
      · rw [sections_delete]
        exact mem_delSectionById.2 ⟨ht, hne⟩
  next => exact h

theorem inv_step (h : Inv tight s) (c : LobCall) (hc : s.Counted c) (ho : tight → s.Orderly c) :
    Inv tight (s.step c) := by
  cases c with
  | getAccessPrivilege mode id => exact inv_get h hc mode id
  | lockSection sec => exact inv_lock h sec
  | releaseAccessPrivilege mode id => exact inv_release h mode id ho

theorem Orderly.counted {c : LobCall} (h : s.Orderly c) : s.Counted c := by
  cases c with
  | getAccessPrivilege => exact h
  | lockSection | releaseAccessPrivilege => trivial

theorem Inv.exclusive (h : Inv tight s) : Exclusive s where
  oneHolder info hi hmode := by
    obtain ⟨id, hgrants, -⟩ := (h.agrees info hi).alone hmode
    exact ⟨id, hgrants⟩
  oneMode g hg g' hg' := by
    obtain ⟨info, -, ha, hmode, -⟩ := h.releaseOf hg
    exact hmode.trans (ha.mode g' hg').symm
  locked sec hsec b hb := by
    cases he : s.entry with
    | none => exact absurd hsec (by simp [(h.absent he).2])
    | some info =>
      obtain ⟨t, ht, hid, htb⟩ := (h.agrees info he).covered sec hsec b hb
      exact ⟨info, he, t, ht, hid, htb⟩
  oneOwner b id id' := by
    rintro ⟨info, hi, t, ht, rfl, htb⟩ ⟨info', hinfo', t', ht', rfl, htb'⟩
    obtain rfl : info = info' := Option.some.inj (hi.symm.trans hinfo')
    by_contra hne
    have hap := (h.agrees info hi).inOrder.apart ht ht' fun heq => hne (heq ▸ rfl)
    exact hap.not_includes htb htb'
  whole info hi hmode hid b id := by
    rintro ⟨info', hinfo', t, ht, rfl, -⟩
    obtain rfl : info = info' := Option.some.inj (hi.symm.trans hinfo')
    exact (h.agrees info hi).owner hmode hid t ht

theorem Inv.releasable (h : Inv True s) : Releasable s where
  release g hg := by
    obtain ⟨info, he, ha, -, hr⟩ := h.releaseOf hg
    generalize releaseAccessPrivilege s.entry g.mode g.accessId = r at hr ⊢
    obtain ⟨rc, entry'⟩ := r
    cases hr with
    | refused hne ho =>
      have hmode := ha.eq_write_of_refused hg hne ho
      simp [wholeLockedByOther, he, hmode, hne, ho.symm]
    | alone hmode =>
      have : info.mode ≠ .write := fun hw => by simp [hw, LobMode.shared] at hmode
      simp [wholeLockedByOther, he, this]
    | reader hmode => simp [wholeLockedByOther, he, hmode]
    | writer hmode hown => rcases hown with hown | hown <;> simp [wholeLockedByOther, he, hown]
  open_ hnil := by
    have hn : s.entry = none := by
      cases he : s.entry with
      | none => rfl
      | some info =>
        have ha := h.agrees info he
        cases hshared : info.mode.shared with
        | false =>
          obtain ⟨id, hgrants, -⟩ := ha.alone hshared
          simp [hnil] at hgrants
        | true => exact absurd hnil (ha.exactly trivial hshared).2
    exact ⟨hn, fun mode id hid => hn ▸ getAccessPrivilege_none hid⟩

/-- Access is exclusive, and privileges can be given back, in every run in which no privilege is released while
another access id has locked the whole LOB. -/
theorem run_orderly {calls : List LobCall} (h : Meets Orderly step {} calls) :
    Exclusive (run step {} calls) ∧ Releasable (run step {} calls) := by
  have hinv : Inv True (run step {} calls) :=
    run_invariant (I := Inv True) (fun _ c h hc => inv_step h c hc.counted fun _ => hc) inv_init h
  exact ⟨hinv.exclusive, hinv.releasable⟩

/-- Two writers lock different sections; the first one goes, and the second one can lock the whole LOB. -/
theorem run_orderly_two_writers :
    let calls : List LobCall :=
      [.getAccessPrivilege 8 1, .getAccessPrivilege 8 2, .lockSection ⟨0, 10, 1, by decide, by decide⟩,
        .lockSection ⟨20, 10, 2, by decide, by decide⟩, .releaseAccessPrivilege .write 1,
        .lockSection ⟨0, sint64Max, 2, by decide, by decide⟩]
    (run step {} calls).grants = [⟨.write, 2⟩] ∧
      Exclusive (run step {} calls) ∧ Releasable (run step {} calls) :=
  ⟨by decide, run_orderly (by decide)⟩

/-- A writer that goes while another one has locked the whole LOB cannot give its privilege back, and the entry stays
when both are gone. -/
theorem release_refused :
    let calls : List LobCall :=
      [.getAccessPrivilege 8 1, .getAccessPrivilege 8 2, .lockSection ⟨0, sint64Max, 1, by decide, by decide⟩]
    let s := run step {} calls
    ⟨.write, 2⟩ ∈ s.grants ∧ (releaseAccessPrivilege s.entry .write 2).1 = .sys ∧
      let t := run step s [.releaseAccessPrivilege .write 2, .releaseAccessPrivilege .write 1]
      t.grants = [] ∧ t.entry ≠ none ∧ (getAccessPrivilege t.entry .read 3).1 = .lobIsInUse := by
  decide

end LobSystem

end SequoiaDB.Rtn
