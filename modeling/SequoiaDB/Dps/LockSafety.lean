import SequoiaDB.Dps.LockTable

/-!
# Locks on several levels

A lock on a collection space conflicts with the locks beneath it only by the intention locks that are taken on the
way down.  The references of a session are counted on every level, so that a lock is kept as long as there are
locks beneath it.  An X lock has an IX or an X lock above it; but the collection space of an X lock on a record has
only an IS lock, which does not exclude an S lock of another session.
-/

namespace SequoiaDB.Dps

open Lib Function List LockId Doing LockSystem Option

/-! ### The way down -/

namespace LockId

variable {a b c p : LockId}

theorem mem_path_self (a : LockId) : a ∈ a.path := by
  cases a <;> simp [path]

theorem path_of_parent (h : a.parent = some p) : a.path = a :: p.path := by
  cases a <;> cases h <;> rfl

theorem path_of_parent_none (h : a.parent = none) : a.path = [a] := by
  cases a <;> first | rfl | cases h

theorem not_mem_path_parent (h : a.parent = some p) : a ∉ p.path := by
  cases a <;> cases h <;> simp [path]

theorem mem_path_trans (hab : a ∈ b.path) (hbc : b ∈ c.path) : a ∈ c.path := by
  cases c <;> simp only [path, mem_cons, not_mem_nil, or_false] at hbc <;>
    rcases hbc with rfl | rfl | rfl <;> simp_all [path]

theorem eq_of_mem_path (ha : a.isRecord) (h : a ∈ b.path) : b = a := by
  cases a <;> cases b <;> simp_all [path, isRecord]

theorem eq_or_parent_of_mem_path (ha : a.parent ≠ none) (h : a ∈ b.path) : a = b ∨ b.parent = some a := by
  cases b <;> simp only [path, mem_cons, not_mem_nil, or_false] at h <;>
    rcases h with rfl | rfl | rfl <;> simp_all [parent]

theorem ne_parent (h : a.parent = some p) : p ≠ a := by
  rintro rfl
  exact not_mem_path_parent h (mem_path_self p)

theorem parent_mem_path (h : a.parent = some p) : p ∈ a.path := by
  rw [path_of_parent h]
  exact mem_cons_of_mem _ (mem_path_self p)

end LockId

def references (owned : List LockId) (id : LockId) : Nat :=
  owned.countP fun o => decide (id ∈ o.path)

section references

variable (owned : List LockId) {id p : LockId} (id' : LockId)

theorem references_cons (o : LockId) :
    references (o :: owned) id' = references owned id' + if id' ∈ o.path then 1 else 0 := by
  rw [references, references, countP_cons]
  simp

variable {owned} in
theorem references_erase (h : p ∈ owned) :
    references (owned.erase p) id' + (if id' ∈ p.path then 1 else 0) = references owned id' := by
  rw [← references_cons]
  exact ((perm_cons_erase h).countP_eq _).symm

variable {id'} in
theorem references_mono (h : id' ∈ id.path) : references owned id ≤ references owned id' := by
  refine countP_mono_left fun o _ ho => ?_
  simp only [decide_eq_true_eq] at ho ⊢
  exact mem_path_trans h ho

theorem references_own {x : Session} (h : ∀ p, id.parent = some p → p ∈ x.owned) :
    references (x.own id).owned id' = references x.owned id' + if id' = id then 1 else 0 := by
  unfold Session.own
  cases hp : id.parent with
  | none =>
    simp only [references_cons, path_of_parent_none hp, mem_singleton]
  | some p =>
    simp only [references_cons, path_of_parent hp, mem_cons]
    have he := references_erase id' (h p hp)
    by_cases hid : id' = id
    · subst hid
      have hn := not_mem_path_parent hp
      rw [if_neg hn] at he
      simp only [true_or, if_true]
      omega
    · simp only [hid, false_or, if_false]
      omega

theorem references_disown {x : Session} (h : id ∈ x.owned) :
    references (x.disown id).owned id' + (if id' = id then 1 else 0) = references x.owned id' := by
  have he := references_erase id' h
  unfold Session.disown
  cases hp : id.parent with
  | none =>
    simpa [path_of_parent_none hp] using he
  | some p =>
    simp only [toList_some, singleton_append, references_cons]
    rw [path_of_parent hp] at he
    by_cases hid : id' = id
    · subst hid
      rw [if_neg (not_mem_path_parent hp)]
      simpa using he
    · simpa [hid] using he

end references

/-! ### References -/

def Doing.pending : Doing → Option LockId
  | .waiting w | .awake w | .gaveUp w _ =>
    match w.resume with
    | .level none _ => some w.id
    | _ => none
  | _ => none

theorem Doing.pending_eq_some {d : Doing} {id : LockId} :
    d.pending = some id ↔ ∃ w rest, d.waiter = some w ∧ w.resume = .level none rest ∧ w.id = id := by
  have hw (w : Waiter) : (match w.resume with | .level none _ => some w.id | _ => none) = some id ↔
      ∃ rest, w.resume = .level none rest ∧ w.id = id := by
    split <;> simp_all
  cases d <;> simp [pending, waiter, hw]

@[simp] theorem Doing.pending_start (levels : List Level) : (Doing.start levels).pending = none := by
  cases levels <;> rfl

@[simp] theorem Doing.pending_above (id : LockId) (rc : Rc) : (Doing.above id rc).pending = none := by
  unfold Doing.above
  cases id.parent <;> rfl

@[simp] theorem Session.doing_releaseAbove (x : Session) (id : LockId) (rc : Rc) :
    (x.releaseAbove id rc).doing = .above id rc := rfl

namespace LockView

variable {v v' : LockView} {id : LockId}

def refs (v : LockView) (id : LockId) : Int :=
  match v.hold id with
  | none => 0
  | some h => h.ref + 1

/-- Every lock info counts the references for the lock, but for the one that is not granted yet. -/
structure Counted (v : LockView) : Prop where
  pos : ∀ id h, v.hold id = some h → 0 ≤ h.ref
  count : ∀ id, v.session.doing.pending ≠ some id → v.refs id = references v.session.owned id
  fresh : ∀ id, v.session.doing.pending = some id →
    references v.session.owned id = 0 ∧ ∃ h, v.hold id = some h ∧ h.ref = 0

namespace Counted

variable (h : v.Counted) {hold : Hold}

include h

theorem change (id : LockId) (ho : ∀ id', id' ≠ id → v'.hold id' = v.hold id')
    (hr : ∀ id', id' ≠ id → references v'.session.owned id' = references v.session.owned id')
    (hp : ∀ id', id' ≠ id → v.session.doing.pending ≠ some id' ∧ v'.session.doing.pending ≠ some id')
    (hpos : ∀ h, v'.hold id = some h → 0 ≤ h.ref)
    (hc : v'.session.doing.pending ≠ some id → v'.refs id = references v'.session.owned id)
    (hf : v'.session.doing.pending = some id →
      references v'.session.owned id = 0 ∧ ∃ h, v'.hold id = some h ∧ h.ref = 0) : v'.Counted where
  pos id' := by
    by_cases hid : id' = id
    · subst hid
      exact hpos
    · rw [ho id' hid]
      exact h.pos id'
  count id' hid' := by
    by_cases hid : id' = id
    · subst hid
      exact hc hid'
    · rw [refs, ho id' hid, hr id' hid]
      exact h.count id' (hp id' hid).1
  fresh id' hid' := by
    by_cases hid : id' = id
    · subst hid
      exact hf hid'
    · exact absurd hid' (hp id' hid).2

theorem own (hr : ∀ p, id.parent = some p → p ∈ v.session.owned)
    (hp : ∀ id', id' ≠ id → v.session.doing.pending ≠ some id')
    (hoff : ∀ id', id' ≠ id → v'.hold id' = v.hold id') (hn : v'.hold id = some hold)
    (href : hold.ref = references v.session.owned id) (ho : v'.session.owned = (v.session.own id).owned)
    (hp' : v'.session.doing.pending = none) : v'.Counted := by
  refine h.change id hoff (fun id' hid => ?_) (fun id' hid => ⟨hp id' hid, by simp [hp']⟩) ?_ ?_ ?_
  · rw [ho, references_own _ hr, if_neg hid, Nat.add_zero]
  · intro hold' hhold'
    rw [hn] at hhold'
    cases hhold'
    omega
  · intro _
    rw [refs, hn, ho, references_own _ hr, if_pos rfl]
    simp only
    omega
  · simp [hp']

theorem keep (hh : ∀ id, (v'.hold id).map Hold.ref = (v.hold id).map Hold.ref)
    (ho : v'.session.owned = v.session.owned) (hp : v'.session.doing.pending = v.session.doing.pending) :
    v'.Counted where
  pos id hold hid := by
    have := hh id
    rw [hid] at this
    obtain ⟨hold', hhold', hr⟩ := map_eq_some_iff.1 this.symm
    rw [← hr]
    exact h.pos id hold' hhold'
  count id hid := by
    have hr : v'.refs id = v.refs id := by
      have := hh id
      unfold refs
      cases hv : v.hold id <;> cases hv' : v'.hold id <;> simp_all
    rw [hr, ho]
    exact h.count id (hp ▸ hid)
  fresh id hid := by
    obtain ⟨hc, hold, hhold', hr⟩ := h.fresh id (hp ▸ hid)
    have := hh id
    rw [hhold'] at this
    obtain ⟨ho1, hh1, hr1⟩ := map_eq_some_iff.1 this
    exact ⟨ho ▸ hc, ho1, hh1, hr1.trans hr⟩

theorem count_of_hold (hh : v.hold id = some hold) (hp : v.session.doing.pending ≠ some id) :
    hold.ref + 1 = references v.session.owned id := by
  have hc := h.count id hp
  rwa [refs, hh] at hc

theorem references_pos (hh : v.hold id ≠ none) (hp : v.session.doing.pending ≠ some id) :
    0 < references v.session.owned id := by
  obtain ⟨hold, hh⟩ := ne_none_iff_exists'.1 hh
  have hcount := h.count_of_hold hh hp
  have hpos := h.pos id hold hh
  omega

theorem hold_ne_none (hrefs : 0 < references v.session.owned id) :
    v.hold id ≠ none ∧ v.session.doing.pending ≠ some id := by
  have hpend : v.session.doing.pending ≠ some id := by
    intro hp
    have := (h.fresh id hp).1
    omega
  refine ⟨fun hn => ?_, hpend⟩
  have hc := h.count id hpend
  rw [refs, hn] at hc
  simp only at hc
  omega

theorem above {id' : LockId} (hid : id' ∈ id.path) (hh : v.hold id ≠ none) (hp : v.session.doing.pending ≠ some id) :
    v.hold id' ≠ none ∧ v.session.doing.pending ≠ some id' :=
  h.hold_ne_none (Nat.lt_of_lt_of_le (h.references_pos hh hp) (references_mono _ hid))

omit h

end Counted

/-! ### What is above an X lock -/

def Shielded (v : LockView) (id : LockId) : Prop :=
  ∀ p, id.parent = some p → v.run p = some .IX ∨ v.run p = some .X

def Ready (v : LockView) (type : LockType) (id : LockId) : Prop :=
  (∀ p, id.parent = some p → p ∈ v.session.owned) ∧ (type = .X → v.Shielded id) ∧ (type = .S → id.parent ≠ none)

def Descends : LockType → LockId → List Level → Prop
  | _, _, [] => True
  | type, id, level :: rest =>
    level.id.parent = some id ∧ (level.type = .X → type = .IX) ∧ Descends level.type level.id rest

def Standing (v : LockView) : Prop :=
  match v.session.doing with
  | .idle _ | .finding _ => ∀ id, v.session.queued = some id → v.Shielded id
  | .locking level rest => v.Ready level.type level.id ∧ Descends level.type level.id rest
  | .waiting w | .awake w | .gaveUp w _ =>
    match w.resume with
    | .waitLockX => v.Shielded w.id
    | .level _ rest => v.Ready w.type w.id ∧ Descends w.type w.id rest
  | .releasing id _ => (v.hold id = none ∨ id ∈ v.session.owned) ∧ ∀ id', v.session.queued = some id' → v.Shielded id'

structure Held (v : LockView) : Prop where
  counted : v.Counted
  cover : ∀ id, v.run id = some .X → v.Shielded id
  space : ∀ id, id.parent = none → v.run id ≠ some .S
  standing : v.Standing

theorem Agrees.run_pending {lax up : Prop} (h : v.Agrees lax up) (hp : v.session.doing.pending = some id) :
    v.session.queued = some id ∧ v.run id = none := by
  obtain ⟨w, rest, hw, hr, rfl⟩ := pending_eq_some.1 hp
  obtain ⟨hq, hwaits⟩ := h.waitsFor hw
  simp only [hr] at hwaits
  exact ⟨hq, hwaits.2.1⟩

theorem Agrees.hold_of_queued {lax up : Prop} (h : v.Agrees lax up) (hq : v.session.queued = some id) :
    v.hold id ≠ none := by
  obtain ⟨-, hold, hh, -⟩ | ⟨w, -, rfl, -, hw⟩ := h.of_queued hq
  · simp [hh]
  · split at hw
    · obtain ⟨-, -, hold, hh, -⟩ := hw
      simp [hh]
    · obtain ⟨⟨hold, hh, -⟩, -⟩ := hw
      simp [hh]

theorem Agrees.run_of_hold_ne_none {up : Prop} (h : v.Agrees False up) (hid : id.isRecord = false)
    (hh : v.hold id ≠ none) (hp : v.session.doing.pending ≠ some id) : v.run id ≠ none := by
  by_cases hq : v.session.queued = some id
  · obtain ⟨hr, -⟩ | ⟨w, hw, rfl, -, hwaits⟩ := h.of_queued hq
    · simp [hid] at hr
    · split at hwaits
      · simp [hid] at hwaits
      next last rest hresume =>
        rw [hwaits.2.1]
        rintro rfl
        exact hp (pending_eq_some.2 ⟨w, rest, hw, hresume, rfl⟩)
  · rcases h.free id hq with hf | ⟨hfalse, -⟩
    · rw [hf]
      simpa using hh
    · exact hfalse.elim

theorem Agrees.hold_of_run {up : Prop} (h : v.Agrees False up) (hr : v.run id ≠ none) :
    v.hold id ≠ none ∧ v.session.doing.pending ≠ some id := by
  refine ⟨?_, fun hp => hr (h.run_pending hp).2⟩
  by_cases hq : v.session.queued = some id
  · exact h.hold_of_queued hq
  · rcases h.free id hq with hf | ⟨hfalse, -⟩
    · intro hn
      rw [hn] at hf
      exact hr hf
    · exact hfalse.elim

theorem standing_start (id : LockId) (type : LockType) {type' : LockType} {rest : List Level} (hdoing : v.session.doing = .start rest)
    (hq : v.session.queued = none) (ho : id ∈ v.session.owned) (hrun : v.run id = some type')
    (hm : type'.isLockMatch type) (hr : Descends type id rest) : v.Standing := by
  unfold Standing
  rw [hdoing]
  cases rest with
  | nil => exact fun id h => by simp [hq] at h
  | cons level rest =>
    obtain ⟨hparent, hX, hr⟩ := hr
    refine ⟨⟨?_, ?_, ?_⟩, hr⟩
    · intro p hp
      rw [hparent] at hp
      cases hp
      exact ho
    · intro ht p hp
      rw [hparent] at hp
      cases hp
      rw [hX ht] at hm
      rw [hrun]
      revert hm
      cases type' <;> decide
    · simp [hparent]

theorem standing_above {rc : Rc} (hdoing : v.session.doing = .above id rc)
    (ho : ∀ p, id.parent = some p → v.hold p = none ∨ p ∈ v.session.owned)
    (hq : ∀ id', v.session.queued = some id' → v.Shielded id') : v.Standing := by
  unfold Standing
  rw [hdoing, Doing.above]
  cases hp : id.parent with
  | none => exact hq
  | some p => exact ⟨ho p hp, hq⟩

namespace Held

variable (h : v.Held) {rc : Rc} {type : LockType}

include h

theorem grant (hr : v'.run = update v.run id (some type))
    (hX : type = .X → v.Shielded id) (hS : type = .S → id.parent ≠ none)
    (hold : v.run id = some .IX ∨ v.run id = some .X → type = .X) (hcounted : v'.Counted) (hs : v'.Standing) :
    v'.Held where
  counted := hcounted
  cover b hb p hp := by
    rw [hr] at hb ⊢
    by_cases hbid : b = id
    · subst hbid
      rw [update_self] at hb
      rw [update_of_ne (ne_parent hp)]
      exact hX (some.inj hb) p hp
    · rw [update_of_ne hbid] at hb
      have hshield := h.cover b hb p hp
      by_cases hpid : p = id
      · subst hpid
        rw [update_self, hold hshield]
        exact .inr rfl
      · rwa [update_of_ne hpid]
  space c hc := by
    rw [hr]
    by_cases hcid : c = id
    · subst hcid
      rw [update_self]
      exact fun hS' => hS (some.inj hS') hc
    · rw [update_of_ne hcid]
      exact h.space c hc
  standing := hs

omit h in
theorem shielded_drop {b : LockId} (hr : v'.run = update v.run id none)
    (he : ∀ b, b ≠ id → id ∈ b.path → v.hold b = none ∨ v.session.doing.pending = some b) (hb : b ≠ id)
    (hh : v.hold b ≠ none) (hpend : v.session.doing.pending ≠ some b) (hs : v.Shielded b) :
    v'.Shielded b := by
  intro p hp
  have hpid : p ≠ id := by
    rintro rfl
    exact (he b hb (parent_mem_path hp)).elim hh hpend
  rw [hr, update_of_ne hpid]
  exact hs p hp

theorem drop {up : Prop} (ha : v.Agrees False up) (hr : v'.run = update v.run id none)
    (hempty : ∀ b, b ≠ id → id ∈ b.path → v.hold b = none ∨ v.session.doing.pending = some b)
    (hcounted : v'.Counted) (hs : v'.Standing) : v'.Held := by
  have he : ∀ {b : LockId} {type : LockType}, v'.run b = some type → b ≠ id ∧ v.run b = some type := by
    intro b type hb
    rw [hr] at hb
    have hbid : b ≠ id := by
      rintro rfl
      simp at hb
    rw [update_of_ne hbid] at hb
    exact ⟨hbid, hb⟩
  refine ⟨hcounted, fun b hb => ?_, fun c hc hS => h.space c hc (he hS).2, hs⟩
  obtain ⟨hbid, hb⟩ := he hb
  obtain ⟨hh, hp⟩ := ha.hold_of_run (by simp [hb] : v.run b ≠ none)
  exact shielded_drop hr hempty hbid hh hp (h.cover b hb)

theorem keep (hr : v'.run = v.run) (hcounted : v'.Counted) (hs : v'.Standing) : v'.Held where
  counted := hcounted
  cover b hb p hp := by
    rw [hr] at hb ⊢
    exact h.cover b hb p hp
  space c hc := by
    rw [hr]
    exact h.space c hc
  standing := hs

theorem above (hr : v.Ready type id) (hq : v.session.queued = none)
    (hpend : v.session.doing.pending = none) : (v.setSession (v.session.releaseAbove id rc)).Held := by
  refine h.keep rfl (h.counted.keep (fun _ => rfl) rfl (by simp [hpend])) ?_
  refine standing_above rfl (fun p hp => .inr (hr.1 p hp)) ?_
  exact fun id' hid' => absurd (hq.symm.trans hid') nofun

variable {up : Prop} (ha : v.Agrees False up)

include ha

section Locking

variable {level : Level} {rest : List Level} (hdoing : v.session.doing = .locking level rest)

include hdoing

theorem locking : (v.Ready level.type level.id ∧ Descends level.type level.id rest) ∧
    v.session.doing.pending = none ∧ v.session.queued = none ∧ ∀ l ∈ level :: rest, l.Appends := by
  have hs := h.standing
  have hp := ha.placed
  unfold Standing at hs
  unfold Placed at hp
  rw [hdoing] at hs hp ⊢
  exact ⟨hs, rfl, hp⟩

theorem succeed {ref : Int} (hrefs : ref = references v.session.owned level.id)
    (hold : v.run level.id = some .IX ∨ v.run level.id = some .X → level.type = .X) :
    (((v.setHold level.id (some ⟨level.type, ref⟩)).setRun level.id (some level.type)).setSession
      (v.session.succeed level.id rest)).Held := by
  obtain ⟨⟨hr, hrest⟩, hp, hq, -⟩ := h.locking ha hdoing
  refine h.grant rfl hr.2.1 hr.2.2 hold ?_ ?_
  · exact h.counted.own hr.1 (by simp [hp]) (fun id' hid => by simp [hid]) (hold_setHold_self ..)
      hrefs rfl (pending_start rest)
  · exact standing_start level.id level.type rfl hq mem_cons_self (run_setRun_self ..)
      (by simp [LockType.isLockMatch]) hrest

theorem lockNew (hh : v.hold level.id = none) (ok : Bool) (gen : Nat) : (v.lockNew level rest ok gen).Held := by
  obtain ⟨⟨hr, hrest⟩, hp, hq, hl⟩ := h.locking ha hdoing
  have hrefs : references v.session.owned level.id = 0 := by
    have := h.counted.count level.id (by simp [hp])
    rw [refs, hh] at this
    simp only at this
    omega
  have hrun : v.run level.id = none := ha.run_of_none hh (by simp [hq])
  unfold LockView.lockNew
  cases ok with
  | true => exact h.succeed ha hdoing (by simp [hrefs]) (by simp [hrun])
  | false =>
    simp only [Bool.false_eq_true, if_false]
    cases hhow : level.how with
    | acquire =>
      refine h.keep rfl ?_ ⟨hr, hrest⟩
      refine h.counted.change level.id (fun id' hid => by simp [hid]) (fun _ _ => rfl) (fun id' hid => ?_) ?_ ?_ ?_
      · exact ⟨by simp [hp], by simp [Doing.pending, Ne.symm hid]⟩
      · simp
      · simp [Doing.pending]
      · simp [hrefs]
    | tryAcquire => exact h.above hr hq hp
    | tryAcquireOrAppend =>
      refine h.keep rfl ?_ ?_
      · exact h.counted.own hr.1 (by simp [hp]) (fun id' hid => by simp [hid]) (hold_setHold_self ..)
          (by simp [hrefs]) rfl rfl
      · rintro id ⟨rfl⟩
        exact hr.2.1 (hl level mem_cons_self hhow).2

theorem lockUpgrade {hold : Hold} (hh : v.hold level.id = some hold) (ok : Bool) (gen : Nat) :
    (v.lockUpgrade level rest hold ok gen).Held := by
  obtain ⟨⟨hr, hrest⟩, hpend, hq, hl⟩ := h.locking ha hdoing
  have hrefs := h.counted.count_of_hold hh (by simp [hpend])
  have hrun := (ha.run_of_hold hh (by simp [hq])).resolve_right fun hf => hf.1
  -- only the type of the lock info changes
  have hs : ∀ (type : LockType) (id' : LockId),
      ((v.setHold level.id (some ⟨type, hold.ref⟩)).hold id').map Hold.ref = (v.hold id').map Hold.ref := by
    intro type id'
    by_cases hid : id' = level.id
    · subst hid
      simp [hh]
    · simp [hid]
  unfold LockView.lockUpgrade
  split
  · exact h.above hr hq hpend
  next hcheck =>
    rw [Bool.not_eq_false] at hcheck
    have hw : v.run level.id = some .IX ∨ v.run level.id = some .X → level.type = .X := by
      rw [hrun]
      revert hcheck
      cases hold.type <;> cases level.type <;> decide
    cases ok with
    | true => exact h.succeed ha hdoing hrefs hw
    | false =>
      simp only [Bool.false_eq_true, if_false]
      cases hhow : level.how with
      | acquire =>
        exact h.keep rfl (h.counted.keep (hs level.type) rfl hpend.symm) ⟨hr, hrest⟩
      | tryAcquire => exact h.above hr hq hpend
      | tryAcquireOrAppend =>
        refine h.keep rfl (h.counted.keep (hs level.type) rfl ?_) ?_
        · exact (pending_above level.id _).trans hpend.symm
        · refine standing_above rfl (fun p hp => .inr (hr.1 p hp)) ?_
          rintro id ⟨rfl⟩
          exact hr.2.1 (hl level mem_cons_self hhow).2

theorem lock (ok : Bool) (gen : Nat) : (v.lock level rest ok gen).Held := by
  unfold LockView.lock
  cases hh : v.hold level.id with
  | none => exact h.lockNew ha hdoing hh ok gen
  | some hold =>
    simp only
    split
    next hmatch =>
      obtain ⟨⟨hr, hrest⟩, hp, hq, -⟩ := h.locking ha hdoing
      have hrefs := h.counted.count_of_hold hh (by simp [hp])
      have hrun := (ha.run_of_hold hh (by simp [hq])).resolve_right fun hf => hf.1
      refine h.keep rfl ?_ ?_
      · exact h.counted.own hr.1 (by simp [hp]) (fun id' hid => by simp [hid]) (hold_setHold_self ..)
          hrefs rfl (pending_start rest)
      · exact standing_start level.id level.type rfl hq mem_cons_self hrun hmatch hrest
    next => exact h.lockUpgrade ha hdoing hh ok gen

end Locking

theorem release (hdoing : v.session.doing = .releasing id rc) : (v.release id rc).Held := by
  have hs := h.standing
  have hplaced := ha.placed
  rw [Standing, hdoing] at hs
  rw [Placed, hdoing] at hplaced
  obtain ⟨ho, hshield⟩ := hs
  have hpend : v.session.doing.pending = none := by rw [hdoing]; rfl
  unfold LockView.release
  cases hh : v.hold id with
  | none => exact h.keep rfl (h.counted.keep (fun _ => rfl) rfl hpend.symm) hshield
  | some hold =>
    have hm : id ∈ v.session.owned := ho.resolve_left (by simp [hh])
    have hpos := h.counted.pos id hold hh
    have hrefs := h.counted.count_of_hold hh (by simp [hpend])
    have hd := references_disown id hm
    rw [if_pos rfl] at hd
    have hoff : ∀ id', id' ≠ id → references (v.session.disown id).owned id' = references v.session.owned id' := by
      intro id' hid
      have := references_disown id' hm
      rwa [if_neg hid, Nat.add_zero] at this
    have habove : ∀ p, id.parent = some p → p ∈ (v.session.disown id).owned := by
      intro p hp
      simp [Session.disown, hp]
    simp only
    split
    next href =>
      -- there is no reference for a lock beneath
      have he : ∀ b, b ≠ id → id ∈ b.path → v.hold b = none ∨ v.session.doing.pending = some b := by
        intro b hb hid
        by_contra hheld
        rw [not_or] at hheld
        have hb' := h.counted.references_pos hheld.1 hheld.2
        have hmono := references_mono (v.session.disown id).owned hid
        have := hoff b hb
        omega
      refine h.drop ha rfl he ?_ ?_
      · refine h.counted.change id (fun id' hid => by simp [hid]) hoff
          (fun _ _ => ⟨by simp [hpend], by simp⟩) (by simp) (fun _ => ?_) (by simp)
        simp only [refs, hold_setSession, hold_setHold_self, session_setSession]
        show (0 : Int) = references (v.session.disown id).owned id
        omega
      · refine standing_above rfl (fun p hp => .inr (habove p hp)) ?_
        intro id' hq
        have hq' : v.session.queued = some id' := hq
        have hne : id' ≠ id := by
          rintro rfl
          have := hplaced.2 (hplaced.1 id' hq').1
          rw [hq'] at this
          cases this
        exact shielded_drop rfl he hne (ha.hold_of_queued hq') (by simp [hpend]) (hshield id' hq')
    next href =>
      refine h.keep rfl ?_ ?_
      · refine h.counted.change id (fun id' hid => by simp [hid]) hoff
          (fun _ _ => ⟨by simp [hpend], by simp⟩) ?_ (fun _ => ?_) (by simp)
        · simp only [hold_setSession, hold_setHold_self]
          rintro _ ⟨rfl⟩
          simp only
          omega
        · simp only [refs, hold_setSession, hold_setHold_self, session_setSession]
          show hold.ref - 1 + 1 = references (v.session.disown id).owned id
          omega
      · exact standing_above rfl (fun p hp => .inr (habove p hp)) hshield

theorem granted {w : Waiter} (hdoing : v.session.doing = .awake w) : (v.granted w).Held := by
  have hs := h.standing
  have hp := ha.placed
  rw [Standing, hdoing] at hs
  rw [Placed, hdoing] at hp
  obtain ⟨hq, hw⟩ := hp
  unfold LockView.granted
  cases hr : w.resume with
  | waitLockX =>
    simp only [hr] at hs hw
    refine h.grant rfl (fun _ => hs) (by simp [hw.2.1]) (fun _ => hw.2.1) ?_ ?_
    · refine h.counted.keep (fun _ => rfl) rfl ?_
      simp [hdoing, Doing.pending, hr]
    · intro _ hc
      cases hc
  | level last rest =>
    simp only [hr] at hs hw
    obtain ⟨hready, hrest⟩ := hs
    obtain ⟨⟨hold, hh, htype⟩, hrun, hc, -⟩ := hw
    have hpend : ∀ id', id' ≠ w.id → v.session.doing.pending ≠ some id' := by
      intro id' hid
      rw [hdoing]
      cases last <;> simp [Doing.pending, hr, Ne.symm hid]
    have hweak : v.run w.id = some .IX ∨ v.run w.id = some .X → w.type = .X := by
      rw [hrun]
      cases last with
      | none => simp
      | some last =>
        have := hc last rfl
        revert this
        cases last <;> cases w.type <;> decide
    cases last with
    | none =>
      refine h.grant rfl hready.2.1 hready.2.2 hweak ?_ ?_
      · obtain ⟨hrefs, hold', hhold', href⟩ := h.counted.fresh w.id (by simp [hdoing, Doing.pending, hr])
        refine h.counted.own hready.1 hpend (fun _ _ => rfl) hhold' (by rw [href, hrefs]; rfl) rfl ?_
        exact pending_start rest
      · exact standing_start w.id w.type rfl rfl mem_cons_self (run_setRun_self ..)
          (by simp [LockType.isLockMatch]) hrest
    | some last =>
      refine h.grant rfl hready.2.1 hready.2.2 hweak ?_ ?_
      · have hrefs := h.counted.count_of_hold hh (by simp [hdoing, Doing.pending, hr])
        have hn : (((v.setRun w.id (some w.type)).hold w.id).map fun h => (⟨h.type, h.ref + 1⟩ : Hold)) =
            some ⟨hold.type, hold.ref + 1⟩ := by simp [hh]
        refine h.counted.own hready.1 hpend (fun id' hid => by simp [hid]) ((hold_setHold_self ..).trans hn)
          hrefs rfl ?_
        exact pending_start rest
      · exact standing_start w.id w.type rfl rfl mem_cons_self (run_setRun_self ..)
          (by simp [LockType.isLockMatch]) hrest

theorem refused {w : Waiter} (hdoing : v.session.doing = .gaveUp w rc) : (v.refused w rc).Held := by
  have hs := h.standing
  have hplaced := ha.placed
  rw [Standing, hdoing] at hs
  rw [Placed, hdoing] at hplaced
  obtain ⟨⟨hq, hw⟩, hnot⟩ := hplaced
  unfold LockView.refused
  cases hr : w.resume with
  | waitLockX => exact absurd hr (hnot.resolve_left id)
  | level last rest =>
    simp only [hr] at hs hw
    obtain ⟨hready, -⟩ := hs
    obtain ⟨⟨hold, hh, -⟩, -⟩ := hw
    have hn : ∀ {v : LockView} (id' : LockId), (none : Option LockId) = some id' → v.Shielded id' :=
      fun _ hc => by cases hc
    cases last with
    | none =>
      have hpend : v.session.doing.pending = some w.id := by simp [hdoing, Doing.pending, hr]
      have hrefs := (h.counted.fresh w.id hpend).1
      refine h.keep rfl ?_ (standing_above rfl (fun p hp => .inr (hready.1 p hp)) hn)
      refine h.counted.change w.id (fun id' hid => by simp [hid]) (fun _ _ => rfl)
        (fun id' hid => ⟨by simp [hpend, Ne.symm hid], by simp⟩) (by simp) (fun _ => ?_) (by simp)
      simp only [refs, hold_setSession, hold_setHold_self, session_setSession]
      show (0 : Int) = references v.session.owned w.id
      rw [hrefs]
      rfl
    | some last =>
      have hpend : v.session.doing.pending = none := by simp [hdoing, Doing.pending, hr]
      refine h.keep rfl (h.counted.keep (fun id' => ?_) rfl ?_)
        (standing_above rfl (fun p hp => .inr (hready.1 p hp)) hn)
      · by_cases hid : id' = w.id
        · subst hid
          simp [hh]
        · simp [hid]
      · exact (pending_above w.id rc).trans hpend.symm

theorem go (ok : Bool) (gen : Nat) : (v.go ok gen).Held := by
  have hs := h.standing
  have hp := ha.placed
  unfold Standing at hs
  unfold Placed at hp
  unfold LockView.go
  cases hdoing : v.session.doing with
  | idle rc => exact h
  | locking level rest => exact h.lock ha hdoing ok gen
  | finding id =>
    rw [hdoing] at hs hp
    have hpend : v.session.doing.pending = none := by rw [hdoing]; rfl
    cases ok with
    | false => exact h.keep rfl (h.counted.keep (fun _ => rfl) rfl hpend.symm) hs
    | true => exact h.keep rfl (h.counted.keep (fun _ => rfl) rfl hpend.symm) (hs id hp.1)
  | waiting w =>
    rw [hdoing] at hs
    cases ok with
    | false => exact h
    | true =>
      refine h.keep rfl (h.counted.keep (fun _ => rfl) rfl ?_) hs
      rw [hdoing]
      rfl
  | awake w =>
    cases ok with
    | false =>
      rw [hdoing] at hs
      refine h.keep rfl (h.counted.keep (fun _ => rfl) rfl ?_) hs
      rw [hdoing]
      rfl
    | true => exact h.granted ha hdoing
  | gaveUp w rc => exact h.refused ha hdoing
  | releasing id rc => exact h.release ha hdoing

omit ha in
theorem endWait (rc : Rc) : (v.endWait rc).Held := by
  have hs := h.standing
  unfold Standing at hs
  unfold LockView.endWait
  split
  next w hdoing =>
    rw [hdoing] at hs
    refine h.keep rfl (h.counted.keep (fun _ => rfl) rfl ?_) hs
    rw [hdoing]
    rfl
  next => exact h

omit h ha

end Held

/-- The first lock is on the collection space and not S, and each of the others is on the level below. -/
def FromTop : List Level → Prop
  | [] => True
  | level :: rest => (level.id.parent = none ∧ level.type ≠ .S) ∧ Descends level.type level.id rest

theorem fromTop_acquireIS (how : How) {id : LockId} (hid : id.isRecord = false) : FromTop (acquireIS how id) := by
  cases id <;> simp_all [FromTop, Descends, acquireIS, parent, LockId.space, isRecord]

theorem fromTop_acquireIX (how : How) {id : LockId} (hid : id.isRecord = false) : FromTop (acquireIX how id) := by
  cases id <;> simp_all [FromTop, Descends, acquireIX, acquireIS, parent, LockId.space, isRecord]

theorem fromTop_acquireS (how : How) {id : LockId} (hid : id.parent ≠ none) : FromTop (acquireS how id) := by
  cases id <;> simp_all [FromTop, Descends, acquireS, acquireIS, parent, LockId.space]

theorem fromTop_acquireX (how : How) (id : LockId) : FromTop (acquireX how id) := by
  cases id <;> simp [FromTop, Descends, acquireX, acquireIX, acquireIS, parent, LockId.space]

theorem fromTop_tryOrAppendX (id : LockId) : FromTop (tryOrAppendX id) := by
  cases id <;> simp [FromTop, Descends, tryOrAppendX, acquireIX, acquireIS, parent, LockId.space]

theorem standing_fromTop {levels : List Level} (hdoing : v.session.doing = .start levels)
    (hq : v.session.queued = none) (ht : FromTop levels) : v.Standing := by
  unfold Standing
  rw [hdoing]
  cases levels with
  | nil => exact fun id h => by simp [hq] at h
  | cons level rest =>
    obtain ⟨⟨hparent, hS⟩, hr⟩ := ht
    exact ⟨⟨fun p hp => by simp [hparent] at hp, fun _ p hp => by simp [hparent] at hp, fun hS' => absurd hS' hS⟩, hr⟩

end LockView

/-- No S lock on a collection space; and a collection or a collection space is released by a session that has a
reference for it. -/
def LockCall.keepsLevels (owned : List LockId) : LockCall → Bool
  | .acquireS lockId | .tryS lockId => lockId.parent.isSome
  | .release lockId => lockId.isRecord || owned.contains lockId
  | _ => true

namespace LockView

variable {v : LockView}

theorem Counted.mem_owned {id : LockId} (h : v.Counted) (hid : id.isRecord) (hh : v.hold id ≠ none)
    (hp : v.session.doing.pending ≠ some id) : id ∈ v.session.owned := by
  obtain ⟨o, ho, hm⟩ := countP_pos_iff.1 (h.references_pos hh hp)
  rwa [← eq_of_mem_path hid (of_decide_eq_true hm)]

theorem Held.call {c : LockCall} (h : v.Held) (hc : c.keepsLevels v.session.owned) : (v.call c).Held := by
  have hs := h.standing
  unfold Standing at hs
  unfold LockView.call
  split
  next hallows =>
    cases hdoing : v.session.doing with
    | idle rc =>
      rw [hdoing] at hs
      have hp : v.session.doing.pending = none := by rw [hdoing]; rfl
      have hl : ∀ {levels : List Level}, c.start = .start levels → v.session.queued = none → FromTop levels →
          (v.setSession { v.session with doing := c.start }).Held := by
        intro levels hstart hq ht
        refine h.keep rfl (h.counted.keep (fun _ => rfl) rfl ?_) (standing_fromTop hstart hq ht)
        rw [session_setSession, hstart, pending_start, hp]
      have hq : (∀ id, c ≠ .wait id) → v.session.queued = none ∧ c.asserted = true := by
        intro hne
        cases hq : v.session.queued <;> cases c <;> simp_all [Session.allows]
      cases c with
      | wait id => exact h.keep rfl (h.counted.keep (fun _ => rfl) rfl hp.symm) hs
      | release id =>
        refine h.keep rfl (h.counted.keep (fun _ => rfl) rfl hp.symm) ⟨?_, hs⟩
        by_cases hh : v.hold id = none
        · exact .inl hh
        · rcases Bool.or_eq_true_iff.1 hc with hid | hid
          · exact .inr (h.counted.mem_owned hid hh (by simp [hp]))
          · exact .inr (contains_iff_mem.1 hid)
      | acquireX id | tryX id => exact hl rfl (hq (by simp)).1 (fromTop_acquireX _ id)
      | acquireS id | tryS id => exact hl rfl (hq (by simp)).1 (fromTop_acquireS _ (isSome_iff_ne_none.1 hc))
      | acquireIX id | tryIX id =>
        exact hl rfl (hq (by simp)).1 (fromTop_acquireIX _ (by simpa [LockCall.asserted] using (hq (by simp)).2))
      | acquireIS id | tryIS id =>
        exact hl rfl (hq (by simp)).1 (fromTop_acquireIS _ (by simpa [LockCall.asserted] using (hq (by simp)).2))
      | tryOrAppendX id => exact hl rfl (hq (by simp)).1 (fromTop_tryOrAppendX id)
    | locking _ _ | finding _ | waiting _ | awake _ | gaveUp _ _ | releasing _ _ =>
      simp [Session.allows, hdoing] at hallows
  next => exact h

end LockView

/-! ### Runs -/

namespace LockSystem

variable {n : Nat} {s : LockSystem n}

def keepsLevels (s : LockSystem n) : LockAct n → Bool
  | .call t c => c.keepsLevels (s.sessions t).owned
  | .go _ | .timeout _ | .interrupt _ => true

/-- The type that a session was granted: the one in its lock info, or the entry in the run list if the session waits
for the lock. -/
def grantedType (s : LockSystem n) (t : Fin n) (id : LockId) : Option LockType :=
  if (s.sessions t).queued = some id then s.runEntry id t else (s.infos t id).map LockInfo.type

theorem held_initial (t : Fin n) : ((LockSystem.initial : LockSystem n).view t).Held where
  counted :=
    { pos := fun _ _ h => nomatch h
      count := fun _ _ => rfl
      fresh := fun _ h => nomatch h }
  cover _ h := by cases h
  space _ _ h := by cases h
  standing _ h := by cases h

theorem held_step {up : Prop} {a : LockAct n} (ha : ∀ t, (s.view t).Agrees False up) (hl : s.keepsLevels a)
    (h : ∀ t, (s.view t).Held) (t : Fin n) : ((s.step a).view t).Held := by
  refine view_step a ?_ (fun t gen _ ht => ht.go (ha t) _ _) (fun t rc _ ht => ht.endWait rc) h t
  rintro t c rfl ht
  exact ht.call hl

theorem grantedType_eq {up : Prop} {t : Fin n} (h : (s.view t).Agrees False up) (id : LockId) :
    s.grantedType t id = s.runEntry id t := by
  unfold grantedType
  split
  · rfl
  next hq =>
    rcases h.free id hq with hr | ⟨hf, -⟩
    · rw [show s.runEntry id t = (s.view t).run id from rfl, hr, view, Option.map_map]
      rfl
    · exact hf.elim

theorem runEntry_above {up : Prop} {t : Fin n} {a b : LockId} (ha : (s.view t).Agrees False up) (h : (s.view t).Held)
    (hab : a ∈ b.path) (hb : s.runEntry b t ≠ none) : s.runEntry a t ≠ none := by
  obtain ⟨hh, hp⟩ := ha.hold_of_run (show (s.view t).run b ≠ none from hb)
  cases hr : a.isRecord with
  | true => rwa [← eq_of_mem_path hr hab]
  | false =>
    obtain ⟨hhold', hpending'⟩ := h.counted.above hab hh hp
    exact ha.run_of_hold_ne_none hr hhold' hpending'

end LockSystem

/-- If no session locks a collection space by S, releases a collection or a collection space that it has no reference
for, or fails to wait behind `tryOrAppendX`, then an X lock excludes all locks of other sessions at the id and
beneath it, and an S lock excludes their X locks. -/
theorem lockSafety {n : Nat} (as : List (LockAct n))
    (has : Meets (fun s a => s.waitsOut a = true ∧ s.keepsLevels a = true) LockSystem.step .initial as) :
    let s := run LockSystem.step .initial as
    ∀ t u a b, t ≠ u → a ∈ b.path →
      (s.grantedType t a = some .X → s.grantedType u b = none) ∧
        (s.grantedType t a = some .S → s.grantedType u b ≠ some .X) := by
  intro s
  obtain ⟨hagrees, hheld⟩ : (∀ t, (s.view t).Agrees False True) ∧ ∀ t, (s.view t).Held :=
    run_invariant (I := fun s => (∀ t, (s.view t).Agrees False True) ∧ ∀ t, (s.view t).Held)
      (fun s a h ha => ⟨agrees_step (.inr ha.1) (.inl trivial) h.1, held_step h.1 ha.2 h.2⟩)
      ⟨agrees_initial, held_initial⟩ has
  have hcompatible : s.RunsCompatible := runsCompatible_run as
  intro t u a b htu hab
  rw [grantedType_eq (hagrees t), grantedType_eq (hagrees u)]
  constructor
  · intro hX
    by_contra hb
    obtain ⟨type, htype⟩ := ne_none_iff_exists'.1 (runEntry_above (hagrees u) (hheld u) hab hb)
    have := hcompatible a t u .X type htu hX htype
    revert this
    cases type <;> decide
  · intro hS hb
    have hshield := (hheld u).cover b hb
    -- the lock of `u` at `a` is IX or X
    obtain ⟨type, htype, hor⟩ : ∃ type, s.runEntry a u = some type ∧ (type = .IX ∨ type = .X) := by
      have hspace : a.parent ≠ none := fun hparent => (hheld t).space a hparent hS
      rcases eq_or_parent_of_mem_path hspace hab with rfl | hparent
      · exact ⟨.X, hb, .inr rfl⟩
      · rcases hshield a hparent with hIX | hX
        · exact ⟨.IX, hIX, .inl rfl⟩
        · exact ⟨.X, hX, .inr rfl⟩
    have := hcompatible a t u .S type htu hS htype
    revert this
    rcases hor with rfl | rfl <;> decide

-- for the numerals of the runs below
local instance neZero_safety : NeZero 2 := ⟨two_ne_zero⟩

def twoRecords : List (LockAct 2) :=
  [.call 0 (.acquireX someRecord), .go 0, .go 0, .go 0, .call 1 (.acquireS (.record 1 2 3 8)), .go 1, .go 1, .go 1,
    .call 1 (.acquireS someRecord), .go 1, .go 1, .go 1]

theorem lockSafety_twoRecords :
    Meets (fun s a => s.waitsOut a = true ∧ s.keepsLevels a = true) LockSystem.step .initial twoRecords ∧
      (run LockSystem.step .initial twoRecords).grantedType 0 someRecord = some .X ∧
      (run LockSystem.step .initial twoRecords).grantedType 1 someRecord = none := by
  have hmeets : Meets (fun s a => s.waitsOut a = true ∧ s.keepsLevels a = true) LockSystem.step .initial
      twoRecords := by decide +kernel
  have hX : (run LockSystem.step .initial twoRecords).grantedType 0 someRecord = some .X := by decide +kernel
  exact ⟨hmeets, hX, ((lockSafety twoRecords hmeets) 0 1 someRecord someRecord (by decide) (by decide)).1 hX⟩

def sharedSpace : List (LockAct 2) :=
  [.call 0 (.acquireX someRecord), .go 0, .go 0, .go 0, .call 1 (.acquireS (.collectionSpace 1)), .go 1]

def releasedCollection : List (LockAct 2) :=
  [.call 0 (.acquireX someRecord), .go 0, .go 0, .go 0, .call 0 (.release (.collection 1 2)), .go 0, .go 0,
    .call 1 (.acquireX (.collection 1 2)), .go 1, .go 1]

def lockedAgain : List (LockAct 2) :=
  timedOut ++ [.call 1 (.acquireX someRecord), .go 1, .go 1, .go 1]

/-- In each of the three runs both locks are granted. -/
theorem lockSafety_sharedSpace :
    (run LockSystem.step .initial sharedSpace).grantedType 0 someRecord = some .X ∧
      (run LockSystem.step .initial sharedSpace).grantedType 1 (.collectionSpace 1) = some .S ∧
      LockId.collectionSpace 1 ∈ someRecord.path ∧
      (run LockSystem.step .initial releasedCollection).grantedType 0 someRecord = some .X ∧
      (run LockSystem.step .initial releasedCollection).grantedType 1 (.collection 1 2) = some .X ∧
      LockId.collection 1 2 ∈ someRecord.path ∧
      (run LockSystem.step .initial lockedAgain).grantedType 0 someRecord = some .X ∧
      ((run LockSystem.step .initial lockedAgain).sessions 1).doing = .idle .ok ∧
      (run LockSystem.step .initial lockedAgain).grantedType 1 someRecord = some .X := by
  decide +kernel

end SequoiaDB.Dps
