import SequoiaDB.Dms.LobOps
import SequoiaDB.Lib.Run

/-!
# Runs of LOB operations

The directory stays in order along every run of writes, updates, write-or-updates, removals and truncations in which no
removal is cut short: `_removePage` has already led the chain past the page when it asks for the page behind, and leaves
it so if that page is not to be had.  `rebuildBME` makes the directory anew from the blocks, but takes a page for empty
if its block is that of the piece 0 of the object 0 of the first collection with no data (`isUndefined`).
-/

namespace SequoiaDB.Dms

open Lib LobStore List LobEnv

variable {E : LobEnv} {s s' : LobStore} {mb page : Nat} {fails : LobCheck → Bool}

theorem LobStore.Alike.isUndefined {pages : Finset Nat} (h : Alike s s' pages) {p : Nat} (hp : p ∈ pages) :
    (s'.blk p).isUndefined ↔ (s.blk p).isUndefined := by
  rw [h.blk p hp]
  rfl

section Truncate

theorem Directory.clLogicalID_eq_iff (h : Directory E s) (hmb : mb ∈ E.mbs) (hp : page ∈ s.used) :
    E.logicalID mb = (s.blk page).clLogicalID ↔ (s.blk page).mbID = mb := by
  obtain ⟨hm, hcl⟩ := h.owner page hp
  rw [hcl]
  exact ⟨fun e => (E.logicalID_inj hmb hm e).symm, fun e => by rw [e]⟩

theorem Directory.truncatePages (h : Directory E s) (hdef : ∀ p ∈ s.used, ¬ (s.blk p).isUndefined) (hmb : mb ∈ E.mbs)
    {pages : List Nat} (ht : E.truncatePages mb fails pages s = some s') :
    Directory E s' ∧ s'.used ⊆ s.used ∧ Alike s s' s'.used ∧ ∀ p ∈ s'.used, p ∈ pages → (s.blk p).mbID ≠ mb := by
  induction pages generalizing s with
  | nil =>
    cases ht
    exact ⟨h, Finset.Subset.refl _, Alike.refl _ _, nofun⟩
  | cons cur pages ih =>
    have hpass (ht : E.truncatePages mb fails pages s = some s') (hne : cur ∈ s.used → (s.blk cur).mbID ≠ mb) :
        Directory E s' ∧ s'.used ⊆ s.used ∧ Alike s s' s'.used ∧
          ∀ p ∈ s'.used, p ∈ cur :: pages → (s.blk p).mbID ≠ mb := by
      obtain ⟨hd, hsub, ha, hmbs⟩ := ih h hdef ht
      refine ⟨hd, hsub, ha, fun p hp hm => ?_⟩
      obtain rfl | hm := mem_cons.1 hm
      · exact hne (hsub hp)
      · exact hmbs p hp hm
    unfold truncatePages at ht
    dsimp only at ht
    by_cases hc : cur ∈ s.used
    · rw [if_neg (not_not.2 hc)] at ht
      by_cases hf : fails (.truncateExtent cur) = true
      · rw [if_pos hf] at ht
        cases ht
      rw [if_neg hf] at ht
      by_cases hs : (s.blk cur).isUndefined ∨ E.logicalID mb ≠ (s.blk cur).clLogicalID
      · -- a page of another collection is passed over
        rw [if_pos hs] at ht
        refine hpass ht fun _ e => ?_
        exact (hs.resolve_left (hdef cur hc)) ((h.clLogicalID_eq_iff hmb hc).2 e)
      · rw [if_neg hs] at ht
        have ho : (s.blk cur).mbID = mb :=
          (h.clLogicalID_eq_iff hmb hc).1 (not_not.1 fun hne => hs (.inr hne))
        by_cases hrc : (E.removePage s mb cur none fails).1 ≠ .ok
        · rw [if_pos hrc] at ht
          cases ht
        rw [if_neg hrc] at ht
        obtain ⟨t, he, hr⟩ | ⟨hne, -⟩ | ⟨hne, -⟩ := h.removePage fails (b := none) hc ho rfl
        · rw [he] at ht
          have hsub' : t.used ⊆ s.used := hr.used ▸ Finset.erase_subset ..
          have hat : Alike s t t.used := hr.used ▸ hr.alike
          have hdef' : ∀ p ∈ t.used, ¬ (t.blk p).isUndefined := fun p hp => by
            rw [hat.isUndefined hp]
            exact hdef p (hsub' hp)
          obtain ⟨hd, hsub, ha, hmbs⟩ := ih hr.directory hdef' ht
          refine ⟨hd, hsub.trans hsub', (hat.mono hsub).trans ha, fun p hp hm => ?_⟩
          obtain rfl | hm := mem_cons.1 hm
          · have := hsub hp
            rw [hr.used] at this
            exact absurd this (Finset.notMem_erase _ _)
          · rw [← hat.mbID (hsub hp)]
            exact hmbs p hp hm
        · exact absurd hne hrc
        · exact absurd hne hrc
    · rw [if_pos hc] at ht
      exact hpass ht fun hm => absurd hm hc

theorem Directory.truncate (h : Directory E s) (hdef : ∀ p ∈ s.used, ¬ (s.blk p).isUndefined) (hmb : mb ∈ E.mbs)
    {dps : Bool} {rc : Rc} (ht : E.truncate s mb dps fails = some (rc, s')) : Directory E s' := by
  unfold LobEnv.truncate at ht
  by_cases hp : fails .prepare = true
  · rw [if_pos hp] at ht
    cases ht
    exact h
  rw [if_neg hp, Option.bind_eq_some_iff] at ht
  obtain ⟨t, htp, ht⟩ := ht
  obtain ⟨hd, hs, ha, hm⟩ := h.truncatePages hdef hmb htp
  by_cases hl : dps = true ∧ fails .prepareLog = true
  · rw [if_pos hl] at ht
    cases ht
  rw [if_neg hl] at ht
  cases ht
  -- no page of the collection is left, so that its counters were 0 before they are set
  have hn : ∀ p ∈ t.used, (t.blk p).mbID ≠ mb := fun p hp => by
    rw [ha.mbID hp]
    exact hm p hp (mem_range.2 (h.lt p (hs hp)))
  have hstat : (t.setStat mb fun _ => ⟨0, 0⟩).stat = t.stat := by
    have hpages : t.pagesOf mb = 0 :=
      Finset.card_eq_zero.2 (Finset.filter_eq_empty_iff.2 fun p hp => hn p hp)
    have hlobs : t.lobsOf mb = 0 :=
      Finset.card_eq_zero.2 (Finset.filter_eq_empty_iff.2 fun p hp e => hn p hp e.1)
    have : t.stat mb = ⟨0, 0⟩ := by rw [hd.stat, hpages, hlobs]
    exact (congrArg (Function.update t.stat mb) this.symm).trans (Function.update_eq_self mb t.stat)
  have hset : Directory E (t.setStat mb fun _ => ⟨0, 0⟩) :=
    hd.congr rfl rfl hstat (Nat.le_refl _) (fun _ _ => rfl) hd.len_le
  exact hset.append ..

end Truncate

section Rebuild

variable {t : LobStore} {k : Nat}

/-- In the middle of `rebuildBME`: the pages below `k` are linked again and counted, those that look undefined are
released. -/
structure Rebuilt (E : LobEnv) (s t : LobStore) (k : Nat) : Prop where
  used : t.used = s.used.filter fun p => ¬ (p < k ∧ (s.blk p).isUndefined)
  alike : Alike s t s.used
  chains : ∃ chain, Chains E t (t.used.filter (· < k)) chain
  stat : ∀ mb, t.stat mb = ⟨((t.used.filter (· < k)).filter fun p =>
      (t.blk p).mbID = mb ∧ (t.blk p).sequence = lobMetaSequence).card,
    ((t.used.filter (· < k)).filter fun p => (t.blk p).mbID = mb).card⟩
  pageNum : t.pageNum = s.pageNum
  log : t.log = s.log

namespace Rebuilt

variable (h : Rebuilt E s t k)

include h

theorem mem_used {p : Nat} : p ∈ t.used ↔ p ∈ s.used ∧ ¬ (p < k ∧ (s.blk p).isUndefined) := by
  rw [h.used, Finset.mem_filter]

theorem mem_of_le {p : Nat} (hk : k ≤ p) : p ∈ t.used ↔ p ∈ s.used := by
  rw [h.mem_used]
  exact and_iff_left fun hp => absurd hp.1 (Nat.not_lt.2 hk)

theorem skip (hk : k ∉ t.used) : Rebuilt E s t (k + 1) := by
  have hlt : t.used.filter (· < k + 1) = t.used.filter (· < k) := by
    refine Finset.filter_congr fun p hp => ?_
    have : p ≠ k := ne_of_mem_of_not_mem hp hk
    omega
  refine ⟨?_, h.alike, hlt ▸ h.chains, hlt ▸ h.stat, h.pageNum, h.log⟩
  rw [h.used]
  refine Finset.filter_congr fun p hp => ?_
  have : p ≠ k := fun e => hk ((h.mem_of_le (Nat.le_of_eq e.symm)).2 (e ▸ hp) |> fun hm => e ▸ hm)
  have hi : p < k ↔ p < k + 1 := by omega
  rw [hi]

theorem release (hk : (s.blk k).isUndefined) : Rebuilt E s { t with used := t.used.erase k } (k + 1) := by
  have hlt : (t.used.erase k).filter (· < k + 1) = t.used.filter (· < k) := by
    ext p
    simp only [Finset.mem_filter, Finset.mem_erase]
    exact ⟨fun ⟨⟨hne, hp⟩, hlt⟩ => ⟨hp, by omega⟩, fun ⟨hp, hlt⟩ => ⟨⟨by omega, hp⟩, by omega⟩⟩
  refine ⟨?_, ⟨h.alike.blk, h.alike.data⟩, ?_, ?_, h.pageNum, h.log⟩
  · change t.used.erase k = _
    ext p
    rw [Finset.mem_erase, h.mem_used, Finset.mem_filter]
    by_cases hp : p = k
    · simp [hp, hk]
    · have hi : p < k ↔ p < k + 1 := by omega
      simp [hp, hi]
  · obtain ⟨chain, hc⟩ := h.chains
    exact ⟨chain, hlt.symm ▸ hc.congr rfl fun _ _ => rfl⟩
  · intro mb
    simp only [hlt]
    exact h.stat mb

theorem push (hd : Directory E s) (hk : k ∈ t.used) (hdef : ¬ (s.blk k).isUndefined) (fails : LobCheck → Bool) :
    (∃ t', t.push2Bucket (E.bucketOf (t.blk k)) k (t.blk k).oid (t.blk k).sequence fails = (.ok, t') ∧
        Rebuilt E s (t'.setStat (t.blk k).mbID fun st =>
          ⟨if (t.blk k).sequence = lobMetaSequence then st.totalLobs + 1 else st.totalLobs, st.totalLobPages + 1⟩)
          (k + 1)) ∨
      ((t.push2Bucket (E.bucketOf (t.blk k)) k (t.blk k).oid (t.blk k).sequence fails).1 ≠ .ok ∧
        ¬ ∀ c, fails c = false) := by
  obtain ⟨chain, hc⟩ := h.chains
  have hks : k ∈ s.used := (h.mem_used.1 hk).1
  have hmem {p : Nat} (hp : p ∈ t.used.filter (· < k)) : p ∈ s.used ∧ p < k :=
    ⟨(h.mem_used.1 (Finset.mem_filter.1 hp).1).1, (Finset.mem_filter.1 hp).2⟩
  have hn : k ∉ t.used.filter (· < k) := fun hm => absurd (hmem hm).2 (Nat.lt_irrefl k)
  have hlt : ∀ p ∈ t.used.filter (· < k), p < t.pageNum := fun p hp => by
    rw [h.pageNum]
    exact hd.lt p (hmem hp).1
  have hi : t.used.filter (· < k + 1) = insert k (t.used.filter (· < k)) := by
    ext p
    simp only [Finset.mem_filter, Finset.mem_insert]
    constructor
    · rintro ⟨hp, hpk⟩
      by_cases hpe : p = k
      · exact .inl hpe
      · exact .inr ⟨hp, by omega⟩
    · rintro (rfl | ⟨hp, hpk⟩)
      · exact ⟨hk, by omega⟩
      · exact ⟨hp, by omega⟩
  obtain ⟨t', hpush, hl, ⟨chain', hc'⟩, -, -⟩ | ⟨hrc, -, hdup⟩ :=
    hc.push (t.blk k).oid (t.blk k).sequence fails hlt hn rfl
  · have ha := hl.alike s.used
    have hst := h.alike.trans ha
    have hused : t'.used.filter (· < k + 1) = insert k (t.used.filter (· < k)) := by rw [hl.used, hi]
    refine .inl ⟨t', hpush, ?_, ⟨hst.blk, hst.data⟩, ⟨chain', ?_⟩, fun mb => ?_, hl.pageNum.trans h.pageNum,
      hl.log.trans h.log⟩
    · change t'.used = _
      rw [hl.used, h.used]
      refine Finset.filter_congr fun p _ => not_congr (and_congr_left fun hu => ?_)
      have : p ≠ k := fun e => hdef (e ▸ hu)
      omega
    · change Chains E _ (t'.used.filter (· < k + 1)) chain'
      rw [hused]
      exact hc'.congr rfl fun _ _ => rfl
    · have hb : Alike t t' (t.used.filter (· < k)) := ha.mono fun _ hp => (hmem hp).1
      change (t'.setStat (t.blk k).mbID _).stat mb = t'.counted (t'.used.filter (· < k + 1)) mb
      rw [hused, counted_insert t' hn, hb.counted, ha.mbID hks, ha.sequence hks, setStat, hl.stat,
        show t.stat = t.counted (t.used.filter (· < k)) from funext h.stat]
  · refine .inr ⟨hrc, fun hno => ?_⟩
    obtain ⟨q, hq, hkey⟩ := hdup hno
    obtain ⟨hqs, hqk⟩ := hmem hq
    have : q = k := by
      refine hd.key_inj q hqs k hks ?_
      rw [← h.alike.key hqs, ← h.alike.key hks]
      exact hkey
    omega

theorem rebuildPages (hd : Directory E s) (fails : LobCheck → Bool) (n : Nat) :
    ((E.rebuildPages fails (range' k n) t).1 = .ok → Rebuilt E s (E.rebuildPages fails (range' k n) t).2 (k + n)) ∧
      ((∀ c, fails c = false) → (E.rebuildPages fails (range' k n) t).1 = .ok) := by
  induction n generalizing k t with
  | zero => exact ⟨fun _ => h, fun _ => rfl⟩
  | succ n ih =>
    rw [range'_succ]
    unfold rebuildPages
    dsimp only
    have hs : k + (n + 1) = k + 1 + n := by omega
    rw [hs]
    by_cases hk : k ∈ t.used
    · rw [if_neg (not_not.2 hk)]
      have hks : k ∈ s.used := (h.mem_used.1 hk).1
      by_cases hf : fails (.rebuildExtent k) = true
      · rw [if_pos hf]
        exact ⟨fun e => absurd e (by simp), fun hno => by simp [hno] at hf⟩
      rw [if_neg hf]
      by_cases hu : (s.blk k).isUndefined
      · rw [if_pos (.inr (.inl ((h.alike.isUndefined hks).2 hu)))]
        exact ih (h.release hu)
      · have hdef : ¬ (mmeSlots ≤ (t.blk k).mbID ∨ (t.blk k).isUndefined ∨
            E.logicalID (t.blk k).mbID ≠ (t.blk k).clLogicalID) := by
          rw [h.alike.isUndefined hks, h.alike.blk k hks]
          obtain ⟨hm, hcl⟩ := hd.owner k hks
          rintro (hslots | hu' | hne)
          · exact absurd (E.mbs_lt hm) (Nat.not_lt.2 hslots)
          · exact hu hu'
          · exact hne hcl.symm
        rw [if_neg hdef]
        obtain ⟨t', hp, h'⟩ | ⟨hrc, hfault⟩ := h.push hd hk hu fails
        · rw [hp, if_neg (by simp)]
          exact ih h'
        · rw [if_pos hrc]
          exact ⟨fun e => absurd e hrc, fun hno => absurd hno hfault⟩
    · rw [if_pos hk]
      exact ih (h.skip hk)

omit h

theorem directory (h : Rebuilt E s t s.pageNum) (hd : Directory E s) :
    Directory E t ∧ t.used = s.used.filter fun p => ¬ (s.blk p).isUndefined := by
  have hm {p : Nat} (hp : p ∈ t.used) : p ∈ s.used := (h.mem_used.1 hp).1
  have ha : t.used.filter (· < s.pageNum) = t.used :=
    Finset.filter_eq_self.2 fun p hp => hd.lt p (hm hp)
  have hc := h.chains
  have hs := h.stat
  rw [ha] at hc hs
  refine ⟨hd.of_subset (fun _ => hm) (h.alike.mono fun _ => hm) h.pageNum.ge hc (funext hs), ?_⟩
  rw [h.used]
  refine Finset.filter_congr fun p hp => not_congr ?_
  exact and_iff_right (hd.lt p hp)

end Rebuilt

/-- **Rebuilding.**  The directory is made again, without the pages that look undefined. -/
theorem Directory.rebuildBME (h : Directory E s) (fails : LobCheck → Bool) :
    ((E.rebuildBME s fails).1 = .ok → Directory E (E.rebuildBME s fails).2 ∧
        (E.rebuildBME s fails).2.used = (s.used.filter fun p => ¬ (s.blk p).isUndefined) ∧
        Alike s (E.rebuildBME s fails).2 s.used) ∧
      ((∀ c, fails c = false) → (E.rebuildBME s fails).1 = .ok) := by
  have hi : Rebuilt E s { s with bucket := fun _ => none, stat := fun _ => ⟨0, 0⟩ } 0 := by
    refine ⟨?_, ⟨fun _ _ => rfl, fun _ _ => rfl⟩, ⟨fun _ => [], ?_, ?_, ?_, ?_⟩, ?_, rfl, rfl⟩
    · simp
    · exact fun _ => rfl
    · exact fun _ => trivial
    · exact fun _ => nodup_nil
    · simp
    · simp
  obtain ⟨hok, hno⟩ := hi.rebuildPages h fails s.pageNum
  rw [Nat.zero_add] at hok
  rw [LobEnv.rebuildBME, List.range_eq_range']
  refine ⟨fun hrc => ?_, hno⟩
  obtain ⟨hd, hu⟩ := (hok hrc).directory h
  exact ⟨hd, hu, (hok hrc).alike⟩

end Rebuild

section Run

/-- An operation on the pieces of a collection of the space. -/
inductive LobOp (E : LobEnv)
  | write (mb : E.mbs) (r : LobRecord) (dps : Bool)
  | update (mb : E.mbs) (r : LobRecord) (dps : Bool)
  | writeOrUpdate (mb : E.mbs) (r : LobRecord) (dps : Bool)
  | remove (mb : E.mbs) (oid : BitVec 96) (sequence : Nat) (dps : Bool)
  | truncate (mb : E.mbs) (dps : Bool)

def LobOp.exec (s : LobStore) (fails : LobCheck → Bool) : LobOp E → Option (Rc × LobStore)
  | write mb r dps => some (E.write s mb r dps fails)
  | update mb r dps => some (E.update s mb r dps fails)
  | writeOrUpdate mb r dps => some (E.writeOrUpdate s mb r dps fails)
  | remove mb oid sequence dps => E.remove s mb oid sequence dps fails
  | truncate mb dps => E.truncate s mb dps fails

def LobOp.Complete (s : LobStore) (fails : LobCheck → Bool) : LobOp E → Prop
  | remove mb oid sequence dps => ¬ E.RemovalCut s mb oid sequence dps fails
  | _ => True

/-- One step of a run: an operation, with the checks at which it finds an error.  A panic ends the run. -/
def LobEnv.step (E : LobEnv) (o : Option LobStore) (a : LobOp E × (LobCheck → Bool)) : Option LobStore :=
  o.bind fun s => (a.1.exec s a.2).map Prod.snd

structure LobStore.Fresh (s : LobStore) : Prop where
  used : s.used = ∅
  bucket : s.bucket = fun _ => none
  stat : s.stat = fun _ => ⟨0, 0⟩

def LobStore.Defined (s : LobStore) : Prop := ∀ p ∈ s.used, ¬ (s.blk p).isUndefined

instance (s : LobStore) : Decidable s.Defined := inferInstanceAs (Decidable (∀ p ∈ s.used, _))

theorem LobStore.Fresh.directory (h : s.Fresh) : Directory E s where
  chains := ⟨fun _ => [], by simp [h.bucket], fun _ => trivial, fun _ => nodup_nil, by simp [h.used]⟩
  key_inj := by simp [h.used]
  owner := by simp [h.used]
  lt := by simp [h.used]
  len_le := by simp [h.used]
  stat := by simp [h.stat, lobsOf, pagesOf, h.used]

/-- **One operation.**  The directory stays in order if and only if the operation is not a removal that is cut short. -/
theorem Directory.exec_iff (h : Directory E s) (hd : s.Defined) {a : LobOp E} {rc : Rc}
    (ha : a.exec s fails = some (rc, s')) : Directory E s' ↔ a.Complete s fails := by
  cases a with
  | write mb r dps =>
    obtain rfl : (E.write s mb r dps fails).2 = s' := congrArg Prod.snd (Option.some.inj ha)
    exact iff_of_true (h.writeInner mb.2 r dps false fails) trivial
  | update mb r dps =>
    obtain rfl : (E.update s mb r dps fails).2 = s' := congrArg Prod.snd (Option.some.inj ha)
    exact iff_of_true (h.update mb r dps fails) trivial
  | writeOrUpdate mb r dps =>
    obtain rfl : (E.writeOrUpdate s mb r dps fails).2 = s' := congrArg Prod.snd (Option.some.inj ha)
    exact iff_of_true (h.writeInner mb.2 r dps true fails) trivial
  | remove mb oid seq dps => exact h.remove mb.2 oid seq dps ha
  | truncate mb dps => exact iff_of_true (h.truncate hd mb.2 ha) trivial

theorem Directory.complete_of_none (h : Directory E s) {a : LobOp E} (ha : a.exec s fails = none) :
    a.Complete s fails := by
  cases a with
  | remove mb oid seq dps =>
    intro hc
    obtain ⟨rc, s', he⟩ := h.remove_of_removalCut hc
    cases he.symm.trans ha
  | _ => trivial

/-- The directory is a map: it is in order, `_find` tells for every piece on which page it is stored, and `rebuildBME`
makes the same directory. -/
structure LobMap (E : LobEnv) (s : LobStore) : Prop where
  directory : Directory E s
  find : ∀ (mb : E.mbs) oid sequence fails found, E.find s mb oid sequence fails = .ok found →
    ∀ page, found = some page ↔ page ∈ s.used ∧ (s.blk page).key = ⟨E.logicalID mb, oid, sequence⟩
  find_ok : ∀ (mb : E.mbs) oid sequence fails, (∀ c, fails c = false) → ∃ found, E.find s mb oid sequence fails = .ok found
  rebuild : ∀ fails, (E.rebuildBME s fails).1 = .ok → Directory E (E.rebuildBME s fails).2 ∧
    (∀ (mb : E.mbs) oid sequence, E.find (E.rebuildBME s fails).2 mb oid sequence (fun _ => false) =
      E.find s mb oid sequence fun _ => false) ∧ (E.rebuildBME s fails).2.stat = s.stat
  rebuild_ok : ∀ fails, (∀ c, fails c = false) → (E.rebuildBME s fails).1 = .ok

theorem Directory.find_iff (h : Directory E s) {oid : BitVec 96} {seq : Nat} {found : Option Nat}
    (hf : E.find s mb oid seq fails = .ok found) (page : Nat) :
    found = some page ↔ page ∈ s.used ∧ (s.blk page).key = ⟨E.logicalID mb, oid, seq⟩ := by
  constructor
  · rintro rfl
    exact h.find_some hf
  · rintro ⟨hpage, hk⟩
    match found, hf with
    | none, hf => exact absurd hk (h.find_none hf page hpage)
    | some p, hf =>
      obtain ⟨hp, hk'⟩ := h.find_some hf
      rw [h.key_inj p hp page hpage (hk'.trans hk.symm)]

theorem Directory.find_congr (h : Directory E s) (h' : Directory E s') (hu : s'.used = s.used)
    (ha : Alike s s' s.used) (hno : ∀ c, fails c = false) (mb : Nat) (oid : BitVec 96) (seq : Nat) :
    E.find s' mb oid seq fails = E.find s mb oid seq fails := by
  obtain ⟨found, hf⟩ := h.find_ok mb oid seq fun q => hno (.findExtent q)
  obtain ⟨found', hf'⟩ := h'.find_ok mb oid seq fun q => hno (.findExtent q)
  rw [hf, hf']
  refine congrArg _ (Option.ext fun page => ?_)
  rw [h.find_iff hf, h'.find_iff hf', hu]
  refine and_congr_right fun hp => ?_
  rw [ha.key hp]

theorem lobMap_iff : LobMap E s ↔ Directory E s ∧ s.Defined := by
  constructor
  · intro h
    refine ⟨h.directory, fun p hp hu => ?_⟩
    -- the piece that looks undefined is found before the rebuilding, and not after it
    obtain ⟨hm, hcl⟩ := h.directory.owner p hp
    have hok := h.rebuild_ok (fun _ => false) fun _ => rfl
    obtain ⟨-, hfind, -⟩ := h.rebuild (fun _ => false) hok
    obtain ⟨hd, hused, -⟩ := (h.directory.rebuildBME fun _ => false).1 hok
    have hs := hfind ⟨_, hm⟩ (s.blk p).oid (s.blk p).sequence
    obtain ⟨found, hf⟩ := h.find_ok ⟨_, hm⟩ (s.blk p).oid (s.blk p).sequence (fun _ => false) fun _ => rfl
    have hp' : found = some p := by
      rw [h.directory.find_iff hf]
      refine ⟨hp, ?_⟩
      rw [LobBlk.key, hcl]
    rw [hf, hp'] at hs
    have hmem := (hd.find_some hs).1
    rw [hused, Finset.mem_filter] at hmem
    exact hmem.2 hu
  · rintro ⟨h, hdef⟩
    have hused {fails : LobCheck → Bool} (hok : (E.rebuildBME s fails).1 = .ok) :
        (E.rebuildBME s fails).2.used = s.used := by
      rw [((h.rebuildBME fails).1 hok).2.1]
      exact Finset.filter_eq_self.2 hdef
    refine ⟨h, fun mb oid seq fails found hf => h.find_iff hf,
      fun mb oid seq fails hno => h.find_ok mb oid seq fun q => hno _,
      fun fails hok => ?_, fun fails hno => (h.rebuildBME fails).2 hno⟩
    obtain ⟨hd, -, ha⟩ := (h.rebuildBME fails).1 hok
    refine ⟨hd, fun mb oid seq => h.find_congr hd (hused hok) ha (fun _ => rfl) mb oid seq, ?_⟩
    calc (E.rebuildBME s fails).2.stat = (E.rebuildBME s fails).2.counted (E.rebuildBME s fails).2.used := funext hd.stat
      _ = s.counted s.used := by rw [hused hok, ha.counted]
      _ = s.stat := (funext h.stat).symm

private theorem run_none (as : List (LobOp E × (LobCheck → Bool))) : run E.step none as = none := by
  induction as with
  | nil => rfl
  | cons a as ih => exact ih

private theorem meets_none {ok : Option LobStore → LobOp E × (LobCheck → Bool) → Prop} (hok : ∀ a, ok none a)
    (as : List (LobOp E × (LobCheck → Bool))) : Meets ok E.step none as := by
  induction as with
  | nil => trivial
  | cons a as ih => exact ⟨hok a, ih⟩

/-- **The directory of LOB pieces is a map.**  In a run of operations from a new store, the directory is a map in all
states if and only if no removal is cut short and no page ever looks undefined. -/
theorem lobMap_run_iff {s₀ : LobStore} (h₀ : s₀.Fresh) (as : List (LobOp E × (LobCheck → Bool))) :
    (∀ k s, run E.step (some s₀) (as.take k) = some s → LobMap E s) ↔
      Meets (fun o a => ∀ s ∈ o, a.1.Complete s a.2) E.step (some s₀) as ∧
        ∀ k s, run E.step (some s₀) (as.take k) = some s → s.Defined := by
  -- the induction is on the run, from any store whose directory is in order
  suffices hall : ∀ {s₀ : LobStore}, Directory E s₀ →
      ((∀ k s, run E.step (some s₀) (as.take k) = some s → LobMap E s) ↔
        Meets (fun o a => ∀ s ∈ o, a.1.Complete s a.2) E.step (some s₀) as ∧
          ∀ k s, run E.step (some s₀) (as.take k) = some s → s.Defined) from hall h₀.directory
  clear h₀ s₀
  induction as with
  | nil =>
    intro s₀ h
    simp [Meets, lobMap_iff, h]
  | cons a as ih =>
    intro s₀ h
    have hsplit (P : LobStore → Prop) : (∀ k s, run E.step (some s₀) ((a :: as).take k) = some s → P s) ↔
        P s₀ ∧ ∀ k s, run E.step (E.step (some s₀) a) (as.take k) = some s → P s := by
      refine ⟨fun hP => ⟨hP 0 s₀ rfl, fun k => hP (k + 1)⟩, fun ⟨hP0, hP⟩ k s hs => ?_⟩
      cases k with
      | zero =>
        cases hs
        exact hP0
      | succ k => exact hP k s hs
    rw [hsplit, hsplit, lobMap_iff, Meets]
    have hcomplete : (∀ s ∈ some s₀, a.1.Complete s a.2) ↔ a.1.Complete s₀ a.2 := by simp
    rw [hcomplete]
    match ha : a.1.exec s₀ a.2 with
    | none =>
      have hstep : E.step (some s₀) a = none := by rw [step, Option.bind_some, ha]; rfl
      rw [hstep]
      simp [run_none, meets_none, h, h.complete_of_none ha]
    | some (rc, s1) =>
      have hstep : E.step (some s₀) a = some s1 := by rw [step, Option.bind_some, ha]; rfl
      rw [hstep]
      constructor
      · rintro ⟨⟨-, hdef⟩, hrest⟩
        have h1 : Directory E s1 := (hrest 0 s1 rfl).directory
        obtain ⟨hmeets, hdefs⟩ := (ih h1).1 hrest
        exact ⟨⟨(h.exec_iff hdef ha).1 h1, hmeets⟩, hdef, hdefs⟩
      · rintro ⟨⟨hc, hmeets⟩, hdef, hdefs⟩
        have h1 : Directory E s1 := (h.exec_iff hdef ha).2 hc
        exact ⟨⟨h, hdef⟩, (ih h1).2 ⟨hmeets, hdefs⟩⟩

def LobEnv.small : LobEnv where
  hash _ _ := 0
  lobdPageSize := 16
  mbs := {0}
  logicalID mb := mb
  findFreeSpace s := s.used.sup id + 1
  mbs_lt h := by
    rw [Finset.mem_singleton.1 h]
    decide
  logicalID_inj _ _ e := e
  findFreeSpace_notMem s h := absurd (Finset.le_sup (f := id) h) (Nat.not_le.2 (Nat.lt_succ_self _))

def LobStore.empty : LobStore :=
  ⟨fun _ => .reset, fun _ _ => 0, ∅, 0, fun _ => none, fun _ => ⟨0, 0⟩, []⟩

def LobEnv.small0 : small.mbs := ⟨0, Finset.mem_singleton_self 0⟩

/-- Two pieces are written, the first is removed again, the collection is truncated, all without errors. -/
theorem lobMap_run_truncated :
    LobStore.empty.Fresh ∧ ∀ k s, run small.step (some .empty) (List.take k
      [(.write small0 ⟨1, 0, 0, [7]⟩ true, fun _ => false),
        (.write small0 ⟨1, 1, 0, [8]⟩ true, fun _ => false),
        (.remove small0 1 0 true, fun _ => false),
        (.truncate small0 true, fun _ => false)]) = some s →
      LobMap small s := by
  refine ⟨⟨rfl, rfl, rfl⟩, (lobMap_run_iff ⟨rfl, rfl, rfl⟩ _).2 ⟨⟨?_, ?_, ?_, ?_, trivial⟩, ?_⟩⟩
  · exact fun _ _ => trivial
  · exact fun _ _ => trivial
  · rintro s - ⟨-, -, page, -, -, n, -, hn⟩
    cases hn
  · exact fun _ _ => trivial
  · intro k
    change ∀ s ∈ run small.step _ _, _
    match k with
    | 0 => decide +kernel
    | 1 => decide +kernel
    | 2 => decide +kernel
    | 3 => decide +kernel
    | k + 4 => rw [take_of_length_le (Nat.le_add_left 4 k)]; decide +kernel

/-- Two pieces of one bucket are written, on the pages 1 and 2.  The removal of the first fails because page 2 is not to
be had: afterwards the first piece is stored still, and counted, but no longer found.  And the piece 0 of the object 0
with no data stays when the collection is truncated, though the counters are set to 0. -/
theorem removal_cut_short :
    (∃ s, run small.step (some .empty)
        [(.write small0 ⟨1, 0, 0, [7]⟩ true, fun _ => false),
          (.write small0 ⟨1, 1, 0, [8]⟩ true, fun _ => false),
          (.remove small0 1 0 true, fun c => match c with | .nextExtent 2 => true | _ => false)] = some s ∧
        1 ∈ s.used ∧ (s.blk 1).key = ⟨0, 1, 0⟩ ∧ small.find s 0 1 0 (fun _ => false) = .ok none ∧
        s.stat 0 = ⟨1, 2⟩ ∧ ¬ LobMap small s) ∧
      ∃ s, run small.step (some .empty)
        [(.write small0 ⟨0, 0, 0, []⟩ true, fun _ => false),
          (.truncate small0 true, fun _ => false)] = some s ∧
        1 ∈ s.used ∧ s.stat 0 = ⟨0, 0⟩ ∧ ¬ LobMap small s := by
  refine ⟨⟨_, rfl, by decide +kernel, by decide +kernel, by decide +kernel, by decide +kernel, fun h => ?_⟩,
    ⟨_, rfl, by decide +kernel, by decide +kernel, fun h => ?_⟩⟩
  · have hfind := h.find small0 1 0 (fun _ => false) none (by decide +kernel) 1
    exact absurd (hfind.2 ⟨by decide +kernel, by decide +kernel⟩) (by simp)
  · exact (lobMap_iff.1 h).2 1 (by decide +kernel) (by decide +kernel)

end Run

end SequoiaDB.Dms
