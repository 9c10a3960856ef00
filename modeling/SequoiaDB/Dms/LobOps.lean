import SequoiaDB.Dms.LobDirectory

/-!
# The LOB directory under writes and removals

`Directory E s`: the pages in use are the pages on the chains, no piece occurs on two of them, each belongs to a
collection, and the counters of the collections count pages and meta pieces.  Each operation is described by what it
does to the pages in use: a write adds a page (`Added`) or leaves the directory as it is (`Unchanged`), a removal takes
a page out (`Removed`).
-/

namespace SequoiaDB.Dms

open Lib Function Finset

variable {E : LobEnv} {s s' : LobStore} {mb page : Nat} {fails : LobCheck → Bool}

namespace LobStore

def counted (s : LobStore) (pages : Finset Nat) (mb : Nat) : LobStat :=
  ⟨(pages.filter fun p => (s.blk p).mbID = mb ∧ (s.blk p).sequence = lobMetaSequence).card,
    (pages.filter fun p => (s.blk p).mbID = mb).card⟩

def pagesOf (s : LobStore) (mb : Nat) : Nat :=
  (s.used.filter fun p => (s.blk p).mbID = mb).card

def lobsOf (s : LobStore) (mb : Nat) : Nat :=
  (s.used.filter fun p => (s.blk p).mbID = mb ∧ (s.blk p).sequence = lobMetaSequence).card

/-- The pages hold the same pieces, though they may be linked in another way. -/
structure Alike (s s' : LobStore) (pages : Finset Nat) : Prop where
  blk : ∀ p ∈ pages, s'.blk p = { s.blk p with
    prevPageInBucket := s'.prev p, nextPageInBucket := s'.next p, removed := (s'.blk p).removed }
  data : ∀ p ∈ pages, s'.data p = s.data p

variable {pages : Finset Nat}

theorem Alike.refl (s : LobStore) (pages : Finset Nat) : Alike s s pages := ⟨fun _ _ => rfl, fun _ _ => rfl⟩

theorem LinksOnly.alike (h : LinksOnly s s') (pages : Finset Nat) : Alike s s' pages :=
  ⟨fun p _ => h.blk p, fun _ _ => by rw [h.data]⟩

theorem Alike.trans {s'' : LobStore} (h : Alike s s' pages) (h' : Alike s' s'' pages) : Alike s s'' pages where
  blk p hp := by rw [h'.blk p hp, h.blk p hp]
  data p hp := (h'.data p hp).trans (h.data p hp)

theorem Alike.mono {pages' : Finset Nat} (h : Alike s s' pages) (hs : pages' ⊆ pages) : Alike s s' pages' :=
  ⟨fun p hp => h.blk p (hs hp), fun p hp => h.data p (hs hp)⟩

variable {p : Nat}

theorem Alike.key (h : Alike s s' pages) (hp : p ∈ pages) : (s'.blk p).key = (s.blk p).key := by
  rw [h.blk p hp]
  rfl

theorem Alike.mbID (h : Alike s s' pages) (hp : p ∈ pages) : (s'.blk p).mbID = (s.blk p).mbID := by
  rw [h.blk p hp]

theorem Alike.sequence (h : Alike s s' pages) (hp : p ∈ pages) : (s'.blk p).sequence = (s.blk p).sequence := by
  rw [h.blk p hp]

theorem Alike.dataLen (h : Alike s s' pages) (hp : p ∈ pages) : (s'.blk p).dataLen = (s.blk p).dataLen := by
  rw [h.blk p hp]

theorem counted_congr (hmb : ∀ p ∈ pages, (s'.blk p).mbID = (s.blk p).mbID)
    (hs : ∀ p ∈ pages, (s'.blk p).sequence = (s.blk p).sequence) : s'.counted pages = s.counted pages := by
  funext mb
  refine congrArg₂ LobStat.mk (congrArg card (filter_congr fun p hp => ?_)) (congrArg card (filter_congr fun p hp => ?_))
  · rw [hmb p hp, hs p hp]
  · rw [hmb p hp]

theorem Alike.counted (h : Alike s s' pages) : s'.counted pages = s.counted pages :=
  counted_congr (fun _ => h.mbID) fun _ => h.sequence

theorem counted_insert (s : LobStore) (hp : page ∉ pages) : s.counted (insert page pages) =
    update (s.counted pages) (s.blk page).mbID
      ⟨if (s.blk page).sequence = lobMetaSequence then (s.counted pages (s.blk page).mbID).totalLobs + 1
        else (s.counted pages (s.blk page).mbID).totalLobs, (s.counted pages (s.blk page).mbID).totalLobPages + 1⟩ := by
  funext mb
  by_cases hmb : (s.blk page).mbID = mb
  · subst hmb
    simp only [LobStore.counted, filter_insert, true_and, if_true, update_self]
    split_ifs <;> simp [hp]
  · simp [LobStore.counted, filter_insert, hmb, update_of_ne (Ne.symm hmb)]

theorem ite_setStat (s : LobStore) (mb : Nat) (f : LobStat → LobStat) (c : Prop) [Decidable c] :
    (if c then s.setStat mb f else s) = { s with stat := if c then update s.stat mb (f (s.stat mb)) else s.stat } := by
  split_ifs <;> rfl

end LobStore

open LobStore

structure Directory (E : LobEnv) (s : LobStore) : Prop where
  chains : ∃ chain, Chains E s s.used chain
  key_inj : ∀ p ∈ s.used, ∀ q ∈ s.used, (s.blk p).key = (s.blk q).key → p = q
  owner : ∀ p ∈ s.used, (s.blk p).mbID ∈ E.mbs ∧ (s.blk p).clLogicalID = E.logicalID (s.blk p).mbID
  lt : ∀ p ∈ s.used, p < s.pageNum
  len_le : ∀ p ∈ s.used, (s.blk p).dataLen ≤ E.lobdPageSize
  stat : ∀ mb, s.stat mb = ⟨s.lobsOf mb, s.pagesOf mb⟩

structure Unchanged (E : LobEnv) (s s' : LobStore) : Prop where
  directory : Directory E s'
  used : s'.used = s.used
  alike : Alike s s' s.used
  log : s'.log = s.log

/-- The page `page` was added with the piece of the record. -/
structure Added (E : LobEnv) (s s' : LobStore) (mb page : Nat) (r : LobRecord) : Prop where
  directory : Directory E s'
  notMem : page ∉ s.used
  used : s'.used = insert page s.used
  alike : Alike s s' s.used
  key : (s'.blk page).key = ⟨E.logicalID mb, r.oid, r.sequence⟩
  mbID : (s'.blk page).mbID = mb
  next : s'.next page = none
  dataLen : (s'.blk page).dataLen = r.data.length + r.offset
  data : s'.data page = (s.data page).write r.offset r.data

/-- The piece on the page `page` was updated. -/
structure LobStore.Updated (E : LobEnv) (s s' : LobStore) (page : Nat) (r : LobRecord) : Prop where
  directory : Directory E s'
  used : s'.used = s.used
  blk : s'.blk = update s.blk page { s.blk page with
    dataLen := max (s.blk page).dataLen (r.data.length + r.offset) }
  data : s'.data = update s.data page ((s.data page).write r.offset r.data)
  log : s'.log = s.log

/-- The page `page` was taken out. -/
structure Removed (E : LobEnv) (s s' : LobStore) (page : Nat) : Prop where
  directory : Directory E s'
  used : s'.used = s.used.erase page
  alike : Alike s s' (s.used.erase page)
  log : s'.log = s.log

namespace Directory

variable (h : Directory E s)

include h

theorem congr (hb : s'.bucket = s.bucket) (hu : s'.used = s.used) (hs : s'.stat = s.stat)
    (hn : s.pageNum ≤ s'.pageNum)
    (hblk : ∀ p ∈ s.used, s'.blk p = { s.blk p with dataLen := (s'.blk p).dataLen })
    (hl : ∀ p ∈ s.used, (s'.blk p).dataLen ≤ E.lobdPageSize) : Directory E s' where
  chains := by
    obtain ⟨chain, hc⟩ := h.chains
    rw [hu]
    exact ⟨chain, hc.congr hb hblk⟩
  key_inj p hp q hq e := by
    rw [hu] at hp hq
    rw [hblk p hp, hblk q hq] at e
    exact h.key_inj p hp q hq e
  owner p hp := by
    rw [hu] at hp
    rw [hblk p hp]
    exact h.owner p hp
  lt p hp := Nat.lt_of_lt_of_le (h.lt p (hu ▸ hp)) hn
  len_le p hp := hl p (hu ▸ hp)
  stat mb := by
    change _ = s'.counted s'.used mb
    rw [hs, h.stat, hu, counted_congr (s := s) (fun p hp => by rw [hblk p hp]) fun p hp => by rw [hblk p hp]]
    rfl

theorem of_subset (hs : s'.used ⊆ s.used) (ha : Alike s s' s'.used) (hn : s.pageNum ≤ s'.pageNum)
    (hc : ∃ chain, Chains E s' s'.used chain) (hstat : s'.stat = s'.counted s'.used) : Directory E s' where
  chains := hc
  key_inj p hp q hq e := by
    rw [ha.key hp, ha.key hq] at e
    exact h.key_inj p (hs hp) q (hs hq) e
  owner p hp := by
    rw [ha.blk p hp]
    exact h.owner p (hs hp)
  lt p hp := Nat.lt_of_lt_of_le (h.lt p (hs hp)) hn
  len_le p hp := by
    rw [ha.dataLen hp]
    exact h.len_le p (hs hp)
  stat := congrFun hstat

theorem add (hc : ∃ chain, Chains E s' (insert page s.used) chain) (hpage : page ∉ s.used)
    (hu : s'.used = insert page s.used) (ha : Alike s s' s.used) (hn : s.pageNum ≤ s'.pageNum)
    (hlt : page < s'.pageNum) (hmb : mb ∈ E.mbs) (hmbID : (s'.blk page).mbID = mb)
    (hcl : (s'.blk page).clLogicalID = E.logicalID mb) (hl : (s'.blk page).dataLen ≤ E.lobdPageSize)
    (hk : ∀ q ∈ s.used, (s.blk q).key ≠ (s'.blk page).key)
    (hs : s'.stat = update s.stat mb
      ⟨if (s'.blk page).sequence = lobMetaSequence then (s.stat mb).totalLobs + 1 else (s.stat mb).totalLobs,
        (s.stat mb).totalLobPages + 1⟩) : Directory E s' where
  chains := hu ▸ hc
  key_inj p hp q hq e := by
    rw [hu, mem_insert] at hp hq
    obtain rfl | hp := hp <;> obtain rfl | hq := hq
    · rfl
    · rw [ha.key hq] at e
      exact absurd e.symm (hk q hq)
    · rw [ha.key hp] at e
      exact absurd e (hk p hp)
    · rw [ha.key hp, ha.key hq] at e
      exact h.key_inj p hp q hq e
  owner p hp := by
    rw [hu, mem_insert] at hp
    obtain rfl | hp := hp
    · rw [hmbID, hcl]
      exact ⟨hmb, rfl⟩
    · rw [ha.blk p hp]
      exact h.owner p hp
  lt p hp := by
    rw [hu, mem_insert] at hp
    obtain rfl | hp := hp
    · exact hlt
    · exact Nat.lt_of_lt_of_le (h.lt p hp) hn
  len_le p hp := by
    rw [hu, mem_insert] at hp
    obtain rfl | hp := hp
    · exact hl
    · rw [ha.dataLen hp]
      exact h.len_le p hp
  stat := by
    refine congrFun (?_ : s'.stat = s'.counted s'.used)
    rw [hu, counted_insert s' hpage, ha.counted, hmbID, hs, show s.stat = s.counted s.used from funext h.stat]

theorem erase (hc : ∃ chain, Chains E s' (s.used.erase page) chain) (hp : page ∈ s.used)
    (hu : s'.used = s.used.erase page) (ha : Alike s s' (s.used.erase page)) (hn : s.pageNum ≤ s'.pageNum)
    (hmbID : (s.blk page).mbID = mb)
    (hs : s'.stat = update s.stat mb
      ⟨if (s.blk page).sequence = lobMetaSequence then (s.stat mb).totalLobs - 1 else (s.stat mb).totalLobs,
        (s.stat mb).totalLobPages - 1⟩) : Directory E s' := by
  refine h.of_subset (hu ▸ erase_subset ..) (hu.symm ▸ ha) hn (hu.symm ▸ hc) ?_
  -- counting the page again gives what was counted before
  have ho : s.stat = s.counted (insert page (s.used.erase page)) := by
    rw [insert_erase hp]
    exact funext h.stat
  rw [hs, hu, ha.counted, ho, counted_insert s (notMem_erase page _), hmbID, update_idem, update_self]
  split_ifs <;> simp

theorem removePage (fails : LobCheck → Bool) (hp : page ∈ s.used) (hmb : (s.blk page).mbID = mb)
    {b : Option Nat} (hb : b.getD (E.bucketOf (s.blk page)) = E.bucketOf (s.blk page)) :
    (∃ s', E.removePage s mb page b fails = (.ok, s') ∧ Removed E s s' page) ∨
      ((E.removePage s mb page b fails).1 ≠ .ok ∧ (E.removePage s mb page b fails).2 = s ∧ ∃ c, fails c) ∨
      ((E.removePage s mb page b fails).1 ≠ .ok ∧ s.CutShort page fails) := by
  obtain ⟨chain, hc⟩ := h.chains
  rw [LobEnv.removePage, hb]
  obtain ⟨s1, hu, hl, chain', hc'⟩ | ⟨hrc, hs⟩ | ⟨hrc, hn⟩ := hc.unlinkPage fails hp rfl
  · refine .inl ⟨_, by rw [hu, andThen_ok], ?_⟩
    set s2 : LobStore := if (s.blk page).sequence = lobMetaSequence
      then s1.setStat mb fun st => { st with totalLobs := st.totalLobs - 1 } else s1 with hs2
    rw [ite_setStat] at hs2
    have hstat2 : s2.stat = update s.stat mb
        ⟨if (s.blk page).sequence = lobMetaSequence then (s.stat mb).totalLobs - 1 else (s.stat mb).totalLobs,
          (s.stat mb).totalLobPages⟩ := by
      rw [← hl.stat, hs2]
      dsimp only
      split_ifs with hm
      · rfl
      · exact (update_eq_self mb s1.stat).symm
    -- the other pages are as the unlinking left them
    have hblk (q) (hq : q ≠ page) : ((s2.setBlk page fun _ => .reset).releasePage mb page).blk q = s1.blk q := by
      rw [hs2]
      exact update_of_ne hq _ _
    have ha : Alike s ((s2.setBlk page fun _ => .reset).releasePage mb page) (s.used.erase page) := by
      refine ⟨fun q hq => ?_, fun q _ => by rw [← hl.data, hs2]; rfl⟩
      have hne := (mem_erase.1 hq).1
      rw [prev, next, hblk q hne]
      exact hl.blk q
    have hused : ((s2.setBlk page fun _ => .reset).releasePage mb page).used = s.used.erase page := by
      rw [← hl.used, hs2]
      rfl
    refine ⟨h.erase ⟨chain', ?_⟩ hp hused ha (by rw [← hl.pageNum, hs2]; rfl) hmb ?_, hused, ha,
      by rw [← hl.log, hs2]; rfl⟩
    · exact hc'.congr (by rw [hs2]; rfl) fun q hq => by rw [hblk q (mem_erase.1 hq).1]
    · simp only [releasePage, setStat, setBlk, hstat2, update_self, update_idem]
  · refine .inr (.inl ?_)
    rw [andThen_of_ne hrc]
    exact ⟨hrc, hs⟩
  · refine .inr (.inr ?_)
    rw [andThen_of_ne hrc]
    exact ⟨hrc, hn⟩

theorem append (dps : Bool) (l : LobLog) : Directory E (s.append dps l) := by
  cases dps with
  | false => exact h
  | true => exact h.congr rfl rfl rfl (Nat.le_refl _) (fun _ _ => rfl) h.len_le

omit h

end Directory

/-- In the middle of a write: the page is allocated and counted, and nothing that is stored has changed. -/
structure Allocated (s t : LobStore) (mb page : Nat) : Prop where
  used : t.used = insert page s.used
  bucket : t.bucket = s.bucket
  stat : t.stat = update s.stat mb { s.stat mb with totalLobPages := (s.stat mb).totalLobPages + 1 }
  pageNum : s.pageNum ≤ t.pageNum
  lt : page < t.pageNum
  blk : ∀ p ∈ s.used, t.blk p = s.blk p
  data : ∀ p ∈ s.used, t.data p = s.data p
  log : t.log = s.log

namespace Allocated

variable {t : LobStore} {r : LobRecord}

theorem allocatePage (s : LobStore) (mb page : Nat) : Allocated s (s.allocatePage mb page) mb page where
  used := rfl
  bucket := rfl
  stat := rfl
  pageNum := Nat.le_max_left ..
  lt := Nat.lt_of_succ_le (Nat.le_max_right ..)
  blk _ _ := rfl
  data _ _ := rfl
  log := rfl

variable (h : Allocated s t mb page)

include h

theorem setBlk (hpage : page ∉ s.used) (f : LobBlk → LobBlk) : Allocated s (t.setBlk page f) mb page :=
  { h with
    blk := fun p hp => (update_of_ne (ne_of_mem_of_not_mem hp hpage) _ _).trans (h.blk p hp) }

theorem writeData (hpage : page ∉ s.used) (offset : Nat) (bs : List UInt8) :
    Allocated s (t.writeData page offset bs) mb page :=
  { h with
    data := fun p hp => (update_of_ne (ne_of_mem_of_not_mem hp hpage) _ _).trans (h.data p hp) }

theorem alike : Alike s t s.used :=
  ⟨fun p hp => by rw [prev, next, h.blk p hp], h.data⟩

theorem release (hd : Directory E s) (hpage : page ∉ s.used) : Unchanged E s (t.releasePage mb page) where
  directory := by
    refine hd.congr h.bucket ?_ ?_ h.pageNum (fun p hp => ?_) fun p hp => ?_
    · change t.used.erase page = _
      rw [h.used, erase_insert hpage]
    · simp only [releasePage, setStat, h.stat, update_self, update_idem, Nat.add_sub_cancel, update_eq_self]
    · change t.blk p = { s.blk p with dataLen := (t.blk p).dataLen }
      rw [h.blk p hp]
    · change (t.blk p).dataLen ≤ _
      rw [h.blk p hp]
      exact hd.len_le p hp
  used := by
    change t.used.erase page = _
    rw [h.used, erase_insert hpage]
  alike := ⟨h.alike.blk, h.data⟩
  log := h.log

theorem chains (hd : Directory E s) : ∃ chain, Chains E t s.used chain := by
  obtain ⟨chain, hc⟩ := hd.chains
  exact ⟨chain, hc.congr h.bucket fun p hp => by rw [h.blk p hp]⟩

theorem fillPage (hd : Directory E s) (hpage : page ∉ s.used) (hmb : mb ∈ E.mbs)
    (hlen : r.data.length + r.offset ≤ E.lobdPageSize) (hdata : t.data page = (s.data page).write r.offset r.data)
    (fails : LobCheck → Bool) :
    (∃ s', E.fillPage t mb page r fails = (.ok, s') ∧ Added E s s' mb page r ∧ s'.log = s.log ∧
        ∀ q ∈ s.used, (s.blk q).key ≠ ⟨E.logicalID mb, r.oid, r.sequence⟩) ∨
      ((E.fillPage t mb page r fails).1 ≠ .ok ∧ Allocated s (E.fillPage t mb page r fails).2 mb page ∧
        ((∀ c, fails c = false) → ∃ q ∈ s.used, (s.blk q).key = ⟨E.logicalID mb, r.oid, r.sequence⟩)) := by
  unfold LobEnv.fillPage
  by_cases hf : fails .fillExtent = true
  · rw [if_pos hf]
    exact .inr ⟨by simp, h, fun hno => by simp [hno] at hf⟩
  · rw [if_neg hf]
    set t0 := t.setBlk page fun _ => E.newBlk mb r with ht0
    have h0 : Allocated s t0 mb page := h.setBlk hpage _
    have hb0 : t0.blk page = E.newBlk mb r := update_self ..
    obtain ⟨chain, hc⟩ := h0.chains hd
    have hlt : ∀ p ∈ s.used, p < t0.pageNum := fun p hp => Nat.lt_of_lt_of_le (hd.lt p hp) h0.pageNum
    obtain ⟨t1, hpush, hl, hc1, hn, hkeys⟩ | ⟨hrc, hs, hdup⟩ :=
      hc.push r.oid r.sequence fails hlt hpage (by rw [hb0]; rfl)
    · refine .inl ⟨_, by rw [hpush, andThen_ok], ?_⟩
      set t2 : LobStore := if r.sequence = lobMetaSequence
        then t1.setStat mb fun st => { st with totalLobs := st.totalLobs + 1 } else t1 with ht2
      rw [ite_setStat] at ht2
      have hb2 : t2.blk = t1.blk := by rw [ht2]
      have hu2 : t2.used = insert page s.used := by rw [← h0.used, ← hl.used, ht2]
      have hd2 : t2.data = t0.data := by rw [← hl.data, ht2]
      have hn2 : t2.pageNum = t0.pageNum := by rw [← hl.pageNum, ht2]
      have hpg : t2.blk page = _ := (congrFun hb2 page).trans (hl.blk page)
      rw [hb0] at hpg hkeys
      have ha : Alike s t2 s.used := by
        refine ⟨fun p hp => ?_, fun p hp => by rw [hd2, h0.data p hp]⟩
        rw [prev, next, hb2, ← h0.blk p hp]
        exact hl.blk p
      have ho : ∀ q ∈ s.used, (s.blk q).key ≠ ⟨E.logicalID mb, r.oid, r.sequence⟩ := by
        intro q hq
        rw [← h0.blk q hq]
        exact hkeys q hq
      have hdir : Directory E t2 := by
        refine hd.add ?_ hpage hu2 ha (by rw [hn2]; exact h0.pageNum) (by rw [hn2]; exact h0.lt)
          hmb (by rw [hpg]; rfl) (by rw [hpg]; rfl) (by rw [hpg]; exact hlen) (fun q hq => by rw [hpg]; exact ho q hq) ?_
        · obtain ⟨chain', hc'⟩ := hc1
          exact ⟨chain', hc'.congr (by rw [ht2]) fun p _ => by rw [hb2]⟩
        · rw [hpg, ht2]
          change _ = update s.stat mb ⟨if r.sequence = lobMetaSequence then _ else _, _⟩
          split_ifs with hm
          · simp only [hl.stat, h0.stat, update_self, update_idem]
          · rw [hl.stat, h0.stat]
      refine ⟨⟨hdir, hpage, hu2, ha, by rw [hpg]; rfl, by rw [hpg]; rfl, ?_, by rw [hpg]; rfl, ?_⟩,
        by rw [← h0.log, ← hl.log, ht2], ho⟩
      · rw [next, hb2]
        exact hn
      · rw [hd2]
        exact hdata
    · refine .inr ?_
      rw [andThen_of_ne hrc]
      refine ⟨hrc, hs.symm.subst (motive := fun u => Allocated s u mb page) h0, fun hno => ?_⟩
      obtain ⟨q, hq, hk⟩ := hdup hno
      rw [hb0, h0.blk q hq] at hk
      exact ⟨q, hq, hk⟩

theorem writeWithPage (hd : Directory E s) (hp : page ∉ s.used) (hmb : mb ∈ E.mbs)
    (hdata : t.data page = s.data page) (r : LobRecord) (dps : Bool) (fails : LobCheck → Bool) :
    (∃ s', E.writeWithPage t mb page r dps fails = (.ok, s'.append dps (.write mb r.oid r.sequence r.offset r.data)) ∧
        Added E s s' mb page r ∧ s'.log = s.log ∧ r.offset + r.data.length ≤ E.lobdPageSize ∧
        ∀ q ∈ s.used, (s.blk q).key ≠ ⟨E.logicalID mb, r.oid, r.sequence⟩) ∨
      ((E.writeWithPage t mb page r dps fails).1 ≠ .ok ∧ Unchanged E s (E.writeWithPage t mb page r dps fails).2 ∧
        ((∀ c, fails c = false) → E.lobdPageSize < r.offset + r.data.length ∨
          ∃ q ∈ s.used, (s.blk q).key = ⟨E.logicalID mb, r.oid, r.sequence⟩)) ∨
      (Directory E (E.writeWithPage t mb page r dps fails).2 ∧ ∃ c, fails c) := by
  unfold LobEnv.writeWithPage
  by_cases hc : fails .pageChecks = true ∨ E.lobdPageSize < r.offset + r.data.length
  · rw [if_pos hc]
    refine .inr (.inl ⟨by simp, h.release hd hp, fun hno => .inl ?_⟩)
    obtain hc | hc := hc
    · simp [hno] at hc
    · exact hc
  rw [if_neg hc]
  obtain ⟨-, hlen⟩ := not_or.1 hc
  by_cases hw : fails .writeData = true
  · rw [if_pos hw]
    exact .inr (.inl ⟨by simp, h.release hd hp, fun hno => by simp [hno] at hw⟩)
  rw [if_neg hw]
  have hwritten := h.writeData hp r.offset r.data
  have hpg : (t.writeData page r.offset r.data).data page = (s.data page).write r.offset r.data := by
    rw [← hdata]
    exact update_self ..
  obtain ⟨s', hf, ha, hlog, hk⟩ | ⟨hrc, halloc, hdup⟩ :=
    hwritten.fillPage hd hp hmb (by omega) hpg fails
  · rw [hf, if_neg (by simp)]
    split_ifs with hl
    · -- the log refused the record: the page is taken out again, or it stays
      refine .inr (.inr ⟨?_, _, hl.2⟩)
      change Directory E (E.rollbackPage s' mb page true fails)
      unfold LobEnv.rollbackPage
      rw [if_pos rfl]
      split_ifs
      · exact ha.directory
      · have hm : page ∈ s'.used := by rw [ha.used]; exact mem_insert_self ..
        obtain ⟨s'', hrm, hr⟩ | ⟨-, hs, -⟩ | ⟨-, -, n, hn, -⟩ :=
          ha.directory.removePage fails (b := none) hm ha.mbID rfl
        · rw [hrm]
          exact hr.directory
        · rw [hs]
          exact ha.directory
        · rw [ha.next] at hn
          cases hn
    · exact .inl ⟨s', rfl, ha, hlog, by omega, hk⟩
  · rw [if_pos hrc]
    exact .inr (.inl ⟨hrc, halloc.release hd hp, fun hno => .inr (hdup hno)⟩)

omit h

end Allocated

def LobEnv.RemovalCut (E : LobEnv) (s : LobStore) (mb : Nat) (oid : BitVec 96) (sequence : Nat) (dps : Bool)
    (fails : LobCheck → Bool) : Prop :=
  fails .prepare = false ∧ ¬ (fails .removeExtent = true ∨ (dps = true ∧ fails .readData = true)) ∧
    ∃ page, E.find s mb oid sequence fails = .ok (some page) ∧ s.CutShort page fails

namespace Directory

variable {r : LobRecord}

theorem updateWithPage (h : Directory E s) (hpage : page ∈ s.used) (mb : Nat) (r : LobRecord) (dps : Bool)
    (fails : LobCheck → Bool) :
    (∃ s', E.updateWithPage s mb page r dps fails =
          (.ok, s'.append dps (.update mb r.oid r.sequence r.offset r.data (LobEnv.oldData s page r))) ∧
        Updated E s s' page r ∧ r.offset + r.data.length ≤ E.lobdPageSize) ∨
      ((E.updateWithPage s mb page r dps fails).1 ≠ .ok ∧ (E.updateWithPage s mb page r dps fails).2 = s ∧
        ((∀ c, fails c = false) → E.lobdPageSize < r.offset + r.data.length)) ∨
      (Directory E (E.updateWithPage s mb page r dps fails).2 ∧ ∃ c, fails c) := by
  unfold LobEnv.updateWithPage
  by_cases hc : fails .pageChecks = true ∨ E.lobdPageSize < r.offset + r.data.length
  · rw [if_pos hc]
    refine .inr (.inl ⟨by simp, rfl, fun hno => ?_⟩)
    obtain hc | hc := hc
    · simp [hno] at hc
    · exact hc
  rw [if_neg hc]
  obtain ⟨-, hlen⟩ := not_or.1 hc
  by_cases hf : fails .updateExtent = true ∨ (dps = true ∧ fails .readData = true) ∨ fails .writeData = true
  · rw [if_pos hf]
    exact .inr (.inl ⟨by simp, rfl, fun hno => by simp [hno] at hf⟩)
  rw [if_neg hf]
  set s' := (s.writeData page r.offset r.data).setBlk page fun blk =>
    if blk.dataLen < r.data.length + r.offset then { blk with dataLen := r.data.length + r.offset } else blk with hs'
  have hb : s'.blk = update s.blk page { s.blk page with
      dataLen := max (s.blk page).dataLen (r.data.length + r.offset) } := by
    refine congrArg (update s.blk page) ?_
    change (if (s.blk page).dataLen < _ then _ else s.blk page) = _
    split_ifs with hlt
    · rw [Nat.max_eq_right (Nat.le_of_lt hlt)]
      rfl
    · rw [Nat.max_eq_left (Nat.le_of_not_lt hlt)]
  have hu : Updated E s s' page r := by
    refine ⟨h.congr rfl rfl rfl (Nat.le_refl _) (fun p hp => ?_) (fun p hp => ?_), rfl, hb, rfl, rfl⟩
    · rw [hb]
      by_cases hpp : p = page
      · rw [hpp, update_self]
      · rw [update_of_ne hpp]
    · rw [hb]
      by_cases hpp : p = page
      · rw [hpp, update_self]
        exact Nat.max_le.2 ⟨h.len_le page hpage, by omega⟩
      · rw [update_of_ne hpp]
        exact h.len_le p hp
  split_ifs with hl
  · exact .inr (.inr ⟨hu.directory, _, hl.2⟩)
  · exact .inl ⟨s', rfl, hu, by omega⟩

variable {oid : BitVec 96} {seq : Nat} (h : Directory E s)

include h

theorem find_some (hf : E.find s mb oid seq fails = .ok (some page)) :
    page ∈ s.used ∧ (s.blk page).key = ⟨E.logicalID mb, oid, seq⟩ := by
  obtain ⟨chain, hc⟩ := h.chains
  exact hc.find_some h.lt hf

theorem find_none (hf : E.find s mb oid seq fails = .ok none) :
    ∀ p ∈ s.used, (s.blk p).key ≠ ⟨E.logicalID mb, oid, seq⟩ := by
  obtain ⟨chain, hc⟩ := h.chains
  exact hc.find_none h.lt hf

theorem find_ok (mb : Nat) (oid : BitVec 96) (seq : Nat)
    (hf : ∀ q, fails (.findExtent q) = false) : ∃ r, E.find s mb oid seq fails = .ok r := by
  obtain ⟨chain, hc⟩ := h.chains
  exact hc.find_ok h.lt hf

theorem mbID_eq (hmb : mb ∈ E.mbs) (hp : page ∈ s.used)
    (hk : (s.blk page).key = ⟨E.logicalID mb, oid, seq⟩) : (s.blk page).mbID = mb := by
  obtain ⟨hm, hcl⟩ := h.owner page hp
  refine E.logicalID_inj hm hmb (hcl.symm.trans ?_)
  exact congrArg LobKey.clID hk

theorem updateWithPage_directory (hp : page ∈ s.used) (mb : Nat) (r : LobRecord) (dps : Bool)
    (fails : LobCheck → Bool) : Directory E (E.updateWithPage s mb page r dps fails).2 := by
  obtain ⟨s', he, hu, -⟩ | ⟨-, hs, -⟩ | ⟨hd, -⟩ := h.updateWithPage hp mb r dps fails
  · rw [he]
    exact hu.directory.append ..
  · rw [hs]
    exact h
  · exact hd

theorem update (mb : Nat) (r : LobRecord) (dps : Bool) (fails : LobCheck → Bool) :
    Directory E (E.update s mb r dps fails).2 := by
  unfold LobEnv.update
  split_ifs
  · exact h
  · split
    · exact h
    · exact h
    · rename_i page hf
      exact h.updateWithPage_directory (h.find_some hf).1 mb r dps fails

theorem writeInner (hmb : mb ∈ E.mbs) (r : LobRecord) (dps updateWhenExist : Bool)
    (fails : LobCheck → Bool) : Directory E (E.writeInner s mb r dps updateWhenExist fails).2 := by
  unfold LobEnv.writeInner
  dsimp only
  generalize hfind : (if updateWhenExist then
    E.find (s.allocatePage mb (E.findFreeSpace s)) mb r.oid r.sequence fails else .ok none) = found
  split_ifs
  · exact h
  · exact h
  · have hf := E.findFreeSpace_notMem s
    have halloc := Allocated.allocatePage s mb (E.findFreeSpace s)
    obtain ⟨chain, hc⟩ := halloc.chains h
    match found, hfind with
    | .error rc, _ => exact (halloc.release h hf).directory
    | .ok none, _ =>
      obtain ⟨s', he, ha, -⟩ | ⟨-, hu, -⟩ | ⟨hd, -⟩ := halloc.writeWithPage h hf hmb rfl r dps fails
      · rw [he]
        exact ha.directory.append ..
      · exact hu.directory
      · exact hd
    | .ok (some page), hfind =>
      -- the page that is found was stored before
      have hfound : page ∈ s.used := by
        cases updateWhenExist with
        | false => cases hfind
        | true => exact (hc.find_some (fun p hp => Nat.lt_of_lt_of_le (h.lt p hp) halloc.pageNum) hfind).1
      have hr := halloc.release h hf
      exact hr.directory.updateWithPage_directory (hr.used ▸ hfound) mb r dps fails

theorem not_removePage (mb : Nat) (hp : page ∈ s.used) (b : Option Nat) (hcut : s.CutShort page fails) :
    (E.removePage s mb page b fails).1 ≠ .ok ∧ ¬ Directory E (E.removePage s mb page b fails).2 := by
  obtain ⟨chain, hc⟩ := h.chains
  obtain ⟨hrc, hno⟩ := hc.not_unlinkPage (b := b.getD (E.bucketOf (s.blk page))) hp hcut
  rw [LobEnv.removePage, andThen_of_ne hrc]
  have hu : (s.unlinkPage (b.getD (E.bucketOf (s.blk page))) page fails).2.used = s.used := by
    unfold LobStore.unlinkPage
    repeat' split
    all_goals rfl
  refine ⟨hrc, fun hd => hno ?_⟩
  rw [← hu]
  exact hd.chains

theorem remove_of_removalCut {dps : Bool} (hc : E.RemovalCut s mb oid seq dps fails) :
    ∃ rc s', E.remove s mb oid seq dps fails = some (rc, s') := by
  obtain ⟨hp, he, page, hf, hc⟩ := hc
  have hrc := (h.not_removePage mb (h.find_some hf).1 (some (E.getBucket oid seq)) hc).1
  unfold LobEnv.remove
  dsimp only
  rw [hp, if_neg (by simp), hf]
  dsimp only
  rw [if_neg he, if_pos hrc]
  exact ⟨_, _, rfl⟩

/-- **Removals.**  The directory stays in order unless the removal is cut short. -/
theorem remove (hmb : mb ∈ E.mbs) (oid : BitVec 96) (seq : Nat) (dps : Bool)
    {rc : Rc} (hr : E.remove s mb oid seq dps fails = some (rc, s')) :
    Directory E s' ↔ ¬ E.RemovalCut s mb oid seq dps fails := by
  unfold LobEnv.remove at hr
  unfold LobEnv.RemovalCut
  by_cases hp : fails .prepare = true
  · rw [if_pos hp] at hr
    cases hr
    exact iff_of_true h fun hc => by simp [hp] at hc
  rw [if_neg hp] at hr
  match hf : E.find s mb oid seq fails with
  | .error rc | .ok none =>
    rw [hf] at hr
    cases hr
    exact iff_of_true h fun ⟨_, _, page, hpg, _⟩ => by cases hpg
  | .ok (some page) =>
    rw [hf] at hr
    dsimp only at hr
    obtain ⟨hpage, hk⟩ := h.find_some hf
    have hb : (some (E.getBucket oid seq)).getD (E.bucketOf (s.blk page)) = E.bucketOf (s.blk page) := by
      simp only [LobBlk.key, LobKey.mk.injEq] at hk
      rw [Option.getD_some, LobEnv.bucketOf, hk.2.1, hk.2.2]
    by_cases he : fails .removeExtent = true ∨ (dps = true ∧ fails .readData = true)
    · rw [if_pos he] at hr
      cases hr
      exact iff_of_true h fun hc => hc.2.1 he
    rw [if_neg he] at hr
    have hi : (fails .prepare = false ∧ ¬ (fails .removeExtent = true ∨ (dps = true ∧ fails .readData = true)) ∧
        ∃ p, (Except.ok (some page) : Except Rc (Option Nat)) = .ok (some p) ∧ s.CutShort p fails) ↔
          s.CutShort page fails := by
      simp [hp, he]
    rw [hi]
    obtain ⟨t, ht, hrem⟩ | ⟨hrc, hs, -⟩ | ⟨hrc, hc⟩ := h.removePage fails hpage (h.mbID_eq hmb hpage hk) hb
    · have hno : ¬ s.CutShort page fails := fun hc =>
        (h.not_removePage mb hpage (some (E.getBucket oid seq)) hc).1 (by rw [ht])
      rw [ht, if_neg (by simp)] at hr
      split_ifs at hr
      cases hr
      exact iff_of_true (hrem.directory.append ..) hno
    · rw [if_pos hrc, Option.some.injEq] at hr
      rw [hr] at hs
      have hss : s' = s := hs
      refine iff_of_true (hss ▸ h) fun hc => ?_
      have hbad := (h.not_removePage mb hpage (some (E.getBucket oid seq)) hc).2
      rw [hr] at hbad
      exact hbad (hss ▸ h)
    · rw [if_pos hrc, Option.some.injEq] at hr
      have hbad := (h.not_removePage mb hpage (some (E.getBucket oid seq)) hc).2
      rw [hr] at hbad
      exact iff_of_false hbad (not_not.2 hc)

omit h

end Directory

end SequoiaDB.Dms
