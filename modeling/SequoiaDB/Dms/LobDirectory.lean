import SequoiaDB.Dms.LobStore
import SequoiaDB.Lib.Chain

/-!
# The chains of the LOB directory

`Chains E s live chain`: for every bucket `b`, `chain b` is the doubly linked list of the pages of `live` whose pieces
are hashed to `b`.  `_find` follows it, `_push2Bucket` makes it longer by a page at its end, `_removePage` takes a page
out.  `Directory` adds what the blocks tell: no piece occurs twice, pages belong to collections, and the counters count.
-/

namespace SequoiaDB.Dms

open Lib Function List LobStore

namespace LobStore

variable {s s' : LobStore}

def next (s : LobStore) (p : Nat) : Option Nat := (s.blk p).nextPageInBucket

def prev (s : LobStore) (p : Nat) : Option Nat := (s.blk p).prevPageInBucket

/-- The two stores differ at most in how the pages are linked. -/
structure LinksOnly (s s' : LobStore) : Prop where
  blk : ∀ p, s'.blk p = { s.blk p with
    prevPageInBucket := s'.prev p, nextPageInBucket := s'.next p, removed := (s'.blk p).removed }
  data : s'.data = s.data
  used : s'.used = s.used
  pageNum : s'.pageNum = s.pageNum
  stat : s'.stat = s.stat
  log : s'.log = s.log

theorem LinksOnly.trans {s'' : LobStore} (h : LinksOnly s s') (h' : LinksOnly s' s'') : LinksOnly s s'' where
  blk p := by rw [h'.blk p, h.blk p]
  data := h'.data.trans h.data
  used := h'.used.trans h.used
  pageNum := h'.pageNum.trans h.pageNum
  stat := h'.stat.trans h.stat
  log := h'.log.trans h.log

variable (p : Nat) (x : Option Nat) (q : Nat)

theorem linksOnly_setBlk {f : LobBlk → LobBlk}
    (hf : ∀ blk, f blk = { blk with prevPageInBucket := (f blk).prevPageInBucket
                                    nextPageInBucket := (f blk).nextPageInBucket
                                    removed := (f blk).removed }) : LinksOnly s (s.setBlk p f) where
  blk q := by
    by_cases hq : q = p
    · subst hq
      simp only [setBlk, prev, next, update_self]
      exact hf _
    · simp [setBlk, prev, next, update_of_ne hq]
  data := rfl
  used := rfl
  pageNum := rfl
  stat := rfl
  log := rfl

theorem linksOnly_setBucket (b : Nat) (p : Option Nat) : LinksOnly s (s.setBucket b p) :=
  ⟨fun _ => rfl, rfl, rfl, rfl, rfl, rfl⟩

@[simp] theorem next_setBucket (b : Nat) (x : Option Nat) (q : Nat) : (s.setBucket b x).next q = s.next q := rfl

@[simp] theorem prev_setBucket (b : Nat) (x : Option Nat) (q : Nat) : (s.setBucket b x).prev q = s.prev q := rfl

theorem next_setNext :
    (s.setBlk p fun blk => { blk with nextPageInBucket := x }).next q = if q = p then x else s.next q := by
  simp only [next, setBlk, update_apply]
  split_ifs <;> rfl

theorem prev_setPrev :
    (s.setBlk p fun blk => { blk with prevPageInBucket := x }).prev q = if q = p then x else s.prev q := by
  simp only [prev, setBlk, update_apply]
  split_ifs <;> rfl

@[simp] theorem prev_setNext : (s.setBlk p fun blk => { blk with nextPageInBucket := x }).prev q = s.prev q := by
  simp only [prev, setBlk, update_apply]
  split_ifs with h
  · rw [h]
  · rfl

@[simp] theorem next_setPrev : (s.setBlk p fun blk => { blk with prevPageInBucket := x }).next q = s.next q := by
  simp only [next, setBlk, update_apply]
  split_ifs with h
  · rw [h]
  · rfl

end LobStore

variable {E : LobEnv} {s s' : LobStore} {live : Finset Nat} {chain : Nat → List Nat}

/-- `chain b` is the chain of bucket `b`, and holds the pages of `live` hashed to `b`. -/
structure Chains (E : LobEnv) (s : LobStore) (live : Finset Nat) (chain : Nat → List Nat) : Prop where
  head : ∀ b, s.bucket b = (chain b).head?
  linked : ∀ b, ChainTo s.next s.prev none (chain b) none
  nodup : ∀ b, (chain b).Nodup
  mem : ∀ b p, p ∈ chain b ↔ p ∈ live ∧ E.bucketOf (s.blk p) = b

namespace Chains

theorem congr (h : Chains E s live chain) (hb : s'.bucket = s.bucket)
    (hblk : ∀ p ∈ live, s'.blk p = { s.blk p with dataLen := (s'.blk p).dataLen }) : Chains E s' live chain where
  head b := by rw [hb, h.head]
  linked b := by
    refine (h.linked b).congr (fun p hp => ?_) fun p hp => ?_
    · rw [LobStore.next, hblk p ((h.mem b p).1 hp).1]; rfl
    · rw [LobStore.prev, hblk p ((h.mem b p).1 hp).1]; rfl
  nodup := h.nodup
  mem b p := by
    rw [h.mem]
    refine and_congr_right fun hp => ?_
    rw [hblk p hp]
    rfl

theorem length_le (h : Chains E s live chain) (hlt : ∀ p ∈ live, p < s.pageNum) (b : Nat) :
    (chain b).length ≤ s.pageNum := by
  have hs : (chain b).toFinset ⊆ Finset.range s.pageNum := by
    intro p hp
    rw [mem_toFinset, h.mem] at hp
    exact Finset.mem_range.2 (hlt p hp.1)
  have hc := Finset.card_le_card hs
  rwa [toFinset_card_of_nodup (h.nodup b), Finset.card_range] at hc

end Chains

section Find

variable {key : LobKey} {fails : LobCheck → Bool}

private theorem findFrom_spec {xs : List Nat} {p : Option Nat} (hc : ChainTo s.next s.prev p xs none) {fuel : Nat}
    (hfuel : xs.length ≤ fuel) :
    (∀ q, s.findFrom key fails fuel xs.head? = .ok (some q) → q ∈ xs ∧ (s.blk q).key = key) ∧
      (s.findFrom key fails fuel xs.head? = .ok none → ∀ q ∈ xs, (s.blk q).key ≠ key) ∧
      ((∀ q, fails (.findExtent q) = false) → ∃ r, s.findFrom key fails fuel xs.head? = .ok r) := by
  induction xs generalizing fuel p with
  | nil =>
    have hn : s.findFrom key fails fuel none = .ok none := by cases fuel <;> rfl
    simp [hn]
  | cons x xs ih =>
    obtain ⟨-, hnext, hr⟩ := hc
    obtain ⟨fuel, rfl⟩ := Nat.exists_eq_succ_of_ne_zero (Nat.ne_zero_of_lt hfuel)
    have hnext : (s.blk x).nextPageInBucket = xs.head? := by rw [← Option.or_none (o := xs.head?)]; exact hnext
    obtain ⟨hs, hn, hok⟩ := ih hr (Nat.le_of_succ_le_succ hfuel)
    rw [head?_cons, findFrom, hnext]
    refine ⟨fun q hq => ?_, fun hq => ?_, fun hf => ?_⟩
    · split_ifs at hq with hfail hkey
      · cases hq
        exact ⟨mem_cons_self, hkey⟩
      · obtain ⟨hm, hk⟩ := hs q hq
        exact ⟨mem_cons_of_mem _ hm, hk⟩
    · split_ifs at hq with hfail hkey
      · cases hq
      · exact forall_mem_cons.2 ⟨hkey, hn hq⟩
    · rw [hf, if_neg (by decide)]
      split_ifs
      · exact ⟨_, rfl⟩
      · exact hok hf

variable (h : Chains E s live chain) (hlt : ∀ p ∈ live, p < s.pageNum) {mb : Nat} {oid : BitVec 96} {seq : Nat}

include h hlt

theorem Chains.find_some {p : Nat} (hf : E.find s mb oid seq fails = .ok (some p)) :
    p ∈ live ∧ (s.blk p).key = ⟨E.logicalID mb, oid, seq⟩ := by
  rw [LobEnv.find, h.head] at hf
  obtain ⟨hm, hk⟩ := (findFrom_spec (h.linked _) (h.length_le hlt _)).1 p hf
  exact ⟨((h.mem _ p).1 hm).1, hk⟩

theorem Chains.find_none (hf : E.find s mb oid seq fails = .ok none) :
    ∀ p ∈ live, (s.blk p).key ≠ ⟨E.logicalID mb, oid, seq⟩ := by
  rw [LobEnv.find, h.head] at hf
  intro p hp hk
  refine (findFrom_spec (h.linked _) (h.length_le hlt _)).2.1 hf p ((h.mem _ p).2 ⟨hp, ?_⟩) hk
  -- the bucket depends only on the key
  simp only [LobBlk.key, LobKey.mk.injEq] at hk
  rw [LobEnv.bucketOf, hk.2.1, hk.2.2]

theorem Chains.find_ok (hf : ∀ q, fails (.findExtent q) = false) : ∃ r, E.find s mb oid seq fails = .ok r := by
  rw [LobEnv.find, h.head]
  exact (findFrom_spec (h.linked _) (h.length_le hlt _)).2.2 hf

end Find

section Push

variable {page : Nat} {oid : BitVec 96} {seq : Nat} {fails : LobCheck → Bool}

private def linkBehind (s : LobStore) (p page : Nat) : LobStore :=
  (s.setBlk p fun blk => { blk with nextPageInBucket := some page }).setBlk page fun blk =>
    { blk with prevPageInBucket := some p, nextPageInBucket := none, removed := false }

private theorem pushBehind_spec {x : Nat} {xs : List Nat} {p : Option Nat}
    (hc : ChainTo s.next s.prev p (x :: xs) none) {fuel : Nat} (hfuel : (x :: xs).length ≤ fuel) :
    (s.pushBehind page oid seq fails fuel x = (.ok, linkBehind s ((x :: xs).getLast (cons_ne_nil _ _)) page) ∧
        ∀ q ∈ x :: xs, (s.blk q).key ≠ ⟨(s.blk page).clLogicalID, oid, seq⟩) ∨
      ((s.pushBehind page oid seq fails fuel x).1 ≠ .ok ∧ (s.pushBehind page oid seq fails fuel x).2 = s ∧
        ((∀ c, fails c = false) → ∃ q ∈ x :: xs, (s.blk q).key = ⟨(s.blk page).clLogicalID, oid, seq⟩)) := by
  induction xs generalizing fuel p x with
  | nil =>
    obtain ⟨fuel, rfl⟩ := Nat.exists_eq_succ_of_ne_zero (Nat.ne_zero_of_lt hfuel)
    have hn : (s.blk x).nextPageInBucket = none := hc.2.1
    unfold pushBehind
    simp only [hn]
    split_ifs with h1 h2 h3
    · exact .inr ⟨by simp, rfl, fun hf => by simp [hf] at h1⟩
    · exact .inr ⟨by simp, rfl, fun _ => ⟨x, by simp, h2⟩⟩
    · exact .inr ⟨by simp, rfl, fun hf => by simp [hf] at h3⟩
    · exact .inl ⟨rfl, fun q hq => mem_singleton.1 hq ▸ h2⟩
  | cons y xs ih =>
    obtain ⟨fuel, rfl⟩ := Nat.exists_eq_succ_of_ne_zero (Nat.ne_zero_of_lt hfuel)
    have hn : (s.blk x).nextPageInBucket = some y := hc.2.1
    unfold pushBehind
    simp only [hn]
    split_ifs with h1 h2
    · exact .inr ⟨by simp, rfl, fun hf => by simp [hf] at h1⟩
    · exact .inr ⟨by simp, rfl, fun _ => ⟨x, by simp, h2⟩⟩
    · obtain ⟨hok, hkeys⟩ | ⟨hrc, hs, hd⟩ := ih hc.2.2 (Nat.le_of_succ_le_succ hfuel)
      · exact .inl ⟨hok, forall_mem_cons.2 ⟨h2, hkeys⟩⟩
      · refine .inr ⟨hrc, hs, fun hf => ?_⟩
        obtain ⟨q, hq, hk⟩ := hd hf
        exact ⟨q, mem_cons_of_mem _ hq, hk⟩

private theorem next_linkBehind {p : Nat} (q : Nat) :
    (linkBehind s p page).next q = if q = page then none else if q = p then some page else s.next q := by
  simp only [LobStore.next, linkBehind, setBlk, update_apply]
  split_ifs <;> rfl

private theorem prev_linkBehind {p : Nat} (q : Nat) :
    (linkBehind s p page).prev q = if q = page then some p else s.prev q := by
  simp only [LobStore.prev, linkBehind, setBlk, update_apply]
  split_ifs <;> first | rfl | simp_all

private theorem linksOnly_linkBehind (s : LobStore) (p page : Nat) : LinksOnly s (linkBehind s p page) :=
  (linksOnly_setBlk p fun _ => rfl).trans (linksOnly_setBlk page fun _ => rfl)

theorem Chains.snoc {b : Nat} (h : Chains E s live chain) (hpage : page ∉ live) (hof : E.bucketOf (s.blk page) = b)
    (hl : LinksOnly s s')
    (hh : s'.bucket = update s.bucket b (chain b ++ [page]).head?)
    (hn : ∀ q, s'.next q = if q = page then none else if (chain b).getLast? = some q then some page else s.next q)
    (hp : ∀ q, s'.prev q = if q = page then (chain b).getLast? else s.prev q) :
    ∃ chain', Chains E s' (insert page live) chain' := by
  have hne {b' q : Nat} (hq : q ∈ chain b') : q ≠ page := fun e => hpage (e ▸ ((h.mem b' q).1 hq).1)
  refine ⟨update chain b (chain b ++ [page]), ?_, ?_, ?_, ?_⟩
  · intro b'
    rw [hh, apply_update fun _ (l : List Nat) => l.head?, funext h.head]
  · refine (forall_update_iff chain fun _ l => ChainTo s'.next s'.prev none l none).2 ⟨?_, fun b' hbb => ?_⟩
    · refine (h.linked b).snoc (h.nodup b) (fun y hy => ?_) (fun y hy => ?_) ?_ ?_
      · rw [hn, if_neg (hne hy)]
      · rw [hp, if_neg (hne hy)]
      · rw [hn, if_pos rfl]
      · rw [hp, if_pos rfl]
    · refine (h.linked b').congr (fun y hy => ?_) fun y hy => ?_
      · rw [hn, if_neg (hne hy), if_neg]
        intro hlast
        exact hbb (((h.mem b' y).1 hy).2.symm.trans ((h.mem b y).1 (List.mem_of_getLast? hlast)).2)
      · rw [hp, if_neg (hne hy)]
  · refine (forall_update_iff chain fun _ l => l.Nodup).2 ⟨?_, fun b' _ => h.nodup b'⟩
    exact (h.nodup b).append (nodup_singleton _) (disjoint_singleton.2 fun hm => hne hm rfl)
  · intro b' q
    have ho : E.bucketOf (s'.blk q) = E.bucketOf (s.blk q) := by rw [hl.blk q]; rfl
    rw [ho, Finset.mem_insert]
    by_cases hbb : b' = b
    · rw [hbb, update_self, mem_append, mem_singleton, h.mem]
      constructor
      · rintro (⟨hq, hqb⟩ | rfl)
        · exact ⟨.inr hq, hqb⟩
        · exact ⟨.inl rfl, hof⟩
      · rintro ⟨rfl | hq, hqb⟩
        · exact .inr rfl
        · exact .inl ⟨hq, hqb⟩
    · rw [update_of_ne hbb, h.mem]
      refine and_congr_left fun hqb => ⟨.inr, fun hq => hq.resolve_left ?_⟩
      rintro rfl
      exact hbb (hqb.symm.trans hof)

theorem Chains.push (h : Chains E s live chain) (oid : BitVec 96) (seq : Nat) (fails : LobCheck → Bool)
    (hlt : ∀ p ∈ live, p < s.pageNum) (hp : page ∉ live)
    (hof : E.bucketOf (s.blk page) = E.getBucket oid seq) :
    (∃ s', s.push2Bucket (E.getBucket oid seq) page oid seq fails = (.ok, s') ∧
        LinksOnly s s' ∧ (∃ chain', Chains E s' (insert page live) chain') ∧ s'.next page = none ∧
        ∀ q ∈ live, (s.blk q).key ≠ ⟨(s.blk page).clLogicalID, oid, seq⟩) ∨
      ((s.push2Bucket (E.getBucket oid seq) page oid seq fails).1 ≠ .ok ∧
        (s.push2Bucket (E.getBucket oid seq) page oid seq fails).2 = s ∧
        ((∀ c, fails c = false) → ∃ q ∈ live, (s.blk q).key = ⟨(s.blk page).clLogicalID, oid, seq⟩)) := by
  set b := E.getBucket oid seq with hb
  -- a page with the key would lie in this chain
  have hkeys : (∀ q ∈ chain b, (s.blk q).key ≠ ⟨(s.blk page).clLogicalID, oid, seq⟩) →
      ∀ q ∈ live, (s.blk q).key ≠ ⟨(s.blk page).clLogicalID, oid, seq⟩ := by
    intro hne q hq hk
    refine hne q ((h.mem b q).2 ⟨hq, ?_⟩) hk
    simp only [LobBlk.key, LobKey.mk.injEq] at hk
    rw [LobEnv.bucketOf, hk.2.1, hk.2.2]
  rw [push2Bucket, h.head b]
  cases hch : chain b with
  | nil =>
    have hl := (linksOnly_setBucket (s := s) b (some page)).trans (linksOnly_setBlk page
      (f := fun blk => { blk with prevPageInBucket := none, nextPageInBucket := none, removed := false }) fun _ => rfl)
    refine .inl ⟨_, rfl, hl, h.snoc hp hof hl ?_ ?_ ?_, ?_, hkeys (by simp [hch])⟩
    · rw [hch]
      rfl
    · intro q
      simp only [hch, LobStore.next, setBlk, setBucket, update_apply]
      split_ifs <;> simp_all
    · intro q
      simp only [hch, LobStore.prev, setBlk, setBucket, update_apply]
      split_ifs <;> simp_all
    · simp [LobStore.next, setBlk]
  | cons x xs =>
    have hlen := h.length_le hlt b
    have hlinked := h.linked b
    rw [hch] at hlen hlinked
    obtain ⟨hok, hne⟩ | ⟨hrc, hs, hd⟩ := pushBehind_spec hlinked hlen
    · have hlast : (chain b).getLast? = some ((x :: xs).getLast (cons_ne_nil _ _)) := by
        rw [hch]
        exact getLast?_eq_some_getLast _
      have hl := linksOnly_linkBehind s ((x :: xs).getLast (cons_ne_nil _ _)) page
      refine .inl ⟨_, hok, hl, h.snoc hp hof hl ?_ ?_ ?_, ?_, hkeys (hch ▸ hne)⟩
      · have hh : (chain b ++ [page]).head? = s.bucket b := by rw [h.head, hch]; rfl
        rw [hh, update_eq_self]
        rfl
      · intro q
        rw [next_linkBehind, hlast]
        simp only [Option.some.injEq, eq_comm]
      · intro q
        rw [prev_linkBehind, hlast]
      · rw [next_linkBehind, if_pos rfl]
    · refine .inr ⟨hrc, hs, fun hf => ?_⟩
      obtain ⟨q, hq, hk⟩ := hd hf
      exact ⟨q, ((h.mem b q).1 (hch ▸ hq)).1, hk⟩

end Push

section Unlink

variable {page b : Nat} (h : Chains E s live chain)

include h

theorem Chains.split (hp : page ∈ live) (hof : E.bucketOf (s.blk page) = b) :
    ∃ xs ys, chain b = xs ++ page :: ys ∧ s.prev page = xs.getLast? ∧ s.next page = ys.head? := by
  obtain ⟨xs, ys, hch⟩ := append_of_mem ((h.mem b page).2 ⟨hp, hof⟩)
  exact ⟨xs, ys, hch, (hch ▸ h.linked b).links⟩

theorem Chains.prev_of_next {n : Nat} (hp : page ∈ live) (hn : s.next page = some n) : s.prev n = some page := by
  obtain ⟨xs, ys, hch, -, hys⟩ := h.split hp rfl
  have hl := h.linked (E.bucketOf (s.blk page))
  rw [hch, ChainTo.append_iff] at hl
  rw [hn] at hys
  cases ys with
  | nil => cases hys
  | cons y ys =>
    obtain rfl := Option.some.inj hys
    exact hl.2.2.2.1

theorem Chains.prev_of_head {n : Nat} (hh : s.bucket b = some n) : s.prev n = none := by
  have hl := h.linked b
  rw [h.head] at hh
  cases hch : chain b with
  | nil => rw [hch] at hh; cases hh
  | cons x xs =>
    rw [hch] at hh hl
    obtain rfl := Option.some.inj hh
    exact hl.1

theorem Chains.of_prev {p : Nat} (hpage : page ∈ live) (hprev : s.prev page = some p) : p ∈ live ∧ p ≠ page := by
  obtain ⟨xs, ys, hch, hxs, -⟩ := h.split hpage rfl
  have hp : p ∈ xs := List.mem_of_getLast? (hxs ▸ hprev)
  have hnd := h.nodup (E.bucketOf (s.blk page))
  rw [hch] at hnd
  refine ⟨((h.mem _ p).1 (by rw [hch]; exact mem_append_left _ hp)).1, ?_⟩
  rintro rfl
  exact (nodup_append.1 hnd).2.2 p hp p mem_cons_self rfl

theorem Chains.erase {xs ys : List Nat} (hch : chain b = xs ++ page :: ys)
    (hl : LinksOnly s s') (hh : s'.bucket = update s.bucket b (xs ++ ys).head?)
    (hn : ∀ q, s'.next q = if xs.getLast? = some q then ys.head? else s.next q)
    (hp : ∀ q, s'.prev q = if ys.head? = some q then xs.getLast? else s.prev q) :
    ∃ chain', Chains E s' (live.erase page) chain' := by
  have hnd := h.nodup b
  rw [hch] at hnd
  have hm {q : Nat} (hq : q ∈ xs ++ ys) : q ∈ chain b := by
    rw [hch]
    simp only [mem_append, mem_cons] at hq ⊢
    tauto
  have ho {b' q : Nat} (hbb : b' ≠ b) (hq : q ∈ chain b') : q ∉ chain b := fun hq' =>
    hbb (((h.mem b' q).1 hq).2.symm.trans ((h.mem b q).1 hq').2)
  have hpb := ((h.mem b page).1 (by rw [hch]; simp)).2
  obtain ⟨hnot, hnd'⟩ := nodup_cons.1 (nodup_middle.1 hnd)
  refine ⟨update chain b (xs ++ ys), ?_, ?_, ?_, ?_⟩
  · intro b'
    rw [hh, apply_update fun _ (l : List Nat) => l.head?, funext h.head]
  · refine (forall_update_iff chain fun _ l => ChainTo s'.next s'.prev none l none).2 ⟨?_, fun b' hbb => ?_⟩
    · exact (hch ▸ h.linked b).unlink hnd (fun y _ => hn y) fun y _ => hp y
    · refine (h.linked b').congr (fun y hy => ?_) fun y hy => ?_
      · rw [hn, if_neg]
        exact fun e => ho hbb hy (hm (mem_append_left _ (List.mem_of_getLast? e)))
      · rw [hp, if_neg]
        exact fun e => ho hbb hy (hm (mem_append_right _ (List.mem_of_head? e)))
  · exact (forall_update_iff chain fun _ l => l.Nodup).2 ⟨hnd', fun b' _ => h.nodup b'⟩
  · intro b' q
    have hofq : E.bucketOf (s'.blk q) = E.bucketOf (s.blk q) := by rw [hl.blk q]; rfl
    rw [hofq, Finset.mem_erase]
    by_cases hbb : b' = b
    · rw [hbb, update_self, and_assoc, ← h.mem, hch]
      constructor
      · intro hq
        exact ⟨fun e => hnot (e ▸ hq), hch ▸ hm hq⟩
      · rintro ⟨hne, hq⟩
        simp only [mem_append, mem_cons] at hq ⊢
        tauto
    · rw [update_of_ne hbb, and_assoc, ← h.mem]
      refine ⟨fun hq => ⟨?_, hq⟩, And.right⟩
      rintro rfl
      exact hbb (((h.mem b' q).1 hq).2.symm.trans hpb)

omit h

/-- The page in front of the page, if there is one, is to be had, but the page behind it is not. -/
def LobStore.CutShort (s : LobStore) (page : Nat) (fails : LobCheck → Bool) : Prop :=
  (∀ p, s.prev page = some p → fails (.prevExtent p) = false) ∧ ∃ n, s.next page = some n ∧ fails (.nextExtent n) = true

theorem Chains.unlinkPage (h : Chains E s live chain) (fails : LobCheck → Bool) (hpage : page ∈ live)
    (hof : E.bucketOf (s.blk page) = b) :
    (∃ s', s.unlinkPage b page fails = (.ok, s') ∧ LinksOnly s s' ∧
        ∃ chain', Chains E s' (live.erase page) chain') ∨
      ((s.unlinkPage b page fails).1 ≠ .ok ∧ (s.unlinkPage b page fails).2 = s ∧ ∃ c, fails c) ∨
      ((s.unlinkPage b page fails).1 ≠ .ok ∧ s.CutShort page fails) := by
  obtain ⟨xs, ys, hch, hp, hn⟩ := h.split hpage hof
  rw [CutShort, hp, hn]
  unfold LobStore.unlinkPage
  rw [LobStore.prev] at hp
  rw [LobStore.next] at hn
  simp only [hp, hn]
  obtain rfl | ⟨xs, p, rfl⟩ := eq_nil_or_concat' xs
  · cases ys with
    | nil =>
      exact .inl ⟨_, rfl, linksOnly_setBucket .., h.erase hch (linksOnly_setBucket ..) rfl (by simp) (by simp)⟩
    | cons n ys =>
      simp only [getLast?_nil, head?_cons]
      split_ifs with hf
      · exact .inr (.inr ⟨by simp, by simp, n, rfl, hf⟩)
      · have hl := (linksOnly_setBucket (s := s) b (some n)).trans (linksOnly_setBlk n
          (f := fun blk => { blk with prevPageInBucket := none }) fun _ => rfl)
        refine .inl ⟨_, rfl, hl, h.erase hch hl rfl (by simp) fun q => ?_⟩
        rw [prev_setPrev, prev_setBucket]
        simp only [head?_cons, Option.some.injEq, getLast?_nil, eq_comm]
  · have hb : update s.bucket b ((xs ++ [p]) ++ ys).head? = s.bucket := by
      have : ((xs ++ [p]) ++ ys).head? = s.bucket b := by
        rw [h.head, hch]
        cases xs <;> rfl
      rw [this, update_eq_self]
    simp only [getLast?_append_of_ne_nil _ (cons_ne_nil p []), getLast?_singleton]
    split_ifs with hf
    · exact .inr (.inl ⟨by simp, rfl, _, hf⟩)
    · cases ys with
      | nil =>
        have hl := linksOnly_setBlk (s := s) p
          (f := fun blk => { blk with nextPageInBucket := ([] : List Nat).head? }) fun _ => rfl
        refine .inl ⟨_, rfl, hl, h.erase hch hl hb.symm (fun q => ?_) (by simp)⟩
        rw [next_setNext]
        simp [eq_comm]
      | cons n ys =>
        simp only [head?_cons]
        split_ifs with hf'
        · exact .inr (.inr ⟨by simp, by simpa using hf, n, rfl, hf'⟩)
        · have hl := (linksOnly_setBlk (s := s) p
            (f := fun blk => { blk with nextPageInBucket := some n }) fun _ => rfl).trans
            (linksOnly_setBlk n (f := fun blk => { blk with prevPageInBucket := some p }) fun _ => rfl)
          refine .inl ⟨_, rfl, hl, h.erase hch hl hb.symm (fun q => ?_) fun q => ?_⟩
          · rw [next_setPrev, next_setNext]
            simp [eq_comm]
          · rw [prev_setPrev, prev_setNext]
            simp [eq_comm]

theorem Chains.not_unlinkPage (h : Chains E s live chain) (hpage : page ∈ live) {fails : LobCheck → Bool}
    (hc : s.CutShort page fails) :
    (s.unlinkPage b page fails).1 ≠ .ok ∧ ¬ ∃ chain', Chains E (s.unlinkPage b page fails).2 live chain' := by
  obtain ⟨hp, n, hn, hf⟩ := hc
  have hb := h.prev_of_next hpage hn
  unfold LobStore.unlinkPage
  rw [LobStore.next] at hn
  simp only [hn, hf]
  cases hprev : (s.blk page).prevPageInBucket with
  | none =>
    refine ⟨by simp, fun ⟨chain', h'⟩ => ?_⟩
    have hnone := h'.prev_of_head (b := b) (n := n) (update_self ..)
    rw [show s.prev n = none from hnone] at hb
    cases hb
  | some p =>
    obtain ⟨hpl, hne⟩ := h.of_prev hpage hprev
    simp only [hp p hprev]
    refine ⟨by simp, fun ⟨chain', h'⟩ => ?_⟩
    have hs := h'.prev_of_next (n := n) hpl (by simp [next_setNext])
    rw [show s.prev n = some p from (prev_setNext p (some n) n).symm.trans hs] at hb
    exact hne (Option.some.inj hb)

end Unlink

end SequoiaDB.Dms
