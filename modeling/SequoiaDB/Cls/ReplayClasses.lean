import SequoiaDB.Lib.Interleaving
import SequoiaDB.Lib.Run
import SequoiaDB.Cls.Replayer

/-!
# Records of different units commute

A record that goes to a unit changes only documents whose `_id` goes to the same unit, or a piece of a LOB that goes to
it, provided that `_id`s that are equal for the index go to one unit (`HashAgrees`) and that the collection has no unique
index but `$id`.  So two records of different units can be replayed in either order (`commuteAt`).
-/

namespace SequoiaDB.Cls

open Bson Lib Function Option Store Collection Doc Replayer

variable {μ κ : Type*} {F G : Bool → Multiset Doc → Option (Multiset Doc)}

def HashAgrees (bitSize : Nat) (K : Set IdEle) : Prop :=
  ∀ i ∈ K, ∀ j ∈ K, i.same j = true → calcIndex bitSize i.value = calcIndex bitSize j.value

def Doc.InUnit {bitSize : Nat} (u : Fin (2 ^ bitSize)) (d : Doc) : Prop :=
  (d.idEle.map fun i => calcIndex bitSize i.value) = some u

instance {bitSize : Nat} (u : Fin (2 ^ bitSize)) : DecidablePred (InUnit u) := fun d =>
  inferInstanceAs (Decidable ((d.idEle.map fun i => calcIndex bitSize i.value) = some u))

def IdsIn (K : Set IdEle) (docs : Multiset Doc) : Prop := ∀ d ∈ docs, ∀ i, d.idEle = some i → i ∈ K

theorem Doc.hasId_iff {d : Doc} {i : IdEle} : d.hasId i ↔ ∃ j, d.idEle = some j ∧ j.same i := by
  unfold hasId
  cases d.idEle <;> simp

section Local

variable {bitSize : Nat} {K : Set IdEle} (hK : HashAgrees bitSize K) {u : Fin (2 ^ bitSize)} {i : IdEle} (hi : i ∈ K)
  (hu : calcIndex bitSize i.value = u) {docs : Multiset Doc} (hdocs : IdsIn K docs)
include hK hi hu hdocs

theorem inUnit_of_hasId {d : Doc} (hd : d ∈ docs) (h : d.hasId i) : d.InUnit u := by
  obtain ⟨j, hj, hs⟩ := hasId_iff.1 h
  rw [InUnit, hj, map_some, hK j (hdocs d hd j hj) i hi hs, hu]

theorem exists_hasId_iff : (∃ d ∈ docs, d.hasId i) ↔ ∃ d ∈ docs.filter (InUnit u), d.hasId i := by
  constructor
  · rintro ⟨d, hd, h⟩
    exact ⟨d, Multiset.mem_filter.2 ⟨hd, inUnit_of_hasId hK hi hu hdocs hd h⟩, h⟩
  · rintro ⟨d, hd, h⟩
    exact ⟨d, (Multiset.mem_filter.1 hd).1, h⟩

theorem filter_hasId_eq :
    (docs.filter (InUnit u)).filter (fun d => d.hasId i = true) = docs.filter fun d => d.hasId i = true := by
  rw [Multiset.filter_filter]
  refine Multiset.filter_congr fun d hd => ?_
  exact ⟨And.left, fun h => ⟨h, inUnit_of_hasId hK hi hu hdocs hd h⟩⟩

theorem filter_not_hasId_eq :
    docs.filter (fun d => ¬ d.hasId i = true) =
      (docs.filter (InUnit u)).filter (fun d => ¬ d.hasId i = true) + docs.filter fun d => ¬ d.InUnit u := by
  have hs := (Multiset.filter_add_not (InUnit u) (docs.filter fun d => ¬ d.hasId i = true)).symm
  rw [Multiset.filter_filter, Multiset.filter_filter] at hs
  rw [hs, Multiset.filter_filter]
  congr 1
  · exact Multiset.filter_congr fun d _ => and_comm
  · refine Multiset.filter_congr fun d hd => ?_
    exact ⟨And.left, fun h => ⟨h, fun hid => h (inUnit_of_hasId hK hi hu hdocs hd hid)⟩⟩

end Local

/-! ### What a data record does to the documents -/

/-- `insertRecord` in a collection that may have the index `$id` and no other unique one. -/
def insertDocs (obj : Doc) (noIdIndex : Bool) (docs : Multiset Doc) : Option (Multiset Doc) :=
  if obj.isEmpty then none
  else some (if noIdIndex = false ∧ ∃ d ∈ docs, d.sameId obj = true then docs else obj ::ₘ docs)

def deleteDocs (i : IdEle) (noIdIndex : Bool) (docs : Multiset Doc) : Option (Multiset Doc) :=
  if noIdIndex then none else some (docs.filter fun d => ¬ d.hasId i = true)

def updateDocs (modify : Doc → Option Doc) (i : IdEle) (noIdIndex : Bool) (docs : Multiset Doc) :
    Option (Multiset Doc) :=
  let matched := docs.filter fun d => d.hasId i = true
  let rest := docs.filter fun d => ¬ d.hasId i = true
  let changed := matched.filterMap modify
  if noIdIndex = true ∨ ∃ d ∈ matched, (modify d).isNone = true then none
  else if ∃ d ∈ changed, ∃ e ∈ rest, e.sameId d = true then none
  else some (changed + rest)

section Within

variable {bitSize : Nat} {K : Set IdEle} (hK : HashAgrees bitSize K) {u : Fin (2 ^ bitSize)} {i : IdEle} (hi : i ∈ K)
  (hu : calcIndex bitSize i.value = u) {obj : Doc}

def IdsFrom (k : IdEle) (F : Bool → Multiset Doc → Option (Multiset Doc)) : Prop :=
  ∀ noId docs x, F noId docs = some x → ∀ d ∈ x, (∃ e ∈ docs, d.idEle = e.idEle) ∨ d.idEle = some k

theorem IdsFrom.within {k : IdEle} (h : IdsFrom k F) (hk : calcIndex bitSize k.value = u) (noId : Bool) :
    Within (InUnit u) (F noId) := by
  intro m x hm hx d hd
  rcases h noId m x hx d hd with ⟨e, he, heq⟩ | heq
  · rw [InUnit, heq]
    exact hm e he
  · rw [InUnit, heq, map_some, hk]

theorem IdsFrom.idsIn {k : IdEle} (h : IdsFrom k F) (hk : k ∈ K) (noId : Bool) (docs x : Multiset Doc) (hdocs : IdsIn K docs) (hx : F noId docs = some x) : IdsIn K x := by
  intro d hd l hl
  rcases h noId docs x hx d hd with ⟨e, he, heq⟩ | heq
  · exact hdocs e he l (heq.symm.trans hl)
  · exact some.inj (heq.symm.trans hl) ▸ hk

theorem insertDocs_idsFrom (ho : obj.idEle = some i) : IdsFrom i (insertDocs obj) := by
  intro noId docs x hx d hd
  unfold insertDocs at hx
  split at hx
  · cases hx
  · obtain rfl := some.inj hx
    split at hd
    · exact .inl ⟨d, hd, rfl⟩
    · rcases Multiset.mem_cons.1 hd with rfl | hd
      · exact .inr ho
      · exact .inl ⟨d, hd, rfl⟩

theorem deleteDocs_idsFrom : IdsFrom i (deleteDocs i) := by
  intro noId docs x hx d hd
  unfold deleteDocs at hx
  split at hx
  · cases hx
  · obtain rfl := some.inj hx
    exact .inl ⟨d, (Multiset.mem_filter.1 hd).1, rfl⟩

variable {modify : Doc → Option Doc} {j : IdEle}
  (hmod : ∀ d d', d.hasId i = true → modify d = some d' → d'.idEle = d.idEle ∨ d'.idEle = some j)
include hmod

variable {docs : Multiset Doc} {d' : Doc}

theorem idEle_of_changed (h : d' ∈ (docs.filter fun d => d.hasId i = true).filterMap modify) :
    (∃ d ∈ docs, d.hasId i ∧ d'.idEle = d.idEle) ∨ d'.idEle = some j := by
  obtain ⟨d, hd, hda⟩ := (Multiset.mem_filterMap modify _).1 h
  obtain ⟨hd, hid⟩ := Multiset.mem_filter.1 hd
  exact (hmod d d' hid hda).imp_left fun heq => ⟨d, hd, hid, heq⟩

theorem updateDocs_idsFrom : IdsFrom j (updateDocs modify i) := by
  intro noId docs x hx d hd
  simp only [updateDocs] at hx
  split at hx
  · cases hx
  · split at hx
    · cases hx
    · obtain rfl := some.inj hx
      rcases Multiset.mem_add.1 hd with hd | hd
      · exact (idEle_of_changed hmod hd).imp_left fun ⟨e, he, _, heq⟩ => ⟨e, he, heq⟩
      · exact .inl ⟨d, (Multiset.mem_filter.1 hd).1, rfl⟩

include hK hi hu

theorem exists_id_of_changed (hj : j ∈ K) (hju : calcIndex bitSize j.value = u) (hdocs : IdsIn K docs)
    (h : d' ∈ (docs.filter fun d => d.hasId i = true).filterMap modify) :
    ∃ k ∈ K, calcIndex bitSize k.value = u ∧ d'.idEle = some k := by
  rcases idEle_of_changed hmod h with ⟨d, hd, hid, heq⟩ | heq
  · obtain ⟨k, hk, hs⟩ := hasId_iff.1 hid
    have hkK := hdocs d hd k hk
    exact ⟨k, hkK, (hK k hkK i hi hs).trans hu, heq.trans hk⟩
  · exact ⟨j, hj, hju, heq⟩

theorem updateDocs_local (hj : j ∈ K) (hju : calcIndex bitSize j.value = u) (noId : Bool) (hdocs : IdsIn K docs) :
    updateDocs modify i noId docs = onClass (InUnit u) (updateDocs modify i noId) docs := by
  have hr : IdsIn K (docs.filter fun d => ¬ d.hasId i = true) := fun d hd => hdocs d (Multiset.mem_filter.1 hd).1
  have hh : (∃ d ∈ (docs.filter fun d => d.hasId i = true).filterMap modify,
      ∃ e ∈ docs.filter fun d => ¬ d.hasId i = true, e.sameId d = true) ↔
      ∃ d ∈ (docs.filter fun d => d.hasId i = true).filterMap modify,
        ∃ e ∈ (docs.filter (InUnit u)).filter fun d => ¬ d.hasId i = true, e.sameId d = true := by
    refine exists_congr fun d => and_congr_right fun hd => ?_
    obtain ⟨k, hk, hku, hid⟩ := exists_id_of_changed hK hi hu hmod hj hju hdocs hd
    have hs : ∀ e : Doc, e.sameId d = e.hasId k := fun e => by rw [sameId, hid]
    simp only [hs]
    rw [exists_hasId_iff hK hk hku hr, Multiset.filter_filter, Multiset.filter_filter]
    simp only [and_comm]
  unfold onClass updateDocs
  simp only [filter_hasId_eq hK hi hu hdocs, hh]
  split
  · rfl
  · split
    · rfl
    · rw [map_some, filter_not_hasId_eq hK hi hu hdocs, Multiset.add_assoc]

omit hmod

theorem insertDocs_local (ho : obj.idEle = some i) (noId : Bool) (hdocs : IdsIn K docs) :
    insertDocs obj noId docs = onClass (InUnit u) (insertDocs obj noId) docs := by
  have hs : ∀ d : Doc, d.sameId obj = d.hasId i := fun d => by rw [sameId, ho]
  unfold onClass insertDocs
  simp only [hs, exists_hasId_iff hK hi hu hdocs]
  split
  · rfl
  · rw [map_some]
    congr 1
    split
    · exact (Multiset.filter_add_not (InUnit u) docs).symm
    · rw [Multiset.cons_add, Multiset.filter_add_not]

theorem deleteDocs_local (noId : Bool) (hdocs : IdsIn K docs) :
    deleteDocs i noId docs = onClass (InUnit u) (deleteDocs i noId) docs := by
  unfold onClass deleteDocs
  split
  · rfl
  · rw [map_some, filter_not_hasId_eq hK hi hu hdocs]

end Within

/-! ### Operations on the store -/

namespace Store

variable (s : Store)

def onDocs (n : Name) (F : Bool → Multiset Doc → Option (Multiset Doc)) : Option Store :=
  (s.collections n).bind fun c => (F c.noIdIndex c.docs).map fun docs =>
    { s with collections := update s.collections n (some { c with docs := docs }) }

def onLob (n : Name) (piece : LobPiece) (len : Nat) (g : Option LobData → Option (Option LobData)) : Option Store :=
  (s.collections n).bind fun c =>
    if len > c.lobdPageSize then none
    else (g (s.lobs (n, piece))).map fun x => { s with lobs := update s.lobs (n, piece) x }

variable {s} {n : Name}

theorem onDocs_of_some {c : Collection} (hc : s.collections n = some c) : s.onDocs n F = (F c.noIdIndex c.docs).map fun docs =>
    { s with collections := update s.collections n (some { c with docs := docs }) } := by
  rw [onDocs, hc, bind_some]

theorem onDocs_onDocs :
    ((s.onDocs n F).bind fun t => t.onDocs n G) = s.onDocs n fun noId docs => (F noId docs).bind (G noId) := by
  cases hc : s.collections n with
  | none => simp only [onDocs, hc, bind_none]
  | some c =>
    rw [onDocs_of_some hc, onDocs_of_some hc]
    cases F c.noIdIndex c.docs with
    | none => rfl
    | some docs =>
      rw [map_some, bind_some, bind_some, onDocs_of_some (update_self ..)]
      simp only [update_idem]

variable {t : Store}

theorem onDocs_eq_some (h : s.onDocs n F = some t) : ∃ c docs, s.collections n = some c ∧
    F c.noIdIndex c.docs = some docs ∧
    t = { s with collections := update s.collections n (some { c with docs := docs }) } := by
  rw [onDocs] at h
  obtain ⟨c, hc, h⟩ := bind_eq_some_iff.1 h
  obtain ⟨docs, hdocs, rfl⟩ := map_eq_some_iff.1 h
  exact ⟨c, docs, hc, hdocs, rfl⟩

theorem onDocs_of_onDocs {n n' : Name} (hne : n ≠ n') (h : s.onDocs n F = some t) :
    t.onDocs n' G = (s.onDocs n' G).map fun r =>
      { r with collections := update r.collections n (t.collections n) } := by
  obtain ⟨c, docs, -, -, rfl⟩ := onDocs_eq_some h
  rw [onDocs, onDocs]
  simp only [update_of_ne hne.symm, update_self]
  cases s.collections n' with
  | none => rfl
  | some c' => simp only [bind_some, map_map, comp_def, update_comm hne]

theorem onDocs_comm {n n' : Name} (hne : n ≠ n') :
    ((s.onDocs n F).bind fun t => t.onDocs n' G) = (s.onDocs n' G).bind fun t => t.onDocs n F := by
  refine bind_comm_of_map (f := (onDocs · n F)) (g := (onDocs · n' G)) (fun t => onDocs_of_onDocs hne)
    (fun t => onDocs_of_onDocs hne.symm) ?_
  intro t r ht hr
  obtain ⟨c, docs, -, -, rfl⟩ := onDocs_eq_some ht
  obtain ⟨c', docs', -, -, rfl⟩ := onDocs_eq_some hr
  simp only [update_self, update_comm hne]

theorem onDocs_setLobs (lobs : Name × LobPiece → Option LobData) :
    ({ s with lobs := lobs } : Store).onDocs n F = (s.onDocs n F).map fun t => { t with lobs := lobs } := by
  rw [onDocs, onDocs]
  cases s.collections n with
  | none => rfl
  | some c => simp only [bind_some, map_map, comp_def]

theorem of_onDocs (h : s.onDocs n F = some t) : t.lobs = s.lobs ∧ ∀ m, (t.collections m).map lobdPageSize =
      (s.collections m).map lobdPageSize := by
  obtain ⟨c, docs, hc, -, rfl⟩ := onDocs_eq_some h
  refine ⟨rfl, fun m => ?_⟩
  by_cases hm : m = n
  · subst hm
    simp only [update_self, hc, map_some]
  · simp only [update_of_ne hm]

variable {n n' : Name} {p p' : LobPiece} {len len' : Nat} {g g' : Option LobData → Option (Option LobData)}

theorem onLob_eq : s.onLob n p len g = ((s.collections n).map lobdPageSize).bind fun size =>
    if len > size then none
    else (g (s.lobs (n, p))).map fun x => { s with lobs := update s.lobs (n, p) x } := by
  rw [onLob]
  cases s.collections n <;> rfl

theorem onLob_congr (hl : t.lobs = s.lobs)
    (hp : ∀ m, (t.collections m).map lobdPageSize = (s.collections m).map lobdPageSize) :
    t.onLob n p len g = (s.onLob n p len g).map fun r => { r with collections := t.collections } := by
  rw [onLob_eq, onLob_eq, hp, hl]
  cases (s.collections n).map lobdPageSize with
  | none => rfl
  | some size =>
    simp only [bind_some]
    split
    · rfl
    · rw [map_map]
      rfl

theorem onLob_eq_some (h : s.onLob n p len g = some t) :
    ∃ x, g (s.lobs (n, p)) = some x ∧ t = { s with lobs := update s.lobs (n, p) x } := by
  rw [onLob] at h
  obtain ⟨c, -, h⟩ := bind_eq_some_iff.1 h
  split at h
  · cases h
  · obtain ⟨x, hx, rfl⟩ := map_eq_some_iff.1 h
    exact ⟨x, hx, rfl⟩

theorem onDocs_onLob_comm :
    ((s.onDocs n F).bind fun t => t.onLob n' p len g) = (s.onLob n' p len g).bind fun t => t.onDocs n F := by
  refine bind_comm_of_map (f := (onDocs · n F)) (g := (onLob · n' p len g)) (G := fun r t => { t with lobs := r.lobs })
    (fun t ht => onLob_congr (of_onDocs ht).1 (of_onDocs ht).2) ?_ ?_
  · intro r hr
    obtain ⟨x, -, rfl⟩ := onLob_eq_some hr
    exact onDocs_setLobs _
  · intro t r ht hr
    obtain ⟨x, -, rfl⟩ := onLob_eq_some hr
    rfl

theorem onLob_of_onLob (hne : (n, p) ≠ (n', p')) (h : s.onLob n p len g = some t) :
    t.onLob n' p' len' g' = (s.onLob n' p' len' g').map fun r =>
      { r with lobs := update r.lobs (n, p) (t.lobs (n, p)) } := by
  obtain ⟨x, -, rfl⟩ := onLob_eq_some h
  rw [onLob, onLob]
  cases s.collections n' with
  | none => rfl
  | some c =>
    simp only [bind_some]
    split
    · rfl
    · rw [update_of_ne hne.symm, map_map, update_self]
      simp only [comp_def, update_comm hne]

theorem onLob_comm (hne : (n, p) ≠ (n', p')) : ((s.onLob n p len g).bind fun t => t.onLob n' p' len' g') =
      (s.onLob n' p' len' g').bind fun t => t.onLob n p len g := by
  refine bind_comm_of_map (f := (onLob · n p len g)) (g := (onLob · n' p' len' g')) (fun t => onLob_of_onLob hne)
    (fun t => onLob_of_onLob hne.symm) ?_
  intro t r ht hr
  obtain ⟨x, -, rfl⟩ := onLob_eq_some ht
  obtain ⟨x', -, rfl⟩ := onLob_eq_some hr
  simp only [update_self, update_comm hne]

end Store

/-! ### Records -/

def Collection.Plain (c : Collection) : Prop := c.unique = [] ∧ c.capped = false

theorem Collection.Plain.collides {c : Collection} (hp : c.Plain) (d e : Doc) :
    c.collides d e = (!c.noIdIndex && d.sameId e) := by
  simp [Collection.collides, hp.1]

namespace Replayer

variable {R : Replayer μ κ} {s : Store} {n : Name} {c : Collection} {r : Record μ κ}

theorem exec_of_onCollection {f : Collection → Rc × Collection} (hr : R.replay s r = s.onCollection n f)
    (hc : s.collections n = some c)
    (hF : F c.noIdIndex c.docs = if (f c).1 = .ok then some (f c).2.docs else none)
    (hf : (f c).1 = .ok → (f c).2 = { c with docs := (f c).2.docs }) : R.exec s r = s.onDocs n F := by
  rw [exec, hr, onDocs_of_some hc, hF, Store.onCollection, hc]
  by_cases hok : (f c).1 = .ok
  · simp only [if_pos hok, map_some]
    rw [← hf hok]
  · simp only [if_neg hok, map_none]

theorem exec_insert (hc : s.collections n = some c) (hp : c.Plain) (obj : Doc) :
    R.exec s (.dataInsert n obj) = s.onDocs n (insertDocs obj) := by
  have hdup : (∃ d ∈ c.docs, c.collides d obj = true) ↔ c.noIdIndex = false ∧ ∃ d ∈ c.docs, d.sameId obj = true := by
    simp only [hp.collides, Bool.and_eq_true, Bool.not_eq_true', and_left_comm, exists_and_left]
  have hposition : ¬ (c.capped && !obj.hasPosition) = true := by simp [hp.2]
  rw [exec, onDocs_of_some hc, insertDocs, replay]
  by_cases he : obj.isEmpty = true
  · simp [he]
  · rw [if_neg he, if_neg he, map_some, Store.onCollection, hc]
    by_cases hd : c.noIdIndex = false ∧ ∃ d ∈ c.docs, d.sameId obj = true
    · have hi : c.insertRecord obj = (.ixmDupKey, c) := by
        rw [insertRecord, if_neg hposition, if_pos (hdup.2 hd)]
      simp only [hi, if_pos hd]
      rfl
    · have hi : c.insertRecord obj = (.ok, { c with docs := obj ::ₘ c.docs }) := by
        rw [insertRecord, if_neg hposition, if_neg fun h => hd (hdup.1 h)]
      simp only [hi, if_neg hd]
      rfl

theorem exec_delete (hc : s.collections n = some c) (hp : c.Plain) {obj : Doc} {i : IdEle} (hi : obj.idEle = some i) :
    R.exec s (.dataDelete n obj) = s.onDocs n (deleteDocs i) := by
  refine exec_of_onCollection (f := fun c => c.delete i) (by rw [replay, hi]) hc ?_ ?_
  · rw [deleteDocs, delete, hp.2]
    cases c.noIdIndex <;> rfl
  · intro _
    rw [delete]
    split <;> rfl

theorem exec_update (hc : s.collections n = some c) (hp : c.Plain) {i j : IdEle} {mod : μ}
    (hm : R.isEmpty mod = false) :
    R.exec s (.dataUpdate n i j mod) = s.onDocs n (updateDocs (R.modify mod) i) := by
  refine exec_of_onCollection (f := fun c => c.update (R.modify mod) i)
    (by rw [replay, if_neg (by rw [hm]; exact Bool.false_ne_true)]) hc ?_ ?_
  · simp only [updateDocs, Collection.update, hp.collides]
    cases hid : c.noIdIndex with
    | true => simp
    | false =>
      simp only [Bool.false_eq_true, false_or, if_false, Bool.not_false, Bool.true_and]
      split
      · rfl
      · split <;> rfl
  · intro _
    simp only [Collection.update]
    split
    · rfl
    · split
      · rfl
      · split <;> rfl

def pieceOf (code : Rc) (f : Option LobData → Rc × Option LobData) (x : Option LobData) : Option (Option LobData) :=
  if (forgive code (f x)).1 = .ok then some (f x).2 else none

theorem exec_of_onPiece {code : Rc} (h1 : code ≠ .dmsNotexist) (h2 : code ≠ .sys) {piece : LobPiece} {len : Nat}
    {f : Option LobData → Rc × Option LobData} (hr : R.replay s r = forgive code (s.onPiece n piece len f)) :
    R.exec s r = s.onLob n piece len (pieceOf code f) := by
  rw [exec, hr, onLob, Store.onPiece]
  cases s.collections n with
  | none =>
    simp [forgive, h1.symm]
  | some c =>
    simp only [bind_some]
    split
    · simp [forgive, h2.symm]
    · simp only [pieceOf, forgive]
      by_cases hc : (f (s.lobs (n, piece))).1 = code
      · simp [hc]
      · simp only [if_neg hc]
        split <;> rfl

theorem forgive_ok {σ : Type*} (r : Rc × σ) : forgive .ok r = r := by
  unfold forgive
  split
  · rename_i h
    rw [← h]
  · rfl

theorem exec_lobWrite (piece : LobPiece) (off : Nat) (data : List UInt8) : R.exec s (.lobWrite n piece off data) =
      s.onLob n piece (off + data.length) (pieceOf .lobSequenceExists (writePiece off data)) :=
  exec_of_onPiece (by decide) (by decide) rfl

theorem exec_lobUpdate (piece : LobPiece) (off : Nat) (data : List UInt8) : R.exec s (.lobUpdate n piece off data) =
      s.onLob n piece (off + data.length) (pieceOf .ok (updatePiece off data)) :=
  exec_of_onPiece (by decide) (by decide) (forgive_ok _).symm

theorem exec_lobRemove (piece : LobPiece) :
    R.exec s (.lobRemove n piece) = s.onLob n piece 0 (pieceOf .lobSequenceNotExist removePiece) :=
  exec_of_onPiece (by decide) (by decide) rfl

end Replayer

/-! ### Commutation -/

def Collection.frame (c : Collection) : Collection := { c with docs := 0 }

def Store.IdsIn (K : Set IdEle) (s : Store) : Prop := ∀ n c, s.collections n = some c → Cls.IdsIn K c.docs

/-- The collections are those of `M`, up to their documents, and the `_id`s are in `K`. -/
structure Store.Over (M : Name → Option Collection) (K : Set IdEle) (s : Store) : Prop where
  frames : ∀ n, (s.collections n).map frame = M n
  ids : s.IdsIn K

def Names (modify : Doc → Option Doc) (i j : IdEle) : Prop :=
  ∀ d d', d.hasId i = true → modify d = some d' → d'.idEle = d.idEle ∨ d'.idEle = some j

def Placed (R : Replayer μ κ) {bitSize : Nat} (M : Name → Option Collection) (K : Set IdEle) (u : Fin (2 ^ bitSize)) :
    Record μ κ → Prop
  | .dataInsert n obj | .dataDelete n obj =>
    (∃ c, M n = some c ∧ c.Plain) ∧ ∃ i ∈ K, obj.idEle = some i ∧ calcIndex bitSize i.value = u
  | .dataUpdate n i j modifier =>
    (∃ c, M n = some c ∧ c.Plain) ∧ i ∈ K ∧ j ∈ K ∧ i.same j = true ∧ calcIndex bitSize i.value = u ∧
      Names (R.modify modifier) i j
  | .lobWrite _ piece _ _ | .lobUpdate _ piece _ _ | .lobRemove _ piece => calcIndex bitSize piece.bytes = u
  | .dummy => True
  | .other _ => False

/-- An operation on documents that looks at the unit `u` only. -/
structure DocsAt {bitSize : Nat} (K : Set IdEle) (u : Fin (2 ^ bitSize))
    (F : Bool → Multiset Doc → Option (Multiset Doc)) : Prop where
  isLocal : ∀ noId docs, IdsIn K docs → F noId docs = onClass (InUnit u) (F noId) docs
  within : ∀ noId, Within (InUnit u) (F noId)
  keeps : ∀ noId docs x, IdsIn K docs → F noId docs = some x → IdsIn K x

/-- What a record of the unit `u` does. -/
inductive ShapeAt (R : Replayer μ κ) {bitSize : Nat} (M : Name → Option Collection) (K : Set IdEle)
    (u : Fin (2 ^ bitSize)) (r : Record μ κ) : Prop
  | docs (n : Name) (F : Bool → Multiset Doc → Option (Multiset Doc)) (hF : DocsAt K u F)
      (h : ∀ s : Store, s.Over M K → R.exec s r = s.onDocs n F)
  | piece (n : Name) (p : LobPiece) (len : Nat) (g : Option LobData → Option (Option LobData))
      (hp : calcIndex bitSize p.bytes = u) (h : ∀ s : Store, R.exec s r = s.onLob n p len g)
  | skip (h : ∀ s : Store, R.exec s r = some s)

section Commute

variable {R : Replayer μ κ} {bitSize : Nat} {M : Name → Option Collection} {K : Set IdEle} {s t : Store}
  {u v : Fin (2 ^ bitSize)} {r r' : Record μ κ} {n : Name}

theorem Store.Over.plain (h : s.Over M K) (hn : ∃ c, M n = some c ∧ c.Plain) :
    ∃ c, s.collections n = some c ∧ c.Plain := by
  obtain ⟨c, hM, hc⟩ := hn
  rw [← h.frames n] at hM
  obtain ⟨c', hc', rfl⟩ := map_eq_some_iff.1 hM
  exact ⟨c', hc', hc⟩

theorem Store.IdsIn.setDocs {c : Collection} (hs : s.IdsIn K) (hc : Cls.IdsIn K c.docs) :
    Store.IdsIn K { s with collections := update s.collections n (some c) } :=
  forall_update (P := fun x : Option Collection => ∀ c, x = some c → Cls.IdsIn K c.docs) hs fun _ h => some.inj h ▸ hc

theorem Store.Over.onDocs (h : s.Over M K)
    (hF : ∀ noId docs x, Cls.IdsIn K docs → F noId docs = some x → Cls.IdsIn K x) (ht : s.onDocs n F = some t) :
    t.Over M K := by
  obtain ⟨c, docs, hc, hdocs, rfl⟩ := onDocs_eq_some ht
  constructor
  · intro m
    rw [← h.frames m]
    by_cases hm : m = n
    · subst hm
      simp only [hc, update_self, map_some]
      rfl
    · simp only [update_of_ne hm]
  · exact h.ids.setDocs (hF _ _ _ (h.ids n c hc) hdocs)

variable (hK : HashAgrees bitSize K)
include hK

theorem Placed.shapeAt (h : Placed R M K u r) : ShapeAt R M K u r := by
  cases r with
  | dataInsert n obj =>
    obtain ⟨hn, i, hi, ho, hu⟩ := h
    have hf := insertDocs_idsFrom ho
    refine .docs n (insertDocs obj) ⟨?_, hf.within hu, hf.idsIn hi⟩ fun s hs => ?_
    · exact fun noId _ => insertDocs_local hK hi hu ho noId
    · obtain ⟨c, hc, hp⟩ := hs.plain hn
      exact exec_insert hc hp obj
  | dataDelete n obj =>
    obtain ⟨hn, i, hi, ho, hu⟩ := h
    have hf := deleteDocs_idsFrom (i := i)
    refine .docs n (deleteDocs i) ⟨?_, hf.within hu, hf.idsIn hi⟩ fun s hs => ?_
    · exact fun noId _ => deleteDocs_local hK hi hu noId
    · obtain ⟨c, hc, hp⟩ := hs.plain hn
      exact exec_delete hc hp ho
  | dataUpdate n i j mod =>
    obtain ⟨hn, hi, hj, hsame, hu, hnames⟩ := h
    have hju : calcIndex bitSize j.value = u := (hK i hi j hj hsame).symm.trans hu
    by_cases hm : R.isEmpty mod = true
    · refine .skip fun s => ?_
      rw [exec, replay, if_pos hm]
      rfl
    · have hf := updateDocs_idsFrom hnames
      refine .docs n (updateDocs (R.modify mod) i) ⟨?_, hf.within hju, hf.idsIn hj⟩ fun s hs => ?_
      · exact fun noId _ => updateDocs_local hK hi hu hnames hj hju noId
      · obtain ⟨c, hc, hp⟩ := hs.plain hn
        exact exec_update hc hp (by simpa using hm)
  | lobWrite n p off data => exact .piece n p _ _ h fun s => exec_lobWrite p off data
  | lobUpdate n p off data => exact .piece n p _ _ h fun s => exec_lobUpdate p off data
  | lobRemove n p => exact .piece n p _ _ h fun s => exec_lobRemove p
  | dummy => exact .skip fun s => rfl
  | other kind => exact absurd h id

theorem Placed.keeps (h : Placed R M K u r) (hs : s.Over M K) (ht : R.exec s r = some t) : t.Over M K := by
  cases h.shapeAt hK with
  | docs n F hF hr =>
    rw [hr s hs] at ht
    exact hs.onDocs hF.keeps ht
  | piece n p len g _ hr =>
    rw [hr s] at ht
    obtain ⟨x, -, rfl⟩ := onLob_eq_some ht
    exact ⟨hs.frames, hs.ids⟩
  | skip hr =>
    rw [hr s] at ht
    exact some.inj ht ▸ hs

omit hK

theorem DocsAt.comm (huv : u ≠ v) (hF : DocsAt K u F)
    (hG : DocsAt K v G) (noId : Bool) {docs : Multiset Doc} (hdocs : IdsIn K docs) :
    (F noId docs).bind (G noId) = (G noId docs).bind (F noId) := by
  have hd : ∀ d : Doc, d.InUnit u → ¬ d.InUnit v := fun d hu hv => huv (some.inj (hu.symm.trans hv))
  have hFG : (F noId docs).bind (G noId) = (onClass (InUnit u) (F noId) docs).bind (onClass (InUnit v) (G noId)) := by
    rw [← hF.isLocal noId docs hdocs]
    exact Option.bind_congr fun x hx => hG.isLocal noId x (hF.keeps noId docs x hdocs hx)
  have hGF : (G noId docs).bind (F noId) = (onClass (InUnit v) (G noId) docs).bind (onClass (InUnit u) (F noId)) := by
    rw [← hG.isLocal noId docs hdocs]
    exact Option.bind_congr fun x hx => hF.isLocal noId x (hG.keeps noId docs x hdocs hx)
  rw [hFG, hGF]
  exact onClass_comm hd (hF.within noId) (hG.within noId) docs

include hK

theorem Placed.commuteAt (h : Placed R M K u r) (h' : Placed R M K v r') (huv : u ≠ v) (hs : s.Over M K) :
    CommuteAt R.exec s r r' := by
  have hk : ∀ t, R.exec s r = some t → t.Over M K := fun t ht => h.keeps hK hs ht
  have hkeep' : ∀ t, R.exec s r' = some t → t.Over M K := fun t ht => h'.keeps hK hs ht
  unfold CommuteAt
  cases h.shapeAt hK with
  | skip hr =>
    rw [hr s, bind_some]
    simp only [hr]
    exact (bind_fun_some _).symm
  | piece n p len g hp hr =>
    simp only [hr]
    cases h'.shapeAt hK with
    | skip hr' =>
      simp only [hr', bind_some]
      exact bind_fun_some _
    | piece n' p' len' g' hp' hr' =>
      simp only [hr']
      refine onLob_comm fun heq => huv ?_
      rw [← hp, ← hp', (Prod.mk.inj heq).2]
    | docs n' G hG hr' =>
      rw [hr' s hs]
      have hswap : ((s.onLob n p len g).bind fun t => R.exec t r') =
          (s.onLob n p len g).bind fun t => t.onDocs n' G :=
        Option.bind_congr fun t ht => hr' t (hk t ((hr s).trans ht))
      rw [hswap]
      exact onDocs_onLob_comm.symm
  | docs n F hF hr =>
    rw [hr s hs]
    have hl : ((R.exec s r').bind fun t => R.exec t r) = (R.exec s r').bind fun t => t.onDocs n F :=
      Option.bind_congr fun t ht => hr t (hkeep' t ht)
    rw [hl]
    cases h'.shapeAt hK with
    | skip hr' =>
      simp only [hr', bind_some]
      exact bind_fun_some _
    | piece n' p' len' g' hp' hr' =>
      simp only [hr']
      exact onDocs_onLob_comm
    | docs n' G hG hr' =>
      have hright : ((s.onDocs n F).bind fun t => R.exec t r') = (s.onDocs n F).bind fun t => t.onDocs n' G :=
        Option.bind_congr fun t ht => hr' t (hk t ((hr s hs).trans ht))
      rw [hright, hr' s hs]
      by_cases hn : n = n'
      · subst hn
        rw [onDocs_onDocs, onDocs_onDocs]
        cases hc : s.collections n with
        | none => simp only [Store.onDocs, hc, bind_none]
        | some c =>
          rw [onDocs_of_some hc, onDocs_of_some hc, hF.comm huv hG c.noIdIndex (hs.ids n c hc)]
      · exact onDocs_comm hn

end Commute

/-! ### The `_id`s of a store -/

def Record.ids : Record μ κ → List IdEle
  | .dataInsert _ obj | .dataDelete _ obj => obj.idEle.toList
  | .dataUpdate _ i j _ => [i, j]
  | .lobWrite .. | .lobUpdate .. | .lobRemove .. | .dummy | .other _ => []

def Record.WellNamed (R : Replayer μ κ) : Record μ κ → Prop
  | .dataUpdate _ i j modifier => Names (R.modify modifier) i j
  | _ => True

section Ids

variable {R : Replayer μ κ} {K : Set IdEle} {s t : Store} {r : Record μ κ} {n : Name}

theorem Store.IdsIn.onCollection (hs : s.IdsIn K) {f : Collection → Rc × Collection}
    (hf : ∀ c, Cls.IdsIn K c.docs → Cls.IdsIn K (f c).2.docs) : (s.onCollection n f).2.IdsIn K := by
  unfold Store.onCollection
  cases hc : s.collections n with
  | none => exact hs
  | some c => exact hs.setDocs (hf c (hs n c hc))

theorem Store.IdsIn.onPiece (hs : s.IdsIn K) {piece : LobPiece} {len : Nat} {f : Option LobData → Rc × Option LobData} :
    (s.onPiece n piece len f).2.IdsIn K := by
  unfold Store.onPiece
  cases s.collections n with
  | none => exact hs
  | some c =>
    simp only
    split
    · exact hs
    · exact hs

theorem forgive_snd {σ : Type*} (code : Rc) (x : Rc × σ) : (forgive code x).2 = x.2 := by
  unfold forgive
  split <;> rfl

theorem Replayer.replay_idsIn (hs : s.IdsIn K) (hr : ∀ i ∈ r.ids, i ∈ K) (hn : r.WellNamed R) :
    (R.replay s r).2.IdsIn K := by
  cases r with
  | dataInsert n obj =>
    rw [replay]
    split
    · exact hs
    · rw [forgive_snd]
      refine hs.onCollection fun c hc => ?_
      rw [insertRecord]
      split
      · exact hc
      · split
        · exact hc
        · intro d hd i hi
          rcases Multiset.mem_cons.1 hd with rfl | hd
          · exact hr i (by simp [Record.ids, hi])
          · exact hc d hd i hi
  | dataDelete n obj =>
    rw [replay]
    split
    · exact hs
    · refine hs.onCollection fun c hc => ?_
      rw [delete]
      split
      · exact hc
      · exact fun d hd => hc d (Multiset.mem_filter.1 hd).1
  | dataUpdate n i j mod =>
    rw [replay]
    split
    · exact hs
    · refine hs.onCollection fun c hc => ?_
      simp only [Collection.update]
      split_ifs
      · exact hc
      · exact hc
      · exact hc
      · intro d hd k hk
        rcases Multiset.mem_add.1 hd with hd | hd
        · rcases idEle_of_changed hn hd with ⟨e, he, -, heq⟩ | heq
          · exact hc e he k (heq.symm.trans hk)
          · rw [heq] at hk
            exact hr k (by simp [Record.ids, some.inj hk])
        · exact hc d (Multiset.mem_filter.1 hd).1 k hk
  | lobWrite n p off data =>
    rw [replay, forgive_snd]
    exact hs.onPiece
  | lobUpdate n p off data =>
    rw [replay]
    exact hs.onPiece
  | lobRemove n p =>
    rw [replay, forgive_snd]
    exact hs.onPiece
  | dummy => exact hs
  | other kind =>
    intro n c hc d hd i hi
    obtain ⟨n', c', hc', hd'⟩ := R.other_docs kind s n c d hc hd
    exact hs n' c' hc' d hd' i hi

theorem Replayer.exec_idsIn (hs : s.IdsIn K) (hr : ∀ i ∈ r.ids, i ∈ K) (hn : r.WellNamed R)
    (ht : R.exec s r = some t) : t.IdsIn K := by
  rw [exec] at ht
  split at ht
  · exact some.inj ht ▸ replay_idsIn hs hr hn
  · cases ht

end Ids

end SequoiaDB.Cls
