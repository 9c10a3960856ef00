import SequoiaDB.Dms.CappedWork

/-!
# Inserting a record

A record goes behind the last one of the working extent.  When the room left there is too small, or there is no
working extent yet, a new extent is put at the end of the list and becomes the working extent.
-/

namespace SequoiaDB.Dms.Capped

open SequoiaDB.Lib Function List Option Collection Content Extent

variable {cl cl' : Collection} {cs pre : List Content} {l : Content}

/-! ### A new extent -/

def nextLid (cs : List Content) : Int := (cs.getLast?.map fun c => c.lid + 1).getD 0

def Content.fresh (id : Nat) (lid : Int) : Content := ⟨id, lid, DMS_EXTENT_METADATA_SZ, 1, []⟩

theorem int32_of_range {x : Int} (h : 0 ≤ x) (h' : x < 2 ^ 31) : int32 x = x := by
  unfold int32
  rw [Int.bmod_def]
  omega

theorem CappedList.nextLid_nonneg (h : CappedList cl cs) : 0 ≤ nextLid cs := by
  unfold nextLid
  rcases eq_nil_or_concat' cs with rfl | ⟨ini, l, rfl⟩
  · simp
  · have := (h.contents l (by simp)).lid_nonneg
    simp
    omega

variable {id : Nat}

theorem addExtent2Meta_extents (hn : cl.lastExtentID ≠ some id) (i : Nat) : (cl.addExtent2Meta id).extents i =
      if i = id then { cl.extents id with
        prevExtent := cl.lastExtentID
        logicID := (cl.lastExtentID.map fun p => int32 ((cl.extents p).logicID + 1)).getD 0 }
      else if cl.lastExtentID = some i then { cl.extents i with nextExtent := some id }
      else cl.extents i := by
  unfold addExtent2Meta Collection.setExtent
  cases hl : cl.lastExtentID with
  | none => by_cases hf : cl.firstExtentID = none <;> by_cases hi : i = id <;> simp [hf, hi]
  | some p =>
    have hp : p ≠ id := fun heq => hn (by rw [hl, heq])
    by_cases hf : cl.firstExtentID = none <;> by_cases hi : i = id <;> by_cases hip : i = p <;>
      simp_all [eq_comm]

theorem addExtent2Meta_rest (cl : Collection) (id : Nat) :
    SameRest cl (cl.addExtent2Meta id) ∧ (cl.addExtent2Meta id).stat.totalRecords = cl.stat.totalRecords ∧
      (cl.addExtent2Meta id).firstExtentID = cl.firstExtentID.or (some id) ∧
      (cl.addExtent2Meta id).lastExtentID = some id := by
  unfold addExtent2Meta Collection.setExtent
  cases hlast : cl.lastExtentID <;> cases hf : cl.firstExtentID <;>
    exact ⟨⟨rfl, rfl, rfl⟩, rfl, by simp [hf], rfl⟩

variable {lid : Int}

theorem contentAt_fresh (hin : (cl.extents id).inUse) (hl : (cl.extents id).logicID = lid)
    (hn : 0 ≤ lid) (hlt : lid < 2 ^ 31) :
    ContentAt cl (.fresh id lid) := by
  refine ⟨hin, hl, trivial, hn, hlt, le_rfl, ?_, Nat.one_pos, ?_, ?_⟩
  · show DMS_EXTENT_METADATA_SZ % 4 = 0
    decide
  · show 32 * 1 ≤ DMS_EXTENT_METADATA_SZ
    decide
  · show DMS_EXTENT_METADATA_SZ + 0 ≤ DMS_CAP_EXTENT_SZ
    decide

theorem allocateExtent_spec (h : CappedList cl cs) (hid : id ∉ cs.map Content.id) (hlid : nextLid cs < 2 ^ 31) :
    ∃ cl', cl.allocateExtent (some id) = (.ok, cl') ∧ SameRest cl cl' ∧
      CappedList cl' (cs ++ [.fresh id (nextLid cs)]) ∧ HeaderAt cl' (.fresh id (nextLid cs)) ∧
      (cl'.extents id).freeSpace = DMS_CAP_EXTENT_BODY_SZ ∧ ∀ c ∈ cs, HeaderAt cl c → HeaderAt cl' c := by
  have hlastid : (cl.setExtent id .init).lastExtentID = cl.lastExtentID := rfl
  have hn : (cl.setExtent id .init).lastExtentID ≠ some id := by
    intro heq
    rw [hlastid, h.last] at heq
    exact hid (List.mem_of_getLast? heq)
  have hne : ∀ c ∈ cs, c.id ≠ id := fun c hc heq => hid (heq ▸ mem_map_of_mem hc)
  have he := addExtent2Meta_extents hn
  simp only [hlastid] at he
  obtain ⟨hr, ht, hfirst, hlast⟩ := addExtent2Meta_rest (cl.setExtent id .init) id
  have ho : ∀ c ∈ cs, (cl.setExtent id .init).extents c.id = cl.extents c.id :=
    fun c hc => update_of_ne (hne c hc) _ _
  have hs : (cl.setExtent id .init).extents id = .init := update_self ..
  -- an extent of the list keeps everything but, for the last one, its link to the next
  have hf : ∀ c ∈ cs, SameFields (cl.extents c.id) (((cl.setExtent id .init).addExtent2Meta id).extents c.id) := by
    intro c hc
    rw [he, if_neg (hne c hc)]
    split <;> rw [ho c hc] <;> exact ⟨rfl, rfl, rfl, rfl⟩
  have hlids : (cl.lastExtentID.map fun p =>
      int32 (((cl.setExtent id .init).extents p).logicID + 1)).getD 0 = nextLid cs := by
    rw [h.last]
    rcases eq_nil_or_concat' cs with rfl | ⟨ini, l, rfl⟩
    · rfl
    · have hl : l ∈ ini ++ [l] := by simp
      have hnonneg := (h.contents l hl).lid_nonneg
      simp only [nextLid, map_append, map_cons, map_nil, getLast?_concat, map_some, getD_some] at hlid ⊢
      rw [ho l hl, (h.contents l hl).logicID, int32_of_range (by omega) hlid]
  have hidext : ((cl.setExtent id .init).addExtent2Meta id).extents id =
      { init with prevExtent := cl.lastExtentID, logicID := nextLid cs } := by
    rw [he, if_pos rfl, hlids, hs]
  unfold Collection.allocateExtent
  refine ⟨_, rfl, ⟨hr.mem, hr.work, hr.options⟩, ⟨⟨⟨?_, ?_, ?_⟩, ?_⟩, ?_, ?_, ?_⟩, ?_, ?_, ?_⟩
  · rw [map_append]
    refine h.chain.snoc h.nodup (fun i hi => ?_) (fun i hi => ?_) (congrArg nextExtent hidext)
      ((congrArg prevExtent hidext).trans h.last)
    · obtain ⟨c, hc, rfl⟩ := mem_map.1 hi
      show (((cl.setExtent id .init).addExtent2Meta id).extents c.id).nextExtent = _
      rw [he, if_neg (hne c hc), ← h.last, ho c hc]
      split <;> rfl
    · obtain ⟨c, hc, rfl⟩ := mem_map.1 hi
      show (((cl.setExtent id .init).addExtent2Meta id).extents c.id).prevExtent = _
      rw [he, if_neg (hne c hc)]
      split <;> rw [ho c hc] <;> rfl
  · rw [map_append]
    exact h.nodup.append (nodup_singleton _) (disjoint_singleton.2 hid)
  · refine forall_mem_append.2 ⟨fun c hc => ?_, forall_mem_singleton.2 ?_⟩
    · exact (h.contents c hc).congr (hf c hc) (congrFun hr.mem _)
    · exact contentAt_fresh (congrArg inUse hidext) (congrArg logicID hidext) h.nextLid_nonneg hlid
  · simp only [recordNum, map_append, sum_append]
    exact ht.trans h.total
  · show ((cl.setExtent id .init).addExtent2Meta id).firstExtentID = _
    rw [hfirst, show (cl.setExtent id .init).firstExtentID = cl.firstExtentID from rfl, h.first]
    cases cs <;> rfl
  · show ((cl.setExtent id .init).addExtent2Meta id).lastExtentID = _
    rw [hlast]
    simp [Content.fresh]
  · rcases eq_nil_or_concat' cs with rfl | ⟨ini, l, rfl⟩
    · simp
    · refine h.lids.append (by simp) ?_
      simp [Content.fresh, nextLid]
  · exact ⟨congrArg firstRecordOffset hidext, congrArg lastRecordOffset hidext⟩
  · exact congrArg freeSpace hidext
  · exact fun c hc hh => hh.congr (hf c hc)

theorem attachWorkExt_fresh (h : CappedList cl (pre ++ [.fresh id lid])) (hheaders : ∀ c ∈ pre, HeaderAt cl c)
    (hh : HeaderAt cl (.fresh id lid)) (hf : (cl.extents id).freeSpace = DMS_CAP_EXTENT_BODY_SZ) :
    ∃ cl', cl.attachWorkExt id = (.ok, cl') ∧ CappedInv cl' (pre ++ [.fresh id lid]) ∧ cl'.options = cl.options := by
  have hat := h.contents (.fresh id lid) (by simp)
  have hl : (cl.extents id).lastRecordOffset = DMS_INVALID_OFFSET := hh.2
  unfold attachWorkExt
  simp only [hl, if_true]
  exact ⟨_, rfl, h.withWork hheaders ⟨rfl, hat.logicID, hh.1, rfl, rfl, rfl, hf⟩, rfl⟩

theorem switchWorkExt_fresh (h : CappedList cl (cs ++ [.fresh id lid]))
    (hwork : ∀ l, cs.getLast? = some l → WorkAt cl l) (he : cs = [] → cl.work.id = none)
    (hheaders : ∀ c ∈ cs.dropLast, HeaderAt cl c) (hh : HeaderAt cl (.fresh id lid))
    (hf : (cl.extents id).freeSpace = DMS_CAP_EXTENT_BODY_SZ) :
    ∃ cl', cl.switchWorkExt (some id) = (.ok, cl') ∧ CappedInv cl' (cs ++ [.fresh id lid]) ∧
      cl'.options = cl.options := by
  unfold switchWorkExt detachWorkExt
  rcases eq_nil_or_concat' cs with rfl | ⟨ini, l, rfl⟩
  · obtain ⟨cl', hcl', hi, hopt⟩ := attachWorkExt_fresh h (by simp) hh hf
    simp only [he rfl, if_true, hcl']
    exact ⟨cl', rfl, hi, hopt⟩
  · rw [append_assoc] at h
    rw [dropLast_concat] at hheaders
    have hw := hwork l (by simp)
    obtain ⟨hr, hl, hhead, ho⟩ := syncWorkExtInfo_list h hw
    have hne : l.id ≠ id := by
      have hnd := h.nodup
      rw [map_append] at hnd
      intro heq
      have := (nodup_append.1 hnd).2.1
      simp [Content.fresh, heq] at this
    have hfree' : (cl.syncWorkExtInfo.extents id).freeSpace = DMS_CAP_EXTENT_BODY_SZ := by
      unfold syncWorkExtInfo
      rw [hw.id]
      simp only [Collection.setExtent]
      rw [update_of_ne (Ne.symm hne)]
      exact hf
    have hlist' : CappedList { cl.syncWorkExtInfo with work := .reset } ((ini ++ [l]) ++ [.fresh id lid]) := by
      rw [append_assoc]
      exact ⟨⟨hl.toCappedLinks.congr rfl rfl, hl.total⟩, hl.first, hl.last, hl.lids⟩
    obtain ⟨cl', hcl', hi, hopt⟩ := attachWorkExt_fresh hlist' (forall_mem_append.2
        ⟨fun c hc => (ho c (mem_append_left _ hc) (hheaders c hc)).congr ⟨rfl, rfl, rfl, rfl⟩,
          forall_mem_singleton.2 (hhead.congr ⟨rfl, rfl, rfl, rfl⟩)⟩)
      ((ho _ (by simp) hh).congr ⟨rfl, rfl, rfl, rfl⟩) hfree'
    rw [if_neg (by simp [hw.id])]
    simp only [hcl', if_true]
    exact ⟨cl', rfl, hi, hopt.trans hr.options⟩

theorem allocateExtent_counts (hn : cl.lastExtentID ≠ some id) (h : cl.allocateExtent (some id) = (.ok, cl')) :
    (∀ i ≠ id, (cl'.extents i).recCount = (cl.extents i).recCount) ∧ (cl'.extents id).recCount = 0 ∧
      cl'.stat.totalDataPages = cl.stat.totalDataPages + cl.options.extentPages := by
  unfold Collection.allocateExtent at h
  obtain ⟨-, rfl⟩ := Prod.mk.inj h
  have hnew' : (cl.setExtent id .init).lastExtentID ≠ some id := hn
  have he := addExtent2Meta_extents hnew'
  refine ⟨fun i hi => ?_, ?_, ?_⟩
  · have hi' : (cl.setExtent id .init).extents i = cl.extents i := update_of_ne hi ..
    show (((cl.setExtent id .init).addExtent2Meta id).extents i).recCount = _
    rw [he, if_neg hi]
    split <;> rw [hi']
  · have hid : (cl.setExtent id .init).extents id = .init := update_self ..
    show (((cl.setExtent id .init).addExtent2Meta id).extents id).recCount = _
    rw [he, if_pos rfl, hid]
    rfl
  · unfold addExtent2Meta Collection.setExtent
    cases cl.lastExtentID <;> cases cl.firstExtentID <;> rfl

theorem recCount_detachWorkExt (cl : Collection) (i : Nat) :
    (cl.detachWorkExt.extents i).recCount = if cl.work.id = some i then cl.work.recCount else (cl.extents i).recCount := by
  unfold detachWorkExt syncWorkExtInfo
  cases cl.work.id with
  | none => rfl
  | some id =>
    simp only [reduceCtorEq, if_false, Collection.setExtent, some.injEq]
    by_cases hi : i = id
    · subst hi
      simp
    · simp only [update_of_ne hi, if_neg (Ne.symm hi)]

theorem switchWorkExt_counts (h : cl.switchWorkExt (some id) = (.ok, cl')) :
    cl'.work.recCount = (cl.detachWorkExt.extents id).recCount ∧ cl'.extents = cl.detachWorkExt.extents ∧
      cl'.stat = cl.stat := by
  unfold switchWorkExt at h
  simp only at h
  have hs : cl.detachWorkExt.stat = cl.stat := by
    unfold detachWorkExt syncWorkExtInfo
    split
    · rfl
    · split <;> rfl
  split at h
  · obtain ⟨hw, he, hstat', -⟩ := attachWorkExt_counts h
    exact ⟨hw, he, hstat'.trans hs⟩
  next hne =>
    split at h
    · exact absurd (congrArg Prod.fst h) hne
    · exact absurd (congrArg Prod.fst h) hne

variable {size : Nat}

theorem appendExtent_spec (h : CappedInv cl cs) (hid : id ∉ cs.map Content.id) (hlid : nextLid cs < 2 ^ 31)
    (hroom : cl.work.id = none ∨ cl.work.freeSpace < size) :
    ∃ cl', cl.appendExtent size (some id) = (.ok, cl') ∧
      CappedInv cl' (cs ++ [.fresh id (nextLid cs)]) ∧ cl'.options = cl.options ∧
      (Counted cl cs → Counted cl' (cs ++ [.fresh id (nextLid cs)])) := by
  obtain ⟨cl1, hcl1, hr, hlist, hh, hf, ho⟩ := allocateExtent_spec h.toCappedList hid hlid
  have hw : ∀ l, cs.getLast? = some l → WorkAt cl1 l := fun l hl => (h.work l hl).congr hr.work
  obtain ⟨cl2, hcl2, hi, hopt⟩ := switchWorkExt_fresh hlist hw (fun hn => by rw [hr.work, h.empty hn])
    (fun c hc => ho c (dropLast_subset _ hc) (h.headers c hc)) hh hf
  have hnext : cl1.attachNextExt = cl1.switchWorkExt (some id) := by
    unfold attachNextExt
    rcases eq_nil_or_concat' cs with rfl | ⟨ini, l, rfl⟩
    · rw [hr.work, h.empty rfl]
      simp only [hlist.first]
      rfl
    · have hl := hlist.next (show _ = ini ++ l :: [.fresh id (nextLid (ini ++ [l]))] by simp)
      have hin := (hlist.contents l (by simp)).inUse
      rw [(hw l (by simp)).id]
      simp only [hin, if_true, hl]
      rfl
  unfold appendExtent
  rw [hcl1, andThen_ok, if_pos (by rw [hr.work]; exact hroom), hnext, hcl2]
  refine ⟨cl2, rfl, hi, hopt.trans hr.options, fun hcounted => ?_⟩
  have hne : ∀ c ∈ cs, c.id ≠ id := fun c hc heq => hid (heq ▸ mem_map_of_mem hc)
  obtain ⟨hold, hz, hpages⟩ := allocateExtent_counts (fun heq => hid (List.mem_of_getLast? (h.last ▸ heq))) hcl1
  obtain ⟨hwork', he, hs⟩ := switchWorkExt_counts hcl2
  refine ⟨?_, fun c hc => ?_, fun c hc => ?_⟩
  · have hp := hcounted.pages
    unfold PagesAt at hp ⊢
    rw [hs, hpages, hp, hopt, hr.options, length_append, length_singleton]
    push_cast
    ring
  · rw [dropLast_concat] at hc
    refine CountAt.congr ?_ (congrArg recCount (congrFun he c.id))
    unfold CountAt
    rw [recCount_detachWorkExt, hr.work]
    obtain ⟨ini, l, rfl⟩ := (eq_nil_or_concat' cs).resolve_left (ne_nil_of_mem hc)
    rw [(h.work l (by simp)).id]
    by_cases hcl : c.id = l.id
    · rw [if_pos (by rw [hcl]), h.id_inj hc (by simp) hcl]
      exact hcounted.work l (by simp)
    · rw [if_neg fun heq => hcl (some.inj heq).symm, hold _ (hne c (by simpa using hc))]
      refine hcounted.headers c ?_
      rw [dropLast_concat]
      rcases mem_append.1 hc with hc | hc
      · exact hc
      · exact absurd (congrArg Content.id (mem_singleton.1 hc)) hcl
  · obtain rfl : Content.fresh id (nextLid cs) = c := by simpa using hc
    rw [hwork', recCount_detachWorkExt, hr.work, if_neg, hz]
    · rfl
    · intro heq
      rcases eq_nil_or_concat' cs with rfl | ⟨ini, l, rfl⟩
      · rw [h.empty rfl] at heq
        cases heq
      · rw [(h.work l (by simp)).id] at heq
        exact hne l (by simp) (some.inj heq)

/-! ### Writing a record -/

def Content.push (c : Content) (b : List UInt8) : Content := { c with bodies := c.bodies ++ [b] }

theorem Content.finish_push (c : Content) (b : List UInt8) : (c.push b).finish = c.finish + recSize b := by
  simp [Content.finish, Content.push, Nat.add_assoc]

theorem Content.stored_push (c : Content) (b : List UInt8) :
    (c.push b).stored = c.stored ++ [⟨c.lid, c.finish, lidOf c.lid c.finish, b⟩] := by
  simp only [Content.stored, Content.push, storedFrom_append, storedFrom, Content.finish]

theorem WorkAt.getRecordLogicID (hw : WorkAt cl l) : cl.work.getRecordLogicID = lidOf l.lid l.finish := by
  have hp := hw.writePos
  unfold ExtentInfo.getRecordLogicID lidOf
  rw [hw.extLogicID, ← hp]
  push_cast
  ring

variable {b : List UInt8}

theorem layout_push (h : ContentAt cl l) (hf : Fits b) :
    Layout ((cl.mem l.id).write l.finish (headBytes (recSize b) (l.recNo + l.bodies.length) (lidOf l.lid l.finish) ++
      recordData b (lidOf l.lid l.finish))) l.lid l.start l.recNo (l.bodies ++ [b]) := by
  refine layout_append.2 ⟨h.layout.congr fun i _ hi => ?_, hf, ?_, trivial⟩
  · exact Mem.write_of_lt hi
  · exact recAt_write ..

theorem extentInsertRecord_extents (cl : Collection) (id : Nat) (b : List UInt8) (size i : Nat) :
    ∃ first, (cl.extentInsertRecord id b size).extents i = { cl.extents i with firstRecordOffset := first } ∧
      (i ≠ id → first = (cl.extents i).firstRecordOffset) := by
  unfold Collection.extentInsertRecord
  dsimp only
  split_ifs
  · by_cases hi : i = id
    · subst hi
      exact ⟨_, update_self .., fun hne => absurd rfl hne⟩
    · exact ⟨_, update_of_ne hi .., fun _ => rfl⟩
  · exact ⟨_, rfl, fun _ => rfl⟩

theorem extentInsertRecord_rest (cl : Collection) (id : Nat) (b : List UInt8) (size : Nat) :
    let cl' := cl.extentInsertRecord id b size
    let lid := cl.work.getRecordLogicID
    cl'.options = cl.options ∧ cl'.firstExtentID = cl.firstExtentID ∧ cl'.lastExtentID = cl.lastExtentID ∧
      cl'.mem = update cl.mem id ((cl.mem id).write cl.work.getNextRecOffset
        (headBytes size (cl.work.recNo + 1) lid ++ recordData b lid)) ∧
      cl'.work = cl.work.updateWorkExtStat size ∧ cl'.stat.totalRecords = cl.stat.totalRecords + 1 ∧
      cl'.stat.totalDataPages = cl.stat.totalDataPages := by
  unfold Collection.extentInsertRecord
  dsimp only
  split_ifs <;> exact ⟨rfl, rfl, rfl, rfl, rfl, rfl, rfl⟩

theorem WorkAt.updateWorkExtStat (hw : WorkAt cl l) (hat : ContentAt cl l) (hf : Fits b)
    (hwork : cl'.work = cl.work.updateWorkExtStat (recSize b)) : WorkAt cl' (l.push b) := by
  have hp := hw.writePos
  have hsize := recSize_bounds hf
  have hspan := length_le_span hat.layout.forall_fits
  have hstart := hat.start_ge
  have hmod := hat.start_mod
  have hfree := hw.freeSpace
  have hno := hw.recNo
  constructor
  all_goals rw [hwork, ExtentInfo.updateWorkExtStat]
  · exact hw.id
  · exact hw.extLogicID
  · have hpush : (l.push b).firstOffset = l.start := firstOffset_eq (by simp [Content.push])
    rw [hpush]
    simp only [hw.firstOffset]
    by_cases hb : l.bodies = []
    · rw [if_pos (firstOffset_nil hb)]
      unfold Content.finish at hp
      rw [hb, span_nil] at hp
      omega
    · rw [firstOffset_eq hb, if_neg (by unfold DMS_INVALID_OFFSET; omega)]
  · rw [lastOffset_eq (show (l.push b).bodies = l.bodies ++ [b] from rfl)]
    show ((cl.work.writePos : Int) + DMS_EXTENT_METADATA_SZ) = (l.start + span l.bodies : Nat)
    unfold Content.finish at hp
    omega
  · rw [finish_push]
    unfold Content.finish DMS_EXTENT_METADATA_SZ align4 at *
    simp only
    omega
  · show cl.work.recNo + 1 + 1 = l.recNo + (l.bodies ++ [b]).length
    rw [length_append, length_singleton]
    omega
  · rw [finish_push]
    show cl.work.freeSpace - recSize b = _
    omega

theorem extentInsertRecord_spec (h : CappedInv cl (pre ++ [l])) (hf : Fits b) (hr : recSize b ≤ cl.work.freeSpace) :
    CappedInv (cl.extentInsertRecord l.id b (recSize b)) (pre ++ [l.push b]) ∧
      (cl.extentInsertRecord l.id b (recSize b)).options = cl.options := by
  obtain ⟨ho, hfirst, hlast, hm, hwork, ht, -⟩ := extentInsertRecord_rest cl l.id b (recSize b)
  have he := extentInsertRecord_extents cl l.id b (recSize b)
  have hw := h.work l (by simp)
  have hat := h.contents l (by simp)
  have hi : (pre ++ [l.push b]).map Content.id = (pre ++ [l]).map Content.id := by simp [Content.push]
  have hne : ∀ c ∈ pre, c.id ≠ l.id := by
    intro c hc heq
    have hnd := h.nodup
    rw [map_append] at hnd
    exact (nodup_append.1 hnd).2.2 _ (mem_map_of_mem hc) _ (mem_singleton_self _) heq
  have hs : ∀ c ∈ pre, SameFields (cl.extents c.id) ((cl.extentInsertRecord l.id b (recSize b)).extents c.id) := by
    intro c hc
    obtain ⟨first, heq, hs⟩ := he c.id
    rw [heq, hs (hne c hc)]
    exact ⟨rfl, rfl, rfl, rfl⟩
  refine ⟨⟨⟨⟨⟨?_, ?_, ?_⟩, ?_⟩, ?_, ?_, ?_⟩, ?_, ?_, by simp⟩, ho⟩
  · rw [hi]
    refine h.chain.congr (fun i _ => ?_) fun i _ => ?_
    all_goals
      obtain ⟨first, heq, -⟩ := he i
      simp only [Collection.next, Collection.prev, heq]
  · rw [hi]
    exact h.nodup
  · refine forall_mem_append.2 ⟨fun c hc => ?_, forall_mem_singleton.2 ?_⟩
    · exact (h.contents c (mem_append_left _ hc)).congr (hs c hc) (hm ▸ update_of_ne (hne c hc) ..)
    · have hlay := layout_push hat hf
      rw [← hw.recNo, ← hw.getRecordLogicID, ← hw.writePos] at hlay
      obtain ⟨first, heq, -⟩ := he l.id
      refine ⟨(congrArg inUse heq).trans hat.inUse, (congrArg logicID heq).trans hat.logicID, ?_,
        hat.lid_nonneg, hat.lid_lt, hat.start_ge, hat.start_mod, hat.recNo_pos, hat.recNo_le, ?_⟩
      · show Layout ((cl.extentInsertRecord l.id b (recSize b)).mem l.id) _ _ _ _
        rw [hm, update_self]
        exact hlay
      · have hfin := hat.finish_le
        rw [hw.freeSpace] at hr
        rw [finish_push]
        omega
  · rw [ht, h.total]
    simp [recordNum, Content.push]
    omega
  · rw [hi, hfirst]
    exact h.first
  · rw [hi, hlast]
    exact h.last
  · have hl := h.lids
    rw [isChain_append] at hl ⊢
    exact ⟨hl.1, by simp, by simpa [Content.push] using hl.2.2⟩
  · intro c hc
    rw [dropLast_concat] at hc
    exact (h.headers c (by simpa using hc)).congr (hs c hc)
  · intro c hc
    obtain rfl : l.push b = c := by simpa using hc
    exact hw.updateWorkExtStat hat hf hwork

theorem Counted.push (h : Counted cl (pre ++ [l])) (id : Nat) (b : List UInt8) (size : Nat) :
    Counted (cl.extentInsertRecord id b size) (pre ++ [l.push b]) := by
  obtain ⟨ho, -, -, -, hw, -, hs⟩ := extentInsertRecord_rest cl id b size
  refine ⟨?_, fun c hc => ?_, fun c hc => ?_⟩
  · have hp := h.pages
    unfold PagesAt at hp ⊢
    rw [hs, hp, ho]
    simp
  · rw [dropLast_concat] at hc
    obtain ⟨first, heq, -⟩ := extentInsertRecord_extents cl id b size c.id
    exact (h.headers c (by simpa using hc)).congr (by rw [heq])
  · obtain rfl : l.push b = c := by simpa using hc
    rw [hw]
    show cl.work.recCount + 1 = (l.bodies ++ [b]).length
    rw [h.work l (by simp), length_append, length_singleton]

/-! ### Inserting -/

def Collection.WithinLimits (cl : Collection) (size : Nat) : Prop :=
  cl.work.id = none ∨ (cl.numExceedLimit = false ∧ (cl.work.freeSpace < size → cl.sizeExceedLimit = false))

theorem limitProcess_within (h : cl.numExceedLimit = false)
    (h' : cl.work.freeSpace < size → cl.sizeExceedLimit = false) : cl.limitProcess size = (.ok, cl) := by
  unfold limitProcess limitCheck
  simp only [h, Bool.false_eq_true, if_false, andThen_ok]
  by_cases hr : cl.work.freeSpace < size
  · simp [hr, h' hr]
  · simp [hr]

def Collection.HasRoom (cl : Collection) (size : Nat) : Prop := cl.work.id ≠ none ∧ size ≤ cl.work.freeSpace

instance (cl : Collection) (size : Nat) : Decidable (cl.HasRoom size) := inferInstanceAs (Decidable (_ ∧ _))

instance (cl : Collection) (size : Nat) : Decidable (cl.WithinLimits size) :=
  inferInstanceAs (Decidable (_ ∨ (_ ∧ (_ → _))))

theorem allocRecordSpace_within (h : cl.WithinLimits size) (found : Option Nat) :
    cl.allocRecordSpace size found = if cl.HasRoom size then (.ok, cl) else cl.appendExtent size found := by
  unfold Collection.allocRecordSpace
  by_cases hn : cl.work.id = none
  · rw [if_pos hn, if_neg fun hr => hr.1 hn]
  · obtain ⟨hnum, hs⟩ := h.resolve_left hn
    rw [if_neg hn, limitProcess_within hnum hs, andThen_ok]
    by_cases hr : cl.work.freeSpace < size
    · rw [if_pos hr, if_neg fun hh => absurd hh.2 (by omega)]
    · rw [if_neg hr, if_pos ⟨hn, by omega⟩]

theorem insertRecord_spec (h : CappedInv cl cs) {found : Option Nat}
    (hl : cl.WithinLimits (recSize b)) (hfound : ∀ id ∈ found, id ∉ cs.map Content.id)
    (hlid : nextLid cs < 2 ^ 31) :
    (¬ Fits b → cl.insertRecord b found = (.dmsRecordTooBig, cl)) ∧
    (Fits b → ¬ cl.HasRoom (recSize b) → found = none → cl.insertRecord b found = (.dmsNoSpc, cl)) ∧
    (Fits b → (cl.HasRoom (recSize b) ∨ found ≠ none) → ∃ cl' cs' r, cl.insertRecord b found = (.ok, cl') ∧
      CappedInv cl' cs' ∧ cs'.flatMap Content.stored = cs.flatMap Content.stored ++ [r] ∧ r.body = b ∧
      cl'.options = cl.options) := by
  have hf : Fits b → ¬ recordDataLen b + DMS_RECORD_METADATA_SZ > DMS_RECORD_USER_MAX_SZ := fun hfit => by
    unfold Fits at hfit
    omega
  -- the record goes behind the last content, old or new
  have hw : ∀ {cl1 : Collection} {pre : List Content} {l : Content}, Fits b → CappedInv cl1 (pre ++ [l]) →
      recSize b ≤ cl1.work.freeSpace → cl1.options = cl.options →
      (pre ++ [l]).flatMap Content.stored = cs.flatMap Content.stored →
      cl.allocRecordSpace (finalRecordSize (recordDataLen b)) found = (.ok, cl1) →
      ∃ cl' cs' r, cl.insertRecord b found = (.ok, cl') ∧ CappedInv cl' cs' ∧
        cs'.flatMap Content.stored = cs.flatMap Content.stored ++ [r] ∧ r.body = b ∧ cl'.options = cl.options := by
    intro cl1 pre l hfit hi hr ho hs ha
    obtain ⟨hinv', hopt'⟩ := extentInsertRecord_spec hi hfit hr
    have hin := (hi.contents l (by simp)).inUse
    unfold Collection.insertRecord
    simp only [if_neg (hf hfit), ha, andThen_ok, (hi.work l (by simp)).id, hin, if_true]
    refine ⟨_, _, ⟨l.lid, l.finish, lidOf l.lid l.finish, b⟩, rfl, hinv', ?_, rfl, hopt'.trans ho⟩
    rw [← hs]
    simp [stored_push]
  refine ⟨fun hfit => ?_, fun hfit hr hn => ?_, fun hfit hr => ?_⟩
  · unfold Collection.insertRecord
    rw [if_pos]
    unfold Fits at hfit
    omega
  · subst hn
    have ha := allocRecordSpace_within hl none
    rw [if_neg hr] at ha
    unfold Collection.insertRecord
    rw [if_neg (hf hfit)]
    simp only [show finalRecordSize (recordDataLen b) = recSize b from rfl, ha]
    rfl
  · have ha := allocRecordSpace_within hl found
    by_cases hh : cl.HasRoom (recSize b)
    · rw [if_pos hh] at ha
      rcases eq_nil_or_concat' cs with rfl | ⟨ini, l, rfl⟩
      · exact absurd (h.empty rfl) hh.1
      · exact hw hfit h hh.2 rfl (by simp) ha
    · rw [if_neg hh] at ha
      obtain ⟨id, rfl⟩ := ne_none_iff_exists'.1 (hr.resolve_left hh)
      have hn : cl.work.id = none ∨ cl.work.freeSpace < recSize b := by
        unfold Collection.HasRoom at hh
        by_cases hid : cl.work.id = none
        · exact .inl hid
        · exact .inr (by by_contra hle; exact hh ⟨hid, by omega⟩)
      obtain ⟨cl1, hcl1, hi, ho, -⟩ := appendExtent_spec h (hfound id rfl) hlid hn
      have hfree := (hi.work (.fresh id (nextLid cs)) (by simp)).freeSpace
      have hsize := recSize_bounds hfit
      refine hw hfit hi ?_ ho (by simp [Content.stored, Content.fresh, storedFrom]) (ha.trans hcl1)
      rw [hfree]
      show recSize b ≤ DMS_CAP_EXTENT_SZ - (DMS_EXTENT_METADATA_SZ + 0)
      unfold DMS_CAP_EXTENT_SZ DMS_EXTENT_METADATA_SZ
      omega

end SequoiaDB.Dms.Capped
