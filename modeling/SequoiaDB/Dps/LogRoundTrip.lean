import SequoiaDB.Dps.LogCopy

/-!
# Loading a record that was written

`load` does not know how many elements a record has.  It stops when no more than the head of an element is
left, so that an empty element that ends exactly where the record ends is lost.  It also refuses a record with
as many elements as it has places for, if more than a stop marker is left behind the last of them, which
happens to records that were stretched to the end of a log file.
-/

namespace SequoiaDB.Dps

open Lib List Option LogRecord Mem

def RoundTrip (es : List Ele) (r : Rc × LogRecord) : Prop :=
  r.1 = .ok ∧ (∀ e ∈ es, r.2.find e.tag = some e) ∧ ∀ tag, (∀ e ∈ es, e.tag ≠ tag) → r.2.find tag = none

/-- `load` finds all the elements of a record with the given length. -/
structure Survives (es : List Ele) (length : Nat) : Prop where
  fits : HEADER_LEN + bodySize es ≤ length
  le_max : length ≤ DPS_RECORD_MAX_LEN
  last : ∀ e ∈ es.getLast?, e.value = [] → HEADER_LEN + bodySize es < length
  slots : es.length = DPS_MERGE_BLOCK_MAX_DATA → length ≤ HEADER_LEN + bodySize es + DPS_RECORD_ELE_HEADER_LEN

/-- The elements of a record have distinct tags, and lengths of 4 bytes. -/
structure Pushed (es : List Ele) : Prop where
  length_le : es.length ≤ DPS_MERGE_BLOCK_MAX_DATA
  nodup : (es.map Ele.tag).Nodup
  tag_ne : ∀ e ∈ es, e.tag ≠ DPS_INVALID_TAG
  len_lt : ∀ e ∈ es, e.value.length < 2 ^ 32

namespace LogRecord

/-! ### Finding an element -/

variable {tag : UInt8} {es : List Ele} {e : Ele}

theorem mem_of_findEle (h : findEle tag es = some e) : e ∈ es := by
  induction es with
  | nil => cases h
  | cons x es ih =>
    rw [findEle] at h
    split_ifs at h
    · cases h
      exact mem_cons_self
    · exact mem_cons_of_mem x (ih h)

theorem findEle_eq_none (h : ∀ e ∈ es, e.tag ≠ tag) : findEle tag es = none := by
  induction es with
  | nil => rfl
  | cons x es ih =>
    rw [findEle, if_neg (h x mem_cons_self), ih fun e he => h e (mem_cons_of_mem x he), ite_self]

theorem findEle_of_mem (hn : (es.map Ele.tag).Nodup) (hne : ∀ e ∈ es, e.tag ≠ DPS_INVALID_TAG) (he : e ∈ es) :
    findEle e.tag es = some e := by
  induction es with
  | nil => cases he
  | cons x es ih =>
    rw [map_cons, nodup_cons] at hn
    rw [findEle, if_neg (hne x mem_cons_self)]
    rcases mem_cons.1 he with rfl | he
    · rw [if_pos rfl]
    · rw [if_neg, ih hn.2 (fun e he => hne e (mem_cons_of_mem x he)) he]
      intro heq
      exact hn.1 (heq ▸ mem_map_of_mem he)

/-! ### The loop of `loadBody` -/

variable {m : Mem} {total : Int} {slots k : Nat}

theorem loadBody_of_le (h : total ≤ k) : loadBody m total slots k = (.ok, []) := by
  rw [loadBody.eq_def, if_pos h]

theorem loadBody_no_slot (h : ¬ total ≤ k) : loadBody m total 0 k = (.dpsCorruptedLog, []) := by
  rw [loadBody.eq_def, if_neg h]

theorem loadBody_stop (ht : m (HEADER_LEN + k) = DPS_INVALID_TAG) (hs : 0 < slots) :
    loadBody m total slots k = (.ok, []) := by
  obtain ⟨n, rfl⟩ := Nat.exists_eq_succ_of_ne_zero hs.ne'
  rw [loadBody.eq_def]
  simp only [ht, if_true, ite_self]

theorem loadBody_cons (h : ¬ total ≤ k) (ht : m (HEADER_LEN + k) = e.tag)
    (hs : leNat (m.read (HEADER_LEN + k + 1) 4) = e.value.length)
    (hv : m.read (HEADER_LEN + k + DPS_RECORD_ELE_HEADER_LEN) e.value.length = e.value)
    (hne : e.tag ≠ DPS_INVALID_TAG) (hf : ¬ total - k < e.value.length) :
    loadBody m total (slots + 1) k =
      ((loadBody m total slots (k + e.size)).1, e :: (loadBody m total slots (k + e.size)).2) := by
  rw [loadBody.eq_def, if_neg h]
  simp only [ht, hs, hv, if_neg hne, if_neg hf, Ele.size, Nat.add_comm DPS_RECORD_ELE_HEADER_LEN e.value.length]

theorem bodySize_loadBody_le (m : Mem) (total : Int) (slots : Nat) (h : k ≤ total + DPS_RECORD_ELE_HEADER_LEN) :
    k + bodySize (loadBody m total slots k).2 ≤ total + DPS_RECORD_ELE_HEADER_LEN := by
  induction slots generalizing k with
  | zero =>
    have hn : (loadBody m total 0 k).2 = [] := by
      rw [loadBody.eq_def]
      split <;> rfl
    simpa [hn, bodySize] using h
  | succ slots ih =>
    rw [loadBody.eq_def]
    simp only
    split_ifs with h1 h2 h3
    · simpa [bodySize] using h
    · simpa [bodySize] using h
    · simpa [bodySize] using h
    · have hr := ih (k := k + (leNat (m.read (HEADER_LEN + k + 1) 4) + DPS_RECORD_ELE_HEADER_LEN))
        (by push_cast; omega)
      rw [bodySize_cons, Ele.size, length_read]
      push_cast at hr ⊢
      omega

theorem read_ele {a : Nat} {rest : Nat} {bs : List UInt8} (hlen : e.value.length < 2 ^ 32)
    (h : m.read a (e.size + rest) = e.bytes ++ bs) :
    m a = e.tag ∧ leNat (m.read (a + 1) 4) = e.value.length ∧
      m.read (a + DPS_RECORD_ELE_HEADER_LEN) e.value.length = e.value ∧ m.read (a + e.size) rest = bs := by
  rw [read_add] at h
  obtain ⟨he, hr⟩ := append_inj h (by simp)
  have hf : m.read a e.size = [e.tag] ++ (leBytes 4 e.value.length ++ e.value) := he
  have hm := read_middle hf
  have hend : m.read a e.size = ([e.tag] ++ leBytes 4 e.value.length) ++ (e.value ++ []) := by
    rw [append_nil, append_assoc, hf]
  have hb := read_middle hend
  have ht := read_front hf
  rw [length_leBytes] at hm
  refine ⟨?_, ?_, ?_, hr⟩
  · simpa [Mem.read] using ht
  · rw [show (a + 1 : Nat) = a + [e.tag].length from rfl, hm, leNat_leBytes (by norm_num; omega)]
  · simpa using hb

theorem loadBody_append (total : Int) (hb : m.read (HEADER_LEN + k) (bodySize es) = bodyBytes es)
    (hs : es.length ≤ slots) (hne : ∀ e ∈ es, e.tag ≠ DPS_INVALID_TAG) (hlen : ∀ e ∈ es, e.value.length < 2 ^ 32)
    (hf : k + bodySize es ≤ total + DPS_RECORD_ELE_HEADER_LEN)
    (hl : ∀ e ∈ es.getLast?, e.value = [] → k + bodySize es < total + DPS_RECORD_ELE_HEADER_LEN) :
    loadBody m total slots k = ((loadBody m total (slots - es.length) (k + bodySize es)).1,
      es ++ (loadBody m total (slots - es.length) (k + bodySize es)).2) := by
  induction es generalizing k slots with
  | nil => rfl
  | cons e es ih =>
    obtain ⟨n, rfl⟩ := Nat.exists_eq_add_of_le' (Nat.one_le_of_lt hs)
    rw [bodySize_cons] at hb hf hl ⊢
    obtain ⟨ht, hsize, hv, hr⟩ := read_ele (hlen e mem_cons_self) hb
    rw [Nat.add_assoc] at hr
    have hes : e.size = DPS_RECORD_ELE_HEADER_LEN + e.value.length := rfl
    have hk : ¬ total ≤ k := by
      cases es with
      | nil =>
        simp only [getLast?_singleton, mem_some_iff, forall_eq', bodySize, map_nil, sum_nil] at hf hl
        rcases Nat.eq_zero_or_pos e.value.length with h | h
        · have := hl (length_eq_zero_iff.1 h)
          omega
        · omega
      | cons x es =>
        have hxs : x.size = DPS_RECORD_ELE_HEADER_LEN + x.value.length := rfl
        rw [bodySize_cons] at hf
        simp only [DPS_RECORD_ELE_HEADER_LEN] at hes hxs hf
        omega
    have hslots' : es.length ≤ n := Nat.le_of_succ_le_succ hs
    have htail := ih hr hslots' (fun x hx => hne x (mem_cons_of_mem e hx))
      (fun x hx => hlen x (mem_cons_of_mem e hx)) (by omega) ?_
    · rw [loadBody_cons hk ht hsize hv (hne e mem_cons_self) (by omega), htail, length_cons,
        Nat.add_sub_add_right, Nat.add_assoc, cons_append]
    · intro x hx hn
      have := hl x (by cases es with
        | nil => simp at hx
        | cons y es => simpa using hx) hn
      omega

theorem bodySize_load_le (m : Mem) (h : (load m).1 = .ok) :
    HEADER_LEN + bodySize (load m).2.eles ≤ (LogRecordHeader.read m).length ∧
      (LogRecordHeader.read m).length ≤ DPS_RECORD_MAX_LEN := by
  simp only [load] at h ⊢
  split_ifs at h ⊢ with hlen htype
  · refine ⟨?_, by omega⟩
    simp only [bodySize, map_nil, sum_nil]
    omega
  · refine ⟨?_, by omega⟩
    have hle := bodySize_loadBody_le m ((LogRecordHeader.read m).length - HEADER_LEN - DPS_RECORD_ELE_HEADER_LEN)
      DPS_MERGE_BLOCK_MAX_DATA (k := 0) (by omega)
    dsimp only
    omega

end LogRecord

theorem bodySize_le_of_subset {es fs : List Ele} (hn : es.Nodup) (hs : es ⊆ fs) : bodySize es ≤ bodySize fs := by
  obtain ⟨l, hp, hl⟩ := hn.subperm hs
  calc bodySize es = bodySize l := ((hp.map Ele.size).sum_eq).symm
    _ ≤ bodySize fs := (hl.map Ele.size).sum_le_sum fun _ _ => Nat.zero_le _

variable {es : List Ele}

theorem RoundTrip.length_le {m : Mem} (h : RoundTrip es (LogRecord.load m)) (hn : (es.map Ele.tag).Nodup) :
    HEADER_LEN + bodySize es ≤ (LogRecordHeader.read m).length ∧
      (LogRecordHeader.read m).length ≤ DPS_RECORD_MAX_LEN := by
  obtain ⟨hok, hf, -⟩ := h
  have hs : es ⊆ (LogRecord.load m).2.eles := fun e he => mem_of_findEle (hf e he)
  have hle := bodySize_le_of_subset (List.Nodup.of_map _ hn) hs
  have hload := bodySize_load_le m hok
  omega

/-! ### The bytes of a record -/

section Bytes

variable {m : Mem} {head : LogRecordHeader} {es : List Ele} {e : Ele}
  (hm : m.read 0 (recordBytes head es).length = recordBytes head es) (hlen : head.length < 2 ^ 32)
  (htype : head.type < 2 ^ 16) (hdummy : head.type ≠ LOG_TYPE_DUMMY) (hes : Pushed es)

include hm

theorem read_body : m.read HEADER_LEN (bodySize es) = bodyBytes es := by
  have := read_middle hm
  simpa using this

include hlen

include htype in
theorem read_head : (LogRecordHeader.read m).length = head.length ∧ (LogRecordHeader.read m).type = head.type := by
  have h1 : recordBytes head es = (leBytes 8 head.lsn ++ leBytes 8 head.preLsn) ++ (leBytes 4 head.length ++
      (leBytes 4 head.version ++ (leBytes 2 head.type ++ (leBytes 2 head.reserved1 ++
        leBytes 4 head.reserved2)) ++ (bodyBytes es ++ stopMarker head es))) := by
    simp only [recordBytes, LogRecordHeader.bytes, append_assoc]
  have h2 : recordBytes head es = (leBytes 8 head.lsn ++ (leBytes 8 head.preLsn ++ (leBytes 4 head.length ++
      leBytes 4 head.version))) ++ (leBytes 2 head.type ++ (leBytes 2 head.reserved1 ++
        leBytes 4 head.reserved2 ++ (bodyBytes es ++ stopMarker head es))) := by
    simp only [recordBytes, LogRecordHeader.bytes, append_assoc]
  have r1 := read_middle (hm.trans h1)
  have r2 := read_middle (hm.trans h2)
  simp only [length_append, length_leBytes, Nat.zero_add] at r1 r2
  simp only [LogRecordHeader.read]
  rw [r1, r2, leNat_leBytes (by norm_num; omega), leNat_leBytes (by norm_num; omega)]
  exact ⟨rfl, rfl⟩

theorem stop_tag (hroom : HEADER_LEN + bodySize es + DPS_RECORD_ELE_HEADER_LEN < head.length) :
    m (HEADER_LEN + bodySize es) = DPS_INVALID_TAG := by
  have hs : stopMarker head es = replicate DPS_RECORD_ELE_HEADER_LEN 0 := by
    refine if_pos ?_
    simp only [HEADER_LEN, DPS_RECORD_ELE_HEADER_LEN] at *
    omega
  have h : recordBytes head es = (head.bytes ++ bodyBytes es) ++ ([0] ++ [0, 0, 0, 0]) := by
    rw [recordBytes, hs, ← append_assoc]
    rfl
  have := read_middle (hm.trans h)
  simpa [Mem.read] using this

/-! ### Writing and loading -/

include htype hdummy in
theorem load_eq (hmin : HEADER_LEN ≤ head.length) (hmax : head.length ≤ DPS_RECORD_MAX_LEN) :
    let r := loadBody m (head.length - HEADER_LEN - DPS_RECORD_ELE_HEADER_LEN) DPS_MERGE_BLOCK_MAX_DATA 0
    (LogRecord.load m).1 = r.1 ∧ (LogRecord.load m).2.eles = r.2 := by
  obtain ⟨hl, ht⟩ := read_head hm hlen htype
  simp only [LogRecord.load, hl, ht]
  rw [if_neg (by omega), if_neg hdummy]
  exact ⟨rfl, rfl⟩

theorem loadBody_rest (hnum : es.length ≤ DPS_MERGE_BLOCK_MAX_DATA) :
    loadBody m (head.length - HEADER_LEN - DPS_RECORD_ELE_HEADER_LEN) (DPS_MERGE_BLOCK_MAX_DATA - es.length)
        (bodySize es) =
      (if es.length = DPS_MERGE_BLOCK_MAX_DATA ∧
          HEADER_LEN + bodySize es + DPS_RECORD_ELE_HEADER_LEN < head.length then .dpsCorruptedLog else .ok, []) := by
  by_cases hr : HEADER_LEN + bodySize es + DPS_RECORD_ELE_HEADER_LEN < head.length
  · by_cases hf : es.length = DPS_MERGE_BLOCK_MAX_DATA
    · rw [if_pos ⟨hf, hr⟩, hf, Nat.sub_self, loadBody_no_slot (by omega)]
    · rw [if_neg fun h => hf h.1, loadBody_stop (stop_tag hm hlen hr) (by omega)]
  · rw [if_neg fun h => hr h.2, loadBody_of_le (by omega)]

include htype hdummy hes

theorem load_all (hfits : HEADER_LEN + bodySize es ≤ head.length) (hmax : head.length ≤ DPS_RECORD_MAX_LEN)
    (hl : ∀ e ∈ es.getLast?, e.value = [] → HEADER_LEN + bodySize es < head.length) :
    (LogRecord.load m).2.eles = es ∧ ((LogRecord.load m).1 = .ok ↔ ¬ (es.length = DPS_MERGE_BLOCK_MAX_DATA ∧
      HEADER_LEN + bodySize es + DPS_RECORD_ELE_HEADER_LEN < head.length)) := by
  obtain ⟨hrc, heles⟩ := load_eq hm hlen htype hdummy (by omega) hmax
  have ha := loadBody_append (k := 0)
    (head.length - HEADER_LEN - DPS_RECORD_ELE_HEADER_LEN) (read_body hm) hes.length_le hes.tag_ne
    hes.len_lt (by omega) (fun e he hn => by have := hl e he hn; omega)
  rw [Nat.zero_add, loadBody_rest hm hlen hes.length_le] at ha
  rw [hrc, heles, ha]
  refine ⟨append_nil es, ?_⟩
  dsimp only
  split_ifs with h <;> simp [h]

theorem load_lost {fs : List Ele} (hfs : es = fs ++ [e]) (hmax : head.length ≤ DPS_RECORD_MAX_LEN)
    (hn : e.value = []) (hend : HEADER_LEN + bodySize es = head.length) : (LogRecord.load m).2.eles = fs := by
  subst hfs
  obtain ⟨-, he⟩ := load_eq hm hlen htype hdummy (by omega) hmax
  have hsize : bodySize (fs ++ [e]) = bodySize fs + DPS_RECORD_ELE_HEADER_LEN := by
    simp [bodySize, Ele.size, hn]
  have hpos : 0 < DPS_RECORD_ELE_HEADER_LEN := by decide
  have hnum : fs.length ≤ DPS_MERGE_BLOCK_MAX_DATA := by
    have := hes.length_le
    rw [length_append] at this
    omega
  have hb : m.read HEADER_LEN (bodySize fs) = bodyBytes fs := by
    have h := read_body hm
    rw [bodyBytes, flatMap_append] at h
    exact length_bodyBytes fs ▸ read_front h
  have ha := loadBody_append (k := 0) (head.length - HEADER_LEN - DPS_RECORD_ELE_HEADER_LEN) hb hnum
    (fun x hx => hes.tag_ne x (mem_append_left _ hx))
    (fun x hx => hes.len_lt x (mem_append_left _ hx)) (by omega) (fun _ _ _ => by omega)
  rw [he, ha]
  dsimp only
  rw [loadBody_of_le (by omega), append_nil]

theorem roundTrip_iff_survives : RoundTrip es (LogRecord.load m) ↔ Survives es head.length := by
  constructor
  · intro h
    obtain ⟨hf, hmax⟩ := (read_head hm hlen htype).1 ▸ h.length_le hes.nodup
    have hl : ∀ e ∈ es.getLast?, e.value = [] → HEADER_LEN + bodySize es < head.length := by
      intro e he hnil
      refine Nat.lt_of_le_of_ne hf fun hend => ?_
      obtain ⟨fs, rfl⟩ := getLast?_eq_some_iff.1 he
      have heles := load_lost hm hlen htype hdummy hes rfl hmax hnil hend
      have hmem : e ∈ fs := heles ▸ mem_of_findEle (h.2.1 e (by simp))
      have hn := hes.nodup
      rw [map_append, nodup_append] at hn
      exact hn.2.2 _ (mem_map_of_mem hmem) _ (by simp) rfl
    obtain ⟨-, hrc⟩ := load_all hm hlen htype hdummy hes hf hmax hl
    exact ⟨hf, hmax, hl, fun hnum => Nat.le_of_not_lt fun hlt => hrc.1 h.1 ⟨hnum, hlt⟩⟩
  · intro h
    obtain ⟨heles, hrc⟩ := load_all hm hlen htype hdummy hes h.fits h.le_max h.last
    refine ⟨hrc.2 fun hfull => Nat.not_lt.2 (h.slots hfull.1) hfull.2, fun e he => ?_, fun tag ht => ?_⟩
    · rw [LogRecord.find, heles]
      exact findEle_of_mem hes.nodup hes.tag_ne he
    · rw [LogRecord.find, heles]
      exact findEle_eq_none ht

end Bytes

/-! ### Records in the ring -/

open LogMgr (recordOffset recordLength)

theorem min_le_recordLength (c : LogConf) (offset len : Nat) (hlen : 0 < len) :
    min len c.logFileSz ≤ recordLength c offset len := by
  have hf : ∀ o, o % c.logFileSz + len ≤ c.logFileSz → len ≤ fillLength c o len :=
    fun o h => (fillLength_spec h).1
  unfold recordLength recordOffset
  split_ifs with hc
  · have hzero : (offset + (c.logFileSz - offset % c.logFileSz)) % c.logFileSz = 0 := by
      refine mod_add_eq_zero ?_
      have := LogMgr.restOfFile_pos c offset
      omega
    by_cases hle : len ≤ c.logFileSz
    · exact (Nat.min_le_left _ _).trans (hf _ (by omega))
    · unfold fillLength
      split_ifs
      · omega
      · exact Nat.min_le_left _ _
  · exact (Nat.min_le_left _ _).trans (hf _ ((not_crossesFile_iff hlen).1 hc))

theorem alignedLen_bounds (h : HEADER_LEN + bodySize es ≤ DPS_RECORD_MAX_LEN) :
    HEADER_LEN + bodySize es ≤ alignedLen es ∧
      alignedLen es < HEADER_LEN + bodySize es + 4 := by
  simp only [alignedLen, ossRoundUpToMultipleX, DPS_RECORD_MAX_LEN, DMS_RECORD_USER_MAX_SZ, HEADER_LEN] at *
  omega

variable {c : LogConf} {head : LogRecordHeader}

theorem length_recordBytes_le {offset : Nat} (hB : HEADER_LEN + bodySize es ≤ DPS_RECORD_MAX_LEN)
    (hlen : head.length = recordLength c offset (alignedLen es)) (hring : head.length ≤ c.totalSize)
    (hneed : alignedLen es ≤ c.totalSize) :
    (recordBytes head es).length ≤ c.totalSize := by
  obtain ⟨hl, hhigh⟩ := alignedLen_bounds hB
  have hm := min_le_recordLength c offset (alignedLen es) (by simp only [HEADER_LEN] at hl; omega)
  have hfile := c.element_le
  have hpage : DPS_DEFAULT_PAGE_SIZE ≤ c.totalSize := Nat.le_mul_of_pos_left _ c.pageNum_pos
  rw [← hlen] at hm
  simp only [recordBytes, length_append, LogRecordHeader.length_bytes, length_bodyBytes]
  unfold stopMarker
  split_ifs with hstop
  · simp only [length_replicate, HEADER_LEN, DPS_RECORD_ELE_HEADER_LEN, DPS_RECORD_MAX_LEN,
      DMS_RECORD_USER_MAX_SZ, DPS_DEFAULT_PAGE_SIZE] at *
    omega
  · simp only [length_nil]
    omega

/-- A record with the elements `es` is written, and the bytes found at its place are loaded; `none` if it is
not written. -/
def writeAndLoad (c : LogConf) (w : Waits) (head : LogRecordHeader) (es : List Ele) (s : LogMgr) :
    Option (Rc × LogRecord) := do
  let ((_, p), t) ← s.preparePages c w false { head with length := alignedLen es }
  let p ← p
  some (LogRecord.load (bytesFrom c (writeData c p es t) p.pageMeta))

theorem written_bytes {w : Waits} {s t : LogMgr} {rc : Rc} {p : Prepared} (hs : s.Sound c)
    (hB : HEADER_LEN + bodySize es ≤ DPS_RECORD_MAX_LEN) (hdummy : head.type ≠ LOG_TYPE_DUMMY)
    (hp : s.preparePages c w false { head with length := alignedLen es } = some ((rc, some p), t)) :
    let m := bytesFrom c (writeData c p es t) p.pageMeta
    p.head.length = recordLength c s.lsn.offset (alignedLen es) ∧ p.head.type = head.type ∧
      p.head.length ≤ c.totalSize ∧
      m.read 0 (recordBytes p.head es).length = recordBytes p.head es := by
  obtain ⟨b, e, hring⟩ := hs
  obtain ⟨hl, -⟩ := alignedLen_bounds hB
  by_cases ht : c.totalSize < alignedLen es
  · rw [LogMgr.preparePages, if_pos ht] at hp
    cases hp
  · rw [LogMgr.preparePages_new ht, bind_eq_some_iff] at hp
    obtain ⟨u, hw, hp⟩ := hp
    rw [map_eq_some_iff] at hp
    obtain ⟨⟨q, v⟩, hn, heq⟩ := hp
    simp only [Prod.mk.injEq, some.injEq] at heq
    obtain ⟨⟨-, rfl⟩, rfl⟩ := heq
    obtain ⟨b', hring', -⟩ := LogMgr.ring_awaitIdle hring hw
    obtain ⟨hlen, htype, b'', e', hring'', hle, hpm⟩ :=
      LogMgr.ring_prepareNew hring' (by simp only [HEADER_LEN] at hl ⊢; omega) hn
    rw [(LogMgr.sameLsn_awaitIdle hw).lsn] at hlen
    have hr : q.head.length ≤ c.totalSize := by
      have := hring''.fits
      rw [Nat.add_mul] at this
      rw [LogConf.totalSize]
      omega
    have hb := length_recordBytes_le hB hlen hr (Nat.le_of_not_lt ht)
    have ho : q.pageMeta.offset < DPS_DEFAULT_PAGE_SIZE := by
      rw [hpm]
      exact Nat.mod_lt _ pageSize_pos
    have hsub : q.pageMeta.beginSub < c.pageNum := by
      rw [hpm]
      exact Nat.mod_lt _ c.pageNum_pos
    obtain ⟨m, hm⟩ : ∃ m : Mem, ∀ i < c.totalSize,
        bytesFrom c (writeData c q es v) q.pageMeta i = m.write 0 (recordBytes q.head es) i :=
      ⟨_, mergeLogs_bytes _ (htype ▸ hdummy) ho hsub hb⟩
    refine ⟨hlen, htype, hr, ?_⟩
    calc (bytesFrom c (writeData c q es v) q.pageMeta).read 0 (recordBytes q.head es).length
        = (m.write 0 (recordBytes q.head es)).read 0 (recordBytes q.head es).length :=
          read_congr fun i _ hi => hm i (by omega)
      _ = recordBytes q.head es := read_write

/-- A record that is written into a sound ring gives back exactly its elements when it is loaded, if and only
if it is not too long, its last element is not an empty one that ends with the record, and a record with all
the elements that are possible was not stretched. -/
theorem logRecord_roundTrip_iff (c : LogConf) (s : LogMgr) (hs : s.Sound c) (w : Waits) (head : LogRecordHeader)
    (htype : head.type < 2 ^ 16) (hdummy : head.type ≠ LOG_TYPE_DUMMY) (es : List Ele) (hes : Pushed es)
    (r : Rc × LogRecord) (hr : writeAndLoad c w head es s = some r) :
    RoundTrip es r ↔ Survives es (recordLength c s.lsn.offset (LogRecord.alignedLen es)) := by
  simp only [writeAndLoad, bind_eq_bind, bind_eq_some_iff] at hr
  obtain ⟨⟨⟨rc, _⟩, t⟩, hprep, p, rfl, hr⟩ := hr
  cases hr
  by_cases hB : HEADER_LEN + bodySize es ≤ DPS_RECORD_MAX_LEN
  · obtain ⟨hlen, htype', hroom, hm⟩ := written_bytes hs hB hdummy hprep
    rw [← hlen]
    refine roundTrip_iff_survives hm ?_ (htype' ▸ htype) (htype' ▸ hdummy) hes
    exact hroom.trans_lt c.totalSize_lt
  · -- too many bytes: no memory gives them back
    constructor
    · intro h
      have := h.length_le hes.nodup
      omega
    · intro h
      exact absurd (h.fits.trans h.le_max) hB

theorem onePage_lt : 1 * DPS_DEFAULT_PAGE_SIZE < 2 ^ 32 := by decide

def kiloConf : LogConf where
  pageNum := 1
  logFileSz := 1000
  pageNum_pos := Nat.one_pos
  totalSize_lt := onePage_lt
  header_lt := by decide
  element_le := by decide
  aligned := by decide

def kiloHead : LogRecordHeader := { LogRecordHeader.clear with type := 1 }

def keptEles : List Ele := [{ tag := 1, value := [7] }, { tag := 2, value := [] }]

def lostEles : List Ele := [{ tag := 1, value := [7, 8] }, { tag := 2, value := [] }]

theorem logRecord_roundTrip_kept :
    ∃ r, writeAndLoad kiloConf noWaits kiloHead keptEles (LogMgr.new kiloConf fun _ _ => 0) = some r ∧
      RoundTrip keptEles r := by
  obtain ⟨r, hr⟩ : ∃ r, writeAndLoad kiloConf noWaits kiloHead keptEles (LogMgr.new kiloConf fun _ _ => 0) =
    some r := isSome_iff_exists.1 (by decide +kernel)
  refine ⟨r, hr, (logRecord_roundTrip_iff kiloConf _ (LogMgr.sound_new kiloConf _) noWaits kiloHead (by decide)
    (by decide) keptEles ⟨by decide, by decide, by decide, by decide⟩ r hr).2 ?_⟩
  exact ⟨by decide, by decide, by decide, by decide⟩

theorem logRecord_lastElement_lost :
    (writeAndLoad kiloConf noWaits kiloHead lostEles (LogMgr.new kiloConf fun _ _ => 0)).map
        (fun r => (r.1, r.2.find 1, r.2.find 2)) =
      some (.ok, some { tag := 1, value := [7, 8] }, none) := by
  decide +kernel

end SequoiaDB.Dps
