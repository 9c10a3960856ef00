import SequoiaDB.Dms.Capped

/-!
# Records in the memory of an extent

`Layout m L o n bs` says that, from offset `o` on, memory `m` holds records with the elements `bs` one behind the
other, as `_extentInsertRecord` writes them into an extent with logical id `L`, numbered from `n` on.  Reading
the heads back gives sizes, numbers and logical ids; a write behind the records does not disturb them.
-/

namespace SequoiaDB.Dms.Capped

open SequoiaDB.Lib List

/-! ### Sizes and ids -/

def Fits (body : List UInt8) : Prop :=
  recordDataLen body + DMS_RECORD_METADATA_SZ ≤ DMS_RECORD_USER_MAX_SZ

instance (body : List UInt8) : Decidable (Fits body) := inferInstanceAs (Decidable (_ ≤ _))

def recSize (body : List UInt8) : Nat := finalRecordSize (recordDataLen body)

def lidOf (L : Int) (o : Nat) : Int := L * DMS_CAP_EXTENT_BODY_SZ + o - DMS_EXTENT_METADATA_SZ

theorem recSize_bounds {body : List UInt8} (h : Fits body) :
    46 + body.length ≤ recSize body ∧ recSize body % 4 = 0 ∧ recSize body < 2 ^ 24 := by
  unfold Fits recordDataLen DMS_RECORD_METADATA_SZ DMS_RECORD_USER_MAX_SZ DMS_RECORD_MAX_SZ
    LOGICAL_ID_TO_INSERT_SZ at h
  unfold recSize finalRecordSize recordDataLen align4 DMS_RECORD_METADATA_SZ DMS_RECORD_MAX_SZ
    LOGICAL_ID_TO_INSERT_SZ
  omega

variable {L : Int} {o : Nat}

theorem lidOf_bounds (hL : 0 ≤ L) (hL' : L < 2 ^ 31) (ho : DMS_EXTENT_METADATA_SZ ≤ o) (ho' : o < DMS_CAP_EXTENT_SZ) :
    0 ≤ lidOf L o ∧ lidOf L o < 2 ^ 63 := by
  simp only [lidOf, DMS_CAP_EXTENT_BODY_SZ, DMS_EXTENT_METADATA_SZ, DMS_CAP_EXTENT_SZ] at *
  omega

theorem int64_toNat {x : Int} (h : 0 ≤ x) (h' : x < 2 ^ 63) : int64 (x % 2 ^ 64).toNat = x := by
  have hm : x % 2 ^ 64 = x := Int.emod_eq_of_lt h (by omega)
  rw [hm, int64, if_pos (by omega)]
  omega

theorem recLid2ExtLidAndOffset_lidOf (hL : 0 ≤ L) (hL' : L < 2 ^ 31) (ho : DMS_EXTENT_METADATA_SZ ≤ o)
    (ho' : o < DMS_CAP_EXTENT_SZ) :
    recLid2ExtLidAndOffset (lidOf L o) = (L, (o : Int)) := by
  have hb := lidOf_bounds hL hL' ho ho'
  have hbody : (0 : Int) < DMS_CAP_EXTENT_BODY_SZ := by decide
  have hlt : (o : Int) - DMS_EXTENT_METADATA_SZ < DMS_CAP_EXTENT_BODY_SZ := by
    simp only [DMS_CAP_EXTENT_BODY_SZ, DMS_EXTENT_METADATA_SZ, DMS_CAP_EXTENT_SZ] at *
    omega
  have hl : lidOf L o = ((o : Int) - DMS_EXTENT_METADATA_SZ) + DMS_CAP_EXTENT_BODY_SZ * L := by
    unfold lidOf
    ring
  have hd : lidOf L o / DMS_CAP_EXTENT_BODY_SZ = L := by
    rw [hl, Int.add_mul_ediv_left _ _ hbody.ne', Int.ediv_eq_zero_of_lt (by omega) hlt, zero_add]
  have hm : lidOf L o % DMS_CAP_EXTENT_BODY_SZ = o - DMS_EXTENT_METADATA_SZ := by
    rw [hl, Int.add_mul_emod_self_left, Int.emod_eq_of_lt (by omega) hlt]
  have h32 : int32 L = L := by
    unfold int32
    rw [Int.bmod_eq_of_le (by omega) (by omega)]
  rw [recLid2ExtLidAndOffset, if_neg (by omega), hd, hm, h32]
  simp

variable {o o' : Nat}

theorem lidOf_lt_of_offset (h : o < o') : lidOf L o < lidOf L o' := by
  unfold lidOf
  omega

theorem lidOf_lt_of_extent {L L' : Int} (h : L < L') (ho : o < DMS_CAP_EXTENT_SZ) (ho' : DMS_EXTENT_METADATA_SZ ≤ o') :
    lidOf L o < lidOf L' o' := by
  simp only [lidOf, DMS_CAP_EXTENT_BODY_SZ, DMS_EXTENT_METADATA_SZ, DMS_CAP_EXTENT_SZ] at *
  omega

/-! ### Records -/

def RecAt (m : Mem) (L : Int) (o n : Nat) (body : List UInt8) : Prop :=
  m.read o (33 + body.length) = headBytes (recSize body) n (lidOf L o) ++ recordData body (lidOf L o)

/-- Records with elements `bs` one behind the other from offset `o` on, numbered from `n` on. -/
def Layout (m : Mem) (L : Int) : Nat → Nat → List (List UInt8) → Prop
  | _, _, [] => True
  | o, n, b :: bs => Fits b ∧ RecAt m L o n b ∧ Layout m L (o + recSize b) (n + 1) bs

def span (bs : List (List UInt8)) : Nat := (bs.map recSize).sum

@[simp] theorem span_nil : span [] = 0 := rfl

@[simp] theorem span_cons (b : List UInt8) (bs : List (List UInt8)) : span (b :: bs) = recSize b + span bs := rfl

@[simp] theorem span_append (as bs : List (List UInt8)) : span (as ++ bs) = span as + span bs := by
  simp [span]

theorem recAt_write (m : Mem) (L : Int) (o n : Nat) (body : List UInt8) :
    RecAt (m.write o (headBytes (recSize body) n (lidOf L o) ++ recordData body (lidOf L o))) L o n body := by
  have hl : (headBytes (recSize body) n (lidOf L o) ++ recordData body (lidOf L o)).length = 33 + body.length := by
    simp [headBytes, recordData]
    omega
  rw [RecAt, ← hl]
  exact Mem.read_write

section Layout

variable {m m' : Mem} {L : Int} {o n : Nat} {as bs : List (List UInt8)} {b : List UInt8}

theorem RecAt.congr (h : RecAt m L o n b) (hm : ∀ i, o ≤ i → i < o + (33 + b.length) → m' i = m i) :
    RecAt m' L o n b := by
  rw [RecAt, Mem.read_congr hm]
  exact h

theorem Layout.congr (h : Layout m L o n bs) (hm : ∀ i, o ≤ i → i < o + span bs → m' i = m i) :
    Layout m' L o n bs := by
  induction bs generalizing o n with
  | nil => trivial
  | cons b bs ih =>
    obtain ⟨hf, hr, hrest⟩ := h
    have hsize := recSize_bounds hf
    rw [span_cons] at hm
    refine ⟨hf, hr.congr ?_, ih hrest ?_⟩
    · exact fun i h1 h2 => hm i h1 (by omega)
    · exact fun i h1 h2 => hm i (by omega) (by omega)

theorem layout_append : Layout m L o n (as ++ bs) ↔
    Layout m L o n as ∧ Layout m L (o + span as) (n + as.length) bs := by
  induction as generalizing o n with
  | nil => simp [Layout]
  | cons a as ih =>
    rw [cons_append, Layout, ih, Layout, span_cons, length_cons]
    simp only [and_assoc, Nat.add_assoc, Nat.add_comm 1]

theorem Layout.forall_fits (h : Layout m L o n bs) : ∀ b ∈ bs, Fits b := by
  induction bs generalizing o n with
  | nil => simp
  | cons b bs ih => exact forall_mem_cons.2 ⟨h.1, ih h.2.2⟩

theorem length_le_span (h : ∀ b ∈ bs, Fits b) : 46 * bs.length ≤ span bs ∧ span bs % 4 = 0 := by
  induction bs with
  | nil => simp
  | cons b bs ih =>
    have hb := recSize_bounds (h b (mem_cons_self ..))
    have hbs := ih fun c hc => h c (mem_cons_of_mem _ hc)
    rw [span_cons, length_cons]
    omega

end Layout

/-! ### Reading heads back -/

/-- What is known about the place of a record: the extent's logical id, the offset and the number are in range. -/
structure InRange (L : Int) (o n : Nat) : Prop where
  lid_nonneg : 0 ≤ L
  lid_lt : L < 2 ^ 31
  offset_ge : DMS_EXTENT_METADATA_SZ ≤ o
  offset_lt : o < DMS_CAP_EXTENT_SZ
  recNo_lt : n < 2 ^ 32

variable {b : List UInt8}

theorem RecAt.readHead {cl : Collection} {id o n : Nat} (hf : Fits b) (h : RecAt (cl.mem id) L o n b)
    (hr : InRange L o n) :
    cl.readHead id o = ⟨(recSize b - 1) * 256, n, lidOf L o⟩ := by
  have hsize := recSize_bounds hf
  have hl := lidOf_bounds hr.lid_nonneg hr.lid_lt hr.offset_ge hr.offset_lt
  rw [RecAt, headBytes, append_assoc, append_assoc] at h
  have h1 := Mem.read_front h
  have h2 := Mem.read_middle h
  rw [← append_assoc] at h
  have h3 := Mem.read_middle h
  simp only [length_append, length_leBytes] at h1 h2 h3
  unfold Collection.readHead
  rw [h1, h2, h3, leNat_leBytes (by omega), leNat_leBytes (by have := hr.recNo_lt; omega),
    leNat_leBytes (by omega), int64_toNat hl.1 hl.2]

variable {n : Nat} {lid : Int}

theorem isNormal_recSize : RecordHead.isNormal ⟨(recSize b - 1) * 256, n, lid⟩ := by
  simp only [RecordHead.isNormal, decide_eq_true_eq]
  omega

theorem getSize_recSize (hf : Fits b) : RecordHead.getSize ⟨(recSize b - 1) * 256, n, lid⟩ = recSize b := by
  have := recSize_bounds hf
  simp only [RecordHead.getSize]
  omega

theorem RecAt.read_body {m : Mem} {o n : Nat} (hf : Fits b) (h : RecAt m L o n b) :
    m.read (o + DMS_RECORD_METADATA_SZ + 4 + LOGICAL_ID_TO_INSERT_SZ)
      (leNat (m.read (o + DMS_RECORD_METADATA_SZ) 4) - 4 - LOGICAL_ID_TO_INSERT_SZ) = b := by
  have hl : leNat (m.read (o + DMS_RECORD_METADATA_SZ) 4) = 4 + LOGICAL_ID_TO_INSERT_SZ + b.length := by
    have h' := h
    rw [RecAt, recordData, append_assoc, append_assoc] at h'
    have hm := Mem.read_middle h'
    simp only [headBytes, length_append, length_leBytes] at hm
    rw [show o + DMS_RECORD_METADATA_SZ = o + (4 + 4 + 8) from rfl, hm]
    refine leNat_leBytes ?_
    unfold Fits recordDataLen DMS_RECORD_METADATA_SZ DMS_RECORD_USER_MAX_SZ DMS_RECORD_MAX_SZ
      LOGICAL_ID_TO_INSERT_SZ at hf
    unfold LOGICAL_ID_TO_INSERT_SZ
    omega
  have hr : m.read o (33 + b.length) = (headBytes (recSize b) n (lidOf L o) ++
      (leBytes 4 (4 + LOGICAL_ID_TO_INSERT_SZ + b.length) ++ [18, 95, 105, 100, 0] ++
        leBytes 8 (lidOf L o % 2 ^ 64).toNat)) ++ (b ++ []) := by
    rw [h, recordData]
    simp [append_assoc]
  have hm := Mem.read_middle hr
  simp only [headBytes, length_append, length_leBytes, length_cons, length_nil] at hm
  rw [hl, show 4 + LOGICAL_ID_TO_INSERT_SZ + b.length - 4 - LOGICAL_ID_TO_INSERT_SZ = b.length by omega]
  exact hm

end SequoiaDB.Dms.Capped
