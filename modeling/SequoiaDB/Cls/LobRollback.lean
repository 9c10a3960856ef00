import SequoiaDB.Dms.LobRun

/-!
# Rolling back LOB log records

`_clsReplayer::rollback` undoes a logged write by a removal, a logged update by an update with the old bytes, and a
logged removal by a write.  Rolled back in reverse order, the records of a sequence of operations give the pieces back,
except that a piece which was extended before its first removal keeps the greater length: an update never makes a piece
shorter.
-/

namespace SequoiaDB.Cls

open Lib Dms Dms.LobStore Function LobEnv Finset

variable {E : LobEnv} {s s' : LobStore} {mb page : Nat} {oid : BitVec 96} {seq : Nat}

def noError : LobCheck → Bool := fun _ => false

def stored (E : LobEnv) (s : LobStore) (mb : Nat) (oid : BitVec 96) (sequence : Nat) : Option (Nat × Mem) :=
  match E.find s mb oid sequence noError with
  | .ok (some page) => some ((s.blk page).dataLen, s.data page)
  | _ => none

def piece (E : LobEnv) (s : LobStore) (mb : Nat) (oid : BitVec 96) (sequence : Nat) : Option (List UInt8) :=
  (stored E s mb oid sequence).map fun v => v.2.read 0 v.1

def rollback (E : LobEnv) (s : LobStore) : LobLog → Option (Rc × LobStore)
  | .write mb oid sequence _ _ =>
    (E.remove s mb oid sequence false noError).map fun r => (if r.1 = .lobSequenceNotExist then .ok else r.1, r.2)
  | .update mb oid sequence offset _ oldData => some (E.update s mb ⟨oid, sequence, offset, oldData⟩ false noError)
  | .remove mb oid sequence offset data =>
    let r := E.write s mb ⟨oid, sequence, offset, data⟩ false noError
    some (if r.1 = .lobSequenceExists then .ok else r.1, r.2)
  | .truncate _ => some (.clsReplayLogFailed, s)

def rollbackAll (E : LobEnv) (s : LobStore) : List LobLog → Option (Rc × LobStore)
  | [] => some (.ok, s)
  | l :: ls => (rollbackAll E s ls).bind fun r => if r.1 = .ok then rollback E r.2 l else some r

inductive LobEdit (E : LobEnv)
  | write (mb : E.mbs) (r : LobRecord)
  | update (mb : E.mbs) (r : LobRecord)
  | writeOrUpdate (mb : E.mbs) (r : LobRecord)
  | remove (mb : E.mbs) (oid : BitVec 96) (sequence : Nat)

def LobEdit.op : LobEdit E → LobOp E
  | write mb r => .write mb r true
  | update mb r => .update mb r true
  | writeOrUpdate mb r => .writeOrUpdate mb r true
  | remove mb oid sequence => .remove mb oid sequence true

def edits (E : LobEnv) (s : LobStore) (es : List (LobEdit E)) : Option LobStore :=
  run E.step (some s) (es.map fun e => (e.op, noError))

def extent (E : LobEnv) (mb : Nat) (oid : BitVec 96) (sequence : Nat) : List (LobEdit E) → Nat
  | [] => 0
  | .write _ _ :: es => extent E mb oid sequence es
  | .update mb' r :: es | .writeOrUpdate mb' r :: es =>
    if (mb'.1 = mb ∧ r.oid = oid ∧ r.sequence = sequence) ∧ r.offset + r.data.length ≤ E.lobdPageSize then
      max (r.offset + r.data.length) (extent E mb oid sequence es)
    else extent E mb oid sequence es
  | .remove mb' oid' sequence' :: es =>
    if mb'.1 = mb ∧ oid' = oid ∧ sequence' = sequence then 0 else extent E mb oid sequence es

section Stored

variable (h : Directory E s)

include h

theorem find_noError (mb : Nat) (oid : BitVec 96) (seq : Nat) : ∃ found, E.find s mb oid seq noError = .ok found :=
  h.find_ok mb oid seq fun _ => rfl

theorem stored_eq (hp : page ∈ s.used) (hk : (s.blk page).key = ⟨E.logicalID mb, oid, seq⟩) :
    stored E s mb oid seq = some ((s.blk page).dataLen, s.data page) := by
  obtain ⟨found, hf⟩ := find_noError h mb oid seq
  rw [stored, hf, (h.find_iff hf page).2 ⟨hp, hk⟩]

theorem stored_eq_none (hno : ∀ p ∈ s.used, (s.blk p).key ≠ ⟨E.logicalID mb, oid, seq⟩) :
    stored E s mb oid seq = none := by
  obtain ⟨found, hf⟩ := find_noError h mb oid seq
  rw [stored, hf]
  cases found with
  | none => rfl
  | some page =>
    obtain ⟨hp, hk⟩ := h.find_some hf
    exact absurd hk (hno page hp)

theorem exists_page {v : Nat × Mem} (hv : stored E s mb oid seq = some v) :
    ∃ page ∈ s.used, E.find s mb oid seq noError = .ok (some page) ∧
      (s.blk page).key = ⟨E.logicalID mb, oid, seq⟩ ∧ v = ((s.blk page).dataLen, s.data page) := by
  unfold stored at hv
  split at hv
  · rename_i page hf
    obtain ⟨hp, hk⟩ := h.find_some hf
    exact ⟨page, hp, hf, hk, (Option.some.inj hv).symm⟩
  · cases hv

theorem find_of_stored_none (hv : stored E s mb oid seq = none) : E.find s mb oid seq noError = .ok none := by
  obtain ⟨found, hf⟩ := find_noError h mb oid seq
  cases found with
  | none => exact hf
  | some page =>
    rw [stored, hf] at hv
    cases hv

theorem stored_congr (h' : Directory E s') {pages : Finset Nat} (ha : Alike s s' pages)
    (hs : pages ⊆ s.used) (hs' : pages ⊆ s'.used)
    (ho : ∀ p ∈ s.used, (s.blk p).key = ⟨E.logicalID mb, oid, seq⟩ → p ∈ pages)
    (hin : ∀ p ∈ s'.used, (s'.blk p).key = ⟨E.logicalID mb, oid, seq⟩ → p ∈ pages) :
    stored E s' mb oid seq = stored E s mb oid seq := by
  match hv : stored E s mb oid seq with
  | some v =>
    obtain ⟨page, hp, -, hk, rfl⟩ := exists_page h hv
    have hpages : page ∈ pages := ho page hp hk
    rw [stored_eq h' (hs' hpages) (by rw [ha.key hpages, hk]), ha.dataLen hpages, ha.data page hpages]
  | none =>
    refine stored_eq_none h' fun p hp hk => ?_
    have hpages : p ∈ pages := hin p hp hk
    rw [stored_eq h (hs hpages) (by rw [← ha.key hpages, hk])] at hv
    cases hv

theorem stored_append (dps : Bool) (l : LobLog) : stored E (s.append dps l) mb oid seq = stored E s mb oid seq := by
  cases dps with
  | false => rfl
  | true =>
    exact stored_congr h (h.append true l) ⟨(Alike.refl s s.used).blk, fun _ _ => rfl⟩ (Subset.refl _) (Subset.refl _)
      (fun _ hp _ => hp) fun _ hp _ => hp

omit h

end Stored

/-- The piece is changed to `v`, the others are not changed, and nothing is logged. -/
structure Edited (E : LobEnv) (s s' : LobStore) (mb : Nat) (oid : BitVec 96) (sequence : Nat)
    (v : Option (Nat × Mem)) : Prop where
  directory : Directory E s'
  log : s'.log = s.log
  self : stored E s' mb oid sequence = v
  other : ∀ mb' oid' sequence', (⟨E.logicalID mb', oid', sequence'⟩ : LobKey) ≠ ⟨E.logicalID mb, oid, sequence⟩ →
    stored E s' mb' oid' sequence' = stored E s mb' oid' sequence'

section Edited

variable {r : LobRecord}

theorem unchanged_stored (hd : Directory E s) (h : Unchanged E s s') (mb : Nat) (oid : BitVec 96) (seq : Nat) :
    stored E s' mb oid seq = stored E s mb oid seq :=
  stored_congr hd h.directory h.alike (Subset.refl _) (h.used ▸ Subset.refl _) (fun _ hp _ => hp)
    fun _ hp _ => h.used ▸ hp

theorem added_edited (hd : Directory E s) (h : Added E s s' mb page r) (hl : s'.log = s.log) :
    Edited E s s' mb r.oid r.sequence (some (r.data.length + r.offset, (s.data page).write r.offset r.data)) where
  directory := h.directory
  log := hl
  self := by
    rw [stored_eq h.directory (by rw [h.used]; exact mem_insert_self ..) h.key, h.dataLen, h.data]
  other mb' oid' seq' hne := by
    refine stored_congr hd h.directory h.alike (Subset.refl _) (by rw [h.used]; exact subset_insert ..)
      (fun _ hp _ => hp) fun p hp hk => ?_
    rw [h.used, mem_insert] at hp
    refine hp.resolve_left ?_
    rintro rfl
    exact hne (hk.symm.trans h.key)

theorem updated_edited (hd : Directory E s) (hpage : page ∈ s.used)
    (hk : (s.blk page).key = ⟨E.logicalID mb, r.oid, r.sequence⟩) (h : Updated E s s' page r) :
    Edited E s s' mb r.oid r.sequence
      (some (max (s.blk page).dataLen (r.data.length + r.offset), (s.data page).write r.offset r.data)) where
  directory := h.directory
  log := h.log
  self := by
    have hkey : (s'.blk page).key = ⟨E.logicalID mb, r.oid, r.sequence⟩ := by
      rw [← hk, h.blk, update_self]
      rfl
    rw [stored_eq h.directory (h.used ▸ hpage) hkey, h.blk, h.data, update_self, update_self]
  other mb' oid' seq' hne := by
    have ho {p : Nat} (hp : p ≠ page) : s'.blk p = s.blk p := by rw [h.blk, update_of_ne hp]
    have hkey : (s'.blk page).key = (s.blk page).key := by
      rw [h.blk, update_self]
      rfl
    have ha : Alike s s' (s.used.erase page) := by
      refine ⟨fun p hp => ?_, fun p hp => ?_⟩
      · rw [prev, next, ho (mem_erase.1 hp).1]
      · rw [h.data, update_of_ne (mem_erase.1 hp).1]
    refine stored_congr hd h.directory ha (erase_subset ..) (h.used ▸ erase_subset ..)
      (fun p hp hk' => ?_) fun p hp hk' => ?_
    · refine mem_erase.2 ⟨?_, hp⟩
      rintro rfl
      exact hne (hk'.symm.trans hk)
    · refine mem_erase.2 ⟨?_, h.used ▸ hp⟩
      rintro rfl
      exact hne (hk'.symm.trans (hkey.trans hk))

theorem removed_edited (hd : Directory E s) (hpage : page ∈ s.used)
    (hk : (s.blk page).key = ⟨E.logicalID mb, oid, seq⟩) (h : Removed E s s' page) :
    Edited E s s' mb oid seq none where
  directory := h.directory
  log := h.log
  self := by
    refine stored_eq_none h.directory fun p hp hkp => ?_
    rw [h.used] at hp
    rw [h.alike.key hp, ← hk] at hkp
    exact (mem_erase.1 hp).1 (hd.key_inj p (mem_of_mem_erase hp) page hpage hkp)
  other mb' oid' seq' hne := by
    refine stored_congr hd h.directory h.alike (erase_subset ..) (by rw [h.used]) (fun p hp hk' => ?_)
      fun p hp _ => h.used ▸ hp
    refine mem_erase.2 ⟨?_, hp⟩
    rintro rfl
    exact hne (hk'.symm.trans hk)

end Edited

def overwritten (v : Nat × Mem) (r : LobRecord) : List UInt8 :=
  if v.1 ≤ r.offset then []
  else if v.1 < r.offset + r.data.length then v.2.read r.offset (v.1 - r.offset)
  else v.2.read r.offset r.data.length

section Operations

variable (h : Directory E s) (r : LobRecord) (dps : Bool)

private theorem noError_ne {c : LobCheck} : ¬ noError c = true := Bool.false_ne_true

include h

theorem updateWithPage_edited (hp : page ∈ s.used) (hk : (s.blk page).key = ⟨E.logicalID mb, r.oid, r.sequence⟩)
    (hf : r.offset + r.data.length ≤ E.lobdPageSize) :
    ∃ s', E.updateWithPage s mb page r dps noError = (.ok, s'.append dps (.update mb r.oid r.sequence r.offset r.data
        (overwritten ((s.blk page).dataLen, s.data page) r))) ∧
      Edited E s s' mb r.oid r.sequence
        (some (max (s.blk page).dataLen (r.data.length + r.offset), (s.data page).write r.offset r.data)) := by
  obtain ⟨s', he, hu, -⟩ | ⟨-, -, hlong⟩ | ⟨-, c, hc⟩ := h.updateWithPage hp mb r dps noError
  · exact ⟨s', he, updated_edited h hp hk hu⟩
  · exact absurd (hlong fun _ => rfl) (Nat.not_lt.2 hf)
  · exact absurd hc noError_ne

theorem updateWithPage_long (hp : page ∈ s.used) (hl : E.lobdPageSize < r.offset + r.data.length) :
    ∃ rc, E.updateWithPage s mb page r dps noError = (rc, s) := by
  obtain ⟨s', -, -, hf⟩ | ⟨-, hs, -⟩ | ⟨-, c, hc⟩ := h.updateWithPage hp mb r dps noError
  · exact absurd hl (Nat.not_lt.2 hf)
  · exact ⟨_, Prod.ext rfl hs⟩
  · exact absurd hc noError_ne

theorem update_none (hv : stored E s mb r.oid r.sequence = none) :
    E.update s mb r dps noError = (.lobSequenceNotExist, s) := by
  rw [LobEnv.update, if_neg noError_ne, find_of_stored_none h hv]

theorem update_long (mb : Nat) (hl : E.lobdPageSize < r.offset + r.data.length) :
    ∃ rc, E.update s mb r dps noError = (rc, s) := by
  match hv : stored E s mb r.oid r.sequence with
  | none => exact ⟨_, update_none h r dps hv⟩
  | some v =>
    obtain ⟨page, hp, hf, -⟩ := exists_page h hv
    rw [LobEnv.update, if_neg noError_ne, hf]
    exact updateWithPage_long h r dps hp hl

variable {v : Nat × Mem}

theorem update_edited (hv : stored E s mb r.oid r.sequence = some v)
    (hfit : r.offset + r.data.length ≤ E.lobdPageSize) :
    ∃ s', E.update s mb r dps noError =
        (.ok, s'.append dps (.update mb r.oid r.sequence r.offset r.data (overwritten v r))) ∧
      Edited E s s' mb r.oid r.sequence (some (max v.1 (r.data.length + r.offset), v.2.write r.offset r.data)) := by
  obtain ⟨page, hp, hf, hk, rfl⟩ := exists_page h hv
  rw [LobEnv.update, if_neg noError_ne, hf]
  exact updateWithPage_edited h r dps hp hk hfit

theorem write_edited (hmb : mb ∈ E.mbs) (hv : stored E s mb r.oid r.sequence = none)
    (hf : r.offset + r.data.length ≤ E.lobdPageSize) :
    ∃ s' m, E.write s mb r dps noError = (.ok, s'.append dps (.write mb r.oid r.sequence r.offset r.data)) ∧
      Edited E s s' mb r.oid r.sequence (some (r.data.length + r.offset, m)) ∧
      ∀ i, r.offset ≤ i → i < r.offset + r.data.length → m i = r.data.getD (i - r.offset) 0 := by
  obtain ⟨s', he, ha, hl, -⟩ | ⟨-, -, hno⟩ | ⟨-, c, hc⟩ :=
    (Allocated.allocatePage s mb (E.findFreeSpace s)).writeWithPage h (E.findFreeSpace_notMem s) hmb rfl r dps noError
  · exact ⟨s', _, he, added_edited h ha hl, fun i h1 h2 => if_pos ⟨h1, h2⟩⟩
  · obtain hlong | ⟨p, hp, hk⟩ := hno fun _ => rfl
    · exact absurd hlong (Nat.not_lt.2 hf)
    · rw [stored_eq h hp hk] at hv
      cases hv
  · exact absurd hc noError_ne

theorem write_unchanged (hmb : mb ∈ E.mbs)
    (hv : stored E s mb r.oid r.sequence ≠ none ∨ E.lobdPageSize < r.offset + r.data.length) :
    ∃ rc s', E.write s mb r dps noError = (rc, s') ∧ Unchanged E s s' := by
  obtain ⟨s', -, -, -, hf, hno⟩ | ⟨-, hu, -⟩ | ⟨-, c, hc⟩ :=
    (Allocated.allocatePage s mb (E.findFreeSpace s)).writeWithPage h (E.findFreeSpace_notMem s) hmb rfl r dps noError
  · obtain hv | hlong := hv
    · exact absurd (stored_eq_none h hno) hv
    · exact absurd hlong (Nat.not_lt.2 hf)
  · exact ⟨_, _, rfl, hu⟩
  · exact absurd hc noError_ne

theorem find_allocatePage (mb : Nat) (oid : BitVec 96) (seq : Nat) :
    E.find (s.allocatePage mb (E.findFreeSpace s)) mb oid seq noError = E.find s mb oid seq noError := by
  have ha := Allocated.allocatePage s mb (E.findFreeSpace s)
  obtain ⟨chain, hc⟩ := ha.chains h
  have hlt : ∀ p ∈ s.used, p < (s.allocatePage mb (E.findFreeSpace s)).pageNum := fun p hp =>
    Nat.lt_of_lt_of_le (h.lt p hp) ha.pageNum
  obtain ⟨found, hf⟩ : ∃ found, E.find (s.allocatePage mb (E.findFreeSpace s)) mb oid seq noError = .ok found :=
    hc.find_ok hlt fun _ => rfl
  rw [hf]
  cases found with
  | none => exact (find_of_stored_none h (stored_eq_none h (hc.find_none hlt hf))).symm
  | some page =>
    obtain ⟨found, hf'⟩ := find_noError h mb oid seq
    rw [hf', (h.find_iff hf' page).2 (hc.find_some hlt hf)]

theorem writeOrUpdate_eq_write (hv : stored E s mb r.oid r.sequence = none) :
    E.writeOrUpdate s mb r dps noError = E.write s mb r dps noError := by
  rw [LobEnv.writeOrUpdate, LobEnv.writeInner, if_neg noError_ne, if_neg noError_ne]
  dsimp only
  rw [if_pos rfl, find_allocatePage h, find_of_stored_none h hv]
  rfl

theorem writeOrUpdate_eq_update (hv : stored E s mb r.oid r.sequence = some v) :
    ∃ t, Unchanged E s t ∧ E.writeOrUpdate s mb r dps noError = E.update t mb r dps noError := by
  have hr := (Allocated.allocatePage s mb (E.findFreeSpace s)).release h (E.findFreeSpace_notMem s)
  obtain ⟨page, -, hf, -⟩ := exists_page h hv
  refine ⟨_, hr, ?_⟩
  have hfrel : E.find ((s.allocatePage mb (E.findFreeSpace s)).releasePage mb (E.findFreeSpace s)) mb r.oid r.sequence
      noError = E.find s mb r.oid r.sequence noError :=
    h.find_congr hr.directory hr.used hr.alike (fun _ => rfl) mb r.oid r.sequence
  rw [LobEnv.update, if_neg noError_ne, hfrel, hf]
  rw [LobEnv.writeOrUpdate, LobEnv.writeInner, if_neg noError_ne, if_neg noError_ne]
  dsimp only
  rw [if_pos rfl, find_allocatePage h, hf]

theorem remove_none (hv : stored E s mb oid seq = none) : E.remove s mb oid seq dps noError = some (.ok, s) := by
  rw [remove, if_neg noError_ne, find_of_stored_none h hv]

theorem remove_edited (hmb : mb ∈ E.mbs) (hv : stored E s mb oid seq = some v) :
    ∃ s', E.remove s mb oid seq dps noError = some (.ok, s'.append dps (.remove mb oid seq 0 (v.2.read 0 v.1))) ∧
      Edited E s s' mb oid seq none := by
  obtain ⟨page, hp, hf, hk, rfl⟩ := exists_page h hv
  have hb : (some (E.getBucket oid seq)).getD (E.bucketOf (s.blk page)) = E.bucketOf (s.blk page) := by
    simp only [LobBlk.key, LobKey.mk.injEq] at hk
    rw [Option.getD_some, bucketOf, hk.2.1, hk.2.2]
  obtain ⟨t, ht, hr⟩ | ⟨-, -, c, hc⟩ | ⟨-, -, n, -, hn⟩ := h.removePage noError hp (h.mbID_eq hmb hp hk) hb
  · refine ⟨t, ?_, removed_edited h hp hk hr⟩
    rw [remove, if_neg noError_ne, hf]
    dsimp only
    rw [if_neg (by simp [noError]), ht, if_neg (by simp), if_neg (by simp [noError])]
  · exact absurd hc noError_ne
  · exact absurd hn noError_ne

end Operations

section Overwritten

variable (v : Nat × Mem) (r : LobRecord)

theorem length_overwritten : (overwritten v r).length = min r.data.length (v.1 - r.offset) := by
  unfold overwritten
  split_ifs <;> simp <;> omega

theorem overwritten_getD {i : Nat} (h1 : r.offset ≤ i) (h2 : i < r.offset + (overwritten v r).length) :
    (overwritten v r).getD (i - r.offset) 0 = v.2 i := by
  have hr {n : Nat} (hn : i < r.offset + n) : (v.2.read r.offset n).getD (i - r.offset) 0 = v.2 i := by
    have hi : i - r.offset < n := by omega
    rw [List.getD_eq_getElem _ _ (by simpa using hi)]
    simp only [Mem.read, List.getElem_map, List.getElem_range, Nat.add_sub_cancel' h1]
  rw [length_overwritten] at h2
  unfold overwritten
  split_ifs with hc hc'
  · omega
  · exact hr (by omega)
  · exact hr (by omega)

theorem write_overwritten {m : Mem} {i : Nat} (hi : i < v.1) (hm : m i = (v.2.write r.offset r.data) i) :
    (m.write r.offset (overwritten v r)) i = v.2 i := by
  have hlen := length_overwritten v r
  by_cases hin : r.offset ≤ i ∧ i < r.offset + (overwritten v r).length
  · rw [Mem.write, if_pos hin]
    exact overwritten_getD v r hin.1 hin.2
  · rw [Mem.write, if_neg hin, hm, Mem.write, if_neg (by omega)]

end Overwritten

/-- What is left of the pieces of `s` in `t`: the same pieces, each at least as long as `ext` tells, and with the same
bytes as far as it went. -/
structure Restored (E : LobEnv) (s t : LobStore) (ext : E.mbs → BitVec 96 → Nat → Nat) : Prop where
  directory : Directory E t
  absent : ∀ {mb : E.mbs} {oid sequence}, stored E s mb oid sequence = none → stored E t mb oid sequence = none
  present : ∀ {mb : E.mbs} {oid sequence v}, stored E s mb oid sequence = some v →
    ∃ m, stored E t mb oid sequence = some (max v.1 (ext mb oid sequence), m) ∧ ∀ i < v.1, m i = v.2 i

section Undo

variable {s1 t : LobStore} {mb : E.mbs} {ext ext' : E.mbs → BitVec 96 → Nat → Nat}

theorem key_ne {mb' : E.mbs} {oid' : BitVec 96} {seq' : Nat} (hne : ¬ (mb = mb' ∧ oid = oid' ∧ seq = seq')) :
    (⟨E.logicalID mb', oid', seq'⟩ : LobKey) ≠ ⟨E.logicalID mb, oid, seq⟩ := by
  rintro e
  simp only [LobKey.mk.injEq] at e
  exact hne ⟨Subtype.ext (E.logicalID_inj mb.2 mb'.2 e.1.symm), e.2.1.symm, e.2.2.symm⟩

variable (hr : Restored E s1 t ext) (hext : ∀ mb' oid' seq', ¬ (mb = mb' ∧ oid = oid' ∧ seq = seq') →
  ext' mb' oid' seq' = ext mb' oid' seq')

include hr

include hext in
theorem Restored.undo {v v' : Option (Nat × Mem)} {t' : LobStore}
    (hed : Edited E s s1 mb oid seq v) (hb : Edited E t t' mb oid seq v')
    (hn : stored E s mb oid seq = none → v' = none)
    (hs : ∀ v0, stored E s mb oid seq = some v0 →
      ∃ m, v' = some (max v0.1 (ext' mb oid seq), m) ∧ ∀ i < v0.1, m i = v0.2 i) : Restored E s t' ext' where
  directory := hb.directory
  absent {mb' oid' seq'} h := by
    by_cases hk : mb = mb' ∧ oid = oid' ∧ seq = seq'
    · obtain ⟨rfl, rfl, rfl⟩ := hk
      rw [hb.self, hn h]
    · rw [hb.other _ _ _ (key_ne hk)]
      refine hr.absent ?_
      rw [hed.other _ _ _ (key_ne hk), h]
  present {mb' oid' seq' v0} h := by
    by_cases hk : mb = mb' ∧ oid = oid' ∧ seq = seq'
    · obtain ⟨rfl, rfl, rfl⟩ := hk
      rw [hb.self]
      exact hs v0 h
    · rw [hb.other _ _ _ (key_ne hk), hext _ _ _ hk]
      refine hr.present ?_
      rw [hed.other _ _ _ (key_ne hk), h]

variable {v : Nat × Mem}

include hext in
theorem Restored.undo_write
    (hed : Edited E s s1 mb oid seq (some v)) (hn : stored E s mb oid seq = none) (offset : Nat)
    (data : List UInt8) :
    ∃ t', rollback E t (.write mb oid seq offset data) = some (.ok, t') ∧ Restored E s t' ext' := by
  obtain ⟨m, ht, -⟩ := hr.present hed.self
  obtain ⟨t', he, hb⟩ := remove_edited hr.directory false mb.2 ht
  refine ⟨t', ?_, hr.undo hext hed hb (fun _ => rfl) fun v0 h0 => ?_⟩
  · rw [rollback, he]
    rfl
  · rw [hn] at h0
    cases h0

theorem Restored.undo_update {r : LobRecord}
    (hed : Edited E s s1 mb r.oid r.sequence (some (max v.1 (r.data.length + r.offset), v.2.write r.offset r.data)))
    (ho : stored E s mb r.oid r.sequence = some v) (hfit : r.offset + r.data.length ≤ E.lobdPageSize)
    (hext : ∀ mb' oid' seq', ¬ (mb = mb' ∧ r.oid = oid' ∧ r.sequence = seq') →
      ext' mb' oid' seq' = ext mb' oid' seq')
    (hs : ext' mb r.oid r.sequence = max (r.offset + r.data.length) (ext mb r.oid r.sequence)) :
    ∃ t', rollback E t (.update mb r.oid r.sequence r.offset r.data (overwritten v r)) = some (.ok, t') ∧
      Restored E s t' ext' := by
  obtain ⟨m, ht, hm⟩ := hr.present hed.self
  have hlen := length_overwritten v r
  obtain ⟨t', he, hb⟩ := update_edited hr.directory ⟨r.oid, r.sequence, r.offset, overwritten v r⟩ false ht
    (show r.offset + (overwritten v r).length ≤ _ by omega)
  refine ⟨t', ?_, hr.undo hext hed hb (fun h0 => ?_) fun v0 h0 => ?_⟩
  · rw [rollback, he]
    rfl
  · rw [ho] at h0
    cases h0
  · obtain rfl := Option.some.inj (ho.symm.trans h0)
    refine ⟨_, congrArg some (Prod.ext ?_ rfl), fun i hi => write_overwritten v r hi (hm i (by omega))⟩
    dsimp only
    rw [hs]
    omega

include hext in
theorem Restored.undo_remove (hd : Directory E s)
    (hed : Edited E s s1 mb oid seq none) (ho : stored E s mb oid seq = some v)
    (hs : ext' mb oid seq = 0) :
    ∃ t', rollback E t (.remove mb oid seq 0 (v.2.read 0 v.1)) = some (.ok, t') ∧ Restored E s t' ext' := by
  have ht := hr.absent hed.self
  have hf : v.1 ≤ E.lobdPageSize := by
    obtain ⟨page, hp, -, -, rfl⟩ := exists_page hd ho
    exact hd.len_le page hp
  obtain ⟨t', m, he, hb, hm⟩ := write_edited hr.directory ⟨oid, seq, 0, v.2.read 0 v.1⟩ false mb.2 ht
    (show 0 + (v.2.read 0 v.1).length ≤ _ by simpa using hf)
  refine ⟨t', ?_, hr.undo hext hed hb (fun h0 => ?_) fun v0 h0 => ?_⟩
  · rw [rollback, he]
    rfl
  · rw [ho] at h0
    cases h0
  · obtain rfl := Option.some.inj (ho.symm.trans h0)
    refine ⟨_, congrArg some (Prod.ext ?_ rfl), fun i hi => ?_⟩
    · dsimp only
      rw [hs, Mem.length_read]
      omega
    · rw [hm i (Nat.zero_le _) (by simpa using hi)]
      dsimp only
      rw [List.getD_eq_getElem _ _ (by simpa using hi)]
      simp [Mem.read]

omit hr

end Undo

section Run

variable {es : List (LobEdit E)}

def LobEdit.At (mb : E.mbs) (oid : BitVec 96) (sequence : Nat) : LobEdit E → Prop
  | write mb' r | update mb' r | writeOrUpdate mb' r => mb' = mb ∧ r.oid = oid ∧ r.sequence = sequence
  | remove mb' oid' sequence' => mb' = mb ∧ oid' = oid ∧ sequence' = sequence

variable {e : LobEdit E}

theorem extent_cons_of_not_at {mb : E.mbs} (hne : ¬ e.At mb oid seq) :
    extent E mb oid seq (e :: es) = extent E mb oid seq es := by
  cases e with
  | write mb' r => rfl
  | update mb' r | writeOrUpdate mb' r => exact if_neg fun hc => hne ⟨Subtype.ext hc.1.1, hc.1.2⟩
  | remove mb' oid' seq' => exact if_neg fun hc => hne ⟨Subtype.ext hc.1, hc.2⟩

/-- The operation does nothing to the pieces. -/
structure Idle (E : LobEnv) (s s1 : LobStore) (e : LobEdit E) (es : List (LobEdit E)) : Prop where
  directory : Directory E s1
  log : s1.log = s.log
  stored : ∀ mb oid sequence, stored E s1 mb oid sequence = stored E s mb oid sequence
  extent : ∀ (mb : E.mbs) oid sequence, Cls.stored E s mb oid sequence ≠ none →
    extent E mb oid sequence (e :: es) = extent E mb oid sequence es

/-- The operation is logged, and the record undoes it. -/
structure Logged (E : LobEnv) (s s1 : LobStore) (e : LobEdit E) (es : List (LobEdit E)) (l : LobLog) : Prop where
  directory : Directory E s1
  log : s1.log = s.log ++ [l]
  undo : ∀ t, Restored E s1 t (fun mb oid sequence => extent E mb oid sequence es) →
    ∃ t', rollback E t l = some (.ok, t') ∧ Restored E s t' fun mb oid sequence => extent E mb oid sequence (e :: es)

theorem Restored.of_append {s t : LobStore} {l : LobLog} {ext : E.mbs → BitVec 96 → Nat → Nat} (hd : Directory E s)
    (h : Restored E (s.append true l) t ext) : Restored E s t ext where
  directory := h.directory
  absent hv := h.absent ((stored_append hd true l).trans hv)
  present hv := h.present ((stored_append hd true l).trans hv)

variable {v : Option (Nat × Mem)}

theorem Edited.logged {s0 : LobStore} {mb : E.mbs} {l : LobLog} (hed : Edited E s s0 mb oid seq v)
    (hu : ∀ t, Restored E s0 t (fun mb oid seq => extent E mb oid seq es) → ∃ t', rollback E t l = some (.ok, t') ∧
        Restored E s t' fun mb oid seq => extent E mb oid seq (e :: es)) :
    Logged E s (s0.append true l) e es l where
  directory := hed.directory.append true l
  log := congrArg (· ++ [l]) hed.log
  undo t ht := hu t (ht.of_append hed.directory)

variable (h : Directory E s) (es : List (LobEdit E)) (mb : E.mbs) (r : LobRecord)

include h

theorem write_cases (hat : ∀ mb' oid' seq', e.At mb' oid' seq' ↔
      mb = mb' ∧ r.oid = oid' ∧ r.sequence = seq')
    (hv : stored E s mb r.oid r.sequence = none) :
    ∃ rc s1, E.write s mb r true noError = (rc, s1) ∧ (Idle E s s1 e es ∨ ∃ l, Logged E s s1 e es l) := by
  by_cases hf : r.offset + r.data.length ≤ E.lobdPageSize
  · obtain ⟨s0, m, he, hed, -⟩ := write_edited h r true mb.2 hv hf
    refine ⟨_, _, he, .inr ⟨_, hed.logged fun t ht => ?_⟩⟩
    exact ht.undo_write (fun _ _ _ hne => extent_cons_of_not_at fun hc => hne ((hat ..).1 hc)) hed hv r.offset r.data
  · obtain ⟨rc, s1, he, hu⟩ := write_unchanged h r true mb.2 (.inr (Nat.lt_of_not_le hf))
    refine ⟨rc, s1, he, .inl ⟨hu.directory, hu.log, unchanged_stored h hu, fun mb' oid' seq' hs => ?_⟩⟩
    refine extent_cons_of_not_at fun hc => hs ?_
    obtain ⟨rfl, rfl, rfl⟩ := (hat ..).1 hc
    exact hv

omit h in
theorem Edited.of_unchanged {t : LobStore} (hd : Directory E s) (hu : Unchanged E s t)
    (hed : Edited E t s' mb oid seq v) : Edited E s s' mb oid seq v where
  directory := hed.directory
  log := hed.log.trans hu.log
  self := hed.self
  other _ _ _ hne := (hed.other _ _ _ hne).trans (unchanged_stored hd hu ..)

theorem update_cases (hat : ∀ mb' oid' seq', e.At mb' oid' seq' ↔
      mb = mb' ∧ r.oid = oid' ∧ r.sequence = seq')
    (hext : extent E mb r.oid r.sequence (e :: es) = if r.offset + r.data.length ≤ E.lobdPageSize then
      max (r.offset + r.data.length) (extent E mb r.oid r.sequence es) else extent E mb r.oid r.sequence es)
    {t : LobStore} (hu : Unchanged E s t) {v : Nat × Mem} (hv : stored E s mb r.oid r.sequence = some v) :
    ∃ rc s1, E.update t mb r true noError = (rc, s1) ∧ (Idle E s s1 e es ∨ ∃ l, Logged E s s1 e es l) := by
  have hne {mb' oid' seq'} (hk : ¬ (mb = mb' ∧ r.oid = oid' ∧ r.sequence = seq')) :
      extent E mb' oid' seq' (e :: es) = extent E mb' oid' seq' es :=
    extent_cons_of_not_at fun hc => hk ((hat ..).1 hc)
  by_cases hf : r.offset + r.data.length ≤ E.lobdPageSize
  · rw [if_pos hf] at hext
    obtain ⟨s0, he, hed⟩ := update_edited hu.directory r true ((unchanged_stored h hu ..).trans hv) hf
    have hed := hed.of_unchanged mb h hu
    exact ⟨_, _, he, .inr ⟨_, hed.logged fun t ht => ht.undo_update hed hv hf (fun _ _ _ => hne) hext⟩⟩
  · rw [if_neg hf] at hext
    obtain ⟨rc, he⟩ := update_long hu.directory r true mb (Nat.lt_of_not_le hf)
    refine ⟨rc, t, he, .inl ⟨hu.directory, hu.log, unchanged_stored h hu, fun mb' oid' seq' _ => ?_⟩⟩
    by_cases hk : mb = mb' ∧ r.oid = oid' ∧ r.sequence = seq'
    · obtain ⟨rfl, rfl, rfl⟩ := hk
      exact hext
    · exact hne hk

/-- **One operation** does nothing to the pieces, or is logged with a record that undoes it. -/
theorem edit_cases (e : LobEdit E) :
    ∃ rc s1, e.op.exec s noError = some (rc, s1) ∧ (Idle E s s1 e es ∨ ∃ l, Logged E s s1 e es l) := by
  have hself : Unchanged E s s := ⟨h, rfl, Alike.refl _ _, rfl⟩
  cases e with
  | write mb r =>
    match hv : stored E s mb r.oid r.sequence with
    | none =>
      obtain ⟨rc, s1, he, hc⟩ := write_cases h es mb r (e := .write mb r) (fun _ _ _ => Iff.rfl) hv
      exact ⟨rc, s1, congrArg some he, hc⟩
    | some v =>
      obtain ⟨rc, s1, he, hu⟩ := write_unchanged h r true mb.2 (.inl (by simp [hv]))
      exact ⟨rc, s1, congrArg some he, .inl ⟨hu.directory, hu.log, unchanged_stored h hu, fun _ _ _ _ => rfl⟩⟩
  | update mb r =>
    match hv : stored E s mb r.oid r.sequence with
    | none =>
      refine ⟨_, _, congrArg some (update_none h r true hv), .inl ⟨h, rfl, fun _ _ _ => rfl, fun mb' oid' seq' hs => ?_⟩⟩
      refine extent_cons_of_not_at ?_
      rintro ⟨rfl, rfl, rfl⟩
      exact hs hv
    | some v =>
      obtain ⟨rc, s1, he, hc⟩ := update_cases h es mb r (e := .update mb r) (fun _ _ _ => Iff.rfl)
        (by simp [extent]) hself hv
      exact ⟨rc, s1, congrArg some he, hc⟩
  | writeOrUpdate mb r =>
    match hv : stored E s mb r.oid r.sequence with
    | none =>
      obtain ⟨rc, s1, he, hc⟩ := write_cases h es mb r (e := .writeOrUpdate mb r) (fun _ _ _ => Iff.rfl) hv
      exact ⟨rc, s1, congrArg some ((writeOrUpdate_eq_write h r true hv).trans he), hc⟩
    | some v =>
      obtain ⟨t, hu, heq⟩ := writeOrUpdate_eq_update h r true hv
      obtain ⟨rc, s1, he, hc⟩ := update_cases h es mb r (e := .writeOrUpdate mb r) (fun _ _ _ => Iff.rfl)
        (by simp [extent]) hu hv
      exact ⟨rc, s1, congrArg some (heq.trans he), hc⟩
  | remove mb oid seq =>
    match hv : stored E s mb oid seq with
    | none =>
      refine ⟨_, _, remove_none h true hv, .inl ⟨h, rfl, fun _ _ _ => rfl, fun mb' oid' seq' hs => ?_⟩⟩
      refine extent_cons_of_not_at ?_
      rintro ⟨rfl, rfl, rfl⟩
      exact hs hv
    | some v =>
      obtain ⟨s0, he, hed⟩ := remove_edited h true mb.2 hv
      refine ⟨_, _, he, .inr ⟨_, hed.logged fun t ht => ?_⟩⟩
      refine ht.undo_remove (fun _ _ _ hne => ?_) h hed hv (if_pos ⟨rfl, rfl, rfl⟩)
      exact extent_cons_of_not_at hne

/-- **A sequence of operations** and the rollback of its records. -/
theorem rollback_edits :
    ∃ s' recs t, edits E s es = some s' ∧ s'.log = s.log ++ recs ∧ rollbackAll E s' recs = some (.ok, t) ∧
      Restored E s t fun mb oid seq => extent E mb oid seq es := by
  induction es generalizing s with
  | nil =>
    refine ⟨s, [], s, rfl, by simp, rfl, h, fun hv => hv, fun {mb oid seq v} hv => ⟨v.2, ?_, fun _ _ => rfl⟩⟩
    rw [hv, extent, Nat.max_zero]
  | cons e es ih =>
    obtain ⟨rc, s1, he, hc⟩ := edit_cases h es e
    have hedits : edits E s (e :: es) = edits E s1 es := by
      rw [edits, List.map_cons, run_cons, step, Option.bind_some, he]
      rfl
    obtain hi | ⟨l, hl⟩ := hc
    · obtain ⟨s', recs, t, hs', hlog, hr, hres⟩ := ih hi.directory
      refine ⟨s', recs, t, hedits.trans hs', by rw [hlog, hi.log], hr, hres.directory, ?_, ?_⟩
      · exact fun hv => hres.absent ((hi.stored ..).trans hv)
      · intro mb oid seq v hv
        rw [hi.extent mb oid seq (by simp [hv])]
        exact hres.present ((hi.stored ..).trans hv)
    · obtain ⟨s', recs, t, hs', hlog, hr, hres⟩ := ih hl.directory
      obtain ⟨t', ht', hres'⟩ := hl.undo t hres
      refine ⟨s', l :: recs, t', hedits.trans hs', by rw [hlog, hl.log, List.append_assoc]; rfl, ?_, hres'⟩
      rw [rollbackAll, hr]
      exact ht'

omit h in
private theorem read_eq_iff {m m' : Mem} {n n' : Nat} (hm : ∀ i < n, m' i = m i) (hn : n ≤ n') :
    m'.read 0 n' = m.read 0 n ↔ n' ≤ n := by
  constructor
  · intro e
    have := congrArg List.length e
    simp only [Mem.length_read] at this
    exact Nat.le_of_eq this
  · intro hle
    obtain rfl := Nat.le_antisymm hn hle
    exact Mem.read_congr fun i _ hi => hm i (by omega)

/-- **Rolling back.**  The rollback of the records of a sequence of operations succeeds, and gives the pieces back as
they were if and only if every update of a piece before its first removal ended within the piece. -/
theorem rollback_iff :
    ∃ s' t, edits E s es = some s' ∧ rollbackAll E s' (s'.log.drop s.log.length) = some (.ok, t) ∧
      ((∀ (mb : E.mbs) oid sequence, piece E t mb oid sequence = piece E s mb oid sequence) ↔
        ∀ (mb : E.mbs) oid sequence bs, piece E s mb oid sequence = some bs →
          extent E mb oid sequence es ≤ bs.length) := by
  obtain ⟨s', recs, t, hs', hlog, hroll, hres⟩ := rollback_edits h es
  refine ⟨s', t, hs', by rw [hlog, List.drop_left]; exact hroll, ?_⟩
  refine forall_congr' fun mb => forall_congr' fun oid => forall_congr' fun sequence => ?_
  match hv : stored E s mb oid sequence with
  | none => simp [piece, hv, hres.absent hv]
  | some v =>
    obtain ⟨m, ht, hm⟩ := hres.present hv
    simp only [piece, hv, ht, Option.map_some, Option.some.injEq, forall_eq', Mem.length_read]
    rw [read_eq_iff hm (Nat.le_max_left ..)]
    omega

def twoBytes : LobStore := (small.write .empty 0 ⟨1, 0, 0, [7, 8]⟩ false noError).2

omit h in
theorem rollback_overwritten :
    Directory small twoBytes ∧ ∃ s' t, edits small twoBytes
        [.update small0 ⟨1, 0, 1, [9]⟩, .remove small0 1 0, .write small0 ⟨1, 0, 3, [5]⟩] = some s' ∧
      rollbackAll small s' (s'.log.drop twoBytes.log.length) = some (.ok, t) ∧
      ∀ (mb : small.mbs) oid sequence,
        piece small t mb oid sequence = piece small twoBytes mb oid sequence := by
  have hd : Directory small twoBytes :=
    Directory.writeInner (LobStore.Fresh.directory ⟨rfl, rfl, rfl⟩) small0.2 ⟨1, 0, 0, [7, 8]⟩ false false noError
  obtain ⟨s', t, hs', hroll, hiff⟩ := rollback_iff hd
    [.update small0 ⟨1, 0, 1, [9]⟩, .remove small0 1 0, .write small0 ⟨1, 0, 3, [5]⟩]
  refine ⟨hd, s', t, hs', hroll, hiff.2 fun mb oid sequence bs hbs => ?_⟩
  obtain rfl : mb = small0 := Subtype.ext (mem_singleton.1 mb.2)
  by_cases hk : 1 = oid ∧ 0 = sequence
  · obtain ⟨rfl, rfl⟩ := hk
    have : piece small twoBytes 0 1 0 = some [7, 8] := by decide +kernel
    obtain rfl := Option.some.inj (this.symm.trans hbs)
    decide +kernel
  · refine (extent_cons_of_not_at (e := .update small0 ⟨1, 0, 1, [9]⟩) fun hc => hk hc.2).trans_le ?_
    refine (extent_cons_of_not_at (e := .remove small0 1 0) fun hc => hk hc.2).trans_le ?_
    exact Nat.zero_le _

omit h in
/-- A piece of two bytes is updated behind its end and the update is rolled back: the piece keeps its third byte. -/
theorem extended_piece_stays_long :
    ∃ s' t, edits small twoBytes [.update small0 ⟨1, 0, 2, [9]⟩] = some s' ∧
      rollbackAll small s' (s'.log.drop twoBytes.log.length) = some (.ok, t) ∧
      piece small twoBytes 0 1 0 = some [7, 8] ∧ piece small t 0 1 0 = some [7, 8, 9] :=
  ⟨_, _, rfl, rfl, by decide +kernel, by decide +kernel⟩

end Run

end SequoiaDB.Cls
