import SequoiaDB.Msg.Extract

/-!
# Requests are read as they were built

The functions of `msgMessage.cpp` that put a request together: `msgBuildUpdateMsg`, `msgBuildDeleteMsg` and
`msgBuildQueryMsg`.  They write into a buffer that may hold anything, and they leave the bytes between two objects as
they are.
-/

namespace SequoiaDB.Msg

open Lib List
open Mem (Text)

def maxInternalSize : Int := 16 * 1024 * 1024 + 16 * 1024

/-- A `BSONObj`: its bytes start with their number. -/
structure Obj where
  bytes : List UInt8
  size : leNat (bytes.take 4) = bytes.length
  bounds : 5 ≤ bytes.length ∧ bytes.length ≤ maxInternalSize

def Obj.empty : Obj := ⟨[5, 0, 0, 0, 0], by decide, by decide⟩

/-- `objsize()` -/
def Obj.objsize (o : Obj) : Int := o.bytes.length

/-- The buffer is enlarged if the message does not fit; `granted` says whether there is memory. -/
def msgCheckBuffer (granted : Bool) (bufferSize packetLength : Int) : Except Rc Int :=
  if packetLength > bufferSize then
    let newSize := int32 (packetLength + 4095) - (int32 (packetLength + 4095)).tmod 4096
    if newSize < 0 then .error .invalidArg else if granted then .ok newSize else .error .oom
  else .ok bufferSize

/-- The objects are copied one behind the other: what is written, and the offset behind the last one. -/
def copyObjects : Int → List Obj → List Text × Int
  | offset, [] => ([], offset)
  | offset, o :: objs =>
    let r := copyObjects (int32 (offset + roundUp o.objsize)) objs
    ((offset.toNat, o.bytes) :: r.1, r.2)

/-- The caller: its thread, its buffer with its size, and whether there is memory for a larger one. -/
structure Caller where
  buffer : Mem
  bufferSize : Int
  granted : Bool
  tid : UInt32

/-- What a request is put together from; `more` are the numbers of a query. -/
structure Parts where
  opCode : Nat
  nameAt : Nat
  more : List Text
  name : List UInt8
  flag : Int32
  reqID : UInt64
  objs : List Obj

/-- The fields that every request has. -/
def Parts.fixed (p : Parts) (tid : UInt32) (packetLength : Int) : List Text :=
  [(28, leBytes 4 1), (32, leBytes 2 0), (36, leBytes 4 p.flag.toBitVec.toNat), (40, leBytes 4 p.name.length),
    (20, leBytes 8 p.reqID.toNat), (4, leBytes 4 p.opCode), (0, leBytes 4 packetLength.toNat), (12, leBytes 8 0),
    (8, leBytes 4 tid.toNat)]

def Parts.fields (p : Parts) (tid : UInt32) (packetLength : Int) : List Text :=
  p.fixed tid packetLength ++ p.more ++ [(p.nameAt, p.name ++ [0])]

/-- The common part of the builders: the buffer with the message, and its size. -/
def Parts.build (p : Parts) (c : Caller) : Except Rc (Mem × Int) := do
  let packetLength := int32 (roundUpSize (p.nameAt + p.name.length + 1) + (p.objs.map fun o => roundUp o.objsize).sum)
  if packetLength < 0 then throw .invalidArg
  let bufferSize ← msgCheckBuffer c.granted c.bufferSize packetLength
  let copied := copyObjects (int32 (roundUpSize (p.nameAt + int32 p.name.length + 1))) p.objs
  if copied.2 ≠ packetLength then throw .sys
  return (c.buffer.store (p.fields c.tid packetLength ++ copied.1), bufferSize)

section Builders

variable (c : Caller) (name : List UInt8) (flag : Int32) (reqID : UInt64)

def msgBuildUpdateMsg (selector updator hint : Option Obj) : Except Rc (Mem × Int) :=
  Parts.build ⟨2001, 44, [], name, flag, reqID, [selector, updator, hint].map (·.getD .empty)⟩ c

def msgBuildDeleteMsg (deletor hint : Option Obj) : Except Rc (Mem × Int) :=
  Parts.build ⟨2006, 44, [], name, flag, reqID, [deletor, hint].map (·.getD .empty)⟩ c

def msgBuildQueryMsg (numToSkip numToReturn : Int64) (query fieldSelector orderBy hint : Option Obj) :
    Except Rc (Mem × Int) :=
  Parts.build ⟨2004, 60, [(44, leBytes 8 numToSkip.toBitVec.toNat), (52, leBytes 8 numToReturn.toBitVec.toNat)], name,
    flag, reqID, [query, fieldSelector, orderBy, hint].map (·.getD .empty)⟩ c

end Builders

/-- The `n` bytes of a message from `a` on. -/
def bytesAt (s : Space) (a : Int) (n : Nat) : List UInt8 := (range n).map fun i : Nat => s (a + i)

/-- The message that a builder left in the buffer has arrived. -/
def Arrives (m : Mem) (s : Space) : Prop := ∀ i : Nat, i < leNat (m.read 0 4) → s i = m i

variable {m : Mem} {s : Space} {off L : Int} {objs : List Obj} {f : Text}

theorem Obj.up4_bounds (o : Obj) : o.objsize = o.bytes.length ∧ 5 ≤ o.objsize ∧ 8 ≤ up4 o.objsize ∧
    o.objsize ≤ up4 o.objsize ∧ up4 o.objsize < 2 ^ 25 := by
  have := o.bounds
  unfold maxInternalSize at this
  unfold objsize up4
  omega

theorem Obj.isSize (o : Obj) : IsSize o.objsize := by
  have := o.up4_bounds
  exact ⟨by omega, by omega⟩

/-- The room that the objects take. -/
def room (objs : List Obj) : Int := (objs.map fun o => up4 o.objsize).sum

theorem room_cons (o : Obj) (objs : List Obj) : room (o :: objs) = up4 o.objsize + room objs := by simp [room]

theorem room_nonneg (objs : List Obj) : 0 ≤ room objs := by
  refine sum_nonneg fun x hx => ?_
  obtain ⟨o, -, rfl⟩ := mem_map.1 hx
  have := o.up4_bounds
  omega

theorem sum_roundUp (objs : List Obj) : (objs.map fun o => roundUp o.objsize).sum = room objs := by
  simp only [room, fun o : Obj => o.isSize.roundUp]

theorem copyObjects_spec (objs : List Obj) {off : Int} (h0 : 0 ≤ off) (h : off + room objs < 2 ^ 31) :
    (copyObjects off objs).2 = off + room objs ∧ (copyObjects off objs).1.Pairwise Mem.Apart ∧
      ∀ f ∈ (copyObjects off objs).1, off ≤ f.1 ∧ f.1 + f.2.length ≤ off + room objs := by
  induction objs generalizing off with
  | nil => simp [copyObjects, room]
  | cons o objs ih =>
    have hb := o.up4_bounds
    have := room_nonneg objs
    rw [room_cons] at h ⊢
    rw [copyObjects, o.isSize.roundUp, int32_of_bounds (by omega) (by omega)]
    obtain ⟨hend, hapart, hin⟩ := @ih (off + up4 o.objsize) (by omega) (by omega)
    refine ⟨by rw [hend]; ring, pairwise_cons.2 ⟨fun f hf => .inl ?_, hapart⟩,
      forall_mem_cons.2 ⟨⟨by omega, ?_⟩, fun f hf => ?_⟩⟩
    · have := hin f hf
      dsimp only
      omega
    · dsimp only
      omega
    · have := hin f hf
      omega

theorem copyObjects_bytes (off : Int) (objs : List Obj) : (copyObjects off objs).1.map (·.2) = objs.map (·.bytes) := by
  induction objs generalizing off with
  | nil => rfl
  | cons o objs ih => simp [copyObjects, ih]

/-- An object is read where its bytes are. -/
theorem intAt_obj (o : Obj) (h : bytesAt s off o.bytes.length = o.bytes) : intAt s off = o.objsize := by
  have hb := o.up4_bounds
  have hu : uintAt s 4 off = o.objsize := by
    have hs := o.size
    rw [← h, bytesAt, ← map_take, take_range, min_eq_left (by omega), length_map, length_range] at hs
    exact congrArg Nat.cast hs
  rw [intAt, hu, int32_of_bounds (by omega) (by omega)]

def Returns {α : Type} (t : Trace Rc α) (a : α) : Prop := t.outcome = some (.ok a)

theorem returns_lengthField_bind {α : Type} {a : Int} {k : Int → Trace Rc α} {x : α} :
    Returns (lengthField s a >>= k) x ↔ Returns (k (intAt s a)) x := Iff.rfl

theorem returns_bind {α β : Type} {t : Trace Rc α} {a : α} {k : α → Trace Rc β} {x : β} (h : Returns t a) :
    Returns (t >>= k) x ↔ Returns (k a) x := by
  obtain ⟨xs, o⟩ := t
  obtain rfl : o = some (.ok a) := h
  exact Iff.rfl

/-- The blocks of an extraction find the objects where they were copied to. -/
theorem returns_extractObjects {round : Int → Int} (hr : ∀ x, IsSize x → round x = up4 x) {flags : List Bool}
    (acc : List (Int × Int)) (hl : flags.length = objs.length) (h0 : 0 ≤ off) (h : off + room objs ≤ L) (hL : L < 2 ^ 31)
    (hs : ∀ f ∈ (copyObjects off objs).1, bytesAt s f.1 f.2.length = f.2) :
    Returns (extractObjects round s L flags off acc)
      (acc ++ (copyObjects off objs).1.map fun f => ((f.1 : Int), (f.2.length : Int))) := by
  induction objs generalizing flags off acc with
  | nil =>
    obtain rfl := length_eq_zero_iff.1 hl
    rw [copyObjects, map_nil, append_nil]
    rfl
  | cons o objs ih =>
    obtain ⟨checked, flags, rfl⟩ := exists_cons_of_length_eq_add_one hl
    have hb := o.up4_bounds
    have := room_nonneg objs
    rw [room_cons] at h
    simp only [copyObjects, o.isSize.roundUp, int32_of_bounds (x := off + up4 o.objsize) (by omega) (by omega)] at hs ⊢
    obtain ⟨ho, hs⟩ := forall_mem_cons.1 hs
    dsimp only at ho
    rw [Int.toNat_of_nonneg h0] at ho
    have hsmall : ¬ tooSmall o.objsize = true := by
      rw [tooSmall, o.isSize.roundUp, decide_eq_true_iff]
      omega
    rw [extractObjects, if_neg (by omega), returns_lengthField_bind, intAt_obj o ho, if_neg hsmall,
      int32_of_bounds (by omega) (by omega), if_neg (by omega), hr _ o.isSize, int32_of_bounds (by omega) (by omega)]
    have := @ih _ flags (acc ++ [(off, o.objsize)]) (by simpa using hl) (by omega) (by omega) hs
    simpa [Int.toNat_of_nonneg h0, hb.1] using this

theorem room_le (objs : List Obj) : room objs ≤ 2 ^ 25 * objs.length := by
  induction objs with
  | nil => simp [room]
  | cons o objs ih =>
    have := o.up4_bounds
    rw [room_cons, length_cons]
    push_cast
    omega

theorem msgCheckBuffer_cases (granted : Bool) (bufferSize : Int) (h0 : 0 ≤ L) (h : L + 4095 < 2 ^ 31) :
    (msgCheckBuffer granted bufferSize L = .error .oom ∧ granted = false) ∨
      ∃ size, msgCheckBuffer granted bufferSize L = .ok size ∧ L ≤ size ∧ bufferSize ≤ size := by
  unfold msgCheckBuffer
  rw [int32_of_bounds (by omega) h, Int.tmod_eq_emod_of_nonneg (by omega)]
  dsimp only
  rw [if_neg (by omega : ¬ L + 4095 - (L + 4095) % 4096 < 0)]
  by_cases hb : L > bufferSize
  · rw [if_pos hb]
    cases granted with
    | false => exact .inl ⟨rfl, rfl⟩
    | true => exact .inr ⟨_, rfl, by omega, by omega⟩
  · rw [if_neg hb]
    exact .inr ⟨_, rfl, by omega, by omega⟩

/-- The parts of a request with a short name. -/
structure Parts.Fits (p : Parts) : Prop where
  nameAt : 44 ≤ p.nameAt ∧ p.nameAt ≤ 60
  apart : p.more.Pairwise Mem.Apart
  inside : ∀ f ∈ p.more, 44 ≤ f.1 ∧ f.1 + f.2.length ≤ p.nameAt
  short : p.name.length < 2 ^ 30
  few : p.objs.length ≤ 4

/-- Where the objects begin. -/
def Parts.offset (p : Parts) : Int := up4 (p.nameAt + p.name.length + 1)

def Parts.length (p : Parts) : Int := p.offset + room p.objs

variable {p : Parts} {c : Caller}

theorem Parts.Fits.bounds (h : p.Fits) : p.nameAt + p.name.length + 1 ≤ p.offset ∧ p.offset ≤ p.length ∧
    p.length + 4095 < 2 ^ 31 := by
  obtain ⟨hat, -, -, hshort, hfew⟩ := h
  have h0 := room_nonneg p.objs
  have h1 := room_le p.objs
  unfold length offset up4
  omega

theorem Parts.Fits.build (h : p.Fits) : p.build c = (msgCheckBuffer c.granted c.bufferSize p.length).map fun size =>
    (c.buffer.store (p.fields c.tid p.length ++ (copyObjects p.offset p.objs).1), size) := by
  have hb := h.bounds
  have hsize : roundUpSize (p.nameAt + p.name.length + 1) = p.offset := by
    unfold roundUpSize offset up4 at *
    omega
  have hcopied : (copyObjects p.offset p.objs).2 = p.length :=
    (copyObjects_spec _ (by omega) (by unfold length at hb; omega)).1
  have hshort := h.short
  unfold Parts.build
  simp only [sum_roundUp, hsize]
  rw [← length, int32_of_bounds (by omega) (by omega), int32_of_bounds (x := p.name.length) (by omega) (by omega),
    if_neg (by omega), hsize, int32_of_bounds (x := p.offset) (by omega) (by omega), hcopied]
  cases msgCheckBuffer c.granted c.bufferSize p.length with
  | error e => rfl
  | ok size => simp [Except.map, pure, Except.pure, bind, Except.bind]

theorem Parts.Fits.fields (h : p.Fits) (tid : UInt32) (packetLength : Int) :
    (p.fields tid packetLength).Pairwise Mem.Apart ∧
      ∀ f ∈ p.fields tid packetLength, f.1 + f.2.length ≤ p.nameAt + p.name.length + 1 := by
  have h44 : ∀ f ∈ p.fixed tid packetLength, f.1 + f.2.length ≤ 44 := by simp [fixed]
  have hall : ∀ f ∈ p.fixed tid packetLength ++ p.more, f.1 + f.2.length ≤ p.nameAt :=
    forall_mem_append.2 ⟨fun f hf => (h44 f hf).trans h.nameAt.1, fun f hf => (h.inside f hf).2⟩
  refine ⟨Mem.pairwise_append_of_le p.nameAt (Mem.pairwise_append_of_le 44 ?_ h.apart h44 fun f hf => (h.inside f hf).1) ?_ hall
    ?_, forall_mem_append.2 ⟨fun f hf => ?_, ?_⟩⟩
  · simp [fixed, Mem.Apart]
  · simp
  · simp
  · have := hall f hf
    omega
  · simp [Nat.add_assoc]

/-- Everything that a builder writes lies in the message, and nothing is written over. -/
theorem Parts.Fits.written (h : p.Fits) (tid : UInt32) :
    (p.fields tid p.length ++ (copyObjects p.offset p.objs).1).Pairwise Mem.Apart ∧
      ∀ f ∈ p.fields tid p.length ++ (copyObjects p.offset p.objs).1, f.1 + f.2.length ≤ p.length := by
  have hb := h.bounds
  obtain ⟨hfap, hfin⟩ := h.fields tid p.length
  obtain ⟨-, hcap, hcin⟩ := copyObjects_spec p.objs (by omega : 0 ≤ p.offset) (by unfold length at hb; omega)
  refine ⟨Mem.pairwise_append_of_le _ hfap hcap hfin fun g hg => ?_, forall_mem_append.2 ⟨fun f hf => ?_, fun f hf => ?_⟩⟩
  · have := hcin g hg
    omega
  · have := hfin f hf
    omega
  · exact (hcin f hf).2

theorem Arrives.bytesAt {fs : List Text} (h : Arrives (m.store fs) s) (hp : fs.Pairwise Mem.Apart) {n : Nat}
    (hn : n < 2 ^ 31) (hlen : (0, leBytes 4 n) ∈ fs) (hf : f ∈ fs) (hin : f.1 + f.2.length ≤ n) :
    bytesAt s f.1 f.2.length = f.2 := by
  have hmsg : leNat ((m.store fs).read 0 4) = n := by
    have := Mem.read_store (m := m) hp hlen
    rw [length_leBytes] at this
    rw [this, leNat_leBytes (by norm_num; omega)]
  unfold Arrives at h
  rw [hmsg] at h
  refine Eq.trans (map_congr_left fun i hi => ?_) (Mem.read_store (m := m) hp hf)
  have := mem_range.1 hi
  exact h (f.1 + i) (by omega)

theorem uintAt_field {k n : Nat} (h : bytesAt s off k = leBytes k n) (hn : n < 256 ^ k) : uintAt s k off = n := by
  rw [uintAt, ← leNat_leBytes hn, ← h]
  rfl

/-- The common part of the extractions. -/
def extractNamed {α : Type} (s : Space) (fuel nameAt : Nat) (roundName round : Int → Int) (flags : List Bool)
    (g : List (Int × Int) → α) : Trace Rc α := do
  let messageLength ← lengthField s 0
  let nameLength ← lengthField s 40
  checkName s fuel nameAt nameLength
  let objs ← extractObjects round s messageLength flags (int32 (roundName (nameAt + nameLength + 1))) []
  Trace.handOut (handed nameAt objs) (g objs)

theorem checkName_of_text {fuel : Nat} {name : List UInt8} (h : bytesAt s off (name.length + 1) = name ++ [0])
    (h0 : 0 ∉ name) (hfuel : name.length < fuel) (hlen : name.length < 2 ^ 30) :
    checkName s fuel off name.length = pure () := by
  have hi (i : Nat) (hi : i ≤ name.length) : s (off + i) = (name ++ [0]).getD i 0 := by
    rw [← h, bytesAt, getD_eq_getElem _ _ (by simpa using by omega)]
    simp
  have hstr : strlen s off fuel = some name.length := by
    refine strlen_eq_some.2 ⟨hfuel, by simp [hi], fun i hlt hz => h0 ?_⟩
    rw [hi i hlt.le, getD_append _ _ _ _ hlt, getD_eq_getElem _ _ hlt] at hz
    exact hz ▸ getElem_mem hlt
  rw [checkName, hstr]
  exact if_pos (int32_of_bounds (by omega) (by omega))

/-- A message is put together, and whoever gets it finds the name and the objects in it; `P` says what else, given their
places. -/
def ReadsBack (r : Except Rc (Mem × Int)) (nameAt : Nat) (name : List UInt8) (objs : List (Option Obj))
    (P : Space → Nat → List (Int × Int) → Prop) : Prop :=
  ∃ m size, r = .ok (m, size) ∧ ∀ s fuel, Arrives m s → name.length < fuel → bytesAt s nameAt name.length = name ∧
    ∃ places, P s fuel places ∧
      places.map (fun a => bytesAt s a.1 a.2.toNat) = objs.map fun o => (o.getD .empty).bytes

theorem Parts.Fits.header {tid : UInt32} (h : p.Fits)
    (hread : ∀ f ∈ p.fields tid p.length, bytesAt s f.1 f.2.length = f.2) :
    intAt s 0 = p.length ∧ intAt s 36 = p.flag.toInt ∧ intAt s 40 = p.name.length ∧
      bytesAt s p.nameAt (p.name.length + 1) = p.name ++ [0] := by
  have hb := h.bounds
  have hshort := h.short
  have hint {a n : Nat} (hn : n < 2 ^ 32) (hf : (a, leBytes 4 n) ∈ p.fields tid p.length) : intAt s a = int32 n := by
    rw [intAt, uintAt_field (length_leBytes 4 n ▸ hread _ hf) (by norm_num; omega)]
  refine ⟨?_, ?_, ?_, ?_⟩
  · rw [← int32_of_bounds (x := p.length) (by omega) (by omega), ← Int.toNat_of_nonneg (by omega : 0 ≤ p.length)]
    exact hint (by omega) (by simp [Parts.fields, fixed])
  · exact (hint p.flag.toBitVec.isLt (by simp [Parts.fields, fixed])).trans (BitVec.toInt_eq_toNat_bmod _).symm
  · rw [← int32_of_bounds (x := p.name.length) (by omega) (by omega)]
    exact hint (by omega) (by simp [Parts.fields, fixed])
  · have hf : (p.nameAt, p.name ++ [0]) ∈ p.fields tid p.length := by simp [Parts.fields, fixed]
    simpa using hread _ hf

theorem Parts.Fits.readsBack {objs : List (Option Obj)} (h : p.Fits) (ho : p.objs = objs.map (·.getD .empty))
    (hc : c.granted = true) (h0 : 0 ∉ p.name) :
    ReadsBack (p.build c) p.nameAt p.name objs fun s fuel places =>
      (∀ f ∈ p.more, bytesAt s f.1 f.2.length = f.2) ∧ intAt s 36 = p.flag.toInt ∧
      ∀ {α : Type} (roundName round : Int → Int) (flags : List Bool) (g : List (Int × Int) → α),
        (∀ x, int32 (roundName x) = int32 (up4 x)) → (∀ x, IsSize x → round x = up4 x) → flags.length = p.objs.length →
          Returns (extractNamed s fuel p.nameAt roundName round flags g) (g places) := by
  have hb := h.bounds
  have hshort := h.short
  obtain ⟨-, hno⟩ | ⟨size, hsize, -⟩ := msgCheckBuffer_cases c.granted c.bufferSize (by omega) hb.2.2
  · simp [hc] at hno
  have hbuild := h.build (c := c)
  rw [hsize] at hbuild
  obtain ⟨hap, hin⟩ := h.written c.tid
  refine ⟨_, _, hbuild, fun s fuel ha hfuel => ?_⟩
  have hlen : (0, leBytes 4 p.length.toNat) ∈ p.fields c.tid p.length ++ (copyObjects p.offset p.objs).1 := by
    simp [Parts.fields, fixed]
  have hread (f) (hf : f ∈ p.fields c.tid p.length ++ (copyObjects p.offset p.objs).1) :
      bytesAt s f.1 f.2.length = f.2 :=
    ha.bytesAt hap (by omega) hlen hf (by have := hin f hf; omega)
  obtain ⟨hL, hflag, h40, htext⟩ := h.header fun f hf => hread f (mem_append_left _ hf)
  refine ⟨?_, (copyObjects p.offset p.objs).1.map fun f => ((f.1 : Int), (f.2.length : Int)), ⟨?_, hflag, ?_⟩, ?_⟩
  · have := congrArg (take p.name.length) htext
    simpa [bytesAt, ← map_take, take_range] using this
  · exact fun f hf => hread f (by simp [Parts.fields, hf])
  · intro α roundName round flags g hrn hr hfl
    unfold extractNamed
    rw [returns_lengthField_bind, returns_lengthField_bind, h40, hL, checkName_of_text htext h0 hfuel hshort, pure_bind,
      hrn, ← offset, int32_of_bounds (by omega) (by omega)]
    have := returns_extractObjects (s := s) hr [] hfl (by omega) le_rfl (by unfold length at hb; omega)
      fun f hf => hread f (mem_append_right _ hf)
    exact (returns_bind this).2 rfl
  · have hbytes : objs.map (fun o => (o.getD .empty).bytes) = p.objs.map (·.bytes) := by rw [ho, map_map]; rfl
    rw [map_map, hbytes, ← copyObjects_bytes p.offset]
    exact map_congr_left fun f hf => hread f (mem_append_right _ hf)

theorem ReadsBack.mono {r : Except Rc (Mem × Int)} {nameAt : Nat} {name : List UInt8} {objs : List (Option Obj)}
    {P Q : Space → Nat → List (Int × Int) → Prop} (h : ReadsBack r nameAt name objs P)
    (hpq : ∀ s fuel places, P s fuel places → Q s fuel places) : ReadsBack r nameAt name objs Q := by
  obtain ⟨m, size, hr, h⟩ := h
  refine ⟨m, size, hr, fun s fuel ha hfuel => ?_⟩
  obtain ⟨hname, places, hp, hobjs⟩ := h s fuel ha hfuel
  exact ⟨hname, places, hpq s fuel places hp, hobjs⟩

/-- **Requests are read as they were built**: if there is memory for it, a request with a short name is put together in
any buffer, and whoever gets it reads the flags, the numbers, the name and the objects that it was built from. -/
theorem requests_read_back (c : Caller) (hc : c.granted = true) (name : List UInt8) (h0 : 0 ∉ name)
    (hlen : name.length < 2 ^ 30) (flag : Int32) (reqID : UInt64) (numToSkip numToReturn : Int64)
    (a b d e : Option Obj) :
    ReadsBack (msgBuildUpdateMsg c name flag reqID a b d) 44 name [a, b, d] (fun s fuel places =>
      Returns (msgExtractUpdate s fuel) (flag.toInt, places)) ∧
    ReadsBack (msgBuildDeleteMsg c name flag reqID a b) 44 name [a, b] (fun s fuel places =>
      Returns (msgExtractDelete s fuel) (flag.toInt, places)) ∧
    ReadsBack (msgBuildQueryMsg c name flag reqID numToSkip numToReturn a b d e) 60 name [a, b, d, e]
      fun s fuel places => Returns (msgExtractQuery s fuel) (flag.toInt, numToSkip.toInt, numToReturn.toInt, places) := by
  refine ⟨(Parts.Fits.readsBack ⟨by simp, by simp, by simp, hlen, by simp⟩ rfl hc h0).mono ?_,
    (Parts.Fits.readsBack ⟨by simp, by simp, by simp, hlen, by simp⟩ rfl hc h0).mono ?_,
    (Parts.Fits.readsBack ⟨by simp, by simp [Mem.Apart], by simp, hlen, by simp⟩ rfl hc h0).mono ?_⟩
  · rintro s fuel places ⟨-, hflag, h⟩
    rw [← hflag]
    exact h roundUpSize roundUp [false, false, false] (fun objs => (intAt s 36, objs)) int32_roundUpSize
      (fun x hx => hx.roundUp) rfl
  · rintro s fuel places ⟨-, hflag, h⟩
    rw [← hflag]
    exact h roundUpSize roundUp [false, true] (fun objs => (intAt s 36, objs)) int32_roundUpSize
      (fun x hx => hx.roundUp) rfl
  · rintro s fuel places ⟨hmore, hflag, h⟩
    rw [← hflag]
    have hnum {i : Nat} {x : Int64} (hx : bytesAt s i 8 = leBytes 8 x.toBitVec.toNat) :
        Int.bmod (uintAt s 8 i) (2 ^ 64) = x.toInt := by
      rw [uintAt_field hx (by exact x.toBitVec.isLt)]
      exact (BitVec.toInt_eq_toNat_bmod _).symm
    have hskip := hnum (hmore (44, leBytes 8 numToSkip.toBitVec.toNat) (by simp))
    have hreturn := hnum (hmore (52, leBytes 8 numToReturn.toBitVec.toNat) (by simp))
    rw [← hskip, ← hreturn]
    exact h align4 align4 [false, true, true, true] (fun objs => (intAt s 36, Int.bmod (uintAt s 8 44) (2 ^ 64),
      Int.bmod (uintAt s 8 52) (2 ^ 64), objs)) int32_align4 (fun x hx => hx.align4) rfl

def callerOfNothing : Caller := ⟨fun _ => 7, 0, true, 1⟩

theorem request_read_back_after_growth : ReadsBack (msgBuildUpdateMsg callerOfNothing [97, 46, 98] 4 1 none none none) 44
    [97, 46, 98] [none, none, none] fun s fuel places => Returns (msgExtractUpdate s fuel) ((4 : Int32).toInt, places) :=
  (requests_read_back callerOfNothing rfl [97, 46, 98] (by decide) (by decide) 4 1 0 0 none none none none).1

end SequoiaDB.Msg
