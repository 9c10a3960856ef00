import SequoiaDB.Lib.Run

/-!
# The locked sections of a LOB

`_rtnLobSections` keeps the byte ranges of a LOB that are locked, each with the access id that has locked it, in a map
from the first offset of a range to the range.  A new section is added in the pieces that lie between the sections
that its own access id has already, and it is refused when it meets a section of another access id.

`addSection_spec` says that the sections stay apart from each other and that every byte of the new section is locked
by its access id afterwards.  `sections_refine_map` reads the sections as a map from bytes to access ids.
-/

namespace SequoiaDB.Rtn

open SequoiaDB.Lib List Option

def sint64Max : Nat := 2 ^ 63 - 1

/-- `_rtnLobSection`, as `_rtnLobStream::lock` lets it through: a range with at least one byte, whose end is an
`INT64`. -/
structure LobSection where
  offset : Nat
  length : Nat
  accessId : Int
  length_pos : 0 < length
  in_range : offset + length ≤ sint64Max
  deriving DecidableEq

namespace LobSection

def start (s : LobSection) : Nat := s.offset

def last (s : LobSection) : Nat := s.offset + s.length - 1

def includes (s : LobSection) (b : Nat) : Prop := s.start ≤ b ∧ b ≤ s.last

instance (s : LobSection) (b : Nat) : Decidable (s.includes b) :=
  inferInstanceAs (Decidable (s.start ≤ b ∧ b ≤ s.last))

def whole (s : LobSection) : Bool := s.offset = 0 && s.length = sint64Max

variable {s : LobSection} {b : Nat}

theorem includes_of_whole (h : s.whole) (hb : b < sint64Max) : s.includes b := by
  simp only [whole, Bool.and_eq_true, decide_eq_true_eq] at h
  unfold includes start last
  omega

theorem lt_of_includes (hb : s.includes b) : b < sint64Max := by
  have h1 := s.length_pos
  have h2 := s.in_range
  obtain ⟨-, hb⟩ := hb
  unfold last at hb
  omega

theorem start_le_last (s : LobSection) : s.start ≤ s.last := by
  have := s.length_pos
  unfold start last
  omega

def lower (sec cur : LobSection) (h : sec.start < cur.start) : LobSection where
  offset := sec.offset
  length := cur.start - sec.start
  accessId := sec.accessId
  length_pos := Nat.sub_pos_of_lt h
  in_range := by
    have := cur.in_range
    unfold start at h ⊢
    omega

def upper (sec cur : LobSection) (h : cur.last < sec.last) : LobSection where
  offset := cur.last + 1
  length := sec.last - cur.last
  accessId := sec.accessId
  length_pos := Nat.sub_pos_of_lt h
  in_range := by
    have := sec.in_range
    unfold last at h ⊢
    omega

variable {sec cur : LobSection}

theorem last_lower (h : sec.start < cur.start) : (sec.lower cur h).last + 1 = cur.start := by
  unfold start at h
  simp only [lower, last, start]
  omega

theorem start_upper (h : cur.last < sec.last) : (sec.upper cur h).start = cur.last + 1 := rfl

theorem last_upper (h : cur.last < sec.last) : (sec.upper cur h).last = sec.last := by
  have := (sec.upper cur h).length_pos
  simp only [upper, last] at h this ⊢
  omega

def Apart (s t : LobSection) : Prop := s.last < t.start ∨ t.last < s.start

theorem Apart.not_includes {s t : LobSection} (h : s.Apart t) (hs : s.includes b) : ¬ t.includes b := by
  rintro ⟨h1, h2⟩
  obtain ⟨h3, h4⟩ := hs
  rcases h with h | h <;> omega

end LobSection

open LobSection

/-- `insert()` of the map from offsets to sections, kept as the list of its sections in the order of their offsets: a
section that is there under the same offset stays. -/
def insertSection (sec : LobSection) : List LobSection → List LobSection
  | [] => [sec]
  | cur :: rest =>
    if sec.offset < cur.offset then sec :: cur :: rest
    else if cur.offset < sec.offset then cur :: insertSection sec rest
    else cur :: rest

/-- The loop of `_addSection` over the sections: what is left of the section (`none` when `reset()`), whether it has
met a section, and the pieces of it that lie in front of sections it has met; `none` when it meets a section of
another access id. -/
def addLoop : List LobSection → LobSection → Bool → List LobSection →
    Option (Option LobSection × Bool × List LobSection)
  | [], sec, overlapped, tmp => some (some sec, overlapped, tmp)
  | cur :: rest, sec, overlapped, tmp =>
    if sec.last < cur.start then
      if overlapped then some (none, overlapped, insertSection sec tmp) else some (some sec, overlapped, tmp)
    else if cur.last < sec.start then addLoop rest sec overlapped tmp
    else if cur.accessId ≠ sec.accessId then none
    else if h : sec.start < cur.start then
      if h' : cur.last < sec.last then addLoop rest (sec.upper cur h') true (insertSection (sec.lower cur h) tmp)
      else some (none, true, insertSection (sec.lower cur h) tmp)
    else if h' : cur.last < sec.last then addLoop rest (sec.upper cur h') true tmp
    else some (none, true, tmp)

def addSection (sections : List LobSection) (sec : LobSection) : Option (List LobSection) :=
  match addLoop sections sec false [] with
  | none => none
  | some (left, overlapped, tmp) =>
    if overlapped then
      let sections := tmp.foldl (fun l cur => insertSection cur l) sections
      match left with
      | some left => some (insertSection left sections)
      | none => some sections
    else some (insertSection sec sections)

def addedOffsets (sections : List LobSection) (sec : LobSection) : List Nat :=
  match addLoop sections sec false [] with
  | none => []
  | some (left, overlapped, tmp) =>
    if overlapped then tmp.map offset ++ left.toList.map offset else [sec.offset]

def LobSection.overlapped (cur other : LobSection) : Bool :=
  other.includes cur.start || other.includes cur.last || (cur.includes other.start || cur.includes other.last)

def overlapped (sections : List LobSection) (sec : LobSection) : Bool :=
  sections.any fun cur => cur.overlapped sec && cur.accessId ≠ sec.accessId

def completelyContains : List LobSection → LobSection → Bool
  | [], _ => false
  | cur :: rest, sec =>
    if sec.last < cur.start then false
    else if cur.last < sec.start then completelyContains rest sec
    else if sec.start < cur.start then false
    else if h : cur.last < sec.last then completelyContains rest (sec.upper cur h)
    else true

def find (sections : List LobSection) (offset : Nat) : Option LobSection := sections.find? (·.includes offset)

def conflicted (sections : List LobSection) (accessId : Int) : Bool :=
  sections.any fun cur => cur.accessId ≠ accessId

def delSectionById (sections : List LobSection) (accessId : Int) : List LobSection :=
  sections.filter fun cur => cur.accessId ≠ accessId

def delSectionByOffset (sections : List LobSection) (offset : Nat) : List LobSection :=
  sections.filter fun cur => cur.offset ≠ offset

def InOrder (sections : List LobSection) : Prop := sections.Pairwise fun s t => s.last < t.start

variable {sections rest tmp l : List LobSection} {sec s t : LobSection}

theorem InOrder.apart (h : InOrder sections) (hs : s ∈ sections) (ht : t ∈ sections) (hne : s ≠ t) : s.Apart t := by
  have : Std.Symm LobSection.Apart := ⟨fun _ _ => Or.symm⟩
  exact Pairwise.forall (R := LobSection.Apart) (Pairwise.imp Or.inl h) hs ht hne

theorem mem_insertSection_self (h : ∀ s ∈ l, s.Apart sec) : sec ∈ insertSection sec l := by
  induction l with
  | nil => exact mem_singleton_self _
  | cons cur rest ih =>
    unfold insertSection
    split
    · exact mem_cons_self
    · split
      · exact mem_cons_of_mem _ (ih fun s hs => h s (mem_cons_of_mem _ hs))
      · next h1 h2 =>
        -- two sections that are apart have different offsets
        have hap := h cur mem_cons_self
        have := cur.start_le_last
        have := sec.start_le_last
        unfold Apart start at *
        omega

theorem mem_insertSection_of_mem (hs : s ∈ l) : s ∈ insertSection sec l := by
  induction l with
  | nil => cases hs
  | cons cur rest ih =>
    unfold insertSection
    split
    · exact mem_cons_of_mem _ hs
    · split
      · rcases mem_cons.1 hs with rfl | hs
        · exact mem_cons_self
        · exact mem_cons_of_mem _ (ih hs)
      · exact hs

theorem eq_or_mem_of_mem_insertSection (hs : s ∈ insertSection sec l) : s = sec ∨ s ∈ l := by
  induction l with
  | nil => exact .inl (mem_singleton.1 hs)
  | cons cur rest ih =>
    unfold insertSection at hs
    split at hs
    · exact mem_cons.1 hs
    · split at hs
      · rcases mem_cons.1 hs with rfl | hs
        · exact .inr mem_cons_self
        · exact (ih hs).imp_right (mem_cons_of_mem _)
      · exact .inr hs

theorem mem_insertSection_iff (h : ∀ s ∈ l, s.Apart sec) : s ∈ insertSection sec l ↔ s = sec ∨ s ∈ l := by
  constructor
  · exact eq_or_mem_of_mem_insertSection
  · rintro (rfl | hs)
    · exact mem_insertSection_self h
    · exact mem_insertSection_of_mem hs

theorem InOrder.insertSection (hl : InOrder l) (h : ∀ s ∈ l, s.Apart sec) : InOrder (insertSection sec l) := by
  induction l with
  | nil => exact pairwise_singleton _ _
  | cons cur rest ih =>
    obtain ⟨hcur, hr⟩ := pairwise_cons.1 hl
    have hap := h cur mem_cons_self
    have hc := cur.start_le_last
    have hs := sec.start_le_last
    unfold Rtn.insertSection
    split
    next hlt =>
      have hlt' : sec.last < cur.start := by
        unfold Apart start at *
        omega
      refine pairwise_cons.2 ⟨fun s hm => ?_, hl⟩
      rcases mem_cons.1 hm with rfl | hm
      · exact hlt'
      · have := hcur s hm
        omega
    next hle =>
      split
      next hlt =>
        have hlt' : cur.last < sec.start := by
          unfold Apart start at *
          omega
        refine pairwise_cons.2 ⟨fun s hm => ?_, ih hr fun s hs => h s (mem_cons_of_mem _ hs)⟩
        rcases eq_or_mem_of_mem_insertSection hm with rfl | hm
        · exact hlt'
        · exact hcur s hm
      next => exact hl

/-- The pieces `ps` fill `sec` between the sections `l`: they are apart from each other and from the sections, and what
they leave of `sec` is locked by its access id already. -/
structure Fills (l : List LobSection) (sec : LobSection) (ps : List LobSection) : Prop where
  accessId : ∀ p ∈ ps, p.accessId = sec.accessId
  apart : ∀ p ∈ ps, ∀ s ∈ l, s.Apart p
  pairwise : ps.Pairwise Apart
  cover : ∀ b, sec.includes b → (∃ p ∈ ps, p.includes b) ∨ ∃ s ∈ l, s.accessId = sec.accessId ∧ s.includes b

theorem Fills.insert {ps : List LobSection} (h : Fills l sec ps) (hl : InOrder l) :
    InOrder (ps.foldl (fun l cur => Rtn.insertSection cur l) l) ∧
      ∀ s, s ∈ ps.foldl (fun l cur => Rtn.insertSection cur l) l ↔ s ∈ ps ∨ s ∈ l := by
  obtain ⟨-, hap, hpw, -⟩ := h
  induction ps generalizing l with
  | nil => exact ⟨hl, fun s => by simp⟩
  | cons p ps ih =>
    obtain ⟨hp, hpw⟩ := pairwise_cons.1 hpw
    have hm : ∀ s, s ∈ Rtn.insertSection p l ↔ s = p ∨ s ∈ l :=
      fun s => mem_insertSection_iff (hap p mem_cons_self)
    obtain ⟨h1, h2⟩ := ih (l := Rtn.insertSection p l) (hl.insertSection (hap p mem_cons_self)) (fun q hq s hs => by
        rcases (hm s).1 hs with rfl | hs
        · exact hp q hq
        · exact hap q (mem_cons_of_mem _ hq) s hs) hpw
    refine ⟨h1, fun s => (h2 s).trans ?_⟩
    rw [hm s, mem_cons]
    tauto

theorem Fills.widen {ps : List LobSection} (h : Fills l t ps) (hid : t.accessId = sec.accessId)
    (hc : ∀ b, sec.includes b → t.includes b ∨ (∃ p ∈ ps, p.includes b) ∨
      ∃ s ∈ l, s.accessId = sec.accessId ∧ s.includes b) : Fills l sec ps where
  accessId p hp := (h.accessId p hp).trans hid
  apart := h.apart
  pairwise := h.pairwise
  cover b hb := by
    rcases hc b hb with hb | hb
    · exact hid ▸ h.cover b hb
    · exact hb

/-- The pieces that `_addSection` has cut off from a section of `accessId`. -/
structure Pieces (l : List LobSection) (accessId : Int) (tmp : List LobSection) : Prop where
  inOrder : InOrder tmp
  accessId : ∀ p ∈ tmp, p.accessId = accessId
  apart : ∀ p ∈ tmp, ∀ s ∈ l, s.Apart p

namespace Pieces

variable {id : Int}

theorem pairwise (h : Pieces l id tmp) : tmp.Pairwise Apart :=
  List.Pairwise.imp (fun hst => .inl hst) h.inOrder

theorem insert (h : Pieces l id tmp) (hid : s.accessId = id) (hap : ∀ t ∈ l, t.Apart s)
    (hf : ∀ p ∈ tmp, p.last < s.start) :
    Pieces l id (insertSection s tmp) ∧ ∀ p, p ∈ insertSection s tmp ↔ p = s ∨ p ∈ tmp := by
  have hfront' : ∀ p ∈ tmp, p.Apart s := fun p hp => .inl (hf p hp)
  have hm : ∀ p, p ∈ insertSection s tmp ↔ p = s ∨ p ∈ tmp := fun p => mem_insertSection_iff hfront'
  refine ⟨⟨h.inOrder.insertSection hfront', fun p hp => ?_, fun p hp => ?_⟩, hm⟩
  · rcases (hm p).1 hp with rfl | hp
    · exact hid
    · exact h.accessId p hp
  · rcases (hm p).1 hp with rfl | hp
    · exact hap
    · exact h.apart p hp

theorem fills_left (h : Pieces l sec.accessId tmp) (hap : ∀ t ∈ l, t.Apart sec)
    (hf : ∀ p ∈ tmp, p.last < sec.start) : Fills l sec (tmp ++ [sec]) where
  accessId := forall_mem_append.2 ⟨h.accessId, forall_mem_singleton.2 rfl⟩
  apart := forall_mem_append.2 ⟨h.apart, forall_mem_singleton.2 hap⟩
  pairwise := by
    refine pairwise_append.2 ⟨h.pairwise, pairwise_singleton _ _, fun p hp q hq => ?_⟩
    rw [mem_singleton.1 hq]
    exact .inl (hf p hp)
  cover b hb := .inl ⟨sec, mem_append_right _ (mem_singleton_self _), hb⟩

theorem fills (h : Pieces l sec.accessId tmp)
    (hc : ∀ b, sec.includes b → (∃ p ∈ tmp, p.includes b) ∨ ∃ s ∈ l, s.accessId = sec.accessId ∧ s.includes b) :
    Fills l sec (tmp ++ []) where
  accessId p hp := h.accessId p (by simpa using hp)
  apart p hp := h.apart p (by simpa using hp)
  pairwise := by simpa using h.pairwise
  cover b hb := by simpa using hc b hb

end Pieces

variable {left : Option LobSection} {tmp' : List LobSection}

theorem addLoop_fills {overlapped overlapped' : Bool} (hr : InOrder rest) (hsub : ∀ s ∈ rest, s ∈ l)
    (hl : ∀ s ∈ l, s ∈ rest ∨ s.last < sec.start) (hp : Pieces l sec.accessId tmp)
    (hf : ∀ p ∈ tmp, p.last < sec.start) (h : addLoop rest sec overlapped tmp = some (left, overlapped', tmp')) :
    (∀ p ∈ tmp, p ∈ tmp') ∧ Fills l sec (tmp' ++ left.toList) ∧
      ∀ p ∈ tmp' ++ left.toList, p ∈ tmp ∨ sec.start ≤ p.start ∧ p.last ≤ sec.last := by
  -- what is left of the section lies in it
  have hself : ∀ {tmp : List LobSection} {sec p : LobSection}, p ∈ tmp ++ [sec] →
      p ∈ tmp ∨ sec.start ≤ p.start ∧ p.last ≤ sec.last := fun hp => by
    refine (mem_append.1 hp).imp_right fun hp => ?_
    rw [mem_singleton.1 hp]
    exact ⟨Nat.le_refl _, Nat.le_refl _⟩
  induction rest generalizing sec overlapped tmp with
  | nil =>
    simp only [addLoop, some.injEq, Prod.mk.injEq] at h
    obtain ⟨rfl, -, rfl⟩ := h
    refine ⟨fun p hp => hp, hp.fills_left (fun t ht => .inl ?_) hf, fun _ => hself⟩
    exact (hl t ht).resolve_left not_mem_nil
  | cons cur rest ih =>
    obtain ⟨hcur, hrest'⟩ := pairwise_cons.1 hr
    have hsub' : ∀ s ∈ rest, s ∈ l := fun s hs => hsub s (mem_cons_of_mem _ hs)
    have hcl : cur ∈ l := hsub cur mem_cons_self
    have hc := cur.start_le_last
    have hs := sec.start_le_last
    -- a section of `l` is behind what is left, it is `cur`, or it is still ahead
    have hl' : ∀ s ∈ l, s.last < sec.start ∨ s = cur ∨ s ∈ rest := by
      intro s hsl
      rcases hl s hsl with hm | hlt
      · exact .inr (mem_cons.1 hm)
      · exact .inl hlt
    have hap : ∀ s : LobSection, s.start = sec.start → s.last < cur.start → ∀ t ∈ l, t.Apart s := by
      intro s hstart hlast t ht
      rcases hl' t ht with hlt | rfl | hm
      · exact .inl (by omega)
      · exact .inr hlast
      · have := hcur t hm
        exact .inr (by omega)
    have hn : ∀ x, sec.start ≤ x → cur.last < x → ∀ s ∈ l, s ∈ rest ∨ s.last < x := by
      intro x h1 h2 s hsl
      rcases hl' s hsl with hlt | rfl | hm
      · exact .inr (by omega)
      · exact .inr h2
      · exact .inl hm
    unfold addLoop at h
    split at h
    next hbefore =>
      split at h
      · simp only [some.injEq, Prod.mk.injEq] at h
        obtain ⟨rfl, -, rfl⟩ := h
        obtain ⟨hp', hm⟩ := hp.insert rfl (hap sec rfl hbefore) hf
        refine ⟨fun p hp => (hm p).2 (.inr hp), hp'.fills fun b hb => .inl ⟨sec, (hm sec).2 (.inl rfl), hb⟩, ?_⟩
        simpa [hm, or_comm] using @hself tmp sec
      · simp only [some.injEq, Prod.mk.injEq] at h
        obtain ⟨rfl, -, rfl⟩ := h
        exact ⟨fun p hp => hp, hp.fills_left (hap sec rfl hbefore) hf, fun _ => hself⟩
    next hbefore =>
    split at h
    next hbehind => exact ih hrest' hsub' (hn _ (Nat.le_refl _) hbehind) hp hf h
    next hbehind =>
    split at h
    · cases h
    next hid =>
    have hid : cur.accessId = sec.accessId := not_not.1 hid
    -- the part behind `cur`, after the part before it has been cut off
    have hmet : ∀ tmp1, Pieces l sec.accessId tmp1 → (∀ p ∈ tmp, p ∈ tmp1) → (∀ p ∈ tmp1, p.last ≤ cur.last) →
        (∀ b, sec.includes b → b < cur.start → ∃ p ∈ tmp1, p.includes b) →
        (∀ p ∈ tmp1, p ∈ tmp ∨ sec.start ≤ p.start ∧ p.last ≤ sec.last) →
        (if h' : cur.last < sec.last then addLoop rest (sec.upper cur h') true tmp1 else some (none, true, tmp1)) =
          some (left, overlapped', tmp') → (∀ p ∈ tmp, p ∈ tmp') ∧ Fills l sec (tmp' ++ left.toList) ∧
            ∀ p ∈ tmp' ++ left.toList, p ∈ tmp ∨ sec.start ≤ p.start ∧ p.last ≤ sec.last := by
      intro tmp1 hp1 hs1 hf1 hcover hw h
      split at h
      next hup =>
        have hstart := start_upper hup
        obtain ⟨hsubset, hfills, hin⟩ := ih hrest' hsub' (hn (sec.upper cur hup).start (by omega) (by omega)) hp1
          (fun p hp => by have := hf1 p hp; omega) h
        refine ⟨fun p hp => hsubset p (hs1 p hp), hfills.widen rfl fun b hb => ?_, fun p hp => ?_⟩
        · by_cases h1 : b < cur.start
          · obtain ⟨p, hp, hpb⟩ := hcover b hb h1
            exact .inr (.inl ⟨p, mem_append_left _ (hsubset p hp), hpb⟩)
          by_cases h2 : b ≤ cur.last
          · exact .inr (.inr ⟨cur, hcl, hid, by omega, h2⟩)
          · exact .inl ⟨by omega, by rw [last_upper]; exact hb.2⟩
        · rcases hin p hp with hp | ⟨h1, h2⟩
          · exact hw p hp
          · exact .inr ⟨by omega, last_upper hup ▸ h2⟩
      next hup =>
        simp only [some.injEq, Prod.mk.injEq] at h
        obtain ⟨rfl, -, rfl⟩ := h
        refine ⟨hs1, hp1.fills fun b hb => ?_, by simpa using hw⟩
        have hb2 := hb.2
        by_cases h1 : b < cur.start
        · exact .inl (hcover b hb h1)
        · exact .inr ⟨cur, hcl, hid, by omega, by omega⟩
    split at h
    next hlow =>
      have hlast := last_lower hlow
      obtain ⟨hp', hm⟩ := hp.insert (s := sec.lower cur hlow) rfl (hap _ rfl (by omega)) hf
      refine hmet _ hp' (fun p hp => (hm p).2 (.inr hp)) (fun p hp => ?_) (fun b hb h1 => ?_) (fun p hp => ?_) h
      · rcases (hm p).1 hp with rfl | hp
        · omega
        · have := hf p hp
          omega
      · exact ⟨_, (hm _).2 (.inl rfl), hb.1, by omega⟩
      · rcases (hm p).1 hp with rfl | hp
        · exact .inr ⟨Nat.le_refl _, by omega⟩
        · exact .inl hp
    next hlow =>
      refine hmet tmp hp (fun _ hp => hp) (fun p hp => ?_) (fun b hb h1 => ?_) (fun _ => .inl) h
      · have := hf p hp
        omega
      · have := hb.1
        omega

variable {overlapped : Bool}

theorem addLoop_not_overlapped (h : addLoop rest sec overlapped tmp = some (left, false, tmp')) :
    overlapped = false ∧ left = some sec ∧ tmp' = tmp := by
  fun_induction addLoop rest sec overlapped tmp with
  | case1 | case3 =>
    cases h
    exact ⟨rfl, rfl, rfl⟩
  | case4 _ _ _ _ _ _ _ ih => exact ih h
  | case6 _ _ _ _ _ _ _ _ _ _ ih | case8 _ _ _ _ _ _ _ _ _ _ ih => exact absurd (ih h).1 (by simp)
  | case2 | case5 | case7 | case9 => simp_all

variable {l' : List LobSection}

theorem addSection_eq (hl : InOrder l) (h : addSection l sec = some l') :
    ∃ ps, Fills l sec ps ∧ l' = ps.foldl (fun l cur => insertSection cur l) l ∧
      addedOffsets l sec = ps.map offset ∧ ∀ p ∈ ps, sec.start ≤ p.start ∧ p.last ≤ sec.last := by
  unfold addSection at h
  unfold addedOffsets
  split at h
  · cases h
  next left overlapped tmp hloop =>
    have hp : Pieces l sec.accessId [] :=
      ⟨List.Pairwise.nil, nofun, nofun⟩
    obtain ⟨-, hf, hw⟩ := addLoop_fills hl (fun s hs => hs) (fun s hs => .inl hs) hp
      nofun hloop
    refine ⟨_, hf, and_assoc.1 ⟨?_, fun p hp => (hw p hp).resolve_left not_mem_nil⟩⟩
    rw [foldl_append, map_append]
    split at h
    next hover =>
      subst hover
      cases left with
      | none => exact ⟨(some.inj h).symm, rfl⟩
      | some left => exact ⟨(some.inj h).symm, rfl⟩
    next hover =>
      obtain rfl : overlapped = false := by simpa using hover
      obtain ⟨-, rfl, rfl⟩ := addLoop_not_overlapped hloop
      exact ⟨(some.inj h).symm, rfl⟩

theorem addSection_spec (hl : InOrder l) (h : addSection l sec = some l') :
    InOrder l' ∧ (∀ s ∈ l, s ∈ l') ∧ (∀ s ∈ l', s ∈ l ∨ s.accessId = sec.accessId) ∧
      ∀ b, sec.includes b → ∃ s ∈ l', s.accessId = sec.accessId ∧ s.includes b := by
  obtain ⟨ps, hf, rfl, -⟩ := addSection_eq hl h
  obtain ⟨ho, hm⟩ := hf.insert hl
  refine ⟨ho, fun s hs => (hm s).2 (.inr hs), fun s hs => ?_, fun b hb => ?_⟩
  · rcases (hm s).1 hs with hs | hs
    · exact .inr (hf.accessId s hs)
    · exact .inl hs
  · rcases hf.cover b hb with ⟨p, hp, hpb⟩ | ⟨s, hs, hid, hsb⟩
    · exact ⟨p, (hm p).2 (.inl hp), hf.accessId p hp, hpb⟩
    · exact ⟨s, (hm s).2 (.inr hs), hid, hsb⟩

theorem addLoop_eq_none (h : addLoop rest sec overlapped tmp = none) :
    ∃ cur ∈ rest, cur.accessId ≠ sec.accessId ∧ ∃ b, cur.includes b ∧ sec.includes b := by
  fun_induction addLoop rest sec overlapped tmp with
  | case4 cur rest sec _ _ _ _ ih =>
    obtain ⟨s, hs, hne⟩ := ih h
    exact ⟨s, mem_cons_of_mem _ hs, hne⟩
  | case5 cur rest sec _ _ _ _ hne =>
    have := cur.start_le_last
    have := sec.start_le_last
    exact ⟨cur, mem_cons_self, hne, max cur.start sec.start, by unfold includes; omega⟩
  | case6 cur rest sec _ _ _ _ _ _ hup ih | case8 cur rest sec _ _ _ _ _ _ hup ih =>
    obtain ⟨s, hs, hne, b, hsb, hb1, hb2⟩ := ih h
    rw [start_upper] at hb1
    rw [last_upper] at hb2
    exact ⟨s, mem_cons_of_mem _ hs, hne, b, hsb, by omega, hb2⟩
  | _ => cases h

theorem addSection_eq_none (h : addSection l sec = none) :
    ∃ cur ∈ l, cur.accessId ≠ sec.accessId ∧ ∃ b, cur.includes b ∧ sec.includes b := by
  unfold addSection at h
  split at h
  next hnone => exact addLoop_eq_none hnone
  next =>
    split at h
    · split at h <;> cases h
    · cases h

theorem addSection_ne_none (h : ∀ s ∈ l, s.accessId = sec.accessId) : addSection l sec ≠ none := by
  intro hn
  obtain ⟨cur, hc, hne, -⟩ := addSection_eq_none hn
  exact hne (h cur hc)

theorem InOrder.delSectionById (hl : InOrder l) (id : Int) : InOrder (delSectionById l id) :=
  hl.sublist filter_sublist

variable {id : Int}

theorem mem_delSectionById : s ∈ delSectionById l id ↔ s ∈ l ∧ s.accessId ≠ id := by
  simp [delSectionById]

theorem conflicted_eq_false_iff : conflicted l id = false ↔ ∀ s ∈ l, s.accessId = id := by
  simp [conflicted]

/-! ### The sections as a map -/

def owner (sections : List LobSection) (b : Nat) : Option Int := (find sections b).map accessId

def Conflicts (l : List LobSection) (sec : LobSection) : Prop :=
  ∃ b, sec.includes b ∧ ∃ id, owner l b = some id ∧ id ≠ sec.accessId

variable {b : Nat}

namespace InOrder

theorem eq_of_includes (hl : InOrder l) (hs : s ∈ l) (ht : t ∈ l) (hsb : s.includes b) (htb : t.includes b) : s = t :=
  by_contra fun hne => (hl.apart hs ht hne).not_includes hsb htb

theorem find_iff (hl : InOrder l) : find l b = some s ↔ s ∈ l ∧ s.includes b := by
  have hm : ∀ {t}, find l b = some t → t ∈ l ∧ t.includes b := fun h =>
    ⟨mem_of_find?_eq_some h, by simpa using find?_some h⟩
  refine ⟨hm, fun ⟨hs, hb⟩ => ?_⟩
  cases h : find l b with
  | none => exact absurd hb (by simpa using find?_eq_none.1 h s hs)
  | some t => rw [hl.eq_of_includes hs (hm h).1 hb (hm h).2]

theorem owner_iff (hl : InOrder l) : owner l b = some id ↔ ∃ s ∈ l, s.includes b ∧ s.accessId = id := by
  simp [owner, hl.find_iff, and_assoc]

theorem conflicts_iff (hl : InOrder l) :
    Conflicts l sec ↔ ∃ s ∈ l, s.accessId ≠ sec.accessId ∧ ∃ b, s.includes b ∧ sec.includes b := by
  simp only [Conflicts, hl.owner_iff]
  constructor
  · rintro ⟨b, hb, id, ⟨s, hs, hsb, rfl⟩, hne⟩
    exact ⟨s, hs, hne, b, hsb, hb⟩
  · rintro ⟨s, hs, hne, b, hsb, hb⟩
    exact ⟨b, hb, _, ⟨s, hs, hsb, rfl⟩, hne⟩

theorem addSection_eq_none_iff (hl : InOrder l) : addSection l sec = none ↔ Conflicts l sec := by
  rw [hl.conflicts_iff]
  refine ⟨addSection_eq_none, fun ⟨t, ht, hne, b, htb, hb⟩ => ?_⟩
  by_contra hadd
  obtain ⟨l', hl'⟩ := ne_none_iff_exists'.1 hadd
  obtain ⟨ps, hf, -⟩ := addSection_eq hl hl'
  rcases hf.cover b hb with ⟨p, hp, hpb⟩ | ⟨s, hs, hid, hsb⟩
  · exact (hf.apart p hp t ht).not_includes htb hpb
  · exact hne (hl.eq_of_includes ht hs htb hsb ▸ hid)

theorem owner_addSection (hl : InOrder l) (h : addSection l sec = some l') (b : Nat) :
    owner l' b = if sec.includes b then some sec.accessId else owner l b := by
  obtain ⟨ho, -, -, hc⟩ := addSection_spec hl h
  obtain ⟨ps, hf, rfl, -, hw⟩ := addSection_eq hl h
  split_ifs with hb
  · obtain ⟨s, hs, hid, hsb⟩ := hc b hb
    exact ho.owner_iff.2 ⟨s, hs, hsb, hid⟩
  · refine Option.ext fun id => ?_
    rw [ho.owner_iff, hl.owner_iff]
    refine exists_congr fun s => and_congr_left fun ⟨⟨h1, h2⟩, _⟩ => ?_
    rw [(hf.insert hl).2]
    refine or_iff_right fun hp => hb ?_
    obtain ⟨h3, h4⟩ := hw s hp
    exact ⟨by omega, by omega⟩

theorem addedOffsets_spec (hl : InOrder l) (h : addSection l sec = some l') :
    (∀ o, o ∈ addedOffsets l sec ↔ ∃ s ∈ l', s ∉ l ∧ s.offset = o) ∧
      (addedOffsets l sec).foldl delSectionByOffset l' = l := by
  obtain ⟨ps, hf, rfl, hos, -⟩ := addSection_eq hl h
  obtain ⟨ho, hm⟩ := hf.insert hl
  -- a new section starts where no old one does
  have hn : ∀ p ∈ ps, ∀ s ∈ l, s.offset ≠ p.offset := by
    intro p hp s hs heq
    have := hf.apart p hp s hs
    have := s.start_le_last
    have := p.start_le_last
    unfold Apart start at *
    omega
  have hfold : ∀ (os : List Nat) l, os.foldl delSectionByOffset l = l.filter fun s => s.offset ∉ os := by
    intro os
    induction os with
    | nil => simp
    | cons o os ih => simp [ih, delSectionByOffset, List.filter_filter, Bool.and_comm]
  rw [hos, hfold]
  refine ⟨fun o => ?_, ?_⟩
  · simp only [List.mem_map, hm]
    constructor
    · rintro ⟨p, hp, rfl⟩
      exact ⟨p, .inl hp, fun hs => hn p hp p hs rfl, rfl⟩
    · rintro ⟨s, hs, hout, rfl⟩
      exact ⟨s, hs.resolve_right hout, rfl⟩
  · have : Std.Irrefl fun s t : LobSection => s.last < t.start := ⟨fun s => Nat.not_lt.2 s.start_le_last⟩
    have : Std.Antisymm fun s t : LobSection => s.last < t.start := ⟨fun s t h1 h2 => by
      have := s.start_le_last
      have := t.start_le_last
      omega⟩
    refine (ho.sublist filter_sublist).eq_of_mem_iff hl fun s => ?_
    simp only [List.mem_filter, hm, List.mem_map, decide_eq_true_eq]
    constructor
    · rintro ⟨hs, hout⟩
      exact hs.resolve_left fun hp => hout ⟨s, hp, rfl⟩
    · rintro hs
      exact ⟨.inr hs, fun ⟨p, hp, heq⟩ => hn p hp s hs heq.symm⟩

theorem find_filter (hl : InOrder l) (p : LobSection → Bool) (b : Nat) : find (l.filter p) b = (find l b).filter p := by
  refine Option.ext fun s => ?_
  rw [InOrder.find_iff (hl.sublist filter_sublist), Option.filter_eq_some_iff, hl.find_iff, List.mem_filter, and_right_comm]

theorem owner_delSectionByOffset (hl : InOrder l) (hs : s ∈ l) (b : Nat) :
    owner (delSectionByOffset l s.offset) b = if s.includes b then none else owner l b := by
  unfold owner delSectionByOffset
  rw [hl.find_filter]
  cases h : find l b with
  | none => simp
  | some t =>
    obtain ⟨ht, htb⟩ := hl.find_iff.1 h
    have hi : t.offset = s.offset ↔ s.includes b := by
      constructor
      · intro heq
        rwa [hl.eq_of_includes hs ht (b := s.offset) ⟨Nat.le_refl _, s.start_le_last⟩
          (heq ▸ ⟨Nat.le_refl _, t.start_le_last⟩)]
      · intro hb
        rw [hl.eq_of_includes hs ht hb htb]
    by_cases hb : s.includes b <;> simp [Option.filter, hi, hb]

theorem owner_delSectionById (hl : InOrder l) (id : Int) (b : Nat) :
    owner (Rtn.delSectionById l id) b = if owner l b = some id then none else owner l b := by
  unfold owner Rtn.delSectionById
  rw [hl.find_filter]
  cases find l b with
  | none => simp
  | some t => by_cases ht : t.accessId = id <;> simp [Option.filter, ht]

theorem overlapped_iff (hl : InOrder l) : Rtn.overlapped l sec ↔ Conflicts l sec := by
  have hi : ∀ s : LobSection, s.overlapped sec = true ↔ ∃ b, s.includes b ∧ sec.includes b := by
    intro s
    have hs := s.start_le_last
    have ht := sec.start_le_last
    simp only [LobSection.overlapped, Bool.or_eq_true, decide_eq_true_eq]
    unfold includes
    constructor
    · intro h
      exact ⟨max s.start sec.start, by omega⟩
    · rintro ⟨b, h⟩
      omega
  rw [hl.conflicts_iff]
  simp only [Rtn.overlapped, List.any_eq_true, Bool.and_eq_true, hi, decide_eq_true_eq]
  exact exists_congr fun s => and_congr_right fun _ => and_comm

theorem completelyContains_iff (hl : InOrder l) :
    completelyContains l sec ↔ ∀ b, sec.includes b → ∃ s ∈ l, s.includes b := by
  induction l generalizing sec with
  | nil => simpa [completelyContains] using ⟨_, Nat.le_refl _, sec.start_le_last⟩
  | cons cur rest ih =>
    obtain ⟨hcur, hr⟩ := pairwise_cons.1 hl
    have hc := cur.start_le_last
    have hs := sec.start_le_last
    -- a byte in front of `cur` is in no section
    have hf : sec.start < cur.start → ¬ ∀ b, sec.includes b → ∃ s ∈ cur :: rest, s.includes b := by
      intro hlt h
      obtain ⟨s, hm, hb⟩ := h sec.start ⟨Nat.le_refl _, hs⟩
      rcases mem_cons.1 hm with rfl | hm
      · exact absurd hb.1 (by omega)
      · have := hcur s hm
        exact absurd hb.1 (by omega)
    -- the search goes on with the bytes that are not in `cur`
    have hstep : ∀ x : LobSection, (∀ b, x.includes b ↔ sec.includes b ∧ ¬ cur.includes b) →
        (completelyContains rest x = true ↔ ∀ b, sec.includes b → ∃ s ∈ cur :: rest, s.includes b) := by
      intro x hx
      rw [ih hr]
      refine forall_congr' fun b => ?_
      by_cases hb : cur.includes b <;> simp [hx, hb]
    unfold completelyContains
    split_ifs with hbefore hbehind hlow hup
    · simpa using hf (by omega)
    · exact hstep sec fun b => by unfold includes; omega
    · simpa using hf hlow
    · refine hstep _ fun b => ?_
      rw [includes, start_upper, last_upper]
      unfold includes
      omega
    · exact iff_of_true rfl fun b hb => ⟨cur, mem_cons_self, by have := hb.1; omega, by have := hb.2; omega⟩

end InOrder

inductive SectionOp
  | add (sec : LobSection)
  | delByOffset (offset : Nat)
  | delById (accessId : Int)

def sectionStep (sections : List LobSection) : SectionOp → List LobSection
  | .add sec => (addSection sections sec).getD sections
  | .delByOffset offset => delSectionByOffset sections offset
  | .delById accessId => delSectionById sections accessId

theorem inOrder_step (hl : InOrder l) (op : SectionOp) : InOrder (sectionStep l op) := by
  cases op with
  | add sec =>
    show InOrder ((addSection l sec).getD l)
    cases h : addSection l sec with
    | none => exact hl
    | some l' => exact (addSection_spec hl h).1
  | delByOffset | delById => exact hl.sublist filter_sublist

/-- After any sequence of operations the sections are apart, and each operation does to the map what it should. -/
theorem sections_refine_map (ops : List SectionOp) :
    let l := run sectionStep [] ops
    l.Pairwise Apart ∧
    (∀ sec, (addSection l sec = none ↔ Conflicts l sec) ∧ ∀ l', addSection l sec = some l' →
      (∀ b, owner l' b = if sec.includes b then some sec.accessId else owner l b) ∧
      (∀ o, o ∈ addedOffsets l sec ↔ ∃ s ∈ l', s ∉ l ∧ s.offset = o) ∧
      (addedOffsets l sec).foldl delSectionByOffset l' = l) ∧
    (∀ s ∈ l, ∀ b, owner (delSectionByOffset l s.offset) b = if s.includes b then none else owner l b) ∧
    (∀ id b, owner (delSectionById l id) b = if owner l b = some id then none else owner l b) ∧
    ∀ sec, (Rtn.overlapped l sec = true ↔ Conflicts l sec) ∧
      (completelyContains l sec = true ↔ ∀ b, sec.includes b → (owner l b).isSome) := by
  have hmeets : Meets (fun _ _ => True) sectionStep [] ops := .of_forall fun _ _ => trivial
  have hl : InOrder (run sectionStep [] ops) := run_invariant (fun _ op hl _ => inOrder_step hl op) Pairwise.nil hmeets
  refine ⟨hl.imp .inl, fun sec => ⟨hl.addSection_eq_none_iff, fun l' h => ?_⟩, fun s hs => hl.owner_delSectionByOffset hs,
    hl.owner_delSectionById, fun sec => ⟨hl.overlapped_iff, ?_⟩⟩
  · exact ⟨hl.owner_addSection h, hl.addedOffsets_spec h⟩
  · simp [hl.completelyContains_iff, owner, find]

end SequoiaDB.Rtn
