import SequoiaDB.Cls.VoteMachine

/-!
# An elected primary has a majority

A node counts the acceptances that arrive while it is in `ANNOUNCE`.  It sends one ballot to each member when it
enters `ANNOUNCE`, a ballot is answered at most once, and so for each member and era at most one ballot or acceptance
is in flight or counted (`Inv.once`).  As long as a node only gets acceptances of its present era the count is a number
of different members (`elected_backed`).  An acceptance does not say which ballot it answers, though, and one that
arrives in a later era is counted as well (`elected_by_old_acceptance`).
-/

namespace SequoiaDB.Cls

open Dps Lib List Msg Node

variable {n : Nat} {e : View n} {i j : Fin n} {nd nd' : Node n} {st next : Status}

theorem nodup_others (i : Fin n) : (others i).Nodup :=
  (nodup_finRange n).filter _

theorem mem_others : j ∈ others i ↔ j ≠ i := by
  simp [others]

theorem groupSize_eq (i : Fin n) : groupSize i = n := by
  have he : others i = (finRange n).erase i := by
    rw [(nodup_finRange n).erase_eq_filter]
    exact filter_congr fun j _ => by by_cases h : j = i <;> simp [h]
  have hl := length_erase_of_mem (mem_finRange i)
  have hpos := i.pos
  rw [length_finRange] at hl
  unfold groupSize
  rw [he]
  omega

/-! ### Ballots and acceptances of stage two -/

namespace Msg

def minor : Msg n → Bool
  | .ballot _ _ .stageTwo _ _ => false
  | .res _ _ .stageTwo true _ => false
  | _ => true

/-- The message is the ballot of `i` for `j` in the era `r`, or the acceptance that answers it. -/
def concerns (i j : Fin n) (r : Nat) : Msg n → Bool
  | .ballot src dst .stageTwo _ era => src = i && dst = j && era = r
  | .res src dst .stageTwo true answered => dst = i && src = j && answered.era = r
  | _ => false

variable {m : Msg n}

theorem concerns_iff {i j : Fin n} {r : Nat} : m.concerns i j r ↔
    (∃ lsn, m = .ballot i j .stageTwo lsn r) ∨ ∃ a, m = .res j i .stageTwo true a ∧ a.era = r := by
  constructor
  · intro h
    unfold concerns at h
    split at h
    · simp only [Bool.and_eq_true, decide_eq_true_eq] at h
      obtain ⟨⟨rfl, rfl⟩, rfl⟩ := h
      exact .inl ⟨_, rfl⟩
    · simp only [Bool.and_eq_true, decide_eq_true_eq] at h
      obtain ⟨⟨rfl, rfl⟩, rfl⟩ := h
      exact .inr ⟨_, rfl, rfl⟩
    · cases h
  · rintro (⟨lsn, rfl⟩ | ⟨a, rfl, rfl⟩) <;> simp [concerns]

theorem concerns_of_minor (h : m.minor) (i j : Fin n) (r : Nat) : m.concerns i j r = false := by
  rw [Bool.eq_false_iff]
  intro hc
  rcases concerns_iff.1 hc with ⟨lsn, rfl⟩ | ⟨a, rfl, -⟩ <;> cases h

end Msg

theorem countP_concerns_of_minor {sent : List (Msg n)} (h : ∀ m ∈ sent, m.minor) (i j : Fin n) (r : Nat) :
    sent.countP (concerns i j r) = 0 :=
  countP_eq_zero.2 fun m hm => by simp [concerns_of_minor (h m hm)]

theorem acceptances_append (l l' : List (Msg n)) : acceptances (l ++ l') = acceptances l ++ acceptances l' :=
  filterMap_append

variable {src dst : Fin n}

theorem mem_acceptances {l : List (Msg n)} {a : Acceptance n} (h : .res src dst .stageTwo true a ∈ l) :
    a ∈ acceptances l :=
  mem_filterMap.2 ⟨_, h, rfl⟩

namespace View

variable {r : Nat} {m : Msg n}

theorem mem_launch {round : Round} (h : m ∈ e.launch i round r) :
    ∃ j, j ≠ i ∧ m = .ballot i j round e.expectLsn r := by
  unfold launch at h
  split at h
  · obtain ⟨j, hj, rfl⟩ := mem_map.1 h
    exact ⟨j, mem_others.1 (mem_of_mem_filter hj), rfl⟩
  · cases h

theorem countP_launch (r : Nat) (j : Fin n) : (e.launch i .stageTwo r).countP (concerns i j r) ≤ 1 := by
  unfold launch
  split
  · rw [countP_map]
    have hc := nodup_iff_count_le_one.1 ((nodup_others i).filter e.alive) j
    refine le_of_eq_of_le (countP_congr fun k _ => ?_) hc
    simp [concerns]
  · exact Nat.zero_le _

theorem minor_launch (h : m ∈ e.launch i .stageOne r) : m.minor := by
  obtain ⟨j, -, rfl⟩ := mem_launch h
  rfl

theorem decision_sound {lsn : Lsn} {id : Fin n} (h : e.decision i lsn id = some true) :
    id ≠ i ∧ (e.startupOK = true → e.expectLsn.compare lsn ≠ .gt) := by
  unfold decision at h
  simp only at h
  split at h
  · cases h
  next hid =>
  refine ⟨mem_others.1 (not_not.1 hid), fun hok hgt => ?_⟩
  rw [hok, hgt] at h
  split at h
  · cases h
  split at h
  · cases h
  split at h
  · cases h
  simp at h

end View

/-! ### What a call does to its node -/

/-- The record of the present era is kept, and so is the status. -/
structure Keeps (nd nd' : Node n) : Prop where
  current : nd'.current = nd.current
  era : nd'.era = nd.era
  announced : nd'.announced = nd.announced
  counted : nd'.counted = nd.counted

/-- What a message does before the status is changed. -/
inductive InputOf (e : View n) (i : Fin n) (nd : Node n) (st : Status) :
    Msg n → Node n → Status → List (Msg n) → Prop
  /-- The record is kept, and no ballot or acceptance of stage two is sent. -/
  | other {m nd' next sent} (hkeeps : Keeps nd nd') (hacc : st = .announce → nd'.accepted = nd.accepted)
      (hnext : st = .announce → next ≠ .primary) (hsent : ∀ m ∈ sent, m.minor = true) :
      InputOf e i nd st m nd' next sent
  /-- A ballot of stage two is accepted. -/
  | accepts {src dst lsn era nd' next} (hkeeps : Keeps nd nd') (hst : st ≠ .announce)
      (hdecision : e.decision i lsn src = some true) :
      InputOf e i nd st (.ballot src dst .stageTwo lsn era) nd' next
        [.res i src .stageTwo true ⟨i, src, era, lsn, e.expectLsn, e.startupOK⟩]
  /-- An acceptance is counted. -/
  | counts {src dst answered next} (hst : st = .announce)
      (hnext : next = .primary → groupSize i ≤ nd.accepted + 1 + 1) :
      InputOf e i nd st (.res src dst .stageTwo true answered)
        { nd with accepted := nd.accepted + 1, counted := nd.counted ++ [answered] } next []

theorem inputOf_answer {round : Round} {lsn : Lsn} {r : Nat} (hk : Keeps nd nd') (hst : st ≠ .announce) :
    InputOf e i nd st (.ballot src dst round lsn r) nd' next (e.answer i lsn src round r).2 := by
  have ho : ∀ sent : List (Msg n), (∀ m ∈ sent, m.minor = true) →
      InputOf e i nd st (.ballot src dst round lsn r) nd' next sent :=
    fun sent hs => .other hk (fun h => absurd h hst) (fun h => absurd h hst) hs
  unfold View.answer
  cases hd : e.decision i lsn src with
  | none => exact ho [] nofun
  | some ok =>
    cases round with
    | stageOne => exact ho _ (forall_mem_singleton.2 rfl)
    | stageTwo =>
      cases ok with
      | false => exact ho _ (forall_mem_singleton.2 rfl)
      | true => exact .accepts hk hst hd

theorem statusInput_inputOf (e : View n) (i : Fin n) (nd : Node n) (st : Status) (m : Msg n) :
    InputOf e i nd st m (nd.statusInput e i st m).1 (nd.statusInput e i st m).2.1 (nd.statusInput e i st m).2.2 := by
  have hs : ∀ next : Status, (st = .announce → next ≠ .primary) → InputOf e i nd st m nd next [] :=
    fun next hn => .other ⟨rfl, rfl, rfl, rfl⟩ (fun _ => rfl) hn nofun
  cases st with
  | silence | primary => exact hs _ (by simp)
  | sec =>
    cases m with
    | res => exact hs _ (by simp)
    | ballot src dst round lsn r =>
      cases round with
      | stageOne | stageTwo => exact inputOf_answer ⟨rfl, rfl, rfl, rfl⟩ (by simp)
  | vote =>
    cases m with
    | ballot src dst round lsn r =>
      cases round with
      | stageOne | stageTwo => exact inputOf_answer ⟨rfl, rfl, rfl, rfl⟩ (by simp)
    | res src dst round ok answered =>
      cases round with
      | stageTwo => exact hs _ (by simp)
      | stageOne =>
        cases ok with
        | false => exact hs _ (by simp)
        | true => exact .other ⟨rfl, rfl, rfl, rfl⟩ (by simp) (by simp) nofun
  | announce =>
    cases m with
    | ballot => exact hs .announce (by simp)
    | res src dst round ok answered =>
      cases round with
      | stageOne => exact hs .announce (by simp)
      | stageTwo =>
        cases ok with
        | false => exact hs .silence (by simp)
        | true =>
          refine .counts rfl fun hn => ?_
          by_contra hlt
          simp [statusInput, hlt] at hn

theorem statusTimeout_spec (e : View n) (i : Fin n) (nd : Node n) (st : Status) (millisec : Nat) :
    Keeps nd (nd.statusTimeout e i st millisec).1 ∧
      (st = .announce → (nd.statusTimeout e i st millisec).1.accepted = nd.accepted ∧
        ((nd.statusTimeout e i st millisec).2 = .primary → isMajority (nd.accepted + 1) (groupSize i))) := by
  unfold statusTimeout
  cases st with
  | silence => exact ⟨⟨rfl, rfl, rfl, rfl⟩, by simp⟩
  | sec =>
    simp only
    refine ⟨?_, by simp⟩
    split <;> split <;> exact ⟨rfl, rfl, rfl, rfl⟩
  | vote =>
    simp only
    refine ⟨?_, by simp⟩
    split
    · split
      · exact ⟨rfl, rfl, rfl, rfl⟩
      · split <;> exact ⟨rfl, rfl, rfl, rfl⟩
    · exact ⟨rfl, rfl, rfl, rfl⟩
  | primary =>
    simp only
    refine ⟨?_, by simp⟩
    split
    · split <;> exact ⟨rfl, rfl, rfl, rfl⟩
    · exact ⟨rfl, rfl, rfl, rfl⟩
  | announce =>
    simp only
    split
    · split
      next ha => exact ⟨⟨rfl, rfl, rfl, rfl⟩, fun _ => ⟨rfl, fun _ => ha⟩⟩
      next => exact ⟨⟨rfl, rfl, rfl, rfl⟩, fun _ => ⟨rfl, by simp⟩⟩
    · exact ⟨⟨rfl, rfl, rfl, rfl⟩, fun _ => ⟨rfl, by simp⟩⟩

theorem active_next (e : View n) (i : Fin n) (nd : Node n) (hn : n ≠ 1) (st : Status) : (nd.active e i st).2.1 = st := by
  have hs : groupSize i ≠ 1 := by rwa [groupSize_eq]
  cases st <;> simp [active, hs]

/-- What a change of the status does in a group of more than one node. -/
inductive ChangeOf (i : Fin n) (nd : Node n) (next : Status) :
    Node n → List (Msg n) → List (Option Status × Status) → Prop
  | stays {nd' : Node n} (hcur : nd.current = some next) (hkeeps : Keeps nd nd') (hacc : nd'.accepted = nd.accepted) :
      ChangeOf i nd next nd' [] []
  | enters {nd' : Node n} {sent : List (Msg n)} (hcur : nd'.current = some next) (hnext : next ≠ .announce) (hera : nd'.era = nd.era)
      (hannounced : nd'.announced = nd.announced) (hcounted : nd'.counted = nd.counted)
      (hsent : ∀ m ∈ sent, m.minor = true) : ChangeOf i nd next nd' sent [(nd.current, next)]
  | announces {nd' : Node n} (view : View n) (hnext : next = .announce) (hera : nd'.era = nd.era + 1)
      (hannounced : nd'.announced = view.expectLsn) (hcounted : nd'.counted = []) (hacc : nd'.accepted = 0) :
      ChangeOf i nd next nd' (view.launch i .stageTwo (nd.era + 1)) [(nd.current, next)]

theorem changeTo_changeOf (e : View n) (i : Fin n) (nd : Node n) (next : Status) (hn : n ≠ 1) :
    ChangeOf i nd next (nd.changeTo e i next).1 (nd.changeTo e i next).2.1 (nd.changeTo e i next).2.2 := by
  unfold Node.changeTo activate
  split
  next hcur => exact .stays hcur ⟨hcur.symm, rfl, rfl, rfl⟩ rfl
  next hcur =>
  have hnext := active_next (deactive e i nd.current) i nd hn next
  have hs : groupSize i ≠ 1 := by rwa [groupSize_eq]
  simp only
  unfold activate
  rw [if_pos (by rw [hnext])]
  simp only [append_nil]
  cases next with
  | announce =>
    have ha : (nd.active (deactive e i nd.current) i .announce).2.2 =
        (deactive e i nd.current).launch i .stageTwo (nd.era + 1) := by simp [active, hs]
    rw [ha]
    refine .announces _ rfl ?_ ?_ ?_ ?_ <;> simp [active, hs]
  | vote =>
    refine .enters (congrArg some hnext) (by simp) ?_ ?_ ?_ fun m hm => ?_
    case vote.refine_4 =>
      simp only [active, hs, false_and, if_false] at hm
      exact View.minor_launch hm
    all_goals simp [active, hs]
  | silence | sec | primary =>
    refine .enters (congrArg some hnext) (by simp) ?_ ?_ ?_ fun m hm => ?_
    all_goals simp_all [active]

/-! ### The group -/

namespace Group

variable {s : Group n} {m : Msg n} {sent : List (Msg n)}

/-- The acceptance has been sent, in answer to a ballot of its candidate. -/
structure Valid (s : Group n) (a : Acceptance n) : Prop where
  sent : a ∈ s.accepts
  other : a.member ≠ a.candidate
  era : a.era ≤ (s.nodes a.candidate).era
  announced : a.era = (s.nodes a.candidate).era → a.announced = (s.nodes a.candidate).announced
  logEnd : a.normal = true → a.logEnd.compare a.announced ≠ .gt

/-- A message of stage two is a ballot of an era of its sender, with the LSN it has announced in that era, or a valid
acceptance. -/
def Known (s : Group n) : Msg n → Prop
  | .ballot i _ .stageTwo lsn r => r ≤ (s.nodes i).era ∧ (r = (s.nodes i).era → lsn = (s.nodes i).announced)
  | .res j i .stageTwo true a => a.member = j ∧ a.candidate = i ∧ s.Valid a
  | _ => True

structure Inv (s : Group n) : Prop where
  net : ∀ m ∈ s.net, s.Known m
  counted : ∀ i, ∀ a ∈ (s.nodes i).counted, a.candidate = i ∧ a.era = (s.nodes i).era ∧ s.Valid a
  once : ∀ i j, s.net.countP (concerns i j (s.nodes i).era) + (s.nodes i).counted.countP (fun a => a.member = j) ≤ 1
  number : ∀ i, (s.nodes i).current = some .announce → (s.nodes i).accepted = (s.nodes i).counted.length

theorem inv_start : Inv (start n) where
  net _ h := by cases h
  counted _ _ h := by cases h
  once _ _ := Nat.zero_le _
  number _ _ := rfl

theorem known_of_minor (h : m.minor) : s.Known m := by
  unfold Known
  split
  · cases h
  · cases h
  · trivial

variable {a : Acceptance n}

theorem Valid.congr {s' : Group n} (h : s.Valid a) (hn : s'.nodes = s.nodes) (ha : s'.accepts = s.accepts) :
    s'.Valid a :=
  ⟨ha ▸ h.sent, h.other, hn ▸ h.era, hn ▸ h.announced, h.logEnd⟩

theorem Known.congr {s' : Group n} (h : s.Known m) (hn : s'.nodes = s.nodes) (ha : s'.accepts = s.accepts) :
    s'.Known m := by
  unfold Known at h ⊢
  split
  · exact hn ▸ h
  · exact ⟨h.1, h.2.1, h.2.2.congr hn ha⟩
  · trivial

theorem Inv.take (h : Inv s) (m : Msg n) : Inv (s.take m) where
  net m' hm := (h.net m' (mem_of_mem_erase hm)).congr rfl rfl
  counted i a ha := by
    obtain ⟨h1, h2, h3⟩ := h.counted i a ha
    exact ⟨h1, h2, h3.congr rfl rfl⟩
  once i j := by
    have hle : (s.net.erase m).countP (concerns i j (s.nodes i).era) ≤ _ := erase_sublist.countP_le
    exact le_trans (Nat.add_le_add_right hle _) (h.once i j)
  number := h.number

@[simp] theorem nodes_put_self : (s.put i nd sent).nodes i = nd := Function.update_self ..

theorem nodes_put_of_ne (h : j ≠ i) : (s.put i nd sent).nodes j = s.nodes j := Function.update_of_ne h ..

theorem put_put (sent' : List (Msg n)) : (s.put i nd sent).put i nd' sent' = s.put i nd' (sent ++ sent') := by
  simp [put, acceptances_append]

def Later (nd nd' : Node n) : Prop := (nd'.era = nd.era ∧ nd'.announced = nd.announced) ∨ nd.era < nd'.era

variable {k : Fin n} {r : Nat}

theorem later_put {lsn : Lsn} (sent : List (Msg n)) (hl : Later (s.nodes i) nd)
    (h : r ≤ (s.nodes k).era ∧ (r = (s.nodes k).era → lsn = (s.nodes k).announced)) :
    r ≤ ((s.put i nd sent).nodes k).era ∧
      (r = ((s.put i nd sent).nodes k).era → lsn = ((s.put i nd sent).nodes k).announced) := by
  by_cases hk : k = i
  · subst hk
    rw [nodes_put_self]
    rcases hl with ⟨he, ha⟩ | hlt
    · rwa [he, ha]
    · exact ⟨by omega, fun heq => by omega⟩
  · rwa [nodes_put_of_ne hk]

theorem Valid.put (h : s.Valid a) (hl : Later (s.nodes i) nd) : (s.put i nd sent).Valid a :=
  have he := later_put sent hl ⟨h.era, h.announced⟩
  ⟨mem_append_left _ h.sent, h.other, he.1, he.2, h.logEnd⟩

theorem Known.put (h : s.Known m) (hl : Later (s.nodes i) nd) : (s.put i nd sent).Known m := by
  unfold Known at h ⊢
  split
  · exact later_put sent hl h
  · exact ⟨h.1, h.2.1, h.2.2.put hl⟩
  · trivial

theorem Inv.put (h : Inv s) (hl : Later (s.nodes i) nd) (hs : ∀ m ∈ sent, (s.put i nd sent).Known m)
    (hc : ∀ a ∈ nd.counted, a.candidate = i ∧ a.era = nd.era ∧ (s.put i nd sent).Valid a)
    (hself : ∀ j, (s.net ++ sent).countP (concerns i j nd.era) +
      nd.counted.countP (fun a => a.member = j) ≤ 1)
    (ho : ∀ k ≠ i, ∀ j, (s.net ++ sent).countP (concerns k j (s.nodes k).era) +
      (s.nodes k).counted.countP (fun a => a.member = j) ≤ 1)
    (hn : nd.current = some .announce → nd.accepted = nd.counted.length) : Inv (s.put i nd sent) where
  net m hm := (mem_append.1 hm).elim (fun hm => (h.net m hm).put hl) (hs m)
  counted k a ha := by
    by_cases hk : k = i
    · subst hk
      rw [nodes_put_self] at ha ⊢
      exact hc a ha
    · rw [nodes_put_of_ne hk] at ha ⊢
      obtain ⟨h1, h2, h3⟩ := h.counted k a ha
      exact ⟨h1, h2, h3.put hl⟩
  once k j := by
    by_cases hk : k = i
    · subst hk
      rw [nodes_put_self]
      exact hself j
    · rw [nodes_put_of_ne hk]
      exact ho k hk j
  number k hk := by
    by_cases hi : k = i
    · subst hi
      rw [nodes_put_self] at hk ⊢
      exact hn hk
    · rw [nodes_put_of_ne hi] at hk ⊢
      exact h.number k hk

theorem Inv.put_minor (h : Inv s) (he : nd.era = (s.nodes i).era) (hann : nd.announced = (s.nodes i).announced)
    (hc : nd.counted = (s.nodes i).counted)
    (hn : nd.current = some .announce → nd.accepted = (s.nodes i).counted.length)
    (hs : ∀ m ∈ sent, m.minor) : Inv (s.put i nd sent) := by
  have hl : Later (s.nodes i) nd := .inl ⟨he, hann⟩
  have hcount : ∀ k j r, (s.net ++ sent).countP (concerns k j r) = s.net.countP (concerns k j r) := by
    intro k j r
    rw [countP_append, countP_concerns_of_minor hs, Nat.add_zero]
  refine h.put hl (fun m hm => known_of_minor (hs m hm)) (fun a ha => ?_) (fun j => ?_) (fun k _ j => ?_)
    (fun hcur => hc ▸ hn hcur)
  · obtain ⟨h1, h2, h3⟩ := h.counted i a (hc ▸ ha)
    exact ⟨h1, h2.trans he.symm, h3.put hl⟩
  · rw [hcount, he, hc]
    exact h.once i j
  · rw [hcount]
    exact h.once k j

theorem Inv.put_keeps (h : Inv s) (hk : Keeps (s.nodes i) nd)
    (ha : nd.current = some .announce → nd.accepted = (s.nodes i).accepted) (hs : ∀ m ∈ sent, m.minor) :
    Inv (s.put i nd sent) :=
  h.put_minor hk.era hk.announced hk.counted (fun hc => (ha hc).trans (h.number i (hk.current ▸ hc))) hs

theorem Inv.put_announce (h : Inv s) (view : View n) (he : nd.era = (s.nodes i).era + 1)
    (hann : nd.announced = view.expectLsn) (hc : nd.counted = []) (hacc : nd.accepted = 0) :
    Inv (s.put i nd (view.launch i .stageTwo ((s.nodes i).era + 1))) := by
  refine h.put (.inr (by omega)) (fun m hm => ?_) (fun a ha => ?_) (fun j => ?_) (fun k hk j => ?_) (fun _ => ?_)
  · obtain ⟨j, -, rfl⟩ := View.mem_launch hm
    show _ ≤ ((s.put i nd _).nodes i).era ∧ (_ = ((s.put i nd _).nodes i).era → _)
    rw [nodes_put_self]
    exact ⟨by omega, fun _ => hann.symm⟩
  · rw [hc] at ha
    cases ha
  · -- nothing of the new era was in flight
    have hz : s.net.countP (concerns i j ((s.nodes i).era + 1)) = 0 := by
      refine countP_eq_zero.2 fun m hm hcon => ?_
      have hknown := h.net m hm
      rcases concerns_iff.1 hcon with ⟨lsn, rfl⟩ | ⟨a, rfl, hr⟩
      · exact absurd hknown.1 (by omega)
      · obtain ⟨-, hcand, hv⟩ := hknown
        have := hv.era
        rw [hcand] at this
        omega
    rw [countP_append, he, hc, hz, countP_nil, Nat.zero_add, Nat.add_zero]
    exact View.countP_launch _ j
  · have hz : (view.launch i .stageTwo ((s.nodes i).era + 1)).countP (concerns k j (s.nodes k).era) = 0 := by
      refine countP_eq_zero.2 fun m hm hcon => ?_
      obtain ⟨j', -, rfl⟩ := View.mem_launch hm
      rcases concerns_iff.1 hcon with ⟨lsn, heq⟩ | ⟨a, heq, -⟩
      · exact hk (ballot.inj heq).1.symm
      · cases heq
    rw [countP_append, hz, Nat.add_zero]
    exact h.once k j
  · rw [hc, hacc, length_nil]

theorem countP_take (hm : m ∈ s.net) (p : Msg n → Bool) :
    (s.take m).net.countP p + (if p m then 1 else 0) = s.net.countP p := by
  have hp := perm_cons_erase hm
  rw [hp.countP_eq p, countP_cons]
  rfl

variable {src : Fin n}

theorem Inv.put_accept {lsn logEnd : Lsn} {normal : Bool} (h : Inv s) (hm : .ballot src i .stageTwo lsn r ∈ s.net)
    (hk : Keeps (s.nodes i) nd) (hst : (s.nodes i).current ≠ some .announce) (hs : src ≠ i)
    (hlog : normal → logEnd.compare lsn ≠ .gt) :
    Inv ((s.take (.ballot src i .stageTwo lsn r)).put i nd
      [.res i src .stageTwo true ⟨i, src, r, lsn, logEnd, normal⟩]) := by
  have ht := h.take (.ballot src i .stageTwo lsn r)
  have hl : Later ((s.take (.ballot src i .stageTwo lsn r)).nodes i) nd := .inl ⟨hk.era, hk.announced⟩
  -- the acceptance stands for the ballot it answers
  have hc : ∀ k j q, ((s.take (.ballot src i .stageTwo lsn r)).net ++
      [res i src .stageTwo true ⟨i, src, r, lsn, logEnd, normal⟩]).countP (concerns k j q) =
      s.net.countP (concerns k j q) := by
    intro k j q
    rw [countP_append, ← countP_take hm, countP_singleton]
    rfl
  refine ht.put hl (fun m hr => ?_) (fun a ha => ?_) (fun j => ?_) (fun k _ j => ?_) (fun hcur => ?_)
  · rw [mem_singleton.1 hr]
    have hknown : (s.take (.ballot src i .stageTwo lsn r)).Known (.ballot src i .stageTwo lsn r) :=
      (h.net _ hm).congr rfl rfl
    have he := later_put [.res i src .stageTwo true ⟨i, src, r, lsn, logEnd, normal⟩] hl hknown
    exact ⟨rfl, rfl, mem_append_right _ (mem_acceptances (mem_singleton_self _)), hs.symm, he.1, he.2, hlog⟩
  · obtain ⟨h1, h2, h3⟩ := ht.counted i a (hk.counted ▸ ha)
    exact ⟨h1, h2.trans hk.era.symm, h3.put hl⟩
  · rw [hc, hk.era, hk.counted]
    exact h.once i j
  · rw [hc]
    exact h.once k j
  · exact absurd (hk.current ▸ hcur) hst

theorem Inv.put_count (h : Inv s) (hm : .res src i .stageTwo true a ∈ s.net)
    (hst : (s.nodes i).current = some .announce) (he : a.era = (s.nodes i).era) :
    Inv ((s.take (.res src i .stageTwo true a)).put i
      { s.nodes i with accepted := (s.nodes i).accepted + 1, counted := (s.nodes i).counted ++ [a] } []) := by
  have ht := h.take (.res src i .stageTwo true a)
  have hl : Later ((s.take (.res src i .stageTwo true a)).nodes i)
      { s.nodes i with accepted := (s.nodes i).accepted + 1, counted := (s.nodes i).counted ++ [a] } :=
    .inl ⟨rfl, rfl⟩
  have htaken : (s.take (.res src i .stageTwo true a)).Known (.res src i .stageTwo true a) := (h.net _ hm).congr rfl rfl
  obtain ⟨hmember, hc, hv⟩ := htaken
  refine ht.put hl nofun (forall_mem_append.2 ⟨fun b hb => ?_, forall_mem_singleton.2 ⟨hc, he, hv.put hl⟩⟩)
    (fun j => ?_) (fun k _ j => ?_) (fun _ => ?_)
  · obtain ⟨h1, h2, h3⟩ := ht.counted i b hb
    exact ⟨h1, h2, h3.put hl⟩
  · -- it is counted in place of being in flight
    have ho := h.once i j
    rw [← countP_take hm] at ho
    rw [append_nil, countP_append, countP_singleton]
    have hcon : concerns i j (s.nodes i).era (.res src i .stageTwo true a) = decide (a.member = j) := by
      simp [concerns, he, hmember]
    rw [hcon] at ho
    show (s.take _).net.countP (concerns i j (s.nodes i).era) + _ ≤ 1
    omega
  · rw [append_nil]
    exact ht.once k j
  · rw [length_append, length_singleton, h.number i hst]

theorem Inv.changeTo (h : Inv s) (e : View n) (next : Status) (hn : n ≠ 1) (hnd : s.nodes i = nd) :
    Inv (s.put i (nd.changeTo e i next).1 (nd.changeTo e i next).2.1) ∧
      ((some .announce, .primary) ∈ (nd.changeTo e i next).2.2 →
        nd.current = some .announce ∧ next = .primary ∧ (nd.changeTo e i next).1.counted = nd.counted) := by
  subst hnd
  have hc := changeTo_changeOf e i (s.nodes i) next hn
  generalize (s.nodes i).changeTo e i next = r at hc ⊢
  obtain ⟨nd', sent, moved⟩ := r
  cases hc with
  | stays hcur hk ha => exact ⟨h.put_keeps hk (fun _ => ha) nofun, nofun⟩
  | enters hcur hnext he hann hcounted hs =>
    refine ⟨h.put_minor he hann hcounted (fun hannounce => ?_) hs, fun hm => ?_⟩
    · exact absurd (Option.some.inj (hcur.symm.trans hannounce)) hnext
    · obtain ⟨hf, hto⟩ := Prod.mk.inj (mem_singleton.1 hm)
      exact ⟨hf.symm, hto.symm, hcounted⟩
  | announces view hnext he hann hcounted ha =>
    refine ⟨h.put_announce view he hann hcounted ha, fun hm => ?_⟩
    obtain ⟨-, hto⟩ := Prod.mk.inj (mem_singleton.1 hm)
    rw [hnext] at hto
    cases hto

def Won (s : Group n) : Prop :=
  ∀ i, (i, some .announce, .primary) ∈ s.moved → n < 2 * ((s.nodes i).counted.length + 1)

theorem inv_moved {moved : List (Fin n × Option Status × Status)} (h : Inv s) : Inv { s with moved := moved } :=
  ⟨fun m hm => (h.net m hm).congr rfl rfl,
    fun i a ha => ⟨(h.counted i a ha).1, (h.counted i a ha).2.1, (h.counted i a ha).2.2.congr rfl rfl⟩,
    h.once, h.number⟩

theorem mem_moved_finish {r : Node n × List (Msg n) × List (Option Status × Status)} {c : Option Status × Status}
    (h : (k, c) ∈ (s.finish i r).moved) : k = i ∧ c ∈ r.2.2 := by
  obtain ⟨c', hc, heq⟩ := mem_map.1 h
  obtain ⟨rfl, rfl⟩ := Prod.mk.inj heq
  exact ⟨rfl, hc⟩

theorem inv_finish (hn : n ≠ 1) (sent : List (Msg n)) (next : Status) (h : Inv (s.put i nd sent))
    (hw : nd.current = some .announce → next = .primary → n < 2 * (nd.counted.length + 1))
    (hkeeps : Keeps (nd.changeTo e i next).1 nd') (ha : nd'.accepted = (nd.changeTo e i next).1.accepted) :
    Inv (s.finish i (nd', sent ++ (nd.changeTo e i next).2.1, (nd.changeTo e i next).2.2)) ∧
      Won (s.finish i (nd', sent ++ (nd.changeTo e i next).2.1, (nd.changeTo e i next).2.2)) := by
  obtain ⟨hi, hm⟩ := h.changeTo e next hn nodes_put_self
  rw [put_put] at hi
  constructor
  · have hp : Inv (s.put i nd' (sent ++ (nd.changeTo e i next).2.1)) := by
      have hnode : (s.put i (nd.changeTo e i next).1 (sent ++ (nd.changeTo e i next).2.1)).nodes i =
          (nd.changeTo e i next).1 := nodes_put_self
      have hkeep := hi.put_keeps (hnode.symm ▸ hkeeps) (fun _ => ha.trans (congrArg accepted hnode.symm))
        (forall_mem_nil _)
      rwa [put_put, append_nil] at hkeep
    exact inv_moved hp
  · intro k hk
    obtain ⟨rfl, hc⟩ := mem_moved_finish hk
    obtain ⟨hcur, hnext, hcounted⟩ := hm hc
    have hnode : (s.finish k (nd', sent ++ (nd.changeTo e k next).2.1, (nd.changeTo e k next).2.2)).nodes k = nd' :=
      Function.update_self ..
    rw [hnode, hkeeps.counted, hcounted]
    exact hw hcur hnext

theorem keeps_refl (nd : Node n) : Keeps nd nd := ⟨rfl, rfl, rfl, rfl⟩

theorem inv_finish_idle (h : Inv s) (hk : Keeps (s.nodes i) nd) (ha : nd.accepted = (s.nodes i).accepted) :
    Inv (s.finish i (nd, [], [])) ∧ Won (s.finish i (nd, [], [])) := by
  exact ⟨inv_moved (h.put_keeps hk (fun _ => ha) nofun), nofun⟩

theorem inv_deliver (hn : n ≠ 1) (h : Inv s) (hm : m ∈ s.net) (hf : s.Fresh (.deliver m e)) :
    Inv ((s.take m).finish m.dst ((s.nodes m.dst).handleInput e m.dst m)) ∧
      Won ((s.take m).finish m.dst ((s.nodes m.dst).handleInput e m.dst m)) := by
  unfold handleInput
  split
  next => exact inv_finish_idle (h.take m) (keeps_refl _) rfl
  next st hst =>
    have hi := statusInput_inputOf e m.dst (s.nodes m.dst) st m
    simp only
    generalize (s.nodes m.dst).statusInput e m.dst st m = r at hi ⊢
    obtain ⟨nd', next, sent⟩ := r
    refine inv_finish hn sent next ?_ ?_ (keeps_refl _) rfl
    · cases hi with
      | other hk ha hnext hsent =>
        refine (h.take m).put_keeps hk (fun hc => ?_) hsent
        rw [hk.current, hst] at hc
        exact ha (Option.some.inj hc)
      | accepts hk hs hd =>
        obtain ⟨hsrc, hl⟩ := View.decision_sound hd
        exact h.put_accept hm hk (fun hc => hs (Option.some.inj (hst.symm.trans hc))) hsrc hl
      | counts hs hnext =>
        have hc : (s.nodes _).current = some .announce := hst.trans (congrArg some hs)
        exact h.put_count hm hc (hf hc)
    · intro hc hp
      cases hi with
      | other hk ha hnext hsent =>
        rw [hk.current, hst] at hc
        exact absurd hp (hnext (Option.some.inj hc))
      | accepts hk hs hd =>
        rw [hk.current, hst] at hc
        exact absurd (Option.some.inj hc) hs
      | counts hs hnext =>
        have hsize := hnext hp
        have hnumber := h.number _ (hst.trans (congrArg some hs))
        rw [groupSize_eq] at hsize
        simp only [length_append, length_singleton]
        omega

theorem inv_timeout (hn : n ≠ 1) (h : Inv s) (i : Fin n) (millisec : Nat) :
    Inv (s.finish i ((s.nodes i).handleTimeout e i millisec)) ∧
      Won (s.finish i ((s.nodes i).handleTimeout e i millisec)) := by
  unfold handleTimeout
  split
  next => exact inv_finish_idle h (keeps_refl _) rfl
  next st hst =>
    split
    · exact inv_finish_idle h ⟨rfl, rfl, rfl, rfl⟩ rfl
    obtain ⟨hk, ha⟩ := statusTimeout_spec e i (s.nodes i) st millisec
    simp only
    generalize (s.nodes i).statusTimeout e i st millisec = r at hk ha ⊢
    obtain ⟨nd', next⟩ := r
    have hst' : nd'.current = some .announce → st = .announce := fun hc =>
      Option.some.inj (hst.symm.trans (hk.current.symm.trans hc))
    refine inv_finish hn [] next ?_ ?_ (keeps_refl _) rfl
    · exact h.put_keeps hk (fun hc => (ha (hst' hc)).1) nofun
    · intro hc hp
      have hm := (ha (hst' hc)).2 hp
      have hnumber := h.number i (hk.current ▸ hc)
      rw [groupSize_eq] at hm
      simp only [isMajority, decide_eq_true_eq] at hm
      rw [hk.counted]
      omega

theorem inv_step (hn : n ≠ 1) (h : Inv s) (a : Action n) (hf : s.Fresh a) : Inv (s.step a) ∧ Won (s.step a) := by
  have hs : Inv { s with moved := [] } ∧ Won { s with moved := [] } := ⟨inv_moved h, nofun⟩
  cases a with
  | init i e =>
    simp only [step]
    split
    next hnone =>
      refine inv_finish hn [] .silence ?_ (fun hc => ?_) (keeps_refl _) rfl
      · exact h.put_keeps ⟨rfl, rfl, rfl, rfl⟩ (fun _ => rfl) nofun
      · exact absurd (hnone.symm.trans hc) (by simp)
    next => exact hs
  | deliver m e =>
    simp only [step]
    split
    next hm => exact inv_deliver hn h hm hf
    next => exact hs
  | timeout i millisec e => exact inv_timeout hn h i millisec
  | force i id millis e =>
    have hp : Inv (s.put i (s.nodes i) []) := h.put_keeps (keeps_refl _) (fun _ => rfl) nofun
    refine inv_finish hn [] id hp (fun hc hid => absurd hid (hf hc)) ?_ ?_
    · split <;> exact ⟨rfl, rfl, rfl, rfl⟩
    · split <;> rfl

theorem Inv.nodup_counted (h : Inv s) (i : Fin n) : ((s.nodes i).counted.map Acceptance.member).Nodup := by
  refine nodup_iff_count_le_one.2 fun j => ?_
  have honce := h.once i j
  have hcount : ((s.nodes i).counted.map Acceptance.member).count j =
      (s.nodes i).counted.countP fun a => a.member = j := by
    rw [count, countP_map]
    exact countP_congr fun a _ => by simp
  omega

theorem Inv.backed (h : Inv s) (hw : Won s) (hi : (i, some .announce, .primary) ∈ s.moved) : s.Backed i := by
  refine ⟨(s.nodes i).counted, h.nodup_counted i, hw i hi, fun a ha => ?_⟩
  obtain ⟨rfl, he, hv⟩ := h.counted i a ha
  exact ⟨hv.sent, rfl, hv.other, he, hv.announced he, hv.logEnd⟩

/-- In every run in which no node in `ANNOUNCE` gets an acceptance that answers ballots of an earlier era, a node that
moves from `ANNOUNCE` to `PRIMARY` is backed by a majority. -/
theorem elected_backed {actions : List (Action n)} (h : Meets Fresh step (start n) actions)
    (hi : (i, some .announce, .primary) ∈ (run step (start n) actions).moved) :
    (run step (start n) actions).Backed i := by
  by_cases hn : n = 1
  · subst hn
    exact ⟨[], nodup_nil, by decide, nofun⟩
  · have hinv : Inv (run step (start n) actions) ∧ Won (run step (start n) actions) :=
      run_invariant (I := fun s => Inv s ∧ Won s) (fun _ a h hfresh => inv_step hn h.1 a hfresh)
        ⟨inv_start, nofun⟩ h
    exact hinv.1.backed hinv.2 hi

section Runs

def calm (n : Nat) : View n where
  primary := none
  alive _ := true
  beat _ := ⟨⟨100, 1⟩, 10, 1, .normal⟩
  startupOK := true
  bucketEmpty := true
  needSyncTrans := false
  expectLsn := ⟨100, 1⟩
  weight := 10
  shadowWeight := 1
  sharingBreakTime := 7000
  startShiftTime := -1

-- for the numerals of the runs below
local instance neZero_two : NeZero 2 := ⟨two_ne_zero⟩

def announcing : List (Action 2) :=
  [.init 0 (calm 2), .init 1 (calm 2), .timeout 0 30000 (calm 2), .timeout 1 30000 (calm 2), .timeout 1 3000 (calm 2),
    .deliver (.ballot 1 0 .stageOne ⟨100, 1⟩ 0) (calm 2),
    .deliver (.res 0 1 .stageOne true ⟨0, 1, 0, ⟨100, 1⟩, ⟨100, 1⟩, true⟩) (calm 2),
    .deliver (.ballot 1 0 .stageTwo ⟨100, 1⟩ 1) (calm 2)]

/-- Node 1 gets the acceptance of node 0 and is the primary. -/
theorem elected_backed_by_two :
    let s := run step (start 2) (announcing ++
      [.deliver (.res 0 1 .stageTwo true ⟨0, 1, 1, ⟨100, 1⟩, ⟨100, 1⟩, true⟩) (calm 2)])
    (1, some .announce, .primary) ∈ s.moved ∧ s.Backed 1 :=
  ⟨by decide, elected_backed (by decide) (by decide)⟩

theorem not_backed (hn : 2 ≤ n) (h : ∀ a ∈ s.accepts, a.candidate = i → a.era ≠ (s.nodes i).era) : ¬ s.Backed i := by
  rintro ⟨as, -, hl, ha⟩
  cases as with
  | nil =>
    rw [length_nil] at hl
    omega
  | cons a as =>
    obtain ⟨hs, hc, -, he, -⟩ := ha a mem_cons_self
    exact h a hs hc he

/-- The acceptance arrives when node 1 has given up, has been promised again and has announced itself a second time:
node 1 is the primary, and nobody has answered the ballots of its present era. -/
theorem elected_by_old_acceptance :
    let s := run step (start 2) (announcing ++
      [.timeout 1 3000 (calm 2), .timeout 1 30000 (calm 2), .timeout 1 3000 (calm 2), .timeout 0 30000 (calm 2),
        .deliver (.ballot 1 0 .stageOne ⟨100, 1⟩ 1) (calm 2),
        .deliver (.res 0 1 .stageOne true ⟨0, 1, 1, ⟨100, 1⟩, ⟨100, 1⟩, true⟩) (calm 2),
        .deliver (.res 0 1 .stageTwo true ⟨0, 1, 1, ⟨100, 1⟩, ⟨100, 1⟩, true⟩) (calm 2)])
    (1, some .announce, .primary) ∈ s.moved ∧ ¬ s.Backed 1 :=
  ⟨by decide, not_backed (by decide) (by decide)⟩

end Runs

end Group

end SequoiaDB.Cls
