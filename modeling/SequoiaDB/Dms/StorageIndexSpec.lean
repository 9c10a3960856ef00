import SequoiaDB.Dms.StorageIndex

/-!
# What the index operations do

The merge of `_indexUpdate` makes a list of changes that depends on the two key sets only, and stops somewhere in it.
With the key sets exchanged it makes the opposite changes in the same order.  That is why a rollback from any point
finds the entries of before, if the comparison orders the keys of both objects.
-/

namespace SequoiaDB.Dms.StorageIndex

open List Index Lib

variable {O K E : Type*} {ko : KeyOrder K E} {rid : RID}

/-! ### Plans -/

inductive Change (E : Type*)
  | del (e : E)
  | add (e : E)

open Change

def Change.key : Change E → E
  | del e => e
  | add e => e

def Change.undo : Change E → Change E
  | del e => add e
  | add e => del e

def plan (ko : KeyOrder K E) : Nat → List K → List K → List (Change E)
  | 0, _, _ => []
  | n + 1, a :: as, b :: bs =>
    match ko.woCompare a b with
    | .eq => plan ko n as bs
    | .lt => .del (ko.key a) :: plan ko n as (b :: bs)
    | .gt => .add (ko.key b) :: plan ko n (a :: as) bs
  | n + 1, a :: as, [] => .del (ko.key a) :: plan ko n as []
  | n + 1, [], b :: bs => .add (ko.key b) :: plan ko n [] bs
  | _ + 1, [], [] => []

def Unmatched (ko : KeyOrder K E) (as bs : List K) (e : E) : Prop :=
  ∃ a ∈ as, ko.key a = e ∧ ∀ b ∈ bs, ko.woCompare a b ≠ .eq

/-- Sorted keys from the set `S` -/
structure KeySet (ko : KeyOrder K E) (S : Set K) (ks : List K) : Prop where
  mem : ∀ k ∈ ks, k ∈ S
  pairwise : ks.Pairwise fun a b => ko.woCompare a b = .lt

section Plan

variable {S : Set K} {a b : K} {n : Nat} {as bs : List K} {e : E} {es : Finset (E × RID)}

theorem KeySet.tail (h : KeySet ko S (b :: bs)) : KeySet ko S bs :=
  ⟨fun k hk => h.mem k (mem_cons_of_mem _ hk), (pairwise_cons.1 h.pairwise).2⟩

theorem KeySet.head_lt (h : KeySet ko S (b :: bs)) : ∀ x ∈ bs, ko.woCompare b x = .lt := (pairwise_cons.1 h.pairwise).1

variable (hS : TotalPreorderOn ko.woCompare S)
include hS

theorem KeySet.lt (hb : KeySet ko S (b :: bs)) (ha : a ∈ S) (h : ko.woCompare a b ≠ .gt) :
    ∀ x ∈ bs, ko.woCompare a x = .lt := fun x hx =>
  hS.lt_of_le_of_lt ha (hb.mem b mem_cons_self) (hb.mem x (mem_cons_of_mem _ hx)) h (hb.head_lt x hx)

theorem KeySet.lt_cons (hb : KeySet ko S (b :: bs)) (ha : a ∈ S) (h : ko.woCompare a b = .lt) :
    ∀ x ∈ b :: bs, ko.woCompare a x = .lt :=
  forall_mem_cons.2 ⟨h, hb.lt hS ha (by simp [h])⟩

omit hS in
theorem unmatched_cons : Unmatched ko (a :: as) bs e ↔
    (ko.key a = e ∧ ∀ b ∈ bs, ko.woCompare a b ≠ .eq) ∨ Unmatched ko as bs e := by
  simp [Unmatched]

theorem unmatched_cons_right (hb : b ∈ S) (ha : ∀ a ∈ as, a ∈ S) (h : ∀ a ∈ as, ko.woCompare b a = .lt) :
    Unmatched ko as (b :: bs) e ↔ Unmatched ko as bs e := by
  refine exists_congr fun a => and_congr_right fun ha' => and_congr_right fun _ => ?_
  simp [hS.antisymm b hb a (ha a ha'), h a ha']

theorem eq_of_compare (h : KeySet ko S as) (ha : a ∈ as) (hb : b ∈ as) (heq : ko.woCompare a b = .eq) : a = b := by
  induction as with
  | nil => cases ha
  | cons x as ih =>
    rcases mem_cons.1 ha with rfl | ha' <;> rcases mem_cons.1 hb with rfl | hb'
    · rfl
    · simp [h.head_lt b hb'] at heq
    · simp [hS.antisymm b (h.mem b hb) a (h.mem a ha), h.head_lt a ha'] at heq
    · exact ih h.tail ha' hb'

theorem plan_undo (ha : KeySet ko S as) (hb : KeySet ko S bs) : plan ko n bs as = (plan ko n as bs).map undo := by
  have hswap : ∀ a ∈ as, ∀ b ∈ bs, ko.woCompare b a = (ko.woCompare a b).swap :=
    fun a h b h' => hS.antisymm a (ha.mem a h) b (hb.mem b h')
  fun_induction plan ko n as bs with
  | case1 => simp [plan]
  | case2 n a as b bs heq ih =>
    simp [plan, hswap a mem_cons_self b mem_cons_self, heq, ih ha.tail hb.tail fun x hx y hy =>
      hswap x (mem_cons_of_mem _ hx) y (mem_cons_of_mem _ hy)]
  | case3 n a as b bs hlt ih =>
    simp [plan, hswap a mem_cons_self b mem_cons_self, hlt, undo, ih ha.tail hb fun x hx =>
      hswap x (mem_cons_of_mem _ hx)]
  | case4 n a as b bs hgt ih =>
    simp [plan, hswap a mem_cons_self b mem_cons_self, hgt, undo, ih ha hb.tail fun x hx y hy =>
      hswap x hx y (mem_cons_of_mem _ hy)]
  | case5 n a as ih => simp [plan, undo, ih ha.tail hb (by simp)]
  | case6 n b bs ih => simp [plan, undo, ih ha hb.tail (by simp)]
  | case7 => simp [plan]

theorem mem_plan_del (hn : as.length + bs.length ≤ n) (ha : KeySet ko S as) (hb : KeySet ko S bs) :
    .del e ∈ plan ko n as bs ↔ Unmatched ko as bs e := by
  fun_induction plan ko n as bs with
  | case1 as bs =>
    have has : as = [] := length_eq_zero_iff.1 (by omega)
    simp [has, Unmatched]
  | case2 n a as b bs heq ih =>
    have hab := hS.antisymm a (ha.mem a mem_cons_self) b (hb.mem b mem_cons_self)
    rw [ih (by simp only [length_cons] at hn; omega) ha.tail hb.tail, unmatched_cons]
    -- the matched keys differ from all the others
    rw [unmatched_cons_right hS (hb.mem b mem_cons_self) ha.tail.mem (ha.lt hS (hb.mem b mem_cons_self) (by simp [hab, heq]))]
    simp [heq]
  | case3 n a as b bs hlt ih =>
    have hne : ∀ y ∈ b :: bs, ko.woCompare a y ≠ .eq := fun y hy => by
      simp [hb.lt_cons hS (ha.mem a mem_cons_self) hlt y hy]
    rw [mem_cons, ih (by simp only [length_cons] at hn ⊢; omega) ha.tail hb, unmatched_cons,
      and_iff_left hne, del.injEq, eq_comm]
  | case4 n a as b bs hgt ih =>
    have hba : ko.woCompare b a = .lt := by simp [hS.antisymm a (ha.mem a mem_cons_self) b (hb.mem b mem_cons_self), hgt]
    have hbS := hb.mem b mem_cons_self
    rw [mem_cons, ih (by simp only [length_cons] at hn ⊢; omega) ha hb.tail,
      unmatched_cons_right hS hbS ha.mem (ha.lt_cons hS hbS hba)]
    simp
  | case5 n a as ih =>
    rw [mem_cons, ih (by simp only [length_cons] at hn; omega) ha.tail hb]
    simp [Unmatched, eq_comm]
  | case6 n b bs ih =>
    rw [mem_cons, ih (by simp only [length_cons] at hn; omega) ha hb.tail]
    simp [Unmatched]
  | case7 => simp [Unmatched]

theorem mem_plan_add (hn : as.length + bs.length ≤ n) (ha : KeySet ko S as) (hb : KeySet ko S bs) :
    .add e ∈ plan ko n as bs ↔ Unmatched ko bs as e := by
  rw [← mem_plan_del hS (show bs.length + as.length ≤ n by omega) hb ha, plan_undo hS ha hb, mem_map]
  constructor
  · exact fun h => ⟨_, h, rfl⟩
  · rintro ⟨c, hc, heq⟩
    cases c with
    | del e' => cases heq
    | add e' =>
      cases heq
      exact hc

variable {c : Change E}

omit hS in
theorem key_of_mem_plan (h : c ∈ plan ko n as bs) : ∃ x, (x ∈ as ∨ x ∈ bs) ∧ ko.key x = c.key := by
  fun_induction plan ko n as bs with
  | case1 => cases h
  | case2 n a as b bs heq ih =>
    obtain ⟨x, hx, hk⟩ := ih h
    exact ⟨x, hx.imp (mem_cons_of_mem _) (mem_cons_of_mem _), hk⟩
  | case3 n a as _ _ _ ih | case5 n a as ih =>
    rcases mem_cons.1 h with rfl | h
    · exact ⟨a, .inl mem_cons_self, rfl⟩
    · obtain ⟨x, hx, hk⟩ := ih h
      exact ⟨x, hx.imp_left (mem_cons_of_mem _), hk⟩
  | case4 n _ _ b bs _ ih | case6 n b bs ih =>
    rcases mem_cons.1 h with rfl | h
    · exact ⟨b, .inr mem_cons_self, rfl⟩
    · obtain ⟨x, hx, hk⟩ := ih h
      exact ⟨x, hx.imp_right (mem_cons_of_mem _), hk⟩
  | case7 => cases h

omit hS in
theorem key_ne_of_lt {a : K} (has : ∀ x ∈ as, ko.woCompare a x = .lt) (hbs : ∀ x ∈ bs, ko.woCompare a x = .lt)
    (h : c ∈ plan ko n as bs) : ko.key a ≠ c.key := by
  obtain ⟨x, hx, hk⟩ := key_of_mem_plan h
  intro heq
  have hlt := hx.elim (has x) (hbs x)
  rw [ko.compare_of_key a x (heq.trans hk.symm)] at hlt
  cases hlt

theorem plan_pairwise (ha : KeySet ko S as) (hb : KeySet ko S bs) :
    (plan ko n as bs).Pairwise fun c c' => c.key ≠ c'.key := by
  fun_induction plan ko n as bs with
  | case1 => exact .nil
  | case2 n a as b bs heq ih => exact ih ha.tail hb.tail
  | case3 n a as b bs hlt ih =>
    have hlt' := hb.lt_cons hS (ha.mem a mem_cons_self) hlt
    exact .cons (fun c hc => key_ne_of_lt ha.head_lt hlt' hc) (ih ha.tail hb)
  | case4 n a as b bs hgt ih =>
    have hlt' := ha.lt_cons hS (hb.mem b mem_cons_self)
      (by simp [hS.antisymm a (ha.mem a mem_cons_self) b (hb.mem b mem_cons_self), hgt])
    exact .cons (fun c hc => key_ne_of_lt hlt' hb.head_lt hc) (ih ha hb.tail)
  | case5 n a as ih => exact .cons (fun c hc => key_ne_of_lt ha.head_lt (by simp) hc) (ih ha.tail hb)
  | case6 n b bs ih => exact .cons (fun c hc => key_ne_of_lt (by simp) hb.head_lt hc) (ih ha hb.tail)
  | case7 => exact .nil

/-- The entries of `rid` are those that the changes expect. -/
structure Ready (rid : RID) (es : Finset (E × RID)) (cs : List (Change E)) : Prop where
  pairwise : cs.Pairwise fun c c' => c.key ≠ c'.key
  del : ∀ e, .del e ∈ cs → (e, rid) ∈ es
  add : ∀ e, .add e ∈ cs → (e, rid) ∉ es

omit hS in
theorem Ready.tail {c : Change E} {cs : List (Change E)} (h : Ready rid es (c :: cs)) : Ready rid es cs :=
  ⟨(pairwise_cons.1 h.pairwise).2, fun e he => h.del e (mem_cons_of_mem _ he),
    fun e he => h.add e (mem_cons_of_mem _ he)⟩

def KeysAt (ko : KeyOrder K E) (es : Finset (E × RID)) (rid : RID) (ks : List K) : Prop :=
  ∀ e, (e, rid) ∈ es ↔ ∃ k ∈ ks, ko.key k = e

theorem ready_plan (h : KeysAt ko es rid as) (ha : KeySet ko S as) (hb : KeySet ko S bs) :
    Ready rid es (plan ko (as.length + bs.length) as bs) := by
  refine ⟨plan_pairwise hS ha hb, fun e he => ?_, fun e he hin => ?_⟩
  · obtain ⟨a, ha', hk, -⟩ := (mem_plan_del hS le_rfl ha hb).1 he
    exact (h e).2 ⟨a, ha', hk⟩
  · obtain ⟨b, -, rfl, hne⟩ := (mem_plan_add hS le_rfl ha hb).1 he
    obtain ⟨a, ha', hk⟩ := (h _).1 hin
    exact hne a ha' (ko.compare_of_key b a hk.symm)

end Plan

/-! ### The loop over the indexes -/

variable {f : Index ko O → Rc × Index ko O} {ixs ixs' : List (Index ko O)}

theorem eachIndex_forall₂ {Q : Index ko O → Index ko O → Prop}
    (h : ∀ ix ∈ ixs, Q ix ix ∧ Q ix (f ix).2) : List.Forall₂ Q ixs (eachIndex f ixs).2 := by
  induction ixs with
  | nil => exact .nil
  | cons ix ixs ih =>
    have hr : List.Forall₂ Q ixs ixs := forall₂_same.2 fun ix' hix' => (h ix' (mem_cons_of_mem _ hix')).1
    have hh := (h ix mem_cons_self).2
    unfold eachIndex
    split
    · next ix' heq =>
      rw [heq] at hh
      exact .cons hh (ih fun ix' hix' => h ix' (mem_cons_of_mem _ hix'))
    · next rc ix' _ heq =>
      rw [heq] at hh
      exact .cons hh hr

theorem eachIndex_ok (h : eachIndex f ixs = (.ok, ixs')) :
    List.Forall₂ (fun ix ix' => f ix = (.ok, ix')) ixs ixs' := by
  induction ixs generalizing ixs' with
  | nil =>
    cases h
    exact .nil
  | cons ix ixs ih =>
    unfold eachIndex at h
    split at h
    · next ix' heq =>
      obtain ⟨hrc, rfl⟩ := Prod.mk.inj h
      exact .cons heq (ih (Prod.ext hrc rfl))
    · next rc ix' hne heq =>
      obtain ⟨rfl, -⟩ := Prod.mk.inj h
      exact (hne rfl).elim

theorem eachIndex_of_forall₂
    (h : List.Forall₂ (fun ix ix' => f ix' = (.ok, ix)) ixs ixs') : eachIndex f ixs' = (.ok, ixs) := by
  induction h with
  | nil => rfl
  | cons hix _ ih => simp [eachIndex, hix, ih]

/-! ### Executing a plan -/

variable [DecidableEq E] {ix : Index ko O} {es : Finset (E × RID)}

def Change.apply (rid : RID) (es : Finset (E × RID)) : Change E → Finset (E × RID)
  | del e => es.erase (e, rid)
  | add e => insert (e, rid) es

def applyAll (rid : RID) (es : Finset (E × RID)) (cs : List (Change E)) : Finset (E × RID) :=
  cs.foldl (apply rid) es

def Index.exec (ix : Index ko O) (rid : RID) (isRollback : Bool) :
    List (Change E) → Finset (E × RID) → Rc × Finset (E × RID)
  | [], es => (.ok, es)
  | .del e :: cs, es => dropOriginal rid isRollback e es (ix.exec rid isRollback cs)
  | .add e :: cs, es => ix.addNew rid isRollback e es (ix.exec rid isRollback cs)

theorem Index.updateLoop_eq (ix : Index ko O) (undo : Bool) (n : Nat) (as bs : List K) :
    ix.updateLoop rid undo n as bs = ix.exec rid undo (plan ko n as bs) := by
  fun_induction plan ko n as bs <;> funext es
  case case1 => rfl
  case case2 n a as b bs heq ih => simp [updateLoop, heq, ih]
  case case3 n a as b bs hlt ih => simp [updateLoop, hlt, Index.exec, ih]
  case case4 n a as b bs hgt ih => simp [updateLoop, hgt, Index.exec, ih]
  case case5 n a as ih => simp [updateLoop, Index.exec, ih]
  case case6 n b bs ih => simp [updateLoop, Index.exec, ih]
  case case7 => rfl

/-- What every index keeps: keys have a legal size, and a unique index has no key twice. -/
structure Index.Valid (ix : Index ko O) (es : Finset (E × RID)) : Prop where
  pos : ∀ x ∈ es, 0 < ko.dataSize x.1
  lt : ∀ x ∈ es, ko.dataSize x.1 < IXM_KEY_MAX_SIZE
  unique : ix.unique → ∀ x ∈ es, ∀ y ∈ es, x.1 = y.1 → (ix.enforced ∨ ko.isUndefined x.1 = false) → x = y

variable {e : E} {es' : Finset (E × RID)}

theorem insertKey_ok (h : ix.insertKey rid e es = (.ok, es')) :
    es' = insert (e, rid) es ∧ (e, rid) ∉ es ∧ 0 < ko.dataSize e ∧ ko.dataSize e < IXM_KEY_MAX_SIZE ∧
      (ix.unique → (ix.enforced ∨ ko.isUndefined e = false) → ∀ x ∈ es, x.1 ≠ e) := by
  unfold Index.insertKey at h
  split_ifs at h with h1 h2 h3 h4 <;> cases h
  refine ⟨rfl, h3, by omega, by omega, fun hu he x hx heq => h4 ⟨hu, he, x, hx, heq⟩⟩

theorem Index.Valid.insertKey (hv : ix.Valid es) (h : ix.insertKey rid e es = (.ok, es')) : ix.Valid es' := by
  obtain ⟨rfl, hne, hp, hlt, huniq⟩ := insertKey_ok h
  constructor
  · exact (Finset.forall_mem_insert ..).2 ⟨hp, hv.pos⟩
  · exact (Finset.forall_mem_insert ..).2 ⟨hlt, hv.lt⟩
  · intro hu x hx y hy heq hund
    rcases Finset.mem_insert.1 hx with rfl | hx <;> rcases Finset.mem_insert.1 hy with rfl | hy
    · rfl
    · exact absurd heq.symm (huniq hu hund y hy)
    · exact absurd heq (huniq hu (by rw [← show x.1 = e from heq]; exact hund) x hx)
    · exact hv.unique hu x hx y hy heq hund

theorem insertKey_eq_ok (ix : Index ko O) (hne : (e, rid) ∉ es) (hpos : 0 < ko.dataSize e)
    (hlt : ko.dataSize e < IXM_KEY_MAX_SIZE)
    (hu : ix.unique → (ix.enforced ∨ ko.isUndefined e = false) → ∀ x ∈ es, x.1 ≠ e) :
    ix.insertKey rid e es = (.ok, insert (e, rid) es) := by
  unfold Index.insertKey
  rw [if_neg (by omega), if_neg (by omega), if_neg hne, if_neg]
  rintro ⟨h1, h2, x, hx, heq⟩
  exact hu h1 h2 x hx heq

variable {rc : Rc}

theorem insertKey_failed (h : ix.insertKey rid e es = (rc, es')) (hrc : rc ≠ .ok) : es' = es := by
  unfold Index.insertKey at h
  split_ifs at h <;> cases h <;> first | rfl | exact absurd rfl hrc

theorem insertKey_identical (ix : Index ko O) (he : (e, rid) ∈ es) (hpos : 0 < ko.dataSize e)
    (hlt : ko.dataSize e < IXM_KEY_MAX_SIZE) : ix.insertKey rid e es = (.ixmIdenticalKey, es) := by
  unfold Index.insertKey
  rw [if_neg (by omega), if_neg (by omega), if_pos he]

variable {next : Finset (E × RID) → Rc × Finset (E × RID)}

theorem addNew_of_ok (undo : Bool) (h : ix.insertKey rid e es = (.ok, es')) :
    ix.addNew rid undo e es next = next es' := by
  unfold addNew
  rw [h]

theorem addNew_of_failed (undo : Bool) (h : ix.insertKey rid e es = (rc, es')) (hrc : rc ≠ .ok) :
    ix.addNew rid undo e es next = if rc = .ixmIdenticalKey && undo then (.ok, es') else (rc, es') := by
  unfold addNew
  rw [h]
  cases rc <;> first | rfl | exact absurd rfl hrc

variable {cs : List (Change E)} {x : E × RID}

theorem mem_applyAll_of_key_ne (h : x.2 = rid → ∀ c ∈ cs, x.1 ≠ c.key) : x ∈ applyAll rid es cs ↔ x ∈ es := by
  induction cs generalizing es with
  | nil => rfl
  | cons c cs ih =>
    have hx : ∀ e, c.key = e → x ≠ (e, rid) := by
      rintro e rfl rfl
      exact h rfl c mem_cons_self rfl
    rw [applyAll, foldl_cons, ← applyAll, ih fun heq c' hc' => h heq c' (mem_cons_of_mem _ hc')]
    cases c with
    | del e | add e => simp [apply, hx e rfl]

theorem applyAll_comm {c : Change E} (h : ∀ c' ∈ cs, c.key ≠ c'.key) :
    applyAll rid (c.apply rid es) cs = c.apply rid (applyAll rid es cs) := by
  induction cs generalizing es with
  | nil => rfl
  | cons c' cs ih =>
    have hne := h c' mem_cons_self
    have hc : apply rid (c.apply rid es) c' = c.apply rid (c'.apply rid es) := by
      ext x
      cases c <;> cases c' <;> simp only [apply, key] at hne ⊢ <;>
        simp only [Finset.mem_insert, Finset.mem_erase] <;> grind
    rw [applyAll, foldl_cons, hc, ← applyAll, ih fun c'' hc'' => h c'' (mem_cons_of_mem _ hc'')]
    rfl

theorem Index.exec_update (rid : RID) (cs : List (Change E)) (hv : ix.Valid es) :
    ∃ ps qs, cs = ps ++ qs ∧ (ix.exec rid false cs es).2 = applyAll rid es ps ∧
      ((ix.exec rid false cs es).1 = .ok → qs = [] ∧ ix.Valid (applyAll rid es ps)) := by
  induction cs generalizing es with
  | nil => exact ⟨[], [], rfl, rfl, fun _ => ⟨rfl, hv⟩⟩
  | cons c cs ih =>
    cases c with
    | del e =>
      have hv' : ix.Valid (es.erase (e, rid)) :=
        ⟨fun x hx => hv.pos x (Finset.mem_of_mem_erase hx), fun x hx => hv.lt x (Finset.mem_of_mem_erase hx),
          fun hu x hx y hy => hv.unique hu x (Finset.mem_of_mem_erase hx) y (Finset.mem_of_mem_erase hy)⟩
      obtain ⟨ps, qs, hcs, hes, hok⟩ := ih hv'
      refine ⟨.del e :: ps, qs, by rw [hcs]; rfl, ?_⟩
      simpa [Index.exec, dropOriginal, unindexKey, applyAll, apply] using ⟨hes, hok⟩
    | add e =>
      rcases hr : ix.insertKey rid e es with ⟨rc, es'⟩
      by_cases hrc : rc = .ok
      · subst hrc
        obtain ⟨ps, qs, hcs, hes, hok⟩ := ih (hv.insertKey hr)
        obtain ⟨rfl, -⟩ := insertKey_ok hr
        refine ⟨.add e :: ps, qs, by rw [hcs]; rfl, ?_⟩
        rw [Index.exec, addNew_of_ok false hr]
        exact ⟨hes, hok⟩
      · refine ⟨[], .add e :: cs, rfl, ?_⟩
        rw [Index.exec, addNew_of_failed false hr hrc, insertKey_failed hr hrc]
        simpa [applyAll] using fun h => absurd h hrc

theorem Index.exec_rollback (ps qs : List (Change E)) (hv : ix.Valid es) (hr : Ready rid es (ps ++ qs)) :
    ix.exec rid true ((ps ++ qs).map undo) (applyAll rid es ps) = (.ok, es) := by
  induction ps with
  | nil =>
    cases qs with
    | nil => rfl
    | cons c qs =>
      cases c with
      | del e =>
        have he := hr.del e mem_cons_self
        have hi := insertKey_identical ix he (hv.pos _ he) (hv.lt _ he)
        simp [undo, Index.exec, applyAll, addNew_of_failed true hi]
      | add e =>
        have he := hr.add e mem_cons_self
        simp [undo, Index.exec, applyAll, dropOriginal, unindexKey, he]
  | cons c ps ih =>
    have hk := (pairwise_cons.1 hr.pairwise).1
    have hc : ∀ c' ∈ ps, c.key ≠ c'.key := fun c' hc' => hk c' (mem_append_left _ hc')
    have ho : ∀ e, c.key = e → ((e, rid) ∈ applyAll rid es ps ↔ (e, rid) ∈ es) := by
      rintro e rfl
      exact mem_applyAll_of_key_ne fun _ => hc
    rw [show applyAll rid es (c :: ps) = c.apply rid (applyAll rid es ps) from applyAll_comm hc]
    cases c with
    | del e =>
      have he := hr.del e mem_cons_self
      have hin := (ho e rfl).2 he
      -- the key is free: another record with it would have been a duplicate before
      have hf : ix.unique → (ix.enforced ∨ ko.isUndefined e = false) →
          ∀ x ∈ (applyAll rid es ps).erase (e, rid), x.1 ≠ e := by
        intro hu hund x hx heq
        obtain ⟨hne, hx⟩ := Finset.mem_erase.1 hx
        have hx' : x ∈ es := by
          refine (mem_applyAll_of_key_ne fun hxr => ?_).1 hx
          exact absurd (Prod.ext heq hxr) hne
        exact hne (hv.unique hu x hx' _ he heq (by rw [heq]; exact hund))
      have hi := insertKey_eq_ok ix (Finset.notMem_erase (e, rid) (applyAll rid es ps)) (hv.pos _ he) (hv.lt _ he) hf
      rw [Finset.insert_erase hin] at hi
      simp only [cons_append, map_cons, undo, Index.exec, apply]
      rw [addNew_of_ok true hi]
      exact ih hr.tail
    | add e =>
      have he := hr.add e mem_cons_self
      have hout := fun h => he ((ho e rfl).1 h)
      simp only [cons_append, map_cons, undo, Index.exec, apply, dropOriginal, unindexKey]
      rw [Finset.erase_insert hout]
      simpa using ih hr.tail

/-! ### Updating one index -/

/-- The comparison orders the keys of both objects. -/
def Index.Ordered (ix : Index ko O) (originalObj newObj : O) : Prop :=
  TotalPreorderOn ko.woCompare {k | k ∈ ix.keys originalObj ∨ k ∈ ix.keys newObj}

def Index.updatePlan (ix : Index ko O) (originalObj newObj : O) : List (Change E) :=
  plan ko ((ix.keys originalObj).length + (ix.keys newObj).length) (ix.keys originalObj) (ix.keys newObj)

theorem Index.indexUpdate_eq (ix : Index ko O) (rid : RID) (undo : Bool) (obj newObj : O) :
    ix.indexUpdate rid undo obj newObj = ((ix.exec rid undo (ix.updatePlan obj newObj) ix.entries).1,
        { ix with entries := (ix.exec rid undo (ix.updatePlan obj newObj) ix.entries).2 }) := by
  simp only [indexUpdate, updateLoop_eq]
  rfl

def Index.Partial (ix : Index ko O) (rid : RID) (originalObj newObj : O) (ix' : Index ko O) : Prop :=
  ∃ ps qs, ix.updatePlan originalObj newObj = ps ++ qs ∧ ix' = { ix with entries := applyAll rid ix.entries ps }

variable {ix' : Index ko O} {obj newObj : O}

omit [DecidableEq E] in
theorem Index.Ordered.keySets (h : ix.Ordered obj newObj) :
    KeySet ko {k | k ∈ ix.keys obj ∨ k ∈ ix.keys newObj} (ix.keys obj) ∧
      KeySet ko {k | k ∈ ix.keys obj ∨ k ∈ ix.keys newObj} (ix.keys newObj) :=
  ⟨⟨fun _ => .inl, ix.sorted obj (h.mono fun _ => .inl)⟩, fun _ => .inr, ix.sorted newObj (h.mono fun _ => .inr)⟩

theorem Index.Partial.rollback (h : ix.Partial rid obj newObj ix') (hord : ix.Ordered obj newObj)
    (hv : ix.Valid ix.entries) (hk : KeysAt ko ix.entries rid (ix.keys obj)) :
    ix'.indexUpdate rid true newObj obj = (.ok, ix) := by
  obtain ⟨ps, qs, hp, rfl⟩ := h
  obtain ⟨ho, hn⟩ := hord.keySets
  have hr : Ready rid ix.entries (ps ++ qs) := by
    rw [← hp]
    exact ready_plan hord hk ho hn
  have hv' : Index.Valid { ix with entries := applyAll rid ix.entries ps } ix.entries := ⟨hv.pos, hv.lt, hv.unique⟩
  have hu : ix.updatePlan newObj obj = (ps ++ qs).map undo := by
    rw [← hp, updatePlan, Nat.add_comm, plan_undo hord ho hn]
    rfl
  have he := exec_rollback ps qs hv' hr
  rw [← hu] at he
  rw [indexUpdate_eq]
  exact congrArg (fun r => (r.1, { ix with entries := r.2 })) he

theorem Index.insertKeys_spec (rid : RID) (ks : List K) (hv : ix.Valid es) :
    ix.Valid (ix.insertKeys rid ks es).2 ∧ es ⊆ (ix.insertKeys rid ks es).2 ∧
      (∀ x ∈ (ix.insertKeys rid ks es).2, x ∈ es ∨ ∃ k ∈ ks, x = (ko.key k, rid)) ∧
      ((ix.insertKeys rid ks es).1 = .ok → ∀ k ∈ ks, (ko.key k, rid) ∈ (ix.insertKeys rid ks es).2) := by
  induction ks generalizing es with
  | nil => exact ⟨hv, subset_rfl, fun x hx => .inl hx, by simp⟩
  | cons k ks ih =>
    rcases hr : ix.insertKey rid (ko.key k) es with ⟨rc, es'⟩
    by_cases hrc : rc = .ok
    · subst hrc
      obtain ⟨hv', hs, hn, hok⟩ := ih (hv.insertKey hr)
      obtain ⟨rfl, -⟩ := insertKey_ok hr
      rw [insertKeys, hr, andThen_ok]
      refine ⟨hv', fun x hx => hs (Finset.mem_insert_of_mem hx), fun x hx => ?_, fun h x hx => ?_⟩
      · rcases hn x hx with hx | ⟨k', hk', rfl⟩
        · rcases Finset.mem_insert.1 hx with rfl | hx
          · exact .inr ⟨k, mem_cons_self, rfl⟩
          · exact .inl hx
        · exact .inr ⟨k', mem_cons_of_mem _ hk', rfl⟩
      · rcases mem_cons.1 hx with rfl | hx
        · exact hs (Finset.mem_insert_self ..)
        · exact hok h x hx
    · have heq : ix.insertKeys rid (k :: ks) es = (rc, es) := by
        rw [insertKeys, hr, insertKey_failed hr hrc, andThen_of_ne hrc]
      rw [heq]
      exact ⟨hv, subset_rfl, fun x hx => .inl hx, fun h => absurd h hrc⟩

theorem mem_deleteKeys {ks : List K} : x ∈ deleteKeys ko rid ks es ↔ x ∈ es ∧ ∀ k ∈ ks, x ≠ (ko.key k, rid) := by
  induction ks generalizing es with
  | nil => simp [deleteKeys]
  | cons k ks ih =>
    rw [deleteKeys, ih]
    simp only [unindexKey, Finset.mem_erase, mem_cons, forall_eq_or_imp]
    tauto

theorem Index.deleteKeys_insertKeys (ks : List K) (hv : ix.Valid es) (hn : ∀ e, (e, rid) ∉ es) :
    deleteKeys ko rid ks (ix.insertKeys rid ks es).2 = es := by
  obtain ⟨-, hs, ha, -⟩ := ix.insertKeys_spec rid ks hv
  ext x
  rw [mem_deleteKeys]
  constructor
  · rintro ⟨hx, hne⟩
    rcases ha x hx with hx | ⟨k, hk, heq⟩
    · exact hx
    · exact absurd heq (hne k hk)
  · refine fun hx => ⟨hs hx, ?_⟩
    rintro k - rfl
    exact hn _ hx

/-! ### All indexes -/

theorem indexesDelete_indexesInsert {obj : O} (h : ∀ ix ∈ ixs, ix.Valid ix.entries ∧ ∀ e, (e, rid) ∉ ix.entries) :
    (indexSU ko O).indexesDelete ((indexSU ko O).indexesInsert ixs obj rid).2 obj rid = (.ok, ixs) := by
  refine eachIndex_of_forall₂ (eachIndex_forall₂ fun ix hix => ?_)
  obtain ⟨hv, hn⟩ := h ix hix
  have hs : deleteKeys ko rid (ix.keys obj) ix.entries = ix.entries := by
    ext x
    rw [mem_deleteKeys]
    refine ⟨And.left, fun hx => ⟨hx, ?_⟩⟩
    rintro k - rfl
    exact hn _ hx
  constructor
  · exact congrArg (fun es => (Rc.ok, { ix with entries := es })) hs
  · exact congrArg (fun es => (Rc.ok, { ix with entries := es })) (ix.deleteKeys_insertKeys (ix.keys obj) hv hn)

end SequoiaDB.Dms.StorageIndex
