import Ns2.Diffusion.AttributeOrder
import Ns2.Lib.Search

/-! `MatchAttrs`: an attribute with an operator is looked for in the other vector. -/

namespace Ns2

open Search

namespace NRAttribute

variable {rest : List NRAttribute}

/-- The first attribute of the key, and those behind it. -/
def findKeyFrom (key : UInt32) : List NRAttribute → Option (NRAttribute × List NRAttribute)
  | [] => none
  | b :: vec => if b.key = key then some (b, vec) else findKeyFrom key vec

/-- The loop over the attributes of the key of `a`, up to one that the test is for. -/
def search (a : NRAttribute) (test : NRAttribute → Option Bool) : ℕ → List NRAttribute → Option Bool
  | 0, _ => none
  | fuel + 1, vec =>
    match findKeyFrom a.key vec with
    | none => some false
    | some (b, vec) => do
      if ← test b then some true else search a test fuel vec

/-- Whether `b`, of the key of `a`, is what the operator of `a` asks for. -/
def isMatch (a b : NRAttribute) : Option Bool :=
  if b.op ≠ isOp then some false
  else if a.op = eqAnyOp then some true
  else if a.op = eqOp then b.isEQ a
  else if a.op = gtOp then b.isGT a
  else if a.op = geOp then b.isGE a
  else if a.op = ltOp then b.isLT a
  else if a.op = leOp then b.isLE a
  else if a.op = neOp then b.isNE a
  else some false

/-- A test of the attributes of the key of `a`, as a test of all. -/
def ofKey (a : NRAttribute) (test : NRAttribute → Option Bool) (b : NRAttribute) : Option Bool :=
  if b.key = a.key then test b else some false

variable {a b : NRAttribute} {test : NRAttribute → Option Bool} {vec : List NRAttribute}

theorem anyM_of_findKeyFrom_none (h : findKeyFrom a.key vec = none) :
    vec.anyM (ofKey a test) = some false := by
  induction vec with
  | nil => rfl
  | cons b vec ih =>
    rw [findKeyFrom] at h
    split_ifs at h with hkey
    rw [List.anyM_cons, ofKey, if_neg hkey]
    exact ih h

theorem anyM_of_findKeyFrom_some (h : findKeyFrom a.key vec = some (b, rest)) :
    vec.anyM (ofKey a test) =
      (test b).bind fun r => if r then some true else rest.anyM (ofKey a test) := by
  induction vec with
  | nil => simp [findKeyFrom] at h
  | cons c vec ih =>
    rw [findKeyFrom] at h
    rw [List.anyM_cons, ofKey]
    split_ifs at h ⊢ with hkey
    · obtain ⟨rfl, rfl⟩ := Prod.mk.inj (Option.some.inj h)
      rcases test c with _ | _ | _ <;> rfl
    · exact ih h

theorem length_findKeyFrom {key : UInt32} (h : findKeyFrom key vec = some (b, rest)) :
    rest.length < vec.length := by
  induction vec with
  | nil => simp [findKeyFrom] at h
  | cons c vec ih =>
    rw [findKeyFrom] at h
    split_ifs at h with hkey
    · obtain ⟨rfl, rfl⟩ := Prod.mk.inj (Option.some.inj h)
      simp
    · exact (ih h).trans (Nat.lt_succ_self _)

theorem search_eq (a : NRAttribute) (test : NRAttribute → Option Bool) {fuel : ℕ}
    (h : vec.length < fuel) : search a test fuel vec = vec.anyM (ofKey a test) := by
  induction fuel generalizing vec with
  | zero => omega
  | succ fuel ih =>
    rw [search]
    rcases hfind : findKeyFrom a.key vec with _ | ⟨b, rest⟩
    · exact (anyM_of_findKeyFrom_none hfind).symm
    · have hlen := length_findKeyFrom hfind
      rw [anyM_of_findKeyFrom_some hfind]
      simp only [ih (show rest.length < fuel by omega), Option.bind_eq_bind]

end NRAttribute

open NRAttribute

def oneWayMatch (attrVec1 attrVec2 : List NRAttribute) : Option Bool :=
  attrVec1.allM fun a =>
    if a.op = isOp then some true else a.search a.isMatch (attrVec2.length + 1) attrVec2

def matchAttrs (attrVec1 attrVec2 : List NRAttribute) : Option Bool := do
  if ← oneWayMatch attrVec1 attrVec2 then oneWayMatch attrVec2 attrVec1 else some false

namespace NRAttribute

variable {a b : NRAttribute}

/-- The value of `b` satisfies the operator of `a`. -/
def OpHolds (a b : NRAttribute) : Prop :=
  a.op = eqAnyOp ∨ a.op = eqOp ∧ Same b a ∨ a.op = gtOp ∧ Less a b ∨
    a.op = geOp ∧ (Less a b ∨ Same b a) ∨ a.op = ltOp ∧ Less b a ∨
    a.op = leOp ∧ (Less b a ∨ Same b a) ∨ a.op = neOp ∧ ¬Same b a

/-- `b` is an attribute that `a` asks for. -/
def Satisfies (a b : NRAttribute) : Prop :=
  b.op = isOp ∧ b.key = a.key ∧ b.type = a.type ∧ OpHolds a b

/-- The values have to be compared, but are of two types. -/
def Clash (a b : NRAttribute) : Prop :=
  b.op = isOp ∧ b.key = a.key ∧ b.type ≠ a.type ∧ a.op ∈ [eqOp, gtOp, geOp, ltOp, leOp, neOp]

/-- A value of another type where any is asked for, a string that is less where a greater one is, a
blob that is the beginning of a longer one that it should not be less than, and what is not a number
where a lesser one is. -/
def WronglyAccepted (a b : NRAttribute) : Prop :=
  b.op = isOp ∧ b.key = a.key ∧ (b.type ≠ a.type ∧ a.op = eqAnyOp ∨ b.type = a.type ∧
    (a.type = stringType ∧ a.op = gtOp ∧ Less b a ∨
      a.type = blobType ∧ a.op = geOp ∧ ProperPrefix b a ∨
      (a.value = none ∨ b.value = none) ∧ (a.op = ltOp ∨ a.op = leOp)))

/-- A lesser string where a lesser or equal one is asked for, and a blob that is the beginning of a
longer one that it should be less than. -/
def WronglyRejected (a b : NRAttribute) : Prop :=
  b.op = isOp ∧ b.key = a.key ∧ b.type = a.type ∧
    (a.type = stringType ∧ a.op = leOp ∧ Less b a ∨ a.type = blobType ∧ a.op = ltOp ∧ ProperPrefix b a)

/-- `b` is an attribute that the code takes for one that `a` asks for. -/
def Accepts (a b : NRAttribute) : Prop :=
  Satisfies a b ∧ ¬WronglyRejected a b ∨ WronglyAccepted a b

/-- Values are in order, unless one is not a number. -/
inductive Ordered (a b : NRAttribute) : Prop
  | less (hl : Less a b) (hs : ¬Same b a) (hg : ¬Less b a)
  | same (hl : ¬Less a b) (hs : Same b a) (hg : ¬Less b a)
  | greater (hl : ¬Less a b) (hs : ¬Same b a) (hg : Less b a)

theorem ordered_iff : Ordered a b ↔ ¬(a.value = none ∨ b.value = none) := by
  constructor
  · rintro (⟨⟨x, hx, y, hy, -⟩, -, -⟩ | ⟨-, ⟨y, hy, x, hx, -⟩, -⟩ | ⟨-, -, ⟨y, hy, x, hx, -⟩⟩) <;>
      simp [Option.mem_def.1 hx, Option.mem_def.1 hy]
  · intro h
    obtain ⟨ha, hb⟩ := not_or.1 h
    obtain ⟨x, hx⟩ := Option.ne_none_iff_exists'.1 ha
    obtain ⟨y, hy⟩ := Option.ne_none_iff_exists'.1 hb
    have hsame := same_iff hy hx
    have hless := less_iff hx hy
    have hgreater := less_iff hy hx
    rcases lt_trichotomy x y with hxy | hxy | hxy
    · exact .less (hless.2 hxy) (mt hsame.1 hxy.ne') (mt hgreater.1 hxy.not_gt)
    · exact .same (mt hless.1 hxy.not_lt) (hsame.2 hxy.symm) (mt hgreater.1 hxy.not_gt)
    · exact .greater (mt hless.1 hxy.not_gt) (mt hsame.1 hxy.ne) (hgreater.2 hxy)

theorem not_less_of_none (h : a.value = none ∨ b.value = none) : ¬Less a b := by
  rintro ⟨x, hx, y, hy, -⟩
  simp [Option.mem_def.1 hx, Option.mem_def.1 hy] at h

theorem not_same_of_none (h : a.value = none ∨ b.value = none) : ¬Same a b := by
  rintro ⟨x, hx, y, hy, -⟩
  simp [Option.mem_def.1 hx, Option.mem_def.1 hy] at h

theorem value_ne_none (h : a.type = stringType ∨ a.type = blobType) : a.value ≠ none := by
  rcases h with h | h <;> rw [value, h] <;> exact Option.some_ne_none _

theorem less_of_properPrefix (ha : a.type = blobType) (hb : b.type = blobType)
    (h : ProperPrefix a b) : Less a b :=
  (less_iff (value_blob ha) (value_blob hb)).2 (digits_lt_iff.2 (.inr h))

theorem ordered_or_none (htype : b.type = a.type) :
    Ordered a b ∧ ¬(a.value = none ∨ b.value = none) ∨
      (a.value = none ∨ b.value = none) ∧ a.type ≠ stringType ∧ a.type ≠ blobType ∧
        ¬Less a b ∧ ¬Same b a ∧ ¬Less b a := by
  by_cases h : a.value = none ∨ b.value = none
  · refine .inr ⟨h, ?_, ?_, not_less_of_none h, not_same_of_none h.symm, not_less_of_none h.symm⟩
    · intro hs
      exact h.elim (value_ne_none (.inl hs)) (value_ne_none (.inl (htype.trans hs)))
    · intro hs
      exact h.elim (value_ne_none (.inr hs)) (value_ne_none (.inr (htype.trans hs)))
  · exact .inl ⟨ordered_iff.2 h, h⟩

section Operators

variable (hbop : b.op = isOp) (hkey : b.key = a.key) (htype : b.type = a.type)

include hbop hkey htype

theorem accepts_iff : Accepts a b ↔
    OpHolds a b ∧ ¬(a.type = stringType ∧ a.op = leOp ∧ Less b a ∨
      a.type = blobType ∧ a.op = ltOp ∧ ProperPrefix b a) ∨
    (a.type = stringType ∧ a.op = gtOp ∧ Less b a ∨
      a.type = blobType ∧ a.op = geOp ∧ ProperPrefix b a ∨
      (a.value = none ∨ b.value = none) ∧ (a.op = ltOp ∨ a.op = leOp)) := by
  simp only [Accepts, Satisfies, WronglyRejected, WronglyAccepted, hbop, hkey, htype, true_and,
    ne_eq, not_true_eq_false, false_and, false_or]

theorem accepts_eq (h : a.op = eqOp) : Accepts a b ↔ Same b a := by
  rw [accepts_iff hbop hkey htype, OpHolds, h]
  simp [eqAnyOp, eqOp, leOp, gtOp, geOp, ltOp, neOp]

theorem accepts_ne (h : a.op = neOp) : Accepts a b ↔ ¬Same b a := by
  rw [accepts_iff hbop hkey htype, OpHolds, h]
  simp [eqAnyOp, eqOp, leOp, gtOp, geOp, ltOp, neOp]

theorem accepts_gt (h : a.op = gtOp) :
    Accepts a b ↔ Less a b ∨ a.type = stringType ∧ Less b a := by
  rw [accepts_iff hbop hkey htype, OpHolds, h]
  simp [eqAnyOp, eqOp, leOp, gtOp, geOp, ltOp, neOp]

theorem accepts_ge (h : a.op = geOp) :
    Accepts a b ↔ Less a b ∨ Same b a ∨ a.type = blobType ∧ ProperPrefix b a := by
  rw [accepts_iff hbop hkey htype, OpHolds, h]
  simp [eqAnyOp, eqOp, leOp, gtOp, geOp, ltOp, neOp, or_assoc]

theorem accepts_lt (h : a.op = ltOp) :
    Accepts a b ↔ ¬(Less a b ∨ Same b a ∨ a.type = blobType ∧ ProperPrefix b a) := by
  have hproper : a.type = blobType → ProperPrefix b a → Less b a := fun h =>
    less_of_properPrefix (htype.trans h) h
  rw [accepts_iff hbop hkey htype, OpHolds, h]
  rcases ordered_or_none htype with
    ⟨⟨hl, hs, hg⟩ | ⟨hl, hs, hg⟩ | ⟨hl, hs, hg⟩, hn⟩ | ⟨hn, -, ht, hl, hs, hg⟩
  · simp [eqAnyOp, eqOp, leOp, gtOp, geOp, ltOp, neOp, hl, hg, hn]
  · simp [eqAnyOp, eqOp, leOp, gtOp, geOp, ltOp, neOp, hs, hg, hn]
  · simp [eqAnyOp, eqOp, leOp, gtOp, geOp, ltOp, neOp, hl, hs, hg, hn]
  · simp [eqAnyOp, eqOp, leOp, gtOp, geOp, ltOp, neOp, hl, hs, hn, ht]

theorem accepts_le (h : a.op = leOp) :
    Accepts a b ↔ ¬(Less a b ∨ a.type = stringType ∧ Less b a) := by
  rw [accepts_iff hbop hkey htype, OpHolds, h]
  rcases ordered_or_none htype with
    ⟨⟨hl, hs, hg⟩ | ⟨hl, hs, hg⟩ | ⟨hl, hs, hg⟩, hn⟩ | ⟨hn, ht, -, hl, hs, hg⟩
  · simp [eqAnyOp, eqOp, leOp, gtOp, geOp, ltOp, neOp, hl, hs, hg, hn]
  · simp [eqAnyOp, eqOp, leOp, gtOp, geOp, ltOp, neOp, hl, hs, hg, hn]
  · simp [eqAnyOp, eqOp, leOp, gtOp, geOp, ltOp, neOp, hl, hs, hg, hn]
  · simp [eqAnyOp, eqOp, leOp, gtOp, geOp, ltOp, neOp, hl, hg, hn]

end Operators

theorem isMatch_of_isSameKey (ha : a.Made) (hb : b.Made) (hbop : b.op = isOp)
    (hkey : b.key = a.key) (htype : b.type = a.type) :
    ∃ r, isMatch a b = some r ∧ (r = true ↔ Accepts a b) := by
  have hc := compares hb ha (isSameKey_iff.2 ⟨htype, hkey⟩)
  have heq := hc.eq
  have hgt := hc.gt
  have hge := hc.ge
  rw [htype] at hgt hge
  unfold isMatch
  rw [if_neg (not_not_intro hbop)]
  split_ifs with hany h h h h h h
  · refine ⟨true, rfl, ?_⟩
    rw [accepts_iff hbop hkey htype, OpHolds, hany]
    simp [eqAnyOp, leOp, gtOp, geOp, ltOp]
  · exact ⟨_, heq, by rw [accepts_eq hbop hkey htype h, decide_eq_true_iff]⟩
  · exact ⟨_, hgt, by rw [accepts_gt hbop hkey htype h, decide_eq_true_iff]⟩
  · exact ⟨_, hge, by rw [accepts_ge hbop hkey htype h, decide_eq_true_iff]⟩
  · refine ⟨_, congrArg (Option.map not) hge, ?_⟩
    rw [accepts_lt hbop hkey htype h, Bool.not_eq_true', decide_eq_false_iff_not]
  · refine ⟨_, congrArg (Option.map not) hgt, ?_⟩
    rw [accepts_le hbop hkey htype h, Bool.not_eq_true', decide_eq_false_iff_not]
  · refine ⟨_, congrArg (Option.map not) heq, ?_⟩
    rw [accepts_ne hbop hkey htype h, Bool.not_eq_true', decide_eq_false_iff_not]
  · refine ⟨false, rfl, ?_⟩
    rw [accepts_iff hbop hkey htype, OpHolds]
    simp [*]

theorem isMatch_of_type_ne (hbop : b.op = isOp) (hkey : b.key = a.key) (htype : b.type ≠ a.type) :
    (isMatch a b = some true ↔ Accepts a b) ∧ (isMatch a b = none ↔ Clash a b) := by
  have hsame : ¬b.isSameKey a = true := fun h => htype (isSameKey_iff.1 h).1
  have haccepts : Accepts a b ↔ a.op = eqAnyOp := by
    simp [Accepts, Satisfies, WronglyAccepted, hbop, hkey, htype]
  have hclash : Clash a b ↔ a.op ∈ [eqOp, gtOp, geOp, ltOp, leOp, neOp] := by
    simp [Clash, hbop, hkey, htype]
  have heq := isEQ_of_not_isSameKey hsame
  have hgt := isGT_of_not_isSameKey hsame
  have hge := isGE_of_not_isSameKey hsame
  rw [haccepts, hclash, isMatch, if_neg (not_not_intro hbop), isLT, isLE, isNE, heq, hgt, hge]
  split_ifs with hany h h h h h h
  · simp [hany, eqAnyOp, eqOp, leOp, gtOp, geOp, ltOp, neOp]
  · simp [h, eqAnyOp, eqOp]
  · simp [h, eqAnyOp, gtOp]
  · simp [h, eqAnyOp, geOp]
  · simp [h, eqAnyOp, ltOp]
  · simp [h, eqAnyOp, leOp]
  · simp [h, eqAnyOp, neOp]
  · simp [*]

theorem ofKey_isMatch (ha : a.Made) (hb : b.Made) :
    (ofKey a a.isMatch b = some true ↔ Accepts a b) ∧
      (ofKey a a.isMatch b = none ↔ Clash a b) := by
  by_cases hkey : b.key = a.key
  · rw [ofKey, if_pos hkey]
    by_cases hbop : b.op = isOp
    · by_cases htype : b.type = a.type
      · obtain ⟨r, hr, hiff⟩ := isMatch_of_isSameKey ha hb hbop hkey htype
        rw [hr, Option.some_inj, hiff]
        exact ⟨Iff.rfl, iff_of_false (by simp) fun h => h.2.2.1 htype⟩
      · exact isMatch_of_type_ne hbop hkey htype
    · rw [isMatch, if_pos hbop]
      simp [Accepts, Satisfies, WronglyAccepted, Clash, hbop]
  · rw [ofKey, if_neg hkey]
    simp [Accepts, Satisfies, WronglyAccepted, Clash, hkey]

/-- Every attribute with an operator has one in the other vector. -/
def Paired (r : NRAttribute → NRAttribute → Prop) (attrVec1 attrVec2 : List NRAttribute) : Prop :=
  (∀ a ∈ attrVec1, a.op ≠ isOp → ∃ b ∈ attrVec2, r a b) ∧
    ∀ a ∈ attrVec2, a.op ≠ isOp → ∃ b ∈ attrVec1, r a b

/-- The search for an attribute ends with one that is accepted. -/
def Partnered (a : NRAttribute) (vec : List NRAttribute) : Prop :=
  a.op ≠ isOp → Found (Accepts a) (Clash a) vec

/-- The search for an attribute comes to one of another type before one that is accepted, and those
for the attributes before it do not fail. -/
def Aborts (attrVec1 attrVec2 : List NRAttribute) : Prop :=
  First (Partnered · attrVec2) (fun a => a.op ≠ isOp ∧ Stuck (Accepts a) (Clash a) attrVec2) attrVec1

end NRAttribute

section Vectors

variable {attrVec1 attrVec2 : List NRAttribute} (h₁ : ∀ a ∈ attrVec1, a.Made)
  (h₂ : ∀ a ∈ attrVec2, a.Made)

include h₁ h₂

theorem decides_oneWayMatch : Decides (fun a => if a.op = isOp then some true else
      a.search a.isMatch (attrVec2.length + 1) attrVec2) (Partnered · attrVec2)
    (fun a => a.op ≠ isOp ∧ Stuck (Accepts a) (Clash a) attrVec2) attrVec1 := by
  intro a ha
  have hdec : Decides (ofKey a a.isMatch) (Accepts a) (Clash a) attrVec2 := fun b hb =>
    ofKey_isMatch (h₁ a ha) (h₂ b hb)
  by_cases hop : a.op = isOp
  · simp [hop, Partnered]
  · dsimp only
    rw [if_neg hop, search_eq a a.isMatch (Nat.lt_succ_self _)]
    exact ⟨hdec.anyM_eq_true_iff.trans ⟨fun h _ => h, fun h => h hop⟩,
      hdec.anyM_eq_none_iff.trans ⟨fun h => ⟨hop, h⟩, And.right⟩⟩

theorem oneWayMatch_eq_none_iff : oneWayMatch attrVec1 attrVec2 = none ↔ Aborts attrVec1 attrVec2 :=
  (decides_oneWayMatch h₁ h₂).allM_eq_none_iff

theorem oneWayMatch_eq_true_iff (h : ¬Aborts attrVec1 attrVec2) :
    oneWayMatch attrVec1 attrVec2 = some true ↔
      ∀ a ∈ attrVec1, a.op ≠ isOp → ∃ b ∈ attrVec2, Accepts a b := by
  refine (decides_oneWayMatch h₁ h₂).allM_eq_true_iff.trans (forall_iff_of_not_first h ?_)
  intro a _ hstuck
  exact forall_congr' fun hop => found_iff_exists fun hs => hstuck ⟨hop, hs⟩

theorem matchAttrs_ne_none (h : matchAttrs attrVec1 attrVec2 ≠ none) : ¬Aborts attrVec1 attrVec2 := by
  rw [← oneWayMatch_eq_none_iff h₁ h₂]
  intro hnone
  exact h (by rw [matchAttrs, hnone]; rfl)

theorem exists_matchAttrs (h : ¬Aborts attrVec1 attrVec2) (h' : ¬Aborts attrVec2 attrVec1) :
    ∃ r, matchAttrs attrVec1 attrVec2 = some r ∧
      (r = true ↔ Paired Accepts attrVec1 attrVec2) := by
  have htrue := oneWayMatch_eq_true_iff h₁ h₂ h
  have htrue' := oneWayMatch_eq_true_iff h₂ h₁ h'
  rw [← oneWayMatch_eq_none_iff h₁ h₂] at h
  rw [← oneWayMatch_eq_none_iff h₂ h₁] at h'
  obtain ⟨r, hr⟩ := Option.ne_none_iff_exists'.1 h
  obtain ⟨r', hr'⟩ := Option.ne_none_iff_exists'.1 h'
  rw [hr, Option.some_inj] at htrue
  rw [hr', Option.some_inj] at htrue'
  refine ⟨r && r', ?_, ?_⟩
  · rw [matchAttrs, hr, hr']
    cases r <;> rfl
  · rw [Bool.and_eq_true, htrue, htrue', Paired]

end Vectors

namespace NRAttribute

variable {a b c : NRAttribute} {attrVec1 attrVec2 : List NRAttribute}
variable {r s : NRAttribute → NRAttribute → Prop}

theorem Paired.imp (h : Paired r attrVec1 attrVec2) (himp : ∀ a b, r a b → s a b) :
    Paired s attrVec1 attrVec2 := by
  refine ⟨fun a ha hop => ?_, fun a ha hop => ?_⟩
  · obtain ⟨b, hb, hr⟩ := h.1 a ha hop
    exact ⟨b, hb, himp a b hr⟩
  · obtain ⟨b, hb, hr⟩ := h.2 a ha hop
    exact ⟨b, hb, himp a b hr⟩

theorem Paired.swap (h : Paired r attrVec1 attrVec2) : Paired r attrVec2 attrVec1 := ⟨h.2, h.1⟩

theorem Paired.combine {t : NRAttribute → NRAttribute → Prop} (hr : Paired r attrVec1 attrVec2)
    (hs : Paired s attrVec1 attrVec2) (himp : ∀ a b c, r a b → s a c → t a b ∨ t a c) :
    Paired t attrVec1 attrVec2 := by
  refine ⟨fun a ha hop => ?_, fun a ha hop => ?_⟩
  · obtain ⟨b, hb, hrb⟩ := hr.1 a ha hop
    obtain ⟨c, hc, hsc⟩ := hs.1 a ha hop
    exact (himp a b c hrb hsc).elim (fun h => ⟨b, hb, h⟩) fun h => ⟨c, hc, h⟩
  · obtain ⟨b, hb, hrb⟩ := hr.2 a ha hop
    obtain ⟨c, hc, hsc⟩ := hs.2 a ha hop
    exact (himp a b c hrb hsc).elim (fun h => ⟨b, hb, h⟩) fun h => ⟨c, hc, h⟩

theorem not_wronglyRejected (h : WronglyAccepted a b) : ¬WronglyRejected a c := by
  rintro ⟨-, -, -, hc⟩
  have hform : a.type = stringType ∨ a.type = blobType := hc.imp And.left And.left
  have hop : a.op = leOp ∨ a.op = ltOp := hc.imp (fun h => h.2.1) fun h => h.2.1
  rcases h with ⟨-, -, ⟨-, hop'⟩ | ⟨htype, ⟨-, hop', -⟩ | ⟨-, hop', -⟩ | ⟨hnone, -⟩⟩⟩
  · rcases hop with hop | hop <;> exact absurd (hop'.symm.trans hop) (by decide)
  · rcases hop with hop | hop <;> exact absurd (hop'.symm.trans hop) (by decide)
  · rcases hop with hop | hop <;> exact absurd (hop'.symm.trans hop) (by decide)
  · exact hnone.elim (value_ne_none hform) (value_ne_none (by rwa [htype]))

theorem not_wronglyAccepted (h : Satisfies a b) : ¬WronglyAccepted a b := by
  obtain ⟨-, -, htype, hholds⟩ := h
  have hord := ordered_or_none htype
  rintro ⟨-, -, ⟨hne, -⟩ | ⟨-, ⟨-, hop, hg⟩ | ⟨hblob, hop, hp⟩ | ⟨hnone, hop⟩⟩⟩
  · exact hne htype
  · have hl : Less a b := by
      simpa [OpHolds, hop, eqAnyOp, eqOp, leOp, gtOp, geOp, ltOp, neOp] using hholds
    rcases hord with ⟨⟨hl', hs', hg'⟩ | ⟨hl', hs', hg'⟩ | ⟨hl', hs', hg'⟩, -⟩ | ⟨-, -, -, hl', -⟩
    · exact hg' hg
    · exact hl' hl
    · exact hl' hl
    · exact hl' hl
  · have hg := less_of_properPrefix (htype.trans hblob) hblob hp
    have hl : Less a b ∨ Same b a := by
      simpa [OpHolds, hop, eqAnyOp, eqOp, leOp, gtOp, geOp, ltOp, neOp] using hholds
    rcases hord with ⟨⟨hl', hs', hg'⟩ | ⟨hl', hs', hg'⟩ | ⟨hl', hs', hg'⟩, -⟩ | ⟨-, -, -, hl', hs', -⟩
    · exact hg' hg
    · exact hg' hg
    · exact hl.elim hl' hs'
    · exact hl.elim hl' hs'
  · have hl : Less b a ∨ Same b a := by
      rcases hop with hop | hop
      · exact .inl (by
          simpa [OpHolds, hop, eqAnyOp, eqOp, leOp, gtOp, geOp, ltOp, neOp] using hholds)
      · simpa [OpHolds, hop, eqAnyOp, eqOp, leOp, gtOp, geOp, ltOp, neOp] using hholds
    exact hl.elim (not_less_of_none hnone.symm) (not_same_of_none hnone.symm)

theorem exactly_one_iff (ha : a.Made) (hb : b.Made) (hab : a.isSameKey b = true) :
    (∃ lt eq gt, a.isLT b = some lt ∧ a.isEQ b = some eq ∧ a.isGT b = some gt ∧
        [lt, eq, gt].count true = 1) ↔
      ¬(a.type = stringType ∧ Less a b) ∧ ¬(a.type = blobType ∧ ProperPrefix a b) := by
  have hc := compares ha hb hab
  have htype := (isSameKey_iff.1 hab).1
  have hlt : a.isLT b = some !decide (Less b a ∨ Same a b ∨ a.type = blobType ∧ ProperPrefix a b) :=
    congrArg (Option.map not) hc.ge
  have hproper : a.type = blobType → ProperPrefix a b → Less a b := fun h =>
    less_of_properPrefix h (htype.symm.trans h)
  have hform : a.type = stringType → a.type ≠ blobType := fun h => by rw [h]; decide
  rw [hlt, hc.eq, hc.gt]
  rcases ordered_or_none htype with
    ⟨⟨hg, hs, hl⟩ | ⟨hg, hs, hl⟩ | ⟨hg, hs, hl⟩, -⟩ | ⟨-, hstring, hblob, hg, hs, hl⟩
  · have hp : ¬(a.type = blobType ∧ ProperPrefix a b) := fun h => hl (hproper h.1 h.2)
    simp [hg, hl, hs, hp]
  · have hp : ¬(a.type = blobType ∧ ProperPrefix a b) := fun h => hl (hproper h.1 h.2)
    simp [hg, hl, hs, hp]
  · by_cases hstring : a.type = stringType
    · have hblob := hform hstring
      rw [hstring] at hblob ⊢
      simp [hg, hl, hs, hblob]
    · by_cases hp : a.type = blobType ∧ ProperPrefix a b
      · have hblob : blobType ≠ stringType := by decide
        simp [hg, hl, hs, hp, hblob]
      · simp [hg, hl, hs, hstring, hp]
  · rw [← htype] at hstring hblob
    simp [hg, hl, hs, hstring, hblob]

end NRAttribute

/-- For two vectors `MatchAttrs` does what it should exactly when no search comes to an attribute of
another type too early, and no attribute has only wrong partners or only partners that are missed;
and exactly one of `isLT`, `isEQ` and `isGT` holds but for a lesser string and the beginning of a
longer blob. -/
theorem matchAttrs_iff (attrVec1 attrVec2 : List NRAttribute) (a b : NRAttribute)
    (h₁ : ∀ a ∈ attrVec1, a.Made) (h₂ : ∀ a ∈ attrVec2, a.Made) (ha : a.Made) (hb : b.Made)
    (hab : a.isSameKey b = true) :
    ((∃ r, matchAttrs attrVec1 attrVec2 = some r ∧ matchAttrs attrVec2 attrVec1 = some r ∧
        (r = true ↔ Paired Satisfies attrVec1 attrVec2)) ↔
      ¬Aborts attrVec1 attrVec2 ∧ ¬Aborts attrVec2 attrVec1 ∧
        (Paired Accepts attrVec1 attrVec2 →
          Paired (fun a b => Accepts a b ∧ ¬WronglyAccepted a b) attrVec1 attrVec2) ∧
        (Paired Satisfies attrVec1 attrVec2 →
          Paired (fun a b => Satisfies a b ∧ ¬WronglyRejected a b) attrVec1 attrVec2)) ∧
    ((∃ lt eq gt, a.isLT b = some lt ∧ a.isEQ b = some eq ∧ a.isGT b = some gt ∧
        [lt, eq, gt].count true = 1) ↔
      ¬(a.type = stringType ∧ Less a b) ∧ ¬(a.type = blobType ∧ ProperPrefix a b)) := by
  refine ⟨⟨?_, ?_⟩, exactly_one_iff ha hb hab⟩
  · rintro ⟨r, hr, hr', hiff⟩
    have haborts := matchAttrs_ne_none h₁ h₂ (by rw [hr]; exact Option.some_ne_none r)
    have haborts' := matchAttrs_ne_none h₂ h₁ (by rw [hr']; exact Option.some_ne_none r)
    obtain ⟨r', heq, hacc⟩ := exists_matchAttrs h₁ h₂ haborts haborts'
    obtain rfl : r = r' := Option.some.inj (hr.symm.trans heq)
    have hcombine (hp : Paired Accepts attrVec1 attrVec2) (hq : Paired Satisfies attrVec1 attrVec2) :
        Paired (fun a b => Satisfies a b ∧ ¬WronglyRejected a b) attrVec1 attrVec2 := by
      refine hp.combine hq fun a b c hb hc => ?_
      rcases hb with hb | hb
      · exact .inl hb
      · exact .inr ⟨hc, not_wronglyRejected hb⟩
    refine ⟨haborts, haborts', fun hp => ?_, fun hq => hcombine (hacc.1 (hiff.2 hq)) hq⟩
    exact (hcombine hp (hiff.1 (hacc.2 hp))).imp fun a b h => ⟨.inl h, not_wronglyAccepted h.1⟩
  · rintro ⟨haborts, haborts', hacc, hsat⟩
    obtain ⟨r, hr, hiff⟩ := exists_matchAttrs h₁ h₂ haborts haborts'
    obtain ⟨r', hr', hiff'⟩ := exists_matchAttrs h₂ h₁ haborts' haborts
    have heq : r = r' := by
      rw [Bool.eq_iff_iff, hiff, hiff']
      exact ⟨Paired.swap, Paired.swap⟩
    refine ⟨r, hr, by rw [heq, hr'], hiff.trans ⟨fun hp => ?_, fun hp => ?_⟩⟩
    · exact (hacc hp).imp fun a b h => (h.1.resolve_right h.2).1
    · exact (hsat hp).imp fun a b h => .inl h

/-- A temperature and a place that are asked for, and 30 degrees at another place. -/
def wanted : List NRAttribute := [int32 1 gtOp 20, int32 2 eqOp 7]

def measured : List NRAttribute := [int32 1 isOp 30, int32 2 isOp 8]

theorem matchAttrs_iff_sample :
    ((∃ r, matchAttrs wanted measured = some r ∧ matchAttrs measured wanted = some r ∧
        (r = true ↔ Paired Satisfies wanted measured)) ↔
      ¬Aborts wanted measured ∧ ¬Aborts measured wanted ∧
        (Paired Accepts wanted measured →
          Paired (fun a b => Accepts a b ∧ ¬WronglyAccepted a b) wanted measured) ∧
        (Paired Satisfies wanted measured →
          Paired (fun a b => Satisfies a b ∧ ¬WronglyRejected a b) wanted measured)) ∧
    ((∃ lt eq gt, (int32 1 gtOp 20).isLT (int32 1 isOp 30) = some lt ∧
        (int32 1 gtOp 20).isEQ (int32 1 isOp 30) = some eq ∧
        (int32 1 gtOp 20).isGT (int32 1 isOp 30) = some gt ∧ [lt, eq, gt].count true = 1) ↔
      ¬((int32 1 gtOp 20).type = stringType ∧ Less (int32 1 gtOp 20) (int32 1 isOp 30)) ∧
        ¬((int32 1 gtOp 20).type = blobType ∧ ProperPrefix (int32 1 gtOp 20) (int32 1 isOp 30))) :=
  matchAttrs_iff _ _ _ _
    (List.forall_mem_cons.2 ⟨.int32 1 gtOp 20, List.forall_mem_singleton.2 (.int32 2 eqOp 7)⟩)
    (List.forall_mem_cons.2 ⟨.int32 1 isOp 30, List.forall_mem_singleton.2 (.int32 2 isOp 8)⟩)
    (.int32 1 gtOp 20) (.int32 1 isOp 30) (by decide)

/-- An integer that is asked for, and a blob of the same key. -/
theorem matchAttrs_aborts : matchAttrs [int32 1 eqOp 20]
    [{ key := 1, type := blobType, op := isOp, val := [7], fits := by decide }] = none := by decide

end Ns2
