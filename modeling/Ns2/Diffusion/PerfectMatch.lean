import Mathlib.Data.Multiset.Count
import Ns2.Diffusion.AttributeMatch

/-! `PerfectMatch`: two vectors of one size that are searched for each other's attributes. -/

namespace Ns2

open Search

section Counts

variable {α : Type*} {r : α → α → Prop} [IsTrans α r] [Std.Symm r] [DecidableRel r]
  {s t : Multiset α}

/-- Multisets of one size are related if what is related to each element is as often in both. -/
theorem rel_of_countP_eq (hcard : s.card = t.card) (hrefl : ∀ a ∈ s, r a a)
    (hcount : ∀ a ∈ s, s.countP (r a) = t.countP (r a)) : Multiset.Rel r s t := by
  induction s using Multiset.induction_on generalizing t with
  | empty => rw [Multiset.rel_zero_left, ← Multiset.card_eq_zero, ← hcard, Multiset.card_zero]
  | cons a s ih =>
    obtain ⟨b, hb, hab⟩ : ∃ b ∈ t, r a b := by
      rw [← Multiset.countP_pos, ← hcount a (Multiset.mem_cons_self a s), Multiset.countP_pos]
      exact ⟨a, Multiset.mem_cons_self a s, hrefl a (Multiset.mem_cons_self a s)⟩
    obtain ⟨t, rfl⟩ := Multiset.exists_cons_of_mem hb
    refine Multiset.Rel.cons hab (ih ?_ ?_ ?_)
    · simpa using hcard
    · exact fun c hc => hrefl c (Multiset.mem_cons_of_mem hc)
    · intro c hc
      have hc' := hcount c (Multiset.mem_cons_of_mem hc)
      have hiff : r c a ↔ r c b :=
        ⟨fun h => IsTrans.trans _ _ _ h hab, fun h => IsTrans.trans _ _ _ h (Std.Symm.symm _ _ hab)⟩
      rw [Multiset.countP_cons, Multiset.countP_cons, if_congr hiff rfl rfl] at hc'
      exact Nat.add_right_cancel hc'

end Counts

namespace NRAttribute

/-- The operators are the same, and so are the values. -/
def isPerfect (a b : NRAttribute) : Option Bool := if a.op = b.op then a.isEQ b else some false

end NRAttribute

open NRAttribute

def oneWayPerfectMatch (attrVec1 attrVec2 : List NRAttribute) : Option Bool :=
  attrVec1.allM fun a => a.search a.isPerfect (attrVec2.length + 1) attrVec2

def perfectMatch (attrVec1 attrVec2 : List NRAttribute) : Option Bool :=
  if attrVec1.length ≠ attrVec2.length then some false
  else do
    if ← oneWayPerfectMatch attrVec1 attrVec2 then oneWayPerfectMatch attrVec2 attrVec1
    else some false

namespace NRAttribute

variable {a b : NRAttribute}

/-- Key, type, operator and value are equal. -/
def Equal (a b : NRAttribute) : Prop := a.key = b.key ∧ a.type = b.type ∧ a.op = b.op ∧ Same a b

instance decidableEqual : DecidableRel Equal := fun a b =>
  inferInstanceAs (Decidable (a.key = b.key ∧ a.type = b.type ∧ a.op = b.op ∧ Same a b))

theorem Same.symm (h : Same a b) : Same b a := by
  obtain ⟨x, hx, y, hy, rfl⟩ := h
  exact ⟨x, hy, x, hx, rfl⟩

theorem Same.trans {c : NRAttribute} (h : Same a b) (h' : Same b c) : Same a c := by
  obtain ⟨x, hx, y, hy, rfl⟩ := h
  obtain ⟨y, hy', z, hz, rfl⟩ := h'
  exact ⟨x, hx, y, hz, Option.some.inj (hy.symm.trans hy')⟩

instance : Std.Symm Equal where
  symm _ _ h := ⟨h.1.symm, h.2.1.symm, h.2.2.1.symm, h.2.2.2.symm⟩

instance : IsTrans NRAttribute Equal where
  trans _ _ _ h h' :=
    ⟨h.1.trans h'.1, h.2.1.trans h'.2.1, h.2.2.1.trans h'.2.2.1, h.2.2.2.trans h'.2.2.2⟩

/-- Key and operator are equal, but the types are not. -/
def Differ (a b : NRAttribute) : Prop := a.key = b.key ∧ a.op = b.op ∧ a.type ≠ b.type

/-- The search for every attribute before one ends, and that for it comes to an attribute of another
type before an equal one. -/
def PerfectAborts (attrVec1 attrVec2 : List NRAttribute) : Prop :=
  First (fun a => Found (Equal a) (Differ a) attrVec2) (fun a => Stuck (Equal a) (Differ a) attrVec2)
    attrVec1

/-- Every attribute has an equal one in the other vector. -/
def Contained (attrVec1 attrVec2 : List NRAttribute) : Prop :=
  ∀ a ∈ attrVec1, ∃ b ∈ attrVec2, Equal a b

theorem ofKey_isPerfect (ha : a.Made) (hb : b.Made) :
    (ofKey a a.isPerfect b = some true ↔ Equal a b) ∧
      (ofKey a a.isPerfect b = none ↔ Differ a b) := by
  by_cases hkey : b.key = a.key
  · rw [ofKey, if_pos hkey, isPerfect]
    split_ifs with hop
    · by_cases htype : a.type = b.type
      · rw [(compares ha hb (isSameKey_iff.2 ⟨htype, hkey.symm⟩)).eq]
        simp [Equal, Differ, hkey, hop, htype]
      · rw [isEQ_of_not_isSameKey fun h => htype (isSameKey_iff.1 h).1]
        simp [Equal, Differ, hkey, hop, htype]
    · simp [Equal, Differ, hop]
  · rw [ofKey, if_neg hkey]
    simp [Equal, Differ, Ne.symm hkey]

end NRAttribute

section Vectors

variable {attrVec1 attrVec2 : List NRAttribute} (h₁ : ∀ a ∈ attrVec1, a.Made)
  (h₂ : ∀ a ∈ attrVec2, a.Made)

include h₁ h₂

theorem decides_oneWayPerfectMatch :
    Decides (fun a => a.search a.isPerfect (attrVec2.length + 1) attrVec2)
      (fun a => Found (Equal a) (Differ a) attrVec2) (fun a => Stuck (Equal a) (Differ a) attrVec2)
      attrVec1 := by
  intro a ha
  have hdec : Decides (ofKey a a.isPerfect) (Equal a) (Differ a) attrVec2 := fun b hb =>
    ofKey_isPerfect (h₁ a ha) (h₂ b hb)
  dsimp only
  rw [search_eq a a.isPerfect (Nat.lt_succ_self _)]
  exact ⟨hdec.anyM_eq_true_iff, hdec.anyM_eq_none_iff⟩

theorem oneWayPerfectMatch_eq_none_iff :
    oneWayPerfectMatch attrVec1 attrVec2 = none ↔ PerfectAborts attrVec1 attrVec2 :=
  (decides_oneWayPerfectMatch h₁ h₂).allM_eq_none_iff

theorem oneWayPerfectMatch_eq_true_iff : oneWayPerfectMatch attrVec1 attrVec2 = some true ↔
    ∀ a ∈ attrVec1, Found (Equal a) (Differ a) attrVec2 :=
  (decides_oneWayPerfectMatch h₁ h₂).allM_eq_true_iff

theorem oneWayPerfectMatch_eq_true_iff_contained (h : ¬PerfectAborts attrVec1 attrVec2) :
    oneWayPerfectMatch attrVec1 attrVec2 = some true ↔ Contained attrVec1 attrVec2 :=
  (oneWayPerfectMatch_eq_true_iff h₁ h₂).trans
    (forall_iff_of_not_first h fun _ _ hs => found_iff_exists hs)

theorem oneWayPerfectMatch_cases :
    (oneWayPerfectMatch attrVec1 attrVec2 = none ∧ PerfectAborts attrVec1 attrVec2) ∨
      (oneWayPerfectMatch attrVec1 attrVec2 = some false ∧ ¬PerfectAborts attrVec1 attrVec2 ∧
        ¬Contained attrVec1 attrVec2) ∨
      oneWayPerfectMatch attrVec1 attrVec2 = some true ∧ ¬PerfectAborts attrVec1 attrVec2 ∧
        Contained attrVec1 attrVec2 := by
  have hnone := oneWayPerfectMatch_eq_none_iff h₁ h₂
  by_cases haborts : PerfectAborts attrVec1 attrVec2
  · exact .inl ⟨hnone.2 haborts, haborts⟩
  · have htrue := oneWayPerfectMatch_eq_true_iff_contained h₁ h₂ haborts
    rcases hr : oneWayPerfectMatch attrVec1 attrVec2 with _ | _ | _
    · exact absurd (hnone.1 hr) haborts
    · exact .inr (.inl ⟨rfl, haborts, fun hc => by simp [hr] at htrue; exact htrue hc⟩)
    · exact .inr (.inr ⟨rfl, haborts, htrue.1 hr⟩)

end Vectors

section Rel

variable {attrVec1 attrVec2 : List NRAttribute}

section

variable (h : Multiset.Rel Equal (attrVec1 : Multiset NRAttribute) attrVec2)
include h

theorem contained_of_rel :
    Contained attrVec1 attrVec2 := fun _ ha => Multiset.exists_mem_of_rel_of_mem h ha

theorem contained_of_rel_swap :
    Contained attrVec2 attrVec1 := by
  intro a ha
  obtain ⟨b, hb, hba⟩ := Multiset.exists_mem_of_rel_of_mem (Multiset.rel_flip.2 h) ha
  exact ⟨b, hb, Std.Symm.symm _ _ hba⟩

theorem length_of_rel :
    attrVec1.length = attrVec2.length := Multiset.card_eq_card_of_rel h

end

theorem rel_iff_countP (hlen : attrVec1.length = attrVec2.length)
    (hcont : Contained attrVec1 attrVec2) :
    Multiset.Rel Equal (attrVec1 : Multiset NRAttribute) attrVec2 ↔
      ∀ a ∈ attrVec1, attrVec1.countP (Equal a) = attrVec2.countP (Equal a) := by
  constructor
  · intro h a _
    exact Multiset.Rel.countP_eq Equal a h
  · intro h
    refine rel_of_countP_eq hlen (fun a ha => ?_) h
    obtain ⟨b, -, hab⟩ := hcont a ha
    exact IsTrans.trans _ _ _ hab (Std.Symm.symm _ _ hab)

end Rel

/-- For two vectors of one size `PerfectMatch` says whether one is a permutation of the other exactly
when no search comes to an attribute of another type before an equal one, and no attribute of two
vectors that are contained in each other is more often in one of them. -/
theorem perfectMatch_iff (attrVec1 attrVec2 : List NRAttribute) (h₁ : ∀ a ∈ attrVec1, a.Made)
    (h₂ : ∀ a ∈ attrVec2, a.Made) :
    (∃ r, perfectMatch attrVec1 attrVec2 = some r ∧
        (r = true ↔ Multiset.Rel Equal (attrVec1 : Multiset NRAttribute) attrVec2)) ↔
      (attrVec1.length = attrVec2.length → ¬PerfectAborts attrVec1 attrVec2 ∧
        (Contained attrVec1 attrVec2 → ¬PerfectAborts attrVec2 attrVec1 ∧
          (Contained attrVec2 attrVec1 →
            ∀ a ∈ attrVec1, attrVec1.countP (Equal a) = attrVec2.countP (Equal a)))) := by
  by_cases hlen : attrVec1.length = attrVec2.length
  · rw [perfectMatch, if_neg (not_not_intro hlen), forall_prop_of_true hlen]
    rcases oneWayPerfectMatch_cases h₁ h₂ with
      ⟨hr, haborts⟩ | ⟨hr, haborts, hcont⟩ | ⟨hr, haborts, hcont⟩
    · rw [hr]
      exact iff_of_false (by rintro ⟨r, hnone, -⟩; cases hnone) fun h => h.1 haborts
    · rw [hr]
      refine iff_of_true ⟨false, rfl, ?_⟩ ⟨haborts, fun h => absurd h hcont⟩
      exact iff_of_false Bool.false_ne_true fun h => hcont (contained_of_rel h)
    · rw [hr, and_iff_right haborts, forall_prop_of_true hcont]
      rcases oneWayPerfectMatch_cases h₂ h₁ with
        ⟨hr', haborts'⟩ | ⟨hr', haborts', hcont'⟩ | ⟨hr', haborts', hcont'⟩
      · rw [hr']
        exact iff_of_false (by rintro ⟨r, hnone, -⟩; cases hnone) fun h => h.1 haborts'
      · rw [hr']
        refine iff_of_true ⟨false, rfl, ?_⟩ ⟨haborts', fun h => absurd h hcont'⟩
        exact iff_of_false Bool.false_ne_true fun h => hcont' (contained_of_rel_swap h)
      · rw [hr', and_iff_right haborts', forall_prop_of_true hcont', ← rel_iff_countP hlen hcont]
        constructor
        · rintro ⟨r, hr, hiff⟩
          exact hiff.1 (Option.some.inj hr).symm
        · exact fun h => ⟨true, rfl, iff_of_true rfl h⟩
  · rw [perfectMatch, if_pos hlen]
    refine iff_of_true ⟨false, rfl, ?_⟩ fun h => absurd h hlen
    exact iff_of_false Bool.false_ne_true fun h => hlen (length_of_rel h)

/-- Two attributes, in both orders. -/
def ordered : List NRAttribute := [int32 1 isOp 20, int32 2 isOp 30]

def swapped : List NRAttribute := [int32 2 isOp 30, int32 1 isOp 20]

theorem perfectMatch_iff_sample :
    (∃ r, perfectMatch ordered swapped = some r ∧
        (r = true ↔ Multiset.Rel Equal (ordered : Multiset NRAttribute) swapped)) ↔
      (ordered.length = swapped.length → ¬PerfectAborts ordered swapped ∧
        (Contained ordered swapped → ¬PerfectAborts swapped ordered ∧
          (Contained swapped ordered →
            ∀ a ∈ ordered, ordered.countP (Equal a) = swapped.countP (Equal a)))) :=
  perfectMatch_iff _ _
    (List.forall_mem_cons.2 ⟨.int32 1 isOp 20, List.forall_mem_singleton.2 (.int32 2 isOp 30)⟩)
    (List.forall_mem_cons.2 ⟨.int32 2 isOp 30, List.forall_mem_singleton.2 (.int32 1 isOp 20)⟩)

/-- The first of two attributes is twice in one vector, and the second in the other. -/
theorem perfectMatch_multiplicities :
    ¬∃ r, perfectMatch [int32 1 isOp 20, int32 1 isOp 20, int32 2 isOp 30]
        [int32 1 isOp 20, int32 2 isOp 30, int32 2 isOp 30] = some r ∧
      (r = true ↔ Multiset.Rel Equal
        (([int32 1 isOp 20, int32 1 isOp 20, int32 2 isOp 30] : List NRAttribute) :
          Multiset NRAttribute)
        ([int32 1 isOp 20, int32 2 isOp 30, int32 2 isOp 30] : List NRAttribute)) := by
  have hr : perfectMatch [int32 1 isOp 20, int32 1 isOp 20, int32 2 isOp 30]
      [int32 1 isOp 20, int32 2 isOp 30, int32 2 isOp 30] = some true := by decide
  rintro ⟨r, hr', hiff⟩
  obtain rfl : true = r := Option.some.inj (hr.symm.trans hr')
  have hcount := Multiset.Rel.countP_eq Equal (int32 1 isOp 20) (hiff.1 rfl)
  revert hcount
  decide

end Ns2
