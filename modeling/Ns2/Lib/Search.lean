import Mathlib.Tactic.Common

/-! Searches of a list whose test may abort: what a search finds is decided by the first element that
is accepted or aborts the test. -/

namespace Ns2.Search

variable {α : Type*} {before here accepts aborts : α → Prop} {p : α → Option Bool} {a : α}
  {l : List α}

/-- An element comes after elements that are all `before`. -/
def First (before here : α → Prop) (l : List α) : Prop :=
  ∃ l₁ a l₂, l = l₁ ++ a :: l₂ ∧ (∀ x ∈ l₁, before x) ∧ here a

theorem not_first_nil : ¬First before here [] := by
  rintro ⟨l₁, a, l₂, heq, -, -⟩
  simp at heq

theorem first_cons : First before here (a :: l) ↔ here a ∨ before a ∧ First before here l := by
  constructor
  · rintro ⟨l₁, b, l₂, heq, hl₁, hb⟩
    cases l₁ with
    | nil =>
      obtain ⟨rfl, rfl⟩ := List.cons.inj heq
      exact .inl hb
    | cons c l₁ =>
      obtain ⟨rfl, rfl⟩ := List.cons.inj heq
      obtain ⟨ha, hl₁⟩ := List.forall_mem_cons.1 hl₁
      exact .inr ⟨ha, l₁, b, l₂, rfl, hl₁, hb⟩
  · rintro (ha | ⟨ha, l₁, b, l₂, rfl, hl₁, hb⟩)
    · exact ⟨[], a, l, rfl, by simp, ha⟩
    · exact ⟨a :: l₁, b, l₂, rfl, List.forall_mem_cons.2 ⟨ha, hl₁⟩, hb⟩

theorem First.exists (h : First before here l) : ∃ a ∈ l, here a := by
  obtain ⟨l₁, a, l₂, rfl, -, ha⟩ := h
  exact ⟨a, by simp, ha⟩

/-- A test aborts before an element is accepted. -/
def Stuck (accepts aborts : α → Prop) (l : List α) : Prop :=
  First (fun a => ¬accepts a ∧ ¬aborts a) aborts l

/-- An element is accepted before a test aborts. -/
def Found (accepts aborts : α → Prop) (l : List α) : Prop :=
  First (fun a => ¬accepts a ∧ ¬aborts a) accepts l

/-- Which elements of the list a test accepts, and which abort it. -/
def Decides (p : α → Option Bool) (accepts aborts : α → Prop) (l : List α) : Prop :=
  ∀ a ∈ l, (p a = some true ↔ accepts a) ∧ (p a = none ↔ aborts a)

theorem decides_cons : Decides p accepts aborts (a :: l) ↔
    ((p a = some true ↔ accepts a) ∧ (p a = none ↔ aborts a)) ∧ Decides p accepts aborts l :=
  List.forall_mem_cons

theorem Decides.anyM_eq_true_iff (h : Decides p accepts aborts l) :
    l.anyM p = some true ↔ Found accepts aborts l := by
  induction l with
  | nil => exact iff_of_false (by simp) not_first_nil
  | cons a l ih =>
    obtain ⟨⟨haccepts, haborts⟩, h⟩ := decides_cons.1 h
    rw [List.anyM_cons, Found, first_cons, ← Found, ← ih h, ← haccepts, ← haborts]
    rcases p a with _ | _ | _ <;> simp

theorem Decides.anyM_eq_none_iff (h : Decides p accepts aborts l) :
    l.anyM p = none ↔ Stuck accepts aborts l := by
  induction l with
  | nil => exact iff_of_false (by simp) not_first_nil
  | cons a l ih =>
    obtain ⟨⟨haccepts, haborts⟩, h⟩ := decides_cons.1 h
    rw [List.anyM_cons, Stuck, first_cons, ← Stuck, ← ih h, ← haccepts, ← haborts]
    rcases p a with _ | _ | _ <;> simp

theorem found_iff_exists (h : ¬Stuck accepts aborts l) :
    Found accepts aborts l ↔ ∃ a ∈ l, accepts a := by
  refine ⟨First.exists, fun hex => ?_⟩
  induction l with
  | nil => simp at hex
  | cons a l ih =>
    rw [Stuck, first_cons, not_or, not_and] at h
    rw [Found, first_cons]
    by_cases ha : accepts a
    · exact .inl ha
    · exact .inr ⟨⟨ha, h.1⟩, ih (h.2 ⟨ha, h.1⟩) (by simpa [ha] using hex)⟩

theorem Decides.allM_eq_true_iff (h : Decides p accepts aborts l) :
    l.allM p = some true ↔ ∀ a ∈ l, accepts a := by
  induction l with
  | nil => simp
  | cons a l ih =>
    obtain ⟨⟨haccepts, -⟩, h⟩ := decides_cons.1 h
    rw [List.allM_cons, List.forall_mem_cons, ← ih h, ← haccepts]
    rcases p a with _ | _ | _ <;> simp

theorem Decides.allM_eq_none_iff (h : Decides p accepts aborts l) :
    l.allM p = none ↔ First accepts aborts l := by
  induction l with
  | nil => exact iff_of_false (by simp) not_first_nil
  | cons a l ih =>
    obtain ⟨⟨haccepts, haborts⟩, h⟩ := decides_cons.1 h
    rw [List.allM_cons, first_cons, ← ih h, ← haccepts, ← haborts]
    rcases p a with _ | _ | _ <;> simp

/-- Where nothing aborts too early, what is accepted is what some weaker test accepts that differs
only where the test aborts. -/
theorem forall_iff_of_not_first {weaker : α → Prop} (h : ¬First accepts aborts l)
    (hw : ∀ a ∈ l, ¬aborts a → (accepts a ↔ weaker a)) :
    (∀ a ∈ l, accepts a) ↔ ∀ a ∈ l, weaker a := by
  induction l with
  | nil => simp
  | cons a l ih =>
    rw [first_cons, not_or, not_and] at h
    obtain ⟨hwa, hw⟩ := List.forall_mem_cons.1 hw
    rw [List.forall_mem_cons, List.forall_mem_cons, ← hwa h.1]
    exact and_congr_right fun ha => ih (h.2 ha) hw

end Ns2.Search
