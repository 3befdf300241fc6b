import Mathlib.Data.List.Basic
import Mathlib.Order.Lattice

/-! An exchange sort whose passes compare with the value that the first place had at their start: for which
lists its result is sorted. -/

namespace Ns2

open List

section

variable {α β : Type*} [LinearOrder β] (f : α → β)
variable {seen s s' l : List α} {b m : β} {x : α}

/-- One pass over the places behind `x`, each of which is swapped with the first one when its value is over
`m`. -/
def exchangePass (m : β) : α → List α → α × List α
  | x, [] => (x, [])
  | x, y :: l =>
    if m < f y then
      let r := exchangePass m y l
      (r.1, x :: r.2)
    else
      let r := exchangePass m x l
      (r.1, y :: r.2)

def exchangeSort : ℕ → List α → List α
  | n + 1, x :: l =>
    let r := exchangePass f (f x) x l
    r.1 :: exchangeSort n r.2
  | _, l => l

/-- Of the entries `seen` before a value, those over it are no more than those in front that are not under
it. -/
def Fits (seen : List α) (b : β) : Prop :=
  (seen.countP fun y => b < f y) ≤ (seen.takeWhile fun y => b ≤ f y).length

/-- Every entry fits what is before it. -/
def Exchangeable (l : List α) : Prop := ∀ k (h : k < l.length), Fits f (l.take k) (f l[k])

/-- Every entry fits `seen` and what is before it. -/
def FitsFrom (seen : List α) : List α → Prop
  | [] => True
  | y :: l => Fits f seen (f y) ∧ FitsFrom (seen ++ [y]) l

/-- The values over `m` do not fall, and do not start under `c`. -/
def Rising (m : β) : β → List α → Prop
  | _, [] => True
  | c, y :: l => if m < f y then c ≤ f y ∧ Rising m (f y) l else Rising m c l

variable {f}

instance (seen : List α) (b : β) : Decidable (Fits f seen b) :=
  inferInstanceAs (Decidable (_ ≤ _))

instance (l : List α) : Decidable (Exchangeable f l) :=
  inferInstanceAs (Decidable (∀ k (_ : k < l.length), _))

theorem fitsFrom_iff (seen l : List α) :
    FitsFrom f seen l ↔ ∀ k (h : k < l.length), Fits f (seen ++ l.take k) (f l[k]) := by
  induction l generalizing seen with
  | nil => exact ⟨nofun, fun _ => trivial⟩
  | cons y l ih =>
    rw [FitsFrom, ih]
    constructor
    · rintro ⟨h0, h⟩ k hk
      cases k with
      | zero => simpa using h0
      | succ k => simpa using h k (Nat.lt_of_succ_lt_succ hk)
    · intro h
      refine ⟨by simpa using h 0 (Nat.zero_lt_succ _), fun k hk => ?_⟩
      simpa using h (k + 1) (Nat.succ_lt_succ hk)

theorem exchangeable_iff (l : List α) : Exchangeable f l ↔ FitsFrom f [] l := by
  rw [fitsFrom_iff, Exchangeable]
  simp only [nil_append]

theorem exchangePass_perm (m : β) (x : α) (l : List α) :
    ((exchangePass f m x l).1 :: (exchangePass f m x l).2).Perm (x :: l) := by
  induction l generalizing x with
  | nil => exact Perm.refl _
  | cons y l ih =>
    rw [exchangePass]
    split_ifs
    · exact (Perm.swap x _ _).trans ((ih y).cons x)
    · exact (Perm.swap y _ _).trans (((ih x).cons y).trans (Perm.swap x y l))

theorem exchangeSort_perm (n : ℕ) (l : List α) : (exchangeSort f n l).Perm l := by
  induction n generalizing l with
  | zero => exact Perm.refl _
  | succ n ih =>
    cases l with
    | nil => exact Perm.refl _
    | cons x l => exact ((ih _).cons _).trans (exchangePass_perm (f x) x l)

theorem fits_iff_of_head (h : ∀ z ∈ seen.head?, f z < b) : Fits f seen b ↔ ∀ z ∈ seen, f z ≤ b := by
  have hnil : seen.takeWhile (fun y => b ≤ f y) = [] := by
    cases seen with
    | nil => rfl
    | cons z seen => exact takeWhile_cons_of_neg (by simpa using h z rfl)
  rw [Fits, hnil, length_nil, Nat.le_zero, countP_eq_zero]
  simp only [decide_eq_true_eq, not_lt]

theorem fits_of_le (h : ∀ z ∈ seen, f z ≤ b) : Fits f seen b := by
  have hzero : (seen.countP fun y => b < f y) = 0 := by
    rw [countP_eq_zero]
    exact fun z hz => by simpa using h z hz
  rw [Fits, hzero]
  exact Nat.zero_le _

theorem length_takeWhile_snoc {p : α → Bool} {y : α} (hlen : s'.length = s.length)
    (h : (s'.takeWhile p).length = (s.takeWhile p).length) (hx : p x = p y) :
    ((s' ++ [x]).takeWhile p).length = ((s ++ [y]).takeWhile p).length := by
  rw [takeWhile_append, takeWhile_append, hlen, h]
  split_ifs
  · rw [length_append, length_append, hlen, takeWhile_cons, takeWhile_cons, hx]
    split_ifs <;> rfl
  · exact h

/-- In a pass that has come to `l` with `x` at the first place, where the entries `s` are now `s'`, the
entries of `l` fit if and only if the values over the pivot's do not fall and the new entries fit. -/
theorem fitsFrom_iff_pass {p : α} (hp : f p ≤ f x) (hperm : (p :: s).Perm (x :: s'))
    (hmax : ∀ z ∈ p :: s, f z ≤ f x)
    (htw : ∀ b ≤ f p, (s'.takeWhile fun y => b ≤ f y).length = (s.takeWhile fun y => b ≤ f y).length)
    :
    FitsFrom f (p :: s) l ↔
      Rising f (f p) (f x) l ∧ FitsFrom f s' (exchangePass f (f p) x l).2 := by
  induction l generalizing x s s' with
  | nil => exact ⟨fun _ => ⟨trivial, trivial⟩, fun _ => trivial⟩
  | cons y l ih =>
    have hlen : s'.length = s.length := (Nat.succ.inj hperm.length_eq).symm
    have hmax' : ∀ z ∈ s', f z ≤ f x := fun z hz =>
      hmax z (hperm.mem_iff.2 (mem_cons_of_mem _ hz))
    rw [FitsFrom, Rising, exchangePass]
    by_cases hy : f p < f y
    · rw [if_pos hy, if_pos hy]
      have hhead : ∀ z ∈ (p :: s).head?, f z < f y := by
        rintro z ⟨⟩
        exact hy
      have hfy : Fits f (p :: s) (f y) ↔ f x ≤ f y := by
        rw [fits_iff_of_head hhead]
        exact ⟨fun h => h x (hperm.mem_iff.2 mem_cons_self), fun h z hz => (hmax z hz).trans h⟩
      rw [FitsFrom, hfy, and_assoc]
      refine and_congr_right fun hxy => ?_
      have hperm' : (p :: (s ++ [y])).Perm (y :: (s' ++ [x])) := by
        have h1 : (p :: s ++ [y]).Perm (x :: s' ++ [y]) := hperm.append_right [y]
        refine h1.trans ((perm_append_singleton y _).trans (Perm.cons y ?_))
        exact (perm_append_singleton x s').symm
      have hnext := ih hy.le hperm' (fun z hz => by
        rw [← cons_append] at hz
        rcases mem_append.1 hz with hz | hz
        · exact (hmax z hz).trans hxy
        · exact (mem_singleton.1 hz) ▸ le_rfl) fun b hb => by
          refine length_takeWhile_snoc hlen (htw b hb) ?_
          rw [decide_eq_true (hb.trans hp), decide_eq_true (hb.trans hy.le)]
      rw [cons_append, hnext]
      exact and_congr_right fun _ => ⟨fun h => ⟨fits_of_le hmax', h⟩, And.right⟩
    · rw [if_neg hy, if_neg hy]
      have hyp : f y ≤ f p := not_lt.1 hy
      have hfy : Fits f (p :: s) (f y) ↔ Fits f s' (f y) := by
        have hcount : ((p :: s).countP fun z => f y < f z) = (x :: s').countP fun z => f y < f z :=
          hperm.countP_eq _
        have hlead : ((p :: s).takeWhile fun z => f y ≤ f z).length =
            (s'.takeWhile fun z => f y ≤ f z).length + 1 := by
          rw [takeWhile_cons_of_pos (by simpa using hyp), length_cons, htw _ hyp]
        by_cases hyx : f y < f x
        · rw [Fits, hcount, hlead, countP_cons_of_pos (by simpa using hyx), Nat.add_le_add_iff_right,
            Fits]
        · have heq : ∀ z ∈ s', f z ≤ f y := fun z hz => (hmax' z hz).trans (not_lt.1 hyx)
          refine ⟨fun _ => fits_of_le heq, fun _ => fits_of_le fun z hz => ?_⟩
          exact (hmax z hz).trans (not_lt.1 hyx)
      have hperm' : (p :: (s ++ [y])).Perm (x :: (s' ++ [y])) := hperm.append_right [y]
      have hnext := ih hp hperm' (fun z hz => by
        rw [← cons_append] at hz
        rcases mem_append.1 hz with hz | hz
        · exact hmax z hz
        · exact (mem_singleton.1 hz) ▸ (hyp.trans hp)) fun b hb =>
          length_takeWhile_snoc hlen (htw b hb) rfl
      rw [FitsFrom, cons_append, hnext, hfy, and_left_comm]

/-- When the values over the pivot's do not fall, a pass brings the greatest one to the front. -/
theorem Rising.le_pass (h : Rising f m (f x) l) (hm : m ≤ f x) :
    f x ≤ f (exchangePass f m x l).1 ∧
      ∀ z ∈ (exchangePass f m x l).2, f z ≤ f (exchangePass f m x l).1 := by
  induction l generalizing x with
  | nil => exact ⟨le_rfl, nofun⟩
  | cons y l ih =>
    rw [Rising] at h
    rw [exchangePass]
    by_cases hy : m < f y
    · rw [if_pos hy] at h ⊢
      obtain ⟨hle, hall⟩ := ih h.2 hy.le
      have hxy := h.1.trans hle
      exact ⟨hxy, forall_mem_cons.2 ⟨hxy, hall⟩⟩
    · rw [if_neg hy] at h ⊢
      obtain ⟨hle, hall⟩ := ih h hm
      exact ⟨hle, forall_mem_cons.2 ⟨((not_lt.1 hy).trans hm).trans hle, hall⟩⟩

/-- When a pass brings the greatest value to the front and the new entries fit, the values over the pivot's
do not fall: each of them is among the new entries, behind the pivot. -/
theorem rising_of_fitsFrom (hhead : ∀ z ∈ (s' ++ [x]).head?, f z ≤ m)
    (hfit : FitsFrom f s' (exchangePass f m x l).2)
    (hmax : ∀ z ∈ s' ++ (exchangePass f m x l).2, f z ≤ f (exchangePass f m x l).1) :
    Rising f m (f x) l ∧ (m < f x → ∀ z ∈ s', f z ≤ f x) := by
  induction l generalizing x s' with
  | nil =>
    rw [exchangePass, append_nil] at hmax
    exact ⟨trivial, fun _ => hmax⟩
  | cons y l ih =>
    rw [exchangePass] at hfit hmax
    rw [Rising]
    by_cases hy : m < f y
    · rw [if_pos hy] at hfit hmax ⊢
      obtain ⟨hfx, hfit⟩ := hfit
      dsimp only at hmax
      have hhead' : ∀ z ∈ (s' ++ [x] ++ [y]).head?, f z ≤ m := by
        rw [head?_append_of_ne_nil _ (by simp)]
        exact hhead
      have hmax' := hmax
      rw [← singleton_append, ← append_assoc] at hmax'
      obtain ⟨hrise, hall⟩ := ih hhead' hfit hmax'
      have hxy : f x ≤ f y := hall hy x (mem_append_right _ mem_cons_self)
      refine ⟨⟨hxy, hrise⟩, fun hx => ?_⟩
      refine (fits_iff_of_head fun z hz => ?_).1 hfx
      exact (hhead z (mem_head?_append_of_mem_head? hz)).trans_lt hx
    · rw [if_neg hy] at hfit hmax ⊢
      obtain ⟨-, hfit⟩ := hfit
      dsimp only at hmax
      have hhead' : ∀ z ∈ (s' ++ [y] ++ [x]).head?, f z ≤ m := by
        intro z hz
        cases s' with
        | nil =>
          obtain rfl : y = z := by simpa using hz
          exact not_lt.1 hy
        | cons w s' => exact hhead z (by simpa using hz)
      have hmax' := hmax
      rw [← singleton_append, ← append_assoc] at hmax'
      obtain ⟨hrise, hall⟩ := ih hhead' hfit hmax'
      exact ⟨hrise, fun hx z hz => hall hx z (mem_append_left _ hz)⟩

/-- The entries of a list fit if and only if the first pass brings the greatest value to the front and the
entries it leaves fit. -/
theorem fitsFrom_cons_iff (x : α) (l : List α) : FitsFrom f [] (x :: l) ↔
    (∀ z ∈ (exchangePass f (f x) x l).2, f z ≤ f (exchangePass f (f x) x l).1) ∧
      FitsFrom f [] (exchangePass f (f x) x l).2 := by
  have hpass : FitsFrom f [x] l ↔
      Rising f (f x) (f x) l ∧ FitsFrom f [] (exchangePass f (f x) x l).2 :=
    fitsFrom_iff_pass le_rfl (Perm.refl [x]) (fun z hz => (mem_singleton.1 hz) ▸ le_rfl)
      fun _ _ => rfl
  rw [FitsFrom, nil_append, hpass]
  constructor
  · rintro ⟨-, hrise, hfit⟩
    exact ⟨(hrise.le_pass le_rfl).2, hfit⟩
  · rintro ⟨hmax, hfit⟩
    have hhead : ∀ z ∈ ([] ++ [x]).head?, f z ≤ f x := by
      rintro z ⟨⟩
      exact le_rfl
    exact ⟨Nat.le_refl 0, (rising_of_fitsFrom hhead hfit hmax).1, hfit⟩

theorem pairwise_exchangeSort_iff (l : List α) :
    ((exchangeSort f l.length l).Pairwise fun x y => f y ≤ f x) ↔ Exchangeable f l := by
  rw [exchangeable_iff]
  have hn : ∀ n, ∀ l : List α, l.length = n →
      (((exchangeSort f n l).Pairwise fun x y => f y ≤ f x) ↔ FitsFrom f [] l) := by
    intro n
    induction n with
    | zero =>
      intro l hl
      rw [length_eq_zero_iff.1 hl]
      exact ⟨fun _ => trivial, fun _ => Pairwise.nil⟩
    | succ n ih =>
      intro l hl
      cases l with
      | nil => cases hl
      | cons x l =>
        have hlen : (exchangePass f (f x) x l).2.length = n :=
          (Nat.succ.inj (exchangePass_perm (f x) x l).length_eq).trans (Nat.succ.inj hl)
        rw [exchangeSort, pairwise_cons, ih _ hlen, fitsFrom_cons_iff]
        refine and_congr_left fun _ => ?_
        exact forall_congr' fun z => by rw [(exchangeSort_perm n _).mem_iff]
  exact hn l.length l rfl

end

end Ns2
