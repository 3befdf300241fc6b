import Mathlib.Data.Char
import Mathlib.Data.Rat.Floor

/-! Scanning of strings in the manner of `std::string`: positions that may be `npos`, and
substrings given by a position and a length. What is scanned are fields that end at a separator
and pieces joined by one. Strings in arrays, which have a place for their end. Numbers as `printf`
writes them with `%i` and `%f` and as `atoi` and `atof` read them. The readers stop at the first
character that does not belong to the number. -/

namespace Ns2

open List Nat

instance lawfulBEqText : LawfulBEq (List Char) := inferInstance

namespace Str

variable {α : Type*}

/-- A string in an array of `size` characters; `none` writes its end behind the array. -/
def stored (size : ℕ) (s : List α) : Option (List α) := if s.length < size then some s else none

theorem stored_length (s : List α) : stored s.length s = none := if_neg (lt_irrefl _)

variable [DecidableEq α] {l : List (List α)}

/-- The first position of `c`; `none` is `npos`. -/
def find (c : α) : List α → Option ℕ
  | [] => none
  | x :: s => if x = c then some 0 else (find c s).map (· + 1)

/-- `pos + 1`; it wraps to 0 at `npos`. -/
def after : Option ℕ → ℕ
  | none => 0
  | some i => i + 1

/-- `pos - 1` as a length; from 0 it wraps to `npos`, and either is longer than any
string. -/
def before : Option ℕ → Option ℕ
  | some (i + 1) => some i
  | _ => none

/-- `len` characters from `pos` on, all of them at length `npos`; `none` is an exception. -/
def substr (pos : ℕ) (len : Option ℕ) (s : List α) : Option (List α) :=
  if s.length < pos then none
  else
    match len with
    | none => some (s.drop pos)
    | some n => some ((s.drop pos).take n)

/-- What is left behind the next `n` occurrences of `c`; nothing is cut once there are no
more. -/
def skip (c : α) : ℕ → List α → List α
  | 0, s => s
  | n + 1, s => skip c n (s.drop (after (find c s)))

variable {c d : α} {a b s rest : List α}

theorem find_eq_none (h : c ∉ s) : find c s = none := by
  induction s with
  | nil => rfl
  | cons x s ih =>
    rw [mem_cons, not_or] at h
    rw [find, if_neg (Ne.symm h.1), ih h.2]
    rfl

theorem find_lt {i : ℕ} (h : find c s = some i) : i < s.length := by
  induction s generalizing i with
  | nil => cases h
  | cons x s ih =>
    rw [find] at h
    split_ifs at h
    · obtain rfl := Option.some.inj h
      exact Nat.succ_pos _
    · obtain ⟨j, hj, rfl⟩ := Option.map_eq_some_iff.1 h
      exact Nat.succ_lt_succ (ih hj)

theorem find_head (h : s.head? = some c) (rest : List α) : find c (s ++ rest) = some 0 := by
  cases s with
  | nil => cases h
  | cons x s =>
    obtain rfl : x = c := Option.some.inj h
    exact if_pos rfl

theorem find_append (h : c ∉ a) (rest : List α) :
    find c (a ++ c :: rest) = some a.length := by
  induction a with
  | nil => exact if_pos rfl
  | cons x a ih =>
    rw [mem_cons, not_or] at h
    rw [cons_append, find, if_neg (Ne.symm h.1), ih h.2]
    rfl

theorem drop_after_find (h : c ∉ a) (rest : List α) :
    (a ++ c :: rest).drop (after (find c (a ++ c :: rest))) = rest := by
  rw [find_append h, after, ← singleton_append, ← append_assoc]
  exact drop_left' (by rw [length_append]; rfl)

/-- The substring between two separators with the end position for its length: it runs
on behind the second one, by the length of what is in front of the first. -/
theorem substr_field (hca : c ∉ a) (hda : d ∉ a) (hdc : d ≠ c) (hdb : d ∉ b) :
    substr (after (find c (a ++ c :: (b ++ d :: rest))))
      (before (find d (a ++ c :: (b ++ d :: rest)))) (a ++ c :: (b ++ d :: rest)) =
      some (b ++ (d :: rest).take a.length) := by
  have hd : find d (a ++ c :: (b ++ d :: rest)) = some (a.length + b.length + 1) := by
    have hmem : d ∉ a ++ c :: b := by
      simp only [mem_append, mem_cons, not_or]
      exact ⟨hda, hdc, hdb⟩
    have hassoc : a ++ c :: (b ++ d :: rest) = (a ++ c :: b) ++ d :: rest := by
      rw [append_assoc, cons_append]
    rw [hassoc, find_append hmem, length_append, length_cons]
    rfl
  have hlen : ¬ (a ++ c :: (b ++ d :: rest)).length < after (some a.length) := by
    simp only [length_append, length_cons, after]
    omega
  have hdrop := drop_after_find hca (b ++ d :: rest)
  rw [hd]
  rw [find_append hca] at hdrop ⊢
  rw [substr.eq_def, if_neg hlen]
  dsimp only [before]
  rw [hdrop, add_comm, take_length_add_append]

theorem substr_field_end (hca : c ∉ a) (hd : d ∉ a ++ c :: b) :
    substr (after (find c (a ++ c :: b))) (before (find d (a ++ c :: b))) (a ++ c :: b) =
      some b := by
  have hlen : ¬ (a ++ c :: b).length < after (some a.length) := by
    simp only [length_append, length_cons, after]
    omega
  have hdrop := drop_after_find hca b
  rw [find_eq_none hd]
  rw [find_append hca] at hdrop ⊢
  rw [substr.eq_def, if_neg hlen]
  exact congrArg some hdrop

omit [DecidableEq α] in
theorem substr_npos (s : List α) : substr 0 none s = some s := by
  rw [substr, if_neg (not_lt_zero _)]
  rfl

omit [DecidableEq α] in
theorem substr_zero (n : ℕ) (s : List α) : substr 0 (some n) s = some (s.take n) := by
  rw [substr, if_neg (not_lt_zero _)]
  rfl

theorem substr_find (h : c ∉ a) (rest : List α) :
    substr 0 (find c (a ++ c :: rest)) (a ++ c :: rest) = some a := by
  rw [find_append h, substr_zero, take_left]

/-- The pieces with `c` between them. -/
def join (c : α) : List (List α) → List α
  | [] => []
  | s :: l => s ++ l.flatMap fun t => c :: t

omit [DecidableEq α] in
theorem join_cons_cons (c : α) (s t : List α) (l : List (List α)) :
    join c (s :: t :: l) = s ++ c :: join c (t :: l) := by
  simp [join]

theorem skip_append (h : c ∉ a) (n : ℕ) (rest : List α) :
    skip c (n + 1) (a ++ c :: rest) = skip c n rest := by
  rw [skip, drop_after_find h]

theorem skip_join (h : ∀ s ∈ l, c ∉ s) {i : ℕ} (hi : i < l.length) (tail : List α) :
    skip c i (join c l ++ tail) = join c (l.drop i) ++ tail := by
  induction l generalizing i with
  | nil => cases hi
  | cons s l ih =>
    cases i with
    | zero => rfl
    | succ i =>
      cases l with
      | nil => exact absurd (lt_of_succ_lt_succ hi) (not_lt_zero i)
      | cons t l =>
        rw [join_cons_cons, append_assoc, cons_append,
          skip_append (h s mem_cons_self), drop_succ_cons]
        exact ih (fun u hu => h u (mem_cons_of_mem _ hu)) (lt_of_succ_lt_succ hi)

omit [DecidableEq α] in
theorem mem_join {x : α} (h : x ∈ join c l) : x = c ∨ ∃ s ∈ l, x ∈ s := by
  cases l with
  | nil => cases h
  | cons s l =>
    rcases mem_append.1 h with h | h
    · exact Or.inr ⟨s, mem_cons_self, h⟩
    · obtain ⟨t, ht, hx⟩ := mem_flatMap.1 h
      rcases mem_cons.1 hx with hx | hx
      · exact Or.inl hx
      · exact Or.inr ⟨t, mem_cons_of_mem _ ht, hx⟩

omit [DecidableEq α] in
theorem not_mem_join {x : α} (hxc : x ≠ c) (h : ∀ s ∈ l, x ∉ s) : x ∉ join c l := by
  intro hmem
  rcases mem_join hmem with hx | ⟨s, hs, hx⟩
  · exact hxc hx
  · exact h s hs hx

theorem count_join (h : ∀ s ∈ l, c ∉ s) : (join c l).count c = l.length - 1 := by
  cases l with
  | nil => rfl
  | cons s l =>
    have htail : ∀ l : List (List α), (∀ s ∈ l, c ∉ s) →
        (l.flatMap fun t => c :: t).count c = l.length := by
      intro l hl
      induction l with
      | nil => rfl
      | cons t l ih =>
        rw [flatMap_cons, count_append, count_cons_self,
          count_eq_zero_of_not_mem (hl t mem_cons_self),
          ih fun u hu => hl u (mem_cons_of_mem _ hu), length_cons]
        omega
    rw [join, count_append, count_eq_zero_of_not_mem (h s mem_cons_self),
      htail l fun u hu => h u (mem_cons_of_mem _ hu), length_cons]
    omega

/-- The pieces between the separators, those at the ends included. -/
def segments (c : α) : List α → List (List α)
  | [] => [[]]
  | x :: s =>
    if x = c then [] :: segments c s
    else
      match segments c s with
      | [] => [[x]]
      | t :: ts => (x :: t) :: ts

theorem segments_append (h : c ∉ a) (rest : List α) :
    segments c (a ++ c :: rest) = a :: segments c rest := by
  induction a with
  | nil => exact if_pos rfl
  | cons x a ih =>
    rw [mem_cons, not_or] at h
    rw [cons_append, segments, if_neg (Ne.symm h.1), ih h.2]

theorem segments_eq_cons (h : c ∉ a) (rest : List α) :
    ∃ t ts, segments c rest = t :: ts ∧ segments c (a ++ rest) = (a ++ t) :: ts := by
  induction a with
  | nil =>
    cases hs : segments c rest with
    | nil =>
      cases rest with
      | nil => cases hs
      | cons x s =>
        rw [segments] at hs
        split_ifs at hs
        split at hs <;> cases hs
    | cons t ts => exact ⟨t, ts, rfl, hs⟩
  | cons x a ih =>
    rw [mem_cons, not_or] at h
    obtain ⟨t, ts, ht, hseg⟩ := ih h.2
    refine ⟨t, ts, ht, ?_⟩
    rw [cons_append, segments, if_neg (Ne.symm h.1), hseg]
    rfl

/-- The segments of a joined list are its pieces, but for what follows the last one. -/
theorem segments_join (h : ∀ s ∈ l, c ∉ s) {i : ℕ} {s : List α} (hi : l[i]? = some s)
    (tail : List α) :
    ∃ j, (segments c (join c l ++ tail))[i]? = some (s ++ j) ∧
      (j = [] ∨ (segments c tail).head? = some j) := by
  induction l generalizing i with
  | nil => cases hi
  | cons t l ih =>
    have ht := h t mem_cons_self
    cases l with
    | nil =>
      obtain ⟨j, js, hj, hseg⟩ := segments_eq_cons ht tail
      cases i with
      | zero =>
        obtain rfl : t = s := Option.some.inj hi
        have hjoin : join c [t] ++ tail = t ++ tail := by simp [join]
        exact ⟨j, by rw [hjoin, hseg]; rfl, Or.inr (by rw [hj]; rfl)⟩
      | succ i => cases hi
    | cons u l =>
      rw [join_cons_cons, append_assoc, cons_append, segments_append ht]
      cases i with
      | zero =>
        obtain rfl : t = s := Option.some.inj hi
        exact ⟨[], by rw [append_nil]; rfl, Or.inl rfl⟩
      | succ i => exact ih (fun v hv => h v (mem_cons_of_mem _ hv)) hi

end Str

open List Nat

namespace Str

variable {n : ℕ}

/-- `isspace`. -/
def isSpace (c : Char) : Bool := c = ' ' || ('\t' ≤ c && c ≤ '\r')

/-- The value of the digits at the front. -/
def digits (s : List Char) : ℕ := ofDigitChars 10 (s.takeWhile Char.isDigit) 0

/-- A sign and digits. -/
def signed : List Char → ℤ
  | '-' :: s => -digits s
  | '+' :: s => digits s
  | s => digits s

/-- The value is taken to fit an `int`. -/
def atoi (s : List Char) : ℤ := signed (s.dropWhile isSpace)

/-- The scale that an exponent at the front stands for. -/
def scale : List Char → ℚ
  | c :: s =>
    if c = 'e' ∨ c = 'E' then
      if 0 ≤ signed s then 10 ^ (signed s).natAbs else 1 / 10 ^ (signed s).natAbs
    else 1
  | [] => 1

/-- Digits with a fraction and an exponent, if there are any. -/
def unsignedFloat (s : List Char) : ℚ :=
  match s.dropWhile Char.isDigit with
  | '.' :: t =>
    (digits s + digits t / 10 ^ (t.takeWhile Char.isDigit).length) *
      scale (t.dropWhile Char.isDigit)
  | t => digits s * scale t

/-- Decimal forms only; `inf`, `nan` and hexadecimal ones are left out. -/
def atof (s : List Char) : ℚ :=
  match s.dropWhile isSpace with
  | '-' :: s => -unsignedFloat s
  | '+' :: s => unsignedFloat s
  | s => unsignedFloat s

/-- `%i`. -/
def showInt (n : ℤ) : List Char :=
  if n < 0 then '-' :: toDigits 10 n.natAbs else toDigits 10 n.natAbs

/-- The nearest natural number, the even one of two. -/
def roundEven (q : ℚ) : ℕ :=
  if q - ⌊q⌋₊ < 1 / 2 then ⌊q⌋₊
  else if 1 / 2 < q - ⌊q⌋₊ then ⌊q⌋₊ + 1
  else if ⌊q⌋₊ % 2 = 0 then ⌊q⌋₊ else ⌊q⌋₊ + 1

/-- At least `w` digits. -/
def padded (w n : ℕ) : List Char :=
  replicate (w - (toDigits 10 n).length) '0' ++ toDigits 10 n

/-- `%f`: six decimals. -/
def showFloat (x : ℚ) : List Char :=
  let n := roundEven (|x| * 10 ^ 6)
  (if x < 0 then ['-'] else []) ++ (toDigits 10 (n / 10 ^ 6) ++ '.' :: padded 6 (n % 10 ^ 6))

/-- The text does not go on with a character that `p` accepts. -/
def Stops (p : Char → Bool) (s : List Char) : Prop := ∀ c ∈ s.head?, p c = false

theorem stops_nil (p : Char → Bool) : Stops p [] := fun _ hc => nomatch hc

theorem stops_cons {p : Char → Bool} {c : Char} (h : p c = false) (s : List Char) :
    Stops p (c :: s) := by
  intro d hd
  exact Option.mem_some.1 hd ▸ h

variable {p : Char → Bool} {ds junk : List Char}

theorem takeWhile_of_stops (hds : ∀ c ∈ ds, p c = true) (h : Stops p junk) :
    (ds ++ junk).takeWhile p = ds := by
  rw [takeWhile_append_of_pos hds]
  cases junk with
  | nil => exact append_nil ds
  | cons c junk =>
    rw [takeWhile_cons_of_neg (by rw [h c rfl]; decide), append_nil]

theorem dropWhile_of_stops (hds : ∀ c ∈ ds, p c = true) (h : Stops p junk) :
    (ds ++ junk).dropWhile p = junk := by
  rw [dropWhile_append_of_pos hds]
  cases junk with
  | nil => rfl
  | cons c junk => exact dropWhile_cons_of_neg (by rw [h c rfl]; decide)

theorem isDigit_of_mem_toDigits : ∀ c ∈ toDigits 10 n, c.isDigit = true :=
  fun _ hc => Nat.isDigit_of_mem_toDigits (by decide) (by decide) hc

theorem digits_toDigits (n : ℕ) (h : Stops Char.isDigit junk) :
    digits (toDigits 10 n ++ junk) = n := by
  rw [digits, takeWhile_of_stops isDigit_of_mem_toDigits h, ofDigitChars_ten_toDigits]

theorem isDigit_ne {c : Char} (h : c.isDigit = true) : c ≠ '-' ∧ c ≠ '+' ∧ isSpace c = false := by
  have hval : 48 ≤ c.toNat ∧ c.toNat ≤ 57 := by
    simpa [Char.isDigit, UInt32.le_iff_toNat_le] using h
  have hne : ∀ d : Char, d.toNat < 48 → c ≠ d := by
    rintro d hd rfl
    omega
  refine ⟨hne '-' (by decide), hne '+' (by decide), ?_⟩
  have hspace : c ≠ ' ' := hne ' ' (by decide)
  have hle : ¬ c ≤ '\r' := by
    intro hle
    have : c.toNat ≤ 13 := hle
    omega
  simp [isSpace, hspace, hle]

theorem toDigits_eq_cons (n : ℕ) : ∃ c s, toDigits 10 n = c :: s ∧ c.isDigit = true := by
  cases h : toDigits 10 n with
  | nil => exact absurd h toDigits_ne_nil
  | cons c s => exact ⟨c, s, rfl, isDigit_of_mem_toDigits c (h ▸ mem_cons_self)⟩

theorem signed_toDigits (n : ℕ) (h : Stops Char.isDigit junk) :
    signed (toDigits 10 n ++ junk) = n := by
  have hdigits := digits_toDigits n h
  obtain ⟨c, s, hcs, hc⟩ := toDigits_eq_cons n
  obtain ⟨hminus, hplus, -⟩ := isDigit_ne hc
  rw [hcs, cons_append] at hdigits ⊢
  rw [signed.eq_def]
  split
  · exact absurd (List.cons.inj ‹_›).1 hminus
  · exact absurd (List.cons.inj ‹_›).1 hplus
  · exact congrArg Int.ofNat hdigits

theorem atoi_showInt (n : ℤ) (h : Stops Char.isDigit junk) : atoi (showInt n ++ junk) = n := by
  unfold atoi showInt
  split_ifs with hneg
  · rw [cons_append, dropWhile_cons_of_neg (by decide), signed, digits_toDigits _ h]
    omega
  · have hskip : (toDigits 10 n.natAbs ++ junk).dropWhile isSpace =
        toDigits 10 n.natAbs ++ junk := by
      obtain ⟨c, s, hcs, hc⟩ := toDigits_eq_cons n.natAbs
      rw [hcs, cons_append]
      exact dropWhile_cons_of_neg (by rw [(isDigit_ne hc).2.2]; decide)
    rw [hskip, signed_toDigits _ h]
    omega

theorem length_padded {w : ℕ} (hw : 0 < w) (h : n < 10 ^ w) : (padded w n).length = w := by
  have hle := (length_toDigits_le_iff (by decide) hw).2 h
  rw [padded, length_append, length_replicate]
  omega

theorem isDigit_of_mem_padded {w : ℕ} : ∀ c ∈ padded w n, c.isDigit = true := by
  intro c hc
  rcases mem_append.1 hc with hc | hc
  · rw [(mem_replicate.1 hc).2]
    decide
  · exact isDigit_of_mem_toDigits c hc

theorem digits_padded (w n : ℕ) (h : Stops Char.isDigit junk) :
    digits (padded w n ++ junk) = n := by
  rw [digits, takeWhile_of_stops isDigit_of_mem_padded h, padded, ofDigitChars_append,
    ofDigitChars_replicate_zero, mul_zero, ofDigitChars_ten_toDigits]

theorem scale_of_stops (h : Stops (fun c => c = 'e' || c = 'E') junk) : scale junk = 1 := by
  cases junk with
  | nil => rfl
  | cons c junk =>
    have hc := h c rfl
    rw [Bool.or_eq_false_iff, decide_eq_false_iff_not, decide_eq_false_iff_not] at hc
    exact if_neg (not_or.2 hc)

theorem unsignedFloat_decimals (a b : ℕ) (hb : b < 10 ^ 6) (hdigit : Stops Char.isDigit junk)
    (hexp : Stops (fun c => c = 'e' || c = 'E') junk) :
    unsignedFloat (toDigits 10 a ++ '.' :: (padded 6 b ++ junk)) = a + b / 10 ^ 6 := by
  have hdot : Stops Char.isDigit ('.' :: (padded 6 b ++ junk)) := stops_cons (by decide) _
  rw [unsignedFloat, dropWhile_of_stops isDigit_of_mem_toDigits hdot, digits_toDigits _ hdot]
  change (a + digits (padded 6 b ++ junk) / 10 ^ _ : ℚ) * scale _ = _
  rw [digits_padded 6 b hdigit,
    takeWhile_of_stops isDigit_of_mem_padded hdigit,
    dropWhile_of_stops isDigit_of_mem_padded hdigit, length_padded (by decide) hb,
    scale_of_stops hexp, mul_one]

theorem abs_roundEven_sub_le {q : ℚ} (hq : 0 ≤ q) : |(roundEven q : ℚ) - q| ≤ 1 / 2 := by
  have hle := floor_le hq
  have hlt := lt_floor_add_one q
  unfold roundEven
  rw [abs_le]
  split_ifs
  all_goals
    push_cast
    constructor <;> linarith

/-- `atof` reads what `%f` writes up to half a unit of the sixth decimal, whatever comes
behind it. -/
theorem abs_atof_showFloat_sub_le (x : ℚ) (hdigit : Stops Char.isDigit junk)
    (hexp : Stops (fun c => c = 'e' || c = 'E') junk) :
    |atof (showFloat x ++ junk) - x| ≤ 1 / 2000000 := by
  have hround := abs_roundEven_sub_le (q := |x| * 10 ^ 6) (by positivity)
  set n := roundEven (|x| * 10 ^ 6) with hn
  have hvalue : unsignedFloat
      (toDigits 10 (n / 10 ^ 6) ++ '.' :: (padded 6 (n % 10 ^ 6) ++ junk)) = n / 10 ^ 6 := by
    rw [unsignedFloat_decimals _ _ (mod_lt _ (by decide)) hdigit hexp]
    have hdiv : (n : ℚ) = 10 ^ 6 * (n / 10 ^ 6 : ℕ) + (n % 10 ^ 6 : ℕ) := by
      exact_mod_cast (div_add_mod n (10 ^ 6)).symm
    field_simp
    linarith
  have hclose : |(n : ℚ) / 10 ^ 6 - (|x|)| ≤ 1 / 2000000 := by
    have hscale : (n : ℚ) / 10 ^ 6 - (|x|) = (n - |x| * 10 ^ 6) / 10 ^ 6 := by ring
    rw [hscale, abs_div, abs_of_pos (by norm_num : (0 : ℚ) < 10 ^ 6), div_le_iff₀ (by norm_num)]
    linarith
  obtain ⟨c, s, hcs, hc⟩ := toDigits_eq_cons (n / 10 ^ 6)
  obtain ⟨hminus, hplus, hspace⟩ := isDigit_ne hc
  unfold atof showFloat
  rw [← hn]
  rw [append_assoc, append_assoc, cons_append]
  split_ifs with hneg
  · rw [singleton_append, dropWhile_cons_of_neg (by decide)]
    change |-(unsignedFloat _) - x| ≤ _
    rw [hvalue]
    rw [abs_of_neg hneg] at hclose
    rw [abs_le] at hclose ⊢
    constructor <;> linarith
  · rw [nil_append]
    rw [hcs, cons_append] at hvalue ⊢
    rw [dropWhile_cons_of_neg (by rw [hspace]; decide)]
    rw [abs_of_nonneg (not_lt.1 hneg)] at hclose
    split
    · exact absurd (List.cons.inj ‹_›).1 hminus
    · exact absurd (List.cons.inj ‹_›).1 hplus
    · rwa [hvalue]

/-- What a printed number is made of. -/
def isNumeric (c : Char) : Bool := c.isDigit || c = '-' || c = '.'

theorem isNumeric_of_mem_showInt {n : ℤ} : ∀ c ∈ showInt n, isNumeric c = true := by
  intro c hc
  unfold showInt at hc
  split_ifs at hc
  · rcases mem_cons.1 hc with rfl | hc
    · decide
    · simp [isNumeric, isDigit_of_mem_toDigits c hc]
  · simp [isNumeric, isDigit_of_mem_toDigits c hc]

theorem isNumeric_of_mem_showFloat {x : ℚ} : ∀ c ∈ showFloat x, isNumeric c = true := by
  intro c hc
  simp only [showFloat, mem_append, mem_cons] at hc
  rcases hc with hc | hc | rfl | hc
  · split_ifs at hc
    · rw [mem_singleton.1 hc]
      decide
    · cases hc
  · simp [isNumeric, isDigit_of_mem_toDigits c hc]
  · decide
  · simp [isNumeric, isDigit_of_mem_padded c hc]

end Str

end Ns2
