import Ns2.Dtn.Wire

/-! `Bundle::retrieveData` on any bytes: when it comes to its end without an abort, a read
behind the buffer or a write where no header is. -/

namespace Ns2

namespace Bundle

open Relation List Option

variable {count : ℕ} {rest' : List UInt8} {recs : List ShortBytes}

/-- The bytes of a buffer; no byte stands in one of negative length. -/
def bytesAt (buf : ℕ → UInt8) (buflen : Int32) : List UInt8 :=
  (range buflen.toInt.toNat).map buf

/-- `retrieveData` on memory, with a length. -/
def retrieveDataAt (buf : ℕ → UInt8) (buflen : Int32) : Option (Option Retrieved) :=
  retrieveData (bytesAt buf buflen)

/-- It returns, -1 or a count within the buffer. -/
def RetrievesSafely (buf : ℕ → UInt8) (buflen : Int32) : Prop :=
  ∃ r, retrieveDataAt buf buflen = some r ∧ ∀ R ∈ r, (R.bcount : ℤ) ≤ buflen.toInt

/-- A place in the chain: the type of the header that comes next, the bytes from there on, and
whether no other header than dictionaries came before. -/
structure Place where
  onlyDict : Bool
  type : UInt8
  rest : List UInt8

/-- The header at a place is whole, and leads to the next place. -/
inductive Follows : Place → Place → Prop
  | dict (next strcount : UInt8) (recs : List ShortBytes) (rest : List UInt8) :
    recs.length = strcount.toNat →
    Follows ⟨true, bdlDict, next :: strcount :: (wireRecords recs ++ rest)⟩ ⟨true, next, rest⟩
  | info (onlyDict : Bool) (type next : UInt8) (rest : List UInt8) :
    type = bdlAuth ∨ type = bdlPsec →
    Follows ⟨onlyDict, type, next :: 0 :: rest⟩ ⟨false, next, rest⟩
  | frag (onlyDict : Bool) (next : UInt8) (fields rest : List UInt8) :
    fields.length = 8 →
    Follows ⟨onlyDict, bdlFrag, next :: (fields ++ rest)⟩ ⟨false, next, rest⟩

/-- The bytes of a dictionary begin with as many strings as it counts. -/
def HasRecords (rest : List UInt8) : Prop :=
  ∃ next strcount recs rest', rest = next :: strcount :: (wireRecords recs ++ rest') ∧
    recs.length = strcount.toNat

/-- The header of a place does no harm: its type is known, a dictionary has all its strings and
stands behind dictionaries only, security information is cut off or empty, and the length of the
payload does not wrap. -/
def Fine (buflen : ℕ) (p : Place) : Prop :=
  p.type = bdlNone ∨
  p.type = bdlDict ∧ (p.rest.length < 2 ∨ p.onlyDict = true ∧ HasRecords p.rest) ∨
  p.type = bdlPyld ∧ (p.rest.length < 5 ∨
    buflen - (p.rest.length - 5) + leVal ((p.rest.drop 1).take 4) < 2 ^ 32) ∨
  (p.type = bdlAuth ∨ p.type = bdlPsec) ∧ (p.rest.length < 2 ∨
    ∃ next len rest', p.rest = next :: len :: rest' ∧ (rest'.length < len.toNat ∨ len = 0)) ∨
  p.type = bdlFrag

/-- All headers that are reached from a place do no harm. -/
def Clean (buflen : ℕ) (p : Place) : Prop := ∀ q, ReflTransGen Follows p q → Fine buflen q

variable {buflen : ℕ} {p q : Place}

theorem clean_iff : Clean buflen p ↔ Fine buflen p ∧ ∀ q, Follows p q → Clean buflen q := by
  constructor
  · exact fun h => ⟨h p ReflTransGen.refl, fun q hq r hr => h r (ReflTransGen.head hq hr)⟩
  · rintro ⟨hp, hnext⟩ r hr
    rcases ReflTransGen.cases_head hr with rfl | ⟨q, hq, hr⟩
    · exact hp
    · exact hnext q hq r hr

theorem clean_of_last (hp : Fine buflen p) (hlast : ∀ q, ¬ Follows p q) : Clean buflen p :=
  clean_iff.2 ⟨hp, fun q hq => absurd hq (hlast q)⟩

theorem clean_iff_of_follows (hp : Fine buflen p) (hpq : Follows p q)
    (hunique : ∀ r, Follows p r → r = q) : Clean buflen p ↔ Clean buflen q := by
  rw [clean_iff]
  refine ⟨fun h => h.2 q hpq, fun hq => ⟨hp, fun r hr => ?_⟩⟩
  rw [hunique r hr]
  exact hq

theorem addRecords_eq {rest : List UInt8} (h : addRecords count rest = some (recs, rest')) :
    rest = wireRecords recs ++ rest' ∧ recs.length = count := by
  induction count generalizing rest recs with
  | zero =>
    obtain ⟨rfl, rfl⟩ := Prod.mk.inj (some.inj h)
    exact ⟨rfl, rfl⟩
  | succ count ih =>
    cases rest with
    | nil => cases h
    | cons len rest =>
      rw [addRecords] at h
      split_ifs at h with hle
      obtain ⟨⟨recs₁, rest₁⟩, hrest, heq⟩ := map_eq_some_iff.1 h
      obtain ⟨rfl, rfl⟩ := Prod.mk.inj heq
      obtain ⟨hdrop, hlength⟩ := ih hrest
      refine ⟨?_, congrArg (· + 1) hlength⟩
      have hlen : UInt8.ofNat (rest.take len.toNat).length = len := by
        rw [length_take_of_le hle, UInt8.ofNat_toNat]
      rw [wireRecords, hlen]
      rw [append_assoc, ← hdrop, cons_append, take_append_drop]

/-- What the loop does with a dictionary, a security header, a fragment header or the payload. -/
theorem retrieveFrom_dict (fuel : ℕ) (record : List ShortBytes) (headers : List Header)
    (rest : List UInt8) : retrieveFrom buflen (fuel + 1) bdlDict record headers rest =
      match rest with
      | next :: strcount :: rest =>
        if headers ≠ [] then none
        else (addRecords strcount.toNat rest).bind fun (record, rest) =>
          retrieveFrom buflen fuel next record [] rest
      | _ => some none := by
  rw [retrieveFrom.eq_def]
  refine (if_neg (by decide)).trans ((if_pos rfl).trans ?_)
  rcases rest with _ | ⟨next, _ | ⟨strcount, rest⟩⟩ <;> rfl

theorem retrieveFrom_info (buflen fuel : ℕ) {type : UInt8} (htype : type = bdlAuth ∨ type = bdlPsec)
    (record : List ShortBytes) (headers : List Header) (rest : List UInt8) :
    ∃ h : ShortBytes → Header, retrieveFrom buflen (fuel + 1) type record headers rest =
      (retrieveInfo rest).bind fun r =>
        match r with
        | none => some none
        | some (next, info, rest) => retrieveFrom buflen fuel next record (headers ++ [h info]) rest := by
  rcases htype with rfl | rfl
  · refine ⟨Header.auth, ?_⟩
    rw [retrieveFrom.eq_def]
    dsimp only
    rw [if_neg (by decide), if_neg (by decide), if_neg (by decide), retrieveHeader, if_pos rfl]
    rcases retrieveInfo rest with _ | _ | ⟨next, info, rest⟩ <;> rfl
  · refine ⟨Header.psec, ?_⟩
    rw [retrieveFrom.eq_def]
    dsimp only
    rw [if_neg (by decide), if_neg (by decide), if_neg (by decide), retrieveHeader,
      if_neg (by decide), if_pos rfl]
    rcases retrieveInfo rest with _ | _ | ⟨next, info, rest⟩ <;> rfl

theorem retrieveFrom_frag (fuel : ℕ) (record : List ShortBytes) (headers : List Header)
    (rest : List UInt8) : retrieveFrom buflen (fuel + 1) bdlFrag record headers rest =
      match retrieveFrag rest with
      | none => some none
      | some (next, h, rest) => retrieveFrom buflen fuel next record (headers ++ [h]) rest := by
  rw [retrieveFrom.eq_def]
  dsimp only
  rw [if_neg (by decide), if_neg (by decide), if_neg (by decide), retrieveHeader,
    if_neg (by decide), if_neg (by decide), if_pos rfl]
  rcases retrieveFrag rest with _ | ⟨next, h, rest⟩ <;> rfl

/-- The loop ends well exactly when the chain does no harm, for places this near to the end. -/
def EndsWell (buflen fuel : ℕ) : Prop :=
  ∀ type record headers rest, rest.length < fuel → rest.length ≤ buflen →
    (retrieveFrom buflen fuel type record headers rest ≠ none ↔
      Clean buflen ⟨headers.isEmpty, type, rest⟩)

variable {fuel : ℕ} {record : List ShortBytes} {headers : List Header} {rest : List UInt8}
  {type : UInt8}

theorem follows_cases (h : Follows p q) :
    (p.type = bdlDict ∧ p.onlyDict = true ∧ ∃ next strcount recs rest,
      p.rest = next :: strcount :: (wireRecords recs ++ rest) ∧ recs.length = strcount.toNat ∧
      q = ⟨true, next, rest⟩) ∨
    ((p.type = bdlAuth ∨ p.type = bdlPsec) ∧ ∃ next rest, p.rest = next :: 0 :: rest ∧
      q = ⟨false, next, rest⟩) ∨
    (p.type = bdlFrag ∧ ∃ next fields rest, p.rest = next :: (fields ++ rest) ∧
      fields.length = 8 ∧ q = ⟨false, next, rest⟩) := by
  cases h with
  | dict next strcount recs rest hlength =>
    exact Or.inl ⟨rfl, rfl, next, strcount, recs, rest, rfl, hlength, rfl⟩
  | info onlyDict type next rest htype => exact Or.inr (Or.inl ⟨htype, next, rest, rfl, rfl⟩)
  | frag onlyDict next fields rest hlength =>
    exact Or.inr (Or.inr ⟨rfl, next, fields, rest, rfl, hlength, rfl⟩)

theorem not_follows (htype : ¬ (p.type = bdlDict ∨ p.type = bdlAuth ∨ p.type = bdlPsec ∨
    p.type = bdlFrag)) : ¬ Follows p q := by
  intro h
  rcases follows_cases h with ⟨ht, -⟩ | ⟨ht | ht, -⟩ | ⟨ht, -⟩
  all_goals simp [ht] at htype

theorem retrieveFrom_none_iff :
    retrieveFrom buflen (fuel + 1) bdlNone record headers rest ≠ none ↔
      Clean buflen ⟨headers.isEmpty, bdlNone, rest⟩ := by
  refine iff_of_true ?_ (clean_of_last (Or.inl rfl) fun q =>
    not_follows (by dsimp only; decide))
  rw [retrieveFrom.eq_def]
  exact some_ne_none _

theorem addRecords_iff :
    addRecords count rest = some (recs, rest') ↔
      rest = wireRecords recs ++ rest' ∧ recs.length = count := by
  refine ⟨addRecords_eq, ?_⟩
  rintro ⟨rfl, rfl⟩
  exact addRecords_wire recs rest'

theorem EndsWell.dict (h : EndsWell buflen fuel) (hfuel : rest.length < fuel + 1)
    (hlen : rest.length ≤ buflen) :
    retrieveFrom buflen (fuel + 1) bdlDict record headers rest ≠ none ↔
      Clean buflen ⟨headers.isEmpty, bdlDict, rest⟩ := by
  have hinv : ∀ {q}, Follows ⟨headers.isEmpty, bdlDict, rest⟩ q → headers.isEmpty = true ∧
      ∃ next strcount recs rest', rest = next :: strcount :: (wireRecords recs ++ rest') ∧
        recs.length = strcount.toNat ∧ q = ⟨true, next, rest'⟩ := by
    intro q hq
    rcases follows_cases hq with ⟨-, h⟩ | ⟨ht | ht, -⟩ | ⟨ht, -⟩
    · exact h
    · cases ht
    · cases ht
    · cases ht
  rw [retrieveFrom_dict]
  rcases rest with _ | ⟨next, _ | ⟨strcount, tail⟩⟩
  · refine iff_of_true (some_ne_none _) (clean_of_last ?_ fun q hq => ?_)
    · exact Or.inr (Or.inl ⟨rfl, Or.inl (by simp)⟩)
    · obtain ⟨-, _, _, _, _, heq, -⟩ := hinv hq
      cases heq
  · refine iff_of_true (some_ne_none _) (clean_of_last ?_ fun q hq => ?_)
    · exact Or.inr (Or.inl ⟨rfl, Or.inl (by simp)⟩)
    · obtain ⟨-, _, _, _, _, heq, -⟩ := hinv hq
      cases heq
  · dsimp only
    have hfine : Fine buflen ⟨headers.isEmpty, bdlDict, next :: strcount :: tail⟩ ↔
        headers.isEmpty = true ∧ HasRecords (next :: strcount :: tail) := by
      simp [Fine, bdlDict, bdlNone, bdlPyld, bdlAuth, bdlPsec, bdlFrag]
    by_cases hempty : headers = []
    · subst hempty
      rw [if_neg (by simp)]
      cases hrecs : addRecords strcount.toNat tail with
      | none =>
        refine iff_of_false (fun hne => hne rfl) fun hclean => ?_
        obtain ⟨-, next', strcount', recs, rest', heq, hlength⟩ := hfine.1 (clean_iff.1 hclean).1
        obtain ⟨rfl, htail⟩ := List.cons.inj (List.cons.inj heq).2
        rw [addRecords_iff.2 ⟨htail, hlength⟩] at hrecs
        cases hrecs
      | some r =>
        obtain ⟨recs, rest'⟩ := r
        obtain ⟨rfl, hlength⟩ := addRecords_eq hrecs
        simp only [length_cons, length_append] at hfuel hlen
        rw [bind_some]
        rw [h next recs [] rest' (by omega) (by omega)]
        refine (clean_iff_of_follows (hfine.2 ⟨rfl, next, strcount, recs, rest', rfl, hlength⟩)
          (Follows.dict next strcount recs rest' hlength) fun q hq => ?_).symm
        obtain ⟨-, next', strcount', recs', rest'', heq, hlength', rfl⟩ := hinv hq
        obtain ⟨hnext, heq'⟩ := List.cons.inj heq
        obtain ⟨rfl, htail⟩ := List.cons.inj heq'
        rw [addRecords_iff.2 ⟨htail, hlength'⟩] at hrecs
        obtain ⟨rfl, rfl⟩ := Prod.mk.inj (some.inj hrecs)
        rw [hnext]
    · rw [if_pos hempty]
      refine iff_of_false (fun hne => hne rfl) fun hclean => hempty ?_
      exact isEmpty_iff.1 (hfine.1 (clean_iff.1 hclean).1).1

theorem EndsWell.info (h : EndsWell buflen fuel) (htype : type = bdlAuth ∨ type = bdlPsec)
    (hfuel : rest.length < fuel + 1) (hlen : rest.length ≤ buflen) :
    retrieveFrom buflen (fuel + 1) type record headers rest ≠ none ↔
      Clean buflen ⟨headers.isEmpty, type, rest⟩ := by
  have hinv : ∀ {q}, Follows ⟨headers.isEmpty, type, rest⟩ q →
      ∃ next rest', rest = next :: 0 :: rest' ∧ q = ⟨false, next, rest'⟩ := by
    intro q hq
    rcases follows_cases hq with ⟨ht, -⟩ | ⟨-, h⟩ | ⟨ht, -⟩
    · rcases htype with rfl | rfl <;> cases ht
    · exact h
    · rcases htype with rfl | rfl <;> cases ht
  have hfine : Fine buflen ⟨headers.isEmpty, type, rest⟩ ↔ rest.length < 2 ∨
      ∃ next len rest', rest = next :: len :: rest' ∧ (rest'.length < len.toNat ∨ len = 0) := by
    rcases htype with rfl | rfl <;> simp [Fine, bdlDict, bdlNone, bdlPyld, bdlAuth, bdlPsec, bdlFrag]
  obtain ⟨hdr, heq⟩ := retrieveFrom_info buflen fuel htype record headers rest
  rw [heq]
  rcases rest with _ | ⟨next, _ | ⟨len, tail⟩⟩
  · refine iff_of_true (some_ne_none _) (clean_of_last (hfine.2 (Or.inl (by simp))) ?_)
    intro q hq
    obtain ⟨_, _, hrest, -⟩ := hinv hq
    cases hrest
  · refine iff_of_true (some_ne_none _) (clean_of_last (hfine.2 (Or.inl (by simp))) ?_)
    intro q hq
    obtain ⟨_, _, hrest, -⟩ := hinv hq
    cases hrest
  · have hfine : Fine buflen ⟨headers.isEmpty, type, next :: len :: tail⟩ ↔
        tail.length < len.toNat ∨ len = 0 := by
      rw [hfine, or_iff_right (by simp)]
      constructor
      · rintro ⟨next', len', rest', hrest, hdone⟩
        obtain ⟨rfl, rfl⟩ := List.cons.inj (List.cons.inj hrest).2
        exact hdone
      · exact fun hdone => ⟨next, len, tail, rfl, hdone⟩
    rw [retrieveInfo]
    by_cases hshort : tail.length < len.toNat
    · rw [if_pos hshort]
      refine iff_of_true (some_ne_none _) (clean_of_last (hfine.2 (Or.inl hshort)) ?_)
      intro q hq
      obtain ⟨_, _, hrest, -⟩ := hinv hq
      obtain ⟨rfl, -⟩ := List.cons.inj (List.cons.inj hrest).2
      cases hshort
    · rw [if_neg hshort]
      by_cases hzero : len = 0
      · subst hzero
        simp only [length_cons] at hfuel hlen
        rw [if_pos rfl, bind_some]
        have hlast : (headers ++ [hdr ⟨[], by decide⟩]).isEmpty = false := by simp
        rw [h next record _ tail (by omega) (by omega), hlast]
        refine (clean_iff_of_follows (hfine.2 (Or.inr rfl))
          (Follows.info headers.isEmpty type next tail htype) fun q hq => ?_).symm
        obtain ⟨next', rest', hrest, rfl⟩ := hinv hq
        obtain ⟨rfl, htail⟩ := List.cons.inj hrest
        rw [(List.cons.inj htail).2]
      · rw [if_neg hzero]
        refine iff_of_false (fun hne => hne rfl) fun hclean => ?_
        exact (hfine.1 (clean_iff.1 hclean).1).elim hshort hzero

theorem EndsWell.frag (h : EndsWell buflen fuel) (hfuel : rest.length < fuel + 1)
    (hlen : rest.length ≤ buflen) :
    retrieveFrom buflen (fuel + 1) bdlFrag record headers rest ≠ none ↔
      Clean buflen ⟨headers.isEmpty, bdlFrag, rest⟩ := by
  have hfine : Fine buflen ⟨headers.isEmpty, bdlFrag, rest⟩ :=
    Or.inr (Or.inr (Or.inr (Or.inr rfl)))
  have hinv : ∀ {q}, Follows ⟨headers.isEmpty, bdlFrag, rest⟩ q → ∃ next fields rest',
      rest = next :: (fields ++ rest') ∧ fields.length = 8 ∧ q = ⟨false, next, rest'⟩ := by
    intro q hq
    rcases follows_cases hq with ⟨ht, -⟩ | ⟨ht | ht, -⟩ | ⟨-, h⟩
    · cases ht
    · cases ht
    · cases ht
    · exact h
  rw [retrieveFrom_frag]
  rcases rest with _ | ⟨next, tail⟩
  · refine iff_of_true (some_ne_none _) (clean_of_last hfine fun q hq => ?_)
    obtain ⟨_, _, _, hrest, -⟩ := hinv hq
    cases hrest
  · rw [retrieveFrag]
    by_cases hshort : tail.length < 2 * 4
    · rw [if_pos hshort]
      refine iff_of_true (some_ne_none _) (clean_of_last hfine fun q hq => ?_)
      obtain ⟨_, fields, rest', hrest, hfields, -⟩ := hinv hq
      rw [(List.cons.inj hrest).2, length_append] at hshort
      omega
    · rw [if_neg hshort]
      simp only [length_cons] at hfuel hlen
      have hdrop : (tail.drop 8).length ≤ tail.length := by
        rw [length_drop]
        omega
      rw [h next record _ (tail.drop 8) (by omega) (by omega)]
      have hlast : ∀ x : Header, (headers ++ [x]).isEmpty = false := fun x => by simp
      rw [hlast]
      have hfields : (tail.take 8).length = 8 := length_take_of_le (by omega)
      have hfollows := Follows.frag headers.isEmpty next (tail.take 8) (tail.drop 8) hfields
      rw [take_append_drop] at hfollows
      refine (clean_iff_of_follows hfine hfollows fun q hq => ?_).symm
      obtain ⟨next', fields, rest', hrest, hlength, rfl⟩ := hinv hq
      obtain ⟨rfl, rfl⟩ := List.cons.inj hrest
      rw [drop_left' hlength]

theorem retrieveFrom_pyld_iff (hlt : buflen < 2 ^ 31) (hlen : rest.length ≤ buflen) :
    retrieveFrom buflen (fuel + 1) bdlPyld record headers rest ≠ none ↔
      Clean buflen ⟨headers.isEmpty, bdlPyld, rest⟩ := by
  have hclean : Clean buflen ⟨headers.isEmpty, bdlPyld, rest⟩ ↔ rest.length < 5 ∨
      buflen - (rest.length - 5) + leVal ((rest.drop 1).take 4) < 2 ^ 32 := by
    rw [clean_iff, and_iff_left fun q hq => absurd hq (not_follows (by dsimp only; decide))]
    simp [Fine, bdlDict, bdlNone, bdlPyld, bdlAuth, bdlPsec, bdlFrag]
  have hmap : retrieveFrom buflen (fuel + 1) bdlPyld record headers rest ≠ none ↔
      retrievePyld buflen rest ≠ none := by
    rw [retrieveFrom.eq_def]
    dsimp only
    rw [if_neg (by decide), if_neg (by decide), if_pos rfl]
    simp
  rw [hmap, hclean]
  rcases rest with _ | ⟨pldclass, tail⟩
  · exact iff_of_true (some_ne_none _) (Or.inl (by simp))
  · rw [retrievePyld]
    simp only [length_cons, drop_succ_cons, drop_zero] at hlen ⊢
    by_cases hshort : tail.length < 4
    · rw [if_pos hshort]
      exact iff_of_true (some_ne_none _) (Or.inl (by omega))
    · rw [if_neg hshort, or_iff_right (by omega)]
      have hval : leVal (tail.take 4) < 2 ^ 32 :=
        leVal_lt_of_length_le (length_take_le 4 tail)
      rw [length_drop, show tail.length + 1 - 5 = tail.length - 4 by omega]
      generalize leVal (tail.take 4) = len at hval ⊢
      by_cases hsmall : buflen - (tail.length - 4) + len < 2 ^ 32
      · refine iff_of_true ?_ hsmall
        rw [Nat.mod_eq_of_lt hsmall]
        by_cases hover : buflen - (tail.length - 4) + len > buflen
        · rw [if_pos hover]
          exact some_ne_none _
        · have htake : ((tail.drop 4).take len).length < 2 ^ 31 := by
            rw [length_take, length_drop]
            omega
          rw [if_neg hover, if_neg (by omega), dif_pos htake]
          exact some_ne_none _
      · -- the sum wraps to a small number, and the copy runs over the end
        refine iff_of_false (fun hne => hne ?_) hsmall
        have hwrap : (buflen - (tail.length - 4) + len) % 2 ^ 32 =
            buflen - (tail.length - 4) + len - 2 ^ 32 := by
          rw [Nat.mod_eq_sub_mod (by omega), Nat.mod_eq_of_lt (by omega)]
        rw [hwrap, if_neg (by omega), if_pos (by omega)]

theorem retrieveFrom_unknown_iff (htype : ¬ (type = bdlNone ∨ type = bdlDict ∨ type = bdlPyld ∨
    type = bdlAuth ∨ type = bdlPsec ∨ type = bdlFrag)) :
    retrieveFrom buflen (fuel + 1) type record headers rest ≠ none ↔
      Clean buflen ⟨headers.isEmpty, type, rest⟩ := by
  simp only [not_or] at htype
  obtain ⟨hnone, hdict, hpyld, hauth, hpsec, hfrag⟩ := htype
  refine iff_of_false (fun hne => hne ?_) fun hclean => ?_
  · rw [retrieveFrom.eq_def]
    dsimp only
    rw [if_neg hnone, if_neg hdict, if_neg hpyld, retrieveHeader, if_neg hauth, if_neg hpsec,
      if_neg hfrag, bind_none]
  · rcases (clean_iff.1 hclean).1 with h | ⟨h, -⟩ | ⟨h, -⟩ | ⟨h | h, -⟩ | h
    all_goals contradiction

theorem endsWell (hlt : buflen < 2 ^ 31) (fuel : ℕ) : EndsWell buflen fuel := by
  induction fuel with
  | zero => exact fun _ _ _ rest hrest => absurd hrest (Nat.not_lt_zero _)
  | succ fuel ih =>
    intro type record headers rest hfuel hlen
    by_cases htype : type = bdlNone ∨ type = bdlDict ∨ type = bdlPyld ∨ type = bdlAuth ∨
        type = bdlPsec ∨ type = bdlFrag
    · rcases htype with rfl | rfl | rfl | rfl | rfl | rfl
      · exact retrieveFrom_none_iff
      · exact ih.dict hfuel hlen
      · exact retrieveFrom_pyld_iff hlt hlen
      · exact ih.info (Or.inl rfl) hfuel hlen
      · exact ih.info (Or.inr rfl) hfuel hlen
      · exact ih.frag hfuel hlen
    · exact retrieveFrom_unknown_iff htype

theorem retrieveFrom_bcount {R : Retrieved}
    (h : retrieveFrom buflen fuel type record headers rest = some (some R)) :
    R.bcount ≤ buflen := by
  induction fuel generalizing type record headers rest with
  | zero => cases h
  | succ fuel ih =>
    rw [retrieveFrom.eq_def] at h
    dsimp only at h
    by_cases hnone : type = bdlNone
    · rw [if_pos hnone] at h
      obtain rfl := some.inj (some.inj h)
      exact Nat.sub_le _ _
    rw [if_neg hnone] at h
    by_cases hdict : type = bdlDict
    · rw [if_pos hdict] at h
      rcases rest with _ | ⟨next, _ | ⟨strcount, rest⟩⟩
      · cases h
      · cases h
      · split_ifs at h
        obtain ⟨r, -, h⟩ := bind_eq_some_iff.1 h
        exact ih h
    rw [if_neg hdict] at h
    by_cases hpyld : type = bdlPyld
    · rw [if_pos hpyld] at h
      obtain ⟨r, -, h⟩ := map_eq_some_iff.1 h
      obtain ⟨r, -, rfl⟩ := map_eq_some_iff.1 h
      exact Nat.sub_le _ _
    · rw [if_neg hpyld] at h
      obtain ⟨_ | r, -, h⟩ := bind_eq_some_iff.1 h
      · cases h
      · exact ih h

@[simp] theorem length_bytesAt (buf : ℕ → UInt8) (buflen : Int32) :
    (bytesAt buf buflen).length = buflen.toInt.toNat := by
  rw [bytesAt, length_map, length_range]

/-- `retrieveData` is safe exactly on the buffers whose headers all do no harm, as far as the
chain of them leads. -/
theorem retrievesSafely_iff (buf : ℕ → UInt8) (buflen : Int32) :
    RetrievesSafely buf buflen ↔
      Clean buflen.toInt.toNat ⟨true, bdlDict, bytesAt buf buflen⟩ := by
  have hlength := length_bytesAt buf buflen
  have hlt : buflen.toInt.toNat < 2 ^ 31 := by
    have := buflen.toInt_lt
    omega
  have hends := endsWell hlt _ bdlDict [] [] (bytesAt buf buflen) (Nat.lt_succ_self _) hlength.le
  rw [isEmpty_nil] at hends
  rw [← hends]
  constructor
  · rintro ⟨r, hr, -⟩ hnone
    rw [retrieveDataAt, retrieveData, hlength] at hr
    rw [hlength, hr] at hnone
    cases hnone
  · intro hne
    obtain ⟨r, hr⟩ := ne_none_iff_exists'.1 hne
    refine ⟨r, ?_, ?_⟩
    · rw [retrieveDataAt, retrieveData, hlength]
      rwa [hlength] at hr
    · rintro R rfl
      rcases le_or_gt 0 buflen.toInt with hpos | hneg
      · have hcount := retrieveFrom_bcount hr
        omega
      · -- the first test fails
        have hnil : bytesAt buf buflen = [] := by
          rw [← length_eq_zero_iff, hlength]
          omega
        rw [hnil, retrieveFrom_dict] at hr
        cases hr

/-- A dictionary that counts one string, with no byte behind it. -/
theorem not_retrievesSafely :
    ¬ RetrievesSafely (fun i => [bdlPyld, 1].getD i 0) 2 := by
  rintro ⟨r, hr, -⟩
  have hnone : retrieveDataAt (fun i => [bdlPyld, 1].getD i 0) 2 = none := by decide
  rw [hnone] at hr
  cases hr

end Bundle

end Ns2
