import Mathlib.Data.List.Nodup
import Mathlib.Data.List.TakeWhile
import Ns2.Lib.Machine

/-! `DTNStrRecords`, the dictionary of a bundle: the two strings of an endpoint id get positions
that share one byte. C strings are the lists of their characters. -/

namespace Ns2

open List Option

/-- `len_` has 8 bits. -/
structure StrRec where
  len : ℕ
  text : List Char
deriving DecidableEq

/-- A record with its own copy of the text. -/
def StrRec.new (text : List Char) : StrRec := ⟨text.length % 256, text⟩

namespace DTNStrRecords

variable {a : List Char} {n : ℕ} {r : StrRec}

def lookup (text : List Char) (s : List StrRec) : Option ℕ :=
  s.findIdx? fun cur => text.length = cur.len ∧ text = cur.text.take text.length

/-- The position of a string, which is added where it is not found. -/
def place (text : List Char) (s : List StrRec) : List StrRec × ℕ :=
  match lookup text s with
  | some id => (s, id)
  | none => (s ++ [StrRec.new text], s.length)

/-- The part of the text in front of the comma. -/
def firstPart (text : List Char) : List Char := text.takeWhile fun c => c ≠ ','

/-- The part behind it. -/
def secondPart (text : List Char) : List Char := text.drop ((firstPart text).length + 1)

/-- Eight bits of two positions. -/
def pack (pos1 pos2 : ℕ) : ℕ := ((pos1 * 0x10) &&& 0xf0) + (pos2 &&& 0x0f)

def addRecord (text : List Char) (s : List StrRec) : List StrRec × ℤ :=
  if (firstPart text).length = 0 then (s, -1)
  else
    let one := place (firstPart text) s
    let len := text.length - (firstPart text).length
    if len > 0 then
      let two := place (secondPart text) one.1
      (two.1, pack one.2 two.2)
    else (one.1, -1)

def getRecord (number : ℕ) (s : List StrRec) : Option StrRec := s[number]?

def getRecords (number : ℕ) (s : List StrRec) : Option (List Char) :=
  (getRecord ((number &&& 0xf0) / 0x10) s).bind fun one =>
    (getRecord (number &&& 0x0f) s).map fun two =>
      one.text.take one.len ++ ',' :: two.text.take two.len

/-- The records after more calls. -/
def addRecords (texts : List (List Char)) (s : List StrRec) : List StrRec :=
  texts.foldl (fun s text => (addRecord text s).1) s

def machine : Machine (List StrRec) (List Char) ℤ where
  step s text := some (addRecord text s)

def strings (s : List StrRec) : List (List Char) := s.map StrRec.text

/-- A call as it is meant: no string is there twice, the position stands for the text from then
on, and the records are left alone where there is none. -/
def Right (s : List StrRec) (text : List Char) : Prop :=
  (strings (addRecord text s).1).Nodup ∧
  ((addRecord text s).2 = -1 → (addRecord text s).1 = s) ∧
  ∀ n : ℕ, (addRecord text s).2 = n → ∀ later,
    getRecords n (addRecords later (addRecord text s).1) = some text

/-- Both strings of the text are shorter than 256 and the dictionary with them has at most 16;
a text without a comma is in the dictionary, or empty. -/
def Meets (s : List StrRec) (text : List Char) : Prop :=
  firstPart text = [] ∨
  if ',' ∈ text then
    (firstPart text).length < 256 ∧ (secondPart text).length < 256 ∧
      (((strings s).insert (firstPart text)).insert (secondPart text)).length ≤ 16
  else firstPart text ∈ strings s

instance (s : List StrRec) : DecidablePred (Meets s) := fun text =>
  inferInstanceAs (Decidable (firstPart text = [] ∨
    if ',' ∈ text then
      (firstPart text).length < 256 ∧ (secondPart text).length < 256 ∧
        (((strings s).insert (firstPart text)).insert (secondPart text)).length ≤ 16
    else firstPart text ∈ strings s))

variable {s s' : List StrRec} {text : List Char}

theorem comma_not_mem_firstPart (text : List Char) : ',' ∉ firstPart text := by
  intro hmem
  have := mem_takeWhile_imp hmem
  simp at this

theorem firstPart_append (ha : ',' ∉ a) (b : List Char) : firstPart (a ++ ',' :: b) = a := by
  rw [firstPart, takeWhile_append_of_pos, takeWhile_cons_of_neg (by simp),
    append_nil]
  intro c hc
  have hne : c ≠ ',' := fun heq => ha (heq ▸ hc)
  simpa using hne

theorem parts_eq (h : ',' ∈ text) : text = firstPart text ++ ',' :: secondPart text := by
  obtain ⟨a, b, rfl, ha⟩ := eq_append_cons_of_mem h
  rw [secondPart, firstPart_append ha]
  simp

theorem firstPart_eq_self (h : ',' ∉ text) : firstPart text = text := by
  rw [firstPart, takeWhile_eq_self_iff]
  intro c hc
  have hne : c ≠ ',' := fun heq => h (heq ▸ hc)
  simpa using hne

theorem place_keeps (text : List Char) (s : List StrRec) : s <+: (place text s).1 := by
  rw [place]
  split
  · exact prefix_refl s
  · exact prefix_append s _

theorem addRecord_keeps (text : List Char) (s : List StrRec) : s <+: (addRecord text s).1 := by
  rw [addRecord]
  dsimp only
  split_ifs
  · exact prefix_refl s
  · exact (place_keeps _ s).trans (place_keeps _ _)
  · exact place_keeps _ s

theorem addRecords_keeps (texts : List (List Char)) (s : List StrRec) : s <+: addRecords texts s := by
  induction texts generalizing s with
  | nil => exact prefix_refl s
  | cons text texts ih => exact (addRecord_keeps text s).trans (ih _)

theorem getRecord_of_keeps (h : s <+: s') (hr : getRecord n s = some r) :
    getRecord n s' = some r := by
  obtain ⟨t, rfl⟩ := h
  rw [getRecord] at hr ⊢
  rw [List.getElem?_append_left (List.getElem?_eq_some_iff.1 hr).1, hr]

theorem getRecords_of_keeps (h : s <+: s') (hget : getRecords n s = some text) :
    getRecords n s' = some text := by
  obtain ⟨one, hone, hget⟩ := bind_eq_some_iff.1 hget
  obtain ⟨two, htwo, hget⟩ := map_eq_some_iff.1 hget
  rw [getRecords, getRecord_of_keeps h hone, bind_some, getRecord_of_keeps h htwo,
    map_some, hget]

/-- The lengths are not cut off. -/
def Short (s : List StrRec) : Prop := ∀ r ∈ s, r.len = r.text.length

theorem Short.take_eq (h : Short s) (hr : r ∈ s) : r.text.take r.len = r.text := by
  rw [h r hr, take_length]

theorem Short.snoc (h : Short s) (ha : a.length < 256) : Short (s ++ [StrRec.new a]) := by
  intro r hr
  rcases mem_append.1 hr with hr | hr
  · exact h r hr
  · obtain rfl := mem_singleton.1 hr
    exact Nat.mod_eq_of_lt ha

theorem Short.place_cases (h : Short s) (a : List Char) :
    (a ∈ strings s ∧ ∃ i r, place a s = (s, i) ∧ s[i]? = some r ∧ r.text = a) ∨
    (a ∉ strings s ∧ place a s = (s ++ [StrRec.new a], s.length)) := by
  rw [place]
  cases hfound : lookup a s with
  | none =>
    refine Or.inr ⟨fun hmem => ?_, rfl⟩
    obtain ⟨r, hr, rfl⟩ := mem_map.1 hmem
    have hnot := findIdx?_eq_none_iff.1 hfound r hr
    simp [h r hr] at hnot
  | some i =>
    obtain ⟨hlt, hmatch, -⟩ := findIdx?_eq_some_iff_getElem.1 hfound
    obtain ⟨hlen, htext⟩ := of_decide_eq_true hmatch
    have heq : s[i].text = a := by
      rw [htext, hlen, (h s[i] (getElem_mem hlt)), take_length]
    refine Or.inl ⟨mem_map.2 ⟨s[i], getElem_mem hlt, heq⟩, i, s[i], rfl, ?_, heq⟩
    exact getElem?_eq_getElem hlt

theorem Short.place_spec (h : Short s) (a : List Char) :
    (∃ r, (place a s).1[(place a s).2]? = some r ∧ r.text = a) ∧
    (strings (place a s).1).length = ((strings s).insert a).length ∧
    (∀ b, b ∈ strings (place a s).1 ↔ b = a ∨ b ∈ strings s) ∧
    ((place a s).1 = s ∧ (place a s).2 < s.length ∨
      a ∉ strings s ∧ (place a s).2 = s.length ∧ (place a s).1.length = s.length + 1) := by
  rcases h.place_cases a with ⟨hmem, i, r, heq, hat, htext⟩ | ⟨hnot, heq⟩
  · rw [heq]
    refine ⟨⟨r, hat, htext⟩, by rw [List.insert_of_mem hmem], fun b => ?_,
      Or.inl ⟨rfl, (List.getElem?_eq_some_iff.1 hat).1⟩⟩
    exact ⟨Or.inr, fun hb => hb.elim (fun hba => hba ▸ hmem) id⟩
  · rw [heq]
    refine ⟨⟨StrRec.new a, by simp, rfl⟩, ?_, fun b => ?_, Or.inr ⟨hnot, rfl, by simp⟩⟩
    · rw [insert_of_not_mem hnot]
      simp [strings]
    · simp [strings, StrRec.new, or_comm]

theorem nodup_place (h : Short s) (hnodup : (strings s).Nodup) (a : List Char) :
    (strings (place a s).1).Nodup := by
  rcases h.place_cases a with ⟨-, i, r, heq, -⟩ | ⟨hnot, heq⟩
  · rw [heq]
    exact hnodup
  · rw [heq, strings, map_append, map_singleton]
    refine hnodup.append (nodup_singleton _) fun b hb hb' => hnot ?_
    obtain rfl := mem_singleton.1 hb'
    exact hb

theorem short_place (h : Short s) (ha : a.length < 256) : Short (place a s).1 := by
  rcases h.place_cases a with ⟨-, i, r, heq, -⟩ | ⟨-, heq⟩
  · rw [heq]
    exact h
  · rw [heq]
    exact h.snoc ha

theorem len_place (h : ∀ r ∈ s, r.len < 256) (a : List Char) :
    ∀ r ∈ (place a s).1, r.len < 256 := by
  rw [place]
  split
  · exact h
  · intro r hr
    rcases mem_append.1 hr with hr | hr
    · exact h r hr
    · obtain rfl := mem_singleton.1 hr
      exact Nat.mod_lt _ (by decide)

theorem pack_nibbles : ∀ i < 18, ∀ j < 18,
    (pack i j &&& 0xf0) / 0x10 = i % 16 ∧ pack i j &&& 0x0f = j % 16 := by
  decide +kernel

theorem getRecords_pack {i j : ℕ} (hi : i < 18) (hj : j < 18) (s : List StrRec) :
    getRecords (pack i j) s = (s[i % 16]?).bind fun one => (s[j % 16]?).map fun two =>
      one.text.take one.len ++ ',' :: two.text.take two.len := by
  rw [getRecords, (pack_nibbles i hi j hj).1, (pack_nibbles i hi j hj).2]
  rfl

/-- What holds of the records as long as all calls are right. -/
structure Wf (s : List StrRec) : Prop where
  short : Short s
  len : ∀ r ∈ s, r.len < 256
  nodup : (strings s).Nodup
  head : ∀ r ∈ s.head?, ',' ∉ r.text
  small : s.length ≤ 16

theorem wf_nil : Wf [] := by
  refine ⟨?_, ?_, nodup_nil, ?_, Nat.zero_le _⟩
  all_goals
    intro r hr
    cases hr

theorem addRecord_eq {s₁ s₂ : List StrRec} {i j : ℕ} (hfirst : firstPart text ≠ [])
    (hcomma : ',' ∈ text) (hone : place (firstPart text) s = (s₁, i))
    (htwo : place (secondPart text) s₁ = (s₂, j)) : addRecord text s = (s₂, (pack i j : ℤ)) := by
  have hlen : text.length - (firstPart text).length > 0 := by
    have := congrArg List.length (parts_eq hcomma)
    simp only [length_append, length_cons] at this
    omega
  rw [addRecord, if_neg (by simpa using hfirst), hone]
  rw [if_pos hlen, htwo]

theorem length_firstPart_le (x y : List Char) : (firstPart (x ++ ',' :: y)).length ≤ x.length := by
  induction x with
  | nil => simp [firstPart]
  | cons c x ih =>
    rw [firstPart, cons_append, takeWhile_cons]
    split_ifs
    · exact Nat.succ_le_succ ih
    · exact Nat.zero_le _

variable {s₁ s₂ : List StrRec} {i j : ℕ}

theorem Wf.first_lt (h : Wf s) (hone : place (firstPart text) s = (s₁, i)) (hkeeps : s₁ <+: s₂)
    {one : StrRec} {y : List Char} (hat : s₂[i % 16]? = some one)
    (htext : one.text.take one.len ++ ',' :: y = text) : i < 16 := by
  obtain ⟨-, -, -, hpos⟩ := h.short.place_spec (firstPart text)
  have hkeeps₁ := place_keeps (firstPart text) s
  rw [hone] at hpos hkeeps₁
  have hsmall := h.small
  by_contra hover
  obtain ⟨hnot, hi, -⟩ := hpos.resolve_left fun hin => by have := hin.2; omega
  obtain rfl : i = 16 := by dsimp only at hi; omega
  obtain ⟨r, l, rfl⟩ := exists_cons_of_length_pos (l := s) (by dsimp only at hi; omega)
  have hr : s₂[0]? = some r := getRecord_of_keeps (hkeeps₁.trans hkeeps) rfl
  obtain rfl := some.inj (hr.symm.trans hat)
  rw [h.short.take_eq mem_cons_self] at htext
  have hfirst := firstPart_append (h.head r rfl) y
  rw [htext] at hfirst
  exact hnot (hfirst ▸ mem_map_of_mem mem_cons_self)

/-- The position stands for the text when both strings fit and have positions under 16. -/
theorem Wf.getRecords_iff (h : Wf s) (hcomma : ',' ∈ text)
    (hone : place (firstPart text) s = (s₁, i)) (htwo : place (secondPart text) s₁ = (s₂, j))
    (ha : (firstPart text).length < 256) :
    getRecords (pack i j) s₂ = some text ↔ (secondPart text).length < 256 ∧ i < 16 ∧ j < 16 := by
  obtain ⟨⟨one, hat₁, htext₁⟩, -, -, hpos₁⟩ := h.short.place_spec (firstPart text)
  have hshort₁ := short_place h.short ha
  rw [hone] at hat₁ hpos₁ hshort₁
  obtain ⟨⟨two, hat₂, htext₂⟩, -, -, hpos₂⟩ := hshort₁.place_spec (secondPart text)
  have hkeeps := place_keeps (secondPart text) s₁
  have hlen₂ := len_place (len_place h.len (firstPart text)) (secondPart text)
  rw [hone, htwo] at hlen₂
  rw [htwo] at hat₂ hpos₂ hkeeps
  dsimp only at hat₁ hpos₁ hshort₁ hat₂ hpos₂ hkeeps hlen₂
  have hsmall := h.small
  have hs₁ : i < 16 → s₁.length ≤ 16 := by
    rcases hpos₁ with ⟨rfl, -⟩ | ⟨-, hi, hlength⟩
    · exact fun _ => hsmall
    · omega
  have hi : i < 17 := by rcases hpos₁ with ⟨-, hi⟩ | ⟨-, hi, -⟩ <;> omega
  have hj : j < 18 := by
    have : s₁.length ≤ 17 := by rcases hpos₁ with ⟨rfl, -⟩ | ⟨-, -, hlength⟩ <;> omega
    rcases hpos₂ with ⟨-, hj⟩ | ⟨-, hj, -⟩ <;> omega
  have hone₂ : s₂[i]? = some one := getRecord_of_keeps hkeeps hat₁
  have htake₁ : one.text.take one.len = firstPart text := by
    rw [hshort₁.take_eq (mem_of_getElem? hat₁), htext₁]
  rw [getRecords_pack (by omega) hj]
  constructor
  · intro hget
    obtain ⟨one', hat₁', hget⟩ := bind_eq_some_iff.1 hget
    obtain ⟨two', hat₂', hget⟩ := map_eq_some_iff.1 hget
    have hlt := h.first_lt hone hkeeps hat₁' hget
    rw [Nat.mod_eq_of_lt hlt] at hat₁'
    obtain rfl := some.inj (hone₂.symm.trans hat₁')
    have hsecond : two'.text.take two'.len = secondPart text := by
      rw [htake₁] at hget
      have heq := hget.trans (parts_eq hcomma)
      exact (List.cons.inj (append_cancel_left heq)).2
    have hbound : (secondPart text).length < 256 := by
      have hle := length_take_le two'.len two'.text
      have := hlen₂ two' (mem_of_getElem? hat₂')
      rw [hsecond] at hle
      omega
    refine ⟨hbound, hlt, ?_⟩
    by_contra hover
    have hs₁ := hs₁ hlt
    obtain ⟨hnot, hj', -⟩ := hpos₂.resolve_left fun hin => by have := hin.2; omega
    obtain rfl : j = 16 := by omega
    obtain ⟨r, l, rfl⟩ := exists_cons_of_length_pos (l := s₁) (by omega)
    have hr : s₂[0]? = some r := getRecord_of_keeps hkeeps rfl
    obtain rfl := some.inj (hr.symm.trans hat₂')
    rw [hshort₁.take_eq mem_cons_self] at hsecond
    exact hnot (hsecond ▸ mem_map_of_mem mem_cons_self)
  · rintro ⟨hb, hlt, hj'⟩
    have hshort₂ := short_place hshort₁ hb
    rw [htwo] at hshort₂
    rw [Nat.mod_eq_of_lt hlt, Nat.mod_eq_of_lt hj', hone₂, hat₂, bind_some,
      map_some, htake₁, hshort₂.take_eq (mem_of_getElem? hat₂), htext₂]
    exact congrArg some (parts_eq hcomma).symm

section

variable (h : Wf s) (hone : place (firstPart text) s = (s₁, i))
  (htwo : place (secondPart text) s₁ = (s₂, j)) (ha : (firstPart text).length < 256)
include h hone htwo ha

theorem Wf.length_eq :
    s₂.length = (((strings s).insert (firstPart text)).insert (secondPart text)).length := by
  obtain ⟨-, hlength₁, hmem₁, -⟩ := h.short.place_spec (firstPart text)
  have hshort₁ := short_place h.short ha
  rw [hone] at hlength₁ hmem₁ hshort₁
  obtain ⟨-, hlength₂, -, -⟩ := hshort₁.place_spec (secondPart text)
  rw [htwo] at hlength₂
  have hcount : s₂.length = ((strings s₁).insert (secondPart text)).length := by
    rw [← hlength₂, strings, length_map]
  rw [hcount]
  by_cases hmem : secondPart text ∈ strings s₁
  · have hmem' := mem_insert_iff.2 ((hmem₁ _).1 hmem)
    rw [List.insert_of_mem hmem, List.insert_of_mem hmem', hlength₁]
  · have hmem' : secondPart text ∉ (strings s).insert (firstPart text) := fun hin =>
      hmem ((hmem₁ _).2 (mem_insert_iff.1 hin))
    rw [insert_of_not_mem hmem, insert_of_not_mem hmem', length_cons,
      length_cons, hlength₁]

theorem Wf.positions_lt_iff :
    i < 16 ∧ j < 16 ↔ s₂.length ≤ 16 := by
  obtain ⟨-, -, -, hpos₁⟩ := h.short.place_spec (firstPart text)
  have hshort₁ := short_place h.short ha
  rw [hone] at hpos₁ hshort₁
  obtain ⟨-, -, -, hpos₂⟩ := hshort₁.place_spec (secondPart text)
  rw [htwo] at hpos₂
  dsimp only at hpos₁ hpos₂
  have hsmall := h.small
  rcases hpos₁ with ⟨rfl, hi⟩ | ⟨-, hi, hlength₁⟩
  · rcases hpos₂ with ⟨rfl, hj⟩ | ⟨-, hj, hlength₂⟩
    · omega
    · omega
  · rcases hpos₂ with ⟨rfl, hj⟩ | ⟨-, hj, hlength₂⟩
    · omega
    · omega

end

theorem firstPart_lt_of_getRecords (hlen : ∀ r ∈ s, r.len < 256) (hget : getRecords n s = some text) :
    (firstPart text).length < 256 := by
  obtain ⟨one, hone, hget⟩ := bind_eq_some_iff.1 hget
  obtain ⟨two, -, rfl⟩ := map_eq_some_iff.1 hget
  have hle := length_firstPart_le (one.text.take one.len) (two.text.take two.len)
  have hle' := length_take_le one.len one.text
  have := hlen one (mem_of_getElem? hone)
  omega

theorem right_of_eq (h : Wf s) (hsame : addRecord text s = (s, -1)) : Right s text := by
  rw [Right, hsame]
  refine ⟨h.nodup, fun _ => rfl, fun n hn => ?_⟩
  omega

theorem addRecord_of_empty (hfirst : firstPart text = []) : addRecord text s = (s, -1) := by
  rw [addRecord, if_pos (by rw [hfirst]; rfl)]

theorem addRecord_of_no_comma (hfirst : firstPart text ≠ []) (hcomma : ',' ∉ text) :
    addRecord text s = ((place (firstPart text) s).1, -1) := by
  have hlen : ¬ text.length - (firstPart text).length > 0 := by
    rw [firstPart_eq_self hcomma]
    omega
  rw [addRecord, if_neg (by simpa using hfirst)]
  rw [if_neg hlen]

theorem Wf.right_iff_of_no_comma (h : Wf s) (hfirst : firstPart text ≠ []) (hcomma : ',' ∉ text) :
    Right s text ↔ firstPart text ∈ strings s := by
  rcases h.short.place_cases (firstPart text) with ⟨hmem, i, r, heq, -⟩ | ⟨hnot, heq⟩
  · refine iff_of_true (right_of_eq h ?_) hmem
    rw [addRecord_of_no_comma hfirst hcomma, heq]
  · refine iff_of_false (fun hright => ?_) hnot
    have hsame := hright.2.1
    rw [addRecord_of_no_comma hfirst hcomma, heq] at hsame
    simp at hsame

theorem right_iff_getRecords (h : addRecord text s = (s₂, (pack i j : ℤ))) :
    Right s text ↔ (strings s₂).Nodup ∧ getRecords (pack i j) s₂ = some text := by
  rw [Right, h]
  dsimp only
  refine and_congr_right fun _ => ⟨fun hr => hr.2 _ rfl [], fun hget => ⟨fun hn => ?_, ?_⟩⟩
  · omega
  · intro n hn later
    obtain rfl : pack i j = n := by exact_mod_cast hn
    exact getRecords_of_keeps (addRecords_keeps later s₂) hget

theorem Wf.right_iff_of_comma (h : Wf s) (hfirst : firstPart text ≠ []) (hcomma : ',' ∈ text) :
    Right s text ↔ (firstPart text).length < 256 ∧ (secondPart text).length < 256 ∧
      (((strings s).insert (firstPart text)).insert (secondPart text)).length ≤ 16 := by
  rcases hone : place (firstPart text) s with ⟨s₁, i⟩
  rcases htwo : place (secondPart text) s₁ with ⟨s₂, j⟩
  rw [right_iff_getRecords (addRecord_eq hfirst hcomma hone htwo)]
  by_cases ha : (firstPart text).length < 256
  · have hshort₁ := short_place h.short ha
    have hnodup := nodup_place hshort₁ (nodup_place h.short h.nodup (firstPart text))
      (secondPart text)
    rw [hone, htwo] at hnodup
    rw [and_iff_right hnodup, and_iff_right ha, h.getRecords_iff hcomma hone htwo ha,
      h.positions_lt_iff hone htwo ha, h.length_eq hone htwo ha]
  · refine iff_of_false (fun hright => ha ?_) fun hmeets => ha hmeets.1
    have hlen := len_place (len_place h.len (firstPart text)) (secondPart text)
    rw [hone, htwo] at hlen
    exact firstPart_lt_of_getRecords hlen hright.2

theorem Wf.right_iff (h : Wf s) (text : List Char) : Right s text ↔ Meets s text := by
  rw [Meets]
  by_cases hfirst : firstPart text = []
  · exact iff_of_true (right_of_eq h (addRecord_of_empty hfirst)) (Or.inl hfirst)
  · rw [or_iff_right hfirst]
    by_cases hcomma : ',' ∈ text
    · rw [if_pos hcomma, h.right_iff_of_comma hfirst hcomma]
    · rw [if_neg hcomma, h.right_iff_of_no_comma hfirst hcomma]

theorem head_place (a : List Char) (s : List StrRec) (hr : r ∈ (place a s).1.head?) :
    r ∈ s.head? ∨ s = [] ∧ r.text = a := by
  cases s with
  | nil =>
    rw [place] at hr
    split at hr
    · cases hr
    · obtain rfl := some.inj hr
      exact Or.inr ⟨rfl, rfl⟩
  | cons r' l =>
    obtain ⟨t, ht⟩ := place_keeps a (r' :: l)
    rw [← ht] at hr
    exact Or.inl hr

theorem Wf.step (h : Wf s) (hmeets : Meets s text) : Wf (addRecord text s).1 := by
  rcases hmeets with hfirst | hmeets
  · rw [addRecord_of_empty hfirst]
    exact h
  · by_cases hfirst : firstPart text = []
    · rw [addRecord_of_empty hfirst]
      exact h
    · by_cases hcomma : ',' ∈ text
      · rw [if_pos hcomma] at hmeets
        obtain ⟨ha, hb, hcount⟩ := hmeets
        rcases hone : place (firstPart text) s with ⟨s₁, i⟩
        rcases htwo : place (secondPart text) s₁ with ⟨s₂, j⟩
        have hshort₁ := short_place h.short ha
        have hnodup₁ := nodup_place h.short h.nodup (firstPart text)
        have hlen₂ := len_place (len_place h.len (firstPart text)) (secondPart text)
        have hat := (h.short.place_spec (firstPart text)).1
        rw [hone] at hshort₁ hnodup₁ hlen₂ hat
        have hshort₂ := short_place hshort₁ hb
        have hnodup₂ := nodup_place hshort₁ hnodup₁ (secondPart text)
        rw [htwo] at hshort₂ hnodup₂ hlen₂
        rw [addRecord_eq hfirst hcomma hone htwo]
        refine ⟨hshort₂, hlen₂, hnodup₂, fun r hr => ?_, ?_⟩
        · have hr₁ : r ∈ (place (secondPart text) s₁).1.head? := by rw [htwo]; exact hr
          rcases head_place _ _ hr₁ with hr₁ | ⟨hnil, -⟩
          · have hr₀ : r ∈ (place (firstPart text) s).1.head? := by rw [hone]; exact hr₁
            rcases head_place _ _ hr₀ with hr₀ | ⟨-, htext⟩
            · exact h.head r hr₀
            · rw [htext]
              exact comma_not_mem_firstPart text
          · obtain ⟨one, hat, -⟩ := hat
            rw [hnil] at hat
            cases hat
        · rw [h.length_eq hone htwo ha]
          exact hcount
      · rw [if_neg hcomma] at hmeets
        rcases h.short.place_cases (firstPart text) with ⟨-, i, r, heq, -⟩ | ⟨hnot, -⟩
        · rw [addRecord_of_no_comma hfirst hcomma, heq]
          exact h
        · exact absurd hmeets hnot

/-- Every call of a run is right exactly when each one meets the condition. -/
theorem addRecord_runsWith_iff (texts : List (List Char)) :
    machine.RunsWith Right [] texts ↔ machine.RunsWith Meets [] texts := by
  suffices hrun : ∀ s, Wf s → (machine.RunsWith Right s texts ↔ machine.RunsWith Meets s texts) from
    hrun [] wf_nil
  induction texts with
  | nil => exact fun s _ => Iff.rfl
  | cons text texts ih =>
    intro s h
    have hstep : machine.step s text = some ((addRecord text s).1, (addRecord text s).2) := rfl
    rw [Machine.runsWith_cons_iff hstep, Machine.runsWith_cons_iff hstep, h.right_iff]
    exact and_congr_right fun hmeets => ih _ (h.step hmeets)

/-- A text without a comma leaves its string behind although there is no position for it. -/
theorem not_addRecord_runsWith : ¬ ∀ texts, machine.RunsWith Right [] texts := by
  intro h
  have hsame := (h [['a']]).1.2.1 rfl
  exact absurd hsame (by decide)

end DTNStrRecords

end Ns2
