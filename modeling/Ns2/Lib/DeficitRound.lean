import Mathlib.Algebra.BigOperators.Group.List.Basic
import Mathlib.Data.List.Nodup
import Mathlib.Tactic.Linarith

/-! Deficit round robin over any kind of flow. The flow whose turn begins is granted a quantum,
sends while its deficit lasts, and goes to the end of the ring. -/

namespace Ns2

open List Function

/-- The flows from the one whose turn it is. -/
structure DeficitRound (F : Type*) where
  ring : List F
  deficit : F → ℤ
  turn : F → Bool

namespace DeficitRound

variable {F : Type*}

/-- Deficits stay below the largest packet but during a turn. -/
structure Sound (Q M : ℤ) (R : DeficitRound F) : Prop where
  nodup : R.ring.Nodup
  nonneg : ∀ f ∈ R.ring, 0 ≤ R.deficit f
  lt : ∀ f ∈ R.ring, R.deficit f < M ∨
    R.ring.head? = some f ∧ R.turn f = true ∧ R.deficit f < Q + M

/-- The turn of a flow is marked only while it is at the head. -/
def Timely (R : DeficitRound F) (f : F) : Prop := R.turn f = true → R.ring.head? = some f

/-- The flows in the order in which their next turns begin. -/
def order (R : DeficitRound F) : List F :=
  match R.ring with
  | [] => []
  | f :: t => if R.turn f then t ++ [f] else f :: t

variable {Q M : ℤ} {K : Set F} {R R₁ R' : DeficitRound F} {e es : List (F × ℤ)} {f i j : F}
  {l t : List F}

theorem not_pair_cons (hl : (i :: t).Nodup) (hij : i ≠ j) : ¬[j, i].Sublist (i :: t) := by
  intro h
  rcases sublist_cons_iff.1 h with h | ⟨r, heq, -⟩
  · exact (nodup_cons.1 hl).1 (h.subset (by simp))
  · exact hij (List.cons.inj heq).1.symm

theorem not_pair_concat (hl : (t ++ [j]).Nodup) (hij : i ≠ j) : ¬[j, i].Sublist (t ++ [j]) := by
  intro h
  have hrev := reverse_sublist.2 h
  rw [reverse_concat] at hrev
  refine not_pair_cons ?_ hij.symm hrev
  rw [← reverse_concat]
  exact nodup_reverse.2 hl

theorem pair_concat (hj : j ∈ t) : [j, i].Sublist (t ++ [i]) :=
  (singleton_sublist.2 hj).append (Sublist.refl [i])

theorem pair_cons (hi : i ∈ t) : [j, i].Sublist (j :: t) :=
  (singleton_sublist.2 hi).cons_cons j

theorem order_of_turn (hring : R.ring = f :: t) (hturn : R.turn f = true) :
    R.order = t ++ [f] := by
  simp [order, hring, hturn]

theorem order_of_not_turn (hring : R.ring = f :: t) (hturn : R.turn f = false) :
    R.order = f :: t := by
  simp [order, hring, hturn]

variable [DecidableEq F]

def grant (Q : ℤ) (f : F) (R : DeficitRound F) : DeficitRound F :=
  { R with
    deficit := Function.update R.deficit f (R.deficit f + Q)
    turn := Function.update R.turn f true }

def send (f : F) (n : ℤ) (R : DeficitRound F) : DeficitRound F :=
  { R with deficit := Function.update R.deficit f (R.deficit f - n) }

def pass (f : F) (t : List F) (R : DeficitRound F) : DeficitRound F :=
  { R with ring := t ++ [f], turn := Function.update R.turn f false }

def join (f : F) (R : DeficitRound F) : DeficitRound F :=
  { R with ring := R.ring ++ [f], deficit := Function.update R.deficit f 0 }

/-- Off the ring a flow may have any deficit, and its turn may stay marked. -/
def leave (f : F) (d : ℤ) (b : Bool) (R : DeficitRound F) : DeficitRound F :=
  ⟨R.ring.erase f, Function.update R.deficit f d, Function.update R.turn f b⟩

/-- One move with what is sent in it: `Q` is the quantum, `M` the largest packet, and the flows of
`K` do not leave. -/
inductive Move (Q M : ℤ) (K : Set F) : DeficitRound F → List (F × ℤ) → DeficitRound F → Prop
  | grant {R : DeficitRound F} {f : F} {t : List F} (hring : R.ring = f :: t)
      (hturn : R.turn f = false) : Move Q M K R [] (R.grant Q f)
  | send {R : DeficitRound F} {f : F} {n : ℤ} (hpos : 0 ≤ n) (hn : n ≤ R.deficit f) :
      Move Q M K R [(f, n)] (R.send f n)
  | pass {R : DeficitRound F} {f : F} {t : List F} (hring : R.ring = f :: t)
      (hturn : R.turn f = true) (hlt : R.deficit f < M) : Move Q M K R [] (R.pass f t)
  | join {R : DeficitRound F} {f : F} (hf : f ∉ R.ring) : Move Q M K R [] (R.join f)
  | leave {R : DeficitRound F} {f : F} (hf : f ∉ K) (d : ℤ) (b : Bool) :
      Move Q M K R [] (R.leave f d b)

inductive Moves (Q M : ℤ) (K : Set F) : DeficitRound F → List (F × ℤ) → DeficitRound F → Prop
  | nil (R : DeficitRound F) : Moves Q M K R [] R
  | cons {R R₁ R' : DeficitRound F} {e es : List (F × ℤ)} :
      Move Q M K R e R₁ → Moves Q M K R₁ es R' → Moves Q M K R (e ++ es) R'

theorem Moves.one (h : Move Q M K R e R') : Moves Q M K R e R' := by
  have hcons := Moves.cons h (Moves.nil R')
  rwa [append_nil] at hcons

theorem Moves.trans (h : Moves Q M K R e R₁) (h' : Moves Q M K R₁ es R') :
    Moves Q M K R (e ++ es) R' := by
  induction h with
  | nil => exact h'
  | cons hmove _ ih =>
    rw [append_assoc]
    exact Moves.cons hmove (ih h')

/-- How far `i` is ahead of `j` in what it may send, a grant that only `i` has had in this round
taken off. -/
def lead (Q : ℤ) (i j : F) (R : DeficitRound F) : ℤ :=
  R.deficit i - R.deficit j - if [j, i].Sublist R.order then Q else 0

def sent (f : F) (es : List (F × ℤ)) : ℤ := ((es.filter (·.1 = f)).map Prod.snd).sum

theorem sent_append (f : F) (e es : List (F × ℤ)) : sent f (e ++ es) = sent f e + sent f es := by
  simp [sent]

theorem sent_single (f g : F) (n : ℤ) : sent f [(g, n)] = if g = f then n else 0 := by
  by_cases hg : g = f <;> simp [sent, hg]

theorem Sound.grant (hQ : 0 < Q) (h : R.Sound Q M) (hring : R.ring = f :: t)
    (hturn : R.turn f = false) : (R.grant Q f).Sound Q M := by
  have hf : f ∈ R.ring := hring ▸ mem_cons_self
  have hlt : R.deficit f < M := (h.lt f hf).resolve_right fun hor => by simp [hturn] at hor
  have hnonneg := h.nonneg f hf
  refine ⟨h.nodup, fun g hg => ?_, fun g hg => ?_⟩
  · by_cases hgf : g = f
    · subst hgf
      simp only [DeficitRound.grant, update_self]
      omega
    · simpa only [DeficitRound.grant, update_of_ne hgf] using h.nonneg g hg
  · by_cases hgf : g = f
    · subst hgf
      simp only [DeficitRound.grant, update_self, hring, head?_cons, true_and]
      omega
    · simpa only [DeficitRound.grant, update_of_ne hgf] using h.lt g hg

theorem Sound.send {n : ℤ} (h : R.Sound Q M) (hpos : 0 ≤ n) (hn : n ≤ R.deficit f) :
    (R.send f n).Sound Q M := by
  refine ⟨h.nodup, fun g hg => ?_, fun g hg => ?_⟩
  · by_cases hgf : g = f
    · subst hgf
      simp only [DeficitRound.send, update_self]
      omega
    · simpa only [DeficitRound.send, update_of_ne hgf] using h.nonneg g hg
  · by_cases hgf : g = f
    · subst hgf
      simp only [DeficitRound.send, update_self]
      exact (h.lt g hg).imp (fun hlt => by omega)
        (fun ⟨hhead, hturn, hlt⟩ => ⟨hhead, hturn, by omega⟩)
    · simpa only [DeficitRound.send, update_of_ne hgf] using h.lt g hg

theorem Sound.pass (h : R.Sound Q M) (hring : R.ring = f :: t) (hlt : R.deficit f < M) :
    (R.pass f t).Sound Q M := by
  have hmem : ∀ g ∈ t ++ [f], g ∈ R.ring := by
    intro g hg
    rw [hring]
    simpa [or_comm] using hg
  refine ⟨?_, fun g hg => h.nonneg g (hmem g hg), fun g hg => Or.inl ?_⟩
  · have hnodup := h.nodup
    rw [hring] at hnodup
    exact nodup_append_comm.1 hnodup
  · rcases h.lt g (hmem g hg) with hg' | ⟨hhead, -, -⟩
    · exact hg'
    · rw [hring] at hhead
      exact Option.some.inj hhead ▸ hlt

theorem Sound.join (hM : 0 < M) (h : R.Sound Q M) (hf : f ∉ R.ring) : (R.join f).Sound Q M := by
  have hmem : ∀ g ∈ R.ring ++ [f], g ≠ f → g ∈ R.ring := fun g hg hgf =>
    (mem_append.1 hg).resolve_right fun hg' => hgf (mem_singleton.1 hg')
  refine ⟨?_, fun g hg => ?_, fun g hg => ?_⟩
  · exact nodup_append_comm.1 (nodup_cons.2 ⟨hf, h.nodup⟩)
  · by_cases hgf : g = f
    · subst hgf
      simp only [DeficitRound.join, update_self, le_refl]
    · simpa only [DeficitRound.join, update_of_ne hgf] using h.nonneg g (hmem g hg hgf)
  · by_cases hgf : g = f
    · subst hgf
      simp only [DeficitRound.join, update_self]
      exact Or.inl hM
    · have hg' := hmem g hg hgf
      simp only [DeficitRound.join, update_of_ne hgf]
      rw [head?_append_of_ne_nil _ (ne_nil_of_mem hg')]
      exact h.lt g hg'

theorem Sound.leave (h : R.Sound Q M) (f : F) (d : ℤ) (b : Bool) : (R.leave f d b).Sound Q M := by
  refine ⟨h.nodup.erase f, fun g hg => ?_, fun g hg => ?_⟩
  · obtain ⟨hgf, hg'⟩ := h.nodup.mem_erase_iff.1 hg
    simpa only [DeficitRound.leave, update_of_ne hgf] using h.nonneg g hg'
  · obtain ⟨hgf, hg'⟩ := h.nodup.mem_erase_iff.1 hg
    simp only [DeficitRound.leave, update_of_ne hgf]
    refine (h.lt g hg').imp_right fun ⟨hhead, hlt⟩ => ⟨?_, hlt⟩
    obtain ⟨t, hring⟩ := head?_eq_some_iff.1 hhead
    rw [hring, erase_cons_tail (by simpa using hgf)]
    rfl

theorem Sound.move (hM : 0 < M) (hQ : 0 < Q) (h : R.Sound Q M) (hmove : Move Q M K R e R') :
    R'.Sound Q M := by
  cases hmove with
  | grant hring hturn => exact h.grant hQ hring hturn
  | send hpos hn => exact h.send hpos hn
  | pass hring _ hlt => exact h.pass hring hlt
  | join hf => exact h.join hM hf
  | leave _ d b => exact h.leave _ d b

theorem Moves.sound (hM : 0 < M) (hQ : 0 < Q) (hmoves : Moves Q M K R e R') (h : R.Sound Q M) :
    R'.Sound Q M := by
  induction hmoves with
  | nil => exact h
  | cons hmove _ ih => exact ih (h.move hM hQ hmove)

theorem pair_erase (hi : f ≠ i) (hj : f ≠ j) : [j, i].Sublist (l.erase f) ↔ [j, i].Sublist l := by
  constructor
  · exact fun h => h.trans erase_sublist
  · intro h
    have herase := h.erase f
    rwa [erase_of_not_mem (by simp [hi, hj])] at herase

theorem pair_order (hhead : ∀ f, R.ring.head? = some f → R.turn f = true → f ≠ i ∧ f ≠ j)
    (hn : R.ring.Nodup) : [j, i].Sublist R.order ↔ [j, i].Sublist R.ring := by
  cases hring : R.ring with
  | nil => simp [order, hring]
  | cons f t =>
    cases hturn : R.turn f with
    | false => rw [order_of_not_turn hring hturn]
    | true =>
      obtain ⟨hi, hj⟩ := hhead f (by rw [hring]; rfl) hturn
      have hf : f ∉ t := (nodup_cons.1 (hring ▸ hn)).1
      rw [order_of_turn hring hturn, ← pair_erase hi hj, erase_append_right _ hf,
        ← pair_erase (l := f :: t) hi hj]
      simp

theorem lead_grant (hn : R.ring.Nodup) (hij : i ≠ j) (hi : i ∈ R.ring) (hj : j ∈ R.ring)
    (hring : R.ring = f :: t) (hturn : R.turn f = false) :
    lead Q i j (R.grant Q f) = lead Q i j R := by
  have horder : (R.grant Q f).order = t ++ [f] :=
    order_of_turn (R := R.grant Q f) hring (update_self _ _ _)
  rw [hring] at hn hi hj
  have hn' : (t ++ [f]).Nodup := nodup_append_comm.1 hn
  unfold lead
  rw [horder, order_of_not_turn hring hturn]
  by_cases hfi : f = i
  · subst hfi
    have hj' : j ∈ t := (mem_cons.1 hj).resolve_left hij.symm
    rw [if_pos (pair_concat hj'), if_neg (not_pair_cons hn hij)]
    simp only [grant, update_self, update_of_ne hij.symm]
    omega
  · by_cases hfj : f = j
    · subst hfj
      have hi' : i ∈ t := (mem_cons.1 hi).resolve_left hij
      rw [if_neg (not_pair_concat hn' hij), if_pos (pair_cons hi')]
      simp only [grant, update_self, update_of_ne hij]
      omega
    · have hf : f ∉ t := (nodup_cons.1 hn).1
      have hiff : [j, i].Sublist (t ++ [f]) ↔ [j, i].Sublist (f :: t) := by
        rw [← pair_erase hfi hfj, erase_append_right _ hf,
          ← pair_erase (l := f :: t) hfi hfj]
        simp
      simp only [grant, update_of_ne (Ne.symm hfi), update_of_ne (Ne.symm hfj),
        hiff]

theorem lead_send (hij : i ≠ j) (f : F) (n : ℤ) :
    lead Q i j (R.send f n) + (sent i [(f, n)] - sent j [(f, n)]) = lead Q i j R := by
  have horder : (R.send f n).order = R.order := rfl
  unfold lead
  rw [horder, sent_single, sent_single]
  by_cases hfi : f = i
  · subst hfi
    simp only [send, update_self, update_of_ne hij.symm, if_true, if_neg hij]
    omega
  · by_cases hfj : f = j
    · subst hfj
      simp only [send, update_self, update_of_ne hij, if_true, if_neg hfi]
      omega
    · simp only [send, update_of_ne (Ne.symm hfi), update_of_ne (Ne.symm hfj),
        if_neg hfi, if_neg hfj]
      omega

theorem lead_pass (hn : R.ring.Nodup) (hti : R.Timely i) (htj : R.Timely j)
    (hring : R.ring = f :: t) (hturn : R.turn f = true) : lead Q i j (R.pass f t) = lead Q i j R := by
  have hiff : [j, i].Sublist (R.pass f t).order ↔ [j, i].Sublist (R.pass f t).ring := by
    apply pair_order
    · intro g hg hturng
      have hgf : g ≠ f := by
        rintro rfl
        simp [pass] at hturng
      simp only [pass, update_of_ne hgf] at hturng
      constructor
      · rintro rfl
        exact hgf (Option.some.inj ((hti hturng).symm.trans (by rw [hring]; rfl)))
      · rintro rfl
        exact hgf (Option.some.inj ((htj hturng).symm.trans (by rw [hring]; rfl)))
    · rw [hring] at hn
      exact nodup_append_comm.1 hn
  unfold lead
  simp only [hiff, order_of_turn hring hturn]
  rfl

theorem order_join (hi : i ∈ R.ring) (hf : f ∉ R.ring) : (R.join f).order.erase f = R.order := by
  obtain ⟨h, t, hring⟩ := exists_cons_of_ne_nil (ne_nil_of_mem hi)
  have hring' : (R.join f).ring = h :: (t ++ [f]) := by simp [join, hring]
  rw [hring, mem_cons, not_or] at hf
  cases hturn : R.turn h with
  | false =>
    rw [order_of_not_turn hring hturn, order_of_not_turn (R := R.join f) hring' hturn,
      erase_cons_tail (by simpa using Ne.symm hf.1), erase_append_right _ hf.2]
    simp
  | true =>
    rw [order_of_turn hring hturn, order_of_turn (R := R.join f) hring' hturn,
      append_assoc, erase_append_right _ hf.2]
    simp

theorem lead_join (hi : i ∈ R.ring) (hj : j ∈ R.ring) (hf : f ∉ R.ring) : lead Q i j (R.join f) = lead Q i j R := by
  have hfi : f ≠ i := fun h => hf (h ▸ hi)
  have hfj : f ≠ j := fun h => hf (h ▸ hj)
  unfold lead
  simp only [← pair_erase (l := (R.join f).order) hfi hfj, order_join hi hf]
  simp only [join, update_of_ne hfi.symm, update_of_ne hfj.symm]

theorem pair_order_leave (hn : R.ring.Nodup) (hi : i ∈ R.ring) (hti : R.Timely i)
    (htj : R.Timely j) (hfi : f ≠ i) (hfj : f ≠ j) (d : ℤ) (b : Bool) :
    [j, i].Sublist (R.leave f d b).order ↔ [j, i].Sublist R.order := by
  obtain ⟨h, t, hring⟩ := exists_cons_of_ne_nil (ne_nil_of_mem hi)
  rw [← pair_erase (l := R.order) hfi hfj]
  by_cases hhf : h = f
  · -- the next flow becomes the head, and its turn may be marked already
    subst hhf
    have hh : h ∉ t := (nodup_cons.1 (hring ▸ hn)).1
    have hring' : (R.leave h d b).ring = t := by simp [leave, hring]
    have hiff : [j, i].Sublist (R.leave h d b).order ↔ [j, i].Sublist (R.leave h d b).ring := by
      apply pair_order
      · intro g hg hturng
        rw [hring'] at hg
        have hgh : g ≠ h := fun hgh => hh (hgh ▸ mem_of_head? hg)
        simp only [leave, update_of_ne hgh] at hturng
        constructor
        · rintro rfl
          exact hgh (Option.some.inj ((hti hturng).symm.trans (by rw [hring]; rfl)))
        · rintro rfl
          exact hgh (Option.some.inj ((htj hturng).symm.trans (by rw [hring]; rfl)))
      · exact hn.erase h
    rw [hiff, hring']
    cases hturn : R.turn h with
    | false => rw [order_of_not_turn hring hturn, erase_cons_head]
    | true =>
      rw [order_of_turn hring hturn, erase_append_right _ hh, erase_cons_head,
        append_nil]
  · have hring' : (R.leave f d b).ring = h :: t.erase f := by
      simp only [leave, hring]
      exact erase_cons_tail (by simpa using hhf)
    have hturn' : (R.leave f d b).turn h = R.turn h := by
      simp only [leave, update_of_ne hhf]
    cases hturn : R.turn h with
    | false =>
      rw [order_of_not_turn hring hturn, order_of_not_turn hring' (hturn'.trans hturn),
        erase_cons_tail (by simpa using hhf)]
    | true =>
      rw [order_of_turn hring hturn, order_of_turn hring' (hturn'.trans hturn)]
      by_cases hf : f ∈ t
      · rw [erase_append_left _ hf]
      · rw [erase_append_right _ hf, erase_of_not_mem hf,
          erase_of_not_mem (by simpa using Ne.symm hhf)]

theorem lead_leave (hn : R.ring.Nodup) (hi : i ∈ R.ring) (hti : R.Timely i) (htj : R.Timely j)
    (hfi : f ≠ i) (hfj : f ≠ j) (d : ℤ) (b : Bool) :
    lead Q i j (R.leave f d b) = lead Q i j R := by
  unfold lead
  simp only [pair_order_leave hn hi hti htj hfi hfj]
  simp only [leave, update_of_ne hfi.symm, update_of_ne hfj.symm]

theorem Timely.move (h : Move Q M K R e R') (hi : i ∈ R.ring) (hiK : i ∈ K) (hti : R.Timely i) :
    R'.Timely i ∧ i ∈ R'.ring := by
  cases h with
  | @grant f t hring hturn =>
    refine ⟨fun hturni => ?_, hi⟩
    by_cases hfi : i = f
    · rw [hfi]
      exact congrArg head? hring
    · simp only [grant, update_of_ne hfi] at hturni
      exact hti hturni
  | send hpos hn => exact ⟨hti, hi⟩
  | @pass f t hring hturn hlt =>
    refine ⟨fun hturni => ?_, ?_⟩
    · have hfi : i ≠ f := by
        rintro rfl
        simp [pass] at hturni
      simp only [pass, update_of_ne hfi] at hturni
      exact absurd (Option.some.inj ((hti hturni).symm.trans (congrArg head? hring))) hfi
    · rw [hring] at hi
      simpa [pass, or_comm] using hi
  | @join f hf =>
    refine ⟨fun hturni => ?_, mem_append_left _ hi⟩
    simp only [join]
    rw [head?_append_of_ne_nil _ (ne_nil_of_mem hi)]
    exact hti hturni
  | @leave f hf d b =>
    have hfi : i ≠ f := fun h => hf (h ▸ hiK)
    refine ⟨fun hturni => ?_, (mem_erase_of_ne hfi).2 hi⟩
    simp only [leave, update_of_ne hfi] at hturni
    obtain ⟨t, hring⟩ := head?_eq_some_iff.1 (hti hturni)
    simp only [leave, hring]
    rw [erase_cons_tail (by simpa using hfi)]
    rfl

theorem lead_move (h : Move Q M K R e R') (hn : R.ring.Nodup) (hij : i ≠ j) (hi : i ∈ R.ring)
    (hj : j ∈ R.ring) (hiK : i ∈ K) (hjK : j ∈ K) (hti : R.Timely i) (htj : R.Timely j) :
    lead Q i j R' + (sent i e - sent j e) = lead Q i j R := by
  have hnil : ∀ x : ℤ, x + (sent i [] - sent j []) = x := fun x => by simp [sent]
  cases h with
  | grant hring hturn => rw [hnil, lead_grant hn hij hi hj hring hturn]
  | send hpos hn => exact lead_send hij _ _
  | pass hring hturn hlt => rw [hnil, lead_pass hn hti htj hring hturn]
  | join hf => rw [hnil, lead_join hi hj hf]
  | leave hf d b =>
    rw [hnil, lead_leave hn hi hti htj (ne_of_mem_of_not_mem hiK hf).symm
      (ne_of_mem_of_not_mem hjK hf).symm]

theorem lead_moves (hM : 0 < M) (hQ : 0 < Q) (h : Moves Q M K R e R') (hs : R.Sound Q M)
    (hij : i ≠ j) (hi : i ∈ R.ring) (hj : j ∈ R.ring) (hiK : i ∈ K) (hjK : j ∈ K)
    (hti : R.Timely i) (htj : R.Timely j) :
    lead Q i j R' + (sent i e - sent j e) = lead Q i j R ∧
      i ∈ R'.ring ∧ j ∈ R'.ring ∧ R'.Timely i ∧ R'.Timely j := by
  induction h with
  | nil R => exact ⟨by simp [sent], hi, hj, hti, htj⟩
  | cons hmove _ ih =>
    obtain ⟨hti', hi'⟩ := hti.move hmove hi hiK
    obtain ⟨htj', hj'⟩ := htj.move hmove hj hjK
    have hstep := lead_move hmove hs.nodup hij hi hj hiK hjK hti htj
    obtain ⟨hlead, hrest⟩ := ih (hs.move hM hQ hmove) hi' hj' hti' htj'
    refine ⟨?_, hrest⟩
    rw [sent_append, sent_append]
    omega

theorem Sound.lead_bounds (hQ : 0 < Q) (hs : R.Sound Q M) (hij : i ≠ j)
    (hi : i ∈ R.ring) (hj : j ∈ R.ring) : -(Q + M) < lead Q i j R ∧ lead Q i j R < M := by
  have hi₀ := hs.nonneg i hi
  have hj₀ := hs.nonneg j hj
  have horder : ∀ f, R.ring.head? = some f → R.turn f = true →
      ∃ t, R.ring = f :: t ∧ R.order = t ++ [f] := by
    intro f hhead hturn
    obtain ⟨t, hring⟩ := head?_eq_some_iff.1 hhead
    exact ⟨t, hring, order_of_turn hring hturn⟩
  unfold lead
  constructor
  · rcases hs.lt j hj with hlt | ⟨hhead, hturn, hlt⟩
    · split <;> omega
    · obtain ⟨t, hring, horder⟩ := horder j hhead hturn
      have hn := hs.nodup
      rw [hring] at hn
      replace hn : (t ++ [j]).Nodup := nodup_append_comm.1 hn
      rw [horder, if_neg (not_pair_concat hn hij)]
      omega
  · rcases hs.lt i hi with hlt | ⟨hhead, hturn, hlt⟩
    · split <;> omega
    · obtain ⟨t, hring, horder⟩ := horder i hhead hturn
      rw [hring] at hj
      rw [horder, if_pos (pair_concat ((mem_cons.1 hj).resolve_left hij.symm))]
      omega

/-- Two flows that stay on the ring send as much as each other, up to a quantum and two packets. -/
theorem Moves.fair (hM : 0 < M) (hQ : 0 < Q) (h : Moves Q M K R e R') (hs : R.Sound Q M)
    (hij : i ≠ j) (hi : i ∈ R.ring) (hj : j ∈ R.ring) (hiK : i ∈ K) (hjK : j ∈ K)
    (hti : R.Timely i) (htj : R.Timely j) : |sent i e - sent j e| < Q + 2 * M := by
  obtain ⟨hlead, hi', hj', -, -⟩ := lead_moves hM hQ h hs hij hi hj hiK hjK hti htj
  have hbefore := hs.lead_bounds hQ hij hi hj
  have hafter := (h.sound hM hQ hs).lead_bounds hQ hij hi' hj'
  rw [abs_lt]
  constructor <;> linarith

end DeficitRound

end Ns2
