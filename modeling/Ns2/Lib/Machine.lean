import Mathlib.Algebra.BigOperators.Group.List.Basic
import Mathlib.Algebra.Order.Group.Nat
import Mathlib.Algebra.Ring.Nat

/-! Machines that answer a sequence of operations, runs whose operations are all allowed, and the
simulation argument that carries equal answers from one operation to whole runs. Parties that send
messages and receive them in any order: what holds along every run, and runs that end. -/

namespace Ns2

open List Option

/-- `step s o` is the next state with the answer to `o`; `none` is an abort. -/
structure Machine (σ ω α : Type*) where
  step : σ → ω → Option (σ × α)

namespace Machine

variable {σ τ ω α : Type*}
variable {M : Machine σ ω α} {ok : σ → ω → Prop} {o : ω} {os : List ω} {as : List α}

def run (M : Machine σ ω α) : σ → List ω → Option (σ × List α)
  | s, [] => some (s, [])
  | s, o :: os =>
    (M.step s o).bind fun (s', a) => (M.run s' os).map fun (s'', as) => (s'', a :: as)

/-- The answers of a run, without its last state. -/
def answers (M : Machine σ ω α) (s : σ) (os : List ω) : Option (List α) :=
  (M.run s os).map Prod.snd

/-- Every operation of the run meets `ok` in the state it is applied to. -/
def RunsWith (M : Machine σ ω α) (ok : σ → ω → Prop) : σ → List ω → Prop
  | _, [] => True
  | s, o :: os => ok s o ∧ ∀ s' a, M.step s o = some (s', a) → M.RunsWith ok s' os

theorem runsWith_cons_iff {s s' : σ} {a : α} (h : M.step s o = some (s', a)) :
    M.RunsWith ok s (o :: os) ↔ ok s o ∧ M.RunsWith ok s' os := by
  refine and_congr_right fun _ => ⟨fun hr => hr s' a h, fun hr s₁ b hs => ?_⟩
  obtain ⟨rfl, -⟩ := Prod.mk.inj (some.inj (h.symm.trans hs))
  exact hr

instance decidableRunsWith (M : Machine σ ω α) (ok : σ → ω → Prop) [∀ s o, Decidable (ok s o)] :
    ∀ s os, Decidable (M.RunsWith ok s os)
  | _, [] => isTrue trivial
  | s, o :: os =>
    match h : M.step s o with
    | none => decidable_of_iff (ok s o) ⟨fun ho => ⟨ho, fun s' a hs => by simp [h] at hs⟩, And.left⟩
    | some (s', _) =>
      have := decidableRunsWith M ok s' os
      decidable_of_iff (ok s o ∧ M.RunsWith ok s' os) (runsWith_cons_iff h).symm

@[simp] theorem run_nil (M : Machine σ ω α) (s : σ) : M.run s [] = some (s, []) := rfl

theorem run_cons (M : Machine σ ω α) {s s' : σ} {a : α} (os : List ω)
    (h : M.step s o = some (s', a)) :
    M.run s (o :: os) = (M.run s' os).map fun r => (r.1, a :: r.2) := by
  simp [run, h]

theorem run_append (M : Machine σ ω α) {s s' : σ} (os' : List ω) (h : M.run s os = some (s', as)) :
    M.run s (os ++ os') = (M.run s' os').map fun r => (r.1, as ++ r.2) := by
  induction os generalizing s as with
  | nil =>
    obtain ⟨rfl, rfl⟩ : s = s' ∧ [] = as := by simpa using h
    simp
  | cons o os ih =>
    cases hs : M.step s o with
    | none => simp [run, hs] at h
    | some r =>
      obtain ⟨s₁, a⟩ := r
      rw [run_cons M os hs] at h
      cases hr : M.run s₁ os with
      | none => simp [hr] at h
      | some r' =>
        obtain ⟨s₂, as'⟩ := r'
        obtain ⟨rfl, rfl⟩ : s₂ = s' ∧ a :: as' = as := by simpa [hr] using h
        rw [cons_append, run_cons M (os ++ os') hs, ih hr, Option.map_map]
        rfl

theorem run_concat_eq_some (M : Machine σ ω α) {s s'' : σ}
    (h : M.run s (os ++ [o]) = some (s'', as)) : ∃ s' as' a, M.run s os = some (s', as') ∧
      M.step s' o = some (s'', a) ∧ as = as' ++ [a] := by
  induction os generalizing s as with
  | nil =>
    cases hstep : M.step s o with
    | none => simp [run, hstep] at h
    | some r =>
      rw [nil_append, run_cons M [] hstep, run_nil] at h
      obtain ⟨rfl, rfl⟩ := Prod.mk.inj (some.inj h)
      exact ⟨s, [], r.2, rfl, hstep, rfl⟩
  | cons o' os ih =>
    cases hstep : M.step s o' with
    | none => simp [run, hstep] at h
    | some r =>
      rw [cons_append, run_cons M _ hstep] at h
      obtain ⟨⟨s₁, as₁⟩, hq, heq⟩ := map_eq_some_iff.1 h
      obtain ⟨rfl, rfl⟩ := Prod.mk.inj heq
      obtain ⟨s', as', a, hrun, hs', rfl⟩ := ih hq
      exact ⟨s', r.2 :: as', a, by rw [run_cons M os hstep, hrun]; rfl, hs', rfl⟩

theorem length_of_run (M : Machine σ ω α) {s s' : σ} (h : M.run s os = some (s', as)) :
    as.length = os.length := by
  induction os generalizing s as with
  | nil =>
    obtain ⟨-, rfl⟩ : s = s' ∧ [] = as := by simpa using h
    rfl
  | cons o os ih =>
    cases hs : M.step s o with
    | none => simp [run, hs] at h
    | some r =>
      rw [run_cons M os hs] at h
      obtain ⟨q, hq, heq⟩ := map_eq_some_iff.1 h
      obtain ⟨rfl, rfl⟩ := Prod.mk.inj heq
      exact congrArg (· + 1) (ih hq)

/-- Operations without answers. -/
def silent (step : σ → ω → Option σ) : Machine σ ω Unit :=
  ⟨fun s o => (step s o).map fun s => (s, ())⟩

theorem silent_step_iff {step : σ → ω → Option σ} {s s' : σ} :
    (silent step).step s o = some (s', ()) ↔ step s o = some s' := by
  constructor
  · intro h
    obtain ⟨t, ht, heq⟩ := map_eq_some_iff.1 h
    obtain ⟨rfl, -⟩ := Prod.mk.inj heq
    exact ht
  · intro h
    exact congrArg (Option.map fun s => (s, ())) h

theorem silent_run (step : σ → ω → Option σ) (s : σ) (os : List ω) :
    ((silent step).run s os).map Prod.fst = os.foldlM step s := by
  induction os generalizing s with
  | nil => rfl
  | cons o os ih =>
    rw [foldlM_cons]
    cases hs : step s o with
    | none => simp [run, silent, hs]
    | some s' =>
      rw [run_cons _ os (silent_step_iff.2 hs), Option.map_map]
      exact ih s'

theorem runsWith_true (M : Machine σ ω α) (s : σ) (os : List ω) :
    M.RunsWith (fun _ _ => True) s os := by
  induction os generalizing s with
  | nil => trivial
  | cons o os ih => exact ⟨trivial, fun s' _ _ => ih s'⟩

theorem runsWith_of_forall (M : Machine σ ω α) (h : ∀ o ∈ os, ∀ s, ok s o) (s : σ) :
    M.RunsWith ok s os := by
  induction os generalizing s with
  | nil => trivial
  | cons o os ih =>
    exact ⟨h o mem_cons_self s,
      fun s' _ _ => ih (fun o' ho' => h o' (mem_cons_of_mem _ ho')) s'⟩

theorem RunsWith.and {ok' : σ → ω → Prop} {s : σ} (h : M.RunsWith ok s os)
    (h' : M.RunsWith ok' s os) : M.RunsWith (fun s o => ok s o ∧ ok' s o) s os := by
  induction os generalizing s with
  | nil => trivial
  | cons o os ih => exact ⟨⟨h.1, h'.1⟩, fun s' a hs => ih (h.2 s' a hs) (h'.2 s' a hs)⟩

theorem RunsWith.append {s : σ} {os' : List ω} (h : M.RunsWith ok s (os ++ os')) :
    M.RunsWith ok s os ∧
      ∀ s' as, M.run s os = some (s', as) → M.RunsWith ok s' os' := by
  induction os generalizing s with
  | nil =>
    refine ⟨trivial, fun s' as hrun => ?_⟩
    obtain ⟨rfl, -⟩ : s = s' ∧ [] = as := by simpa using hrun
    exact h
  | cons o os ih =>
    refine ⟨⟨h.1, fun s₁ a hstep => (ih (h.2 s₁ a hstep)).1⟩, fun s' as hrun => ?_⟩
    cases hstep : M.step s o with
    | none => simp [run, hstep] at hrun
    | some r =>
      rw [run_cons M os hstep] at hrun
      obtain ⟨q, hq, heq⟩ := map_eq_some_iff.1 hrun
      obtain ⟨rfl, -⟩ := Prod.mk.inj heq
      exact (ih (h.2 r.1 r.2 hstep)).2 q.1 q.2 hq

theorem runsWith_append_iff {s s' : σ} {os' : List ω} (h : M.run s os = some (s', as)) :
    M.RunsWith ok s (os ++ os') ↔ M.RunsWith ok s os ∧ M.RunsWith ok s' os' := by
  induction os generalizing s as with
  | nil =>
    obtain ⟨rfl, -⟩ : s = s' ∧ [] = as := by simpa using h
    exact (and_iff_right trivial).symm
  | cons o os ih =>
    cases hstep : M.step s o with
    | none => simp [run, hstep] at h
    | some r =>
      rw [run_cons M os hstep] at h
      obtain ⟨q, hq, heq⟩ := map_eq_some_iff.1 h
      obtain ⟨rfl, -⟩ := Prod.mk.inj heq
      rw [cons_append, runsWith_cons_iff hstep, runsWith_cons_iff hstep, ih hq, and_assoc]

theorem RunsWith.keeps {I : σ → Prop}
    (hstep : ∀ s o s' a, I s → ok s o → M.step s o = some (s', a) → I s') {s s' : σ}
    (hok : M.RunsWith ok s os) (hrun : M.run s os = some (s', as)) (hI : I s) : I s' := by
  induction os generalizing s as with
  | nil =>
    obtain ⟨rfl, -⟩ : s = s' ∧ [] = as := by simpa using hrun
    exact hI
  | cons o os ih =>
    cases hs : M.step s o with
    | none => simp [run, hs] at hrun
    | some r =>
      obtain ⟨s₁, a⟩ := r
      rw [run_cons M os hs] at hrun
      obtain ⟨r, hr, heq⟩ := map_eq_some_iff.1 hrun
      obtain ⟨rfl, -⟩ := Prod.mk.inj heq
      exact ih (hok.2 s₁ a hs) hr (hstep s o s₁ a hI hok.1 hs)

/-- An invariant under which no allowed operation aborts, with what each answer satisfies. -/
theorem RunsWith.exists_run {I : σ → Prop} {Q : ω → α → Prop}
    (hstep : ∀ s o, I s → ok s o → ∃ s' a, M.step s o = some (s', a) ∧ I s' ∧ Q o a) {s : σ}
    (hok : M.RunsWith ok s os) (hI : I s) :
    ∃ s' as, M.run s os = some (s', as) ∧ I s' ∧ Forall₂ Q os as := by
  induction os generalizing s with
  | nil => exact ⟨s, [], rfl, hI, Forall₂.nil⟩
  | cons o os ih =>
    obtain ⟨s₁, a, hs, hI₁, hQ⟩ := hstep s o hI hok.1
    obtain ⟨s', as, hrun, hI', hQs⟩ := ih (hok.2 s₁ a hs) hI₁
    refine ⟨s', a :: as, ?_, hI', Forall₂.cons hQ hQs⟩
    rw [run_cons M os hs, hrun]
    rfl

theorem keeps_of_run {I : σ → Prop} {Q : ω → α → Prop}
    (hstep : ∀ s o s' a, I s → M.step s o = some (s', a) → I s' ∧ Q o a) {s s' : σ}
    (hrun : M.run s os = some (s', as)) (hI : I s) : I s' ∧ Forall₂ Q os as := by
  induction os generalizing s as with
  | nil =>
    obtain ⟨rfl, rfl⟩ : s = s' ∧ [] = as := by simpa using hrun
    exact ⟨hI, Forall₂.nil⟩
  | cons o os ih =>
    cases hs : M.step s o with
    | none => simp [run, hs] at hrun
    | some r =>
      obtain ⟨s₁, a⟩ := r
      rw [run_cons M os hs] at hrun
      obtain ⟨q, hq, heq⟩ := map_eq_some_iff.1 hrun
      obtain ⟨rfl, rfl⟩ := Prod.mk.inj heq
      obtain ⟨hI₁, ha⟩ := hstep s o s₁ a hI hs
      obtain ⟨hI', has⟩ := ih hq hI₁
      exact ⟨hI', Forall₂.cons ha has⟩

theorem RunsWith.imp {ok' : σ → ω → Prop} {I : σ → Prop} (himp : ∀ s o, I s → ok s o → ok' s o)
    (hstep : ∀ s o s' a, I s → ok s o → M.step s o = some (s', a) → I s') {s : σ}
    (hok : M.RunsWith ok s os) (hI : I s) : M.RunsWith ok' s os := by
  induction os generalizing s with
  | nil => trivial
  | cons o os ih =>
    exact ⟨himp s o hI hok.1, fun s' a hs => ih (hok.2 s' a hs) (hstep s o s' a hI hok.1 hs)⟩

/-- Two conditions on the operations of a run agree when they agree wherever the first one has
held so far. -/
theorem runsWith_congr {ok' : σ → ω → Prop} {I : σ → Prop} (hiff : ∀ s o, I s → (ok s o ↔ ok' s o))
    (hstep : ∀ s o s' a, I s → ok s o → M.step s o = some (s', a) → I s') {s : σ} (hI : I s)
    (os : List ω) : M.RunsWith ok s os ↔ M.RunsWith ok' s os := by
  induction os generalizing s with
  | nil => exact Iff.rfl
  | cons o os ih =>
    rw [RunsWith, RunsWith, ← hiff s o hI]
    exact and_congr_right fun hok =>
      forall₂_congr fun s' a => imp_congr_right fun hs => ih (hstep s o s' a hI hok hs)

theorem RunsWith.congr {ok₁ ok₂ : σ → ω → Prop} {I : σ → Prop}
    (hiff : ∀ s o, I s → ok s o → (ok₁ s o ↔ ok₂ s o))
    (hstep : ∀ s o s' a, I s → ok s o → ok₁ s o → M.step s o = some (s', a) → I s') {s : σ}
    (hok : M.RunsWith ok s os) (hI : I s) : M.RunsWith ok₁ s os ↔ M.RunsWith ok₂ s os := by
  induction os generalizing s with
  | nil => exact Iff.rfl
  | cons o os ih =>
    rw [RunsWith, RunsWith, ← hiff s o hI hok.1]
    exact and_congr_right fun hok₁ => forall₂_congr fun s' a => imp_congr_right fun hs =>
      ih (hok.2 s' a hs) (hstep s o s' a hI hok.1 hok₁ hs)

/-- From related states every allowed operation is answered alike by both
machines, and leaves related states. -/
structure Simulates (M : Machine σ ω α) (N : Machine τ ω α) (okM : σ → ω → Prop)
    (okN : τ → ω → Prop) (R : σ → τ → Prop) : Prop where
  step : ∀ {s t o}, R s t → okM s o → okN t o →
    ∃ s' t' a, M.step s o = some (s', a) ∧ N.step t o = some (t', a) ∧ R s' t'

theorem Simulates.run {N : Machine τ ω α} {okM : σ → ω → Prop} {okN : τ → ω → Prop}
    {R : σ → τ → Prop} (h : Simulates M N okM okN R) {s : σ} {t : τ} (hR : R s t)
    (hM : M.RunsWith okM s os) (hN : N.RunsWith okN t os) :
    ∃ s' t' as, M.run s os = some (s', as) ∧ N.run t os = some (t', as) ∧ R s' t' := by
  induction os generalizing s t with
  | nil => exact ⟨s, t, [], rfl, rfl, hR⟩
  | cons o os ih =>
    obtain ⟨s₁, t₁, a, hs, ht, hR₁⟩ := h.step hR hM.1 hN.1
    obtain ⟨s', t', as, hs', ht', hR'⟩ := ih hR₁ (hM.2 s₁ a hs) (hN.2 t₁ a ht)
    refine ⟨s', t', a :: as, ?_, ?_, hR'⟩
    · rw [run_cons M os hs, hs']; rfl
    · rw [run_cons N os ht, ht']; rfl

end Machine

theorem foldlM_range_of_step {σ : Type*} {f : σ → ℕ → Option σ} {P : ℕ → σ → Prop} {n : ℕ}
    (hstep : ∀ k < n, ∀ s, P k s → ∃ s', f s k = some s' ∧ P (k + 1) s') {s : σ} (h : P 0 s) :
    ∃ s', (range n).foldlM f s = some s' ∧ P n s' := by
  induction n with
  | zero => exact ⟨s, rfl, h⟩
  | succ n ih =>
    obtain ⟨s₁, hs₁, h₁⟩ := ih fun k hk => hstep k (Nat.lt_succ_of_lt hk)
    obtain ⟨s₂, hs₂, h₂⟩ := hstep n (Nat.lt_succ_self n) s₁ h₁
    refine ⟨s₂, ?_, h₂⟩
    rw [range_succ, foldlM_append, hs₁]
    simp only [Option.bind_eq_bind, Option.bind_some, foldlM_cons, hs₂, foldlM_nil,
      Option.pure_def]

theorem foldl_range_of_step {σ : Type*} {f : σ → ℕ → σ} {P : ℕ → σ → Prop} {n : ℕ}
    (hstep : ∀ k < n, ∀ s, P k s → P (k + 1) (f s k)) {s : σ} (h : P 0 s) :
    P n ((range n).foldl f s) := by
  induction n with
  | zero => exact h
  | succ n ih =>
    rw [range_succ, foldl_append]
    exact hstep n (Nat.lt_succ_self n) _ (ih fun k hk => hstep k (Nat.lt_succ_of_lt hk))

theorem forall₂_of_mapM {α β : Type*} {f : α → Option β} {l : List α} {l' : List β}
    (h : l.mapM f = some l') : Forall₂ (fun a b => f a = some b) l l' := by
  induction l generalizing l' with
  | nil =>
    obtain rfl : [] = l' := some.inj h
    exact Forall₂.nil
  | cons a l ih =>
    rw [mapM_cons] at h
    obtain ⟨b, hb, h⟩ := bind_eq_some_iff.1 h
    obtain ⟨l₁, hl₁, h⟩ := bind_eq_some_iff.1 h
    obtain rfl : b :: l₁ = l' := some.inj h
    exact Forall₂.cons hb (ih hl₁)

theorem exists_mapM {α β : Type*} {f : α → Option β} {l : List α} (h : ∀ a ∈ l, ∃ b, f a = some b) :
    ∃ l', l.mapM f = some l' := by
  induction l with
  | nil => exact ⟨[], rfl⟩
  | cons a l ih =>
    obtain ⟨b, hb⟩ := h a mem_cons_self
    obtain ⟨l', hl'⟩ := ih fun a' ha' => h a' (mem_cons_of_mem a ha')
    refine ⟨b :: l', ?_⟩
    rw [mapM_cons, hb, hl']
    rfl

theorem foldlM_keeps_of_mem {σ α : Type*} {f : σ → α → Option σ} {Q : σ → Prop} {l : List α}
    (hkeep : ∀ a ∈ l, ∀ s s', f s a = some s' → Q s → Q s') {s s' : σ}
    (h : l.foldlM f s = some s') (hs : Q s) : Q s' := by
  induction l generalizing s with
  | nil =>
    obtain rfl : s = s' := some.inj h
    exact hs
  | cons a l ih =>
    rw [foldlM_cons] at h
    obtain ⟨s₁, hs₁, h⟩ := bind_eq_some_iff.1 h
    exact ih (fun b hb => hkeep b (mem_cons_of_mem a hb)) h
      (hkeep a mem_cons_self s s₁ hs₁ hs)

theorem foldlM_keeps {σ α : Type*} {f : σ → α → Option σ} {Q : σ → Prop} {l : List α}
    (hkeep : ∀ a s s', f s a = some s' → Q s → Q s') {s s' : σ} (h : l.foldlM f s = some s')
    (hs : Q s) : Q s' :=
  foldlM_keeps_of_mem (fun a _ => hkeep a) h hs

theorem foldlM_of_mem {σ α : Type*} {f : σ → α → Option σ} {Q : σ → Prop} {l : List α} {a : α}
    (ha : a ∈ l) (hstep : ∀ s s', f s a = some s' → Q s')
    (hkeep : ∀ a s s', f s a = some s' → Q s → Q s') {s s' : σ} (h : l.foldlM f s = some s') :
    Q s' := by
  obtain ⟨l₁, l₂, rfl⟩ := append_of_mem ha
  rw [foldlM_append] at h
  obtain ⟨s₁, -, h⟩ := bind_eq_some_iff.1 h
  rw [foldlM_cons] at h
  obtain ⟨s₂, hs₂, h⟩ := bind_eq_some_iff.1 h
  exact foldlM_keeps hkeep h (hstep s₁ s₂ hs₂)

theorem foldlM_eq_none {σ α : Type*} {f : σ → α → Option σ} {l : List α} {a : α} (ha : a ∈ l)
    (hstep : ∀ s, f s a = none) (s : σ) : l.foldlM f s = none := by
  cases h : l.foldlM f s with
  | none => rfl
  | some s' =>
    have hno : ∀ s s', f s a = some s' → False := fun s s' hs => by
      rw [hstep] at hs
      cases hs
    exact (foldlM_of_mem (Q := fun _ => False) ha hno (fun _ _ _ _ hfalse => hfalse) h).elim

/-- Every element of a list is changed in its turn, with the state that the ones before it have
left. -/
def mapAccum {σ α : Type*} (f : σ → α → σ × α) : σ → List α → σ × List α
  | s, [] => (s, [])
  | s, a :: l =>
    let r := f s a
    let q := mapAccum f r.1 l
    (q.1, r.2 :: q.2)

section

variable {σ α : Type*} {f : σ → α → σ × α} {s : σ} {l : List α}

theorem mapAccum_cons (a : α) : mapAccum f s (a :: l) =
    ((mapAccum f (f s a).1 l).1, (f s a).2 :: (mapAccum f (f s a).1 l).2) := rfl

theorem map_mapAccum {β : Type*} {g : α → β} (hg : ∀ s a, g (f s a).2 = g a) :
    (mapAccum f s l).2.map g = l.map g := by
  induction l generalizing s with
  | nil => rfl
  | cons a l ih => rw [mapAccum_cons, map_cons, map_cons, hg, ih]

theorem mapAccum_keeps {I : σ → Prop} {J K : α → Prop}
    (hstep : ∀ s a, I s → J a → I (f s a).1 ∧ K (f s a).2) (hs : I s) (hl : ∀ a ∈ l, J a) :
    I (mapAccum f s l).1 ∧ ∀ a ∈ (mapAccum f s l).2, K a := by
  induction l generalizing s with
  | nil => exact ⟨hs, fun a ha => absurd ha not_mem_nil⟩
  | cons a l ih =>
    rw [forall_mem_cons] at hl
    obtain ⟨hs', ha⟩ := hstep s a hs hl.1
    obtain ⟨hI, hK⟩ := ih hs' hl.2
    rw [mapAccum_cons]
    exact ⟨hI, forall_mem_cons.2 ⟨ha, hK⟩⟩

end

open List

/-- The parties' state and the messages under way. -/
structure Flight (σ μ : Type*) where
  state : σ
  inFlight : List μ

namespace Flight

variable {σ μ : Type*} (recv : σ → μ → Option (σ × List μ))

/-- One of the messages under way is received. -/
inductive Step : Flight σ μ → Flight σ μ → Prop
  | deliver {s s' : σ} {m : μ} {out : List μ} (pre post : List μ) (h : recv s m = some (s', out)) :
      Step ⟨s, pre ++ m :: post⟩ ⟨s', pre ++ post ++ out⟩

inductive Run : ℕ → Flight σ μ → Flight σ μ → Prop
  | nil (f : Flight σ μ) : Run 0 f f
  | snoc {n : ℕ} {f f' f'' : Flight σ μ} (hrun : Run n f f') (hstep : Step recv f' f'') :
      Run (n + 1) f f''

/-- Every run is finite and never stuck, and `Q` holds when nothing is under way. -/
def Settles (f₀ : Flight σ μ) (Q : σ → Prop) : Prop :=
  ∃ bound, ∀ n f, Run recv n f₀ f → n ≤ bound ∧ (∀ m ∈ f.inFlight, recv f.state m ≠ none) ∧
    (f.inFlight = [] → Q f.state)

variable {recv} {f₀ : Flight σ μ} {Q : σ → Prop}

/-- A message that is not received leaves a run stuck. -/
theorem not_settles {m : μ} (hm : m ∈ f₀.inFlight) (hnone : recv f₀.state m = none) :
    ¬Settles recv f₀ Q := by
  rintro ⟨bound, hbound⟩
  exact (hbound 0 f₀ (Run.nil f₀)).2.1 m hm hnone

end Flight

end Ns2
