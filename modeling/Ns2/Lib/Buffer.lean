import Mathlib.Algebra.Ring.Nat
import Mathlib.Data.List.Basic
import Mathlib.Order.Basic

/-! Numbers in little-endian bytes, and buffers of bytes: what is stored at a position, and that
stores elsewhere leave it. -/

namespace Ns2

open List

/-- The `w` low bytes of `n`, lowest first. -/
def leBytes : ℕ → ℕ → List UInt8
  | 0, _ => []
  | w + 1, n => UInt8.ofNat n :: leBytes w (n / 256)

def leVal : List UInt8 → ℕ
  | [] => 0
  | b :: bs => b.toNat + 256 * leVal bs

theorem leVal_lt (bs : List UInt8) : leVal bs < 256 ^ bs.length := by
  induction bs with
  | nil => exact Nat.one_pos
  | cons b bs ih =>
    have hb : b.toNat < 256 := b.toNat_lt
    rw [leVal, length_cons, Nat.pow_succ]
    omega

theorem leVal_lt_of_length_le {w : ℕ} {bs : List UInt8} (h : bs.length ≤ w) :
    leVal bs < 256 ^ w :=
  Nat.lt_of_lt_of_le (leVal_lt bs) (Nat.pow_le_pow_right (by decide) h)

@[simp] theorem length_leBytes (w n : ℕ) : (leBytes w n).length = w := by
  induction w generalizing n with
  | zero => rfl
  | succ w ih => rw [leBytes, length_cons, ih]

theorem leVal_leBytes {w n : ℕ} (h : n < 256 ^ w) : leVal (leBytes w n) = n := by
  induction w generalizing n with
  | zero =>
    obtain rfl : n = 0 := by simpa using h
    rfl
  | succ w ih =>
    have hdiv : n / 256 < 256 ^ w := (Nat.div_lt_iff_lt_mul (by decide)).2 (Nat.pow_succ .. ▸ h)
    have hbyte : (UInt8.ofNat n).toNat = n % 256 := UInt8.toNat_ofNat'
    rw [leBytes, leVal, ih hdiv, hbyte]
    exact Nat.mod_add_div n 256

theorem take_leBytes (w n : ℕ) (rest : List UInt8) :
    (leBytes w n ++ rest).take w = leBytes w n := take_left' (length_leBytes w n)

theorem drop_leBytes (w n : ℕ) (rest : List UInt8) : (leBytes w n ++ rest).drop w = rest :=
  drop_left' (length_leBytes w n)

open List

structure Buffer where
  size : ℕ
  bytes : ℕ → UInt8

namespace Buffer

/-- `none` is a store out of the buffer. -/
def store (pos : ℕ) (bs : List UInt8) (b : Buffer) : Option Buffer :=
  if pos + bs.length ≤ b.size then
    some { b with bytes := fun i => if pos ≤ i then (bs[i - pos]?).getD (b.bytes i) else b.bytes i }
  else none

/-- `none` is a load out of the buffer. -/
def load (pos n : ℕ) (b : Buffer) : Option (List UInt8) :=
  if pos + n ≤ b.size then some ((range n).map fun i => b.bytes (pos + i)) else none

/-- The bytes from a position up to the next 0, which is looked for in `fuel` bytes; `none` if it is
not there. -/
def loadString (b : Buffer) : ℕ → ℕ → Option (List UInt8)
  | 0, _ => none
  | fuel + 1, pos =>
    if b.bytes pos = 0 then some [] else (b.loadString fuel (pos + 1)).map (b.bytes pos :: ·)

variable {b b' : Buffer} {pos i : ℕ} {bs cs : List UInt8}

/-- The bytes are in the buffer at a position. -/
def Has (b : Buffer) (pos : ℕ) (bs : List UInt8) : Prop :=
  pos + bs.length ≤ b.size ∧ ∀ i x, bs[i]? = some x → b.bytes (pos + i) = x

/-- A buffer that differs from another one from `lo` on and below `hi` only. -/
structure Within (lo hi : ℕ) (b b' : Buffer) : Prop where
  size : b'.size = b.size
  bytes : ∀ i, i < lo ∨ hi ≤ i → b'.bytes i = b.bytes i

theorem Within.refl (lo hi : ℕ) (b : Buffer) : Within lo hi b b := ⟨rfl, fun _ _ => rfl⟩

theorem Within.trans {b'' : Buffer} {lo hi : ℕ} (h : Within lo hi b b') (h' : Within lo hi b' b'') :
    Within lo hi b b'' :=
  ⟨h'.size.trans h.size, fun i hi => (h'.bytes i hi).trans (h.bytes i hi)⟩

theorem Within.mono {lo hi lo' hi' : ℕ} (h : Within lo hi b b') (hlo : lo' ≤ lo) (hhi : hi ≤ hi') :
    Within lo' hi' b b' :=
  ⟨h.size, fun i hi => h.bytes i (by omega)⟩

theorem Has.frame {lo hi : ℕ} (h : b.Has pos bs) (hw : Within lo hi b b')
    (hd : pos + bs.length ≤ lo ∨ hi ≤ pos) : b'.Has pos bs := by
  refine ⟨hw.size ▸ h.1, fun i x hx => ?_⟩
  have hi : i < bs.length := (List.getElem?_eq_some_iff.1 hx).1
  rw [hw.bytes (pos + i) (by omega)]
  exact h.2 i x hx

theorem exists_store (h : pos + bs.length ≤ b.size) :
    ∃ b', b.store pos bs = some b' ∧ Within pos (pos + bs.length) b b' ∧ b'.Has pos bs := by
  unfold store
  rw [if_pos h]
  refine ⟨_, rfl, ⟨rfl, fun i hi => ?_⟩, h, fun i x hx => ?_⟩
  · dsimp only
    split_ifs with hle
    · rw [getElem?_eq_none (by omega)]
      rfl
    · rfl
  · dsimp only
    rw [if_pos (Nat.le_add_right pos i), Nat.add_sub_cancel_left, hx]
    rfl

theorem exists_stores {fs : List (ℕ × List UInt8)} {lo hi : ℕ}
    (hfs : fs.Pairwise fun f g => f.1 + f.2.length ≤ g.1)
    (hin : ∀ f ∈ fs, lo ≤ f.1 ∧ f.1 + f.2.length ≤ hi) (hhi : hi ≤ b.size) :
    ∃ b', fs.foldlM (fun b f => b.store f.1 f.2) b = some b' ∧ Within lo hi b b' ∧
      ∀ f ∈ fs, b'.Has f.1 f.2 := by
  induction fs generalizing b lo with
  | nil => exact ⟨b, rfl, Within.refl lo hi b, fun f hf => absurd hf not_mem_nil⟩
  | cons f fs ih =>
    rw [pairwise_cons] at hfs
    rw [forall_mem_cons] at hin
    obtain ⟨b₁, hb₁, hw₁, h₁⟩ := exists_store (Nat.le_trans hin.1.2 hhi)
    obtain ⟨b', hb', hw', h'⟩ := ih (b := b₁) hfs.2
      (fun g hg => ⟨hfs.1 g hg, (hin.2 g hg).2⟩) (hw₁.size ▸ hhi)
    refine ⟨b', ?_, ?_, ?_⟩
    · rw [foldlM_cons, hb₁]
      exact hb'
    · exact (hw₁.mono hin.1.1 hin.1.2).trans (hw'.mono (by omega) (Nat.le_refl hi))
    · rw [forall_mem_cons]
      exact ⟨h₁.frame hw' (.inl (Nat.le_refl _)), h'⟩

theorem Has.load (h : b.Has pos bs) : b.load pos bs.length = some bs := by
  unfold Buffer.load
  rw [if_pos h.1]
  refine congrArg some (ext_getElem? fun i => ?_)
  rw [getElem?_map]
  by_cases hi : i < bs.length
  · rw [getElem?_range hi, getElem?_eq_getElem hi]
    exact congrArg some (h.2 i _ (getElem?_eq_getElem hi))
  · rw [getElem?_eq_none (by simpa using hi), getElem?_eq_none (Nat.not_lt.1 hi)]
    rfl

theorem Has.append (h : b.Has pos (bs ++ cs)) : b.Has pos bs ∧ b.Has (pos + bs.length) cs := by
  have hlen := h.1
  rw [length_append] at hlen
  refine ⟨⟨by omega, fun i x hx => h.2 i x ?_⟩, by omega, fun i x hx => ?_⟩
  · rw [List.getElem?_append_left (List.getElem?_eq_some_iff.1 hx).1]
    exact hx
  · rw [Nat.add_assoc]
    refine h.2 (bs.length + i) x ?_
    rw [getElem?_append_right (Nat.le_add_right _ _), Nat.add_sub_cancel_left]
    exact hx

theorem Has.loadString (h : b.Has pos (cs ++ [0])) (hcs : (0 : UInt8) ∉ cs) (fuel : ℕ)
    (hf : cs.length < fuel) : b.loadString fuel pos = some cs := by
  induction cs generalizing pos fuel with
  | nil =>
    cases fuel with
    | zero => exact absurd hf (Nat.not_lt_zero _)
    | succ fuel => exact if_pos (h.2 0 0 rfl)
  | cons c cs ih =>
    cases fuel with
    | zero => exact absurd hf (Nat.not_lt_zero _)
    | succ fuel =>
      rw [mem_cons, not_or] at hcs
      have hc : b.bytes pos = c := h.2 0 c rfl
      have hall : b.Has pos ([c] ++ (cs ++ [0])) := h
      have hrest := ih hall.append.2 hcs.2 fuel (Nat.lt_of_succ_lt_succ hf)
      unfold Buffer.loadString
      rw [hc, if_neg (Ne.symm hcs.1)]
      exact congrArg (Option.map (c :: ·)) hrest

end Buffer

end Ns2
