import Ns2.Dtn.Epidemic
import Ns2.Lib.Machine

/-! The blocks of bundles that the routing has asked for and is to acknowledge: a block becomes
ready by a count of the bundles that arrive, and the list of blocks is linked by hand, with a
counter beside it. The arrays that a list is copied into have no place for its end. -/

namespace Ns2

namespace EpidemicRouting

open List

/-- The two counters have 8 bits. -/
structure BundlesToAck where
  dest : List Char
  lToAck : List Char
  nbToAck : ℕ
  currentAck : ℕ
  ready : ℕ
deriving DecidableEq

namespace BundlesToAck

/-- The constructor. -/
def new (list dest : List Char) : Option BundlesToAck :=
  (numberOfBundles list).map fun nb => ⟨dest, list, nb % 256, 0, 0⟩

/-- The scan of `exist_bundle` over the list, with an id in an array of 100 characters. -/
def listsUid (uid : List Char) : List Char → List Char → Option Bool
  | [], _ => some false
  | c :: lToCheck, currentId =>
    if currentId.length < 100 then
      if c ≠ '-' then listsUid uid lToCheck (currentId ++ [c])
      else if currentId.length > 14 ∧ currentId = uid then some true
      else listsUid uid lToCheck []
    else none

/-- Another bundle was acked. -/
def ackBundle (b : BundlesToAck) : BundlesToAck :=
  { b with
    currentAck := (b.currentAck + 1) % 256
    ready := if (b.currentAck + 1) % 256 = b.nbToAck then 1 else b.ready }

def existBundle (uid : List Char) (b : BundlesToAck) : Option BundlesToAck :=
  (Str.stored b.lToAck.length b.lToAck).bind fun lToCheck =>
    (listsUid uid lToCheck []).map fun found => if found then b.ackBundle else b

/-- The block after the bundles `uids` have come in. -/
def received (uids : List (List Char)) (b : BundlesToAck) : Option BundlesToAck :=
  uids.foldlM (fun b uid => b.existBundle uid) b

theorem new_eq (list dest : List Char) :
    new list dest = if list.length > 12 then none else some ⟨dest, list, 0, 0, 0⟩ := by
  rw [new, numberOfBundles_eq]
  split_ifs <;> rfl

theorem existBundle_eq_none (uid : List Char) (b : BundlesToAck) : b.existBundle uid = none := by
  rw [existBundle, Str.stored_length]
  rfl

/-- The block of a list, after the bundles `uids` have come in, is ready exactly when all bundles of the
list have. -/
def ReadyWhenReceived (ids uids : List (List Char)) (tail dest : List Char) : Prop :=
  ∃ b, ((new (idsText ids ++ tail) dest).bind fun b => b.received uids) = some b ∧
    (b.ready = 1 ↔ ∀ id ∈ ids, id ∈ uids)

/-- A block is right only for a list that is too short for a bundle, and before anything has come in. -/
theorem readyWhenReceived_iff (ids uids : List (List Char)) (tail dest : List Char) :
    ReadyWhenReceived ids uids tail dest ↔
      (idsText ids ++ tail).length ≤ 12 ∧ ids ≠ [] ∧ uids = [] := by
  rw [ReadyWhenReceived, new_eq, ← not_lt]
  by_cases hlen : 12 < (idsText ids ++ tail).length
  · rw [if_pos hlen]
    exact iff_of_false (fun ⟨_, hno, _⟩ => nomatch hno) fun hand => hand.1 hlen
  · rw [if_neg hlen, Option.bind_some, and_iff_right hlen]
    cases uids with
    | nil =>
      have hall : (∀ id ∈ ids, id ∈ ([] : List (List Char))) ↔ ids = [] := by
        simp only [not_mem_nil, imp_false]
        exact eq_nil_iff_forall_not_mem.symm
      rw [hall]
      constructor
      · rintro ⟨b, hb, hready⟩
        obtain rfl := Option.some.inj hb
        exact ⟨fun hnil => absurd (hready.2 hnil) Nat.zero_ne_one, rfl⟩
      · exact fun h => ⟨_, rfl, iff_of_false Nat.zero_ne_one h.1⟩
    | cons uid uids =>
      rw [received, foldlM_cons, existBundle_eq_none]
      exact iff_of_false (fun ⟨_, hno, _⟩ => nomatch hno) fun hand => nomatch hand.2

def uidA : List Char := ['R', 'E', 'G', 'I', 'O', 'N', '1', ',', '_', 'o', '1', ':', '0', 'r', '1']

def uidB : List Char := ['R', 'E', 'G', 'I', 'O', 'N', '1', ',', '_', 'o', '1', ':', '0', 'r', '2']

/-- The block of two bundles, which both come in, is not built. -/
theorem not_ready_iff_received : ¬∀ (ids uids : List (List Char)) (tail dest : List Char), ids.Nodup →
    ReadyWhenReceived ids uids tail dest := by
  intro h
  obtain ⟨b, hb, -⟩ := h [uidA, uidB] [uidB, uidA] [] [] (by decide)
  have hnew : new (idsText [uidA, uidB] ++ []) [] = none := by decide
  rw [hnew] at hb
  exact nomatch hb

end BundlesToAck

/-- The list of blocks; the routing works on it while the mechanism is active. -/
structure AckBlocks where
  activateAckMechanism : ℤ
  bToAck : List BundlesToAck
  numberOfBlocksToAck : ℤ
deriving DecidableEq

/-- A ready block for `dest`. -/
def BundlesToAck.isReadyFor (dest : List Char) (b : BundlesToAck) : Bool :=
  b.dest = dest ∧ b.ready = 1

/-- The loop of `delete_bta_block`; `front` are the blocks passed, the last of them `bta_prev`.
The counter is one less before it is looked at. -/
def deleteBtaLoop (dest : List Char) (n : ℤ) (front : List BundlesToAck) :
    List BundlesToAck → List BundlesToAck × ℤ
  | [] => (front, n)
  | bta :: next =>
    if bta.isReadyFor dest then
      if front = [] then
        if n - 1 = 1 then ([], n - 1) else (next, n - 1)
      else if next = [] then (front, n - 1)
      else (front ++ next, n - 1)
    else deleteBtaLoop dest n (front ++ [bta]) next

/-- The loop of `update_bta_list`: up to the first block that is ready and whose ack
`newBundle` sends. -/
def updateBtaLoop (dest uid : List Char) (newBundle : BundlesToAck → ℤ) :
    List BundlesToAck → Option (List BundlesToAck × Bool)
  | [] => some ([], false)
  | bta :: next =>
    if bta.dest = dest then
      (bta.existBundle uid).bind fun bta =>
        if bta.ready = 1 ∧ newBundle bta = 0 then some (bta :: next, true)
        else (updateBtaLoop dest uid newBundle next).map fun r => (bta :: r.1, r.2)
    else (updateBtaLoop dest uid newBundle next).map fun r => (bta :: r.1, r.2)

namespace AckBlocks

def addBlToack (l d : List Char) (s : AckBlocks) : Option AckBlocks :=
  if s.activateAckMechanism = 1 then
    (BundlesToAck.new l d).map fun bta => { s with
      bToAck := s.bToAck ++ [bta]
      numberOfBlocksToAck := s.numberOfBlocksToAck + 1 }
  else some s

def deleteBtaBlock (dest : List Char) (s : AckBlocks) : AckBlocks :=
  if s.activateAckMechanism = 1 then
    let r := deleteBtaLoop dest s.numberOfBlocksToAck [] s.bToAck
    { s with
      bToAck := r.1
      numberOfBlocksToAck := r.2 }
  else s

/-- `update_bta_list` for a bundle of the neighbor `dest`. -/
def updateBtaList (dest uid : List Char) (newBundle : BundlesToAck → ℤ) (s : AckBlocks) :
    Option AckBlocks :=
  if s.activateAckMechanism = 1 then
    (updateBtaLoop dest uid newBundle s.bToAck).map fun r =>
      if r.2 then deleteBtaBlock dest { s with bToAck := r.1 } else { s with bToAck := r.1 }
  else some s

end AckBlocks

inductive AckOp where
  | addBlToack (l d : List Char)
  | updateBtaList (dest uid : List Char) (newBundle : BundlesToAck → ℤ)
  | deleteBtaBlock (dest : List Char)

/-- The first block is ready, and there is one more. -/
def HeadOfTwo (dest : List Char) (l : List BundlesToAck) : Prop :=
  l.length = 2 ∧ ∃ bta ∈ l.head?, bta.isReadyFor dest = true

instance (dest : List Char) (l : List BundlesToAck) : Decidable (HeadOfTwo dest l) :=
  inferInstanceAs (Decidable (_ ∧ _))

namespace AckBlocks

def machine : Machine AckBlocks AckOp Unit where
  step s
    | .addBlToack l d => (s.addBlToack l d).map fun s => (s, ())
    | .updateBtaList dest uid newBundle => (s.updateBtaList dest uid newBundle).map fun s => (s, ())
    | .deleteBtaBlock dest => some (s.deleteBtaBlock dest, ())

/-- What an operation is to make of the list: a deletion takes the first ready block for the
destination, and no other one. -/
def expected (s : AckBlocks) : AckOp → Option (List BundlesToAck)
  | .addBlToack l d => (BundlesToAck.new l d).map fun bta => s.bToAck ++ [bta]
  | .updateBtaList dest uid newBundle => (updateBtaLoop dest uid newBundle s.bToAck).map fun r =>
    if r.2 then r.1.eraseP (BundlesToAck.isReadyFor dest) else r.1
  | .deleteBtaBlock dest => some (s.bToAck.eraseP (BundlesToAck.isReadyFor dest))

def Counted (s : AckBlocks) : Prop := s.numberOfBlocksToAck = s.bToAck.length

instance : DecidablePred Counted := fun s =>
  inferInstanceAs (Decidable (s.numberOfBlocksToAck = s.bToAck.length))

/-- The operation comes to an end and is right, and the counter is the length of the list after it. -/
def Right (s : AckBlocks) (o : AckOp) : Prop :=
  ∃ s', machine.step s o = some (s', ()) ∧ s'.Counted ∧
    if s.activateAckMechanism = 1 then s.expected o = some s'.bToAck else s'.bToAck = s.bToAck

/-- A list to be acknowledged is too short for a bundle, a bundle comes from a neighbor without a block, and
the first one of two blocks is not deleted. -/
def Meets (s : AckBlocks) (o : AckOp) : Prop :=
  s.activateAckMechanism = 1 → match o with
    | .addBlToack l _ => l.length ≤ 12
    | .updateBtaList dest _ _ => ∀ bta ∈ s.bToAck, bta.dest ≠ dest
    | .deleteBtaBlock dest => ¬HeadOfTwo dest s.bToAck

instance decidableAckMeets : ∀ (s : AckBlocks) (o : AckOp), Decidable (s.Meets o)
  | s, .addBlToack l _ => inferInstanceAs (Decidable (s.activateAckMechanism = 1 → l.length ≤ 12))
  | s, .updateBtaList dest _ _ =>
    inferInstanceAs (Decidable (s.activateAckMechanism = 1 → ∀ bta ∈ s.bToAck, bta.dest ≠ dest))
  | s, .deleteBtaBlock dest =>
    inferInstanceAs (Decidable (s.activateAckMechanism = 1 → ¬HeadOfTwo dest s.bToAck))

end AckBlocks

theorem deleteBtaLoop_of_ne_nil {dest : List Char} {n : ℤ} {front : List BundlesToAck}
    (hfront : front ≠ []) (l : List BundlesToAck) :
    deleteBtaLoop dest n front l = (front ++ l.eraseP (BundlesToAck.isReadyFor dest),
      if l.any (BundlesToAck.isReadyFor dest) then n - 1 else n) := by
  induction l generalizing front with
  | nil => simp [deleteBtaLoop]
  | cons bta next ih =>
    rw [deleteBtaLoop]
    by_cases hready : bta.isReadyFor dest = true
    · rw [if_pos hready, if_neg hfront, eraseP_cons_of_pos hready]
      by_cases hnext : next = []
      · simp [hnext, hready]
      · simp [hnext, hready]
    · rw [if_neg hready, ih (by simp), eraseP_cons_of_neg hready]
      simp [hready]

theorem deleteBtaLoop_eq {dest : List Char} {n : ℤ} {l : List BundlesToAck}
    (hn : n = l.length) :
    deleteBtaLoop dest n [] l = if HeadOfTwo dest l then ([], 1) else
      (l.eraseP (BundlesToAck.isReadyFor dest),
        ((l.eraseP (BundlesToAck.isReadyFor dest)).length : ℤ)) := by
  cases l with
  | nil => simp [deleteBtaLoop, HeadOfTwo, hn]
  | cons bta next =>
    rw [length_cons] at hn
    rw [deleteBtaLoop]
    by_cases hready : bta.isReadyFor dest = true
    · rw [if_pos hready, if_pos rfl, eraseP_cons_of_pos hready]
      by_cases hone : n - 1 = 1
      · rw [if_pos hone, if_pos ⟨by rw [length_cons]; omega, bta, rfl, hready⟩, hone]
      · rw [if_neg hone, if_neg fun h => hone (by have := h.1; rw [length_cons] at this; omega)]
        rw [hn]
        simp
    · have hnot : ¬ HeadOfTwo dest (bta :: next) := fun h => hready (by simpa using h.2)
      rw [if_neg hready, if_neg hnot, nil_append, deleteBtaLoop_of_ne_nil (by simp),
        eraseP_cons_of_neg hready, length_cons, length_eraseP]
      refine Prod.ext rfl ?_
      split_ifs with hany
      · obtain ⟨x, hx, -⟩ := any_eq_true.1 hany
        have := length_pos_of_mem hx
        omega
      · omega

namespace AckBlocks

variable {s s' : AckBlocks} {o : AckOp}

/-- The first block of the neighbor is not looked through. -/
theorem updateBtaLoop_eq (dest uid : List Char) (newBundle : BundlesToAck → ℤ) (l : List BundlesToAck) :
    updateBtaLoop dest uid newBundle l =
      if ∀ bta ∈ l, bta.dest ≠ dest then some (l, false) else none := by
  induction l with
  | nil => rfl
  | cons bta next ih =>
    rw [updateBtaLoop, ih]
    simp only [forall_mem_cons]
    by_cases hdest : bta.dest = dest
    · simp [hdest, BundlesToAck.existBundle_eq_none]
    · rw [if_neg hdest]
      simp only [ne_eq, hdest, not_false_eq_true, true_and]
      split_ifs <;> rfl

/-- A deletion from a counted list is right unless it takes the first one of two blocks. -/
theorem deleteBtaBlock_right_iff (hs : s.Counted) (hactive : s.activateAckMechanism = 1)
    (dest : List Char) :
    ((s.deleteBtaBlock dest).Counted ∧
      (s.deleteBtaBlock dest).bToAck = s.bToAck.eraseP (BundlesToAck.isReadyFor dest)) ↔
      ¬ HeadOfTwo dest s.bToAck := by
  rw [deleteBtaBlock, if_pos hactive, deleteBtaLoop_eq hs]
  by_cases htwo : HeadOfTwo dest s.bToAck
  · simp [htwo, Counted]
  · simp [htwo, Counted]

section

variable (hs : s.Counted) (hactive : s.activateAckMechanism = 1)
include hs hactive

theorem right_addBlToack_iff (l d : List Char) :
    s.Right (.addBlToack l d) ↔ s.Meets (.addBlToack l d) := by
  have hstep : machine.step s (.addBlToack l d) = (s.addBlToack l d).map fun s => (s, ()) := rfl
  rw [Right, Meets, hstep, addBlToack, expected, if_pos hactive, BundlesToAck.new_eq]
  by_cases hlen : l.length > 12
  · rw [if_pos hlen]
    exact iff_of_false (fun ⟨_, hno, _⟩ => nomatch hno) fun h => absurd (h hactive) hlen.not_ge
  · rw [if_neg hlen]
    refine iff_of_true ⟨_, rfl, ?_, ?_⟩ fun _ => le_of_not_gt hlen
    · rw [Counted] at hs ⊢
      simp [hs]
    · rw [if_pos hactive]
      rfl

theorem right_deleteBtaBlock_iff (dest : List Char) :
    s.Right (.deleteBtaBlock dest) ↔ s.Meets (.deleteBtaBlock dest) := by
  have hiff := deleteBtaBlock_right_iff hs hactive dest
  constructor
  · rintro ⟨s', hstep, hcounted, hlist⟩ -
    obtain ⟨rfl, -⟩ := Prod.mk.inj (Option.some.inj hstep)
    rw [if_pos hactive] at hlist
    exact hiff.1 ⟨hcounted, (Option.some.inj hlist).symm⟩
  · intro h
    obtain ⟨hcounted, hlist⟩ := hiff.2 (h hactive)
    refine ⟨_, rfl, hcounted, ?_⟩
    rw [if_pos hactive, hlist]
    rfl

theorem right_updateBtaList_iff (dest uid : List Char) (newBundle : BundlesToAck → ℤ) :
    s.Right (.updateBtaList dest uid newBundle) ↔ s.Meets (.updateBtaList dest uid newBundle) := by
  have hstep : machine.step s (.updateBtaList dest uid newBundle) =
      (s.updateBtaList dest uid newBundle).map fun s => (s, ()) := rfl
  rw [Right, Meets, hstep, updateBtaList, expected, if_pos hactive, updateBtaLoop_eq]
  by_cases hdest : ∀ bta ∈ s.bToAck, bta.dest ≠ dest
  · rw [if_pos hdest]
    refine iff_of_true ⟨s, rfl, hs, ?_⟩ fun _ => hdest
    rw [if_pos hactive]
    rfl
  · rw [if_neg hdest]
    exact iff_of_false (fun ⟨_, hno, _⟩ => nomatch hno) fun h => hdest (h hactive)

end

theorem step_of_inactive (hactive : s.activateAckMechanism ≠ 1) (o : AckOp) :
    machine.step s o = some (s, ()) := by
  cases o with
  | addBlToack l d =>
    have hsame : s.addBlToack l d = some s := if_neg hactive
    exact congrArg (Option.map fun s => (s, ())) hsame
  | updateBtaList dest uid newBundle =>
    have hsame : s.updateBtaList dest uid newBundle = some s := if_neg hactive
    exact congrArg (Option.map fun s => (s, ())) hsame
  | deleteBtaBlock dest => exact congrArg (fun s => some (s, ())) (if_neg hactive)

theorem right_iff (hs : s.Counted) (o : AckOp) : s.Right o ↔ s.Meets o := by
  by_cases hactive : s.activateAckMechanism = 1
  · cases o with
    | addBlToack l d => exact right_addBlToack_iff hs hactive l d
    | updateBtaList dest uid newBundle => exact right_updateBtaList_iff hs hactive dest uid newBundle
    | deleteBtaBlock dest => exact right_deleteBtaBlock_iff hs hactive dest
  · refine iff_of_true ⟨s, step_of_inactive hactive o, hs, ?_⟩ fun h => absurd h hactive
    rw [if_neg hactive]

/-- Every operation of a run is right exactly when each meets its condition. -/
theorem runsWith_right_iff (hs : s.Counted) (os : List AckOp) :
    machine.RunsWith Right s os ↔ machine.RunsWith Meets s os := by
  refine Machine.runsWith_congr (fun s o (hs : s.Counted) => right_iff hs o)
    (fun s o s' a _ hright hstep => ?_) hs os
  obtain ⟨s₁, hstep₁, hcounted, -⟩ := hright
  obtain ⟨rfl, -⟩ := Prod.mk.inj (Option.some.inj (hstep₁.symm.trans hstep))
  exact hcounted

/-- Three blocks, two of them ready for the neighbor `d`. -/
def threeBlocks : AckBlocks := ⟨1, [⟨['d'], [], 0, 0, 1⟩, ⟨['e'], [], 0, 0, 0⟩, ⟨['d'], [], 0, 0, 1⟩], 3⟩

theorem runsWith_right_iff_threeBlocks : machine.RunsWith Right threeBlocks
    [.deleteBtaBlock ['d'], .deleteBtaBlock ['d'], .addBlToack [] ['f']] :=
  (runsWith_right_iff (by decide) _).2 (by decide)

/-- A list of one bundle is to be acknowledged. -/
theorem not_runsWith_right :
    ¬∀ (s : AckBlocks) (os : List AckOp), s.Counted → machine.RunsWith Right s os := by
  intro h
  obtain ⟨s', hstep, -⟩ := (h ⟨1, [], 0⟩ [.addBlToack (idsText [BundlesToAck.uidA]) ['d']] rfl).1
  have hnone : machine.step ⟨1, [], 0⟩ (.addBlToack (idsText [BundlesToAck.uidA]) ['d']) = none := by
    decide
  exact nomatch hnone.symm.trans hstep

end AckBlocks

end EpidemicRouting

end Ns2
