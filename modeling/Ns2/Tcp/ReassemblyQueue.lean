import Mathlib.Data.BitVec
import Ns2.Lib.Links
import Ns2.Lib.Ranges

/-! `ReassemblyQueue`: segments on two doubly linked lists, the FIFO in sequence order and the
LIFO in the order of insertion. A segment is named by its address, and `none` is NULL. The lists
that the pointers of a `ReassemblyQueue` form, and what the list operations make of them. -/

namespace Ns2

/-- The members of `seginfo` are maps from addresses. `next_`, `prev_`, `head_` and `tail_` are in
`fifo`; `snext_`, `sprev_`, `top_` and `bottom_` in `lifo`. -/
structure ReassemblyQueue where
  fifo : Links ℕ
  lifo : Links ℕ
  startseq : ℕ → ℤ
  endseq : ℕ → ℤ
  pflags : ℕ → ℕ
  rqflags : ℕ → ℕ
  cnt : ℕ → ℤ
  hint : Option ℕ
  freelist : Option ℕ
  -- an `int`, whose sums wrap
  total : BitVec 32
  rcvNxt : ℤ
  -- addresses from here on are not allocated
  fresh : ℕ

namespace ReassemblyQueue

def init (rcvNxt : ℤ) : ReassemblyQueue where
  fifo := ⟨fun _ => none, fun _ => none⟩
  lifo := ⟨fun _ => none, fun _ => none⟩
  startseq := fun _ => 0
  endseq := fun _ => 0
  pflags := fun _ => 0
  rqflags := fun _ => 0
  cnt := fun _ => 0
  hint := none
  freelist := none
  total := 0
  rcvNxt := rcvNxt
  fresh := 0

def empty (s : ReassemblyQueue) : Bool := (s.fifo.next none).isNone

def newseginfo (s : ReassemblyQueue) : ℕ × ReassemblyQueue :=
  match s.freelist with
  | some p => (p, { s with freelist := s.fifo.next (some p) })
  | none => (s.fresh, { s with fresh := s.fresh + 1 })

def deleteseginfo (p : ℕ) (s : ReassemblyQueue) : ReassemblyQueue :=
  { s with
    fifo := { s.fifo with next := Function.update s.fifo.next (some p) s.freelist }
    freelist := some p }

def fremove (p : ℕ) (s : ReassemblyQueue) : ReassemblyQueue :=
  { s with
    hint := if s.hint = some p then none else s.hint
    fifo := s.fifo.remove p }

def sremove (p : ℕ) (s : ReassemblyQueue) : ReassemblyQueue :=
  { s with
    hint := if s.hint = some p then none else s.hint
    lifo := s.lifo.remove p }

def push (p : ℕ) (s : ReassemblyQueue) : ReassemblyQueue :=
  { s with lifo := s.lifo.insert p none (s.lifo.next none) }

/-- Number and bytes of the blocks from a node on. -/
def cnts (s : ReassemblyQueue) : ℕ → Option ℕ → ℤ × ℤ → Option (ℤ × ℤ)
  | 0, _, _ => none
  | _ + 1, none, r => some r
  | fuel + 1, some p, r =>
    s.cnts fuel (s.fifo.next (some p)) (r.1 + 1, r.2 + (s.endseq p - s.startseq p))

/-- The loop of `clear`. -/
def clearHead : ℕ → ReassemblyQueue → Option ReassemblyQueue
  | 0, _ => none
  | fuel + 1, s =>
    match s.fifo.next none with
    | none => some s
    | some p =>
      let s : ReassemblyQueue := { s with
        fifo := { s.fifo with next := Function.update s.fifo.next none (s.fifo.next (some p)) } }
      clearHead fuel (s.deleteseginfo p)

def clear (s : ReassemblyQueue) : Option ReassemblyQueue :=
  let s : ReassemblyQueue := { s with
    fifo := { s.fifo with prev := Function.update s.fifo.prev none none }
    lifo := ⟨Function.update s.lifo.next none none, Function.update s.lifo.prev none none⟩
    hint := none }
  (clearHead (s.fresh + 1) s).map fun s => { s with
    fifo := { s.fifo with prev := Function.update s.fifo.prev none none }
    total := 0 }

/-- The loop of `clearto`, with the node it stops at. -/
def clearBelow (seq : ℤ) :
    ℕ → Option ℕ → ReassemblyQueue → ℕ → Option (Option ℕ × ReassemblyQueue × ℕ)
  | 0, _, _, _ => none
  | _ + 1, none, s, flag => some (none, s, flag)
  | fuel + 1, some p, s, flag =>
    if s.endseq p ≤ seq then
      let q := s.fifo.next (some p)
      let s' : ReassemblyQueue := { s with total := s.total - ↑(s.endseq p - s.startseq p) }
      clearBelow seq fuel q (((s'.sremove p).fremove p).deleteseginfo p) (flag ||| s.pflags p)
    else some (some p, s, flag)

def clearto (seq : ℤ) (s : ReassemblyQueue) : Option (ReassemblyQueue × ℕ) :=
  (clearBelow seq (s.fresh + 1) (s.fifo.next none) s 0).map fun (p, s, flag) =>
    match p with
    | none => (s, flag)
    | some p =>
      -- the cut may be in the middle of a block
      if s.startseq p ≤ seq ∧ s.endseq p > seq then
        ({ s with
          total := s.total - ↑(seq - s.startseq p)
          startseq := Function.update s.startseq p seq }, flag ||| s.pflags p)
      else (s, flag)

def cleartonxt (s : ReassemblyQueue) : Option (ReassemblyQueue × ℕ) := s.clearto s.rcvNxt

def sacksFrom (s : ReassemblyQueue) : ℕ → Option ℕ → List (ℤ × ℤ)
  | 0, _ => []
  | _ + 1, none => []
  | n + 1, some p => (s.startseq p, s.endseq p) :: s.sacksFrom n (s.lifo.next (some p))

def gensack (maxsblock : ℕ) (s : ReassemblyQueue) : List (ℤ × ℤ) :=
  s.sacksFrom maxsblock (s.lifo.next none)

/-- A block that begins at or below `rcv_nxt_` moves it. -/
def advance (p : ℕ) (s : ReassemblyQueue) : ReassemblyQueue :=
  { s with rcvNxt := if s.rcvNxt ≥ s.startseq p then s.endseq p else s.rcvNxt }

/-- Assumes that `p` is before `n` and `q` behind it. -/
def coalesce (p : Option ℕ) (n : ℕ) (q : Option ℕ) (s : ReassemblyQueue) :
    Option (ReassemblyQueue × ℕ) :=
  match p.filter fun p => s.endseq p = s.startseq n,
      q.filter fun q => s.endseq n = s.startseq q with
  | some p, some q =>
    let s := (((s.sremove n).fremove n).sremove q).fremove q
    let flags := s.pflags p ||| s.pflags n
    let s : ReassemblyQueue := { s with
      endseq := Function.update s.endseq p (s.endseq q)
      cnt := Function.update s.cnt p (s.cnt p + (s.cnt n + s.cnt q))
      pflags := Function.update s.pflags p flags }
    some (((s.deleteseginfo n).deleteseginfo q).advance p, flags)
  | some p, none =>
    let s := (s.sremove n).fremove n
    let flags := s.pflags p ||| s.pflags n
    let s : ReassemblyQueue := { s with
      endseq := Function.update s.endseq p (s.endseq n)
      pflags := Function.update s.pflags p flags
      cnt := Function.update s.cnt p (s.cnt p + s.cnt n) }
    some ((s.deleteseginfo n).advance p, flags)
  | none, some q =>
    let s := (s.sremove n).fremove n
    let flags := s.pflags q ||| s.pflags n
    let s : ReassemblyQueue := { s with
      startseq := Function.update s.startseq q (s.startseq n)
      pflags := Function.update s.pflags q flags
      cnt := Function.update s.cnt q (s.cnt q + s.cnt n) }
    some ((s.deleteseginfo n).advance q, flags)
  | none, none => p.map fun p => (s.advance p, 0)

/-- A new segment between `p` and `q`. -/
def insertNew (sseq eseq : ℤ) (tiflags rqflags : ℕ) (initcnt : ℤ) (p q : Option ℕ)
    (s : ReassemblyQueue) : ℕ × ReassemblyQueue :=
  let (n, s) := s.newseginfo
  let s : ReassemblyQueue := { s with
    startseq := Function.update s.startseq n sseq
    endseq := Function.update s.endseq n eseq
    pflags := Function.update s.pflags n tiflags
    rqflags := Function.update s.rqflags n rqflags
    cnt := Function.update s.cnt n initcnt }
  let s := s.push n
  (n, { s with
    fifo := s.fifo.insert n p q
    total := s.total + ↑(eseq - sseq) })

/-- From the label `endfast` on. -/
def endfast (sseq eseq : ℤ) (tiflags rqflags : ℕ) (initcnt : ℤ) (p q : Option ℕ)
    (needmerge : Bool) (s : ReassemblyQueue) : Option (ReassemblyQueue × ℕ) :=
  let (n, s) := s.insertNew sseq eseq tiflags rqflags initcnt p q
  if needmerge then s.coalesce p n q else some (s.advance n, tiflags)

/-- What `add` carries along. -/
structure Adding where
  queue : ReassemblyQueue
  tiflags : ℕ
  initcnt : ℤ
  altered : Bool

/-- The loop that kills what is completely overlapped, up to `q`; on the left the result of
`add` when there is an exact overlap. -/
def kill (sseq eseq : ℤ) (q : Option ℕ) :
    ℕ → Option ℕ → Adding → Option ((ReassemblyQueue × ℕ) ⊕ Adding)
  | 0, _, _ => none
  | _ + 1, none, k => some (.inr k)
  | fuel + 1, some r, k =>
    let s := k.queue
    if some r = q then some (.inr k)
    else if sseq = s.startseq r ∧ eseq = s.endseq r then
      let flags := s.pflags r ||| k.tiflags
      some (.inl ({ s with pflags := Function.update s.pflags r flags }, flags))
    else if sseq ≤ s.startseq r ∧ eseq ≥ s.endseq r then
      let s' : ReassemblyQueue := { s with total := s.total - ↑(s.endseq r - s.startseq r) }
      kill sseq eseq q fuel (s.fifo.next (some r)) {
        queue := ((s'.fremove r).sremove r).deleteseginfo r
        tiflags := k.tiflags ||| s.pflags r
        initcnt := k.initcnt + s.cnt r
        altered := true }
    else kill sseq eseq q fuel (s.fifo.next (some r)) k

/-- The left-side merge, with the new `p`, the new start and whether there was a merge. -/
def leftMerge (p : Option ℕ) (sseq : ℤ) (k : Adding) : Option (Option ℕ × ℤ × Bool × Adding) :=
  let s := k.queue
  (s.fifo.next p).map fun r =>
    if p = none ∨ s.startseq r < sseq then
      let s : ReassemblyQueue :=
        if sseq < s.startseq r then
          { s with
            total := s.total + ↑(s.startseq r - sseq)
            startseq := Function.update s.startseq r sseq }
        else s
      let s' : ReassemblyQueue := { s with
        pflags := Function.update s.pflags r (s.pflags r ||| k.tiflags)
        cnt := Function.update s.cnt r (s.cnt r + 1) }
      (some r, s.endseq r, true, { k with
        queue := s'
        initcnt := k.initcnt - 1 })
    else (p, sseq, false, k)

/-- The right-side merge. The count is not touched, since `needmerge` is set before it is
tested. -/
def rightMerge (q : Option ℕ) (eseq : ℤ) (k : Adding) : Option (Option ℕ × ℤ × Bool × Adding) :=
  let s := k.queue
  (s.fifo.prev q).map fun r =>
    if q = none ∨ s.endseq r > eseq then
      let s : ReassemblyQueue :=
        if eseq > s.endseq r then
          { s with
            total := s.total + ↑(eseq - s.endseq r)
            endseq := Function.update s.endseq r eseq }
        else s
      let s' : ReassemblyQueue := { s with
        pflags := Function.update s.pflags r (s.pflags r ||| k.tiflags) }
      (some r, s.startseq r, true, { k with queue := s' })
    else (q, eseq, false, k)

/-- Whether a block that fits between `p` and `q` touches one of them. -/
def touches (sseq eseq : ℤ) (p q : Option ℕ) (s : ReassemblyQueue) : Option Bool :=
  p.bind fun p =>
    if s.fifo.next (some p) = q ∧ s.endseq p ≤ sseq then
      q.map fun q =>
        decide (s.startseq q ≥ eseq) && (decide (s.endseq p = sseq) || decide (s.startseq q = eseq))
    else some false

/-- From the merges on. -/
def merge (sseq eseq : ℤ) (rqflags : ℕ) (p q : Option ℕ) (k : Adding) :
    Option (ReassemblyQueue × ℕ) :=
  (leftMerge p sseq k).bind fun (p, sseq, left, k) =>
    (rightMerge q eseq k).bind fun (q, eseq, right, k) =>
      if eseq ≤ sseq then
        (k.queue.fifo.next none).map fun head => (k.queue.advance head, k.tiflags)
      else
        (if left || right then some true else k.queue.touches sseq eseq p q).bind fun needmerge =>
          k.queue.endfast sseq eseq k.tiflags rqflags k.initcnt p q needmerge

/-- From the label `again2` on. -/
def again2 (sseq eseq : ℤ) (rqflags : ℕ) : ℕ → Adding → Option (ReassemblyQueue × ℕ)
  | 0, _ => none
  | fuel + 1, k =>
    let s := k.queue
    (s.fifo.prev none).bind fun tail => (s.fifo.next none).bind fun head =>
      if sseq ≥ s.endseq tail then
        s.endfast sseq eseq k.tiflags rqflags k.initcnt (some tail) none
          (decide (sseq = s.endseq tail))
      else if eseq ≤ s.startseq head then
        s.endfast sseq eseq k.tiflags rqflags k.initcnt none (some head)
          (decide (eseq = s.startseq head))
      else
        (Links.seek s.fifo.next (fun q => decide (s.startseq q < eseq)) (s.fresh + 1)
            (s.fifo.next none)).bind fun q =>
          (Links.seek s.fifo.prev (fun p => decide (s.endseq p > sseq)) (s.fresh + 1)
              (s.fifo.prev none)).bind fun p =>
            (kill sseq eseq q (s.fresh + 1) (if p = none then some head else p) k).bind
              fun result =>
                match result with
                | .inl r => some r
                | .inr k =>
                  if k.queue.empty then
                    k.queue.endfast sseq eseq k.tiflags rqflags k.initcnt p q false
                  else if k.altered then again2 sseq eseq rqflags fuel { k with altered := false }
                  else merge sseq eseq rqflags p q k

/-- `none` is an abort. The killed blocks are gone in the second pass, so two passes are enough. -/
def add (sseq eseq : ℤ) (tiflags rqflags : ℕ) (s : ReassemblyQueue) :
    Option (ReassemblyQueue × ℕ) :=
  if eseq < sseq then none
  else if s.fifo.next none = none then
    if s.lifo.next none ≠ none then none
    else
      let (n, s) := s.newseginfo
      let s : ReassemblyQueue := { s with
        fifo := s.fifo.insert n none none
        lifo := s.lifo.insert n none none
        startseq := Function.update s.startseq n sseq
        endseq := Function.update s.endseq n eseq
        pflags := Function.update s.pflags n tiflags
        rqflags := Function.update s.rqflags n rqflags
        cnt := Function.update s.cnt n 1
        total := ↑(eseq - sseq) }
      some (s.advance n, tiflags)
  else again2 sseq eseq rqflags 2 ⟨s, tiflags, 1, false⟩

/-- The loop of `nexthole`: the hole, and number and bytes of the blocks above it. -/
def holeFrom (seq : ℤ) (s : ReassemblyQueue) : ℕ → Option ℕ → Option (ℤ × ℤ × ℤ)
  | 0, _ => none
  | _ + 1, none => some (-1, -1, -1)
  | fuel + 1, some p =>
    if s.startseq p > seq then
      (s.cnts (s.fresh + 1) (some p) (0, 0)).map fun r => (seq, r)
    else if s.startseq p ≤ seq ∧ s.endseq p ≥ seq then
      match s.fifo.next (some p) with
      | none => some (s.endseq p, -1, -1)
      | some q => (s.cnts (s.fresh + 1) (some q) (0, 0)).map fun r => (s.endseq p, r)
    else s.holeFrom seq fuel (s.fifo.next (some p))

def nexthole (seq : ℤ) (s : ReassemblyQueue) : Option (ReassemblyQueue × ℤ × ℤ × ℤ) :=
  let s : ReassemblyQueue := { s with hint := s.fifo.next none }
  (s.holeFrom seq (s.fresh + 1) (s.fifo.next none)).map fun r => (s, r)

end ReassemblyQueue

/-- The calls of `add` and `clearto`. -/
inductive QueueOp where
  | add (sseq eseq : ℤ) (pflags rqflags : ℕ)
  | clearto (seq : ℤ)

namespace ReassemblyQueue

def step (s : ReassemblyQueue) : QueueOp → Option ReassemblyQueue
  | .add sseq eseq pflags rqflags => (s.add sseq eseq pflags rqflags).map Prod.fst
  | .clearto seq => (s.clearto seq).map Prod.fst

def run (s : ReassemblyQueue) (os : List QueueOp) : Option ReassemblyQueue := os.foldlM step s

end ReassemblyQueue

namespace ReassemblyQueue

open List

/-- The FIFO, the LIFO and the cache of free segments. -/
structure Rep (s : ReassemblyQueue) (F L G : List ℕ) : Prop where
  fifo : s.fifo.Rep F
  lifo : s.lifo.Rep L
  perm : L.Perm F
  freelist : s.freelist = G.head?
  chain : ∀ g₁ p g₂, G = g₁ ++ p :: g₂ → s.fifo.next (some p) = g₂.head?
  nodup : (F ++ G).Nodup
  allocated : ∀ p ∈ F ++ G, p < s.fresh

variable {s s' : ReassemblyQueue} {F L G A B : List ℕ} {p : ℕ}

theorem Rep.congr (h : s.Rep F L G) (hfifo : s'.fifo = s.fifo) (hlifo : s'.lifo = s.lifo)
    (hfree : s'.freelist = s.freelist) (hfresh : s'.fresh = s.fresh) : s'.Rep F L G where
  fifo := hfifo ▸ h.fifo
  lifo := hlifo ▸ h.lifo
  perm := h.perm
  freelist := hfree ▸ h.freelist
  chain := hfifo ▸ h.chain
  nodup := h.nodup
  allocated := hfresh ▸ h.allocated

theorem Rep.length_lt (h : s.Rep F L G) : F.length < s.fresh + 1 := by
  have hsub : F.toFinset ⊆ Finset.range s.fresh := by
    intro p hp
    exact Finset.mem_range.2 (h.allocated p (mem_append_left G (mem_toFinset.1 hp)))
  have hcard := Finset.card_le_card hsub
  rw [toFinset_card_of_nodup h.fifo.nodup, Finset.card_range] at hcard
  omega

theorem Rep.init (rcvNxt : ℤ) : (init rcvNxt).Rep [] [] [] where
  fifo := Links.Rep.nil rfl rfl
  lifo := Links.Rep.nil rfl rfl
  perm := Perm.nil
  freelist := rfl
  chain := by simp
  nodup := nodup_nil
  allocated := by simp

theorem Rep.empty_iff (h : s.Rep F L G) : s.empty = true ↔ F = [] := by
  rw [empty, h.fifo.first, Option.isNone_iff_eq_none, head?_eq_none_iff]

/-- A segment that is in no list. -/
structure Loose (s : ReassemblyQueue) (F G : List ℕ) (p : ℕ) : Prop where
  fifo : p ∉ F
  free : p ∉ G
  allocated : p < s.fresh

theorem newseginfo_eq (s : ReassemblyQueue) : ∃ freelist fresh,
    s.newseginfo.2 = { s with
      freelist := freelist
      fresh := fresh } := by
  unfold newseginfo
  split
  · exact ⟨_, s.fresh, rfl⟩
  · exact ⟨s.freelist, s.fresh + 1, rfl⟩

theorem Rep.newseginfo (h : s.Rep F L G) :
    ∃ G', s.newseginfo.2.Rep F L G' ∧ s.newseginfo.2.Loose F G' s.newseginfo.1 := by
  unfold ReassemblyQueue.newseginfo
  split
  case h_1 g hfree =>
    obtain ⟨G, rfl⟩ := head?_eq_some_iff.1 (h.freelist ▸ hfree)
    have hnodup := h.nodup
    rw [nodup_middle, nodup_cons, mem_append, not_or] at hnodup
    refine ⟨G, ⟨h.fifo, h.lifo, h.perm, h.chain [] g G rfl, fun g₁ p g₂ heq => ?_, hnodup.2,
      fun p hp => ?_⟩, ⟨hnodup.1.1, hnodup.1.2, h.allocated g (by simp)⟩⟩
    · exact h.chain (g :: g₁) p g₂ (congrArg (g :: ·) heq)
    · exact h.allocated p (perm_middle.symm.subset (mem_cons_of_mem g hp))
  case h_2 hfree =>
    obtain rfl : G = [] := head?_eq_none_iff.1 (h.freelist ▸ hfree)
    refine ⟨[], ⟨h.fifo, h.lifo, h.perm, hfree, by simp, h.nodup, fun p hp => ?_⟩,
      ⟨fun hp => ?_, by simp, Nat.lt_succ_self s.fresh⟩⟩
    · exact Nat.lt_succ_of_lt (h.allocated p hp)
    · exact lt_irrefl _ (h.allocated s.fresh (mem_append_left [] hp))

theorem Rep.deleteseginfo (h : s.Rep F L G) (hp : s.Loose F G p) :
    (s.deleteseginfo p).Rep F L (p :: G) where
  fifo := h.fifo.update_next hp.fifo _
  lifo := h.lifo
  perm := h.perm
  freelist := rfl
  chain := by
    intro g₁ q g₂ heq
    cases g₁ with
    | nil =>
      obtain ⟨rfl, rfl⟩ : p = q ∧ G = g₂ := List.cons.inj heq
      rw [← h.freelist]
      exact Function.update_self ..
    | cons g g₁ =>
      obtain ⟨rfl, htail⟩ : p = g ∧ G = g₁ ++ q :: g₂ := List.cons.inj heq
      have hne : q ≠ p := by
        rintro rfl
        exact hp.free (by simp [htail])
      rw [← h.chain g₁ q g₂ htail]
      exact Function.update_of_ne (by simpa using hne) ..
  nodup := by
    rw [nodup_middle, nodup_cons, mem_append, not_or]
    exact ⟨⟨hp.fifo, hp.free⟩, h.nodup⟩
  allocated := by
    intro q hq
    rcases mem_append.1 hq with hq | hq
    · exact h.allocated q (mem_append_left G hq)
    · rcases mem_cons.1 hq with rfl | hq
      · exact hp.allocated
      · exact h.allocated q (mem_append_right F hq)

theorem Rep.unlink (h : s.Rep (A ++ p :: B) L G) :
    ((s.fremove p).sremove p).Rep (A ++ B) (L.erase p) G ∧ 
      ((s.fremove p).sremove p).Loose (A ++ B) G p := by
  have hnodup := h.nodup
  rw [append_assoc, cons_append, nodup_middle, nodup_cons, ← append_assoc,
    mem_append, not_or] at hnodup
  have hA : p ∉ A := fun hp => hnodup.1.1 (mem_append_left B hp)
  have hperm : (A ++ p :: B).erase p = A ++ B := by
    rw [erase_append_right _ hA, erase_cons_head]
  have hmem : p ∈ L := h.perm.mem_iff.2 (by simp)
  refine ⟨⟨h.fifo.remove, h.lifo.remove_erase hmem, hperm ▸ h.perm.erase p, h.freelist,
    fun g₁ q g₂ heq => ?_, hnodup.2, fun q hq => ?_⟩,
    ⟨hnodup.1.1, hnodup.1.2, h.allocated p (by simp)⟩⟩
  · rw [← h.chain g₁ q g₂ heq]
    apply h.fifo.remove_next
    intro hq
    refine (nodup_append.1 hnodup.2).2.2 q (mem_append_left B hq) q ?_ rfl
    simp [heq]
  · exact h.allocated q (by simp at hq ⊢; tauto)

theorem fremove_sremove (s : ReassemblyQueue) (p q : ℕ) :
    (s.sremove p).fremove q = (s.fremove q).sremove p := by
  simp only [fremove, sremove, ReassemblyQueue.mk.injEq, true_and, and_true]
  split_ifs <;> simp_all

theorem Rep.link (h : s.Rep (A ++ B) L G) (hp : s.Loose (A ++ B) G p) :
    Rep { s.push p with fifo := s.fifo.insert p A.getLast? B.head? } (A ++ p :: B) (p :: L) G where
  fifo := h.fifo.insert hp.fifo
  lifo := h.lifo.push fun hmem => hp.fifo (h.perm.subset hmem)
  perm := (h.perm.cons p).trans perm_middle.symm
  freelist := h.freelist
  chain := by
    intro g₁ q g₂ heq
    have hq : q ∈ G := by simp [heq]
    have hne : q ≠ p := fun hqp => hp.free (hqp ▸ hq)
    rw [← h.chain g₁ q g₂ heq]
    apply Links.insert_next hne
    intro hlast
    have hA : q ∈ A := mem_of_getLast? hlast.symm
    exact (nodup_append.1 h.nodup).2.2 q (mem_append_left B hA) q hq rfl
  nodup := by
    rw [append_assoc, cons_append, nodup_middle, nodup_cons,
      ← append_assoc, mem_append, not_or]
    exact ⟨⟨hp.fifo, hp.free⟩, h.nodup⟩
  allocated := by
    intro q hq
    by_cases hqp : q = p
    · exact hqp ▸ hp.allocated
    · exact h.allocated q (by simp [hqp] at hq ⊢; tauto)

end ReassemblyQueue

end Ns2
