import Ns2.Lib.Ranges

/-! `RcvBuffer`: what a multicast receiver has received, as the list of the gaps. The gaps are in
cells with addresses, and an `int` that overflows gives no result. -/

namespace Ns2

open List Ranges

/-- A `Gap`, in the cell that `new` made for it. -/
structure Gap (K : Type*) where
  addr : ℕ
  start : ℤ
  end_ : ℤ
  time : K

namespace Gap

variable {K : Type*}

/-- The numbers of a gap, as a half-open range. -/
def range (g : Gap K) : ℤ × ℤ := (g.start, g.end_ + 1)

@[simp] theorem range_fst (g : Gap K) : g.range.1 = g.start := rfl

@[simp] theorem range_snd (g : Gap K) : g.range.2 = g.end_ + 1 := rfl

end Gap

/-- The gaps are those met from `gap_` along `next_`; `fresh` is the next address. -/
structure RcvBuffer (K : Type*) where
  nextpkt : ℤ
  maxpkt : ℤ
  pktsRecovered : ℤ
  duplicates : ℤ
  delaySum : K
  maxDelay : K
  minDelay : K
  gaps : List (Gap K)
  tail : Option ℕ
  fresh : ℕ

namespace RcvBuffer

variable {K : Type*}

/-- `x + 1` in an `int`. -/
def incr (x : ℤ) : Option ℤ := if x < 2 ^ 31 - 1 then some (x + 1) else none

def existsPkt (b : RcvBuffer K) (i : ℤ) : Bool :=
  if i ≤ b.maxpkt then true
  else if i ≥ b.nextpkt then false
  else !b.gaps.any fun g => g.start ≤ i ∧ i ≤ g.end_

/-- `tail_->next_ = g`; there is no such cell when `tail_` is null or was deleted. -/
def linkTail (tail : Option ℕ) (g : Gap K) : List (Gap K) → Option (List (Gap K))
  | [] => none
  | a :: gaps => if tail = some a.addr then some [a, g] else (linkTail tail g gaps).map (a :: ·)

/-- The loop that looks for the gap of `i`; `none` is a null gap that is dereferenced. -/
def locate (i : ℤ) : List (Gap K) → Option (List (Gap K) × Gap K × List (Gap K))
  | [] => none
  | g :: gaps =>
    if i ≥ g.start ∧ i ≤ g.end_ then some ([], g, gaps)
    else (locate i gaps).map fun r => (g :: r.1, r.2)

def newGap (b : RcvBuffer K) (i : ℤ) (tnow : K) : Option (RcvBuffer K) :=
  let g : Gap K := ⟨b.fresh, b.nextpkt, i - 1, tnow⟩
  (if b.gaps.isEmpty then some [g] else linkTail b.tail g b.gaps).bind fun gaps =>
    (incr i).map fun n =>
      { b with gaps := gaps, tail := some b.fresh, fresh := b.fresh + 1, nextpkt := n }

/-- The last packet of the gap, or one in its middle. -/
def cut (b : RcvBuffer K) (i : ℤ) (pre : List (Gap K)) (g : Gap K) (post : List (Gap K)) :
    RcvBuffer K :=
  if g.end_ = i then { b with gaps := pre ++ { g with end_ := g.end_ - 1 } :: post }
  else
    { b with
      gaps := pre ++ { g with end_ := i - 1 } :: ⟨b.fresh, i + 1, g.end_, g.time⟩ :: post
      tail := if b.tail = some g.addr then some b.fresh else b.tail
      fresh := b.fresh + 1 }

section

variable [Ring K] [LinearOrder K]

/-- The constructor. -/
def construct : RcvBuffer K where
  nextpkt := 0
  maxpkt := -1
  pktsRecovered := 0
  duplicates := 0
  delaySum := 0
  maxDelay := 0
  minDelay := 1000000
  gaps := []
  tail := none
  fresh := 0

def delayed (b : RcvBuffer K) (d : K) : RcvBuffer K :=
  { b with
    delaySum := b.delaySum + d
    maxDelay := if d > b.maxDelay then d else b.maxDelay
    minDelay := if d < b.minDelay then d else b.minDelay }

/-- The part of `add_pkt` for a retransmission. -/
def recover (b : RcvBuffer K) (i : ℤ) (tnow : K) : Option (RcvBuffer K) :=
  match b.gaps with
  | [] => none
  | g :: rest =>
    if g.start ≤ i ∧ i ≤ g.end_ then
      let b := b.delayed (tnow - g.time)
      if i = b.maxpkt + 1 then
        if g.start + 1 > g.end_ then
          match rest with
          | [] => some { b with gaps := [], maxpkt := b.nextpkt - 1, tail := none }
          | g' :: _ => some { b with gaps := rest, maxpkt := g'.start - 1 }
        else
          some { b with maxpkt := b.maxpkt + 1, gaps := { g with start := g.start + 1 } :: rest }
      else some (b.cut i [] g rest)
    else
      (locate i rest).map fun (mid, g', post) =>
        let b := b.delayed (tnow - g'.time)
        let pre := g :: mid
        if g'.start = i then
          if g'.start + 1 > g'.end_ then
            { b with
              gaps := pre ++ post
              tail := if b.tail = some g'.addr then pre.getLast?.map Gap.addr else b.tail }
          else { b with gaps := pre ++ { g' with start := g'.start + 1 } :: post }
        else b.cut i pre g' post

def addPkt (b : RcvBuffer K) (i : ℤ) (tnow : K) : Option (RcvBuffer K) :=
  if b.existsPkt i then (incr b.duplicates).map fun n => { b with duplicates := n }
  else if i = b.nextpkt then
    (incr b.nextpkt).map fun n =>
      { b with nextpkt := n, maxpkt := if i = b.maxpkt + 1 then b.maxpkt + 1 else b.maxpkt }
  else if i > b.nextpkt then b.newGap i tnow
  else (incr b.pktsRecovered).bind fun n => { b with pktsRecovered := n }.recover i tnow

/-- A sequence of calls. -/
def addPkts (calls : List (ℤ × K)) : Option (RcvBuffer K) :=
  calls.foldlM (fun b c => b.addPkt c.1 c.2) construct

end

end RcvBuffer

end Ns2
