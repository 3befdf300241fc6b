import Mathlib.Algebra.Order.Floor.Ring
import Ns2.Sched.ListScheduler

/-! The calendar queue of `common/scheduler.cc`: events hashed by time into
buckets, each a circular list sorted by time. Times are exact numbers of an
ordered field, `sqrt` is the library function `resize` calls. A step is `none`
where the code fails an assertion, follows a null pointer or does not end. -/

namespace Ns2

variable {K : Type*}

/-- A bucket; `list` runs from `list_` along `next_`, whose last entry points
back to the first. -/
structure Bucket (K : Type*) where
  list : List (Event K)
  count : ℤ

structure CalendarScheduler (K : Type*) where
  minBinWidth : K
  adjustNewWidthInterval : ℕ
  timeToNewwidth : ℕ
  headSearch : ℕ
  insertSearch : ℕ
  roundNum : ℕ
  gapNum : ℤ
  lastTime : K
  avgGap : K
  width : K
  diff0 : K
  diff1 : K
  diff2 : K
  statQsize : ℤ
  nbuckets : ℕ
  lastbucket : ℕ
  topThreshold : ℤ
  botThreshold : ℤ
  buckets : ℕ → Bucket K
  qsize : ℤ
  calClock : K

/-- The local variables of `head`; `found` is set by the jump to `found_l`. -/
structure YearScan (K : Type*) where
  i : ℕ
  l : Option ℕ
  minE : Option (Event K)
  headSearch : ℕ
  found : Option (Event K)

namespace CalendarScheduler

def setBucket (c : CalendarScheduler K) (i : ℕ) (b : Bucket K) : CalendarScheduler K :=
  { c with buckets := Function.update c.buckets i b }

def lookup (uid : ℤ) (c : CalendarScheduler K) : Option (Event K) :=
  (List.range c.nbuckets).findSome? fun i => (c.buckets i).list.find? fun e => e.uid = uid

variable [Field K] [LinearOrder K] [FloorRing K]

/-- Conversion of a `double` to an integer. -/
def trunc (x : K) : ℤ := if 0 ≤ x then ⌊x⌋ else ⌈x⌉

def fmod (a b : K) : K := a - b * trunc (a / b)

/-- `CALENDAR_HASH`. -/
def calendarHash (width : K) (nbuckets : ℕ) (t : K) : ℕ :=
  (trunc (fmod (t / width) nbuckets)).toNat

def hash (c : CalendarScheduler K) (t : K) : ℕ := calendarHash c.width c.nbuckets t

/-- The backward walk of `insert` along `prev_` from the tail: the number of
steps, the reversed list with `e` behind `after`, and whether its time is new. -/
def insertBackward (e : Event K) : List (Event K) → Option (ℕ × List (Event K) × Bool)
  | [] => none
  | after :: r =>
    if e.time < after.time then
      (insertBackward e r).map fun (k, r', u) => (k + 1, after :: r', u)
    else some (0, e :: after :: r, after.time < e.time)

/-- The forward walk of `insert2` along `next_` from the head. -/
def insertForward (e : Event K) : List (Event K) → Option (List (Event K) × Bool)
  | [] => none
  | before :: r =>
    if before.time < e.time then (insertForward e r).map fun (r', u) => (before :: r', u)
    else some (e :: before :: r, before.time ≠ e.time)

/-- The list surgery of `insert2`, with its test for a new time. -/
def insert2List (e : Event K) : List (Event K) → Option (List (Event K) × Bool)
  | [] => some ([e], true)
  | head :: r =>
    if ((head :: r).getLast (List.cons_ne_nil _ _)).time < e.time then
      some (head :: r ++ [e], head.time ≠ e.time)
    else insertForward e (head :: r)

def insert2 (c : CalendarScheduler K) (e : Event K) : Option (CalendarScheduler K) :=
  let i := c.hash e.time
  (insert2List e (c.buckets i).list).map fun (l, unique) =>
    let d : ℤ := if unique then 1 else 0
    { c.setBucket i ⟨l, (c.buckets i).count + d⟩ with
      statQsize := c.statQsize + d, qsize := c.qsize + 1 }

def reinit (c : CalendarScheduler K) (nbuck : ℕ) (bwidth start : K) : CalendarScheduler K :=
  { c with
    buckets := fun _ => ⟨[], 0⟩
    width := bwidth
    nbuckets := nbuck
    qsize := 0
    statQsize := 0
    lastbucket := calendarHash bwidth nbuck start
    diff0 := bwidth * nbuck / 2
    diff1 := bwidth * nbuck / 2 + bwidth
    diff2 := bwidth * nbuck
    botThreshold := (nbuck / 2 : ℕ) - 2
    topThreshold := 2 * nbuck }

/-- The second half of `resize`: new buckets, filled from the tail of every old one. -/
def rebuild (c : CalendarScheduler K) (newsize : ℕ) (bwidth start : K) :
    Option (CalendarScheduler K) :=
  let old := (List.range c.nbuckets).flatMap fun i => (c.buckets i).list.reverse
  (old.foldlM insert2 (c.reinit newsize bwidth start)).map fun c =>
    { c with headSearch := 0, insertSearch := 0, roundNum := 0 }

def maxBucket (c : CalendarScheduler K) : ℕ :=
  (List.range' 1 (c.nbuckets - 1)).foldl
    (fun m i => if (c.buckets i).count > (c.buckets m).count then i else m) 0

def newwidth (c : CalendarScheduler K) (newsize : ℕ) : Option (K × CalendarScheduler K) :=
  let c := if c.adjustNewWidthInterval ≠ 0 then
    { c with timeToNewwidth := c.adjustNewWidthInterval } else c
  if c.adjustNewWidthInterval ≠ 0 ∧ c.avgGap > 0 then some (c.avgGap * 4, c)
  else
    let b := c.buckets c.maxBucket
    if b.count ≤ 4 then some (c.width, c)
    else
      match b.list.head?, b.list.getLast? with
      | some first, some last =>
        let nw := last.time - first.time
        if nw > 0 then some (nw / (min (newsize : ℤ) b.count : ℤ) * 4, c) else none
      | _, _ => none

/-- The number `resize` takes the square root of. -/
def searchRatio (c : CalendarScheduler K) : K :=
  let bwidth : K := if c.headSearch ≠ 0 then c.headSearch else 1
  if c.insertSearch ≠ 0 then bwidth / c.insertSearch else bwidth

def resize (sqrt : K → K) (c : CalendarScheduler K) (newsize : ℕ) (start : K) :
    Option (CalendarScheduler K) :=
  if newsize = c.nbuckets then
    let bwidth := sqrt c.searchRatio * c.width
    if bwidth < c.minBinWidth then
      if c.timeToNewwidth > 0 then
        some { c with timeToNewwidth := c.timeToNewwidth - 1, headSearch := 0,
                      insertSearch := 0, roundNum := 0 }
      else (c.newwidth newsize).bind fun (bwidth, c) => c.rebuild newsize bwidth start
    else c.rebuild newsize bwidth start
  else
    (c.newwidth newsize).bind fun (bwidth, c) =>
      c.rebuild (if newsize < 4 then 4 else newsize) bwidth start

/-- The list surgery of `insert`, with its searches and its test for a new time. -/
def insertList (e : Event K) : List (Event K) → Option (ℕ × List (Event K) × Bool)
  | [] => some (0, [e], true)
  | head :: r =>
    if e.time < head.time then some (1, e :: head :: r, true)
    else (insertBackward e (head :: r).reverse).map fun (steps, l, unique) =>
      (1 + steps, l.reverse, unique)

/-- `insert` up to its last statement, the test for `resize`. -/
def place (c : CalendarScheduler K) (e : Event K) : Option (CalendarScheduler K) :=
  let c := if c.calClock > e.time then
    { c with calClock := e.time, lastbucket := c.hash e.time } else c
  let i := c.hash e.time
  (insertList e (c.buckets i).list).map fun (searches, l, unique) =>
    let d : ℤ := if unique then 1 else 0
    { c.setBucket i ⟨l, (c.buckets i).count + d⟩ with
      insertSearch := c.insertSearch + searches, statQsize := c.statQsize + d, qsize := c.qsize + 1 }

def insert (sqrt : K → K) (c : CalendarScheduler K) (e : Event K) : Option (CalendarScheduler K) :=
  (c.place e).bind fun c =>
    if c.statQsize > c.topThreshold then c.resize sqrt (2 * c.nbuckets) c.calClock else some c

/-- `if (++i == nbuckets_) i = 0`. -/
def nextBucket (c : CalendarScheduler K) (i : ℕ) : ℕ := if i + 1 = c.nbuckets then 0 else i + 1

/-- `CAL_DEQUEUE(x)`; nothing happens any more once the event is found. -/
def calDequeue (c : CalendarScheduler K) (diff : K) (s : YearScan K) : YearScan K :=
  if s.found.isSome then s
  else
    match (c.buckets s.i).list with
    | [] => { s with headSearch := s.headSearch + 1, i := c.nextBucket s.i }
    | e :: _ =>
      if e.time - c.calClock < diff then
        { s with headSearch := s.headSearch + 1, l := some s.i, found := some e }
      else if s.minE.all fun m => m.time > e.time then
        { s with headSearch := s.headSearch + 1, minE := some e, l := some s.i, i := c.nextBucket s.i }
      else { s with headSearch := s.headSearch + 1, i := c.nextBucket s.i }

/-- `for (; i != lastbucket_dec; ) CAL_DEQUEUE(2)`, for at most `fuel` rounds. -/
def yearLoop (c : CalendarScheduler K) (dec : ℕ) : ℕ → YearScan K → Option (YearScan K)
  | 0, s => if s.found.isSome ∨ s.i = dec then some s else none
  | fuel + 1, s =>
    if s.found.isSome ∨ s.i = dec then some s
    else c.yearLoop dec fuel (c.calDequeue c.diff2 s)

/-- The event and the bucket chosen after the year's scan. -/
def selectLast (c : CalendarScheduler K) (s : YearScan K) : Option (Event K) × Option ℕ :=
  match s.found with
  | some e => (some e, s.l)
  | none =>
    let e := (c.buckets s.i).list.head?
    match s.minE with
    | some m => if e.all fun e => m.time < e.time then (some m, s.l) else (e, some s.i)
    | none => (e, some s.i)

def head (c : CalendarScheduler K) : Option (CalendarScheduler K × Option (Event K)) :=
  if c.qsize = 0 then some (c, none)
  else
    let dec := if c.lastbucket ≠ 0 then c.lastbucket - 1 else c.nbuckets - 1
    let s : YearScan K := ⟨c.lastbucket, none, none, c.headSearch, none⟩
    (c.yearLoop dec c.nbuckets (c.calDequeue c.diff1 (c.calDequeue c.diff0 s))).bind fun s =>
      match c.selectLast s with
      | (some e, some l) =>
        some ({ c with headSearch := s.headSearch, lastbucket := l, calClock := e.time }, some e)
      | _ => none

/-- The statistics of `deque` on the gaps between departures. -/
def adjustWidth (sqrt : K → K) (c : CalendarScheduler K) (e : Event K) :
    Option (CalendarScheduler K) :=
  if c.adjustNewWidthInterval = 0 then some c
  else if c.lastTime < 0 then some { c with lastTime := e.time }
  else
    let c := { c with gapNum := c.gapNum + 1 }
    if c.gapNum ≥ c.qsize then
      let c := { c with avgGap := (e.time - c.lastTime) / c.gapNum, gapNum := 0,
                        lastTime := e.time, roundNum := c.roundNum + 1 }
      if c.roundNum > 20 ∧ (c.headSearch > 2 * c.insertSearch ∨ c.insertSearch > 2 * c.headSearch) then
        (c.resize sqrt c.nbuckets c.calClock).map fun c => { c with roundNum := 0 }
      else if c.roundNum > 100 then some { c with roundNum := 0, headSearch := 0, insertSearch := 0 }
      else some c
    else some c

/-- `deque` removes the event that `head` found from the front of its bucket. -/
def unlinkHead (c : CalendarScheduler K) (e : Event K) : Option (CalendarScheduler K) :=
  let b := c.buckets c.lastbucket
  match b.list with
  | [] => none
  | x :: r =>
    if x.addr = e.addr then
      let d : ℤ := if r.head?.all fun y => y.time ≠ e.time then 1 else 0
      some { c.setBucket c.lastbucket ⟨r, b.count - d⟩ with
        statQsize := c.statQsize - d, qsize := c.qsize - 1 }
    else none

def deque (sqrt : K → K) (c : CalendarScheduler K) :
    Option (CalendarScheduler K × Option (Event K)) :=
  c.head.bind fun
    | (c, none) => some (c, none)
    | (c, some e) =>
      (c.adjustWidth sqrt e).bind fun c =>
        (c.unlinkHead e).bind fun c =>
          (if c.statQsize < c.botThreshold then c.resize sqrt (c.nbuckets / 2) c.calClock
           else some c).map fun c => (c, some e)

/-- `cancel`; the circular list behind `e` is `rest`, so `next_` is its first
entry and `prev_` its last. -/
def cancel (c : CalendarScheduler K) (e : Event K) : Option (CalendarScheduler K × Event K) :=
  if e.uid ≤ 0 then some (c, e)
  else
    let i := c.hash e.time
    let b := c.buckets i
    let before := b.list.takeWhile fun x => x.addr ≠ e.addr
    match b.list.dropWhile fun x => x.addr ≠ e.addr with
    | [] => none
    | _ :: after =>
      let rest := after ++ before
      let d : ℤ :=
        if rest.head?.all (fun x => x.time ≠ e.time) ∧ rest.getLast?.all (fun x => x.time ≠ e.time)
        then 1 else 0
      if 0 ≤ c.statQsize - d ∧ 0 ≤ b.count - d ∧ (b.count - d = 0 → before ++ after = []) then
        some ({ c.setBucket i ⟨before ++ after, b.count - d⟩ with
          statQsize := c.statQsize - d, qsize := c.qsize - 1 }, e.cancelled)
      else none

/-- The constructor, on memory `m` whose bound variables `minBinWidth` and
`adjustNewWidthInterval` are set. -/
def construct (m : CalendarScheduler K) : CalendarScheduler K :=
  let m := { m with calClock := 0 }
  let m := if m.adjustNewWidthInterval ≠ 0 then
    { m with avgGap := -2, lastTime := -2, gapNum := 0, headSearch := 0, insertSearch := 0,
             roundNum := 0, timeToNewwidth := m.adjustNewWidthInterval } else m
  m.reinit 4 1 m.calClock

/-- Blank memory with the bound variables of `ns-default.tcl`. -/
def defaults : CalendarScheduler K where
  minBinWidth := 1 / 10 ^ 18
  adjustNewWidthInterval := 10
  timeToNewwidth := 0
  headSearch := 0
  insertSearch := 0
  roundNum := 0
  gapNum := 0
  lastTime := 0
  avgGap := 0
  width := 0
  diff0 := 0
  diff1 := 0
  diff2 := 0
  statQsize := 0
  nbuckets := 0
  lastbucket := 0
  topThreshold := 0
  botThreshold := 0
  buckets := fun _ => ⟨[], 0⟩
  qsize := 0
  calClock := 0

def machine (sqrt : K → K) : Machine (CalendarScheduler K) (Op K) (Option (Event K)) where
  step c
    | .insert e => (c.insert sqrt e).map fun c => (c, none)
    | .cancel e => (c.cancel e).map fun r => (r.1, some r.2)
    | .lookup uid => some (c, c.lookup uid)
    | .head => c.head
    | .deque => c.deque sqrt

end CalendarScheduler

end Ns2
