import Ns2.Dtn.Epidemic
import Ns2.Lib.Machine

/-! The buffer of `EpidemicRouting`: `add_bundle` with the nine drop policies, and the two
loops that erase expired and delivered bundles. An iterator is a place in the list, and the
result of a random draw comes with the operation. -/

namespace Ns2

open Str

namespace EpidemicRouting

/-- A bundle with its times. -/
structure TimedBundle extends RoutedBundle where
  elapsedTime : ℚ
  expTime : ℚ
  hopcount : ℕ

/-- `BundleStore`. -/
structure StoredBundle where
  id : List Char
  b : TimedBundle
  timeStamp : ℚ
  enableSprying : ℤ
  maxSpryingTime : ℤ
  networkCopyTime : ℚ

namespace StoredBundle

def updateElapsedTime (d : ℚ) (x : StoredBundle) : StoredBundle :=
  let elapsedTime := x.b.elapsedTime + (d - x.timeStamp)
  { x with
    b := { x.b with elapsedTime := elapsedTime }
    networkCopyTime := x.networkCopyTime + (d - x.timeStamp)
    timeStamp := d
    enableSprying := if elapsedTime > x.maxSpryingTime then 0 else x.enableSprying }

def getElapsedTime (x : StoredBundle) : ℚ := x.b.elapsedTime

/-- The uid computed from the bundle. -/
def uid (x : StoredBundle) : List Char := getBundleIdUid x.b.toRoutedBundle

end StoredBundle

/-- The fields of the agent and its routing that the buffer is managed with. -/
structure Buffer where
  agentEndpoint : List Char
  maxBundlesInLocalBuffer : ℤ
  dropPolicie : ℤ
  dropOldestBin : ℚ
  maxSpryingTime : ℤ
  infiniteTtl : ℤ
  antiPacketMechanism : ℤ
  numberOfBufferedBundles : ℤ
  bundleStoreList : List StoredBundle

/-- The utilities of drop policies 5 to 8 and the comparisons of them that the code makes;
`limit` is the 99999 that the selectors start from. -/
structure Utilities (V : Type*) where
  lt : V → V → Bool
  le : V → V → Bool
  eq : V → V → Bool
  limit : V
  new : ℤ → Buffer → TimedBundle → V
  stored : ℤ → Buffer → StoredBundle → V

/-- The place of the last bundle in the list that beats all before it and is not exempt,
and its value. -/
def selectMessage {V : Type*} (beats : V → V → Bool) (exempt : StoredBundle → Bool)
    (value : StoredBundle → V) : List StoredBundle → ℕ → ℕ × V → ℕ × V
  | [], _, r => r
  | x :: l, i, r =>
    selectMessage beats exempt value l (i + 1)
      (if beats (value x) r.2 = true ∧ exempt x = false then (i, value x) else r)

/-- A loop that erases what `keep` does not keep and counts down. -/
def eraseLoop (keep : StoredBundle → Option StoredBundle) :
    List StoredBundle → ℤ → List StoredBundle × ℤ
  | [], n => ([], n)
  | x :: l, n =>
    match keep x with
    | some x =>
      let r := eraseLoop keep l n
      (x :: r.1, r.2)
    | none => eraseLoop keep l (n - 1)

namespace Buffer

def isMyMessage (s : Buffer) (b : TimedBundle) : Bool := b.src = s.agentEndpoint

def isMine (s : Buffer) (x : StoredBundle) : Bool := s.isMyMessage x.b

def existId (id : List Char) (uId : ℤ) (s : Buffer) : Option StoredBundle :=
  s.bundleStoreList.find? fun x => x.id = if uId ≠ -1 then id ++ 'r' :: showInt uId else id

def freePlace (s : Buffer) : Bool := s.numberOfBufferedBundles < s.maxBundlesInLocalBuffer

def getPointerTo (position : ℕ) (s : Buffer) : Option StoredBundle :=
  if (position : ℤ) ≤ s.numberOfBufferedBundles ∧ 0 < position then
    s.bundleStoreList[position - 1]?
  else none

def newStore (b : TimedBundle) (now : ℚ) (s : Buffer) : StoredBundle :=
  ⟨getBundleIdUid b.toRoutedBundle, b, now, 1, s.maxSpryingTime, 0⟩

def pushBack (b : TimedBundle) (now : ℚ) (s : Buffer) : Buffer :=
  { s with bundleStoreList := s.bundleStoreList ++ [s.newStore b now] }

/-- A bundle of another agent has come one hop further. -/
def countHop (b : TimedBundle) (s : Buffer) : TimedBundle :=
  if s.isMyMessage b then b else { b with hopcount := b.hopcount + 1 }

/-- The bundle at a place is deleted and the new one added; `none` is past the end. -/
def replace (p : ℕ) (b : TimedBundle) (now : ℚ) (s : Buffer) : Option Buffer :=
  if p < s.bundleStoreList.length then
    some ({ s with bundleStoreList := s.bundleStoreList.eraseIdx p }.pushBack b now)
  else none

/-- From a position down to the last one with a bundle of another agent; `none` is a null
pointer. -/
def lastForeign (s : Buffer) : ℕ → Option ℕ
  | 0 => (s.getPointerTo 0).map fun _ => 0
  | lp + 1 => (s.getPointerTo (lp + 1)).bind fun x =>
    if s.isMine x then s.lastForeign lp else some (lp + 1)

def addWithDropTail (b : TimedBundle) (now : ℚ) (s : Buffer) : Option Buffer :=
  if !s.isMyMessage b then some s
  else
    (s.lastForeign s.numberOfBufferedBundles.toNat).bind fun lp =>
      if lp = 0 then some s
      else
        (s.getPointerTo lp).bind fun v =>
          match s.bundleStoreList.findIdx? fun x => v.id = x.id with
          | some p => s.replace p b now
          | none => some (s.pushBack b now)

def addWithDropFromFront (b : TimedBundle) (now : ℚ) (s : Buffer) : Option Buffer :=
  (s.bundleStoreList[0]?).bind fun x =>
    if !s.isMine x then s.replace 0 b now
    else
      match s.bundleStoreList.findIdx? fun x => !s.isMine x with
      | some p => s.replace p b now
      | none => s.replace 0 b now

def getYoungestMessage (s : Buffer) : ℕ :=
  (selectMessage (fun t min : ℚ => t < min) s.isMine StoredBundle.getElapsedTime
    s.bundleStoreList 0 (0, 99999)).1

def getOldestMessage (s : Buffer) : ℕ :=
  (selectMessage (fun t max : ℚ => t > max) s.isMine StoredBundle.getElapsedTime
    s.bundleStoreList 0 (0, 0)).1

def addWithDropYoungestMessage (b : TimedBundle) (now : ℚ) (s : Buffer) : Option Buffer :=
  (s.bundleStoreList[s.getYoungestMessage]?).bind fun x =>
    if b.elapsedTime > x.getElapsedTime ∨ s.isMyMessage b = true then
      s.replace s.getYoungestMessage b now
    else some s

def addWithDropOldestMessage (b : TimedBundle) (now : ℚ) (s : Buffer) : Option Buffer :=
  (s.bundleStoreList[s.getOldestMessage]?).bind fun x =>
    if b.elapsedTime < x.getElapsedTime ∨ s.isMyMessage b = true then
      s.replace s.getOldestMessage b now
    else some s

def addWithBinDropOldest (b : TimedBundle) (now draw : ℚ) (s : Buffer) : Option Buffer :=
  if s.isMyMessage b then s.replace s.getOldestMessage b now
  else
    (s.bundleStoreList[s.getOldestMessage]?).bind fun x =>
      if x.getElapsedTime ≥ b.elapsedTime then
        if x.getElapsedTime - b.elapsedTime ≥ s.dropOldestBin then
          s.replace s.getOldestMessage b now
        else if draw > 1 / 2 then s.replace s.getOldestMessage b now
        else some s
      else
        if b.elapsedTime - x.getElapsedTime ≥ s.dropOldestBin then some s
        else if draw > 1 / 2 then s.replace s.getOldestMessage b now
        else some s

section

variable {V : Type*} (U : Utilities V)

/-- The selectors of policies 5 to 8: the place of the victim and its metric. -/
def getMessageWith (policie : ℤ) (s : Buffer) : ℕ × V :=
  selectMessage U.lt s.isMine (U.stored policie s) s.bundleStoreList 0 (0, U.limit)

def getMessageWithSmallestMetricValueReference (s : Buffer) : ℕ × V := s.getMessageWith U 5

def getMessageWithDelayMetricReference (s : Buffer) : ℕ × V := s.getMessageWith U 6

def getMessageWithSmallestMetricValueApproximation (s : Buffer) : ℕ × V := s.getMessageWith U 7

def getMessageWithDelayMetricApproximation (s : Buffer) : ℕ × V := s.getMessageWith U 8

/-- The victim makes place when its metric is accepted or the new bundle is the agent's own. -/
def addByMetric (accepts : Bool) (messageToDelete : ℕ) (b : TimedBundle) (now : ℚ) (s : Buffer) :
    Option Buffer :=
  if accepts = true ∨ s.isMyMessage b = true then s.replace messageToDelete b now else some s

def addAndMaximizeTotalDeliveryRateReference (b : TimedBundle) (now : ℚ) (s : Buffer) :
    Option Buffer :=
  let r := s.getMessageWithSmallestMetricValueReference U
  s.addByMetric (U.le r.2 (U.new 5 s b)) r.1 b now

def addAndMinimizeTotalDelayReference (b : TimedBundle) (now : ℚ) (s : Buffer) : Option Buffer :=
  let r := s.getMessageWithDelayMetricReference U
  s.addByMetric (U.le r.2 (U.new 6 s b)) r.1 b now

def addAndMaximizeTotalDeliveryRateApproximation (b : TimedBundle) (now draw : ℚ) (s : Buffer) :
    Option Buffer :=
  let r := s.getMessageWithSmallestMetricValueApproximation U
  if U.lt r.2 (U.new 7 s b) = true ∨ s.isMyMessage b = true then s.replace r.1 b now
  else if U.eq (U.new 7 s b) r.2 then
    if draw > 1 / 2 then s.replace r.1 b now else some s
  else some s

def addAndMinimizeTotalDelayApproximation (b : TimedBundle) (now : ℚ) (s : Buffer) :
    Option Buffer :=
  let r := s.getMessageWithDelayMetricApproximation U
  s.addByMetric (U.le r.2 (U.new 8 s b)) r.1 b now

/-- `add_bundle` with its result. The uid is computed before the drop policy is called. -/
def addBundle (b : TimedBundle) (now draw : ℚ) (s : Buffer) : Option (Buffer × ℤ) :=
  let newMessageDoesNotExists := (s.existId b.src b.uId).isNone
  if newMessageDoesNotExists = true ∧ s.freePlace = true then
    some ({ s.pushBack (s.countHop b) now with
      numberOfBufferedBundles := s.numberOfBufferedBundles + 1 }, 1)
  else if s.freePlace = false ∧ newMessageDoesNotExists = true then
    match s.dropPolicie with
    | 1 => (s.addWithDropTail b now).map fun s => (s, 1)
    | 2 => (s.addWithDropFromFront b now).map fun s => (s, 1)
    | 3 => (s.addWithDropYoungestMessage b now).map fun s => (s, 1)
    | 4 => (s.addWithDropOldestMessage b now).map fun s => (s, 1)
    | 5 => (s.addAndMaximizeTotalDeliveryRateReference U b now).map fun s => (s, 1)
    | 6 => (s.addAndMinimizeTotalDelayReference U b now).map fun s => (s, 1)
    | 7 => (s.addAndMaximizeTotalDeliveryRateApproximation U b now draw).map fun s => (s, 1)
    | 8 => (s.addAndMinimizeTotalDelayApproximation U b now).map fun s => (s, 1)
    | 9 => (s.addWithBinDropOldest b now draw).map fun s => (s, 1)
    | _ => some (s, 0)
  else some (s, 0)

end

def makeClean (now : ℚ) (s : Buffer) : Buffer :=
  if s.infiniteTtl = 0 ∧ s.numberOfBufferedBundles > 0 then
    let r := eraseLoop (fun x =>
      let x := x.updateElapsedTime now
      if x.getElapsedTime ≥ x.b.expTime then none else some x)
      s.bundleStoreList s.numberOfBufferedBundles
    { s with
      bundleStoreList := r.1
      numberOfBufferedBundles := r.2 }
  else s

/-- `dbMap` is the list of the uids known to be delivered. -/
def deleteDelivredBundles (dbMap : List (List Char)) (s : Buffer) : Buffer :=
  if s.antiPacketMechanism = 1 ∧ s.numberOfBufferedBundles > 0 then
    let r := eraseLoop (fun x => if x.uid ∈ dbMap then none else some x)
      s.bundleStoreList s.numberOfBufferedBundles
    { s with
      bundleStoreList := r.1
      numberOfBufferedBundles := r.2 }
  else s

end Buffer

inductive BufferOp (V : Type*) where
  | addBundle (U : Utilities V) (b : TimedBundle) (now draw : ℚ)
  | makeClean (now : ℚ)
  | deleteDelivredBundles (dbMap : List (List Char))

def Buffer.machine {V : Type*} : Machine Buffer (BufferOp V) ℤ where
  step s
    | .addBundle U b now draw => s.addBundle U b now draw
    | .makeClean now => some (s.makeClean now, 0)
    | .deleteDelivredBundles dbMap => some (s.deleteDelivredBundles dbMap, 0)

end EpidemicRouting

end Ns2
