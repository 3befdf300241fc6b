import Mathlib.Data.Char
import Mathlib.Data.List.Lex
import Mathlib.Data.Rat.Floor
import Ns2.Lib.Machine
import Ns2.Lib.OrdMap

/-! The statistics matrix of `BloomStat`: for each message the nodes that have seen it, each with
a versioned bitmap over the time bins, and how received reports about a node are merged. A
`std::map<int, int>` is a function that is 0 where nothing was stored. How `BloomStat` writes an
agent's own records of the statistics matrix, and what it reads from a message: `add_bundle` under
both spraying policies, `update_bundle_status`, the validity check that freezes a message, and the
sums over the records. -/

namespace Ns2

/-- `Dtn_Node_2`. -/
structure StatNode where
  statVersion : ℤ
  miStartIndex : ℤ
  bitMap : ℤ → ℤ
  miBitMap : ℤ → ℤ
  miMapDone : Bool
  lastMeetingTime : ℚ

namespace StatNode

def new (lv : ℚ) : StatNode := ⟨0, -1, fun _ => 0, fun _ => 0, false, lv⟩

/-- The entries of `m` in the bins of the axis. -/
def updateBitMap (axeLength : ℕ) (m : ℤ → ℤ) (n : StatNode) : StatNode :=
  { n with bitMap := fun i => if 0 ≤ i ∧ i < axeLength then m i else n.bitMap i }

def updateMiBitMap (axeLength : ℕ) (n : StatNode) : StatNode :=
  if !n.miMapDone ∧ n.miStartIndex ≠ -1 then
    { n with
      miBitMap := fun i => if n.miStartIndex ≤ i ∧ i < axeLength then 1 else n.miBitMap i
      miMapDone := true }
  else n

end StatNode

/-- `Dtn_Message`. -/
structure Message where
  bundleId : List Char
  ttl : ℚ
  mapNodes : OrdMap (List Char) StatNode

/-- A received report about a node, the arguments of `addNode`. -/
structure Report where
  bitMap : ℤ → ℤ
  lm : ℚ
  statVersion : ℤ
  miStartIndex : ℤ

namespace Report

/-- The record of a node that was not known before. -/
def create (axeLength : ℕ) (r : Report) : StatNode :=
  let n := { StatNode.new r.lm with miStartIndex := r.miStartIndex }
  let n := (n.updateBitMap axeLength r.bitMap).updateMiBitMap axeLength
  { n with statVersion := r.statVersion }

/-- The record of a known node after a report that is not older. -/
def update (axeLength : ℕ) (r : Report) (n : StatNode) : StatNode :=
  let n := { n with
    miStartIndex := r.miStartIndex
    miMapDone := false }
  let n := { n.updateBitMap axeLength r.bitMap with lastMeetingTime := r.lm }
  { n.updateMiBitMap axeLength with statVersion := r.statVersion }

end Report

namespace Message

/-- The message after a report about a node; `none` is an exit. -/
def addNode (axeLength : ℕ) (nodeId : List Char) (r : Report) (m : Message) : Option Message :=
  if r.statVersion > axeLength then none
  else
    match m.mapNodes.find nodeId with
    | some n =>
      if n.statVersion ≤ r.statVersion then
        some { m with mapNodes := m.mapNodes.set nodeId (r.update axeLength n) }
      else some m
    | none => some { m with mapNodes := m.mapNodes.set nodeId (r.create axeLength) }

end Message

namespace StatNode

/-- `none` is an exit. -/
def setTimeBinValue (axeLength : ℕ) (bin : ℕ) (value : ℤ) (source newOld : Bool) (n : StatNode) :
    Option StatNode :=
  let n' :=
    if source then
      { n with
        miStartIndex := if newOld then bin else n.miStartIndex
        statVersion := bin
        bitMap := fun j =>
          if value = 0 ∧ (bin : ℤ) < j ∧ j < axeLength then value
          else if value = 1 ∧ j = bin then value
          else n.bitMap j
        miBitMap := fun j =>
          if j = bin ∨ newOld = true ∧ (bin : ℤ) < j ∧ j < axeLength then 1 else n.miBitMap j }
    else n
  if n'.bitMap bin ≠ 0 ∧ n'.bitMap bin ≠ 1 then none else some n'

/-- What is sent about the record, with the meeting time as it arrives. -/
def report (axeLength : ℕ) (lm : ℚ) (n : StatNode) : Report where
  bitMap := fun i => if 0 ≤ i ∧ i < axeLength then n.bitMap i else 0
  lm := lm
  statVersion := n.statVersion
  miStartIndex := n.miStartIndex

end StatNode

/-- `Dtn_Message` with its life time, its status and its two sums. `nullNode` says that the
agent's own entry of `mapNodes` is a null pointer. -/
structure DtnMessage extends Message where
  lifeTime : ℚ
  lastLtUpdate : ℚ
  messageStatus : ℤ
  miMap : ℤ → ℤ
  niMap : ℤ → ℤ
  nullNode : Bool

namespace DtnMessage

def new (bundleId : List Char) (ttl now : ℚ) : DtnMessage where
  bundleId := bundleId
  ttl := ttl
  mapNodes := OrdMap.empty
  lifeTime := 0
  lastLtUpdate := now
  messageStatus := 0
  miMap := fun _ => 0
  niMap := fun _ => 0
  nullNode := false

def setLifeTime (lt now : ℚ) (m : DtnMessage) : DtnMessage :=
  { m with
    lifeTime := lt
    lastLtUpdate := now }

/-- `GetLifeTime` moves the life time on to `now`. -/
def getLifeTime (now : ℚ) (m : DtnMessage) : DtnMessage :=
  m.setLifeTime (now - m.lastLtUpdate + m.lifeTime) now

def setNode (nodeId : List Char) (n : StatNode) (m : DtnMessage) : DtnMessage :=
  { m with mapNodes := m.mapNodes.set nodeId n }

/-- The first `addNode`: one bin of the record. -/
def addNodeBin (axeLength : ℕ) (endpoint nodeId : List Char) (bin : ℕ) (binValue : ℤ)
    (meetingTime now : ℚ) (statVersion : ℕ) (m : DtnMessage) : Option DtnMessage :=
  if statVersion > axeLength then none
  else if nodeId = endpoint ∧ m.nullNode = true then none
  else
    match m.mapNodes.find nodeId with
    | some n => (n.setTimeBinValue axeLength bin binValue true false).map fun n =>
        (m.getLifeTime now).setNode nodeId { n with lastMeetingTime := meetingTime }
    | none => ((StatNode.new meetingTime).setTimeBinValue axeLength bin binValue true true).map
        fun n => (m.getLifeTime now).setNode nodeId n

/-- The second `addNode`: a received report. -/
def addNodeReport (axeLength : ℕ) (endpoint nodeId : List Char) (r : Report) (m : DtnMessage) :
    Option DtnMessage :=
  if nodeId = endpoint ∧ m.nullNode = true then none
  else (m.toMessage.addNode axeLength nodeId r).map fun m' => { m with toMessage := m' }

/-- `none` is a null pointer. -/
def updateMiMap (axeLength : ℕ) (m : DtnMessage) : Option DtnMessage :=
  if m.messageStatus = 0 then
    if m.nullNode = true ∧ 0 < axeLength then none
    else some { m with
      miMap := fun i =>
        if 0 ≤ i ∧ i < axeLength then (m.mapNodes.entries.map fun e => e.2.miBitMap i).sum
        else m.miMap i }
  else some m

def updateNiMap (axeLength : ℕ) (m : DtnMessage) : DtnMessage :=
  if m.messageStatus = 0 then
    { m with
      niMap := fun i =>
        if 0 ≤ i ∧ i < axeLength then (m.mapNodes.entries.map fun e => e.2.bitMap i).sum
        else m.niMap i }
  else m

/-- The smallest version among the records, below ten times the length of the axis. -/
def smallerVersion (axeLength : ℕ) (m : DtnMessage) : ℤ :=
  m.mapNodes.entries.foldl (fun v e => if e.2.statVersion < v then e.2.statVersion else v)
    (axeLength * 10 : ℕ)

/-- The version after the last bin, which only the owner of the record sets. Looking the
record up binds it to a null pointer when it is missing. -/
def setTtlVersion (axeLength : ℕ) (endpoint : List Char) (now : ℚ) (m : DtnMessage) :
    Option DtnMessage :=
  let m := m.getLifeTime now
  if m.ttl ≤ m.lifeTime then
    match m.mapNodes.find endpoint with
    | some n =>
      if n.statVersion < axeLength then
        (n.setTimeBinValue axeLength axeLength 0 true false).map fun n => m.setNode endpoint n
      else some m
    | none => some { m with nullNode := true }
  else some m

/-- `IsValid`; a message whose records are all complete is summed and frozen. -/
def isValid (axeLength : ℕ) (endpoint : List Char) (now : ℚ) (binIndex : ℤ) (m : DtnMessage) :
    Option (DtnMessage × Bool) :=
  if m.messageStatus = 1 then some (m, true)
  else
    (m.setTtlVersion axeLength endpoint now).bind fun m =>
      let size := m.mapNodes.entries.length + if m.nullNode then 1 else 0
      if axeLength ≤ m.smallerVersion axeLength ∧ 2 ≤ size then
        (m.updateMiMap axeLength).map fun m =>
          ({ m.updateNiMap axeLength with
            mapNodes := OrdMap.empty
            nullNode := false
            messageStatus := 1 }, true)
      else some (m, decide (binIndex ≤ m.smallerVersion axeLength))

end DtnMessage

/-- `Network_Stat_Bloom` of one agent. -/
structure StatOwner where
  endpoint : List Char
  axeLength : ℕ
  axeSubdivision : ℚ
  statSpryingPolicy : ℤ
  maxNumberOfStatMessages : ℤ
  messagesNumber : ℤ
  messagesMatrix : OrdMap (List Char) DtnMessage

namespace StatOwner

/-- `none` is an exit. -/
def convertElapsedTimeToBinIndex (et : ℚ) (ns : StatOwner) : Option ℕ :=
  if ns.axeSubdivision * ns.axeLength < et then some ns.axeLength
  else (List.range ns.axeLength).findSome? fun i : ℕ =>
    if et = 0 then some 0
    else if ns.axeSubdivision * i < et ∧ et ≤ ns.axeSubdivision * (i + 1 : ℕ) then some i
    else none

def setMessage (id : List Char) (m : DtnMessage) (ns : StatOwner) : StatOwner :=
  { ns with messagesMatrix := ns.messagesMatrix.set id m }

/-- The matrix after every message was checked, and how many are not valid. -/
def getNumberOfInvalidMessages (now : ℚ) (ns : StatOwner) : Option (StatOwner × ℤ) :=
  ns.messagesMatrix.entries.foldlM (fun r e =>
    (e.2.isValid ns.axeLength ns.endpoint now ns.axeLength).map fun v =>
      (r.1.setMessage e.1 v.1, if v.2 then r.2 else r.2 + 1)) (ns, 0)

/-- The message as `add_bundle` and `add_message` find it or create it. -/
def openMessage (id : List Char) (ttl now : ℚ) (ns : StatOwner) : DtnMessage × StatOwner :=
  match ns.messagesMatrix.find id with
  | some m => ({ m with ttl := ttl }, ns)
  | none => (DtnMessage.new id ttl now, { ns with messagesNumber := ns.messagesNumber + 1 })

/-- What `add_bundle` does when the policy has room for the message. -/
def putBundle (bundleId nodeId : List Char) (lt ttl now : ℚ) (ns : StatOwner) : Option StatOwner :=
  if bundleId.length = 0 then none
  else
    (ns.convertElapsedTimeToBinIndex lt).bind fun binIndex =>
      let r := ns.openMessage bundleId ttl now
      let m := r.1.setLifeTime lt now
      (if nodeId.length > 0 then
        m.addNodeBin ns.axeLength ns.endpoint nodeId binIndex 1 now now binIndex
      else some m).map fun m => r.2.setMessage bundleId m

def addBundle (bundleId nodeId : List Char) (lt ttl now : ℚ) (ns : StatOwner) : Option StatOwner :=
  if ns.statSpryingPolicy = 2 then
    (ns.getNumberOfInvalidMessages now).bind fun r =>
      if r.2 < ns.maxNumberOfStatMessages then r.1.putBundle bundleId nodeId lt ttl now
      else some r.1
  else if ns.statSpryingPolicy = 0 then
    if ns.messagesNumber < ns.maxNumberOfStatMessages then ns.putBundle bundleId nodeId lt ttl now
    else some ns
  else some ns

def updateBundleStatus (nodeId bundleId : List Char) (del : ℤ) (lt ttl now : ℚ) (ns : StatOwner) :
    Option StatOwner :=
  (ns.convertElapsedTimeToBinIndex lt).bind fun binIndex =>
    match ns.messagesMatrix.find bundleId with
    | some m => (m.addNodeBin ns.axeLength ns.endpoint nodeId binIndex del now now binIndex).map
        fun m => ns.setMessage bundleId { m.setLifeTime lt now with ttl := ttl }
    | none => some ns

/-- `add_message` and `update_message`: the reports of a received message, decoded. -/
def receiveMessage (id : List Char) (ttl now : ℚ) (reports : List (List Char × Report))
    (ns : StatOwner) : Option StatOwner :=
  let r := ns.openMessage id ttl now
  (reports.foldlM (fun (m : DtnMessage) e => m.addNodeReport ns.axeLength ns.endpoint e.1 e.2) r.1).map
    fun m => r.2.setMessage id m

end StatOwner

/-- The agents, and every report that was ever sent: message, node and record. -/
structure StatNetwork where
  node : List Char → StatOwner
  air : List (List Char × List Char × Report)

inductive StatEvent where
  | addBundle (agent bundleId nodeId : List Char) (lt ttl now : ℚ)
  | updateBundleStatus (agent nodeId bundleId : List Char) (del : ℤ) (lt ttl now : ℚ)
  | send (agent bundleId nodeId : List Char) (lm : ℚ)
  | receive (agent bundleId : List Char) (ttl now : ℚ) (picks : List ℕ)

namespace StatNetwork

def setNode (agent : List Char) (ns : StatOwner) (N : StatNetwork) : StatNetwork :=
  { N with node := Function.update N.node agent ns }

/-- The reports about a message at some places of the air. -/
def picked (bundleId : List Char) (picks : List ℕ) (N : StatNetwork) : List (List Char × Report) :=
  picks.filterMap fun i => (N.air[i]?).bind fun e => if e.1 = bundleId then some e.2 else none

def step (N : StatNetwork) : StatEvent → Option StatNetwork
  | .addBundle agent bundleId nodeId lt ttl now =>
    ((N.node agent).addBundle bundleId nodeId lt ttl now).map fun ns => N.setNode agent ns
  | .updateBundleStatus agent nodeId bundleId del lt ttl now =>
    ((N.node agent).updateBundleStatus nodeId bundleId del lt ttl now).map fun ns =>
      N.setNode agent ns
  | .send agent bundleId nodeId lm =>
    match (N.node agent).messagesMatrix.find bundleId with
    | some m =>
      if m.nullNode then none
      else match m.mapNodes.find nodeId with
        | some n => some { N with
            air := N.air ++ [(bundleId, nodeId, n.report (N.node agent).axeLength lm)] }
        | none => some N
    | none => some N
  | .receive agent bundleId ttl now picks =>
    ((N.node agent).receiveMessage bundleId ttl now (N.picked bundleId picks)).map fun ns =>
      N.setNode agent ns

def machine : Machine StatNetwork StatEvent Unit := ⟨fun N e => (N.step e).map fun N => (N, ())⟩

end StatNetwork

end Ns2
