import Ns2.Dtn.Stat
import Ns2.Lib.Text

/-! The statistics matrix as text, `id+ttl*node=time@version?index[bits]$node...` for each
message, with `\` between messages and `#` at the end, and the functions that take it apart again.
Strings are C strings; the buffers of `sprintf` are taken to be long enough. The array of a node
id is not: `room` is what it has beyond the bytes it gets in the code. The version-based pull:
the request lists the nodes known of each message with their versions, and the answer describes
the nodes that are newer or missing there. -/

namespace Ns2

open Str

/-- `Network_Stat_Bloom`. -/
structure NetworkStat where
  axeLength : ℕ
  messagesMatrix : OrdMap (List Char) Message
  nodesMatrix : OrdMap (List Char) ℚ

namespace NetworkStat

def getNodeMeetingTime (nodeId : List Char) (ns : NetworkStat) : ℚ :=
  (ns.nodesMatrix.find nodeId).getD 0

/-- The nodes of a message that are selected, each as `text` writes it, with `$` in front
of all but the first node of the map; `none` is an exit. -/
def describeNodes (axeLength : ℕ) (text : List Char → StatNode → List Char)
    (selected : List Char → Bool) : Bool → List (List Char × StatNode) → Option (List Char)
  | _, [] => some []
  | isBegin, (nodeId, n) :: nodes =>
    if nodeId = [] then none
    else if selected nodeId then
      if n.statVersion > axeLength then none
      else (describeNodes axeLength text selected false nodes).map fun d =>
        (if isBegin then [] else ['$']) ++ text nodeId n ++ d
    else describeNodes axeLength text selected false nodes

/-- `node=time@version?index[bits]`. -/
def nodeText (ns : NetworkStat) (nodeId : List Char) (n : StatNode) : List Char :=
  nodeId ++ '=' :: (showFloat (ns.getNodeMeetingTime nodeId) ++
    '@' :: (showInt n.statVersion ++ '?' :: (showInt n.miStartIndex ++
      '[' :: (join ',' ((List.range ns.axeLength).map fun (k : ℕ) => showInt (n.bitMap k)) ++
        [']']))))

/-- The selected nodes behind a `*`, unless the message has none. -/
def describeMapNodes (axeLength : ℕ) (text : List Char → StatNode → List Char)
    (selected : List Char → Bool) (m : Message) : Option (List Char) :=
  if m.mapNodes.entries = [] then some []
  else (describeNodes axeLength text selected true m.mapNodes.entries).map fun d => '*' :: d

def getDescription (ns : NetworkStat) (m : Message) : Option (List Char) :=
  (describeMapNodes ns.axeLength ns.nodeText (fun _ => true) m).map fun d =>
    m.bundleId ++ '+' :: (showFloat m.ttl ++ d)

/-- The message texts one after the other, with `\` between them. -/
def getStatToSendFrom (ns : NetworkStat) : Bool → List (List Char × Message) → Option (List Char)
  | _, [] => some []
  | isBegin, (_, m) :: messages =>
    (ns.getDescription m).bind fun d => (ns.getStatToSendFrom false messages).map fun rest =>
      (if isBegin then [] else ['\\']) ++ d ++ rest

def getStatToSend (ns : NetworkStat) (stat : List Char) : Option (List Char) :=
  if ns.messagesMatrix.entries = [] then some stat
  else (ns.getStatToSendFrom true ns.messagesMatrix.entries).map fun s => s ++ ['#']

/-- The messages in front of the `#`; `none` runs off the end. -/
def getNumberOfMessagesFromStat (receivedStat : List Char) : Option ℕ :=
  if '#' ∈ receivedStat then
    some ((receivedStat.takeWhile fun c => c ≠ '#').count '\\' + 1)
  else none

def getMessageIFromStat (receivedStat : List Char) (p : ℕ) : Option (List Char) :=
  if receivedStat = [] then some []
  else if p = 1 then
    (getNumberOfMessagesFromStat receivedStat).bind fun number =>
      match if number = 1 then find '#' receivedStat else find '\\' receivedStat with
      | some pos => substr 0 (some pos) receivedStat
      | none => some []
  else
    let rs := skip '\\' (p - 1) receivedStat
    (find 'R' rs).bind fun pos2 => substr pos2 (find '\\' rs) rs

def getNumberOfNodesForABundle (bundle : List Char) : ℕ :=
  let e := bundle.count '*'
  let j := bundle.count '$'
  if e = 1 ∧ j = 0 then 1 else if e = 0 then 0 else j + 1

/-- The text from node `p` on, further than its end; `none` is an exception. -/
def getNodeFromStat (bund : List Char) (p : ℕ) : Option (List Char) :=
  if getNumberOfNodesForABundle bund ≥ p then
    if p = 1 then substr (after (find '*' bund)) (before (find '$' bund)) bund
    else
      let bundle := skip '$' (p - 1) bund
      (find 'R' bundle).bind fun pos2 =>
        match find '\\' bundle with
        | none => substr pos2 none bundle
        | some pos3 => substr pos2 (before (some pos3)) bundle
  else some []

/-- What is in front of the `=`, in an array of as many bytes and `room` more; `none` is a null
pointer or a write behind the array. -/
def getNodeIdFromStat (room : ℕ) (node : List Char) : Option (List Char) :=
  (find '=' node).bind fun n => Str.stored (n + room) (node.take n)

def getNodeLm (node : List Char) : Option ℚ :=
  (substr (after (find '=' node)) (before (find '@' node)) node).map atof

/-- The number between two separators; `none` is an exit. -/
def getNodeNumber (axeLength : ℕ) (c d : Char) (node : List Char) : Option ℤ :=
  (substr (after (find c node)) (before (find d node)) node).bind fun lm =>
    if atoi lm > axeLength then none else some (atoi lm)

def getNodeStatVersion (axeLength : ℕ) (node : List Char) : Option ℤ :=
  getNodeNumber axeLength '@' '?' node

def getMiIndexFromStat (axeLength : ℕ) (node : List Char) : Option ℤ :=
  getNodeNumber axeLength '?' '[' node

def getNodeBitMap (node : List Char) : Option (ℤ → ℤ) :=
  (substr (after (find '[' node)) (before (find ']' node)) node).map fun table i =>
    if 0 ≤ i then (((segments ',' table)[i.toNat]?).map atoi).getD 0 else 0

def getBundleId (bundle : List Char) : Option (List Char) := substr 0 (find '+' bundle) bundle

def getBundleTtl (bundle : List Char) : Option ℚ :=
  (substr (after (find '+' bundle)) (before (find '*' bundle)) bundle).map atof

/-- The node id and the report that a node text holds. -/
def getNodeReport (room axeLength : ℕ) (node : List Char) : Option (List Char × Report) :=
  (getNodeIdFromStat room node).bind fun nodeId => (getNodeLm node).bind fun lm =>
    (getNodeStatVersion axeLength node).bind fun version =>
      (getMiIndexFromStat axeLength node).bind fun miIndex =>
        (getNodeBitMap node).map fun bitMap => (nodeId, ⟨bitMap, lm, version, miIndex⟩)

def addNode (nodeId : List Char) (tView : ℚ) (ns : NetworkStat) : NetworkStat :=
  { ns with nodesMatrix := ns.nodesMatrix.set nodeId tView }

def putMessage (dm : Message) (id : List Char) (ns : NetworkStat) : NetworkStat :=
  { ns with messagesMatrix := ns.messagesMatrix.set id dm }

/-- The message with the reports of all its nodes. -/
def receiveNodes (room axeLength : ℕ) (message : List Char) (dm : Message) : Option Message :=
  (List.range (getNumberOfNodesForABundle message)).foldlM (fun dm i =>
    (getNodeFromStat message (i + 1)).bind fun node =>
      (getNodeReport room axeLength node).bind fun (nodeId, r) => dm.addNode axeLength nodeId r) dm

/-- The meeting times of all its nodes. -/
def receiveTimes (room : ℕ) (message : List Char) (ns : NetworkStat) : Option NetworkStat :=
  (List.range (getNumberOfNodesForABundle message)).foldlM (fun ns i =>
    (getNodeFromStat message (i + 1)).bind fun node =>
      (getNodeIdFromStat room node).bind fun nodeId =>
        (getNodeLm node).map fun lm => ns.addNode nodeId lm) ns

def addMessage (room : ℕ) (message messageId : List Char) (ns : NetworkStat) :
    Option NetworkStat :=
  (getBundleTtl message).bind fun bundleTtl =>
    let dm :=
      match ns.messagesMatrix.find messageId with
      | some dm => { dm with ttl := bundleTtl }
      | none => ⟨messageId, bundleTtl, OrdMap.empty⟩
    (receiveTimes room message ns).bind fun ns =>
      (receiveNodes room ns.axeLength message dm).map fun dm => ns.putMessage dm messageId

def updateMessage (room : ℕ) (message messageId : List Char) (dm : Message) (ns : NetworkStat) :
    Option NetworkStat :=
  (getBundleTtl message).bind fun ttl =>
    (receiveNodes room ns.axeLength message { dm with ttl := ttl }).map fun dm =>
      ns.putMessage dm messageId

/-- The received message applied to the matrix. -/
def updateMessageI (room : ℕ) (receivedMessage : List Char) (ns : NetworkStat) :
    Option NetworkStat :=
  (getBundleId receivedMessage).bind fun id =>
    if id = [] then some ns
    else
      match ns.messagesMatrix.find id with
      | none => ns.addMessage room receivedMessage id
      | some dm => ns.updateMessage room receivedMessage id dm

def updateNetworkStat (room : ℕ) (recv : List Char) (ns : NetworkStat) : Option NetworkStat :=
  if recv = [] then some ns
  else
    (getNumberOfMessagesFromStat recv).bind fun nm =>
      (List.range nm).foldlM (fun (ns : NetworkStat) i =>
        (getMessageIFromStat recv (i + 1)).bind fun message => ns.updateMessageI room message) ns

end NetworkStat

open Str

namespace NetworkStat

/-- The nodes of a message with their versions. -/
abbrev NodeVersionList := List (List Char × ℤ)

/-- `node@version`. -/
def versionText (nodeId : List Char) (n : StatNode) : List Char :=
  nodeId ++ '@' :: showInt n.statVersion

def getVersionBasedDescription (ns : NetworkStat) (m : Message) : Option (List Char) :=
  (describeMapNodes ns.axeLength versionText (fun _ => true) m).map fun d => m.bundleId ++ d

def getMessageNodesCouples (messageId : List Char) (ns : NetworkStat) : Option (List Char) :=
  match ns.messagesMatrix.find messageId with
  | some m => ns.getVersionBasedDescription m
  | none => some []

/-- The descriptions of the messages asked for, with `\` in front of all but the first
and of those that are empty. -/
def getMessagesIdsFrom (ns : NetworkStat) : Bool → List (List Char) → Option (List Char)
  | _, [] => some []
  | isBegin, id :: ids =>
    (ns.getMessageNodesCouples id).bind fun desc =>
      (ns.getMessagesIdsFrom false ids).map fun rest =>
        (if !isBegin ∧ 0 < desc.length then ['\\'] else []) ++ desc ++ rest

/-- `get_messages_ids_based_on_version_for_stat_request`; `ids` are the seen messages that
the loop does not pass over. -/
def getMessagesIdsBasedOnVersion (ns : NetworkStat) (ids : List (List Char)) :
    Option (List Char) :=
  (ns.getMessagesIdsFrom true ids).map fun msg => msg ++ ['#']

/-- One node of a request behind the versions already read for its message. -/
def pushVersion (msgId node : List Char) (map : OrdMap (List Char) NodeVersionList) :
    Option (OrdMap (List Char) NodeVersionList) :=
  (substr 0 (find '@' node) node).bind fun nodeId =>
    (substr (after (find '@' node)) none node).map fun version =>
      map.set msgId ((map.find msgId).getD [] ++ [(nodeId, atoi version)])

/-- One message of a request. -/
def pushVersions (msg : List Char) (map : OrdMap (List Char) NodeVersionList) :
    Option (OrdMap (List Char) NodeVersionList) :=
  (substr 0 (find '*' msg) msg).bind fun msgId =>
    (List.range (getNumberOfNodesForABundle msg)).foldlM (fun map j =>
      (getNodeFromStat msg (j + 1)).bind fun node => pushVersion msgId node map) map

def convertVersionsBasedStatToMap (stat : List Char) :
    Option (OrdMap (List Char) NodeVersionList) :=
  (getNumberOfMessagesFromStat stat).bind fun nbrMsg =>
    (List.range nbrMsg).foldlM (fun map i =>
      (getMessageIFromStat stat (i + 1)).bind fun msg => pushVersions msg map) OrdMap.empty

/-- A node that the request does not list, or lists with a smaller version. -/
def isSelected (versions : NodeVersionList) (e : List Char × StatNode) : Bool :=
  match versions.find? fun nv => nv.1 = e.1 with
  | some nv => e.2.statVersion > nv.2
  | none => true

def selectedNodes (versions : NodeVersionList) (m : Message) : List (List Char) :=
  (m.mapNodes.entries.filter (isSelected versions)).map Prod.fst

def getSubSetDescription (ns : NetworkStat) (nodesList : List (List Char)) (m : Message) :
    Option (List Char) :=
  if m.mapNodes.entries = [] then some []
  else (describeMapNodes ns.axeLength ns.nodeText (fun nodeId => nodeId ∈ nodesList) m).map
    fun d => m.bundleId ++ '+' :: (showFloat m.ttl ++ d)

/-- The answers to the messages of a request, with `\` between them. -/
def answerFrom (ns : NetworkStat) :
    Bool → List (List Char × NodeVersionList) → Option (List Char)
  | _, [] => some []
  | isBegin, (id, versions) :: mapIds =>
    match ns.messagesMatrix.find id with
    | none => ns.answerFrom isBegin mapIds
    | some m =>
      if selectedNodes versions m = [] then ns.answerFrom isBegin mapIds
      else (ns.getSubSetDescription (selectedNodes versions m) m).bind fun tmp =>
        if tmp = [] then ns.answerFrom isBegin mapIds
        else (ns.answerFrom false mapIds).map fun rest =>
          (if isBegin then [] else ['\\']) ++ tmp ++ rest

def getStatToSendBasedOnVersions (ns : NetworkStat) (ids : List Char) : Option (List Char) :=
  (convertVersionsBasedStatToMap ids).bind fun mapIds =>
    if ns.messagesMatrix.entries = [] then some []
    else (ns.answerFrom true mapIds.entries).map fun stat =>
      if stat = [] then [] else stat ++ ['#']

end NetworkStat

end Ns2
