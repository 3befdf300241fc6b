import Ns2.LinkState.LsRouting

/-! What the flooding is for, in the states in which nothing is under way. -/

namespace Ns2.LinkState

/-- The nodes of a network with their peers and their links to them. -/
structure Topology where
  ids : List ℤ
  peers : ℤ → List ℤ
  links : ℤ → List LsLinkState
  nodup : ∀ a ∈ ids, ((links a).map LsLinkState.neighborId).Nodup
  mem_peers : ∀ a ∈ ids, ∀ b, b ∈ peers a ↔ b ∈ (links a).map LsLinkState.neighborId
  symm : ∀ a ∈ ids, ∀ b ∈ peers a, b ∈ ids ∧ a ∈ peers b
  irrefl : ∀ a ∈ ids, a ∉ peers a

namespace Topology

/-- The network at the start. -/
def network (T : Topology) : LsNetwork where
  node a := if a ∈ T.ids then .init a (T.peers a) (T.links a) else .init a [] []
  currentLsaId := 1
  flight := []

end Topology

namespace LsNetwork

/-- The record of an origin in the database of a node. -/
def record (net : LsNetwork) (a o : ℤ) : List LsRecord :=
  ((net.node a).linkStateDatabase.find o).getD []

/-- No message is in flight or buffered, none is to be acknowledged, and every node with peers has sent
its first update. -/
def Quiescent (net : LsNetwork) (ids : List ℤ) : Prop :=
  net.flight = [] ∧ ∀ a ∈ ids, (net.node a).messageBuffer = [] ∧
    (∀ e ∈ (net.node a).ackManager.entries, e.2.isEmpty) ∧
    ((net.node a).peerIdList ≠ [] → headSeq (net.record a a) ≠ lsInvalidMessageId)

/-- The link from `a` to `b` is up. -/
def Up (net : LsNetwork) (a b : ℤ) : Prop := (net.node a).isUp b = true

/-- The links that are up connect the nodes. -/
def Connected (net : LsNetwork) (ids : List ℤ) : Prop :=
  ∀ a ∈ ids, ∀ b ∈ ids, Relation.ReflTransGen net.Up a b

/-- Every database holds the statuses and costs of every origin's own link states. -/
def Converged (net : LsNetwork) (ids : List ℤ) : Prop :=
  ∀ a ∈ ids, ∀ o ∈ ids, (net.record a o).map LsRecord.toLsLinkState = (net.node o).linkStateList

/-- The peers of `a` other than the sender of a record and its origin to which the link is up: those that
the record is to be passed on to. -/
def remaining (net : LsNetwork) (a sender origin : ℤ) : List ℤ :=
  (net.node a).peerIdList.filter fun p => p ≠ origin && p ≠ sender && (net.node a).isUp p

/-- An LSA that counts as new is not older than the record in the database, and a record of a topology
message that counts as newer is not older either and not to be passed on. -/
def Benign (net : LsNetwork) : LsEvent → Prop
  | .deliver k => ∀ p ∈ net.flight[k]?,
    match p.msg.type with
    | .lsa => p.msg.originNodeId ≠ p.dst → (net.node p.dst).lsaHistory.isNewMessage p.msg →
      headSeq (net.record p.dst p.msg.originNodeId) ≤ p.msg.sequenceNumber
    | .tpm => (net.node p.dst).tpmHistory.isNewMessage p.msg →
      ∀ e ∈ (net.node p.msg.originNodeId).linkStateDatabase.entries, e.1 ≠ p.dst →
        LsAct.outdated ((net.node p.dst).linkStateDatabase.find e.1) e.2 →
          headSeq (net.record p.dst e.1) ≤ headSeq e.2 ∧ net.remaining p.dst p.src e.1 = []
    | _ => True
  | _ => True

instance (ids : List ℤ) (net : LsNetwork) : Decidable (net.Quiescent ids) :=
  inferInstanceAs (Decidable (_ ∧ ∀ a ∈ ids, _))

instance (ids : List ℤ) (net : LsNetwork) : Decidable (net.Converged ids) :=
  inferInstanceAs (Decidable (∀ a ∈ ids, ∀ o ∈ ids, _))

instance (net : LsNetwork) : ∀ e, Decidable (net.Benign e)
  | .deliver k =>
    @Option.decidableForallMem _ _ (fun p => by cases p.msg.type <;> infer_instance) _
  | .intfChanged _ _ | .sendUpdates _ | .sendBufferedMessages _ | .lose _ | .resendMessages _ _ =>
    isTrue trivial

end LsNetwork

end Ns2.LinkState
