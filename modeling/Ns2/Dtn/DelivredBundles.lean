import Mathlib.Data.List.Lex
import Ns2.Dtn.AntiPacket
import Ns2.Lib.OrdMap

/-! The list of delivered bundles, `Delivred_Bundles_List`, and its exchange in antipackets. -/

namespace Ns2

open Str List

namespace EpidemicRouting

structure DelivredBundle where
  delivredBundleId : List Char
deriving DecidableEq

/-- `Delivred_Bundles_List`; the counter is the size of the map. -/
structure DelivredBundlesList where
  dbMap : OrdMap (List Char) DelivredBundle
  numberOfDelivredBundles : ℕ
  updated : ℤ
  counted : numberOfDelivredBundles = dbMap.entries.length

namespace DelivredBundlesList

variable (l : DelivredBundlesList)

def empty : DelivredBundlesList := ⟨.empty, 0, 0, rfl⟩

/-- The set of delivered bundles. -/
def ids : List (List Char) := l.dbMap.entries.map Prod.fst

def isBundleDelivred (bid : List Char) : Bool := (l.dbMap.find bid).isSome

def addDelivredBundle (bid : List Char) : DelivredBundlesList :=
  if h : l.dbMap.find bid = none then
    { l with
      dbMap := l.dbMap.set bid ⟨bid⟩
      numberOfDelivredBundles := l.numberOfDelivredBundles + 1
      counted := by rw [OrdMap.length_set h, l.counted] }
  else l

def getDelivredBundlesList : List Char := if l.numberOfDelivredBundles > 0 then idsText l.ids else []

/-- `update_delivred_bundles_list` of `Delivred_Bundles_List`; `none` is a length error, a null pointer, a
read behind the text or a write behind an array. -/
def updateDelivredBundles (recv : List Char) : Option DelivredBundlesList :=
  (numberOfBundles recv).bind fun nr =>
    (if nr > 0 then (resized recv 1).bind fun cleared => delivredIds recv nr recv cleared []
      else some []).map fun ids =>
        if ids.length > 0 then
          { ids.foldl (fun l bid => if l.isBundleDelivred bid then l else l.addDelivredBundle bid) l with
            updated := 1 }
        else { l with updated := 0 }

/-- The payload of `send_antipacket_matrix`, if one is sent. -/
def sendAntipacketMatrix (antiPacketMechanism : ℤ) : Option (List Char) :=
  if antiPacketMechanism = 1 ∧ l.numberOfDelivredBundles > 0 then
    let list := l.getDelivredBundlesList ++ ['-']
    if list.length > minMessageLength then some list else none
  else none

/-- What `b` makes of the antipackets of `a` is the union, counted. -/
def Exchanges (a b : DelivredBundlesList) : Prop :=
  ∀ payload, a.sendAntipacketMatrix 1 = some payload → ∃ b', b.updateDelivredBundles payload = some b' ∧
    (∀ id, id ∈ b'.ids ↔ id ∈ a.ids ∨ id ∈ b.ids) ∧ b'.ids.Nodup ∧
      b'.numberOfDelivredBundles = b'.ids.length

theorem sendAntipacketMatrix_eq {l : DelivredBundlesList} (h : ∀ id ∈ l.ids, ListedId id) :
    l.sendAntipacketMatrix 1 = if l.ids = [] then none else some (idsText l.ids ++ ['-']) := by
  have hcount : l.numberOfDelivredBundles = l.ids.length := by rw [l.counted, ids, length_map]
  rw [sendAntipacketMatrix, getDelivredBundlesList, hcount]
  by_cases hnil : l.ids = []
  · rw [hnil]
    rfl
  · have hpos := length_pos_iff.2 hnil
    have hlen := le_length_idsText h
    rw [if_pos ⟨rfl, hpos⟩, if_pos hpos, if_neg hnil]
    rw [if_pos]
    rw [length_append, minMessageLength]
    omega

/-- What the receiver makes of the antipackets of a list is the union if and only if the list is empty, and
nothing is sent. -/
theorem exchanges_iff (a b : DelivredBundlesList) (ha : ∀ id ∈ a.ids, ListedId id) :
    a.Exchanges b ↔ a.ids = [] := by
  rw [Exchanges, sendAntipacketMatrix_eq ha]
  by_cases hnil : a.ids = []
  · rw [if_pos hnil]
    exact iff_of_true (fun _ hno => nomatch hno) hnil
  · rw [if_neg hnil]
    refine iff_of_false (fun h => ?_) hnil
    obtain ⟨b', hb', -⟩ := h _ rfl
    rw [updateDelivredBundles, numberOfBundles_idsText ha hnil] at hb'
    exact nomatch hb'

/-- A list of bundles of an agent. -/
def delivredOf (uIds : List Char) : DelivredBundlesList :=
  (uIds.map Node.uidOfThree).foldl addDelivredBundle empty

theorem listed_delivredOf : ∀ id ∈ (delivredOf ['2', '1']).ids, ListedId id := by
  have hform : ∀ id ∈ (delivredOf ['2', '1']).ids, id.head? = some 'R' ∧ 14 < id.length ∧ '-' ∉ id := by
    decide +kernel
  exact fun id hid => ⟨(hform id hid).1, (hform id hid).2.1, (hform id hid).2.2⟩

theorem exchanges_iff_delivredOf : (delivredOf ['2', '1']).Exchanges (delivredOf ['2', '3']) ↔
    (delivredOf ['2', '1']).ids = [] :=
  exchanges_iff _ _ listed_delivredOf

/-- An antipacket of two bundles. -/
theorem not_exchanges :
    ¬∀ a b : DelivredBundlesList, (∀ id ∈ a.ids, ListedId id) → a.Exchanges b := by
  intro h
  have hsent : (delivredOf ['2', '1']).sendAntipacketMatrix 1 =
      some (Node.uidOfThree '1' ++ '-' :: (Node.uidOfThree '2' ++ ['-', '-'])) := by decide +kernel
  have hread : (delivredOf ['2', '3']).updateDelivredBundles
      (Node.uidOfThree '1' ++ '-' :: (Node.uidOfThree '2' ++ ['-', '-'])) = none := by
    rw [updateDelivredBundles, numberOfBundles_eq, if_pos (by decide)]
    rfl
  obtain ⟨b', hb', -⟩ := h _ (delivredOf ['2', '3']) listed_delivredOf _ hsent
  exact nomatch hread.symm.trans hb'

end DelivredBundlesList

end EpidemicRouting

end Ns2
