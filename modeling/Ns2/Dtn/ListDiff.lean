import Ns2.Dtn.EpidemicLists

/-! The bundles that are asked for: for which lists the answer of `list_diff` is what is lacking, for any
buffer and any record of deliveries. -/

namespace Ns2

open Str List

namespace EpidemicRouting

/-- An offered bundle: the endpoint id of its source and its number. -/
structure Offer where
  source : List Char
  uId : ℤ
deriving DecidableEq

namespace Offer

def id (o : Offer) : List Char := o.source ++ 'r' :: showInt o.uId

end Offer

/-- Neither stored nor delivered here, nor known to be delivered where antipackets are on. -/
def Lacking (nd : Agent) (o : Offer) : Prop :=
  o.id ∉ nd.ids ∧ (o.source, o.uId) ∉ nd.bids ∧ ¬(nd.antiPacketMechanism = 1 ∧ o.id ∈ nd.dbMap)

instance (nd : Agent) : DecidablePred (Lacking nd) := fun _ =>
  inferInstanceAs (Decidable (_ ∧ _ ∧ _))

variable {offers : List Offer}

/-- The answer to a list. -/
theorem listDiff_eq (recv : List Char) (nd : Agent) : listDiff recv nd =
    if recv.length > 12 then none
    else some (if nd.bundleStoreList.length > 0 then bundlesIdList [] nd else []) := by
  rw [listDiff, numberOfBundles_eq]
  by_cases hlen : recv.length > 12
  · rw [if_pos hlen, if_pos hlen]
    rfl
  · rw [if_neg hlen, if_neg hlen]
    rfl

/-- The answer to a list is the list of those of its bundles that are lacking, in their order, if and only
if the list has at most 12 characters and the agent's own list is that list. -/
theorem listDiff_eq_lacking_iff (nd : Agent) (offers : List Offer) :
    listDiff (idsText (offers.map Offer.id)) nd =
        some (idsText ((offers.filter fun o => Lacking nd o).map Offer.id)) ↔
      (idsText (offers.map Offer.id)).length ≤ 12 ∧
        bundlesIdList [] nd = idsText ((offers.filter fun o => Lacking nd o).map Offer.id) := by
  rw [listDiff_eq, ← not_lt]
  by_cases hlen : 12 < (idsText (offers.map Offer.id)).length
  · rw [if_pos hlen]
    exact iff_of_false (fun hno => nomatch hno) fun hand => hand.1 hlen
  · have hoffer : (if nd.bundleStoreList.length > 0 then bundlesIdList [] nd else []) =
        bundlesIdList [] nd := by
      rw [bundlesIdList]
      split_ifs <;> rfl
    rw [if_neg hlen, hoffer, and_iff_right hlen]
    exact Option.some_inj

/-- The bundle 17 of the agent `n3`, whose source is without an `r`. -/
def offerOfThree : Offer := ⟨['R', 'E', 'G', 'I', 'O', 'N', '1', ',', 'n', '3', ':', '0'], 17⟩

/-- An agent with a bundle of `n3` in its buffer. -/
def holder : Agent where
  region := ['R']
  name := ['n', '2']
  rule := 0
  activateRouting := 1
  antiPacketMechanism := 1
  schedulingType := 0
  maxBundlesInLocalBuffer := 5
  neighbors := []
  bids := []
  dbMap := []
  bundleStoreList := [⟨offerOfThree.id, ⟨offerOfThree.source, [], [], 17⟩, 1⟩]

/-- The list of a bundle that is stored is not answered, and an empty list is answered with the bundle. -/
theorem not_listDiff_holder :
    listDiff (idsText [offerOfThree.id]) holder = none ∧
      ([offerOfThree].filter fun o => Lacking holder o) = [] ∧
      listDiff (idsText []) holder = some (idsText [offerOfThree.id]) := by
  decide +kernel

end EpidemicRouting

end Ns2
