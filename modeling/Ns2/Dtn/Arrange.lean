import Ns2.Dtn.EpidemicLists
import Ns2.Lib.ExchangeSort

/-! The scheduling of the bundles by their metrics: for which tables its result is sorted. -/

namespace Ns2

namespace EpidemicRouting

/-- The metrics of a bundle. -/
structure Metrics where
  deliveryRateReferenceMetric : Agent → RoutedBundle → ℚ
  deliveryDelayReferenceMetric : Agent → RoutedBundle → ℚ
  deliveryRateHistoryBasedMetric : Agent → RoutedBundle → ℚ
  deliveryDelayHistoryBasedMetric : Agent → RoutedBundle → ℚ
  deliveryRateFloodingBasedMetric : Agent → RoutedBundle → ℚ
  deliveryDelayFloodingBasedMetric : Agent → RoutedBundle → ℚ

/-- The metric of the stored bundle with an id. -/
def metricOf (metric : Agent → RoutedBundle → ℚ) (nd : Agent) (id : List Char) : Option ℚ :=
  (existId id (-1) nd).map fun s => metric nd s.b

/-- The metric of an id that is in the store. -/
def valueOf (metric : Agent → RoutedBundle → ℚ) (nd : Agent) (id : List Char) : ℚ :=
  (metricOf metric nd id).getD 0

def arrangeAccordingTo (metric : Agent → RoutedBundle → ℚ) (nd : Agent) (bundlesTable : List (List Char))
    (tableLength : ℕ) : Option (List (List Char)) :=
  arrangeBundlesToSend (metricOf metric nd) bundlesTable tableLength

namespace Metrics

variable (m : Metrics)

def arrangeAccordingToReferenceDeliveryMetric :=
  arrangeAccordingTo m.deliveryRateReferenceMetric

def arrangeAccordingToReferenceDelayMetric :=
  arrangeAccordingTo m.deliveryDelayReferenceMetric

def arrangeAccordingToHistoryBasedDeliveryMetric :=
  arrangeAccordingTo m.deliveryRateHistoryBasedMetric

def arrangeAccordingToHistoryBasedDelayMetric :=
  arrangeAccordingTo m.deliveryDelayHistoryBasedMetric

def arrangeAccordingToFloodingBasedDeliveryMetric :=
  arrangeAccordingTo m.deliveryRateFloodingBasedMetric

def arrangeAccordingToFloodingBasedDelayMetric :=
  arrangeAccordingTo m.deliveryDelayFloodingBasedMetric

/-- The procedures with the metrics they are for. -/
def procedures : List ((Agent → List (List Char) → ℕ → Option (List (List Char))) ×
    (Agent → RoutedBundle → ℚ)) :=
  [(m.arrangeAccordingToReferenceDeliveryMetric, m.deliveryRateReferenceMetric),
    (m.arrangeAccordingToReferenceDelayMetric, m.deliveryDelayReferenceMetric),
    (m.arrangeAccordingToHistoryBasedDeliveryMetric, m.deliveryRateHistoryBasedMetric),
    (m.arrangeAccordingToHistoryBasedDelayMetric, m.deliveryDelayHistoryBasedMetric),
    (m.arrangeAccordingToFloodingBasedDeliveryMetric, m.deliveryRateFloodingBasedMetric),
    (m.arrangeAccordingToFloodingBasedDelayMetric, m.deliveryDelayFloodingBasedMetric)]

theorem procedures_eq {a : (Agent → List (List Char) → ℕ → Option (List (List Char))) ×
    (Agent → RoutedBundle → ℚ)} (h : a ∈ m.procedures) : a.1 = arrangeAccordingTo a.2 := by
  simp only [procedures, List.mem_cons, List.not_mem_nil, or_false] at h
  rcases h with rfl | rfl | rfl | rfl | rfl | rfl <;> rfl

end Metrics

section

variable {metric : List Char → Option ℚ} {f : List Char → ℚ}

theorem arrangeRow_eq (m : ℚ) (x : List Char) {table : List (List Char)}
    (h : ∀ y ∈ table, metric y = some (f y)) : arrangeRow metric m x table = exchangePass f m x table := by
  induction table generalizing x with
  | nil => rfl
  | cons y table ih =>
    obtain ⟨hy, h⟩ := List.forall_mem_cons.1 h
    rw [arrangeRow, exchangePass, hy, ih y h, ih x h]
    simp only [Option.any_some, gt_iff_lt, decide_eq_true_eq]

theorem arrange_eq (n : ℕ) {table : List (List Char)} (h : ∀ y ∈ table, metric y = some (f y)) :
    arrange metric n table = exchangeSort f n table := by
  induction n generalizing table with
  | zero => rfl
  | succ n ih =>
    cases table with
    | nil => rfl
    | cons x table =>
      obtain ⟨hx, ht⟩ := List.forall_mem_cons.1 h
      rw [arrange, exchangeSort, hx]
      dsimp only
      rw [arrangeRow_eq (f x) x ht, ih fun y hy => ?_]
      exact h y ((exchangePass_perm (f x) x table).mem_iff.1 (List.mem_cons_of_mem _ hy))

end

/-- Each procedure permutes a table of stored ids, and the metrics of the result do not rise if and only if
in the table each entry fits those before it. -/
theorem arrange_sorted_iff (m : Metrics) {nd : Agent} {bundlesTable : List (List Char)}
    (h : ∀ id ∈ bundlesTable, id ∈ nd.ids) : ∀ a ∈ m.procedures, ∃ arranged,
      a.1 nd bundlesTable bundlesTable.length = some arranged ∧ arranged.Perm bundlesTable ∧
        ((arranged.Pairwise fun x y => valueOf a.2 nd y ≤ valueOf a.2 nd x) ↔
          Exchangeable (valueOf a.2 nd) bundlesTable) := by
  intro a ha
  have hmetric : ∀ id ∈ bundlesTable, metricOf a.2 nd id = some (valueOf a.2 nd id) := by
    intro id hid
    cases hs : existId id (-1) nd with
    | none => exact absurd (h id hid) (existId_eq_none.1 hs)
    | some s => rw [valueOf, metricOf, hs, Option.map_some, Option.getD_some]
  refine ⟨exchangeSort (valueOf a.2 nd) bundlesTable.length bundlesTable, ?_, exchangeSort_perm _ _,
    pairwise_exchangeSort_iff bundlesTable⟩
  rw [m.procedures_eq ha, arrangeAccordingTo, arrangeBundlesToSend, if_neg (Nat.lt_irrefl _),
    List.take_length, List.drop_length, List.append_nil, arrange_eq _ hmetric]

/-- The number of the bundle for every metric. -/
def uIdMetrics : Metrics :=
  let metric : Agent → RoutedBundle → ℚ := fun _ b => b.uId
  ⟨metric, metric, metric, metric, metric, metric⟩

/-- An agent that stores the bundles 1, 3 and 2. -/
def threeBundles : Agent where
  region := ['R']
  name := ['n']
  rule := 0
  activateRouting := 1
  antiPacketMechanism := 0
  schedulingType := 1
  maxBundlesInLocalBuffer := 5
  neighbors := []
  bids := []
  dbMap := []
  bundleStoreList := [⟨['1'], ⟨[], [], [], 1⟩, 1⟩, ⟨['3'], ⟨[], [], [], 3⟩, 1⟩, ⟨['2'], ⟨[], [], [], 2⟩, 1⟩]

theorem arrange_sorted_iff_threeBundles :
    (∀ id ∈ [['2'], ['1'], ['3']], id ∈ threeBundles.ids) ∧ ∀ a ∈ uIdMetrics.procedures, ∃ arranged,
      a.1 threeBundles [['2'], ['1'], ['3']] 3 = some arranged ∧
        arranged.Perm [['2'], ['1'], ['3']] ∧
        ((arranged.Pairwise fun x y => valueOf a.2 threeBundles y ≤ valueOf a.2 threeBundles x) ↔
          Exchangeable (valueOf a.2 threeBundles) [['2'], ['1'], ['3']]) := by
  have h : ∀ id ∈ [['2'], ['1'], ['3']], id ∈ threeBundles.ids := by decide
  exact ⟨h, arrange_sorted_iff uIdMetrics h⟩

/-- The first pass brings 3 and then 2 to the front, since both are over 1. -/
theorem not_sorted_threeBundles :
    (∀ id ∈ [['1'], ['3'], ['2']], id ∈ threeBundles.ids) ∧ ∀ a ∈ uIdMetrics.procedures,
      a.1 threeBundles [['1'], ['3'], ['2']] 3 = some [['2'], ['3'], ['1']] ∧
        ¬[['2'], ['3'], ['1']].Pairwise fun x y =>
          valueOf a.2 threeBundles y ≤ valueOf a.2 threeBundles x := by
  refine ⟨by decide, fun a ha => ?_⟩
  simp only [Metrics.procedures, List.mem_cons, List.not_mem_nil, or_false] at ha
  rcases ha with rfl | rfl | rfl | rfl | rfl | rfl <;> exact ⟨by decide +kernel, by decide +kernel⟩

end EpidemicRouting

end Ns2
