import Ns2.Dtn.Stat

/-! Merging reports about a node. A newer report replaces the version, the bitmap and the
start index, but its `miBitMap` is written over the old one, which is never cleared: the
order of the reports shows unless all of them start behind the newest. -/

namespace Ns2

open List

/-- What is kept about a node besides the times. -/
structure Record where
  statVersion : ℤ
  bitMap : ℤ → ℤ
  miStartIndex : ℤ
  miBitMap : ℤ → ℤ

def StatNode.record (n : StatNode) : Record :=
  ⟨n.statVersion, n.bitMap, n.miStartIndex, n.miBitMap⟩

namespace Report

variable {axeLength : ℕ} {r : Report} {n : StatNode}

/-- The bins whose `mi` bit the report sets. -/
def Ones (axeLength : ℕ) (r : Report) (i : ℤ) : Prop :=
  r.miStartIndex ≠ -1 ∧ r.miStartIndex ≤ i ∧ i < axeLength

instance : DecidablePred (r.Ones axeLength) := fun _ => inferInstanceAs (Decidable (_ ∧ _ ∧ _))

theorem record_update (axeLength : ℕ) (r : Report) (n : StatNode) :
    (r.update axeLength n).record =
      ⟨r.statVersion, fun i => if 0 ≤ i ∧ i < axeLength then r.bitMap i else n.bitMap i,
        r.miStartIndex, fun i => if r.Ones axeLength i then 1 else n.miBitMap i⟩ := by
  by_cases h : r.miStartIndex = -1
  · simp [update, StatNode.updateMiBitMap, StatNode.updateBitMap, StatNode.record, Ones, h]
  · simp [update, StatNode.updateMiBitMap, StatNode.updateBitMap, StatNode.record, Ones, h]

theorem create_eq_update (axeLength : ℕ) (r : Report) :
    r.create axeLength = r.update axeLength (StatNode.new r.lm) := rfl

theorem record_create (axeLength : ℕ) (r : Report) : (r.create axeLength).record =
    ⟨r.statVersion, fun i => if 0 ≤ i ∧ i < axeLength then r.bitMap i else 0,
      r.miStartIndex, fun i => if r.Ones axeLength i then 1 else 0⟩ := by
  rw [create_eq_update, record_update]
  rfl

/-- The record of the node after the report. -/
def receive (axeLength : ℕ) (r : Report) : Option StatNode → StatNode
  | none => r.create axeLength
  | some n => if n.statVersion ≤ r.statVersion then r.update axeLength n else n

/-- Nothing is ever taken back: versions grow, bits stay set, and what lies behind the
axis stays. -/
theorem receive_mono (axeLength : ℕ) (r : Report) (n : StatNode) :
    n.statVersion ≤ (r.receive axeLength (some n)).statVersion ∧
    (∀ i : ℤ, n.miBitMap i ≠ 0 → (r.receive axeLength (some n)).miBitMap i ≠ 0) ∧
    ∀ i : ℤ, ¬ (0 ≤ i ∧ i < axeLength) →
      (r.receive axeLength (some n)).bitMap i = n.bitMap i := by
  rw [receive]
  split_ifs with hle
  · have hrec := record_update axeLength r n
    have hversion : (r.update axeLength n).statVersion = r.statVersion :=
      congrArg Record.statVersion hrec
    refine ⟨hversion ▸ hle, fun i hi => ?_, fun i hi => ?_⟩
    · have hmi := congrFun (congrArg Record.miBitMap hrec) i
      change (r.update axeLength n).miBitMap i = _ at hmi
      rw [hmi]
      dsimp only
      split_ifs
      · decide
      · exact hi
    · have hbit := congrFun (congrArg Record.bitMap hrec) i
      change (r.update axeLength n).bitMap i = _ at hbit
      rw [hbit]
      exact if_neg hi
  · exact ⟨le_rfl, fun i hi => hi, fun i _ => rfl⟩

end Report

namespace Message

variable {axeLength : ℕ} {nodeId : List Char}
variable {m : Message} {rs : List Report}

theorem addNode_eq (nodeId : List Char) {r : Report} (h : r.statVersion ≤ axeLength)
    (m : Message) :
    ∃ m', m.addNode axeLength nodeId r = some m' ∧ m'.bundleId = m.bundleId ∧ m'.ttl = m.ttl ∧
      m'.mapNodes.find nodeId = some (r.receive axeLength (m.mapNodes.find nodeId)) ∧
      ∀ k, k ≠ nodeId → m'.mapNodes.find k = m.mapNodes.find k := by
  rw [addNode, if_neg (not_lt.2 h : ¬ r.statVersion > axeLength)]
  cases hn : m.mapNodes.find nodeId with
  | none =>
    exact ⟨_, rfl, rfl, rfl, OrdMap.find_set_self .., fun k hk => OrdMap.find_set_of_ne hk ..⟩
  | some n =>
    dsimp only [Report.receive]
    split_ifs
    · exact ⟨_, rfl, rfl, rfl, OrdMap.find_set_self .., fun k hk => OrdMap.find_set_of_ne hk ..⟩
    · exact ⟨m, rfl, rfl, rfl, hn, fun _ _ => rfl⟩

theorem addNode_of_older {r : Report} (h : r.statVersion ≤ axeLength) {n : StatNode}
    (hn : m.mapNodes.find nodeId = some n) (hlt : r.statVersion < n.statVersion) :
    m.addNode axeLength nodeId r = some m := by
  rw [addNode, if_neg (not_lt.2 h : ¬ r.statVersion > axeLength), hn]
  dsimp only
  rw [if_neg (not_le.2 hlt)]

/-- The message after reports about a node, one after the other. -/
def addNodes (axeLength : ℕ) (nodeId : List Char) : List Report → Message → Option Message
  | [], m => some m
  | r :: rs, m => (m.addNode axeLength nodeId r).bind (addNodes axeLength nodeId rs)

theorem addNodes_of_le (nodeId : List Char) (h : ∀ r ∈ rs, r.statVersion ≤ axeLength) (m : Message)
    :
    ∃ m', m.addNodes axeLength nodeId rs = some m' ∧ m'.mapNodes.find nodeId =
      rs.foldl (fun o r => some (r.receive axeLength o)) (m.mapNodes.find nodeId) := by
  induction rs generalizing m with
  | nil => exact ⟨m, rfl, rfl⟩
  | cons r rs ih =>
    obtain ⟨m₁, hm₁, -, -, hfind₁, -⟩ := m.addNode_eq nodeId (h r mem_cons_self)
    obtain ⟨m', hm', hfind'⟩ := ih (fun s hs => h s (mem_cons_of_mem _ hs)) m₁
    refine ⟨m', ?_, ?_⟩
    · rw [addNodes, hm₁, Option.bind_some, hm']
    · rw [hfind', hfind₁, foldl_cons]

theorem le_of_addNodes {m' : Message} (h : m.addNodes axeLength nodeId rs = some m') :
    ∀ r ∈ rs, r.statVersion ≤ axeLength := by
  induction rs generalizing m with
  | nil => exact fun r hr => nomatch hr
  | cons r rs ih =>
    obtain ⟨m₁, hm₁, hrest⟩ := Option.bind_eq_some_iff.1 h
    intro s hs
    rcases mem_cons.1 hs with rfl | hs
    · by_contra hlt
      rw [addNode, if_pos (not_le.1 hlt)] at hm₁
      cases hm₁
    · exact ih hrest s hs

end Message

/-- The record that the claim of order independence expects: that of the newest
report, unless the stored one is newer. -/
def newest (axeLength : ℕ) (best : Report) : Option StatNode → Record
  | some v => if best.statVersion < v.statVersion then v.record else (best.create axeLength).record
  | none => (best.create axeLength).record

/-- Whatever the order and the repetitions of the reports `S`, they leave the record of
the newest. -/
def OrderFree (axeLength : ℕ) (nodeId : List Char) (m : Message) (S : List Report)
    (best : Report) : Prop :=
  ∀ rs : List Report, (∀ r, r ∈ rs ↔ r ∈ S) → ∃ m', m.addNodes axeLength nodeId rs = some m' ∧
    (m'.mapNodes.find nodeId).map StatNode.record =
      some (newest axeLength best (m.mapNodes.find nodeId))

/-- The stored record has nothing that a report with the bits of `best` would not set. -/
structure Within (axeLength : ℕ) (best : Report) (v : StatNode) : Prop where
  mi : ∀ i : ℤ, ¬ best.Ones axeLength i → v.miBitMap i = 0
  bits : ∀ i : ℤ, ¬ (0 ≤ i ∧ i < axeLength) → v.bitMap i = 0

/-- The versions are valid, and the stored record is newer than all reports or neither it
nor any report that is not older sets a bit that the newest report does not set. -/
def Mergeable (axeLength : ℕ) (stored : Option StatNode) (S : List Report) (best : Report) : Prop :=
  (∀ r ∈ S, r.statVersion ≤ axeLength) ∧
    ((∃ v ∈ stored, best.statVersion < v.statVersion) ∨
      ((∀ v ∈ stored, Within axeLength best v) ∧
        ∀ r ∈ S, (∀ v ∈ stored, v.statVersion ≤ r.statVersion) →
          ∀ i, r.Ones axeLength i → best.Ones axeLength i))

section

variable {axeLength : ℕ} {S : List Report} {best : Report} {stored : Option StatNode}
variable {seen : Prop} {rs : List Report}

theorem newest_of_not_newer (h : ¬ ∃ v ∈ stored, best.statVersion < v.statVersion) :
    newest axeLength best stored = (best.create axeLength).record := by
  cases stored with
  | none => rfl
  | some v => exact if_neg fun hlt => h ⟨v, rfl, hlt⟩

/-- The record of the node while reports of `S` come in; `seen` says that `best` has. -/
structure Merging (axeLength : ℕ) (best : Report) (stored : Option StatNode) (seen : Prop)
    (n : StatNode) : Prop where
  le_best : n.statVersion ≤ best.statVersion
  stored_le : ∀ v ∈ stored, v.statVersion ≤ n.statVersion
  within : Within axeLength best n
  record : seen → n.record = (best.create axeLength).record

theorem Within.update {n : StatNode} (h : Within axeLength best n) {r : Report}
    (hones : ∀ i, r.Ones axeLength i → best.Ones axeLength i) :
    Within axeLength best (r.update axeLength n) := by
  have hrec := r.record_update axeLength n
  constructor
  · intro i hi
    have hmi := congrFun (congrArg Record.miBitMap hrec) i
    change (r.update axeLength n).miBitMap i = if r.Ones axeLength i then 1 else n.miBitMap i at hmi
    rw [hmi, if_neg (mt (hones i) hi), h.mi i hi]
  · intro i hi
    have hbit := congrFun (congrArg Record.bitMap hrec) i
    change (r.update axeLength n).bitMap i = if _ then _ else n.bitMap i at hbit
    rw [hbit, if_neg hi, h.bits i hi]

theorem Within.record_update_best {n : StatNode} (h : Within axeLength best n) :
    (best.update axeLength n).record = (best.create axeLength).record := by
  rw [Report.record_update, Report.record_create, Record.mk.injEq]
  refine ⟨rfl, funext fun i => ?_, rfl, funext fun i => ?_⟩
  · split_ifs with hi
    · rfl
    · exact h.bits i hi
  · split_ifs with hi
    · rfl
    · exact h.mi i hi

theorem within_new (axeLength : ℕ) (best : Report) (lm : ℚ) :
    Within axeLength best (StatNode.new lm) := ⟨fun _ _ => rfl, fun _ _ => rfl⟩

variable (hbest : ∀ r ∈ S, r.statVersion ≤ best.statVersion)
  (hdistinct : ∀ r ∈ S, r.statVersion = best.statVersion → r = best)
  (hones : ∀ r ∈ S, (∀ v ∈ stored, v.statVersion ≤ r.statVersion) →
    ∀ i, r.Ones axeLength i → best.Ones axeLength i)

include hbest hdistinct hones

theorem Merging.receive {n : StatNode} (h : Merging axeLength best stored seen n) {r : Report}
    (hr : r ∈ S) :
    Merging axeLength best stored (seen ∨ r = best) (r.receive axeLength (some n)) := by
  rw [Report.receive]
  split_ifs with hle
  · have hstored : ∀ v ∈ stored, v.statVersion ≤ r.statVersion :=
      fun v hv => (h.stored_le v hv).trans hle
    have hversion : (r.update axeLength n).statVersion = r.statVersion :=
      congrArg Record.statVersion (r.record_update axeLength n)
    refine ⟨hversion ▸ hbest r hr, hversion ▸ hstored, h.within.update (hones r hr hstored), ?_⟩
    have hlast : r = best → (r.update axeLength n).record = (best.create axeLength).record := by
      rintro rfl
      exact h.within.record_update_best
    rintro (hseen | heq)
    · apply hlast
      apply hdistinct r hr
      have hn : n.statVersion = best.statVersion := congrArg Record.statVersion (h.record hseen)
      exact le_antisymm (hbest r hr) (hn ▸ hle)
    · exact hlast heq
  · refine ⟨h.le_best, h.stored_le, h.within, ?_⟩
    rintro (hseen | rfl)
    · exact h.record hseen
    · exact absurd h.le_best hle

theorem Merging.foldl (hrs : ∀ r ∈ rs, r ∈ S) {n : StatNode}
    (h : Merging axeLength best stored seen n) :
    ∃ n', rs.foldl (fun o r => some (r.receive axeLength o)) (some n) = some n' ∧
      Merging axeLength best stored (seen ∨ best ∈ rs) n' := by
  induction rs generalizing n seen with
  | nil => exact ⟨n, rfl, by simpa using h⟩
  | cons r rs ih =>
    obtain ⟨n', hn', hm⟩ := ih (fun s hs => hrs s (mem_cons_of_mem _ hs))
      (h.receive hbest hdistinct hones (hrs r mem_cons_self))
    refine ⟨n', hn', ?_⟩
    rwa [mem_cons, ← or_assoc, eq_comm (a := best)]

theorem foldl_record (hnewer : ¬ ∃ v ∈ stored, best.statVersion < v.statVersion)
    (hwithin : ∀ v ∈ stored, Within axeLength best v) (hrs : ∀ r ∈ rs, r ∈ S) (hmem : best ∈ rs) :
    (rs.foldl (fun o r => some (r.receive axeLength o)) stored).map StatNode.record =
      some (best.create axeLength).record := by
  cases hstored : stored with
  | some v =>
    have hstart : Merging axeLength best stored False v := by
      refine ⟨not_lt.1 fun hlt => hnewer ⟨v, hstored, hlt⟩, fun w hw => ?_, hwithin v hstored,
        False.elim⟩
      obtain rfl := Option.some.inj (hw.symm.trans hstored)
      exact le_rfl
    obtain ⟨n', hn', hm⟩ := hstart.foldl hbest hdistinct hones hrs
    rw [hn', Option.map_some, hm.record (Or.inr hmem)]
  | none =>
    subst hstored
    cases rs with
    | nil => cases hmem
    | cons r rs =>
      have hr := hrs r mem_cons_self
      have hrec := r.record_create axeLength
      have hversion : (r.create axeLength).statVersion = r.statVersion :=
        congrArg Record.statVersion hrec
      have hstart : Merging axeLength best none (r = best) (r.create axeLength) := by
        refine ⟨hversion ▸ hbest r hr, (fun v hv => nomatch hv), ?_, fun h => h ▸ rfl⟩
        rw [Report.create_eq_update]
        exact (within_new axeLength best r.lm).update (hones r hr fun v hv => nomatch hv)
      obtain ⟨n', hn', hm⟩ := hstart.foldl hbest hdistinct hones
        fun s hs => hrs s (mem_cons_of_mem _ hs)
      have hseen : r = best ∨ best ∈ rs := by
        rcases mem_cons.1 hmem with h | h
        · exact Or.inl h.symm
        · exact Or.inr h
      change (rs.foldl _ (some (r.create axeLength))).map StatNode.record = _
      rw [hn', Option.map_some, hm.record hseen]

end

section

variable {axeLength : ℕ}

theorem foldl_older {rs : List Report} {v : StatNode}
    (h : ∀ r ∈ rs, r.statVersion < v.statVersion) :
    rs.foldl (fun o r => some (r.receive axeLength o)) (some v) = some v := by
  induction rs with
  | nil => rfl
  | cons r rs ih =>
    have hr : r.receive axeLength (some v) = v := if_neg (not_le.2 (h r mem_cons_self))
    rw [foldl_cons, hr, ih fun s hs => h s (mem_cons_of_mem _ hs)]

theorem foldl_mono (axeLength : ℕ) (rs : List Report) (n : StatNode) :
    ∃ n', rs.foldl (fun o r => some (r.receive axeLength o)) (some n) = some n' ∧
      (∀ i : ℤ, n.miBitMap i ≠ 0 → n'.miBitMap i ≠ 0) ∧
      ∀ i : ℤ, ¬ (0 ≤ i ∧ i < axeLength) → n'.bitMap i = n.bitMap i := by
  induction rs generalizing n with
  | nil => exact ⟨n, rfl, fun _ h => h, fun _ _ => rfl⟩
  | cons r rs ih =>
    obtain ⟨-, hmi, hbit⟩ := r.receive_mono axeLength n
    obtain ⟨n', hn', hmi', hbit'⟩ := ih (r.receive axeLength (some n))
    exact ⟨n', hn', fun i h => hmi' i (hmi i h), fun i h => (hbit' i h).trans (hbit i h)⟩

theorem miBitMap_receive {r : Report} {stored : Option StatNode}
    (h : ∀ v ∈ stored, v.statVersion ≤ r.statVersion) {i : ℤ} (hi : r.Ones axeLength i) :
    (r.receive axeLength stored).miBitMap i ≠ 0 := by
  have hupdate : ∀ n : StatNode, (r.update axeLength n).miBitMap i ≠ 0 := by
    intro n
    have hmi := congrFun (congrArg Record.miBitMap (r.record_update axeLength n)) i
    change (r.update axeLength n).miBitMap i = if r.Ones axeLength i then 1 else _ at hmi
    rw [hmi, if_pos hi]
    decide
  cases stored with
  | none => exact hupdate (StatNode.new r.lm)
  | some v =>
    rw [Report.receive, if_pos (h v rfl)]
    exact hupdate v

end

/-- Merging is independent of the order exactly when the reports may be merged; and a
report older than the record changes nothing. -/
theorem orderFree_iff {axeLength : ℕ} (nodeId : List Char) (m : Message) {S : List Report}
    {best : Report} (hmem : best ∈ S) (hbest : ∀ r ∈ S, r.statVersion ≤ best.statVersion)
    (hdistinct : ∀ r ∈ S, ∀ r' ∈ S, r.statVersion = r'.statVersion → r = r') :
    (OrderFree axeLength nodeId m S best ↔
      Mergeable axeLength (m.mapNodes.find nodeId) S best) ∧
    ∀ n, m.mapNodes.find nodeId = some n → ∀ r : Report, r.statVersion ≤ axeLength →
      r.statVersion < n.statVersion → m.addNode axeLength nodeId r = some m := by
  refine ⟨⟨fun h => ?_, ?_⟩, fun n hn r hr hlt => Message.addNode_of_older hr hn hlt⟩
  · obtain ⟨m₀, hm₀, -⟩ := h S fun r => Iff.rfl
    have hvalid := Message.le_of_addNodes hm₀
    -- the record after the reports, whatever their order
    have hfinal : ∀ rs : List Report, (∀ r, r ∈ rs ↔ r ∈ S) →
        (rs.foldl (fun o r => some (r.receive axeLength o)) (m.mapNodes.find nodeId)).map
          StatNode.record = some (newest axeLength best (m.mapNodes.find nodeId)) := by
      intro rs hrs
      obtain ⟨m₁, hm₁, hrec⟩ := h rs hrs
      obtain ⟨m₂, hm₂, hfind⟩ :=
        Message.addNodes_of_le nodeId (fun r hr => hvalid r ((hrs r).1 hr)) m
      obtain rfl := Option.some.inj (hm₁.symm.trans hm₂)
      rwa [hfind] at hrec
    refine ⟨hvalid, or_iff_not_imp_left.2 fun hnewer => ?_⟩
    have hmi : ∀ (n' : StatNode) (i : ℤ), some n'.record =
        some (newest axeLength best (m.mapNodes.find nodeId)) →
        n'.miBitMap i ≠ 0 → best.Ones axeLength i := by
      intro n' i hrec hne
      rw [newest_of_not_newer hnewer, Report.record_create] at hrec
      have := congrFun (congrArg Record.miBitMap (Option.some.inj hrec)) i
      by_contra hnot
      exact hne (this.trans (if_neg hnot))
    constructor
    · intro v hv
      have hv : m.mapNodes.find nodeId = some v := hv
      obtain ⟨n', hn', hone, hbit⟩ := foldl_mono axeLength S v
      have hrec := hfinal S fun r => Iff.rfl
      rw [hv, hn', Option.map_some, ← hv] at hrec
      constructor
      · intro i hi
        by_contra hne
        exact hi (hmi n' i hrec (hone i hne))
      · intro i hi
        rw [newest_of_not_newer hnewer, Report.record_create] at hrec
        have := congrFun (congrArg Record.bitMap (Option.some.inj hrec)) i
        change n'.bitMap i = if 0 ≤ i ∧ i < (axeLength : ℤ) then best.bitMap i else 0 at this
        rw [← hbit i hi, this, if_neg hi]
    · intro r hr hstored i hi
      -- `r` comes first
      have hrec := hfinal (r :: S) fun s => by
        rw [mem_cons]
        exact ⟨fun hs => hs.elim (fun heq => heq ▸ hr) id, Or.inr⟩
      obtain ⟨n', hn', hone, -⟩ := foldl_mono axeLength S
        (r.receive axeLength (m.mapNodes.find nodeId))
      rw [foldl_cons, hn', Option.map_some] at hrec
      exact hmi n' i hrec (hone i (miBitMap_receive hstored hi))
  · rintro ⟨hvalid, hrest⟩ rs hrs
    obtain ⟨m', hm', hfind⟩ :=
      Message.addNodes_of_le nodeId (fun r hr => hvalid r ((hrs r).1 hr)) m
    refine ⟨m', hm', ?_⟩
    rw [hfind]
    by_cases hnewer : ∃ v ∈ m.mapNodes.find nodeId, best.statVersion < v.statVersion
    · obtain ⟨v, hv, hlt⟩ := hnewer
      have hv : m.mapNodes.find nodeId = some v := hv
      rw [hv, foldl_older fun r hr => (hbest r ((hrs r).1 hr)).trans_lt hlt]
      simp only [Option.map_some, newest, if_pos hlt]
    · obtain ⟨hwithin, hones⟩ := hrest.resolve_left hnewer
      rw [newest_of_not_newer hnewer]
      exact foldl_record hbest (fun r hr heq => hdistinct r hr best hmem heq) hones hnewer hwithin
        (fun r hr => (hrs r).1 hr) ((hrs best).2 hmem)

/-- Reports of versions 1 and 2 about bits that start at their bins. -/
def oldReport : Report := ⟨fun _ => 0, 0, 1, 0⟩
def newReport : Report := ⟨fun _ => 0, 0, 2, 1⟩

/-- A message that no node is known to have seen. -/
def unseen : Message := ⟨['R'], 0, OrdMap.empty⟩

/-- An older report, whose bits the newer one sets too. -/
def lateReport : Report := ⟨fun _ => 0, 0, 1, 2⟩

/-- A message with the record that the older report leaves. -/
def heard : Message :=
  { unseen with mapNodes := unseen.mapNodes.set ['R', '1'] (lateReport.create 3) }

theorem orderFree_iff_new :
    OrderFree 3 ['R', '1'] heard [lateReport, newReport] newReport ∧
    heard.addNode 3 ['R', '1'] ⟨fun _ => 1, 0, 0, 0⟩ = some heard := by
  have hmem : ∀ r ∈ [lateReport, newReport], r = lateReport ∨ r = newReport := by
    simp
  obtain ⟨hiff, holder⟩ := orderFree_iff ['R', '1'] heard
    (mem_cons_of_mem lateReport (mem_singleton_self newReport))
    (fun r hr => by rcases hmem r hr with rfl | rfl <;> decide)
    fun r hr r' hr' heq => by
      rcases hmem r hr with rfl | rfl <;> rcases hmem r' hr' with rfl | rfl
      · rfl
      · cases heq
      · cases heq
      · rfl
  have hlate : ∀ i, lateReport.Ones 3 i → newReport.Ones 3 i := by
    rintro i ⟨-, hle, hlt⟩
    exact ⟨by decide, (by decide : (1 : ℤ) ≤ 2).trans hle, hlt⟩
  refine ⟨hiff.2 ⟨fun r hr => ?_, Or.inr ⟨fun v hv => ?_, fun r hr _ => ?_⟩⟩,
    holder _ rfl _ (by decide) (by decide)⟩
  · rcases hmem r hr with rfl | rfl <;> decide
  · have hv : v = lateReport.create 3 := (Option.some.inj hv).symm
    rw [hv, Report.create_eq_update]
    exact (within_new 3 newReport 0).update hlate
  · rcases hmem r hr with rfl | rfl
    · exact hlate
    · exact fun _ h => h

/-- The bit of bin 0 that the older report set stays when it comes first. -/
theorem not_orderFree : ¬ OrderFree 3 ['R', '1'] unseen [oldReport, newReport] newReport := by
  intro h
  obtain ⟨m', hm', hrec⟩ := h [oldReport, newReport] fun r => Iff.rfl
  obtain ⟨m₁, hm₁, hbit⟩ : ∃ m₁, unseen.addNodes 3 ['R', '1'] [oldReport, newReport] = some m₁ ∧
      (m₁.mapNodes.find ['R', '1']).map (fun n => n.record.miBitMap 0) = some 1 := ⟨_, rfl, rfl⟩
  obtain rfl := Option.some.inj (hm₁.symm.trans hm')
  have hzero := congrArg (Option.map fun r : Record => r.miBitMap 0) hrec
  rw [Option.map_map] at hzero
  have hone : (1 : ℤ) = 0 := Option.some.inj (hbit.symm.trans hzero)
  exact absurd hone (by decide)

end Ns2
