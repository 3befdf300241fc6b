import Ns2.LinkState.LsRouting

/-! What `LsTopoMap::update` does with lists of the same links, and what a message for several peers leaves
behind. -/

namespace Ns2.LinkState

open List

section Update

/-- A link with the new status and cost. -/
def mergeLink (own : Bool) (new old : LsRecord) : LsRecord :=
  { old with
    status := new.status
    cost := new.cost
    sequenceNumber := if own then old.sequenceNumber else new.sequenceNumber }

variable {own : Bool} {new old : LsRecord} {pre l news olds : List LsRecord} {db : LsDatabase} {me o : ℤ}

theorem updateLink_append (hpre : ∀ r ∈ pre, r.neighborId ≠ new.neighborId)
    (heq : new.neighborId = old.neighborId) : updateLink own new (pre ++ old :: l) =
      (pre ++ mergeLink own new old :: l, new.status ≠ old.status || new.cost ≠ old.cost) := by
  induction pre with
  | nil =>
    rw [nil_append, updateLink, if_pos heq]
    rfl
  | cons r pre ih =>
    rw [cons_append, updateLink, if_neg (hpre r mem_cons_self).symm,
      ih fun r hr => hpre r (mem_cons_of_mem _ hr)]
    rfl

theorem foldl_updateLink (own : Bool) (pre : List LsRecord) (changed : Bool)
    (hnbr : news.map (fun r => r.neighborId) = olds.map fun r => r.neighborId)
    (hnodup : ((pre ++ olds).map fun r => r.neighborId).Nodup) :
    ∃ changed', news.foldl (fun r new =>
        let u := updateLink own new r.1
        (u.1, r.2 || u.2)) (pre ++ olds, changed) =
      (pre ++ zipWith (mergeLink own) news olds, changed') ∧
        (changed' = false → changed = false ∧
          Forall₂ (fun new old => new.status = old.status ∧ new.cost = old.cost) news olds) := by
  induction news generalizing pre olds changed with
  | nil =>
    have holds : olds = [] := by simpa using hnbr.symm
    rw [holds]
    exact ⟨changed, rfl, fun hc => ⟨hc, Forall₂.nil⟩⟩
  | cons new news ih =>
    cases olds with
    | nil => simp at hnbr
    | cons old olds =>
      obtain ⟨heq, hnbr⟩ := List.cons.inj hnbr
      have hpre : ∀ r ∈ pre, r.neighborId ≠ new.neighborId := by
        intro r hr hrn
        rw [map_append, nodup_append] at hnodup
        exact hnodup.2.2 _ (mem_map_of_mem hr) _ (mem_map_of_mem mem_cons_self)
          (hrn.trans heq)
      have hnodup' : (((pre ++ [mergeLink own new old]) ++ olds).map fun r => r.neighborId).Nodup := by
        rw [append_assoc, map_append] at *
        exact hnodup
      obtain ⟨changed', hfold, hall⟩ := ih (pre ++ [mergeLink own new old])
        (changed || (new.status ≠ old.status || new.cost ≠ old.cost)) hnbr hnodup'
      refine ⟨changed', ?_, fun hc => ?_⟩
      · rw [foldl_cons, updateLink_append hpre heq]
        simpa using hfold
      · obtain ⟨hor, hrest⟩ := hall hc
        obtain ⟨hch, hdiff⟩ := Bool.or_eq_false_iff.1 hor
        refine ⟨hch, Forall₂.cons ?_ hrest⟩
        simpa using hdiff

theorem zipWith_mergeLink_false (hnbr : news.map (fun r => r.neighborId) = olds.map fun r => r.neighborId) :
    zipWith (mergeLink false) news olds = news := by
  induction news generalizing olds with
  | nil => rfl
  | cons new news ih =>
    cases olds with
    | nil => simp at hnbr
    | cons old olds =>
      obtain ⟨heq, hnbr⟩ := List.cons.inj hnbr
      have heq' : new.neighborId = old.neighborId := heq
      rw [zipWith_cons_cons, ih hnbr, mergeLink, ← heq']
      rfl

theorem zipWith_mergeLink_true (hnbr : news.map (fun r => r.neighborId) = olds.map fun r => r.neighborId) :
    (zipWith (mergeLink true) news olds).map LsRecord.toLsLinkState =
        news.map LsRecord.toLsLinkState ∧
      headSeq (zipWith (mergeLink true) news olds) = headSeq olds := by
  induction news generalizing olds with
  | nil =>
    have holds : olds = [] := by simpa using hnbr.symm
    rw [holds]
    exact ⟨rfl, rfl⟩
  | cons new news ih =>
    cases olds with
    | nil => simp at hnbr
    | cons old olds =>
      obtain ⟨heq, hnbr⟩ := List.cons.inj hnbr
      have heq' : new.neighborId = old.neighborId := heq
      refine ⟨?_, rfl⟩
      rw [zipWith_cons_cons, map_cons, (ih hnbr).1, map_cons]
      congr 1
      rw [mergeLink, ← heq']

theorem zipWith_mergeLink_of_same
    (h : Forall₂ (fun new old => new.status = old.status ∧ new.cost = old.cost) news olds) :
    zipWith (mergeLink true) news olds = olds := by
  induction h with
  | nil => rfl
  | cons hd _ ih => rw [zipWith_cons_cons, ih, mergeLink, hd.1, hd.2]; rfl

/-- An update of another node's links, of which there are the same ones, replaces them. -/
theorem update_other (ho : o ≠ me)
    (hnodup : (l.map fun r => r.neighborId).Nodup)
    (hold : ∀ old, db.find o = some old → l.map (fun r => r.neighborId) = old.map fun r => r.neighborId) :
    (LsDatabase.update me o l db).1 = db.set o l := by
  rw [LsDatabase.update]
  cases hf : db.find o with
  | none => rfl
  | some old =>
    obtain ⟨changed', hfold, -⟩ := foldl_updateLink false [] false
      (hold old hf) (by rw [nil_append, ← hold old hf]; exact hnodup)
    rw [nil_append, nil_append, zipWith_mergeLink_false (hold old hf)] at hfold
    dsimp only
    rw [decide_eq_false ho, hfold]

theorem update_own (hf : db.find me = some olds)
    (hnbr : news.map (fun r => r.neighborId) = olds.map fun r => r.neighborId)
    (hnodup : (olds.map fun r => r.neighborId).Nodup) :
    ∃ changed merged, LsDatabase.update me me news db = (db.set me merged, changed) ∧
      merged.map LsRecord.toLsLinkState = news.map LsRecord.toLsLinkState ∧
        headSeq merged = headSeq olds ∧ (changed = false → merged = olds) := by
  obtain ⟨changed, hfold, hall⟩ := foldl_updateLink true [] false hnbr
    (by rw [nil_append]; exact hnodup)
  rw [nil_append, nil_append] at hfold
  obtain ⟨hmap, hseq⟩ := zipWith_mergeLink_true hnbr
  refine ⟨changed, _, ?_, hmap, hseq, fun hc => zipWith_mergeLink_of_same (hall hc).2⟩
  rw [LsDatabase.update, hf]
  dsimp only
  rw [decide_eq_true rfl, hfold]

end Update

end Ns2.LinkState
