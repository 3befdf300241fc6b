import Ns2.Dtn.Fragment
import Ns2.Lib.Stable

/-! `Bundle::defragment`. Fragments wait in contexts, one for each source and
timestamp, in offset order, until a pass over them finds no gap. -/

namespace Ns2

open List

/-- A bundle of the `frags` list with its `next_frag_` chain. -/
structure Context where
  first : Bundle
  next : List Bundle
deriving DecidableEq

def Context.bundles (c : Context) : List Bundle := c.first :: c.next

theorem Context.bundles_ne_nil (c : Context) : c.bundles ≠ [] := cons_ne_nil _ _

namespace Bundle

/-- Stage 1: the contexts before the one of this bundle, that one, and those behind
it; `none` is an abort. -/
def findContext (b : Bundle) : List Context → Option (List Context × Option (Context × List Context))
  | [] => some ([], none)
  | c :: frags =>
    (c.first.getRecords c.first.prim.src).bind fun ceid =>
      (b.getRecords b.prim.src).bind fun beid =>
        if ceid = beid ∧ c.first.prim.timestamp = b.prim.timestamp then
          some ([], some (c, frags))
        else (findContext b frags).map fun r => (c :: r.1, r.2)

/-- Stage 2: the chain from `f` on with this bundle in its place, or nothing when the
same fragment is there; `none` is an abort. -/
def insertFrag (b f : Bundle) (next : List Bundle) : Option (Option Context) :=
  (lastFrag f.headers).bind fun curr =>
    (lastFrag b.headers).bind fun bundle =>
      if curr.2 = bundle.2 ∧ f.pyld.payload.length = b.pyld.payload.length then some none
      else if bundle.2 < curr.2 then some (some ⟨b, f :: next⟩)
      else
        match next with
        | [] => some (some ⟨f, [b]⟩)
        | g :: next => (insertFrag b g next).map fun r => r.map fun c => ⟨f, c.bundles⟩

/-- Stage 3: the offset up to which nothing is missing, from `co` on, or nothing at
the first gap; `none` is an abort. -/
def reach (co : UInt32) : List Bundle → Option (Option UInt32)
  | [] => some (some co)
  | f :: fs =>
    (lastFrag f.headers).bind fun curr =>
      let len := UInt32.ofNat f.pyld.payload.length
      if co < curr.2 then some none
      else if co = curr.2 then reach (co + len) fs
      else if curr.2 + len > co then reach (curr.2 + len) fs
      else reach co fs

/-- Stage 4: the payloads copied to their offsets; `none` is an abort or a copy out of
bounds. -/
def assemble : List Bundle → List UInt8 → Option (List UInt8)
  | [], data => some data
  | f :: fs, data =>
    (lastFrag f.headers).bind fun curr =>
      if curr.2.toNat + f.pyld.payload.length ≤ data.length then
        assemble fs (overwrite data curr.2.toNat f.pyld.payload)
      else none

/-- Stages 3 and 4: the bundle put together, or nothing while pieces are missing.
`fresh` is what the new payload buffer holds before the copies. -/
def rebuild (fresh : ℕ → UInt8) (c : Context) : Option (Option Bundle) :=
  (reach 0 c.bundles).bind fun r =>
    match r with
    | none => some none
    | some co =>
      let totLen := (c.bundles.getLast c.bundles_ne_nil).totLen
      if co ≠ totLen then some none
      else if 2 ^ 31 ≤ totLen.toNat then none
      else (assemble c.bundles ((range totLen.toNat).map fresh)).bind fun data =>
        if h : data.length < 2 ^ 31 then
          some (some { c.first with
            headers := c.first.headers.filter fun h => ¬ h.IsFrag
            pyld := ⟨c.first.pyld.pldclass, data, h⟩ })
        else none

/-- The `frags` list afterwards and the bundle returned; `none` is an abort. -/
def defragment (fresh : ℕ → UInt8) (b : Bundle) (frags : List Context) :
    Option (List Context × Option Bundle) :=
  (findContext b frags).bind fun r =>
    match r with
    | (before, none) => some (before ++ [⟨b, []⟩], none)
    | (before, some (curr, after)) =>
      (insertFrag b curr.first curr.next).bind fun r =>
        match r with
        | none => some (frags, none)
        | some curr => (rebuild fresh curr).map fun r =>
          match r with
          | none => (before ++ curr :: after, none)
          | some whole => (before ++ after, some whole)

/-- What tells fragments of different bundles apart: source endpoint and timestamp. -/
def ident (b : Bundle) : Option (List UInt8 × UInt64) :=
  (b.getRecords b.prim.src).map fun eid => (eid, b.prim.timestamp)

def span (b : Bundle) : ℕ × ℕ := (b.offset.toNat, b.pyld.payload.length)

/-- The fragment `b` of a bundle with payload `P`. -/
structure SliceOf (P : Pyld) (b : Bundle) : Prop where
  isFrag : lastFrag b.headers ≠ none
  totLen : b.totLen.toNat = P.payload.length
  slice : IsSlice P.payload b.offset.toNat b.pyld.payload

namespace SliceOf

variable {P : Pyld} {b : Bundle}

theorem lastFrag_eq (h : SliceOf P b) : lastFrag b.headers = some (b.totLen, b.offset) := by
  cases hl : lastFrag b.headers with
  | none => exact absurd hl h.isFrag
  | some f => simp [Bundle.totLen, Bundle.offset, hl]

theorem span_le (h : SliceOf P b) : b.span.1 + b.span.2 ≤ P.payload.length := h.slice.1

theorem toNat_ofNat_length (h : SliceOf P b) :
    (UInt32.ofNat b.pyld.payload.length).toNat = b.pyld.payload.length := by
  have := h.slice.1
  have := P.small
  rw [UInt32.toNat_ofNat']
  omega

theorem toNat_end (h : SliceOf P b) :
    (b.offset + UInt32.ofNat b.pyld.payload.length).toNat = b.span.1 + b.span.2 := by
  have := h.slice.1
  have := P.small
  rw [UInt32.toNat_add, h.toNat_ofNat_length]
  exact Nat.mod_eq_of_lt (by omega)

end SliceOf

variable {P : Pyld}

theorem reach_eq {fs : List Bundle} (h : ∀ f ∈ fs, SliceOf P f) (co : UInt32) :
    reach co fs = some ((scan co.toNat (fs.map span)).map UInt32.ofNat) := by
  induction fs generalizing co with
  | nil => simp [reach, scan]
  | cons f fs ih =>
    have hf := h f mem_cons_self
    have ih := ih fun g hg => h g (mem_cons_of_mem _ hg)
    have hend := hf.toNat_end
    rw [reach, hf.lastFrag_eq, Option.bind_some, map_cons, scan]
    have hlt : co < f.offset ↔ co.toNat < f.span.1 := UInt32.lt_iff_toNat_lt
    by_cases hgap : co.toNat < f.span.1
    · rw [if_pos (hlt.2 hgap), if_pos hgap]
      rfl
    · rw [if_neg (mt hlt.1 hgap), if_neg hgap]
      by_cases heq : co = f.offset
      · rw [if_pos heq, ih, heq, hend]
        have hmax : max f.offset.toNat (f.span.1 + f.span.2) = f.span.1 + f.span.2 :=
          max_eq_right (Nat.le_add_right _ _)
        rw [hmax]
      · have hgt : f.offset + UInt32.ofNat f.pyld.payload.length > co ↔
            co.toNat < f.span.1 + f.span.2 := by rw [gt_iff_lt, UInt32.lt_iff_toNat_lt, hend]
        rw [if_neg heq]
        by_cases hmore : co.toNat < f.span.1 + f.span.2
        · rw [if_pos (hgt.2 hmore), ih, hend, max_eq_right hmore.le]
        · rw [if_neg (mt hgt.1 hmore), ih, max_eq_left (not_lt.1 hmore)]

theorem assemble_eq {fs : List Bundle} (h : ∀ f ∈ fs, SliceOf P f) {data : List UInt8}
    (hdata : data.length = P.payload.length) : assemble fs data =
      some ((fs.map fun f => (f.offset.toNat, f.pyld.payload)).foldl
        (fun d q => overwrite d q.1 q.2) data) := by
  induction fs generalizing data with
  | nil => rfl
  | cons f fs ih =>
    have hf := h f mem_cons_self
    have hin : f.offset.toNat + f.pyld.payload.length ≤ data.length := hdata ▸ hf.slice.1
    rw [assemble, hf.lastFrag_eq, Option.bind_some, if_pos hin,
      ih (fun g hg => h g (mem_cons_of_mem _ hg)) ((length_overwrite hin).trans hdata)]
    rfl

/-- The first fragment without its fragment headers and with the whole payload. -/
def whole (P : Pyld) (b : Bundle) : Bundle :=
  { b with
    headers := b.headers.filter fun h => ¬ h.IsFrag
    pyld := ⟨b.pyld.pldclass, P.payload, P.small⟩ }

end Bundle

namespace Context

open Ns2.Bundle

variable {P : Pyld}
variable {c : Context}

/-- A chain of slices of one payload in offset order. -/
structure Wf (P : Pyld) (c : Context) : Prop where
  slices : ∀ f ∈ c.bundles, SliceOf P f
  sorted : KeySorted (fun f => f.span.1) c.bundles

def spans (c : Context) : List (ℕ × ℕ) := c.bundles.map span

theorem Wf.sorted_spans (h : c.Wf P) : KeySorted Prod.fst c.spans :=
  pairwise_map.2 h.sorted

theorem Wf.spans_le (h : c.Wf P) : ∀ s ∈ c.spans, s.1 + s.2 ≤ P.payload.length := by
  intro s hs
  obtain ⟨f, hf, rfl⟩ := mem_map.1 hs
  exact (h.slices f hf).span_le

theorem Wf.scan_eq_some_iff (h : c.Wf P) :
    scan 0 c.spans = some P.payload.length ↔ Covers c.spans P.payload.length :=
  scan_zero_eq_some_iff h.sorted_spans h.spans_le

theorem scan_le {n co m : ℕ} {spans : List (ℕ × ℕ)} (hle : ∀ s ∈ spans, s.1 + s.2 ≤ n)
    (hco : co ≤ n) (h : scan co spans = some m) : m ≤ n := by
  induction spans generalizing co with
  | nil => exact Option.some.inj h ▸ hco
  | cons s spans ih =>
    have hs := hle s mem_cons_self
    rw [scan] at h
    split_ifs at h
    exact ih (fun t ht => hle t (mem_cons_of_mem _ ht)) (by omega) h

theorem Wf.totLen_last (h : c.Wf P) :
    (c.bundles.getLast c.bundles_ne_nil).totLen.toNat = P.payload.length :=
  (h.slices _ (getLast_mem c.bundles_ne_nil)).totLen

theorem Wf.rebuild_of_covers (h : c.Wf P) (fresh : ℕ → UInt8)
    (hcov : Covers c.spans P.payload.length) : rebuild fresh c = some (some (c.first.whole P)) := by
  have hsmall := P.small
  have htot := h.totLen_last
  have hreach : reach 0 c.bundles = some (some (UInt32.ofNat P.payload.length)) := by
    rw [reach_eq h.slices]
    exact congrArg (fun r => some (r.map UInt32.ofNat)) (h.scan_eq_some_iff.2 hcov)
  have hco : UInt32.ofNat P.payload.length = (c.bundles.getLast c.bundles_ne_nil).totLen := by
    rw [← htot, UInt32.ofNat_toNat]
  have hdata : assemble c.bundles ((range P.payload.length).map fresh) = some P.payload := by
    rw [assemble_eq h.slices (by rw [length_map, length_range]), Option.some_inj]
    apply foldl_overwrite_eq
    · intro q hq
      obtain ⟨f, hf, rfl⟩ := mem_map.1 hq
      exact (h.slices f hf).slice
    · rw [map_map]
      exact hcov
    · rw [length_map, length_range]
  rw [rebuild, hreach]
  dsimp only [Option.bind_some]
  rw [if_neg (not_not.2 hco), htot, if_neg (by omega), hdata, Option.bind_some, dif_pos hsmall]
  rfl

theorem Wf.rebuild_of_not_covers (h : c.Wf P) (fresh : ℕ → UInt8)
    (hcov : ¬ Covers c.spans P.payload.length) : rebuild fresh c = some none := by
  have hsmall := P.small
  have htot := h.totLen_last
  have hreach : reach 0 c.bundles = some ((scan 0 c.spans).map UInt32.ofNat) := reach_eq h.slices 0
  rw [rebuild, hreach]
  cases hscan : scan 0 c.spans with
  | none => rfl
  | some m =>
    have hm : m ≤ P.payload.length := scan_le h.spans_le (Nat.zero_le _) hscan
    have hne : m ≠ P.payload.length := fun heq => hcov (h.scan_eq_some_iff.1 (heq ▸ hscan))
    have hco : UInt32.ofNat m ≠ (c.bundles.getLast c.bundles_ne_nil).totLen := by
      intro heq
      have heq := congrArg UInt32.toNat heq
      rw [htot, UInt32.toNat_ofNat'] at heq
      omega
    dsimp only [Option.bind_some, Option.map_some]
    rw [if_pos hco]

end Context

namespace Bundle

variable {P : Pyld} {b f : Bundle} {next : List Bundle}

theorem insertFrag_eq (hb : SliceOf P b) (hf : SliceOf P f) (next : List Bundle) :
    insertFrag b f next =
      if f.span = b.span then some none
      else if b.span.1 < f.span.1 then some (some ⟨b, f :: next⟩)
      else
        match next with
        | [] => some (some ⟨f, [b]⟩)
        | g :: next => (insertFrag b g next).map fun r => r.map fun c => ⟨f, c.bundles⟩ := by
  have hdup : f.offset = b.offset ∧ f.pyld.payload.length = b.pyld.payload.length ↔
      f.span = b.span := by
    rw [← UInt32.toNat_inj, span, span, Prod.mk.injEq]
  have hlt : b.offset < f.offset ↔ b.span.1 < f.span.1 := UInt32.lt_iff_toNat_lt
  rw [insertFrag.eq_def, hf.lastFrag_eq, hb.lastFrag_eq]
  dsimp only [Option.bind_some]
  simp only [hdup, hlt]

theorem insertFrag_of_mem (hb : SliceOf P b) (hslices : ∀ g ∈ f :: next, SliceOf P g)
    (hsorted : KeySorted (fun g => g.span.1) (f :: next))
    (hmem : b.span ∈ (f :: next).map span) : insertFrag b f next = some none := by
  induction next generalizing f with
  | nil =>
    have heq : b.span = f.span := mem_singleton.1 hmem
    rw [insertFrag_eq hb (hslices f mem_cons_self), if_pos heq.symm]
  | cons g next ih =>
    rw [insertFrag_eq hb (hslices f mem_cons_self)]
    rcases mem_cons.1 hmem with heq | hmem
    · rw [if_pos heq.symm]
    · have hle : f.span.1 ≤ b.span.1 := by
        obtain ⟨h, hh, hspan⟩ := mem_map.1 hmem
        exact hspan ▸ hsorted.head_le h hh
      split_ifs with hdup hlt
      · rfl
      · exact absurd hle (not_le.2 hlt)
      · dsimp only
        rw [ih (fun h hh => hslices h (mem_cons_of_mem _ hh)) hsorted.tail hmem]
        rfl

theorem insertFrag_of_not_mem (hb : SliceOf P b) (hslices : ∀ g ∈ f :: next, SliceOf P g)
    (hmem : b.span ∉ (f :: next).map span) : ∃ c, insertFrag b f next = some (some c) ∧
      c.bundles = insertAfter (fun g => g.span.1) b (f :: next) := by
  induction next generalizing f with
  | nil =>
    have hne : f.span ≠ b.span := fun h => hmem (mem_singleton.2 h.symm)
    rw [insertFrag_eq hb (hslices f mem_cons_self), if_neg hne, insertAfter_cons]
    split_ifs with hlt
    · exact ⟨_, rfl, rfl⟩
    · exact ⟨_, rfl, rfl⟩
  | cons g next ih =>
    rw [map_cons, mem_cons, not_or] at hmem
    rw [insertFrag_eq hb (hslices f mem_cons_self), if_neg (Ne.symm hmem.1),
      insertAfter_cons]
    split_ifs with hlt
    · exact ⟨_, rfl, rfl⟩
    · obtain ⟨c, hc, hcb⟩ := ih (fun h hh => hslices h (mem_cons_of_mem _ hh)) hmem.2
      dsimp only
      rw [hc]
      exact ⟨⟨f, c.bundles⟩, rfl, congrArg (f :: ·) hcb⟩

end Bundle

theorem Context.Wf.exists_insertFrag {P : Pyld} {c : Context} {b : Bundle} (h : c.Wf P)
    (hb : b.SliceOf P) (hmem : b.span ∉ c.spans) :
    ∃ c', b.insertFrag c.first c.next = some (some c') ∧ c'.Wf P ∧
      c'.bundles.Perm (b :: c.bundles) := by
  obtain ⟨c', hins, hc'⟩ := Bundle.insertFrag_of_not_mem hb h.slices hmem
  have hperm : c'.bundles.Perm (b :: c.bundles) := hc' ▸ insertAfter_perm b c.bundles
  refine ⟨c', hins, ⟨fun f hf => ?_, ?_⟩, hperm⟩
  · rcases mem_cons.1 (hperm.subset hf) with rfl | hf
    · exact hb
    · exact h.slices f hf
  · rw [hc']
    exact h.sorted.insertAfter b

/-- The contexts of bundles other than the one identified by `k`. -/
def others (k : List UInt8 × UInt64) (frags : List Context) : List Context :=
  frags.filter fun c => c.first.ident ≠ some k

/-- Arrivals of fragments of the bundle `k` since it was last returned. -/
def waiting (k : List UInt8 × UInt64) (trace : List (Bundle × Option Bundle)) : List Bundle :=
  trace.foldl (fun R p => if p.1.ident ≠ some k then R
    else if p.2.isSome then [] else R ++ [p.1]) []

/-- The `frags` lists that arrivals lead to, whatever new buffers hold. -/
inductive Received : List (Bundle × Option Bundle) → List Context → Prop
  | nil : Received [] []
  | snoc {trace : List (Bundle × Option Bundle)} {frags frags' : List Context} {b : Bundle}
      {r : Option Bundle} (h : Received trace frags) (fresh : ℕ → UInt8)
      (hr : b.defragment fresh frags = some (frags', r)) : Received (trace ++ [(b, r)]) frags'

/-- `frags` holds one chain for each bundle with fragments waiting, of the same spans. -/
structure Holds (pay : List UInt8 × UInt64 → Pyld) (trace : List (Bundle × Option Bundle))
    (frags : List Context) : Prop where
  keys : (frags.map fun c => c.first.ident).Nodup
  chain : ∀ c ∈ frags, ∃ k, (∀ f ∈ c.bundles, f.ident = some k) ∧ c.Wf (pay k) ∧
    ∀ s, s ∈ c.spans ↔ s ∈ (waiting k trace).map Bundle.span
  absent : ∀ k, (∀ c ∈ frags, c.first.ident ≠ some k) → waiting k trace = []

/-- What one arrival of a fragment `b` of a bundle with payload `P` returns, after
the fragments `R`. -/
structure Outcome (P : Pyld) (R : List Bundle) (b : Bundle) (r : Option Bundle) : Prop where
  payload : ∀ c, r = some c → c.ident = b.ident ∧ c.pyld.payload = P.payload ∧
    ∀ h ∈ c.headers, ¬ h.IsFrag
  missing : ¬ Covers ((R ++ [b]).map Bundle.span) P.payload.length → r = none
  complete : R ≠ [] → b.span ∉ R.map Bundle.span →
    Covers ((R ++ [b]).map Bundle.span) P.payload.length → r ≠ none

namespace Bundle

variable {b : Bundle} {k : List UInt8 × UInt64} {frags : List Context}

theorem findContext_cons {c : Context} {k' : List UInt8 × UInt64} (hb : b.ident = some k)
    (hc : c.first.ident = some k') : findContext b (c :: frags) =
      if k' = k then some ([], some (c, frags))
      else (findContext b frags).map fun r => (c :: r.1, r.2) := by
  obtain ⟨beid, hbeid, rfl⟩ := Option.map_eq_some_iff.1 hb
  obtain ⟨ceid, hceid, rfl⟩ := Option.map_eq_some_iff.1 hc
  rw [findContext, hceid, hbeid]
  simp only [Option.bind_some, Prod.mk.injEq]

theorem findContext_absent (hb : b.ident = some k) (hids : ∀ c ∈ frags, c.first.ident ≠ none)
    (h : ∀ c ∈ frags, c.first.ident ≠ some k) : findContext b frags = some (frags, none) := by
  induction frags with
  | nil => rfl
  | cons c frags ih =>
    obtain ⟨k', hk'⟩ := Option.ne_none_iff_exists'.1 (hids c mem_cons_self)
    have hne : k' ≠ k := fun heq => h c mem_cons_self (heq ▸ hk')
    rw [findContext_cons hb hk', if_neg hne,
      ih (fun d hd => hids d (mem_cons_of_mem _ hd))
        fun d hd => h d (mem_cons_of_mem _ hd)]
    rfl

theorem findContext_present {before after : List Context} {c : Context} (hb : b.ident = some k)
    (hids : ∀ d ∈ before, d.first.ident ≠ none) (h : ∀ d ∈ before, d.first.ident ≠ some k)
    (hc : c.first.ident = some k) :
    findContext b (before ++ c :: after) = some (before, some (c, after)) := by
  induction before with
  | nil => rw [nil_append, findContext_cons hb hc, if_pos rfl]
  | cons d before ih =>
    obtain ⟨k', hk'⟩ := Option.ne_none_iff_exists'.1 (hids d mem_cons_self)
    have hne : k' ≠ k := fun heq => h d mem_cons_self (heq ▸ hk')
    rw [cons_append, findContext_cons hb hk', if_neg hne,
      ih (fun e he => hids e (mem_cons_of_mem _ he))
        fun e he => h e (mem_cons_of_mem _ he)]
    rfl

end Bundle

variable {pay : List UInt8 × UInt64 → Pyld} {trace : List (Bundle × Option Bundle)}
  {b : Bundle} {k : List UInt8 × UInt64} {r : Option Bundle}

theorem waiting_snoc_of_ne (h : b.ident ≠ some k) :
    waiting k (trace ++ [(b, r)]) = waiting k trace := by
  rw [waiting, foldl_append, foldl_cons, foldl_nil, if_pos h]
  rfl

theorem waiting_snoc_none (h : b.ident = some k) :
    waiting k (trace ++ [(b, none)]) = waiting k trace ++ [b] := by
  rw [waiting, foldl_append, foldl_cons, foldl_nil, if_neg (not_not.2 h)]
  rfl

theorem waiting_snoc_some (h : b.ident = some k) {c : Bundle} :
    waiting k (trace ++ [(b, some c)]) = [] := by
  rw [waiting, foldl_append, foldl_cons, foldl_nil, if_neg (not_not.2 h)]
  rfl

namespace Holds

variable {before after : List Context} (old new : Option Context)

theorem update (h : Holds pay trace (before ++ old.toList ++ after)) (hk : b.ident = some k)
    (hbefore : ∀ d ∈ before, d.first.ident ≠ some k) (hafter : ∀ d ∈ after, d.first.ident ≠ some k)
    (hold : ∀ c ∈ old, c.first.ident = some k)
    (hnew : ∀ c ∈ new, (∀ f ∈ c.bundles, f.ident = some k) ∧ c.Wf (pay k) ∧
      ∀ s, s ∈ c.spans ↔ s ∈ (waiting k (trace ++ [(b, r)])).map Bundle.span)
    (hnone : new = none → waiting k (trace ++ [(b, r)]) = []) :
    Holds pay (trace ++ [(b, r)]) (before ++ new.toList ++ after) := by
  have hother : ∀ k', k' ≠ k → waiting k' (trace ++ [(b, r)]) = waiting k' trace := by
    intro k' hne
    apply waiting_snoc_of_ne
    rw [hk]
    exact fun heq => hne (Option.some.inj heq).symm
  have hsub : (before ++ after).Sublist (before ++ old.toList ++ after) :=
    (sublist_append_left before old.toList).append_right after
  constructor
  · have hrest := h.keys.sublist (hsub.map fun c => c.first.ident)
    cases hn : new with
    | none => simpa only [Option.toList_none, append_nil] using hrest
    | some c =>
      have hck : c.first.ident = some k := (hnew c hn).1 c.first mem_cons_self
      rw [Option.toList_some, append_assoc, singleton_append, map_append,
        map_cons, nodup_middle, ← map_append, nodup_cons]
      refine ⟨fun hmem => ?_, hrest⟩
      obtain ⟨d, hd, hdk⟩ := mem_map.1 hmem
      rw [hck] at hdk
      rcases mem_append.1 hd with hd | hd
      · exact hbefore d hd hdk
      · exact hafter d hd hdk
  · intro c hc
    have hrest : c ∈ before ++ after → c.first.ident ≠ some k → ∃ k',
        (∀ f ∈ c.bundles, f.ident = some k') ∧ c.Wf (pay k') ∧
          ∀ s, s ∈ c.spans ↔ s ∈ (waiting k' (trace ++ [(b, r)])).map Bundle.span := by
      intro hc hck
      obtain ⟨k', hids, hwf, hspans⟩ := h.chain c (hsub.subset hc)
      have hne : k' ≠ k := fun heq => hck (heq ▸ hids c.first mem_cons_self)
      exact ⟨k', hids, hwf, by rwa [hother k' hne]⟩
    rcases mem_append.1 hc with hc | hc
    · rcases mem_append.1 hc with hc | hc
      · exact hrest (mem_append_left _ hc) (hbefore c hc)
      · exact ⟨k, hnew c (Option.mem_toList.1 hc)⟩
    · exact hrest (mem_append_right _ hc) (hafter c hc)
  · intro k' hk'
    by_cases hne : k' = k
    · subst hne
      apply hnone
      refine Option.eq_none_iff_forall_ne_some.2 fun c hc => ?_
      refine hk' c ?_ ((hnew c hc).1 c.first mem_cons_self)
      exact mem_append_left _ (mem_append_right _ (Option.mem_toList.2 hc))
    · rw [hother k' hne]
      apply h.absent
      intro c hc hck
      rcases mem_append.1 hc with hc | hc
      · rcases mem_append.1 hc with hc | hc
        · exact hk' c (mem_append_left _ (mem_append_left _ hc)) hck
        · have hck' := hold c (Option.mem_toList.1 hc)
          rw [hck] at hck'
          exact hne (Option.some.inj hck')
      · exact hk' c (mem_append_right _ hc) hck

theorem others_update (hold : ∀ c ∈ old, c.first.ident = some k)
    (hnew : ∀ c ∈ new, c.first.ident = some k) :
    others k (before ++ new.toList ++ after) = others k (before ++ old.toList ++ after) := by
  have hnil : ∀ o : Option Context, (∀ c ∈ o, c.first.ident = some k) → others k o.toList = [] := by
    intro o ho
    refine filter_eq_nil_iff.2 fun c hc => ?_
    simp [ho c (Option.mem_toList.1 hc)]
  have happ : ∀ o : Option Context, (∀ c ∈ o, c.first.ident = some k) →
      others k (before ++ o.toList ++ after) = others k before ++ others k after := by
    intro o ho
    have := hnil o ho
    unfold others at *
    rw [filter_append, filter_append, this, append_nil]
  rw [happ new hnew, happ old hold]

theorem ident_ne_none {frags : List Context} (h : Holds pay trace frags) :
    ∀ c ∈ frags, c.first.ident ≠ none := by
  intro c hc
  obtain ⟨k, hids, -⟩ := h.chain c hc
  rw [hids c.first mem_cons_self]
  exact Option.some_ne_none k

theorem step_absent {frags : List Context} (h : Holds pay trace frags) (hk : b.ident = some k)
    (hb : b.SliceOf (pay k)) (habsent : ∀ c ∈ frags, c.first.ident ≠ some k)
    (fresh : ℕ → UInt8) : ∃ frags' r, b.defragment fresh frags = some (frags', r) ∧
      Outcome (pay k) (waiting k trace) b r ∧ Holds pay (trace ++ [(b, r)]) frags' ∧
      others k frags' = others k frags := by
  have hwait := h.absent k habsent
  have hnew : ∀ c ∈ some (Context.mk b []), (∀ f ∈ c.bundles, f.ident = some k) ∧ c.Wf (pay k) ∧
      ∀ s, s ∈ c.spans ↔ s ∈ (waiting k (trace ++ [(b, none)])).map Bundle.span := by
    intro c hc
    obtain rfl := Option.mem_some.1 hc
    rw [waiting_snoc_none hk, hwait]
    refine ⟨fun f hf => ?_, ⟨fun f hf => ?_, pairwise_singleton _ _⟩, fun s => Iff.rfl⟩
    · rwa [mem_singleton.1 hf]
    · rwa [mem_singleton.1 hf]
  have hfrags : frags = frags ++ (none : Option Context).toList ++ [] := by simp
  refine ⟨frags ++ [⟨b, []⟩], none, ?_, ⟨?_, fun _ => rfl, ?_⟩, ?_, ?_⟩
  · rw [Bundle.defragment, Bundle.findContext_absent hk h.ident_ne_none habsent]
    rfl
  · intro c hc
    cases hc
  · intro hR
    exact absurd hwait hR
  · rw [← append_nil (frags ++ [Context.mk b []])]
    exact (hfrags ▸ h).update none (some ⟨b, []⟩) hk habsent (by simp) (by simp)
      hnew (by simp)
  · simp [others, hk]

theorem ident_ne_of_mem {c : Context} (h : Holds pay trace (before ++ (some c).toList ++ after))
    (hc : c.first.ident = some k) :
    (∀ d ∈ before, d.first.ident ≠ some k) ∧ ∀ d ∈ after, d.first.ident ≠ some k := by
  have hkeys := h.keys
  rw [Option.toList_some, append_assoc, singleton_append, map_append,
    map_cons, nodup_middle, ← map_append, nodup_cons, hc] at hkeys
  refine ⟨fun d hd heq => hkeys.1 ?_, fun d hd heq => hkeys.1 ?_⟩
  · exact mem_map.2 ⟨d, mem_append_left _ hd, heq⟩
  · exact mem_map.2 ⟨d, mem_append_right _ hd, heq⟩

theorem step_present {c : Context}
    (h : Holds pay trace (before ++ (some c).toList ++ after)) (hk : b.ident = some k)
    (hb : b.SliceOf (pay k)) (hc : c.first.ident = some k) (fresh : ℕ → UInt8) :
    ∃ frags' r, b.defragment fresh (before ++ (some c).toList ++ after) = some (frags', r) ∧
      Outcome (pay k) (waiting k trace) b r ∧ Holds pay (trace ++ [(b, r)]) frags' ∧
      others k frags' = others k (before ++ (some c).toList ++ after) := by
  have hmem : c ∈ before ++ (some c).toList ++ after := by simp
  obtain ⟨hbefore, hafter⟩ := h.ident_ne_of_mem hc
  obtain ⟨hids, hwf, hspans⟩ : (∀ f ∈ c.bundles, f.ident = some k) ∧ c.Wf (pay k) ∧
      ∀ s, s ∈ c.spans ↔ s ∈ (waiting k trace).map Bundle.span := by
    obtain ⟨k', hids, hrest⟩ := h.chain c hmem
    have hkk : k' = k := Option.some.inj ((hids c.first mem_cons_self).symm.trans hc)
    exact hkk ▸ ⟨hids, hrest⟩
  have hold : ∀ d ∈ some c, d.first.ident = some k := fun d hd => Option.mem_some.1 hd ▸ hc
  have hfind : b.findContext (before ++ (some c).toList ++ after) =
      some (before, some (c, after)) := by
    rw [Option.toList_some, append_assoc, singleton_append]
    exact Bundle.findContext_present hk
      (fun d hd => h.ident_ne_none d (by simp [hd])) hbefore hc
  by_cases hdup : b.span ∈ c.spans
  · -- the same fragment again
    refine ⟨before ++ (some c).toList ++ after, none, ?_, ⟨?_, fun _ => rfl, ?_⟩, ?_, rfl⟩
    · rw [Bundle.defragment, hfind]
      dsimp only [Option.bind_some]
      rw [Bundle.insertFrag_of_mem hb hwf.slices hwf.sorted hdup]
      rfl
    · intro d hd
      cases hd
    · intro _ hnew
      exact absurd ((hspans b.span).1 hdup) hnew
    · refine h.update (some c) (some c) hk hbefore hafter hold (fun d hd => ?_) (by simp)
      obtain rfl := Option.mem_some.1 hd
      refine ⟨hids, hwf, fun s => ?_⟩
      rw [waiting_snoc_none hk, map_append, mem_append, ← hspans, map_singleton,
        mem_singleton]
      exact ⟨Or.inl, fun hs => hs.elim id fun heq => heq ▸ hdup⟩
  · obtain ⟨c', hins, hwf', hperm⟩ := hwf.exists_insertFrag hb hdup
    have hids' : ∀ f ∈ c'.bundles, f.ident = some k := by
      intro f hf
      rcases mem_cons.1 (hperm.subset hf) with rfl | hf
      · exact hk
      · exact hids f hf
    have hspans' : ∀ s, s ∈ c'.spans ↔ s ∈ (waiting k trace ++ [b]).map Bundle.span := by
      intro s
      rw [Context.spans, (hperm.map Bundle.span).mem_iff, map_cons, mem_cons,
        map_append, mem_append, ← hspans, map_singleton, mem_singleton]
      exact or_comm
    have hnew : ∀ d ∈ some c', d.first.ident = some k := by
      intro d hd
      obtain rfl := Option.mem_some.1 hd
      exact hids' _ mem_cons_self
    by_cases hcov : Covers c'.spans (pay k).payload.length
    · -- the last missing fragment
      refine ⟨before ++ after, some (c'.first.whole (pay k)), ?_, ⟨?_, ?_, ?_⟩, ?_, ?_⟩
      · rw [Bundle.defragment, hfind]
        dsimp only [Option.bind_some]
        rw [hins]
        dsimp only [Option.bind_some]
        rw [hwf'.rebuild_of_covers fresh hcov]
        rfl
      · intro d hd
        obtain rfl := Option.some.inj hd
        refine ⟨(hids' c'.first mem_cons_self).trans hk.symm, rfl, fun x hx => ?_⟩
        simpa using (mem_filter.1 hx).2
      · intro hmiss
        exact absurd (hcov.of_subset fun s hs => (hspans' s).1 hs) hmiss
      · intro _ _ _
        exact Option.some_ne_none _
      · have := h.update (some c) none (r := some (c'.first.whole (pay k))) hk hbefore hafter hold
          (by simp) fun _ => waiting_snoc_some hk
        rwa [Option.toList_none, append_nil] at this
      · have hsame : others k (before ++ (none : Option Context).toList ++ after) =
            others k (before ++ (some c).toList ++ after) := others_update _ _ hold (by simp)
        rwa [Option.toList_none, append_nil] at hsame
    · refine ⟨before ++ (some c').toList ++ after, none, ?_, ⟨?_, fun _ => rfl, ?_⟩, ?_, ?_⟩
      · rw [Bundle.defragment, hfind]
        dsimp only [Option.bind_some]
        rw [hins]
        dsimp only [Option.bind_some]
        rw [hwf'.rebuild_of_not_covers fresh hcov, Option.toList_some, append_assoc]
        rfl
      · intro d hd
        cases hd
      · intro _ _ hall
        exact absurd (hall.of_subset fun s hs => (hspans' s).2 hs) hcov
      · refine h.update (some c) (some c') hk hbefore hafter hold (fun d hd => ?_) (by simp)
        obtain rfl := Option.mem_some.1 hd
        refine ⟨hids', hwf', ?_⟩
        rwa [waiting_snoc_none hk]
      · exact others_update _ _ hold hnew

theorem step {frags : List Context} (h : Holds pay trace frags) (hk : b.ident = some k)
    (hb : b.SliceOf (pay k)) (fresh : ℕ → UInt8) :
    ∃ frags' r, b.defragment fresh frags = some (frags', r) ∧
      Outcome (pay k) (waiting k trace) b r ∧ Holds pay (trace ++ [(b, r)]) frags' ∧
      others k frags' = others k frags := by
  by_cases hex : ∃ c ∈ frags, c.first.ident = some k
  · obtain ⟨c, hc, hck⟩ := hex
    obtain ⟨before, after, rfl⟩ := append_of_mem hc
    have hsplit : before ++ c :: after = before ++ (some c).toList ++ after := by simp
    rw [hsplit] at h ⊢
    exact h.step_present hk hb hck fresh
  · exact h.step_absent hk hb (fun c hc hck => hex ⟨c, hc, hck⟩) fresh

theorem nil (pay : List UInt8 × UInt64 → Pyld) : Holds pay [] [] := by
  refine ⟨nodup_nil, fun c hc => ?_, fun k _ => rfl⟩
  cases hc

end Holds

theorem Received.holds {frags : List Context} (hrec : Received trace frags)
    (hslices : ∀ p ∈ trace, ∃ k, p.1.ident = some k ∧ p.1.SliceOf (pay k)) :
    Holds pay trace frags := by
  induction hrec with
  | nil => exact Holds.nil pay
  | snoc _ fresh hr ih =>
    have hprev := ih fun p hp => hslices p (mem_append_left _ hp)
    obtain ⟨k, hk, hb⟩ := hslices _ (mem_append_right _ mem_cons_self)
    obtain ⟨_, _, hr', -, hholds, -⟩ := hprev.step hk hb fresh
    obtain ⟨rfl, rfl⟩ := Prod.mk.inj (Option.some.inj (hr'.symm.trans hr))
    exact hholds

/-- After any arrivals of slices of any payloads, the next slice is answered as it
should be, and the contexts of other bundles stay as they were. -/
theorem defragment_reassembles (pay : List UInt8 × UInt64 → Pyld)
    {trace : List (Bundle × Option Bundle)} {frags : List Context} (hrec : Received trace frags)
    (hslices : ∀ p ∈ trace, ∃ k, p.1.ident = some k ∧ p.1.SliceOf (pay k))
    {b : Bundle} {k : List UInt8 × UInt64} (hk : b.ident = some k) (hb : b.SliceOf (pay k))
    (fresh : ℕ → UInt8) :
    ∃ frags' r, b.defragment fresh frags = some (frags', r) ∧
      Outcome (pay k) (waiting k trace) b r ∧ others k frags' = others k frags := by
  obtain ⟨frags', r, hr, hout, -, hothers⟩ := (hrec.holds hslices).step hk hb fresh
  exact ⟨frags', r, hr, hout, hothers⟩

/-- A bundle from one endpoint with three payload bytes, or a part of them. -/
def threeBytes (offset : UInt32) (bytes : List UInt8) (h : bytes.length < 2 ^ 31) : Bundle :=
  ⟨⟨0x01, 7⟩, [⟨[82], by decide⟩, ⟨[49], by decide⟩], [.frag 3 offset], ⟨0, bytes, h⟩⟩

theorem defragment_reassembles_three :
    ∃ frags' r, (threeBytes 1 [2, 3] (by decide)).defragment (fun _ => 0)
        [⟨threeBytes 0 [1, 2] (by decide), []⟩] = some (frags', r) ∧
      Outcome ⟨0, [1, 2, 3], by decide⟩
        (waiting ([82, 44, 49], 7) [(threeBytes 0 [1, 2] (by decide), none)])
        (threeBytes 1 [2, 3] (by decide)) r ∧
      others ([82, 44, 49], 7) frags' =
        others ([82, 44, 49], 7) [⟨threeBytes 0 [1, 2] (by decide), []⟩] := by
  have hrec : Received [(threeBytes 0 [1, 2] (by decide), none)]
      [⟨threeBytes 0 [1, 2] (by decide), []⟩] := Received.nil.snoc (fun _ => 0) rfl
  refine defragment_reassembles (fun _ => ⟨0, [1, 2, 3], by decide⟩) hrec ?_ rfl
    ⟨by decide, rfl, by unfold IsSlice; decide⟩ _
  intro p hp
  rw [mem_singleton.1 hp]
  exact ⟨_, rfl, by decide, rfl, by unfold IsSlice; decide⟩

end Ns2
