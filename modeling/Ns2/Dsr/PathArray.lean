import Ns2.Dsr.RouteKeys
import Ns2.Lib.Machine

/-! `Path` as the array it is kept in. A step that reads or writes behind the array, or whose
assertion fails, gives no result. -/

namespace Ns2

open Option

namespace Dsr

/-- The first `len` places of the array are the path. -/
structure PathArray where
  path : Vector ID maxSrLen
  len : ℕ
  curIndex : ℤ
  owner : ID

namespace PathArray

/-- `Path()`. -/
def new : PathArray := ⟨.replicate maxSrLen (.ofAddr 0 .none), 0, 0, .ofAddr 0 .none⟩

def read (i : ℕ) (p : PathArray) : Option ID := p.path[i]?

def write (i : ℕ) (id : ID) (p : PathArray) : Option PathArray :=
  if h : i < maxSrLen then some { p with path := p.path.set i id } else none

/-- The identifiers in the places from `i` on. -/
def fill : ℕ → List ID → PathArray → Option PathArray
  | _, [], p => some p
  | i, id :: ids, p => do
    let p ← p.write i id
    fill (i + 1) ids p

/-- `Path(int, const ID *)` and `Path(const struct sr_addr *, int)`. -/
def ofRoute (route : List ID) : Option PathArray :=
  if route.length ≤ maxSrLen then do
    let p ← new.fill 0 route
    some { p with len := route.length, curIndex := 0 }
  else none

/-- `Path(struct hdr_sr *)`, from a valid header. -/
def ofHeader (addrs : List ID) (curAddr : ℤ) : Option PathArray :=
  if addrs.length ≤ maxSrLen then do
    let p ← new.fill 0 addrs
    some { p with len := addrs.length, curIndex := curAddr }
  else none

def appendToPath (id : ID) (p : PathArray) : Option PathArray :=
  if p.len < maxSrLen then do
    let q ← p.write p.len id
    some { q with len := p.len + 1 }
  else none

/-- The loop of `appendPath` at `i`; `given` is the path given, as it is now. -/
def appendFrom (given : PathArray → PathArray) : ℕ → ℕ → PathArray → Option PathArray
  | 0, _, p => some p
  | fuel + 1, i, p =>
    if i < (given p).len then do
      let id ← (given p).read i
      let q ← p.write p.len id
      -- The length is looked at when the identifier has been written.
      if p.len + 1 > maxSrLen then some { q with len := p.len }
      else appendFrom given fuel (i + 1) { q with len := p.len + 1 }
    else some p

def appendPath (given : PathArray → PathArray) (p : PathArray) : Option PathArray :=
  p |> appendFrom given (maxSrLen + 1) 0

/-- `n` places from `src` on are copied to those from `dst` on. -/
def copyCells : ℕ → ℕ → ℕ → PathArray → Option PathArray
  | 0, _, _, p => some p
  | n + 1, src, dst, p => do
    let id ← p.read src
    let p ← p.write dst id
    copyCells n (src + 1) (dst + 1) p

/-- The places from `src` on follow those before `dst`. -/
def closeUp (src dst : ℕ) (p : PathArray) : Option PathArray := do
  let q ← p.copyCells (p.len - src) src dst
  some { q with len := dst + (p.len - src) }

def removeSection (start stop : ℕ) (p : PathArray) : Option PathArray :=
  if stop ≤ start then some p
  else
    { p with
      curIndex := if p.curIndex > start then p.curIndex - (stop - start) else p.curIndex }
      |>.closeUp stop start

/-- `Path(const Path &)`, `copy` and `operator=`. -/
def copy (p : PathArray) (onto : PathArray) : Option PathArray := do
  let q ← (List.range p.len).foldlM (fun q i => do q.write i (← p.read i)) onto
  some { q with len := p.len, curIndex := p.curIndex, owner := p.owner }

def reverse (p : PathArray) : Option PathArray :=
  if p.len = 0 then p.copy new
  else do
    let q ← (List.range p.len).foldlM (fun q i => do q.write (p.len - 1 - i) (← p.read i)) new
    some { q with len := p.len, curIndex := p.len - 1 - p.curIndex }

/-- The identifiers from `fp` to `bp` are exchanged. -/
def swapEnds : ℕ → ℕ → ℕ → PathArray → Option PathArray
  | 0, _, _, p => some p
  | fuel + 1, fp, bp, p =>
    if fp < bp then do
      let temp ← p.read fp
      let id ← p.read bp
      let p ← p.write fp id
      let p ← p.write bp temp
      swapEnds fuel (fp + 1) (bp - 1) p
    else some p

def reverseInPlace (p : PathArray) : Option PathArray :=
  if p.len = 0 then some p
  else do
    let q ← p.swapEnds p.len 0 (p.len - 1)
    some { q with curIndex := p.len - 1 - p.curIndex }

def setLength (l : ℕ) (p : PathArray) : Option PathArray :=
  if l ≤ maxSrLen then some { p with len := l } else none

/-- The last of the `n` places behind `fp` that has the same identifier. -/
def twin (fp : ℕ) (p : PathArray) : ℕ → Option (Option ℕ)
  | 0 => some none
  | n + 1 => do
    let a ← p.read fp
    let b ← p.read (fp + n + 1)
    if a.eq b then some (some (fp + n + 1)) else twin fp p n

/-- The loop of `compressPath`, with the forward walking pointer at `fp`. -/
def compressFrom : ℕ → ℕ → PathArray → Option PathArray
  | 0, _, p => some p
  | fuel + 1, fp, p =>
    if fp < p.len then do
      match ← p.twin fp (p.len - 1 - fp) with
      | some bp =>
        let p ← p.closeUp bp fp
        compressFrom fuel (fp + 1) p
      | none => compressFrom fuel (fp + 1) p
    else some p

def compressPath (p : PathArray) : Option PathArray := p.compressFrom p.len 0

/-- The identifiers on the path. -/
def nodes (p : PathArray) : List ID := p.path.toList.take p.len

/-- The path as a list. -/
def toPath (p : PathArray) : Path := ⟨p.nodes, p.curIndex, p.owner⟩

/-- Only places of the array differ. -/
structure SameBut (p q : PathArray) : Prop where
  len : q.len = p.len
  curIndex : q.curIndex = p.curIndex
  owner : q.owner = p.owner

variable {p q r : PathArray}

theorem SameBut.refl (p : PathArray) : SameBut p p := ⟨rfl, rfl, rfl⟩

theorem SameBut.trans (h : SameBut p q) (h' : SameBut q r) : SameBut p r :=
  ⟨h'.len.trans h.len, h'.curIndex.trans h.curIndex, h'.owner.trans h.owner⟩

theorem read_eq_some {i : ℕ} (h : i < maxSrLen) : ∃ id, p.read i = some id :=
  ⟨p.path[i], Vector.getElem?_eq_getElem h⟩

theorem getElem?_nodes (p : PathArray) (i : ℕ) :
    p.nodes[i]? = if i < p.len then p.read i else none := by
  rw [nodes, List.getElem?_take, read, Vector.getElem?_toList]

theorem length_nodes (h : p.len ≤ maxSrLen) : p.nodes.length = p.len := by
  rw [nodes, List.length_take, Vector.length_toList, Nat.min_eq_left h]

theorem write_of_le {i : ℕ} (h : maxSrLen ≤ i) (id : ID) : p.write i id = none :=
  dif_neg (Nat.not_lt.2 h)

theorem exists_write {i : ℕ} (h : i < maxSrLen) (id : ID) (p : PathArray) : ∃ q, p.write i id = some q ∧
    SameBut p q ∧ ∀ j, q.read j = if j = i then some id else p.read j := by
  refine ⟨_, dif_pos h, ⟨rfl, rfl, rfl⟩, fun j => ?_⟩
  rw [read, read, Vector.getElem?_set h]
  simp only [eq_comm]

theorem exists_fill {i : ℕ} (ids : List ID) (h : i + ids.length ≤ maxSrLen) (p : PathArray) :
    ∃ q, p.fill i ids = some q ∧ SameBut p q ∧
      ∀ j, q.read j = if i ≤ j ∧ j < i + ids.length then ids[j - i]? else p.read j := by
  induction ids generalizing i p with
  | nil =>
    refine ⟨p, rfl, SameBut.refl p, fun j => ?_⟩
    rw [if_neg (by simp)]
  | cons id ids ih =>
    rw [List.length_cons] at h
    obtain ⟨q, hq, hsame, hread⟩ := p.exists_write (i := i) (by omega) id
    obtain ⟨r, hr, hsame', hread'⟩ := ih (i := i + 1) (by omega) q
    refine ⟨r, ?_, hsame.trans hsame', fun j => ?_⟩
    · rw [fill, hq]
      exact hr
    · rw [hread', hread, List.length_cons]
      obtain rfl | hji := eq_or_ne j i
      · simp
      · rw [if_neg hji]
        by_cases hin : i + 1 ≤ j ∧ j < i + 1 + ids.length
        · rw [if_pos hin, if_pos (by omega), show j - i = j - (i + 1) + 1 by omega,
            List.getElem?_cons_succ]
        · rw [if_neg hin, if_neg (by omega)]

theorem exists_copyCells (n : ℕ) {src dst : ℕ} (hle : dst ≤ src) (h : src + n ≤ maxSrLen)
    (p : PathArray) : ∃ q, p.copyCells n src dst = some q ∧ SameBut p q ∧
      ∀ j, q.read j = if dst ≤ j ∧ j < dst + n then p.read (j - dst + src) else p.read j := by
  induction n generalizing src dst p with
  | zero =>
    refine ⟨p, rfl, SameBut.refl p, fun j => ?_⟩
    rw [if_neg (by omega)]
  | succ n ih =>
    obtain ⟨id, hid⟩ := p.read_eq_some (i := src) (by omega)
    obtain ⟨q, hq, hsame, hread⟩ := p.exists_write (i := dst) (by omega) id
    obtain ⟨r, hr, hsame', hread'⟩ := ih (Nat.succ_le_succ hle) (by omega) q
    refine ⟨r, ?_, hsame.trans hsame', fun j => ?_⟩
    · rw [copyCells, hid]
      simp only [bind_eq_bind, bind_some, hq, hr]
    · rw [hread', hread, hread]
      obtain rfl | hjd := eq_or_ne j dst
      · rw [if_neg (by omega), if_pos rfl, if_pos (by omega), Nat.sub_self, Nat.zero_add, hid]
      · by_cases hin : dst + 1 ≤ j ∧ j < dst + 1 + n
        · -- The place that is read lies behind those that are written.
          rw [if_pos hin, if_neg (by omega), if_pos (by omega),
            show j - (dst + 1) + (src + 1) = j - dst + src by omega]
        · rw [if_neg hin, if_neg hjd, if_neg (by omega)]

theorem exists_closeUp {src dst : ℕ} (hle : dst ≤ src) (hsrc : src ≤ p.len)
    (hlen : p.len ≤ maxSrLen) : ∃ q, p.closeUp src dst = some q ∧ q.len = dst + (p.len - src) ∧
      q.nodes = p.nodes.take dst ++ p.nodes.drop src ∧ q.curIndex = p.curIndex ∧
      q.owner = p.owner := by
  obtain ⟨q, hq, hsame, hread⟩ := p.exists_copyCells (p.len - src) hle (by omega)
  refine ⟨{ q with len := dst + (p.len - src) }, ?_, rfl, ?_, hsame.curIndex, hsame.owner⟩
  · rw [closeUp, hq]
    rfl
  · have htake : (p.nodes.take dst).length = dst := by
      rw [List.length_take, length_nodes hlen]
      omega
    have hcell : ∀ i, ({ q with len := dst + (p.len - src) } : PathArray).read i = q.read i :=
      fun i => rfl
    refine List.ext_getElem? fun i => ?_
    rw [getElem?_nodes, hcell, hread, List.getElem?_append, htake, List.getElem?_take,
      List.getElem?_drop, getElem?_nodes, getElem?_nodes]
    dsimp only
    by_cases hi : i < dst
    · rw [if_pos (by omega), if_neg (by omega), if_pos hi, if_pos hi, if_pos (by omega)]
    · rw [if_neg hi, show src + (i - dst) = i - dst + src by omega]
      by_cases hend : i < dst + (p.len - src)
      · rw [if_pos hend, if_pos (by omega), if_pos (by omega)]
      · rw [if_neg hend, if_neg (by omega)]

theorem exists_removeSection {start stop : ℕ} (hlt : start < stop) (hstop : stop ≤ p.len)
    (hlen : p.len ≤ maxSrLen) : ∃ q, p.removeSection start stop = some q ∧
      q.len = start + (p.len - stop) ∧ q.nodes = p.nodes.take start ++ p.nodes.drop stop ∧
      q.curIndex = if p.curIndex > start then p.curIndex - (stop - start) else p.curIndex := by
  rw [removeSection, if_neg (Nat.not_le.2 hlt)]
  obtain ⟨q, hq, hqlen, hqnodes, hqcur, -⟩ := exists_closeUp (p := { p with
    curIndex := if p.curIndex > start then p.curIndex - (stop - start) else p.curIndex })
    hlt.le hstop hlen
  exact ⟨q, hq, hqlen, hqnodes, hqcur⟩

theorem exists_foldlM_write {n : ℕ} {g : ℕ → ℕ} (hn : n ≤ maxSrLen) (hg : ∀ i < n, g i < maxSrLen)
    (hinj : ∀ i < n, ∀ j < n, g i = g j → i = j) (p q : PathArray) :
    ∃ r, (List.range n).foldlM (fun q i => do q.write (g i) (← p.read i)) q = some r ∧
      SameBut q r ∧ ∀ i < n, r.read (g i) = p.read i := by
  refine foldlM_range_of_step (P := fun k r => SameBut q r ∧ ∀ i < k, r.read (g i) = p.read i)
    (fun k hk r hr => ?_) ⟨SameBut.refl q, fun i hi => absurd hi (Nat.not_lt_zero i)⟩
  obtain ⟨id, hid⟩ := p.read_eq_some (i := k) (by omega)
  obtain ⟨r', hr', hsame, hread⟩ := r.exists_write (hg k hk) id
  refine ⟨r', ?_, hr.1.trans hsame, fun i hi => ?_⟩
  · rw [hid]
    exact hr'
  · rw [hread]
    obtain rfl | hik := eq_or_ne i k
    · rw [if_pos rfl, hid]
    · rw [if_neg fun heq => hik (hinj i (by omega) k hk heq), hr.2 i (by omega)]

theorem exists_copy (hlen : p.len ≤ maxSrLen) (onto : PathArray) :
    ∃ q, p.copy onto = some q ∧ q.len = p.len ∧ q.toPath = p.toPath := by
  obtain ⟨r, hr, -, hread⟩ := exists_foldlM_write (g := id) hlen (fun i hi => by simp; omega)
    (fun i _ j _ h => h) p onto
  refine ⟨{ r with len := p.len, curIndex := p.curIndex, owner := p.owner }, ?_, rfl, ?_⟩
  · simp only [id] at hr
    rw [copy, hr]
    rfl
  · have hnodes : ({ r with len := p.len, curIndex := p.curIndex, owner := p.owner }
        : PathArray).nodes = p.nodes := by
      refine List.ext_getElem? fun i => ?_
      rw [getElem?_nodes, getElem?_nodes]
      split_ifs with hi
      · exact hread i hi
      · rfl
    rw [toPath, toPath, hnodes]

theorem exists_reverse (hlen : p.len ≤ maxSrLen) : ∃ q, p.reverse = some q ∧ q.len = p.len ∧
    q.nodes = p.nodes.reverse ∧
    q.curIndex = if p.len = 0 then p.curIndex else p.len - 1 - p.curIndex := by
  by_cases hzero : p.len = 0
  · obtain ⟨q, hq, hlen', hpath⟩ := exists_copy hlen new
    have hnodes : q.nodes = p.nodes := congrArg Path.nodes hpath
    have hnil : p.nodes = [] := List.length_eq_zero_iff.1 ((length_nodes hlen).trans hzero)
    refine ⟨q, ?_, hlen', ?_, ?_⟩
    · rw [reverse, if_pos hzero, hq]
    · rw [hnodes, hnil, List.reverse_nil]
    · rw [if_pos hzero]
      exact congrArg Path.curIndex hpath
  · obtain ⟨r, hr, -, hread⟩ := exists_foldlM_write (g := fun i => p.len - 1 - i) hlen
      (fun i hi => by omega) (fun i _ j _ h => by omega) p new
    refine ⟨{ r with len := p.len, curIndex := p.len - 1 - p.curIndex }, ?_, rfl, ?_, ?_⟩
    · rw [reverse, if_neg hzero, hr]
      rfl
    · refine List.ext_getElem? fun i => ?_
      rw [getElem?_nodes]
      dsimp only
      split_ifs with hi
      · have hback := hread (p.len - 1 - i) (by omega)
        rw [show p.len - 1 - (p.len - 1 - i) = i by omega] at hback
        rw [List.getElem?_reverse (by rwa [length_nodes hlen]), length_nodes hlen, getElem?_nodes,
          if_pos (by omega)]
        exact hback
      · rw [List.getElem?_eq_none]
        rw [List.length_reverse, length_nodes hlen]
        omega
    · rw [if_neg hzero]

theorem exists_swapEnds (fuel fp bp : ℕ) (hfuel : bp - fp ≤ fuel) (hbp : bp < maxSrLen)
    (p : PathArray) : ∃ q, p.swapEnds fuel fp bp = some q ∧ SameBut p q ∧
      ∀ j, q.read j = if fp ≤ j ∧ j ≤ bp then p.read (fp + bp - j) else p.read j := by
  have hstay : ∀ j, ¬fp < bp → p.read j = if fp ≤ j ∧ j ≤ bp then p.read (fp + bp - j)
      else p.read j := by
    intro j hfb
    split_ifs with hj
    · rw [show fp + bp - j = j by omega]
    · rfl
  induction fuel generalizing fp bp p with
  | zero => exact ⟨p, rfl, SameBut.refl p, fun j => hstay j (by omega)⟩
  | succ fuel ih =>
    by_cases hfb : fp < bp
    · obtain ⟨temp, htemp⟩ := p.read_eq_some (i := fp) (by omega)
      obtain ⟨id, hid⟩ := p.read_eq_some hbp
      obtain ⟨q, hq, hsame, hread⟩ := p.exists_write (i := fp) (by omega) id
      obtain ⟨r, hr, hsame', hread'⟩ := q.exists_write hbp temp
      obtain ⟨u, hu, hsame'', hread''⟩ := ih (fp + 1) (bp - 1) (by omega) (by omega) r
        (fun j hn => by
          split_ifs with hj
          · rw [show fp + 1 + (bp - 1) - j = j by omega]
          · rfl)
      refine ⟨u, ?_, (hsame.trans hsame').trans hsame'', fun j => ?_⟩
      · rw [swapEnds, if_pos hfb, htemp, hid]
        simp only [bind_eq_bind, bind_some, hq, hr, hu]
      · rw [hread'', hread', hread', hread, hread]
        obtain rfl | hjf := eq_or_ne j fp
        · rw [if_neg (by omega), if_neg (by omega), if_pos rfl, if_pos (by omega),
            Nat.add_sub_cancel_left, hid]
        · obtain rfl | hjb := eq_or_ne j bp
          · rw [if_neg (by omega), if_pos rfl, if_pos (by omega), Nat.add_sub_cancel, htemp]
          · by_cases hin : fp + 1 ≤ j ∧ j ≤ bp - 1
            · rw [if_pos hin, if_neg (by omega), if_neg (by omega), if_pos (by omega),
                show fp + 1 + (bp - 1) - j = fp + bp - j by omega]
            · rw [if_neg hin, if_neg hjb, if_neg hjf, if_neg (by omega)]
    · refine ⟨p, ?_, SameBut.refl p, fun j => hstay j hfb⟩
      rw [swapEnds, if_neg hfb]

theorem exists_reverseInPlace (hlen : p.len ≤ maxSrLen) : ∃ q, p.reverseInPlace = some q ∧
    q.len = p.len ∧ q.nodes = p.nodes.reverse ∧
    q.curIndex = if p.len = 0 then p.curIndex else p.len - 1 - p.curIndex := by
  by_cases hzero : p.len = 0
  · have hnil : p.nodes = [] := List.length_eq_zero_iff.1 ((length_nodes hlen).trans hzero)
    refine ⟨p, ?_, rfl, ?_, (if_pos hzero).symm⟩
    · rw [reverseInPlace, if_pos hzero]
    · rw [hnil, List.reverse_nil]
  · obtain ⟨r, hr, hsame, hread⟩ := p.exists_swapEnds p.len 0 (p.len - 1)
      (by omega) (by omega)
    refine ⟨{ r with curIndex := p.len - 1 - p.curIndex }, ?_, hsame.len, ?_, ?_⟩
    · rw [reverseInPlace, if_neg hzero, hr]
      rfl
    · refine List.ext_getElem? fun i => ?_
      rw [getElem?_nodes]
      rw [hsame.len]
      split_ifs with hi
      · rw [List.getElem?_reverse (by rwa [length_nodes hlen]), length_nodes hlen, getElem?_nodes,
          if_pos (by omega)]
        refine (hread i).trans ?_
        rw [if_pos (by omega), Nat.zero_add]
      · rw [List.getElem?_eq_none]
        rw [List.length_reverse, length_nodes hlen]
        omega
    · rw [if_neg hzero]

theorem exists_push (h : p.len < maxSrLen) (id : ID) : ∃ q, p.write p.len id = some q ∧
    ({ q with len := p.len + 1 } : PathArray).nodes = p.nodes ++ [id] ∧ SameBut p q := by
  obtain ⟨q, hq, hsame, hread⟩ := p.exists_write h id
  refine ⟨q, hq, List.ext_getElem? fun i => ?_, hsame⟩
  have hcell : ({ q with len := p.len + 1 } : PathArray).read i = q.read i := rfl
  rw [getElem?_nodes, hcell, hread, List.getElem?_append, length_nodes h.le, getElem?_nodes]
  dsimp only
  obtain hi | rfl | hi := lt_trichotomy i p.len
  · rw [if_pos (by omega), if_neg hi.ne, if_pos hi, if_pos hi]
  · rw [if_pos (by omega), if_pos rfl, if_neg (by omega), Nat.sub_self, List.getElem?_cons_zero]
  · rw [if_neg (by omega), if_neg (by omega),
      List.getElem?_eq_none (by rw [List.length_singleton]; omega)]

theorem exists_appendToPath (h : p.len < maxSrLen) (id : ID) : ∃ q, p.appendToPath id = some q ∧
    q.len = p.len + 1 ∧ q.nodes = p.nodes ++ [id] ∧ q.curIndex = p.curIndex ∧
      q.owner = p.owner := by
  obtain ⟨q, hq, hnodes, hsame⟩ := p.exists_push h id
  refine ⟨{ q with len := p.len + 1 }, ?_, rfl, hnodes, hsame.curIndex, hsame.owner⟩
  rw [appendToPath, if_pos h, hq]
  rfl

/-- The array is appended to as the list is. -/
theorem appendToPath_toPath (h : p.len ≤ maxSrLen) (id : ID) :
    (p.appendToPath id).map toPath = p.toPath.appendToPath id := by
  have hlength : p.toPath.length = p.len := length_nodes h
  rw [Path.appendToPath, hlength]
  by_cases hlt : p.len < maxSrLen
  · obtain ⟨q, hq, -, hnodes, hcur, howner⟩ := exists_appendToPath hlt id
    rw [hq, if_pos hlt, map_some, toPath, hnodes, hcur, howner]
    rfl
  · rw [appendToPath, if_neg hlt, if_neg hlt]
    rfl

theorem setLength_toPath {l : ℕ} (h : l ≤ p.len) :
    (p.setLength l).map toPath = p.toPath.setLength l := by
  rw [setLength, Path.setLength]
  split_ifs
  · have hnodes : p.path.toList.take l = p.nodes.take l := by
      rw [nodes, List.take_take, Nat.min_eq_left h]
    rw [map_some, toPath, nodes, hnodes]
    rfl
  · rfl

section Append

variable {given : PathArray → PathArray} {fuel i : ℕ}

theorem appendFrom_of_le (h : (given p).len ≤ i) : p.appendFrom given fuel i = some p := by
  cases fuel with
  | zero => rfl
  | succ fuel => rw [appendFrom, if_neg (Nat.not_lt.2 h)]

theorem appendFrom_of_full (hi : i < (given p).len) (hfull : p.len = maxSrLen) :
    p.appendFrom given (fuel + 1) i = none := by
  rw [appendFrom, if_pos hi]
  cases (given p).read i with
  | none => rfl
  | some id =>
    rw [bind_eq_bind, bind_some, write_of_le hfull.ge]
    rfl

theorem appendFrom_succ (given : PathArray → PathArray) (fuel : ℕ) (hi : i < (given p).len) (hlt : p.len < maxSrLen) {id : ID}
    (hid : (given p).read i = some id) : ∃ q : PathArray,
      p.appendFrom given (fuel + 1) i = q.appendFrom given fuel (i + 1) ∧ q.len = p.len + 1 ∧
        q.nodes = p.nodes ++ [id] ∧ q.curIndex = p.curIndex ∧ q.owner = p.owner := by
  obtain ⟨q, hq, hnodes, hsame⟩ := p.exists_push hlt id
  refine ⟨{ q with len := p.len + 1 }, ?_, rfl, hnodes, hsame.curIndex, hsame.owner⟩
  rw [appendFrom, if_pos hi, hid]
  simp only [bind_eq_bind, bind_some, hq]
  rw [if_neg (by omega)]

theorem exists_appendFrom (fuel i : ℕ) (hfuel : q.len - i ≤ fuel) (hq : q.len ≤ maxSrLen)
    (h : p.len + (q.len - i) ≤ maxSrLen) : ∃ r, p.appendFrom (fun _ => q) fuel i = some r ∧
      r.len = p.len + (q.len - i) ∧ r.nodes = p.nodes ++ q.nodes.drop i ∧
      r.curIndex = p.curIndex := by
  have hdone : ∀ (p : PathArray) (i : ℕ), q.len ≤ i → p.len = p.len + (q.len - i) ∧
      p.nodes = p.nodes ++ q.nodes.drop i := by
    intro p i hi
    refine ⟨by omega, ?_⟩
    rw [List.drop_of_length_le, List.append_nil]
    rwa [length_nodes hq]
  induction fuel generalizing i p with
  | zero =>
    obtain ⟨hlen, hnodes⟩ := hdone p i (by omega)
    exact ⟨p, rfl, hlen, hnodes, rfl⟩
  | succ fuel ih =>
    by_cases hi : i < q.len
    · obtain ⟨id, hid⟩ := q.read_eq_some (i := i) (by omega)
      obtain ⟨p₁, hp₁, hlen, hnodes, hcur, -⟩ := appendFrom_succ (fun _ => q) fuel (p := p) hi
        (by omega) hid
      obtain ⟨r, hr, hlen', hnodes', hcur'⟩ := ih (p := p₁) (i + 1) (by omega) (by omega)
      have hget : q.nodes[i]? = some id := by rw [getElem?_nodes, if_pos hi, hid]
      obtain ⟨hlt, heq⟩ := List.getElem?_eq_some_iff.1 hget
      refine ⟨r, hp₁.trans hr, by omega, ?_, hcur'.trans hcur⟩
      rw [hnodes', hnodes, List.drop_eq_getElem_cons hlt, heq, List.append_assoc,
        List.singleton_append]
    · obtain ⟨hlen, hnodes⟩ := hdone p i (by omega)
      exact ⟨p, appendFrom_of_le (by omega), hlen, hnodes, rfl⟩

theorem appendFrom_eq_none (hfuel : maxSrLen - p.len < fuel) (hp : p.len ≤ maxSrLen)
    (hq : q.len ≤ maxSrLen) (h : maxSrLen < p.len + (q.len - i)) :
    p.appendFrom (fun _ => q) fuel i = none := by
  induction fuel generalizing i p with
  | zero => omega
  | succ fuel ih =>
    obtain hfull | hlt := hp.eq_or_lt
    · exact appendFrom_of_full (by omega) hfull
    · obtain ⟨id, hid⟩ := q.read_eq_some (i := i) (by omega)
      obtain ⟨p₁, hp₁, hlen, -⟩ := appendFrom_succ (fun _ => q) fuel (p := p)
        (by omega) hlt hid
      exact hp₁.trans (ih (by omega) (by omega) (by omega))

theorem appendFrom_self (hfuel : maxSrLen - p.len < fuel) (hp : p.len ≤ maxSrLen) (hi : i < p.len) :
    p.appendFrom id fuel i = none := by
  induction fuel generalizing i p with
  | zero => omega
  | succ fuel ih =>
    obtain hfull | hlt := hp.eq_or_lt
    · exact appendFrom_of_full hi hfull
    · obtain ⟨a, ha⟩ := p.read_eq_some (i := i) (by omega)
      obtain ⟨p₁, hp₁, hlen, -⟩ := appendFrom_succ id fuel (p := p) hi hlt ha
      exact hp₁.trans (ih (by omega) (by omega) (by omega))

end Append

end PathArray

end Dsr

end Ns2
