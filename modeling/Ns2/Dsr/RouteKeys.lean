import Mathlib.Data.Int.Notation
import Mathlib.Data.List.Nodup

/-! Source routes, and what a `RouteCache` makes of a route before it is added. Times are taken as
rational numbers; an assertion that fails gives no result. The identifiers on a route and its
links, and what the routes that are added have in common. -/

namespace Ns2

namespace Dsr

abbrev Time := Rat

/-- `MAX_SR_LEN`. -/
def maxSrLen : ℕ := 16

inductive LinkType where
  | none
  | tested
  | untested
  deriving DecidableEq

inductive LogStatus where
  | none
  | unlogged
  | logged
  deriving DecidableEq

inductive IDType where
  | none
  | mac
  | ip
  deriving DecidableEq

structure ID where
  addr : ℕ
  type : IDType
  t : Time
  linkType : LinkType
  logStat : LogStatus

namespace ID

/-- An identifier without a link. -/
def ofAddr (addr : ℕ) (type : IDType) : ID := ⟨addr, type, -1, .none, .none⟩

/-- What two identifiers are compared by. -/
def key (a : ID) : IDType × ℕ := (a.type, a.addr)

/-- `operator==`. -/
def eq (a b : ID) : Bool := a.key = b.key

end ID

def invalidAddr : ID := .ofAddr 0xffffffff .none

structure Path where
  nodes : List ID
  curIndex : ℤ
  owner : ID

namespace Path

def init : Path := ⟨[], 0, .ofAddr 0 .none⟩

def length (p : Path) : ℕ := p.nodes.length

def reset (p : Path) : Path := { p with nodes := [], curIndex := 0 }

/-- A length up to the present one is set. -/
def setLength (l : ℕ) (p : Path) : Option Path :=
  if l ≤ maxSrLen then some { p with nodes := p.nodes.take l } else none

def full (p : Path) : Bool := decide (maxSrLen ≤ p.length)

def appendToPath (p : Path) (id : ID) : Option Path :=
  if p.length < maxSrLen then some { p with nodes := p.nodes ++ [id] } else none

/-- The owner that is left when the nodes are scanned from the last one. -/
def scanOwner (dst src : ID) : List ID → ID
  | [] => dst
  | id :: rest => if id.eq dst then dst else if id.eq src then src else scanOwner dst src rest

/-- `CopyIntoPath` up to the last node, to a path without nodes. -/
def copyInto (dst src : Path) (start : ℕ) : Path :=
  let nodes := src.nodes.drop start
  { dst with nodes, owner := scanOwner dst.owner src.owner nodes.reverse }

/-- The identifiers are noted, as far as they fit. -/
def appendWhile (p : Path) : List ID → Path
  | [] => p
  | id :: rest => if p.full then p else appendWhile { p with nodes := p.nodes ++ [id] } rest

end Path

structure RouteCache where
  macId : ID
  netId : ID
  ignoreHints : Bool
  useOverheardRoutes : Bool

namespace RouteCache

/-- Is it the node itself? -/
def isOwn (rc : RouteCache) (id : ID) : Bool := id.eq rc.netId || id.eq rc.macId

/-- The links of a route up to the one who gave it are taken as tested. -/
def mark (t : Time) (whoFrom : ID) : LinkType → List ID → List ID
  | _, [] => []
  | kind, id :: rest =>
    let kind := if id.eq whoFrom then .untested else kind
    { id with logStat := .unlogged, linkType := kind, t } :: mark t whoFrom kind rest

/-- `pre_addRoute`: the route to add, if there is one. -/
def preAddRoute (rc : RouteCache) (route : Path) (t : Time) (whoFrom : ID) :
    Option (Option Path) :=
  if rc.netId.eq invalidAddr then none
  else
    match route.nodes with
    | first :: _ :: _ =>
      if rc.isOwn first then
        some (some { route with owner := whoFrom, nodes := mark t whoFrom .tested route.nodes })
      else some none
    | _ => some none

/-- The route that is overheard, with a link to the one who sent it. -/
def overheard (rc : RouteCache) (p : Path) : Option Path := do
  let stub ← Path.init.appendToPath rc.netId
  if p.curIndex - 1 < 0 then none
  else some (stub.appendWhile (p.nodes.drop (p.curIndex - 1).toNat))

/-- `pre_noticeRouteUsed`. -/
def preNoticeRouteUsed (rc : RouteCache) (p : Path) (t : Time) (whoFrom : ID) :
    Option (Option Path) :=
  if p.length < 2 ∨ rc.ignoreHints then some none
  else
    let c := p.nodes.findIdx rc.isOwn
    if c = p.length - 1 then some none
    else if c = p.length then
      if rc.useOverheardRoutes then
        if p.curIndex = 0 then some none
        else do
          let stub ← rc.overheard p
          match mark t whoFrom .tested stub.nodes with
          | [] => none
          | first :: rest =>
            some (some { stub with nodes := { first with linkType := .untested } :: rest })
      else some none
    else
      let stub := Path.init.copyInto p c
      some (some { stub with nodes := mark t whoFrom .tested stub.nodes })

end RouteCache

end Dsr

open List Option

namespace Dsr

/-- The identifiers that follow each other. -/
def links {α : Type*} (l : List α) : List (α × α) := l.zip l.tail

section Links

variable {α : Type*} {l : List α} {a b : α}

theorem mem_links : (a, b) ∈ links l ↔ ∃ i, l[i]? = some a ∧ l[i + 1]? = some b := by
  unfold links
  rw [mem_iff_getElem?]
  refine exists_congr fun i => ?_
  rw [getElem?_zip_eq_some, getElem?_tail]

theorem mem_links_of_drop {n : ℕ} (h : (a, b) ∈ links (l.drop n)) : (a, b) ∈ links l := by
  obtain ⟨i, ha, hb⟩ := mem_links.1 h
  rw [getElem?_drop] at ha hb
  exact mem_links.2 ⟨n + i, ha, hb⟩

theorem mem_links_of_take {n : ℕ} (h : (a, b) ∈ links (l.take n)) : (a, b) ∈ links l := by
  obtain ⟨i, ha, hb⟩ := mem_links.1 h
  rw [getElem?_take] at ha hb
  split_ifs at ha hb
  exact mem_links.2 ⟨i, ha, hb⟩

theorem links_cons : links (a :: b :: l) = (a, b) :: links (b :: l) := rfl

end Links

abbrev Key := IDType × ℕ

namespace ID

variable {a b : ID}

theorem eq_iff : a.eq b = true ↔ a.key = b.key := decide_eq_true_iff

end ID

namespace Path

/-- The identifiers on a route. -/
def keys (p : Path) : List Key := p.nodes.map ID.key

theorem length_keys {p : Path} : p.keys.length = p.length := length_map ..

theorem keys_appendWhile {p : Path} {l : List ID} (h : p.length ≤ maxSrLen) :
    (p.appendWhile l).keys = p.keys ++ (l.map ID.key).take (maxSrLen - p.length) := by
  induction l generalizing p with
  | nil => simp [appendWhile]
  | cons id l ih =>
    unfold appendWhile full
    split_ifs with hfull
    · rw [decide_eq_true_iff] at hfull
      have hlen : maxSrLen - p.length = 0 := by omega
      rw [hlen]
      simp
    · rw [decide_eq_true_iff] at hfull
      have hlen : ({ p with nodes := p.nodes ++ [id] } : Path).length = p.length + 1 := by
        unfold length
        rw [length_append, length_singleton]
      have hrest : maxSrLen - p.length = maxSrLen - (p.length + 1) + 1 := by omega
      rw [ih (by omega), hlen, hrest]
      simp [keys]

end Path

namespace RouteCache

variable {rc : RouteCache} {t : Time} {whoFrom : ID}
variable {p stub : Path}

/-- Is it one of the node's own identifiers? -/
def IsOwn (rc : RouteCache) (k : Key) : Prop := k = rc.netId.key ∨ k = rc.macId.key

theorem isOwn_iff {id : ID} : rc.isOwn id = true ↔ rc.IsOwn id.key := by
  unfold isOwn IsOwn
  rw [Bool.or_eq_true, ID.eq_iff, ID.eq_iff]

theorem keys_mark (t : Time) (whoFrom : ID) (kind : LinkType) (l : List ID) :
    (mark t whoFrom kind l).map ID.key = l.map ID.key := by
  induction l generalizing kind with
  | nil => rfl
  | cons id l ih =>
    unfold mark
    rw [map_cons, map_cons, ih]
    rfl

/-- The routes a cache takes: `len` and `curIndex` as the invariants of `Path` have them, and no
identifier twice. -/
structure Takes (p : Path) : Prop where
  length : p.length ≤ maxSrLen
  curIndex : p.curIndex ≤ p.length
  nodup : p.keys.Nodup

/-- The link is on the route, or it is the one that the node has to the sender of a route it is not
on. -/
def Shows (rc : RouteCache) (p : Path) (l : Key × Key) : Prop :=
  l ∈ links p.keys ∨ (∀ k ∈ p.keys, ¬rc.IsOwn k) ∧ l.1 = rc.netId.key ∧ 0 < p.curIndex ∧
    p.keys[(p.curIndex - 1).toNat]? = some l.2

/-- A route of the node itself over links with `F`. -/
structure Sound (rc : RouteCache) (F : Key × Key → Prop) (ks : List Key) : Prop where
  length : ks.length = 0 ∨ 2 ≤ ks.length
  short : ks.length ≤ maxSrLen
  own : ∀ k, ks.head? = some k → rc.IsOwn k
  nodup : ks.Nodup
  links : ∀ l ∈ links ks, F l

theorem Sound.nil {F : Key × Key → Prop} : rc.Sound F [] :=
  ⟨.inl rfl, Nat.zero_le _, fun _ h => absurd h (by simp), nodup_nil, fun _ h => absurd h (by simp [Dsr.links])⟩

theorem Sound.mono {F G : Key × Key → Prop} {ks : List Key} (h : rc.Sound F ks)
    (hFG : ∀ l ∈ Dsr.links ks, F l → G l) : rc.Sound G ks :=
  ⟨h.length, h.short, h.own, h.nodup, fun l hl => hFG l hl (h.links l hl)⟩

theorem preAddRoute_spec (t : Time) (whoFrom : ID) (hnet : rc.netId.eq invalidAddr = false)
    (hp : Takes p) :
    ∃ r, rc.preAddRoute p t whoFrom = some r ∧
      ∀ rt, r = some rt → rc.Sound (· ∈ Dsr.links p.keys) rt.keys ∧ 2 ≤ rt.length := by
  have hnone : (none : Option Path) = none → ∀ rt, (none : Option Path) = some rt →
      rc.Sound (· ∈ Dsr.links p.keys) rt.keys ∧ 2 ≤ rt.length := fun _ rt h => absurd h (by simp)
  unfold preAddRoute
  rw [hnet, if_neg Bool.false_ne_true]
  rcases hnodes : p.nodes with - | ⟨first, - | ⟨second, rest⟩⟩
  · exact ⟨none, rfl, hnone rfl⟩
  · exact ⟨none, rfl, hnone rfl⟩
  · dsimp only
    split_ifs with hown
    · refine ⟨_, rfl, fun rt hrt => ?_⟩
      obtain rfl := some_inj.1 hrt
      have hkeys : (⟨mark t whoFrom .tested p.nodes, p.curIndex, whoFrom⟩ : Path).keys = p.keys :=
        keys_mark _ _ _ _
      have hlen : 2 ≤ p.keys.length := by
        rw [Path.keys, hnodes]
        exact Nat.le_add_left 2 _
      rw [← hnodes, ← Path.length_keys, hkeys]
      refine ⟨⟨.inr hlen, ?_, fun k hk => ?_, hp.nodup, fun l hl => hl⟩, hlen⟩
      · rw [Path.length_keys]
        exact hp.length
      · rw [Path.keys, hnodes] at hk
        obtain rfl := some_inj.1 hk
        exact isOwn_iff.1 hown
    · exact ⟨none, rfl, hnone rfl⟩

theorem sound_drop (hp : Takes p) {c : ℕ} (hc : c + 2 ≤ p.length)
    (hown : ∀ k, p.keys[c]? = some k → rc.IsOwn k) : rc.Sound (rc.Shows p) (p.keys.drop c) := by
  have hlen : (p.keys.drop c).length = p.length - c := by rw [length_drop, Path.length_keys]
  have hshort := hp.length
  refine ⟨.inr (by omega), by omega, fun k hk => ?_, hp.nodup.sublist (drop_sublist _ _),
    fun l hl => .inl (mem_links_of_drop hl)⟩
  rw [head?_drop] at hk
  exact hown k hk

theorem sound_overheard (hp : Takes p) (hpos : 0 < p.curIndex) (hnot : ∀ k ∈ p.keys, ¬rc.IsOwn k) :
    rc.Sound (rc.Shows p)
      (rc.netId.key :: (p.keys.drop (p.curIndex - 1).toNat).take (maxSrLen - 1)) := by
  have hidx := hp.curIndex
  have hlt : (p.curIndex - 1).toNat < p.keys.length := by
    rw [Path.length_keys]
    omega
  generalize hi : (p.curIndex - 1).toNat = i at *
  have hdrop := drop_eq_getElem_cons hlt
  have hmax : maxSrLen - 1 = 14 + 1 := rfl
  have hmem : ∀ k ∈ (p.keys.drop i).take (maxSrLen - 1), k ∈ p.keys := fun k hk =>
    mem_of_mem_drop (mem_of_mem_take hk)
  refine ⟨.inr ?_, ?_, fun k hk => .inl (some_inj.1 hk).symm, ?_, fun l hl => ?_⟩
  · rw [hdrop, hmax, take_succ_cons, length_cons, length_cons]
    exact Nat.le_add_left 2 _
  · rw [length_cons, length_take]
    have : maxSrLen = 16 := rfl
    omega
  · refine nodup_cons.2 ⟨fun hk => hnot _ (hmem _ hk) (.inl rfl), ?_⟩
    exact hp.nodup.sublist ((take_sublist _ _).trans (drop_sublist _ _))
  · rw [hdrop, hmax, take_succ_cons, links_cons, mem_cons] at hl
    rcases hl with rfl | hl
    · refine .inr ⟨hnot, rfl, hpos, ?_⟩
      rw [hi]
      exact getElem?_eq_getElem hlt
    · rw [← take_succ_cons, ← hdrop] at hl
      exact .inl (mem_links_of_drop (mem_links_of_take hl))

theorem overheard_keys (h : rc.overheard p = some stub) : stub.keys =
    rc.netId.key :: (p.keys.drop (p.curIndex - 1).toNat).take (maxSrLen - 1) ∧ 0 < p.curIndex := by
  unfold overheard at h
  have hadd : Path.init.appendToPath rc.netId = some ⟨[rc.netId], 0, .ofAddr 0 .none⟩ := rfl
  rw [hadd, bind_eq_bind, bind_some] at h
  split_ifs at h with hpos
  obtain rfl := some_inj.1 h
  refine ⟨?_, by omega⟩
  have hlen : (⟨[rc.netId], 0, .ofAddr 0 .none⟩ : Path).length ≤ maxSrLen :=
    Nat.succ_le_succ (Nat.zero_le 15)
  rw [Path.keys_appendWhile hlen, map_drop]
  rfl

/-- The identifiers on a route that is noticed are on the route given, or the node's own. -/
theorem preNoticeRouteUsed_keys (h : rc.preNoticeRouteUsed p t whoFrom = some (some stub)) :
    ∀ k ∈ stub.keys, k ∈ p.keys ∨ k = rc.netId.key := by
  unfold preNoticeRouteUsed at h
  dsimp only at h
  split_ifs at h with hstop hlast hnot huse hidx
  · cases h
  · cases h
  · cases h
  · obtain ⟨stub₀, hstub₀, h⟩ := bind_eq_some_iff.1 h
    have hmark := keys_mark t whoFrom .tested stub₀.nodes
    intro k hk
    have hk₀ : k ∈ stub₀.keys := by
      rw [Path.keys, ← hmark]
      rcases hm : mark t whoFrom .tested stub₀.nodes with - | ⟨first, rest⟩
      · rw [hm] at h
        cases h
      · rw [hm] at h
        obtain rfl := some_inj.1 (some_inj.1 h)
        exact hk
    rw [(overheard_keys hstub₀).1] at hk₀
    rcases mem_cons.1 hk₀ with hk₀ | hk₀
    · exact .inr hk₀
    · exact .inl (mem_of_mem_drop (mem_of_mem_take hk₀))
  · cases h
  · obtain rfl := some_inj.1 (some_inj.1 h)
    intro k hk
    have hkeys := keys_mark t whoFrom .tested
      (p.nodes.drop (p.nodes.findIdx rc.isOwn))
    rw [map_drop] at hkeys
    have hk' : k ∈ (p.nodes.map ID.key).drop (p.nodes.findIdx rc.isOwn) := hkeys.symm ▸ hk
    exact .inl (mem_of_mem_drop hk')

theorem preAddRoute_keys {rt : Path} (h : rc.preAddRoute p t whoFrom = some (some rt)) :
    rt.keys = p.keys := by
  unfold preAddRoute at h
  split_ifs at h with hnet
  rcases hnodes : p.nodes with - | ⟨first, - | ⟨second, rest⟩⟩
  · rw [hnodes] at h
    cases h
  · rw [hnodes] at h
    cases h
  · rw [hnodes] at h
    dsimp only at h
    split_ifs at h with hown
    · obtain rfl := some_inj.1 (some_inj.1 h)
      rw [← hnodes]
      exact keys_mark _ _ _ _
    · cases h

theorem preNoticeRouteUsed_spec (hp : Takes p)
    (h : rc.preNoticeRouteUsed p t whoFrom = some (some stub)) :
    rc.Sound (rc.Shows p) stub.keys ∧ 2 ≤ stub.length := by
  unfold preNoticeRouteUsed at h
  dsimp only at h
  have hsound : ∀ ks, rc.Sound (rc.Shows p) ks → 0 < ks.length → stub.keys = ks →
      rc.Sound (rc.Shows p) stub.keys ∧ 2 ≤ stub.length := by
    rintro ks hks hpos rfl
    rw [← Path.length_keys]
    exact ⟨hks, hks.length.resolve_left (Nat.pos_iff_ne_zero.1 hpos)⟩
  have hle : p.nodes.findIdx rc.isOwn ≤ p.length := findIdx_le_length
  split_ifs at h with hstop hlast hnot huse hidx
  · cases h
  · cases h
  · cases h
  · obtain ⟨stub₀, hstub₀, h⟩ := bind_eq_some_iff.1 h
    obtain ⟨hkeys, hpos⟩ := overheard_keys hstub₀
    have hnone : ∀ k ∈ p.keys, ¬rc.IsOwn k := by
      intro k hk hown
      obtain ⟨id, hid, rfl⟩ := mem_map.1 hk
      have := findIdx_eq_length.1 hnot id hid
      rw [isOwn_iff.2 hown] at this
      cases this
    refine hsound _ (sound_overheard hp hpos hnone) (Nat.succ_pos _) ?_
    rw [← hkeys]
    have hmark := keys_mark t whoFrom .tested stub₀.nodes
    rcases hm : mark t whoFrom .tested stub₀.nodes with - | ⟨first, rest⟩
    · rw [hm] at h
      cases h
    · rw [hm] at h hmark
      obtain rfl := some_inj.1 (some_inj.1 h)
      exact hmark
  · cases h
  · obtain rfl := some_inj.1 (some_inj.1 h)
    have hlt : p.nodes.findIdx rc.isOwn < p.nodes.length := by
      unfold Path.length at *
      omega
    have hown := findIdx_getElem (w := hlt)
    generalize hc : p.nodes.findIdx rc.isOwn = c at *
    refine hsound _ (sound_drop hp (c := c) ?_ fun k hk => ?_) ?_ ?_
    · omega
    · rw [Path.keys, getElem?_map, getElem?_eq_getElem hlt] at hk
      obtain rfl := some_inj.1 hk
      exact isOwn_iff.1 hown
    · rw [length_drop, Path.length_keys]
      omega
    · exact (keys_mark _ _ _ (p.nodes.drop c)).trans map_drop

theorem exists_preNoticeRouteUsed (rc : RouteCache) (t : Time) (whoFrom : ID)
    (hidx : 0 ≤ p.curIndex) : ∃ r, rc.preNoticeRouteUsed p t whoFrom = some r := by
  unfold preNoticeRouteUsed
  dsimp only
  split_ifs with hstop hlast hnot huse hzero
  · exact ⟨_, rfl⟩
  · exact ⟨_, rfl⟩
  · exact ⟨_, rfl⟩
  · have hover : rc.overheard p = some ((⟨[rc.netId], 0, .ofAddr 0 .none⟩ : Path).appendWhile
        (p.nodes.drop (p.curIndex - 1).toNat)) := by
      have hadd : Path.init.appendToPath rc.netId = some ⟨[rc.netId], 0, .ofAddr 0 .none⟩ := rfl
      unfold overheard
      rw [hadd, bind_eq_bind, bind_some]
      exact if_neg (by omega)
    obtain ⟨hkeys, -⟩ := overheard_keys hover
    rw [hover, bind_eq_bind, bind_some]
    rcases hmark : mark t whoFrom .tested _ with - | ⟨first, rest⟩
    · have hempty := (keys_mark t whoFrom .tested _).symm.trans
        (congrArg (List.map ID.key) hmark)
      rw [Path.keys] at hkeys
      rw [hkeys] at hempty
      cases hempty
    · exact ⟨_, rfl⟩
  · exact ⟨_, rfl⟩
  · exact ⟨_, rfl⟩

end RouteCache

def sampleNode : RouteCache := ⟨.ofAddr 100 .mac, .ofAddr 1 .ip, false, true⟩

def samplePath (addrs : List ℕ) (curIndex : ℤ) : Path :=
  ⟨addrs.map (.ofAddr · .ip), curIndex, .ofAddr 0 .none⟩

end Dsr

end Ns2
