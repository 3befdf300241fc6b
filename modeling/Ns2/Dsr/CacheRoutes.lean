import Ns2.Dsr.MobiCache

/-! What the operations of a `Cache` do to the identifiers on its routes. -/

namespace Ns2

open List Option

namespace Dsr

namespace Cache

variable {c c' : Cache} {path p p' : Path} {size i n : ℕ} {P Q : List Key → Prop} {src dst dest : ID}
variable {l : List ID}

/-- A cache for `size` routes, each with `P`. -/
structure Holds (c : Cache) (size : ℕ) (P : List Key → Prop) : Prop where
  length : c.cache.length = size
  victim : c.victimPtr < size
  routes : ∀ p ∈ c.cache, P p.keys

theorem holds_init (hsize : 0 < size) (hP : P []) : (init size).Holds size P :=
  ⟨length_replicate, hsize, fun p hp => by rwa [eq_of_mem_replicate hp]⟩

theorem Holds.mono (h : c.Holds size P) (hPQ : ∀ ks, P ks → Q ks) : c.Holds size Q :=
  ⟨h.length, h.victim, fun p hp => hPQ _ (h.routes p hp)⟩

theorem Holds.set (h : c.Holds size P) (i : ℕ) (hp : P p.keys) :
    Holds { c with cache := c.cache.set i p } size P := by
  refine ⟨(List.length_set ..).trans h.length, h.victim, fun q hq => ?_⟩
  rcases mem_or_eq_of_mem_set hq with hq | rfl
  · exact h.routes q hq
  · exact hp

theorem commonLen_spec (as bs : List ID) : commonLen as bs ≤ as.length ∧
    commonLen as bs ≤ bs.length ∧
    (as.map ID.key).take (commonLen as bs) = (bs.map ID.key).take (commonLen as bs) := by
  induction as generalizing bs with
  | nil => exact ⟨le_rfl, Nat.zero_le _, rfl⟩
  | cons a as ih =>
    rcases bs with - | ⟨b, bs⟩
    · exact ⟨Nat.zero_le _, le_rfl, rfl⟩
    · unfold commonLen
      split_ifs with hab
      · obtain ⟨ha, hb, heq⟩ := ih bs
        refine ⟨Nat.succ_le_succ ha, Nat.succ_le_succ hb, ?_⟩
        rw [map_cons, map_cons, take_succ_cons, take_succ_cons, heq,
          ID.eq_iff.1 hab]
      · exact ⟨Nat.zero_le _, Nat.zero_le _, rfl⟩

theorem findSlot_spec {l : List Path} (h : findSlot path i l = some (size, n)) :
    ∃ j p, size = i + j ∧ l[j]? = some p ∧ n = commonLen p.nodes path.nodes ∧
      (n = p.length ∨ n = path.length) := by
  induction l generalizing i with
  | nil => cases h
  | cons p l ih =>
    unfold findSlot at h
    dsimp only at h
    split_ifs at h with hn
    · cases h
      exact ⟨0, p, rfl, rfl, rfl, hn⟩
    · obtain ⟨j, q, hj, hq, hrest⟩ := ih h
      exact ⟨j + 1, q, by omega, hq, hrest⟩

theorem foldlM_appendToPath (h : p.length + l.length ≤ maxSrLen) :
    l.foldlM Path.appendToPath p = some { p with nodes := p.nodes ++ l } := by
  induction l generalizing p with
  | nil => simp
  | cons id l ih =>
    rw [length_cons] at h
    have hlen : ({ p with nodes := p.nodes ++ [id] } : Path).length = p.length + 1 :=
      length_append
    rw [foldlM_cons, Path.appendToPath, if_pos (by omega), bind_eq_bind,
      bind_some, ih (by omega)]
    simp

theorem keys_freshenPath (path l : List ID) : (freshenPath path l).map ID.key = l.map ID.key := by
  induction path, l using freshenPath.induct with
  | case1 b b' bs a a' as hab ih =>
    unfold freshenPath
    rw [if_pos hab, map_cons, ih, map_cons]
    split_ifs <;> rfl
  | case2 b b' bs a a' as hab =>
    unfold freshenPath
    rw [if_neg hab]
  | case3 path l h =>
    unfold freshenPath
    split
    · exact absurd rfl (h _ _ _ _ _ _ rfl)
    · rfl

theorem Holds.freshen (h : c.Holds size P) (path : Path) : (freshen path c).Holds size P := by
  refine ⟨(length_map ..).trans h.length, h.victim, fun p hp => ?_⟩
  obtain ⟨q, hq, rfl⟩ := mem_map.1 hp
  unfold Path.keys
  rw [keys_freshenPath]
  exact h.routes q hq

theorem Holds.pickVictim (h : c.Holds size P) :
    c.pickVictim.2.Holds size P ∧ c.pickVictim.1 < c.pickVictim.2.cache.length := by
  unfold Cache.pickVictim
  split
  · next i hi =>
    obtain ⟨hlt, -⟩ := findIdx?_eq_some_iff_getElem.1 hi
    exact ⟨h, hlt⟩
  · refine ⟨⟨h.length, ?_, h.routes⟩, h.length ▸ h.victim⟩
    have hlt := h.victim
    have hsize : c.size = size := h.length
    dsimp only
    split_ifs <;> omega

theorem Holds.addRoute (h : c.Holds size P) (hpath : P path.keys) (hlen : path.length ≤ maxSrLen) :
    ∃ c' n, addRoute path c = some (c', n) ∧ c'.Holds size P ∧ n ≤ path.length := by
  unfold Cache.addRoute
  rcases hslot : findSlot path 0 c.cache with - | ⟨index, n⟩
  · obtain ⟨hvictim, hlt⟩ := h.pickVictim
    have hp : (c.pickVictim.2.cache[c.pickVictim.1].reset.copyInto path 0).keys = path.keys := rfl
    refine ⟨_, 0, ?_, (hvictim.set c.pickVictim.1 (hp.symm ▸ hpath)).freshen path,
      Nat.zero_le _⟩
    dsimp only
    rw [getElem?_eq_getElem hlt]
    rfl
  · obtain ⟨j, p, hj, hp, hn, hor⟩ := findSlot_spec hslot
    rw [Nat.zero_add] at hj
    subst hj
    obtain ⟨hle, hle', heq⟩ := commonLen_spec p.nodes path.nodes
    rw [← hn] at hle hle' heq
    dsimp only
    rw [hp, bind_eq_bind, bind_some]
    split_ifs with hall
    · have hfold := foldlM_appendToPath (p := p) (l := path.nodes.drop n) (by
        rw [length_drop]
        unfold Path.length at *
        omega)
      rw [hfold]
      refine ⟨_, n, rfl, (h.set _ ?_).freshen path, hle'⟩
      have hkeys : ({ p with nodes := p.nodes ++ path.nodes.drop n } : Path).keys = path.keys := by
        have hp : (p.nodes.map ID.key).take n = p.nodes.map ID.key :=
          take_of_length_le (by rw [length_map]; exact hall.ge)
        unfold Path.keys
        rw [map_append, ← hp, heq, map_drop, take_append_drop]
      rw [hkeys]
      exact hpath
    · exact ⟨_, n, rfl, (h.set _ (h.routes p (mem_of_getElem? hp))).freshen path, hle'⟩

theorem findLink_none (h : findLink src dst l = none) :
    (src.key, dst.key) ∉ links (l.map ID.key) := by
  induction l with
  | nil => exact not_mem_nil
  | cons a l ih =>
    rcases l with - | ⟨b, l⟩
    · exact not_mem_nil
    · unfold findLink at h
      split_ifs at h with hab
      rw [map_cons, map_cons, links_cons, mem_cons, not_or]
      refine ⟨fun heq => hab ?_, ih (map_eq_none_iff.1 h)⟩
      obtain ⟨ha, hb⟩ := Prod.mk.inj heq
      exact ⟨ID.eq_iff.2 ha.symm, ID.eq_iff.2 hb.symm⟩

theorem findLink_some (h : findLink src dst l = some n) : (l.map ID.key)[n]? = some src.key := by
  induction l generalizing n with
  | nil => cases h
  | cons a l ih =>
    rcases l with - | ⟨b, l⟩
    · cases h
    · unfold findLink at h
      split_ifs at h with hab
      · obtain rfl := some_inj.1 h
        exact congrArg some (ID.eq_iff.1 hab.1)
      · obtain ⟨m, hm, rfl⟩ := map_eq_some_iff.1 h
        exact ih hm

variable {rc : RouteCache} {F : Key × Key → Prop}

theorem map_key_modify {f : ID → ID} (hf : ∀ id, (f id).key = id.key) :
    (l.modify i f).map ID.key = l.map ID.key := by
  refine ext_getElem? fun j => ?_
  rw [getElem?_map, getElem?_map, getElem?_modify]
  cases l[j]? with
  | none => rfl
  | some id =>
    have hkey : (if i = j then f id else id).key = id.key := by
      split_ifs
      · exact hf id
      · rfl
    exact congrArg some hkey

theorem truncate_spec (h : rc.Sound F p.keys) (src dst : ID) : ∃ p', truncate src dst p = some p' ∧
    rc.Sound (fun l => F l ∧ l ≠ (src.key, dst.key)) p'.keys := by
  unfold truncate
  rcases hlink : findLink src dst p.nodes with - | - | n
  · refine ⟨p, rfl, h.length, h.short, h.own, h.nodup, fun l hl => ⟨h.links l hl, ?_⟩⟩
    rintro rfl
    exact findLink_none hlink hl
  · exact ⟨p.reset, rfl, .nil⟩
  · have hn := findLink_some hlink
    have hlt : n + 1 < p.keys.length := (List.getElem?_eq_some_iff.1 hn).1
    have hshort := h.short
    have hkeys : ((p.nodes.take (n + 1 + 1)).modify (n + 1)
        fun id => { id with logStat := .unlogged }).map ID.key = p.keys.take (n + 1 + 1) := by
      rw [map_key_modify (by intro; rfl), map_take]
      rfl
    refine ⟨⟨(p.nodes.take (n + 1 + 1)).modify (n + 1)
      (fun id => { id with logStat := .unlogged }), p.curIndex, p.owner⟩, ?_, ?_⟩
    · dsimp only
      rw [Path.setLength, if_pos (by omega)]
      rfl
    · unfold Path.keys at hkeys hn hlt hshort ⊢
      rw [hkeys]
      refine ⟨.inr ?_, ?_, fun k hk => h.own k ?_, h.nodup.sublist (take_sublist _ _),
        fun l hl => ⟨h.links l (mem_links_of_take hl), ?_⟩⟩
      · rw [length_take]
        omega
      · rw [length_take]
        omega
      · rwa [head?_take, if_neg (Nat.succ_ne_zero _)] at hk
      · rintro rfl
        obtain ⟨i, hi, hi'⟩ := mem_links.1 hl
        rw [getElem?_take] at hi hi'
        split_ifs at hi hi' with hlt₁ hlt₂
        have hlt' : i < p.keys.length := (List.getElem?_eq_some_iff.1 hi).1
        have heq := (List.getElem?_inj hlt' h.nodup).1 (hi.trans hn.symm)
        omega

theorem mapM_spec {α β : Type*} {f : α → Option β} {R : β → Prop} {l : List α}
    (h : ∀ a ∈ l, ∃ b, f a = some b ∧ R b) :
    ∃ l', l.mapM f = some l' ∧ l'.length = l.length ∧ ∀ b ∈ l', R b := by
  induction l with
  | nil => exact ⟨[], rfl, rfl, fun _ h => absurd h not_mem_nil⟩
  | cons a l ih =>
    obtain ⟨b, hb, hR⟩ := h a mem_cons_self
    obtain ⟨l', hl', hlen, hR'⟩ := ih fun a' ha' => h a' (mem_cons_of_mem a ha')
    refine ⟨b :: l', ?_, congrArg (· + 1) hlen, forall_mem_cons.2 ⟨hR, hR'⟩⟩
    rw [mapM_cons, hb, hl']
    rfl

theorem Holds.noticeDeadLink (h : c.Holds size (rc.Sound F)) (src dst : ID) :
    ∃ c', noticeDeadLink src dst c = some c' ∧
      c'.Holds size (rc.Sound fun l => F l ∧ l ≠ (src.key, dst.key)) := by
  obtain ⟨l, hl, hlen, hsound⟩ := mapM_spec fun p hp =>
    truncate_spec (h.routes p hp) src dst
  unfold Cache.noticeDeadLink
  rw [hl]
  exact ⟨_, rfl, hlen.trans h.length, h.victim, hsound⟩

end Cache

end Dsr

end Ns2
