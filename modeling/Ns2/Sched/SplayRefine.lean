import Ns2.Sched.ListScheduler

/-! The splay scheduler of `common/splay-scheduler.cc`. The pointers `prev_` and `next_` of the
events are the left and right children of a tree. The splay tree holds the list queue in its
in-order traversal, through top-down splaying, the rotations of `deque` and the splice of
`cancel`. -/

namespace Ns2

inductive SplayTree (K : Type*) where
  | nil
  | node (left : SplayTree K) (e : Event K) (right : SplayTree K)
deriving DecidableEq

namespace SplayTree

variable {K : Type*}

def inorder : SplayTree K → List (Event K)
  | nil => []
  | node left e right => left.inorder ++ e :: right.inorder

/-- The left tree while it is built: the nodes from its bottom right `l` up, each
with its left child. The right child of `l` is still open. -/
def plugLeft (bottom : SplayTree K) : List (SplayTree K × Event K) → SplayTree K
  | [] => bottom
  | (left, e) :: l => plugLeft (node left e bottom) l

/-- The right tree while it is built: the nodes from its bottom left `r` up, each
with its right child. -/
def plugRight (bottom : SplayTree K) : List (Event K × SplayTree K) → SplayTree K
  | [] => bottom
  | (e, right) :: r => plugRight (node bottom e right) r

/-- The loop of `insert` with the remaining tree `t`; it answers the left and the
right tree. A rotation is always followed by the link of the new root. -/
def insertLoop [LinearOrder K] (time : K) : SplayTree K → List (SplayTree K × Event K) →
    List (Event K × SplayTree K) → SplayTree K × SplayTree K
  | nil, l, r => (plugLeft nil l, plugRight nil r)
  | node left t right, l, r =>
    if time < t.time then
      match left with
      | nil => (plugLeft nil l, plugRight (node nil t right) r)
      | node xl x xr =>
        if time < x.time then insertLoop time xl l ((x, node xr t right) :: r)
        else insertLoop time (node xl x xr) l ((t, right) :: r)
    else
      match right with
      | nil => (plugLeft (node left t nil) l, plugRight nil r)
      | node xl x xr =>
        if time ≥ x.time then insertLoop time xr ((node left t xl, x) :: l) r
        else insertLoop time (node xl x xr) ((left, t) :: l) r

/-- The left and the right tree become the children of the new root. -/
def insert [LinearOrder K] (n : Event K) (root : SplayTree K) : SplayTree K :=
  let (left, right) := insertLoop n.time root [] []
  node left n right

def head : SplayTree K → Option (Event K)
  | nil => none
  | node nil t _ => some t
  | node left _ _ => left.head

/-- The loop of `deque` on the left child of `t`: what becomes of that child, and
the event taken out. -/
def dequeLoop : SplayTree K → Option (SplayTree K × Event K)
  | nil => none
  | node nil l right => some (right, l)
  | node (node nil ll right') l right => some (node right' l right, ll)
  | node (node lll ll right') l right =>
    (dequeLoop lll).map fun (left, e) => (node left ll (node right' l right), e)

def deque : SplayTree K → Option (SplayTree K × Event K)
  | nil => none
  | node nil t right => some (right, t)
  | node left t right => (dequeLoop left).map fun (left, e) => (node left t right, e)

/-- The walk to the successor `q` in the left spine below `p`: the spine without
`q`, and `q`. -/
def takeSuccessor : SplayTree K → Option (SplayTree K × Event K)
  | nil => none
  | node nil q right => some (right, q)
  | node left p right => (takeSuccessor left).map fun (left, q) => (node left p right, q)

/-- What `cancel` puts in the place of a node with the given children. -/
def splice : SplayTree K → SplayTree K → Option (SplayTree K)
  | left, nil => some left
  | nil, right => some right
  | left, node nil p right => some (node left p right)
  | left, node q p right =>
    (takeSuccessor q).map fun (q', q) => node left q (node q' p right)

/-- The search of `cancel` for the pointer to `e`; a null pointer is its
`abort()`. -/
def unlink [LinearOrder K] (e : Event K) : SplayTree K → Option (SplayTree K)
  | nil => none
  | node left t right =>
    if t.addr = e.addr then splice left right
    else if e.time > t.time ∨ e.time = t.time ∧ e.uid > t.uid then
      (unlink e right).map fun right => node left t right
    else (unlink e left).map fun left => node left t right

def uidLookup (uid : ℤ) : SplayTree K → Option (Event K)
  | nil => none
  | node left t right =>
    if t.uid = uid then some t
    else
      match uidLookup uid left with
      | some e => some e
      | none => uidLookup uid right

end SplayTree

structure SplayScheduler (K : Type*) where
  root : SplayTree K
  qsize : ℤ

namespace SplayScheduler

variable {K : Type*} [LinearOrder K]

def construct : SplayScheduler K := ⟨.nil, 0⟩

def insert (n : Event K) (s : SplayScheduler K) : SplayScheduler K :=
  ⟨s.root.insert n, s.qsize + 1⟩

def deque (s : SplayScheduler K) : Option (SplayScheduler K × Option (Event K)) :=
  match s.root with
  | .nil => some (s, none)
  | root => root.deque.map fun (root, e) => (⟨root, s.qsize - 1⟩, some e)

def cancel (e : Event K) (s : SplayScheduler K) : Option (SplayScheduler K × Event K) :=
  if e.uid ≤ 0 then some (s, e)
  else (s.root.unlink e).map fun root => (⟨root, s.qsize - 1⟩, e.cancelled)

def machine : Machine (SplayScheduler K) (Op K) (Option (Event K)) where
  step s
    | .insert e => some (s.insert e, none)
    | .cancel e => (s.cancel e).map fun r => (r.1, some r.2)
    | .lookup uid => some (s, s.root.uidLookup uid)
    | .head => some (s, s.root.head)
    | .deque => s.deque

end SplayScheduler

open ListScheduler Scheduler

namespace SplayTree

variable {K : Type*}

@[simp] theorem inorder_nil : (nil : SplayTree K).inorder = [] := rfl

@[simp] theorem inorder_node (left : SplayTree K) (e : Event K) (right : SplayTree K) :
    (node left e right).inorder = left.inorder ++ e :: right.inorder := rfl

theorem inorder_ne_nil {t : SplayTree K} (h : t ≠ nil) : t.inorder ≠ [] := by
  cases t with
  | nil => exact absurd rfl h
  | node left e right => simp

/-- The events of an unfinished left tree. -/
def inorderLeft : List (SplayTree K × Event K) → List (Event K)
  | [] => []
  | (left, e) :: l => inorderLeft l ++ left.inorder ++ [e]

/-- The events of an unfinished right tree. -/
def inorderRight : List (Event K × SplayTree K) → List (Event K)
  | [] => []
  | (e, right) :: r => e :: right.inorder ++ inorderRight r

theorem inorder_plugLeft (t : SplayTree K) (l : List (SplayTree K × Event K)) :
    (plugLeft t l).inorder = inorderLeft l ++ t.inorder := by
  induction l generalizing t with
  | nil => rfl
  | cons p l ih =>
    obtain ⟨left, e⟩ := p
    simp [plugLeft, inorderLeft, ih]

theorem inorder_plugRight (t : SplayTree K) (r : List (Event K × SplayTree K)) :
    (plugRight t r).inorder = t.inorder ++ inorderRight r := by
  induction r generalizing t with
  | nil => simp [plugRight, inorderRight]
  | cons p r ih =>
    obtain ⟨e, right⟩ := p
    simp [plugRight, inorderRight, ih]

section Insert

variable [LinearOrder K]

/-- The loop cuts the remaining tree at the time: nothing is lost, doubled or
reordered. -/
theorem insertLoop_spec (time : K) (t : SplayTree K) (l : List (SplayTree K × Event K))
    (r : List (Event K × SplayTree K)) (h : KeySorted Event.time t.inorder) :
    (insertLoop time t l r).1.inorder =
        inorderLeft l ++ t.inorder.filter (fun e => e.time ≤ time) ∧
      (insertLoop time t l r).2.inorder =
        t.inorder.filter (fun e => time < e.time) ++ inorderRight r := by
  induction t, l, r using insertLoop.induct time with
  | case1 l r => simp [insertLoop, inorder_plugLeft, inorder_plugRight]
  | case2 t right l r ht =>
    obtain ⟨hle, hlt⟩ := filter_le_of_lt h ht
    rw [insertLoop.eq_def]
    dsimp only
    rw [if_pos ht, inorder_plugLeft, inorder_plugRight, inorder_node, hle, hlt]
    exact ⟨rfl, rfl⟩
  | case3 t right l r ht xl x xr hx ih =>
    rw [inorder_node, inorder_node, List.append_assoc, List.cons_append] at h ⊢
    obtain ⟨hle, hlt⟩ := filter_le_of_lt h hx
    obtain ⟨h1, h2⟩ := ih (List.pairwise_append.1 h).1
    rw [insertLoop.eq_def]
    dsimp only
    rw [if_pos ht, if_pos hx, h1, h2, hle, hlt]
    simp [inorderRight]
  | case4 t right l r ht xl x xr hx ih =>
    rw [inorder_node] at h ⊢
    obtain ⟨hle, hlt⟩ := filter_le_of_lt h ht
    obtain ⟨h1, h2⟩ := ih (List.pairwise_append.1 h).1
    rw [insertLoop.eq_def]
    dsimp only
    rw [if_pos ht, if_neg hx, h1, h2, hle, hlt]
    simp [inorderRight]
  | case5 left t l r ht =>
    obtain ⟨hle, hlt⟩ := filter_le_of_le h (not_lt.1 ht)
    rw [insertLoop.eq_def]
    dsimp only
    rw [if_neg ht, inorder_plugLeft, inorder_plugRight, inorder_node, hle, hlt]
    exact ⟨rfl, rfl⟩
  | case6 left t l r ht xl x xr hx ih =>
    rw [inorder_node, inorder_node, ← List.cons_append, ← List.append_assoc] at h ⊢
    obtain ⟨hle, hlt⟩ := filter_le_of_le h hx
    obtain ⟨h1, h2⟩ := ih (List.pairwise_append.1 h).2.1.tail
    rw [insertLoop.eq_def]
    dsimp only
    rw [if_neg ht, if_pos hx, h1, h2, hle, hlt]
    simp [inorderLeft]
  | case7 left t l r ht xl x xr hx ih =>
    rw [inorder_node] at h ⊢
    obtain ⟨hle, hlt⟩ := filter_le_of_le h (not_lt.1 ht)
    obtain ⟨h1, h2⟩ := ih (List.pairwise_append.1 h).2.1.tail
    rw [insertLoop.eq_def]
    dsimp only
    rw [if_neg ht, if_neg hx, h1, h2, hle, hlt]
    simp [inorderLeft]

theorem inorder_insert {t : SplayTree K} (h : KeySorted Event.time t.inorder) (n : Event K) :
    (t.insert n).inorder = ListScheduler.insert n t.inorder := by
  obtain ⟨h1, h2⟩ := insertLoop_spec n.time t [] [] h
  rw [insert_eq, insertAfter_eq h]
  change (insertLoop n.time t [] []).1.inorder ++ n :: (insertLoop n.time t [] []).2.inorder = _
  rw [h1, h2]
  simp [inorderLeft, inorderRight]

end Insert

variable {t : SplayTree K}

theorem head_eq (t : SplayTree K) : t.head = t.inorder.head? := by
  induction t using head.induct with
  | case1 => rfl
  | case2 e right => rfl
  | case3 left e right hne ih =>
    rw [head, ih, inorder_node, List.head?_append_of_ne_nil _ (inorder_ne_nil hne)]
    exact hne

theorem dequeLoop_spec (h : t ≠ nil) :
    ∃ t' e, dequeLoop t = some (t', e) ∧ t.inorder = e :: t'.inorder := by
  induction t using dequeLoop.induct with
  | case1 => exact absurd rfl h
  | case2 l right => exact ⟨right, l, rfl, rfl⟩
  | case3 ll right' l right => exact ⟨node right' l right, ll, rfl, by simp⟩
  | case4 lll ll right' l right hne ih =>
    obtain ⟨t', e, ht, hin⟩ := ih hne
    refine ⟨node t' ll (node right' l right), e, ?_, by simp [hin]⟩
    rw [dequeLoop, ht, Option.map_some]
    exact hne

theorem deque_spec (t : SplayTree K) (h : t ≠ nil) :
    ∃ t' e, t.deque = some (t', e) ∧ t.inorder = e :: t'.inorder := by
  match t, h with
  | node nil e right, _ => exact ⟨right, e, rfl, rfl⟩
  | node (node left x right') e right, _ =>
    obtain ⟨t', y, ht, hin⟩ := dequeLoop_spec (t := node left x right') (by simp)
    refine ⟨node t' e right, y, ?_, by rw [inorder_node, hin, inorder_node, List.cons_append]⟩
    rw [deque, ht, Option.map_some]
    simp

theorem takeSuccessor_spec (h : t ≠ nil) :
    ∃ t' q, takeSuccessor t = some (t', q) ∧ t.inorder = q :: t'.inorder := by
  induction t using takeSuccessor.induct with
  | case1 => exact absurd rfl h
  | case2 q right => exact ⟨right, q, rfl, rfl⟩
  | case3 left p right hne ih =>
    obtain ⟨t', q, ht, hin⟩ := ih hne
    refine ⟨node t' p right, q, ?_, by simp [hin]⟩
    rw [takeSuccessor, ht, Option.map_some]
    exact hne

theorem splice_spec (left right : SplayTree K) :
    ∃ t, splice left right = some t ∧ t.inorder = left.inorder ++ right.inorder := by
  match left, right with
  | left, nil => exact ⟨left, by cases left <;> rfl, by simp⟩
  | nil, node a e b => exact ⟨node a e b, rfl, rfl⟩
  | node a e b, node nil p right => exact ⟨node (node a e b) p right, rfl, rfl⟩
  | node a e b, node (node c x d) p right =>
    obtain ⟨t', q, ht, hin⟩ := takeSuccessor_spec (t := node c x d) (by simp)
    refine ⟨node (node a e b) q (node t' p right), ?_, ?_⟩
    · rw [splice, ht, Option.map_some]
      all_goals simp
    · rw [inorder_node, inorder_node (node c x d), hin, inorder_node]
      simp

section Cancel

variable [LinearOrder K]

theorem order_lt_iff (a b : Event K) :
    order a < order b ↔ b.time > a.time ∨ b.time = a.time ∧ b.uid > a.uid := by
  unfold order
  rw [Prod.Lex.toLex_lt_toLex]
  exact or_congr Iff.rfl (and_congr eq_comm Iff.rfl)

theorem unlink_spec {t : SplayTree K} {e : Event K}
    (h : t.inorder.Pairwise fun a b => order a < order b) (hn : (t.inorder.map Event.addr).Nodup)
    (he : e ∈ t.inorder) : ∃ t', t.unlink e = some t' ∧ t'.inorder = without e t.inorder := by
  induction t with
  | nil => cases he
  | node left x right ihl ihr =>
    rw [inorder_node] at h hn he
    obtain ⟨hl, hxr, hlr⟩ := List.pairwise_append.1 h
    obtain ⟨hx, hr⟩ := List.pairwise_cons.1 hxr
    rw [List.map_append, List.map_cons] at hn
    obtain ⟨hnl, hnxr, hdis⟩ := List.nodup_append.1 hn
    obtain ⟨hnx, hnr⟩ := List.nodup_cons.1 hnxr
    have hleft : ∀ y, y = x ∨ y ∈ right.inorder → y.addr ∉ left.inorder.map Event.addr := by
      intro y hy hmem
      refine hdis _ hmem _ ?_ rfl
      rcases hy with rfl | hy
      · exact List.mem_cons_self
      · exact List.mem_cons_of_mem _ (List.mem_map_of_mem hy)
    have hright : ∀ y, y = x ∨ y ∈ left.inorder → y.addr ∉ right.inorder.map Event.addr := by
      intro y hy hmem
      rcases hy with rfl | hy
      · exact hnx hmem
      · exact hdis _ (List.mem_map_of_mem hy) _ (List.mem_cons_of_mem _ hmem) rfl
    rw [unlink, inorder_node, without_append]
    by_cases haddr : x.addr = e.addr
    · rw [if_pos haddr]
      obtain ⟨t', ht, hin⟩ := splice_spec left right
      have hxe : without e (x :: right.inorder) = right.inorder := by
        rw [without, List.filter_cons_of_neg (by simpa using haddr)]
        exact without_eq_self (haddr ▸ hright x (Or.inl rfl))
      exact ⟨t', ht, by rw [hin, hxe, without_eq_self (haddr ▸ hleft x (Or.inl rfl))]⟩
    have hne : e ≠ x := fun hex => haddr (by rw [hex])
    rw [if_neg haddr, without_cons_of_ne haddr, if_congr (order_lt_iff x e).symm rfl rfl]
    by_cases hlt : order x < order e
    · have her : e ∈ right.inorder := by
        rcases List.mem_append.1 he with he | he
        · exact absurd (hlr e he x List.mem_cons_self) hlt.not_gt
        · exact (List.mem_cons.1 he).resolve_left hne
      obtain ⟨t', ht, hin⟩ := ihr hr hnr her
      rw [if_pos hlt, ht]
      exact ⟨_, rfl, by rw [inorder_node, hin, without_eq_self (hleft e (Or.inr her))]⟩
    · have hel : e ∈ left.inorder := by
        rcases List.mem_append.1 he with he | he
        · exact he
        · exact absurd (hx e ((List.mem_cons.1 he).resolve_left hne)) hlt
      obtain ⟨t', ht, hin⟩ := ihl hl hnl hel
      rw [if_neg hlt, ht]
      exact ⟨_, rfl, by rw [inorder_node, hin, without_eq_self (hright e (Or.inr hel))]⟩

end Cancel

theorem uidLookup_spec (uid : ℤ) (t : SplayTree K) :
    (∀ e, t.uidLookup uid = some e → e ∈ t.inorder ∧ e.uid = uid) ∧
      (t.uidLookup uid = none → ∀ e ∈ t.inorder, e.uid ≠ uid) := by
  induction t with
  | nil => simp [uidLookup]
  | node left x right ihl ihr =>
    rw [uidLookup]
    by_cases hx : x.uid = uid
    · simp [hx]
    rw [if_neg hx]
    cases hl : uidLookup uid left with
    | some y =>
      have := ihl.1 y hl
      simp [this]
    | none =>
      refine ⟨fun e he => ?_, fun hr e he => ?_⟩
      · have := ihr.1 e he
        simp [this]
      · rcases List.mem_append.1 he with he | he
        · exact ihl.2 hl e he
        · rcases List.mem_cons.1 he with rfl | he
          · exact hx
          · exact ihr.2 hr e he

end SplayTree

namespace SplayScheduler

open SplayTree

variable {K : Type*} [LinearOrder K]
variable {uid : ℤ} {s : SplayScheduler K} {q : List (Event K)}

/-- The tree holds the queue in its in-order traversal, which is the order of
times and, at equal times, of numbers. -/
structure Holds (uid : ℤ) (s : SplayScheduler K) (q : List (Event K)) : Prop where
  inorder : s.root.inorder = q
  qsize : s.qsize = q.length
  numbered : Numbered uid q

theorem cancel_spec (h : Holds uid s q) {e : Event K} (he : e ∈ q) :
    ∃ s', s.cancel e = some (s', e.cancelled) ∧ Holds uid s' (without e q) := by
  obtain ⟨rfl, hsize, hnum⟩ := h
  obtain ⟨t', ht, hin⟩ := unlink_spec hnum.sorted hnum.queue.nodup he
  have hlen := (perm_cons_filter_ne hnum.queue.nodup he).length_eq
  refine ⟨⟨t', s.qsize - 1⟩, ?_, hin, ?_, hnum.sublist List.filter_sublist⟩
  · rw [cancel, if_neg (hnum.pos e he).not_ge, ht]
    rfl
  · change s.qsize - 1 = _
    rw [hsize, hlen, List.length_cons, without]
    omega

theorem deque_spec (h : Holds uid s q) :
    ∃ s', s.deque = some (s', (ListScheduler.deque q).2) ∧ Holds uid s' (ListScheduler.deque q).1 := by
  obtain ⟨rfl, hsize, hnum⟩ := h
  cases hroot : s.root with
  | nil =>
    refine ⟨s, by rw [deque, hroot]; rfl, ?_⟩
    exact ⟨by rw [hroot]; rfl, by rw [hsize, hroot]; rfl, by rw [hroot] at hnum; exact hnum⟩
  | node left x right =>
    obtain ⟨t', e, ht, hin⟩ := SplayTree.deque_spec (node left x right) (by simp)
    rw [hroot, hin] at hnum hsize
    refine ⟨⟨t', s.qsize - 1⟩, ?_, ?_⟩
    · rw [deque, hroot]
      dsimp only
      rw [ht, hin]
      rfl
    · rw [hin]
      refine ⟨rfl, ?_, hnum.sublist (List.sublist_cons_self e _)⟩
      change s.qsize - 1 = (t'.inorder.length : ℤ)
      rw [hsize, List.length_cons]
      omega

/-- Both schedulers under `schedule`, with the same counter. -/
def HoldsQueue (s : ℤ × SplayScheduler K) (q : ℤ × List (Event K)) : Prop :=
  s.1 = q.1 ∧ Holds q.1 s.2 q.2

theorem machine_simulates : Machine.Simulates (Scheduler.machine (machine (K := K)))
    (Scheduler.machine ListScheduler.machine) (fun _ _ => True) Scheduler.Admissible HoldsQueue where
  step := by
    rintro ⟨uid, s⟩ ⟨_, q⟩ o ⟨rfl, h⟩ - ho
    change Holds uid s q at h
    have hq := h.numbered.queue
    cases o with
    | schedule e time =>
      obtain ⟨hu, huid, haddr⟩ := ho
      refine ⟨(nextUid uid, s.insert { e with uid := uid, time := time }),
        (nextUid uid, ListScheduler.insert { e with uid := uid, time := time } q), none, ?_, ?_, rfl, ?_⟩
      · simp [Scheduler.machine, number, hu.not_gt, huid.not_gt, machine]
      · simp [Scheduler.machine, number, hu.not_gt, huid.not_gt, ListScheduler.machine]
      · have hin := inorder_insert (h.inorder ▸ hq.sorted) { e with uid := uid, time := time }
        refine ⟨by rw [← h.inorder]; exact hin, ?_, h.numbered.insert huid haddr⟩
        change s.qsize + 1 = _
        rw [h.qsize, insert_eq, length_insertAfter]
        rfl
    | cancel e =>
      obtain ⟨s', hs', h'⟩ := cancel_spec h ho
      refine ⟨(uid, s'), (uid, without e q), some e.cancelled, ?_, ?_, rfl, h'⟩
      · simp [Scheduler.machine, machine, hs']
      · simp [Scheduler.machine, ListScheduler.machine, ListScheduler.cancel,
          (h.numbered.pos e ho).not_ge, unlink_eq hq.nodup ho]
    | lookup u =>
      obtain ⟨hsome, hnone⟩ := uidLookup_spec u s.root
      rw [h.inorder] at hsome hnone
      refine ⟨(uid, s), (uid, q), ListScheduler.lookup u q, ?_, rfl, rfl, h⟩
      rw [← eq_lookup (h.numbered.lookup u) hsome hnone]
      rfl
    | head =>
      refine ⟨(uid, s), (uid, q), q.head?, ?_, rfl, rfl, h⟩
      rw [← h.inorder, ← head_eq]
      rfl
    | deque =>
      obtain ⟨s', hs', h'⟩ := deque_spec h
      refine ⟨(uid, s'), (uid, (ListScheduler.deque q).1), (ListScheduler.deque q).2, ?_, rfl, rfl, h'⟩
      simp [Scheduler.machine, machine, hs']

theorem holds_construct : HoldsQueue (firstUid, (construct : SplayScheduler K)) (firstUid, []) :=
  ⟨rfl, rfl, rfl, Numbered.nil⟩

/-- Every sequence of `schedule`, `cancel`, `lookup`, `head` and `deque` is answered
as by the list scheduler, without an abort, and the in-order traversal of the tree
is the list queue, sorted by time and number. -/
theorem splay_refines_list {ops : List (SchedOp K)}
    (hops : (Scheduler.machine ListScheduler.machine).RunsWith Scheduler.Admissible
      (firstUid, []) ops) :
    ∃ uid s q as,
      (Scheduler.machine machine).run (firstUid, construct) ops = some ((uid, s), as) ∧
      (Scheduler.machine ListScheduler.machine).run (firstUid, []) ops = some ((uid, q), as) ∧
      s.root.inorder = q ∧ s.qsize = q.length ∧ q.Pairwise (fun a b => order a < order b) := by
  obtain ⟨⟨uid, s⟩, ⟨_, q⟩, as, hs, hq, rfl, h⟩ := machine_simulates.run
    holds_construct (Machine.runsWith_true _ _ _) hops
  exact ⟨uid, s, q, as, hs, hq, h.inorder, h.qsize, h.numbered.sorted⟩

/-- Two events due at time 5, the first of them cancelled, and an earlier one. -/
theorem splay_refines_list_cancel : ∃ uid s q as,
    (Scheduler.machine machine).run (firstUid, construct) [.schedule ⟨0, 0, 0⟩ 5,
      .schedule ⟨1, 0, 0⟩ 5, .schedule ⟨2, 0, -7⟩ 2, .cancel ⟨0, 5, 1⟩, .head, .deque] =
      some ((uid, s), as) ∧
    (Scheduler.machine ListScheduler.machine).run (firstUid, []) [.schedule ⟨0, 0, 0⟩ 5,
      .schedule ⟨1, 0, 0⟩ 5, .schedule ⟨2, 0, -7⟩ 2, .cancel ⟨0, 5, 1⟩, .head, .deque] =
      some ((uid, q), as) ∧
    s.root.inorder = q ∧ s.qsize = q.length ∧
      q.Pairwise (fun a b : Event ℕ => order a < order b) := by
  refine splay_refines_list ?_
  simp [Machine.RunsWith, Scheduler.machine, Scheduler.Admissible, number, nextUid, firstUid,
    ListScheduler.machine, ListScheduler.insert]

end SplayScheduler

end Ns2
