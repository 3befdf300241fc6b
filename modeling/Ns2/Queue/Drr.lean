import Ns2.Lib.Circle
import Ns2.Lib.DeficitRound
import Ns2.Lib.Machine

/-! `DRR`: the packets of each source address are queued in the bucket the address hashes to, and
the buckets with packets are on a circle. An `int` counter is an integer. The circle and the
counters of a `DRR` describe its queues: a flow is on the circle exactly while it has packets. -/

namespace Ns2

structure Drr.Packet where
  saddr : BitVec 32
  size : ℤ
  deriving DecidableEq

/-- `prev` and `next` are in the circle of the `DRR`. -/
structure PacketDRR where
  queue : List Drr.Packet
  pkts : ℤ
  src : ℤ
  bcount : ℤ
  deficitCounter : ℤ
  turn : Bool

/-- The variables bound to Tcl. -/
structure Drr.Config where
  buckets : ℤ
  blimit : ℤ
  quantum : ℤ
  mask : ℤ

/-- Flows are named by their index in the array `drr`. -/
structure Drr where
  drr : ℤ → PacketDRR
  circle : Circle ℤ
  bytecnt : ℤ
  pktcnt : ℤ
  flwcnt : ℤ
  curr : Option ℤ

namespace Drr

def init : Drr where
  drr := fun _ => ⟨[], 0, -1, 0, 0, false⟩
  circle := ⟨fun _ => none, fun _ => none⟩
  bytecnt := 0
  pktcnt := 0
  flwcnt := 0
  curr := none

def modify (f : ℤ) (g : PacketDRR → PacketDRR) (s : Drr) : Drr :=
  { s with drr := Function.update s.drr f (g (s.drr f)) }

/-- The source address, or only its node. -/
def source (c : Config) (pkt : Packet) : BitVec 32 :=
  if c.mask ≠ 0 then pkt.saddr &&& 0xfff0 else pkt.saddr

def hash (c : Config) (pkt : Packet) : ℤ :=
  let i := source c pkt
  (i + i.sshiftRight 8 + ~~~i.sshiftRight 4).toInt.tmod (2 <<< 23 - 1) + 1

/-- The bucket of a packet. -/
def which (c : Config) (pkt : Packet) : ℤ := (hash c pkt).tmod c.buckets

def activate (f : ℤ) (s : Drr) : Option Drr :=
  match s.curr with
  | some h => (s.circle.insert f h).map fun k => { s with circle := k, curr := some h }
  | none => some { s with circle := s.circle.alone f, curr := some f }

def idle (f : ℤ) (s : Drr) : Option Drr :=
  if s.curr = some f then
    if s.circle.next f = some f then some { s with curr := none }
    else (s.circle.remove f).map fun k => { s with circle := k, curr := k.next f }
  else (s.circle.remove f).map fun k => { s with circle := k }

/-- The loop of `getMaxflow` over the next `n` flows. -/
def maxflowFrom (s : Drr) : ℕ → Option ℤ → ℤ → Option ℤ
  | 0, _, maxflow => some maxflow
  | _ + 1, none, _ => none
  | n + 1, some tmp, maxflow =>
    s.maxflowFrom n (s.circle.next tmp)
      (if (s.drr maxflow).bcount < (s.drr tmp).bcount then tmp else maxflow)

def getMaxflow (s : Drr) : Option ℤ :=
  s.curr.bind fun curr => s.maxflowFrom s.flwcnt.toNat (some curr) curr

/-- A packet is counted in and queued. -/
def put (c : Config) (pkt : Packet) (f : ℤ) (s : Drr) : Drr :=
  { s with pktcnt := s.pktcnt + 1, bytecnt := s.bytecnt + pkt.size }.modify f fun q =>
    { q with
      src := if q.src = -1 then (source c pkt).toInt else q.src
      queue := q.queue ++ [pkt]
      pkts := q.pkts + 1
      bcount := q.bcount + pkt.size }

/-- The first packet of a flow is counted out. -/
def take (f : ℤ) (s : Drr) : Option (Drr × Packet) :=
  match (s.drr f).queue with
  | [] => none
  | p :: rest => some ({ s with pktcnt := s.pktcnt - 1, bytecnt := s.bytecnt - p.size }.modify f
      fun q => { q with queue := rest, pkts := q.pkts - 1, bcount := q.bcount - p.size }, p)

/-- A flow without packets leaves the circle. -/
def retire (f : ℤ) (s : Drr) : Option Drr :=
  (s.idle f).map fun s => { s with flwcnt := s.flwcnt - 1 }

/-- Packets are dropped from the longest flow while there are too many bytes. -/
def dropOver (blimit : ℤ) : ℕ → Drr → Option (Drr × List Packet)
  | 0, _ => none
  | fuel + 1, s =>
    if s.bytecnt > blimit then
      s.getMaxflow.bind fun remq => (s.take remq).bind fun (s, p) =>
        -- `turn` and `deficitCounter` keep their values
        (if (s.drr remq).pkts = 0 then s.retire remq else some s).bind fun s =>
          (dropOver blimit fuel s).map fun (s, ps) => (s, p :: ps)
    else some (s, [])

/-- A flow with its first packet joins the circle. -/
def start (f : ℤ) (s : Drr) : Option Drr :=
  if (s.drr f).pkts = 1 then
    (s.activate f).map fun s =>
      { s with flwcnt := s.flwcnt + 1 }.modify f fun q => { q with deficitCounter := 0 }
  else some s

/-- The packets dropped are returned; a bucket outside the array is an abort. -/
def enque (c : Config) (pkt : Packet) (s : Drr) : Option (Drr × List Packet) :=
  let f := which c pkt
  if 0 ≤ f ∧ f < c.buckets then
    ((s.put c pkt f).start f).bind fun s => dropOver c.blimit (s.pktcnt.toNat + 1) s
  else none

/-- What begins a turn. -/
def grant (c : Config) (f : ℤ) (s : Drr) : Drr :=
  if (s.drr f).turn then s
  else s.modify f fun q => { q with
    deficitCounter := q.deficitCounter + c.quantum
    turn := true }

/-- What ends a turn. -/
def pass (f : ℤ) (s : Drr) : Drr :=
  { s with curr := s.circle.next f }.modify f fun q => { q with turn := false }

/-- The current flow sends its first packet. -/
def serve (f : ℤ) (s : Drr) : Option (Drr × Packet) :=
  (s.take f).bind fun (s, p) =>
    let s := s.modify f fun q => { q with deficitCounter := q.deficitCounter - p.size }
    if (s.drr f).pkts = 0 then
      ((s.modify f fun q => { q with turn := false, deficitCounter := 0 }).retire f).map (·, p)
    else some (s, p)

/-- The loop of `deque`; without fuel it would run on. -/
def dequeFrom (c : Config) : ℕ → Drr → Option (Drr × Packet)
  | 0, _ => none
  | fuel + 1, s =>
    s.curr.bind fun f =>
      let s := s.grant c f
      (s.drr f).queue.head?.bind fun p =>
        if (s.drr f).deficitCounter ≥ p.size then s.serve f
        else dequeFrom c fuel (s.pass f)

def deque (c : Config) (s : Drr) : Option (Drr × Option Packet) :=
  if s.bytecnt = 0 then some (s, none)
  else (dequeFrom c (s.bytecnt + s.flwcnt + 1).toNat s).map fun (s, p) => (s, some p)

section Hash

variable {c : Config} {p : Packet}

theorem source_lt (h : c.mask ≠ 0 ∨ 0 ≤ p.saddr.toInt) : (source c p).toNat < 2 ^ 31 := by
  unfold source
  split
  · rw [BitVec.toNat_and]
    exact lt_of_le_of_lt Nat.and_le_right (by decide)
  · rename_i hmask
    have haddr := h.resolve_left hmask
    rw [BitVec.toInt_eq_toNat_cond] at haddr
    have := p.saddr.isLt
    split at haddr <;> omega

theorem scramble_ge {i : BitVec 32} (hi : i.toNat < 2 ^ 31) :
    -1 ≤ (i + i.sshiftRight 8 + ~~~i.sshiftRight 4).toInt := by
  have hmsb : i.msb = false := by
    rw [BitVec.msb_eq_decide]
    simpa using hi
  rw [BitVec.sshiftRight_eq_of_msb_false hmsb, BitVec.sshiftRight_eq_of_msb_false hmsb]
  have hadd : (i.toNat + i.toNat / 256) % 2 ^ 32 = i.toNat + i.toNat / 256 :=
    Nat.mod_eq_of_lt (by omega)
  have hnat : (i + i >>> 8 + ~~~(i >>> 4)).toNat =
      (i.toNat + i.toNat / 256 + (2 ^ 32 - 1 - i.toNat / 16)) % 2 ^ 32 := by
    rw [BitVec.toNat_add, BitVec.toNat_add, BitVec.toNat_not, BitVec.toNat_ushiftRight,
      BitVec.toNat_ushiftRight, Nat.shiftRight_eq_div_pow, Nat.shiftRight_eq_div_pow, hadd]
  rw [BitVec.toInt_eq_toNat_cond, hnat]
  rcases Nat.lt_or_ge i.toNat 16 with hsmall | hlarge
  · split <;> omega
  · have hdiv : i.toNat / 256 ≤ i.toNat / 16 := Nat.div_le_div_left (by decide) (by decide)
    have hwrap : i.toNat + i.toNat / 256 + (2 ^ 32 - 1 - i.toNat / 16) =
        2 ^ 32 + (i.toNat + i.toNat / 256 - i.toNat / 16 - 1) := by omega
    rw [hwrap, Nat.add_mod_left, Nat.mod_eq_of_lt (by omega)]
    split <;> omega

theorem hash_nonneg (h : c.mask ≠ 0 ∨ 0 ≤ p.saddr.toInt) : 0 ≤ hash c p := by
  have hge := scramble_ge (source_lt h)
  unfold hash
  dsimp only
  generalize (source c p + (source c p).sshiftRight 8 + ~~~(source c p).sshiftRight 4).toInt = x at *
  rcases le_or_gt 0 x with hx | hx
  · have := Int.tmod_nonneg (2 <<< 23 - 1) hx
    omega
  · obtain rfl : x = -1 := by omega
    decide

theorem which_mem (hbuckets : 0 < c.buckets) (h : c.mask ≠ 0 ∨ 0 ≤ p.saddr.toInt) :
    0 ≤ which c p ∧ which c p < c.buckets :=
  ⟨Int.tmod_nonneg _ (hash_nonneg h), Int.tmod_lt_of_pos _ hbuckets⟩
end Hash

end Drr

inductive DrrOp where
  | enque (pkt : Drr.Packet)
  | deque

/-- The answer is the packet dequeued. -/
def Drr.machine (c : Drr.Config) : Machine Drr DrrOp (Option Drr.Packet) where
  step s
    | .enque pkt => (s.enque c pkt).map fun (s, _) => (s, none)
    | .deque => s.deque c

namespace Drr

open List

variable {c : Config} {M : ℤ} {s : Drr} {r : List ℤ} {f : ℤ}
variable {r' : List ℤ} {q : PacketDRR} {rest : List Packet}

/-- The counters of a bucket are those of its packets, none larger than `M`. -/
structure Counted (c : Config) (M f : ℤ) (q : PacketDRR) : Prop where
  pkts : q.pkts = q.queue.length
  bcount : q.bcount = (q.queue.map Packet.size).sum
  packet : ∀ p ∈ q.queue, (0 < p.size ∧ p.size ≤ M) ∧ which c p = f

/-- The sum of a counter over the flows. -/
def total (s : Drr) (r : List ℤ) (g : PacketDRR → ℤ) : ℤ := (r.map fun f => g (s.drr f)).sum

/-- The flows on the circle from the current one on. -/
structure Rep (c : Config) (M : ℤ) (s : Drr) (r : List ℤ) : Prop where
  ring : s.circle.Rep r
  curr : s.curr = r.head?
  mem_iff : ∀ f, f ∈ r ↔ (s.drr f).queue ≠ []
  counted : ∀ f, Counted c M f (s.drr f)
  flwcnt : s.flwcnt = r.length
  bytecnt : s.bytecnt = s.total r PacketDRR.bcount
  pktcnt : s.pktcnt = s.total r PacketDRR.pkts

/-- What a `DRR` is a deficit round robin of. -/
def round (s : Drr) (r : List ℤ) : DeficitRound ℤ :=
  ⟨r, fun f => (s.drr f).deficitCounter, fun f => (s.drr f).turn⟩

theorem rep_init (c : Config) (M : ℤ) : init.Rep c M [] where
  ring := Circle.Rep.nil
  curr := rfl
  mem_iff f := by simp [init]
  counted f := ⟨rfl, rfl, fun p hp => absurd hp not_mem_nil⟩
  flwcnt := rfl
  bytecnt := rfl
  pktcnt := rfl

@[simp] theorem modify_drr_self (f : ℤ) (u : PacketDRR → PacketDRR) (s : Drr) :
    (s.modify f u).drr f = u (s.drr f) := Function.update_self _ _ _

@[simp] theorem modify_drr_of_ne {f g : ℤ} (h : g ≠ f) (u : PacketDRR → PacketDRR) (s : Drr) :
    (s.modify f u).drr g = s.drr g := Function.update_of_ne h _ _

@[simp] theorem modify_modify (f : ℤ) (u v : PacketDRR → PacketDRR) (s : Drr) :
    (s.modify f u).modify f v = s.modify f fun q => v (u q) := by
  simp [modify]

theorem round_modify (u : PacketDRR → PacketDRR) : (s.modify f u).round r =
    ⟨r, Function.update (s.round r).deficit f (u (s.drr f)).deficitCounter,
      Function.update (s.round r).turn f (u (s.drr f)).turn⟩ := by
  unfold round
  congr 1 <;> funext g
  · by_cases hgf : g = f
    · subst hgf
      simp
    · simp [hgf]
  · by_cases hgf : g = f
    · subst hgf
      simp
    · simp [hgf]

theorem total_erase (g : PacketDRR → ℤ) (hf : f ∉ r → g (s.drr f) = 0) :
    s.total r g = s.total (r.erase f) g + g (s.drr f) := by
  by_cases hmem : f ∈ r
  · have hperm := ((perm_cons_erase hmem).map fun x => g (s.drr x)).sum_eq
    rw [map_cons, sum_cons] at hperm
    unfold total
    omega
  · rw [erase_of_not_mem hmem, hf hmem, add_zero]

theorem total_modify (hr : r.Nodup) (hr' : r'.Nodup) (hmem : ∀ x, x ≠ f → (x ∈ r' ↔ x ∈ r))
    (u : PacketDRR → PacketDRR) (g : PacketDRR → ℤ) (hf : f ∉ r → g (s.drr f) = 0)
    (hf' : f ∉ r' → g (u (s.drr f)) = 0) :
    (s.modify f u).total r' g = s.total r g + (g (u (s.drr f)) - g (s.drr f)) := by
  have hperm : (r'.erase f).Perm (r.erase f) := by
    refine (perm_ext_iff_of_nodup (hr'.erase f) (hr.erase f)).2 fun x => ?_
    rw [hr'.mem_erase_iff, hr.mem_erase_iff]
    exact and_congr_right (hmem x)
  have hsame : (s.modify f u).total (r'.erase f) g = s.total (r.erase f) g := by
    rw [total, total, ← (hperm.map fun x => g (s.drr x)).sum_eq]
    congr 1
    apply map_congr_left
    intro x hx
    rw [modify_drr_of_ne (hr'.mem_erase_iff.1 hx).1]
  rw [total_erase (f := f) g (by rwa [modify_drr_self]), hsame, total_erase g hf,
    modify_drr_self]
  omega

theorem Counted.of_nil (h : Counted c M f q) (hq : q.queue = []) : q.pkts = 0 ∧ q.bcount = 0 := by
  rw [h.pkts, h.bcount, hq]
  exact ⟨rfl, rfl⟩

theorem Rep.modify {t : Drr} {u : PacketDRR → PacketDRR} (h : s.Rep c M r) (hdrr : t.drr = s.drr)
    (hring : t.circle.Rep r') (hcurr : t.curr = r'.head?) (hmem : ∀ x, x ≠ f → (x ∈ r' ↔ x ∈ r))
    (hf : f ∈ r' ↔ (u (s.drr f)).queue ≠ []) (hcounted : Counted c M f (u (s.drr f)))
    (hflwcnt : t.flwcnt = r'.length)
    (hbytecnt : t.bytecnt = s.bytecnt + ((u (s.drr f)).bcount - (s.drr f).bcount))
    (hpktcnt : t.pktcnt = s.pktcnt + ((u (s.drr f)).pkts - (s.drr f).pkts)) :
    (t.modify f u).Rep c M r' := by
  have hzero : f ∉ r → (s.drr f).pkts = 0 ∧ (s.drr f).bcount = 0 := fun hnot =>
    (h.counted f).of_nil (by_contra fun hne => hnot ((h.mem_iff f).2 hne))
  have hzero' : f ∉ r' → (u (s.drr f)).pkts = 0 ∧ (u (s.drr f)).bcount = 0 := fun hnot =>
    hcounted.of_nil (by_contra fun hne => hnot (hf.2 hne))
  refine ⟨hring, hcurr, fun x => ?_, fun x => ?_, hflwcnt, ?_, ?_⟩
  · by_cases hx : x = f
    · subst hx
      rw [modify_drr_self, hdrr]
      exact hf
    · rw [modify_drr_of_ne hx, hdrr, hmem x hx]
      exact h.mem_iff x
  · by_cases hx : x = f
    · subst hx
      rw [modify_drr_self, hdrr]
      exact hcounted
    · rw [modify_drr_of_ne hx, hdrr]
      exact h.counted x
  · have htotal := total_modify (s := t) h.ring.nodup hring.nodup hmem u PacketDRR.bcount
      (hdrr ▸ fun hnot => (hzero hnot).2) (hdrr ▸ fun hnot => (hzero' hnot).2)
    rw [htotal, hdrr]
    change t.bytecnt = _
    rw [hbytecnt, h.bytecnt, total, total, hdrr]
  · have htotal := total_modify (s := t) h.ring.nodup hring.nodup hmem u PacketDRR.pkts
      (hdrr ▸ fun hnot => (hzero hnot).1) (hdrr ▸ fun hnot => (hzero' hnot).1)
    rw [htotal, hdrr]
    change t.pktcnt = _
    rw [hpktcnt, h.pktcnt, total, total, hdrr]

theorem activate_eq (hring : s.circle.Rep r) (hcurr : s.curr = r.head?) (hf : f ∉ r) :
    ∃ k : Circle ℤ, s.activate f = some { s with circle := k, curr := (r ++ [f]).head? } ∧
      k.Rep (r ++ [f]) := by
  cases r with
  | nil =>
    refine ⟨s.circle.alone f, ?_, Circle.Rep.alone f s.circle⟩
    simp [activate, hcurr]
  | cons h t =>
    obtain ⟨k, hk, hrep⟩ := hring.insert hf
    refine ⟨k, ?_, hrep⟩
    simp [activate, hcurr, hk]

theorem idle_eq (hring : s.circle.Rep r) (hcurr : s.curr = r.head?) (hf : f ∈ r) :
    ∃ k : Circle ℤ, s.idle f = some { s with circle := k, curr := (r.erase f).head? } ∧
      k.Rep (r.erase f) := by
  obtain ⟨l₁, l₂, rfl⟩ := append_of_mem hf
  have hnot : f ∉ l₁ := fun h => (nodup_append.1 hring.nodup).2.2 f h f (by simp) rfl
  rw [erase_append_right _ hnot, erase_cons_head]
  have hrot : s.circle.Rep (f :: (l₂ ++ l₁)) := by
    refine hring.rotate ?_
    rw [← cons_append]
    exact isRotated_append
  by_cases hne : l₂ ++ l₁ = []
  · obtain ⟨rfl, rfl⟩ := append_eq_nil_iff.1 hne
    refine ⟨s.circle, ?_, Circle.Rep.nil⟩
    have hnext : s.circle.next f = some f := hrot.next
    simp [idle, hcurr, hnext]
  · obtain ⟨k, hk, hrep, hnext⟩ := hrot.remove hne
    refine ⟨k, ?_, hrep.rotate isRotated_append⟩
    cases l₁ with
    | nil =>
      rw [append_nil] at hnext hne
      have hloop : s.circle.next f ≠ some f := by
        intro hloop
        rw [append_nil] at hrot
        obtain ⟨n, t, rfl⟩ := exists_cons_of_ne_nil hne
        have hfn : n = f := Option.some.inj (hrot.next.symm.trans hloop)
        exact (nodup_cons.1 hrot.nodup).1 (hfn ▸ mem_cons_self)
      simp [idle, hcurr, hloop, hk, hnext]
    | cons h t =>
      have hfh : h ≠ f := fun hfh => hnot (hfh ▸ mem_cons_self)
      simp [idle, hcurr, hfh, hk]

theorem maxflowFrom_eq {l₁ l₂ : List ℤ} (h : s.circle.Rep (l₁ ++ l₂)) (m : ℤ) (tmp : Option ℤ)
    (htmp : l₂ ≠ [] → tmp = l₂.head?) :
    ∃ m', s.maxflowFrom l₂.length tmp m = some m' ∧ (m' = m ∨ m' ∈ l₂) ∧
      ∀ f ∈ m :: l₂, (s.drr f).bcount ≤ (s.drr m').bcount := by
  induction l₂ generalizing l₁ m tmp with
  | nil => exact ⟨m, rfl, Or.inl rfl, by simp⟩
  | cons f l₂ ih =>
    obtain rfl := htmp (cons_ne_nil f l₂)
    have h' : s.circle.Rep ((l₁ ++ [f]) ++ l₂) := by rwa [append_assoc]
    obtain ⟨m', hm', hmem, hle⟩ := ih h' (if (s.drr m).bcount < (s.drr f).bcount then f else m)
      (s.circle.next f) fun hne => h.next_of_append hne
    refine ⟨m', hm', ?_, ?_⟩
    · rcases hmem with rfl | hmem
      · split
        · exact Or.inr mem_cons_self
        · exact Or.inl rfl
      · exact Or.inr (mem_cons_of_mem f hmem)
    · rw [forall_mem_cons] at hle ⊢
      rw [forall_mem_cons]
      refine ⟨?_, ?_, hle.2⟩
      · have hm := hle.1
        split at hm <;> omega
      · have hm := hle.1
        split at hm <;> omega

theorem Rep.getMaxflow (h : s.Rep c M r) (hr : r ≠ []) :
    ∃ m ∈ r, s.getMaxflow = some m ∧ ∀ f ∈ r, (s.drr f).bcount ≤ (s.drr m).bcount := by
  obtain ⟨a, t, rfl⟩ := exists_cons_of_ne_nil hr
  obtain ⟨m, hm, hmem, hle⟩ := maxflowFrom_eq (show s.circle.Rep ([] ++ a :: t) from h.ring)
    a (some a) fun _ => rfl
  refine ⟨m, ?_, ?_, fun f hf => hle f (mem_cons_of_mem a hf)⟩
  · rcases hmem with rfl | hmem
    · exact mem_cons_self
    · exact hmem
  · rw [Drr.getMaxflow, h.curr, h.flwcnt, Int.toNat_natCast]
    exact hm

theorem Counted.put {p : Packet} (h : Counted c M f q) (hp : 0 < p.size ∧ p.size ≤ M)
    (hf : which c p = f) (src d : ℤ) (b : Bool) :
    Counted c M f ⟨q.queue ++ [p], q.pkts + 1, src, q.bcount + p.size, d, b⟩ where
  pkts := by
    rw [h.pkts]
    simp
  bcount := by
    rw [h.bcount]
    simp
  packet p' hp' := by
    rcases mem_append.1 hp' with hp' | hp'
    · exact h.packet p' hp'
    · rw [mem_singleton.1 hp']
      exact ⟨hp, hf⟩

theorem Counted.take {p : Packet} (h : Counted c M f q) (hq : q.queue = p :: rest) (src d : ℤ)
    (b : Bool) : Counted c M f ⟨rest, q.pkts - 1, src, q.bcount - p.size, d, b⟩ where
  pkts := by
    rw [h.pkts, hq]
    simp
  bcount := by
    rw [h.bcount, hq]
    simp
  packet p' hp' := h.packet p' (hq ▸ mem_cons_of_mem p hp')

theorem Rep.put {p : Packet} (h : s.Rep c M r) (hp : 0 < p.size ∧ p.size ≤ M)
    (hf : which c p ∈ r) : (s.put c p (which c p)).start (which c p) =
        some (s.put c p (which c p)) ∧ (s.put c p (which c p)).Rep c M r ∧
      (s.put c p (which c p)).round r = s.round r := by
  refine ⟨?_, ?_, ?_⟩
  · have hne := length_pos_iff.2 ((h.mem_iff _).1 hf)
    have hpkts := (h.counted (which c p)).pkts
    rw [Drr.start, if_neg]
    simp only [Drr.put, modify_drr_self]
    omega
  · refine h.modify rfl h.ring h.curr (fun _ _ => Iff.rfl) (by simp [hf])
      ((h.counted _).put hp rfl _ _ _) h.flwcnt ?_ ?_
    · dsimp only
      omega
    · dsimp only
      omega
  · rw [Drr.put, round_modify]
    simp [round]

theorem Rep.start {p : Packet} (h : s.Rep c M r) (hp : 0 < p.size ∧ p.size ≤ M)
    (hf : which c p ∉ r) :
    ∃ s', (s.put c p (which c p)).start (which c p) = some s' ∧ s'.Rep c M (r ++ [which c p]) ∧
      s'.round (r ++ [which c p]) = (s.round r).join (which c p) := by
  generalize hwhich : which c p = f at *
  have hqueue : (s.drr f).queue = [] := by_contra fun hne => hf ((h.mem_iff f).2 hne)
  have hpkts : (s.drr f).pkts = 0 := ((h.counted f).of_nil hqueue).1
  obtain ⟨k, hact, hk⟩ := activate_eq (s := s.put c p f) h.ring h.curr hf
  refine ⟨{ s with
    circle := k
    curr := (r ++ [f]).head?
    flwcnt := s.flwcnt + 1
    pktcnt := s.pktcnt + 1
    bytecnt := s.bytecnt + p.size }.modify f fun q =>
      ⟨q.queue ++ [p], q.pkts + 1, if q.src = -1 then (source c p).toInt else q.src,
        q.bcount + p.size, 0, q.turn⟩, ?_, ?_, ?_⟩
  · rw [Drr.start, if_pos (by simp [Drr.put, hpkts]), hact, Option.map_some]
    simp [Drr.put, Drr.modify]
  · refine h.modify rfl hk rfl (fun x hx => by simp [hx]) (by simp)
      ((h.counted f).put hp hwhich _ _ _) ?_ ?_ ?_
    · simp [h.flwcnt]
    · dsimp only
      omega
    · dsimp only
      omega
  · rw [round_modify]
    simp [round, DeficitRound.join]

theorem Rep.take {p p' : Packet} (h : s.Rep c M r) (hf : f ∈ r)
    (hq : (s.drr f).queue = p :: p' :: rest) :
    ∃ s', s.take f = some (s', p) ∧ (s'.drr f).pkts ≠ 0 ∧ s'.Rep c M r ∧
      s'.round r = s.round r := by
  have hcounted := (h.counted f).take hq (s.drr f).src (s.drr f).deficitCounter (s.drr f).turn
  refine ⟨_, by rw [Drr.take, hq], ?_, ?_, ?_⟩
  · rw [modify_drr_self]
    have hpkts := hcounted.pkts
    simp only [length_cons] at hpkts
    dsimp only
    omega
  · refine h.modify rfl h.ring h.curr (fun _ _ => Iff.rfl) (by simp [hf]) hcounted h.flwcnt ?_ ?_
    · dsimp only
      omega
    · dsimp only
      omega
  · rw [round_modify]
    simp [round]

end Drr

end Ns2
