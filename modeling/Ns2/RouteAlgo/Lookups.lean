import Mathlib.Data.List.Range
import Ns2.RouteAlgo.BitMap

/-! The representations of a table of next hops, and what the table is analyzed for. An index out of
a vector gives no result. -/

namespace Ns2.RouteAlgo

def nodeNone : ℕ := 0xffffffff

/-- What `Analyze` returns: population counts, the default, the number of default entries, and the
first and the last entry that is not the default. -/
structure Analysis where
  p : List ℕ
  d : ℕ
  n : ℕ
  f : ℕ
  l : ℕ

/-- The entry of a node. -/
def entry (r : List ℕ) (i : ℕ) : ℕ := r.getD i nodeNone

def countHop (p : List ℕ) (hop : ℕ) : Option (List ℕ) :=
  if hop < p.length then some (p.modify hop (· + 1)) else none

/-- The occurrences of each next hop, except for the owner. -/
def countHops (r : List ℕ) (o : ℕ) : Option (List ℕ) :=
  (List.range r.length).foldlM (fun p i => if i ≠ o then countHop p (entry r i) else some p)
    (List.replicate r.length 0)

def largest (p : List ℕ) : ℕ :=
  (List.range p.length).foldl
    (fun largest i => if largest = nodeNone ∨ p.getD i 0 > p.getD largest 0 then i else largest)
    nodeNone

/-- The next hops, with which `m_NVec` is filled. -/
def nonzero (p : List ℕ) : List ℕ := (List.range p.length).filter fun i => p.getD i 0 ≠ 0

/-- The first and the last entry that is not the default. -/
def nonDefaults (r : List ℕ) (d o : ℕ) : ℕ × ℕ :=
  (List.range r.length).foldl
    (fun fl i =>
      if i ≠ o ∧ entry r i ≠ d then (if fl.1 = nodeNone then i else fl.1, i) else fl)
    (nodeNone, nodeNone)

def analyze (r : List ℕ) (o : ℕ) : Option Analysis := do
  let p ← countHops r o
  let d := if (nonzero p).length = 0 then nodeNone else largest p
  let n ← p[largest p]?
  if (nonzero p).length = 1 then some ⟨p, d, n, nodeNone, nodeNone⟩
  else some ⟨p, d, n, (nonDefaults r d o).1, (nonDefaults r d o).2⟩

/-- The fixed representation. -/
structure FRLookup where
  default : ℕ

def FRLookup.populate (a : Analysis) : FRLookup := ⟨a.d⟩

def FRLookup.lookup (m : FRLookup) (_ : ℕ) : Option ℕ := some m.default

/-- The bitmap of neighbor indices, from the first to the last that is not the default. -/
structure BMLookup (w : ℕ) where
  default : ℕ
  firstNonDefault : ℕ
  lastNonDefault : ℕ
  nVec : List ℕ
  bitMap : BitMap w

namespace BMLookup

variable {w : ℕ}

def setEntry (r nVec : List ℕ) (f : ℕ) (m : BitMap w) (k : ℕ) : Option (BitMap w) := do
  let hop ← r[f + k]?
  m.set k (nVec.idxOf hop)

def populate (w : ℕ) (r : List ℕ) (a : Analysis) : Option (BMLookup w) := do
  let nVec := nonzero a.p
  let c := a.l - a.f + 1
  let m ← (List.range c).foldlM (setEntry r nVec a.f) (BitMap.new w c (BitMap.findBPE nVec.length))
  some ⟨a.d, a.f, a.l, nVec, m⟩

def lookup (m : BMLookup w) (t : ℕ) : Option ℕ :=
  if t < m.firstNonDefault then some m.default
  else if t > m.lastNonDefault then some m.default
  else do
    let i ← m.bitMap.get (t - m.firstNonDefault)
    m.nVec[i]?

end BMLookup

/-- A `std::map` by its comparator: keys are the same if none is before the other. -/
abbrev StdMap := List (ℕ × ℕ)

namespace StdMap

variable (comp : ℕ → ℕ → Bool)

def find (m : StdMap) (k : ℕ) : Option (ℕ × ℕ) := List.find? (fun e => !comp e.1 k && !comp k e.1) m

def insert (m : StdMap) (e : ℕ × ℕ) : StdMap := if (find comp m e.1).isSome then m else m ++ [e]

end StdMap

/-- The map of the entries that are not the default. -/
structure HMLookup where
  default : ℕ
  routeMap : StdMap

namespace HMLookup

/-- `equal_to`, where `std::map` has the order of the keys. -/
def equalTo (a b : ℕ) : Bool := a == b

def addRoute (r : List ℕ) (d : ℕ) (m : StdMap) (i : ℕ) : StdMap :=
  if entry r i ≠ d ∧ entry r i ≠ nodeNone then m.insert equalTo (i, entry r i) else m

def populate (r : List ℕ) (a : Analysis) : HMLookup :=
  ⟨a.d, (List.range r.length).foldl (addRoute r a.d) []⟩

def lookup (m : HMLookup) (t : ℕ) : Option ℕ :=
  match m.routeMap.find equalTo t with
  | none => some m.default
  | some e => some e.2

end HMLookup

/-- The plain array. -/
structure NHLookup where
  routeTable : List ℕ

def NHLookup.populate (r : List ℕ) : NHLookup := ⟨r⟩

def NHLookup.lookup (m : NHLookup) (t : ℕ) : Option ℕ :=
  if t ≥ m.routeTable.length then some nodeNone else m.routeTable[t]?

/-- A table of next hops of the owner `o`. -/
structure IsTable (r : List ℕ) (o : ℕ) : Prop where
  owner : o < r.length
  none : r[o]? = some nodeNone
  hop : ∀ t < r.length, t ≠ o → entry r t < r.length
  size : r.length ≤ nodeNone

/-- Two nodes have different next hops. -/
def TwoHops (r : List ℕ) (o : ℕ) : Prop :=
  ∃ t < r.length, t ≠ o ∧ ∃ u < r.length, u ≠ o ∧ entry r t ≠ entry r u

/-- The lookups of all nodes but the owner give their next hops. -/
def Right (lookup : ℕ → Option ℕ) (r : List ℕ) (o : ℕ) : Prop :=
  ∀ t < r.length, t ≠ o → lookup t = some (entry r t)

/-- The representations agree with the table: the fixed one if there is a single next hop, and the
others if there are more, whether a `u_long` has 32 or 64 bits. -/
def Agree (r : List ℕ) (o : ℕ) : Prop :=
  ∃ a, analyze r o = some a ∧ (¬TwoHops r o → Right (FRLookup.populate a).lookup r o) ∧
    (TwoHops r o → (∀ w, w = 32 ∨ w = 64 →
        ∃ m, BMLookup.populate w r a = some m ∧ Right m.lookup r o) ∧
      Right (HMLookup.populate r a).lookup r o ∧ Right (NHLookup.populate r).lookup r o)

end Ns2.RouteAlgo
