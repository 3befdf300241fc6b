import Ns2.Dtn.Fragment
import Ns2.Lib.Keyed
import Ns2.Lib.Machine
import Ns2.Lib.Text

/-! Delivery registrations of a DTN agent (`dtn/registration.cc`). Tokens come from a counter that
all stores share; it is an `int`. -/

namespace Ns2

/-- `failAct_` -/
inductive FailAct where
  | undef
  | defer
  | abort
  | sink
deriving DecidableEq

/-- `passive` is set by `start` and cleared by `stop`. -/
structure RegEntry where
  token : ℤ
  failAct : FailAct
  endpoint : List Char
  passive : Bool
deriving DecidableEq

/-- A store, with the token that the next entry gets. -/
structure Registration where
  reg : List RegEntry
  token : ℤ

/-- `elsewhere` is an entry made by another store. A missing argument is a null pointer. -/
inductive RegCall where
  | addReg (failact endpoint : Option (List Char))
  | deReg (ctoken : Option (List Char))
  | start (ctoken : Option (List Char))
  | stop (ctoken : Option (List Char))
  | change (ctoken failact : Option (List Char))
  | elsewhere

namespace Registration

open Str

def parseFailAct (failact : List Char) : Option FailAct :=
  if failact = "DEFER".toList then some .defer
  else if failact = "ABORT".toList then some .abort
  else if failact = "SINK".toList then some .sink
  else none

/-- The entry is in the list before its failure action is looked at. -/
def addReg (s : Registration) (failact endpoint : Option (List Char)) : Registration × ℤ :=
  match failact, endpoint with
  | some failact, some endpoint =>
    let token := toInt32 (s.token + 1)
    match parseFailAct failact with
    | some act => (⟨s.reg ++ [⟨s.token, act, endpoint, false⟩], token⟩, s.token)
    | none => (⟨s.reg ++ [⟨s.token, .undef, endpoint, false⟩], token⟩, -1)
  | _, _ => (s, -1)

/-- The token that the text names, if an entry has it. -/
def findToken (s : Registration) (ctoken : Option (List Char)) : Option ℤ :=
  ctoken.bind fun ctoken =>
    let token := atoi ctoken
    if token ≠ 0 ∧ (findKey RegEntry.token token s.reg).isSome then some token else none

def deReg (s : Registration) (ctoken : Option (List Char)) : Registration × ℤ :=
  match s.findToken ctoken with
  | some token => ({ s with reg := eraseKey RegEntry.token token s.reg }, 0)
  | none => (s, -1)

def lookup (s : Registration) (endpoint : List Char) : Option RegEntry :=
  findKey RegEntry.endpoint endpoint s.reg

/-- The entry with the token changes in place. -/
def set (s : Registration) (ctoken : Option (List Char)) (f : RegEntry → RegEntry) :
    Registration × ℤ :=
  match s.findToken ctoken with
  | some token => ({ s with reg := updateKey RegEntry.token token f s.reg }, 0)
  | none => (s, -1)

def start (s : Registration) (ctoken : Option (List Char)) : Registration × ℤ :=
  s.set ctoken fun cur => { cur with passive := true }

def stop (s : Registration) (ctoken : Option (List Char)) : Registration × ℤ :=
  s.set ctoken fun cur => { cur with passive := false }

def change (s : Registration) (ctoken failact : Option (List Char)) : Registration × ℤ :=
  match failact.bind parseFailAct with
  | some act => s.set ctoken fun cur => { cur with failAct := act }
  | none => (s, -1)

def step (s : Registration) : RegCall → Registration × ℤ
  | .addReg failact endpoint => s.addReg failact endpoint
  | .deReg ctoken => s.deReg ctoken
  | .start ctoken => s.start ctoken
  | .stop ctoken => s.stop ctoken
  | .change ctoken failact => s.change ctoken failact
  | .elsewhere => ({ s with token := toInt32 (s.token + 1) }, 0)

/-- The registrations that a caller counts on, by what the calls answered: token and endpoint. -/
abbrev Ledger := List (ℤ × List Char)

/-- A token is an answer other than -1. -/
def book (ledger : Ledger) : RegCall → ℤ → Ledger
  | .addReg _ (some endpoint), answer =>
    if answer = -1 then ledger else ledger ++ [(answer, endpoint)]
  | .deReg (some ctoken), answer =>
    if answer = 0 then eraseKey Prod.fst (atoi ctoken) ledger else ledger
  | _, _ => ledger

/-- The store with the ledger of its callers. -/
def machine : Machine (Registration × Ledger) RegCall ℤ where
  step := fun (s, ledger) call =>
    let r := s.step call
    some ((r.1, book ledger call r.2), r.2)

/-- An endpoint finds the earliest registration of the ledger for it, and tokens tell entries
apart. -/
structure Agrees (s : Registration) (ledger : Ledger) : Prop where
  lookup : ∀ endpoint, (s.lookup endpoint).map (fun cur => (cur.token, cur.endpoint)) =
    findKey Prod.snd endpoint ledger
  tokens : (s.reg.map RegEntry.token).Nodup

/-- A call that answers -1 leaves the list alone, and the lookups agree with the ledger after it. -/
def Right (r : Registration × Ledger) (call : RegCall) : Prop :=
  let r' := r.1.step call
  (r'.2 = -1 → r'.1.reg = r.1.reg) ∧ r'.1.Agrees (book r.2 call r'.2)

/-- A registration has one of the three failure actions, and its token is neither the answer of a
failure nor the token of an entry. -/
def Meets (r : Registration × Ledger) : RegCall → Prop
  | .addReg (some failact) (some _) =>
    parseFailAct failact ≠ none ∧ r.1.token ≠ -1 ∧ ∀ cur ∈ r.1.reg, cur.token ≠ r.1.token
  | _ => True

/-- No entry yet. -/
def new : Registration := ⟨[], 1⟩

variable {s : Registration} {ledger : Ledger}

/-- What the ledger has of an entry. -/
def row (cur : RegEntry) : ℤ × List Char := (cur.token, cur.endpoint)

/-- The ledger has a row for each entry. -/
structure Booked (s : Registration) (ledger : Ledger) : Prop where
  rows : ledger = s.reg.map row
  tokens : (s.reg.map RegEntry.token).Nodup

theorem Booked.agrees (h : s.Booked ledger) : s.Agrees ledger := by
  refine ⟨fun endpoint => ?_, h.tokens⟩
  rw [h.rows, findKey_comp]
  rfl

/-- A call as the ledger wants it: a failure leaves the list alone, and each entry has its row. -/
def Keeps (s : Registration) (ledger : Ledger) (call : RegCall) : Prop :=
  ((s.step call).2 = -1 → (s.step call).1.reg = s.reg) ∧
    (s.step call).1.Booked (book ledger call (s.step call).2)

theorem zero_ne_neg_one : (0 : ℤ) ≠ -1 := by decide

theorem findToken_eq_some {ctoken : Option (List Char)} {token : ℤ}
    (h : s.findToken ctoken = some token) : ∃ text, ctoken = some text ∧ atoi text = token := by
  obtain ⟨text, htext, h⟩ := Option.bind_eq_some_iff.1 h
  dsimp only at h
  split_ifs at h
  exact ⟨text, htext, Option.some.inj h⟩

section

variable (h : s.Booked ledger)
include h

theorem Booked.set {f : RegEntry → RegEntry}
    (hf : ∀ cur, row (f cur) = row cur) (ctoken : Option (List Char)) :
    ((s.set ctoken f).2 = -1 → (s.set ctoken f).1.reg = s.reg) ∧ (s.set ctoken f).1.Booked ledger := by
  rw [Registration.set]
  cases s.findToken ctoken with
  | none => exact ⟨fun _ => rfl, h⟩
  | some token =>
    have htoken : ∀ cur, (f cur).token = cur.token := fun cur => congrArg Prod.fst (hf cur)
    refine ⟨fun hanswer => absurd hanswer zero_ne_neg_one, ?_, ?_⟩
    · rw [h.rows]
      exact (map_updateKey_of_eq hf).symm
    · rw [map_updateKey_of_eq htoken]
      exact h.tokens

theorem Booked.deReg (ctoken : Option (List Char)) :
    s.Keeps ledger (.deReg ctoken) := by
  rw [Keeps, step, Registration.deReg]
  cases hfind : s.findToken ctoken with
  | none =>
    refine ⟨fun _ => rfl, ?_⟩
    cases ctoken with
    | none => exact h
    | some text => exact h
  | some token =>
    obtain ⟨text, rfl, rfl⟩ := findToken_eq_some hfind
    refine ⟨fun hanswer => absurd hanswer zero_ne_neg_one, ?_, nodup_eraseKey h.tokens⟩
    rw [h.rows]
    exact eraseKey_comp

theorem Booked.change (ctoken failact : Option (List Char)) :
    s.Keeps ledger (.change ctoken failact) := by
  rw [Keeps, step, Registration.change]
  cases failact.bind parseFailAct with
  | none => exact ⟨fun _ => rfl, h⟩
  | some act => exact h.set (by exact fun _ => rfl) ctoken

theorem Booked.append (hnew : ∀ cur ∈ s.reg, cur.token ≠ s.token)
    (act : FailAct) (endpoint : List Char) (token : ℤ) :
    Booked ⟨s.reg ++ [⟨s.token, act, endpoint, false⟩], token⟩ (ledger ++ [(s.token, endpoint)]) := by
  constructor
  · rw [List.map_append, h.rows]
    rfl
  · rw [List.map_append]
    refine List.Nodup.append h.tokens (List.nodup_singleton _) fun x hx hx' => ?_
    obtain ⟨cur, hcur, rfl⟩ := List.mem_map.1 hx
    exact hnew cur hcur (List.mem_singleton.1 hx')

theorem Booked.keeps {call : RegCall} (hmeets : Meets (s, ledger) call) :
    s.Keeps ledger call := by
  cases call with
  | addReg failact endpoint =>
    cases failact with
    | none => exact ⟨fun _ => rfl, by cases endpoint <;> exact h⟩
    | some failact =>
      cases endpoint with
      | none => exact ⟨fun _ => rfl, h⟩
      | some endpoint =>
        obtain ⟨hparse, htoken, hnew⟩ := hmeets
        obtain ⟨act, hact⟩ := Option.ne_none_iff_exists'.1 hparse
        simp only [Keeps, step, addReg, hact, book, if_neg htoken]
        exact ⟨fun hanswer => absurd hanswer htoken, h.append hnew act endpoint _⟩
  | deReg ctoken => exact h.deReg ctoken
  | start ctoken => exact h.set (by exact fun _ => rfl) ctoken
  | stop ctoken => exact h.set (by exact fun _ => rfl) ctoken
  | change ctoken failact => exact h.change ctoken failact
  | elsewhere => exact ⟨fun hanswer => absurd hanswer zero_ne_neg_one, h.rows, h.tokens⟩

end

/-- An entry of a registration that fails stays in the list, as does one that gets -1 or the
token of another entry. -/
theorem meets_of_right {call : RegCall} (h : Right (s, ledger) call) : Meets (s, ledger) call := by
  cases call with
  | addReg failact endpoint =>
    cases failact with
    | none => trivial
    | some failact =>
      cases endpoint with
      | none => trivial
      | some endpoint =>
        have hlength : ∀ temp : RegEntry, s.reg ++ [temp] ≠ s.reg := by
          intro temp heq
          simpa using congrArg List.length heq
        cases hact : parseFailAct failact with
        | none =>
          simp only [Right, step, addReg, hact] at h
          exact absurd (h.1 trivial) (hlength _)
        | some act =>
          simp only [Right, step, addReg, hact] at h
          refine ⟨by rw [hact]; simp, fun htoken => hlength _ (h.1 htoken), fun cur hcur heq => ?_⟩
          have hnodup := h.2.tokens
          rw [List.map_append] at hnodup
          exact List.disjoint_of_nodup_append hnodup (List.mem_map_of_mem hcur)
            (List.mem_singleton.2 heq)
  | _ => trivial

theorem Booked.right_iff (h : s.Booked ledger) (call : RegCall) :
    Right (s, ledger) call ↔ Meets (s, ledger) call :=
  ⟨meets_of_right, fun hmeets => ⟨(h.keeps hmeets).1, (h.keeps hmeets).2.agrees⟩⟩

/-- All calls of a run are right exactly when each registration of it has a failure action of the
three and a token that is neither -1 nor taken. -/
theorem runsWith_right_iff_booked (calls : List RegCall) :
    machine.RunsWith Right (new, []) calls ↔ machine.RunsWith Meets (new, []) calls := by
  have hnew : new.Booked [] := ⟨rfl, List.nodup_nil⟩
  refine Machine.runsWith_congr (I := fun r => r.1.Booked r.2) (fun r call h => h.right_iff call)
    (fun r call r' answer h hright hstep => ?_) hnew calls
  cases hstep
  exact (h.keeps (meets_of_right hright)).2

/-- `E` is registered with an action that there is not, and then with one that there is. -/
def refused : List RegCall :=
  [.addReg (some ['D']) (some ['E']), .addReg (some "DEFER".toList) (some ['E'])]

/-- The entry of the call that failed is found in place of the registered one. -/
theorem not_runsWith_right_refused :
    ¬machine.RunsWith Right (new, []) refused ∧
      ((machine.run (new, []) refused).map fun r => (r.2, r.1.1.lookup ['E'], r.1.2)) =
        some ([-1, 2], some ⟨1, .undef, ['E'], false⟩, [(2, ['E'])]) := by
  refine ⟨fun h => ?_, by decide⟩
  exact absurd (h.1.1 (by decide)) (by decide)

end Registration

end Ns2
