import Ecco9.Library.Assignments
import Ecco9.Library.MachineInt
import Ecco9.Library.RootedTree
import Mathlib.Algebra.Field.Rat
import Mathlib.Algebra.Order.Ring.Rat

/-! The P-system of `core/opencog/dtesn.go`: rules that are applied to the membranes of a map that
grows while it is gone over. -/

namespace Ecco9.Opencog

open Ecco9.Library

inductive RuleAction
  | transform
  | move
  | divide
  | dissolve
  deriving DecidableEq

/-- A multiset of a rule: the entries of a map in the order in which it is gone over. -/
structure Objects where
  entries : List (String × Int)
  distinct : (entries.map Prod.fst).Nodup
  range : ∀ e ∈ entries, 0 ≤ e.2 ∧ e.2 < 2 ^ 63

def Objects.count (b : Objects) (obj : String) : Int :=
  ((Keyed.lookup Prod.fst obj b.entries).map Prod.snd).getD 0

structure MembraneRule where
  lhs : Objects
  rhs : Objects
  action : RuleAction
  probability : ℚ

structure Membrane where
  id : String
  label : String
  parent : String
  children : List String := []
  /-- the map, an absent entry being 0 -/
  objects : String → Int
  permeability : ℚ
  active : Bool := true

structure PaunPSystem where
  /-- the map by `ID` -/
  membranes : List Membrane
  rootMembrane : String
  rules : List MembraneRule
  /-- the map, an absent entry being no children -/
  hierarchy : String → List String

def rootID : String := "membrane_root"

/-- `NewPaunPSystem`, with rules and with objects in its root. -/
def newPaunPSystem (rules : List MembraneRule) (objects : String → Int) : PaunPSystem where
  membranes := [{ id := rootID, label := "root", parent := "", objects, permeability := 1 / 2 }]
  rootMembrane := rootID
  rules
  hierarchy _ := []

/-- `initializeEvolutionRules` -/
def evolutionRules : List MembraneRule :=
  [{ lhs := ⟨[("energy", 10)], by decide, by decide⟩
     rhs := ⟨[("energy", 5)], by decide, by decide⟩
     action := .divide
     probability := 1 / 10 },
   { lhs := ⟨[("pattern", 1)], by decide, by decide⟩
     rhs := ⟨[("evolved_pattern", 1)], by decide, by decide⟩
     action := .transform
     probability := 1 / 5 }]

/-- The number of each object with the number of the entry. -/
def adjust (f : Int → Int → Int) (entries : List (String × Int)) (objects : String → Int) :
    String → Int :=
  entries.foldl (fun objects e => Function.update objects e.1 (f (objects e.1) e.2)) objects

def subObjects (b : Objects) : (String → Int) → String → Int :=
  adjust (fun n count => wrap64 (n - count)) b.entries

def addObjects (b : Objects) : (String → Int) → String → Int :=
  adjust (fun n count => wrap64 (n + count)) b.entries

def childID (id : String) (unixNano : Int) : String := id ++ "_child_" ++ toString unixNano

namespace Membrane

def canApply (m : Membrane) (rule : MembraneRule) : Bool :=
  rule.lhs.entries.all fun e => ¬m.objects e.1 < e.2

def transformed (m : Membrane) (rule : MembraneRule) : Membrane :=
  { m with objects := addObjects rule.rhs (subObjects rule.lhs m.objects) }

def child (m : Membrane) (unixNano : Int) : Membrane where
  id := childID m.id unixNano
  label := "child"
  parent := m.id
  objects obj := (m.objects obj).tdiv 2
  permeability := m.permeability

/-- What is left of a membrane that has divided. -/
def divided (m : Membrane) (unixNano : Int) : Membrane :=
  { m with
    children := m.children ++ [childID m.id unixNano]
    objects := fun obj => m.objects obj - (m.objects obj).tdiv 2 }

end Membrane

namespace PaunPSystem

def ids (p : PaunPSystem) : List String := p.membranes.map Membrane.id

def find (p : PaunPSystem) (id : String) : Option Membrane := Keyed.lookup Membrane.id id p.membranes

def put (p : PaunPSystem) (m : Membrane) : PaunPSystem :=
  { p with membranes := Keyed.put Membrane.id m p.membranes }

def applyRule (p : PaunPSystem) (m : Membrane) (rule : MembraneRule) (unixNano : Int) : PaunPSystem :=
  if m.canApply rule then
    match rule.action with
    | .transform => p.put (m.transformed rule)
    | .divide =>
      { (p.put (m.divided unixNano)).put (m.child unixNano) with
        hierarchy := Function.update p.hierarchy m.id (p.hierarchy m.id ++ [childID m.id unixNano]) }
    | .move | .dissolve => p
  else p

end PaunPSystem

/-- An `Evolve` that goes over the membranes. -/
structure Round where
  /-- The membranes that it must come to. -/
  due : List String
  visited : List String := []
  /-- A membrane with the rules still to be tried. -/
  current : Option (String × List MembraneRule) := none

/-- The system between two steps, with the ids made so far. -/
structure Evolution where
  system : PaunPSystem
  round : Option Round := none
  created : List String := []

inductive Event
  | begin
  | visit (id : String)
  | rule (draw : ℚ) (unixNano : Int)
  | leave
  | finish

namespace Evolution

/-- The rule that is tried next, with its membrane. -/
def next (e : Evolution) : Option (Membrane × MembraneRule) :=
  match e.round with
  | some ⟨_, _, some (id, rule :: _)⟩ => (e.system.find id).map fun m => (m, rule)
  | _ => none

/-- The rule that is applied next if that is what is drawn, with its membrane. -/
def applied (e : Evolution) (draw : ℚ) : Option (Membrane × MembraneRule) :=
  e.next.filter fun (m, rule) => draw < rule.probability ∧ m.canApply rule

/-- The ids that this makes. -/
def newIDs (e : Evolution) (draw : ℚ) (unixNano : Int) : List String :=
  match e.applied draw with
  | some (m, rule) => if rule.action = .divide then [childID m.id unixNano] else []
  | none => []

def step (e : Evolution) : Event → Option Evolution
  | .begin =>
    match e.round with
    | none => some { e with round := some { due := e.system.ids } }
    | some _ => none
  | .visit id =>
    match e.round with
    | some ⟨due, visited, none⟩ =>
      match e.system.find id with
      | some m =>
        if id ∉ visited then
          some { e with
            round := some ⟨due, visited, some (id, if m.active then e.system.rules else [])⟩ }
        else none
      | none => none
    | _ => none
  | .rule draw unixNano =>
    match e.round with
    | some ⟨due, visited, some (id, rule :: rules)⟩ =>
      if 0 ≤ draw ∧ draw < 1 then
        some {
          system := match e.system.find id with
            | some m => if draw < rule.probability then e.system.applyRule m rule unixNano else e.system
            | none => e.system
          round := some ⟨due, visited, some (id, rules)⟩
          created := e.created ++ e.newIDs draw unixNano }
      else none
    | _ => none
  | .leave =>
    match e.round with
    | some ⟨due, visited, some (id, [])⟩ => some { e with round := some ⟨due, visited ++ [id], none⟩ }
    | _ => none
  | .finish =>
    match e.round with
    | some ⟨due, visited, none⟩ => if ∀ id ∈ due, id ∈ visited then some { e with round := none } else none
    | _ => none

end Evolution

end Ecco9.Opencog
