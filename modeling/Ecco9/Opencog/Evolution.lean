import Ecco9.Library.Runs
import Ecco9.Opencog.Membranes

/-! What `Evolve` keeps between any two of its steps. -/

namespace Ecco9.Opencog

open Ecco9.Library

namespace PaunPSystem

def childrenOf (p : PaunPSystem) (id : String) : List String :=
  ((p.find id).map Membrane.children).getD []

/-- The total count of an object over all membranes. -/
def total (p : PaunPSystem) (obj : String) : Int := (p.membranes.map fun m => m.objects obj).sum

/-- `Parent`, `Children` and `Hierarchy` are those of one tree with all membranes. -/
structure Tree (p : PaunPSystem) : Prop where
  rooted : Rooted p.rootMembrane p.ids p.childrenOf
  hierarchy : p.hierarchy = p.childrenOf
  parent : ∀ m ∈ p.membranes,
    if m.id = p.rootMembrane then m.parent = "" else m.id ∈ p.childrenOf m.parent
  named : "" ∉ p.ids

end PaunPSystem

namespace Evolution

structure Sane (e : Evolution) : Prop where
  nonneg : ∀ m ∈ e.system.membranes, ∀ obj, 0 ≤ m.objects obj
  tree : e.system.Tree

/-- What a step is to change of the total count of an object. -/
def change (e : Evolution) (obj : String) : Event → Int
  | .rule draw _ =>
    match e.applied draw with
    | some (_, rule) => if rule.action = .transform then rule.rhs.count obj - rule.lhs.count obj else 0
    | none => 0
  | _ => 0

/-- The ids of the new membranes are pairwise distinct. -/
def Distinct (e : Evolution) : Event → Prop
  | .rule draw unixNano => ∀ id ∈ e.newIDs draw unixNano, id ∉ e.created
  | _ => True

instance (e : Evolution) : (act : Event) → Decidable (e.Distinct act)
  | .rule draw unixNano => inferInstanceAs (Decidable (∀ id ∈ e.newIDs draw unixNano, id ∉ e.created))
  | .begin | .visit _ | .leave | .finish => isTrue trivial

/-- A count to which is added stays below what an `int` can hold. -/
def Fits (e : Evolution) : Event → Prop
  | .rule draw _ => ∀ m rule, e.applied draw = some (m, rule) → rule.action = .transform →
    ∀ obj, m.objects obj - rule.lhs.count obj + rule.rhs.count obj < 2 ^ 63
  | _ => True

end Evolution

/-! ### Multisets -/

theorem adjust_apply (f : Int → Int → Int) {entries : List (String × Int)}
    (distinct : (entries.map Prod.fst).Nodup) (objects : String → Int) (obj : String) :
    adjust f entries objects obj =
      ((Keyed.lookup Prod.fst obj entries).map fun e => f (objects obj) e.2).getD (objects obj) := by
  induction entries generalizing objects with
  | nil => rfl
  | cons e entries ih =>
    obtain ⟨fresh, distinct⟩ := List.nodup_cons.mp distinct
    rw [adjust, List.foldl_cons, ← adjust, ih distinct, Keyed.lookup_cons]
    by_cases he : e.1 = obj
    · subst he
      rw [Keyed.lookup_eq_none.mpr fresh]
      simp
    · rw [Function.update_of_ne (Ne.symm he), if_neg he]

namespace Objects

variable {b : Objects} {obj : String}

theorem count_range (b : Objects) (obj : String) : 0 ≤ b.count obj ∧ b.count obj < 2 ^ 63 := by
  rw [count]
  cases h : Keyed.lookup Prod.fst obj b.entries with
  | none => simp
  | some e => exact b.range e (Keyed.mem_of_lookup h).1

/-- An object without an entry counts as one with the entry 0. -/
theorem adjust_count {f : Int → Int → Int} {objects : String → Int}
    (zero : f (objects obj) 0 = objects obj) :
    adjust f b.entries objects obj = f (objects obj) (b.count obj) := by
  rw [adjust_apply f b.distinct, count]
  cases Keyed.lookup Prod.fst obj b.entries with
  | none => exact zero.symm
  | some e => rfl

end Objects

theorem subObjects_apply {b : Objects} {objects : String → Int} {obj : String}
    (hi : objects obj < 2 ^ 63) (le : b.count obj ≤ objects obj) :
    subObjects b objects obj = objects obj - b.count obj := by
  have hb := b.count_range obj
  rw [subObjects, Objects.adjust_count (by rw [wrap64_of_range] <;> omega)]
  exact wrap64_of_range (by omega) (by omega)

theorem addObjects_apply {b : Objects} {objects : String → Int} {obj : String} (lo : 0 ≤ objects obj)
    (fits : objects obj + b.count obj < 2 ^ 63) :
    addObjects b objects obj = objects obj + b.count obj := by
  have hb := b.count_range obj
  rw [addObjects, Objects.adjust_count (by rw [wrap64_of_range] <;> omega)]
  exact wrap64_of_range (by omega) (by omega)

/-! ### One membrane -/

namespace Membrane

variable {m : Membrane} {rule : MembraneRule}

/-- The counts are those of an `int` that is not negative. -/
def Counts (m : Membrane) : Prop := ∀ obj, 0 ≤ m.objects obj ∧ m.objects obj < 2 ^ 63

theorem Counts.lhs_le (h : m.Counts) (happly : m.canApply rule) (obj : String) :
    rule.lhs.count obj ≤ m.objects obj := by
  rw [canApply, List.all_eq_true] at happly
  rw [Objects.count]
  cases hlookup : Keyed.lookup Prod.fst obj rule.lhs.entries with
  | none => exact (h obj).1
  | some e =>
    obtain ⟨hmem, rfl⟩ := Keyed.mem_of_lookup hlookup
    simpa using happly e hmem

theorem transformed_objects (h : m.Counts) (happly : m.canApply rule) {obj : String}
    (fits : m.objects obj - rule.lhs.count obj + rule.rhs.count obj < 2 ^ 63) :
    (m.transformed rule).objects obj = m.objects obj - rule.lhs.count obj + rule.rhs.count obj := by
  have le := h.lhs_le happly obj
  have hsub := subObjects_apply (h obj).2 le
  have hadd : addObjects rule.rhs (subObjects rule.lhs m.objects) obj =
      subObjects rule.lhs m.objects obj + rule.rhs.count obj :=
    addObjects_apply (by rw [hsub]; omega) (by rwa [hsub])
  exact hadd.trans (by rw [hsub])

theorem Counts.transformed (h : m.Counts) (happly : m.canApply rule)
    (fits : ∀ obj, m.objects obj - rule.lhs.count obj + rule.rhs.count obj < 2 ^ 63) :
    (m.transformed rule).Counts := by
  intro obj
  have le := h.lhs_le happly obj
  have := rule.rhs.count_range obj
  rw [transformed_objects h happly (fits obj)]
  exact ⟨by omega, fits obj⟩

theorem Counts.child (h : m.Counts) (unixNano : Int) : (m.child unixNano).Counts := by
  intro obj
  have hm := h obj
  have half : (m.child unixNano).objects obj = m.objects obj / 2 := Int.tdiv_eq_ediv_of_nonneg hm.1
  omega

theorem Counts.divided (h : m.Counts) (unixNano : Int) : (m.divided unixNano).Counts := by
  intro obj
  have hm := h obj
  have half := (h.child unixNano) obj
  have rest : (m.divided unixNano).objects obj = m.objects obj - (m.child unixNano).objects obj := rfl
  have : (m.child unixNano).objects obj = m.objects obj / 2 := Int.tdiv_eq_ediv_of_nonneg hm.1
  omega

end Membrane

/-! ### The system -/

theorem length_childID (id : String) (unixNano : Int) : id.length + 7 ≤ (childID id unixNano).length := by
  rw [childID, String.length_append, String.length_append]
  have : "_child_".length = 7 := by decide
  omega

namespace PaunPSystem

variable {p : PaunPSystem} {m m' : Membrane}

theorem find_mem {id : String} (h : p.find id = some m) : m ∈ p.membranes ∧ m.id = id :=
  Keyed.mem_of_lookup h

theorem ids_put_old (h : m.id ∈ p.ids) : (p.put m).ids = p.ids := Keyed.keys_put_old h

theorem ids_put_new (h : m.id ∉ p.ids) : (p.put m).ids = p.ids ++ [m.id] := by
  rw [ids, put, Keyed.put_new h, List.map_append]
  rfl

theorem mem_put (h : m' ∈ (p.put m).membranes) : m' = m ∨ m' ∈ p.membranes := Keyed.mem_put h

theorem childrenOf_put (m : Membrane) :
    (p.put m).childrenOf = Function.update p.childrenOf m.id m.children := by
  funext id
  rw [childrenOf, find, put, Keyed.lookup_put, Function.update_apply]
  by_cases h : m.id = id
  · rw [if_pos h, if_pos h.symm]
    rfl
  · rw [if_neg h, if_neg (Ne.symm h)]
    rfl

theorem total_put_old (h : p.find m.id = some m') (obj : String) :
    (p.put m).total obj = p.total obj - m'.objects obj + m.objects obj := by
  have hsum := Keyed.sum_put Membrane.id (fun m => m.objects obj) m p.membranes
  rw [← find, h] at hsum
  have heq : (p.put m).total obj + m'.objects obj = p.total obj + m.objects obj := hsum
  omega

theorem total_put_new (h : m.id ∉ p.ids) (obj : String) :
    (p.put m).total obj = p.total obj + m.objects obj := by
  rw [total, put, Keyed.put_new h]
  simp [total]

/-- A membrane that changes neither its name nor its place in the tree. -/
theorem Tree.put (h : p.Tree) (hm : p.find m.id = some m) (hid : m'.id = m.id)
    (hparent : m'.parent = m.parent) (hchildren : m'.children = m.children) : (p.put m').Tree := by
  have hmem := (find_mem hm).1
  have ids : (p.put m').ids = p.ids := ids_put_old (hid ▸ List.mem_map_of_mem hmem)
  have children : (p.put m').childrenOf = p.childrenOf := by
    rw [childrenOf_put, hid, hchildren, Function.update_eq_self_iff, childrenOf, hm]
    rfl
  constructor
  · rw [ids, children]
    exact h.rooted
  · rw [children]
    exact h.hierarchy
  · rw [children]
    intro k hk
    rcases mem_put hk with rfl | hk
    · rw [hid, hparent]
      exact h.parent m hmem
    · exact h.parent k hk
  · rw [ids]
    exact h.named

/-- What `DivideAction` makes of the system. -/
def divide (p : PaunPSystem) (m : Membrane) (unixNano : Int) : PaunPSystem :=
  { (p.put (m.divided unixNano)).put (m.child unixNano) with
    hierarchy := Function.update p.hierarchy m.id (p.hierarchy m.id ++ [childID m.id unixNano]) }

section

variable {unixNano : Int} (hm : p.find m.id = some m) (hnew : childID m.id unixNano ∉ p.ids)

include hm

theorem ids_divided : (p.put (m.divided unixNano)).ids = p.ids := by
  have hid : m.id ∈ p.ids := List.mem_map_of_mem (find_mem hm).1
  exact ids_put_old hid

include hnew

theorem child_new : (m.child unixNano).id ∉ (p.put (m.divided unixNano)).ids := by
  rwa [ids_divided hm]

theorem ids_divide : (p.divide m unixNano).ids = p.ids ++ [childID m.id unixNano] :=
  (ids_put_new (child_new hm hnew)).trans (by rw [ids_divided hm]; rfl)

theorem childrenOf_divide : (p.divide m unixNano).childrenOf =
    Function.update p.childrenOf m.id (p.childrenOf m.id ++ [childID m.id unixNano]) := by
  have hchildren : p.childrenOf m.id = m.children := by
    rw [childrenOf, hm]
    rfl
  have hnone : p.childrenOf (childID m.id unixNano) = [] := by
    rw [childrenOf, find, Keyed.lookup_eq_none.mpr hnew]
    rfl
  have hne : childID m.id unixNano ≠ m.id := by
    intro heq
    rw [heq] at hnew
    exact hnew (List.mem_map_of_mem (find_mem hm).1)
  refine (childrenOf_put _).trans ?_
  rw [childrenOf_put, hchildren]
  refine Function.update_eq_self_iff.mpr ?_
  change [] = Function.update p.childrenOf m.id _ (childID m.id unixNano)
  rw [Function.update_of_ne hne, hnone]

omit hm hnew in
theorem mem_divide (h : m' ∈ (p.divide m unixNano).membranes) :
    m' = m.child unixNano ∨ m' = m.divided unixNano ∨ m' ∈ p.membranes :=
  (mem_put h).imp_right mem_put

theorem total_divide (obj : String) : (p.divide m unixNano).total obj = p.total obj := by
  have hchild := total_put_new (child_new hm hnew) obj
  have hdivided := total_put_old (m := m.divided unixNano) hm obj
  have rest : (m.divided unixNano).objects obj = m.objects obj - (m.child unixNano).objects obj := rfl
  have heq : (p.divide m unixNano).total obj =
      ((p.put (m.divided unixNano)).put (m.child unixNano)).total obj := rfl
  omega

theorem Tree.divide (h : p.Tree) : (p.divide m unixNano).Tree := by
  have hmem := (find_mem hm).1
  have hid : m.id ∈ p.ids := List.mem_map_of_mem hmem
  have children := childrenOf_divide hm hnew
  have hkeep {a b : String} (hb : b ∈ p.childrenOf a) : b ∈ (p.divide m unixNano).childrenOf a := by
    rw [children, Function.update_apply]
    split_ifs with ha
    · exact List.mem_append_left _ (ha ▸ hb)
    · exact hb
  have hplace {k : Membrane} (hk : k ∈ p.membranes) : if k.id = p.rootMembrane then k.parent = ""
      else k.id ∈ (p.divide m unixNano).childrenOf k.parent := by
    have := h.parent k hk
    split_ifs at this ⊢
    · exact this
    · exact hkeep this
  constructor
  · rw [ids_divide hm hnew, children]
    exact h.rooted.graft hid hnew
  · rw [children, ← h.hierarchy]
    rfl
  · intro k hk
    rcases mem_divide hk with rfl | rfl | hk
    · have hroot : childID m.id unixNano ≠ p.rootMembrane := fun heq => hnew (heq ▸ h.rooted.rootMem)
      refine (if_neg hroot).mpr ?_
      rw [children]
      change _ ∈ Function.update p.childrenOf m.id _ m.id
      rw [Function.update_self]
      exact List.mem_append_right _ List.mem_cons_self
    · have := hplace hmem
      exact this
    · exact hplace hk
  · rw [ids_divide hm hnew]
    refine fun hnil => (List.mem_append.mp hnil).elim h.named fun hnil => ?_
    have hlen := length_childID m.id unixNano
    rw [← List.mem_singleton.mp hnil, String.length_empty] at hlen
    omega

end

end PaunPSystem

/-! ### The steps -/

namespace Evolution

/-- What a step does to the system. -/
inductive Does (e e' : Evolution) (act : Event) : Prop
  | nothing (system : e'.system = e.system) (created : e'.created = e.created)
      (change : ∀ obj, e.change obj act = 0)
  | transforms {draw : ℚ} {unixNano : Int} {m : Membrane} {rule : MembraneRule}
      (act_eq : act = .rule draw unixNano) (applied : e.applied draw = some (m, rule))
      (find : e.system.find m.id = some m) (canApply : m.canApply rule) (action : rule.action = .transform)
      (system : e'.system = e.system.put (m.transformed rule)) (created : e'.created = e.created)
  | divides {draw : ℚ} {unixNano : Int} {m : Membrane} {rule : MembraneRule}
      (act_eq : act = .rule draw unixNano) (applied : e.applied draw = some (m, rule))
      (find : e.system.find m.id = some m) (action : rule.action = .divide)
      (system : e'.system = e.system.divide m unixNano)
      (created : e'.created = e.created ++ [childID m.id unixNano])

variable {e e' : Evolution}

theorem applied_eq (draw : ℚ) {due visited : List String} {id : String} {rule : MembraneRule}
    {rules : List MembraneRule} (hround : e.round = some ⟨due, visited, some (id, rule :: rules)⟩) :
    e.applied draw = ((e.system.find id).map fun m => (m, rule)).filter fun (m, rule) =>
      draw < rule.probability ∧ m.canApply rule := by
  rw [applied, next, hround]

theorem step_rule_does {draw : ℚ} {unixNano : Int} (h : e.step (.rule draw unixNano) = some e') :
    Does e e' (.rule draw unixNano) := by
  rw [step] at h
  split at h
  · rename_i due visited id rule rules hround
    have happlied := applied_eq draw hround
    obtain ⟨-, rfl⟩ := Option.ite_none_right_eq_some.mp h |>.imp_right Option.some.inj
    cases hfind : e.system.find id with
    | none =>
      rw [hfind] at happlied
      refine .nothing ?_ ?_ fun obj => ?_
      · rfl
      · simp [newIDs, happlied]
      · simp [change, happlied]
    | some m =>
      obtain rfl := (PaunPSystem.find_mem hfind).2
      rw [hfind, Option.map_some, Option.filter_some] at happlied
      by_cases hfires : draw < rule.probability ∧ m.canApply rule
      · have happlied : e.applied draw = some (m, rule) := by simpa [hfires] using happlied
        cases haction : rule.action with
        | transform =>
          refine .transforms rfl happlied hfind hfires.2 haction ?_ ?_
          · simp [hfires, PaunPSystem.applyRule, haction]
          · simp [newIDs, happlied, haction]
        | divide =>
          refine .divides rfl happlied hfind haction ?_ ?_
          · simp [hfires, PaunPSystem.applyRule, haction, PaunPSystem.divide]
          · simp [newIDs, happlied, haction]
        | move =>
          refine .nothing ?_ ?_ fun obj => ?_
          · simp [hfires, PaunPSystem.applyRule, haction]
          · simp [newIDs, happlied, haction]
          · simp [change, happlied, haction]
        | dissolve =>
          refine .nothing ?_ ?_ fun obj => ?_
          · simp [hfires, PaunPSystem.applyRule, haction]
          · simp [newIDs, happlied, haction]
          · simp [change, happlied, haction]
      · have happlied : e.applied draw = none := by simpa [hfires] using happlied
        refine .nothing ?_ ?_ fun obj => ?_
        · simp only [PaunPSystem.applyRule]
          grind
        · simp [newIDs, happlied]
        · simp [change, happlied]
  · cases h

theorem step_does {act : Event} (h : e.step act = some e') : Does e e' act := by
  cases act with
  | rule draw unixNano => exact step_rule_does h
  | begin | visit id | leave | finish =>
    rw [step] at h
    grind [Does.nothing, change]

/-- The invariant: the root's id is none of the new ones, since these are longer. -/
structure Sound (e : Evolution) : Prop where
  counts : ∀ m ∈ e.system.membranes, m.Counts
  tree : e.system.Tree
  ids : e.system.ids = rootID :: e.created
  long : ∀ id ∈ e.system.ids, rootID.length ≤ id.length

theorem Sound.sane (h : e.Sound) : e.Sane := ⟨fun m hm obj => (h.counts m hm obj).1, h.tree⟩

def start (rules : List MembraneRule) (objects : String → Int) : Evolution :=
  { system := newPaunPSystem rules objects }

theorem sound_start {rules : List MembraneRule} {objects : String → Int}
    (h : ∀ obj, 0 ≤ objects obj ∧ objects obj < 2 ^ 63) : (start rules objects).Sound := by
  have children : (newPaunPSystem rules objects).childrenOf = fun _ => [] := by
    funext id
    rw [PaunPSystem.childrenOf, PaunPSystem.find, newPaunPSystem, Keyed.lookup_cons]
    split_ifs <;> rfl
  constructor
  · intro m hm
    obtain rfl := List.mem_singleton.mp hm
    exact h
  · refine ⟨?_, children.symm, fun m hm => ?_, ?_⟩
    · change Rooted _ _ (newPaunPSystem rules objects).childrenOf
      rw [children]
      exact rooted_singleton rootID
    · obtain rfl := List.mem_singleton.mp hm
      exact (if_pos rfl).mpr rfl
    · change "" ∉ [rootID]
      decide
  · rfl
  · intro id hid
    rw [List.mem_singleton.mp hid]

/-- What is to hold of a step. -/
def Orderly (e : Evolution) (act : Event) : Prop := e.Distinct act ∧ e.Fits act

/-- The new id is none of those of the membranes. -/
theorem Sound.new_id (h : e.Sound) {m : Membrane} {unixNano : Int} (hm : e.system.find m.id = some m)
    (hnew : childID m.id unixNano ∉ e.created) : childID m.id unixNano ∉ e.system.ids := by
  rw [h.ids, List.mem_cons, not_or]
  refine ⟨fun heq => ?_, hnew⟩
  have hlong := h.long m.id (List.mem_map_of_mem (PaunPSystem.find_mem hm).1)
  have hlen := length_childID m.id unixNano
  rw [heq] at hlen
  omega

theorem Sound.step {act : Event} (h : e.Sound) (orderly : e.Orderly act) (hstep : e.step act = some e') :
    e'.Sound ∧ ∀ obj, e'.system.total obj = e.system.total obj + e.change obj act := by
  cases step_does hstep with
  | nothing system created change =>
    refine ⟨⟨system ▸ h.counts, system ▸ h.tree, system ▸ created ▸ h.ids, system ▸ h.long⟩, ?_⟩
    intro obj
    rw [system, change, Int.add_zero]
  | @transforms draw unixNano m rule act_eq applied find canApply action system created =>
    subst act_eq
    have fits := orderly.2 m rule applied action
    have hm := (PaunPSystem.find_mem find).1
    have hid : m.id ∈ e.system.ids := List.mem_map_of_mem hm
    have ids : (e.system.put (m.transformed rule)).ids = e.system.ids := PaunPSystem.ids_put_old hid
    refine ⟨⟨?_, ?_, ?_, ?_⟩, fun obj => ?_⟩
    · rw [system]
      intro k hk
      rcases PaunPSystem.mem_put hk with rfl | hk
      · exact (h.counts m hm).transformed canApply fits
      · exact h.counts k hk
    · rw [system]
      exact h.tree.put find rfl rfl rfl
    · rw [system, created, ids]
      exact h.ids
    · rw [system, ids]
      exact h.long
    · have htotal := PaunPSystem.total_put_old (m := m.transformed rule) find obj
      rw [system, htotal, Membrane.transformed_objects (h.counts m hm) canApply (fits obj), change,
        applied]
      dsimp only
      rw [if_pos action]
      omega
  | @divides draw unixNano m rule act_eq applied find action system created =>
    subst act_eq
    have hm := (PaunPSystem.find_mem find).1
    have hnew : childID m.id unixNano ∉ e.system.ids := by
      refine h.new_id find (orderly.1 _ ?_)
      rw [newIDs, applied]
      dsimp only
      rw [if_pos action]
      exact List.mem_cons_self
    have ids := PaunPSystem.ids_divide find hnew
    refine ⟨⟨?_, ?_, ?_, ?_⟩, fun obj => ?_⟩
    · rw [system]
      intro k hk
      rcases PaunPSystem.mem_divide hk with rfl | rfl | hk
      · exact (h.counts m hm).child unixNano
      · exact (h.counts m hm).divided unixNano
      · exact h.counts k hk
    · rw [system]
      exact PaunPSystem.Tree.divide find hnew h.tree
    · rw [system, created, ids, h.ids, List.cons_append]
    · rw [system, ids]
      intro id hid
      rcases List.mem_append.mp hid with hid | hid
      · exact h.long id hid
      · rw [List.mem_singleton.mp hid]
        have hlong := h.long m.id (List.mem_map_of_mem hm)
        have hlen := length_childID m.id unixNano
        omega
    · rw [system, PaunPSystem.total_divide find hnew, change, applied]
      dsimp only
      rw [if_neg (by rw [action]; decide), Int.add_zero]

/-- While every count to which is added fits an `int`, no count is negative, the membranes are a tree,
and each step changes the total counts as its rule says. -/
theorem run_sane {rules : List MembraneRule} {objects : String → Int}
    (hobjects : ∀ obj, 0 ≤ objects obj ∧ objects obj < 2 ^ 63) {acts : List Event}
    (along : AlongM step Orderly (start rules objects) acts)
    (hrun : acts.foldlM step (start rules objects) = some e) :
    e.Sane ∧ ∀ act e', e.Orderly act → e.step act = some e' →
      ∀ obj, e'.system.total obj = e.system.total obj + e.change obj act := by
  have sound : e.Sound := along.foldlM (fun s act t hs orderly hstep => (hs.step orderly hstep).1) hrun
    (sound_start hobjects)
  exact ⟨sound.sane, fun act e' orderly hstep => (sound.step orderly hstep).2⟩

/-- The rule that divides where there is energy, applied whenever it can be. -/
def halving : MembraneRule := { evolutionRules.head (List.cons_ne_nil _ _) with probability := 1 }

def charged : Evolution := start [halving] fun obj => if obj = "energy" then 15 else 0

theorem run_sane_charged :
    ∃ e, [Event.begin, .visit rootID, .rule 0 7].foldlM step charged = some e ∧ e.Sane := by
  have along : AlongM step Orderly charged [.begin, .visit rootID, .rule 0 7] := by
    refine fun e₁ h₁ => ⟨⟨trivial, trivial⟩, fun e₂ h₂ => ⟨⟨trivial, trivial⟩, fun e₃ _ =>
      ⟨⟨?_, fun m rule happlied haction => ?_⟩, trivial⟩⟩⟩
    · cases h₁
      cases h₂
      decide
    · cases h₁
      cases h₂
      have hrule : rule = halving := by cases happlied; rfl
      rw [hrule] at haction
      cases haction
  have objects : ∀ obj, (0 : Int) ≤ (if obj = "energy" then 15 else 0) ∧
      (if obj = "energy" then (15 : Int) else 0) < 2 ^ 63 := by
    intro obj
    split <;> decide
  exact ⟨_, rfl, (run_sane objects along rfl).1⟩

/-- A rule that needs nothing and makes many of one object. -/
def flood : MembraneRule where
  lhs := ⟨[], by decide, by decide⟩
  rhs := ⟨[("a", 2 ^ 62)], by decide, by decide⟩
  action := .transform
  probability := 1

/-- Applied twice it overflows the count. -/
def flooding : List Event := [.begin, .visit rootID, .rule 0 0, .rule 0 0]

theorem flooded : ¬∀ rules acts e, AlongM step Distinct (start rules fun _ => 0) acts →
    acts.foldlM step (start rules fun _ => 0) = some e → e.Sane := by
  intro h
  have distinct : AlongM step Distinct (start [flood, flood] fun _ => 0) flooding := by decide
  have count : ((flooding.foldlM step (start [flood, flood] fun _ => 0)).map fun e =>
      e.system.membranes.map fun m => m.objects "a") = some [-2 ^ 63] := by decide
  cases hrun : flooding.foldlM step (start [flood, flood] fun _ => 0) with
  | none =>
    rw [hrun] at count
    cases count
  | some e =>
    rw [hrun, Option.map_some, Option.some.injEq] at count
    obtain ⟨m, hm, hneg⟩ := List.mem_map.mp (count ▸ List.mem_singleton.mpr rfl)
    have := (h _ _ e distinct hrun).nonneg m hm "a"
    rw [hneg] at this
    exact absurd this (by decide)

end Evolution

end Ecco9.Opencog
