import Ecco9.Library.Runs
import Mathlib.Algebra.GroupWithZero.Nat
import Mathlib.Algebra.Notation.Defs
import Mathlib.Algebra.Ring.Int.Defs
import Mathlib.Data.Int.Init
import Mathlib.Data.List.Perm.Basic
import Mathlib.Tactic.Common

/-! The hypergraph of `org/ecco9-atomspace/atomspace/atomspace.go`, in which every operation holds the lock.
The links point to what is there, and the index lists them while nothing that a link points to is a link. -/

universe u

namespace Ecco9.AtomSpace

structure TruthValue (F : Type) where
  strength : F
  confidence : F
  count : F

structure AttentionValue (F : Type) where
  sti : Int
  lti : Int
  af : F

structure Atom (Id F : Type) where
  id : Id
  truth : TruthValue F
  attention : AttentionValue F
  incoming : List Id := []

structure Link (Id F : Type) where
  id : Id
  outgoing : List Id
  truth : TruthValue F
  attention : AttentionValue F

/-- The maps of atoms and links have each id once. -/
structure Space (Id F : Type) where
  atoms : List (Atom Id F) := []
  links : List (Link Id F) := []
  incoming : Id → List Id := fun _ => []
  /-- the ids given so far -/
  used : List Id := []

def wrap16 (x : Int) : Int := Int.bmod x (2 ^ 16)

namespace Space

variable {Id F : Type} [DecidableEq Id]

def isAtom (s : Space Id F) (x : Id) : Bool := s.atoms.any fun a => a.id = x

def isLink (s : Space Id F) (x : Id) : Bool := s.links.any fun l => l.id = x

def addAtom {Id F : Type} [Zero F] [One F] (s : Space Id F) (id : Id) (tv : Option (TruthValue F)) : Space Id F :=
  { s with
    atoms := s.atoms ++ [{ id, truth := tv.getD ⟨1, 0, 0⟩, attention := ⟨0, 0, 0⟩ }]
    used := id :: s.used }

/-- The link `id` is listed as incoming of `x`. -/
def point (id : Id) (s : Space Id F) (x : Id) : Space Id F :=
  { s with
    atoms := s.atoms.map fun a => if a.id = x then { a with incoming := a.incoming ++ [id] } else a
    incoming := fun y => if y = x then s.incoming y ++ [id] else s.incoming y }

/-- `none` when a target does not exist. -/
def addLink [Zero F] [One F] (s : Space Id F) (id : Id) (outgoing : List Id) (tv : Option (TruthValue F)) :
    Option (Space Id F) :=
  if outgoing.all fun x => s.isAtom x || s.isLink x then
    some (outgoing.foldl (point id)
      { s with
        links := s.links ++ [{ id, outgoing, truth := tv.getD ⟨1, 0, 0⟩, attention := ⟨0, 0, 0⟩ }]
        used := id :: s.used })
  else none

def updateAttention (s : Space Id F) (id : Id) (av : AttentionValue F) : Space Id F :=
  if s.isAtom id then
    { s with atoms := s.atoms.map fun a => if a.id = id then { a with attention := av } else a }
  else
    { s with links := s.links.map fun l => if l.id = id then { l with attention := av } else l }

def addSTI (av : AttentionValue F) (d : Int) : AttentionValue F := { av with sti := wrap16 (av.sti + d) }

/-- The flow from a link to one of its targets. -/
def flow (link : Id) (t : Int) (s : Space Id F) (x : Id) : Space Id F :=
  if s.isAtom x then
    { s with
      atoms := s.atoms.map fun a =>
        if a.id = x then { a with attention := addSTI a.attention t } else a
      links := s.links.map fun l =>
        if l.id = link then { l with attention := addSTI l.attention (-t) } else l }
  else s

/-- `transfer` is `int16(float64(sourceSTI) * strength * 0.1)`; the links come in any order. -/
def spreadAttention (transfer : Int → F → Int) (s : Space Id F) (order : List (Link Id F)) :
    Space Id F :=
  order.foldl (fun s l =>
    l.outgoing.foldl (flow l.id (transfer l.attention.sti l.truth.strength)) s) s

/-- `below` is whether an attention focus is below `AFBoundary * ForgettingRate`. -/
def forgets (below : F → Bool) (a : Atom Id F) : Bool := below a.attention.af && a.incoming.isEmpty

def forget (below : F → Bool) (s : Space Id F) : Space Id F :=
  let atoms := s.atoms.filter fun a => !forgets below a
  let left : Space Id F := { s with
    atoms
    incoming := fun x => if s.atoms.any fun a => a.id = x && forgets below a then []
      else s.incoming x }
  { left with links := s.links.filter fun l => l.outgoing.all left.isAtom }

end Space

inductive Event (Id F : Type)
  | addAtom (id : Id) (tv : Option (TruthValue F))
  | addLink (id : Id) (outgoing : List Id) (tv : Option (TruthValue F))
  | forget
  | spreadAttention (order : List (Link Id F))
  | updateAttention (id : Id) (av : AttentionValue F)

/-- The steps, with ids that are pairwise distinct. -/
inductive Step {Id F : Type} [DecidableEq Id] [Zero F] [One F] (below : F → Bool)
    (transfer : Int → F → Int) (s : Space Id F) : Event Id F → Space Id F → Prop
  | addAtom (id : Id) (tv : Option (TruthValue F)) : id ∉ s.used →
    Step below transfer s (.addAtom id tv) (s.addAtom id tv)
  | addLink {id : Id} {outgoing : List Id} {tv : Option (TruthValue F)} {s' : Space Id F} :
    id ∉ s.used → s.addLink id outgoing tv = some s' →
    Step below transfer s (.addLink id outgoing tv) s'
  | addLinkFails {id : Id} {outgoing : List Id} {tv : Option (TruthValue F)} :
    s.addLink id outgoing tv = none → Step below transfer s (.addLink id outgoing tv) s
  | forget : Step below transfer s .forget (s.forget below)
  | spreadAttention (order : List (Link Id F)) : order.Perm s.links →
    Step below transfer s (.spreadAttention order) (s.spreadAttention transfer order)
  | updateAttention (id : Id) (av : AttentionValue F) :
    Step below transfer s (.updateAttention id av) (s.updateAttention id av)

/-! ### Integrity -/

namespace Space

variable {Id F : Type}

/-- What a live link points to is live. -/
def Targets (s : Space Id F) : Prop :=
  ∀ l ∈ s.links, ∀ x ∈ l.outgoing, (∃ a ∈ s.atoms, a.id = x) ∨ ∃ k ∈ s.links, k.id = x

/-- The index has for each id the live links that point to it, each once. -/
def Indexed (s : Space Id F) : Prop :=
  ∀ x, (s.incoming x).Nodup ∧ ∀ id, id ∈ s.incoming x ↔ ∃ l ∈ s.links, l.id = id ∧ x ∈ l.outgoing

/-- A link that is added has no target twice, and nothing is forgotten while a link points to a
link. -/
def Plain [DecidableEq Id] (s : Space Id F) : Event Id F → Prop
  | .addLink _ outgoing _ => outgoing.Nodup ∨ ∃ x ∈ outgoing, (s.isAtom x || s.isLink x) = false
  | .forget => ∀ l ∈ s.links, ∀ x ∈ l.outgoing, s.isAtom x
  | _ => True

end Space

end Ecco9.AtomSpace

namespace Ecco9.AtomSpace.Space

open Ecco9.Library

variable {Id F : Type} {below : F → Bool} {transfer : Int → F → Int} {s s' : Space Id F}

@[simp] theorem isAtom_iff [DecidableEq Id] {x : Id} : s.isAtom x = true ↔ ∃ a ∈ s.atoms, a.id = x := by
  simp [isAtom]

@[simp] theorem isLink_iff [DecidableEq Id] {x : Id} : s.isLink x = true ↔ ∃ l ∈ s.links, l.id = x := by
  simp [isLink]

/-! ### Steps that change attention only -/

/-- The same ids, targets and indices. -/
structure Same (s s' : Space Id F) : Prop where
  atoms : s'.atoms.map (fun a => (a.id, a.incoming)) = s.atoms.map fun a => (a.id, a.incoming)
  links : s'.links.map (fun l => (l.id, l.outgoing)) = s.links.map fun l => (l.id, l.outgoing)
  incoming : s'.incoming = s.incoming
  used : s'.used = s.used

theorem Same.refl (s : Space Id F) : Same s s := ⟨rfl, rfl, rfl, rfl⟩

theorem Same.symm (h : Same s s') : Same s' s :=
  ⟨h.atoms.symm, h.links.symm, h.incoming.symm, h.used.symm⟩

theorem Same.trans {t : Space Id F} (h : Same s s') (h' : Same s' t) : Same s t :=
  ⟨h'.atoms.trans h.atoms, h'.links.trans h.links, h'.incoming.trans h.incoming,
    h'.used.trans h.used⟩

theorem Same.atom (h : Same s s') {a' : Atom Id F} (ha : a' ∈ s'.atoms) :
    ∃ a ∈ s.atoms, a.id = a'.id ∧ a.incoming = a'.incoming := by
  have hmem : (a'.id, a'.incoming) ∈ s.atoms.map fun a => (a.id, a.incoming) :=
    h.atoms ▸ List.mem_map_of_mem ha
  obtain ⟨a, ha, heq⟩ := List.mem_map.mp hmem
  exact ⟨a, ha, (Prod.mk.inj heq).1, (Prod.mk.inj heq).2⟩

theorem Same.link (h : Same s s') {l' : Link Id F} (hl : l' ∈ s'.links) :
    ∃ l ∈ s.links, l.id = l'.id ∧ l.outgoing = l'.outgoing := by
  have hmem : (l'.id, l'.outgoing) ∈ s.links.map fun l => (l.id, l.outgoing) :=
    h.links ▸ List.mem_map_of_mem hl
  obtain ⟨l, hl, heq⟩ := List.mem_map.mp hmem
  exact ⟨l, hl, (Prod.mk.inj heq).1, (Prod.mk.inj heq).2⟩

theorem same_foldl {α : Type} {f : Space Id F → α → Space Id F} (hf : ∀ s a, Same s (f s a))
    (l : List α) (s : Space Id F) : Same s (l.foldl f s) := by
  induction l generalizing s with
  | nil => exact .refl s
  | cons a l ih => exact (hf s a).trans (ih _)

section Attention

variable [DecidableEq Id]

theorem same_updateAttention (s : Space Id F) (id : Id) (av : AttentionValue F) :
    Same s (s.updateAttention id av) := by
  unfold updateAttention
  split
  · refine ⟨?_, rfl, rfl, rfl⟩
    rw [List.map_map]
    refine List.map_congr_left fun a _ => ?_
    simp only [Function.comp_apply]
    split <;> rfl
  · refine ⟨rfl, ?_, rfl, rfl⟩
    rw [List.map_map]
    refine List.map_congr_left fun l _ => ?_
    simp only [Function.comp_apply]
    split <;> rfl

theorem same_flow (link : Id) (t : Int) (s : Space Id F) (x : Id) : Same s (flow link t s x) := by
  unfold flow
  split
  · refine ⟨?_, ?_, rfl, rfl⟩
    · rw [List.map_map]
      refine List.map_congr_left fun a _ => ?_
      simp only [Function.comp_apply]
      split <;> rfl
    · rw [List.map_map]
      refine List.map_congr_left fun l _ => ?_
      simp only [Function.comp_apply]
      split <;> rfl
  · exact .refl s

theorem same_spreadAttention (s : Space Id F) (order : List (Link Id F)) :
    Same s (s.spreadAttention transfer order) :=
  same_foldl (fun s (l : Link Id F) =>
    same_foldl (same_flow l.id (transfer l.attention.sti l.truth.strength)) l.outgoing s) order s

end Attention

/-! ### Adding a link -/

/-- An id is listed once for each time that it is a target. -/
theorem foldl_point [DecidableEq Id] (id : Id) (outgoing : List Id) (s : Space Id F) :
    outgoing.foldl (point id) s = { s with
      atoms := s.atoms.map fun a =>
        { a with incoming := a.incoming ++ List.replicate (outgoing.count a.id) id }
      incoming := fun x => s.incoming x ++ List.replicate (outgoing.count x) id } := by
  induction outgoing generalizing s with
  | nil => simp
  | cons x outgoing ih =>
    have hcount : ∀ y, List.replicate ((x :: outgoing).count y) id =
        (if y = x then [id] else []) ++ List.replicate (outgoing.count y) id := by
      intro y
      rw [List.count_cons]
      by_cases hy : y = x
      · subst hy
        simp [List.replicate_succ]
      · simp [hy, Ne.symm hy]
    rw [List.foldl_cons, ih]
    simp only [point, List.map_map, hcount]
    congr 1
    · refine List.map_congr_left fun a _ => ?_
      simp only [Function.comp_apply]
      split <;> simp
    · funext y
      split <;> simp

theorem addLink_eq_some [DecidableEq Id] [Zero F] [One F] {id : Id} {outgoing : List Id} {tv : Option (TruthValue F)}
    (h : s.addLink id outgoing tv = some s') :
    (∀ x ∈ outgoing, s.isAtom x = true ∨ s.isLink x = true) ∧ s' = {
      atoms := s.atoms.map fun a =>
        { a with incoming := a.incoming ++ List.replicate (outgoing.count a.id) id }
      links := s.links ++ [{ id, outgoing, truth := tv.getD ⟨1, 0, 0⟩, attention := ⟨0, 0, 0⟩ }]
      incoming := fun x => s.incoming x ++ List.replicate (outgoing.count x) id
      used := id :: s.used } := by
  rw [addLink, Option.ite_none_right_eq_some] at h
  obtain ⟨hall, heq⟩ := h
  refine ⟨by simpa only [List.all_eq_true, Bool.or_eq_true] using hall, ?_⟩
  rw [foldl_point] at heq
  exact (Option.some.inj heq).symm

/-! ### What is pointed to -/

/-- An atom that a link points to is never forgotten, since it has that link incoming. -/
structure Live (s : Space Id F) : Prop where
  atoms : ∀ a ∈ s.atoms, a.id ∈ s.used
  links : ∀ l ∈ s.links, l.id ∈ s.used
  targets : Targets s
  kept : ∀ l ∈ s.links, ∀ x ∈ l.outgoing, ∀ a ∈ s.atoms, a.id = x → a.incoming ≠ []

theorem Live.target_used (h : Live s) {l : Link Id F} (hl : l ∈ s.links) {x : Id}
    (hx : x ∈ l.outgoing) : x ∈ s.used := by
  rcases h.targets l hl x hx with ⟨a, ha, rfl⟩ | ⟨k, hk, rfl⟩
  · exact h.atoms a ha
  · exact h.links k hk

theorem Live.same (h : Live s) (same : Same s s') : Live s' where
  atoms a' ha' := by
    obtain ⟨a, ha, hid, -⟩ := same.atom ha'
    rw [← hid, same.used]
    exact h.atoms a ha
  links l' hl' := by
    obtain ⟨l, hl, hid, -⟩ := same.link hl'
    rw [← hid, same.used]
    exact h.links l hl
  targets l' hl' x hx := by
    obtain ⟨l, hl, -, hout⟩ := same.link hl'
    rcases h.targets l hl x (hout ▸ hx) with ⟨a, ha, rfl⟩ | ⟨k, hk, rfl⟩
    · obtain ⟨a', ha', hid, -⟩ := same.symm.atom ha
      exact .inl ⟨a', ha', hid⟩
    · obtain ⟨k', hk', hid, -⟩ := same.symm.link hk
      exact .inr ⟨k', hk', hid⟩
  kept l' hl' x hx a' ha' heq := by
    obtain ⟨l, hl, -, hout⟩ := same.link hl'
    obtain ⟨a, ha, hid, hincoming⟩ := same.atom ha'
    rw [← hincoming]
    exact h.kept l hl x (hout ▸ hx) a ha (hid.trans heq)

theorem Live.addAtom [Zero F] [One F] (h : Live s) {id : Id} (hid : id ∉ s.used) (tv : Option (TruthValue F)) :
    Live (s.addAtom id tv) where
  atoms a ha := by
    rcases List.mem_append.mp ha with ha | ha
    · exact List.mem_cons_of_mem _ (h.atoms a ha)
    · rw [List.mem_singleton.mp ha]
      exact List.mem_cons_self
  links l hl := List.mem_cons_of_mem _ (h.links l hl)
  targets l hl x hx := (h.targets l hl x hx).imp_left fun ⟨a, ha, heq⟩ =>
    ⟨a, List.mem_append_left _ ha, heq⟩
  kept l hl x hx a ha heq := by
    rcases List.mem_append.mp ha with ha | ha
    · exact h.kept l hl x hx a ha heq
    · obtain rfl := List.mem_singleton.mp ha
      subst heq
      exact absurd (h.target_used hl hx) hid

theorem Live.addLink [DecidableEq Id] [Zero F] [One F] (h : Live s) {id : Id} {outgoing : List Id} {tv : Option (TruthValue F)}
    (hadd : s.addLink id outgoing tv = some s') : Live s' := by
  obtain ⟨hlive, rfl⟩ := addLink_eq_some hadd
  have hatom : ∀ x, (∃ a ∈ s.atoms, a.id = x) → ∃ a ∈ s.atoms.map fun a =>
      { a with incoming := a.incoming ++ List.replicate (outgoing.count a.id) id }, a.id = x :=
    fun x ⟨a, ha, heq⟩ => ⟨_, List.mem_map_of_mem ha, heq⟩
  have hlink : ∀ {k : Link Id F} (y : Link Id F), k ∈ s.links → k ∈ s.links ++ [y] :=
    fun _ hk => List.mem_append_left _ hk
  refine ⟨?_, ?_, ?_, ?_⟩
  · intro a' ha'
    obtain ⟨a, ha, rfl⟩ := List.mem_map.mp ha'
    exact List.mem_cons_of_mem _ (h.atoms a ha)
  · intro l hl
    rcases List.mem_append.mp hl with hl | hl
    · exact List.mem_cons_of_mem _ (h.links l hl)
    · rw [List.mem_singleton.mp hl]
      exact List.mem_cons_self
  · intro l hl x hx
    rcases List.mem_append.mp hl with hl | hl
    · rcases h.targets l hl x hx with hx' | ⟨k, hk, heq⟩
      · exact .inl (hatom x hx')
      · exact .inr ⟨k, hlink _ hk, heq⟩
    · obtain rfl := List.mem_singleton.mp hl
      rcases hlive x hx with hx' | hx'
      · exact .inl (hatom x (isAtom_iff.mp hx'))
      · obtain ⟨k, hk, heq⟩ := isLink_iff.mp hx'
        exact .inr ⟨k, hlink _ hk, heq⟩
  · intro l hl x hx a' ha' heq
    obtain ⟨a, ha, rfl⟩ := List.mem_map.mp ha'
    change a.id = x at heq
    subst heq
    change a.incoming ++ _ ≠ []
    rcases List.mem_append.mp hl with hl | hl
    · exact List.append_ne_nil_of_left_ne_nil (h.kept l hl a.id hx a ha rfl) _
    · obtain rfl := List.mem_singleton.mp hl
      refine List.append_ne_nil_of_right_ne_nil _ ?_
      rw [ne_eq, List.replicate_eq_nil_iff]
      exact Nat.ne_of_gt (List.count_pos_iff.mpr hx)

theorem Live.forget [DecidableEq Id] (h : Live s) : Live (s.forget below) := by
  have hsub : ∀ a ∈ (s.forget below).atoms, a ∈ s.atoms := fun a ha => (List.mem_filter.mp ha).1
  have hlinks : ∀ l ∈ (s.forget below).links, l ∈ s.links := fun l hl => (List.mem_filter.mp hl).1
  refine ⟨fun a ha => h.atoms a (hsub a ha), fun l hl => h.links l (hlinks l hl), ?_,
    fun l hl x hx a ha => h.kept l (hlinks l hl) x hx a (hsub a ha)⟩
  intro l hl x hx
  have hall := (List.mem_filter.mp hl).2
  exact .inl (isAtom_iff.mp (List.all_eq_true.mp hall x hx))

theorem Live.step [DecidableEq Id] [Zero F] [One F] (h : Live s) {e : Event Id F} (next : Step below transfer s e s') : Live s' := by
  cases next with
  | addAtom id tv hid => exact h.addAtom hid tv
  | addLink _ hadd => exact h.addLink hadd
  | addLinkFails => exact h
  | forget => exact h.forget
  | spreadAttention order => exact h.same (same_spreadAttention s order)
  | updateAttention id av => exact h.same (same_updateAttention s id av)

theorem live_start : Live ({} : Space Id F) := ⟨nofun, nofun, nofun, nofun⟩

/-- In every run, what links point to is there. -/
theorem run_targets [DecidableEq Id] [Zero F] [One F]
    (run : Relation.ReflTransGen (fun s s' => ∃ e, Step below transfer s e s') {} s) : Targets s :=
  (run_invariant (fun _ _ h ⟨_, next⟩ => h.step next) run
    (live_start : Live ({} : Space Id F))).targets

/-! ### The index -/

/-- The index is right, and an atom has the same as incoming. -/
structure Listed (s : Space Id F) : Prop extends Live s where
  indexed : Indexed s
  atom : ∀ a ∈ s.atoms, a.incoming = s.incoming a.id

theorem Listed.unused (h : Listed s) {x : Id} (hx : x ∉ s.used) : s.incoming x = [] := by
  refine List.eq_nil_iff_forall_not_mem.mpr fun id hid => ?_
  obtain ⟨l, hl, -, hmem⟩ := ((h.indexed x).2 id).mp hid
  exact hx (h.target_used hl hmem)

theorem Listed.same (h : Listed s) (same : Same s s') : Listed s' where
  toLive := h.toLive.same same
  indexed x := by
    rw [same.incoming]
    refine ⟨(h.indexed x).1, fun id => ((h.indexed x).2 id).trans ⟨?_, ?_⟩⟩
    · rintro ⟨l, hl, heq, hx⟩
      obtain ⟨l', hl', hid, hout⟩ := same.symm.link hl
      exact ⟨l', hl', hid.trans heq, hout ▸ hx⟩
    · rintro ⟨l', hl', heq, hx⟩
      obtain ⟨l, hl, hid, hout⟩ := same.link hl'
      exact ⟨l, hl, hid.trans heq, hout ▸ hx⟩
  atom a' ha' := by
    obtain ⟨a, ha, hid, hincoming⟩ := same.atom ha'
    rw [← hincoming, ← hid, same.incoming]
    exact h.atom a ha

theorem Listed.addAtom [Zero F] [One F] (h : Listed s) {id : Id} (hid : id ∉ s.used) (tv : Option (TruthValue F)) :
    Listed (s.addAtom id tv) where
  toLive := h.toLive.addAtom hid tv
  indexed := h.indexed
  atom a ha := by
    rcases List.mem_append.mp ha with ha | ha
    · exact h.atom a ha
    · obtain rfl := List.mem_singleton.mp ha
      exact (h.unused hid).symm

theorem Listed.addLink [DecidableEq Id] [Zero F] [One F] (h : Listed s) {id : Id} (hid : id ∉ s.used) {outgoing : List Id}
    {tv : Option (TruthValue F)} (nodup : outgoing.Nodup)
    (hadd : s.addLink id outgoing tv = some s') : Listed s' where
  toLive := h.toLive.addLink hadd
  indexed x := by
    obtain ⟨-, rfl⟩ := addLink_eq_some hadd
    have hnew : id ∉ s.incoming x := by
      intro hmem
      obtain ⟨l, hl, heq, -⟩ := ((h.indexed x).2 id).mp hmem
      exact hid (heq ▸ h.links l hl)
    have hcount : List.replicate (outgoing.count x) id = if x ∈ outgoing then [id] else [] := by
      rw [nodup.count]
      split <;> rfl
    dsimp only
    rw [hcount]
    by_cases hx : x ∈ outgoing
    · rw [if_pos hx]
      refine ⟨List.nodup_append.mpr ⟨(h.indexed x).1, List.pairwise_singleton .., ?_⟩, fun y => ?_⟩
      · rintro a ha b hb rfl
        exact hnew (List.mem_singleton.mp hb ▸ ha)
      · rw [List.mem_append, List.mem_singleton, (h.indexed x).2 y]
        constructor
        · rintro (⟨l, hl, heq, hmem⟩ | rfl)
          · exact ⟨l, List.mem_append_left _ hl, heq, hmem⟩
          · exact ⟨_, List.mem_append_right _ (List.mem_singleton.mpr rfl), rfl, hx⟩
        · rintro ⟨l, hl, heq, hmem⟩
          rcases List.mem_append.mp hl with hl | hl
          · exact .inl ⟨l, hl, heq, hmem⟩
          · obtain rfl := List.mem_singleton.mp hl
            exact .inr heq.symm
    · rw [if_neg hx, List.append_nil]
      refine ⟨(h.indexed x).1, fun y => ((h.indexed x).2 y).trans ⟨?_, ?_⟩⟩
      · rintro ⟨l, hl, heq, hmem⟩
        exact ⟨l, List.mem_append_left _ hl, heq, hmem⟩
      · rintro ⟨l, hl, heq, hmem⟩
        rcases List.mem_append.mp hl with hl | hl
        · exact ⟨l, hl, heq, hmem⟩
        · obtain rfl := List.mem_singleton.mp hl
          exact absurd hmem hx
  atom a' ha' := by
    obtain ⟨-, rfl⟩ := addLink_eq_some hadd
    obtain ⟨a, ha, rfl⟩ := List.mem_map.mp ha'
    change a.incoming ++ _ = s.incoming a.id ++ _
    rw [h.atom a ha]

/-- While links point to atoms only, those that are forgotten have no link. -/
theorem Listed.forget [DecidableEq Id] (h : Listed s) (plain : ∀ l ∈ s.links, ∀ x ∈ l.outgoing, s.isAtom x) :
    Listed (s.forget below) := by
  have hlinks : (s.forget below).links = s.links := by
    refine List.filter_eq_self.mpr fun l hl => List.all_eq_true.mpr fun x hx => ?_
    obtain ⟨a, ha, heq⟩ := isAtom_iff.mp (plain l hl x hx)
    refine isAtom_iff.mpr ⟨a, List.mem_filter.mpr ⟨ha, ?_⟩, heq⟩
    have hkept := h.kept l hl x hx a ha heq
    cases hincoming : a.incoming with
    | nil => exact absurd hincoming hkept
    | cons => simp [forgets, hincoming]
  have hincoming : (s.forget below).incoming = s.incoming := by
    funext x
    refine ite_eq_right_iff.mpr fun hany => ?_
    obtain ⟨a, ha, hforgets⟩ := List.any_eq_true.mp hany
    simp only [forgets, Bool.and_eq_true, decide_eq_true_eq, List.isEmpty_iff] at hforgets
    obtain ⟨rfl, -, hnil⟩ := hforgets
    rw [← h.atom a ha, hnil]
  refine { h.toLive.forget with indexed := ?_, atom := ?_ }
  · unfold Indexed
    rw [hlinks, hincoming]
    exact h.indexed
  · intro a ha
    rw [hincoming]
    exact h.atom a (List.mem_filter.mp ha).1

theorem Listed.step [DecidableEq Id] [Zero F] [One F] (h : Listed s) {e : Event Id F} (plain : s.Plain e)
    (next : Step below transfer s e s') : Listed s' := by
  cases next with
  | addAtom id tv hid => exact h.addAtom hid tv
  | addLink hid hadd =>
    rcases plain with nodup | ⟨x, hx, hmissing⟩
    · exact h.addLink hid nodup hadd
    · rw [← Bool.not_eq_true, Bool.or_eq_true] at hmissing
      exact absurd ((addLink_eq_some hadd).1 x hx) hmissing
  | addLinkFails => exact h
  | forget => exact h.forget plain
  | spreadAttention order => exact h.same (same_spreadAttention s order)
  | updateAttention id av => exact h.same (same_updateAttention s id av)

/-- Links point to what is there, and in a run whose links have different targets and which forgets
nothing while a link points to a link, the index has for each id the links that point to it. -/
theorem run_integrity [DecidableEq Id] [Zero F] [One F] (run : Relation.ReflTransGen
    (fun s s' => ∃ e, s.Plain e ∧ Step below transfer s e s') {} s) : Targets s ∧ Indexed s := by
  have start : Listed ({} : Space Id F) :=
    { live_start with
      indexed := fun _ => ⟨List.nodup_nil, fun _ => ⟨nofun, nofun⟩⟩
      atom := nofun }
  have h := run_invariant (fun _ _ h ⟨_, plain, next⟩ => h.step plain next) run start
  exact ⟨h.targets, h.indexed⟩

theorem linked_integrity :
    let s : Space Nat Int := {
      atoms := [⟨0, ⟨1, 0, 0⟩, ⟨0, 0, 0⟩, [1]⟩]
      links := [⟨1, [0], ⟨1, 0, 0⟩, ⟨0, 0, 0⟩⟩]
      incoming := fun x => if x = 0 then [1] else []
      used := [1, 0] }
    Targets s ∧ Indexed s := by
  refine @run_integrity Nat Int (fun af => af < 1) (fun sti _ => sti) _ _ _ _ ?_
  refine .head ⟨.addAtom 0 none, trivial, .addAtom 0 none (by decide)⟩ ?_
  exact .single ⟨.addLink 1 [0] none, .inl (by decide), .addLink (by decide) rfl⟩

/-- A link `2` to the link `1` is forgotten although `1` stays, and the index keeps it. -/
theorem pruned_indexed : ¬ ∀ s : Space Nat Int,
    Relation.ReflTransGen (fun s s' => ∃ e, Step (fun af => af < 1) (fun sti _ => sti) s e s') {} s →
    Targets s ∧ Indexed s := by
  intro claim
  have added : ∃ s : Space Nat Int, Relation.ReflTransGen
      (fun s s' => ∃ e, Step (fun af => af < 1) (fun sti _ => sti) s e s') {} s ∧
      s.incoming 1 = [2] ∧ s.links.map Link.id = [1] :=
    ⟨_, .head ⟨.addAtom 0 none, .addAtom 0 none (by decide)⟩ <|
      .head ⟨.addLink 1 [0] none, .addLink (by decide) rfl⟩ <|
      .head ⟨.addLink 2 [1] none, .addLink (by decide) rfl⟩ <|
      .single ⟨.forget, .forget⟩, rfl, rfl⟩
  obtain ⟨s, run, hincoming, hlinks⟩ := added
  obtain ⟨l, hl, hid, -⟩ := (((claim s run).2 1).2 2).mp (hincoming ▸ List.mem_singleton_self 2)
  have hmem : l.id ∈ s.links.map Link.id := List.mem_map_of_mem hl
  rw [hlinks, hid] at hmem
  exact absurd hmem (by decide)

end Ecco9.AtomSpace.Space
