import Mathlib.Algebra.BigOperators.Group.List.Lemmas
import Mathlib.Algebra.BigOperators.Ring.List
import Mathlib.Tactic.Ring
import Ecco9.AtomSpace.Graph

/-! What a round of `SpreadAttention` does to the atoms and the links. -/

namespace Ecco9.AtomSpace

/-- The values of an `int16`. -/
def Fits (x : Int) : Prop := -32768 ≤ x ∧ x < 32768

instance (x : Int) : Decidable (Fits x) := inferInstanceAs (Decidable (_ ∧ _))

theorem wrap16_eq (x : Int) : Fits (wrap16 x) := by
  unfold wrap16 Fits
  rw [Int.bmod_def]
  split <;> omega

theorem wrap16_of_fits {x : Int} (h : Fits x) : wrap16 x = x := by
  unfold wrap16
  rw [Int.bmod_def]
  unfold Fits at h
  split <;> omega

theorem wrap16_add (x d : Int) : wrap16 (wrap16 x + d) = wrap16 (x + d) := by
  unfold wrap16
  rw [Int.bmod_add_bmod]

theorem wrap16_eq_self_iff {x d : Int} (h : Fits x) : wrap16 (x + d) = x ↔ 65536 ∣ d := by
  unfold wrap16
  rw [Int.bmod_def]
  unfold Fits at h
  constructor
  · intro heq
    split at heq <;> omega
  · intro hdvd
    split <;> omega

theorem sti_addSTI {F : Type} {av : AttentionValue F} (h : Fits av.sti) (ts : List Int) :
    (ts.foldl Space.addSTI av).sti = wrap16 (av.sti + ts.sum) := by
  induction ts generalizing av with
  | nil => simp [wrap16_of_fits h]
  | cons t ts ih =>
    rw [List.foldl_cons, ih (wrap16_eq _), List.sum_cons, ← Int.add_assoc]
    exact wrap16_add _ _

namespace Space

variable {Id F : Type} {s : Space Id F}

/-- The ids of what is live, with the short-term importance. -/
def stis (s : Space Id F) : List (Id × Int) :=
  (s.atoms.map fun a => (a.id, a.attention.sti)) ++ s.links.map fun l => (l.id, l.attention.sti)

/-- The ids are pairwise distinct, and the importance is an `int16`. -/
structure Distinct (s : Space Id F) : Prop where
  ids : (s.stis.map Prod.fst).Nodup
  fits : ∀ p ∈ s.stis, Fits p.2

namespace Distinct

variable {a : Atom Id F} {l : Link Id F}

theorem mem_atom (ha : a ∈ s.atoms) : (a.id, a.attention.sti) ∈ s.stis :=
  List.mem_append_left _ (List.mem_map_of_mem ha)

theorem mem_link (hl : l ∈ s.links) : (l.id, l.attention.sti) ∈ s.stis :=
  List.mem_append_right _ (List.mem_map_of_mem hl)

theorem nodup (h : Distinct s) : (s.atoms.map Atom.id).Nodup ∧ (s.links.map Link.id).Nodup ∧
    ∀ a ∈ s.atoms, ∀ l ∈ s.links, a.id ≠ l.id := by
  have hids := h.ids
  rw [stis, List.map_append, List.map_map, List.map_map, List.nodup_append] at hids
  exact ⟨hids.1, hids.2.1, fun a ha l hl =>
    hids.2.2 a.id (List.mem_map_of_mem ha) l.id (List.mem_map_of_mem hl)⟩

theorem unique (h : Distinct s) {x : Id} {v w : Int} (hv : (x, v) ∈ s.stis) (hw : (x, w) ∈ s.stis) :
    v = w := congrArg Prod.snd (List.inj_on_of_nodup_map h.ids hv hw rfl)

end Distinct

variable [DecidableEq Id]

/-- The flows to an atom. -/
def inflows (fs : List (Id × Int × Id)) (x : Id) : List Int :=
  fs.filterMap fun f => if f.2.2 = x then some f.2.1 else none

/-- What the flows to atoms take from a link. -/
def outflows (s : Space Id F) (fs : List (Id × Int × Id)) (x : Id) : List Int :=
  fs.filterMap fun f => if f.1 = x ∧ s.isAtom f.2.2 then some (-f.2.1) else none

theorem inflows_cons (link x : Id) (t : Int) (fs : List (Id × Int × Id)) (y : Id) :
    inflows ((link, t, x) :: fs) y = if x = y then t :: inflows fs y else inflows fs y := by
  unfold inflows
  rw [List.filterMap_cons]
  by_cases hx : x = y
  · simp only [if_pos hx]
  · simp only [if_neg hx]

theorem outflows_cons (link x : Id) (t : Int) (fs : List (Id × Int × Id)) (y : Id) :
    outflows s ((link, t, x) :: fs) y =
      if link = y ∧ s.isAtom x then -t :: outflows s fs y else outflows s fs y := by
  unfold outflows
  rw [List.filterMap_cons]
  by_cases hx : link = y ∧ s.isAtom x
  · simp only [if_pos hx]
  · simp only [if_neg hx]

theorem inflows_append (fs gs : List (Id × Int × Id)) (x : Id) :
    inflows (fs ++ gs) x = inflows fs x ++ inflows gs x := List.filterMap_append

theorem outflows_append (fs gs : List (Id × Int × Id)) (x : Id) :
    outflows s (fs ++ gs) x = outflows s fs x ++ outflows s gs x := List.filterMap_append

theorem isAtom_flow (link : Id) (t : Int) (s : Space Id F) (x : Id) :
    (flow link t s x).isAtom = s.isAtom := by
  funext y
  unfold flow
  split
  · rw [isAtom, isAtom, List.any_map]
    refine List.any_congr rfl fun a => ?_
    simp only [Function.comp_apply]
    split <;> rfl
  · rfl

theorem foldl_flow (fs : List (Id × Int × Id)) (s : Space Id F) :
    fs.foldl (fun s f => flow f.1 f.2.1 s f.2.2) s = { s with
      atoms := s.atoms.map fun a =>
        { a with attention := (inflows fs a.id).foldl addSTI a.attention }
      links := s.links.map fun l =>
        { l with attention := (outflows s fs l.id).foldl addSTI l.attention } } := by
  induction fs generalizing s with
  | nil => simp [inflows, outflows]
  | cons f fs ih =>
    obtain ⟨link, t, x⟩ := f
    rw [List.foldl_cons, ih]
    have hisAtom : (flow link t s x).isAtom = s.isAtom := isAtom_flow link t s x
    have hrest (y : Id) : outflows (flow link t s x) fs y = outflows s fs y := by
      unfold outflows
      rw [hisAtom]
    simp only [inflows_cons, outflows_cons, hrest]
    by_cases hx : s.isAtom x
    · simp only [flow, if_pos hx, List.map_map]
      congr 1
      · refine List.map_congr_left fun a _ => ?_
        rw [Function.comp_apply]
        by_cases ha : a.id = x
        · simp [ha]
        · simp [ha, Ne.symm ha]
      · refine List.map_congr_left fun l _ => ?_
        rw [Function.comp_apply]
        by_cases hl : l.id = link
        · simp [hl, hx]
        · simp [hl, Ne.symm hl]
    · rw [flow, if_neg hx]
      congr 1
      · refine List.map_congr_left fun a ha => ?_
        have hne : x ≠ a.id := fun heq => hx (isAtom_iff.mpr ⟨a, ha, heq.symm⟩)
        rw [if_neg hne]
      · refine List.map_congr_left fun l _ => ?_
        rw [if_neg fun hl => hx hl.2]

/-- The flows of a round. -/
def flows (transfer : Int → F → Int) (order : List (Link Id F)) : List (Id × Int × Id) :=
  order.flatMap fun l => l.outgoing.map fun x => (l.id, transfer l.attention.sti l.truth.strength, x)

theorem spreadAttention_eq (transfer : Int → F → Int) (order : List (Link Id F)) (s : Space Id F) :
    s.spreadAttention transfer order =
      (flows transfer order).foldl (fun s f => flow f.1 f.2.1 s f.2.2) s := by
  rw [flows, List.foldl_flatMap]
  simp only [List.foldl_map]
  rfl

/-! ### The sums of the flows -/

/-- What a link gives to each of its atoms. -/
def share (transfer : Int → F → Int) (l : Link Id F) : Int := transfer l.attention.sti l.truth.strength

/-- How many targets of a link are live atoms. -/
def reached (s : Space Id F) (l : Link Id F) : Nat := l.outgoing.countP s.isAtom

/-- What an atom gets from all links. -/
def gain (transfer : Int → F → Int) (s : Space Id F) (x : Id) : Int :=
  (s.links.map fun l => share transfer l * l.outgoing.count x).sum

variable {transfer : Int → F → Int} {order : List (Link Id F)}

omit [DecidableEq Id] in
theorem flows_cons (l : Link Id F) (order : List (Link Id F)) : flows transfer (l :: order) =
    (l.outgoing.map fun x => (l.id, share transfer l, x)) ++ flows transfer order := rfl

theorem sum_inflows (horder : order.Perm s.links) (x : Id) :
    (inflows (flows transfer order) x).sum = gain transfer s x := by
  have hlink (l : Link Id F) : (inflows (l.outgoing.map fun y => (l.id, share transfer l, y)) x).sum =
      share transfer l * l.outgoing.count x := by
    induction l.outgoing with
    | nil => simp [inflows]
    | cons y ys ih =>
      rw [List.map_cons, inflows_cons, List.count_cons]
      by_cases hy : y = x
      · subst hy
        rw [if_pos rfl, List.sum_cons, ih, beq_self_eq_true, if_pos rfl, Nat.cast_add, Nat.cast_one]
        ring
      · rw [if_neg hy, ih, if_neg (by simpa using hy), Nat.add_zero]
  have hall : (inflows (flows transfer order) x).sum =
      (order.map fun l => share transfer l * l.outgoing.count x).sum := by
    clear horder
    induction order with
    | nil => rfl
    | cons l order ih =>
      rw [flows_cons, inflows_append, List.sum_append, List.map_cons, List.sum_cons, ← ih, hlink]
  rw [hall]
  exact (horder.map _).sum_eq

/-- From a link only its own flows take. -/
theorem sum_outflows (hids : (s.links.map Link.id).Nodup) (horder : order.Perm s.links) {l : Link Id F}
    (hl : l ∈ s.links) :
    (outflows s (flows transfer order) l.id).sum = -(share transfer l * reached s l) := by
  have hown (k : Link Id F) :
      (outflows s (k.outgoing.map fun y => (k.id, share transfer k, y)) l.id).sum =
        if k.id = l.id then -(share transfer k * reached s k) else 0 := by
    unfold reached
    induction k.outgoing with
    | nil => simp [outflows]
    | cons y ys ih =>
      rw [List.map_cons, outflows_cons, List.countP_cons]
      by_cases hk : k.id = l.id
      · rw [if_pos hk] at ih ⊢
        by_cases hy : s.isAtom y
        · rw [if_pos ⟨hk, hy⟩, if_pos hy, List.sum_cons, ih, Nat.cast_add, Nat.cast_one]
          ring
        · rw [if_neg fun h => hy h.2, if_neg hy, ih, Nat.add_zero]
      · rw [if_neg hk] at ih ⊢
        rw [if_neg fun h => hk h.1, ih]
  have hall (ks : List (Link Id F)) : (outflows s (flows transfer ks) l.id).sum =
      (ks.map fun k => if k.id = l.id then -(share transfer k * reached s k) else 0).sum := by
    induction ks with
    | nil => rfl
    | cons k ks ih =>
      rw [flows_cons, outflows_append, List.sum_append, List.map_cons, List.sum_cons, ← ih, hown]
  rw [hall, (horder.map _).sum_eq]
  obtain ⟨front, back, hsplit⟩ := List.append_of_mem hl
  rw [hsplit, List.map_append, List.map_cons, List.nodup_append, List.nodup_cons] at hids
  obtain ⟨-, ⟨hback, -⟩, hfront⟩ := hids
  have hnone (ks : List (Link Id F)) (hks : ∀ k ∈ ks, k.id ≠ l.id) :
      (ks.map fun k => if k.id = l.id then -(share transfer k * reached s k) else 0).sum = 0 := by
    refine List.sum_eq_zero fun x hx => ?_
    obtain ⟨k, hk, rfl⟩ := List.mem_map.mp hx
    exact if_neg (hks k hk)
  rw [hsplit, List.map_append, List.map_cons, List.sum_append, List.sum_cons, if_pos rfl,
    hnone front fun k hk => hfront k.id (List.mem_map_of_mem hk) l.id List.mem_cons_self,
    hnone back fun k hk heq => hback (heq ▸ List.mem_map_of_mem hk)]
  omega

/-! ### The state after a round -/

theorem spread_atoms (transfer : Int → F → Int) (h : Distinct s) (horder : order.Perm s.links) :
    (s.spreadAttention transfer order).atoms.map (fun a => (a.id, a.attention.sti)) =
      s.atoms.map fun a => (a.id, wrap16 (a.attention.sti + gain transfer s a.id)) := by
  rw [spreadAttention_eq, foldl_flow, List.map_map]
  refine List.map_congr_left fun a ha => ?_
  rw [Function.comp_apply, sti_addSTI (h.fits _ (Distinct.mem_atom ha)), sum_inflows horder]

theorem spread_links (transfer : Int → F → Int) (h : Distinct s) (horder : order.Perm s.links) :
    (s.spreadAttention transfer order).links.map (fun l => (l.id, l.attention.sti)) =
      s.links.map fun l => (l.id, wrap16 (l.attention.sti - share transfer l * reached s l)) := by
  rw [spreadAttention_eq, foldl_flow, List.map_map]
  refine List.map_congr_left fun l hl => ?_
  rw [Function.comp_apply, sti_addSTI (h.fits _ (Distinct.mem_link hl)), sum_outflows h.nodup.2.1 horder hl, Int.sub_eq_add_neg]

theorem stis_spread (transfer : Int → F → Int) (h : Distinct s) (horder : order.Perm s.links) :
    (s.spreadAttention transfer order).stis =
      (s.atoms.map fun a => (a.id, wrap16 (a.attention.sti + gain transfer s a.id))) ++
        s.links.map fun l => (l.id, wrap16 (l.attention.sti - share transfer l * reached s l)) := by
  rw [stis, spread_atoms transfer h horder, spread_links transfer h horder]

def total (s : Space Id F) : Int :=
  (s.atoms.map fun a => a.attention.sti).sum + (s.links.map fun l => l.attention.sti).sum

/-- What the round makes of every value fits into 16 bits. -/
structure NoWrap (transfer : Int → F → Int) (s : Space Id F) : Prop where
  atoms : ∀ a ∈ s.atoms, Fits (a.attention.sti + gain transfer s a.id)
  links : ∀ l ∈ s.links, Fits (l.attention.sti - share transfer l * reached s l)

theorem sum_count (hids : (s.atoms.map Atom.id).Nodup) (outgoing : List Id) :
    (s.atoms.map fun a => (outgoing.count a.id : Int)).sum = outgoing.countP s.isAtom := by
  induction outgoing with
  | nil => simp
  | cons y ys ih =>
    have hone : (s.atoms.map fun a => if y == a.id then (1 : Int) else 0).sum =
        if s.isAtom y then 1 else 0 := by
      have hcount : (s.atoms.map fun a => if y == a.id then (1 : Int) else 0).sum =
          (s.atoms.map Atom.id).count y := by
        clear hids ih
        induction s.atoms with
        | nil => rfl
        | cons a as ih =>
          rw [List.map_cons, List.sum_cons, ih, List.map_cons, List.count_cons]
          by_cases hy : y = a.id
          · simp [hy, Int.add_comm]
          · simp [hy, Ne.symm hy]
      rw [hcount, hids.count]
      by_cases hy : s.isAtom y
      · have hmem : y ∈ s.atoms.map Atom.id := by simpa using hy
        rw [if_pos hmem, if_pos hy]
        rfl
      · have hmem : y ∉ s.atoms.map Atom.id := by simpa using hy
        rw [if_neg hmem, if_neg hy]
        rfl
    rw [List.countP_cons, Nat.cast_add, ← ih]
    simp only [List.count_cons, Nat.cast_add, Nat.cast_ite, Nat.cast_one, Nat.cast_zero]
    rw [List.sum_map_add, hone]

/-- What the atoms get is what the links give. -/
theorem sum_gain (hids : (s.atoms.map Atom.id).Nodup) : (s.atoms.map fun a => gain transfer s a.id).sum =
    (s.links.map fun l => share transfer l * reached s l).sum := by
  unfold gain
  induction s.links with
  | nil => simp
  | cons l ls ih =>
    simp only [List.map_cons, List.sum_cons]
    rw [List.sum_map_add, ih, List.sum_map_mul_left, sum_count hids]
    rfl

theorem total_spread (h : Distinct s) (fits : NoWrap transfer s) (horder : order.Perm s.links) :
    (s.spreadAttention transfer order).total = s.total := by
  have hatoms := congrArg (List.map Prod.snd) (spread_atoms transfer h horder)
  have hlinks := congrArg (List.map Prod.snd) (spread_links transfer h horder)
  rw [List.map_map, List.map_map] at hatoms hlinks
  have hnewAtoms : (s.spreadAttention transfer order).atoms.map (fun a => a.attention.sti) =
      s.atoms.map fun a => a.attention.sti + gain transfer s a.id :=
    hatoms.trans (List.map_congr_left fun a ha => wrap16_of_fits (fits.atoms a ha))
  have hnewLinks : (s.spreadAttention transfer order).links.map (fun l => l.attention.sti) =
      s.links.map fun l => l.attention.sti - share transfer l * reached s l :=
    hlinks.trans (List.map_congr_left fun l hl => wrap16_of_fits (fits.links l hl))
  have hgiven : (s.links.map fun l => l.attention.sti - share transfer l * reached s l).sum +
      (s.links.map fun l => share transfer l * reached s l).sum =
        (s.links.map fun l => l.attention.sti).sum := by
    rw [← List.sum_map_add]
    simp only [Int.sub_add_cancel]
  rw [total, total, hnewAtoms, hnewLinks, List.sum_map_add, sum_gain h.nodup.1, ← hgiven]
  ring

/-- A link gives as many shares as it reaches atoms. -/
theorem link_spread (h : Distinct s) (fits : NoWrap transfer s) (horder : order.Perm s.links)
    {l l' : Link Id F} (hl : l ∈ s.links) (hl' : l' ∈ (s.spreadAttention transfer order).links)
    (hid : l'.id = l.id) : l'.attention.sti = l.attention.sti - share transfer l * reached s l := by
  have hmem : (l'.id, l'.attention.sti) ∈ s.links.map fun l =>
      (l.id, wrap16 (l.attention.sti - share transfer l * reached s l)) := by
    rw [← spread_links transfer h horder]
    exact List.mem_map_of_mem hl'
  obtain ⟨k, hk, heq⟩ := List.mem_map.mp hmem
  rw [Prod.mk.injEq] at heq
  obtain rfl := List.inj_on_of_nodup_map h.nodup.2.1 hk hl (heq.1.trans hid)
  rw [← heq.2, wrap16_of_fits (fits.links k hk)]

end Space

end Ecco9.AtomSpace
