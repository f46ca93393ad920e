import Mathlib.Algebra.Order.Floor.Ring
import Mathlib.Data.Rat.Floor
import Ecco9.AtomSpace.Spread

/-! The attention bank of `org/ecco9-atomspace/atomspace/atomspace.go`, and when its index has the
short-term importance of what is live. -/

namespace Ecco9.AtomSpace

open Ecco9.Library

/-- `int16(float64(sourceSTI) * strength * 0.1)`, which is in range while the strength is a probability. -/
def transfer (sourceSTI : Int) (strength : ℚ) : Int :=
  let shared := sourceSTI * strength / 10
  if 0 ≤ shared then ⌊shared⌋ else ⌈shared⌉

structure AttentionBank (Id : Type) where
  stiIndex : Id → Option Int := fun _ => none
  ltiIndex : Id → Option Int := fun _ => none

structure Banked (Id F : Type) where
  space : Space Id F := {}
  bank : AttentionBank Id := {}

variable {Id F : Type} [DecidableEq Id]

namespace AttentionBank

def register (b : AttentionBank Id) (id : Id) (av : AttentionValue F) : AttentionBank Id where
  stiIndex x := if x = id then some av.sti else b.stiIndex x
  ltiIndex x := if x = id then some av.lti else b.ltiIndex x

def unregister (b : AttentionBank Id) (id : Id) : AttentionBank Id where
  stiIndex x := if x = id then none else b.stiIndex x
  ltiIndex x := if x = id then none else b.ltiIndex x

/-- What a method that is called on the space `s` makes of the bank. -/
def after [Zero F] [One F] (below : F → Bool) (s : Space Id F) (b : AttentionBank Id) : Event Id F → AttentionBank Id
  | .addAtom id _ => b.register id (⟨0, 0, 0⟩ : AttentionValue F)
  | .addLink id outgoing tv =>
    match s.addLink id outgoing tv with
    | some _ => b.register id (⟨0, 0, 0⟩ : AttentionValue F)
    | none => b
  | .updateAttention id av => if s.isAtom id || s.isLink id then b.register id av else b
  | .spreadAttention _ => b
  | .forget =>
    let forgotten := (s.atoms.filter (Space.forgets below)).map Atom.id
    let pruned := (s.links.filter fun l => !l.outgoing.all (s.forget below).isAtom).map Link.id
    (forgotten ++ pruned).foldl unregister b

end AttentionBank

/-- The importance that is set is an `int16`. -/
def Event.Int16 : Event Id F → Prop
  | .updateAttention _ av => Fits av.sti
  | _ => True

/-- A step of the space and of its bank. -/
structure BankStep [Zero F] [One F] (below : F → Bool) (transfer : Int → F → Int) (s : Banked Id F) (e : Event Id F)
    (s' : Banked Id F) : Prop where
  step : Step below transfer s.space e s'.space
  bank : s'.bank = s.bank.after below s.space e
  int16 : e.Int16

/-- The index has what is live, with its importance. -/
def Exact (s : Banked Id F) : Prop := ∀ x v, s.bank.stiIndex x = some v ↔ (x, v) ∈ s.space.stis

/-- A round that leaves the importance of all as it is. -/
structure Still (transfer : Int → F → Int) (s : Space Id F) : Prop where
  atoms : ∀ a ∈ s.atoms, 65536 ∣ s.gain transfer a.id
  links : ∀ l ∈ s.links, 65536 ∣ Space.share transfer l * s.reached l

def Meets (transfer : Int → F → Int) (s : Space Id F) : Event Id F → Prop
  | .spreadAttention _ => Still transfer s
  | _ => True

/-! ### What is live after a step -/

namespace Space

variable {s s' : Space Id F} {below : F → Bool} {id x : Id} {v : Int}

omit [DecidableEq Id] in
theorem mem_stis : (x, v) ∈ s.stis ↔ (∃ a ∈ s.atoms, a.id = x ∧ a.attention.sti = v) ∨
    ∃ l ∈ s.links, l.id = x ∧ l.attention.sti = v := by
  simp only [stis, List.mem_append, List.mem_map, Prod.mk.injEq]

omit [DecidableEq Id] in
theorem stis_addAtom [Zero F] [One F] (s : Space Id F) (id : Id) (tv : Option (TruthValue F)) :
    (s.addAtom id tv).stis.Perm ((id, 0) :: s.stis) := by
  rw [stis, addAtom, List.map_append, List.append_assoc]
  exact List.perm_middle

theorem stis_addLink [Zero F] [One F] {outgoing : List Id} {tv : Option (TruthValue F)}
    (h : s.addLink id outgoing tv = some s') : s'.stis = s.stis ++ [(id, 0)] := by
  obtain ⟨-, rfl⟩ := addLink_eq_some h
  rw [stis, stis, List.map_append, List.map_map, ← List.append_assoc]
  rfl

theorem stis_updateAttention (h : Distinct s) (id : Id) (av : AttentionValue F) :
    (s.updateAttention id av).stis = s.stis.map fun p => if p.1 = id then (id, av.sti) else p := by
  have hatom (as : List (Atom Id F)) :
      (as.map fun a => if a.id = id then { a with attention := av } else a).map
        (fun a => (a.id, a.attention.sti)) =
      (as.map fun a => (a.id, a.attention.sti)).map fun p => if p.1 = id then (id, av.sti) else p := by
    rw [List.map_map, List.map_map]
    refine List.map_congr_left fun a _ => ?_
    by_cases ha : a.id = id <;> simp [ha]
  have hlink (ls : List (Link Id F)) :
      (ls.map fun l => if l.id = id then { l with attention := av } else l).map
        (fun l => (l.id, l.attention.sti)) =
      (ls.map fun l => (l.id, l.attention.sti)).map fun p => if p.1 = id then (id, av.sti) else p := by
    rw [List.map_map, List.map_map]
    refine List.map_congr_left fun l _ => ?_
    by_cases hl : l.id = id <;> simp [hl]
  have hidle (ps : List (Id × Int)) (hps : ∀ p ∈ ps, p.1 ≠ id) :
      ps.map (fun p => if p.1 = id then (id, av.sti) else p) = ps :=
    (List.map_congr_left fun p hp => if_neg (hps p hp)).trans (List.map_id ps)
  rw [updateAttention]
  split
  · rename_i hisAtom
    obtain ⟨a, ha, rfl⟩ := isAtom_iff.mp hisAtom
    rw [stis, stis, List.map_append, hatom, hidle (s.links.map _)]
    intro p hp
    obtain ⟨l, hl, rfl⟩ := List.mem_map.mp hp
    exact (h.nodup.2.2 a ha l hl).symm
  · rename_i hisAtom
    rw [stis, stis, List.map_append, hlink, hidle (s.atoms.map _)]
    intro p hp
    obtain ⟨a, ha, rfl⟩ := List.mem_map.mp hp
    exact fun heq => hisAtom (isAtom_iff.mpr ⟨a, ha, heq⟩)

/-- The ids that `Forget` takes off. -/
def removed (below : F → Bool) (s : Space Id F) : List Id :=
  (s.atoms.filter (forgets below)).map Atom.id ++
    (s.links.filter fun l => !l.outgoing.all (s.forget below).isAtom).map Link.id

theorem mem_stis_forget (h : Distinct s) :
    (x, v) ∈ (s.forget below).stis ↔ (x, v) ∈ s.stis ∧ x ∉ s.removed below := by
  obtain ⟨hatoms, hlinks, hdisjoint⟩ := h.nodup
  have hremoved : x ∈ s.removed below ↔ (∃ a ∈ s.atoms, forgets below a ∧ a.id = x) ∨
      ∃ l ∈ s.links, ¬l.outgoing.all (s.forget below).isAtom ∧ l.id = x := by
    simp [removed, and_assoc]
  rw [hremoved, mem_stis, mem_stis, not_or]
  constructor
  · rintro (⟨a, ha, rfl, hv⟩ | ⟨l, hl, rfl, hv⟩)
    · obtain ⟨ha, hkept⟩ := List.mem_filter.mp ha
      refine ⟨.inl ⟨a, ha, rfl, hv⟩, ?_, ?_⟩
      · rintro ⟨b, hb, hforgets, hid⟩
        obtain rfl := List.inj_on_of_nodup_map hatoms hb ha hid
        simp [hforgets] at hkept
      · rintro ⟨l, hl, -, hid⟩
        exact hdisjoint a ha l hl hid.symm
    · obtain ⟨hl, hkept⟩ := List.mem_filter.mp hl
      refine ⟨.inr ⟨l, hl, rfl, hv⟩, ?_, ?_⟩
      · rintro ⟨a, ha, -, hid⟩
        exact hdisjoint a ha l hl hid
      · rintro ⟨k, hk, hpruned, hid⟩
        obtain rfl := List.inj_on_of_nodup_map hlinks hk hl hid
        exact hpruned hkept
  · rintro ⟨⟨a, ha, rfl, hv⟩ | ⟨l, hl, rfl, hv⟩, hnotForgotten, hnotPruned⟩
    · refine .inl ⟨a, List.mem_filter.mpr ⟨ha, ?_⟩, rfl, hv⟩
      rw [Bool.not_eq_true']
      exact Bool.eq_false_iff.mpr fun hforgets => hnotForgotten ⟨a, ha, hforgets, rfl⟩
    · refine .inr ⟨l, List.mem_filter.mpr ⟨hl, ?_⟩, rfl, hv⟩
      by_contra hpruned
      exact hnotPruned ⟨l, hl, hpruned, rfl⟩

theorem stis_forget (s : Space Id F) (below : F → Bool) : (s.forget below).stis.Sublist s.stis :=
  (List.filter_sublist.map _).append (List.filter_sublist.map _)

omit [DecidableEq Id] in
/-- Ids that were never given are not live. -/
theorem Live.fresh (h : Live s) (hid : id ∉ s.used) : (id, v) ∉ s.stis := by
  rw [mem_stis]
  rintro (⟨a, ha, rfl, -⟩ | ⟨l, hl, rfl, -⟩)
  · exact hid (h.atoms a ha)
  · exact hid (h.links l hl)

omit [DecidableEq Id] in
theorem Distinct.add (h : Distinct s) (live : Live s) (hid : id ∉ s.used)
    (perm : s'.stis.Perm ((id, 0) :: s.stis)) : Distinct s' where
  ids := by
    rw [(perm.map Prod.fst).nodup_iff, List.map_cons, List.nodup_cons]
    refine ⟨fun hmem => ?_, h.ids⟩
    obtain ⟨⟨x, v⟩, hp, rfl⟩ := List.mem_map.mp hmem
    exact live.fresh hid hp
  fits p hp := by
    rcases List.mem_cons.mp (perm.mem_iff.mp hp) with rfl | hp
    · exact (by decide : Fits 0)
    · exact h.fits p hp

theorem Distinct.step [Zero F] [One F] {transfer : Int → F → Int} {e : Event Id F} (h : Distinct s)
    (live : Live s) (hint : e.Int16) (next : Step below transfer s e s') : Distinct s' := by
  cases next with
  | addAtom id tv hid => exact h.add live hid (stis_addAtom s id tv)
  | addLink hid hadd =>
    refine h.add live hid ?_
    rw [stis_addLink hadd]
    exact List.perm_append_singleton _ _
  | addLinkFails => exact h
  | forget =>
    have hsub := stis_forget s below
    exact ⟨h.ids.sublist (hsub.map Prod.fst), fun p hp => h.fits p (hsub.subset hp)⟩
  | spreadAttention order horder =>
    have hids := h.ids
    rw [stis, List.map_append, List.map_map, List.map_map] at hids
    refine ⟨?_, fun p hp => ?_⟩
    · rw [stis_spread transfer h horder, List.map_append, List.map_map, List.map_map]
      exact hids
    · rw [stis_spread transfer h horder] at hp
      rcases List.mem_append.mp hp with hp | hp
      · obtain ⟨a, -, rfl⟩ := List.mem_map.mp hp
        exact wrap16_eq _
      · obtain ⟨l, -, rfl⟩ := List.mem_map.mp hp
        exact wrap16_eq _
  | updateAttention id av =>
    have hids : (Prod.fst ∘ fun p : Id × Int => if p.1 = id then (id, av.sti) else p) = Prod.fst := by
      funext p
      rw [Function.comp_apply]
      split
      · exact Eq.symm ‹_›
      · rfl
    refine ⟨?_, fun p hp => ?_⟩
    · rw [stis_updateAttention h, List.map_map, hids]
      exact h.ids
    · rw [stis_updateAttention h] at hp
      obtain ⟨q, hq, rfl⟩ := List.mem_map.mp hp
      split
      · exact hint
      · exact h.fits q hq

end Space

/-! ### The index after a step -/

section Index

variable {below : F → Bool} {transfer : Int → F → Int} {s s' : Banked Id F} {id x : Id} {v : Int}

theorem AttentionBank.stiIndex_unregister (ids : List Id) (b : AttentionBank Id) (x : Id) :
    (ids.foldl unregister b).stiIndex x = if x ∈ ids then none else b.stiIndex x := by
  induction ids generalizing b with
  | nil => simp
  | cons id ids ih =>
    rw [List.foldl_cons, ih, unregister]
    by_cases hx : x = id
    · simp [hx]
    · simp [hx]

/-- What is new is registered. -/
theorem Exact.add {space' : Space Id F} {av : AttentionValue F} (h : Exact s)
    (hfresh : ∀ v, (id, v) ∉ s.space.stis) (perm : space'.stis.Perm ((id, av.sti) :: s.space.stis)) :
    Exact ⟨space', s.bank.register id av⟩ := by
  intro x v
  rw [perm.mem_iff, List.mem_cons, AttentionBank.register, Prod.mk.injEq]
  dsimp only
  split
  · rename_i hx
    subst hx
    rw [Option.some.injEq]
    exact ⟨fun hv => .inl ⟨rfl, hv.symm⟩, fun hor => hor.elim (fun hv => hv.2.symm)
      fun hmem => absurd hmem (hfresh v)⟩
  · rename_i hx
    rw [h x v]
    exact ⟨.inr, fun hor => hor.resolve_left fun hv => hx hv.1⟩

theorem Exact.update (hd : s.space.Distinct) (h : Exact s) (id : Id) (av : AttentionValue F) :
    Exact ⟨s.space.updateAttention id av,
      if s.space.isAtom id || s.space.isLink id then s.bank.register id av else s.bank⟩ := by
  have hlive : (s.space.isAtom id || s.space.isLink id) = true ↔ ∃ v, (id, v) ∈ s.space.stis := by
    simp only [Space.mem_stis, Bool.or_eq_true, Space.isAtom_iff, Space.isLink_iff]
    constructor
    · rintro (⟨a, ha, hid⟩ | ⟨l, hl, hid⟩)
      · exact ⟨_, .inl ⟨a, ha, hid, rfl⟩⟩
      · exact ⟨_, .inr ⟨l, hl, hid, rfl⟩⟩
    · rintro ⟨v, ⟨a, ha, hid, -⟩ | ⟨l, hl, hid, -⟩⟩
      · exact .inl ⟨a, ha, hid⟩
      · exact .inr ⟨l, hl, hid⟩
  intro x v
  dsimp only
  rw [Space.stis_updateAttention hd, List.mem_map]
  by_cases hx : x = id
  · subst hx
    constructor
    · intro hv
      split at hv
      · rename_i hreg
        obtain ⟨w, hw⟩ := hlive.mp hreg
        obtain rfl : av.sti = v := by simpa [AttentionBank.register] using hv
        exact ⟨_, hw, if_pos rfl⟩
      · rename_i hreg
        exact absurd (hlive.mpr ⟨v, (h x v).mp hv⟩) hreg
    · rintro ⟨⟨y, w⟩, hmem, heq⟩
      by_cases hy : y = x
      · subst hy
        rw [if_pos rfl, Prod.mk.injEq] at heq
        rw [if_pos (hlive.mpr ⟨w, hmem⟩), ← heq.2]
        exact if_pos rfl
      · rw [if_neg hy, Prod.mk.injEq] at heq
        exact absurd heq.1 hy
  · have hindex : (if s.space.isAtom id || s.space.isLink id then s.bank.register id av
        else s.bank).stiIndex x = s.bank.stiIndex x := by
      split
      · exact if_neg hx
      · rfl
    rw [hindex, h x v]
    constructor
    · exact fun hmem => ⟨_, hmem, if_neg hx⟩
    · rintro ⟨⟨y, w⟩, hmem, heq⟩
      by_cases hy : y = id
      · rw [if_pos hy, Prod.mk.injEq] at heq
        exact absurd heq.1.symm hx
      · rw [if_neg hy] at heq
        exact heq ▸ hmem

/-- A round keeps the index exact just when it leaves the importance of all as it is. -/
theorem Exact.spread_iff (hd : s.space.Distinct) (h : Exact s) {order : List (Link Id F)}
    (horder : order.Perm s.space.links) :
    Exact ⟨s.space.spreadAttention transfer order, s.bank⟩ ↔ Still transfer s.space := by
  have hsti := Space.stis_spread transfer hd horder
  constructor
  · intro h'
    have hold (x : Id) (v w : Int) (hv : (x, v) ∈ s.space.stis)
        (hw : (x, w) ∈ (s.space.spreadAttention transfer order).stis) : w = v :=
      hd.unique ((h x w).mp ((h' x w).mpr hw)) hv
    refine ⟨fun a ha => ?_, fun l hl => ?_⟩
    · have hmem : (a.id, wrap16 (a.attention.sti + s.space.gain transfer a.id)) ∈
          (s.space.spreadAttention transfer order).stis := by
        rw [hsti]
        exact List.mem_append_left _ (List.mem_map_of_mem ha)
      exact (wrap16_eq_self_iff (hd.fits _ (Space.Distinct.mem_atom ha))).mp
        (hold _ _ _ (Space.Distinct.mem_atom ha) hmem)
    · have hmem : (l.id, wrap16 (l.attention.sti - Space.share transfer l * s.space.reached l)) ∈
          (s.space.spreadAttention transfer order).stis := by
        rw [hsti]
        exact List.mem_append_right _ (List.mem_map_of_mem hl)
      have hsame := hold _ _ _ (Space.Distinct.mem_link hl) hmem
      rw [Int.sub_eq_add_neg] at hsame
      exact Int.dvd_neg.mp ((wrap16_eq_self_iff (hd.fits _ (Space.Distinct.mem_link hl))).mp hsame)
  · intro still
    have hsame : (s.space.spreadAttention transfer order).stis = s.space.stis := by
      rw [hsti, Space.stis]
      congr 1
      · refine List.map_congr_left fun a ha => ?_
        rw [(wrap16_eq_self_iff (hd.fits _ (Space.Distinct.mem_atom ha))).mpr (still.atoms a ha)]
      · refine List.map_congr_left fun l hl => ?_
        rw [Int.sub_eq_add_neg, (wrap16_eq_self_iff (hd.fits _ (Space.Distinct.mem_link hl))).mpr
          (Int.dvd_neg.mpr (still.links l hl))]
    intro x v
    dsimp only
    rw [hsame]
    exact h x v

variable [Zero F] [One F] {e : Event Id F}

/-- A step keeps the index exact just when it is no round that changes the importance of anything. -/
theorem BankStep.exact_iff (hd : s.space.Distinct) (live : s.space.Live) (h : Exact s)
    (next : BankStep below transfer s e s') : Exact s' ↔ Meets transfer s.space e := by
  obtain ⟨space', bank'⟩ := s'
  obtain ⟨hstep, rfl, -⟩ := next
  dsimp only at hstep ⊢
  cases hstep with
  | addAtom id tv hid =>
    refine iff_of_true ?_ trivial
    exact h.add (fun v => live.fresh hid) (Space.stis_addAtom s.space id tv)
  | @addLink id outgoing tv _ hid hadd =>
    refine iff_of_true ?_ trivial
    rw [AttentionBank.after, hadd]
    refine h.add (fun v => live.fresh hid) ?_
    rw [Space.stis_addLink hadd]
    exact List.perm_append_singleton _ _
  | addLinkFails hadd =>
    refine iff_of_true ?_ trivial
    rw [AttentionBank.after, hadd]
    exact h
  | forget =>
    refine iff_of_true (fun x v => ?_) trivial
    dsimp only [AttentionBank.after]
    rw [AttentionBank.stiIndex_unregister, Space.mem_stis_forget hd]
    by_cases hx : x ∈ s.space.removed below
    · exact iff_of_false (fun hv => absurd ((if_pos hx).symm.trans hv) (Option.some_ne_none v).symm)
        fun hmem => hmem.2 hx
    · exact ((iff_of_eq (congrArg (· = some v) (if_neg hx))).trans (h x v)).trans
        (and_iff_left hx).symm
  | spreadAttention order horder => exact h.spread_iff hd horder
  | updateAttention id av => exact iff_of_true (h.update hd id av) trivial

/-- What holds of all states of a run. -/
structure Kept (s : Banked Id F) : Prop where
  distinct : s.space.Distinct
  live : s.space.Live

theorem Kept.step (h : Kept s) (next : BankStep below transfer s e s') : Kept s' :=
  ⟨h.distinct.step h.live next.int16 next.step, h.live.step next.step⟩

omit [DecidableEq Id] [Zero F] [One F] in
theorem kept_start : Kept ({} : Banked Id F) := ⟨⟨List.nodup_nil, nofun⟩, Space.live_start⟩

end Index

/-- In a run whose rounds leave the importance of all as it is, the index is exact, and no other round
leaves it so. Without overflow a round moves the importance only, and it takes more from a link than
there is just when the shares of the atoms that the link reaches are more than that. -/
theorem bank_attention (below : ℚ → Bool) :
    (∀ s : Banked Id ℚ, Relation.ReflTransGen (fun s s' => ∃ e, Meets transfer s.space e ∧
      BankStep below transfer s e s') {} s → Exact s ∧
        ∀ e s', BankStep below transfer s e s' → (Exact s' ↔ Meets transfer s.space e)) ∧
    ∀ s : Banked Id ℚ, Relation.ReflTransGen (fun s s' => ∃ e, BankStep below transfer s e s') {} s →
      ∀ order, order.Perm s.space.links → s.space.NoWrap transfer →
        (s.space.spreadAttention transfer order).total = s.space.total ∧
        ∀ l ∈ s.space.links, 0 ≤ l.attention.sti →
          ∀ l' ∈ (s.space.spreadAttention transfer order).links, l'.id = l.id →
            (0 ≤ l'.attention.sti ↔ Space.share transfer l * s.space.reached l ≤ l.attention.sti) := by
  constructor
  · intro s run
    have h := run_invariant (I := fun s : Banked Id ℚ => Kept s ∧ Exact s)
      (fun s s' hs ⟨e, meets, next⟩ => ⟨hs.1.step next,
        (next.exact_iff hs.1.distinct hs.1.live hs.2).mpr meets⟩) run
      ⟨kept_start, fun x v => ⟨nofun, nofun⟩⟩
    exact ⟨h.2, fun e s' next => next.exact_iff h.1.distinct h.1.live h.2⟩
  · intro s run order horder fits
    have kept := run_invariant (fun s s' hs ⟨e, next⟩ => hs.step next) run kept_start
    refine ⟨Space.total_spread kept.distinct fits horder, fun l hl _ l' hl' hid => ?_⟩
    rw [Space.link_spread kept.distinct fits horder hl hl' hid]
    omega

/-- An atom, and a link with an importance of ten that has it as its target eleven times. -/
theorem repeated_run : ∃ s : Banked Nat ℚ, Relation.ReflTransGen (fun s s' => ∃ e,
    Meets transfer s.space e ∧ BankStep (fun _ => false) transfer s e s') {} s ∧
    s.space.atoms = [⟨0, ⟨1, 0, 0⟩, ⟨0, 0, 0⟩, List.replicate 11 1⟩] ∧
    s.space.links = [⟨1, List.replicate 11 0, ⟨1, 0, 0⟩, ⟨10, 0, 0⟩⟩] :=
  ⟨_, .head (b := ⟨_, _⟩) ⟨.addAtom 0 none, trivial, .addAtom 0 none (by decide), rfl, trivial⟩ <|
    .head (b := ⟨_, _⟩) ⟨.addLink 1 (List.replicate 11 0) none, trivial,
      .addLink (by decide) rfl, rfl, trivial⟩ <|
    .single (b := ⟨_, _⟩) ⟨.updateAttention 1 ⟨10, 0, 0⟩, trivial, .updateAttention 1 ⟨10, 0, 0⟩, rfl,
      (by decide : Fits 10)⟩, rfl, rfl⟩

/-- A round leaves the index as it was, and it takes eleven from a link that has ten. -/
theorem repeated_spread : (¬∀ s : Banked Nat ℚ, Relation.ReflTransGen
      (fun s s' => ∃ e, BankStep (fun _ => false) transfer s e s') {} s → Exact s) ∧
    ¬∀ s : Banked Nat ℚ, Relation.ReflTransGen
      (fun s s' => ∃ e, BankStep (fun _ => false) transfer s e s') {} s →
      ∀ order, order.Perm s.space.links → s.space.NoWrap transfer →
        ∀ l ∈ s.space.links, 0 ≤ l.attention.sti →
          ∀ l' ∈ (s.space.spreadAttention transfer order).links, l'.id = l.id → 0 ≤ l'.attention.sti := by
  obtain ⟨s, meets, hatoms, hlinks⟩ := repeated_run
  have run : Relation.ReflTransGen (fun s s' : Banked Nat ℚ =>
      ∃ e, BankStep (fun _ => false) transfer s e s') {} s :=
    Relation.ReflTransGen.mono (fun _ _ ⟨e, _, next⟩ => ⟨e, next⟩) _ _ meets
  have h := run_invariant (I := fun s : Banked Nat ℚ => Kept s ∧ Exact s)
    (fun s s' hs ⟨e, meets, next⟩ => ⟨hs.1.step next,
      (next.exact_iff hs.1.distinct hs.1.live hs.2).mpr meets⟩) meets
    ⟨kept_start, fun x v => ⟨nofun, nofun⟩⟩
  have hone : transfer 10 1 = 1 := by norm_num [transfer]
  have hgain : s.space.gain transfer 0 = 11 := by
    rw [Space.gain, hlinks]
    simp [Space.share, hone]
  have hreached : s.space.reached ⟨1, List.replicate 11 0, ⟨1, 0, 0⟩, ⟨10, 0, 0⟩⟩ = 11 := by
    simp [Space.reached, hatoms]
  constructor
  · intro claim
    have hround : BankStep (fun _ => false) transfer s (.spreadAttention s.space.links)
        ⟨s.space.spreadAttention transfer s.space.links, s.bank⟩ :=
      ⟨.spreadAttention s.space.links .rfl, rfl, trivial⟩
    have still := (hround.exact_iff h.1.distinct h.1.live h.2).mp
      (claim _ (run.tail ⟨_, hround⟩))
    have hdvd := still.atoms ⟨0, ⟨1, 0, 0⟩, ⟨0, 0, 0⟩, List.replicate 11 1⟩ (by simp [hatoms])
    rw [hgain] at hdvd
    exact absurd hdvd (by decide)
  · intro claim
    have fits : s.space.NoWrap transfer := by
      constructor
      · intro a ha
        rw [hatoms, List.mem_singleton] at ha
        rw [ha, hgain]
        decide
      · intro l hl
        rw [hlinks, List.mem_singleton] at hl
        rw [hl, hreached, Space.share, hone]
        decide
    have hmem : (⟨1, List.replicate 11 0, ⟨1, 0, 0⟩, ⟨10, 0, 0⟩⟩ : Link Nat ℚ) ∈ s.space.links := by
      rw [hlinks]
      exact List.mem_singleton_self _
    have hsame : s.space.Same (s.space.spreadAttention transfer s.space.links) :=
      Space.same_spreadAttention s.space s.space.links
    obtain ⟨l', hl', hid, -⟩ := hsame.symm.link hmem
    have hpos := claim s run s.space.links .rfl fits _ hmem (by decide) l' hl' hid
    rw [Space.link_spread h.1.distinct fits .rfl hmem hl' hid, hreached, Space.share, hone] at hpos
    exact absurd hpos (by decide)

end Ecco9.AtomSpace
