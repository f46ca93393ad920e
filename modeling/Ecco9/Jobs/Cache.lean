import Ecco9.Jobs.Slots
import Mathlib.Data.List.Basic

/-! Calls of the cache of `org/ecco9-runner/runner/kvcache.go` with any arguments, on slices that are
checked. -/

universe u

namespace Ecco9.Jobs

open Ecco9.Library

inductive Call (τ : Type u)
  | acquire (seq : Int)
  | release (seq : Int)
  | put (seq : Int) (positions : List τ)
  | copyPrefix (src dst n : Int)
  | canResume (seq pos : Int)
  | remove (seq first last : Int)
  deriving DecidableEq

section

variable {τ : Type u}

/-- The tokens whose index is not from `first` on and below `last`. -/
def outside (first last : Int) (l : List τ) : List τ :=
  (l.zipIdx.filter fun p => ¬(first ≤ p.2 ∧ p.2 < last)).map Prod.fst

theorem length_outside_le (first last : Int) (l : List τ) :
    (outside first last l).length ≤ l.length := by
  rw [outside, List.length_map]
  exact (List.length_filter_le ..).trans (Nat.le_of_eq List.length_zipIdx)

theorem outside_none {first last : Int} {l : List τ}
    (h : ∀ i < l.length, ¬(first ≤ i ∧ (i : Int) < last)) : outside first last l = l := by
  rw [outside, List.filter_eq_self.mpr fun p hp => ?_, List.zipIdx_map_fst]
  obtain ⟨-, hlt, -⟩ := List.mem_zipIdx hp
  exact decide_eq_true (h p.2 (by omega))

/-- What is within is cut out. -/
theorem length_outside_lt {first last : Int} {l : List τ} {i : Nat} (hi : i < l.length)
    (hfirst : first ≤ i) (hlast : (i : Int) < last) : (outside first last l).length < l.length := by
  have hlen : l.zipIdx.length = l.length := List.length_zipIdx
  rw [outside, List.length_map, ← hlen]
  refine List.length_filter_lt_length_iff_exists.mpr ⟨(l[i], i), ?_, by simp; omega⟩
  exact List.mk_mem_zipIdx_iff_getElem?.mpr (List.getElem?_eq_getElem hi)

/-- What is cut out of a list whose elements are counted from `k` on. -/
theorem outside_from {a b : Nat} (hab : a ≤ b) (l : List τ) (k : Nat) :
    ((l.zipIdx k).filter fun p => ¬((a : Int) ≤ p.2 ∧ (p.2 : Int) < b)).map Prod.fst =
      l.take (a - k) ++ l.drop (b - k) := by
  induction l generalizing k with
  | nil => simp
  | cons x l ih =>
    rw [List.zipIdx_cons, List.filter_cons]
    by_cases before : k < a
    · rw [if_pos (decide_eq_true (by simp; omega)), List.map_cons, ih,
        show a - k = (a - (k + 1)) + 1 by omega, show b - k = (b - (k + 1)) + 1 by omega]
      rfl
    · rw [show a - k = 0 by omega, List.take_zero, List.nil_append]
      by_cases within : k < b
      · rw [if_neg (by simp; omega), ih, show a - (k + 1) = 0 by omega,
          show b - k = (b - (k + 1)) + 1 by omega]
        rfl
      · rw [if_pos (decide_eq_true (by simp; omega)), List.map_cons, ih,
          show a - (k + 1) = 0 by omega, show b - k = 0 by omega, show b - (k + 1) = 0 by omega]
        rfl

theorem outside_cut {first last : Int} (nonneg : 0 ≤ first) (h : first ≤ last) (l : List τ) :
    outside first last l = l.take first.toNat ++ l.drop last.toNat := by
  obtain ⟨a, rfl⟩ := Int.eq_ofNat_of_zero_le nonneg
  obtain ⟨b, rfl⟩ := Int.eq_ofNat_of_zero_le (nonneg.trans h)
  exact outside_from (by omega) l 0

end

namespace KVCache

variable {τ : Type u}

/-- `CopyPrefix`; `none` where `src.tokens[:n]` is out of range. -/
def copyPrefix (c : KVCache τ) (src dst n : Int) : Option (KVCache τ) :=
  match c.slot? src, c.slot? dst with
  | some s, some _ =>
    let n : Int := if n > s.tokens.length then s.tokens.length else n
    if n < 0 then none else some (c.modify dst ({ · with tokens := s.tokens.take n.toNat }))
  | _, _ => some c

def canResume (c : KVCache τ) (seq pos : Int) : Bool :=
  (c.slot? seq).any fun s => wrap32 s.tokens.length = wrap32 pos

/-- `Remove`; `none` where `s.tokens[end:]` is out of range. -/
def removeRange (c : KVCache τ) (seq first last : Int) : Option (KVCache τ) :=
  match c.slot? seq with
  | some s =>
    if 0 ≤ first ∧ first ≤ s.tokens.length ∧ last < 0 then none else some (c.remove seq first last)
  | none => some (c.remove seq first last)

/-- The cache after a call, unless it panics. -/
def call (c : KVCache τ) : Call τ → Option (KVCache τ)
  | .acquire seq => some (c.acquire seq).1
  | .release seq => some (c.release seq)
  | .put seq positions => some (c.put seq positions)
  | .copyPrefix src dst n => c.copyPrefix src dst n
  | .canResume .. => some c
  | .remove seq first last => c.removeRange seq first last

def Bounded (c : KVCache τ) : Prop := ∀ s ∈ c.slots, s.tokens.length ≤ c.capacity

/-- What is wanted of a call. -/
structure Meets (c : KVCache τ) (call : Call τ) : Prop where
  returns : (c.call call).isSome
  bounded : ∀ c', c.call call = some c' → c'.Bounded
  copied : ∀ src dst n s d c', call = .copyPrefix src dst n → c.slot? src = some s →
    c.slot? dst = some d → c.call call = some c' →
    c'.slot? dst = some { d with tokens := s.tokens.take (min (max n 0) s.tokens.length).toNat }
  removed : ∀ seq first last s c', call = .remove seq first last → c.slot? seq = some s →
    c.call call = some c' → ∃ s', c'.slot? seq = some s' ∧ s'.tokens = outside first last s.tokens ∧
      s'.tokens.length ≤ s.tokens.length

/-- What `Remove` makes of its range is what it is asked for. -/
def InOrder (first last : Int) (len : Nat) : Prop :=
  if first < 0 then last ≤ 0 ∨ len = 0
  else if first > len then True
  else if last = maxInt32 then len ≤ maxInt32 ∨ first = len
  else first ≤ last

instance (first last : Int) (len : Nat) : Decidable (InOrder first last len) := by
  unfold InOrder
  infer_instance

/-- No prefix of negative length is copied, and no range removed that ends before it begins or begins
before the first token. -/
def Ordered (c : KVCache τ) : Call τ → Prop
  | .copyPrefix src dst n => (c.slot? src).isSome → (c.slot? dst).isSome → 0 ≤ n
  | .remove seq first last => ∀ s, c.slot? seq = some s → InOrder first last s.tokens.length
  | _ => True

/-- The tokens that `Remove` leaves. -/
def remainder (first last : Int) (l : List τ) : Option (List τ) :=
  if first < 0 ∨ first > l.length then some l
  else if last < 0 then none
  else
    let last : Int := if last = maxInt32 ∨ last > l.length then l.length else last
    some (l.take first.toNat ++ l.drop last.toNat)

theorem take_eq_outside {first last : Int} {l : List τ} (nonneg : 0 ≤ first) (hle : first ≤ l.length)
    (hlast : 0 ≤ last) :
    l.take first.toNat = outside first last l ↔ l.length ≤ last ∨ first = l.length := by
  constructor
  · intro h
    by_contra hne
    have len := congrArg List.length h
    rw [List.length_take] at len
    by_cases forwards : first ≤ last
    · rw [outside_cut nonneg forwards, List.length_append, List.length_take, List.length_drop] at len
      omega
    · rw [outside_none fun i hi => by omega] at len
      omega
  · rintro (short | rfl)
    · rw [outside_cut nonneg (by omega), List.drop_eq_nil_of_le (by omega), List.append_nil]
    · rw [outside_none fun i hi => by omega, Int.toNat_natCast, List.take_length]

theorem cut_eq_outside {first last : Int} {l : List τ} (nonneg : 0 ≤ first) (hle : first ≤ l.length)
    (hlast : 0 ≤ last) :
    l.take first.toNat ++ l.drop last.toNat = outside first last l ↔ first ≤ last := by
  constructor
  · intro h
    by_contra inverted
    -- what stands between the two is there twice
    have len := congrArg List.length h
    rw [outside_none fun i hi => by omega, List.length_append, List.length_take,
      List.length_drop] at len
    omega
  · exact fun h => (outside_cut nonneg h l).symm

theorem remainder_iff (first last : Int) (l : List τ) :
    remainder first last l = some (outside first last l) ↔ InOrder first last l.length := by
  unfold remainder InOrder
  by_cases below : first < 0
  · rw [if_pos (.inl below), if_pos below, Option.some_inj]
    constructor
    · intro h
      by_contra hne
      have cut : (outside first last l).length < l.length :=
        length_outside_lt (i := 0) (by omega) (by omega) (by omega)
      rw [← h] at cut
      exact Nat.lt_irrefl _ cut
    · exact fun h => (outside_none fun i hi => by omega).symm
  by_cases above : first > l.length
  · rw [if_pos (.inr above), if_neg below, if_pos above, outside_none fun i hi => by omega]
    exact iff_true_intro rfl
  rw [if_neg (by omega), if_neg below, if_neg above]
  by_cases negative : last < 0
  · rw [if_pos negative, if_neg (by simp [maxInt32]; omega)]
    exact iff_of_false (by simp) (by omega)
  rw [if_neg negative, Option.some_inj]
  by_cases unbounded : last = maxInt32
  · rw [if_pos (.inl unbounded), if_pos unbounded, Int.toNat_natCast, List.drop_length,
      List.append_nil, take_eq_outside (by omega) (by omega) (by omega), unbounded]
  · have hdrop : l.drop (if last = maxInt32 ∨ last > l.length then (l.length : Int) else last).toNat =
        l.drop last.toNat := by
      split
      · rw [Int.toNat_natCast, List.drop_length, List.drop_eq_nil_of_le (by omega)]
      · rfl
    rw [hdrop, if_neg unbounded]
    exact cut_eq_outside (by omega) (by omega) (by omega)

theorem slot?_modify {c : KVCache τ} {seq : Int} {s : Slot τ} (h : c.slot? seq = some s)
    (f : Slot τ → Slot τ) : (c.modify seq f).slot? seq = some (f s) := by
  unfold slot? modify at *
  split at h
  case isTrue => cases h
  case isFalse negative =>
    simp only [if_neg negative, List.getElem?_modify_eq, h]
    rfl

theorem modify_self {c : KVCache τ} {seq : Int} {s : Slot τ} (h : c.slot? seq = some s)
    {f : Slot τ → Slot τ} (hf : f s = s) : c.modify seq f = c := by
  unfold slot? modify at *
  split at h
  case isTrue => cases h
  case isFalse negative =>
    rw [if_neg negative]
    have same : c.slots.modify seq.toNat f = c.slots := by
      refine List.ext_getElem? fun i => ?_
      rw [List.getElem?_modify]
      by_cases heq : seq.toNat = i
      · subst heq
        simp [h, hf]
      · simp [heq]
    rw [same]

theorem Bounded.modify {c : KVCache τ} (h : c.Bounded) {seq : Int} {f : Slot τ → Slot τ}
    (hf : ∀ s, c.slot? seq = some s → (f s).tokens.length ≤ c.capacity) : (c.modify seq f).Bounded := by
  unfold slot? at hf
  unfold KVCache.modify
  split
  case isTrue => exact h
  case isFalse negative =>
    rw [if_neg negative] at hf
    intro s hs
    obtain ⟨i, hi⟩ := List.mem_iff_getElem?.mp hs
    rw [List.getElem?_modify] at hi
    obtain ⟨s', hs', rfl⟩ := Option.map_eq_some_iff.mp hi
    split
    · rename_i heq
      subst heq
      exact hf s' hs'
    · exact h s' (List.mem_of_getElem? hs')

theorem removeRange_eq {c : KVCache τ} {seq : Int} {s : Slot τ} (h : c.slot? seq = some s)
    (first last : Int) : c.removeRange seq first last =
      (remainder first last s.tokens).map fun l => c.modify seq ({ · with tokens := l }) := by
  unfold removeRange remainder remove
  rw [h]
  dsimp only
  by_cases ignored : first < 0 ∨ first > s.tokens.length
  · rw [if_neg (by omega), if_pos ignored, if_pos ignored, Option.map_some,
      modify_self h (f := ({ · with tokens := s.tokens })) rfl]
  · rw [if_neg ignored, if_neg ignored]
    by_cases negative : last < 0
    · rw [if_pos (by omega), if_pos negative, Option.map_none]
    · rw [if_neg (by omega), if_neg negative, Option.map_some]

theorem bounded_new (capacity maxSequences : Int) : (new capacity maxSequences : KVCache τ).Bounded := by
  intro s hs
  rw [List.eq_of_mem_replicate hs]
  exact Nat.zero_le _

theorem Bounded.setUse {c : KVCache τ} (h : c.Bounded) (seq : Int) (inUse : Bool) :
    (c.modify seq ({ · with inUse })).Bounded := by
  refine h.modify fun s hs => ?_
  rw [slot?] at hs
  split at hs
  · cases hs
  · exact h s (List.mem_of_getElem? hs)

theorem Bounded.acquire {c : KVCache τ} (h : c.Bounded) (seq : Int) : (c.acquire seq).1.Bounded := by
  unfold KVCache.acquire
  split
  · exact h.setUse seq true
  · split
    · exact h.setUse _ true
    · exact h

theorem Bounded.put {c : KVCache τ} (h : c.Bounded) (seq : Int) (positions : List τ) :
    (c.put seq positions).Bounded := by
  unfold KVCache.put
  split
  · exact h
  · split
    · exact h
    · refine h.modify fun _ _ => ?_
      rw [List.length_append]
      omega

theorem Bounded.slot {c : KVCache τ} (h : c.Bounded) {seq : Int} {s : Slot τ}
    (hs : c.slot? seq = some s) : s.tokens.length ≤ c.capacity := by
  unfold slot? at hs
  split at hs
  · cases hs
  · exact h s (List.mem_of_getElem? hs)

/-- A call that neither copies nor removes. -/
theorem Meets.of_bounded {c c' : KVCache τ} {call : Call τ} (hcall : c.call call = some c')
    (bounded : c'.Bounded) (copies : ∀ src dst n, call ≠ .copyPrefix src dst n)
    (removes : ∀ seq first last, call ≠ .remove seq first last) : Meets c call where
  returns := by rw [hcall]; rfl
  bounded c'' h := by
    obtain rfl := Option.some.inj (hcall.symm.trans h)
    exact bounded
  copied src dst n _ _ _ h := absurd h (copies src dst n)
  removed seq first last _ _ h := absurd h (removes seq first last)

theorem meets_copyPrefix {c : KVCache τ} (hc : c.Bounded) (src dst n : Int) :
    Meets c (.copyPrefix src dst n) ↔ Ordered c (.copyPrefix src dst n) := by
  have hcall : c.call (.copyPrefix src dst n) = c.copyPrefix src dst n := rfl
  unfold copyPrefix at hcall
  cases hsrc : c.slot? src with
  | none =>
    rw [hsrc] at hcall
    refine iff_of_true ⟨by rw [hcall]; rfl, fun c' h => ?_, ?_, nofun⟩ (by simp [Ordered, hsrc])
    · obtain rfl := Option.some.inj (hcall.symm.trans h)
      exact hc
    · rintro _ _ _ s d c' ⟨⟩ hs
      rw [hsrc] at hs
      cases hs
  | some s =>
    cases hdst : c.slot? dst with
    | none =>
      rw [hsrc, hdst] at hcall
      refine iff_of_true ⟨by rw [hcall]; rfl, fun c' h => ?_, ?_, nofun⟩ (by simp [Ordered, hdst])
      · obtain rfl := Option.some.inj (hcall.symm.trans h)
        exact hc
      · rintro _ _ _ s d c' ⟨⟩ - hd
        rw [hdst] at hd
        cases hd
    | some d =>
      rw [hsrc, hdst] at hcall
      dsimp only at hcall
      have ordered : Ordered c (.copyPrefix src dst n) ↔ 0 ≤ n := by simp [Ordered, hsrc, hdst]
      rw [ordered]
      by_cases negative : n < 0
      · rw [if_pos (by split <;> omega)] at hcall
        refine iff_of_false (fun h => ?_) (by omega)
        have returns := h.returns
        rw [hcall] at returns
        cases returns
      · rw [if_neg (by split <;> omega)] at hcall
        have clamped : (if n > s.tokens.length then (s.tokens.length : Int) else n) =
            min (max n 0) s.tokens.length := by
          split <;> omega
        rw [clamped] at hcall
        refine iff_of_true ⟨by rw [hcall]; rfl, fun c' h => ?_, ?_, nofun⟩ (by omega)
        · obtain rfl := Option.some.inj (hcall.symm.trans h)
          refine hc.modify fun _ _ => ?_
          have := hc.slot hsrc
          rw [List.length_take]
          omega
        · rintro _ _ _ s' d' c' ⟨⟩ hs hd h
          obtain rfl := Option.some.inj (hsrc.symm.trans hs)
          obtain rfl := Option.some.inj (hcall.symm.trans h)
          exact slot?_modify hd _

theorem meets_remove {c : KVCache τ} (hc : c.Bounded) (seq first last : Int) :
    Meets c (.remove seq first last) ↔ Ordered c (.remove seq first last) := by
  have hcall : c.call (.remove seq first last) = c.removeRange seq first last := rfl
  cases hs : c.slot? seq with
  | none =>
    have same : c.removeRange seq first last = some c := by
      rw [removeRange, hs, remove, hs]
    rw [same] at hcall
    refine iff_of_true ⟨by rw [hcall]; rfl, fun c' h => ?_, nofun, ?_⟩ fun s' hs' => ?_
    · obtain rfl := Option.some.inj (hcall.symm.trans h)
      exact hc
    · rintro _ _ _ s' c' ⟨⟩ hs'
      rw [hs] at hs'
      cases hs'
    · rw [hs] at hs'
      cases hs'
  | some s =>
    have ordered : Ordered c (.remove seq first last) ↔ InOrder first last s.tokens.length := by
      simp [Ordered, hs]
    rw [removeRange_eq hs] at hcall
    rw [ordered, ← remainder_iff]
    constructor
    · intro meets
      cases hleft : remainder first last s.tokens with
      | none =>
        have returns := meets.returns
        rw [hcall, hleft] at returns
        cases returns
      | some l =>
        rw [hleft, Option.map_some] at hcall
        obtain ⟨s', hs', tokens, -⟩ := meets.removed seq first last s _ rfl hs hcall
        rw [slot?_modify hs] at hs'
        obtain rfl := Option.some.inj hs'
        exact congrArg some tokens
    · intro left
      rw [left, Option.map_some] at hcall
      have shorter := length_outside_le first last s.tokens
      refine ⟨by rw [hcall]; rfl, fun c' h => ?_, nofun, ?_⟩
      · obtain rfl := Option.some.inj (hcall.symm.trans h)
        exact hc.modify fun _ _ => shorter.trans (hc.slot hs)
      · rintro _ _ _ s' c' ⟨⟩ hs' h
        obtain rfl := Option.some.inj (hs.symm.trans hs')
        obtain rfl := Option.some.inj (hcall.symm.trans h)
        exact ⟨_, slot?_modify hs _, rfl, shorter⟩

/-- A call does what is wanted of it just when its range is in order. -/
theorem meets_iff {c : KVCache τ} (hc : c.Bounded) (call : Call τ) : Meets c call ↔ Ordered c call := by
  cases call with
  | acquire seq =>
    exact iff_of_true (.of_bounded rfl (hc.acquire seq) (by simp) (by simp)) trivial
  | release seq =>
    exact iff_of_true (.of_bounded rfl (hc.setUse seq false) (by simp) (by simp)) trivial
  | put seq positions =>
    exact iff_of_true (.of_bounded rfl (hc.put seq positions) (by simp) (by simp)) trivial
  | copyPrefix src dst n => exact meets_copyPrefix hc src dst n
  | canResume seq pos => exact iff_of_true (.of_bounded rfl hc (by simp) (by simp)) trivial
  | remove seq first last => exact meets_remove hc seq first last

/-- In every run of calls all of them do what is wanted of them just when all their ranges are in
order. -/
theorem run_meets (capacity maxSequences : Int) (calls : List (Call τ)) :
    Throughout call Meets (new capacity maxSequences) calls ↔
      Throughout call Ordered (new capacity maxSequences) calls := by
  refine throughout_iff (I := Bounded) (fun _ call hc => meets_iff hc call)
    (fun c call c' hc ordered h => ?_) (bounded_new capacity maxSequences) calls
  exact ((meets_iff hc call).mpr ordered).bounded c' h

/-- A prefix of negative length is out of range, and a range that ends before it begins puts tokens
there twice, beyond the capacity. -/
theorem inverted_ranges :
    ¬Throughout call Meets (new 3 2 : KVCache Nat) [.copyPrefix 0 1 (-1)] ∧
      ¬Throughout call Meets (new 3 1) [.put 0 [5, 6, 7], .remove 0 2 1] ∧
      ((new 3 1).put 0 [5, 6, 7]).call (.remove 0 2 1) =
        some ⟨3, [{ tokens := [5, 6, 6, 7] }]⟩ := by
  refine ⟨fun h => ?_, fun h => ?_, by decide⟩
  · exact absurd h.1.returns (by decide)
  · have bounded := ((h.2 _ rfl).1.bounded _ rfl) ⟨[5, 6, 6, 7], false⟩ (by decide)
    exact absurd bounded (by decide)

end KVCache

end Ecco9.Jobs
