import Ecco9.Library.MachineInt
import Ecco9.Sample.Transforms

/-! The sampler of `sample/samplers.go`. A grammar is what it rejects after the tokens it has
accepted; the values that the random source gives are arguments. -/

namespace Ecco9.Sample

open Ecco9.Library

inductive Failure
  | error (text : String)
  | panic
  deriving DecidableEq

def orPanic : Option α → Except Failure α
  | some a => .ok a
  | none => .error .panic

structure GrammarSampler where
  rejects : List Int → Int → Bool
  accepted : List Int := []

namespace GrammarSampler

def rejected (g : GrammarSampler) (token : Int) : Bool := g.rejects g.accepted token

def apply (g : GrammarSampler) (tokens : List Token) : List Token :=
  tokens.map fun t => if g.rejected t.id then { t with value := negInf } else t

def accept (g : GrammarSampler) (token : Int) : GrammarSampler :=
  { g with accepted := g.accepted ++ [token] }

end GrammarSampler

structure Sampler where
  topK : Int
  topP : Float32
  minP : Float32
  temperature : Float32
  grammar : Option GrammarSampler := none

def newSampler (temperature : Float32) (topK : Int) (topP minP : Float32)
    (grammar : Option GrammarSampler) : Sampler :=
  let clip (p : Float32) : Float32 :=
    let p := if p < 0 then 0 else p
    if 1 ≤ p then 1 else p
  { topK, topP := clip topP, minP := clip minP,
    temperature := if temperature < 0 then 0 else temperature, grammar }

/-- The token with the highest value, the first of these. -/
def greedy : List Token → Option Token
  | [] => none
  | t :: ts => some (ts.foldl (fun max t => if max.value < t.value then t else max) t)

/-- The values replaced by their sums so far, and the sum of all. -/
def cumulate (sum : Float32) : List Token → List Token × Float32
  | [] => ([], sum)
  | t :: ts =>
    let (rest, total) := cumulate (sum + t.value) ts
    ({ t with value := sum + t.value } :: rest, total)

/-- The tokens that `Sample` makes of the logits. -/
def tokensOf (logits : List Float32) : List Token :=
  logits.mapIdx fun i value => ⟨wrap32 i, value⟩

namespace Sampler

variable (E : Exponential) (S : SortFunc) (s : Sampler)

/-- `sample`, with what the random source gives. -/
def sampleOne (r : Float32) (tokens : List Token) : Except Failure Token := do
  if s.temperature == 0 then
    orPanic (greedy tokens)
  else
    let tokens ← orPanic (Sample.topK S tokens s.topK)
    let tokens := softmax E (Sample.temperature tokens s.temperature)
    let tokens ← orPanic (Sample.minP (Sample.topP tokens s.topP) s.minP)
    let (tokens, sum) := cumulate 0 tokens
    let last ← orPanic tokens.getLast?
    let idx := binarySearchFunc (fun t => decide (t.value < r * last.value)) tokens
    if sum.isNaN then .error (.error "sample: logits sum to NaN, check model output")
    else orPanic tokens[idx]?

/-- `Sample`, with what the random source gives to each of two calls of `sample`. -/
def sample (r r' : Float32) (logits : List Float32) : Except Failure (Int × Sampler) := do
  if logits = [] then .error (.error "sample: no logits provided to sample")
  else
    let t ← s.sampleOne E S r (tokensOf logits)
    match s.grammar with
    | none => return (t.id, s)
    | some g =>
      let top ← orPanic (g.apply [t])[0]?
      if top.value ≠ negInf then return (top.id, { s with grammar := some (g.accept top.id) })
      else
        let t ← s.sampleOne E S r' (g.apply (tokensOf logits))
        return (t.id, { s with grammar := some (g.accept t.id) })

end Sampler

@[simp] theorem orPanic_ok {o : Option α} : orPanic o = .ok a ↔ o = some a := by
  cases o <;> simp [orPanic]

theorem bind_ok {x : Except Failure α} {f : α → Except Failure β} :
    (x >>= f) = .ok b ↔ ∃ a, x = .ok a ∧ f a = .ok b := by
  cases x with
  | error e => exact ⟨nofun, fun ⟨a, ha, _⟩ => nomatch ha⟩
  | ok a => exact ⟨fun h => ⟨a, rfl, h⟩, fun ⟨_, ha, h⟩ => by cases ha; exact h⟩

theorem cumulate_isNaN {ts : List Token} {sum : Float32}
    (h : sum.isNaN = true ∨ ∃ t ∈ ts, t.value.isNaN = true) :
    (cumulate sum ts).2.isNaN = true := by
  induction ts generalizing sum with
  | nil => simpa [cumulate] using h
  | cons t ts ih =>
    apply ih
    rcases h with h | ⟨u, hu, h⟩
    · exact .inl (add_isNaN (.inl h))
    · rcases List.mem_cons.mp hu with rfl | hu
      · exact .inl (add_isNaN (.inr h))
      · exact .inr ⟨u, hu, h⟩

theorem cumulate_id (sum : Float32) (ts : List Token) :
    (cumulate sum ts).1.map (·.id) = ts.map (·.id) := by
  induction ts generalizing sum with
  | nil => rfl
  | cons t ts ih => simp [cumulate, ih]

theorem cumulate_succ {ts : List Token} {sum : Float32} {i : Nat} {b c t : Token}
    (hb : (cumulate sum ts).1[i]? = some b) (hc : (cumulate sum ts).1[i + 1]? = some c)
    (ht : ts[i + 1]? = some t) : c.value = b.value + t.value := by
  induction ts generalizing sum i with
  | nil => simp at ht
  | cons u ts ih =>
    cases i with
    | zero =>
      cases ts with
      | nil => simp at ht
      | cons v ts =>
        simp only [cumulate, List.getElem?_cons_zero, List.getElem?_cons_succ,
          Option.some.injEq] at hb hc ht
        rw [← hb, ← hc, ← ht]
    | succ i => exact ih hb hc ht

/-- What `temperature` makes of `-Inf`. -/
theorem scaled_negInf (temp : Float32) :
    negInf / max temp 1e-7 = negInf ∨ (negInf / max temp 1e-7).isNaN = true :=
  negInf_div (max_pos temp (by decide))

theorem mem_temperature {ts : List Token} {u : Token} (temp : Float32) (hu : u ∈ ts) :
    ⟨u.id, u.value / max temp 1e-7⟩ ∈ temperature ts temp :=
  List.mem_map_of_mem hu

theorem softmax_temperature_getElem? (E : Exponential) {ts : List Token} {u : Token} {i : Nat}
    (temp : Float32) (hu : ts[i]? = some u) :
    ∃ sum, (softmax E (temperature ts temp))[i]? = some ⟨u.id,
      E.exp (u.value / max temp 1e-7 - maxLogit (temperature ts temp)) / sum⟩ := by
  have : (temperature ts temp)[i]? = some { u with value := u.value / max temp 1e-7 } := by
    simp [temperature, hu]
  exact softmax_getElem? E this

/-- The place that the search finds is not one of probability zero, if a place stands before it. -/
theorem search_value_ne_zero {ts : List Token} {target : Float32} {i : Nat} {t p : Token}
    (hi : binarySearchFunc (fun t => decide (t.value < target)) (cumulate 0 ts).1 = i + 1)
    (ht : (cumulate 0 ts).1[i + 1]? = some t) (hp : ts[i + 1]? = some p) : ¬IsZero p.value := by
  intro zero
  have found := binarySearchFunc_spec (fun t => decide (t.value < target)) (cumulate 0 ts).1
  rw [hi] at found
  obtain ⟨hlt, -⟩ := List.getElem?_eq_some_iff.mp ht
  have hb : (cumulate 0 ts).1[i]? = some (cumulate 0 ts).1[i] := List.getElem?_eq_getElem (by omega)
  simp only [Nat.add_sub_cancel, hb, ht, Option.any_some, decide_eq_true_eq, decide_eq_false_iff_not,
    Nat.add_one_ne_zero, false_or] at found
  rw [cumulate_succ hb ht hp, zero.add_lt] at found
  exact found.2 found.1

/-- Drawing from probabilities never gives a token whose logit is `-Inf`: its probability is zero,
and the sum up to it is the sum up to the token before it. It is the first token only if all logits
are `-Inf`, and then the probabilities are no numbers. -/
theorem sampleOne_ne_negInf (E : Exponential) (S : SortFunc) {s : Sampler} {r : Float32}
    {tokens : List Token} {t : Token} (warm : (s.temperature == 0) = false)
    (h : s.sampleOne E S r tokens = .ok t) :
    ∃ u ∈ tokens, u.id = t.id ∧ u.value ≠ negInf := by
  simp only [Sampler.sampleOne, warm, Bool.false_eq_true, if_false, bind_ok, orPanic_ok] at h
  obtain ⟨kept, hk, few, hf, last, -, h⟩ := h
  obtain ⟨_, hk', sub, sorted⟩ := topK_spec S tokens s.topK
  rw [hk] at hk'
  cases hk'
  have front : few <+: softmax E (temperature kept s.temperature) :=
    (minP_isPrefixOf hf).trans (topP_isPrefixOf ..)
  split at h
  case isTrue => cases h
  case isFalse sum =>
    rw [orPanic_ok] at h
    generalize hidx : binarySearchFunc _ _ = idx at h
    have ids : (few.map (·.id))[idx]? = some t.id := by
      rw [← cumulate_id 0 few, List.getElem?_map, h]
      rfl
    rw [List.getElem?_map, Option.map_eq_some_iff] at ids
    obtain ⟨p, hp, hpt⟩ := ids
    have clean : ∀ q ∈ few, q.value.isNaN = false := fun q hq =>
      Bool.eq_false_iff.mpr fun nan => sum (cumulate_isNaN (.inr ⟨q, hq, nan⟩))
    -- had one of the differences been `NaN`, then so were all of `few`
    have numbers : ∀ u ∈ kept, (u.value / max s.temperature 1e-7 -
        maxLogit (temperature kept s.temperature)).isNaN = false := by
      intro u hu
      have hp' := List.mem_of_getElem? hp
      refine Bool.eq_false_iff.mpr fun nan => ?_
      have := softmax_isNaN E (mem_temperature s.temperature hu) nan (front.subset hp')
      exact Bool.eq_false_iff.mp (clean p hp') this
    have scaled : ∀ u ∈ kept, u.value = negInf → u.value / max s.temperature 1e-7 = negInf := by
      intro u hu hneg
      have := numbers u hu
      rw [hneg] at this ⊢
      refine (scaled_negInf s.temperature).resolve_right fun nan => ?_
      exact Bool.eq_false_iff.mp this (sub_isNaN (.inl nan))
    have hprob : (softmax E (temperature kept s.temperature))[idx]? = some p := by
      obtain ⟨rest, hrest⟩ := front
      rw [← hrest, List.getElem?_append_left (List.getElem?_eq_some_iff.mp hp).1, hp]
    obtain ⟨u, hu⟩ : ∃ u, kept[idx]? = some u := by
      have := (List.getElem?_eq_some_iff.mp hprob).1
      simp only [softmax, temperature, List.length_map] at this
      exact ⟨_, List.getElem?_eq_getElem this⟩
    obtain ⟨total, hvalue⟩ := softmax_temperature_getElem? E s.temperature hu
    rw [hprob, Option.some.injEq] at hvalue
    have hmem := List.mem_of_getElem? hu
    refine ⟨u, sub hmem, by rw [← hpt, hvalue], fun hneg => ?_⟩
    have number := numbers u hmem
    rw [scaled u hmem hneg] at number
    cases idx with
    | zero =>
      have nonan : NoNaN kept := fun v hv => Bool.eq_false_iff.mpr fun nan => by
        exact Bool.eq_false_iff.mp (numbers v hv) (sub_isNaN (.inl (div_isNaN (.inl nan))))
      have all : ∀ v ∈ kept, v.value = negInf := by
        obtain ⟨rest, rfl⟩ : ∃ rest, kept = u :: rest := by
          cases kept with
          | nil => simp at hu
          | cons v rest => exact ⟨rest, by simpa using hu⟩
        intro v hv
        rcases List.mem_cons.mp hv with rfl | hv
        · exact hneg
        · have below := List.rel_of_pairwise_cons (sorted nonan) hv
          rw [hneg] at below
          exact Classical.byContradiction fun hne =>
            below (negInf_lt (nonan v (List.mem_cons_of_mem _ hv)) hne)
      rw [maxLogit_negInf, negInf_sub_negInf] at number
      · cases number
      · intro v hv
        obtain ⟨w, hw, rfl⟩ := List.mem_map.mp hv
        exact scaled w hw (all w hw)
    | succ i =>
      have hdiff : negInf - maxLogit (temperature kept s.temperature) = negInf :=
        (negInf_sub _).resolve_right (Bool.eq_false_iff.mp number)
      apply search_value_ne_zero hidx h hp
      have hpv : p.value = E.exp negInf / total := by
        rw [hvalue, scaled u hmem hneg, hdiff]
      have := clean p (List.mem_of_getElem? hp)
      rw [hpv] at this ⊢
      exact (E.exp_negInf.div total).resolve_right (Bool.eq_false_iff.mp this)

/-- The highest value is one that some value is below, unless it is the first. -/
theorem greedy_cases {t g : Token} {ts : List Token} (h : greedy (t :: ts) = some g) :
    g = t ∨ g ∈ ts ∧ negInf < g.value := by
  simp only [greedy, Option.some.injEq] at h
  induction ts generalizing t with
  | nil => exact .inl h.symm
  | cons u ts ih =>
    simp only [List.foldl_cons] at h
    split at h
    case isTrue above =>
      rcases ih h with rfl | ⟨hg, hneg⟩
      · refine .inr ⟨List.mem_cons_self, negInf_lt (isNaN_of_lt_right above) fun hneg => ?_⟩
        exact not_lt_negInf _ (hneg ▸ above)
      · exact .inr ⟨List.mem_cons_of_mem _ hg, hneg⟩
    case isFalse =>
      exact (ih h).imp_right fun ⟨hg, hneg⟩ => ⟨List.mem_cons_of_mem _ hg, hneg⟩

/-- `-Inf` is chosen only where no value is above it. -/
theorem greedy_negInf {t g : Token} {ts : List Token} (h : greedy (t :: ts) = some g)
    (hg : g.value = negInf) : ∀ u ∈ ts, ¬negInf < u.value := by
  simp only [greedy, Option.some.injEq] at h
  induction ts generalizing t with
  | nil => simp
  | cons v ts ih =>
    have first : g = (if t.value < v.value then v else t) := by
      have h' : greedy ((if t.value < v.value then v else t) :: ts) = some g := by
        simpa [greedy] using h
      exact (greedy_cases h').resolve_right fun above => not_lt_negInf _ (hg ▸ above.2)
    intro u hu
    rcases List.mem_cons.mp hu with rfl | hu
    · split at first
      · rw [← first, hg]
        exact not_lt_negInf _
      · rename_i low
        rwa [← first, hg] at low
    · exact ih h u hu

namespace GrammarSampler

variable {g : GrammarSampler}

theorem apply_rejected {tokens : List Token} {t : Token} (ht : t ∈ g.apply tokens)
    (hr : g.rejected t.id = true) : t.value = negInf := by
  obtain ⟨u, -, rfl⟩ := List.mem_map.mp ht
  by_cases h : g.rejected u.id = true
  · simp [h]
  · simp [h] at hr

theorem apply_one (t : Token) :
    ∃ top, (g.apply [t])[0]? = some top ∧ top.id = t.id ∧
      (top.value ≠ negInf ↔ g.rejected t.id = false ∧ t.value ≠ negInf) := by
  refine ⟨_, rfl, ?_⟩
  by_cases h : g.rejected t.id = true
  · simp [h]
  · simp [h]

theorem apply_mem {tokens : List Token} {t : Token} (ht : t ∈ tokens)
    (hr : g.rejected t.id = false) : t ∈ g.apply tokens :=
  List.mem_map.mpr ⟨t, ht, by simp [hr]⟩

theorem mem_of_apply {tokens : List Token} {t : Token} (ht : t ∈ g.apply tokens)
    (h : t.value ≠ negInf) : t ∈ tokens ∧ g.rejected t.id = false := by
  obtain ⟨u, hu, rfl⟩ := List.mem_map.mp ht
  by_cases hr : g.rejected u.id = true
  · simp [hr] at h
  · rw [Bool.not_eq_true] at hr
    simpa [hr] using hu

/-- Greedy choice among what the grammar leaves: a rejected token is chosen just when the first one
is rejected and no accepted one is above `-Inf`. -/
theorem greedy_apply {t out : Token} {ts : List Token}
    (h : greedy (g.apply (t :: ts)) = some out) :
    g.rejected out.id = true ↔
      g.rejected t.id = true ∧ ∀ u ∈ ts, g.rejected u.id = false → ¬negInf < u.value := by
  have mem : out ∈ g.apply (t :: ts) := by
    rw [apply, List.map_cons] at h ⊢
    rcases greedy_cases h with rfl | ⟨hmem, -⟩
    · exact List.mem_cons_self
    · exact List.mem_cons_of_mem _ hmem
  constructor
  · intro rejected
    have value := apply_rejected mem rejected
    rw [apply, List.map_cons] at h
    have low := greedy_negInf h value
    constructor
    · rcases greedy_cases h with rfl | ⟨-, above⟩
      · by_cases hr : g.rejected t.id = true
        · exact hr
        · simp [hr] at rejected
      · exact absurd (value ▸ above) (not_lt_negInf _)
    · exact fun u hu hr => low u (apply_mem hu hr)
  · rintro ⟨rejected, low⟩
    rw [apply, List.map_cons] at h
    rcases greedy_cases h with rfl | ⟨hmem, above⟩
    · simp [rejected]
    · obtain ⟨hts, hr⟩ := mem_of_apply hmem fun e => not_lt_negInf _ (e ▸ above)
      exact absurd above (low out hts hr)

end GrammarSampler

theorem mem_tokensOf {logits : List Float32} {t : Token} :
    t ∈ tokensOf logits ↔ ∃ i : Nat, logits[i]? = some t.value ∧ t.id = wrap32 i := by
  rw [tokensOf, List.mem_mapIdx]
  constructor
  · rintro ⟨i, hi, ht⟩
    refine ⟨i, ?_, ?_⟩
    · rw [← ht, List.getElem?_eq_getElem hi]
    · rw [← ht]
  · rintro ⟨i, hi, hid⟩
    obtain ⟨hlt, heq⟩ := List.getElem?_eq_some_iff.mp hi
    exact ⟨i, hlt, by rw [← hid, heq]⟩

/-- What `sample` returns under a grammar is the unconstrained choice if the grammar takes it, and
otherwise a choice among what the grammar leaves. -/
theorem sample_ok {E : Exponential} {S : SortFunc} {s s' : Sampler} {g : GrammarSampler}
    {r r' : Float32} {logits : List Float32} {out : Int} (hg : s.grammar = some g) :
    s.sample E S r r' logits = .ok (out, s') ↔
      logits ≠ [] ∧ s' = { s with grammar := some (g.accept out) } ∧
        ∃ t, s.sampleOne E S r (tokensOf logits) = .ok t ∧
          if g.rejected t.id = false ∧ t.value ≠ negInf then out = t.id
          else ∃ t', s.sampleOne E S r' (g.apply (tokensOf logits)) = .ok t' ∧ out = t'.id := by
  unfold Sampler.sample
  by_cases hl : logits = []
  · simp [hl]
  simp only [hl, if_false, hg, bind_ok, orPanic_ok, ne_eq, not_false_eq_true, true_and]
  constructor
  · rintro ⟨t, ht, top, htop, h⟩
    obtain ⟨top', htop', hid, hval⟩ := GrammarSampler.apply_one (g := g) t
    rw [htop] at htop'
    cases htop'
    by_cases kept : top.value = negInf
    · rw [if_neg (by simpa using kept), bind_ok] at h
      obtain ⟨t', ht', h⟩ := h
      cases h
      refine ⟨rfl, t, ht, ?_⟩
      rw [if_neg fun accepted => hval.mpr accepted kept]
      exact ⟨t', ht', rfl⟩
    · rw [if_pos kept] at h
      cases h
      refine ⟨by rw [hid], t, ht, ?_⟩
      rw [if_pos (hval.mp kept), hid]
  · rintro ⟨rfl, t, ht, h⟩
    obtain ⟨top, htop, hid, hval⟩ := GrammarSampler.apply_one (g := g) t
    refine ⟨t, ht, top, htop, ?_⟩
    split at h
    case isTrue accepted =>
      rw [if_pos (hval.mpr accepted), hid, h]
      rfl
    case isFalse dropped =>
      obtain ⟨t', ht', rfl⟩ := h
      rw [if_neg fun kept => dropped (hval.mp kept), bind_ok]
      exact ⟨t', ht', rfl⟩

theorem sampleOne_cold {E : Exponential} {S : SortFunc} {s : Sampler} {r : Float32}
    {tokens : List Token} {t : Token} (cold : (s.temperature == 0) = true) :
    s.sampleOne E S r tokens = .ok t ↔ greedy tokens = some t := by
  simp [Sampler.sampleOne, cold]

theorem greedy_cons (t : Token) (ts : List Token) : ∃ out, greedy (t :: ts) = some out := ⟨_, rfl⟩

theorem tokensOf_cons (x : Float32) (xs : List Float32) :
    ∃ ts, tokensOf (x :: xs) = ⟨0, x⟩ :: ts := by
  have zero : wrap32 (0 : Nat) = 0 := by decide
  exact ⟨_, by rw [tokensOf, List.mapIdx_cons, zero]⟩

theorem sampleOne_apply_warm {E : Exponential} {S : SortFunc} {s : Sampler} {g : GrammarSampler}
    {r : Float32} {tokens : List Token} {t : Token} (warm : (s.temperature == 0) = false)
    (h : s.sampleOne E S r (g.apply tokens) = .ok t) : g.rejected t.id = false := by
  obtain ⟨u, hu, hid, hne⟩ := sampleOne_ne_negInf E S warm h
  rw [← hid]
  exact (GrammarSampler.mem_of_apply hu hne).2

/-- What greedy choice leaves to the grammar when the first token is rejected and no other that the
grammar takes is above `-Inf`. -/
theorem sample_cold (E : Exponential) (S : SortFunc) {s : Sampler} {g : GrammarSampler}
    (hg : s.grammar = some g) (cold : (s.temperature == 0) = true) (r r' : Float32)
    {x : Float32} {xs : List Float32} (first : g.rejected 0 = true)
    (low : ∀ t ∈ tokensOf (x :: xs), g.rejected t.id = false → ¬negInf < t.value) :
    ∃ out s', s.sample E S r r' (x :: xs) = .ok (out, s') ∧ g.rejected out = true := by
  obtain ⟨ts, hts⟩ := tokensOf_cons x xs
  rw [hts] at low
  obtain ⟨t, ht⟩ := greedy_cons ⟨0, x⟩ ts
  obtain ⟨t', ht'⟩ : ∃ t', greedy (g.apply (⟨0, x⟩ :: ts)) = some t' := greedy_cons _ _
  refine ⟨t'.id, _, (sample_ok hg).mpr ⟨by simp, rfl, t, ?_, ?_⟩, ?_⟩
  · rw [sampleOne_cold cold, hts, ht]
  · rw [if_neg]
    · exact ⟨t', by rw [sampleOne_cold cold, hts, ht'], rfl⟩
    · rintro ⟨hr, -⟩
      rcases greedy_cases ht with rfl | ⟨hmem, above⟩
      · simp [first] at hr
      · exact low t (List.mem_cons_of_mem _ hmem) hr above
  · exact (GrammarSampler.greedy_apply ht').mpr
      ⟨first, fun u hu => low u (List.mem_cons_of_mem _ hu)⟩

/-- `exp` at the special values, and one elsewhere. -/
def flatExp : Exponential where
  exp x := if x.isNaN then x else if x = negInf then 0 else 1
  exp_isNaN h := by rwa [if_pos h]
  exp_negInf := ⟨.positive, rfl⟩

def noToken : GrammarSampler := { rejects := fun _ _ => true }

end Ecco9.Sample
