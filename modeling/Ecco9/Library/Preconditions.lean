import Mathlib.Data.List.Forall2
import Mathlib.Logic.Basic

/-! Computations with a state that may stop: what a state has to be like for all to go well. -/

universe u v

namespace Ecco9.Library

section

variable {ε σ : Type u} {α β : Type u} {stop : ε → Prop} {s t : σ}

/-- From the state the computation ends in a result and a state that are wanted, or it stops as it may. -/
structure wp (x : EStateM ε σ α) (stop : ε → Prop) (post : α → σ → Prop) (s : σ) : Prop where
  ok : ∀ a t, x s = .ok a t → post a t
  error : ∀ e t, x s = .error e t → stop e

theorem wp_of_ok {x : EStateM ε σ α} {a : α} (h : x s = .ok a t) (post : α → σ → Prop) :
    wp x stop post s ↔ post a t := by
  refine ⟨fun hx => hx.ok a t h, fun hpost => ⟨fun b u hb => ?_, fun e u he => ?_⟩⟩
  · cases h.symm.trans hb
    exact hpost
  · cases h.symm.trans he

theorem wp_of_error {x : EStateM ε σ α} {e : ε} (h : x s = .error e t) (post : α → σ → Prop) :
    wp x stop post s ↔ stop e := by
  refine ⟨fun hx => hx.error e t h, fun hstop => ⟨fun b u hb => ?_, fun e u he => ?_⟩⟩
  · cases h.symm.trans hb
  · cases h.symm.trans he
    exact hstop

theorem wp_pure (a : α) (post : α → σ → Prop) (s : σ) :
    wp (pure a : EStateM ε σ α) stop post s ↔ post a s := wp_of_ok rfl post

theorem wp_throw (e : ε) (post : α → σ → Prop) (s : σ) :
    wp (throw e : EStateM ε σ α) stop post s ↔ stop e := wp_of_error rfl post

theorem bind_of_ok {x : EStateM ε σ α} {a : α} (h : x s = .ok a t) (f : α → EStateM ε σ β) :
    (x >>= f) s = f a t := by
  change EStateM.bind x f s = f a t
  rw [EStateM.bind, h]

theorem bind_of_error {x : EStateM ε σ α} {e : ε} (h : x s = .error e t) (f : α → EStateM ε σ β) :
    (x >>= f) s = .error e t := by
  change EStateM.bind x f s = .error e t
  rw [EStateM.bind, h]

theorem bind_eq_ok {x : EStateM ε σ α} {f : α → EStateM ε σ β} {b : β} {u : σ}
    (h : (x >>= f) s = .ok b u) : ∃ a t, x s = .ok a t ∧ f a t = .ok b u := by
  cases hx : x s with
  | ok a t => exact ⟨a, t, rfl, (bind_of_ok hx f).symm.trans h⟩
  | error e t => cases (bind_of_error hx f).symm.trans h

theorem wp_bind (x : EStateM ε σ α) (f : α → EStateM ε σ β) (post : β → σ → Prop) (s : σ) :
    wp (x >>= f) stop post s ↔ wp x stop (fun a => wp (f a) stop post) s := by
  cases h : x s with
  | ok a t =>
    rw [wp_of_ok h]
    constructor
    · exact fun hx => ⟨fun b u hb => hx.ok b u ((bind_of_ok h f).trans hb), fun e u he =>
        hx.error e u ((bind_of_ok h f).trans he)⟩
    · exact fun hx => ⟨fun b u hb => hx.ok b u ((bind_of_ok h f).symm.trans hb), fun e u he =>
        hx.error e u ((bind_of_ok h f).symm.trans he)⟩
  | error e t => rw [wp_of_error h, wp_of_error (bind_of_error h f)]

theorem wp_congr {x : EStateM ε σ α} {post post' : α → σ → Prop} (h : ∀ a s, post a s ↔ post' a s) :
    wp x stop post s ↔ wp x stop post' s :=
  ⟨fun hx => ⟨fun a t ha => (h a t).mp (hx.ok a t ha), hx.error⟩,
    fun hx => ⟨fun a t ha => (h a t).mpr (hx.ok a t ha), hx.error⟩⟩

/-- One after the other. -/
theorem wp_seq {x : EStateM ε σ α} {f : α → EStateM ε σ β} {pre : (α → σ → Prop) → σ → Prop}
    {post : β → σ → Prop} {mid : α → σ → Prop} (hx : ∀ post s, wp x stop post s ↔ pre post s)
    (hf : ∀ a s, wp (f a) stop post s ↔ mid a s) (s : σ) : wp (x >>= f) stop post s ↔ pre mid s := by
  rw [wp_bind, ← hx]
  exact wp_congr hf

theorem wp_then {x : EStateM ε σ α} {f : α → EStateM ε σ β} {post : β → σ → Prop}
    (hx : wp x stop (fun _ _ => True) s) (hf : ∀ a s, wp (f a) stop post s) : wp (x >>= f) stop post s :=
  (wp_bind ..).mpr ⟨fun a t _ => hf a t, hx.error⟩

theorem wp_ite {p : Prop} [Decidable p] (x y : EStateM ε σ α) (post : α → σ → Prop) (s : σ) :
    wp (if p then x else y) stop post s ↔ if p then wp x stop post s else wp y stop post s := by
  split <;> rfl

/-! ### Repetition -/

/-- The computation as often as is asked for, in order. -/
def repeated (x : EStateM ε σ α) : Nat → EStateM ε σ (List α)
  | 0 => return []
  | n + 1 => do
    let a ← x
    let rest ← repeated x n
    return a :: rest

/-- What has to hold for each turn with those behind it. -/
def eachTurn (pre : (α → σ → Prop) → σ → Prop) : Nat → (List α → σ → Prop) → σ → Prop
  | 0, post => post []
  | n + 1, post => pre fun a => eachTurn pre n fun rest => post (a :: rest)

theorem wp_repeated {x : EStateM ε σ α} {pre : (α → σ → Prop) → σ → Prop}
    (h : ∀ post s, wp x stop post s ↔ pre post s) (n : Nat) (post : List α → σ → Prop) (s : σ) :
    wp (repeated x n) stop post s ↔ eachTurn pre n post s := by
  induction n generalizing post s with
  | zero => exact wp_pure ..
  | succ n ih => exact wp_seq h (fun a => wp_seq ih fun rest => wp_pure (a :: rest) post) s

theorem wp_forM {γ : Type v} {f : γ → EStateM ε σ PUnit} (h : ∀ c s, wp (f c) stop (fun _ _ => True) s)
    (l : List γ) (s : σ) : wp (l.forM f) stop (fun _ _ => True) s := by
  induction l generalizing s with
  | nil => exact (wp_pure ..).mpr trivial
  | cons c l ih => exact wp_then (h c s) fun _ => ih

end

/-! ### One computation beside another -/

/-- Wherever the first gives a result, so does the second from a state that goes with it; and what they
give and leave goes together. -/
def Mirrors {ε δ σ τ α β : Type} (R : σ → τ → Prop) (V : α → β → Prop) (x : EStateM ε σ α)
    (y : EStateM δ τ β) : Prop :=
  ∀ s t a s', R s t → x s = .ok a s' → ∃ b t', y t = .ok b t' ∧ R s' t' ∧ V a b

section

variable {ε δ σ τ α β γ ζ : Type} {R : σ → τ → Prop} {V : α → β → Prop} {W : γ → ζ → Prop}
  {x : EStateM ε σ α} {y : EStateM δ τ β} {f : α → EStateM ε σ γ} {g : β → EStateM δ τ ζ}

theorem mirrors_pure {a : α} {b : β} (h : V a b) :
    Mirrors R V (pure a : EStateM ε σ α) (pure b : EStateM δ τ β) := by
  intro s t a' s' hst heq
  cases heq
  exact ⟨b, t, rfl, hst, h⟩

theorem Mirrors.bind (hx : Mirrors R V x y) (hf : ∀ a b, V a b → Mirrors R W (f a) (g b)) :
    Mirrors R W (x >>= f) (y >>= g) := by
  intro s t c u hst heq
  obtain ⟨a, s', ha, hc⟩ := bind_eq_ok heq
  obtain ⟨b, t', hb, hst', hab⟩ := hx s t a s' hst ha
  rw [bind_of_ok hb]
  exact hf a b hab s' t' c u hst' hc

theorem Mirrors.map {f : α → γ} {g : β → ζ} (hx : Mirrors R V x y) (hf : ∀ a b, V a b → W (f a) (g b)) :
    Mirrors R W (do return f (← x)) (do return g (← y)) :=
  hx.bind fun a b hab => mirrors_pure (hf a b hab)

/-- What comes before and leaves the state as it is says something of its result. -/
theorem Mirrors.after {p : α → Prop} (hx : ∀ s a s', x s = .ok a s' → s' = s ∧ p a)
    {y : EStateM δ τ ζ} (hf : ∀ a, p a → Mirrors R W (f a) y) : Mirrors R W (x >>= f) y := by
  intro s t c u hst heq
  obtain ⟨a, s', ha, hc⟩ := bind_eq_ok heq
  obtain ⟨rfl, hp⟩ := hx s a s' ha
  exact hf a hp s' t c u hst hc

theorem Mirrors.repeated (hx : Mirrors R V x y) (n : Nat) :
    Mirrors R (List.Forall₂ V) (repeated x n) (repeated y n) := by
  induction n with
  | zero => exact mirrors_pure .nil
  | succ n ih => exact hx.bind fun a b hab => ih.map fun as bs habs => .cons hab habs

end

end Ecco9.Library
