import Mathlib.Algebra.GroupWithZero.Nat
import Mathlib.Data.List.Basic
import Mathlib.Data.List.Forall2
import Mathlib.Logic.Relation

/-! Runs of a step relation and of loops: such as may fail, such as their own body ends, those of several
parties of which one takes a step, and those of machines that answer calls. -/

universe u v w

namespace Ecco9.Library

section

variable {σ : Type u} {α : Type v} {step : σ → σ → Prop}

/-- What every step keeps, every run keeps. -/
theorem run_invariant {I : σ → Prop} (keep : ∀ s t, I s → step s t → I t) {s t : σ}
    (run : Relation.ReflTransGen step s t) (hs : I s) : I t := by
  induction run with
  | refl => exact hs
  | tail _ h ih => exact keep _ _ ih h

/-- What every turn of a loop keeps, the loop keeps. -/
theorem foldlM_invariant {f : σ → α → Option σ} {l : List α} {I : σ → Prop}
    (keep : ∀ s t, ∀ a ∈ l, I s → f s a = some t → I t) {s t : σ} (h : l.foldlM f s = some t)
    (hs : I s) : I t := by
  induction l generalizing s with
  | nil =>
    obtain rfl := Option.some.inj h
    exact hs
  | cons a l ih =>
    rw [List.foldlM_cons, Option.bind_eq_bind, Option.bind_eq_some_iff] at h
    obtain ⟨s', hs', h⟩ := h
    exact ih (fun s t b hb => keep s t b (by simp [hb])) h (keep s s' a (by simp) hs hs')

/-- An invariant that also speaks of the turns made so far. -/
theorem foldlM_progress {f : σ → α → Option σ} {l : List α} {I : List α → σ → Prop}
    (keep : ∀ done a todo s t, l = done ++ a :: todo → I done s → f s a = some t →
      I (done ++ [a]) t) {s t : σ} (h : l.foldlM f s = some t) (hs : I [] s) : I l t := by
  suffices ∀ done todo s, l = done ++ todo → todo.foldlM f s = some t → I done s → I l t from
    this [] l s rfl h hs
  intro done todo
  induction todo generalizing done with
  | nil =>
    intro s hl h hs
    obtain rfl := Option.some.inj h
    rwa [hl, List.append_nil]
  | cons a todo ih =>
    intro s hl h hs
    rw [List.foldlM_cons, Option.bind_eq_bind, Option.bind_eq_some_iff] at h
    obtain ⟨s', hs', h⟩ := h
    exact ih (done ++ [a]) s' (by simp [hl]) h (keep done a todo s s' hl hs hs')

/-- A loop whose turns succeed from the invariant on. -/
theorem foldlM_total {f : σ → α → Option σ} {l : List α} {I : List α → σ → Prop}
    (keep : ∀ done a todo s, l = done ++ a :: todo → I done s →
      ∃ t, f s a = some t ∧ I (done ++ [a]) t) {s : σ} (hs : I [] s) :
    ∃ t, l.foldlM f s = some t ∧ I l t := by
  suffices ∀ done todo s, l = done ++ todo → I done s → ∃ t, todo.foldlM f s = some t ∧ I l t from
    this [] l s rfl hs
  intro done todo
  induction todo generalizing done with
  | nil =>
    intro s hl hs
    exact ⟨s, rfl, by rwa [hl, List.append_nil]⟩
  | cons a todo ih =>
    intro s hl hs
    obtain ⟨s', hs', hI⟩ := keep done a todo s hl hs
    obtain ⟨t, ht, hIt⟩ := ih (done ++ [a]) s' (by rw [hl, List.append_assoc]; rfl) hI
    refine ⟨t, ?_, hIt⟩
    rw [List.foldlM_cons, hs']
    exact ht

/-- A condition on every step of a run, in the state in which it is taken. -/
def Along (step : σ → α → σ) (P : σ → α → Prop) : σ → List α → Prop
  | _, [] => True
  | s, a :: l => P s a ∧ Along step P (step s a) l

theorem Along.foldl {step : σ → α → σ} {P : σ → α → Prop} {I : σ → Prop}
    (keep : ∀ s a, I s → P s a → I (step s a)) {s : σ} {l : List α} (h : Along step P s l) (hs : I s) :
    I (l.foldl step s) := by
  induction l generalizing s with
  | nil => exact hs
  | cons a l ih => exact ih h.2 (keep s a hs h.1)

theorem along_of {step : σ → α → σ} {P : σ → α → Prop} {I : σ → Prop}
    (keep : ∀ s a, I s → I (step s a)) (holds : ∀ s a, I s → P s a) {s : σ} (hs : I s) (l : List α) :
    Along step P s l := by
  induction l generalizing s with
  | nil => trivial
  | cons a l ih => exact ⟨holds s a hs, ih (keep s a hs)⟩

theorem Along.and {step : σ → α → σ} {P Q : σ → α → Prop} {s : σ} {l : List α} (hP : Along step P s l)
    (hQ : Along step Q s l) : Along step (fun s a => P s a ∧ Q s a) s l := by
  induction l generalizing s with
  | nil => trivial
  | cons a l ih => exact ⟨⟨hP.1, hQ.1⟩, ih hP.2 hQ.2⟩

theorem Along.imp {step : σ → α → σ} {P Q : σ → α → Prop} {I : σ → Prop}
    (keep : ∀ s a, I s → I (step s a)) (imp : ∀ s a, I s → P s a → Q s a) {s : σ} {l : List α}
    (h : Along step P s l) (hs : I s) : Along step Q s l := by
  induction l generalizing s with
  | nil => trivial
  | cons a l ih => exact ⟨imp s a hs h.1, ih h.2 (keep s a hs)⟩

/-- Where a step keeps `I` just when it meets `P`, a run keeps `I` just when all its steps meet `P`. -/
theorem along_iff {step : σ → α → σ} {P : σ → α → Prop} {I : σ → Prop}
    (keep : ∀ s a, I s → (I (step s a) ↔ P s a)) {s : σ} (hs : I s) (l : List α) :
    (∀ n, I ((l.take n).foldl step s)) ↔ Along step P s l := by
  induction l generalizing s with
  | nil =>
    refine ⟨fun _ => trivial, fun _ n => ?_⟩
    rwa [List.take_nil]
  | cons a l ih =>
    constructor
    · intro h
      have one : I (step s a) := h 1
      exact ⟨(keep s a hs).mp one, (ih one).mp fun n => h (n + 1)⟩
    · rintro ⟨now, later⟩ n
      cases n with
      | zero => exact hs
      | succ n => exact (ih ((keep s a hs).mpr now)).mpr later n

/-- A condition on every step that a run with steps that may fail takes. -/
def AlongM (step : σ → α → Option σ) (P : σ → α → Prop) : σ → List α → Prop
  | _, [] => True
  | s, a :: l => ∀ t, step s a = some t → P s a ∧ AlongM step P t l

/-- Where a step keeps `I` just when it meets `P`, a run keeps `I` just when all its steps meet `P`. -/
theorem alongM_iff {step : σ → α → Option σ} {P : σ → α → Prop} {I : σ → Prop}
    (keep : ∀ s a t, I s → step s a = some t → (I t ↔ P s a)) {s : σ} (hs : I s) (l : List α) :
    (∀ n t, (l.take n).foldlM step s = some t → I t) ↔ AlongM step P s l := by
  induction l generalizing s with
  | nil =>
    refine ⟨fun _ => trivial, fun _ n t h => ?_⟩
    rw [List.take_nil] at h
    obtain rfl := Option.some.inj h
    exact hs
  | cons a l ih =>
    constructor
    · intro h t ht
      have one := h 1 t (by simp [ht])
      refine ⟨(keep s a t hs ht).mp one, (ih one).mp fun n u hu => h (n + 1) u ?_⟩
      rwa [List.take_succ_cons, List.foldlM_cons, ht]
    · intro along n u hu
      cases n with
      | zero =>
        obtain rfl := Option.some.inj hu
        exact hs
      | succ n =>
        rw [List.take_succ_cons, List.foldlM_cons, Option.bind_eq_bind,
          Option.bind_eq_some_iff] at hu
        obtain ⟨t, ht, hu⟩ := hu
        obtain ⟨now, later⟩ := along t ht
        exact (ih ((keep s a t hs ht).mpr now)).mpr later n u hu

instance AlongM.decidable {step : σ → α → Option σ} {P : σ → α → Prop} [∀ s a, Decidable (P s a)] :
    ∀ s l, Decidable (AlongM step P s l)
  | _, [] => isTrue trivial
  | s, a :: l =>
    match h : step s a with
    | none => isTrue fun t ht => by cases h.symm.trans ht
    | some t =>
      have : Decidable (AlongM step P t l) := AlongM.decidable t l
      decidable_of_iff (P s a ∧ AlongM step P t l)
        ⟨fun both u hu => Option.some.inj (h.symm.trans hu) ▸ both, fun along => along t h⟩

/-- What every step that meets `P` keeps, a run of such steps keeps. -/
theorem AlongM.foldlM {step : σ → α → Option σ} {P : σ → α → Prop} {I : σ → Prop}
    (keep : ∀ s a t, I s → P s a → step s a = some t → I t) {s t : σ} {l : List α}
    (along : AlongM step P s l) (h : l.foldlM step s = some t) (hs : I s) : I t := by
  induction l generalizing s with
  | nil =>
    obtain rfl := Option.some.inj h
    exact hs
  | cons a l ih =>
    rw [List.foldlM_cons, Option.bind_eq_bind, Option.bind_eq_some_iff] at h
    obtain ⟨s', hs', h⟩ := h
    obtain ⟨now, later⟩ := along s' hs'
    exact ih later h (keep s a s' hs now hs')

/-- A condition on every step of a run, in the state in which it is taken, also on one that fails. -/
def Throughout (step : σ → α → Option σ) (P : σ → α → Prop) : σ → List α → Prop
  | _, [] => True
  | s, a :: l => P s a ∧ ∀ t, step s a = some t → Throughout step P t l

/-- Where a step meets `P` just when it meets `Q`, and `I` holds behind it, so do the steps of a run. -/
theorem throughout_iff {step : σ → α → Option σ} {P Q : σ → α → Prop} {I : σ → Prop}
    (same : ∀ s a, I s → (P s a ↔ Q s a)) (keep : ∀ s a t, I s → Q s a → step s a = some t → I t)
    {s : σ} (hs : I s) (l : List α) : Throughout step P s l ↔ Throughout step Q s l := by
  induction l generalizing s with
  | nil => exact Iff.rfl
  | cons a l ih =>
    rw [Throughout, Throughout, same s a hs]
    refine and_congr_right fun now => forall_congr' fun t => imp_congr_right fun ht => ?_
    exact ih (keep s a t hs now ht)

end

section

variable {σ : Type u} {body : σ → σ × Bool} {n m : Nat} {s t : σ}

/-- The body says whether it was the last turn; without a result the loop has not ended in `n` turns. -/
def loop (body : σ → σ × Bool) : Nat → σ → Option σ
  | 0, _ => none
  | n + 1, s =>
    match body s with
    | (s, true) => some s
    | (s, false) => loop body n s

theorem loop_last (h : body s = (t, true)) (n : Nat) : loop body (n + 1) s = some t := by
  rw [loop, h]

theorem loop_next (h : body s = (t, false)) (n : Nat) : loop body (n + 1) s = loop body n t := by
  rw [loop, h]

/-- Given more turns, a loop that has ended ends where it did. -/
theorem loop_mono (h : loop body n s = some t) (hle : n ≤ m) : loop body m s = some t := by
  induction n generalizing m s with
  | zero => exact absurd h (Option.some_ne_none t).symm
  | succ n ih =>
    obtain ⟨m, rfl⟩ : ∃ k, m = k + 1 := ⟨m - 1, by omega⟩
    rw [loop] at h ⊢
    split at h
    · exact h
    · exact ih h (by omega)

end

section

section

variable {ε : Type u} {α : Type v} {β : Type w} {f : α → Except ε β} {l : List α}

theorem exists_of_forall₂ {R : α → β → Prop} {bs : List β} (h : List.Forall₂ R l bs) {a : α}
    (ha : a ∈ l) : ∃ b, R a b := by
  induction h with
  | nil => cases ha
  | cons hb _ ih =>
    rcases List.mem_cons.mp ha with rfl | ha
    · exact ⟨_, hb⟩
    · exact ih ha

/-- All succeed, or it fails as one of them does. -/
theorem mapM_spec (f : α → Except ε β) (l : List α) :
    (∃ bs, l.mapM f = .ok bs ∧ List.Forall₂ (fun a b => f a = .ok b) l bs) ∨
      ∃ a ∈ l, ∃ e, f a = .error e ∧ l.mapM f = .error e := by
  induction l with
  | nil => exact .inl ⟨[], rfl, .nil⟩
  | cons a l ih =>
    rw [List.mapM_cons]
    cases hb : f a with
    | error e => exact .inr ⟨a, List.mem_cons_self, e, hb, rfl⟩
    | ok b =>
      rcases ih with ⟨bs, hbs, hall⟩ | ⟨a', ha', e, herr, hbs⟩
      · rw [hbs]
        exact .inl ⟨b :: bs, rfl, .cons hb hall⟩
      · rw [hbs]
        exact .inr ⟨a', List.mem_cons_of_mem _ ha', e, herr, rfl⟩

theorem forall₂_of_mapM {bs : List β} (h : l.mapM f = .ok bs) :
    List.Forall₂ (fun a b => f a = .ok b) l bs := by
  rcases mapM_spec f l with ⟨bs', h', hall⟩ | ⟨a, -, e, -, h'⟩
  · cases h.symm.trans h'
    exact hall
  · cases h.symm.trans h'

theorem mapM_of_forall₂ {bs : List β} (h : List.Forall₂ (fun a b => f a = .ok b) l bs) :
    l.mapM f = .ok bs := by
  induction h with
  | nil => rfl
  | cons hb _ ih =>
    rw [List.mapM_cons, hb, ih]
    rfl

end

end

section

section

variable {α : Type u} {β : Type v} {before after : List α} {a b : α}

/-- A party stands between those before it and those behind it. -/
theorem exists_party {l : List α} {i : Nat} (h : l[i]? = some a) :
    ∃ before after, l = before ++ a :: after ∧ l.take i = before ∧
      ∀ b, l.set i b = before ++ b :: after := by
  obtain ⟨hi, rfl⟩ := List.getElem?_eq_some_iff.mp h
  refine ⟨l.take i, l.drop (i + 1), ?_, rfl, fun b => List.set_eq_take_append_cons_drop.trans (if_pos hi)⟩
  rw [← List.drop_eq_getElem_cons hi, List.take_append_drop]

/-- A party that leaves, and those that stay. -/
theorem exists_party_erase {l : List α} {i : Nat} (h : l[i]? = some a) :
    ∃ before after, l = before ++ a :: after ∧ l.eraseIdx i = before ++ after ∧
      (∀ b, l.set i b = before ++ b :: after) ∧
      ∀ b ∈ before ++ after, ∃ j, j ≠ i ∧ l[j]? = some b := by
  obtain ⟨before, after, rfl, htake, hset⟩ := exists_party h
  have hlen : before.length = i := by
    obtain ⟨hi, -⟩ := List.getElem?_eq_some_iff.mp h
    rw [← htake, List.length_take, Nat.min_eq_left (Nat.le_of_lt hi)]
  refine ⟨before, after, rfl, ?_, hset, fun b hb => ?_⟩
  · rw [List.eraseIdx_append_of_length_le (Nat.le_of_eq hlen), hlen, Nat.sub_self, List.eraseIdx_cons_zero]
  · rcases List.mem_append.mp hb with hb | hb
    · obtain ⟨j, hj⟩ := List.mem_iff_getElem?.mp hb
      have hlt := (List.getElem?_eq_some_iff.mp hj).1
      exact ⟨j, by omega, by rw [List.getElem?_append_left hlt, hj]⟩
    · obtain ⟨j, hj⟩ := List.mem_iff_getElem?.mp hb
      refine ⟨before.length + (j + 1), by omega, ?_⟩
      rw [List.getElem?_append_right (Nat.le_add_right _ _), Nat.add_sub_cancel_left,
        List.getElem?_cons_succ, hj]

theorem forall_place {P : α → Prop} (h : ∀ x ∈ before ++ a :: after, P x) (hb : P b) :
    ∀ x ∈ before ++ b :: after, P x := by
  intro x hx
  rcases List.mem_append.mp hx with hx | hx
  · exact h x (List.mem_append_left _ hx)
  · rcases List.mem_cons.mp hx with rfl | hx
    · exact hb
    · exact h x (List.mem_append_right _ (List.mem_cons_of_mem _ hx))

theorem pairwise_place {R : α → α → Prop} (h : (before ++ a :: after).Pairwise R)
    (hbefore : ∀ x ∈ before, R x a → R x b) (hafter : ∀ y ∈ after, R a y → R b y) :
    (before ++ b :: after).Pairwise R := by
  rw [List.pairwise_append, List.pairwise_cons] at h ⊢
  obtain ⟨hleft, ⟨hcons, hright⟩, hcross⟩ := h
  refine ⟨hleft, ⟨fun y hy => hafter y hy (hcons y hy), hright⟩, fun x hx y hy => ?_⟩
  rcases List.mem_cons.mp hy with rfl | hy
  · exact hbefore x hx (hcross x hx a List.mem_cons_self)
  · exact hcross x hx y (List.mem_cons_of_mem _ hy)

theorem sum_place {f : α → Nat} {k m : Nat} (h : k + f b = f a + m) :
    k + ((before ++ b :: after).map f).sum = ((before ++ a :: after).map f).sum + m := by
  simp only [List.map_append, List.map_cons, List.sum_append, List.sum_cons]
  omega

/-- Where those behind a party have nothing yet, what it adds comes to the end. -/
theorem flatMap_place {f : α → List β} {p : List β} (h : f b = f a ++ p)
    (hafter : p = [] ∨ ∀ y ∈ after, f y = []) :
    (before ++ b :: after).flatMap f = (before ++ a :: after).flatMap f ++ p := by
  simp only [List.flatMap_append, List.flatMap_cons, h, List.append_assoc]
  rcases hafter with rfl | hnone
  · simp
  · rw [List.flatMap_eq_nil_iff.mpr hnone, List.append_nil, List.nil_append]

end

end

section

section
variable {σ τ ι ω : Type}

/-- The answers to calls, one after another. -/
def answers (step : σ → ι → ω × σ) : σ → List ι → List ω
  | _, [] => []
  | s, i :: is => (step s i).1 :: answers step (step s i).2 is

/-- States that are related answer a call alike, and are related after it. -/
structure Simulates (step : σ → ι → ω × σ) (step' : τ → ι → ω × τ) (R : σ → τ → Prop) : Prop where
  answer {s t} : R s t → ∀ i, (step s i).1 = (step' t i).1
  next {s t} : R s t → ∀ i, R (step s i).2 (step' t i).2

theorem Simulates.answers_eq {step : σ → ι → ω × σ} {step' : τ → ι → ω × τ} {R : σ → τ → Prop}
    (h : Simulates step step' R) {s : σ} {t : τ} (hst : R s t) (is : List ι) :
    answers step s is = answers step' t is := by
  induction is generalizing s t with
  | nil => rfl
  | cons i is ih => rw [answers, answers, h.answer hst i, ih (h.next hst i)]

/-- States that are related answer a call as the other machine answers some call like it. -/
structure Follows {κ : Type} (step : σ → ι → ω × σ) (step' : τ → κ → ω × τ) (Like : ι → κ → Prop)
    (R : σ → τ → Prop) : Prop where
  next {s t} : R s t → ∀ i, ∃ k, Like i k ∧ (step s i).1 = (step' t k).1 ∧
    R (step s i).2 (step' t k).2

theorem Follows.answers_eq {κ : Type} {step : σ → ι → ω × σ} {step' : τ → κ → ω × τ}
    {Like : ι → κ → Prop} {R : σ → τ → Prop} (h : Follows step step' Like R) {s : σ} {t : τ}
    (hst : R s t) (is : List ι) :
    ∃ ks, List.Forall₂ Like is ks ∧ answers step s is = answers step' t ks := by
  induction is generalizing s t with
  | nil => exact ⟨[], .nil, rfl⟩
  | cons i is ih =>
    obtain ⟨k, like, answer, next⟩ := h.next hst i
    obtain ⟨ks, likes, hanswers⟩ := ih next
    exact ⟨k :: ks, .cons like likes, by rw [answers, answers, answer, hanswers]⟩

end

end

end Ecco9.Library
