import Ecco9.Library.Heaps
import Ecco9.Library.Merging
import Mathlib.Logic.Relation
import Ecco9.Library.Runs

/-! Merging runs one pair at a time, always the leftmost of the best; what the queue of candidates makes
of the runs is that. -/

namespace Ecco9.Library.LinkedRuns

variable {α κ : Type}

/-- The pair may be merged, with this key. -/
def Rules.Mergeable (R : Rules α κ) (key : κ) (x y : List α) : Prop :=
  R.pairwise x y = some key ∧ R.accepts key x y = true

section
variable (R : Rules α κ) (before : κ → κ → Bool)

/-- No pair comes before this one, and this one before all that stand further left. -/
structure Best (L : List (List α)) (x y : List α) (rest : List (List α)) (key : κ) : Prop where
  mergeable : R.Mergeable key x y
  first : ∀ L' x' y' rest' key', L ++ x :: y :: rest = L' ++ x' :: y' :: rest' →
    R.Mergeable key' x' y' →
      before key' key = false ∧ (L'.length < L.length → before key key' = true)

/-- The best pair is merged again and again, until no pair is left that may be. -/
inductive Merged : List (List α) → List (List α) → Prop
  | done {runs} : (∀ L x y rest key, runs = L ++ x :: y :: rest → ¬R.Mergeable key x y) →
      Merged runs runs
  | merge {L x y rest key result} : Best R before L x y rest key →
      Merged (L ++ (x ++ y) :: rest) result → Merged (L ++ x :: y :: rest) result

/-- Of candidates with keys of which neither comes before the other, the first is the one on the
left. -/
def precedes (c d : Candidate κ) : Bool :=
  before c.key d.key || (!before d.key c.key && decide (c.a < d.a))

end

section
variable {R : Rules α κ} {before : κ → κ → Bool}

theorem Best.unique {L L' rest rest' : List (List α)} {x y x' y' : List α} {key key' : κ}
    (h : Best R before L x y rest key) (h' : Best R before L' x' y' rest' key')
    (hsame : L ++ x :: y :: rest = L' ++ x' :: y' :: rest') :
    L = L' ∧ x = x' ∧ y = y' ∧ rest = rest' := by
  obtain ⟨hnot, hleft⟩ := h.first L' x' y' rest' key' hsame h'.mergeable
  obtain ⟨hnot', hleft'⟩ := h'.first L x y rest key hsame.symm h.mergeable
  have hlen : L.length = L'.length := by
    rcases Nat.lt_trichotomy L.length L'.length with hlt | heq | hgt
    · rw [hleft' hlt] at hnot
      cases hnot
    · exact heq
    · rw [hleft hgt] at hnot'
      cases hnot'
  obtain ⟨hL, hrest⟩ := List.append_inj hsame hlen
  rw [List.cons.injEq, List.cons.injEq] at hrest
  exact ⟨hL, hrest⟩

theorem precedes_order (order : HeapOrder before fun _ => True) :
    HeapOrder (precedes before) fun _ => True where
  asymm {c d} h := by
    rw [precedes, Bool.or_eq_true, Bool.and_eq_true, Bool.not_eq_true', decide_eq_true_iff] at h
    rw [precedes, Bool.or_eq_false_iff, Bool.and_eq_false_iff, Bool.not_eq_false',
      decide_eq_false_iff_not]
    rcases h with hcd | ⟨hdc, hlt⟩
    · exact ⟨order.asymm hcd, .inl hcd⟩
    · exact ⟨hdc, .inr hlt.asymm⟩
  trans {x y z} _ hyx hzy := by
    rw [precedes, Bool.or_eq_false_iff, Bool.and_eq_false_iff, Bool.not_eq_false',
      decide_eq_false_iff_not] at hyx hzy ⊢
    refine ⟨order.trans trivial hyx.1 hzy.1, ?_⟩
    cases hxz : before x.key z.key with
    | true => exact .inl rfl
    | false =>
      -- none of the three keys comes before another
      have hxy := order.trans trivial hzy.1 hxz
      have hyz := order.trans trivial hxz hyx.1
      rw [hxy] at hyx
      rw [hyz] at hzy
      have := hyx.2.resolve_left Bool.false_ne_true
      have := hzy.2.resolve_left Bool.false_ne_true
      exact .inr (by omega)

/-- There is one result. -/
theorem Merged.unique {runs result result' : List (List α)} (h : Merged R before runs result)
    (h' : Merged R before runs result') : result = result' := by
  induction h with
  | done hnone =>
    cases h' with
    | done _ => rfl
    | merge hbest _ => exact absurd hbest.mergeable (hnone _ _ _ _ _ rfl)
  | @merge L x y rest key result hbest _ ih =>
    generalize hruns : L ++ x :: y :: rest = runs at h'
    cases h' with
    | done hnone => exact absurd hbest.mergeable (hnone _ _ _ _ _ hruns.symm)
    | merge hbest' hrest' =>
      obtain ⟨rfl, rfl, rfl, rfl⟩ := hbest.unique hbest' hruns
      exact ih hrest'

end

/-! ### The loop, turn by turn -/

section
variable (R : Rules α κ) (Q : Queue (Candidate κ))

def Turns (s t : List (Node α) × Q.Carrier) : Prop := turn R Q s.1 s.2 = some t

def begun (rs : List (List α)) : List (Node α) × Q.Carrier := (start rs, startQueue R Q (start rs))

/-- What a candidate was made for: if its runs are still there, the first of them is as it was, and the
second begins with what it was. -/
structure MadeFor (old ms : List (Node α)) (c : Candidate κ) : Prop where
  made : candidate R old c.a c.b = some c
  left : Live ms c.a → Live ms c.b → (node old c.a).runes = (node ms c.a).runes
  right : Live ms c.a → Live ms c.b → (node old c.b).runes <+: (node ms c.b).runes

/-- The runs of a candidate that is taken up are neighbours, and are what it was made for in a state
before; and they are joined. -/
structure TakenUp (rs : List (List α)) (s t : List (Node α) × Q.Carrier) (c : Candidate κ) : Prop where
  left : Live s.1 c.a
  right : Live s.1 c.b
  adjacent : (node s.1 c.a).n = c.b
  made : ∃ old, Relation.ReflTransGen (Turns R Q) (begun R Q rs) old ∧
    Relation.ReflTransGen (Turns R Q) old s ∧ candidate R old.1 c.a c.b = some c ∧
    (node old.1 c.a).runes = (node s.1 c.a).runes ∧ (node old.1 c.b).runes = (node s.1 c.b).runes
  joined : t.1 = join s.1 c.a c.b

end

section
variable {R : Rules α κ} {before : κ → κ → Bool} {Q : Queue (Candidate κ)} {rs : List (List α)}

theorem Turns.waiting {s t : List (Node α) × Q.Carrier} (h : Turns R Q s t)
    (waiting : Waiting R Q s.1 s.2) : Waiting R Q t.1 t.2 := waiting.turn h

theorem waiting_of_run (hrs : ∀ r ∈ rs, r ≠ []) {s : List (Node α) × Q.Carrier}
    (run : Relation.ReflTransGen (Turns R Q) (begun R Q rs) s) : Waiting R Q s.1 s.2 :=
  run_invariant (I := fun s : List (Node α) × Q.Carrier => Waiting R Q s.1 s.2)
    (fun _ _ waiting h => h.waiting waiting) run (waiting_start hrs)

/-- Each candidate was made in some state of the run, and is of what was there. -/
theorem madeFor_of_run (hrs : ∀ r ∈ rs, r ≠ []) {s : List (Node α) × Q.Carrier}
    (run : Relation.ReflTransGen (Turns R Q) (begun R Q rs) s) :
    ∀ c ∈ Q.elems s.2, ∃ old, Relation.ReflTransGen (Turns R Q) (begun R Q rs) old ∧
      Relation.ReflTransGen (Turns R Q) old s ∧ MadeFor R old.1 s.1 c := by
  induction run with
  | refl =>
    intro c hc
    obtain ⟨i, -, hmade⟩ := mem_startQueue.mp hc
    obtain ⟨ha, hb, -⟩ := candidate_eq_some.mp hmade
    rw [ha, hb] at hmade
    exact ⟨_, .refl, .refl, hmade, fun _ _ => rfl, fun _ _ => List.prefix_refl _⟩
  | @tail s t run hturn ih =>
    have waiting := waiting_of_run hrs run
    -- what is made in this turn is made of what is there
    have hnew {c : Candidate κ} {a : Int} {b : Nat} (hmade : candidate R t.1 a b = some c) :
        ∃ old, Relation.ReflTransGen (Turns R Q) (begun R Q rs) old ∧
          Relation.ReflTransGen (Turns R Q) old t ∧ MadeFor R old.1 t.1 c := by
      obtain ⟨ha, hb, -⟩ := candidate_eq_some.mp hmade
      rw [ha, hb] at hmade
      exact ⟨t, run.tail hturn, .refl, hmade, fun _ _ => rfl, fun _ _ => List.prefix_refl _⟩
    obtain ⟨ms', h'⟩ := t
    obtain ⟨c, h₁, hpop, ⟨rfl, rfl, -⟩ | ⟨ha, hb, -, rfl, rfl⟩⟩ := turn_cases hturn
    · intro d hd
      obtain ⟨old, hbefore, hafter, hmade⟩ := ih d ((Q.mem_pop hpop).mpr (.inr hd))
      exact ⟨old, hbefore, hafter.tail hturn, hmade⟩
    · intro d hd
      rw [Q.mem_pushSome, Q.mem_pushSome] at hd
      rcases hd with hd | hd | hd
      · exact hnew hd
      · exact hnew hd
      · obtain ⟨old, hbefore, hafter, hmade⟩ := ih d ((Q.mem_pop hpop).mpr (.inr hd))
        refine ⟨old, hbefore, hafter.tail hturn, hmade.made, fun hda hdb => ?_, fun hda hdb => ?_⟩
        · obtain ⟨-, hda, hdb, hleft, -⟩ := waiting.old hpop ha hb hd hda hdb
          rw [hmade.left hda hdb, hleft]
        · obtain ⟨-, hda, hdb, -, hright⟩ := waiting.old hpop ha hb hd hda hdb
          exact (hmade.right hda hdb).trans hright

theorem flatten_of_run (hrs : ∀ r ∈ rs, r ≠ []) {s : List (Node α) × Q.Carrier}
    (run : Relation.ReflTransGen (Turns R Q) (begun R Q rs) s) : (runs s.1).flatten = rs.flatten := by
  induction run with
  | refl => rw [begun, runs_start hrs]
  | tail run hturn ih =>
    rcases runs_turn (waiting_of_run hrs run) hturn with hsame | ⟨L, x, y, rest, -, -, heq, heq', -⟩
    · rw [hsame, ih]
    · rw [heq'.trans (by rw [List.append_cons]), ← ih, heq]
      simp

/-! ### Candidates are what they were made for -/

/-- A second run that has grown is noticed, and one that is as it was is not. -/
structure Rules.Exact (R : Rules α κ) (good : α → Prop) : Prop where
  grown : ∀ x y y' key, (∀ c ∈ y', good c) → y <+: y' → R.pairwise x y = some key →
    R.accepts key x y' = true → y = y'
  same : ∀ x y key, R.pairwise x y = some key → R.accepts key x y = true

variable {good : α → Prop}

theorem mem_runs {ms : List (Node α)} {i : Nat} (hi : Live ms i) : (node ms i).runes ∈ runs ms := by
  rw [runs, List.mem_filter]
  refine ⟨?_, by simpa [Live] using hi⟩
  rw [← getD_runes, List.getD_eq_getElem _ _ (by simpa using hi.lt)]
  exact List.getElem_mem _

/-- A turn joins the runs of a candidate that is as it was made, or passes over one that is not. -/
theorem turn_exact (exact : R.Exact good) (hrs : ∀ r ∈ rs, r ≠ []) (hgood : ∀ c ∈ rs.flatten, good c)
    {s t : List (Node α) × Q.Carrier}
    (run : Relation.ReflTransGen (Turns R Q) (begun R Q rs) s) (hturn : Turns R Q s t) :
    ∃ c h₁, Q.pop s.2 = some (c, h₁) ∧
      (TakenUp R Q rs s t c ∧ R.Mergeable c.key (node s.1 c.a).runes (node s.1 c.b).runes ∨
        t = (s.1, h₁) ∧ ¬(Live s.1 c.a ∧ Live s.1 c.b ∧
          R.pairwise (node s.1 c.a).runes (node s.1 c.b).runes = some c.key)) := by
  have waiting := waiting_of_run hrs run
  have hflat := flatten_of_run hrs run
  obtain ⟨ms', h'⟩ := t
  obtain ⟨c, h₁, hpop, ⟨rfl, rfl, hstale⟩ | ⟨ha, hb, haccepts, hjoin, -⟩⟩ := turn_cases hturn
  · refine ⟨c, _, hpop, .inr ⟨rfl, ?_⟩⟩
    rintro ⟨ha, hb, hkey⟩
    exact hstale ⟨ha, hb, exact.same _ _ _ hkey⟩
  · have hc := (Q.mem_pop hpop).mpr (.inl rfl)
    obtain ⟨old, hbefore, hafter, hmade⟩ := madeFor_of_run hrs run c hc
    obtain ⟨-, -, -, hkey⟩ := candidate_eq_some.mp hmade.made
    rw [hmade.left ha hb] at hkey
    have hsame : (node old.1 c.b).runes = (node s.1 c.b).runes := by
      refine exact.grown _ _ _ _ (fun x hx => hgood x ?_) (hmade.right ha hb) hkey haccepts
      rw [← hflat]
      exact List.mem_flatten_of_mem (mem_runs hb) hx
    rw [hsame] at hkey
    exact ⟨c, h₁, hpop, .inl ⟨⟨ha, hb, waiting.next c hc ha hb,
      ⟨old, hbefore, hafter, hmade.made, hmade.left ha hb, hsame⟩, hjoin⟩, hkey, haccepts⟩⟩

/-! ### The best pair -/

theorem length_runsBefore_le {ms : List (Node α)} {i j : Nat} (hij : i ≤ j) :
    (runsBefore ms i).length ≤ (runsBefore ms j).length := by
  unfold runsBefore
  exact ((List.take_sublist_take_left hij).filter _).length_le

/-- What is taken up, if anything is, is the best pair. -/
theorem best_of_turn (hQ : Q.PopsLeast fun c d => precedes before d c = false)
    (irrefl : ∀ key, before key key = false) {ms : List (Node α)}
    {h h₁ : Q.Carrier} {c : Candidate κ} (waiting : Waiting R Q ms h) (hpop : Q.pop h = some (c, h₁))
    (ha : Live ms c.a) (hb : Live ms c.b)
    (hmerge : R.Mergeable c.key (node ms c.a).runes (node ms c.b).runes) :
    ∃ rest, runs ms = runsBefore ms c.a ++ (node ms c.a).runes :: (node ms c.b).runes :: rest ∧
      runs (join ms c.a c.b) =
        runsBefore ms c.a ++ ((node ms c.a).runes ++ (node ms c.b).runes) :: rest ∧
      Best R before (runsBefore ms c.a) (node ms c.a).runes (node ms c.b).runes rest c.key := by
  have hc := (Q.mem_pop hpop).mpr (.inl rfl)
  obtain ⟨rest, hruns, hruns'⟩ := runs_join waiting.linked ha hb (waiting.next c hc ha hb)
  refine ⟨rest, hruns, hruns', hmerge, ?_⟩
  intro L x y rest' key hsame hmergeable
  obtain ⟨a, ha', hn, rfl, rfl, rfl⟩ := waiting.linked.of_runs (hruns.trans hsame)
  have hmem := waiting.complete a ha' hn key hmergeable.1 hmergeable.2
  have hleast : precedes before ⟨a, (node ms a).n, key⟩ c = false := by
    rcases (Q.mem_pop hpop).mp hmem with heq | hmem
    · rw [← heq, precedes, irrefl]
      simp
    · exact hQ h c h₁ hpop _ hmem
  rw [precedes, Bool.or_eq_false_iff, Bool.and_eq_false_iff, Bool.not_eq_false'] at hleast
  refine ⟨hleast.1, fun hlt => hleast.2.resolve_right fun hleft => ?_⟩
  have hle : c.a ≤ a := Nat.le_of_not_lt (of_decide_eq_false hleft)
  exact absurd (length_runsBefore_le hle) (Nat.not_le_of_lt hlt)

/-- The loop ends with an empty queue, and with what is left when the best pair is merged again and
again. -/
theorem mergeAll_merged (exact : R.Exact good) (irrefl : ∀ key, before key key = false)
    (hQ : Q.PopsLeast fun c d => precedes before d c = false) (hrs : ∀ r ∈ rs, r ≠ [])
    (hgood : ∀ c ∈ rs.flatten, good c) :
    Merged R before rs (runs (mergeAll R Q rs)) ∧
      ∃ h, Relation.ReflTransGen (Turns R Q) (begun R Q rs) (mergeAll R Q rs, h) ∧
        turn R Q (mergeAll R Q rs) h = none := by
  obtain ⟨h, waiting, ⟨run, hmerged⟩, hempty⟩ := mergeAll_spec (R := R) (Q := Q)
    (P := fun ms h => Relation.ReflTransGen (Turns R Q) (begun R Q rs) (ms, h) ∧
      ∀ result, Merged R before (runs ms) result → Merged R before rs result) (by
    rintro ms h ms' h' waiting ⟨run, hmerged⟩ hturn
    refine ⟨run.tail hturn, fun result hresult => hmerged result ?_⟩
    obtain ⟨c, h₁, hpop, ⟨taken, hmerge⟩ | ⟨hsame, -⟩⟩ := turn_exact exact hrs hgood run hturn
    · obtain ⟨rest, hruns, hruns', hbest⟩ :=
        best_of_turn hQ irrefl waiting hpop taken.left taken.right hmerge
      have hjoin : ms' = join ms c.a c.b := taken.joined
      rw [hjoin, hruns'] at hresult
      rw [hruns]
      exact .merge hbest hresult
    · obtain rfl : ms' = ms := congrArg Prod.fst hsame
      exact hresult) hrs ⟨.refl, fun result hresult => by rwa [runs_start hrs] at hresult⟩
  refine ⟨hmerged _ (.done fun L x y rest key heq hmerge => ?_), h, run, ?_⟩
  · obtain ⟨a, ha, hn, rfl, rfl, -⟩ := waiting.linked.of_runs heq
    have hmem := waiting.complete a ha hn key hmerge.1 hmerge.2
    rw [hempty] at hmem
    exact absurd hmem (Multiset.notMem_zero _)
  · unfold turn
    cases hpop : Q.pop h with
    | none => rfl
    | some ch =>
      have hcard := Q.card_pop hpop
      rw [hempty, Multiset.card_zero] at hcard
      omega

end

end Ecco9.Library.LinkedRuns
