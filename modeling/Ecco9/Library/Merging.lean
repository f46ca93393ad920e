import Ecco9.Library.LinkedRuns

/-! What the candidates in the queue say of the runs, turn after turn. -/

namespace Ecco9.Library.LinkedRuns

variable {α κ : Type}

section
variable {R : Rules α κ} {Q : Queue (Candidate κ)}

theorem candidate_eq_some {ms : List (Node α)} {a : Int} {b : Nat} {c : Candidate κ} :
    candidate R ms a b = some c ↔ a = c.a ∧ b = c.b ∧ b < ms.length ∧
      R.pairwise (node ms c.a).runes (node ms c.b).runes = some c.key := by
  unfold candidate
  obtain ⟨ca, cb, key⟩ := c
  constructor
  · intro h
    split_ifs at h with hout
    obtain ⟨key', hkey, heq⟩ := Option.map_eq_some_iff.mp h
    obtain ⟨rfl, rfl, rfl⟩ := Candidate.mk.injEq .. ▸ heq
    rw [not_or, Int.not_lt, ge_iff_le, not_le] at hout
    exact ⟨(Int.toNat_of_nonneg hout.1).symm, rfl, hout.2, hkey⟩
  · rintro ⟨rfl, rfl, hb, hkey⟩
    dsimp only at hkey hb ⊢
    rw [if_neg (by omega), Int.toNat_natCast, hkey]
    rfl

/-- A candidate that takes its turn is dropped, or merges its runs. -/
theorem turn_cases {ms ms' : List (Node α)} {h h' : Q.Carrier}
    (hturn : turn R Q ms h = some (ms', h')) :
    ∃ c h₁, Q.pop h = some (c, h₁) ∧
      (ms' = ms ∧ h' = h₁ ∧
          ¬(Live ms c.a ∧ Live ms c.b ∧
            R.accepts c.key (node ms c.a).runes (node ms c.b).runes = true) ∨
        Live ms c.a ∧ Live ms c.b ∧
          R.accepts c.key (node ms c.a).runes (node ms c.b).runes = true ∧
          ms' = join ms c.a c.b ∧
          h' = Q.pushSome (Q.pushSome h₁ (candidate R ms' (node ms' c.a).p c.a))
            (candidate R ms' c.a (node ms' c.a).n)) := by
  unfold turn at hturn
  cases hpop : Q.pop h with
  | none =>
    rw [hpop] at hturn
    cases hturn
  | some ch =>
    obtain ⟨c, h₁⟩ := ch
    rw [hpop] at hturn
    refine ⟨c, h₁, rfl, ?_⟩
    dsimp only at hturn
    split_ifs at hturn with hstale
    · cases hturn
      refine .inl ⟨rfl, rfl, ?_⟩
      rintro ⟨ha, hb, haccepts⟩
      rcases hstale with hstale | hstale | hstale
      · exact ha hstale
      · exact hb hstale
      · rw [haccepts] at hstale
        cases hstale
    · push Not at hstale
      cases hturn
      exact .inr ⟨hstale.1, hstale.2.1, by simpa using hstale.2.2, rfl, rfl⟩

theorem turn_eq_none {ms : List (Node α)} {h : Q.Carrier} (hturn : turn R Q ms h = none) :
    Q.elems h = 0 := by
  apply Q.pop_none
  unfold turn at hturn
  cases hpop : Q.pop h with
  | none => rfl
  | some ch =>
    rw [hpop] at hturn
    dsimp only at hturn
    split_ifs at hturn

variable (R Q) in
/-- Candidates whose runs are still there are of linked runs, the first of which is as it was and the
second may have grown; and no candidate is missing. -/
structure Waiting (ms : List (Node α)) (h : Q.Carrier) : Prop where
  linked : Linked ms
  next : ∀ c ∈ Q.elems h, Live ms c.a → Live ms c.b → (node ms c.a).n = c.b
  made : ∀ c ∈ Q.elems h, Live ms c.a → Live ms c.b →
    ∃ y, y <+: (node ms c.b).runes ∧ R.pairwise (node ms c.a).runes y = some c.key
  complete : ∀ i, Live ms i → Live ms (node ms i).n → ∀ key,
    R.pairwise (node ms i).runes (node ms (node ms i).n).runes = some key →
    R.accepts key (node ms i).runes (node ms (node ms i).n).runes = true →
    ⟨i, (node ms i).n, key⟩ ∈ Q.elems h

theorem mem_startQueue {ms : List (Node α)} {c : Candidate κ} :
    c ∈ Q.elems (startQueue R Q ms) ↔
      ∃ i : Nat, i + 1 < ms.length ∧ candidate R ms i (i + 1) = some c := by
  have hfold (l : List Nat) (h : Q.Carrier) :
      c ∈ Q.elems (l.foldl (fun h (i : Nat) => Q.pushSome h (candidate R ms i (i + 1))) h) ↔
        c ∈ Q.elems h ∨ ∃ i ∈ l, candidate R ms i (i + 1) = some c := by
    induction l generalizing h with
    | nil => simp
    | cons i l ih =>
      rw [List.foldl_cons, ih, Q.mem_pushSome]
      simp only [List.mem_cons, exists_eq_or_imp]
      tauto
  rw [startQueue, hfold, Q.elems_empty]
  simp only [Multiset.notMem_zero, false_or, List.mem_range]
  refine exists_congr fun i => and_congr_left fun _ => ?_
  omega

theorem waiting_start {runs : List (List α)} (hruns : ∀ r ∈ runs, r ≠ []) :
    Waiting R Q (start runs) (startQueue R Q (start runs)) where
  linked := linked_start hruns
  next c hc ha hb := by
    obtain ⟨i, hi, hcand⟩ := mem_startQueue.mp hc
    obtain ⟨hca, hcb, -, -⟩ := candidate_eq_some.mp hcand
    rw [node_start runs _ (by simpa using ha.lt), ← hcb]
    dsimp only
    omega
  made c hc ha hb := by
    obtain ⟨i, hi, hcand⟩ := mem_startQueue.mp hc
    obtain ⟨-, -, -, hkey⟩ := candidate_eq_some.mp hcand
    exact ⟨_, List.prefix_refl _, hkey⟩
  complete i hi hn key hkey _ := by
    have hnode := node_start runs i (by simpa using hi.lt)
    have hlt := hn.lt
    rw [hnode] at hlt hkey ⊢
    refine mem_startQueue.mpr ⟨i, hlt, candidate_eq_some.mpr ⟨rfl, rfl, hlt, ?_⟩⟩
    dsimp only at hkey ⊢
    rwa [hnode]

theorem Waiting.drop {ms : List (Node α)} {h h₁ : Q.Carrier} {c : Candidate κ}
    (waiting : Waiting R Q ms h) (hpop : Q.pop h = some (c, h₁))
    (hstale : ¬(Live ms c.a ∧ Live ms c.b ∧
      R.accepts c.key (node ms c.a).runes (node ms c.b).runes = true)) :
    Waiting R Q ms h₁ where
  linked := waiting.linked
  next d hd := waiting.next d ((Q.mem_pop hpop).mpr (.inr hd))
  made d hd := waiting.made d ((Q.mem_pop hpop).mpr (.inr hd))
  complete i hi hn key hkey haccepts := by
    refine ((Q.mem_pop hpop).mp (waiting.complete i hi hn key hkey haccepts)).resolve_left ?_
    rintro rfl
    exact hstale ⟨hi, hn, haccepts⟩

/-- What a merge leaves of a candidate that was there before: it does not begin with the run that has
grown, and its second run may be the one. -/
theorem Waiting.old {ms : List (Node α)} {h h₁ : Q.Carrier} {c d : Candidate κ}
    (waiting : Waiting R Q ms h) (hpop : Q.pop h = some (c, h₁)) (ha : Live ms c.a)
    (hb : Live ms c.b) (hd : d ∈ Q.elems h₁) (hda : Live (join ms c.a c.b) d.a)
    (hdb : Live (join ms c.a c.b) d.b) :
    d.a ≠ c.a ∧ Live ms d.a ∧ Live ms d.b ∧
      (node (join ms c.a c.b) d.a).runes = (node ms d.a).runes ∧
      (node ms d.b).runes <+: (node (join ms c.a c.b) d.b).runes := by
  have linked := waiting.linked
  have hab := waiting.next c ((Q.mem_pop hpop).mpr (.inl rfl)) ha hb
  obtain ⟨hda, hda'⟩ := (linked.live_join ha hb hab).mp hda
  obtain ⟨hdb, hdb'⟩ := (linked.live_join ha hb hab).mp hdb
  have hne : d.a ≠ c.a := by
    intro heq
    have hnext := waiting.next d ((Q.mem_pop hpop).mpr (.inr hd)) hda hdb
    rw [heq, hab] at hnext
    exact hdb' hnext.symm
  refine ⟨hne, hda, hdb, ?_, ?_⟩
  · rw [linked.node_join ha hb hab, if_neg hne, if_neg hda']
    split_ifs <;> rfl
  · rw [linked.node_join ha hb hab]
    split_ifs with hdbc
    · rw [hdbc]
      exact List.prefix_append ..
    · exact List.prefix_refl _
    · exact List.prefix_refl _

theorem Waiting.merge {ms : List (Node α)} {h h₁ : Q.Carrier} {c : Candidate κ}
    (waiting : Waiting R Q ms h) (hpop : Q.pop h = some (c, h₁)) (ha : Live ms c.a)
    (hb : Live ms c.b) {ms' : List (Node α)} (hms' : ms' = join ms c.a c.b) :
    Waiting R Q ms' (Q.pushSome (Q.pushSome h₁ (candidate R ms' (node ms' c.a).p c.a))
      (candidate R ms' c.a (node ms' c.a).n)) := by
  have linked := waiting.linked
  have hab := waiting.next c ((Q.mem_pop hpop).mpr (.inl rfl)) ha hb
  have hlt := linked.lt ha hab
  have hlive {j : Nat} := linked.live_join ha hb hab (j := j)
  have hn {j : Nat} := linked.n_join ha hb hab (j := j)
  have hruns (j : Nat) (hj : j ≠ c.a) (hj' : j ≠ c.b) :
      (node (join ms c.a c.b) j).runes = (node ms j).runes := by
    rw [linked.node_join ha hb hab, if_neg hj, if_neg hj']
    split_ifs <;> rfl
  have hold {d : Candidate κ} := waiting.old hpop ha hb (d := d)
  rw [← hms'] at hlive hn hruns
  have hlinked' : Linked ms' := hms' ▸ linked.join ha hb hab
  have hnew (d : Candidate κ) {p : Int} {n : Nat} (hd : candidate R ms' p n = some d)
      (hpn : ∀ i : Nat, p = i → Live ms' i → (node ms' i).n = n) (hda : Live ms' d.a) :
      (node ms' d.a).n = d.b ∧
        ∃ y, y <+: (node ms' d.b).runes ∧ R.pairwise (node ms' d.a).runes y = some d.key := by
    obtain ⟨hp, hn, -, hkey⟩ := candidate_eq_some.mp hd
    exact ⟨(hpn d.a hp hda).trans hn, _, List.prefix_refl _, hkey⟩
  -- the run before the merged one is linked to it
  have hprev (i : Nat) (hp : (node ms' c.a).p = i) (hi : Live ms' i) : (node ms' i).n = c.a := by
    have ha' : Live ms' c.a := hlive.mpr ⟨ha, hlt.ne⟩
    rcases hlinked'.prev c.a ha' with hfirst | ⟨j, hj, -, hnj⟩
    · rw [hfirst] at hp
      omega
    · rw [hp] at hj
      rwa [Int.natCast_inj.mp hj]
  have hself (i : Nat) (hp : ((c.a : Nat) : Int) = i) (_ : Live ms' i) :
      (node ms' i).n = (node ms' c.a).n := by
    rw [Int.natCast_inj.mp hp]
  refine ⟨hlinked', ?_, ?_, ?_⟩
  · intro d hd hda hdb
    rw [Q.mem_pushSome, Q.mem_pushSome] at hd
    rcases hd with hd | hd | hd
    · exact (hnew d hd hself hda).1
    · exact (hnew d hd hprev hda).1
    · rw [hms'] at hda hdb
      obtain ⟨hne, hda, hdb, -⟩ := hold hd hda hdb
      rw [hn, if_neg hne, waiting.next d ((Q.mem_pop hpop).mpr (.inr hd)) hda hdb]
  · intro d hd hda hdb
    rw [Q.mem_pushSome, Q.mem_pushSome] at hd
    rcases hd with hd | hd | hd
    · exact (hnew d hd hself hda).2
    · exact (hnew d hd hprev hda).2
    · rw [hms'] at hda hdb ⊢
      obtain ⟨-, hda, hdb, hleft, hright⟩ := hold hd hda hdb
      obtain ⟨y, hy, hkey⟩ := waiting.made d ((Q.mem_pop hpop).mpr (.inr hd)) hda hdb
      exact ⟨y, hy.trans hright, by rwa [hleft]⟩
  · intro i hi hni key hkey haccepts
    rw [Q.mem_pushSome, Q.mem_pushSome]
    by_cases hia : i = c.a
    · subst hia
      exact .inl (candidate_eq_some.mpr ⟨rfl, rfl, hni.lt, hkey⟩)
    · by_cases hin : (node ms' i).n = c.a
      · -- the run before
        refine .inr (.inl (candidate_eq_some.mpr ⟨?_, hin.symm, ?_, hkey⟩))
        · rcases hlinked'.next i hi with hlast | ⟨-, hback⟩
          · exact absurd hlast hni.lt.ne
          · rw [← hin]
            exact hback
        · rw [← hin]
          exact hni.lt
      · obtain ⟨hi, hib⟩ := hlive.mp hi
        obtain ⟨hni', hnib⟩ := hlive.mp hni
        have hsame : (node ms' i).n = (node ms i).n := by rw [hn, if_neg hia]
        rw [hruns i hia hib, hruns _ hin hnib, hsame] at hkey haccepts
        rw [hsame] at hni' ⊢
        refine .inr (.inr (((Q.mem_pop hpop).mp
          (waiting.complete i hi hni' key hkey haccepts)).resolve_left ?_))
        rintro rfl
        exact hia rfl

theorem Waiting.turn {ms ms' : List (Node α)} {h h' : Q.Carrier} (waiting : Waiting R Q ms h)
    (hturn : turn R Q ms h = some (ms', h')) : Waiting R Q ms' h' := by
  obtain ⟨c, h₁, hpop, ⟨rfl, rfl, hstale⟩ | ⟨ha, hb, -, hms', rfl⟩⟩ := turn_cases hturn
  · exact waiting.drop hpop hstale
  · exact waiting.merge hpop ha hb hms'

/-- What a turn of the loop does to the runs. -/
theorem runs_turn {ms ms' : List (Node α)} {h h' : Q.Carrier} (waiting : Waiting R Q ms h)
    (hturn : LinkedRuns.turn R Q ms h = some (ms', h')) :
    LinkedRuns.runs ms' = LinkedRuns.runs ms ∨
      ∃ L x y rest y' key, LinkedRuns.runs ms = L ++ x :: y :: rest ∧
        LinkedRuns.runs ms' = L ++ (x ++ y) :: rest ∧ y' <+: y ∧
        R.pairwise x y' = some key ∧ R.accepts key x y = true := by
  obtain ⟨c, h₁, hpop, ⟨rfl, -, -⟩ | ⟨ha, hb, haccepts, rfl, -⟩⟩ := LinkedRuns.turn_cases hturn
  · exact .inl rfl
  · have hc := (Q.mem_pop hpop).mpr (.inl rfl)
    obtain ⟨rest, hruns, hruns'⟩ :=
      LinkedRuns.runs_join waiting.linked ha hb (waiting.next c hc ha hb)
    obtain ⟨y', hy', hkey⟩ := waiting.made c hc ha hb
    exact .inr ⟨_, _, _, rest, y', c.key, hruns, hruns', hy', hkey, haccepts⟩

/-! ### Whole runs of the loop -/

/-- What the queue and the runs still allow. -/
def measure (ms : List (Node α)) (h : Q.Carrier) : Nat :=
  Multiset.card (Q.elems h) + 2 * (runs ms).length

theorem measure_turn {ms ms' : List (Node α)} {h h' : Q.Carrier} (waiting : Waiting R Q ms h)
    (hturn : LinkedRuns.turn R Q ms h = some (ms', h')) :
    measure (Q := Q) ms' h' < measure (Q := Q) ms h := by
  obtain ⟨c, h₁, hpop, ⟨rfl, rfl, -⟩ | ⟨ha, hb, -, hms', rfl⟩⟩ := turn_cases hturn
  · rw [measure, measure, Q.card_pop hpop]
    omega
  · have hab := waiting.next c ((Q.mem_pop hpop).mpr (.inl rfl)) ha hb
    obtain ⟨rest, hruns, hruns'⟩ := runs_join waiting.linked ha hb hab
    rw [← hms'] at hruns'
    have hcard := Q.card_pushSome_le (Q.pushSome h₁ (candidate R ms' (node ms' c.a).p c.a))
      (candidate R ms' c.a (node ms' c.a).n)
    have hcard' := Q.card_pushSome_le h₁ (candidate R ms' (node ms' c.a).p c.a)
    have hpopped := Q.card_pop hpop
    rw [measure, measure, hruns, hruns']
    simp only [List.length_append, List.length_cons]
    omega

/-- The loop ends with an empty queue, in a state that every turn has led to. -/
theorem loop_spec {P : List (Node α) → Q.Carrier → Prop}
    (step : ∀ ms h ms' h', Waiting R Q ms h → P ms h →
      LinkedRuns.turn R Q ms h = some (ms', h') → P ms' h')
    {fuel : Nat} {ms : List (Node α)} {h : Q.Carrier} (waiting : Waiting R Q ms h) (hP : P ms h)
    (hfuel : measure (Q := Q) ms h < fuel) :
    ∃ h', Waiting R Q (loop R Q fuel ms h) h' ∧ P (loop R Q fuel ms h) h' ∧ Q.elems h' = 0 := by
  induction fuel generalizing ms h with
  | zero => omega
  | succ fuel ih =>
    rw [loop]
    cases hturn : LinkedRuns.turn R Q ms h with
    | none => exact ⟨h, waiting, hP, turn_eq_none hturn⟩
    | some msh =>
      obtain ⟨ms', h'⟩ := msh
      have hless := measure_turn waiting hturn
      exact ih (waiting.turn hturn) (step ms h ms' h' waiting hP hturn) (by omega)

theorem card_startQueue_lt {runs : List (List α)} (hruns : runs ≠ []) :
    Multiset.card (Q.elems (startQueue R Q (start runs))) < runs.length := by
  have hfold (l : List Nat) (h : Q.Carrier) :
      Multiset.card (Q.elems (l.foldl (fun h (i : Nat) =>
        Q.pushSome h (candidate R (start runs) i (i + 1))) h)) ≤
          Multiset.card (Q.elems h) + l.length := by
    induction l generalizing h with
    | nil => exact Nat.le_refl _
    | cons i l ih =>
      have := ih (Q.pushSome h (candidate R (start runs) i (i + 1)))
      have := Q.card_pushSome_le h (candidate R (start runs) i (i + 1))
      rw [List.foldl_cons, List.length_cons]
      omega
  have hle := hfold (List.range ((start runs).length - 1)) Q.empty
  have hpos := List.length_pos_iff.mpr hruns
  rw [Q.elems_empty, List.length_range, length_start] at hle
  simp only [Multiset.card_zero] at hle
  rw [startQueue, length_start]
  omega

theorem runs_start {runs : List (List α)} (hruns : ∀ r ∈ runs, r ≠ []) :
    LinkedRuns.runs (start runs) = runs := by
  have hmap : (start runs).map Node.runes = runs := by
    apply List.ext_getElem (by simp)
    intro i hi hi'
    simp [start]
  rw [LinkedRuns.runs, hmap, List.filter_eq_self]
  simpa using hruns

theorem mergeAll_spec {P : List (Node α) → Q.Carrier → Prop}
    (step : ∀ ms h ms' h', Waiting R Q ms h → P ms h →
      LinkedRuns.turn R Q ms h = some (ms', h') → P ms' h')
    {rs : List (List α)} (hrs : ∀ r ∈ rs, r ≠ [])
    (hP : P (start rs) (startQueue R Q (start rs))) :
    ∃ h, Waiting R Q (mergeAll R Q rs) h ∧ P (mergeAll R Q rs) h ∧ Q.elems h = 0 := by
  cases rs with
  | nil => exact ⟨_, waiting_start hrs, hP, Q.elems_empty⟩
  | cons r rs =>
    apply loop_spec step (waiting_start hrs) hP
    have := card_startQueue_lt (R := R) (Q := Q) (List.cons_ne_nil r rs)
    rw [measure, runs_start hrs]
    omega

end

end Ecco9.Library.LinkedRuns
