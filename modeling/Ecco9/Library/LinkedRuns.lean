import Ecco9.Library.Queue
import Mathlib.Data.List.Basic
import Mathlib.Data.List.GetD

/-! Runs of symbols that are merged pairwise: the runs stand in an array and are linked to their
neighbours, and the pairs that may be merged wait in a queue, where merges leave outdated ones. -/

namespace Ecco9.Library.LinkedRuns

/-- A run, and where the runs before and behind it stand; a merged run is empty. -/
structure Node (α : Type) where
  p : Int
  n : Nat
  runes : List α

/-- A pair of runs, and what was found for them. -/
structure Candidate (κ : Type) where
  a : Nat
  b : Nat
  key : κ
  deriving DecidableEq

/-- Which runs are candidates, and whether a candidate still is what it was when its turn comes. -/
structure Rules (α κ : Type) where
  pairwise : List α → List α → Option κ
  accepts : κ → List α → List α → Bool

variable {α κ : Type}

def node (ms : List (Node α)) (i : Nat) : Node α := ms.getD i ⟨-1, 0, []⟩

def start (runs : List (List α)) : List (Node α) :=
  runs.mapIdx fun i r => ⟨(i : Int) - 1, i + 1, r⟩

def join (ms : List (Node α)) (a b : Nat) : List (Node α) :=
  let left := node ms a
  let right := node ms b
  let ms := ms.set a { left with runes := left.runes ++ right.runes }
  let ms := ms.set b { right with runes := [] }
  let ms := ms.set a { node ms a with n := right.n }
  if right.n < ms.length then ms.set right.n { node ms right.n with p := a } else ms

def candidate (R : Rules α κ) (ms : List (Node α)) (a : Int) (b : Nat) : Option (Candidate κ) :=
  if a < 0 ∨ b ≥ ms.length then none
  else
    (R.pairwise (node ms a.toNat).runes (node ms b).runes).map fun key => ⟨a.toNat, b, key⟩

section
variable (R : Rules α κ) (Q : Queue (Candidate κ))

def startQueue (ms : List (Node α)) : Q.Carrier :=
  (List.range (ms.length - 1)).foldl
    (fun h (i : Nat) => Q.pushSome h (candidate R ms i (i + 1))) Q.empty

/-- One turn, unless the queue is empty. -/
def turn (ms : List (Node α)) (h : Q.Carrier) : Option (List (Node α) × Q.Carrier) :=
  match Q.pop h with
  | none => none
  | some (c, h) =>
    let left := node ms c.a
    let right := node ms c.b
    if left.runes = [] ∨ right.runes = [] ∨ R.accepts c.key left.runes right.runes = false then
      some (ms, h)
    else
      let ms := join ms c.a c.b
      let h := Q.pushSome h (candidate R ms (node ms c.a).p c.a)
      let h := Q.pushSome h (candidate R ms c.a (node ms c.a).n)
      some (ms, h)

def loop : Nat → List (Node α) → Q.Carrier → List (Node α)
  | 0, ms, _ => ms
  | fuel + 1, ms, h =>
    match turn R Q ms h with
    | none => ms
    | some (ms, h) => loop fuel ms h

/-- All merges. Each turn takes a pair off the queue; one that merges puts in two at most, and there
is one run less. -/
def mergeAll (runs : List (List α)) : List (Node α) :=
  loop R Q (3 * runs.length) (start runs) (startQueue R Q (start runs))

end

/-- The runs that are left. -/
def runs (ms : List (Node α)) : List (List α) := (ms.map Node.runes).filter (· ≠ [])

/-! ### Nodes -/

def Live (ms : List (Node α)) (i : Nat) : Prop := (node ms i).runes ≠ []

theorem Live.lt {ms : List (Node α)} {i : Nat} (h : Live ms i) : i < ms.length := by
  by_contra hi
  apply h
  rw [node, List.getD_eq_default _ _ (Nat.le_of_not_lt hi)]

theorem node_set (ms : List (Node α)) (i j : Nat) (x : Node α) :
    node (ms.set i x) j = if i = j ∧ j < ms.length then x else node ms j := by
  unfold node
  rw [List.getD_eq_getElem?_getD, List.getD_eq_getElem?_getD, List.getElem?_set]
  by_cases hij : i = j
  · subst hij
    by_cases hi : i < ms.length
    · simp [hi]
    · simp [hi]
  · simp [hij]

@[simp] theorem length_join (ms : List (Node α)) (a b : Nat) :
    (join ms a b).length = ms.length := by
  unfold join
  dsimp only
  split <;> simp

/-- What a merge does to every node. -/
theorem node_join {ms : List (Node α)} {a b : Nat} (ha : a < ms.length) (hb : b < ms.length)
    (hab : a < b) (hn : b < (node ms b).n) (j : Nat) :
    node (join ms a b) j =
      if j = a then ⟨(node ms a).p, (node ms b).n, (node ms a).runes ++ (node ms b).runes⟩
      else if j = b then { node ms b with runes := [] }
      else if j = (node ms b).n ∧ j < ms.length then { node ms j with p := a }
      else node ms j := by
  have hne : a ≠ b := hab.ne
  have hna : (node ms b).n ≠ a := by omega
  have hnb : (node ms b).n ≠ b := by omega
  unfold join
  dsimp only
  by_cases hlast : (node ms b).n < ms.length
  · rw [if_pos (by simpa using hlast)]
    simp only [node_set, List.length_set]
    by_cases hja : j = a
    · subst hja
      simp [hna, hne.symm, ha]
    · by_cases hjb : j = b
      · subst hjb
        simp [hnb, hne, hb, hja]
      · by_cases hjn : j = (node ms b).n
        · subst hjn
          simp [hlast, hja, hjb, Ne.symm hja, Ne.symm hjb]
        · simp [hja, hjb, hjn, Ne.symm hja, Ne.symm hjb, Ne.symm hjn]
  · rw [if_neg (by simpa using hlast)]
    simp only [node_set, List.length_set]
    by_cases hja : j = a
    · subst hja
      simp [hne.symm, ha]
    · by_cases hjb : j = b
      · subst hjb
        simp [hb, hja, Ne.symm hja]
      · have hjn : ¬(j = (node ms b).n ∧ j < ms.length) := by
          rintro ⟨rfl, h⟩
          exact hlast h
        simp [hja, hjb, hjn, Ne.symm hja, Ne.symm hjb]

theorem node_start (runs : List (List α)) (i : Nat) (hi : i < runs.length) :
    node (start runs) i = ⟨(i : Int) - 1, i + 1, runs.getD i []⟩ := by
  rw [node, List.getD_eq_getElem _ _ (by simpa [start] using hi), List.getD_eq_getElem _ _ hi]
  simp [start]

@[simp] theorem length_start (runs : List (List α)) : (start runs).length = runs.length := by
  simp [start]

/-- The live nodes are linked to their neighbours. -/
structure Linked (ms : List (Node α)) : Prop where
  after : ∀ i, Live ms i → i < (node ms i).n
  next : ∀ i, Live ms i → (node ms i).n = ms.length ∨
    Live ms (node ms i).n ∧ (node ms (node ms i).n).p = i
  prev : ∀ i, Live ms i → (node ms i).p = -1 ∨
    ∃ j : Nat, (node ms i).p = j ∧ Live ms j ∧ (node ms j).n = i
  between : ∀ i, Live ms i → ∀ k, i < k → k < (node ms i).n → ¬Live ms k

theorem linked_start {runs : List (List α)} (h : ∀ r ∈ runs, r ≠ []) : Linked (start runs) := by
  have hlive {i : Nat} (hi : i < runs.length) : Live (start runs) i := by
    rw [Live, node_start runs i hi, List.getD_eq_getElem _ _ hi]
    exact h _ (List.getElem_mem hi)
  have hlt {i : Nat} (hi : Live (start runs) i) : i < runs.length := by
    simpa using hi.lt
  refine ⟨?_, ?_, ?_, ?_⟩
  · intro i hi
    rw [node_start runs i (hlt hi)]
    exact Nat.lt_succ_self i
  · intro i hi
    rw [node_start runs i (hlt hi)]
    dsimp only
    by_cases hlast : i + 1 < runs.length
    · refine .inr ⟨hlive hlast, ?_⟩
      rw [node_start runs _ hlast]
      dsimp only
      omega
    · have := hlt hi
      rw [length_start]
      omega
  · intro i hi
    rw [node_start runs i (hlt hi)]
    dsimp only
    cases i with
    | zero => exact .inl rfl
    | succ i =>
      have hi' : i < runs.length := by
        have := hlt hi
        omega
      refine .inr ⟨i, by omega, hlive hi', ?_⟩
      rw [node_start runs i hi']
  · intro i hi k hk hk'
    rw [node_start runs i (hlt hi)] at hk'
    dsimp only at hk'
    omega

section
variable {ms : List (Node α)} (linked : Linked ms) {a b : Nat} (ha : Live ms a)
  (hb : Live ms b) (hab : (node ms a).n = b)
include linked ha hab

theorem Linked.lt : a < b := hab ▸ linked.after a ha

include hb

theorem Linked.node_join (j : Nat) :
    node (join ms a b) j =
      if j = a then ⟨(node ms a).p, (node ms b).n, (node ms a).runes ++ (node ms b).runes⟩
      else if j = b then { node ms b with runes := [] }
      else if j = (node ms b).n ∧ j < ms.length then { node ms j with p := a }
      else node ms j :=
  LinkedRuns.node_join ha.lt hb.lt (linked.lt ha hab) (linked.after b hb) j

theorem Linked.live_join {j : Nat} : Live (join ms a b) j ↔ Live ms j ∧ j ≠ b := by
  have hlt := linked.lt ha hab
  rw [Live, linked.node_join ha hb hab]
  split_ifs with hja hjb hjn
  · subst hja
    have := ha
    rw [Live] at this
    simp [this, ha, hlt.ne]
  · simp [hjb]
  · exact ⟨fun h => ⟨h, hjb⟩, fun h => h.1⟩
  · exact ⟨fun h => ⟨h, hjb⟩, fun h => h.1⟩

theorem Linked.n_join {j : Nat} :
    (node (join ms a b) j).n = if j = a then (node ms b).n else (node ms j).n := by
  rw [linked.node_join ha hb hab]
  split_ifs with hja hjb hjn
  · rfl
  · rw [hjb]
  · rfl
  · rfl

theorem Linked.p_join {j : Nat} :
    (node (join ms a b) j).p =
      if j = (node ms b).n ∧ j < ms.length then (a : Int) else (node ms j).p := by
  have hlt := linked.lt ha hab
  have hafter := linked.after b hb
  rw [linked.node_join ha hb hab]
  split_ifs with hja hjn hjb hjn hjn
  · omega
  · rw [hja]
  · omega
  · rw [hjb]
  · rfl
  · rfl

/-- Only the run before a live one is linked to it. -/
theorem Linked.n_inj {j : Nat} (hj : Live ms j) (h : (node ms j).n = b) : j = a := by
  have hj' := (linked.next j hj).resolve_left (by rw [h]; exact hb.lt.ne)
  have ha' := (linked.next a ha).resolve_left (by rw [hab]; exact hb.lt.ne)
  rw [h] at hj'
  rw [hab] at ha'
  have := hj'.2.symm.trans ha'.2
  omega

theorem Linked.join : Linked (join ms a b) := by
  have hlt := linked.lt ha hab
  have hafter := linked.after b hb
  have hlive {j : Nat} := linked.live_join ha hb hab (j := j)
  have hn {j : Nat} := linked.n_join ha hb hab (j := j)
  have hp {j : Nat} := linked.p_join ha hb hab (j := j)
  refine ⟨?_, ?_, ?_, ?_⟩
  · intro i hi
    rw [hn]
    split_ifs with hia
    · omega
    · exact linked.after i (hlive.mp hi).1
  · intro i hi
    obtain ⟨hi, hib⟩ := hlive.mp hi
    rw [hn, length_join]
    split_ifs with hia
    · rcases linked.next b hb with hlast | ⟨hnext, -⟩
      · exact .inl hlast
      · refine .inr ⟨hlive.mpr ⟨hnext, hafter.ne'⟩, ?_⟩
        rw [hp, if_pos ⟨rfl, hnext.lt⟩, hia]
    · rcases linked.next i hi with hlast | ⟨hnext, hback⟩
      · exact .inl hlast
      · refine .inr ⟨hlive.mpr ⟨hnext, fun h => hia (linked.n_inj ha hb hab hi h)⟩, ?_⟩
        rw [hp, if_neg, hback]
        rintro ⟨h, -⟩
        -- two runs before the same one
        have hb' := (linked.next b hb).resolve_left (by rw [← h]; exact hnext.lt.ne)
        rw [← h, hback] at hb'
        have := hb'.2
        omega
  · intro i hi'
    obtain ⟨hi, hib⟩ := hlive.mp hi'
    clear hi'
    rw [hp]
    split_ifs with hin
    · exact .inr ⟨a, rfl, hlive.mpr ⟨ha, hlt.ne⟩, by rw [hn, if_pos rfl, hin.1]⟩
    · rcases linked.prev i hi with hfirst | ⟨j, hj, hlivej, hnj⟩
      · exact .inl hfirst
      · refine .inr ⟨j, hj, hlive.mpr ⟨hlivej, ?_⟩, ?_⟩
        · rintro rfl
          exact hin ⟨hnj.symm, hi.lt⟩
        · rw [hn, if_neg, hnj]
          rintro rfl
          exact hib (hnj.symm.trans hab)
  · intro i hi k hik hk
    obtain ⟨hi, hib⟩ := hlive.mp hi
    rw [hn] at hk
    rw [hlive, not_and, not_not]
    intro hlivek
    split_ifs at hk with hia
    · by_contra hkb
      rcases Nat.lt_or_gt_of_ne hkb with hkb | hkb
      · exact linked.between a ha k (by omega) (by omega) hlivek
      · exact linked.between b hb k hkb hk hlivek
    · exact absurd hlivek (linked.between i hi k hik hk)

end

/-! ### The runs in order -/

theorem filter_first {rs : List (List α)} {b : Nat} (hb : rs.getD b [] ≠ [])
    (h : ∀ k < b, rs.getD k [] = []) :
    rs.filter (· ≠ []) = rs.getD b [] :: (rs.set b []).filter (· ≠ []) := by
  induction rs generalizing b with
  | nil => simp at hb
  | cons r rs ih =>
    cases b with
    | zero =>
      simp only [List.getD_cons_zero] at hb ⊢
      simp [hb]
    | succ b =>
      have hr : r = [] := h 0 (Nat.zero_lt_succ _)
      simp only [List.getD_cons_succ] at hb ⊢
      have hrest := ih hb fun k hk => h (k + 1) (Nat.succ_lt_succ hk)
      simpa [hr] using hrest

/-- Two runs with none between them stand next to each other, and are replaced by what they make. -/
theorem filter_pair {rs : List (List α)} {a b : Nat} (ha : rs.getD a [] ≠ [])
    (hb : rs.getD b [] ≠ []) (hab : a < b) (h : ∀ k, a < k → k < b → rs.getD k [] = []) :
    ∃ R, rs.filter (· ≠ []) =
        (rs.take a).filter (· ≠ []) ++ rs.getD a [] :: rs.getD b [] :: R ∧
      ((rs.set a (rs.getD a [] ++ rs.getD b [])).set b []).filter (· ≠ []) =
        (rs.take a).filter (· ≠ []) ++ (rs.getD a [] ++ rs.getD b []) :: R := by
  induction rs generalizing a b with
  | nil => simp at ha
  | cons r rs ih =>
    cases b with
    | zero => omega
    | succ b =>
      cases a with
      | zero =>
        simp only [List.getD_cons_zero, List.getD_cons_succ] at ha hb ⊢
        have hfirst := filter_first hb fun k hk => h (k + 1) (Nat.zero_lt_succ _)
          (Nat.succ_lt_succ hk)
        refine ⟨(rs.set b []).filter (· ≠ []), ?_, ?_⟩
        · simpa [ha] using hfirst
        · simp [ha]
      | succ a =>
        simp only [List.getD_cons_succ] at ha hb ⊢
        obtain ⟨R, hR, hR'⟩ := ih ha hb (Nat.lt_of_succ_lt_succ hab) fun k hk hk' =>
          h (k + 1) (Nat.succ_lt_succ hk) (Nat.succ_lt_succ hk')
        refine ⟨R, ?_, ?_⟩
        · by_cases hr : r = []
          · simpa [hr] using hR
          · simpa [hr] using hR
        · by_cases hr : r = []
          · simpa [hr] using hR'
          · simpa [hr] using hR'

theorem exists_first {rs R : List (List α)} {y : List α} (h : rs.filter (· ≠ []) = y :: R) :
    ∃ b, rs.getD b [] = y ∧ y ≠ [] ∧ ∀ k < b, rs.getD k [] = [] := by
  induction rs with
  | nil => simp at h
  | cons r rs ih =>
    by_cases hr : r = []
    · rw [List.filter_cons_of_neg (by simp [hr])] at h
      obtain ⟨b, hy, hy', hbefore⟩ := ih h
      refine ⟨b + 1, hy, hy', ?_⟩
      intro k hk
      cases k with
      | zero => exact hr
      | succ k => exact hbefore k (Nat.lt_of_succ_lt_succ hk)
    · rw [List.filter_cons_of_pos (by simpa using hr)] at h
      obtain ⟨rfl, -⟩ := List.cons.inj h
      exact ⟨0, rfl, hr, fun k hk => absurd hk (Nat.not_lt_zero k)⟩

/-- Where two runs that stand next to each other come from. -/
theorem exists_pair {rs L R : List (List α)} {x y : List α}
    (h : rs.filter (· ≠ []) = L ++ x :: y :: R) :
    ∃ a b, a < b ∧ rs.getD a [] = x ∧ rs.getD b [] = y ∧ x ≠ [] ∧ y ≠ [] ∧
      (∀ k, a < k → k < b → rs.getD k [] = []) ∧ (rs.take a).filter (· ≠ []) = L := by
  induction rs generalizing L with
  | nil => simp at h
  | cons r rs ih =>
    by_cases hr : r = []
    · rw [List.filter_cons_of_neg (by simp [hr])] at h
      obtain ⟨a, b, hab, hx, hy, hx', hy', hbetween, hL⟩ := ih h
      refine ⟨a + 1, b + 1, Nat.succ_lt_succ hab, hx, hy, hx', hy', ?_, ?_⟩
      · intro k hk hk'
        cases k with
        | zero => omega
        | succ k => exact hbetween k (Nat.lt_of_succ_lt_succ hk) (Nat.lt_of_succ_lt_succ hk')
      · rw [List.take_succ_cons, List.filter_cons_of_neg (by simp [hr]), hL]
    · rw [List.filter_cons_of_pos (by simpa using hr)] at h
      cases L with
      | nil =>
        obtain ⟨rfl, hrest⟩ := List.cons.inj h
        obtain ⟨b, hy, hy', hbefore⟩ := exists_first hrest
        refine ⟨0, b + 1, Nat.zero_lt_succ _, rfl, hy, hr, hy', ?_, rfl⟩
        intro k hk hk'
        cases k with
        | zero => omega
        | succ k => exact hbefore k (Nat.lt_of_succ_lt_succ hk')
      | cons l L =>
        obtain ⟨rfl, hrest⟩ := List.cons.inj h
        obtain ⟨a, b, hab, hx, hy, hx', hy', hbetween, hL⟩ := ih hrest
        refine ⟨a + 1, b + 1, Nat.succ_lt_succ hab, hx, hy, hx', hy', ?_, ?_⟩
        · intro k hk hk'
          cases k with
          | zero => omega
          | succ k => exact hbetween k (Nat.lt_of_succ_lt_succ hk) (Nat.lt_of_succ_lt_succ hk')
        · rw [List.take_succ_cons, List.filter_cons_of_pos (by simpa using hr), hL]

theorem getD_runes (ms : List (Node α)) (i : Nat) :
    (ms.map Node.runes).getD i [] = (node ms i).runes := by
  rw [node, List.getD_eq_getElem?_getD, List.getD_eq_getElem?_getD, List.getElem?_map]
  cases ms[i]? <;> rfl

/-- The runs before the node `i`. -/
def runsBefore (ms : List (Node α)) (i : Nat) : List (List α) :=
  ((ms.map Node.runes).take i).filter (· ≠ [])

theorem runs_join {ms : List (Node α)} (linked : Linked ms) {a b : Nat} (ha : Live ms a)
    (hb : Live ms b) (hab : (node ms a).n = b) :
    ∃ R, runs ms = runsBefore ms a ++ (node ms a).runes :: (node ms b).runes :: R ∧
      runs (join ms a b) = runsBefore ms a ++ ((node ms a).runes ++ (node ms b).runes) :: R := by
  have hlt := linked.lt ha hab
  have hpair := @filter_pair _ (ms.map Node.runes) a b (by rwa [getD_runes]) (by rwa [getD_runes]) hlt
    (fun k hk hk' => by
      rw [getD_runes]
      have := linked.between a ha k hk (by rwa [hab])
      rwa [Live, not_not] at this)
  simp only [getD_runes] at hpair
  have hjoin : (join ms a b).map Node.runes =
      ((ms.map Node.runes).set a ((node ms a).runes ++ (node ms b).runes)).set b [] := by
    apply List.ext_getElem (by simp)
    intro j hj hj'
    have hj : j < ms.length := by simpa using hj
    have hnode := congrArg Node.runes (linked.node_join ha hb hab j)
    rw [← getD_runes, List.getD_eq_getElem _ _ (by simpa using hj)] at hnode
    rw [hnode, List.getElem_set, List.getElem_set]
    have hget := getD_runes ms j
    rw [List.getD_eq_getElem _ _ (by simpa using hj)] at hget
    by_cases hja : j = a
    · simp [hja, hlt.ne']
    · by_cases hjb : j = b
      · simp [hjb, hlt.ne']
      · rw [if_neg hja, if_neg hjb, if_neg (Ne.symm hjb), if_neg (Ne.symm hja), hget]
        split_ifs <;> rfl
  rw [runs, runs, hjoin]
  exact hpair

/-- Runs that stand next to each other are linked. -/
theorem Linked.of_runs {ms : List (Node α)} (linked : Linked ms) {L R : List (List α)}
    {x y : List α} (h : runs ms = L ++ x :: y :: R) :
    ∃ a, Live ms a ∧ Live ms (node ms a).n ∧ (node ms a).runes = x ∧
      (node ms (node ms a).n).runes = y ∧ runsBefore ms a = L := by
  obtain ⟨a, b, hab, hx, hy, hx', hy', hbetween, hL⟩ := exists_pair h
  rw [getD_runes] at hx hy
  have ha : Live ms a := by rwa [Live, hx]
  have hb : Live ms b := by rwa [Live, hy]
  have hn : (node ms a).n = b := by
    rcases Nat.lt_trichotomy (node ms a).n b with hlt | heq | hgt
    · have hnext := (linked.next a ha).resolve_left (hlt.trans hb.lt).ne
      have := hbetween _ (linked.after a ha) hlt
      rw [getD_runes] at this
      exact absurd this hnext.1
    · exact heq
    · exact absurd hb (linked.between a ha b hab hgt)
  exact ⟨a, ha, by rwa [hn], hx, by rw [hn, hy], hL⟩

/-- A run that has grown is longer. -/
theorem eq_of_isPrefix {x y : List (List α)} (hne : ∀ c ∈ y, c ≠ []) (hxy : x <+: y)
    (h : x.flatten.length = y.flatten.length) : x = y := by
  obtain ⟨z, rfl⟩ := hxy
  rw [List.flatten_append, List.length_append, Nat.left_eq_add] at h
  cases z with
  | nil => exact (List.append_nil x).symm
  | cons c z =>
    have hz := List.eq_nil_of_length_eq_zero h
    rw [List.flatten_cons, List.append_eq_nil_iff] at hz
    exact absurd hz.1 (hne c (by simp))

end Ecco9.Library.LinkedRuns
