import Ecco9.KvCache.Forward
import Ecco9.Runner.Building

/-! The plain causal cache under the runner: each row is known by the entry of a batch that it was
computed for. -/

universe u

namespace Ecco9.Runner

open Ecco9.Library Ecco9.KvCache

/-- A key or value row, by the entry that it was computed for; `none` is a row of zeros. -/
abbrev Row := Option BatchEntry

structure KvState where
  causal : Causal Row
  /-- which sequences were copied, from and to -/
  copies : List (Int × Int) := []

def ForwardBatch.toBatch (b : ForwardBatch) : Batch where
  positions := b.entries.map fun e => (e.position : Int)
  sequences := b.entries.map (·.sequence)

/-- `model.Forward`, for a model that puts the rows of every token into each of its layers. -/
def KvState.forward (layers : Nat) (maxGraphNodes : Int) (kv : KvState) (b : ForwardBatch) :
    KvState × Bool :=
  match kv.causal.startForward b.toBatch false maxGraphNodes with
  | (causal, some _) => ({ kv with causal }, false)
  | (causal, none) =>
    ({ kv with causal := causal.storeLayers none (fun i => b.entries[i]?) layers }, true)

def causalOps (layers : Nat) (maxGraphNodes : Int) : KvOps KvState where
  canResume kv seq pos := kv.causal.canResume seq pos
  remove kv seq beginIndex endIndex :=
    let removed := kv.causal.remove seq beginIndex endIndex
    ({ kv with causal := removed.1 }, removed.2.isNone)
  copyPrefix kv srcSeq dstSeq len :=
    { causal := kv.causal.copyPrefix srcSeq dstSeq len, copies := kv.copies ++ [(srcSeq, dstSeq)] }
  forward := KvState.forward layers maxGraphNodes

/-! ### Rows at consecutive positions -/

/-- `rows` at the positions from `start` on. -/
def rowsFrom (start : Nat) (rows : List α) : List (Int × α) :=
  (rows.zipIdx start).map fun e => ((e.2 : Int), e.1)

@[simp] theorem rowsFrom_nil (start : Nat) : rowsFrom start ([] : List α) = [] := rfl

@[simp] theorem rowsFrom_cons (start : Nat) (x : α) (rows : List α) :
    rowsFrom start (x :: rows) = ((start : Int), x) :: rowsFrom (start + 1) rows := rfl

theorem rowsFrom_append (start : Nat) (rows rows' : List α) :
    rowsFrom start (rows ++ rows') = rowsFrom start rows ++ rowsFrom (start + rows.length) rows' := by
  simp [rowsFrom, List.zipIdx_append]

theorem mem_rowsFrom {start : Nat} {rows : List α} {e : Int × α} (h : e ∈ rowsFrom start rows) :
    ∃ p, p < rows.length ∧ e.1 = ((start + p : Nat) : Int) ∧ rows[p]? = some e.2 := by
  induction rows generalizing start with
  | nil => cases h
  | cons x rows ih =>
    rw [rowsFrom_cons, List.mem_cons] at h
    rcases h with rfl | h
    · exact ⟨0, by simp, rfl, rfl⟩
    · obtain ⟨p, hp, hpos, hrow⟩ := ih h
      refine ⟨p + 1, by simp [hp], ?_, by simpa using hrow⟩
      rw [hpos]
      omega

/-- The rows that stay when the positions from `b` to `e` are removed. -/
def removedList (b e : Nat) (x : Int × α) : List (Int × α) :=
  if x.1 ≥ b ∧ x.1 < e then [] else if x.1 ≥ e then [(x.1 + (b - e), x.2)] else [x]

theorem flatMap_before {b e start : Nat} {rows : List α} (hbe : b ≤ e)
    (h : start + rows.length ≤ b) :
    (rowsFrom start rows).flatMap (removedList b e) = rowsFrom start rows := by
  induction rows generalizing start with
  | nil => rfl
  | cons x rows ih =>
    rw [List.length_cons] at h
    rw [rowsFrom_cons, List.flatMap_cons, ih (by omega), removedList, if_neg (by dsimp only; omega),
      if_neg (by dsimp only; omega)]
    rfl

theorem flatMap_within {b e start : Nat} {rows : List α} (hb : b ≤ start)
    (he : start + rows.length ≤ e) : (rowsFrom start rows).flatMap (removedList b e) = [] := by
  induction rows generalizing start with
  | nil => rfl
  | cons x rows ih =>
    rw [List.length_cons] at he
    rw [rowsFrom_cons, List.flatMap_cons, ih (by omega) (by omega), removedList,
      if_pos (by dsimp only; omega)]
    rfl

theorem flatMap_after {b e start : Nat} {rows : List α} (hbe : b ≤ e) (h : e ≤ start) :
    (rowsFrom start rows).flatMap (removedList b e) = rowsFrom (start - (e - b)) rows := by
  induction rows generalizing start with
  | nil => rfl
  | cons x rows ih =>
    rw [rowsFrom_cons, List.flatMap_cons, ih (by omega), removedList, if_neg (by dsimp only; omega),
      if_pos (by dsimp only; omega), rowsFrom_cons]
    rw [List.singleton_append]
    congr 2
    · dsimp only
      omega
    · omega

theorem flatMap_removed {b e : Nat} (hbe : b ≤ e) (rows : List α) :
    (rowsFrom 0 rows).flatMap (removedList b e) = rowsFrom 0 (rows.take b ++ rows.drop e) := by
  have split : rows = rows.take b ++ ((rows.drop b).take (e - b) ++ rows.drop e) := by
    have : rows.drop e = (rows.drop b).drop (e - b) := by
      rw [List.drop_drop]
      congr 1
      omega
    rw [this, List.take_append_drop, List.take_append_drop]
  have lenA : (rows.take b).length ≤ b := List.length_take_le _ _
  have lenB : ((rows.drop b).take (e - b)).length ≤ e - b := List.length_take_le _ _
  conv_lhs => rw [split]
  rw [rowsFrom_append, rowsFrom_append, List.flatMap_append, List.flatMap_append, Nat.zero_add,
    flatMap_before hbe (by omega), rowsFrom_append, Nat.zero_add]
  congr 1
  -- where a part starts matters only when there is something in it
  have middle : (rowsFrom (rows.take b).length ((rows.drop b).take (e - b))).flatMap
      (removedList b e) = [] := by
    by_cases hlen : rows.length ≤ b
    · rw [List.drop_eq_nil_of_le hlen, List.take_nil]
      rfl
    · apply flatMap_within
      · rw [List.length_take]
        omega
      · omega
  rw [middle, List.nil_append]
  by_cases hlen : rows.length ≤ e
  · rw [List.drop_eq_nil_of_le hlen]
    rfl
  · have : (rows.take b).length + ((rows.drop b).take (e - b)).length = e := by
      rw [List.length_take, List.length_take, List.length_drop]
      omega
    rw [this, flatMap_after hbe (Nat.le_refl e), List.length_take]
    congr 1
    omega

/-! ### What the cache holds of a sequence -/

/-- The sequence `id` occupies the positions from 0 on, with `rows` at them. -/
def HeldIs (cells : List CacheCell) (id : Int) (row : Nat → α) (rows : List α) : Prop :=
  held cells id row = ↑(rowsFrom 0 rows)

theorem HeldIs.congr {cells cells' : List CacheCell} {id : Int} {row row' : Nat → α}
    {rows : List α} (h : HeldIs cells id row rows)
    (heq : held cells' id row' = held cells id row) : HeldIs cells' id row' rows := heq.trans h

theorem mem_held {cells : List CacheCell} {id : Int} {row : Nat → α} {j : Nat}
    (h : id ∈ (cells.getD j {}).sequences) : ((cells.getD j {}).pos, row j) ∈ held cells id row := by
  rw [held, Multiset.mem_sum]
  refine ⟨j, Finset.mem_range.mpr (lt_of_mem_cell h), ?_⟩
  rw [heldAt_of_mem h]
  exact Multiset.mem_singleton_self _

theorem HeldIs.positions {c : Causal κ} {id : Int} {row : Nat → α} {rows : List α}
    (h : HeldIs c.cells id row rows) (hlen : (rows.length : Int) ≤ maxInt32) : c.Positions id := by
  intro j hj
  have hmem : ((c.cell j).pos, row j) ∈ held c.cells id row := mem_held hj
  rw [h, Multiset.mem_coe] at hmem
  obtain ⟨p, hp, hpos, -⟩ := mem_rowsFrom hmem
  dsimp only at hpos
  rw [hpos]
  omega

theorem HeldIs.remove {c : Causal κ} {id : Int} {row : Nat → α} {rows : List α}
    (h : HeldIs c.cells id row rows) (hlen : (rows.length : Int) ≤ maxInt32) {b e : Nat}
    (hbe : b ≤ e) (he : (e : Int) ≤ maxInt32) (ok : (c.remove id b e).2 = none) :
    HeldIs (c.remove id b e).1.cells id row (rows.take b ++ rows.drop e) := by
  rw [HeldIs, Causal.held_remove ok, h, ← flatMap_removed hbe, ← Multiset.coe_bind]
  apply Multiset.bind_congr
  intro x hx
  rw [Multiset.mem_coe] at hx
  obtain ⟨p, hp, hpos, -⟩ := mem_rowsFrom hx
  unfold maxInt32 at hlen he
  rw [removedEntry, removedList]
  by_cases hin : x.1 ≥ b ∧ x.1 < e
  · rw [if_pos hin, if_pos hin]
    rfl
  · rw [if_neg hin, if_neg hin]
    by_cases hge : x.1 ≥ e
    · rw [if_pos hge, if_pos hge]
      have hoff : removeOffset (b : Int) e = b - e := by
        rw [removeOffset, if_pos (by unfold maxInt32; omega)]
        exact sub32_of_range (by omega) (by omega)
      rw [hoff, add32_of_range (by omega) (by omega)]
      rfl
    · rw [if_neg hge, if_neg hge]
      rfl

/-- Removing everything works from any positions. -/
theorem held_clear {c : Causal κ} {id : Int} (positions : c.Positions id) (row : Nat → α) :
    (c.remove id 0 maxInt32).2 = none ∧ HeldIs (c.remove id 0 maxInt32).1.cells id row [] := by
  have ok := positions.remove_ok 0
  refine ⟨ok, ?_⟩
  rw [HeldIs, Causal.held_remove ok]
  have none : ∀ e ∈ held c.cells id row,
      removedEntry 0 maxInt32 (removeOffset 0 maxInt32) e = 0 := by
    intro e he
    rw [held, Multiset.mem_sum] at he
    obtain ⟨j, -, hj⟩ := he
    by_cases hmem : id ∈ (c.cells.getD j {}).sequences
    · rw [heldAt_of_mem hmem, Multiset.mem_singleton] at hj
      subst hj
      exact if_pos (positions j hmem)
    · rw [heldAt_of_notMem hmem] at hj
      cases hj
  rw [Multiset.bind_congr none]
  exact Multiset.bind_zero _

theorem HeldIs.copyPrefix {c : Causal κ} {srcSeq dstSeq : Int} {row : Nat → α} {rows : List α}
    (h : HeldIs c.cells srcSeq row rows) (hne : srcSeq ≠ dstSeq) (len : Nat) :
    HeldIs (c.copyPrefix srcSeq dstSeq len).cells dstSeq row (rows.take len) := by
  rw [HeldIs, c.held_copyPrefix hne, h]
  have cut (start : Nat) (rows : List α) : (rowsFrom start rows).flatMap
      (fun e => if e.1 < (len : Int) then [e] else []) = rowsFrom start (rows.take (len - start)) := by
    induction rows generalizing start with
    | nil => simp
    | cons x rows ih =>
      rw [rowsFrom_cons, List.flatMap_cons, ih]
      dsimp only
      by_cases hlt : start < len
      · rw [if_pos (by exact_mod_cast hlt)]
        have : len - start = len - (start + 1) + 1 := by omega
        rw [this, List.take_succ_cons, rowsFrom_cons]
        rfl
      · have h1 : len - start = 0 := by omega
        have h2 : len - (start + 1) = 0 := by omega
        rw [if_neg (by exact_mod_cast hlt), h1, h2]
        rfl
  have := cut 0 rows
  rw [Nat.sub_zero] at this
  rw [← this, ← Multiset.coe_bind]
  apply Multiset.bind_congr
  intro e _
  split <;> rfl

/-- In every layer, keys and values alike, the sequence `id` has `rows` at its positions. -/
structure Holds (c : Causal Row) (id : Int) (rows : List Row) : Prop where
  positions : HeldIs c.cells id (fun _ => ()) (rows.map fun _ => ())
  key : ∀ t, some t ∈ c.tensors → HeldIs c.cells id t.key rows
  value : ∀ t, some t ∈ c.tensors → HeldIs c.cells id t.value rows

theorem Holds.bounds {c : Causal Row} {id : Int} {rows : List Row} (h : Holds c id rows)
    (hlen : (rows.length : Int) ≤ maxInt32) : c.Positions id :=
  h.positions.positions (by rwa [List.length_map])

/-- What is held of `id` is the same in both. -/
structure SameHeld (c c' : Causal Row) (id : Int) : Prop where
  tensors : c'.tensors = c.tensors
  held : ∀ {α : Type} (row : Nat → α), held c'.cells id row = held c.cells id row

theorem SameHeld.refl (c : Causal Row) (id : Int) : SameHeld c c id := ⟨rfl, fun _ => rfl⟩

theorem SameHeld.trans {c c' c'' : Causal Row} {id : Int} (h : SameHeld c c' id)
    (h' : SameHeld c' c'' id) : SameHeld c c'' id :=
  ⟨h'.tensors.trans h.tensors, fun row => (h'.held row).trans (h.held row)⟩

theorem Holds.congr {c c' : Causal Row} {id : Int} {rows : List Row} (h : Holds c id rows)
    (same : SameHeld c c' id) : Holds c' id rows :=
  ⟨h.positions.congr (same.held _), fun t ht => (h.key t (same.tensors ▸ ht)).congr (same.held _),
    fun t ht => (h.value t (same.tensors ▸ ht)).congr (same.held _)⟩

theorem sameHeld_remove {c : Causal Row} (plain : c.Plain) {seq id : Int} (hne : id ≠ seq)
    {beginIndex endIndex : Int} (hle : beginIndex ≤ endIndex) :
    SameHeld c (c.remove seq beginIndex endIndex).1 id :=
  ⟨(plain.remove seq beginIndex endIndex).1, fun row => c.held_remove_other hne hle row⟩

theorem sameHeld_copyPrefix (c : Causal Row) {srcSeq dstSeq len id : Int} (hne : id ≠ dstSeq) :
    SameHeld c (c.copyPrefix srcSeq dstSeq len) id :=
  ⟨rfl, fun row => c.held_copyPrefix_other hne row⟩

theorem Holds.remove {c : Causal Row} (plain : c.Plain) {id : Int} {rows : List Row}
    (h : Holds c id rows) (hlen : (rows.length : Int) ≤ maxInt32) {b e : Nat} (hbe : b ≤ e)
    (he : (e : Int) ≤ maxInt32) (ok : (c.remove id b e).2 = none) :
    Holds (c.remove id b e).1 id (rows.take b ++ rows.drop e) := by
  have tensors := (plain.remove id b e).1
  refine ⟨?_, ?_, ?_⟩
  · have := h.positions.remove (by rwa [List.length_map]) hbe he ok
    rwa [← List.map_take, ← List.map_drop, ← List.map_append] at this
  · intro t ht
    exact (h.key t (tensors ▸ ht)).remove hlen hbe he ok
  · intro t ht
    exact (h.value t (tensors ▸ ht)).remove hlen hbe he ok

theorem Holds.clear {c : Causal Row} {id : Int} (positions : c.Positions id) :
    (c.remove id 0 maxInt32).2 = none ∧ Holds (c.remove id 0 maxInt32).1 id [] :=
  ⟨(held_clear positions fun _ => ()).1, (held_clear positions _).2,
    fun _ _ => (held_clear positions _).2, fun _ _ => (held_clear positions _).2⟩

theorem Holds.copyPrefix {c : Causal Row} {srcSeq dstSeq : Int} {rows : List Row}
    (h : Holds c srcSeq rows) (hne : srcSeq ≠ dstSeq) (len : Nat) :
    Holds (c.copyPrefix srcSeq dstSeq len) dstSeq (rows.take len) := by
  refine ⟨?_, ?_, ?_⟩
  · have := h.positions.copyPrefix hne len
    rwa [← List.map_take] at this
  · intro t ht
    exact (h.key t ht).copyPrefix hne len
  · intro t ht
    exact (h.value t ht).copyPrefix hne len

/-! ### A forward pass -/

/-- Before the first forward pass there are no layers, and nothing is held; then there are all. -/
def Layered (layers : Nat) (c : Causal Row) : Prop :=
  c.tensors = [] ∧ (∀ j, (c.cell j).free = true) ∨
    c.tensors.length = layers ∧ ∀ t ∈ c.tensors, t.isSome = true

theorem held_of_free {cells : List CacheCell} (h : ∀ j, (cells.getD j {}).free = true) (id : Int)
    (row : Nat → α) : held cells id row = 0 := by
  rw [held]
  exact Finset.sum_eq_zero fun i _ => heldAt_free (h i) _

/-- The sum over a block of cells, one for each entry of a batch. -/
theorem sum_entries_block (entries : List BatchEntry) (id : Int) (f : BatchEntry → α)
    (row : Nat → α) (hrow : ∀ k e, entries[k]? = some e → row k = f e) :
    ∑ k ∈ Finset.range entries.length, heldAt id
      { pos := (entries.map fun e => (e.position : Int)).getD k 0
        sequences := [(entries.map (·.sequence)).getD k 0] } (row k) =
      ↑((entries.filter fun e => decide (e.sequence = id)).map fun e =>
        ((e.position : Int), f e)) := by
  induction entries using List.reverseRecOn generalizing row with
  | nil => rfl
  | append_singleton entries e ih =>
    have last : row entries.length = f e := hrow _ e (by simp)
    have both (l : List BatchEntry) : (((entries ++ l).filter fun e => decide (e.sequence = id)).map
        fun e => ((e.position : Int), f e)) =
        ((entries.filter fun e => decide (e.sequence = id)).map fun e =>
          ((e.position : Int), f e)) ++ ((l.filter fun e => decide (e.sequence = id)).map fun e =>
          ((e.position : Int), f e)) := by
      rw [List.filter_append, List.map_append]
    rw [List.length_append, List.length_singleton, Finset.sum_range_succ, both,
      ← Multiset.coe_add, ← ih row]
    · congr 1
      · apply Finset.sum_congr rfl
        intro k hk
        rw [Finset.mem_range] at hk
        simp [List.getElem?_append, hk]
      · have h1 : ((entries ++ [e]).map fun e => (e.position : Int)).getD entries.length 0 =
            e.position := by simp
        have h2 : ((entries ++ [e]).map (·.sequence)).getD entries.length 0 = e.sequence := by simp
        rw [h1, h2, last]
        by_cases hseq : e.sequence = id
        · rw [heldAt_of_mem (by simp [hseq])]
          simp [hseq]
        · rw [heldAt_of_notMem (by simpa using Ne.symm hseq)]
          simp [hseq]
    · intro k x hx
      exact hrow k x (by
        rw [List.getElem?_append_left (List.getElem?_eq_some_iff.mp hx).1, hx])

theorem rowsFrom_entriesFrom (id : Int) (start : Nat) (inputs : List Input) (f : BatchEntry → α) :
    (entriesFrom id start inputs).map (fun e => ((e.position : Int), f e)) =
      rowsFrom start ((entriesFrom id start inputs).map f) := by
  induction inputs generalizing start with
  | nil => rfl
  | cons inp inputs ih =>
    have cons : entriesFrom id start (inp :: inputs) =
        ⟨inp, start, id⟩ :: entriesFrom id (start + 1) inputs := rfl
    rw [cons, List.map_cons, List.map_cons, rowsFrom_cons, ih]

/-- What a sequence holds once a block with its entries is stored. -/
theorem HeldIs.stored {b : ForwardBatch} {cells cells' : List CacheCell} {loc : Nat} {id : Int}
    {row row' : Nat → α} {rows : List α} {pending : List Input} (f : BatchEntry → α)
    (h : HeldIs cells id row rows) (hof : b.of id = entriesFrom id rows.length pending)
    (hlen : cells'.length = cells.length) (fits : loc + b.entries.length ≤ cells.length)
    (free : ∀ i, loc ≤ i → i < loc + b.entries.length → (cells.getD i {}).free)
    (hcell : ∀ i, cells'.getD i {} = storedCell b.toBatch loc (fun i => cells.getD i {}) i)
    (hrow : ∀ i, ¬(loc ≤ i ∧ i < loc + b.entries.length) → row' i = row i)
    (hnew : ∀ k e, b.entries[k]? = some e → row' (loc + k) = f e) :
    HeldIs cells' id row' (rows ++ (b.of id).map f) := by
  have size : b.toBatch.positions.length = b.entries.length := List.length_map _
  rw [← size] at fits free hrow
  rw [HeldIs, held_stored hlen fits free hcell hrow id, h, size]
  have block := sum_entries_block b.entries id f (fun k => row' (loc + k)) hnew
  rw [ForwardBatch.toBatch, block]
  change _ + ((((b.of id).map fun e => ((e.position : Int), f e)) : List (Int × α)) :
    Multiset (Int × α)) = _
  rw [Multiset.coe_add, rowsFrom_append, Nat.zero_add, hof, rowsFrom_entriesFrom]

theorem free_of_entries {cells cells' : List CacheCell} (h : ∀ j, (cells.getD j {}).free = true)
    (heq : entries cells' (fun _ => ()) = entries cells (fun _ => ())) (j : Nat) :
    (cells'.getD j {}).free = true := by
  by_contra hused
  have hlt : j < cells'.length := by
    by_contra hge
    rw [List.getD_eq_getElem?_getD, List.getElem?_eq_none (Nat.not_lt.mp hge)] at hused
    exact hused rfl
  have hmem : (cells'.getD j {}, ()) ∈ entries cells' fun _ => () :=
    mem_contents.mpr ⟨j, hlt, by simpa using hused, rfl⟩
  rw [heq] at hmem
  obtain ⟨i, -, hi, -⟩ := mem_contents.mp hmem
  rw [h i] at hi
  cases hi

/-- The rows of a layer before the batch is put into it. -/
def oldLayer (t : Option (LayerTensors Row)) : LayerTensors Row :=
  t.getD ⟨fun _ => none, fun _ => none⟩

/-- After the cells were maybe moved, each layer still holds what it held. -/
theorem Holds.oldLayer {c old c' : Causal Row} {batch : Batch} {layers : Nat}
    (started : c.Started old c' batch) (layered : Layered layers c) {id : Int} {rows : List Row}
    (h : Holds c id rows) {l : Nat} (hl : l < layers) :
    HeldIs old.cells id (Runner.oldLayer (old.tensors.getD l none)).key rows ∧
      HeldIs old.cells id (Runner.oldLayer (old.tensors.getD l none)).value rows := by
  rcases layered with ⟨hnil, hfree⟩ | ⟨hlen, hsome⟩
  · have hrows : rows = [] := by
      have := h.positions
      rw [HeldIs, held_of_free hfree] at this
      cases rows with
      | nil => rfl
      | cons x rows => exact absurd this.symm (by simp)
    have free := free_of_entries hfree (started.labels fun _ => ())
    rw [hrows]
    exact ⟨held_of_free free id _, held_of_free free id _⟩
  · have same := started.same
    have hold : l < old.tensors.length := by rw [← same.length_eq, hlen]; exact hl
    have rel := same.get (hlen ▸ hl) hold
    rw [List.get_eq_getElem, List.get_eq_getElem] at rel
    obtain ⟨t, ht⟩ := Option.isSome_iff_exists.mp
      (hsome _ (List.getElem_mem (hlen ▸ hl : l < c.tensors.length)))
    have hmem : some t ∈ c.tensors := by
      rw [← ht]
      exact List.getElem_mem _
    rw [ht] at rel
    cases hu : old.tensors[l] with
    | none =>
      rw [hu] at rel
      cases rel
    | some u =>
      rw [hu] at rel
      cases rel with
      | some both =>
        have : old.tensors.getD l none = some u := by
          rw [List.getD_eq_getElem?_getD, List.getElem?_eq_getElem hold, hu]
          rfl
        rw [this]
        exact ⟨(h.key t hmem).congr (held_of_entries both.1 id),
          (h.value t hmem).congr (held_of_entries both.2 id)⟩

/-- What a forward pass makes of the cache: each sequence holds the rows of its entries after those
that it held. -/
structure Forwarded (layers : Nat) (kv kv' : KvState) (b : ForwardBatch) : Prop where
  copies : kv'.copies = kv.copies
  plain : kv'.causal.Plain
  layered : Layered layers kv'.causal
  holds : ∀ (id : Int) (rows : List Row) (pending : List Input), Holds kv.causal id rows →
    b.of id = entriesFrom id rows.length pending →
      Holds kv'.causal id (rows ++ (b.of id).map some)

theorem KvState.forward_ok {layers : Nat} {maxGraphNodes : Int} {kv kv' : KvState}
    {b : ForwardBatch} (plain : kv.causal.Plain) (layered : Layered layers kv.causal)
    (hne : b.entries ≠ []) (undisturbed : kv.causal.Undisturbed b.entries.length)
    (h : kv.forward layers maxGraphNodes b = (kv', true)) : Forwarded layers kv kv' b := by
  have size : b.toBatch.positions.length = b.entries.length := List.length_map _
  unfold forward at h
  split at h
  · cases (Prod.mk.inj h).2
  · rename_i c' hstart
    obtain ⟨rfl, -⟩ := Prod.mk.inj h
    have hseq : b.toBatch.sequences.length = b.toBatch.positions.length := by
      rw [size]
      exact List.length_map _
    have hne : b.toBatch.positions ≠ [] := by simpa [ForwardBatch.toBatch] using hne
    rw [← size] at undisturbed
    obtain ⟨old, started⟩ := plain.started hseq undisturbed hstart
    have spec := c'.storeLayers_spec none (fun i => b.entries[i]?) layers
    generalize hstored : c'.storeLayers none (fun i => b.entries[i]?) layers = stored at spec
    have hcells : stored.cells = c'.cells := congrArg (·.cells) spec
    have htensors : stored.tensors = (List.range layers).map fun layer =>
        some (c'.storeLayer none (fun i => b.entries[i]?) (fun i => b.entries[i]?)
          (old.tensors.getD layer none)) := by
      have hlen : old.tensors.length ≤ layers := by
        rw [← started.same.length_eq]
        rcases layered with ⟨hnil, -⟩ | ⟨hlen, -⟩
        · rw [hnil]
          exact Nat.zero_le _
        · exact hlen.le
      have := congrArg (·.tensors) spec
      dsimp only at this
      rw [started.tensors, List.drop_eq_nil_of_le hlen, List.append_nil] at this
      exact this
    have fits := started.fits
    have free := started.free
    rw [size] at fits free
    have hlen : stored.cells.length = old.cells.length := by rw [hcells, started.length]
    have hcell (i : Nat) : stored.cells.getD i {} =
        storedCell b.toBatch c'.curLoc (fun i => old.cells.getD i {}) i := by
      rw [hcells]
      exact started.cell i
    refine ⟨rfl, ?_, ?_, ?_⟩
    · exact started.plain.congr (congrArg (·.swaMemorySize) spec) (congrArg (·.shiftFn) spec)
    · refine .inr ⟨?_, ?_⟩
      · rw [htensors, List.length_map, List.length_range]
      · intro t ht
        rw [htensors, List.mem_map] at ht
        obtain ⟨l, -, rfl⟩ := ht
        rfl
    · intro id rows pending holds hof
      have positions := holds.positions.congr
        (held_of_entries (started.labels fun _ => ()) id)
      have layer (t : LayerTensors Row) (ht : some t ∈ stored.tensors) : ∃ l < layers,
          t = c'.storeLayer none (fun i => b.entries[i]?) (fun i => b.entries[i]?)
            (old.tensors.getD l none) := by
        rw [htensors, List.mem_map] at ht
        obtain ⟨l, hl, heq⟩ := ht
        exact ⟨l, List.mem_range.mp hl, (Option.some.inj heq).symm⟩
      have put {old' : Nat → Row} (hold : HeldIs old.cells id old' rows) :
          HeldIs stored.cells id
            (storeRows c'.curLoc c'.curBatchSize (fun i => b.entries[i]?) old')
            (rows ++ (b.of id).map some) := by
        rw [started.size, size]
        refine HeldIs.stored some hold hof hlen fits free hcell ?_ ?_
        · intro i hi
          exact if_neg hi
        · intro k e he
          have hk := (List.getElem?_eq_some_iff.mp he).1
          rw [storeRows, if_pos (by omega), Nat.add_sub_cancel_left, he]
      refine ⟨?_, ?_, ?_⟩
      · rw [← List.length_map (fun _ => ())] at hof
        rw [List.map_append, List.map_map]
        exact HeldIs.stored (fun _ => ()) positions hof hlen fits free hcell (fun _ _ => rfl)
          fun _ _ _ => rfl
      · intro t ht
        obtain ⟨l, hl, rfl⟩ := layer t ht
        exact put (Holds.oldLayer started layered holds hl).1
      · intro t ht
        obtain ⟨l, hl, rfl⟩ := layer t ht
        exact put (Holds.oldLayer started layered holds hl).2

end Ecco9.Runner
