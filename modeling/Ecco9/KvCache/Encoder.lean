import Ecco9.KvCache.Isolation
import Ecco9.Library.Runs

/-! The encoder cache of `kvcache/encoder.go` in front of a causal cache, as models with cross
attention use it: one image, and the sequence that its input is part of. -/

universe u

namespace Ecco9.KvCache

open Ecco9.Library

variable {κ : Type u}

structure EncoderCache where
  curPos : Int := 0
  curReserve : Bool := false
  encoderCached : Bool := false
  encoderPos : Int := 0
  deriving DecidableEq

/-- A batch with the indices of its multimodal inputs. -/
structure MultimodalBatch extends Batch where
  multimodal : List Nat := []

/-- `none` where the index of the last image is out of range. -/
def EncoderCache.startForward (c : EncoderCache) (batch : MultimodalBatch) (reserve : Bool) :
    Option EncoderCache :=
  match batch.multimodal.getLast? with
  | none => some { c with curReserve := reserve }
  | some index =>
    batch.positions[index]?.map fun pos => { c with curPos := pos, curReserve := reserve }

def EncoderCache.put (c : EncoderCache) : EncoderCache :=
  if c.curReserve then c else { c with encoderPos := c.curPos, encoderCached := true }

def EncoderCache.remove (c : EncoderCache) (_seq beginIndex endIndex : Int) : EncoderCache :=
  if c.encoderPos ≥ beginIndex ∧ c.encoderPos < endIndex then { c with encoderCached := false }
  else c

/-- Removes a batch again, token by token. -/
def EncoderCache.unwind (c : EncoderCache) (batch : Batch) : EncoderCache :=
  (batch.sequences.zip batch.positions).foldl (fun c e => c.remove e.1 e.2 maxInt32) c

/-- `NewWrapperCache(encoderCache, causalCache)`. -/
structure EncoderWrapper (κ : Type u) where
  encoder : EncoderCache := {}
  causal : Causal κ
  curType : Nat := 0

namespace EncoderWrapper

def startForward (w : EncoderWrapper κ) (batch : MultimodalBatch) (reserve : Bool)
    (maxGraphNodes : Int) : Option (EncoderWrapper κ × Option CacheErr) :=
  (w.encoder.startForward batch reserve).map fun encoder =>
    match w.causal.startForward batch.toBatch reserve maxGraphNodes with
    | (causal, some err) =>
      ({ w with encoder := encoder.unwind batch.toBatch, causal }, some err)
    | (causal, none) => ({ encoder, causal, curType := 0 }, none)

def setLayer (w : EncoderWrapper κ) (layer : Nat) : EncoderWrapper κ :=
  { w with causal := w.causal.setLayer layer }

def setLayerType (w : EncoderWrapper κ) (layerType : Nat) : EncoderWrapper κ :=
  { w with curType := layerType }

/-- `Put` into the cache of the layer's type; `none` where there is no such cache. -/
def put (w : EncoderWrapper κ) (zero : κ) (key value : Nat → κ) : Option (EncoderWrapper κ) :=
  match w.curType with
  | 0 => some { w with encoder := w.encoder.put }
  | 1 => some { w with causal := w.causal.put zero key value }
  | _ => none

def remove (w : EncoderWrapper κ) (seq beginIndex endIndex : Int) :
    EncoderWrapper κ × Option CacheErr :=
  ({ w with
      encoder := w.encoder.remove seq beginIndex endIndex
      causal := (w.causal.remove seq beginIndex endIndex).1 },
    (w.causal.remove seq beginIndex endIndex).2)

end EncoderWrapper

/-! ### Following an image -/

/-- Where `Causal.Remove` leaves what is at a position, if anywhere. -/
def renumber (beginIndex endIndex p : Int) : Option Int :=
  if p ≥ beginIndex ∧ p < endIndex then none
  else if p ≥ endIndex then some (add32 p (removeOffset beginIndex endIndex)) else some p

theorem renumber_isSome (beginIndex endIndex : Int) (stored : Option Int) :
    (stored.bind (renumber beginIndex endIndex)).isSome = true ↔
      ∃ p, stored = some p ∧ ¬(beginIndex ≤ p ∧ p < endIndex) := by
  cases stored with
  | none => simp
  | some p =>
    rw [Option.bind_some, renumber]
    by_cases hin : p ≥ beginIndex ∧ p < endIndex
    · rw [if_pos hin]
      simpa using hin
    · rw [if_neg hin]
      have : ∃ q, some p = some q ∧ ¬(beginIndex ≤ q ∧ q < endIndex) := ⟨p, rfl, hin⟩
      split <;> simpa using this

/-- What is done to the caches of one sequence. -/
inductive EncoderOp (κ : Type u)
  | startForward (positions : List Int) (multimodal : List Nat) (reserve : Bool)
      (maxGraphNodes : Int)
  | setLayer (layer : Nat)
  | setLayerType (layerType : Nat)
  | put (zero : κ) (key value : Nat → κ)
  | remove (beginIndex endIndex : Int)

def oneSequence (seq : Int) (positions : List Int) (multimodal : List Nat) : MultimodalBatch where
  positions := positions
  sequences := List.replicate positions.length seq
  multimodal := multimodal

/-- The position of the image that a batch is about, if there is one. -/
def MultimodalBatch.image (batch : MultimodalBatch) : Option (Option Int) :=
  batch.multimodal.getLast?.map fun index => batch.positions[index]?

/-- The caches, and where the inputs of two images are in the sequence: the last one of the current
pass, if it has any, and the one stored last. -/
structure Followed (κ : Type u) where
  cache : EncoderWrapper κ
  pass : Option (Option Int) := none
  stored : Option Int := none

/-- `none` where the code panics, or where something is stored in a pass that has no image. -/
def Followed.apply (seq : Int) (s : Followed κ) : EncoderOp κ → Option (Followed κ)
  | .startForward positions multimodal reserve maxGraphNodes =>
    let batch := oneSequence seq positions multimodal
    (s.cache.startForward batch reserve maxGraphNodes).map fun out =>
      { s with cache := out.1, pass := if out.2 = none then batch.image else none }
  | .setLayer layer => some { s with cache := s.cache.setLayer layer }
  | .setLayerType layerType => some { s with cache := s.cache.setLayerType layerType }
  | .put zero key value =>
    (s.cache.put zero key value).bind fun cache =>
      if s.cache.curType = 0 then
        s.pass.map fun image =>
          { s with cache, stored := if s.cache.encoder.curReserve then s.stored else image }
      else some { s with cache }
  | .remove beginIndex endIndex =>
    some {
      cache := (s.cache.remove seq beginIndex endIndex).1
      pass := s.pass.map (·.bind (renumber beginIndex endIndex))
      stored := s.stored.bind (renumber beginIndex endIndex) }

/-- An image counts as cached just when the input of the image stored last is still there. -/
def Followed.Follows (s : Followed κ) : Prop :=
  s.cache.encoder.encoderCached = true ↔ s.stored.isSome = true

/-- The position remembered for the image and the one its input is at are both removed, or neither
is. -/
def Followed.Together (s : Followed κ) (beginIndex endIndex : Int) : Prop :=
  ∀ p, s.stored = some p →
    (beginIndex ≤ s.cache.encoder.encoderPos ∧ s.cache.encoder.encoderPos < endIndex ↔
      beginIndex ≤ p ∧ p < endIndex)

/-- The position remembered stands for the input: in a removal, in a batch that is taken back
although none of it was in the sequence, and when an image is stored, whose input has to be there. -/
def Followed.Unsplit (seq : Int) (s : Followed κ) : EncoderOp κ → Prop
  | .startForward positions multimodal reserve maxGraphNodes =>
    (s.cache.causal.startForward (oneSequence seq positions multimodal).toBatch reserve
        maxGraphNodes).2 ≠ none → s.stored.isSome = true →
      ∀ pos ∈ positions, ¬(pos ≤ s.cache.encoder.encoderPos ∧
        s.cache.encoder.encoderPos < maxInt32)
  | .setLayer _ => True
  | .setLayerType _ => True
  | .put _ _ _ => s.cache.curType = 0 → s.cache.encoder.curReserve = false → s.pass ≠ some none
  | .remove beginIndex endIndex => s.Together beginIndex endIndex

/-! ### The encoder cache -/

section Encoder

variable {c : EncoderCache}

@[simp] theorem EncoderCache.remove_encoderPos (seq beginIndex endIndex : Int) :
    (c.remove seq beginIndex endIndex).encoderPos = c.encoderPos := by
  unfold remove
  split <;> rfl

theorem EncoderCache.remove_cached (seq beginIndex endIndex : Int) :
    (c.remove seq beginIndex endIndex).encoderCached = true ↔
      c.encoderCached = true ∧ ¬(beginIndex ≤ c.encoderPos ∧ c.encoderPos < endIndex) := by
  unfold remove
  split
  · rename_i hin
    exact ⟨fun h => absurd h Bool.false_ne_true, fun h => absurd hin h.2⟩
  · rename_i hout
    exact ⟨fun h => ⟨h, hout⟩, fun h => h.1⟩

theorem EncoderCache.unwind_cached (batch : Batch) :
    (c.unwind batch).encoderPos = c.encoderPos ∧
      ((c.unwind batch).encoderCached = true ↔ c.encoderCached = true ∧
        ∀ e ∈ batch.sequences.zip batch.positions,
          ¬(e.2 ≤ c.encoderPos ∧ c.encoderPos < maxInt32)) := by
  unfold unwind
  induction batch.sequences.zip batch.positions generalizing c with
  | nil => exact ⟨rfl, fun h => ⟨h, by simp⟩, fun h => h.1⟩
  | cons e es ih =>
    obtain ⟨hpos, hcached⟩ := ih (c := c.remove e.1 e.2 maxInt32)
    rw [List.foldl_cons]
    refine ⟨hpos.trans (remove_encoderPos ..), ?_⟩
    rw [hcached, remove_cached, remove_encoderPos, List.forall_mem_cons, and_assoc]

@[simp] theorem EncoderCache.remove_curReserve (seq beginIndex endIndex : Int) :
    (c.remove seq beginIndex endIndex).curReserve = c.curReserve := by
  unfold remove
  split <;> rfl

@[simp] theorem EncoderCache.put_curReserve : c.put.curReserve = c.curReserve := by
  unfold put
  split <;> rfl

theorem EncoderCache.startForward_curReserve {c' : EncoderCache} {batch : MultimodalBatch}
    {reserve : Bool} (h : c.startForward batch reserve = some c') : c'.curReserve = reserve := by
  unfold startForward at h
  split at h
  · obtain rfl := Option.some.inj h
    rfl
  · obtain ⟨pos, -, rfl⟩ := Option.map_eq_some_iff.mp h
    rfl

theorem EncoderCache.startForward_cached {c' : EncoderCache} {batch : MultimodalBatch}
    {reserve : Bool} (h : c.startForward batch reserve = some c') :
    c'.encoderCached = c.encoderCached ∧ c'.encoderPos = c.encoderPos := by
  unfold startForward at h
  split at h
  · obtain rfl := Option.some.inj h
    exact ⟨rfl, rfl⟩
  · obtain ⟨pos, -, rfl⟩ := Option.map_eq_some_iff.mp h
    exact ⟨rfl, rfl⟩

end Encoder

/-- A batch that the causal cache has no room for is taken out of the encoder cache again. -/
theorem EncoderWrapper.startForward_cached {w : EncoderWrapper κ} {batch : MultimodalBatch}
    {reserve : Bool} {maxGraphNodes : Int} {out : EncoderWrapper κ × Option CacheErr}
    (h : w.startForward batch reserve maxGraphNodes = some out) :
    out.2 = (w.causal.startForward batch.toBatch reserve maxGraphNodes).2 ∧
      (out.1.encoder.encoderCached = true ↔ w.encoder.encoderCached = true ∧
        (out.2 ≠ none → ∀ e ∈ batch.sequences.zip batch.positions,
          ¬(e.2 ≤ w.encoder.encoderPos ∧ w.encoder.encoderPos < maxInt32))) := by
  obtain ⟨encoder, hencoder, rfl⟩ := Option.map_eq_some_iff.mp h
  obtain ⟨hcached, hpos⟩ := EncoderCache.startForward_cached hencoder
  split
  · rename_i causal err heq
    refine ⟨by rw [heq], ?_⟩
    rw [(EncoderCache.unwind_cached batch.toBatch).2, hcached, hpos]
    exact and_congr_right fun _ => ⟨fun h _ => h, fun h => h (Option.some_ne_none err)⟩
  · rename_i causal heq
    refine ⟨by rw [heq], ?_⟩
    rw [hcached]
    exact ⟨fun h => ⟨h, fun hne => absurd rfl hne⟩, fun h => h.1⟩

/-! ### The position followed -/

/-- No other sequence is stored. -/
def Causal.Alone (c : Causal κ) (seq : Int) : Prop := ∀ j, ∀ s ∈ (c.cell j).sequences, s = seq

theorem removeCells_alone {seq : Int} (beginIndex endIndex offset : Int) {cells : List CacheCell}
    (alone : ∀ cell ∈ cells, ∀ s ∈ cell.sequences, s = seq) (i : Nat) (r : CellRange) :
    (removeCells seq beginIndex endIndex offset cells i r).2.2 = false := by
  induction cells generalizing i r with
  | nil => rfl
  | cons cell cells ih =>
    have rest := ih fun cell' h' => alone cell' (by simp [h'])
    have own := alone cell (by simp)
    rw [removeCells]
    split
    · split
      · exact rest _ _
      · split
        · rw [if_neg (by simpa using own)]
          exact rest _ _
        · exact rest _ _
    · exact rest _ _

section Followed

variable {c : Causal κ} {seq : Int}

/-- What `renumber` says of a position `Causal.Remove` does, also where it fails to shift the rows. -/
theorem Causal.hasPos_renumber (alone : c.Alone seq) {beginIndex endIndex p q : Int}
    (h : c.HasPos seq p) (hq : renumber beginIndex endIndex p = some q) :
    (c.remove seq beginIndex endIndex).1.HasPos seq q := by
  obtain ⟨j, hs, rfl⟩ := hasPos_iff.mp h
  have own : ∀ cell ∈ c.cells, ∀ s ∈ cell.sequences, s = seq := by
    intro cell hcell
    obtain ⟨i, hi, rfl⟩ := List.mem_iff_getElem.mp hcell
    have := alone i
    rwa [Causal.cell, List.getD_eq_getElem?_getD, List.getElem?_eq_getElem hi,
      Option.getD_some] at this
  have unshared := removeCells_alone beginIndex endIndex (removeOffset beginIndex endIndex) own 0
    newRange
  refine hasPos_iff.mpr ⟨j, ?_⟩
  rw [cell, remove_cells]
  rcases removeCells_cell seq beginIndex endIndex (removeOffset beginIndex endIndex) c.cells 0
    newRange j with ⟨heq, -⟩ | ⟨hshared, -⟩
  · rw [heq]
    change seq ∈ (removedCell _ _ _ _ (c.cell j)).sequences ∧ (removedCell _ _ _ _ (c.cell j)).pos = q
    rw [removedCell, if_pos hs]
    unfold renumber at hq
    split at hq
    · cases hq
    · rename_i hout
      rw [if_neg hout]
      split at hq
      · rename_i hge
        rw [if_pos hge]
        exact ⟨hs, Option.some.inj hq⟩
      · rename_i hlt
        rw [if_neg hlt]
        exact ⟨hs, Option.some.inj hq⟩
  · rw [unshared] at hshared
    cases hshared

theorem Causal.Alone.remove (alone : c.Alone seq) (s beginIndex endIndex : Int) :
    (c.remove s beginIndex endIndex).1.Alone seq := by
  intro j s' hs'
  rw [cell, remove_cells] at hs'
  exact alone j s' ((removeCells_spec ..).mem j s' hs')

/-- Both inputs followed are in the causal cache, where they are said to be. -/
structure Followed.Held (seq : Int) (s : Followed κ) : Prop where
  ranged : s.cache.causal.Ranged
  memory : s.cache.causal.swaMemorySize = maxInt32
  alone : s.cache.causal.Alone seq
  pass : s.cache.encoder.curReserve = false → ∀ p, s.pass = some (some p) →
    s.cache.causal.HasPos seq p
  stored : ∀ p, s.stored = some p → s.cache.causal.HasPos seq p

/-- Without a window, a batch adds its positions to those of the sequence. -/
theorem Causal.hasPos_oneSequence (ranged : c.Ranged) (memory : c.swaMemorySize = maxInt32)
    (positions : List Int) (multimodal : List Nat) (maxGraphNodes : Int) (s p : Int) :
    (c.startForward (oneSequence seq positions multimodal).toBatch false maxGraphNodes).1.HasPos
        s p ↔ c.HasPos s p ∨ (c.startForward (oneSequence seq positions multimodal).toBatch false
          maxGraphNodes).2 = none ∧ s = seq ∧ p ∈ positions := by
  have stays (batch : Batch) : ¬c.Evicted batch s p := fun h => h.1 memory
  have hlen : (oneSequence seq positions multimodal).sequences.length =
      (oneSequence seq positions multimodal).positions.length := List.length_replicate
  have entry {k : Nat} (hk : k < positions.length) :
      (oneSequence seq positions multimodal).sequences.getD k 0 = seq ∧
        (oneSequence seq positions multimodal).positions.getD k 0 = positions[k] := by
    simp [oneSequence, hk]
  by_cases hroom : (c.startForward (oneSequence seq positions multimodal).toBatch false
    maxGraphNodes).2 = none
  · rw [hasPos_startForward ranged hlen hroom, and_iff_left (stays _), and_iff_right hroom]
    refine or_congr_right ?_
    constructor
    · rintro ⟨k, hk, hs, hp⟩
      rw [(entry hk).1] at hs
      rw [(entry hk).2] at hp
      exact ⟨hs.symm, hp ▸ List.getElem_mem hk⟩
    · rintro ⟨rfl, hp⟩
      obtain ⟨k, hk, rfl⟩ := List.mem_iff_getElem.mp hp
      exact ⟨k, hk, (entry hk).1, (entry hk).2⟩
  · rw [hasPos_startForward_full ranged hroom, and_iff_left (stays _)]
    exact ⟨.inl, fun h => h.resolve_right fun hnone => hroom hnone.1⟩

theorem Causal.alone_iff : c.Alone seq ↔ ∀ s p, c.HasPos s p → s = seq := by
  constructor
  · intro alone s p h
    obtain ⟨j, hs, -⟩ := hasPos_iff.mp h
    exact alone j s hs
  · intro h j s hs
    exact h s _ (hasPos_iff.mpr ⟨j, hs, rfl⟩)

end Followed

/-! ### Runs -/

section Runs

variable {seq : Int} {s t : Followed κ}

theorem Followed.follows_startForward (follows : s.Follows) {positions : List Int}
    {multimodal : List Nat} {reserve : Bool} {maxGraphNodes : Int}
    (h : s.apply seq (.startForward positions multimodal reserve maxGraphNodes) = some t) :
    t.Follows ↔ s.Unsplit seq (.startForward positions multimodal reserve maxGraphNodes) := by
  obtain ⟨out, hout, rfl⟩ := Option.map_eq_some_iff.mp h
  obtain ⟨hfails, hcached⟩ := EncoderWrapper.startForward_cached hout
  have hbatch : (∀ e ∈ (oneSequence seq positions multimodal).sequences.zip
        (oneSequence seq positions multimodal).positions,
        ¬(e.2 ≤ s.cache.encoder.encoderPos ∧ s.cache.encoder.encoderPos < maxInt32)) ↔
      ∀ pos ∈ positions, ¬(pos ≤ s.cache.encoder.encoderPos ∧
        s.cache.encoder.encoderPos < maxInt32) := by
    constructor
    · intro h pos hpos
      obtain ⟨k, hk, rfl⟩ := List.mem_iff_getElem.mp hpos
      refine h (seq, positions[k]) (List.mem_iff_getElem.mpr ⟨k, ?_, ?_⟩)
      · simpa [oneSequence] using hk
      · simp [oneSequence]
    · intro h e he
      exact h e.2 (List.of_mem_zip he).2
  rw [hfails, hbatch] at hcached
  change (out.1.encoder.encoderCached = true ↔ s.stored.isSome = true) ↔ _
  rw [hcached, show s.cache.encoder.encoderCached = true ↔ _ from follows]
  constructor
  · intro hiff hne hstored
    exact (hiff.mpr hstored).2 hne
  · intro unsplit
    exact ⟨fun h => h.1, fun hstored => ⟨hstored, fun hne => unsplit hne hstored⟩⟩

theorem Followed.follows_put (follows : s.Follows) {zero : κ} {key value : Nat → κ}
    (h : s.apply seq (.put zero key value) = some t) :
    t.Follows ↔ s.Unsplit seq (.put zero key value) := by
  obtain ⟨cache, hcache, h⟩ := Option.bind_eq_some_iff.mp h
  unfold EncoderWrapper.put at hcache
  unfold Unsplit
  split at hcache
  · rename_i htype
    obtain rfl := Option.some.inj hcache
    rw [if_pos htype] at h
    obtain ⟨image, himage, rfl⟩ := Option.map_eq_some_iff.mp h
    change (s.cache.encoder.put.encoderCached = true ↔ (if s.cache.encoder.curReserve then s.stored
      else image).isSome = true) ↔ _
    unfold EncoderCache.put
    by_cases hreserve : s.cache.encoder.curReserve = true
    · rw [if_pos hreserve, if_pos hreserve]
      exact ⟨fun _ _ hnot => absurd hreserve (by simp [hnot]), fun _ => follows⟩
    · rw [if_neg hreserve, if_neg hreserve, himage]
      have hnot : s.cache.encoder.curReserve = false := by simpa using hreserve
      cases image with
      | none => exact ⟨fun h => absurd (h.mp rfl) Bool.false_ne_true,
          fun h => absurd rfl (h htype hnot)⟩
      | some p => exact ⟨fun _ _ _ => by simp, fun _ => ⟨fun _ => rfl, fun _ => rfl⟩⟩
  · rename_i htype
    obtain rfl := Option.some.inj hcache
    rw [if_neg (by simp [htype])] at h
    obtain rfl := Option.some.inj h
    exact ⟨fun _ h0 => absurd h0 (by simp [htype]), fun _ => follows⟩
  · cases hcache

theorem Followed.follows_remove (follows : s.Follows) {beginIndex endIndex : Int}
    (h : s.apply seq (.remove beginIndex endIndex) = some t) :
    t.Follows ↔ s.Unsplit seq (.remove beginIndex endIndex) := by
  obtain rfl := Option.some.inj h
  change ((s.cache.encoder.remove seq beginIndex endIndex).encoderCached = true ↔
    (s.stored.bind (renumber beginIndex endIndex)).isSome = true) ↔
      s.Together beginIndex endIndex
  rw [EncoderCache.remove_cached, renumber_isSome, Together,
    show s.cache.encoder.encoderCached = true ↔ _ from follows]
  cases s.stored with
  | none => simp
  | some p =>
    simp only [Option.isSome_some, true_and, Option.some.injEq, exists_eq_left', forall_eq']
    exact not_iff_not

/-- What a step does to the image cached it does to its input, just when it leaves no split. -/
theorem Followed.follows_step (follows : s.Follows) {op : EncoderOp κ}
    (h : s.apply seq op = some t) : t.Follows ↔ s.Unsplit seq op := by
  cases op with
  | startForward positions multimodal reserve maxGraphNodes => exact follows_startForward follows h
  | setLayer layer =>
    obtain rfl := Option.some.inj h
    exact ⟨fun _ => trivial, fun _ => follows⟩
  | setLayerType layerType =>
    obtain rfl := Option.some.inj h
    exact ⟨fun _ => trivial, fun _ => follows⟩
  | put zero key value => exact follows_put follows h
  | remove beginIndex endIndex => exact follows_remove follows h

theorem Followed.Held.startForward (held : s.Held seq) {positions : List Int}
    {multimodal : List Nat} {reserve : Bool} {maxGraphNodes : Int}
    (h : s.apply seq (.startForward positions multimodal reserve maxGraphNodes) = some t) :
    t.Held seq := by
  obtain ⟨out, hout, rfl⟩ := Option.map_eq_some_iff.mp h
  obtain ⟨hranged, hsizes⟩ := Causal.startForward_keeps held.ranged
    (oneSequence seq positions multimodal).toBatch reserve maxGraphNodes
  have hcausal : out.1.causal = (s.cache.causal.startForward
      (oneSequence seq positions multimodal).toBatch reserve maxGraphNodes).1 ∧
      (out.2 = none → out.1.encoder.curReserve = reserve) := by
    obtain ⟨encoder, hencoder, rfl⟩ := Option.map_eq_some_iff.mp hout
    split
    · rename_i heq
      rw [heq]
      exact ⟨rfl, fun h => absurd h (Option.some_ne_none _)⟩
    · rename_i heq
      rw [heq]
      exact ⟨rfl, fun _ => EncoderCache.startForward_curReserve hencoder⟩
  obtain ⟨hcausal, hreserve⟩ := hcausal
  have hfails := (EncoderWrapper.startForward_cached hout).1
  have kept (s' p : Int) : out.1.causal.HasPos s' p ↔ s.cache.causal.HasPos s' p ∨
      reserve = false ∧ out.2 = none ∧ s' = seq ∧ p ∈ positions := by
    rw [hcausal, hfails]
    cases reserve with
    | true => exact ⟨.inl, fun h => h.resolve_right fun h => absurd h.1 (by simp)⟩
    | false =>
      rw [Causal.hasPos_oneSequence held.ranged held.memory, eq_self, true_and]
  refine ⟨hcausal ▸ hranged, ?_, ?_, ?_, fun p hp => (kept seq p).mpr (.inl (held.stored p hp))⟩
  · rw [hcausal]
    exact (congrArg (·.memory) hsizes).trans held.memory
  · rw [Causal.alone_iff]
    intro s' p hp
    rcases (kept s' p).mp hp with hp | hp
    · exact Causal.alone_iff.mp held.alone s' p hp
    · exact hp.2.2.1
  · intro hcur p hp
    dsimp only at hcur hp
    split at hp
    · rename_i hnone
      rw [hreserve hnone] at hcur
      obtain ⟨index, -, hindex⟩ := Option.map_eq_some_iff.mp hp
      exact (kept seq p).mpr (.inr ⟨hcur, hnone, rfl, List.mem_of_getElem? hindex⟩)
    · cases hp

theorem Followed.Held.apply (held : s.Held seq) {op : EncoderOp κ} (h : s.apply seq op = some t) :
    t.Held seq := by
  cases op with
  | startForward positions multimodal reserve maxGraphNodes => exact held.startForward h
  | setLayer layer =>
    obtain rfl := Option.some.inj h
    exact ⟨held.ranged.congr rfl rfl, held.memory, held.alone, held.pass, held.stored⟩
  | setLayerType layerType =>
    obtain rfl := Option.some.inj h
    exact ⟨held.ranged, held.memory, held.alone, held.pass, held.stored⟩
  | put zero key value =>
    obtain ⟨cache, hcache, h⟩ := Option.bind_eq_some_iff.mp h
    unfold EncoderWrapper.put at hcache
    split at hcache
    · rename_i htype
      obtain rfl := Option.some.inj hcache
      rw [if_pos htype] at h
      obtain ⟨image, himage, rfl⟩ := Option.map_eq_some_iff.mp h
      refine ⟨held.ranged, held.memory, held.alone, ?_, ?_⟩
      · rw [EncoderCache.put_curReserve]
        exact held.pass
      · intro p hp
        dsimp only at hp
        split at hp
        · exact held.stored p hp
        · rename_i hreserve
          rw [hp] at himage
          exact held.pass (by simpa using hreserve) p himage
    · rename_i htype
      obtain rfl := Option.some.inj hcache
      rw [if_neg (by simp [htype])] at h
      obtain rfl := Option.some.inj h
      exact ⟨held.ranged.congr rfl rfl, held.memory, held.alone, held.pass, held.stored⟩
    · cases hcache
  | remove beginIndex endIndex =>
    obtain rfl := Option.some.inj h
    obtain ⟨hranged, hsizes⟩ := Causal.remove_keeps held.ranged seq beginIndex endIndex
    refine ⟨hranged, (congrArg (·.memory) hsizes).trans held.memory, held.alone.remove seq beginIndex endIndex,
      ?_, ?_⟩
    · intro hcur q hq
      change (s.cache.encoder.remove seq beginIndex endIndex).curReserve = false at hcur
      rw [EncoderCache.remove_curReserve] at hcur
      obtain ⟨image, himage, hq⟩ := Option.map_eq_some_iff.mp hq
      obtain ⟨p, rfl, hq⟩ := Option.bind_eq_some_iff.mp hq
      exact Causal.hasPos_renumber held.alone (held.pass hcur p himage) hq
    · intro q hq
      obtain ⟨p, hp, hq⟩ := Option.bind_eq_some_iff.mp hq
      exact Causal.hasPos_renumber held.alone (held.stored p hp) hq

/-- Where a run has come to, the image stored last is followed to a position of the sequence, as
`Causal.Remove` has moved its input; a new causal cache without a window holds nothing yet. -/
theorem followed_held {causal : Causal κ} (ranged : causal.Ranged)
    (memory : causal.swaMemorySize = maxInt32) (alone : causal.Alone seq) {ops : List (EncoderOp κ)}
    (h : ops.foldlM (Followed.apply seq) { cache := { causal } } = some t) : t.Held seq :=
  foldlM_invariant (I := Followed.Held seq) (fun _ _ _ _ held h => held.apply h) h
    ⟨ranged, memory, alone, by simp, by simp⟩

/-- The encoder cache follows its sequence through a run just when no step of it splits the position
remembered from the input. -/
theorem encoder_follows_iff (seq : Int) (causal : Causal κ) (ops : List (EncoderOp κ)) :
    (∀ n t, (ops.take n).foldlM (Followed.apply seq) { cache := { causal } } = some t →
        t.Follows) ↔
      AlongM (Followed.apply seq) (Followed.Unsplit seq) { cache := { causal } } ops := by
  have start : ({ cache := { causal } } : Followed κ).Follows := Iff.rfl
  exact alongM_iff (fun _ _ _ follows h => Followed.follows_step follows h) start ops

end Runs

/-- An image stored at position 3, and two context shifts that each discard two inputs. -/
def twoShifts : List (EncoderOp Nat) :=
  [.startForward [0, 1, 2, 3] [3] false 8, .put 0 id id, .remove 0 2, .remove 0 2]

def fourCells : Causal Nat :=
  ((newCausalCache (some ⟨fun _ x _ => x, fun _ => false⟩)).init ⟨1, 1⟩ 1 4 4).getD (newCausalCache none)

/-- One of the shifts moves the image, and the next one discards it. -/
theorem twoShifts_held : ∃ t, twoShifts.foldlM (Followed.apply 0) { cache := { causal := fourCells } } = some t ∧
    t.Held 0 := by
  obtain ⟨t, ht⟩ : ∃ t, twoShifts.foldlM (Followed.apply 0) { cache := { causal := fourCells } } = some t :=
    ⟨_, rfl⟩
  have hinit : (newCausalCache (some ⟨fun _ x _ => x, fun _ => false⟩)).init ⟨1, 1⟩ 1 4 4 = some fourCells := rfl
  have alone : fourCells.Alone 0 := by
    intro j s hs
    rw [Causal.cell, List.getD_eq_getElem?_getD] at hs
    rcases hj : fourCells.cells[j]? with _ | cell
    · rw [hj] at hs
      cases hs
    · rw [hj, List.eq_of_mem_replicate (List.mem_of_getElem? hj)] at hs
      cases hs
  exact ⟨t, ht, followed_held (Causal.init_tidy hinit).ranged rfl alone ht⟩

/-- The second shift discards the image, which has moved to position 1. -/
theorem twoShifts_keeps_image : ¬ ∀ (seq : Int) (causal : Causal Nat) (ops : List (EncoderOp Nat))
    (t : Followed Nat), ops.foldlM (Followed.apply seq) { cache := { causal } } = some t →
      t.Follows := by
  intro h
  have follows := h 0 (((newCausalCache (some ⟨fun _ x _ => x, fun _ => false⟩)).init ⟨1, 1⟩ 1 8
    4).getD (newCausalCache none)) twoShifts _ rfl
  exact absurd (follows.mp rfl) Bool.false_ne_true

end Ecco9.KvCache
