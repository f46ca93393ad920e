import Ecco9.Runner.Lineage

/-! What stays in the slot of a sequence when a stop string is found. -/

universe u

namespace Ecco9.Runner

open Ecco9.Library

/-! ### The pieces that are returned -/

/-- How many pieces of a text lie before byte `i` as a whole, up to the first that does not. -/
def wholeBefore : (i : Nat) → List Text → Nat
  | _, [] => 0
  | i, piece :: pieces =>
    if 0 < i ∧ piece.length ≤ i then wholeBefore (i - piece.length) pieces + 1 else 0

/-- How many pieces are returned as they are, up to the first that is dropped or cut. -/
def wholePieces : (pieces returned : List Text) → Nat
  | piece :: pieces, part :: parts => if piece = part then wholePieces pieces parts + 1 else 0
  | _, _ => 0

theorem wholeBefore_le (i : Nat) (pieces : List Text) : wholeBefore i pieces ≤ pieces.length := by
  induction pieces generalizing i with
  | nil => exact Nat.le_refl _
  | cons piece pieces ih =>
    rw [wholeBefore, List.length_cons]
    split
    · exact Nat.succ_le_succ (ih _)
    · exact Nat.zero_le _

/-- Only the end of the text, when it is not empty, lies behind all pieces. -/
theorem wholeBefore_eq_length {i : Nat} {pieces : List Text}
    (h : wholeBefore i pieces = pieces.length) (hne : pieces ≠ []) :
    0 < i ∧ pieces.flatten.length ≤ i := by
  induction pieces generalizing i with
  | nil => exact absurd rfl hne
  | cons piece pieces ih =>
    rw [wholeBefore, List.length_cons] at h
    split at h
    · rename_i hin
      refine ⟨hin.1, ?_⟩
      rw [List.flatten_cons, List.length_append]
      by_cases hnil : pieces = []
      · rw [hnil, List.flatten_nil, List.length_nil, Nat.add_zero]
        exact hin.2
      · have := (ih (Nat.succ.inj h) hnil).2
        omega
    · omega

theorem wholeBefore_lt {pieces : List Text} {stop : Text} {i : Nat} (hne : pieces ≠ [])
    (h : index pieces.flatten stop = some i) : wholeBefore i pieces < pieces.length := by
  refine lt_of_le_of_ne (wholeBefore_le i pieces) fun heq => ?_
  obtain ⟨hpos, hlen⟩ := wholeBefore_eq_length heq hne
  obtain ⟨-, hocc, hfirst⟩ := index_eq_some.mp h
  -- only the empty stop begins at the end, and it begins before
  rw [OccursAt, List.drop_of_length_le hlen, List.prefix_nil] at hocc
  subst hocc
  exact hfirst 0 hpos List.nil_prefix

theorem splitPieces_end (joined : Text) (lengths : List Nat) :
    splitPieces joined lengths joined.length = ([], false) := by
  cases lengths with
  | nil => rfl
  | cons length lengths => rw [splitPieces, if_pos (Nat.le_refl _)]

theorem splitPieces_whole (pieces : List Text) (joined : Text) {start : Nat}
    (hstart : start ≤ joined.length) (h : joined.drop start <+: pieces.flatten) :
    wholePieces pieces (splitPieces joined (pieces.map List.length) start).1 =
        wholeBefore (joined.length - start) pieces ∧
      (splitPieces joined (pieces.map List.length) start).1.length =
        wholeBefore (joined.length - start) pieces +
          if (splitPieces joined (pieces.map List.length) start).2 then 1 else 0 := by
  induction pieces generalizing start with
  | nil => exact ⟨rfl, rfl⟩
  | cons piece pieces ih =>
    have hlen : (joined.drop start).length = joined.length - start := List.length_drop
    rw [List.map_cons, splitPieces, wholeBefore]
    by_cases hend : start ≥ joined.length
    · rw [if_pos hend, if_neg (by omega)]
      exact ⟨rfl, rfl⟩
    · rw [if_neg hend]
      by_cases hcut : start + piece.length > joined.length
      · rw [if_pos hcut, if_neg (by omega), splitPieces_end]
        refine ⟨if_neg ?_, rfl⟩
        intro heq
        have := congrArg List.length heq
        omega
      · rw [if_neg hcut, if_pos (by omega)]
        rw [List.flatten_cons] at h
        have hpiece : (joined.drop start).take piece.length = piece := by
          have hpre : piece <+: joined.drop start :=
            List.prefix_of_prefix_length_le (List.prefix_append ..) h (by omega)
          exact (List.prefix_iff_eq_take.mp hpre).symm
        have hrest : joined.drop (start + piece.length) <+: pieces.flatten := by
          obtain ⟨tail, htail⟩ := h
          refine ⟨tail, ?_⟩
          have := congrArg (List.drop piece.length) htail
          rw [List.drop_append_of_le_length (by omega), List.drop_left, List.drop_drop] at this
          exact this
        obtain ⟨hwhole, hlength⟩ := ih (by omega) hrest
        have hsub : joined.length - start - piece.length = joined.length - (start + piece.length) :=
          by omega
        dsimp only
        rw [hpiece, wholePieces, if_pos rfl, hsub, List.length_cons, hwhole, hlength]
        exact ⟨rfl, by omega⟩

/-- `TruncateStop` returns the pieces before the stop, and the front of the one it begins in. -/
theorem truncateStop_whole {pieces : List Text} {stop : Text} {i : Nat}
    (h : index pieces.flatten stop = some i) :
    wholePieces pieces (truncateStop pieces stop).1 = wholeBefore i pieces ∧
      (truncateStop pieces stop).1.length =
        wholeBefore i pieces + if (truncateStop pieces stop).2 then 1 else 0 := by
  have hlen : (pieces.flatten.take i).length = i := List.length_take_of_le (index_eq_some.mp h).1
  have whole := splitPieces_whole pieces (pieces.flatten.take i) (Nat.zero_le _)
    (List.take_prefix ..)
  rw [hlen] at whole
  rw [truncateStop, h]
  exact whole

/-! ### `tokenLen` -/

/-- The number of inputs that are to stay in the slot when a stop was hit. -/
def tokenLen (inputs origLen newLen : Nat) (tokenTruncated : Bool) : Int :=
  let tokenLen : Int := inputs + 1
  let tokenLen := tokenLen - (origLen - newLen)
  if tokenTruncated || origLen = newLen then tokenLen - 1 else tokenLen

/-- The slice of the inputs of the slot goes up to `tokenLen`. -/
theorem inputsAtStop_eq {inputs : List Input} {origLen newLen : Nat} (hle : newLen ≤ origLen)
    (tokenTruncated : Bool) : inputsAtStop inputs origLen newLen tokenTruncated =
      if 0 ≤ tokenLen inputs.length origLen newLen tokenTruncated then
        some (inputs.take (tokenLen inputs.length origLen newLen tokenTruncated).toNat)
      else none := by
  have htoken : tokenLen inputs.length origLen newLen tokenTruncated = (inputs.length : Int) + 1 -
      ((origLen - newLen + if tokenTruncated || origLen = newLen then 1 else 0 : Nat) : Int) := by
    unfold tokenLen
    dsimp only
    split <;> omega
  rw [htoken, inputsAtStop]
  generalize (origLen - newLen + if tokenTruncated || origLen = newLen then 1 else 0) = cut
  by_cases hcut : cut > inputs.length + 1
  · rw [if_pos hcut, if_neg (by omega)]
  · rw [if_neg hcut, if_pos (by omega)]
    congr 2
    omega

/-- After a stop that begins at byte `i`, what is not whole is dropped from the slot, but for the
newest token, which is not in it yet. -/
theorem tokenLen_eq {pieces : List Text} {stop : Text} {i : Nat} (hne : pieces ≠ [])
    (h : index pieces.flatten stop = some i) (inputs : Nat) :
    (truncateStop pieces stop).1.length ≤ pieces.length ∧
      tokenLen inputs pieces.length (truncateStop pieces stop).1.length
        (truncateStop pieces stop).2 = (inputs : Int) + 1 - ((pieces.length - wholeBefore i pieces : Nat) : Int) := by
  obtain ⟨-, hlen⟩ := truncateStop_whole h
  have hlt := wholeBefore_lt hne h
  rw [hlen]
  unfold tokenLen
  cases (truncateStop pieces stop).2 with
  | true =>
    rw [Bool.true_or, if_pos rfl, if_pos rfl]
    omega
  | false =>
    rw [if_neg Bool.false_ne_true, Bool.false_or, if_neg (by rw [decide_eq_true_eq]; omega)]
    omega

/-! ### The turn in which a stop is hit -/

/-- The inputs of a sequence that the cache holds after `Forward`. -/
def Finishing.evaluated (f : Finishing K) (seq : Sequence) : List Input :=
  (f.server.cache.slot seq.cache).inputs ++ seq.pendingInputs

/-- The loop after `Forward` gets to sequence `i`. -/
structure Reaches (ops : KvOps K) (env : Env) (s : Server K) (b : Building K) (i : Nat)
    (f : Finishing K) : Prop where
  built : s.buildBatch ops env = some b
  entries : b.batch.entries ≠ []
  turns : ∃ cache done todo, ops.forward b.server.cache.cache b.batch = (cache, true) ∧
    List.range b.server.seqs.length = done ++ i :: todo ∧
    done.foldlM (Finishing.visit env b.batch.outputs)
      { server := { b.server with cache := { b.server.cache with cache } } } = some f

/-- In the turn of sequence `i`, with the piece of the token sampled, a stop is found. -/
structure Stops (env : Env) (outputs : List Nat) (f : Finishing K) (i : Nat) (seq : Sequence)
    (piece stop : Text) : Prop where
  here : f.server.seq i = some seq
  last : seq.inputs = []
  generates : seq.embeddingOnly = false
  row : seq.iBatch < outputs.length
  token : ∃ token, env.sample i seq.iBatch = some token ∧ env.isEOS token = false ∧
    env.decode token = some piece
  found : findStop (seq.pendingResponses ++ [piece]).flatten seq.stop = some stop

theorem Server.slot_stopped (s : Server K) {i : Nat} (hi : i < s.seqs.length) (seq : Sequence)
    (cache : InputCache K) (hk : seq.cache < cache.slots.length) (env : Env) (reason : DoneReason)
    (inputs : List Input) : ((Server.removeSequence { s.setSeq i (some seq) with
      cache := cache.setInputs seq.cache inputs } env i reason).cache.slot seq.cache).inputs =
        inputs := by
  have here : Server.seq { s.setSeq i (some seq) with
      cache := cache.setInputs seq.cache inputs } i = some seq := Server.seq_setSeq_self hi _
  have hk' : seq.cache < (cache.setInputs seq.cache inputs).slots.length := by
    rw [InputCache.setInputs, InputCache.setSlot_length]
    exact hk
  rw [Server.removeSequence_slot here hk', if_pos rfl]
  dsimp only
  rw [InputCache.slot_setInputs_self hk]

/-- The slot keeps what the slice up to `tokenLen` is; where there is none, the turn fails. -/
theorem Stops.visit {env : Env} {outputs : List Nat} {f : Finishing K} {i : Nat} {seq : Sequence}
    {piece stop : Text} (stops : Stops env outputs f i seq piece stop)
    (assigned : f.server.Assigned) :
    (f.visit env outputs i).map (fun f' => (f'.server.cache.slot seq.cache).inputs) =
      inputsAtStop (f.evaluated seq) (seq.pendingResponses ++ [piece]).length
        (truncateStop (seq.pendingResponses ++ [piece]) stop).1.length
        (truncateStop (seq.pendingResponses ++ [piece]) stop).2 := by
  have hi := Server.lt_of_seq stops.here
  have hk := (assigned.slot i seq stops.here).1
  obtain ⟨token, hsample, heos, hdecode⟩ := stops.token
  have hpiece : seq.toStream.addPiece piece (env.quit i) = .stopped
      { seq.toStream with
        pendingResponses := (truncateStop (seq.pendingResponses ++ [piece]) stop).1 }
      (seq.pendingResponses ++ [piece]).length
      (truncateStop (seq.pendingResponses ++ [piece]) stop).2 := by
    rw [Stream.addPiece]
    dsimp only
    rw [stops.found]
  have fedSlot : ((f.server.cache.setInputs seq.cache ((f.server.cache.slot seq.cache).inputs ++
      seq.pendingInputs)).slot seq.cache).inputs = f.evaluated seq := by
    rw [InputCache.slot_setInputs_self hk]
    rfl
  rw [Finishing.visit, stops.here]
  dsimp only
  rw [if_neg (by simp [stops.last]), if_neg (by simp [stops.generates]), Finishing.sample]
  dsimp only
  rw [if_pos stops.row, hsample]
  dsimp only
  rw [if_neg (by simp [heos]), hdecode]
  dsimp only
  rw [hpiece]
  dsimp only
  rw [Server.setSeq_cache, Server.setSeq_cache]
  dsimp only
  rw [fedSlot]
  cases hleft : inputsAtStop (f.evaluated seq) (seq.pendingResponses ++ [piece]).length
      (truncateStop (seq.pendingResponses ++ [piece]) stop).1.length
      (truncateStop (seq.pendingResponses ++ [piece]) stop).2 with
  | none => rfl
  | some inputs =>
    refine congrArg some (Server.slot_stopped _ ?_ _ _ ?_ env .stop inputs)
    · simp only [Server.setSeq_length]
      exact hi
    · change seq.cache < (f.server.cache.setInputs _ _).slots.length
      rw [InputCache.setInputs, InputCache.setSlot_length]
      exact hk

/-- The turns after that of a sequence leave its slot alone. -/
theorem Server.visits_slot {env : Env} {outputs done todo : List Nat} {i : Nat} {s : Server K}
    {f f' f'' : Finishing K} {seq : Sequence} (assigned : s.Assigned)
    (nodup : (done ++ i :: todo).Nodup)
    (hdone : done.foldlM (Finishing.visit env outputs) { server := s } = some f)
    (hs : f.server.seq i = some seq) (hvisit : f.visit env outputs i = some f')
    (htodo : todo.foldlM (Finishing.visit env outputs) f' = some f'') :
    f''.server.cache.slot seq.cache = f'.server.cache.slot seq.cache := by
  have hi := not_mem_done nodup rfl
  have finished := (Server.finished_visits assigned (List.nodup_append.mp nodup).1 hdone).1
  have hs₀ : s.seq i = some seq := by rw [← (finished.fresh i hi).1, hs]
  refine (foldlM_progress (I := fun l g => Finished s (done ++ [i] ++ l) g ∧
    g.server.cache.slot seq.cache = f'.server.cache.slot seq.cache) ?_ htodo ⟨?_, rfl⟩).2
  · rintro l j rest g g' hl ⟨finished, hslot⟩ hvisit
    have hall : done ++ i :: todo = done ++ [i] ++ l ++ j :: rest := by
      rw [hl, List.append_assoc, List.append_assoc]
      rfl
    have hj := not_mem_done nodup hall
    have next := finished.visit assigned hj hvisit
    rw [List.append_assoc] at next
    refine ⟨next, ?_⟩
    cases hsj : g.server.seq j with
    | none =>
      rw [Finishing.visit_none hvisit hsj]
      exact hslot
    | some seqj =>
      have turned := (Finishing.visit_some hvisit hsj finished.assigned).turned hsj finished.assigned
      rw [(finished.fresh j hj).1] at hsj
      rw [turned.slot, hslot]
      intro heq
      have hij := assigned.own i j seq seqj hs₀ hsj heq
      exact hj (by simp [hij])
  · rw [List.append_nil]
    exact finished.visit assigned hi hvisit

/-- Where the turn of a sequence leaves its slot, there `processBatch` does. -/
theorem Reaches.processBatch {ops : KvOps K} {env : Env} {s : Server K} {b : Building K} {i : Nat}
    {f f' : Finishing K} {p : Processed K} {seq : Sequence} (reaches : Reaches ops env s b i f)
    (assigned : b.server.Assigned) (hs : f.server.seq i = some seq)
    (hvisit : f.visit env b.batch.outputs i = some f') (hp : s.processBatch ops env = some p) :
    p.server.cache.slot seq.cache = f'.server.cache.slot seq.cache := by
  obtain ⟨cache, done, todo, hforward, hrange, hdone⟩ := reaches.turns
  cases Server.processBatch_some hp with
  | empty hbuild hempty =>
    rw [reaches.built] at hbuild
    obtain rfl := Option.some.inj hbuild
    exact absurd hempty reaches.entries
  | forward cache' t f'' hbuild hne hforward' ht hfold hserver =>
    rw [reaches.built] at hbuild
    obtain rfl := Option.some.inj hbuild
    rw [hforward] at hforward'
    obtain ⟨rfl, -⟩ := Prod.mk.inj hforward'
    subst ht
    have hall : List.range (Server.seqs { p.building.server with
        cache := { p.building.server.cache with cache } }).length = done ++ i :: todo := hrange
    rw [hall, List.foldlM_append, hdone, Option.bind_eq_bind, Option.bind_some, List.foldlM_cons,
      hvisit, Option.bind_eq_bind, Option.bind_some] at hfold
    rw [hserver]
    exact Server.visits_slot (assigned.congr (Server.sameUse_cache _ cache)) (hall ▸ List.nodup_range) hdone hs hvisit hfold

/-! ### The inputs that stay -/

/-- The number of the token after the first `whole` ones of the last `pieces`, the newest of which is
not in the lineage yet. -/
def Lineage.numberAfter (l : Lineage) (pieces whole : Nat) : Nat :=
  l.pieces.length + 2 - pieces + whole

/-- The inputs of a line before number `first`. -/
def inputsBefore (line : List (Input × Nat)) (first : Nat) : List Input :=
  (line.filter fun e => decide (e.2 < first)).map Prod.fst

/-- A stop in `pieces` leaves in the slot the inputs before the first token whose piece was dropped
or cut. -/
structure KeepsWhole (ops : KvOps K) (env : Env) (s : Server K) (b : Building K) (i : Nat)
    (f : Finishing K) (seq : Sequence) (l : Lineage) (pieces : List Text) (stop : Text) : Prop where
  nonneg : 0 ≤ tokenLen (f.evaluated seq).length pieces.length (truncateStop pieces stop).1.length
    (truncateStop pieces stop).2
  le : tokenLen (f.evaluated seq).length pieces.length (truncateStop pieces stop).1.length
    (truncateStop pieces stop).2 ≤ (f.evaluated seq).length
  turn : ∃ f', f.visit env b.batch.outputs i = some f' ∧ (f'.server.cache.slot seq.cache).inputs =
    inputsBefore (b.line s i l)
      (l.numberAfter pieces.length (wholePieces pieces (truncateStop pieces stop).1))
  batch : ∀ p, s.processBatch ops env = some p → (p.server.cache.slot seq.cache).inputs =
    inputsBefore (b.line s i l)
      (l.numberAfter pieces.length (wholePieces pieces (truncateStop pieces stop).1))

/-- The inputs of the tokens numbered from `first` on are all in the line, but for the newest one,
which has not been evaluated. -/
def AllThere (l : Lineage) (line : List (Input × Nat)) (first : Nat) : Prop :=
  ∀ n, first ≤ n → n ≤ l.pieces.length → ∃ e ∈ line, e.2 = n

/-- The lineage of a sequence whose turn after `Forward` it is. -/
theorem Reaches.tracks {ops : KvOps K} {env : Env} {s : Server K} {h : Lineages} {b : Building K}
    {i : Nat} {f : Finishing K} {seq : Sequence} (reaches : Reaches ops env s b i f)
    (ready : s.Ready) (lined : s.Lined h) (hs : f.server.seq i = some seq)
    (hlast : seq.inputs = []) : f.server.Assigned ∧ b.server.Assigned ∧
      ((b.line s i (h i)).map Prod.fst = f.evaluated seq ∧ (b.line s i (h i)).Sublist (h i).line) ∧
      Ascending (h i).line ∧ (∀ e ∈ (h i).line, e.2 ≤ (h i).pieces.length) ∧
      seq.pendingResponses <:+ (h i).pieces := by
  obtain ⟨cache, done, todo, hforward, hrange, hdone⟩ := reaches.turns
  have nodup : (done ++ i :: todo).Nodup := hrange ▸ List.nodup_range
  have built := (ready.submits reaches.built).2
  have assigned := built.assigned.congr (Server.sameUse_cache b.server cache)
  have finished := (Server.finished_visits assigned (List.nodup_append.mp nodup).1 hdone).1
  obtain ⟨hseq, -, hslot⟩ := finished.fresh i (not_mem_done nodup rfl)
  rw [hs] at hseq
  have here : b.server.seq i = some seq := hseq.symm
  obtain ⟨seq₀, hs₀, -⟩ := built.old i seq here
  have rebuilt := ready.rebuilt reaches.built hs₀ here
  have tracks := lined i seq₀ hs₀
  have line := tracks.rebuilt rebuilt hs₀ here
  have held := tracks.held
  rw [← rebuilt.stream] at held
  rw [hlast, List.append_nil] at line
  have hevaluated : f.evaluated seq =
      (b.server.cache.slot seq.cache).inputs ++ seq.pendingInputs := by
    rw [Finishing.evaluated, hslot seq here]
    rfl
  rw [hevaluated]
  exact ⟨finished.assigned, built.assigned, line, tracks.ascending, tracks.bound, held⟩

/-- In every run, a stop leaves in the slot the inputs of the tokens whose pieces are returned whole,
just when no shift has discarded the input of a token whose piece is dropped or cut. -/
theorem runLines_stops {ops : KvOps K} {cache : K} {kvSize parallel batchSize : Nat}
    {multiUserCache : Bool} {events : List Event} {s : Server K} {h : Lineages}
    (hrun : runLines ops cache kvSize parallel batchSize multiUserCache events = some (s, h))
    (admissible : ∀ seq, .completion seq ∈ events → Admissible (kvSize / parallel) seq)
    (empty : ∀ seq, .completion seq ∈ events → seq.pendingResponses = [])
    {env : Env} {b : Building K} {i : Nat} {f : Finishing K} (reaches : Reaches ops env s b i f)
    {seq : Sequence} {piece stop : Text} (stops : Stops env b.batch.outputs f i seq piece stop)
    {start : Nat} (hstart : index (seq.pendingResponses ++ [piece]).flatten stop = some start) :
    (b.line s i (h i)).map Prod.fst = f.evaluated seq ∧
      (KeepsWhole ops env s b i f seq (h i) (seq.pendingResponses ++ [piece]) stop ↔
        AllThere (h i) (b.line s i (h i)) ((h i).numberAfter
          (seq.pendingResponses ++ [piece]).length
          (wholeBefore start (seq.pendingResponses ++ [piece])))) := by
  obtain ⟨ready, lined⟩ := runLines_lined hrun admissible empty
  obtain ⟨assignedF, assignedB, ⟨hline, hsub⟩, ascending, bound, held⟩ :=
    reaches.tracks ready lined stops.here stops.last
  refine ⟨hline, ?_⟩
  have visit := stops.visit assignedF
  have hne : seq.pendingResponses ++ [piece] ≠ [] := by simp
  have hpieces : (seq.pendingResponses ++ [piece]).length ≤ (h i).pieces.length + 1 := by
    rw [List.length_append, List.length_singleton]
    exact Nat.succ_le_succ held.length_le
  have keeps (f' : Finishing K) (hf' : f.visit env b.batch.outputs i = some f') (p : Processed K)
      (hp : s.processBatch ops env = some p) :=
    reaches.processBatch assignedB stops.here hf' hp
  generalize seq.pendingResponses ++ [piece] = pieces at hne hpieces visit hstart ⊢
  obtain ⟨hle, htoken⟩ := tokenLen_eq hne hstart (f.evaluated seq).length
  have hlt := wholeBefore_lt hne hstart
  rw [inputsAtStop_eq hle] at visit
  -- the inputs that are not to stay are those from the first number on that is not whole
  have hlen : (b.line s i (h i)).length = (f.evaluated seq).length := by
    rw [← hline, List.length_map]
  have hcount : (h i).pieces.length + 1 -
      (h i).numberAfter pieces.length (wholeBefore start pieces) =
        pieces.length - wholeBefore start pieces - 1 := by
    rw [Lineage.numberAfter]
    omega
  have hfirst : 1 ≤ (h i).numberAfter pieces.length (wholeBefore start pieces) := by
    rw [Lineage.numberAfter]
    omega
  have take := (ascending.sublist hsub).take_iff (fun e he => bound e (hsub.subset he)) hfirst
  rw [hcount, hlen, hline] at take
  rw [AllThere, ← take]
  rw [htoken] at visit
  constructor
  · rintro ⟨nonneg, -, ⟨f', hf', hinputs⟩, -⟩
    rw [htoken] at nonneg
    rw [if_pos nonneg, hf'] at visit
    rw [(truncateStop_whole hstart).1] at hinputs
    refine ⟨by omega, ?_⟩
    have htake := Option.some.inj visit
    dsimp only at htake
    rw [hinputs] at htake
    rw [← inputsBefore, htake]
    congr 1
    omega
  · rintro ⟨hfits, htake⟩
    have nonneg : 0 ≤ ((f.evaluated seq).length : Int) + 1 -
        ((pieces.length - wholeBefore start pieces : Nat) : Int) := by omega
    have hnat : (((f.evaluated seq).length : Int) + 1 -
        ((pieces.length - wholeBefore start pieces : Nat) : Int)).toNat =
          (f.evaluated seq).length - (pieces.length - wholeBefore start pieces - 1) := by omega
    rw [if_pos nonneg, hnat, htake, Option.map_eq_some_iff] at visit
    obtain ⟨f', hf', hinputs⟩ := visit
    rw [← (truncateStop_whole hstart).1] at hinputs
    refine ⟨by rw [htoken]; exact nonneg, by rw [htoken]; omega, ⟨f', hf', hinputs⟩, ?_⟩
    intro p hp
    rw [keeps f' hf' p hp]
    exact hinputs

/-! ### A stop over six tokens -/

/-- A KV cache that can be shifted. -/
def shifting : KvOps Unit where
  canResume _ _ _ := true
  remove _ _ _ _ := ((), true)
  copyPrefix _ _ _ _ := ()
  forward _ _ := ((), true)

/-- The token sampled is a letter. -/
def letter (token : Nat) : Env where
  getMultimodal _ := none
  sample _ _ := some token
  isEOS _ := false
  decode token := some [UInt8.ofNat token.toNat]
  quit _ := false
  quitAtEnd _ := false

/-- A prompt of two tokens, after which the letters from 'a' up to the one before `last` are sampled;
the stop is `stop`. -/
def spells (stop : Text) (last : Nat) : List Event :=
  [.acquire, .completion { request [{ token := 1 }, { token := 2 }] with stop := [stop] }] ++
    (List.range' 97 (last - 97)).map fun token => .processBatch (letter token)

/-- Six tokens are held back in a context of four, and two shifts discard inputs; then all six are to
be dropped from three inputs, and `tokenLen` is negative. -/
theorem stop_after_shifts : ∃ r b f seq,
    runLines shifting () 4 1 8 false (spells [97, 98, 99, 100, 101, 102] 102) = some r ∧
      Reaches shifting (letter 102) r.1 b 0 f ∧
      Stops (letter 102) b.batch.outputs f 0 seq [102] [97, 98, 99, 100, 101, 102] ∧
      tokenLen (f.evaluated seq).length (seq.pendingResponses ++ [[102]]).length
        (truncateStop (seq.pendingResponses ++ [[102]]) [97, 98, 99, 100, 101, 102]).1.length
        (truncateStop (seq.pendingResponses ++ [[102]]) [97, 98, 99, 100, 101, 102]).2 = -2 ∧
      r.1.processBatch shifting (letter 102) = none ∧
      ¬KeepsWhole shifting (letter 102) r.1 b 0 f seq (r.2 0) (seq.pendingResponses ++ [[102]])
        [97, 98, 99, 100, 101, 102] := by
  refine ⟨_, _, _, _, rfl, ⟨rfl, ?_, (), [], [], rfl, rfl, rfl⟩,
    ⟨rfl, rfl, rfl, ?_, ⟨102, rfl, rfl, rfl⟩, rfl⟩, rfl, rfl, ?_⟩
  · exact List.cons_ne_nil _ _
  · decide
  · intro h
    exact absurd h.nonneg (by decide)

/-- The server after two of three letters. -/
def twoLetters : Server Unit where
  seqs := [some {
    stop := [[97, 98, 99]], pendingResponses := [[97], [98]], inputs := [{ token := 98 }]
    numPredict := -1, numPredicted := 2, numKeep := 0 }]
  cache := {
    numCtx := 8, multiUserCache := false, cache := (), now := 3
    slots := [{
      id := 0, inputs := [{ token := 1 }, { token := 2 }, { token := 97 }], inUse := true
      lastUsed := 2 }] }
  batchSize := 8
  nextSeq := 1
  acquired := 1

theorem spells_twoLetters : ∃ h,
    runLines shifting () 8 1 8 false (spells [97, 98, 99] 99) = some (twoLetters, h) ∧
      h 0 = {
        line := [({ token := 1 }, 0), ({ token := 2 }, 0), ({ token := 97 }, 1),
          ({ token := 98 }, 2)]
        pieces := [[97], [98]] } := ⟨_, rfl, rfl⟩

/-- Three letters are held back in a context that has room for them, until they are the stop. -/
theorem stop_with_room : ∃ h b f seq,
    runLines shifting () 8 1 8 false (spells [97, 98, 99] 99) = some (twoLetters, h) ∧
      (b.line twoLetters 0 (h 0)).map Prod.fst = f.evaluated seq ∧
      KeepsWhole shifting (letter 99) twoLetters b 0 f seq (h 0) (seq.pendingResponses ++ [[99]])
        [97, 98, 99] := by
  have admissible (seq : Sequence) (hseq : .completion seq ∈ spells [97, 98, 99] 99) :
      seq = { request [{ token := 1 }, { token := 2 }] with stop := [[97, 98, 99]] } := by
    simpa [spells] using hseq
  obtain ⟨h, hrun, hline⟩ := spells_twoLetters
  have stops := runLines_stops hrun
    (fun seq hseq => by rw [admissible seq hseq]; decide)
    (fun seq hseq => by rw [admissible seq hseq]; rfl)
    (show Reaches shifting (letter 99) _ _ 0 _ from
      ⟨rfl, List.cons_ne_nil _ _, (), [], [], rfl, rfl, rfl⟩)
    (show Stops (letter 99) _ _ 0 _ [99] [97, 98, 99] from
      ⟨rfl, rfl, rfl, by decide, ⟨99, rfl, rfl, rfl⟩, rfl⟩) rfl
  refine ⟨h, _, _, _, hrun, stops.1, stops.2.mpr ?_⟩
  rw [hline]
  intro n hfirst hlast
  have hn : n = 1 ∨ n = 2 := by
    have h1 : 1 ≤ n := hfirst
    have h2 : n ≤ 2 := hlast
    omega
  rcases hn with rfl | rfl
  · exact ⟨({ token := 97 }, 1), by decide, rfl⟩
  · exact ⟨({ token := 98 }, 2), by decide, rfl⟩

end Ecco9.Runner
