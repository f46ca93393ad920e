import Ecco9.Library.BreadthFirst
import Ecco9.Library.Runs
import Ecco9.Library.Utf8
import Mathlib.Data.List.AList

/-! The nodes and edges of `org/ecco9-memory/memory/hypergraph.go`, whose indices are only appended to;
`Traverse`, which trusts the indices, and the runs after which it may. -/

namespace Ecco9.Memory

open Ecco9.Library

structure MemoryNode where
  id : Text
  type : Text
  deriving DecidableEq, Repr

structure MemoryEdge where
  id : Text
  sourceID : Text
  targetID : Text
  relation : Text
  deriving DecidableEq, Repr

/-- A node without an entry in an index has nothing listed. -/
structure HypergraphMemory where
  nodes : AList fun _ : Text => MemoryNode := ∅
  edges : AList fun _ : Text => MemoryEdge := ∅
  outgoing : Text → List Text := fun _ => []
  incoming : Text → List Text := fun _ => []
  typeIndex : Text → List Text := fun _ => []
  timeIndex : List Text := []

/-- `index[key] = append(index[key], id)` -/
def appendTo (index : Text → List Text) (key id : Text) : Text → List Text :=
  Function.update index key (index key ++ [id])

def MemoryEdge.idOr (newID : Text) (edge : MemoryEdge) : Text := if edge.id = [] then newID else edge.id

/-- What is put into the store: the id is chosen if there is none. -/
inductive Insertion
  | node (newID : Text) (node : MemoryNode)
  | edge (newID : Text) (edge : MemoryEdge)

namespace HypergraphMemory

variable (hg : HypergraphMemory)

def addNode (newID : Text) (node : MemoryNode) : HypergraphMemory × Text :=
  let id := if node.id = [] then newID else node.id
  let type := if node.type = [] then ascii "concept" else node.type
  ({ hg with
    nodes := hg.nodes.insert id { id, type }
    typeIndex := appendTo hg.typeIndex type id
    timeIndex := hg.timeIndex ++ [id] }, id)

def addEdge (newID : Text) (edge : MemoryEdge) : Except Text (HypergraphMemory × Text) :=
  if edge.sourceID ∉ hg.nodes then .error (ascii "source node not found: " ++ edge.sourceID)
  else if edge.targetID ∉ hg.nodes then .error (ascii "target node not found: " ++ edge.targetID)
  else
    let id := edge.idOr newID
    let relation := if edge.relation = [] then ascii "related_to" else edge.relation
    .ok ({ hg with
      edges := hg.edges.insert id { edge with id, relation }
      outgoing := appendTo hg.outgoing edge.sourceID id
      incoming := appendTo hg.incoming edge.targetID id }, id)

def insert : Insertion → HypergraphMemory
  | .node newID node => (hg.addNode newID node).1
  | .edge newID edge =>
    match hg.addEdge newID edge with
    | .ok (hg, _) => hg
    | .error _ => hg

end HypergraphMemory

/-- An index lists, for what is at one end of the edges, the edges that are stored. -/
def Lists (index : Text → List Text) (edges : AList fun _ : Text => MemoryEdge)
    (endOf : MemoryEdge → Text) : Prop :=
  ∀ x id, id ∈ index x ↔ ∃ e, edges.lookup id = some e ∧ endOf e = x

structure Exact (hg : HypergraphMemory) : Prop where
  outgoing : Lists hg.outgoing hg.edges MemoryEdge.sourceID
  incoming : Lists hg.incoming hg.edges MemoryEdge.targetID

/-- No edge is listed twice for a node. -/
def Once (hg : HypergraphMemory) : Prop := ∀ x, (hg.outgoing x).Nodup ∧ (hg.incoming x).Nodup

/-- An edge that is replaced keeps its ends. -/
def Keeps (hg : HypergraphMemory) : Insertion → Prop
  | .node _ _ => True
  | .edge newID edge => edge.sourceID ∈ hg.nodes → edge.targetID ∈ hg.nodes →
      ∀ e, hg.edges.lookup (edge.idOr newID) = some e →
        e.sourceID = edge.sourceID ∧ e.targetID = edge.targetID

/-- No edge is replaced. -/
def Fresh (hg : HypergraphMemory) : Insertion → Prop
  | .node _ _ => True
  | .edge newID edge => edge.sourceID ∈ hg.nodes → edge.targetID ∈ hg.nodes →
      hg.edges.lookup (edge.idOr newID) = none

/-- What holds whatever is put in: the keys of nodes are their ids, and edges join nodes. -/
structure Sound (hg : HypergraphMemory) : Prop where
  keyed : ∀ x node, hg.nodes.lookup x = some node → node.id = x
  source : ∀ id e, hg.edges.lookup id = some e → e.sourceID ∈ hg.nodes
  target : ∀ id e, hg.edges.lookup id = some e → e.targetID ∈ hg.nodes

theorem sound_empty : Sound {} := ⟨nofun, nofun, nofun⟩

theorem exact_empty : Exact {} := ⟨fun _ _ => ⟨nofun, nofun⟩, fun _ _ => ⟨nofun, nofun⟩⟩

/-! ### One insertion -/

theorem lookup_insert_cases {V : Type} {values : AList fun _ : Text => V} {key x : Text} {v v' : V}
    (h : (values.insert key v).lookup x = some v') :
    (x = key ∧ v' = v) ∨ (x ≠ key ∧ values.lookup x = some v') := by
  by_cases hx : x = key
  · subst hx
    rw [AList.lookup_insert] at h
    exact .inl ⟨rfl, (Option.some.inj h).symm⟩
  · rw [AList.lookup_insert_ne hx] at h
    exact .inr ⟨hx, h⟩

section Index

variable {index : Text → List Text} {edges : AList fun _ : Text => MemoryEdge} {endOf : MemoryEdge → Text}

theorem mem_appendTo {key id x i : Text} :
    i ∈ appendTo index key id x ↔ i ∈ index x ∨ (x = key ∧ i = id) := by
  rw [appendTo]
  by_cases hx : x = key
  · subst hx
    simp
  · rw [Function.update_of_ne hx]
    simp [hx]

theorem lists_insert (h : Lists index edges endOf) (id : Text) (e : MemoryEdge) :
    Lists (appendTo index (endOf e) id) (edges.insert id e) endOf ↔
      ∀ old, edges.lookup id = some old → endOf old = endOf e := by
  constructor
  · intro h' old hold
    have hmem : id ∈ appendTo index (endOf e) id (endOf old) :=
      mem_appendTo.mpr (.inl ((h _ _).mpr ⟨old, hold, rfl⟩))
    obtain ⟨e', he', hend⟩ := (h' _ _).mp hmem
    rw [AList.lookup_insert] at he'
    obtain rfl := Option.some.inj he'
    exact hend.symm
  · intro hkeep x i
    rw [mem_appendTo]
    by_cases hi : i = id
    · subst hi
      rw [AList.lookup_insert]
      constructor
      · rintro (hmem | ⟨rfl, -⟩)
        · obtain ⟨old, hold, rfl⟩ := (h _ _).mp hmem
          exact ⟨e, rfl, (hkeep old hold).symm⟩
        · exact ⟨e, rfl, rfl⟩
      · rintro ⟨e', he', rfl⟩
        obtain rfl := Option.some.inj he'
        exact .inr ⟨rfl, rfl⟩
    · rw [AList.lookup_insert_ne hi, ← h x i]
      exact or_iff_left fun h => hi h.2

theorem nodup_appendTo (h : ∀ x, (index x).Nodup) (key id : Text) :
    (∀ x, (appendTo index key id x).Nodup) ↔ id ∉ index key := by
  constructor
  · intro h' hmem
    have hkey := h' key
    rw [appendTo, Function.update_self] at hkey
    exact (List.nodup_append.mp hkey).2.2 id hmem id (List.mem_singleton_self id) rfl
  · intro hmem x
    rw [appendTo]
    by_cases hx : x = key
    · subst hx
      rw [Function.update_self]
      exact List.nodup_append.mpr ⟨h x, List.nodup_singleton id, fun a ha b hb hab =>
        hmem (List.mem_singleton.mp hb ▸ hab ▸ ha)⟩
    · rw [Function.update_of_ne hx]
      exact h x

end Index

section Insert

variable {hg : HypergraphMemory}

/-- An edge is put in when its ends are nodes, and nothing happens when they are not. -/
theorem insert_edge (hg : HypergraphMemory) (newID : Text) (edge : MemoryEdge) :
    (edge.sourceID ∈ hg.nodes ∧ edge.targetID ∈ hg.nodes ∧ ∃ e : MemoryEdge,
      e.sourceID = edge.sourceID ∧ e.targetID = edge.targetID ∧ hg.insert (.edge newID edge) = { hg with
        edges := hg.edges.insert (edge.idOr newID) e
        outgoing := appendTo hg.outgoing e.sourceID (edge.idOr newID)
        incoming := appendTo hg.incoming e.targetID (edge.idOr newID) }) ∨
    (¬(edge.sourceID ∈ hg.nodes ∧ edge.targetID ∈ hg.nodes) ∧ hg.insert (.edge newID edge) = hg) := by
  by_cases hsource : edge.sourceID ∈ hg.nodes
  · by_cases htarget : edge.targetID ∈ hg.nodes
    · let relation := if edge.relation = [] then ascii "related_to" else edge.relation
      refine .inl ⟨hsource, htarget, { edge with id := edge.idOr newID, relation }, rfl, rfl, ?_⟩
      rw [HypergraphMemory.insert, HypergraphMemory.addEdge, if_neg (not_not.mpr hsource),
        if_neg (not_not.mpr htarget)]
    · refine .inr ⟨fun h => htarget h.2, ?_⟩
      rw [HypergraphMemory.insert, HypergraphMemory.addEdge, if_neg (not_not.mpr hsource), if_pos htarget]
  · refine .inr ⟨fun h => hsource h.1, ?_⟩
    rw [HypergraphMemory.insert, HypergraphMemory.addEdge, if_pos hsource]

theorem Sound.insert (h : Sound hg) (i : Insertion) : Sound (hg.insert i) := by
  cases i with
  | node newID node =>
    have hmem {x : Text} (hx : x ∈ hg.nodes) : x ∈ (hg.insert (.node newID node)).nodes :=
      (AList.mem_insert _).mpr (.inr hx)
    refine ⟨fun x node' hnode => ?_, fun id e he => hmem (h.source id e he),
      fun id e he => hmem (h.target id e he)⟩
    rw [HypergraphMemory.insert, HypergraphMemory.addNode] at hnode
    obtain ⟨rfl, rfl⟩ | ⟨-, hnode⟩ := lookup_insert_cases hnode
    · rfl
    · exact h.keyed x node' hnode
  | edge newID edge =>
    obtain ⟨hsource, htarget, e, hs, ht, heq⟩ | ⟨-, heq⟩ := insert_edge hg newID edge
    · rw [heq]
      refine ⟨h.keyed, fun id e' he' => ?_, fun id e' he' => ?_⟩
      · obtain ⟨-, rfl⟩ | ⟨-, he'⟩ := lookup_insert_cases he'
        · exact hs ▸ hsource
        · exact h.source id e' he'
      · obtain ⟨-, rfl⟩ | ⟨-, he'⟩ := lookup_insert_cases he'
        · exact ht ▸ htarget
        · exact h.target id e' he'
    · rwa [heq]

theorem Exact.insert_iff (h : Exact hg) (i : Insertion) : Exact (hg.insert i) ↔ Keeps hg i := by
  cases i with
  | node newID node => exact iff_of_true ⟨h.outgoing, h.incoming⟩ trivial
  | edge newID edge =>
    obtain ⟨hsource, htarget, e, hs, ht, heq⟩ | ⟨hnot, heq⟩ := insert_edge hg newID edge
    · rw [heq]
      constructor
      · rintro ⟨houtgoing, hincoming⟩ - - old hold
        rw [← hs, ← ht]
        exact ⟨(lists_insert h.outgoing _ e).mp houtgoing old hold,
          (lists_insert h.incoming _ e).mp hincoming old hold⟩
      · intro hkeep
        have hends := hkeep hsource htarget
        rw [← hs, ← ht] at hends
        exact ⟨(lists_insert h.outgoing _ e).mpr fun old hold => (hends old hold).1,
          (lists_insert h.incoming _ e).mpr fun old hold => (hends old hold).2⟩
    · rw [heq]
      exact iff_of_true h fun hsource htarget => absurd ⟨hsource, htarget⟩ hnot

theorem Exact.insert_once_iff (h : Exact hg) (once : Once hg) (i : Insertion) :
    Exact (hg.insert i) ∧ Once (hg.insert i) ↔ Fresh hg i := by
  cases i with
  | node newID node => exact iff_of_true ⟨⟨h.outgoing, h.incoming⟩, once⟩ trivial
  | edge newID edge =>
    rw [h.insert_iff]
    obtain ⟨hsource, htarget, e, hs, ht, heq⟩ | ⟨hnot, heq⟩ := insert_edge hg newID edge
    · have honce : Once (hg.insert (.edge newID edge)) ↔ edge.idOr newID ∉ hg.outgoing e.sourceID ∧
          edge.idOr newID ∉ hg.incoming e.targetID := by
        rw [heq, Once, forall_and]
        exact and_congr (nodup_appendTo (fun x => (once x).1) ..) (nodup_appendTo (fun x => (once x).2) ..)
      rw [honce, h.outgoing, h.incoming, hs, ht]
      constructor
      · rintro ⟨hkeep, hnone, -⟩ - -
        refine Option.eq_none_iff_forall_ne_some.mpr fun old hold => hnone ⟨old, hold, ?_⟩
        exact (hkeep hsource htarget old hold).1
      · intro hfresh
        have hnone := hfresh hsource htarget
        refine ⟨fun _ _ old hold => ?_, ?_, ?_⟩
        · rw [hnone] at hold
          cases hold
        · rintro ⟨old, hold, -⟩
          rw [hnone] at hold
          cases hold
        · rintro ⟨old, hold, -⟩
          rw [hnone] at hold
          cases hold
    · rw [heq]
      exact iff_of_true ⟨fun hsource htarget => absurd ⟨hsource, htarget⟩ hnot, once⟩
        fun hsource htarget => absurd ⟨hsource, htarget⟩ hnot

end Insert

/-! ### `Traverse` -/

/-- The variables of the loop; what is visited is a set. -/
structure Walk where
  visited : List Text
  nodes : List MemoryNode := []
  edges : List MemoryEdge := []
  queue : List (Text × Nat)

def MemoryEdge.passes (relationFilter : Text) (e : MemoryEdge) : Bool :=
  relationFilter = [] || e.relation = relationFilter

/-- An edge that is listed for a node at this depth. -/
def Walk.follow (relationFilter : Text) (depth : Nat) (w : Walk) (e : MemoryEdge) : Walk :=
  if !e.passes relationFilter then w
  else
    let w := { w with edges := w.edges ++ [e] }
    if w.visited.contains e.targetID then w
    else { w with visited := w.visited ++ [e.targetID], queue := w.queue ++ [(e.targetID, depth + 1)] }

namespace HypergraphMemory

variable (hg : HypergraphMemory)

/-- `none` where an edge is listed that is not stored, or where the turns run out. -/
def walk (maxDepth : Nat) (relationFilter : Text) : Nat → Walk → Option Walk
  | 0, _ => none
  | n + 1, w =>
    match w.queue with
    | [] => some w
    | (id, depth) :: queue =>
      if maxDepth < depth then walk maxDepth relationFilter n { w with queue }
      else
        match (hg.outgoing id).mapM hg.edges.lookup with
        | none => none
        | some edges => walk maxDepth relationFilter n <|
          edges.foldl (Walk.follow relationFilter depth)
            { w with queue, nodes := w.nodes ++ (hg.nodes.lookup id).toList }

def traverse (startID : Text) (maxDepth : Int) (relationFilter : Text) :
    Option (Except Text (List MemoryNode × List MemoryEdge)) :=
  if startID ∉ hg.nodes then some (.error (ascii "start node not found: " ++ startID))
  else
    let maxDepth := if maxDepth ≤ 0 then 3 else maxDepth
    (hg.walk maxDepth.toNat relationFilter (hg.nodes.keys.length + 1)
      { visited := [startID], queue := [(startID, 0)] }).map fun w => .ok (w.nodes, w.edges)

/-- A hop over a stored edge that passes the filter. -/
def Hop (relationFilter : Text) (x y : Text) : Prop :=
  ∃ id e, hg.edges.lookup id = some e ∧ e.sourceID = x ∧ e.targetID = y ∧ e.passes relationFilter = true

/-- The targets of the edges that are listed for a node. -/
def next (relationFilter : Text) (x : Text) : List Text :=
  let edges := (hg.outgoing x).filterMap hg.edges.lookup
  (edges.filter (MemoryEdge.passes relationFilter)).map MemoryEdge.targetID

end HypergraphMemory

/-- From every node, to every depth, what comes back are the nodes within so many hops. -/
def Traverses (hg : HypergraphMemory) : Prop :=
  ∀ (startID : Text) (maxDepth : Nat) (relationFilter : Text), startID ∈ hg.nodes → 0 < maxDepth →
    ∃ nodes edges, hg.traverse startID maxDepth relationFilter = some (.ok (nodes, edges)) ∧
      (∀ node ∈ nodes, hg.nodes.lookup node.id = some node) ∧
      Explores (hg.Hop relationFilter) startID maxDepth (nodes.map MemoryNode.id)

/-! ### The loop is a search -/

namespace Walk

def search (w : Walk) : Search Text := ⟨w.visited, w.queue, w.nodes.map MemoryNode.id⟩

theorem follow_search (relationFilter : Text) (depth : Nat) (w : Walk) (e : MemoryEdge) :
    (w.follow relationFilter depth e).search =
      (if e.passes relationFilter then w.search.push (depth + 1) e.targetID else w.search) ∧
    (w.follow relationFilter depth e).nodes = w.nodes := by
  rw [follow]
  by_cases hpasses : e.passes relationFilter = true
  · rw [if_neg (by simp [hpasses]), if_pos hpasses]
    dsimp only
    by_cases hvisited : w.visited.contains e.targetID = true
    · rw [if_pos hvisited, Search.push_of_mem (s := w.search) (List.contains_iff_mem.mp hvisited)]
      exact ⟨rfl, rfl⟩
    · rw [if_neg hvisited, Search.push_of_not_mem (s := w.search) (mt List.contains_iff_mem.mpr hvisited)]
      exact ⟨rfl, rfl⟩
  · rw [if_pos (by simp [hpasses]), if_neg hpasses]
    exact ⟨rfl, rfl⟩

theorem foldl_follow (relationFilter : Text) (depth : Nat) (edges : List MemoryEdge) (w : Walk) :
    (edges.foldl (follow relationFilter depth) w).search =
      ((edges.filter (MemoryEdge.passes relationFilter)).map MemoryEdge.targetID).foldl
        (Search.push (depth + 1)) w.search ∧
    (edges.foldl (follow relationFilter depth) w).nodes = w.nodes := by
  induction edges generalizing w with
  | nil => exact ⟨rfl, rfl⟩
  | cons e edges ih =>
    obtain ⟨hsearch, hnodes⟩ := ih (w.follow relationFilter depth e)
    obtain ⟨hfollow, hkept⟩ := follow_search relationFilter depth w e
    rw [List.foldl_cons, hsearch, hnodes, hfollow, hkept]
    refine ⟨?_, rfl⟩
    by_cases hpasses : e.passes relationFilter = true
    · rw [if_pos hpasses, List.filter_cons_of_pos hpasses, List.map_cons, List.foldl_cons]
    · rw [if_neg hpasses, List.filter_cons_of_neg hpasses]

end Walk

section Stored

variable {hg : HypergraphMemory}

theorem mapM_eq_filterMap {f : Text → Option MemoryEdge} {ids : List Text}
    (h : ∀ id ∈ ids, (f id).isSome) : ids.mapM f = some (ids.filterMap f) := by
  induction ids with
  | nil => rfl
  | cons id ids ih =>
    obtain ⟨e, he⟩ := Option.isSome_iff_exists.mp (h id List.mem_cons_self)
    rw [List.mapM_cons, ih fun i hi => h i (List.mem_cons_of_mem _ hi), List.filterMap_cons_some he, he]
    rfl

theorem mem_next (exact : Exact hg) (relationFilter x y : Text) :
    y ∈ hg.next relationFilter x ↔ hg.Hop relationFilter x y := by
  simp only [HypergraphMemory.next, List.mem_map, List.mem_filter, List.mem_filterMap]
  constructor
  · rintro ⟨e, ⟨⟨id, hid, he⟩, hpasses⟩, rfl⟩
    obtain ⟨e', he', hsource⟩ := (exact.outgoing x id).mp hid
    obtain rfl := Option.some.inj (he.symm.trans he')
    exact ⟨id, e, he, hsource, rfl, hpasses⟩
  · rintro ⟨id, e, he, hsource, rfl, hpasses⟩
    exact ⟨e, ⟨⟨id, (exact.outgoing x id).mpr ⟨e, he, hsource⟩, he⟩, hpasses⟩, rfl⟩

theorem walk_search (sound : Sound hg) (exact : Exact hg) (maxDepth : Nat) (relationFilter : Text) (n : Nat)
    (w : Walk) (hqueue : ∀ p ∈ w.queue, p.1 ∈ hg.nodes)
    (hnodes : ∀ node ∈ w.nodes, hg.nodes.lookup node.id = some node) {out : List Text}
    (hrun : Search.run (hg.next relationFilter) maxDepth n w.search = some out) :
    ∃ w', hg.walk maxDepth relationFilter n w = some w' ∧ w'.nodes.map MemoryNode.id = out ∧
      ∀ node ∈ w'.nodes, hg.nodes.lookup node.id = some node := by
  induction n generalizing w with
  | zero => cases hrun
  | succ n ih =>
    rw [HypergraphMemory.walk]
    rw [Search.run] at hrun
    cases hq : w.queue with
    | nil =>
      rw [Walk.search, hq] at hrun
      exact ⟨w, rfl, Option.some.inj hrun, hnodes⟩
    | cons p queue =>
      obtain ⟨id, depth⟩ := p
      rw [hq] at hqueue
      have hrest : ∀ p ∈ queue, p.1 ∈ hg.nodes := fun p hp => hqueue p (List.mem_cons_of_mem _ hp)
      simp only [Walk.search, hq] at hrun
      dsimp only
      by_cases hdeep : maxDepth < depth
      · rw [if_pos hdeep] at hrun ⊢
        exact ih { w with queue } hrest hnodes hrun
      · rw [if_neg hdeep] at hrun ⊢
        have hthere : id ∈ hg.nodes := hqueue (id, depth) List.mem_cons_self
        obtain ⟨node, hnode⟩ := Option.isSome_iff_exists.mp (AList.lookup_isSome.mpr hthere)
        have hid : node.id = id := sound.keyed id node hnode
        have hstored (i : Text) (hi : i ∈ hg.outgoing id) : (hg.edges.lookup i).isSome := by
          obtain ⟨e, he, -⟩ := (exact.outgoing id i).mp hi
          rw [he]
          rfl
        rw [mapM_eq_filterMap hstored, hnode, Option.toList_some]
        dsimp only
        obtain ⟨hfold, hkept⟩ := Walk.foldl_follow relationFilter depth
          ((hg.outgoing id).filterMap hg.edges.lookup) { w with queue, nodes := w.nodes ++ [node] }
        refine ih _ (fun p hp => ?_) (fun node' hnode' => ?_) ?_
        · obtain ⟨new, -, hnew, hpush⟩ := Search.foldl_push (depth + 1) (hg.next relationFilter id)
            (Walk.search { w with queue, nodes := w.nodes ++ [node] })
          have hqueued := congrArg Search.queue (hfold.trans hpush)
          dsimp only [Walk.search] at hqueued
          rw [hqueued] at hp
          rcases List.mem_append.mp hp with hp | hp
          · exact hrest p hp
          · obtain ⟨y, hy, rfl⟩ := List.mem_map.mp hp
            obtain ⟨i, e, he, -, rfl, -⟩ := (mem_next exact relationFilter id y).mp ((hnew y).mp hy).1
            exact sound.target i e he
        · rw [hkept] at hnode'
          rcases List.mem_append.mp hnode' with hnode' | hnode'
          · exact hnodes node' hnode'
          · obtain rfl := List.mem_singleton.mp hnode'
            rw [hid, hnode]
        · rw [hfold]
          simp only [Walk.search, List.map_append, List.map_cons, List.map_nil, hid]
          exact hrun

theorem Exact.traverses (exact : Exact hg) (sound : Sound hg) : Traverses hg := by
  intro startID maxDepth relationFilter hstart hpos
  have hhop : LeadsTo (hg.next relationFilter) = hg.Hop relationFilter := by
    funext x y
    exact propext (mem_next exact relationFilter x y)
  have hclosed (x : Text) (_ : x ∈ hg.nodes.keys) (y : Text) (hy : y ∈ hg.next relationFilter x) :
      y ∈ hg.nodes.keys := by
    obtain ⟨id, e, he, -, rfl, -⟩ := (mem_next exact relationFilter x y).mp hy
    exact AList.mem_keys.mp (sound.target id e he)
  obtain ⟨out, hrun, hexplores⟩ := Search.run_explores maxDepth (AList.mem_keys.mp hstart) hclosed
  obtain ⟨w, hwalk, hout, hnodes⟩ := walk_search sound exact maxDepth relationFilter _
    { visited := [startID], queue := [(startID, 0)] }
    (fun p hp => by rwa [List.mem_singleton.mp hp]) (fun _ h => nomatch h) hrun
  refine ⟨w.nodes, w.edges, ?_, hnodes, ?_⟩
  · rw [HypergraphMemory.traverse, if_neg (not_not.mpr hstart)]
    dsimp only
    rw [if_neg (by omega), Int.toNat_natCast, hwalk]
    rfl
  · rwa [hout, ← hhop]

end Stored

/-! ### Runs -/

/-- The store after insertions. -/
def stored (insertions : List Insertion) : HypergraphMemory := insertions.foldl HypergraphMemory.insert {}

theorem sound_stored (insertions : List Insertion) : Sound (stored insertions) := by
  induction insertions using List.reverseRecOn with
  | nil => exact sound_empty
  | append_singleton insertions i ih =>
    rw [stored, List.foldl_concat]
    exact ih.insert i

/-- The indices are right all along a run just when no insertion replaces an edge by one with other ends,
and then the traversals are; each edge is listed once just when none is replaced. -/
theorem insertions_indexed (insertions : List Insertion) :
    ((∀ n, Exact (stored (insertions.take n)) ∧ Traverses (stored (insertions.take n))) ↔
      Along HypergraphMemory.insert Keeps {} insertions) ∧
    ((∀ n, Exact (stored (insertions.take n)) ∧ Once (stored (insertions.take n)) ∧
        Traverses (stored (insertions.take n))) ↔
      Along HypergraphMemory.insert Fresh {} insertions) := by
  have htraverses (n : Nat) (h : Exact (stored (insertions.take n))) :
      Traverses (stored (insertions.take n)) := h.traverses (sound_stored _)
  constructor
  · rw [← along_iff (I := Exact) (fun _ i h => h.insert_iff i) exact_empty]
    exact forall_congr' fun n => and_iff_left_of_imp (htraverses n)
  · rw [← along_iff (I := fun hg => Exact hg ∧ Once hg) (fun _ i h => h.1.insert_once_iff h.2 i)
      ⟨exact_empty, fun _ => ⟨List.nodup_nil, List.nodup_nil⟩⟩]
    refine forall_congr' fun n => ?_
    rw [← and_assoc]
    exact and_iff_left_of_imp fun h => htraverses n h.1

/-- The edge `e` first leads from `a` to `b`, and then from `c` to `b`. -/
def replaced : List Insertion :=
  [.node [] ⟨ascii "a", []⟩, .node [] ⟨ascii "b", []⟩, .node [] ⟨ascii "c", []⟩,
    .edge [] ⟨ascii "e", ascii "a", ascii "b", []⟩, .edge [] ⟨ascii "e", ascii "c", ascii "b", []⟩]

theorem source_replaced {id : Text} {e : MemoryEdge} (h : (stored replaced).edges.lookup id = some e) :
    e.sourceID = ascii "c" := by
  have hedges : (stored replaced).edges = AList.insert (ascii "e")
      ⟨ascii "e", ascii "c", ascii "b", ascii "related_to"⟩ (AList.insert (ascii "e")
        ⟨ascii "e", ascii "a", ascii "b", ascii "related_to"⟩ ∅) := rfl
  rw [hedges] at h
  obtain ⟨-, rfl⟩ | ⟨hid, h⟩ := lookup_insert_cases h
  · rfl
  · rw [AList.lookup_insert_ne hid] at h
    cases h

/-- The edge is still listed for `a`, and so `b` is found from there. -/
theorem replaced_edge : (¬∀ insertions, Exact (stored insertions)) ∧
    ¬∀ insertions, Traverses (stored insertions) := by
  constructor
  · intro claim
    have hlisted : ascii "e" ∈ (stored replaced).outgoing (ascii "a") := by decide
    obtain ⟨e, he, hsource⟩ := ((claim replaced).outgoing _ _).mp hlisted
    exact absurd ((source_replaced he).symm.trans hsource) (by decide)
  · intro claim
    obtain ⟨nodes, edges, hresult, -, hexplores⟩ := claim replaced (ascii "a") 1 [] (by decide) Nat.one_pos
    have hfound : (stored replaced).traverse (ascii "a") (1 : Nat) [] = some (.ok
        ([⟨ascii "a", ascii "concept"⟩, ⟨ascii "b", ascii "concept"⟩],
          [⟨ascii "e", ascii "c", ascii "b", ascii "related_to"⟩])) := by decide
    rw [hfound] at hresult
    obtain ⟨rfl, -⟩ := Prod.mk.inj (Except.ok.inj (Option.some.inj hresult))
    obtain ⟨n, -, hops⟩ := (hexplores.mem_iff (ascii "b")).mp (by decide)
    have hnone {m : Nat} {x : Text} (hops : Hops ((stored replaced).Hop []) (ascii "a") m x) :
        x = ascii "a" := by
      induction hops with
      | refl => rfl
      | tail _ hop ih =>
        subst ih
        obtain ⟨id, e, he, hsource, -⟩ := hop
        exact absurd ((source_replaced he).symm.trans hsource) (by decide)
    exact absurd (hnone hops) (by decide)

end Ecco9.Memory
