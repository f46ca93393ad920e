import Ecco9.Models.Puller
import Ecco9.Library.Runs

/-! The registry of `org/ecco9-models/models/registry.go`, with any number of calls in progress. A step
is a locked section or a call of the blob store, also where that is made within a locked section. -/

universe u

namespace Ecco9.Models

open Ecco9.Library

/-- `peek`: the first `n` bytes, or those before the stream ends or fails. -/
def peek : Reader → (n : Nat) → Text × Reader
  | [], _ => ([], [])
  | item :: r, n =>
    if n < item.bytes.length then
      (item.bytes.take n, { item with bytes := item.bytes.drop n } :: r)
    else if item.fails ∨ n = item.bytes.length then (item.bytes, r)
    else
      let (bytes, rest) := peek r (n - item.bytes.length)
      (item.bytes ++ bytes, rest)

/-- `DetectFormat` -/
def detectFormat (magic : Text) : Option Text :=
  match magic with
  | a :: b :: _ :: _ :: _ =>
    if magic.take 4 = ascii "GGUF" then some (ascii "gguf")
    else if a ≠ 0 ∧ b = 0 then some (ascii "safetensors")
    else none
  | _ => none

/-- How far a `Pull` is. -/
inductive Stage (D : Type u)
  | fetched (stream : Reader) (tries : Nat)
  | put (digest : D) (size : Nat)
  /-- no manifest of the name was found -/
  | absent (digest : D) (size : Nat)
  deriving DecidableEq

structure Pull (D : Type u) where
  name : Text
  stage : Stage D
  deriving DecidableEq

/-- What a `Pull` has put into the blob store. -/
def Pull.digest (p : Pull D) : Option D :=
  match p.stage with
  | .fetched .. => none
  | .put digest _ => some digest
  | .absent digest _ => some digest

/-- The call that holds the mutex, between the calls of the blob store that it makes. -/
inductive Holder (D : Type u)
  | registering (name : Text) (blob : Reader) (labels : List (Text × Text))
  | stored (name : Text) (digest : D) (size : Nat) (labels : List (Text × Text))
  | deleting (digests : List D)

structure System (D : Type u) where
  registry : Registry D := {}
  holder : Option (Holder D) := none
  pulls : List (Pull D) := []

inductive Event (D : Type u)
  | pull (name : Text) (stream : Reader)
  /-- one attempt of a `Pull` -/
  | put (p : Pull D) (attempt : Attempt)
  | get (p : Pull D)
  | insert (p : Pull D)
  | register (name : Text) (blob : Reader) (labels : List (Text × Text))
  /-- the `Put` of a `Register` -/
  | store (disk : Disk)
  | add
  | delete (name : Text)
  /-- the next blob of a `Delete`, which stays where the disk refuses -/
  | prune (removes : Bool)

def maxTries : Nat := 3

section

variable {D : Type u} [DecidableEq D]
-- SHA-256
variable (sum256 : Text → D)

def Registry.uses (r : Registry D) (digest : D) : Bool :=
  r.manifests.any fun m => m.all.any fun l => l.digest = digest

/-- The first section of `Delete`, and the digests of the manifest that no other one uses. -/
def Registry.delete (r : Registry D) (name : Text) : Option (Registry D × List D) :=
  match r.get name with
  | none => none
  | some m =>
    let r := { r with manifests := r.manifests.filter fun m => m.name ≠ name }
    some (r, (m.all.map Layer.digest).filter fun d => !r.uses d)

/-- The first section of `Register`, when it goes on to store the blob. -/
def Registry.accepts (r : Registry D) (name : Text) (blob : Reader) : Option Reader :=
  match r.get name with
  | some _ => none
  | none =>
    let (head, rest) := peek blob 4
    match detectFormat head with
    | none => none
    | some _ => some ({ bytes := head } :: rest)

def System.setPull (s : System D) (p : Pull D) (stage : Option (Stage D)) : System D :=
  match stage with
  | none => { s with pulls := s.pulls.erase p }
  | some stage => { s with pulls := { p with stage } :: s.pulls.erase p }

/-- The stage of a `Pull` after an attempt that leaves `rest` of the stream. -/
def afterAttempt (attempt : Attempt) (rest : Reader) (tries : Nat) :
    Option (D × Nat) → Option (Stage D)
  | some (digest, size) => some (.put digest size)
  | none => if attempt.cancelled ∨ tries + 1 ≥ maxTries then none else some (.fetched rest (tries + 1))

def System.step (s : System D) : Event D → Option (System D)
  | .pull name stream => some { s with pulls := ⟨name, .fetched stream 0⟩ :: s.pulls }
  | .put p attempt =>
    match p.stage with
    | .fetched stream tries =>
      if p ∈ s.pulls then
        let (store, rest, put) := s.registry.store.put sum256 attempt.disk stream
        some ({ s with registry := { s.registry with store } }.setPull p
          (afterAttempt attempt rest tries put))
      else none
    | _ => none
  | .get p =>
    match p.stage with
    | .put digest size =>
      if p ∈ s.pulls ∧ s.holder.isNone then
        some (s.setPull p
          (if (s.registry.get p.name).isSome then none else some (.absent digest size)))
      else none
    | _ => none
  | .insert p =>
    match p.stage with
    | .absent digest size =>
      if p ∈ s.pulls ∧ s.holder.isNone then
        let m := newManifest p.name digest size [(ascii "format", ascii "gguf")]
        some ({ s with registry := s.registry.setManifest m }.setPull p none)
      else none
    | _ => none
  | .register name blob labels =>
    if s.holder.isNone then
      match s.registry.accepts name blob with
      | none => some s
      | some blob => some { s with holder := some (.registering name blob labels) }
    else none
  | .store disk =>
    match s.holder with
    | some (.registering name blob labels) =>
      let (store, _, put) := s.registry.store.put sum256 disk blob
      some { s with
        registry := { s.registry with store }
        holder := put.map fun (digest, size) => .stored name digest size labels }
    | _ => none
  | .add =>
    match s.holder with
    | some (.stored name digest size labels) =>
      let m := newManifest name digest size labels
      some { s with registry := s.registry.setManifest m, holder := none }
    | _ => none
  | .delete name =>
    if s.holder.isNone then
      match s.registry.delete name with
      | none => some s
      | some (registry, digests) => some { s with registry, holder := some (.deleting digests) }
    else none
  | .prune removes =>
    match s.holder with
    | some (.deleting []) => some { s with holder := none }
    | some (.deleting (digest :: digests)) =>
      let store := if removes then s.registry.store.set digest none else s.registry.store
      some { s with registry := { s.registry with store }, holder := some (.deleting digests) }
    | _ => none

end

/-! ### Blobs in use -/

/-- Every manifest refers to blobs that are there. -/
def Registry.Closed (r : Registry D) : Prop :=
  ∀ m ∈ r.manifests, ∀ l ∈ m.all, (r.store.blobs l.digest).isSome

/-- A `Delete` removes no blob that a `Pull` has put and not registered yet. -/
def System.Careful (s : System D) : Event D → Prop
  | .prune removes => removes = true → ∀ digest digests,
      s.holder = some (.deleting (digest :: digests)) → ∀ p ∈ s.pulls, p.digest ≠ some digest
  | _ => True

section

variable {D : Type u} [DecidableEq D] {sum256 : Text → D} {s s' : System D}

def CarefulStep (sum256 : Text → D) (s s' : System D) : Prop :=
  ∃ e, s.Careful e ∧ s.step sum256 e = some s'

/-- What holds between the steps. -/
structure System.Sound (s : System D) : Prop where
  closed : s.registry.Closed
  pulled : ∀ p ∈ s.pulls, ∀ digest, p.digest = some digest → (s.registry.store.blobs digest).isSome
  stored : ∀ name digest size labels, s.holder = some (.stored name digest size labels) →
    (s.registry.store.blobs digest).isSome
  unused : ∀ digests, s.holder = some (.deleting digests) → ∀ digest ∈ digests,
    ∀ m ∈ s.registry.manifests, ∀ l ∈ m.all, l.digest ≠ digest

theorem Registry.uses_iff (r : Registry D) (digest : D) :
    r.uses digest = true ↔ ∃ m ∈ r.manifests, ∃ l ∈ m.all, l.digest = digest := by
  simp [uses]

theorem FSStore.put_mono {store : FSStore D} {disk : Disk} {r : Reader} {d : D}
    (h : (store.blobs d).isSome) : ((store.put sum256 disk r).1.blobs d).isSome := by
  rw [put]
  split
  · split
    · split
      · rw [set_blobs]
        split
        · rfl
        · exact h
      · exact h
    · exact h
  · exact h

theorem FSStore.put_isSome {store : FSStore D} {disk : Disk} {r : Reader} {d : D} {size : Nat}
    (h : (store.put sum256 disk r).2.2 = some (d, size)) :
    ((store.put sum256 disk r).1.blobs d).isSome := by
  rw [put] at h ⊢
  split at h
  case isFalse => cases h
  case isTrue creates =>
    split at h
    case h_2 => cases h
    case h_1 =>
      split at h
      case isFalse => cases h
      case isTrue renames =>
        obtain ⟨rfl, -⟩ := Prod.mk.inj (Option.some.inj h)
        rw [if_pos creates, if_pos renames, set_blobs, if_pos rfl]
        rfl

omit [DecidableEq D] in
/-- A store that has all the blobs there are. -/
theorem System.Sound.grow (h : s.Sound) (store : FSStore D)
    (grows : ∀ d, (s.registry.store.blobs d).isSome → (store.blobs d).isSome) :
    ({ s with registry := { s.registry with store } } : System D).Sound where
  closed m hm l hl := grows _ (h.closed m hm l hl)
  pulled p hp d hd := grows _ (h.pulled p hp d hd)
  stored name d size labels held := grows _ (h.stored name d size labels held)
  unused := h.unused

theorem System.Sound.setPull (h : s.Sound) (p : Pull D) {stage : Option (Stage D)}
    (there : ∀ stage', stage = some stage' → ∀ d, ({ p with stage := stage' } : Pull D).digest = some d →
      (s.registry.store.blobs d).isSome) : (s.setPull p stage).Sound := by
  cases stage with
  | none =>
    exact ⟨h.closed, fun q hq => h.pulled q (List.mem_of_mem_erase hq), h.stored, h.unused⟩
  | some stage =>
    refine ⟨h.closed, fun q hq d hd => ?_, h.stored, h.unused⟩
    rcases List.mem_cons.mp hq with rfl | hq
    · exact there stage rfl d hd
    · exact h.pulled q (List.mem_of_mem_erase hq) d hd

omit [DecidableEq D] in
theorem System.Sound.setManifest (h : s.Sound) (name : Text) {digest : D} (size : Nat)
    (labels : List (Text × Text)) (there : (s.registry.store.blobs digest).isSome) :
    ({ s with
      registry := s.registry.setManifest (newManifest name digest size labels)
      holder := none } : System D).Sound := by
  refine ⟨fun m hm l hl => ?_, h.pulled, by simp, by simp⟩
  rcases List.mem_cons.mp hm with rfl | hm
  · rw [(mem_all_newManifest hl).1]
    exact there
  · exact h.closed m (List.mem_of_mem_filter hm) l hl

/-- The section of `Delete` leaves the digests to remove that no manifest uses. -/
theorem System.Sound.delete {r : Registry D} {name : Text} {digests : List D} (h : s.Sound)
    (hdelete : s.registry.delete name = some (r, digests)) :
    ({ s with registry := r, holder := some (.deleting digests) } : System D).Sound := by
  rw [Registry.delete] at hdelete
  split at hdelete
  case h_1 => cases hdelete
  case h_2 =>
    obtain ⟨rfl, rfl⟩ := Prod.mk.inj (Option.some.inj hdelete)
    refine ⟨fun m hm => h.closed m (List.mem_of_mem_filter hm), h.pulled, by simp, ?_⟩
    intro digests hdigests d hd m hm l hl heq
    cases hdigests
    have unused := (List.mem_filter.mp hd).2
    rw [Bool.not_eq_true', Bool.eq_false_iff, ne_eq, Registry.uses_iff] at unused
    exact unused ⟨m, hm, l, hl, heq⟩

/-- A blob that neither a manifest nor a `Pull` in progress needs is removed. -/
theorem System.Sound.prune {digest : D} {digests : List D} (h : s.Sound)
    (held : s.holder = some (.deleting (digest :: digests)))
    (careful : ∀ p ∈ s.pulls, p.digest ≠ some digest) :
    ({ s with
      registry := { s.registry with store := s.registry.store.set digest none }
      holder := some (.deleting digests) } : System D).Sound := by
  constructor
  case closed =>
    intro m hm l hl
    have hne := h.unused _ held digest List.mem_cons_self m hm l hl
    rw [FSStore.set_blobs, if_neg hne]
    exact h.closed m hm l hl
  case pulled =>
    intro p hp d hd
    have hne : d ≠ digest := fun heq => careful p hp (heq ▸ hd)
    rw [FSStore.set_blobs, if_neg hne]
    exact h.pulled p hp d hd
  case stored => simp
  case unused =>
    intro ds hds d hd
    cases hds
    exact h.unused _ held d (List.mem_cons_of_mem _ hd)

theorem System.Sound.step {e : Event D} (h : s.Sound) (careful : s.Careful e)
    (hstep : s.step sum256 e = some s') : s'.Sound := by
  cases e with
  | pull name stream =>
    cases hstep
    refine ⟨h.closed, fun p hp d hd => ?_, h.stored, h.unused⟩
    rcases List.mem_cons.mp hp with rfl | hp
    · cases hd
    · exact h.pulled p hp d hd
  | put p attempt =>
    simp only [System.step] at hstep
    split at hstep
    case h_2 => cases hstep
    case h_1 stream tries _ =>
      split at hstep
      case isFalse => cases hstep
      case isTrue =>
        cases hstep
        refine (h.grow _ fun d hd => FSStore.put_mono hd).setPull p ?_
        intro stage hstage d hd
        cases hput : (s.registry.store.put sum256 attempt.disk stream).2.2 with
        | some put =>
          rw [hput] at hstage
          cases hstage
          cases hd
          exact FSStore.put_isSome hput
        | none =>
          rw [hput, afterAttempt] at hstage
          split at hstage <;> cases hstage
          cases hd
  | get p =>
    simp only [System.step] at hstep
    split at hstep
    case h_2 => cases hstep
    case h_1 digest size hstage =>
      split at hstep
      case isFalse => cases hstep
      case isTrue present =>
        cases hstep
        refine h.setPull p fun stage hstage' d hd => ?_
        split at hstage' <;> cases hstage'
        exact h.pulled p present.1 d (by rw [Pull.digest, hstage]; exact hd)
  | insert p =>
    simp only [System.step] at hstep
    split at hstep
    case h_2 => cases hstep
    case h_1 digest size hstage =>
      split at hstep
      case isFalse => cases hstep
      case isTrue present =>
        cases hstep
        have there := h.pulled p present.1 digest (by rw [Pull.digest, hstage])
        have sound := h.setManifest p.name size [(ascii "format", ascii "gguf")] there
        rw [← Option.isNone_iff_eq_none.mp present.2] at sound
        exact sound.setPull p (by simp)
  | register name blob labels =>
    simp only [System.step] at hstep
    split at hstep
    case isFalse => cases hstep
    case isTrue =>
      split at hstep
      case h_1 =>
        cases hstep
        exact h
      case h_2 =>
        cases hstep
        exact ⟨h.closed, h.pulled, by simp, by simp⟩
  | store disk =>
    simp only [System.step] at hstep
    split at hstep
    case h_2 => cases hstep
    case h_1 name blob labels _ =>
      cases hstep
      have sound := h.grow (s.registry.store.put sum256 disk blob).1
        fun d hd => FSStore.put_mono hd
      refine ⟨sound.closed, sound.pulled, ?_, ?_⟩
      · intro name digest size labels held
        obtain ⟨put, hput, hheld⟩ := Option.map_eq_some_iff.mp held
        cases hheld
        exact FSStore.put_isSome hput
      · intro digests held
        obtain ⟨put, -, hheld⟩ := Option.map_eq_some_iff.mp held
        cases hheld
  | add =>
    simp only [System.step] at hstep
    split at hstep
    case h_2 => cases hstep
    case h_1 name digest size labels held =>
      cases hstep
      exact h.setManifest name size labels (h.stored name digest size labels held)
  | delete name =>
    simp only [System.step] at hstep
    split at hstep
    case isFalse => cases hstep
    case isTrue =>
      split at hstep
      case h_1 =>
        cases hstep
        exact h
      case h_2 hdelete =>
        cases hstep
        exact h.delete hdelete
  | prune removes =>
    simp only [System.step] at hstep
    split at hstep
    case h_1 =>
      cases hstep
      exact ⟨h.closed, h.pulled, by simp, by simp⟩
    case h_2 digest digests held =>
      cases hstep
      cases removes with
      | true => exact h.prune held (careful rfl digest digests held)
      | false =>
        refine ⟨h.closed, h.pulled, by simp, ?_⟩
        intro ds hds d hd
        cases hds
        exact h.unused _ held d (List.mem_cons_of_mem _ hd)
    case h_3 => cases hstep

variable (sum256) in
/-- In every run in which no `Delete` removes a blob between the `Put` of a `Pull` and its manifest,
every manifest refers to blobs that are there, in every state. -/
theorem run_closed {r : Registry D} {t : System D} (closed : r.Closed)
    (run : Relation.ReflTransGen (CarefulStep sum256) { registry := r } t) : t.registry.Closed := by
  have sound : System.Sound { registry := r } := ⟨closed, by simp, by simp, by simp⟩
  refine (run_invariant (fun s t h => ?_) run sound).closed
  rintro ⟨e, careful, hstep⟩
  exact h.step careful hstep

end

def gguf : Text := ascii "GGUF"

/-- A `Pull` of a blob that another model has, up to its manifest. -/
def pullShared : List (Event Text) :=
  [.register (ascii "a") [⟨gguf, false⟩] [], .store {}, .add, .pull (ascii "b") [⟨gguf, false⟩],
    .put ⟨ascii "b", .fetched [⟨gguf, false⟩] 0⟩ {}, .get ⟨ascii "b", .put gguf 4⟩]

def deleteShared : List (Event Text) :=
  [.delete (ascii "a"), .prune true, .prune true, .prune true]

def insertShared : Event Text := .insert ⟨ascii "b", .absent gguf 4⟩

/-- The other model is deleted before the manifest is there. -/
theorem deleted_shared : ∃ t, (pullShared ++ deleteShared ++ [insertShared]).foldlM
    (System.step id) {} = some t ∧ ¬t.registry.Closed := by
  refine ⟨_, rfl, fun closed => ?_⟩
  exact absurd (closed _ List.mem_cons_self _ List.mem_cons_self) (by decide)

/-- The other model is deleted afterwards. -/
theorem pullShared_closed : ∃ t, (pullShared ++ [insertShared, Event.delete (ascii "a")]).foldlM
    (System.step id) {} = some t ∧ t.registry.Closed := by
  refine ⟨_, rfl, run_closed id (r := {}) (by simp [Registry.Closed]) ?_⟩
  exact .head ⟨.register (ascii "a") [⟨gguf, false⟩] [], trivial, rfl⟩ <|
    .head ⟨.store {}, trivial, rfl⟩ <| .head ⟨.add, trivial, rfl⟩ <|
    .head ⟨.pull (ascii "b") [⟨gguf, false⟩], trivial, rfl⟩ <|
    .head ⟨.put ⟨ascii "b", .fetched [⟨gguf, false⟩] 0⟩ {}, trivial, rfl⟩ <|
    .head ⟨.get ⟨ascii "b", .put gguf 4⟩, trivial, rfl⟩ <|
    .head ⟨insertShared, trivial, rfl⟩ <| .single ⟨.delete (ascii "a"), trivial, rfl⟩

end Ecco9.Models
