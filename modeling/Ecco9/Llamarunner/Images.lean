import Ecco9.Library.Runs
import Ecco9.Library.Utf8

/-! The embeddings of `runner/llamarunner/image.go`. They are cached under a mutex, but the hash of an image is
taken before, by one hasher that all calls share. -/

namespace Ecco9.Llamarunner

open Ecco9.Library

variable {E : Type}

/-! ### The cache -/

/-- Before its first use an entry has the key 0 and no embedding. -/
structure ImageCache (E : Type) where
  key : UInt64 := 0
  val : Option E := none
  lastUsed : Nat := 0
  deriving DecidableEq

def imageCacheSize : Nat := 4

def findImage (hash : UInt64) (now : Nat) : List (ImageCache E) → Option (Option E × List (ImageCache E))
  | [] => none
  | entry :: images =>
    if entry.key = hash then some (entry.val, { entry with lastUsed := now } :: images)
    else (findImage hash now images).map fun (val, images) => (val, entry :: images)

/-- The loop of `addImage`, from index `i` on. -/
def bestImage (hash : UInt64) : List (ImageCache E) → Nat → Nat → Nat → Nat
  | [], _, _, bestImage => bestImage
  | entry :: images, i, best, previous =>
    if entry.key = hash then i
    else if entry.lastUsed < best then bestImage hash images (i + 1) entry.lastUsed i
    else bestImage hash images (i + 1) best previous

/-- The clock is read before the loop and after it. -/
def addImage (images : List (ImageCache E)) (hash : UInt64) (embed : E) (best now : Nat) :
    List (ImageCache E) :=
  images.set (bestImage hash images 0 best 0) { key := hash, val := some embed, lastUsed := now }

/-! ### The calls -/

/-- `maphash` with the seed of the hasher, and `NewEmbed` of the vision model, where it is loaded. -/
structure Vision (E : Type) where
  sum64 : List UInt8 → UInt64
  clip : Option (List UInt8 → Except Text E)

inductive EmbedPhase (E : Type)
  | reset
  | write
  | sum
  | lock (hash : UInt64)
  | returned (result : Except Text (Option E))

structure EmbedCall (E : Type) where
  data : List UInt8
  phase : EmbedPhase E

structure ImageContext (E : Type) where
  /-- what was written since the hasher was reset -/
  imageHash : List UInt8 := []
  images : List (ImageCache E) := .replicate imageCacheSize {}
  calls : List (EmbedCall E) := []

def zeroLength : Except Text (Option E) := .error (ascii "received zero length image")

def newEmbed (data : List UInt8) : EmbedCall E :=
  ⟨data, if data.length ≤ 0 then .returned zeroLength else .reset⟩

/-- What the model gives for an image. -/
def Vision.embed (v : Vision E) (data : List UInt8) : Except Text E :=
  match v.clip with
  | some embed => embed data
  | none => .error (ascii "received image but vision model not loaded")

/-- The readings of the clock in `findImage` and `addImage`. -/
structure EmbedTimes where
  found : Nat
  best : Nat
  now : Nat

namespace ImageContext

/-- The part of a call that holds the mutex. -/
def locked (v : Vision E) (c : ImageContext E) (hash : UInt64) (data : List UInt8) (t : EmbedTimes) :
    Except Text (Option E) × List (ImageCache E) :=
  match findImage hash t.found c.images with
  | some (val, images) => (.ok val, images)
  | none =>
    match v.embed data with
    | .error err => (.error err, c.images)
    | .ok embed => (.ok (some embed), addImage c.images hash embed t.best t.now)

/-- `hashImage` is three operations on the hasher. -/
def next (v : Vision E) (c : ImageContext E) (call : EmbedCall E) (t : EmbedTimes) :
    Option (EmbedPhase E × ImageContext E) :=
  match call.phase with
  | .reset => some (.write, { c with imageHash := [] })
  | .write => some (.sum, { c with imageHash := c.imageHash ++ call.data })
  | .sum => some (.lock (v.sum64 c.imageHash), c)
  | .lock hash =>
    let (result, images) := c.locked v hash call.data t
    some (.returned result, { c with images })
  | .returned _ => none

end ImageContext

inductive EmbedAct
  | newEmbed (data : List UInt8)
  | run (i : Nat) (t : EmbedTimes)

namespace ImageContext

def step (v : Vision E) (c : ImageContext E) : EmbedAct → Option (ImageContext E)
  | .newEmbed data => some { c with calls := c.calls ++ [Llamarunner.newEmbed data] }
  | .run i t => do
    let call ← c.calls[i]?
    let (phase, c) ← c.next v call t
    return { c with calls := c.calls.set i { call with phase } }

def run (v : Vision E) (acts : List EmbedAct) : Option (ImageContext E) := acts.foldlM (step v) {}

/-- The images asked for so far. -/
def asked (c : ImageContext E) : List (List UInt8) := c.calls.map (·.data)

end ImageContext

def EmbedCall.hashing (call : EmbedCall E) : Bool :=
  match call.phase with
  | .write | .sum => true
  | _ => false

def EmbedCall.resets (call : EmbedCall E) : Bool :=
  match call.phase with
  | .reset => true
  | _ => false

/-- The hasher is not reset while a hash is being taken. -/
def EmbedAct.Apart (c : ImageContext E) : EmbedAct → Prop
  | .newEmbed _ => True
  | .run i _ => ∀ call ∈ c.calls[i]?, call.resets = true → ∀ other ∈ c.calls, other.hashing = false

instance (c : ImageContext E) : DecidablePred (EmbedAct.Apart c)
  | .newEmbed _ => .isTrue trivial
  | .run i _ => inferInstanceAs (Decidable (∀ call ∈ c.calls[i]?, _))

/-! ### Whose embedding is returned -/

variable {v : Vision E} {c c' : ImageContext E} {asked asked' : List (List UInt8)}

/-- The embedding of an image with that hash; a hash of 0 is also that of an unused entry. -/
def Vision.Answers (v : Vision E) (asked : List (List UInt8)) (hash : UInt64)
    (result : Except Text (Option E)) : Prop :=
  (result = .ok none ∧ hash = 0) ∨ ∃ data ∈ asked, v.sum64 data = hash ∧ result = (v.embed data).map some

theorem Vision.Answers.mono {hash : UInt64} {result : Except Text (Option E)} (h : v.Answers asked hash result)
    (hsub : asked ⊆ asked') : v.Answers asked' hash result :=
  h.imp id fun ⟨data, hdata, hrest⟩ => ⟨data, hsub hdata, hrest⟩

/-- What a call has come to, where the hasher has what was written. -/
def EmbedCall.Own (v : Vision E) (imageHash : List UInt8) (asked : List (List UInt8)) (call : EmbedCall E) : Prop :=
  match call.phase with
  | .reset => call.data ≠ []
  | .write => call.data ≠ [] ∧ imageHash = []
  | .sum => call.data ≠ [] ∧ imageHash = call.data
  | .lock hash => call.data ≠ [] ∧ hash = v.sum64 call.data
  | .returned result =>
    if call.data = [] then result = zeroLength else v.Answers asked (v.sum64 call.data) result

theorem EmbedCall.Own.mono {imageHash imageHash' : List UInt8} {call : EmbedCall E} (h : call.Own v imageHash asked)
    (hsub : asked ⊆ asked') (hhash : call.hashing → imageHash' = imageHash) : call.Own v imageHash' asked' := by
  unfold Own at h ⊢
  unfold hashing at hhash
  cases hphase : call.phase with
  | reset | lock =>
    rw [hphase] at h
    exact h
  | write | sum =>
    rw [hphase] at h hhash
    exact ⟨h.1, (hhash rfl).trans h.2⟩
  | returned result =>
    rw [hphase] at h
    dsimp only at h ⊢
    split_ifs at h ⊢
    · exact h
    · exact h.mono hsub

structure ImageContext.Sound (v : Vision E) (c : ImageContext E) : Prop where
  own : ∀ call ∈ c.calls, call.Own v c.imageHash c.asked
  alone : c.calls.Pairwise fun a b => a.hashing = false ∨ b.hashing = false
  entries : ∀ entry ∈ c.images, v.Answers c.asked entry.key (.ok entry.val)

theorem findImage_some {hash : UInt64} {now : Nat} {images images' : List (ImageCache E)} {val : Option E}
    (h : findImage hash now images = some (val, images')) {P : UInt64 → Option E → Prop}
    (entries : ∀ entry ∈ images, P entry.key entry.val) :
    P hash val ∧ ∀ entry ∈ images', P entry.key entry.val := by
  induction images generalizing images' with
  | nil => cases h
  | cons entry images ih =>
    obtain ⟨hentry, himages⟩ := List.forall_mem_cons.mp entries
    rw [findImage] at h
    split_ifs at h with hkey
    · cases h
      exact ⟨hkey ▸ hentry, List.forall_mem_cons.mpr ⟨hentry, himages⟩⟩
    · obtain ⟨⟨val', rest⟩, hrest, heq⟩ := Option.map_eq_some_iff.mp h
      cases heq
      obtain ⟨hval, hall⟩ := ih hrest himages
      exact ⟨hval, List.forall_mem_cons.mpr ⟨hentry, hall⟩⟩

/-- A call that has the hash of its image is answered, and what it leaves in the cache is right. -/
theorem ImageContext.locked_answers (entries : ∀ entry ∈ c.images, v.Answers c.asked entry.key (.ok entry.val))
    {data : List UInt8} (hdata : data ∈ c.asked) (t : EmbedTimes) :
    v.Answers c.asked (v.sum64 data) (c.locked v (v.sum64 data) data t).1 ∧
      ∀ entry ∈ (c.locked v (v.sum64 data) data t).2, v.Answers c.asked entry.key (.ok entry.val) := by
  have own : v.Answers c.asked (v.sum64 data) ((v.embed data).map some) := .inr ⟨data, hdata, rfl, rfl⟩
  unfold locked
  cases hfind : findImage (v.sum64 data) t.found c.images with
  | some found =>
    obtain ⟨hval, hall⟩ := findImage_some (P := fun key val => v.Answers c.asked key (.ok val)) hfind entries
    exact ⟨hval, hall⟩
  | none =>
    cases hembed : v.embed data with
    | error err =>
      rw [hembed] at own
      exact ⟨own, entries⟩
    | ok embed =>
      rw [hembed] at own
      refine ⟨own, fun entry hentry => ?_⟩
      rcases List.mem_or_eq_of_mem_set hentry with hentry | rfl
      · exact entries entry hentry
      · exact own

section

variable {before after : List (EmbedCall E)} {call : EmbedCall E} {phase : EmbedPhase E}

/-- While a hash is being taken, it is the only one. -/
theorem ImageContext.Sound.others (h : c.Sound v) (hcalls : c.calls = before ++ call :: after)
    (hhashing : call.hashing = true) : ∀ other ∈ before ++ after, other.hashing = false := by
  have alone := h.alone
  rw [hcalls, List.pairwise_append, List.pairwise_cons] at alone
  obtain ⟨-, ⟨hright, -⟩, hcross⟩ := alone
  intro other hother
  rcases List.mem_append.mp hother with hother | hother
  · exact (hcross other hother call List.mem_cons_self).resolve_right (by simp [hhashing])
  · exact (hright other hother).resolve_left (by simp [hhashing])

/-- A call goes on, and the hasher changes only where no other call relies on it. -/
theorem ImageContext.Sound.place (h : c.Sound v) (hcalls : c.calls = before ++ call :: after)
    {imageHash : List UInt8} {images : List (ImageCache E)}
    (hown : EmbedCall.Own v imageHash c.asked { call with phase })
    (hothers : (∀ other ∈ before ++ after, other.hashing = false) ∨
      imageHash = c.imageHash ∧ EmbedCall.hashing { call with phase } = false)
    (entries : ∀ entry ∈ images, v.Answers c.asked entry.key (.ok entry.val)) :
    ImageContext.Sound v ⟨imageHash, images, before ++ { call with phase } :: after⟩ := by
  have hasked : ImageContext.asked ⟨imageHash, images, before ++ { call with phase } :: after⟩ = c.asked := by
    simp only [ImageContext.asked, hcalls, List.map_append, List.map_cons]
  have hall := h.own
  rw [hcalls] at hall
  have own (other : EmbedCall E) (hother : other ∈ before ++ after) : other.Own v imageHash c.asked := by
    refine (hall other ?_).mono (List.Subset.refl _) fun hhashing => ?_
    · rcases List.mem_append.mp hother with hother | hother
      · exact List.mem_append_left _ hother
      · exact List.mem_append_right _ (List.mem_cons_of_mem _ hother)
    · rcases hothers with hothers | ⟨rfl, -⟩
      · rw [hothers other hother] at hhashing
        cases hhashing
      · rfl
  refine ⟨fun other hother => ?_, pairwise_place (hcalls ▸ h.alone) ?_ ?_, hasked.symm ▸ entries⟩
  · rw [hasked]
    rcases List.mem_append.mp hother with hother | hother
    · exact own other (List.mem_append_left _ hother)
    · rcases List.mem_cons.mp hother with rfl | hother
      · exact hown
      · exact own other (List.mem_append_right _ hother)
  · intro other hother _
    exact hothers.elim (fun hothers => .inl (hothers other (List.mem_append_left _ hother)))
      fun hfree => .inr hfree.2
  · intro other hother _
    exact hothers.elim (fun hothers => .inr (hothers other (List.mem_append_right _ hother)))
      fun hfree => .inl hfree.2

end

theorem ImageContext.Sound.step (h : c.Sound v) {act : EmbedAct} (apart : act.Apart c)
    (hstep : c.step v act = some c') : c'.Sound v := by
  cases act with
  | newEmbed data =>
    obtain rfl := Option.some.inj hstep
    have hfresh : (newEmbed data : EmbedCall E).hashing = false ∧
        ∀ hash asked, (newEmbed data : EmbedCall E).Own v hash asked := by
      unfold newEmbed EmbedCall.hashing EmbedCall.Own
      by_cases hdata : data = []
      · simp [hdata]
      · have hlen : ¬data.length ≤ 0 := fun hle => hdata (List.length_eq_zero_iff.mp (Nat.le_zero.mp hle))
        simp [hlen, hdata]
    have hsub : c.asked ⊆ ImageContext.asked { c with calls := c.calls ++ [newEmbed data] } := by
      simp [ImageContext.asked]
    refine ⟨fun call hcall => ?_, List.pairwise_append.mpr ⟨h.alone, List.pairwise_singleton .., ?_⟩,
      fun entry hentry => (h.entries entry hentry).mono hsub⟩
    · rcases List.mem_append.mp hcall with hcall | hcall
      · exact (h.own call hcall).mono hsub fun _ => rfl
      · obtain rfl := List.mem_singleton.mp hcall
        exact hfresh.2 _ _
    · intro call _ other hother
      exact .inr (List.mem_singleton.mp hother ▸ hfresh.1)
  | run i t =>
    simp only [ImageContext.step, Option.bind_eq_bind, Option.bind_eq_some_iff, Option.pure_def] at hstep
    obtain ⟨⟨data, phase⟩, hcall, ⟨phase', c₁⟩, hnext, heq⟩ := hstep
    obtain rfl := Option.some.inj heq
    obtain ⟨before, after, hcalls, -, hset⟩ := exists_party hcall
    have hmem : (⟨data, phase⟩ : EmbedCall E) ∈ c.calls := List.mem_of_getElem? hcall
    have hown := h.own _ hmem
    cases phase with
    | reset =>
      cases hnext
      rw [hset]
      refine h.place hcalls ⟨hown, rfl⟩ (.inl fun other hother => apart _ hcall rfl other ?_) h.entries
      rw [hcalls]
      exact List.mem_append.mpr ((List.mem_append.mp hother).imp id (List.mem_cons_of_mem _))
    | write =>
      cases hnext
      rw [hset]
      refine h.place hcalls ?_ (.inl (h.others hcalls rfl)) h.entries
      exact ⟨hown.1, congrArg (· ++ data) hown.2⟩
    | sum =>
      cases hnext
      rw [hset]
      exact h.place hcalls ⟨hown.1, congrArg v.sum64 hown.2⟩ (.inr ⟨rfl, rfl⟩) h.entries
    | lock hash =>
      obtain ⟨hdata, rfl⟩ : data ≠ [] ∧ hash = v.sum64 data := hown
      have hanswers := locked_answers h.entries (List.mem_map_of_mem hmem : data ∈ c.asked) t
      rcases hlocked : c.locked v (v.sum64 data) data t with ⟨result, images⟩
      rw [hlocked] at hanswers
      rw [ImageContext.next] at hnext
      dsimp only at hnext
      rw [hlocked] at hnext
      cases hnext
      dsimp only
      rw [hset]
      refine h.place hcalls ?_ (.inr ⟨rfl, rfl⟩) hanswers.2
      exact (if_neg hdata).mpr hanswers.1
    | returned result => cases hnext

/-- Where no two hashes are taken at the same time, and the images that were asked for have hashes of their own,
not 0, each call returns what the model gives for its own image, whether it was in the cache or not. -/
theorem run_newEmbed {acts : List EmbedAct} (h : ImageContext.run v acts = some c)
    (apart : AlongM (ImageContext.step v) EmbedAct.Apart {} acts)
    (distinct : ∀ a ∈ c.asked, v.sum64 a ≠ 0 ∧ ∀ b ∈ c.asked, v.sum64 b = v.sum64 a → b = a)
    {data : List UInt8} {result : Except Text (Option E)} (hcall : ⟨data, .returned result⟩ ∈ c.calls) :
    result = if data = [] then zeroLength else (v.embed data).map some := by
  have start : ImageContext.Sound v {} :=
    ⟨fun _ hcall => absurd hcall List.not_mem_nil, .nil, fun entry hentry => by
      rw [List.eq_of_mem_replicate hentry]
      exact .inl ⟨rfl, rfl⟩⟩
  have sound : c.Sound v :=
    apart.foldlM (I := fun c => c.Sound v) (fun _ _ _ sound now hstep => sound.step now hstep) h start
  have hdata : data ∈ c.asked := List.mem_map_of_mem hcall
  have own : if data = [] then result = zeroLength else v.Answers c.asked (v.sum64 data) result :=
    sound.own _ hcall
  split_ifs at own ⊢
  · exact own
  · obtain ⟨-, hzero⟩ | ⟨other, hother, hsum, rfl⟩ := own
    · exact absurd hzero (distinct data hdata).1
    · rw [(distinct data hdata).2 other hother hsum]

/-! ### Two images -/

def headByte : Vision Nat where
  sum64 data := data.foldl (fun hash byte => hash * 31 + byte.toUInt64) 7
  clip := some fun data => .ok (data.headD 0).toNat

def fourTimes (i now : Nat) : List EmbedAct := .replicate 4 (.run i ⟨now, now, now⟩)

/-- The first image is asked for twice. -/
def oneByOne : List EmbedAct :=
  [.newEmbed [1], .newEmbed [2], .newEmbed [1]] ++ fourTimes 0 1 ++ fourTimes 1 2 ++ fourTimes 2 3

theorem oneByOne_returned : ∃ c, ImageContext.run headByte oneByOne = some c ∧ ∀ data result,
    ⟨data, .returned result⟩ ∈ c.calls →
      result = if data = [] then zeroLength else (headByte.embed data).map some := by
  have hasked : (ImageContext.run headByte oneByOne).map ImageContext.asked = some [[1], [2], [1]] := rfl
  obtain ⟨c, hrun, hasked⟩ := Option.map_eq_some_iff.mp hasked
  exact ⟨c, hrun, fun _ _ hcall => run_newEmbed hrun (by decide +kernel) (hasked ▸ by decide) hcall⟩

/-- The second image is written after the first, and before the hash of the first is read: it is then answered
with the embedding of the first. -/
example : ((ImageContext.run headByte ([.newEmbed [1], .newEmbed [2], .run 0 ⟨1, 1, 1⟩, .run 0 ⟨1, 1, 1⟩,
      .run 1 ⟨1, 1, 1⟩, .run 1 ⟨1, 1, 1⟩] ++ List.replicate 2 (.run 0 ⟨2, 2, 2⟩) ++
      List.replicate 2 (.run 1 ⟨3, 3, 3⟩))).bind fun c => c.calls[1]?) =
    some ⟨[2], .returned (.ok (some 1))⟩ := rfl

end Ecco9.Llamarunner
