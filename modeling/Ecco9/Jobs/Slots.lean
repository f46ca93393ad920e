import Mathlib.Logic.Function.Basic
import Mathlib.Tactic.Common
import Ecco9.Library.Runs
import Ecco9.Library.MachineInt

/-! The slots of `org/ecco9-runner/runner/kvcache.go`, and the workers of `queue.go` that run jobs in
them. Every operation of the cache holds its mutex. -/

universe u

namespace Ecco9.Jobs

open Ecco9.Library

structure Slot (τ : Type u) where
  tokens : List τ := []
  inUse : Bool := false
  deriving DecidableEq

structure KVCache (τ : Type u) where
  capacity : Nat
  slots : List (Slot τ)
  deriving DecidableEq

namespace KVCache

variable {τ : Type u}

/-- `NewKVCache`, with what it puts for numbers that are not positive. -/
def new (capacity maxSequences : Int) : KVCache τ where
  capacity := if capacity ≤ 0 then 4096 else capacity.toNat
  slots := List.replicate (if maxSequences ≤ 0 then 1 else maxSequences.toNat) {}

/-- The slot of a sequence that is in range. -/
def slot? (c : KVCache τ) (seq : Int) : Option (Slot τ) :=
  if seq < 0 then none else c.slots[seq.toNat]?

def modify (c : KVCache τ) (seq : Int) (f : Slot τ → Slot τ) : KVCache τ :=
  if seq < 0 then c else { c with slots := c.slots.modify seq.toNat f }

/-- The first slot that is not in use. -/
def free (c : KVCache τ) : Option Nat := c.slots.findIdx? fun s => !s.inUse

def acquire (c : KVCache τ) (seq : Int) : KVCache τ × Option Int :=
  if (c.slot? seq).any fun s => !s.inUse then (c.modify seq ({ · with inUse := true }), some seq)
  else
    match c.free with
    | some i => (c.modify i ({ · with inUse := true }), some i)
    | none => (c, none)

def release (c : KVCache τ) (seq : Int) : KVCache τ := c.modify seq ({ · with inUse := false })

def put (c : KVCache τ) (seq : Int) (positions : List τ) : KVCache τ :=
  match c.slot? seq with
  | none => c
  | some s =>
    if s.tokens.length + positions.length > c.capacity then c
    else c.modify seq ({ · with tokens := s.tokens ++ positions })

def remove (c : KVCache τ) (seq first last : Int) : KVCache τ :=
  match c.slot? seq with
  | none => c
  | some s =>
    if first < 0 ∨ first > s.tokens.length then c
    else
      let last : Int := if last = maxInt32 ∨ last > s.tokens.length then s.tokens.length else last
      c.modify seq ({ · with tokens := s.tokens.take first.toNat ++ s.tokens.drop last.toNat })

end KVCache

/-! ### Workers -/

/-- How far `process` is with a job. -/
inductive Phase
  | queued
  /-- `Forward` runs -/
  | running (seq : Nat)
  /-- before the deferred `Release` -/
  | leaving (seq : Nat)
  /-- between `Release` and `Remove` -/
  | released (seq : Nat)
  | done
  deriving DecidableEq

/-- The cache of the model, each token with the job it belongs to, and where the jobs are. -/
structure Workers where
  cache : KVCache Nat
  phase : Nat → Phase := fun _ => .queued

inductive Event
  | acquire (job : Nat)
  /-- `Forward` succeeds with so many tokens, which are put into the slot -/
  | forward (job tokens : Nat)
  /-- `Forward` fails -/
  | fail (job : Nat)
  | release (job : Nat)
  | remove (job : Nat)
  deriving DecidableEq

def Event.job : Event → Nat
  | .acquire job => job
  | .forward job _ => job
  | .fail job => job
  | .release job => job
  | .remove job => job

namespace Workers

def setPhase (s : Workers) (job : Nat) (phase : Phase) : Workers :=
  { s with phase := Function.update s.phase job phase }

def step (s : Workers) : Event → Option Workers
  | .acquire job =>
    match s.phase job with
    | .queued =>
      match s.cache.acquire (-1) with
      | (cache, some seq) => some ({ s with cache }.setPhase job (.running seq.toNat))
      | (cache, none) => some ({ s with cache }.setPhase job .done)
    | _ => none
  | .forward job tokens =>
    match s.phase job with
    | .running seq =>
      some ({ s with cache := s.cache.put seq (List.replicate tokens job) }.setPhase job (.leaving seq))
    | _ => none
  | .fail job =>
    match s.phase job with
    | .running seq => some (s.setPhase job (.leaving seq))
    | _ => none
  | .release job =>
    match s.phase job with
    | .leaving seq => some ({ s with cache := s.cache.release seq }.setPhase job (.released seq))
    | _ => none
  | .remove job =>
    match s.phase job with
    | .released seq => some ({ s with cache := s.cache.remove seq 0 maxInt32 }.setPhase job .done)
    | _ => none

/-- From acquiring the slot to releasing it. -/
def Holds (s : Workers) (job seq : Nat) : Prop :=
  s.phase job = .running seq ∨ s.phase job = .leaving seq

def tokens (s : Workers) (seq : Nat) : List Nat := (s.cache.slots[seq]?.map (·.tokens)).getD []

/-- What the hand-off of slots keeps to at a step. -/
structure Keeps (s : Workers) (e : Event) (s' : Workers) : Prop where
  /-- A slot that is acquired has no token of another job. -/
  clean : ∀ seq, e = .acquire e.job → s'.phase e.job = .running seq →
    ∀ owner ∈ s'.tokens seq, owner = e.job
  /-- Until it is released no other job changes its tokens. -/
  alone : ∀ job seq, s.Holds job seq → e.job ≠ job → s'.tokens seq = s.tokens seq

/-- The slot that a job acquires is not one whose tokens are still to be removed. -/
def Cleared (s : Workers) : Event → Prop
  | .acquire _ => ∀ seq, s.cache.free = some seq → ∀ job, s.phase job ≠ .released seq
  | _ => True

def ClearedStep (s s' : Workers) : Prop := ∃ e, s.Cleared e ∧ s.step e = some s'

/-! ### What a step does -/

end Workers

namespace KVCache

variable {τ : Type u}

theorem modify_cast (c : KVCache τ) (seq : Nat) (f : Slot τ → Slot τ) :
    c.modify seq f = { c with slots := c.slots.modify seq f } := if_neg (by omega)

theorem slot?_cast (c : KVCache τ) (seq : Nat) : c.slot? seq = c.slots[seq]? := if_neg (by omega)

theorem acquire_any (c : KVCache τ) : c.acquire (-1) =
    match c.free with
    | some i => (c.modify i ({ · with inUse := true }), some (i : Int))
    | none => (c, none) := rfl

theorem put_eq (c : KVCache τ) (seq : Nat) (positions : List τ) :
    ∃ f, (∀ slot, (f slot).inUse = slot.inUse) ∧ c.put seq positions = c.modify seq f := by
  have hsame : c.modify seq id = c := by rw [modify_cast, List.modify_id]
  unfold put
  split
  · exact ⟨id, fun _ => rfl, hsame.symm⟩
  · rename_i slot _
    split
    · exact ⟨id, fun _ => rfl, hsame.symm⟩
    · exact ⟨({ · with tokens := slot.tokens ++ positions }), fun _ => rfl, rfl⟩

theorem remove_all (c : KVCache τ) (seq : Nat) :
    c.remove seq 0 maxInt32 = c.modify seq ({ · with tokens := [] }) := by
  unfold remove
  rw [slot?_cast]
  cases hslot : c.slots[seq]? with
  | none => rw [modify_cast, List.modify_eq_self (List.getElem?_eq_none_iff.mp hslot)]
  | some slot =>
    dsimp only
    rw [if_neg (by omega), if_pos (.inl rfl)]
    simp

theorem free_spec {c : KVCache τ} {i : Nat} (h : c.free = some i) :
    ∃ slot, c.slots[i]? = some slot ∧ slot.inUse = false := by
  obtain ⟨hlt, hfree, -⟩ := List.findIdx?_eq_some_iff_getElem.mp h
  exact ⟨_, List.getElem?_eq_getElem hlt, by simpa using hfree⟩

end KVCache

namespace Workers

/-- Every step changes one slot at most, and the phase of its job. -/
inductive Turn (s : Workers) : Event → Workers → Prop
  | refused (job : Nat) : s.phase job = .queued → Turn s (.acquire job) (s.setPhase job .done)
  | acquire (job seq : Nat) : s.phase job = .queued → s.cache.free = some seq →
    Turn s (.acquire job)
      ({ s with cache := s.cache.modify seq ({ · with inUse := true }) }.setPhase job (.running seq))
  | forward (job tokens seq : Nat) (f : Slot Nat → Slot Nat) : s.phase job = .running seq →
    (∀ slot, (f slot).inUse = slot.inUse) →
    Turn s (.forward job tokens)
      ({ s with cache := s.cache.modify seq f }.setPhase job (.leaving seq))
  | fail (job seq : Nat) : s.phase job = .running seq →
    Turn s (.fail job) (s.setPhase job (.leaving seq))
  | release (job seq : Nat) : s.phase job = .leaving seq →
    Turn s (.release job)
      ({ s with cache := s.cache.modify seq ({ · with inUse := false }) }.setPhase job
        (.released seq))
  | remove (job seq : Nat) : s.phase job = .released seq →
    Turn s (.remove job)
      ({ s with cache := s.cache.modify seq ({ · with tokens := [] }) }.setPhase job .done)

variable {s s' : Workers} {e : Event}

theorem turn_of_step (h : s.step e = some s') : Turn s e s' := by
  cases e with
  | acquire job =>
    rw [step, KVCache.acquire_any] at h
    split at h
    · rename_i hphase
      cases hfree : s.cache.free with
      | none =>
        rw [hfree] at h
        cases h
        exact .refused job hphase
      | some seq =>
        rw [hfree] at h
        cases h
        exact .acquire job seq hphase hfree
    · cases h
  | forward job tokens =>
    rw [step] at h
    split at h
    · rename_i seq hphase
      obtain ⟨f, hf, heq⟩ := s.cache.put_eq seq (List.replicate tokens job)
      rw [heq] at h
      cases h
      exact .forward job tokens seq f hphase hf
    · cases h
  | fail job =>
    rw [step] at h
    split at h
    · rename_i seq hphase
      cases h
      exact .fail job seq hphase
    · cases h
  | release job =>
    rw [step] at h
    split at h
    · rename_i seq hphase
      cases h
      exact .release job seq hphase
    · cases h
  | remove job =>
    rw [step] at h
    split at h
    · rename_i seq hphase
      rw [KVCache.remove_all] at h
      cases h
      exact .remove job seq hphase
    · cases h

@[simp] theorem setPhase_cache (s : Workers) (job : Nat) (phase : Phase) :
    (s.setPhase job phase).cache = s.cache := rfl

theorem setPhase_self (s : Workers) (job : Nat) (phase : Phase) :
    (s.setPhase job phase).phase job = phase := Function.update_self ..

theorem setPhase_of_ne (s : Workers) {job k : Nat} (phase : Phase) (h : k ≠ job) :
    (s.setPhase job phase).phase k = s.phase k := Function.update_of_ne h ..

theorem slots_modify (c : KVCache Nat) (seq k : Nat) (f : Slot Nat → Slot Nat) :
    (c.modify seq f).slots[k]? = if seq = k then c.slots[k]?.map f else c.slots[k]? := by
  rw [KVCache.modify_cast]
  dsimp only
  rw [List.getElem?_modify]
  split
  · rfl
  · exact Option.map_id'

theorem modify_same (c : KVCache Nat) (seq : Nat) : c.modify seq id = c := by
  rw [KVCache.modify_cast, List.modify_id]

/-! ### Who is at a slot -/

end Workers

/-- The slot that a job is at, until its tokens are removed. -/
def Phase.slot : Phase → Option Nat
  | .running seq => some seq
  | .leaving seq => some seq
  | .released seq => some seq
  | _ => none

namespace Workers

variable {s s' : Workers} {e : Event}

/-- A slot is in use while a job holds it, no two jobs are at one slot, and one that is free and left
by all has no tokens. -/
structure HandOff (s : Workers) : Prop where
  held : ∀ job seq, s.Holds job seq → ∃ slot, s.cache.slots[seq]? = some slot ∧ slot.inUse = true
  unique : ∀ job k seq, (s.phase job).slot = some seq → (s.phase k).slot = some seq → job = k
  clean : ∀ seq slot, s.cache.slots[seq]? = some slot → slot.inUse = false →
    (∀ job, s.phase job ≠ .released seq) → slot.tokens = []

theorem Holds.slot {job seq : Nat} (h : s.Holds job seq) : (s.phase job).slot = some seq := by
  rcases h with h | h
  · rw [h]
    rfl
  · rw [h]
    rfl

/-- A job that no other is with moves on, and changes its slot. -/
theorem HandOff.move {job seq : Nat} {f : Slot Nat → Slot Nat} {phase : Phase} (h : HandOff s)
    (here : ∀ k, (s.phase job).slot = some k → k = seq)
    (there : ∀ k, phase.slot = some k → k = seq)
    (alone : ∀ k, k ≠ job → (s.phase k).slot ≠ some seq)
    (held : phase = .running seq ∨ phase = .leaving seq →
      ∃ slot, s.cache.slots[seq]? = some slot ∧ (f slot).inUse = true)
    (clean : ∀ slot, s.cache.slots[seq]? = some slot → (f slot).inUse = false →
      phase ≠ .released seq → (f slot).tokens = []) :
    HandOff ({ s with cache := s.cache.modify seq f }.setPhase job phase) where
  held k i hk := by
    rw [setPhase_cache, slots_modify]
    by_cases hkj : k = job
    · subst hkj
      have hphase : phase = .running i ∨ phase = .leaving i := by
        unfold Holds at hk
        rwa [setPhase_self] at hk
      obtain rfl : i = seq := by
        rcases hphase with rfl | rfl
        · exact there i rfl
        · exact there i rfl
      obtain ⟨slot, hslot, huse⟩ := held hphase
      rw [if_pos rfl, hslot]
      exact ⟨f slot, rfl, huse⟩
    · have hk' : s.Holds k i := by
        unfold Holds at hk
        rwa [setPhase_of_ne _ phase hkj] at hk
      have hne : seq ≠ i := by
        rintro rfl
        exact alone k hkj hk'.slot
      rw [if_neg hne]
      exact h.held k i hk'
  unique j k i hj hk := by
    by_cases hjj : j = job
    · subst hjj
      rw [setPhase_self] at hj
      obtain rfl := there i hj
      by_contra hne
      rw [setPhase_of_ne _ phase (Ne.symm hne)] at hk
      exact alone k (Ne.symm hne) hk
    · rw [setPhase_of_ne _ phase hjj] at hj
      by_cases hkj : k = job
      · subst hkj
        rw [setPhase_self] at hk
        obtain rfl := there i hk
        exact absurd hj (alone j hjj)
      · rw [setPhase_of_ne _ phase hkj] at hk
        exact h.unique j k i hj hk
  clean i slot hslot huse hfree := by
    rw [setPhase_cache, slots_modify] at hslot
    by_cases hi : seq = i
    · subst hi
      rw [if_pos rfl] at hslot
      obtain ⟨before, hbefore, rfl⟩ := Option.map_eq_some_iff.mp hslot
      exact clean before hbefore huse (setPhase_self _ job phase ▸ hfree job)
    · rw [if_neg hi] at hslot
      refine h.clean i slot hslot huse fun k hk => ?_
      by_cases hkj : k = job
      · subst hkj
        exact hi (here i (by rw [hk]; rfl)).symm
      · exact hfree k (by rwa [setPhase_of_ne _ phase hkj])

/-- Nobody is at a slot that is free and cleared. -/
theorem HandOff.free_alone (h : HandOff s) {seq : Nat} (hfree : s.cache.free = some seq)
    (cleared : ∀ job, s.phase job ≠ .released seq) (k : Nat) : (s.phase k).slot ≠ some seq := by
  obtain ⟨slot, hslot, huse⟩ := KVCache.free_spec hfree
  have nobody : ∀ k, ¬ s.Holds k seq := by
    intro k hk
    obtain ⟨slot', hslot', huse'⟩ := h.held k seq hk
    rw [hslot] at hslot'
    cases hslot'
    rw [huse] at huse'
    cases huse'
  intro hk
  cases hphase : s.phase k with
  | running i =>
    rw [hphase] at hk
    cases hk
    exact nobody k (.inl hphase)
  | leaving i =>
    rw [hphase] at hk
    cases hk
    exact nobody k (.inr hphase)
  | released i =>
    rw [hphase] at hk
    cases hk
    exact cleared k hphase
  | queued =>
    rw [hphase] at hk
    cases hk
  | done =>
    rw [hphase] at hk
    cases hk

theorem HandOff.alone (h : HandOff s) {job seq : Nat} (hat : (s.phase job).slot = some seq) (k : Nat)
    (hk : k ≠ job) : (s.phase k).slot ≠ some seq := fun hk' => hk (h.unique k job seq hk' hat)

theorem HandOff.step (h : HandOff s) (next : ClearedStep s s') : HandOff s' := by
  obtain ⟨e, cleared, hstep⟩ := next
  cases turn_of_step hstep with
  | refused job hphase =>
    refine ⟨fun k i hk => ?_, fun j k i hj hk => ?_, fun i slot hslot huse hfree => ?_⟩
    · have hkj : k ≠ job := by
        rintro rfl
        rw [Holds, setPhase_self] at hk
        simp at hk
      rw [Holds, setPhase_of_ne s .done hkj] at hk
      exact h.held k i hk
    · have hslot : ∀ k, ((s.setPhase job .done).phase k).slot = some i →
          (s.phase k).slot = some i := by
        intro k hk
        by_cases hkj : k = job
        · subst hkj
          rw [setPhase_self] at hk
          cases hk
        · rwa [setPhase_of_ne s .done hkj] at hk
      exact h.unique j k i (hslot j hj) (hslot k hk)
    · refine h.clean i slot hslot huse fun k hk => hfree k ?_
      have hkj : k ≠ job := by
        rintro rfl
        rw [hphase] at hk
        cases hk
      rwa [setPhase_of_ne s .done hkj]
  | acquire job seq hphase hfree =>
    obtain ⟨slot, hslot, -⟩ := KVCache.free_spec hfree
    refine h.move (fun k hk => ?_) (fun k hk => (Option.some.inj hk).symm)
      (fun k _ => h.free_alone hfree (cleared seq hfree) k) (fun _ => ⟨slot, hslot, rfl⟩) nofun
    rw [hphase] at hk
    cases hk
  | forward job tokens seq f hphase hf =>
    have hat : (s.phase job).slot = some seq := by rw [hphase]; rfl
    obtain ⟨slot, hslot, huse⟩ := h.held job seq (.inl hphase)
    refine h.move (fun k hk => ?_) (fun k hk => (Option.some.inj hk).symm) (h.alone hat)
      (fun _ => ⟨slot, hslot, (hf slot).trans huse⟩) (fun slot' hslot' huse' _ => ?_)
    · rw [hat] at hk
      exact (Option.some.inj hk).symm
    · rw [hslot] at hslot'
      cases hslot'
      rw [hf, huse] at huse'
      cases huse'
  | fail job seq hphase =>
    have hat : (s.phase job).slot = some seq := by rw [hphase]; rfl
    obtain ⟨slot, hslot, huse⟩ := h.held job seq (.inl hphase)
    have hmove : HandOff ({ s with cache := s.cache.modify seq id }.setPhase job (.leaving seq)) := by
      refine h.move (fun k hk => ?_) (fun k hk => (Option.some.inj hk).symm) (h.alone hat)
        (fun _ => ⟨slot, hslot, huse⟩) (fun slot' hslot' huse' _ => ?_)
      · rw [hat] at hk
        exact (Option.some.inj hk).symm
      · rw [hslot] at hslot'
        cases hslot'
        rw [id_eq, huse] at huse'
        cases huse'
    rwa [modify_same] at hmove
  | release job seq hphase =>
    have hat : (s.phase job).slot = some seq := by rw [hphase]; rfl
    refine h.move (fun k hk => ?_) (fun k hk => (Option.some.inj hk).symm) (h.alone hat) ?_
      (fun _ _ _ hne => absurd rfl hne)
    · rw [hat] at hk
      exact (Option.some.inj hk).symm
    · rintro (heq | heq)
      · cases heq
      · cases heq
  | remove job seq hphase =>
    have hat : (s.phase job).slot = some seq := by rw [hphase]; rfl
    refine h.move (fun k hk => ?_) nofun (h.alone hat) ?_ (fun _ _ _ _ => rfl)
    · rw [hat] at hk
      exact (Option.some.inj hk).symm
    · rintro (heq | heq)
      · cases heq
      · cases heq

/-! ### What the hand-off keeps to -/

theorem tokens_modify (c : KVCache Nat) {seq k : Nat} (f : Slot Nat → Slot Nat)
    (h : seq = k → ∀ slot, (f slot).tokens = slot.tokens) :
    ((c.modify seq f).slots[k]?.map (·.tokens)).getD [] = (c.slots[k]?.map (·.tokens)).getD [] := by
  rw [slots_modify]
  split
  · rename_i hk
    rw [Option.map_map]
    congr 2
    funext slot
    exact h hk slot
  · rfl

theorem HandOff.keeps (h : HandOff s) (cleared : s.Cleared e) (next : s.step e = some s') :
    Keeps s e s' := by
  constructor
  · rintro seq he hphase owner howner
    have turn := turn_of_step next
    cases turn with
    | refused job hqueued =>
      rw [Event.job, setPhase_self] at hphase
      cases hphase
    | acquire job seq' hqueued hfree =>
      rw [Event.job, setPhase_self] at hphase
      cases hphase
      obtain ⟨slot, hslot, huse⟩ := KVCache.free_spec hfree
      have htokens : ((s.cache.modify seq ({ · with inUse := true })).slots[seq]?.map
          (·.tokens)).getD [] = (s.cache.slots[seq]?.map (·.tokens)).getD [] :=
        tokens_modify s.cache _ fun _ _ => rfl
      change owner ∈ ((s.cache.modify seq _).slots[seq]?.map (·.tokens)).getD [] at howner
      rw [htokens, hslot, Option.map_some, Option.getD_some,
        h.clean seq slot hslot huse (cleared seq hfree)] at howner
      cases howner
    | forward => cases he
    | fail => cases he
    | release => cases he
    | remove => cases he
  · intro job seq hholds hjob
    have apart : ∀ k seq', (s.phase k).slot = some seq' → k ≠ job → seq' ≠ seq := by
      rintro k seq' hk hkj rfl
      exact hkj (h.unique k job seq' hk hholds.slot)
    cases turn_of_step next with
    | refused => rfl
    | acquire => exact tokens_modify s.cache _ fun _ _ => rfl
    | forward k tokens seq' f hphase hf =>
      exact tokens_modify s.cache f fun heq =>
        absurd heq (apart k seq' (by rw [hphase]; rfl) hjob)
    | fail => rfl
    | release => exact tokens_modify s.cache _ fun _ _ => rfl
    | remove k seq' hphase =>
      exact tokens_modify s.cache _ fun heq =>
        absurd heq (apart k seq' (by rw [hphase]; rfl) hjob)

/-- When every slot is cleared before it is acquired again, each job finds an empty slot and has it
for itself. -/
theorem run_hands_off {capacity maxSequences : Int}
    (run : Relation.ReflTransGen ClearedStep { cache := .new capacity maxSequences } s)
    (cleared : s.Cleared e) (next : s.step e = some s') : Keeps s e s' := by
  have start : HandOff { cache := .new capacity maxSequences } := {
    held := by rintro job seq (h | h) <;> cases h
    unique := nofun
    clean := fun seq slot hslot _ _ => by
      obtain rfl := List.eq_of_mem_replicate (List.mem_of_getElem? hslot)
      rfl
  }
  exact (run_invariant (fun _ _ h next => h.step next) run start).keeps cleared next

/-- The state after one job has run. -/
def oneDone : Workers := { cache := .new 4096 8, phase := Function.update (fun _ => .queued) 0 .done }

theorem secondJob_hands_off : ∃ s', oneDone.step (.acquire 1) = some s' ∧
    Keeps oneDone (.acquire 1) s' := by
  have run : Relation.ReflTransGen ClearedStep { cache := .new 4096 8 } oneDone := by
    refine .head ⟨.acquire 0, fun _ _ _ => nofun, rfl⟩ (.head ⟨.forward 0 3, trivial, rfl⟩
      (.head ⟨.release 0, trivial, rfl⟩ (.head ⟨.remove 0, trivial, ?_⟩ .refl)))
    simp only [step, setPhase, Function.update_idem, Function.update_self]
    rfl
  refine ⟨_, rfl, run_hands_off run (fun seq _ job => ?_) rfl⟩
  by_cases hjob : job = 0
  · rw [hjob]
    nofun
  · have hphase : oneDone.phase job = .queued := by simp [oneDone, hjob]
    rw [hphase]
    nofun

/-- A job releases its slot, another one acquires it with the tokens in it. -/
theorem tokens_handed_on : ∃ s s',
    [.acquire 0, .forward 0 3, .release 0].foldlM Workers.step { cache := .new 4096 8 } = some s ∧
      s.step (.acquire 1) = some s' ∧ ¬ Keeps s (.acquire 1) s' := by
  refine ⟨_, _, rfl, rfl, fun h => ?_⟩
  exact absurd (h.clean 0 rfl rfl 0 (by decide)) (by decide)

end Workers

end Ecco9.Jobs
