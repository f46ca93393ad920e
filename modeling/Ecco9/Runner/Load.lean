import Ecco9.Runner.Slots

/-! Loading a prompt: which slot is found, and what is left of it. -/

universe u

namespace Ecco9.Runner

open Ecco9.Library

/-! ### Common prefixes -/

theorem countCommonPrefix_le_left (a b : List Input) : countCommonPrefix a b ≤ a.length := by
  fun_induction countCommonPrefix a b with
  | case1 x as y bs _ ih =>
    rw [List.length_cons]
    omega
  | case2 => exact Nat.zero_le _
  | case3 => exact Nat.zero_le _

theorem countCommonPrefix_le_right (a b : List Input) : countCommonPrefix a b ≤ b.length := by
  fun_induction countCommonPrefix a b with
  | case1 x as y bs _ ih =>
    rw [List.length_cons]
    omega
  | case2 => exact Nat.zero_le _
  | case3 => exact Nat.zero_le _

/-- Before the end of the common prefix the inputs are the same. -/
theorem same_of_lt_countCommonPrefix {a b : List Input} {p : Nat}
    (h : p < countCommonPrefix a b) :
    ∃ x y, a[p]? = some x ∧ b[p]? = some y ∧ x.same y = true := by
  fun_induction countCommonPrefix a b generalizing p with
  | case1 x as y bs hsame ih =>
    cases p with
    | zero => exact ⟨x, y, rfl, rfl, hsame⟩
    | succ p => exact ih (by omega)
  | case2 => omega
  | case3 => omega

/-! ### The search -/

theorem findLongestFrom_some {prompt : List Input} {slots : List InputCacheSlot} {i : Nat}
    {longest : Option (Nat × Nat)} {j n : Nat}
    (h : findLongestFrom prompt slots i longest = some (j, n)) :
    longest = some (j, n) ∨ ∃ k s, slots[k]? = some s ∧ j = i + k ∧ s.inUse = false ∧
      n = countCommonPrefix s.inputs prompt := by
  induction slots generalizing i longest with
  | nil => exact .inl h
  | cons s slots ih =>
    have later {longest : Option (Nat × Nat)}
        (h : findLongestFrom prompt slots (i + 1) longest = some (j, n)) :
        longest = some (j, n) ∨ ∃ k s', (s :: slots)[k]? = some s' ∧ j = i + k ∧
          s'.inUse = false ∧ n = countCommonPrefix s'.inputs prompt := by
      rcases ih h with h | ⟨k, s', hk, hj, hrest⟩
      · exact .inl h
      · exact .inr ⟨k + 1, s', by simpa using hk, by omega, hrest⟩
    rw [findLongestFrom] at h
    split at h
    · exact later h
    · rename_i huse
      rcases later h with h | h
      · split at h
        · obtain ⟨rfl, rfl⟩ := Prod.mk.inj (Option.some.inj h)
          exact .inr ⟨0, s, rfl, rfl, by simpa using huse, rfl⟩
        · exact .inl h
      · exact .inr h

theorem findLongestFrom_none {prompt : List Input} {slots : List InputCacheSlot} {i : Nat}
    {longest : Option (Nat × Nat)} (h : findLongestFrom prompt slots i longest = none) :
    longest = none ∧ ∀ s ∈ slots, s.inUse = true := by
  induction slots generalizing i longest with
  | nil => exact ⟨h, by simp⟩
  | cons s slots ih =>
    rw [findLongestFrom] at h
    split at h
    · rename_i huse
      obtain ⟨hnone, hall⟩ := ih h
      exact ⟨hnone, List.forall_mem_cons.mpr ⟨huse, hall⟩⟩
    · have := (ih h).1
      split at this
      · cases this
      · rename_i hlt
        subst this
        exact absurd (by simp) hlt

theorem findBestFrom_longest {prompt : List Input} {slots : List InputCacheSlot} {i : Nat}
    {longest : Option (Nat × Nat)} {oldest : Nat} {oldestSlot : Option Nat} {j n : Nat}
    (h : (findBestFrom prompt slots i longest oldest oldestSlot).1 = some (j, n)) :
    longest = some (j, n) ∨ ∃ k s, slots[k]? = some s ∧ j = i + k ∧
      n = countCommonPrefix s.inputs prompt := by
  induction slots generalizing i longest oldest oldestSlot with
  | nil => exact .inl h
  | cons s slots ih =>
    have later {oldest : Nat} {oldestSlot : Option Nat} (h : (findBestFrom prompt slots (i + 1)
        (if ∀ l ∈ longest, l.2 < countCommonPrefix s.inputs prompt then
          some (i, countCommonPrefix s.inputs prompt) else longest) oldest oldestSlot).1 =
        some (j, n)) : longest = some (j, n) ∨ ∃ k s', (s :: slots)[k]? = some s' ∧ j = i + k ∧
          n = countCommonPrefix s'.inputs prompt := by
      rcases ih h with h | ⟨k, s', hk, hj, hrest⟩
      · split at h
        · obtain ⟨rfl, rfl⟩ := Prod.mk.inj (Option.some.inj h)
          exact .inr ⟨0, s, rfl, rfl, rfl⟩
        · exact .inl h
      · exact .inr ⟨k + 1, s', by simpa using hk, by omega, hrest⟩
    rw [findBestFrom] at h
    split at h
    · exact later h
    · exact later h

theorem findBestFrom_longest_none {prompt : List Input} {slots : List InputCacheSlot} {i : Nat}
    {longest : Option (Nat × Nat)} {oldest : Nat} {oldestSlot : Option Nat}
    (h : (findBestFrom prompt slots i longest oldest oldestSlot).1 = none) :
    longest = none ∧ slots = [] := by
  induction slots generalizing i longest oldest oldestSlot with
  | nil => exact ⟨h, rfl⟩
  | cons s slots ih =>
    have never {oldest : Nat} {oldestSlot : Option Nat} (h : (findBestFrom prompt slots (i + 1)
        (if ∀ l ∈ longest, l.2 < countCommonPrefix s.inputs prompt then
          some (i, countCommonPrefix s.inputs prompt) else longest) oldest oldestSlot).1 = none) :
        False := by
      have := (ih h).1
      split at this
      · cases this
      · rename_i hlt
        subst this
        exact hlt (by simp)
    rw [findBestFrom] at h
    split at h
    · exact (never h).elim
    · exact (never h).elim

theorem findBestFrom_oldest {prompt : List Input} {slots : List InputCacheSlot} {i : Nat}
    {longest : Option (Nat × Nat)} {oldest : Nat} {oldestSlot : Option Nat} {j : Nat}
    (h : (findBestFrom prompt slots i longest oldest oldestSlot).2 = some j) :
    oldestSlot = some j ∨ ∃ k s, slots[k]? = some s ∧ j = i + k ∧ s.inUse = false := by
  induction slots generalizing i longest oldest oldestSlot with
  | nil => exact .inl h
  | cons s slots ih =>
    rw [findBestFrom] at h
    split at h
    · rename_i hfree
      rcases ih h with h | ⟨k, s', hk, hj, hrest⟩
      · obtain rfl := Option.some.inj h
        exact .inr ⟨0, s, rfl, rfl, by simpa using hfree.2⟩
      · exact .inr ⟨k + 1, s', by simpa using hk, by omega, hrest⟩
    · rcases ih h with h | ⟨k, s', hk, hj, hrest⟩
      · exact .inl h
      · exact .inr ⟨k + 1, s', by simpa using hk, by omega, hrest⟩

theorem findBestFrom_oldest_none {prompt : List Input} {slots : List InputCacheSlot} {i : Nat}
    {longest : Option (Nat × Nat)} {oldest : Nat} {oldestSlot : Option Nat}
    (h : (findBestFrom prompt slots i longest oldest oldestSlot).2 = none) :
    oldestSlot = none ∧ ∀ s ∈ slots, s.lastUsed < oldest → s.inUse = true := by
  induction slots generalizing i longest oldest oldestSlot with
  | nil => exact ⟨h, by simp⟩
  | cons s slots ih =>
    rw [findBestFrom] at h
    split at h
    · cases (ih h).1
    · rename_i hnot
      obtain ⟨hnone, hall⟩ := ih h
      refine ⟨hnone, List.forall_mem_cons.mpr ⟨?_, hall⟩⟩
      intro hlt
      by_contra huse
      exact hnot ⟨hlt, by simpa using huse⟩

theorem InputCache.slot_of_getElem? {c : InputCache K} {k : Nat} {s : InputCacheSlot}
    (h : c.slots[k]? = some s) : k < c.slots.length ∧ c.slot k = s := by
  refine ⟨(List.getElem?_eq_some_iff.mp h).1, ?_⟩
  rw [slot, List.getD_eq_getElem?_getD, h, Option.getD_some]

/-- How a slot is found for a prompt: one that holds a part of it, or one that gets a copy. -/
inductive Found (ops : KvOps K) (c : InputCache K) (prompt : List Input) (i n : Nat) :
    InputCache K → Prop
  | own : i < c.slots.length → (c.slot i).inUse = false →
      n ≤ countCommonPrefix (c.slot i).inputs prompt → Found ops c prompt i n c
  | forked (j : Nat) : i < c.slots.length → (c.slot i).inUse = false → j < c.slots.length →
      j ≠ i → n = countCommonPrefix (c.slot j).inputs prompt →
      Found ops c prompt i n { c.setInputs i ((c.slot j).inputs.take n) with
        cache := ops.copyPrefix c.cache (c.slot j).id (c.slot i).id n }

theorem InputCache.findSlot_some {c c' : InputCache K} {ops : KvOps K} {prompt : List Input}
    {i n : Nat} (h : c.findSlot ops prompt = (c', some (i, n))) : Found ops c prompt i n c' := by
  unfold findSlot at h
  split at h
  · unfold findBestCacheSlot at h
    split at h
    · cases (Prod.mk.inj h).2
    · rename_i longestSlot longest oldestSlot hbest
      have hlongest : (findBestFrom prompt c.slots 0 none c.now none).1 =
          some (longestSlot, longest) := by rw [hbest]
      rcases findBestFrom_longest hlongest with h' | ⟨k, s, hk, hj, hn⟩
      · cases h'
      · rw [Nat.zero_add] at hj
        subst hj
        obtain ⟨hlt, hslot⟩ := slot_of_getElem? hk
        rw [← hslot] at hn
        split at h
        · rename_i hfull
          obtain ⟨rfl, hin⟩ := Prod.mk.inj h
          obtain ⟨rfl, rfl⟩ := Prod.mk.inj (Option.some.inj hin)
          exact .own hlt (by simpa using hfull.2) hn.le
        · split at h
          · cases (Prod.mk.inj h).2
          · rename_i hbest' oldest
            have holdest : (findBestFrom prompt c.slots 0 none c.now none).2 = some oldest := by
              rw [hbest]
            rcases findBestFrom_oldest holdest with h' | ⟨k', s', hk', hj', huse'⟩
            · cases h'
            · rw [Nat.zero_add] at hj'
              subst hj'
              obtain ⟨hlt', hslot'⟩ := slot_of_getElem? hk'
              rw [← hslot'] at huse'
              rw [if_neg (by simp [huse'])] at h
              split at h
              · rename_i hfork
                obtain ⟨rfl, hin⟩ := Prod.mk.inj h
                obtain ⟨rfl, rfl⟩ := Prod.mk.inj (Option.some.inj hin)
                exact .forked longestSlot hlt' huse' hlt hfork.2 hn
              · rename_i hfork
                obtain ⟨rfl, hin⟩ := Prod.mk.inj h
                obtain ⟨rfl, rfl⟩ := Prod.mk.inj (Option.some.inj hin)
                refine .own hlt' huse' ?_
                by_cases heq : longestSlot = oldest
                · rw [hn, heq]
                · rw [not_and, not_not] at hfork
                  by_contra hgt
                  exact heq (hfork (by omega))
  · obtain ⟨rfl, hin⟩ := Prod.mk.inj h
    rcases findLongestFrom_some hin with h' | ⟨k, s, hk, hj, huse, hn⟩
    · cases h'
    · rw [Nat.zero_add] at hj
      subst hj
      obtain ⟨hlt, rfl⟩ := slot_of_getElem? hk
      exact .own hlt huse hn.le

/-- No slot is found only where all are in use. -/
theorem InputCache.findSlot_none {c c' : InputCache K} {ops : KvOps K} {prompt : List Input}
    (h : c.findSlot ops prompt = (c', none)) :
    c' = c ∧ ((∀ k < c.slots.length, (c.slot k).lastUsed < c.now) →
      ∀ k < c.slots.length, (c.slot k).inUse = true) := by
  have mem (k : Nat) (hk : k < c.slots.length) : c.slot k ∈ c.slots := by
    have : c.slots[k]? = some (c.slot k) := by
      rw [slot, List.getD_eq_getElem?_getD, List.getElem?_eq_getElem hk, Option.getD_some]
    exact List.mem_of_getElem? this
  unfold findSlot at h
  split at h
  · unfold findBestCacheSlot at h
    split at h
    · rename_i hbest
      obtain ⟨rfl, -⟩ := Prod.mk.inj h
      refine ⟨rfl, ?_⟩
      intro _ k hk
      have hnone : (findBestFrom prompt c.slots 0 none c.now none).1 = none := by rw [hbest]
      rw [(findBestFrom_longest_none hnone).2] at hk
      exact absurd hk (Nat.not_lt_zero k)
    · rename_i longestSlot longest oldestSlot hbest
      split at h
      · cases (Prod.mk.inj h).2
      · split at h
        · obtain ⟨rfl, -⟩ := Prod.mk.inj h
          refine ⟨rfl, ?_⟩
          intro clock k hk
          have hnone : (findBestFrom prompt c.slots 0 none c.now none).2 = none := by rw [hbest]
          exact (findBestFrom_oldest_none hnone).2 _ (mem k hk) (clock k hk)
        · rename_i oldest
          have holdest : (findBestFrom prompt c.slots 0 none c.now none).2 = some oldest := by
            rw [hbest]
          rcases findBestFrom_oldest holdest with h' | ⟨k', s', hk', hj', huse'⟩
          · cases h'
          · rw [Nat.zero_add] at hj'
            subst hj'
            rw [← (slot_of_getElem? hk').2] at huse'
            rw [if_neg (by simp [huse'])] at h
            split at h
            · cases (Prod.mk.inj h).2
            · cases (Prod.mk.inj h).2
  · obtain ⟨rfl, hin⟩ := Prod.mk.inj h
    exact ⟨rfl, fun _ k hk => (findLongestFrom_none hin).2 _ (mem k hk)⟩

/-! ### The slot that is loaded -/

/-- What a load does to the slots, whether it fails in the end or not: `i` comes into use. -/
structure Occupied (c c' : InputCache K) (i : Nat) : Prop where
  lt : i < c.slots.length
  free : (c.slot i).inUse = false
  length : c'.slots.length = c.slots.length
  numCtx : c'.numCtx = c.numCtx
  multiUserCache : c'.multiUserCache = c.multiUserCache
  now : c'.now = c.now + 2
  other : ∀ k, k ≠ i → c'.slot k = c.slot k
  id : (c'.slot i).id = (c.slot i).id
  inUse : (c'.slot i).inUse = true
  lastUsed : (c'.slot i).lastUsed = c.now + 1

/-- The KV cache from which a load removes: `c`'s own, or one with a prefix copied to `i`. -/
inductive Source (ops : KvOps K) (c : InputCache K) (i : Nat) : K → Prop
  | own : Source ops c i c.cache
  | forked (j m : Nat) : j < c.slots.length → j ≠ i →
      Source ops c i (ops.copyPrefix c.cache (c.slot j).id (c.slot i).id m)

/-- What is left in the KV cache of `id` are the first `n` entries of what it had in `kv`. -/
inductive Cleared (ops : KvOps K) (kv : K) (id : Int) : Nat → K → Prop
  | part (n : Nat) (kv' : K) : ops.remove kv id n maxInt32 = (kv', true) → Cleared ops kv id n kv'
  | all (n : Nat) (kv' : K) : (ops.remove kv id n maxInt32).2 = false →
      ops.remove (ops.remove kv id n maxInt32).1 id 0 maxInt32 = (kv', true) →
      Cleared ops kv id 0 kv'

/-- Where the first `n` inputs of a prompt are taken from. -/
inductive Resumed (ops : KvOps K) (c : InputCache K) (prompt : List Input) (i n : Nat) : K → Prop
  | own (kv : K) : n ≤ countCommonPrefix (c.slot i).inputs prompt →
      Cleared ops c.cache (c.slot i).id n kv → Resumed ops c prompt i n kv
  | forked (j m : Nat) (kv : K) : j < c.slots.length → j ≠ i →
      m = countCommonPrefix (c.slot j).inputs prompt → n ≤ m →
      Cleared ops (ops.copyPrefix c.cache (c.slot j).id (c.slot i).id m) (c.slot i).id n kv →
      Resumed ops c prompt i n kv

/-- `prompt` is loaded into slot `i`, with `rest` still to be processed. -/
structure Loaded (ops : KvOps K) (c c' : InputCache K) (prompt : List Input) (i : Nat)
    (rest : List Input) : Prop where
  occupied : Occupied c c' i
  resumed : ∃ n < prompt.length, (c'.slot i).inputs = prompt.take n ∧ rest = prompt.drop n ∧
    Resumed ops c prompt i n c'.cache

theorem InputCache.truncate_some (c : InputCache K) {c' : InputCache K} {ops : KvOps K}
    {i numPast n : Nat} (h : c.truncate ops i numPast = (c', some n)) :
    n ≤ numPast ∧ c' = { c with cache := c'.cache } ∧
      Cleared ops c.cache (c.slot i).id n c'.cache := by
  have le : (if numPast > 0 ∧ !ops.canResume c.cache (c.slot i).id numPast then 0 else numPast) ≤
      numPast := by
    split <;> omega
  unfold truncate at h
  dsimp only at h
  generalize (if numPast > 0 ∧ !ops.canResume c.cache (c.slot i).id numPast then 0 else numPast) =
    m at h le
  split at h
  · rename_i kv hremove
    obtain ⟨rfl, hn⟩ := Prod.mk.inj h
    obtain rfl := Option.some.inj hn
    exact ⟨le, rfl, .part m kv hremove⟩
  · rename_i kv hremove
    split at h
    · rename_i kv' hremove'
      obtain ⟨rfl, hn⟩ := Prod.mk.inj h
      obtain rfl := Option.some.inj hn
      refine ⟨Nat.zero_le _, rfl, .all m kv' (by rw [hremove]) ?_⟩
      rw [hremove]
      exact hremove'
    · cases (Prod.mk.inj h).2

theorem InputCache.truncate_none {c c' : InputCache K} {ops : KvOps K} {i numPast : Nat}
    (h : c.truncate ops i numPast = (c', none)) : c' = { c with cache := c'.cache } ∧
      ∃ n : Nat, (ops.remove c.cache (c.slot i).id n maxInt32).2 = false := by
  unfold truncate at h
  dsimp only at h
  generalize (if numPast > 0 ∧ !ops.canResume c.cache (c.slot i).id numPast then 0 else numPast) =
    m at h
  split at h
  · cases (Prod.mk.inj h).2
  · rename_i kv hremove
    split at h
    · cases (Prod.mk.inj h).2
    · obtain ⟨rfl, -⟩ := Prod.mk.inj h
      exact ⟨rfl, m, by rw [hremove]⟩

/-- Slot `i` of `c`, marked as in use. -/
def InputCache.use (c : InputCache K) (i : Nat) : InputCache K :=
  { c.setSlot i fun s => { s with inUse := true, lastUsed := c.now + 1 } with now := c.now + 2 }

theorem InputCache.slot_use (c : InputCache K) (i k : Nat) : (c.use i).slot k =
    if k = i ∧ i < c.slots.length then
      { c.slot i with inUse := true, lastUsed := c.now + 1 } else c.slot k :=
  c.slot_setSlot i _ k

theorem Found.occupied {ops : KvOps K} {c c' : InputCache K} {prompt : List Input} {i n : Nat}
    (found : Found ops c prompt i n c') (kv : K) :
    Occupied c { c'.use i with cache := kv } i := by
  cases found with
  | own hlt hfree hn =>
    have self := c.slot_use i i
    rw [if_pos ⟨rfl, hlt⟩] at self
    refine ⟨hlt, hfree, c.setSlot_length i _, rfl, rfl, rfl, ?_, ?_, ?_, ?_⟩
    · intro k hk
      exact (c.slot_use i k).trans (if_neg fun h => hk h.1)
    · exact congrArg (·.id) self
    · exact congrArg (·.inUse) self
    · exact congrArg (·.lastUsed) self
  | forked j hlt hfree hj hne hn =>
    have use := c.sameUse_setInputs i ((c.slot j).inputs.take n)
      (ops.copyPrefix c.cache (c.slot j).id (c.slot i).id n)
    have self := InputCache.slot_use { c.setInputs i ((c.slot j).inputs.take n) with
      cache := ops.copyPrefix c.cache (c.slot j).id (c.slot i).id n } i i
    rw [if_pos ⟨rfl, use.length ▸ hlt⟩] at self
    refine ⟨hlt, hfree, ?_, rfl, rfl, rfl, ?_, ?_, ?_, ?_⟩
    · exact (InputCache.setSlot_length _ i _).trans use.length
    · intro k hk
      refine (InputCache.slot_use _ i k).trans ?_
      rw [if_neg fun h => hk h.1]
      exact (c.slot_setInputs i _ k).trans (if_neg fun h => hk h.1)
    · exact (congrArg (·.id) self).trans (use.id i)
    · exact congrArg (·.inUse) self
    · exact congrArg (·.lastUsed) self

theorem InputCache.id_use (c : InputCache K) (i k : Nat) :
    ((c.use i).slot k).id = (c.slot k).id := by
  rw [slot_use]
  split
  · rename_i h
    rw [h.1]
  · rfl

theorem Found.id {ops : KvOps K} {c c' : InputCache K} {prompt : List Input} {i n : Nat}
    (found : Found ops c prompt i n c') : (c'.slot i).id = (c.slot i).id := by
  cases found with
  | own => rfl
  | forked j => exact (c.sameUse_setInputs i _ _).id i

theorem Found.le_length {ops : KvOps K} {c c' : InputCache K} {prompt : List Input} {i n : Nat}
    (found : Found ops c prompt i n c') : n ≤ prompt.length := by
  cases found with
  | own _ _ hn => exact hn.trans (countCommonPrefix_le_right _ _)
  | forked j _ _ _ _ hn =>
    rw [hn]
    exact countCommonPrefix_le_right _ _

theorem Found.source {ops : KvOps K} {c c' : InputCache K} {prompt : List Input} {i n : Nat}
    (found : Found ops c prompt i n c') : Source ops c i c'.cache := by
  cases found with
  | own => exact .own
  | forked j _ _ hj hne => exact .forked j n hj hne

theorem Found.resumed {ops : KvOps K} {c c' : InputCache K} {prompt : List Input} {i m n : Nat}
    (found : Found ops c prompt i m c') (hn : n ≤ m) {kv : K}
    (cleared : Cleared ops (c'.use i).cache ((c'.use i).slot i).id n kv) :
    Resumed ops c prompt i n kv := by
  rw [InputCache.id_use, found.id] at cleared
  cases found with
  | own _ _ hm => exact .own kv (hn.trans hm) cleared
  | forked j _ _ hj hne hm => exact .forked j m kv hj hne hm hn cleared

theorem Occupied.setInputs {c c' : InputCache K} {i : Nat} (occupied : Occupied c c' i)
    (inputs : List Input) : Occupied c (c'.setInputs i inputs) i := by
  have self := c'.slot_setInputs i inputs i
  rw [if_pos ⟨rfl, occupied.length ▸ occupied.lt⟩] at self
  refine ⟨occupied.lt, occupied.free, (c'.setSlot_length i _).trans occupied.length,
    occupied.numCtx, occupied.multiUserCache, occupied.now, ?_, ?_, ?_, ?_⟩
  · intro k hk
    rw [c'.slot_setInputs, if_neg fun h => hk h.1]
    exact occupied.other k hk
  · rw [self]
    exact occupied.id
  · rw [self]
    exact occupied.inUse
  · rw [self]
    exact occupied.lastUsed

theorem InputCache.loadCacheSlot_some {c c' : InputCache K} {ops : KvOps K} {prompt rest : List Input}
    {i : Nat} (hprompt : prompt ≠ []) (h : c.loadCacheSlot ops prompt = (c', some (i, rest))) :
    Loaded ops c c' prompt i rest := by
  have hpos := List.length_pos_iff.mpr hprompt
  unfold loadCacheSlot at h
  split at h
  · cases (Prod.mk.inj h).2
  · rename_i c₁ i₁ numPast hfind
    have found := findSlot_some hfind
    dsimp only at h
    have hm : (if numPast = prompt.length then numPast - 1 else numPast) < prompt.length ∧
        (if numPast = prompt.length then numPast - 1 else numPast) ≤ numPast := by
      have := found.le_length
      split <;> omega
    generalize (if numPast = prompt.length then numPast - 1 else numPast) = m at h hm
    split at h
    · cases (Prod.mk.inj h).2
    · rename_i c₂ n htruncate
      obtain ⟨rfl, hin⟩ := Prod.mk.inj h
      obtain ⟨rfl, rfl⟩ := Prod.mk.inj (Option.some.inj hin)
      obtain ⟨hle, heq, cleared⟩ := (c₁.use i₁).truncate_some htruncate
      have occupied : Occupied c c₂ i₁ := by
        rw [heq]
        exact found.occupied _
      have hslot := c₂.slot_setInputs i₁ (prompt.take n) i₁
      rw [if_pos ⟨rfl, occupied.length ▸ occupied.lt⟩] at hslot
      refine ⟨occupied.setInputs _, n, by omega, by rw [hslot], rfl, ?_⟩
      exact found.resumed (by omega) cleared

theorem InputCache.loadCacheSlot_none {c c' : InputCache K} {ops : KvOps K} {prompt : List Input}
    (h : c.loadCacheSlot ops prompt = (c', none)) :
    c' = c ∧ ((∀ k < c.slots.length, (c.slot k).lastUsed < c.now) →
      ∀ k < c.slots.length, (c.slot k).inUse = true) ∨
    ∃ i, Occupied c c' i ∧ ∃ kv, Source ops c i kv ∧
      ∃ n : Nat, (ops.remove kv (c.slot i).id n maxInt32).2 = false := by
  unfold loadCacheSlot at h
  split at h
  · rename_i hfind
    obtain ⟨rfl, -⟩ := Prod.mk.inj h
    exact .inl (findSlot_none hfind)
  · rename_i c₁ i numPast hfind
    have found := findSlot_some hfind
    dsimp only at h
    split at h
    · rename_i c₂ htruncate
      obtain ⟨rfl, -⟩ := Prod.mk.inj h
      obtain ⟨heq, n, hn⟩ := truncate_none htruncate
      refine .inr ⟨i, ?_, _, found.source, n, ?_⟩
      · rw [heq]
        exact found.occupied _
      · rw [← found.id, ← c₁.id_use i i]
        exact hn
    · cases (Prod.mk.inj h).2

end Ecco9.Runner
