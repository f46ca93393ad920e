import Ecco9.Library.Chars
import Mathlib.Data.List.SplitBy

/-! `Execute` of `template/template.go`, for templates that know messages and for those that know one
system text, one prompt and one response. -/

namespace Ecco9.Prompt

open Ecco9.Library

inductive Role
  | system
  | user
  | assistant
  | tool
  | other (name : Text)
  deriving DecidableEq

structure Message where
  role : Role
  content : Text
  images : List Text := []
  deriving DecidableEq

def blankLine : Text := ascii "\n\n"

/-- Consecutive messages of one role are one, but for those of tools. -/
def collateOne (collated : List Message) (m : Message) : List Message :=
  match collated.getLast? with
  | some last =>
    if last.role = m.role ∧ m.role ≠ .tool then
      collated.dropLast ++ [{ last with content := last.content ++ (blankLine ++ m.content) }]
    else collated ++ [m]
  | none => collated ++ [m]

/-- The system messages in one, and the messages collated. -/
def collate (msgs : List Message) : Text × List Message :=
  (List.intercalate blankLine ((msgs.filter (·.role = .system)).map (·.content)),
    msgs.foldl collateOne [])

/-! ### Execution -/

structure Turn where
  system : Text := []
  prompt : Text := []
  response : Text := []
  deriving DecidableEq

/-- What a template is executed with. -/
inductive Data
  | suffix (prompt suffix : Text)
  | messages (system : Text) (messages : List Message)
  | turn (turn : Turn)

structure Values where
  messages : List Message
  prompt : Text := []
  suffix : Text := []
  forceLegacy : Bool := false

/-- A template as `text/template` executes it, whole and up to its first `.Response`. -/
structure Template (E : Type) where
  hasMessages : Bool
  run : Data → Except E Text
  runCut : Data → Except E Text

namespace Template

variable {E : Type} (t : Template E)

/-- What has been gathered is rendered, and forgotten. -/
def flush (b : Text) (v : Turn) : Except E (Text × Turn) := do
  let out ← t.run (.turn v)
  return (b ++ out, {})

def step : Text × Turn → Message → Except E (Text × Turn)
  | (b, v), m =>
    match m.role with
    | .system => do
      let (b, v) ← if v.prompt ≠ [] ∨ v.response ≠ [] then t.flush b v else pure (b, v)
      return (b, { v with system := m.content })
    | .user => do
      let (b, v) ← if v.response ≠ [] then t.flush b v else pure (b, v)
      return (b, { v with prompt := m.content })
    | .assistant => return (b, { v with response := m.content })
    | _ => return (b, v)

/-- `Execute` for templates that know no messages. -/
def executeLegacy (messages : List Message) : Except E Text := do
  let (b, v) ← messages.foldlM t.step ([], {})
  let out ← t.runCut (.turn v)
  return b ++ out

def execute (v : Values) : Except E Text :=
  let (system, messages) := collate v.messages
  if v.prompt ≠ [] ∧ v.suffix ≠ [] then t.run (.suffix v.prompt v.suffix)
  else if v.forceLegacy = false ∧ t.hasMessages = true then t.run (.messages system messages)
  else t.executeLegacy messages

end Template

/-! ### Turns -/

/-- The places of a turn, in the order in which they are filled. -/
inductive Place
  | system
  | prompt
  | response
  deriving DecidableEq

namespace Place

def rank : Place → Nat
  | system => 0
  | prompt => 1
  | response => 2

def role : Place → Role
  | system => .system
  | prompt => .user
  | response => .assistant

end Place

def Role.place : Role → Option Place
  | .system => some .system
  | .user => some .prompt
  | .assistant => some .response
  | _ => none

namespace Turn

def get (v : Turn) : Place → Text
  | .system => v.system
  | .prompt => v.prompt
  | .response => v.response

def put (v : Turn) (c : Text) : Place → Turn
  | .system => { v with system := c }
  | .prompt => { v with prompt := c }
  | .response => { v with response := c }

/-- Something stands in a later place. -/
def Beyond (v : Turn) : Place → Prop
  | .system => v.prompt ≠ [] ∨ v.response ≠ []
  | .prompt => v.response ≠ []
  | .response => False

instance (v : Turn) : (k : Place) → Decidable (v.Beyond k)
  | .system => inferInstanceAs (Decidable (_ ∨ _))
  | .prompt => inferInstanceAs (Decidable (_ ≠ _))
  | .response => inferInstanceAs (Decidable False)

/-- What the turn says, by role. -/
def said (v : Turn) : List (Role × Text) :=
  [(.system, v.system), (.user, v.prompt), (.assistant, v.response)].filter (·.2 ≠ [])

end Turn

/-- The turns that are rendered, and the last one. -/
abbrev Turns := List Turn × Turn

/-- One message: turns with something in a later place are rendered first. -/
def arrive (p : Turns) (m : Message) : Turns :=
  match m.role.place with
  | none => p
  | some k =>
    if p.2.Beyond k then (p.1 ++ [p.2], Turn.put {} m.content k) else (p.1, p.2.put m.content k)

def turns (messages : List Message) : Turns := messages.foldl arrive ([], {})

/-- Turns are rendered one after another. -/
def Template.render {E : Type} (t : Template E) (p : Turns) : Except E Text := do
  let outs ← p.1.mapM fun v => t.run (.turn v)
  let out ← t.runCut (.turn p.2)
  return outs.flatten ++ out

/-! ### The legacy path renders turns -/

section
variable {E : Type} {t : Template E}

theorem place_role {r : Role} {k : Place} (h : r.place = some k) : r = k.role := by
  cases r <;> cases h <;> rfl

theorem step_none {m : Message} (h : m.role.place = none) (b : Text) (v : Turn) :
    t.step (b, v) m = .ok (b, v) := by
  rw [Template.step]
  cases hr : m.role <;> rw [hr] at h <;> cases h <;> rfl

theorem step_some {m : Message} {k : Place} (h : m.role.place = some k) (b : Text) (v : Turn) :
    t.step (b, v) m = if v.Beyond k then
      (t.run (.turn v)).map fun out => (b ++ out, Turn.put {} m.content k)
    else .ok (b, v.put m.content k) := by
  rw [Template.step, place_role h]
  cases k with
  | system =>
    by_cases hb : v.Beyond .system
    · rw [if_pos hb]
      refine (if_pos hb).trans ?_
      rw [Template.flush]
      cases t.run (.turn v) <;> rfl
    · rw [if_neg hb]
      exact if_neg hb
  | prompt =>
    by_cases hb : v.Beyond .prompt
    · rw [if_pos hb]
      refine (if_pos hb).trans ?_
      rw [Template.flush]
      cases t.run (.turn v) <;> rfl
    · rw [if_neg hb]
      exact if_neg hb
  | response => exact (if_neg id).symm

theorem arrive_none {p : Turns} {m : Message} (h : m.role.place = none) : arrive p m = p := by
  rw [arrive, h]

theorem arrive_some {p : Turns} {m : Message} {k : Place} (h : m.role.place = some k) :
    arrive p m = if p.2.Beyond k then (p.1 ++ [p.2], Turn.put {} m.content k)
      else (p.1, p.2.put m.content k) := by
  rw [arrive, h]

/-- Turns that have been rendered stay so. -/
theorem arrive_append (front : List Turn) (p : Turns) (m : Message) :
    arrive (front ++ p.1, p.2) m = (front ++ (arrive p m).1, (arrive p m).2) := by
  cases h : m.role.place with
  | none => rw [arrive_none h, arrive_none h]
  | some k =>
    rw [arrive_some h, arrive_some h]
    split_ifs
    · rw [List.append_assoc]
    · rfl

theorem foldl_arrive_append (front : List Turn) (p : Turns) (ms : List Message) :
    ms.foldl arrive (front ++ p.1, p.2) =
      (front ++ (ms.foldl arrive p).1, (ms.foldl arrive p).2) := by
  induction ms generalizing p with
  | nil => rfl
  | cons m ms ih =>
    rw [List.foldl_cons, arrive_append, ih]
    rfl

/-- The loop renders the turns it has gathered, in their order. -/
theorem foldlM_step (b : Text) (v : Turn) (ms : List Message) :
    ms.foldlM t.step (b, v) = ((ms.foldl arrive ([], v)).1.mapM fun v => t.run (.turn v)).map
      fun outs => (b ++ outs.flatten, (ms.foldl arrive ([], v)).2) := by
  induction ms generalizing b v with
  | nil => simp [pure, Except.pure, Except.map]
  | cons m ms ih =>
    rw [List.foldlM_cons, List.foldl_cons]
    cases h : m.role.place with
    | none =>
      rw [step_none h, arrive_none h]
      exact ih b v
    | some k =>
      rw [step_some h, arrive_some h]
      by_cases hb : v.Beyond k
      · rw [if_pos hb, if_pos hb]
        have hfront := foldl_arrive_append [v] ([], Turn.put {} m.content k) ms
        rw [List.append_nil] at hfront
        rw [List.nil_append, hfront, List.cons_append, List.nil_append, List.mapM_cons]
        cases t.run (.turn v) with
        | error e => rfl
        | ok out =>
          refine (ih (b ++ out) (Turn.put {} m.content k)).trans ?_
          simp only [bind, Except.bind, pure, Except.pure]
          cases (ms.foldl arrive ([], Turn.put {} m.content k)).1.mapM fun v => t.run (.turn v) with
          | error e => rfl
          | ok outs => simp [Except.map]
      · rw [if_neg hb, if_neg hb]
        exact ih b (v.put m.content k)

theorem executeLegacy_eq (ms : List Message) : t.executeLegacy ms = t.render (turns ms) := by
  rw [Template.executeLegacy, foldlM_step, Template.render, turns]
  cases (ms.foldl arrive ([], {})).1.mapM fun v => t.run (.turn v) <;> rfl

end

/-! ### What the turns say -/

/-- A message that a turn can say, with something in it. -/
def Message.said (m : Message) : List (Role × Text) :=
  if m.role.place.isSome ∧ m.content ≠ [] then [(m.role, m.content)] else []

def Turns.said (p : Turns) : List (Role × Text) := (p.1 ++ [p.2]).flatMap Turn.said

/-- The message takes a place that is taken, and no turn is rendered before. -/
def Lost (v : Turn) (m : Message) : Prop :=
  ∃ k, m.role.place = some k ∧ ¬v.Beyond k ∧ v.get k ≠ []

theorem get_put (v : Turn) (c : Text) (k j : Place) :
    (v.put c k).get j = if j = k then c else v.get j := by
  cases k <;> cases j <;> rfl

theorem beyond_iff (v : Turn) (k : Place) :
    v.Beyond k ↔ ∃ j, k.rank < j.rank ∧ v.get j ≠ [] := by
  constructor
  · intro h
    cases k with
    | system => exact h.elim (fun h => ⟨.prompt, by decide, h⟩) fun h => ⟨.response, by decide, h⟩
    | prompt => exact ⟨.response, by decide, h⟩
    | response => exact h.elim
  · rintro ⟨j, hj, hne⟩
    cases k <;> cases j <;> first | exact absurd hj (by decide) | skip
    · exact .inl hne
    · exact .inr hne
    · exact hne

theorem get_empty (k : Place) : ({} : Turn).get k = [] := by cases k <;> rfl

theorem said_of_place {m : Message} {k : Place} (h : m.role.place = some k) :
    m.said = if m.content = [] then [] else [(k.role, m.content)] := by
  rw [Message.said, h, place_role h]
  by_cases hc : m.content = [] <;> simp [hc]

/-- A place that is free, with nothing behind it, is filled. -/
theorem said_put {v : Turn} {k : Place} (hb : ¬v.Beyond k) (hfree : v.get k = []) (c : Text) :
    (v.put c k).said = v.said ++ if c = [] then [] else [(k.role, c)] := by
  cases k with
  | system =>
    obtain ⟨hprompt, hresponse⟩ := not_or.mp hb
    rw [Turn.get] at hfree
    rw [Classical.not_not] at hprompt hresponse
    by_cases hc : c = [] <;> simp [Turn.said, Turn.put, hprompt, hresponse, hfree, hc, Place.role]
  | prompt =>
    have hresponse : v.response = [] := Classical.not_not.mp hb
    rw [Turn.get] at hfree
    by_cases hs : v.system = [] <;> by_cases hc : c = [] <;>
      simp [Turn.said, Turn.put, hresponse, hfree, hc, hs, Place.role]
  | response =>
    rw [Turn.get] at hfree
    by_cases hs : v.system = [] <;> by_cases hp : v.prompt = [] <;> by_cases hc : c = [] <;>
      simp [Turn.said, Turn.put, hfree, hc, hs, hp, Place.role]

theorem put_put (v : Turn) (c d : Text) (k : Place) : (v.put c k).put d k = v.put d k := by
  cases k <;> rfl

theorem put_get (v : Turn) (k : Place) : v.put (v.get k) k = v := by cases k <;> rfl

theorem not_beyond_put {v : Turn} {k : Place} (hb : ¬v.Beyond k) (c : Text) :
    ¬(v.put c k).Beyond k := by
  cases k <;> exact hb

/-- A place that is taken is filled again, and what stood there is gone. -/
theorem length_said_put {v : Turn} {k : Place} (hb : ¬v.Beyond k) (hne : v.get k ≠ []) (c : Text) :
    (v.put c k).said.length < (v.said ++ if c = [] then [] else [(k.role, c)]).length := by
  have hfree : (v.put [] k).get k = [] := by rw [get_put, if_pos rfl]
  have hbefore := said_put (not_beyond_put hb []) hfree (v.get k)
  have hafter := said_put (not_beyond_put hb []) hfree c
  rw [put_put, put_get, if_neg hne] at hbefore
  rw [put_put] at hafter
  rw [hafter, hbefore, List.length_append, List.length_append, List.length_append,
    List.length_singleton]
  omega

theorem said_arrive {p : Turns} {m : Message} (h : ¬Lost p.2 m) :
    (arrive p m).said = p.said ++ m.said := by
  cases hm : m.role.place with
  | none =>
    have hnone : m.said = [] := if_neg (by simp [hm])
    rw [arrive_none hm, hnone, List.append_nil]
  | some k =>
    rw [arrive_some hm, said_of_place hm]
    by_cases hb : p.2.Beyond k
    · have hput := said_put (v := {}) (k := k) (by
        rw [beyond_iff]
        rintro ⟨j, -, hj⟩
        exact hj (get_empty j)) (get_empty k) m.content
      rw [if_pos hb, Turns.said, Turns.said, List.flatMap_append, List.flatMap_singleton, hput]
      rfl
    · have hfree : p.2.get k = [] := Classical.not_not.mp fun hne => h ⟨k, hm, hb, hne⟩
      rw [if_neg hb, Turns.said, Turns.said, List.flatMap_append, List.flatMap_append,
        List.flatMap_singleton, List.flatMap_singleton, said_put hb hfree, List.append_assoc]

theorem length_said_arrive {p : Turns} {m : Message} (h : Lost p.2 m) :
    (arrive p m).said.length < (p.said ++ m.said).length := by
  obtain ⟨k, hm, hb, hne⟩ := h
  have hlt := length_said_put hb hne m.content
  rw [arrive_some hm, if_neg hb, said_of_place hm, Turns.said, Turns.said, List.flatMap_append,
    List.flatMap_append, List.flatMap_singleton, List.flatMap_singleton, List.append_assoc]
  simp only [List.length_append] at hlt ⊢
  omega

theorem length_said_foldl (p : Turns) (ms : List Message) :
    (ms.foldl arrive p).said.length ≤ (p.said ++ ms.flatMap Message.said).length := by
  induction ms generalizing p with
  | nil => simp
  | cons m ms ih =>
    refine (ih (arrive p m)).trans ?_
    have hle : (arrive p m).said.length ≤ (p.said ++ m.said).length := by
      by_cases h : Lost p.2 m
      · exact (length_said_arrive h).le
      · rw [said_arrive h]
    rw [List.flatMap_cons, ← List.append_assoc]
    simp only [List.length_append] at hle ⊢
    omega

/-- The turns say what the messages say iff no message is lost. -/
theorem said_foldl_iff (p : Turns) (ms : List Message) :
    (ms.foldl arrive p).said = p.said ++ ms.flatMap Message.said ↔
      ∀ front m back, ms = front ++ m :: back → ¬Lost (front.foldl arrive p).2 m := by
  induction ms generalizing p with
  | nil => simp
  | cons m ms ih =>
    rw [List.foldl_cons, List.flatMap_cons, ← List.append_assoc]
    by_cases h : Lost p.2 m
    · refine iff_of_false (fun heq => ?_) fun hall => hall [] m ms rfl h
      have hlt := length_said_arrive h
      have hle := length_said_foldl (arrive p m) ms
      rw [heq] at hle
      simp only [List.length_append] at hlt hle
      omega
    · rw [← said_arrive h, ih]
      constructor
      · intro hall front m' back hsplit
        cases front with
        | nil =>
          obtain ⟨rfl, -⟩ := List.cons.inj hsplit
          exact h
        | cons a front =>
          obtain ⟨rfl, rfl⟩ := List.cons.inj hsplit
          exact hall front m' back rfl
      · rintro hall front m' back rfl
        exact hall (m :: front) m' back rfl

/-! ### What is lost -/

/-- The message has no place before or at that of `k`, and nothing in it if it has a later one. -/
def Passes (k : Place) (m : Message) : Prop :=
  ∀ j, m.role.place = some j → k.rank < j.rank ∧ m.content = []

/-- Two messages of one role with something in the first, and nothing between them that would have
the first one rendered: messages without a place, and empty ones with a later place. -/
def Overwrites (ms : List Message) : Prop :=
  ∃ front g mid g' back k, ms = front ++ g :: (mid ++ g' :: back) ∧ g.role.place = some k ∧
    g'.role = g.role ∧ g.content ≠ [] ∧ ∀ m ∈ mid, Passes k m

theorem Overwrites.append {ms : List Message} (h : Overwrites ms) (rest : List Message) :
    Overwrites (ms ++ rest) := by
  obtain ⟨front, g, mid, g', back, k, rfl, hg⟩ := h
  exact ⟨front, g, mid, g', back ++ rest, k, by simp, hg⟩

/-- What stands in a place came there with the last message of its role. -/
def Stands (ms : List Message) (v : Turn) : Prop :=
  ∀ k, v.get k ≠ [] → ∃ front g mid, ms = front ++ g :: mid ∧ g.role.place = some k ∧
    g.content ≠ [] ∧ ∀ m ∈ mid, ∀ j, m.role.place = some j →
      k.rank < j.rank ∧ (m.content ≠ [] → v.get j ≠ [])

theorem rank_inj {j k : Place} (h : j.rank = k.rank) : j = k := by
  cases j <;> cases k <;> first | rfl | exact absurd h (by decide)

theorem Stands.arrive {ms : List Message} {p : Turns} {m : Message} (stands : Stands ms p.2)
    (h : ¬Lost p.2 m) : Stands (ms ++ [m]) (arrive p m).2 := by
  cases hm : m.role.place with
  | none =>
    rw [arrive_none hm]
    intro k hk
    obtain ⟨front, g, mid, rfl, hg, hne, hmid⟩ := stands k hk
    refine ⟨front, g, mid ++ [m], by simp, hg, hne, ?_⟩
    rw [List.forall_mem_append]
    refine ⟨hmid, fun a ha j hj => ?_⟩
    rw [List.mem_singleton.mp ha, hm] at hj
    cases hj
  | some i =>
    have hplaced (v : Turn) (hi : (v.put m.content i).get i ≠ []) :
        ∃ front g mid, ms ++ [m] = front ++ g :: mid ∧ g.role.place = some i ∧ g.content ≠ [] ∧
          ∀ a ∈ mid, ∀ j, a.role.place = some j →
            i.rank < j.rank ∧ (a.content ≠ [] → (v.put m.content i).get j ≠ []) := by
      rw [get_put, if_pos rfl] at hi
      exact ⟨ms, m, [], rfl, hm, hi, by simp⟩
    rw [arrive_some hm]
    by_cases hb : p.2.Beyond i
    · rw [if_pos hb]
      intro k hk
      by_cases hki : k = i
      · subst hki
        exact hplaced {} hk
      · rw [get_put, if_neg hki] at hk
        exact absurd (get_empty k) hk
    · rw [if_neg hb]
      intro k hk
      by_cases hki : k = i
      · subst hki
        exact hplaced p.2 hk
      · have hfree : p.2.get i = [] := Classical.not_not.mp fun hne => h ⟨i, hm, hb, hne⟩
        rw [get_put, if_neg hki] at hk
        obtain ⟨front, g, mid, rfl, hg, hne, hmid⟩ := stands k hk
        refine ⟨front, g, mid ++ [m], by simp, hg, hne, ?_⟩
        rw [List.forall_mem_append]
        constructor
        · -- nothing in the place was lost, and it is not the one that is filled
          intro a ha j hj
          obtain ⟨hlt, hthere⟩ := hmid a ha j hj
          refine ⟨hlt, fun hac => ?_⟩
          rw [get_put]
          split_ifs with hji
          · subst hji
            exact absurd hfree (hthere hac)
          · exact hthere hac
        · intro a ha j hj
          rw [List.mem_singleton.mp ha] at hj ⊢
          obtain rfl := Option.some.inj (hm.symm.trans hj)
          refine ⟨?_, fun hac => ?_⟩
          · by_contra hle
            refine hb ((beyond_iff _ _).mpr ⟨k, ?_, hk⟩)
            have hne : k.rank ≠ i.rank := fun heq => hki (rank_inj heq)
            omega
          · rwa [get_put, if_pos rfl]

theorem Stands.overwrites {ms : List Message} {v : Turn} {m : Message} (stands : Stands ms v)
    (h : Lost v m) : Overwrites (ms ++ [m]) := by
  obtain ⟨k, hm, hb, hne⟩ := h
  obtain ⟨front, g, mid, rfl, hg, hgc, hmid⟩ := stands k hne
  refine ⟨front, g, mid, m, [], k, by simp, hg, ?_, hgc, ?_⟩
  · rw [place_role hm, place_role hg]
  · intro a ha j hj
    obtain ⟨hlt, hthere⟩ := hmid a ha j hj
    refine ⟨hlt, Classical.not_not.mp fun hac => hb ?_⟩
    exact (beyond_iff _ _).mpr ⟨j, hlt, hthere hac⟩

/-- Up to the first message that is lost, places hold what was put there last. -/
theorem overwrites_or_stands (ms : List Message) :
    Overwrites ms ∨ Stands ms (turns ms).2 := by
  induction ms using List.reverseRecOn with
  | nil =>
    exact .inr fun k hk => absurd (get_empty k) hk
  | append_singleton ms m ih =>
    rcases ih with hover | stands
    · exact .inl (hover.append [m])
    · rw [turns, List.foldl_concat]
      by_cases h : Lost (turns ms).2 m
      · exact .inl (stands.overwrites h)
      · exact .inr (stands.arrive h)

/-- Messages that pass leave a place as it is, with nothing behind it. -/
theorem foldl_passes {k : Place} {p : Turns} {mid : List Message} (h : ∀ m ∈ mid, Passes k m)
    (hb : ¬p.2.Beyond k) :
    (mid.foldl arrive p).2.get k = p.2.get k ∧ ¬(mid.foldl arrive p).2.Beyond k := by
  induction mid generalizing p with
  | nil => exact ⟨rfl, hb⟩
  | cons m mid ih =>
    have hnext : (arrive p m).2.get k = p.2.get k ∧ ¬(arrive p m).2.Beyond k := by
      cases hm : m.role.place with
      | none =>
        rw [arrive_none hm]
        exact ⟨rfl, hb⟩
      | some j =>
        obtain ⟨hlt, hempty⟩ := h m (by simp) j hm
        rw [beyond_iff] at hb
        have hlater : ¬p.2.Beyond j := by
          rw [beyond_iff]
          rintro ⟨i, hi, hne⟩
          exact hb ⟨i, hlt.trans hi, hne⟩
        rw [arrive_some hm, if_neg hlater, beyond_iff]
        refine ⟨?_, ?_⟩
        · rw [get_put, if_neg]
          rintro rfl
          exact absurd hlt (lt_irrefl _)
        · rintro ⟨i, hi, hne⟩
          refine hb ⟨i, hi, fun hfree => hne ?_⟩
          rw [get_put, hempty, hfree]
          split_ifs <;> rfl
    obtain ⟨hget, hrest⟩ := ih (p := arrive p m) (fun a ha => h a (by simp [ha])) hnext.2
    exact ⟨hget.trans hnext.1, hrest⟩

/-- A message that is lost is one that is overwritten. -/
theorem lost_iff (ms : List Message) :
    (∃ front m back, ms = front ++ m :: back ∧ Lost (turns front).2 m) ↔ Overwrites ms := by
  constructor
  · rintro ⟨front, m, back, rfl, h⟩
    rcases overwrites_or_stands front with hover | stands
    · exact hover.append (m :: back)
    · have hover := (stands.overwrites h).append back
      rwa [List.append_assoc] at hover
  · rintro ⟨front, g, mid, g', back, k, rfl, hg, hrole, hne, hmid⟩
    refine ⟨front ++ g :: mid, g', back, by simp, k, by rw [hrole, hg], ?_⟩
    rw [turns, List.foldl_append, List.foldl_cons]
    have harrive : (arrive (front.foldl arrive ([], {})) g).2.get k = g.content ∧
        ¬(arrive (front.foldl arrive ([], {})) g).2.Beyond k := by
      rw [arrive_some hg]
      split_ifs with hb
      · refine ⟨by rw [get_put, if_pos rfl], not_beyond_put ?_ _⟩
        rw [beyond_iff]
        rintro ⟨j, -, hj⟩
        exact hj (get_empty j)
      · exact ⟨by rw [get_put, if_pos rfl], not_beyond_put hb _⟩
    obtain ⟨hget, hb⟩ := foldl_passes hmid harrive.2
    exact ⟨hb, by rwa [hget, harrive.1]⟩

/-! ### Collating -/

def sameRole (a b : Message) : Bool := decide (a.role = b.role ∧ b.role ≠ .tool)

/-- Messages in one, with blank lines between. -/
def joined : List Message → Message
  | [] => { role := .tool, content := [] }
  | m :: ms => { m with content := List.intercalate blankLine ((m :: ms).map (·.content)) }

/-- The messages, consecutive ones of one role joined. -/
def groups (msgs : List Message) : List Message := (msgs.splitBy sameRole).map joined

theorem intercalate_concat (sep : Text) {xs : List Text} (h : xs ≠ []) (x : Text) :
    List.intercalate sep (xs ++ [x]) = List.intercalate sep xs ++ (sep ++ x) := by
  induction xs with
  | nil => exact absurd rfl h
  | cons y xs ih =>
    cases xs with
    | nil => simp
    | cons z xs =>
      rw [List.cons_append, List.cons_append, List.intercalate_cons_cons,
        List.intercalate_cons_cons, ← List.cons_append, ih (by simp)]
      simp

theorem joined_concat {b : List Message} (h : b ≠ []) (m : Message) :
    joined (b ++ [m]) = { joined b with content := (joined b).content ++ (blankLine ++ m.content) } := by
  cases b with
  | nil => exact absurd rfl h
  | cons a b =>
    have hne : (a :: b).map (·.content) ≠ [] := by simp
    have hcontent := intercalate_concat blankLine hne m.content
    simp only [joined, List.cons_append, Message.mk.injEq, and_true, true_and]
    rw [← hcontent]
    simp

theorem joined_single (m : Message) : joined [m] = m := by
  rw [joined, List.map_singleton, List.intercalate_singleton]

theorem role_joined {b : List Message} (hne : b ≠ []) (h : b.IsChain fun x y => sameRole x y) :
    (joined b).role = (b.getLast hne).role := by
  induction b using List.reverseRecOn with
  | nil => exact absurd rfl hne
  | append_singleton b m ih =>
    rw [List.getLast_append_singleton]
    cases hb : b.getLast? with
    | none =>
      obtain rfl := List.getLast?_eq_none_iff.mp hb
      rfl
    | some a =>
      have hbne : b ≠ [] := by
        rintro rfl
        cases hb
      rw [List.isChain_append] at h
      have hsame := of_decide_eq_true (h.2.2 a hb m rfl)
      rw [joined_concat hbne, ih hbne h.1, ← hsame.1]
      rw [List.getLast?_eq_some_getLast hbne] at hb
      rw [Option.some.inj hb]

theorem splitBy_join {ms : List Message} {bs : List (List Message)} {b : List Message}
    (h : ms.splitBy sameRole = bs ++ [b]) (hb : b ≠ []) {m : Message}
    (hsame : sameRole (b.getLast hb) m = true) :
    (ms ++ [m]).splitBy sameRole = bs ++ [b ++ [m]] := by
  obtain ⟨hflat, hnil, hchain, hapart⟩ := List.splitBy_eq_iff.mp h
  rw [List.splitBy_eq_iff]
  refine ⟨?_, ?_, ?_, ?_⟩
  · rw [hflat]
    simp
  · rw [List.mem_append, List.mem_singleton, not_or]
    exact ⟨fun hmem => hnil (by simp [hmem]), by simp⟩
  · rw [List.forall_mem_append] at hchain ⊢
    refine ⟨hchain.1, fun x hx => ?_⟩
    rw [List.mem_singleton.mp hx, List.isChain_append]
    refine ⟨hchain.2 b (by simp), List.IsChain.singleton m, ?_⟩
    intro y hy z hz
    rw [List.getLast?_eq_some_getLast hb] at hy
    obtain rfl := Option.some.inj hy
    obtain rfl := Option.some.inj hz
    exact hsame
  · rw [List.isChain_append] at hapart ⊢
    refine ⟨hapart.1, List.IsChain.singleton _, fun x hx y hy => ?_⟩
    obtain ⟨hxne, hbne, hdiffer⟩ := hapart.2.2 x hx b rfl
    obtain rfl := Option.some.inj hy
    exact ⟨hxne, by simp, by rwa [List.head_append_of_ne_nil hbne]⟩

/-- `collate` joins consecutive messages of one role. -/
theorem collate_eq (msgs : List Message) : (collate msgs).2 = groups msgs := by
  rw [collate, groups]
  dsimp only
  induction msgs using List.reverseRecOn with
  | nil => rfl
  | append_singleton ms m ih =>
    rw [List.foldl_concat, ih]
    rcases List.eq_nil_or_concat (ms.splitBy sameRole) with hnil | ⟨bs, b, hbs⟩
    · rw [hnil]
      obtain rfl := List.splitBy_eq_nil.mp hnil
      exact congrArg ([·]) (joined_single m).symm
    · rw [List.concat_eq_append] at hbs
      have hmem : b ∈ ms.splitBy sameRole := by simp [hbs]
      have hb := List.ne_nil_of_mem_splitBy hmem
      have hrole := role_joined hb (List.isChain_of_mem_splitBy hmem)
      have hlast : ms.getLast? = some (b.getLast hb) := by
        conv_lhs => rw [← List.flatten_splitBy sameRole ms, hbs]
        simp [List.getLast?_eq_some_getLast hb]
      rw [hbs, List.map_append, List.map_singleton, collateOne, List.getLast?_concat]
      dsimp only
      by_cases hsame : (joined b).role = m.role ∧ m.role ≠ .tool
      · have htrue : sameRole (b.getLast hb) m = true := by
          rw [hrole] at hsame
          exact decide_eq_true hsame
        rw [if_pos hsame, splitBy_join hbs hb htrue, List.map_append, List.map_singleton,
          joined_concat hb, List.dropLast_concat]
      · have hfalse : sameRole (b.getLast hb) m = false := by
          refine decide_eq_false fun h => hsame ?_
          rw [hrole]
          exact h
        rw [if_neg hsame, List.splitBy_append_cons, hbs, List.map_append, List.map_append,
          List.map_singleton]
        · exact congrArg (_ ++ [·]) (joined_single m).symm
        · intro x hx
          rw [hlast] at hx
          rwa [← Option.some.inj hx]

/-! ### Conservation -/

/-- The turns that are rendered say what the messages say, in their order, iff none of them overwrites
another. -/
theorem executeLegacy_conserves {E : Type} (t : Template E) (msgs : List Message) :
    t.executeLegacy (collate msgs).2 = t.render (turns (groups msgs)) ∧
      ((turns (groups msgs)).said = (groups msgs).flatMap Message.said ↔
        ¬Overwrites (groups msgs)) := by
  refine ⟨by rw [executeLegacy_eq, collate_eq], ?_⟩
  refine (said_foldl_iff ([], {}) (groups msgs)).trans ?_
  rw [← lost_iff]
  constructor
  · rintro hall ⟨front, m, back, hsplit, hlost⟩
    exact hall front m back hsplit hlost
  · intro hnone front m back hsplit hlost
    exact hnone ⟨front, m, back, hsplit, hlost⟩

def askedTool : List Message :=
  [⟨.user, ascii "Rain?", []⟩, ⟨.assistant, ascii "Let me see.", []⟩, ⟨.tool, ascii "dry", []⟩,
    ⟨.assistant, ascii "No.", []⟩]

/-- What the assistant said before a tool is not rendered. -/
theorem askedTool_lost :
    turns (groups askedTool) = ([], ⟨[], ascii "Rain?", ascii "No."⟩) ∧
      (turns (groups askedTool)).said ≠ (groups askedTool).flatMap Message.said := by
  decide +kernel

example : (turns (groups [⟨.system, ascii "a", []⟩, ⟨.user, [], []⟩, ⟨.system, ascii "b", []⟩])).said =
    [(.system, ascii "b")] := by decide +kernel

end Ecco9.Prompt
