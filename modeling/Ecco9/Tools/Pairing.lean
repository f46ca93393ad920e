import Ecco9.Tools.Chunks

/-! Tool calls that are written as JSON objects, `{"name": …, "arguments": {…}}`, and the names and
arguments that the parser puts together. -/

namespace Ecco9.Tools

open Ecco9.Library

/-! ### Streams of objects -/

/-- An object that stands for a call, as it is written and as it decodes. -/
structure CallObject where
  text : Text
  name : Text
  arguments : Object

def CallObject.Decodes (unmarshal : Text → Option Object) (o : CallObject) : Prop :=
  ∃ obj, unmarshal o.text = some obj ∧ obj.lookup (ascii "name") = some (.string o.name) ∧
    obj.lookup (ascii "arguments") = some (.object o.arguments)

/-- Objects, each with the text that follows it up to the next one. -/
def written (objects : List (CallObject × Text)) : Text :=
  objects.flatMap fun e => e.1.text ++ e.2

/-- Text without braces and without names of tools. -/
def Plain (tools : List Tool) (s : Text) : Prop :=
  0x7B ∉ s ∧ 0x7D ∉ s ∧ ∀ t ∈ tools, cut t.name s = none

def knows (tools : List Tool) (name : Text) : Bool := tools.any fun t => decide (t.name = name)

/-- One call for each object that names a known tool, in order, with its name and its arguments. -/
def Paired (tools : List Tool) (objects : List (CallObject × Text)) (calls : List ToolCall) : Prop :=
  calls.map (fun c => (c.name, c.arguments)) =
    (objects.filter fun e => knows tools e.1.name).map fun e => (e.1.name, e.1.arguments)

/-! ### The object found -/

/-- With `depth` braces open, they are closed at the end of the text and not before; the braces in
strings count as all others. -/
def closes : Nat → Text → Bool
  | _, [] => false
  | depth, c :: rest =>
    if c = 0x7B then closes (depth + 1) rest
    else if c = 0x7D then if depth = 1 then rest.isEmpty else closes (depth - 1) rest
    else closes depth rest

def balanced : Text → Bool
  | [] => false
  | c :: rest => decide (c = 0x7B) && closes 1 rest

section Arguments

variable {unmarshal : Text → Option Object}

theorem findArgumentsFrom_closes {buffer body more : Text} {i depth first : Nat} {data : Object}
    (hdepth : 0 < depth) (h : closes depth body = true)
    (hdata : unmarshal ((buffer.take (i + body.length)).drop first) = some data) :
    findArgumentsFrom unmarshal buffer i depth (some first) (body ++ more) =
      some ((findObject data).getD (some data), i + body.length - 1) := by
  induction body generalizing i depth with
  | nil => cases h
  | cons c body ih =>
    rw [List.length_cons, ← Nat.add_assoc, Nat.add_right_comm] at hdata ⊢
    rw [closes] at h
    rw [List.cons_append, findArgumentsFrom]
    by_cases hopen : c = 0x7B
    · rw [if_pos hopen] at h ⊢
      rw [if_neg (by omega)]
      exact ih (by omega) h hdata
    · rw [if_neg hopen] at h ⊢
      by_cases hclose : c = 0x7D
      · rw [if_pos hclose] at h
        rw [if_pos ⟨hclose, hdepth⟩]
        by_cases hone : depth = 1
        · rw [if_pos hone, List.isEmpty_iff] at h
          subst h
          rw [List.length_nil, Nat.add_zero] at hdata ⊢
          rw [if_pos hone]
          dsimp only
          rw [hdata, Nat.add_sub_cancel]
        · rw [if_neg hone] at h ⊢
          exact ih (by omega) h hdata
      · rw [if_neg hclose] at h
        rw [if_neg fun hc => hclose hc.1]
        exact ih hdepth h hdata

/-- Outside of all objects, closing braces are passed over. -/
theorem findArgumentsFrom_outside {buffer pre rest : Text} {i : Nat} {start : Option Nat}
    (hpre : 0x7B ∉ pre) : findArgumentsFrom unmarshal buffer i 0 start (pre ++ rest) =
      findArgumentsFrom unmarshal buffer (i + pre.length) 0 start rest := by
  induction pre generalizing i with
  | nil => rfl
  | cons c pre ih =>
    rw [List.mem_cons, not_or] at hpre
    rw [List.cons_append, findArgumentsFrom, if_neg fun h => hpre.1 h.symm,
      if_neg fun h => Nat.lt_irrefl 0 h.2, ih hpre.2, List.length_cons, Nat.add_right_comm, Nat.add_assoc]

theorem findArguments_none {buffer : Text} (h : 0x7B ∉ buffer) :
    findArguments unmarshal buffer = none := by
  have outside : findArgumentsFrom unmarshal buffer 0 0 none (buffer ++ []) =
      findArgumentsFrom unmarshal buffer (0 + buffer.length) 0 none [] :=
    findArgumentsFrom_outside h
  rw [List.append_nil] at outside
  rw [findArguments, outside]
  rfl

/-- A text of an object with a name and with these arguments. -/
def Carries (unmarshal : Text → Option Object) (text : Text) (arguments : Object) : Prop :=
  ∃ obj, unmarshal text = some obj ∧ hasName obj = true ∧
    objectAt obj (ascii "arguments") = some arguments

theorem CallObject.Decodes.carries {o : CallObject} (decodes : o.Decodes unmarshal) :
    Carries unmarshal o.text o.arguments := by
  obtain ⟨obj, hobj, hname, hargs⟩ := decodes
  exact ⟨obj, hobj, by rw [hasName, hname]; rfl, by rw [objectAt, hargs]⟩

/-- The first object is the one whose arguments are found. -/
theorem findArguments_object {text : Text} {arguments : Object}
    (carries : Carries unmarshal text arguments) (hbalanced : balanced text = true) {pre : Text}
    (hpre : 0x7B ∉ pre) (more : Text) : findArguments unmarshal (pre ++ (text ++ more)) =
      some (some arguments, pre.length + text.length - 1) := by
  obtain ⟨obj, hobj, hname, hargs⟩ := carries
  have hfind : findObject obj = some (some arguments) := by
    rw [findObject, if_pos hname, namedArguments, hargs]
    rfl
  rw [findArguments, findArgumentsFrom_outside hpre, Nat.zero_add]
  generalize hbuffer : pre ++ (text ++ more) = buffer
  have hslice : (buffer.take (pre.length + text.length)).drop pre.length = text := by
    rw [← hbuffer, List.take_length_add_append, List.drop_left, List.take_left]
  cases text with
  | nil => cases hbalanced
  | cons c body =>
    rw [balanced, Bool.and_eq_true, decide_eq_true_eq] at hbalanced
    obtain ⟨rfl, hcloses⟩ := hbalanced
    rw [List.length_cons, ← Nat.add_assoc, Nat.add_right_comm] at hslice ⊢
    rw [List.cons_append, findArgumentsFrom, if_pos rfl, if_pos rfl,
      findArgumentsFrom_closes Nat.one_pos hcloses (hslice.symm ▸ hobj), hfind]
    rfl

end Arguments

/-! ### The name found -/

/-- The name stands at a place of the text; no tool's name stands before it, and no longer one
there. -/
structure FirstName (tools : List Tool) (text name : Text) (place : Nat) : Prop where
  known : ∃ t ∈ tools, t.name = name
  here : name <+: text.drop place
  first : ∀ t ∈ tools, ∀ k, t.name <+: text.drop k → place ≤ k
  longest : ∀ t ∈ tools, t.name <+: text.drop place → t.name.length ≤ name.length

section Names

variable {buf : Text}

/-- What the loop over the tools has found in those it has passed. -/
def Best (buf : Text) (passed : List Tool) : Option (Tool × Nat) → Prop
  | none => ∀ t ∈ passed, cut t.name buf = none
  | some (f, start) => f ∈ passed ∧ f.name <+: buf.drop start ∧
      ∀ t ∈ passed, ∀ before after, cut t.name buf = some (before, after) →
        start < before.length ∨ start = before.length ∧ t.name.length ≤ f.name.length

theorem Best.step {passed : List Tool} {found : Option (Tool × Nat)} (h : Best buf passed found)
    (t : Tool) : Best buf (passed ++ [t]) (findToolFrom buf found t) := by
  unfold findToolFrom
  cases hcut : cut t.name buf with
  | none =>
    cases found with
    | none =>
      intro u hu
      rcases List.mem_append.mp hu with hu | hu
      · exact h u hu
      · rw [List.mem_singleton.mp hu]
        exact hcut
    | some found =>
      obtain ⟨hmem, hhere, hbest⟩ := h
      refine ⟨by simp [hmem], hhere, fun u hu before after hu' => ?_⟩
      rcases List.mem_append.mp hu with hu | hu
      · exact hbest u hu before after hu'
      · obtain rfl := List.mem_singleton.mp hu
        rw [hcut] at hu'
        cases hu'
  | some parts =>
    obtain ⟨before, after⟩ := parts
    have here := cut_here hcut
    cases found with
    | none =>
      refine ⟨by simp, here, fun u hu before' after' hu' => ?_⟩
      rcases List.mem_append.mp hu with hu | hu
      · rw [h u hu] at hu'
        cases hu'
      · obtain rfl := List.mem_singleton.mp hu
        rw [hcut] at hu'
        cases hu'
        exact .inr ⟨rfl, Nat.le_refl _⟩
    | some found =>
      obtain ⟨f, start⟩ := found
      obtain ⟨hmem, hhere, hbest⟩ := h
      dsimp only
      rw [better]
      split
      · rename_i hworse
        refine ⟨by simp [hmem], hhere, fun u hu before' after' hu' => ?_⟩
        rcases List.mem_append.mp hu with hu | hu
        · exact hbest u hu before' after' hu'
        · obtain rfl := List.mem_singleton.mp hu
          rw [hcut] at hu'
          cases hu'
          omega
      · rename_i hbetter
        refine ⟨by simp, here, fun u hu before' after' hu' => ?_⟩
        rcases List.mem_append.mp hu with hu | hu
        · have := hbest u hu before' after' hu'
          omega
        · obtain rfl := List.mem_singleton.mp hu
          rw [hcut] at hu'
          cases hu'
          exact .inr ⟨rfl, Nat.le_refl _⟩

theorem Best.foldl {passed l : List Tool} {found : Option (Tool × Nat)}
    (h : Best buf passed found) : Best buf (passed ++ l) (l.foldl (findToolFrom buf) found) := by
  induction l generalizing passed found with
  | nil => rwa [List.append_nil]
  | cons t l ih =>
    have := ih (h.step t)
    rwa [List.append_assoc] at this

theorem findTool_first {tools : List Tool} {name : Text} {place : Nat} (hbuf : buf ≠ [])
    (hends : ¬endsInName tools buf) (h : FirstName tools buf name place) :
    ∃ t, findTool tools buf = some (t, place + name.length) ∧ t.name = name := by
  have start : Best buf [] none := fun _ ht => absurd ht List.not_mem_nil
  have best : Best buf tools (tools.foldl (findToolFrom buf) none) := start.foldl
  rw [findTool, if_neg (by simp [hbuf, hends])]
  obtain ⟨t, ht, rfl⟩ := h.known
  cases hfound : tools.foldl (findToolFrom buf) none with
  | none =>
    rw [hfound] at best
    exact absurd h.here (cut_eq_none (best t ht) place)
  | some found =>
    obtain ⟨f, start⟩ := found
    rw [hfound] at best
    obtain ⟨hmem, hhere, hbest⟩ := best
    obtain ⟨before, after, hcut, hle⟩ := cut_first h.here
    have hplace := h.first f hmem start hhere
    have hfirst := hbest t ht before after hcut
    have hstart : start = place := by omega
    subst hstart
    have hlen := h.longest f hmem hhere
    have hlen' : f.name.length = t.name.length := by omega
    have hname : f.name = t.name :=
      (List.prefix_of_prefix_length_le hhere h.here hlen'.le).eq_of_length hlen'
    exact ⟨f, by rw [← hname]; rfl, hname⟩

theorem firstName_of_cut (t : Tool) (before after : Text) (h : cut t.name buf = some (before, after)) :
    FirstName [t] buf t.name before.length where
  known := ⟨t, by simp, rfl⟩
  here := cut_here h
  first := by
    intro u hu k hk
    obtain rfl := List.mem_singleton.mp hu
    obtain ⟨before', after', hcut, hle⟩ := cut_first hk
    rw [h] at hcut
    cases hcut
    exact hle
  longest := by
    intro u hu _
    rw [List.mem_singleton.mp hu]

end Names

namespace Parser

section

variable {unmarshal : Text → Option Object} {p q : Parser}

/-! ### Streams that are read to their end -/

/-- The text that is handed back unparsed, when the parser stops, has no name of a tool in it, nor
has what comes after it. -/
def StaysOpen (unmarshal : Text → Option Object) : Parser → List Text → Prop
  | _, [] => True
  | p, s :: chunks =>
    if (p.add unmarshal s).2.2.state = .done then
      ∀ t ∈ p.tools, cut t.name ((p.add unmarshal s).2.1 ++ chunks.flatten) = none
    else StaysOpen unmarshal (p.add unmarshal s).2.2 chunks

theorem calls_calling {chunks : List Text} (hstate : p.state = .toolCalling)
    (hdrained : p.parseToolCall unmarshal = none)
    (hwhole : Whole p.tools (p.buffer ++ chunks.flatten)) (hopen : p.StaysOpen unmarshal chunks)
    {cs : List ToolCall} (h : Drains unmarshal (p.extend chunks.flatten) cs q) :
    (p.stream unmarshal chunks).1 = cs := by
  induction chunks generalizing p cs q with
  | nil =>
    have hsame : p.extend [] = p := by
      rw [extend, List.append_nil]
    rw [List.flatten_nil, hsame] at h
    exact ((h.unique (.stop hdrained)).1).symm
  | cons s chunks ih =>
    rw [List.flatten_cons] at h hwhole
    obtain ⟨cs₁, q₁, h₁⟩ := exists_drains unmarshal (p.extend s)
    obtain ⟨-, htools, -, hstate₁⟩ := h₁.kept
    obtain ⟨hwhole₁, cs₂, rfl, h₂⟩ := h.chunk h₁ hwhole
    rw [StaysOpen, add_calling hstate, call_eq h₁] at hopen
    rw [stream, add_calling hstate, call_eq h₁]
    cases hdone : q₁.done with
    | true =>
      -- nothing that comes is parsed any more, and there is nothing in it to be found
      rw [hdone] at hopen
      have hnone : Drains unmarshal (q₁.extend chunks.flatten) [] (q₁.extend chunks.flatten) :=
        drains_nameless fun t ht => hopen t (htools ▸ ht)
      rw [if_pos rfl]
      dsimp only
      rw [stream_done rfl, (h₂.unique hnone).1]
    | false =>
      rw [hdone, if_neg Bool.false_ne_true, if_neg] at hopen
      · rw [if_neg Bool.false_ne_true]
        dsimp only
        rw [ih (hstate₁.trans hstate) h₁.drained hwhole₁ hopen h₂]
      · dsimp only
        rw [hstate₁, extend, hstate]
        decide

/-- The calls behind the tag. -/
theorem calls_tag {chunks : List Text} {before after : Text} {cs : List ToolCall}
    (hstate : p.state = .lookingForTag) (hkept : cut p.tag p.buffer = none ∨ p.buffer = [])
    (hcut : cut p.tag (p.buffer ++ chunks.flatten) = some (before, after))
    (hwhole : Whole p.tools (p.tag ++ after)) (hopen : p.StaysOpen unmarshal chunks)
    (h : Drains unmarshal (p.calling.extend (p.tag ++ after)) cs q) :
    (p.stream unmarshal chunks).1 = cs := by
  -- a parser that stops before the tag has no name to come
  have stopped {rest : Text} (hrest : p.tag ++ after <:+ rest)
      (hnames : ∀ t ∈ p.tools, cut t.name rest = none) : cs = [] :=
    (h.unique (drains_nameless fun t ht => cut_suffix_none hrest (hnames t ht))).1
  induction chunks generalizing p before after with
  | nil =>
    rw [List.flatten_nil, List.append_nil] at hcut
    rw [(cut_nothing hkept hcut).2] at h
    exact ((h.unique (drains_empty rfl)).1).symm
  | cons s chunks ih =>
    rw [List.flatten_cons, ← List.append_assoc] at hcut
    rw [StaysOpen] at hopen
    cases hcut₁ : cut p.tag (p.buffer ++ s) with
    | some parts =>
      obtain ⟨b, a⟩ := parts
      rw [cut_append hcut₁] at hcut
      obtain ⟨rfl, rfl⟩ := Prod.mk.injEq .. ▸ Option.some.inj hcut
      by_cases hblank : p.Bracketed → trimSpace b = []
      · have hcalling : p.calling.add unmarshal (p.tag ++ a) =
            (p.calling.extend (p.tag ++ a)).call unmarshal [] := add_calling rfl _
        obtain ⟨cs₁, q₁, h₁⟩ := exists_drains unmarshal (p.calling.extend (p.tag ++ a))
        rw [call_eq h₁] at hcalling
        have hfound : p.add unmarshal s = if q₁.done then
            (cs₁, q₁.buffer, { q₁ with state := .done, buffer := [] }) else (cs₁, b, q₁) :=
          (add_found hstate hcut₁ hblank).trans (call_eq h₁ b)
        have hflat : ((p.tag ++ a) :: chunks).flatten = p.tag ++ (a ++ chunks.flatten) := by
          rw [List.flatten_cons, List.append_assoc]
        have hcalls (hopen' : p.calling.StaysOpen unmarshal ((p.tag ++ a) :: chunks)) :
            (p.calling.stream unmarshal ((p.tag ++ a) :: chunks)).1 = cs := by
          refine calls_calling (q := q) rfl (drains_empty rfl).drained ?_ hopen' ?_
          · rwa [hflat]
          · rwa [hflat]
        rw [stream, StaysOpen, hcalling] at hcalls
        rw [hfound] at hopen
        rw [stream, hfound]
        cases hdone : q₁.done with
        | true =>
          rw [hdone] at hcalls hopen
          exact hcalls hopen
        | false =>
          have hstate₁ : ¬q₁.state = .done := by
            rw [h₁.kept.2.2.2]
            exact ToolsState.noConfusion
          rw [hdone, if_neg Bool.false_ne_true, if_neg hstate₁] at hcalls hopen
          exact hcalls hopen
      · rw [Classical.not_imp] at hblank
        rw [add_behind hstate hcut₁ hblank, if_pos rfl] at hopen
        rw [stream, add_behind hstate hcut₁ hblank]
        dsimp only at hopen ⊢
        rw [stream_done rfl]
        refine (stopped ⟨b, ?_⟩ hopen).symm
        simp only [List.append_assoc]
    | none =>
      generalize he : (p.buffer ++ s).take ((p.buffer ++ s).length - overlap (p.buffer ++ s) p.tag) = e
      generalize ha : (p.buffer ++ s).drop ((p.buffer ++ s).length - overlap (p.buffer ++ s) p.tag) = a
      obtain ⟨hsplit, -, hnone, -⟩ := clear_kept hcut₁ he ha
      obtain ⟨before', rfl, hcut'⟩ := cut_kept hcut₁ he ha hcut
      rw [add_missing hstate hcut₁ he ha] at hopen
      rw [stream, add_missing hstate hcut₁ he ha]
      by_cases hno : p.Bracketed ∧ trimSpace e ≠ []
      · rw [if_pos hno] at hopen ⊢
        dsimp only at hopen ⊢
        rw [stream_done rfl]
        refine (stopped ⟨e ++ before', ?_⟩ hopen).symm
        rw [List.append_assoc e a, cut_eq hcut']
        simp only [List.append_assoc]
      · rw [if_neg hno] at hopen ⊢
        dsimp only at hopen ⊢
        rw [if_neg (by simp [hstate])] at hopen
        exact ih (p := { p with buffer := a }) hstate (.inl hnone) hcut' hwhole hopen h stopped

end

end Parser

/-! ### Objects that are called by their names -/

/-- From each object on, the first name of a tool is the object's own, and its braces balance at its
end; behind the last object there is nothing to call. -/
def Matched (tools : List Tool) (tail : Text) : Text → List (CallObject × Text) → Prop
  | pre, [] => 0x7B ∉ tail ∨ ∀ t ∈ tools, cut t.name (pre ++ tail) = none
  | pre, (o, gap) :: rest =>
    balanced o.text = true ∧
      ∃ place, FirstName tools (pre ++ (written ((o, gap) :: rest) ++ tail)) o.name place ∧
        place + o.name.length ≤ (pre ++ (o.text ++ gap)).length ∧
        Matched tools tail ((pre ++ (o.text ++ gap)).drop
          (max (pre.length + o.text.length - 1) (place + o.name.length))) rest

theorem closes_last {depth : Nat} {body : Text} (h : closes depth body = true) :
    ∃ front, body = front ++ [0x7D] := by
  induction body generalizing depth with
  | nil => cases h
  | cons c body ih =>
    rw [closes] at h
    have further {d : Nat} (h : closes d body = true) : ∃ front, c :: body = front ++ [0x7D] := by
      obtain ⟨front, hfront⟩ := ih h
      exact ⟨c :: front, by rw [hfront]; rfl⟩
    split at h
    · exact further h
    · split at h
      · rename_i hclose
        split at h
        · rw [List.isEmpty_iff] at h
          exact ⟨[], by rw [hclose, h]; rfl⟩
        · exact further h
      · exact further h

theorem balanced_last {text : Text} (h : balanced text = true) : ∃ front, text = front ++ [0x7D] := by
  cases text with
  | nil => cases h
  | cons c body =>
    rw [balanced, Bool.and_eq_true] at h
    obtain ⟨front, hfront⟩ := closes_last h.2
    exact ⟨c :: front, by rw [hfront]; rfl⟩

/-- What is left of an object and what follows it opens no brace. -/
theorem closed_rest {text pre gap : Text} (h : balanced text = true) (hgap : 0x7B ∉ gap) {n : Nat}
    (hn : pre.length + text.length - 1 ≤ n) : 0x7B ∉ (pre ++ (text ++ gap)).drop n := by
  obtain ⟨front, rfl⟩ := balanced_last h
  rw [List.length_append, List.length_singleton] at hn
  have hsplit : pre ++ (front ++ [0x7D] ++ gap) = (pre ++ front) ++ 0x7D :: gap := by simp
  intro hmem
  rw [hsplit, List.drop_append, List.drop_of_length_le (by rw [List.length_append]; omega),
    List.nil_append] at hmem
  rcases List.mem_cons.mp (List.mem_of_mem_drop hmem) with hmem | hmem
  · exact absurd hmem (by decide)
  · exact hgap hmem

namespace Parser

section

variable {unmarshal : Text → Option Object} {p q : Parser}

/-- A call takes the first name there is and the arguments of the first object. -/
theorem parseToolCall_object {o : CallObject} (decodes : o.Decodes unmarshal)
    (hbalanced : balanced o.text = true) {pre more : Text} (hpre : 0x7B ∉ pre)
    (hbuffer : p.buffer = pre ++ (o.text ++ more)) (hends : ¬endsInName p.tools p.buffer)
    {name : Text} {place : Nat} (hname : FirstName p.tools p.buffer name place) :
    p.parseToolCall unmarshal = some (⟨name, o.arguments, p.n⟩, { p with
      n := p.n + 1
      buffer := p.buffer.drop (max (pre.length + o.text.length - 1) (place + name.length)) }) := by
  have hne : p.buffer ≠ [] := by
    obtain ⟨front, hfront⟩ := balanced_last hbalanced
    rw [hbuffer, hfront]
    simp
  obtain ⟨t, ht, rfl⟩ := findTool_first hne hends hname
  refine parseToolCall_eq_some.mpr ⟨t, _, o.arguments, _, ht, ?_, rfl, rfl⟩
  rw [hbuffer]
  exact findArguments_object decodes.carries hbalanced hpre more

theorem drains_matched {tail pre : Text} {objects : List (CallObject × Text)}
    (decodes : ∀ e ∈ objects, e.1.Decodes unmarshal) (gaps : ∀ e ∈ objects, 0x7B ∉ e.2)
    (hpre : 0x7B ∉ pre) (matched : Matched p.tools tail pre objects)
    (hbuffer : p.buffer = pre ++ (written objects ++ tail)) (hwhole : Whole p.tools p.buffer) :
    ∃ cs q, Drains unmarshal p cs q ∧
      cs.map (fun c => (c.name, c.arguments)) = objects.map fun e => (e.1.name, e.1.arguments) := by
  induction objects generalizing p pre with
  | nil =>
    refine ⟨[], p, .stop ?_, rfl⟩
    rcases matched with hopen | hnames
    · have hbrace : 0x7B ∉ p.buffer := by
        rw [hbuffer]
        simpa [written] using ⟨hpre, hopen⟩
      rw [parseToolCall, findArguments_none hbrace]
      split <;> rfl
    · rw [parseToolCall, findTool_none]
      rw [hbuffer]
      exact hnames
  | cons e rest ih =>
    obtain ⟨o, gap⟩ := e
    obtain ⟨hbalanced, place, hname, hle, hrest⟩ := matched
    rw [← hbuffer] at hname
    have hwritten : written ((o, gap) :: rest) = o.text ++ (gap ++ written rest) := by
      simp [written]
    have hends : ¬endsInName p.tools p.buffer := by
      intro hends
      obtain ⟨t, ht, heq⟩ := hname.known
      exact cut_eq_none (hwhole hends t ht) place (heq ▸ hname.here)
    have hobject : p.buffer = pre ++ (o.text ++ (gap ++ written rest ++ tail)) := by
      rw [hbuffer, hwritten, List.append_assoc]
    have hcall := parseToolCall_object (decodes (o, gap) (by simp)) hbalanced hpre hobject hends hname
    generalize hn : max (pre.length + o.text.length - 1) (place + o.name.length) = n at hcall hrest
    have hfits : n ≤ (pre ++ (o.text ++ gap)).length := by
      simp only [List.length_append] at hle ⊢
      omega
    have hleft : p.buffer.drop n = (pre ++ (o.text ++ gap)).drop n ++ (written rest ++ tail) := by
      rw [← List.drop_append_of_le_length hfits, hbuffer, hwritten]
      simp only [List.append_assoc]
    obtain ⟨cs, q, hdrains, hpairs⟩ := ih (p := { p with n := p.n + 1, buffer := p.buffer.drop n })
      (fun e he => decodes e (by simp [he])) (fun e he => gaps e (by simp [he]))
      (closed_rest hbalanced (gaps (o, gap) (by simp)) (by omega)) hrest hleft
      (hwhole.suffix (List.drop_suffix ..))
    refine ⟨_, q, .call hcall hdrains, ?_⟩
    rw [List.map_cons, List.map_cons, hpairs]

/-- The calls of a stream are found: the text from the tag on does not end within a name, the parser
does not stop before the last name, and the objects from the tag on, up to some that name no known
tool, match. -/
def Matching (unmarshal : Text → Option Object) (p : Parser) (chunks : List Text)
    (objects : List (CallObject × Text)) : Prop :=
  match cut p.tag chunks.flatten with
  | none => ∀ e ∈ objects, knows p.tools e.1.name = false
  | some (_, after) =>
    Whole p.tools (p.tag ++ after) ∧ p.StaysOpen unmarshal chunks ∧
      ∃ skipped called late pre, objects = skipped ++ (called ++ late) ∧
        (∀ e ∈ skipped, knows p.tools e.1.name = false) ∧
        (∀ e ∈ late, knows p.tools e.1.name = false) ∧
        p.tag ++ after = pre ++ (written called ++ written late) ∧ 0x7B ∉ pre ∧
        Matched p.tools (written late) pre called

end

end Parser

theorem Matched.known {tools : List Tool} {tail pre : Text} {objects : List (CallObject × Text)}
    (matched : Matched tools tail pre objects) : ∀ e ∈ objects, knows tools e.1.name = true := by
  induction objects generalizing pre with
  | nil => simp
  | cons e rest ih =>
    obtain ⟨-, place, hname, -, hrest⟩ := matched
    refine List.forall_mem_cons.mpr ⟨?_, ih hrest⟩
    obtain ⟨t, ht, heq⟩ := hname.known
    exact List.any_eq_true.mpr ⟨t, ht, by simpa using heq⟩

/-- A text of objects that stand for calls, with plain text before them and between them. -/
structure CallStream (unmarshal : Text → Option Object) (tools : List Tool) (text lead : Text)
    (objects : List (CallObject × Text)) : Prop where
  text : text = lead ++ written objects
  decodes : ∀ e ∈ objects, e.1.Decodes unmarshal
  lead : Plain tools lead
  gaps : ∀ e ∈ objects, Plain tools e.2

namespace Parser

def fooObject : CallObject where
  text := ascii "\x7b\"name\":\"foo\",\"arguments\":\x7b\"a\":1\x7d\x7d"
  name := ascii "foo"
  arguments := [(ascii "a", .number (ascii "1"))]

def getObject : CallObject where
  text := ascii "\x7b\"name\":\"get\",\"arguments\":\x7b\"b\":2\x7d\x7d"
  name := ascii "get"
  arguments := [(ascii "b", .number (ascii "2"))]

def decodeTwo (s : Text) : Option Object :=
  ([fooObject, getObject].find? fun o => decide (o.text = s)).map fun o =>
    [(ascii "name", .string o.name), (ascii "arguments", .object o.arguments)]

theorem decodeTwo_decodes : fooObject.Decodes decodeTwo ∧ getObject.Decodes decodeTwo :=
  ⟨⟨_, rfl, rfl, rfl⟩, ⟨_, rfl, rfl, rfl⟩⟩

def getFirst : List (CallObject × Text) := [(getObject, ascii "\n"), (fooObject, ascii "</t>")]

def getFirstChunks : List Text :=
  [ascii "<t>\x7b\"name\":\"ge", ascii "t\",\"arguments\":\x7b\"b\":2\x7d\x7d\n" ++
    written [(fooObject, ascii "</t>")]]

/-- The call of a tool that is not known, and then one of a tool that is. -/
def getSecond : List (CallObject × Text) := [(fooObject, ascii " "), (getObject, [])]

end Parser

end Ecco9.Tools
