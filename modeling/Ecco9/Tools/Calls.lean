import Ecco9.Tools.Parser

/-! A tool call that is found in a buffer is found in every longer one, unless that ends within the
name of a tool. -/

namespace Ecco9.Tools

open Ecco9.Library

/-! ### Names -/

theorem endsInName_suffix {tools : List Tool} {s t : Text} (hst : s <:+ t)
    (h : endsInName tools s) : endsInName tools t := by
  obtain ⟨l, rfl⟩ := hst
  obtain ⟨i, hi, tool, htool, hlen, hfront⟩ := h
  refine ⟨l.length + i, by simpa using hi, tool, htool, ?_⟩
  rw [List.drop_append, List.drop_of_length_le (by omega), List.nil_append,
    Nat.add_sub_cancel_left]
  exact ⟨hlen, hfront⟩

theorem cut_length_lt {sep s before after : Text} (hs : s ≠ [])
    (h : cut sep s = some (before, after)) : before.length < s.length := by
  have hpos := List.length_pos_iff.mpr hs
  cases sep with
  | nil =>
    rw [cut_front List.nil_prefix] at h
    cases h
    exact hpos
  | cons a sep =>
    rw [cut_eq h]
    simp only [List.length_append, List.length_cons]
    omega

/-- What is found in a longer buffer only is found behind the shorter one. -/
theorem cut_behind {tools : List Tool} {t : Tool} (ht : t ∈ tools) {s e before after : Text}
    (hends : ¬endsInName tools s) (hnone : cut t.name s = none)
    (h : cut t.name (s ++ e) = some (before, after)) : s.length ≤ before.length := by
  by_contra hlt
  rw [Nat.not_le] at hlt
  have heq := cut_eq h
  have hdrop : s.drop before.length ++ e = t.name ++ after := by
    have := congrArg (List.drop before.length) heq
    rwa [List.drop_append_of_le_length hlt.le, List.append_assoc, List.drop_left] at this
  have hname : t.name <+: s.drop before.length ++ e := ⟨after, hdrop.symm⟩
  have htail : s.drop before.length <+: s.drop before.length ++ e := List.prefix_append ..
  rcases List.prefix_or_prefix_of_prefix hname htail with hle | hle
  · exact cut_eq_none hnone _ hle
  · rcases Nat.lt_or_ge (s.drop before.length).length t.name.length with hlen | hlen
    · exact hends ⟨before.length, hlt, t, ht, hlen, hle⟩
    · exact cut_eq_none hnone before.length (hle.eq_of_length (Nat.le_antisymm hle.length_le hlen) ▸
        List.prefix_refl _)

/-- The tools found so far in a buffer and in a longer one. -/
def SameFound (s : Text) (f g : Option (Tool × Nat)) : Prop :=
  (∀ t start, f = some (t, start) → start < s.length) ∧
    (f = g ∨ f = none ∧ ∃ t pos, g = some (t, pos) ∧ s.length ≤ pos)

theorem SameFound.step {tools : List Tool} {s e : Text} (hs : s ≠ [])
    (hends : ¬endsInName tools s) {f g : Option (Tool × Nat)} (h : SameFound s f g) {t : Tool}
    (ht : t ∈ tools) : SameFound s (findToolFrom s f t) (findToolFrom (s ++ e) g t) := by
  obtain ⟨hlt, hfg⟩ := h
  unfold findToolFrom
  cases hcut : cut t.name s with
  | some parts =>
    obtain ⟨before, after⟩ := parts
    have hpos := cut_length_lt hs hcut
    rw [cut_append hcut]
    dsimp only
    have hnew : ∀ u start, better f t before.length = some (u, start) → start < s.length := by
      intro u start hu
      unfold better at hu
      split at hu
      · cases hu
        exact hpos
      · split_ifs at hu
        · cases hu
          exact hlt _ _ rfl
        · cases hu
          exact hpos
    refine ⟨hnew, .inl ?_⟩
    rcases hfg with rfl | ⟨rfl, u, pos, rfl, hle⟩
    · rfl
    · rw [better, better, if_neg (by omega)]
  | none =>
    cases hcut' : cut t.name (s ++ e) with
    | none => exact ⟨hlt, hfg⟩
    | some parts =>
      obtain ⟨before, after⟩ := parts
      have hbehind := cut_behind ht hends hcut hcut'
      dsimp only
      refine ⟨hlt, ?_⟩
      rcases hfg with rfl | ⟨rfl, u, pos, rfl, hle⟩
      · cases f with
        | none => exact .inr ⟨rfl, t, before.length, rfl, hbehind⟩
        | some found =>
          obtain ⟨u, start⟩ := found
          have := hlt u start rfl
          rw [better, if_pos (.inl (by omega))]
          exact .inl rfl
      · refine .inr ⟨rfl, ?_⟩
        rw [better]
        split_ifs
        · exact ⟨u, pos, rfl, hle⟩
        · exact ⟨t, before.length, rfl, hbehind⟩

theorem findTool_extend {tools : List Tool} {s e : Text} {tool : Tool} {last : Nat}
    (h : findTool tools s = some (tool, last)) (hends : ¬endsInName tools (s ++ e)) :
    findTool tools (s ++ e) = some (tool, last) := by
  unfold findTool at h ⊢
  split_ifs at h with hempty
  rw [not_or] at hempty
  rw [if_neg (by simp [hempty.1, hends])]
  obtain ⟨⟨t, start⟩, hfound, hlast⟩ := Option.map_eq_some_iff.mp h
  have hsame (l : List Tool) (f g : Option (Tool × Nat)) (hl : ∀ t ∈ l, t ∈ tools)
      (hfg : SameFound s f g) :
      SameFound s (l.foldl (findToolFrom s) f) (l.foldl (findToolFrom (s ++ e)) g) := by
    induction l generalizing f g with
    | nil => exact hfg
    | cons t l ih =>
      exact ih _ _ (fun u hu => hl u (by simp [hu])) (hfg.step hempty.1 hempty.2 (hl t (by simp)))
  obtain ⟨-, heq⟩ := hsame tools none none (fun _ ht => ht) ⟨nofun, .inl rfl⟩
  rw [hfound] at heq
  rw [← heq.resolve_right (by simp)]
  exact Option.map_eq_some_iff.mpr ⟨(t, start), rfl, hlast⟩

theorem findTool_le {tools : List Tool} {s : Text} {tool : Tool} {last : Nat}
    (h : findTool tools s = some (tool, last)) : last ≤ s.length := by
  unfold findTool at h
  split_ifs at h
  obtain ⟨⟨t, start⟩, hfound, hlast⟩ := Option.map_eq_some_iff.mp h
  have hall (l : List Tool) (f : Option (Tool × Nat))
      (hf : ∀ t start, f = some (t, start) → start + t.name.length ≤ s.length) :
      ∀ t start, l.foldl (findToolFrom s) f = some (t, start) →
        start + t.name.length ≤ s.length := by
    induction l generalizing f with
    | nil => exact hf
    | cons u l ih =>
      refine ih _ ?_
      intro t start ht
      unfold findToolFrom at ht
      split at ht
      · exact hf t start ht
      · rename_i before after hcut
        have hle : before.length + u.name.length ≤ s.length := by
          rw [cut_eq hcut]
          simp
        unfold better at ht
        split at ht
        · cases ht
          exact hle
        · split_ifs at ht
          · cases ht
            exact hf _ _ rfl
          · cases ht
            exact hle
  have := hall tools none nofun t start hfound
  cases hlast
  exact this

theorem findTool_none {tools : List Tool} {s : Text} (h : ∀ t ∈ tools, cut t.name s = none) :
    findTool tools s = none := by
  have hfold (l : List Tool) (hl : ∀ t ∈ l, cut t.name s = none) :
      l.foldl (findToolFrom s) none = none := by
    induction l with
    | nil => rfl
    | cons t l ih =>
      rw [List.foldl_cons, findToolFrom, hl t (by simp)]
      exact ih fun u hu => hl u (by simp [hu])
  rw [findTool, hfold tools h]
  simp

/-- The buffer does not end with a part of a name, unless there is no name in it anyway. -/
def Whole (tools : List Tool) (buf : Text) : Prop :=
  endsInName tools buf → ∀ t ∈ tools, cut t.name buf = none

instance (tools : List Tool) (buf : Text) : Decidable (Whole tools buf) :=
  inferInstanceAs (Decidable (_ → ∀ t ∈ _, _))

theorem Whole.suffix {tools : List Tool} {s t : Text} (h : Whole tools t) (hst : s <:+ t) :
    Whole tools s :=
  fun hends u hu => cut_suffix_none hst (h (endsInName_suffix hst hends) u hu)

theorem Whole.not_endsInName {tools : List Tool} {s e : Text} (h : Whole tools (s ++ e))
    {found : Tool × Nat} (hfound : findTool tools s = some found) :
    ¬endsInName tools (s ++ e) := by
  intro hends
  rw [findTool_none fun t ht => cut_front_none (h hends t ht)] at hfound
  cases hfound

/-! ### Arguments -/

section
variable {unmarshal : Text → Option Object}

theorem findArgumentsFrom_bounds {buffer rest : Text} {i braces k : Nat} {start : Option Nat}
    {args : Option Object}
    (h : findArgumentsFrom unmarshal buffer i braces start rest = some (args, k)) :
    i ≤ k ∧ k < i + rest.length ∧ (braces = 0 → i < k) := by
  induction rest generalizing i braces start with
  | nil => cases h
  | cons c rest ih =>
    rw [findArgumentsFrom] at h
    rw [List.length_cons]
    by_cases hopen : c = 0x7B
    · rw [if_pos hopen] at h
      have := ih h
      omega
    · rw [if_neg hopen] at h
      by_cases hclose : c = 0x7D ∧ 0 < braces
      · rw [if_pos hclose] at h
        split at h
        · have := ih h
          omega
        · split at h
          · have := ih h
            omega
          · obtain ⟨-, rfl⟩ := Prod.mk.injEq .. ▸ Option.some.inj h
            omega
      · rw [if_neg hclose] at h
        have := ih h
        omega

theorem findArgumentsFrom_extend {buffer rest e : Text} {i braces : Nat} {start : Option Nat}
    {found : Option Object × Nat} (hlen : buffer.length = i + rest.length)
    (h : findArgumentsFrom unmarshal buffer i braces start rest = some found) :
    findArgumentsFrom unmarshal (buffer ++ e) i braces start (rest ++ e) = some found := by
  induction rest generalizing i braces start with
  | nil => cases h
  | cons c rest ih =>
    rw [List.length_cons] at hlen
    have htake : (buffer ++ e).take (i + 1) = buffer.take (i + 1) :=
      List.take_append_of_le_length (by omega)
    rw [findArgumentsFrom] at h
    rw [List.cons_append, findArgumentsFrom, htake]
    have hlen' : buffer.length = i + 1 + rest.length := by omega
    by_cases hopen : c = 0x7B
    · rw [if_pos hopen] at h ⊢
      exact ih hlen' h
    · rw [if_neg hopen] at h ⊢
      by_cases hclose : c = 0x7D ∧ 0 < braces
      · rw [if_pos hclose] at h ⊢
        split at h
        · exact ih hlen' h
        · split at h
          · exact ih hlen' h
          · exact h
      · rw [if_neg hclose] at h ⊢
        exact ih hlen' h

end

/-! ### Calls -/

namespace Parser

section
variable {unmarshal : Text → Option Object}

def extend (p : Parser) (e : Text) : Parser := { p with buffer := p.buffer ++ e }

theorem parseToolCall_eq_some {p p' : Parser} {c : ToolCall} :
    p.parseToolCall unmarshal = some (c, p') ↔
      ∃ tool last args i, findTool p.tools p.buffer = some (tool, last) ∧
        findArguments unmarshal p.buffer = some (some args, i) ∧ c = ⟨tool.name, args, p.n⟩ ∧
        p' = { p with n := p.n + 1, buffer := p.buffer.drop (max i last) } := by
  unfold parseToolCall
  constructor
  · intro h
    split at h
    · cases h
    · rename_i tool last htool
      split at h
      · rename_i args i hargs
        cases h
        exact ⟨tool, last, args, i, htool, hargs, rfl, rfl⟩
      · cases h
  · rintro ⟨tool, last, args, i, htool, hargs, rfl, rfl⟩
    rw [htool, hargs]

/-- A tool call takes something off the buffer. -/
theorem parseToolCall_length {p p' : Parser} {c : ToolCall}
    (h : p.parseToolCall unmarshal = some (c, p')) :
    ∃ k, 0 < k ∧ k ≤ p.buffer.length ∧ p'.buffer = p.buffer.drop k ∧ p'.tools = p.tools ∧
      p'.tag = p.tag ∧ p'.state = p.state := by
  obtain ⟨tool, last, args, i, htool, hargs, -, rfl⟩ := parseToolCall_eq_some.mp h
  have hlast := findTool_le htool
  have hbounds := findArgumentsFrom_bounds hargs
  exact ⟨max i last, by omega, by omega, rfl, rfl, rfl, rfl⟩

theorem parseToolCall_extend {p p' : Parser} {c : ToolCall} {e : Text}
    (h : p.parseToolCall unmarshal = some (c, p')) (hwhole : Whole p.tools (p.buffer ++ e)) :
    (p.extend e).parseToolCall unmarshal = some (c, p'.extend e) := by
  obtain ⟨tool, last, args, i, htool, hargs, rfl, rfl⟩ := parseToolCall_eq_some.mp h
  have hlast := findTool_le htool
  have hbounds := findArgumentsFrom_bounds hargs
  refine parseToolCall_eq_some.mpr ⟨tool, last, args, i,
    findTool_extend htool (hwhole.not_endsInName htool), findArgumentsFrom_extend (by simp) hargs, rfl, ?_⟩
  rw [extend, extend]
  dsimp only
  rw [List.drop_append_of_le_length (by omega)]

/-- All tool calls of a buffer, and what is left of it. -/
inductive Drains (unmarshal : Text → Option Object) : Parser → List ToolCall → Parser → Prop
  | stop {p} : p.parseToolCall unmarshal = none → Drains unmarshal p [] p
  | call {p p' q c cs} : p.parseToolCall unmarshal = some (c, p') →
      Drains unmarshal p' cs q → Drains unmarshal p (c :: cs) q

theorem Drains.unique {p q q' : Parser} {cs cs' : List ToolCall} (h : Drains unmarshal p cs q)
    (h' : Drains unmarshal p cs' q') : cs = cs' ∧ q = q' := by
  induction h generalizing cs' q' with
  | stop hnone =>
    cases h' with
    | stop => exact ⟨rfl, rfl⟩
    | call hsome =>
      rw [hnone] at hsome
      cases hsome
  | call hsome _ ih =>
    cases h' with
    | stop hnone =>
      rw [hnone] at hsome
      cases hsome
    | call hsome' hrest =>
      rw [hsome] at hsome'
      cases hsome'
      obtain ⟨rfl, rfl⟩ := ih hrest
      exact ⟨rfl, rfl⟩

/-- As many turns as there are bytes are enough. -/
theorem drains_parseToolCalls {n : Nat} {p : Parser} (h : p.buffer.length ≤ n) :
    Drains unmarshal p (p.parseToolCalls unmarshal n).1 (p.parseToolCalls unmarshal n).2 := by
  induction n generalizing p with
  | zero =>
    have hempty : p.buffer = [] := List.length_eq_zero_iff.mp (by omega)
    refine .stop ?_
    rw [parseToolCall, findTool, if_pos (.inl hempty)]
  | succ n ih =>
    rw [parseToolCalls]
    cases hcall : p.parseToolCall unmarshal with
    | none => exact .stop hcall
    | some found =>
      obtain ⟨c, p'⟩ := found
      obtain ⟨k, hk, hle, hbuffer, -⟩ := parseToolCall_length hcall
      refine .call hcall (ih ?_)
      rw [hbuffer, List.length_drop]
      omega

theorem Drains.kept {p q : Parser} {cs : List ToolCall} (h : Drains unmarshal p cs q) :
    q.buffer <:+ p.buffer ∧ q.tools = p.tools ∧ q.tag = p.tag ∧ q.state = p.state := by
  induction h with
  | stop => exact ⟨List.suffix_refl _, rfl, rfl, rfl⟩
  | call hcall _ ih =>
    obtain ⟨k, -, -, hbuffer, htools, htag, hstate⟩ := parseToolCall_length hcall
    obtain ⟨hq, hq', hq'', hq'''⟩ := ih
    refine ⟨hq.trans ?_, hq'.trans htools, hq''.trans htag, hq'''.trans hstate⟩
    rw [hbuffer]
    exact List.drop_suffix ..

theorem Drains.drained {p q : Parser} {cs : List ToolCall} (h : Drains unmarshal p cs q) :
    q.parseToolCall unmarshal = none := by
  induction h with
  | stop hnone => exact hnone
  | call _ _ ih => exact ih

/-- Text that comes later adds to the calls. -/
theorem Drains.extend {p q q' : Parser} {cs cs' : List ToolCall} {e : Text}
    (h : Drains unmarshal p cs q) (hwhole : Whole p.tools (p.buffer ++ e))
    (h' : Drains unmarshal (q.extend e) cs' q') :
    Drains unmarshal (p.extend e) (cs ++ cs') q' := by
  induction h with
  | stop => exact h'
  | call hcall _ ih =>
    refine .call (parseToolCall_extend hcall hwhole) (ih ?_ h')
    obtain ⟨k, -, hk, hbuffer, htools, -⟩ := parseToolCall_length hcall
    rw [htools, hbuffer, ← List.drop_append_of_le_length hk]
    exact hwhole.suffix (List.drop_suffix ..)

end

end Parser

end Ecco9.Tools
