import Ecco9.Tools.Pairing
import Ecco9.Library.JsonText

/-! Which objects are recognised: `findArguments` counts the braces in strings with the others. -/

namespace Ecco9.Tools

open Ecco9.Library

section

variable {unmarshal : Text → Option Object}

/-! ### What is found -/

/-- Inside of braces that stay open nothing is found. -/
theorem findArgumentsFrom_open {buffer body more : Text} {i depth : Nat} {start : Option Nat}
    (hdepth : 0 < depth) (h : closes depth (body ++ more) = true) (hmore : more ≠ []) :
    findArgumentsFrom unmarshal buffer i depth start body = none := by
  induction body generalizing i depth start with
  | nil => rfl
  | cons c body ih =>
    rw [List.cons_append, closes] at h
    rw [findArgumentsFrom]
    by_cases hopen : c = 0x7B
    · rw [if_pos hopen] at h ⊢
      exact ih (Nat.succ_pos depth) h
    · rw [if_neg hopen] at h ⊢
      by_cases hclose : c = 0x7D
      · rw [if_pos hclose] at h
        rw [if_pos ⟨hclose, hdepth⟩]
        by_cases hone : depth = 1
        · rw [if_pos hone, List.isEmpty_iff] at h
          exact absurd (List.append_eq_nil_iff.mp h).2 hmore
        · rw [if_neg hone] at h ⊢
          exact ih (by omega) h
      · rw [if_neg hclose] at h
        rw [if_neg fun hc => hclose hc.1]
        exact ih hdepth h

/-- A text whose braces close at its end and that decodes, and where it ends. -/
structure Found (unmarshal : Text → Option Object) (buffer : Text) (result : Option Object × Nat)
    (front text : Text) : Prop where
  here : front ++ text <+: buffer
  balanced : balanced text = true
  decodes : ∃ data, unmarshal text = some data ∧ result.1 = (findObject data).getD (some data)
  last : result.2 + 1 = (front ++ text).length

/-- What the scan knows of the braces that are open. -/
def Opened (pre : Text) (braces : Nat) (start : Option Nat) : Prop :=
  0 < braces → ∃ front body, pre = front ++ 0x7B :: body ∧ start = some front.length ∧
    ∀ rest, closes 1 (body ++ rest) = closes braces rest

theorem findArgumentsFrom_found {buffer rest : Text} (pre : Text) {braces : Nat} {start : Option Nat}
    {result : Option Object × Nat} (hbuffer : buffer = pre ++ rest) (hopened : Opened pre braces start)
    (h : findArgumentsFrom unmarshal buffer pre.length braces start rest = some result) :
    ∃ front text, Found unmarshal buffer result front text := by
  induction rest generalizing pre braces start with
  | nil => cases h
  | cons c rest ih =>
    have hnext : buffer = (pre ++ [c]) ++ rest := by rw [hbuffer, List.append_assoc]; rfl
    have hlen : pre.length + 1 = (pre ++ [c]).length := by rw [List.length_append]; rfl
    rw [findArgumentsFrom, hlen] at h
    by_cases hopen : c = 0x7B
    · rw [if_pos hopen] at h
      refine ih _ hnext (fun _ => ?_) h
      by_cases hzero : braces = 0
      · rw [if_pos hzero, hzero, hopen]
        exact ⟨pre, [], rfl, rfl, fun rest => rfl⟩
      · rw [if_neg hzero]
        obtain ⟨front, body, rfl, hstart, hcloses⟩ := hopened (by omega)
        refine ⟨front, body ++ [c], by simp, hstart, fun rest => ?_⟩
        rw [List.append_assoc, hcloses, List.singleton_append, closes, if_pos hopen]
    · rw [if_neg hopen] at h
      by_cases hclose : c = 0x7D ∧ 0 < braces
      · rw [if_pos hclose] at h
        obtain ⟨front, body, rfl, rfl, hcloses⟩ := hopened hclose.2
        by_cases hone : braces = 1
        · rw [if_pos hone] at h
          dsimp only at h
          have hslice : (buffer.take (front ++ 0x7B :: body ++ [c]).length).drop front.length =
              0x7B :: (body ++ [c]) := by
            rw [hnext, List.take_left, List.append_assoc, List.drop_left]
            rfl
          rw [hslice] at h
          cases hdata : unmarshal (0x7B :: (body ++ [c])) with
          | none =>
            rw [hdata] at h
            exact ih _ hnext (fun h => absurd h (Nat.lt_irrefl 0)) h
          | some data =>
            rw [hdata] at h
            cases h
            refine ⟨front, 0x7B :: (body ++ [c]), ?_, ?_, ⟨data, hdata, rfl⟩, ?_⟩
            · rw [hnext]
              exact ⟨rest, by simp⟩
            · rw [balanced, hcloses, closes, if_neg hopen, if_pos hclose.1, if_pos hone]
              rfl
            · simp
              omega
        · rw [if_neg hone] at h
          refine ih _ hnext (fun _ => ⟨front, body ++ [c], by simp, rfl, fun rest => ?_⟩) h
          rw [List.append_assoc, hcloses, List.singleton_append, closes, if_neg hopen,
            if_pos hclose.1, if_neg hone]
      · rw [if_neg hclose] at h
        refine ih _ hnext (fun hpos => ?_) h
        obtain ⟨front, body, rfl, hstart, hcloses⟩ := hopened hpos
        refine ⟨front, body ++ [c], by simp, hstart, fun rest => ?_⟩
        rw [List.append_assoc, hcloses, List.singleton_append, closes, if_neg hopen,
          if_neg fun hc => hclose ⟨hc, hpos⟩]

theorem findArguments_found {buffer : Text} {result : Option Object × Nat}
    (h : findArguments unmarshal buffer = some result) :
    ∃ front text, Found unmarshal buffer result front text :=
  findArgumentsFrom_found [] rfl (fun h => absurd h (Nat.lt_irrefl 0)) h

/-! ### Objects that are recognised -/

theorem balanced_head {text : Text} (h : balanced text = true) : ∃ body, text = 0x7B :: body := by
  cases text with
  | nil => cases h
  | cons c body =>
    rw [balanced, Bool.and_eq_true, decide_eq_true_eq] at h
    exact ⟨body, by rw [h.1]⟩

/-- Up to its last byte, an object is not found. -/
theorem findArguments_open {text front pre : Text} (h : balanced text = true) (hpre : 0x7B ∉ pre)
    (hfront : front <+: text) (hne : front ≠ text) : findArguments unmarshal (pre ++ front) = none := by
  obtain ⟨more, rfl⟩ := hfront
  have hmore : more ≠ [] := fun hnil => hne (by rw [hnil, List.append_nil])
  rw [findArguments, findArgumentsFrom_outside hpre]
  cases front with
  | nil => rfl
  | cons c front =>
    rw [List.cons_append, balanced, Bool.and_eq_true, decide_eq_true_eq] at h
    rw [findArgumentsFrom, if_pos h.1]
    exact findArgumentsFrom_open Nat.one_pos h.2 hmore

/-- What is found at the end of an object, if anything, is the object. -/
theorem found_object (hreads : ∀ t obj, unmarshal t = some obj → JsonText .item t)
    {o pre more front text : Text} {result : Option Object × Nat} (hobject : ObjectText o)
    (hpre : 0x7B ∉ pre) (hfound : Found unmarshal (pre ++ (o ++ more)) result front text)
    (hlast : result.2 + 1 = (pre ++ o).length) : text = o := by
  have hsame : front ++ text = pre ++ o := by
    refine (List.prefix_of_prefix_length_le hfound.here ?_ ?_).eq_of_length ?_
    · rw [← List.append_assoc]
      exact List.prefix_append ..
    · exact (hfound.last.symm.trans hlast).le
    · exact hfound.last.symm.trans hlast
  obtain ⟨data, hdata, -⟩ := hfound.decodes
  obtain ⟨body, rfl⟩ := balanced_head hfound.balanced
  rcases List.append_eq_append_iff.mp hsame with ⟨skipped, hskip, hrest⟩ | ⟨skipped, hskip, hrest⟩
  · -- the brace would stand before the object
    cases skipped with
    | nil => exact hrest
    | cons c skipped =>
      rw [List.cons_append, List.cons.injEq] at hrest
      exact absurd (hskip ▸ hrest.1 ▸ by simp) hpre
  · subst hrest
    rw [hobject.whole (hreads _ data hdata).neutral]
    rfl

/-- An object that decodes is recognised behind its last byte and not before if and only if its
braces, those in its strings counted as well, balance there for the first time. -/
theorem findArguments_recognises
    (hreads : ∀ t obj, unmarshal t = some obj → JsonText .item t) {o : Text} {arguments : Object}
    (hobject : ObjectText o) (carries : Carries unmarshal o arguments) {pre : Text}
    (hpre : 0x7B ∉ pre) (more : Text) :
    (findArguments unmarshal (pre ++ (o ++ more)) =
        some (some arguments, pre.length + o.length - 1) ∧
      ∀ front, front <+: o → front ≠ o → findArguments unmarshal (pre ++ front) = none) ↔
      balanced o = true := by
  constructor
  · rintro ⟨hfound, -⟩
    obtain ⟨front, text, found⟩ := findArguments_found hfound
    obtain ⟨inner, hinner, -⟩ := hobject.braces
    have hlast : pre.length + o.length - 1 + 1 = (pre ++ o).length := by
      rw [hinner, List.length_append, List.length_cons]
      omega
    exact found_object hreads hobject hpre found hlast ▸ found.balanced
  · intro hbalanced
    exact ⟨findArguments_object carries hbalanced hpre more, fun front hfront hne =>
      findArguments_open hbalanced hpre hfront hne⟩

end

/-! ### Strings without braces -/

/-- No brace stands in a string. -/
def Bare (place : Lexing × Nat) (text : Text) : Prop :=
  ∀ front c rest next, text = front ++ c :: rest → lex place front = some next →
    next.1 ≠ .outside → c ≠ 0x7B ∧ c ≠ 0x7D

/-- Then the braces are counted as they are open. -/
theorem Bare.closes {m m' : Lexing} {d d' : Nat} {s rest : Text} (h : Bare (m, d) s)
    (hlex : lex (m, d) s = some (m', d')) : closes (d + 1) (s ++ rest) = closes (d' + 1) rest := by
  induction s generalizing m d with
  | nil =>
    cases hlex
    rfl
  | cons c s ih =>
    have hstring := h [] c s (m, d) rfl rfl
    rw [lex_cons] at hlex
    obtain ⟨⟨m₁, d₁⟩, hbyte, hrest⟩ := Option.bind_eq_some_iff.mp hlex
    have hnext : Bare (m₁, d₁) s := fun front b rest next heq hfront =>
      h (c :: front) b rest next (by rw [heq, List.cons_append])
        (by rw [lex_cons, hbyte, Option.bind_some, hfront])
    rw [← ih hnext hrest, List.cons_append, Tools.closes]
    cases m with
    | outside =>
      rw [lexByte] at hbyte
      by_cases hopen : c = 0x7B
      · subst hopen
        cases hbyte
        rfl
      · rw [if_neg hopen] at hbyte ⊢
        by_cases hclose : c = 0x7D
        · subst hclose
          rw [if_neg (by decide), if_neg (by decide), if_pos rfl] at hbyte
          split_ifs at hbyte with hzero
          cases hbyte
          rw [if_pos rfl, if_neg (by omega), Nat.sub_add_cancel (by omega), Nat.add_sub_cancel]
        · rw [if_neg hclose] at hbyte ⊢
          split_ifs at hbyte <;> cases hbyte <;> rfl
    | string =>
      obtain ⟨hopen, hclose⟩ := hstring Lexing.noConfusion
      rw [if_neg hopen, if_neg hclose]
      rw [lexByte] at hbyte
      split_ifs at hbyte <;> cases hbyte <;> rfl
    | escaped =>
      obtain ⟨hopen, hclose⟩ := hstring Lexing.noConfusion
      rw [if_neg hopen, if_neg hclose]
      rw [lexByte, if_neg hopen] at hbyte
      cases hbyte
      rfl

/-- An object is recognised when no string of it holds a brace. -/
theorem balanced_bare {text : Text} (h : ObjectText text) (hbare : Bare (.outside, 0) text) :
    balanced text = true := by
  obtain ⟨inner, rfl, hinner⟩ := h.braces
  have hwithin : Bare (.outside, 0) inner := by
    intro front c rest next heq hfront
    refine hbare (0x7B :: front) c (rest ++ [0x7D]) (next.1, next.2 + 1) ?_ ?_
    · rw [heq, List.append_assoc]
      rfl
    · exact lex_open hfront 1
  have hcloses : closes 1 (inner ++ [0x7D]) = closes 1 [0x7D] := hwithin.closes (hinner 0)
  rw [balanced, hcloses]
  rfl

/-! ### Objects in a text -/

/-- `{"name": …, "arguments": …}` with one argument. -/
def callText (name key value : Text) : Text :=
  0x7B :: (((quoted (ascii "name") ++ 0x3A :: quoted name) ++
    0x2C :: (quoted (ascii "arguments") ++ 0x3A :: (0x7B :: ((quoted key ++ 0x3A :: value) ++ [0x7D])))) ++
    [0x7D])

theorem callText_object {name key value : Text} (hname : Chars name) (hkey : Chars key)
    (hvalue : JsonText .value value) : ObjectText (callText name key value) :=
  .members (.members ((chars_plain (by decide)).member (.string hname))
    (.lastMember ((chars_plain (by decide)).member (.object (.lastMember (hkey.member hvalue))))))

/-- A call with a string for its argument. -/
def stringCall (value : Text) : CallObject where
  text := callText (ascii "f") (ascii "a") (quoted value)
  name := ascii "f"
  arguments := [(ascii "a", .string value)]

def decodeCall (o : CallObject) (s : Text) : Option Object :=
  if s = o.text then some [(ascii "name", .string o.name), (ascii "arguments", .object o.arguments)]
  else none

theorem stringCall_object (value : Text) (h : Chars value) : ObjectText (stringCall value).text :=
  callText_object (chars_plain (by decide)) (chars_plain (by decide)) (.string h)

theorem decodeCall_carries (o : CallObject) : Carries (decodeCall o) o.text o.arguments :=
  ⟨_, if_pos rfl, rfl, rfl⟩

theorem decodeCall_reads {o : CallObject} (h : ObjectText o.text) (t : Text) (obj : Object)
    (hdata : decodeCall o t = some obj) : JsonText .item t := by
  rw [decodeCall] at hdata
  split at hdata
  · rename_i heq
    exact heq ▸ h.value.alone
  · cases hdata

/-- Both braces of a string count, and cancel. -/
theorem stringCall_recognised :
    findArguments (decodeCall (stringCall (ascii "\x7b\x7d")))
        (ascii "call " ++ ((stringCall (ascii "\x7b\x7d")).text ++ ascii " done")) =
      some (some (stringCall (ascii "\x7b\x7d")).arguments, 39) ∧
    balanced (stringCall (ascii "\x7b\x7d")).text = true := by
  have object := stringCall_object (ascii "\x7b\x7d") (chars_plain (by decide))
  have outside : 0x7B ∉ ascii "call " := by decide
  have recognised := (findArguments_recognises (decodeCall_reads object) object
    (decodeCall_carries _) outside (ascii " done")).mpr (by decide)
  exact ⟨recognised.1, by decide⟩

/-- An object with a string of one closing brace is not recognised. -/
theorem findArguments_misses : ¬ ∀ (unmarshal : Text → Option Object) (o : Text)
    (arguments : Object) (pre more : Text),
    (∀ t obj, unmarshal t = some obj → JsonText .item t) → ObjectText o →
    Carries unmarshal o arguments → 0x7B ∉ pre → 0x7D ∉ pre →
    findArguments unmarshal (pre ++ (o ++ more)) =
        some (some arguments, pre.length + o.length - 1) ∧
      ∀ front, front <+: o → front ≠ o → findArguments unmarshal (pre ++ front) = none := by
  intro h
  have object := stringCall_object (ascii "\x7d") (chars_plain (by decide))
  have found := (h (decodeCall (stringCall (ascii "\x7d"))) _ _ [] []
    (decodeCall_reads object) object (decodeCall_carries _) (by decide) (by decide)).1
  have place := congrArg (Option.map Prod.snd) found
  revert place
  decide +kernel

end Ecco9.Tools
