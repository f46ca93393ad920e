import Ecco9.Vision.Inputs
import Ecco9.Runner.NewSequence

/-! The groups of inputs that `PostTokenize` makes: what an image becomes, and that the runner can take
its inputs group by group. -/

namespace Ecco9.Vision

open Ecco9.Library

/-! ### Well-formed inputs -/

/-- An input with `sameBatch` is followed by at least so many inputs, which all have none. -/
def WholeGroups : List Input → Prop
  | [] => True
  | inp :: l => (inp.sameBatch ≤ l.length ∧ ∀ next ∈ l.take inp.sameBatch, next.sameBatch = 0) ∧
      WholeGroups l

/-- Behind each input with a tensor there are as many placeholders as the tensor has further rows, and
no more. -/
def Followed (placeholder : Int) : List Input → Prop
  | [] => True
  | inp :: l => (∀ mm ∈ inp.parts, l.takeWhile (· = { token := placeholder }) =
      List.replicate (mm.tensor.dim 1 - 1) { token := placeholder }) ∧ Followed placeholder l

/-- The positions of each tensor are all in the group of one input. -/
def Covered (l : List Input) : Prop :=
  ∀ (i : Nat) (inp : Input), l[i]? = some inp → ∀ mm ∈ inp.parts, ∃ (s : Nat) (lead : Input),
    l[s]? = some lead ∧ s ≤ i ∧ i + mm.tensor.dim 1 ≤ s + lead.sameBatch + 1

/-- What is emitted for an image with these tensors. -/
structure ImageBlock (placeholder : Int) (hash : Nat) (tensors : List Tensor) (block : List Input) :
    Prop where
  tensors : block.flatMap (fun inp => inp.parts.map (·.tensor)) = tensors
  single : ∀ inp ∈ block, inp.parts.length ≤ 1
  hash : ∀ inp ∈ block, inp.parts ≠ [] → inp.multimodalHash = hash
  followed : Followed placeholder block
  groups : WholeGroups block
  covered : Covered block

/-- A text input stays as it is, and an image becomes such inputs. -/
def Emits (placeholder : Int) (inp : Input) (block : List Input) : Prop :=
  (inp.parts = [] → block = [inp]) ∧ (inp.parts ≠ [] →
    ImageBlock placeholder inp.multimodalHash (inp.parts.map (·.tensor)) block)

/-- The images of the inputs are such as the `EncodeMultimodal` of the model returns. -/
def AsEncoded (returned : List Multimodal → Prop) (l : List Input) : Prop :=
  ∀ inp ∈ l, ∀ mms, inp.multimodal = some mms → returned mms

structure Arranged (placeholder : Int) (l result : List Input) : Prop where
  blocks : ∃ blocks, result = blocks.flatten ∧ List.Forall₂ (Emits placeholder) l blocks
  groups : (∀ inp ∈ l, inp.parts = [] → inp.sameBatch = 0) → WholeGroups result
  covered : Covered result

/-- Inputs without tensors and groups. -/
def Plain (l : List Input) : Prop := ∀ inp ∈ l, inp.parts = [] ∧ inp.sameBatch = 0

theorem Plain.append {l l' : List Input} (h : Plain l) (h' : Plain l') : Plain (l ++ l') := by
  intro inp hinp
  rcases List.mem_append.mp hinp with hinp | hinp
  · exact h inp hinp
  · exact h' inp hinp

theorem plain_replicate (n : Nat) (token : Int) : Plain (List.replicate n { token }) := by
  intro inp hinp
  rw [List.eq_of_mem_replicate hinp]
  exact ⟨rfl, rfl⟩

theorem plain_tokens (tokens : List Int) : Plain (tokens.map fun token => { token }) := by
  intro inp hinp
  obtain ⟨token, -, rfl⟩ := List.mem_map.mp hinp
  exact ⟨rfl, rfl⟩

section Closure

variable {placeholder : Int} {a b : List Input} {inp lead : Input}

theorem WholeGroups.append (ha : WholeGroups a) (hb : WholeGroups b) : WholeGroups (a ++ b) := by
  induction a with
  | nil => exact hb
  | cons inp a ih =>
    obtain ⟨⟨hlen, hzero⟩, ha⟩ := ha
    rw [List.cons_append]
    refine ⟨⟨?_, ?_⟩, ih ha⟩
    · rw [List.length_append]
      omega
    · rwa [List.take_append_of_le_length hlen]

theorem WholeGroups.flatten {l : List (List Input)} (h : ∀ block ∈ l, WholeGroups block) :
    WholeGroups l.flatten := by
  induction l with
  | nil => trivial
  | cons block l ih =>
    rw [List.flatten_cons]
    exact (h block List.mem_cons_self).append
      (ih fun other hother => h other (List.mem_cons_of_mem block hother))

theorem Plain.parts (h : Plain a) : ∀ inp ∈ a, inp.parts = [] := fun inp hinp => (h inp hinp).1

theorem Plain.sameBatch (h : Plain a) : ∀ inp ∈ a, inp.sameBatch = 0 := fun inp hinp => (h inp hinp).2

theorem wholeGroups_of_sameBatch (h : ∀ inp ∈ a, inp.sameBatch = 0) : WholeGroups a := by
  induction a with
  | nil => trivial
  | cons inp a ih =>
    have hzero := h inp List.mem_cons_self
    refine ⟨?_, ih fun x hx => h x (List.mem_cons_of_mem inp hx)⟩
    rw [hzero]
    exact ⟨Nat.zero_le _, fun x hx => absurd hx (by simp)⟩

/-- A group is an input, and behind it some that lead none. -/
theorem wholeGroups_cons (h : ∀ inp ∈ a, inp.sameBatch = 0) (hlen : lead.sameBatch ≤ a.length) :
    WholeGroups (lead :: a) :=
  ⟨⟨hlen, fun inp hinp => h inp (List.mem_of_mem_take hinp)⟩, wholeGroups_of_sameBatch h⟩

theorem Covered.append (ha : Covered a) (hb : Covered b) : Covered (a ++ b) := by
  intro i inp hi mm hmm
  by_cases hlt : i < a.length
  · rw [List.getElem?_append_left hlt] at hi
    obtain ⟨s, lead, hs, hle, hrows⟩ := ha i inp hi mm hmm
    exact ⟨s, lead, (List.getElem?_append_left (by omega)).trans hs, hle, hrows⟩
  · rw [List.getElem?_append_right (by omega)] at hi
    obtain ⟨s, lead, hs, hle, hrows⟩ := hb _ inp hi mm hmm
    refine ⟨a.length + s, lead, ?_, by omega, by omega⟩
    rw [List.getElem?_append_right (by omega), Nat.add_sub_cancel_left]
    exact hs

theorem Covered.flatten {l : List (List Input)} (h : ∀ block ∈ l, Covered block) :
    Covered l.flatten := by
  induction l with
  | nil => exact fun i inp hi => absurd hi (by simp)
  | cons block l ih =>
    rw [List.flatten_cons]
    exact (h block List.mem_cons_self).append
      (ih fun other hother => h other (List.mem_cons_of_mem block hother))

theorem covered_of_parts (h : ∀ inp ∈ a, inp.parts = []) : Covered a := by
  intro i inp hi mm hmm
  rw [h inp (List.mem_of_getElem? hi)] at hmm
  exact absurd hmm List.not_mem_nil

theorem Followed.prepend (h : ∀ inp ∈ a, inp.parts = []) (hb : Followed placeholder b) :
    Followed placeholder (a ++ b) := by
  induction a with
  | nil => exact hb
  | cons inp a ih =>
    refine ⟨fun mm hmm => ?_, ih fun x hx => h x (List.mem_cons_of_mem inp hx)⟩
    rw [h inp List.mem_cons_self] at hmm
    exact absurd hmm List.not_mem_nil

/-- Inputs without tensors before an image. -/
theorem ImageBlock.prepend {hash : Nat} {tensors : List Tensor} (h : Plain a)
    (hb : ImageBlock placeholder hash tensors b) : ImageBlock placeholder hash tensors (a ++ b) where
  tensors := by
    rw [List.flatMap_append, hb.tensors, List.flatMap_eq_nil_iff.mpr, List.nil_append]
    exact fun inp hinp => by rw [h.parts inp hinp, List.map_nil]
  single inp hinp := by
    rcases List.mem_append.mp hinp with hinp | hinp
    · rw [h.parts inp hinp]
      exact Nat.zero_le 1
    · exact hb.single inp hinp
  hash inp hinp hparts := by
    rcases List.mem_append.mp hinp with hinp | hinp
    · exact absurd (h.parts inp hinp) hparts
    · exact hb.hash inp hinp hparts
  followed := hb.followed.prepend h.parts
  groups := (wholeGroups_of_sameBatch h.sameBatch).append hb.groups
  covered := (covered_of_parts h.parts).append hb.covered

theorem imageBlock_nil (placeholder : Int) (hash : Nat) : ImageBlock placeholder hash [] [] where
  tensors := rfl
  single _ h := absurd h List.not_mem_nil
  hash _ h := absurd h List.not_mem_nil
  followed := trivial
  groups := trivial
  covered := covered_of_parts fun _ h => absurd h List.not_mem_nil

/-- Only the input between `opener` and `closing` has tensors, and the rows of them are in a group that
is led by it or in front of it. -/
theorem covered_chunk {opener closing : List Input} (hopener : ∀ inp ∈ opener, inp.parts = [])
    (hclosing : ∀ inp ∈ closing, inp.parts = [])
    (hcovered : ∀ mm ∈ lead.parts, ∃ (s : Nat) (first : Input), (opener ++ [lead])[s]? = some first ∧
      opener.length + mm.tensor.dim 1 ≤ s + first.sameBatch + 1) :
    Covered (opener ++ lead :: closing) := by
  intro i inp hi mm hmm
  rcases Nat.lt_trichotomy i opener.length with hlt | rfl | hgt
  · rw [List.getElem?_append_left hlt] at hi
    rw [hopener inp (List.mem_of_getElem? hi)] at hmm
    exact absurd hmm List.not_mem_nil
  · rw [List.getElem?_append_right (Nat.le_refl _), Nat.sub_self, List.getElem?_cons_zero] at hi
    obtain rfl := Option.some.inj hi
    obtain ⟨s, first, hs, hrows⟩ := hcovered mm hmm
    have hlt : s < (opener ++ [lead]).length := (List.getElem?_eq_some_iff.mp hs).1
    refine ⟨s, first, ?_, ?_, hrows⟩
    · rw [List.append_cons, List.getElem?_append_left hlt]
      exact hs
    · rw [List.length_append, List.length_singleton] at hlt
      omega
  · obtain ⟨k, hk⟩ := Nat.exists_eq_add_of_lt hgt
    rw [List.getElem?_append_right (by omega), show i - opener.length = k + 1 by omega,
      List.getElem?_cons_succ] at hi
    rw [hclosing inp (List.mem_of_getElem? hi)] at hmm
    exact absurd hmm List.not_mem_nil

/-- One tensor in a group, some inputs that close it, and the rest of the image. The group is led by
one of the inputs up to that of the tensor. -/
theorem ImageBlock.chunk {hash : Nat} {tensors : List Tensor} {t : Tensor} {close : Input}
    {opener closing : List Input} (hopener : ∀ inp ∈ opener, inp.parts = [])
    (hlead : lead.parts.map (·.tensor) = [t]) (hhash : lead.multimodalHash = hash)
    (hclose : close ≠ { token := placeholder }) (hclosing : Plain (close :: closing))
    (hgroups : WholeGroups (opener ++ lead :: (List.replicate (t.dim 1 - 1)
      { token := placeholder } ++ close :: closing)))
    (hcovered : ∃ (s : Nat) (first : Input), (opener ++ [lead])[s]? = some first ∧
      opener.length + t.dim 1 ≤ s + first.sameBatch + 1)
    (hb : ImageBlock placeholder hash tensors b) :
    ImageBlock placeholder hash (t :: tensors) (opener ++ lead ::
      (List.replicate (t.dim 1 - 1) { token := placeholder } ++ close :: closing) ++ b) := by
  have htensor : ∀ mm ∈ lead.parts, mm.tensor = t := fun mm hmm =>
    List.mem_singleton.mp (hlead ▸ List.mem_map_of_mem hmm)
  have hrest : Plain (List.replicate (t.dim 1 - 1) { token := placeholder } ++
      close :: closing) := (plain_replicate _ _).append hclosing
  have hparts : ∀ inp ∈ opener ++ lead :: (List.replicate (t.dim 1 - 1)
      { token := placeholder } ++ close :: closing), inp.parts = [] ∨ inp = lead := by
    intro inp hinp
    rcases List.mem_append.mp hinp with hinp | hinp
    · exact .inl (hopener inp hinp)
    · rcases List.mem_cons.mp hinp with rfl | hinp
      · exact .inr rfl
      · exact .inl (hrest.parts inp hinp)
  constructor
  · have hnone {l : List Input} (hl : ∀ inp ∈ l, inp.parts = []) :
        l.flatMap (fun inp => inp.parts.map (·.tensor)) = [] :=
      List.flatMap_eq_nil_iff.mpr fun inp hinp => by rw [hl inp hinp, List.map_nil]
    rw [List.flatMap_append, List.flatMap_append, List.flatMap_cons, hnone hopener,
      hnone hrest.parts, hb.tensors, hlead]
    rfl
  · intro inp hinp
    rcases List.mem_append.mp hinp with hinp | hinp
    · rcases hparts inp hinp with hnil | rfl
      · rw [hnil]
        exact Nat.zero_le 1
      · rw [← List.length_map (·.tensor), hlead]
        exact Nat.le_refl 1
    · exact hb.single inp hinp
  · intro inp hinp hne
    rcases List.mem_append.mp hinp with hinp | hinp
    · rcases hparts inp hinp with hnil | rfl
      · exact absurd hnil hne
      · exact hhash
    · exact hb.hash inp hinp hne
  · rw [List.append_assoc]
    refine Followed.prepend hopener ⟨fun mm' hmm' => ?_, hb.followed.prepend hrest.parts⟩
    rw [htensor mm' hmm', List.append_eq, List.append_assoc,
      List.takeWhile_append_of_pos fun x hx => decide_eq_true (List.eq_of_mem_replicate hx),
      List.cons_append, List.takeWhile_cons_of_neg (by simpa using hclose), List.append_nil]
  · exact hgroups.append hb.groups
  · exact (covered_chunk hopener hrest.parts fun mm hmm => by rwa [htensor mm hmm]).append hb.covered

end Closure

/-! ### The images of the models -/

theorem repeatInput_ok {inp : Input} {n : Nat} (hn : 1 ≤ n) :
    repeatInput inp ((n : Int) - 1) = .ok (List.replicate (n - 1) inp) := by
  rw [repeatInput, if_neg (by omega)]
  congr 2
  omega

/-- The usual chunk, whose tensor leads a group of as many inputs as it has rows and one more. -/
theorem ImageBlock.rows {placeholder : Int} {hash : Nat} {tensors : List Tensor} {t : Tensor}
    {lead close : Input} {closing b : List Input} (hlead : lead.parts.map (·.tensor) = [t])
    (hhash : lead.multimodalHash = hash) (hbatch : lead.sameBatch = t.dim 1)
    (hdim : 1 ≤ t.dim 1) (hclose : close ≠ { token := placeholder })
    (hclosing : Plain (close :: closing)) (hb : ImageBlock placeholder hash tensors b) :
    ImageBlock placeholder hash (t :: tensors) (lead :: (List.replicate (t.dim 1 - 1)
      { token := placeholder } ++ close :: closing) ++ b) := by
  refine ImageBlock.chunk (fun _ h => absurd h List.not_mem_nil) hlead hhash hclose hclosing ?_
    ⟨0, lead, rfl, ?_⟩ hb
  · refine wholeGroups_cons ((plain_replicate _ _).append hclosing).sameBatch ?_
    rw [List.length_append, List.length_replicate, List.length_cons]
    omega
  · rw [List.length_nil]
    omega

theorem emits_text {placeholder : Int} {inp : Input} (hparts : inp.parts = []) :
    Emits placeholder inp [inp] := ⟨fun _ => rfl, fun h => absurd hparts h⟩

theorem emits_image {placeholder : Int} {inp : Input} {mm : Multimodal} {rest : List Multimodal}
    {block : List Input} (hparts : inp.parts = mm :: rest)
    (h : ImageBlock placeholder inp.multimodalHash ((mm :: rest).map (·.tensor)) block) :
    Emits placeholder inp block := by
  constructor
  · intro hnil
    rw [hparts] at hnil
    cases hnil
  · intro _
    rwa [hparts]

namespace Gemma3

def Returned (mms : List Multimodal) : Prop := ∃ mm, mms = [mm]

theorem returned_multimodal (visionOutputs : Tensor) : Returned (multimodal visionOutputs) := ⟨_, rfl⟩

theorem inputs_emits {inp : Input} (hreturned : ∀ mms, inp.multimodal = some mms → Returned mms)
    (hdim : ∀ mm ∈ inp.parts, 1 ≤ mm.tensor.dim 1) :
    ∃ block, inputs inp = .ok block ∧ Emits 0 inp block := by
  cases hmultimodal : inp.multimodal with
  | none =>
    have hparts : inp.parts = [] := by rw [Input.parts, hmultimodal]; rfl
    exact ⟨[inp], by rw [inputs, hparts], emits_text hparts⟩
  | some mms =>
    obtain ⟨mm, rfl⟩ := hreturned mms hmultimodal
    have hparts : inp.parts = [mm] := by rw [Input.parts, hmultimodal]; rfl
    rw [hparts] at hdim
    have hmm := hdim mm List.mem_cons_self
    have hplain : Plain [{ token := 256000 }, { token := 108 }] := plain_tokens [256000, 108]
    have hblock : ImageBlock 0 inp.multimodalHash [mm.tensor] (
        [{ token := 108, sameBatch := mm.tensor.dim 1 + 3 }, { token := 255999 }] ++ {
          multimodal := some [{ tensor := mm.tensor }]
          multimodalHash := inp.multimodalHash
        } :: (List.replicate (mm.tensor.dim 1 - 1) { token := 0 } ++
          { token := 256000 } :: [{ token := 108 }]) ++ []) := by
      -- the group is that of the first input, and ends with the last one
      refine ImageBlock.chunk ?_ rfl rfl (by decide) hplain ?_ ⟨0, _, rfl, ?_⟩ (imageBlock_nil _ _)
      · intro x hx
        rcases List.mem_cons.mp hx with rfl | hx
        · rfl
        · rw [List.mem_singleton.mp hx]
          rfl
      · refine wholeGroups_cons (fun x hx => ?_) ?_
        · rcases List.mem_cons.mp hx with rfl | hx
          · rfl
          · rcases List.mem_cons.mp hx with rfl | hx
            · rfl
            · exact ((plain_replicate _ _).append hplain).sameBatch x hx
        · simp only [List.append_eq, List.cons_append, List.nil_append, List.length_cons,
            List.length_append, List.length_replicate, List.length_nil]
          omega
      · simp only [List.length_cons, List.length_nil]
        omega
    rw [List.append_nil] at hblock
    refine ⟨_, ?_, emits_image hparts hblock⟩
    rw [inputs, hparts]
    simp only [repeatInput_ok hmm]
    rfl

end Gemma3

namespace Mistral3

theorem rows_block (hash : Nat) {mms : List Multimodal} (hdim : ∀ mm ∈ mms, 1 ≤ mm.tensor.dim 1) :
    ∃ block, rows hash mms = .ok block ∧ ImageBlock 10 hash (mms.map (·.tensor)) block := by
  induction mms with
  | nil => exact ⟨[], rfl, imageBlock_nil 10 hash⟩
  | cons row rest ih =>
    obtain ⟨after, hafter, hblock⟩ := ih fun mm hmm => hdim mm (List.mem_cons_of_mem row hmm)
    have hrow := hdim row List.mem_cons_self
    have hclose : ({ token := if rest = [] then 13 else 12 } : Input) ≠ { token := 10 } := by
      split <;> decide
    have himage : ImageBlock 10 hash (row.tensor :: rest.map (·.tensor)) ({
          token := 10
          multimodal := some [{ tensor := row.tensor }]
          multimodalHash := hash
          sameBatch := row.tensor.dim 1
        } :: (List.replicate (row.tensor.dim 1 - 1) { token := 10 } ++
          { token := if rest = [] then 13 else 12 } :: []) ++ after) :=
      ImageBlock.rows rfl rfl rfl hrow hclose (plain_tokens [_]) hblock
    rw [List.cons_append, List.append_assoc] at himage
    refine ⟨_, ?_, himage⟩
    rw [rows, repeatInput_ok hrow, hafter]
    rfl

theorem inputs_emits {inp : Input} (hdim : ∀ mm ∈ inp.parts, 1 ≤ mm.tensor.dim 1) :
    ∃ block, inputs inp = .ok block ∧ Emits 10 inp block := by
  cases hparts : inp.parts with
  | nil => exact ⟨[inp], by rw [inputs, hparts], emits_text hparts⟩
  | cons row rest =>
    rw [hparts] at hdim
    obtain ⟨block, hrows, hblock⟩ := rows_block inp.multimodalHash hdim
    exact ⟨block, by rw [inputs, hparts]; exact hrows, emits_image hparts hblock⟩

end Mistral3

namespace Llama4

/-- Each chunk but the last has a separator behind it. -/
def Returned (mms : List Multimodal) : Prop :=
  ∀ mm ∈ mms.dropLast, ∃ separator, mm.data = some separator ∧ (separator.x || separator.y) = true

theorem patches_ok {hash : Nat} {mm : Multimodal} (hdim : 1 ≤ mm.tensor.dim 1) :
    patches hash mm = .ok ({
      token := 200092
      multimodal := some [{ tensor := mm.tensor }]
      multimodalHash := hash
      sameBatch := mm.tensor.dim 1
    } :: List.replicate (mm.tensor.dim 1 - 1) { token := 200092 }) := by
  rw [patches, repeatInput_ok hdim]
  rfl

/-- What is put behind a chunk. -/
theorem separators_eq {separator : Separator} (h : (separator.x || separator.y) = true) :
    ∃ (close : Input) (closing : List Input), (if separator.x then [{ token := 200084 }] else []) ++
      (if separator.y then [{ token := 200085 }] else []) = close :: closing ∧
      close ≠ { token := 200092 } ∧ Plain (close :: closing) := by
  obtain ⟨x, y⟩ := separator
  cases x with
  | false =>
    obtain rfl : y = true := h
    exact ⟨{ token := 200085 }, [], rfl, by decide, plain_tokens [200085]⟩
  | true =>
    cases y with
    | false => exact ⟨{ token := 200084 }, [], rfl, by decide, plain_tokens [200084]⟩
    | true =>
      exact ⟨{ token := 200084 }, [{ token := 200085 }], rfl, by decide,
        plain_tokens [200084, 200085]⟩

/-- A chunk and what is put behind it. -/
theorem patches_block (hash : Nat) {mm : Multimodal} {tensors : List Tensor} {close : Input}
    {closing b : List Input} (hdim : 1 ≤ mm.tensor.dim 1) (hclose : close ≠ { token := 200092 })
    (hclosing : Plain (close :: closing)) (hb : ImageBlock 200092 hash tensors b) :
    ∃ image, patches hash mm = .ok image ∧
      ImageBlock 200092 hash (mm.tensor :: tensors) (image ++ close :: closing ++ b) := by
  refine ⟨_, patches_ok hdim, ?_⟩
  exact ImageBlock.rows rfl rfl rfl hdim hclose hclosing hb

theorem chunks_block (hash : Nat) {mms : List Multimodal} (hdim : ∀ mm ∈ mms, 1 ≤ mm.tensor.dim 1)
    (hseparated : Returned mms) :
    ∃ block, chunks hash mms = .ok block ∧ ImageBlock 200092 hash (mms.map (·.tensor)) block := by
  induction mms with
  | nil => exact ⟨[], rfl, imageBlock_nil _ hash⟩
  | cons mm rest ih =>
    have hmm := hdim mm List.mem_cons_self
    cases rest with
    | nil =>
      obtain ⟨image, hpatches, hblock⟩ := patches_block hash hmm
        (by decide : ({ token := 200080 } : Input) ≠ { token := 200092 }) (plain_tokens [200080])
        (imageBlock_nil _ hash)
      rw [List.append_nil] at hblock
      refine ⟨_, ?_, hblock.prepend (plain_tokens [200090])⟩
      rw [chunks, hpatches]
      rfl
    | cons next rest =>
      obtain ⟨separator, hdata, hset⟩ := hseparated mm (by simp)
      obtain ⟨after, hafter, hrest⟩ := ih (fun m hm => hdim m (List.mem_cons_of_mem mm hm))
        fun m hm => hseparated m (by simpa using .inr hm)
      obtain ⟨close, closing, heq, hclose, hplain⟩ := separators_eq hset
      obtain ⟨image, hpatches, hblock⟩ := patches_block hash hmm hclose hplain hrest
      refine ⟨_, ?_, hblock⟩
      rw [chunks, hdata]
      simp only [hpatches, hafter]
      rw [← heq, ← List.append_assoc]
      rfl

theorem inputs_emits {inp : Input} (hdim : ∀ mm ∈ inp.parts, 1 ≤ mm.tensor.dim 1)
    (hreturned : ∀ mms, inp.multimodal = some mms → Returned mms) :
    ∃ block, inputs inp = .ok block ∧ Emits 200092 inp block := by
  cases hparts : inp.parts with
  | nil => exact ⟨[inp], by rw [inputs, hparts], emits_text hparts⟩
  | cons mm rest =>
    have hseparated : Returned (mm :: rest) := by
      cases hmultimodal : inp.multimodal with
      | none => rw [Input.parts, hmultimodal] at hparts; cases hparts
      | some mms =>
        rw [Input.parts, hmultimodal] at hparts
        exact hparts ▸ hreturned mms hmultimodal
    rw [hparts] at hdim
    obtain ⟨block, hchunks, hblock⟩ := chunks_block inp.multimodalHash hdim hseparated
    refine ⟨_, ?_, emits_image hparts (hblock.prepend (plain_tokens [200080]))⟩
    rw [inputs, hparts]
    simp only [hchunks]
    rfl

theorem returned_multimodal (projectedOutputs : Tensor) (ratioW ratioH : Nat) :
    Returned (multimodal projectedOutputs ratioW ratioH) := by
  intro mm hmm
  rw [multimodal] at hmm
  split at hmm
  · rw [List.dropLast_concat] at hmm
    obtain ⟨y, -, hmm⟩ := List.mem_flatMap.mp hmm
    obtain ⟨x, -, rfl⟩ := List.mem_map.mp hmm
    refine ⟨_, rfl, ?_⟩
    split <;> rfl
  · exact absurd hmm List.not_mem_nil

end Llama4

namespace Qwen25vl

variable {encode : Text → Bool → Except Text (List Int)}

def Returned (mms : List Multimodal) : Prop := ∃ mm, mms = [mm]

theorem returned_multimodal (visionOutputs : Tensor) : Returned (multimodal visionOutputs) := ⟨_, rfl⟩

theorem image_emits (hencode : ∀ nImg, ∃ pre, encode (picture nImg) true = .ok pre) (nImg : Nat)
    {inp : Input} {mm : Multimodal} (hone : inp.multimodal = some [mm])
    (hdim : 1 ≤ mm.tensor.dim 1) :
    ∃ block, image encode nImg inp [mm] = .ok block ∧ Emits imageToken inp block := by
  obtain ⟨pre, hpre⟩ := hencode nImg
  have hparts : inp.parts = [mm] := by rw [Input.parts, hone]; rfl
  have hblock : ImageBlock imageToken inp.multimodalHash [mm.tensor] ({
        token := imageToken
        multimodal := some [mm]
        multimodalHash := inp.multimodalHash
        sameBatch := mm.tensor.dim 1
      } :: (List.replicate (mm.tensor.dim 1 - 1) { token := imageToken } ++
        { token := visionEndToken } :: []) ++ []) :=
    ImageBlock.rows rfl rfl rfl hdim (by decide) (plain_tokens [visionEndToken]) (imageBlock_nil _ _)
  rw [List.append_nil] at hblock
  have hpre_plain := (plain_tokens pre).append (plain_tokens [visionStartToken])
  refine ⟨_, ?_, emits_image hparts (hblock.prepend hpre_plain)⟩
  rw [image, hpre]
  simp only [repeatInput_ok hdim]
  refine congrArg Except.ok ?_
  simp only [List.map_cons, List.map_nil, List.append_assoc, List.cons_append, List.nil_append]

theorem postTokenizeFrom_blocks (hencode : ∀ nImg, ∃ pre, encode (picture nImg) true = .ok pre)
    {l : List Input} (hreturned : AsEncoded Returned l)
    (hdim : ∀ inp ∈ l, ∀ mm ∈ inp.parts, 1 ≤ mm.tensor.dim 1) (nImg : Nat) :
    ∃ blocks, postTokenizeFrom encode nImg l = .ok blocks.flatten ∧
      List.Forall₂ (Emits imageToken) l blocks := by
  induction l generalizing nImg with
  | nil => exact ⟨[], rfl, .nil⟩
  | cons inp l ih =>
    have ih := ih (fun x hx => hreturned x (List.mem_cons_of_mem inp hx)) fun x hx =>
      hdim x (List.mem_cons_of_mem inp hx)
    cases hmultimodal : inp.multimodal with
    | none =>
      obtain ⟨blocks, hblocks, hemits⟩ := ih nImg
      have hparts : inp.parts = [] := by rw [Input.parts, hmultimodal]; rfl
      refine ⟨[inp] :: blocks, ?_, .cons (emits_text hparts) hemits⟩
      rw [postTokenizeFrom, hmultimodal]
      simp only [hblocks]
      rfl
    | some mms =>
      obtain ⟨mm, rfl⟩ := hreturned inp List.mem_cons_self mms hmultimodal
      have hparts : inp.parts = [mm] := by rw [Input.parts, hmultimodal]; rfl
      have hmm := hdim inp List.mem_cons_self mm (hparts ▸ List.mem_cons_self)
      obtain ⟨block, hblock, himage⟩ := image_emits hencode (nImg + 1) hmultimodal hmm
      obtain ⟨blocks, hblocks, hemits⟩ := ih (nImg + 1)
      refine ⟨block :: blocks, ?_, .cons himage hemits⟩
      rw [postTokenizeFrom, hmultimodal]
      simp only [hblock, hblocks]
      rfl

end Qwen25vl

/-! ### All inputs -/

section All

variable {placeholder : Int} {l : List Input}

theorem forall₂_emits {f : Input → Except Failure (List Input)}
    (h : ∀ inp ∈ l, ∃ block, f inp = .ok block ∧ Emits placeholder inp block) :
    ∃ blocks, l.mapM f = .ok blocks ∧ List.Forall₂ (Emits placeholder) l blocks := by
  induction l with
  | nil => exact ⟨[], rfl, .nil⟩
  | cons inp l ih =>
    obtain ⟨block, hblock, himage⟩ := h inp List.mem_cons_self
    obtain ⟨blocks, hblocks, hemits⟩ := ih fun x hx => h x (List.mem_cons_of_mem inp hx)
    refine ⟨block :: blocks, ?_, .cons himage hemits⟩
    rw [List.mapM_cons, hblock, hblocks]
    rfl

theorem Emits.wholeGroups {inp : Input} {block : List Input} (h : Emits placeholder inp block)
    (hinp : inp.parts = [] → inp.sameBatch = 0) : WholeGroups block := by
  by_cases hparts : inp.parts = []
  · rw [h.1 hparts]
    refine wholeGroups_of_sameBatch fun x hx => ?_
    rw [List.mem_singleton.mp hx]
    exact hinp hparts
  · exact (h.2 hparts).groups

theorem Emits.covered {inp : Input} {block : List Input} (h : Emits placeholder inp block) :
    Covered block := by
  by_cases hparts : inp.parts = []
  · rw [h.1 hparts]
    refine covered_of_parts fun x hx => ?_
    rw [List.mem_singleton.mp hx]
    exact hparts
  · exact (h.2 hparts).covered

theorem arranged {blocks : List (List Input)} (h : List.Forall₂ (Emits placeholder) l blocks) :
    Arranged placeholder l blocks.flatten where
  blocks := ⟨blocks, rfl, h⟩
  groups hl := by
    refine WholeGroups.flatten fun block hblock => ?_
    obtain ⟨i, hi, rfl⟩ := List.mem_iff_getElem.mp hblock
    have hlen : i < l.length := by rwa [h.length_eq]
    exact (h.get hlen hi).wholeGroups (hl _ (List.getElem_mem hlen))
  covered := by
    refine Covered.flatten fun block hblock => ?_
    obtain ⟨i, hi, rfl⟩ := List.mem_iff_getElem.mp hblock
    have hlen : i < l.length := by rwa [h.length_eq]
    exact (h.get hlen hi).covered

end All

/-- What `PostTokenize` makes of texts and of images as the `EncodeMultimodal` of the same model returns
them: one tensor for `gemma3` and `qwen25vl`, chunks with separators for `llama4`, any rows for
`mistral3`. -/
theorem postTokenize_arranged (encode : Text → Bool → Except Text (List Int)) {l : List Input}
    (hdim : ∀ inp ∈ l, ∀ mm ∈ inp.parts, 1 ≤ mm.tensor.dim 1) :
    (AsEncoded Gemma3.Returned l →
      ∃ result, Gemma3.postTokenize l = .ok result ∧ Arranged 0 l result) ∧
    (AsEncoded Llama4.Returned l →
      ∃ result, Llama4.postTokenize l = .ok result ∧ Arranged 200092 l result) ∧
    (∃ result, Mistral3.postTokenize l = .ok result ∧ Arranged 10 l result) ∧
    (AsEncoded Qwen25vl.Returned l →
      (∀ nImg, ∃ pre, encode (Qwen25vl.picture nImg) true = .ok pre) →
      ∃ result, Qwen25vl.postTokenize encode l = .ok result ∧
        Arranged Qwen25vl.imageToken l result) := by
  refine ⟨fun hreturned => ?_, fun hreturned => ?_, ?_, fun hreturned hencode => ?_⟩
  · obtain ⟨blocks, hblocks, hemits⟩ := forall₂_emits fun inp hinp =>
      Gemma3.inputs_emits (hreturned inp hinp) (hdim inp hinp)
    exact ⟨_, by rw [Gemma3.postTokenize, hblocks]; rfl, arranged hemits⟩
  · obtain ⟨blocks, hblocks, hemits⟩ := forall₂_emits fun inp hinp =>
      Llama4.inputs_emits (hdim inp hinp) (hreturned inp hinp)
    exact ⟨_, by rw [Llama4.postTokenize, hblocks]; rfl, arranged hemits⟩
  · obtain ⟨blocks, hblocks, hemits⟩ := forall₂_emits fun inp hinp =>
      Mistral3.inputs_emits (hdim inp hinp)
    exact ⟨_, by rw [Mistral3.postTokenize, hblocks]; rfl, arranged hemits⟩
  · obtain ⟨blocks, hblocks, hemits⟩ := Qwen25vl.postTokenizeFrom_blocks hencode hreturned hdim 0
    exact ⟨_, hblocks, arranged hemits⟩

/-- A text token and an image of two rows. -/
def smallPrompt : List Input := [
  { token := 7 },
  {
    multimodal := some [{ tensor := { handle := 0, shape := [8, 2] } }]
    multimodalHash := 3
  }
]

theorem smallPrompt_arranged :
    (∃ result, Gemma3.postTokenize smallPrompt = .ok result ∧ Arranged 0 smallPrompt result) ∧
    (∃ result, Llama4.postTokenize smallPrompt = .ok result ∧ Arranged 200092 smallPrompt result) ∧
    (∃ result, Mistral3.postTokenize smallPrompt = .ok result ∧ Arranged 10 smallPrompt result) ∧
    ∃ result, Qwen25vl.postTokenize (fun _ _ => .ok [5, 6]) smallPrompt = .ok result ∧
      Arranged Qwen25vl.imageToken smallPrompt result := by
  have hone : AsEncoded (fun mms => ∃ mm, mms = [mm]) smallPrompt := by
    intro inp hinp mms hmms
    rcases List.mem_cons.mp hinp with rfl | hinp
    · cases hmms
    · obtain rfl := List.mem_singleton.mp hinp
      exact ⟨_, (Option.some.inj hmms).symm⟩
  have hseparated : AsEncoded Llama4.Returned smallPrompt := by
    intro inp hinp mms hmms
    obtain ⟨mm, rfl⟩ := hone inp hinp mms hmms
    exact fun m hm => absurd hm List.not_mem_nil
  obtain ⟨hgemma3, hllama4, hmistral3, hqwen25vl⟩ :=
    @postTokenize_arranged (fun _ _ => .ok [5, 6]) smallPrompt (by decide)
  exact ⟨hgemma3 hone, hllama4 hseparated, hmistral3, hqwen25vl hone fun _ => ⟨_, rfl⟩⟩

/-! ### The inputs of the runner -/

/-- The input as the runner has it, with a handle for what is stored of an image. -/
def Input.toRunner (handle : List Multimodal → Nat) (inp : Input) : Runner.Input where
  token := inp.token
  multimodal := inp.multimodal.map handle
  multimodalHash := inp.multimodalHash
  sameBatch := inp.sameBatch

/-- The runner finds the groups complete. -/
theorem WholeGroups.complete (handle : List Multimodal → Nat) {l : List Input} (h : WholeGroups l) :
    Runner.Complete (l.map (·.toRunner handle)) := by
  induction l with
  | nil => trivial
  | cons inp l ih =>
    obtain ⟨⟨hlen, -⟩, hl⟩ := h
    refine ⟨?_, ih hl⟩
    rw [List.length_map]
    exact hlen

/-- What one of the models makes of texts and of images as its `EncodeMultimodal` returns them. -/
inductive PostTokenized (l result : List Input) : Prop
  | gemma3 (returned : AsEncoded Gemma3.Returned l) (ok : Gemma3.postTokenize l = .ok result)
  | llama4 (returned : AsEncoded Llama4.Returned l) (ok : Llama4.postTokenize l = .ok result)
  | mistral3 (ok : Mistral3.postTokenize l = .ok result)
  | qwen25vl (encode : Text → Bool → Except Text (List Int)) (returned : AsEncoded Qwen25vl.Returned l)
      (encodes : ∀ nImg, ∃ pre, encode (Qwen25vl.picture nImg) true = .ok pre)
      (ok : Qwen25vl.postTokenize encode l = .ok result)

theorem PostTokenized.arranged {l result : List Input} (h : PostTokenized l result)
    (hdim : ∀ inp ∈ l, ∀ mm ∈ inp.parts, 1 ≤ mm.tensor.dim 1) :
    ∃ placeholder, Arranged placeholder l result := by
  cases h with
  | gemma3 returned ok =>
    obtain ⟨blocks, hblocks, hemits⟩ := forall₂_emits fun inp hinp =>
      Gemma3.inputs_emits (returned inp hinp) (hdim inp hinp)
    rw [Gemma3.postTokenize, hblocks] at ok
    exact ⟨_, Except.ok.inj ok ▸ Vision.arranged hemits⟩
  | llama4 returned ok =>
    obtain ⟨blocks, hblocks, hemits⟩ := forall₂_emits fun inp hinp =>
      Llama4.inputs_emits (hdim inp hinp) (returned inp hinp)
    rw [Llama4.postTokenize, hblocks] at ok
    exact ⟨_, Except.ok.inj ok ▸ Vision.arranged hemits⟩
  | mistral3 ok =>
    obtain ⟨blocks, hblocks, hemits⟩ := forall₂_emits fun inp hinp => Mistral3.inputs_emits (hdim inp hinp)
    rw [Mistral3.postTokenize, hblocks] at ok
    exact ⟨_, Except.ok.inj ok ▸ Vision.arranged hemits⟩
  | qwen25vl encode returned encodes ok =>
    obtain ⟨blocks, hblocks, hemits⟩ := Qwen25vl.postTokenizeFrom_blocks encodes returned hdim 0
    exact ⟨_, Except.ok.inj (ok.symm.trans hblocks) ▸ Vision.arranged hemits⟩

/-- A sequence that `NewSequence` makes of a prompt with images. -/
def Prompted (numCtx : Nat) (seq : Runner.Sequence) : Prop := ∃ l result handle params,
  PostTokenized l result ∧ (∀ inp ∈ l, ∀ mm ∈ inp.parts, 1 ≤ mm.tensor.dim 1) ∧
    (∀ inp ∈ l, inp.parts = [] → inp.sameBatch = 0) ∧
    Runner.newSequence numCtx (result.map (·.toRunner handle)) params = .ok seq

end Ecco9.Vision
