import Ecco9.Library.Search
import Ecco9.Prompt.Template
import Mathlib.Algebra.GroupWithZero.Nat
import Mathlib.Order.Bounds.Basic

/-! `server/prompt.go`: the messages of a chat that fit into the context, and their images. -/

namespace Ecco9.Prompt

open Ecco9.Library

structure ImageData where
  id : Nat
  data : Text
  deriving DecidableEq

/-- What `chatPrompt` reads of a model. -/
structure ChatModel where
  hasProjectors : Bool
  modelFamilies : List Text

inductive ChatError
  | onlyOneImage
  /-- the slice of the messages from -1 on -/
  | outOfRange
  deriving DecidableEq

def imageNumTokens : Nat := 768

/-- `[img-%d]` -/
def imgTag (id : Nat) : Text := ascii "[img-" ++ ascii (toString id) ++ ascii "]"

/-- One image of a message: its tag takes the place of the first `[img]`, or stands before the text. -/
def tagImage (text : Text × Text) (id : Nat) : Text × Text :=
  match cut (ascii "[img]") text.2 with
  | some (before, after) => (text.1, before ++ imgTag id ++ after)
  | none => (text.1 ++ imgTag id, text.2)

section
variable (m : ChatModel) (render : List Message → Text) (tokenize : Text → List Int) (numCtx : Int)
  (msgs : List Message)

/-- The system messages before a position. -/
def systemBefore (i : Nat) : List Message := (msgs.take i).filter (·.role = .system)

def ctxLen (i : Nat) : Nat :=
  (tokenize (render (systemBefore msgs i ++ msgs.drop i))).length +
    if m.hasProjectors then ((msgs.drop i).map fun msg => imageNumTokens * msg.images.length).sum else 0

/-- The loop over the positions below one, last first: where the messages that fit begin, and the system
messages of the position that was looked at last. -/
def fitFrom : Nat → Nat × List Message → Nat × List Message
  | 0, state => state
  | i + 1, (n, _) =>
    let system := systemBefore msgs i
    if (ctxLen m render tokenize msgs i : Int) > numCtx then (n, system)
    else fitFrom i (i, system)

/-- The images and the text of a message. -/
def tagMessage (images : List ImageData) (msg : Message) :
    Except ChatError (List ImageData × Message) :=
  if m.modelFamilies.contains (ascii "mllama") ∧ msg.images.length > 1 then .error .onlyOneImage
  else
    let (images, text) := msg.images.foldl
      (fun (images, text) data =>
        let imgData : ImageData := ⟨images.length, data⟩
        (images ++ [imgData], tagImage text imgData.id))
      (images, (([] : Text), msg.content))
    .ok (images, { msg with content := text.1 ++ text.2 })

def tagMessages (images : List ImageData) :
    List Message → Except ChatError (List ImageData × List Message)
  | [] => .ok (images, [])
  | msg :: msgs => do
    let (images, msg) ← tagMessage m images msg
    let (images, msgs) ← tagMessages images msgs
    return (images, msg :: msgs)

/-- The messages that the prompt is rendered from, and the images. -/
def chatMessages : Except ChatError (List Message × List ImageData) :=
  match msgs.length with
  | 0 => .error .outOfRange
  | n + 1 => do
    let (currMsgIdx, system) := fitFrom m render tokenize numCtx msgs n (n, [])
    let (images, kept) ← tagMessages m [] (msgs.drop currMsgIdx)
    return (system ++ kept, images)

def chatPrompt : Except ChatError (Text × List ImageData) :=
  (chatMessages m render tokenize numCtx msgs).map fun (msgs, images) => (render msgs, images)

end

/-! ### Where the messages begin -/

section
variable (m : ChatModel) (render : List Message → Text) (tokenize : Text → List Int) (numCtx : Int)
  (msgs : List Message)

/-- The messages from a position on fit into the context, with the system messages before. -/
def Fits (i : Nat) : Prop := (ctxLen m render tokenize msgs i : Int) ≤ numCtx

/-- The smallest position such that all suffixes from there up to the last but one fit. -/
def IsCut (n : Nat) : Prop :=
  IsLeast {n | n < msgs.length ∧
    ∀ i, n ≤ i → i + 1 < msgs.length → Fits m render tokenize numCtx msgs i} n

end

/-- The text of a message whose images are numbered from `start` on. -/
def tagged (start : Nat) (msg : Message) : Message :=
  let text := (List.range' start msg.images.length).foldl tagImage ([], msg.content)
  { msg with content := text.1 ++ text.2 }

/-- Messages with their images numbered one after another. -/
def taggedFrom : Nat → List Message → List Message
  | _, [] => []
  | start, msg :: msgs => tagged start msg :: taggedFrom (start + msg.images.length) msgs

def numbered (start : Nat) (data : List Text) : List ImageData :=
  (data.zipIdx start).map fun (data, id) => ⟨id, data⟩

section
variable {m : ChatModel} {render : List Message → Text} {tokenize : Text → List Int} {numCtx : Int}
  {msgs : List Message}

theorem IsCut.unique {n n' : Nat} (h : IsCut m render tokenize numCtx msgs n)
    (h' : IsCut m render tokenize numCtx msgs n') : n = n' := IsLeast.unique h h'

variable (m render tokenize numCtx) in
/-- The loop ends at the first position that does not fit, with the system messages before it. -/
theorem fitFrom_spec {k : Nat} {system : List Message} (hsystem : k = 0 → system = [])
    (hk : k < msgs.length)
    (h : ∀ i, k ≤ i → i + 1 < msgs.length → Fits m render tokenize numCtx msgs i) :
    ∃ n, fitFrom m render tokenize numCtx msgs k (k, system) = (n, systemBefore msgs (n - 1)) ∧
      IsCut m render tokenize numCtx msgs n := by
  induction k generalizing system with
  | zero =>
    refine ⟨0, ?_, ⟨hk, h⟩, fun n _ => n.zero_le⟩
    rw [fitFrom, hsystem rfl]
    rfl
  | succ k ih =>
    rw [fitFrom]
    by_cases hfits : Fits m render tokenize numCtx msgs k
    · rw [if_neg (not_lt.mpr hfits)]
      refine ih (fun hzero => ?_) (by omega) fun i hi hlast => ?_
      · rw [hzero]
        rfl
      · rcases Nat.eq_or_lt_of_le hi with rfl | hlt
        · exact hfits
        · exact h i hlt hlast
    · rw [if_pos (not_le.mp hfits)]
      refine ⟨k + 1, rfl, ⟨hk, h⟩, fun n hn => ?_⟩
      by_contra hlt
      exact hfits (hn.2 k (by omega) hk)

/-! ### Images -/

theorem length_numbered (start : Nat) (data : List Text) :
    (numbered start data).length = data.length := by
  rw [numbered, List.length_map, List.length_zipIdx]

theorem numbered_append (start : Nat) (data data' : List Text) :
    numbered start (data ++ data') = numbered start data ++ numbered (start + data.length) data' := by
  rw [numbered, List.zipIdx_append, List.map_append]
  rfl

/-- The images of a message are numbered on. -/
theorem foldl_tagImage (data : List Text) (images : List ImageData) (text : Text × Text) :
    data.foldl (fun (images, text) data =>
        let imgData : ImageData := ⟨images.length, data⟩
        (images ++ [imgData], tagImage text imgData.id)) (images, text) =
      (images ++ numbered images.length data,
        (List.range' images.length data.length).foldl tagImage text) := by
  induction data generalizing images text with
  | nil => simp [numbered]
  | cons d data ih =>
    rw [List.foldl_cons, ih]
    simp [numbered, List.range'_succ]

theorem tagMessage_eq (images : List ImageData) (msg : Message) :
    tagMessage m images msg =
      if m.modelFamilies.contains (ascii "mllama") ∧ msg.images.length > 1 then .error .onlyOneImage
      else .ok (images ++ numbered images.length msg.images, tagged images.length msg) := by
  rw [tagMessage, foldl_tagImage]
  rfl

/-- One of the messages has more images than the model takes. -/
def Refused (m : ChatModel) (msgs : List Message) : Prop :=
  m.modelFamilies.contains (ascii "mllama") ∧ ∃ msg ∈ msgs, msg.images.length > 1

instance (m : ChatModel) (msgs : List Message) : Decidable (Refused m msgs) :=
  inferInstanceAs (Decidable (_ ∧ _))

theorem tagMessages_eq (images : List ImageData) (msgs : List Message) :
    tagMessages m images msgs = if Refused m msgs then .error .onlyOneImage
      else .ok (images ++ numbered images.length (msgs.flatMap (·.images)),
        taggedFrom images.length msgs) := by
  induction msgs generalizing images with
  | nil => simp [tagMessages, Refused, numbered, taggedFrom]
  | cons msg msgs ih =>
    rw [tagMessages, tagMessage_eq]
    by_cases hmsg : m.modelFamilies.contains (ascii "mllama") ∧ msg.images.length > 1
    · have hrefused : Refused m (msg :: msgs) := ⟨hmsg.1, msg, by simp, hmsg.2⟩
      rw [if_pos hmsg, if_pos hrefused]
      rfl
    · have hiff : Refused m (msg :: msgs) ↔ Refused m msgs := by
        simp only [Refused, List.exists_mem_cons_iff, and_or_left]
        exact or_iff_right hmsg
      rw [if_neg hmsg]
      simp only [bind, Except.bind, ih, List.length_append, length_numbered]
      by_cases hrest : Refused m msgs
      · rw [if_pos hrest, if_pos (hiff.mpr hrest)]
      · rw [if_neg hrest, if_neg (hrest ∘ hiff.mp), List.flatMap_cons, numbered_append,
          List.append_assoc]
        rfl

end

/-! ### What is kept -/

section
variable (m : ChatModel) (render : List Message → Text) (tokenize : Text → List Int) (numCtx : Int)
  (msgs : List Message)

/-- The prompt has all system messages before a position, which is the first from which all suffixes fit,
and the messages from there on, with their images numbered one after another. -/
def Keeps : Prop :=
  ∃ n, IsCut m render tokenize numCtx msgs n ∧
    chatMessages m render tokenize numCtx msgs =
      if Refused m (msgs.drop n) then .error .onlyOneImage
      else .ok (systemBefore msgs n ++ taggedFrom 0 (msgs.drop n),
        numbered 0 ((msgs.drop n).flatMap (·.images)))

end

section
variable {m : ChatModel} {render : List Message → Text} {tokenize : Text → List Int} {numCtx : Int}
  {msgs : List Message}

theorem systemBefore_succ {j : Nat} {msg : Message} (h : msgs[j]? = some msg) :
    systemBefore msgs (j + 1) = systemBefore msgs j ++ if msg.role = .system then [msg] else [] := by
  rw [systemBefore, systemBefore, List.take_add_one, h, Option.toList_some, List.filter_append]
  by_cases hrole : msg.role = .system <;> simp [hrole]

theorem systemBefore_pred {n : Nat} (hn : n < msgs.length) :
    systemBefore msgs (n - 1) = systemBefore msgs n ↔
      ∀ j msg, n = j + 1 → msgs[j]? = some msg → msg.role ≠ .system := by
  cases n with
  | zero => simp
  | succ j =>
    have hget : msgs[j]? = some msgs[j] := List.getElem?_eq_getElem (by omega)
    rw [Nat.add_sub_cancel, systemBefore_succ hget]
    by_cases hrole : msgs[j].role = .system
    · rw [if_pos hrole]
      exact iff_of_false (by simp) fun hall => hall j _ rfl hget hrole
    · rw [if_neg hrole, List.append_nil]
      refine iff_of_true rfl fun i msg hi hmsg => ?_
      obtain rfl := Nat.succ.inj hi
      rwa [← Option.some.inj (hget.symm.trans hmsg)]

variable (m render tokenize numCtx) in
theorem chatMessages_eq (hne : msgs ≠ []) :
    ∃ n, IsCut m render tokenize numCtx msgs n ∧
      chatMessages m render tokenize numCtx msgs =
        if Refused m (msgs.drop n) then .error .onlyOneImage
        else .ok (systemBefore msgs (n - 1) ++ taggedFrom 0 (msgs.drop n),
          numbered 0 ((msgs.drop n).flatMap (·.images))) := by
  rw [chatMessages]
  cases hlen : msgs.length with
  | zero => exact absurd (List.length_eq_zero_iff.mp hlen) hne
  | succ k =>
    obtain ⟨n, hfit, hcut⟩ := fitFrom_spec m render tokenize numCtx (fun _ => rfl)
      (by omega : k < msgs.length) fun i hi hlast => by omega
    refine ⟨n, hcut, ?_⟩
    dsimp only
    rw [hfit]
    dsimp only
    rw [tagMessages_eq]
    split_ifs <;> rfl

/-- The prompt is as promised iff there is a message, and the one before the position is no system
message, unless the request is refused. -/
theorem chatPrompt_keeps (m : ChatModel) (render : List Message → Text) (tokenize : Text → List Int)
    (numCtx : Int) (msgs : List Message) :
    Keeps m render tokenize numCtx msgs ↔
      ∃ n, IsCut m render tokenize numCtx msgs n ∧
        (Refused m (msgs.drop n) ∨
          ∀ j msg, n = j + 1 → msgs[j]? = some msg → msg.role ≠ .system) := by
  have hpart {n : Nat} (hcut : IsCut m render tokenize numCtx msgs n) :
      chatMessages m render tokenize numCtx msgs =
        (if Refused m (msgs.drop n) then .error .onlyOneImage
        else .ok (systemBefore msgs n ++ taggedFrom 0 (msgs.drop n),
          numbered 0 ((msgs.drop n).flatMap (·.images)))) ↔
      Refused m (msgs.drop n) ∨
        ∀ j msg, n = j + 1 → msgs[j]? = some msg → msg.role ≠ .system := by
    have hne : msgs ≠ [] := List.ne_nil_of_length_pos (by have := hcut.1.1; omega)
    obtain ⟨n', hcut', heq⟩ := chatMessages_eq m render tokenize numCtx hne
    obtain rfl := hcut.unique hcut'
    rw [heq, ← systemBefore_pred hcut.1.1]
    by_cases hrefused : Refused m (msgs.drop n)
    · rw [if_pos hrefused, if_pos hrefused]
      exact iff_of_true rfl (.inl hrefused)
    · rw [if_neg hrefused, if_neg hrefused, or_iff_right hrefused, Except.ok.injEq,
        Prod.mk.injEq, List.append_left_inj]
      exact and_iff_left rfl
  constructor
  · rintro ⟨n, hcut, heq⟩
    exact ⟨n, hcut, (hpart hcut).mp heq⟩
  · rintro ⟨n, hcut, h⟩
    exact ⟨n, hcut, (hpart hcut).mpr h⟩

end

/-- Templates that write the contents one after another, and tokens of one byte. -/
def bareRender (msgs : List Message) : Text := msgs.flatMap (·.content)

def byteTokens (s : Text) : List Int := s.map fun b => b.toNat

def lateSystem : List Message :=
  [⟨.user, ascii "a", []⟩, ⟨.system, ascii "Be brief.", []⟩, ⟨.user, ascii "b", []⟩]

/-- A system message that does not fit is left out, if it is the one before the cut. -/
theorem lateSystem_lost :
    chatMessages ⟨false, []⟩ bareRender byteTokens 4 lateSystem =
        .ok ([⟨.user, ascii "b", []⟩], []) ∧
      ¬Keeps ⟨false, []⟩ bareRender byteTokens 4 lateSystem := by
  have hmessages : chatMessages ⟨false, []⟩ bareRender byteTokens 4 lateSystem =
      .ok ([⟨.user, ascii "b", []⟩], []) := by decide +kernel
  refine ⟨hmessages, ?_⟩
  rintro ⟨n, ⟨⟨hn, -⟩, -⟩, heq⟩
  rw [hmessages, if_neg (by simp [Refused])] at heq
  have hlist := congrArg Prod.fst (Except.ok.inj heq)
  -- a system message is missing wherever the messages begin
  have hall : ∀ n < lateSystem.length,
      [⟨.user, ascii "b", []⟩] ≠ systemBefore lateSystem n ++ taggedFrom 0 (lateSystem.drop n) := by
    decide +kernel
  exact hall n hn hlist

end Ecco9.Prompt
