import Ecco9.Library.Runs
import Ecco9.Server.Operations

/-! Every layer of every manifest that is written has its blob, as long as no blob is removed that an
operation counts on. -/

namespace Ecco9.Server

open Ecco9.Library

/-- The digests that the loop of `PullModel` is through with. -/
def Pull.keys (p : Pull) : List Text := p.skipVerify.map (·.1)

abbrev digests (ls : List Layer) : List Text := ls.map (·.digest)

/-- The digests that an operation has found or put in place and is going to write. -/
def Op.holds : Op → List Text
  | .stat p _ | .wait p _ _ | .verify p _ => p.keys
  | .arrived p l _ => l.digest :: p.keys
  | .build b _ | .place b _ _ _ | .placeConfig b _ => digests b.layers
  | .dropping _ _ kept ls _ | .dropped _ _ kept _ ls _ => digests (kept ++ ls)
  | .write b config => config.digest :: digests b.layers
  | _ => []

/-- A layer of the manifest is through with or still to come. -/
def Op.Covers : Op → Prop
  | .stat p todo => ∀ l ∈ p.manifest.named, l.digest ∈ p.keys ∨ l ∈ todo
  | .wait p l todo | .arrived p l todo =>
    ∀ l' ∈ p.manifest.named, l'.digest ∈ p.keys ∨ l' ∈ l :: todo
  | .verify p _ => ∀ l ∈ p.manifest.named, l.digest ∈ p.keys
  | _ => True

/-- The digests that a scan found in no manifest, and whose blobs an operation is about to remove. -/
def Op.unused : Op → List Text
  | .prune _ todo => todo
  | .dropped _ _ _ l _ _ | .cleaned l _ => [l.digest]
  | _ => []

/-- The digests whose blobs an operation is about to remove. -/
def Op.doomed : Op → List Text
  | .mismatch _ d => [d]
  | op => op.unused

def SameBlob (d d' : Text) : Prop := ∃ f, getBlobsPath d = some f ∧ getBlobsPath d' = some f

section

variable {sum256 : Bytes → Text} {fs : Files} {op op' : Op} {effect : Effect} {d : Text}

@[simp] theorem keys_got (p : Pull) (d : Text) (hit : Bool) : (p.got d hit).keys = d :: p.keys := rfl

theorem Moves.covers (h : Moves sum256 fs op effect op') (hop : op.Covers) : op'.Covers := by
  cases h
  case served => exact fun l hl => .inr hl
  case cached p l todo present =>
    intro l' hl'
    rcases hop l' hl' with hk | hk
    · exact .inl (List.mem_cons_of_mem _ hk)
    · rcases List.mem_cons.mp hk with rfl | hk
      · exact .inl List.mem_cons_self
      · exact .inr hk
  case missing => exact hop
  case arrived p l todo =>
    intro l' hl'
    rcases hop l' hl' with hk | hk
    · exact .inl (List.mem_cons_of_mem _ hk)
    · rcases List.mem_cons.mp hk with rfl | hk
      · exact .inl List.mem_cons_self
      · exact .inr hk
  case fetched => exact fun l hl => (hop l hl).resolve_right (by simp)
  case skipped => exact hop
  case verified => exact hop
  all_goals trivial

/-- What an operation counts on it counted on before, or has found, or has put in place. -/
theorem Moves.holds (h : Moves sum256 fs op effect op') (hd : d ∈ op'.holds) :
    d ∈ op.holds ∨ effect = .nothing ∧ Present fs d ∨
      ∃ f c, effect = .place f c ∧ getBlobsPath d = some f := by
  cases h
  case cached present =>
    rcases List.mem_cons.mp hd with rfl | hd
    · exact .inr (.inl ⟨rfl, present⟩)
    · exact .inl hd
  case «have» present =>
    simp only [Op.holds, digests, List.map_append, List.map_singleton, List.mem_append,
      List.mem_singleton] at hd
    rcases hd with hd | rfl
    · exact .inl hd
    · exact .inr (.inl ⟨rfl, present⟩)
  case place path =>
    simp only [Op.holds, digests, List.map_append, List.map_singleton, List.mem_append,
      List.mem_singleton] at hd
    rcases hd with hd | rfl
    · exact .inl hd
    · exact .inr (.inr ⟨_, _, rfl, path⟩)
  case haveConfig present =>
    rcases List.mem_cons.mp hd with rfl | hd
    · exact .inr (.inl ⟨rfl, present⟩)
    · exact .inl hd
  case placeConfig path =>
    rcases List.mem_cons.mp hd with rfl | hd
    · exact .inr (.inr ⟨_, _, rfl, path⟩)
    · exact .inl hd
  case used | unused =>
    simp only [Op.holds, digests, List.map_append, List.map_cons, List.mem_append] at hd ⊢
    exact .inl (hd.imp_right (List.mem_cons_of_mem _))
  case other | dropped => exact .inl (by simpa [Op.holds] using hd)
  case served => simp [Op.holds, Pull.keys] at hd
  all_goals first
    | exact .inl hd
    | exact absurd hd List.not_mem_nil

theorem removeBlob_ne_write (d name : Text) (m : Option Manifest) :
    removeBlob d ≠ .write name m := by
  rcases removeBlob_cases d with h | ⟨f, -, h⟩ <;> simp [h]

theorem named_holds {b : Build} {config l : Layer} (hl : l ∈ Manifest.named ⟨config, b.layers⟩) :
    l.digest ∈ (Op.write b config).holds := by
  rcases List.mem_append.mp hl with hl | hl
  · exact List.mem_cons_of_mem _ (List.mem_map_of_mem hl)
  · split at hl
    · simp at hl
    · rw [List.mem_singleton.mp hl]
      exact List.mem_cons_self

/-- A manifest that is written names what the operation counts on. -/
theorem Moves.write_named {name : Text} {m : Manifest}
    (h : Moves sum256 fs op (.write name (some m)) op') (hop : op.Covers) (l : Layer)
    (hl : l ∈ m.named) : l.digest ∈ op.holds := by
  generalize he : Effect.write name (some m) = effect at h
  cases h
  case writeManifest p =>
    cases he
    exact hop l hl
  case write b config ls =>
    cases he
    exact named_holds hl
  case prune | remove | clean => exact absurd he.symm (removeBlob_ne_write _ _ _)
  all_goals cases he

theorem Ends.write_named {name : Text} {m : Manifest}
    (h : Ends op (.write name (some m))) (l : Layer) (hl : l ∈ m.named) : l.digest ∈ op.holds := by
  generalize he : Effect.write name (some m) = effect at h
  cases h
  case write b config =>
    cases he
    exact named_holds hl
  case mismatch => exact absurd he.symm (removeBlob_ne_write _ _ _)
  all_goals cases he

theorem removeBlob_eq_remove {f : Text} (h : removeBlob d = .remove f) :
    getBlobsPath d = some f := by
  rcases removeBlob_cases d with hn | ⟨f', hf, hr⟩
  · rw [hn] at h
    cases h
  · rw [hr] at h
    cases h
    exact hf

/-- The blob that a step removes is one that its operation was about to remove. -/
theorem Moves.removes {f : Text} (h : Moves sum256 fs op (.remove f) op') :
    ∃ d ∈ op.doomed, getBlobsPath d = some f := by
  generalize he : Effect.remove f = effect at h
  cases h
  case prune decided => exact ⟨_, decided, removeBlob_eq_remove he.symm⟩
  case remove | clean => exact ⟨_, List.mem_cons_self, removeBlob_eq_remove he.symm⟩
  all_goals cases he

theorem Ends.removes {f : Text} (h : Ends op (.remove f)) :
    ∃ d ∈ op.doomed, getBlobsPath d = some f := by
  generalize he : Effect.remove f = effect at h
  cases h
  case mismatch => exact ⟨_, List.mem_cons_self, removeBlob_eq_remove he.symm⟩
  all_goals cases he

/-- What an operation is about to remove it was about to remove before, or a scan has just found it
unused, or it has just been found to be wrong. -/
theorem Moves.doomed (h : Moves sum256 fs op effect op') (hd : d ∈ op'.doomed) :
    d ∈ op.doomed ∨ effect = .nothing ∧ ∀ d' ∈ op'.unused, fs.uses d' = false := by
  cases h
  case scan =>
    exact .inr ⟨rfl, fun d' hd' => Bool.not_eq_true' .. ▸ (List.mem_filter.mp hd').2⟩
  case unused unused | cleanUnused unused =>
    exact .inr ⟨rfl, fun d' hd' => List.mem_singleton.mp hd' ▸ unused⟩
  case mismatch => exact .inr ⟨rfl, fun d' hd' => nomatch hd'⟩
  case prune | keep => exact .inl (List.mem_of_mem_erase hd)
  all_goals exact absurd hd List.not_mem_nil

/-- A digest that some manifest has is used. -/
theorem Files.uses_of_named {name : Text} {m : Manifest} {l : Layer}
    (hm : fs.manifest name = some m) (hl : l ∈ m.named) : fs.uses l.digest = true := by
  have hlookup : fs.manifests.lookup name = some (some m) := Option.join_eq_some_iff.mp hm
  obtain ⟨before, after, heq, -⟩ := List.lookup_eq_some_iff.mp hlookup
  have hall : l ∈ m.all := by
    rcases List.mem_append.mp hl with hl | hl
    · exact List.mem_append_left _ hl
    · split at hl
      · cases hl
      · exact List.mem_append_right _ hl
  refine List.any_eq_true.mpr ⟨(name, some m), by simp [heq], ?_⟩
  exact List.any_eq_true.mpr ⟨l, hall, decide_eq_true rfl⟩

end

/-- A manifest that was written names the layer. -/
def Names (s : State) (l : Layer) : Prop :=
  ∃ name ∈ s.written, ∃ m, s.files.manifest name = some m ∧ l ∈ m.named

/-- Every layer and config of the manifests that were written has its blob. -/
def Closed (s : State) : Prop := ∀ l, Names s l → Present s.files l.digest

/-- What an operation counts on is there, and what it is about to remove no manifest names. -/
structure Sound (s : State) (op : Op) : Prop where
  covers : op.Covers
  held : ∀ d ∈ op.holds, Present s.files d
  unnamed : ∀ d ∈ op.doomed, ∀ l, Names s l → ¬SameBlob l.digest d

/-- The operations do not get in the way of a step. -/
structure Undisturbed (s : State) (op : Op) (effect : Effect) (op' : Option Op) : Prop where
  /-- no operation counts on the blob that the step removes -/
  removed : ∀ f, effect = .remove f → ∀ j op, s.ops j = some op → ∀ d ∈ op.holds,
    getBlobsPath d ≠ some f
  /-- no operation is about to remove a blob that the manifest names -/
  written : ∀ name m, effect = .write name (some m) → ∀ l ∈ m.named, ∀ j op, s.ops j = some op →
    ∀ d ∈ op.doomed, ¬SameBlob l.digest d
  /-- what it decides to remove no manifest names, other than in the letters the scan looks for -/
  decided : ∀ op'', op' = some op'' → ∀ d ∈ op''.doomed, d ∉ op.doomed → ∀ l, Names s l →
    SameBlob l.digest d → l.digest ∈ op''.unused

def Spares (sum256 : Bytes → Text) (s : State) : Label → Prop
  | .act i e => ∀ op effect op', s.ops i = some op →
      act sum256 s.files op e = some (effect, op') → Undisturbed s op effect op'
  | _ => True

def SparingStep (sum256 : Bytes → Text) (s t : State) : Prop :=
  ∃ lab, step sum256 s lab = some t ∧ Spares sum256 s lab

section

variable {sum256 : Bytes → Text} {s t : State} {d : Text} {effect : Effect}

theorem Present.apply (h : Present s.files d)
    (spared : ∀ f, effect = .remove f → getBlobsPath d ≠ some f) :
    Present (s.apply effect).files d := by
  cases effect with
  | nothing => exact h
  | download => exact h
  | place f c => exact h.place f c
  | remove f => exact h.remove (spared f rfl)
  | write name m => cases m <;> exact h
  | unlink name => exact h

theorem names_of_ne {name other : Text} {l : Layer} {m : Manifest}
    (hother : other ∈ s.written.filter (· ≠ name))
    (hm : (if other = name then none else s.files.manifest other) = some m) (hl : l ∈ m.named) :
    Names s l := by
  obtain ⟨hw, hne⟩ := List.mem_filter.mp hother
  rw [if_neg (of_decide_eq_true hne)] at hm
  exact ⟨other, hw, m, hm, hl⟩

/-- A layer that is named was named before, or is in the manifest that the step writes. -/
theorem names_apply {l : Layer} (h : Names (s.apply effect) l) :
    Names s l ∨ ∃ name m, effect = .write name (some m) ∧ l ∈ m.named := by
  obtain ⟨other, hother, m, hm, hl⟩ := h
  cases effect with
  | nothing | download | place | remove => exact .inl ⟨other, hother, m, hm, hl⟩
  | write name m' =>
    cases m' with
    | none =>
      simp only [State.apply, Files.manifest_write] at hm
      exact .inl (names_of_ne hother hm hl)
    | some m' =>
      simp only [State.apply, Files.manifest_write] at hm
      by_cases hne : other = name
      · rw [if_pos hne] at hm
        cases hm
        exact .inr ⟨name, m, rfl, hl⟩
      · rw [if_neg hne] at hm
        exact .inl ⟨other, (List.mem_cons.mp hother).resolve_left hne, m, hm, hl⟩
  | unlink name =>
    simp only [State.apply, Files.manifest_unlink] at hm
    exact .inl (names_of_ne hother hm hl)

theorem step_act (i : Nat) (e : Event) (h : step sum256 s (.act i e) = some t) :
    ∃ op effect op', s.ops i = some op ∧ act sum256 s.files op e = some (effect, op') ∧
      t = (s.apply effect).setOp i op' := by
  simp only [step] at h
  split at h
  · cases h
  · rename_i op hop
    obtain ⟨⟨effect, op'⟩, hact, rfl⟩ := Option.map_eq_some_iff.mp h
    exact ⟨op, effect, op', hop, hact, rfl⟩

theorem wake_cases {d : Text} {ok : Bool} {op op' : Op} (h : State.wake d ok op = some op') :
    op' = op ∨ ok = true ∧ ∃ p l todo, l.digest = d ∧ op = .wait p l todo ∧
      op' = .arrived p l todo := by
  revert h
  fun_cases State.wake d ok op
  case case1 p l todo same hok =>
    intro h
    cases h
    exact .inr ⟨hok, p, l, todo, same, rfl, rfl⟩
  case case2 => exact fun h => nomatch h
  all_goals
    intro h
    cases h
    exact .inl rfl

theorem setOp_cases {i j : Nat} {op : Op} {op' : Option Op} (h : (s.setOp i op').ops j = some op) :
    j = i ∧ op' = some op ∨ j ≠ i ∧ s.ops j = some op := by
  unfold State.setOp at h
  by_cases hj : j = i
  · exact .inl ⟨hj, by simpa [hj] using h⟩
  · exact .inr ⟨hj, by simpa [hj] using h⟩

@[simp] theorem apply_ops (s : State) (effect : Effect) : (s.apply effect).ops = s.ops := by
  fun_cases State.apply s effect <;> rfl

theorem Sound.mono {op : Op} (sound : Sound s op) (names : ∀ l, Names t l → Names s l)
    (present : ∀ d ∈ op.holds, Present s.files d → Present t.files d) : Sound t op where
  covers := sound.covers
  held d hd := present d hd (sound.held d hd)
  unnamed d hd l hl := sound.unnamed d hd l (names l hl)

theorem Sound.apply {op : Op} (sound : Sound s op)
    (removed : ∀ f, effect = .remove f → ∀ d ∈ op.holds, getBlobsPath d ≠ some f)
    (written : ∀ name m, effect = .write name (some m) → ∀ l ∈ m.named, ∀ d ∈ op.doomed,
      ¬SameBlob l.digest d) : Sound (s.apply effect) op where
  covers := sound.covers
  held d hd := (sound.held d hd).apply fun f hf => removed f hf d hd
  unnamed d hd l hl := by
    rcases names_apply hl with hl | ⟨name, m, hw, hl⟩
    · exact sound.unnamed d hd l hl
    · exact written name m hw l hl d hd

/-- The operation that makes an undisturbed step. -/
theorem Moves.sound {op op' : Op} (moves : Moves sum256 s.files op effect op') (sound : Sound s op)
    (after : Sound (s.apply effect) op) (undisturbed : Undisturbed s op effect (some op')) :
    Sound (s.apply effect) op' where
  covers := moves.covers sound.covers
  held d hd := by
    rcases moves.holds hd with held | ⟨rfl, present⟩ | ⟨f, c, rfl, hf⟩
    · exact after.held d held
    · exact present
    · exact present_place_self hf
  unnamed d hd l hl same := by
    by_cases old : d ∈ op.doomed
    · exact after.unnamed d old l hl same
    · obtain ⟨rfl, unused⟩ := (moves.doomed hd).resolve_left old
      have looked := undisturbed.decided op' rfl d hd old l hl same
      obtain ⟨name, -, m, hm, hlm⟩ := hl
      have used : s.files.uses l.digest = true := Files.uses_of_named hm hlm
      exact absurd used (by simp [unused _ looked])

theorem closed_apply {op : Op} (closed : Closed s) (sound : Sound s op)
    (removes : ∀ f, effect = .remove f → ∃ d ∈ op.doomed, getBlobsPath d = some f)
    (writes : ∀ name m, effect = .write name (some m) → ∀ l ∈ m.named, l.digest ∈ op.holds) :
    Closed (s.apply effect) := by
  intro l hl
  rcases names_apply hl with before | ⟨name, m, rfl, now⟩
  · refine (closed l before).apply fun f hf hp => ?_
    obtain ⟨d, hd, hpd⟩ := removes f hf
    exact sound.unnamed d hd l before ⟨f, hp, hpd⟩
  · exact (sound.held _ (writes name m rfl l now)).apply fun f hf => nomatch hf

/-- What one step keeps. -/
theorem step_closed (lab : Label) (sound : ∀ i op, s.ops i = some op → Sound s op)
    (closed : Closed s) (spares : Spares sum256 s lab) (h : step sum256 s lab = some t) :
    (∀ i op, t.ops i = some op → Sound t op) ∧ Closed t := by
  cases lab with
  | start i op =>
    simp only [step] at h
    split at h
    case isFalse => cases h
    case isTrue first =>
      cases h
      refine ⟨fun j op' hj => ?_, closed⟩
      rcases setOp_cases hj with ⟨-, heq⟩ | ⟨-, hj⟩
      · cases heq
        obtain ⟨-, hfirst⟩ := first
        cases op <;>
          first
          | (cases hfirst; done)
          | exact ⟨trivial, fun d hd => (nomatch hd), fun d hd => (nomatch hd)⟩
      · exact (sound j op' hj).mono (fun l hl => hl) fun d hd present => present
  | act i e =>
    obtain ⟨op, effect, op', hop, hact, rfl⟩ := step_act i e h
    have undisturbed := spares op effect op' hop hact
    have after : ∀ j opj, s.ops j = some opj → Sound (s.apply effect) opj := fun j opj hj =>
      (sound j opj hj).apply (fun f hf => undisturbed.removed f hf j opj hj)
        fun name m hw l hl => undisturbed.written name m hw l hl j opj hj
    constructor
    · intro j opj hj
      rcases setOp_cases hj with ⟨-, rfl⟩ | ⟨-, hj⟩
      · exact ((act_moves hact).sound (sound i op hop) (after i op hop) undisturbed).mono
          (fun l hl => hl) fun d hd present => present
      · rw [apply_ops] at hj
        exact (after j opj hj).mono (fun l hl => hl) fun d hd present => present
    · cases op' with
      | none =>
        have ends := act_ends hact
        exact closed_apply closed (sound i op hop) (fun f hf => (hf ▸ ends).removes)
          fun name m hw => (hw ▸ ends).write_named
      | some op' =>
        have moves := act_moves hact
        exact closed_apply closed (sound i op hop) (fun f hf => (hf ▸ moves).removes)
          fun name m hw => (hw ▸ moves).write_named (sound i op hop).covers
  | abort i =>
    simp only [step] at h
    split at h
    case isFalse => cases h
    case isTrue =>
      cases h
      refine ⟨fun j op' hj => ?_, closed⟩
      rcases setOp_cases hj with ⟨-, heq⟩ | ⟨-, hj⟩
      · cases heq
      · exact (sound j op' hj).mono (fun l hl => hl) fun d hd present => present
  | land d c =>
    simp only [step] at h
    split at h
    · cases h
    · rename_i f hf
      split at h
      case isFalse => cases h
      case isTrue =>
        cases h
        refine ⟨fun j op' hj => ?_, fun l hl => (closed l hl).place f c⟩
        obtain ⟨op, hop, hwake⟩ := Option.bind_eq_some_iff.mp hj
        have hsound := sound j op hop
        rcases wake_cases hwake with rfl | ⟨-, p, l, todo, same, rfl, rfl⟩
        · exact hsound.mono (fun l hl => hl) fun d hd present => present.place f c
        · refine ⟨hsound.covers, fun d' hd' => ?_, fun d' hd' => nomatch hd'⟩
          rcases List.mem_cons.mp hd' with rfl | hd'
          · exact present_place_self (same ▸ hf)
          · exact (hsound.held d' hd').place f c
  | lose d =>
    simp only [step] at h
    split at h
    case isFalse => cases h
    case isTrue =>
      cases h
      refine ⟨fun j op' hj => ?_, closed⟩
      obtain ⟨op, hop, hwake⟩ := Option.bind_eq_some_iff.mp hj
      rcases wake_cases hwake with rfl | ⟨hok, -⟩
      · exact (sound j op' hop).mono (fun l hl => hl) fun d hd present => present
      · cases hok

/-- In every interleaving of operations that do not get in the way of each other's steps, the blobs of
all manifests that are written are there. -/
theorem run_keeps_blobs (fs : Files)
    (run : Relation.ReflTransGen (SparingStep sum256) { files := fs } t) : Closed t := by
  refine (run_invariant (I := fun s => (∀ i op, s.ops i = some op → Sound s op) ∧ Closed s)
    ?_ run ?_).2
  · rintro s t hs ⟨lab, hstep, spares⟩
    exact step_closed lab hs.1 hs.2 spares hstep
  · exact ⟨fun i op h => (nomatch h), fun l ⟨name, h, _⟩ => (nomatch h)⟩

end

/-! ### A model created from one that is deleted -/

def licenseSum : Text := ascii "6b86b273ff34fce19d6b804eff5a3f5747ada4eaa22f1d49c01e52ddb7875b4b"

def configSum : Text := ascii "60dae41351d0cd83e2c7c5b632fbde1bca793795c1d7d1de218ac57b52409dc6"

/-- The config of a model whose only layer is the license `1`. -/
def licenseConfig : Bytes :=
  ascii "\x7b\"model_format\":\"\",\"model_family\":\"\",\"model_families\":null,\"model_type\":\"\"," ++
    ascii "\"file_type\":\"\",\"architecture\":\"amd64\",\"os\":\"linux\"," ++
    ascii "\"rootfs\":\x7b\"type\":\"layers\",\"diff_ids\":[\"sha256:" ++ licenseSum ++
    ascii "\"]\x7d\x7d\n"

/-- The sums of the license `1` and of the config. -/
def sumsOfLicense (content : Bytes) : Text :=
  if content = ascii "1" then licenseSum else configSum

def licenseLayer : Layer :=
  ⟨ascii "application/vnd.ollama.image.license", digestOf sumsOfLicense (ascii "1")⟩

def configLayer : Layer :=
  ⟨ascii "application/vnd.docker.container.image.v1+json", digestOf sumsOfLicense licenseConfig⟩

/-- The model `b` with the license `1` as its only layer. -/
def licensedFiles : Files :=
  (({ manifests := [(ascii "b", some ⟨configLayer, [licenseLayer]⟩)] } : Files).place
    (ascii "sha256-" ++ licenseSum) (ascii "1")).place (ascii "sha256-" ++ configSum) licenseConfig

/-- The model `a`, with the layers of `b`. -/
def licensedBuild (layers : List Layer) : Build := ⟨ascii "a", licenseConfig, none, layers⟩

theorem path_license : getBlobsPath licenseLayer.digest = some (ascii "sha256-" ++ licenseSum) :=
  getBlobsPath_sha256 rfl (by decide)

theorem path_config : getBlobsPath configLayer.digest = some (ascii "sha256-" ++ configSum) :=
  getBlobsPath_sha256 rfl (by decide)

theorem sums_ne : ascii "sha256-" ++ configSum ≠ ascii "sha256-" ++ licenseSum := by decide

theorem blobs_config :
    licensedFiles.blobs (ascii "sha256-" ++ configSum) = some licenseConfig :=
  Files.blobs_place_self ..

theorem blobs_license : licensedFiles.blobs (ascii "sha256-" ++ licenseSum) = some (ascii "1") :=
  (Files.blobs_place_of_ne _ _ sums_ne.symm).trans (Files.blobs_place_self ..)

theorem take_license (b : Build) (todo : List Instruction) :
    act sumsOfLicense licensedFiles (.build b (.take licenseLayer :: todo)) .go =
      some (.nothing, some (.build { b with layers := b.layers ++ [licenseLayer] } todo)) := by
  have present : licensedFiles.blob licenseLayer.digest = some (ascii "1") := by
    rw [Files.blob, path_license, Option.bind_some, blobs_license]
  simp [act, actBuild, present]

/-- The config is found, also when the license is gone. -/
theorem have_config (fs : Files) (layers : List Layer)
    (found : fs.blobs (ascii "sha256-" ++ configSum) = some licenseConfig) :
    act sumsOfLicense fs (.build (licensedBuild layers) []) .go =
      some (.nothing, some (.write (licensedBuild layers) configLayer)) := by
  have path : getBlobsPath (digestOf sumsOfLicense (licensedBuild layers).config) =
      some (ascii "sha256-" ++ configSum) := path_config
  simp only [act, actMake, path, found]
  rfl

section

variable {sum256 : Bytes → Text} {s t : State} {i : Nat} {labels : List Label}

/-- No removal is decided. -/
def Quiet (s : State) : Prop := ∀ j op, s.ops j = some op → op.doomed = []

theorem run_start {op : Op} (h : (s.ops i).isNone ∧ op.isFirst)
    (next : run sum256 (s.setOp i (some op)) labels = some t) :
    run sum256 s (.start i op :: labels) = some t := by
  rw [run, List.foldlM_cons, step, if_pos h]
  exact next

/-- Nothing is in the way of a step that removes nothing while no removal is decided. -/
theorem Quiet.step (quiet : Quiet s) (i : Nat) (e : Event) (op : Op) (effect : Effect) (op' : Option Op)
    (hop : s.ops i = some op) (hact : act sum256 s.files op e = some (effect, op'))
    (removes : ∀ f, effect ≠ .remove f) (after : ∀ op'', op' = some op'' → op''.doomed = [])
    (next : Quiet ((s.apply effect).setOp i op') →
      Relation.ReflTransGen (SparingStep sum256) ((s.apply effect).setOp i op') t) :
    Relation.ReflTransGen (SparingStep sum256) s t := by
  refine .head ⟨.act i e, by simp only [Server.step, hop, hact, Option.map_some], ?_⟩ (next ?_)
  · intro op₂ effect₂ op₂' hop₂ hact₂
    cases hop.symm.trans hop₂
    cases hact.symm.trans hact₂
    exact {
      removed f hf := absurd hf (removes f)
      written name m _ l _ j opj hj d hd := by simp [quiet j opj hj] at hd
      decided op'' hop'' d hd := by simp [after op'' hop''] at hd
    }
  · intro j op hj
    rcases setOp_cases hj with ⟨-, hj⟩ | ⟨-, hj⟩
    · exact after op hj
    · exact quiet j op (apply_ops s effect ▸ hj)

theorem run_act {e : Event} (op : Op) (effect : Effect) (op' : Option Op) (hop : s.ops i = some op)
    (hact : act sum256 s.files op e = some (effect, op'))
    (next : run sum256 ((s.apply effect).setOp i op') labels = some t) :
    run sum256 s (.act i e :: labels) = some t := by
  simp only [run, List.foldlM_cons, step, hop, hact]
  exact next

end

/-- Alone, the creation of `a` leaves it with its layer and its config. -/
theorem created_alone : ∃ t, Closed t ∧ t.written = [ascii "a"] ∧
    t.files.manifest (ascii "a") = some ⟨configLayer, [licenseLayer]⟩ := by
  let create : Op := .create (licensedBuild []) (createModel {} [.take licenseLayer])
  let start : State := ({ files := licensedFiles } : State).setOp 0 (some create)
  have quiet : Quiet start := fun j op hj => by
    rcases setOp_cases hj with ⟨-, hj⟩ | ⟨-, hj⟩
    · cases hj
      rfl
    · cases hj
  have continues : ∀ op' : Op, op'.doomed = [] → ∀ op'', some op' = some op'' → op''.doomed = [] :=
    fun op' h op'' heq => Option.some.inj heq ▸ h
  refine ⟨_, run_keeps_blobs licensedFiles <|
    .head ⟨.start 0 create, rfl, trivial⟩ <|
    quiet.step 0 .go create .nothing (some (.build (licensedBuild []) [.take licenseLayer])) rfl rfl nofun
      (continues _ rfl) fun quiet =>
    quiet.step 0 .go _ .nothing (some (.build (licensedBuild [licenseLayer]) [])) rfl
      (take_license _ _) nofun (continues _ rfl) fun quiet =>
    quiet.step 0 .go _ .nothing (some (.write (licensedBuild [licenseLayer]) configLayer)) rfl
      (have_config _ _ blobs_config) nofun (continues _ rfl) fun quiet =>
    quiet.step 0 .go _ (.write (ascii "a") (some ⟨configLayer, [licenseLayer]⟩)) none rfl rfl nofun nofun
      fun _ => .refl, rfl, rfl⟩

/-- While `a` is created, `b` is deleted with the layer that `a` takes from it. -/
theorem created_without_layer : ∃ t, run sumsOfLicense { files := licensedFiles }
    [.start 0 (.create (licensedBuild []) (createModel {} [.take licenseLayer])),
      .act 0 .go, .act 0 .go,
      .start 1 (.delete (ascii "b")), .act 1 .go, .act 1 .go, .act 1 .go, .act 1 .go,
      .act 0 .go, .act 0 .go] = some t ∧ ¬Closed t := by
  have hremove : removeBlob licenseLayer.digest = .remove (ascii "sha256-" ++ licenseSum) := by
    rw [removeBlob, path_license]
  have rest : ((licensedFiles.unlink (ascii "b")).remove (ascii "sha256-" ++ licenseSum)).blobs
      (ascii "sha256-" ++ configSum) = some licenseConfig :=
    (Files.blobs_remove_of_ne _ sums_ne).trans blobs_config
  refine ⟨_,
    run_start ⟨rfl, rfl⟩ <|
    run_act _ .nothing (some (.build (licensedBuild []) [.take licenseLayer])) rfl rfl <|
    run_act _ .nothing (some (.build (licensedBuild [licenseLayer]) [])) rfl (take_license _ _) <|
    run_start ⟨rfl, rfl⟩ <|
    run_act _ .nothing (some (.unlink (ascii "b") ⟨configLayer, [licenseLayer]⟩)) rfl rfl <|
    run_act _ (.unlink (ascii "b")) (some (.clean [licenseLayer, configLayer])) rfl rfl <|
    run_act _ .nothing (some (.cleaned licenseLayer [configLayer])) rfl rfl <|
    run_act _ (.remove (ascii "sha256-" ++ licenseSum)) (some (.clean [configLayer])) rfl
      (congrArg (fun effect => some (effect, _)) hremove) <|
    run_act _ .nothing (some (.write (licensedBuild [licenseLayer]) configLayer)) rfl
      (have_config _ _ rest) <|
    run_act _ (.write (ascii "a") (some ⟨configLayer, [licenseLayer]⟩)) none rfl rfl rfl, ?_⟩
  intro closed
  obtain ⟨c, hc⟩ := closed licenseLayer
    ⟨ascii "a", List.mem_cons_self, ⟨configLayer, [licenseLayer]⟩, rfl, List.mem_cons_self⟩
  obtain ⟨f, hf, hc⟩ := Option.bind_eq_some_iff.mp hc
  cases path_license.symm.trans hf
  simp [State.setOp, State.apply, Files.remove, Files.write, Files.unlink] at hc

end Ecco9.Server
