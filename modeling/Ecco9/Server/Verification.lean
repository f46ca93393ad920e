import Ecco9.Server.Closure

/-! What `PullModel` vouches for when one call runs after the other: the blobs of the manifest that it
wrote have the content that their digests say, as long as no call leaves a blob unchecked. -/

namespace Ecco9.Server

open Ecco9.Library

section

variable (sum256 : Bytes → Text) (fs : Files)

/-- A blob file that has other content than its name says. -/
def Wrong (f : Text) : Prop := ∃ c, fs.blobs f = some c ∧ f ≠ ascii "sha256-" ++ sum256 c

def AllRight : Prop := ∀ f, ¬Wrong sum256 fs f

/-- Each wrong blob is one of a layer that is downloaded, will be checked, and is not met again. -/
def Accounted (p : Pull) (todo : List Layer) : Prop :=
  ∀ f, Wrong sum256 fs f → ∃ l ∈ p.manifest.named, getBlobsPath l.digest = some f ∧
    p.skipVerify.lookup l.digest = some false ∧ l.digest ∉ digests todo

/-- The manifest is written and all its blobs are there. -/
def Complete (p : Pull) : Prop :=
  fs.manifest p.name = some p.manifest ∧ ∀ l ∈ p.manifest.named, Present fs l.digest

/-- The wrong blobs that there can be at each point of a call. -/
def Op.Vouched : Op → Prop
  | .pull _ | .fetch _ _ => AllRight sum256 fs
  | .stat p todo => todo ⊆ p.manifest.named ∧ Accounted sum256 fs p todo
  | .wait p l todo => l :: todo ⊆ p.manifest.named ∧ Accounted sum256 fs p (l :: todo)
  | .arrived p l todo =>
    l :: todo ⊆ p.manifest.named ∧ Accounted sum256 fs (p.got l.digest false) todo
  | .verify p todo => ∀ f, Wrong sum256 fs f →
    ∃ l ∈ todo, getBlobsPath l.digest = some f ∧ p.skipVerify.lookup l.digest = some false
  | .mismatch _ _ => True
  | .scan p | .pulled p => AllRight sum256 fs ∧ Complete fs p
  | .prune p todo => AllRight sum256 fs ∧ Complete fs p ∧
    ∀ d ∈ todo, ∀ l ∈ p.manifest.named, ¬SameBlob l.digest d
  | _ => False

end

/-- Only calls of `PullModel`, and one after the other. -/
def Sequential (s : State) : Label → Prop
  | .start _ op => (∃ name, op = .pull name) ∧ ∀ i, s.ops i = none
  | _ => True

/-- A step leaves no wrong blob that is not going to be checked, and no blob of the new manifest is
pruned under another digest. -/
def Cautious (sum256 : Bytes → Text) (s : State) : Label → Prop
  | .start _ _ => True
  | .act i e => ∀ op effect op', s.ops i = some op →
      act sum256 s.files op e = some (effect, op') →
      (op' = none → (∀ p, op ≠ .pulled p) → AllRight sum256 (s.apply effect).files) ∧
        ∀ p, op = .scan p → ∀ d ∈ p.deleteMap, ∀ l ∈ p.manifest.named, SameBlob l.digest d →
          l.digest = d
  | .abort _ => AllRight sum256 s.files
  | .land d c => getBlobsPath d = some (ascii "sha256-" ++ sum256 c) ∨
      ∃ i p l todo, s.ops i = some (.wait p l todo) ∧ l.digest = d ∧ d ∉ digests todo
  | .lose d => AllRight sum256 s.files ∨
      ∀ i op, s.ops i = some op → State.wake d false op = some op

def CautiousStep (sum256 : Bytes → Text) (s t : State) : Prop :=
  ∃ lab, step sum256 s lab = some t ∧ Sequential s lab ∧ Cautious sum256 s lab

section

variable {sum256 : Bytes → Text} {s t : State} {fs fs' : Files} {op op' : Op} {effect : Effect}
  {p : Pull} {l : Layer} {todo : List Layer} {f : Text} {c : Bytes}

theorem getBlobsPath_digestOf (h : getBlobsPath (digestOf sum256 c) = some f) :
    f = ascii "sha256-" ++ sum256 c := by
  have valid : isDigest (digestOf sum256 c) = true := by
    unfold getBlobsPath at h
    split at h
    case isTrue valid => exact valid
    case isFalse => cases h
  simp only [isDigest, Bool.and_eq_true, decide_eq_true_eq] at valid
  obtain ⟨⟨-, length⟩, hex⟩ := valid
  exact Option.some.inj (h.symm.trans (getBlobsPath_sha256 length hex))

theorem Wrong.of_place (h : Wrong sum256 (fs.place f c) f') :
    Wrong sum256 fs f' ∨ f' = f ∧ f ≠ ascii "sha256-" ++ sum256 c := by
  obtain ⟨c', hc, hne⟩ := h
  by_cases hf : f' = f
  · subst hf
    rw [Files.blobs_place_self] at hc
    cases hc
    exact .inr ⟨rfl, hne⟩
  · rw [Files.blobs_place_of_ne _ _ hf] at hc
    exact .inl ⟨c', hc, hne⟩

theorem Wrong.of_remove (h : Wrong sum256 (fs.remove f) f') : Wrong sum256 fs f' := by
  obtain ⟨c, hc, hne⟩ := h
  by_cases hf : f' = f
  · subst hf
    rw [Files.blobs_remove_self] at hc
    cases hc
  · rw [Files.blobs_remove_of_ne _ hf] at hc
    exact ⟨c, hc, hne⟩

theorem AllRight.removeBlob {d : Text} (h : AllRight sum256 s.files) :
    AllRight sum256 (s.apply (removeBlob d)).files := by
  rcases removeBlob_cases d with hr | ⟨f, -, hr⟩
  · rw [hr]
    exact h
  · rw [hr]
    exact fun f hf => h f hf.of_remove

theorem Complete.removeBlob {d : Text} (h : Complete s.files p)
    (apart : ∀ l ∈ p.manifest.named, ¬SameBlob l.digest d) :
    Complete (s.apply (removeBlob d)).files p := by
  rcases removeBlob_cases d with hr | ⟨f, hf, hr⟩
  · rw [hr]
    exact h
  · rw [hr]
    exact ⟨h.1, fun l hl => (h.2 l hl).remove fun hl' => apart l hl ⟨f, hl', hf⟩⟩

theorem Accounted.got (h : Accounted sum256 fs p (l :: todo)) (hit : Bool) :
    Accounted sum256 fs (p.got l.digest hit) todo := by
  intro f hf
  obtain ⟨l', hl', hpath, hlookup, hnot⟩ := h f hf
  obtain ⟨hne, hnot⟩ := List.ne_and_not_mem_of_not_mem_cons hnot
  refine ⟨l', hl', hpath, ?_, hnot⟩
  rw [Pull.got, List.lookup_cons, beq_false_of_ne hne]
  exact hlookup

theorem Op.Vouched.mono (h : op.Vouched sum256 fs)
    (wrong : ∀ f, Wrong sum256 fs' f → Wrong sum256 fs f)
    (present : ∀ d, Present fs d → Present fs' d)
    (manifest : ∀ name, fs'.manifest name = fs.manifest name) : op.Vouched sum256 fs' := by
  have right : AllRight sum256 fs → AllRight sum256 fs' := fun h f hf => h f (wrong f hf)
  have complete : ∀ p, Complete fs p → Complete fs' p := fun p h =>
    ⟨(manifest p.name).trans h.1, fun l hl => present _ (h.2 l hl)⟩
  cases op with
  | pull | fetch => exact right h
  | stat | wait | arrived => exact ⟨h.1, fun f hf => h.2 f (wrong f hf)⟩
  | verify => exact fun f hf => h f (wrong f hf)
  | mismatch => trivial
  | scan p | pulled p => exact ⟨right h.1, complete p h.2⟩
  | prune p => exact ⟨right h.1, complete p h.2.1, h.2.2⟩
  | _ => exact h

/-- What one step of the call keeps. -/
theorem Moves.vouched (moves : Moves sum256 s.files op effect op') (covers : op.Covers)
    (held : ∀ d ∈ op.holds, Present s.files d) (vouched : op.Vouched sum256 s.files)
    (apart : ∀ p, op = .scan p → ∀ d ∈ p.deleteMap, ∀ l ∈ p.manifest.named, SameBlob l.digest d →
      l.digest = d) : op'.Vouched sum256 (s.apply effect).files := by
  cases moves
  case pull => exact vouched
  case served => exact ⟨List.Subset.refl _, fun f hf => absurd hf (vouched f)⟩
  case cached => exact ⟨fun l hl => vouched.1 (List.mem_cons_of_mem _ hl), vouched.2.got true⟩
  case missing => exact vouched
  case arrived => exact ⟨fun l hl => vouched.1 (List.mem_cons_of_mem _ hl), vouched.2⟩
  case fetched p =>
    intro f hf
    obtain ⟨l, hl, hpath, hlookup, -⟩ := vouched.2 f hf
    exact ⟨l, hl, hpath, hlookup⟩
  case skipped p l todo skip =>
    intro f hf
    obtain ⟨l', hl', hpath, hlookup⟩ := vouched f hf
    rcases List.mem_cons.mp hl' with rfl | hl'
    · cases skip.symm.trans hlookup
    · exact ⟨l', hl', hpath, hlookup⟩
  case verified found equal =>
    intro f hf
    obtain ⟨l', hl', hpath, hlookup⟩ := vouched f hf
    rcases List.mem_cons.mp hl' with rfl | hl'
    · obtain ⟨c', hc', hne⟩ := hf
      simp only [Files.blob, hpath, Option.bind_some] at found
      cases hc'.symm.trans found
      exact absurd (getBlobsPath_digestOf (equal ▸ hpath)) hne
    · exact ⟨l', hl', hpath, hlookup⟩
  case mismatch => trivial
  case writeManifest p =>
    refine ⟨fun f hf => ?_, ?_, fun l hl => held _ (covers l hl)⟩
    · obtain ⟨l, hl, -⟩ := vouched f hf
      cases hl
    · simp [State.apply, Files.manifest_write]
  case scan p =>
    refine ⟨vouched.1, vouched.2, fun d hd l hl same => ?_⟩
    obtain ⟨hmap, unused⟩ := List.mem_filter.mp hd
    have hld := apart p rfl d hmap l hl same
    have used := Files.uses_of_named vouched.2.1 hl
    rw [hld] at used
    simp [used] at unused
  case noPrune => exact vouched
  case prune decided =>
    exact ⟨vouched.1.removeBlob, vouched.2.1.removeBlob (vouched.2.2 _ decided),
      fun d' hd' => vouched.2.2 d' (List.mem_of_mem_erase hd')⟩
  case keep =>
    exact ⟨vouched.1, vouched.2.1, fun d' hd' => vouched.2.2 d' (List.mem_of_mem_erase hd')⟩
  case pruned => exact ⟨vouched.1, vouched.2.1⟩
  all_goals exact absurd vouched id

/-- What holds of the one operation that there may be. -/
structure Vouch (sum256 : Bytes → Text) (s : State) (op : Op) : Prop where
  covers : op.Covers
  held : ∀ d ∈ op.holds, Present s.files d
  vouched : op.Vouched sum256 s.files

/-- At most one call is in progress, and what it has not to check is right. -/
structure Orderly (sum256 : Bytes → Text) (s : State) : Prop where
  single : ∀ i j op op', s.ops i = some op → s.ops j = some op' → i = j
  vouch : ∀ i op, s.ops i = some op → Vouch sum256 s op
  idle : (∀ i, s.ops i = none) → AllRight sum256 s.files

theorem Moves.held (moves : Moves sum256 s.files op effect op') (vouched : op.Vouched sum256 s.files)
    (held : ∀ d ∈ op.holds, Present s.files d) :
    ∀ d ∈ op'.holds, Present (s.apply effect).files d := by
  intro d hd
  rcases moves.holds hd with hd' | ⟨rfl, present⟩ | ⟨f, c, rfl, hf⟩
  · refine (held d hd').apply fun f hf => ?_
    subst hf
    obtain ⟨d', hd', -⟩ := moves.removes
    generalize he : Effect.remove f = effect at moves
    cases moves
    case prune => cases hd
    case remove | clean => exact absurd vouched id
    all_goals cases he
  · exact present
  · exact present_place_self hf

theorem Vouch.mono (h : Vouch sum256 s op) (files : t.files = s.files) : Vouch sum256 t op :=
  ⟨h.covers, files ▸ h.held, files ▸ h.vouched⟩

/-- After a step of the call that is not its last. -/
theorem Vouch.moves (h : Vouch sum256 s op) (moves : Moves sum256 s.files op effect op')
    (apart : ∀ p, op = .scan p → ∀ d ∈ p.deleteMap, ∀ l ∈ p.manifest.named, SameBlob l.digest d →
      l.digest = d) : Vouch sum256 (s.apply effect) op' where
  covers := moves.covers h.covers
  held := moves.held h.vouched h.held
  vouched := moves.vouched h.covers h.held h.vouched apart

theorem setOp_self (s : State) (i : Nat) (op' : Option Op) : (s.setOp i op').ops i = op' := if_pos rfl

theorem wake_isSome (d : Text) (op : Op) : (State.wake d true op).isSome := by
  fun_cases State.wake d true op
  case case2 h => exact absurd rfl h
  all_goals rfl

/-- A download that lands with the right content. -/
theorem Vouch.place (h : Vouch sum256 s op) (right : f = ascii "sha256-" ++ sum256 c) (t : State)
    (files : t.files = s.files.place f c) : Vouch sum256 t op where
  covers := h.covers
  held d hd := files ▸ (h.held d hd).place f c
  vouched := by
    rw [files]
    refine h.vouched.mono (fun f' hf' => ?_) (fun d hd => hd.place f c) (fun name => rfl)
    exact hf'.of_place.resolve_right fun wrong => wrong.2 right

/-- A download that lands with any content, for a layer whose digest does not come again. -/
theorem Vouch.arrived (h : Vouch sum256 s (.wait p l todo)) (path : getBlobsPath l.digest = some f)
    (once : f = ascii "sha256-" ++ sum256 c ∨ l.digest ∉ digests todo) (t : State)
    (files : t.files = s.files.place f c) : Vouch sum256 t (.arrived p l todo) where
  covers := h.covers
  held d hd := by
    rw [files]
    rcases List.mem_cons.mp hd with rfl | hd
    · exact present_place_self path
    · exact (h.held d hd).place f c
  vouched := by
    rw [files]
    refine ⟨h.vouched.1, fun f' hf' => ?_⟩
    rcases hf'.of_place with hf' | ⟨rfl, wrong⟩
    · exact h.vouched.2.got false f' hf'
    · refine ⟨l, h.vouched.1 List.mem_cons_self, path, ?_, once.resolve_left wrong⟩
      rw [Pull.got, List.lookup_cons, beq_self_eq_true]

theorem Orderly.land {d : Text} (orderly : Orderly sum256 s) (path : getBlobsPath d = some f)
    (cautious : Cautious sum256 s (.land d c)) (t : State) (files : t.files = s.files.place f c)
    (ops : ∀ i, t.ops i = (s.ops i).bind (State.wake d true)) : Orderly sum256 t where
  single i j op op' hi hj := by
    rw [ops] at hi hj
    obtain ⟨op₁, h₁, -⟩ := Option.bind_eq_some_iff.mp hi
    obtain ⟨op₂, h₂, -⟩ := Option.bind_eq_some_iff.mp hj
    exact orderly.single i j op₁ op₂ h₁ h₂
  vouch i op hi := by
    rw [ops] at hi
    obtain ⟨op₁, hop₁, hwake⟩ := Option.bind_eq_some_iff.mp hi
    have vouch := orderly.vouch i op₁ hop₁
    have right : f = ascii "sha256-" ++ sum256 c ∨ ∃ p l todo, op₁ = .wait p l todo ∧
        l.digest = d ∧ d ∉ digests todo := by
      rcases cautious with right | ⟨j, p, l, todo, hj, hl, once⟩
      · exact .inl (Option.some.inj (path.symm.trans right))
      · obtain rfl := orderly.single i j op₁ _ hop₁ hj
        exact .inr ⟨p, l, todo, Option.some.inj (hop₁.symm.trans hj), hl, once⟩
    rcases wake_cases hwake with rfl | ⟨-, p, l, todo, rfl, rfl, rfl⟩
    · refine vouch.place (right.resolve_right ?_) t files
      -- the operation that waits for `d` is woken
      rintro ⟨p, l, todo, rfl, rfl, -⟩
      simp [State.wake] at hwake
    · refine vouch.arrived path (right.imp_right ?_) t files
      rintro ⟨p', l', todo', heq, -, once⟩
      cases heq
      exact once
  idle hidle := by
    have hidle : ∀ i, s.ops i = none := fun i => by
      have hi := hidle i
      rw [ops] at hi
      cases hop : s.ops i with
      | none => rfl
      | some op =>
        rw [hop, Option.bind_some] at hi
        exact absurd (wake_isSome d op) (by simp [hi])
    rcases cautious with right | ⟨i, p, l, todo, hi, -⟩
    · rw [files]
      intro f' hf'
      rcases hf'.of_place with hf' | ⟨-, wrong⟩
      · exact orderly.idle hidle f' hf'
      · exact wrong (Option.some.inj (path.symm.trans right))
    · rw [hidle i] at hi
      cases hi

theorem Orderly.act {i : Nat} {e : Event} {op' : Option Op} (orderly : Orderly sum256 s)
    (cautious : Cautious sum256 s (.act i e)) (hop : s.ops i = some op)
    (hact : act sum256 s.files op e = some (effect, op')) :
    Orderly sum256 ((s.apply effect).setOp i op') where
  single j k opj opk hj hk := by
    have here : ∀ j opj, ((s.apply effect).setOp i op').ops j = some opj → j = i := by
      intro j opj hj
      rcases setOp_cases hj with ⟨rfl, -⟩ | ⟨-, hj⟩
      · rfl
      · exact orderly.single j i opj op (apply_ops s effect ▸ hj) hop
    rw [here j opj hj, here k opk hk]
  vouch j opj hj := by
    rcases setOp_cases hj with ⟨-, rfl⟩ | ⟨hne, hj⟩
    · exact ((orderly.vouch i op hop).moves (act_moves hact) (cautious op _ _ hop hact).2).mono rfl
    · exact absurd (orderly.single j i opj op (apply_ops s effect ▸ hj) hop) hne
  idle hidle := by
    have hop' : op' = none := (setOp_self ..).symm.trans (hidle i)
    subst hop'
    by_cases last : ∃ p, op = .pulled p
    · obtain ⟨p, rfl⟩ := last
      have right := (orderly.vouch i _ hop).vouched.1
      cases e with
      | go =>
        cases hact
        exact right
      | _ => cases hact
    · exact (cautious op effect none hop hact).1 rfl fun p hp => last ⟨p, hp⟩

/-- What one step keeps. -/
theorem step_orderly (lab : Label) (orderly : Orderly sum256 s) (sequential : Sequential s lab)
    (cautious : Cautious sum256 s lab) (h : step sum256 s lab = some t) : Orderly sum256 t := by
  cases lab with
  | start i op =>
    obtain ⟨⟨name, rfl⟩, idle⟩ := sequential
    simp only [step] at h
    split at h
    case isFalse => cases h
    case isTrue =>
      cases h
      have here : ∀ j op', (s.setOp i (some (.pull name))).ops j = some op' →
          j = i ∧ op' = .pull name := by
        intro j op' hj
        rcases setOp_cases hj with ⟨hj, heq⟩ | ⟨-, hj⟩
        · exact ⟨hj, (Option.some.inj heq).symm⟩
        · rw [idle j] at hj
          cases hj
      constructor
      case single =>
        intro j k op op' hj hk
        rw [(here j op hj).1, (here k op' hk).1]
      case vouch =>
        intro j op hj
        rw [(here j op hj).2]
        refine ⟨trivial, ?_, orderly.idle idle⟩
        intro d hd
        cases hd
      case idle =>
        intro hidle
        cases (setOp_self ..).symm.trans (hidle i)
  | act i e =>
    obtain ⟨op, effect, op', hop, hact, rfl⟩ := step_act i e h
    exact orderly.act cautious hop hact
  | abort i =>
    simp only [step] at h
    split at h
    case isFalse => cases h
    case isTrue =>
      cases h
      have before : ∀ j op, (s.setOp i none).ops j = some op → s.ops j = some op := by
        intro j op hj
        rcases setOp_cases hj with ⟨-, heq⟩ | ⟨-, hj⟩
        · cases heq
        · exact hj
      exact {
        single := fun j k op op' hj hk =>
          orderly.single j k op op' (before j op hj) (before k op' hk)
        vouch := fun j op hj => (orderly.vouch j op (before j op hj)).mono rfl
        idle := fun _ => cautious
      }
  | land d c =>
    simp only [step] at h
    split at h
    · cases h
    · rename_i f hf
      split at h
      case isFalse => cases h
      case isTrue =>
        cases h
        exact orderly.land hf cautious _ rfl fun i => rfl
  | lose d =>
    simp only [step] at h
    split at h
    case isFalse => cases h
    case isTrue =>
      cases h
      have before : ∀ j op, (s.ops j).bind (State.wake d false) = some op → s.ops j = some op := by
        intro j op hj
        obtain ⟨op₁, hop₁, hwake⟩ := Option.bind_eq_some_iff.mp hj
        rcases wake_cases hwake with rfl | ⟨hok, -⟩
        · exact hop₁
        · cases hok
      exact {
        single := fun j k op op' hj hk =>
          orderly.single j k op op' (before j op hj) (before k op' hk)
        vouch := fun j op hj => (orderly.vouch j op (before j op hj)).mono rfl
        idle := fun hidle => cautious.elim id fun survive => orderly.idle fun j => by
          cases hop : s.ops j with
          | none => rfl
          | some op =>
            have hj : (s.ops j).bind (State.wake d false) = none := hidle j
            rw [hop, Option.bind_some, survive j op hop] at hj
            cases hj
      }

/-- When a call returns without an error, the manifest that it wrote is there, and every layer and
config that it names has a blob with the content of its digest. -/
theorem run_verified (fs : Files) (right : AllRight sum256 fs)
    (run : Relation.ReflTransGen (CautiousStep sum256) { files := fs } t) (i : Nat) (p : Pull)
    (returns : t.ops i = some (.pulled p)) :
    t.files.manifest p.name = some p.manifest ∧ ∀ l ∈ p.manifest.named, ∃ c,
      t.files.blob l.digest = some c ∧ getBlobsPath l.digest = some (ascii "sha256-" ++ sum256 c) := by
  have orderly : Orderly sum256 t := by
    refine run_invariant (I := Orderly sum256) ?_ run ?_
    · rintro s t hs ⟨lab, hstep, sequential, cautious⟩
      exact step_orderly lab hs sequential cautious hstep
    · exact ⟨fun i j op op' h => (nomatch h), fun i op h => (nomatch h), fun _ => right⟩
  obtain ⟨allRight, written, present⟩ := (orderly.vouch i _ returns).vouched
  refine ⟨written, fun l hl => ?_⟩
  obtain ⟨c, hc⟩ := present l hl
  obtain ⟨f, hf, hfc⟩ := Option.bind_eq_some_iff.mp hc
  refine ⟨c, hc, hf.trans (congrArg some ?_)⟩
  exact Classical.not_not.mp fun wrong => allRight f ⟨c, hfc, wrong⟩

end

/-! ### A digest that comes twice -/

section

variable {sum256 : Bytes → Text} {s t : State} {fs : Files} {p : Pull} {l : Layer}
  {todo : List Layer} {f : Text} {c : Bytes} {labels : List Label}

theorem act_missing (path : getBlobsPath l.digest = some f) (absent : fs.blobs f = none) :
    act sum256 fs (.stat p (l :: todo)) .go =
      some (.download l.digest, some (.wait p l todo)) := by
  simp only [act, actStat, path, absent]

theorem act_cached (path : getBlobsPath l.digest = some f) (present : fs.blobs f = some c) :
    act sum256 fs (.stat p (l :: todo)) .go =
      some (.nothing, some (.stat (p.got l.digest true) todo)) := by
  simp only [act, actStat, path, present]

theorem act_skipped (skip : p.skipVerify.lookup l.digest = some true) :
    act sum256 fs (.verify p (l :: todo)) .go = some (.nothing, some (.verify p todo)) := by
  simp only [act, actVerify, if_pos skip]

theorem act_verified (path : getBlobsPath l.digest = some f) (present : fs.blobs f = some c)
    (check : p.skipVerify.lookup l.digest = some false) (equal : l.digest = digestOf sum256 c) :
    act sum256 fs (.verify p (l :: todo)) .go = some (.nothing, some (.verify p todo)) := by
  have found : fs.blob l.digest = some c := by rw [Files.blob, path, Option.bind_some, present]
  simp [act, actVerify, check, found, ← equal]

theorem step_land {d : Text} (path : getBlobsPath d = some f) (flies : d ∈ s.flight) :
    step sum256 s (.land d c) = some { s with
      files := s.files.place f c, flight := s.flight.filter (· ≠ d),
      ops := fun i => (s.ops i).bind (State.wake d true) } := by
  simp only [step, path, if_pos flies]

theorem run_land {d : Text} (path : getBlobsPath d = some f) (flies : d ∈ s.flight)
    (next : run sum256 { s with
      files := s.files.place f c, flight := s.flight.filter (· ≠ d),
      ops := fun i => (s.ops i).bind (State.wake d true) } labels = some t) :
    run sum256 s (.land d c :: labels) = some t := by
  rw [run, List.foldlM_cons, step_land path flies]
  exact next

/-- A step of a call that goes on, and has no old layers to prune. -/
theorem cautious_act {u : State} (i : Nat) (e : Event) (op : Op) (effect : Effect) (op' : Op)
    (hop : s.ops i = some op) (hact : act sum256 s.files op e = some (effect, some op'))
    (prunes : ∀ p, op = .scan p → p.deleteMap = [])
    (next : Relation.ReflTransGen (CautiousStep sum256) ((s.apply effect).setOp i (some op')) u) :
    Relation.ReflTransGen (CautiousStep sum256) s u := by
  refine .head ⟨.act i e, by simp only [Server.step, hop, hact, Option.map_some], trivial, ?_⟩ next
  intro op₂ effect₂ op₂' hop₂ hact₂
  cases hop.symm.trans hop₂
  cases hact.symm.trans hact₂
  constructor
  · intro hnone
    cases hnone
  · intro p hp d hd
    rw [prunes p hp] at hd
    cases hd

end

/-- The license comes as a layer and as the config. -/
def twice : Manifest := ⟨licenseLayer, [licenseLayer]⟩

/-- The registry sends other bytes for the license; the second time its blob is taken for checked. -/
theorem pulled_unchecked : AllRight sumsOfLicense {} ∧ ∃ t p, run sumsOfLicense {}
    [.start 0 (.pull (ascii "m")), .act 0 .go, .act 0 (.served twice), .act 0 .go,
      .land licenseLayer.digest licenseConfig, .act 0 .go, .act 0 .go, .act 0 .go, .act 0 .go,
      .act 0 .go, .act 0 .go, .act 0 .go, .act 0 .go] = some t ∧
    t.ops 0 = some (.pulled p) ∧ ∃ l ∈ p.manifest.named, ∀ c, t.files.blob l.digest = some c →
      getBlobsPath l.digest ≠ some (ascii "sha256-" ++ sumsOfLicense c) := by
  have placed : ∀ fs : Files, (fs.place (ascii "sha256-" ++ licenseSum) licenseConfig).blobs
      (ascii "sha256-" ++ licenseSum) = some licenseConfig := fun fs => Files.blobs_place_self ..
  let pull : Pull := ⟨ascii "m", [], twice, []⟩
  let hit : Pull := (pull.got licenseLayer.digest false).got licenseLayer.digest true
  have skip : hit.skipVerify.lookup licenseLayer.digest = some true := by
    simp [hit, Pull.got]
  have woken : State.wake licenseLayer.digest true (.wait pull licenseLayer [licenseLayer]) =
      some (.arrived pull licenseLayer [licenseLayer]) := by
    simp [State.wake]
  refine ⟨fun f ⟨c, hc, _⟩ => (nomatch hc), _, hit,
    run_start ⟨rfl, rfl⟩ <|
    run_act _ .nothing (some (.fetch (ascii "m") [])) rfl rfl <|
    run_act _ .nothing (some (.stat pull [licenseLayer, licenseLayer])) rfl rfl <|
    run_act _ (.download licenseLayer.digest) (some (.wait pull licenseLayer [licenseLayer])) rfl
      (act_missing path_license rfl) <|
    run_land path_license List.mem_cons_self <|
    run_act (.arrived pull licenseLayer [licenseLayer]) .nothing
      (some (.stat (pull.got licenseLayer.digest false) [licenseLayer])) woken rfl <|
    run_act _ .nothing (some (.stat hit [])) rfl (act_cached path_license (placed _)) <|
    run_act _ .nothing (some (.verify hit [licenseLayer, licenseLayer])) rfl rfl <|
    run_act _ .nothing (some (.verify hit [licenseLayer])) rfl (act_skipped skip) <|
    run_act _ .nothing (some (.verify hit [])) rfl (act_skipped skip) <|
    run_act _ (.write (ascii "m") (some twice)) (some (.scan hit)) rfl rfl <|
    run_act _ .nothing (some (.prune hit [])) rfl rfl <|
    run_act _ .nothing (some (.pulled hit)) rfl rfl rfl, rfl, licenseLayer, List.mem_cons_self,
    fun c hc heq => ?_⟩
  rw [Files.blob, path_license] at hc
  cases (placed {}).symm.trans hc
  exact sums_ne (Option.some.inj (heq.symm.trans path_license))

/-- The pull of a manifest whose only layer is the license, which the registry sends as it is. -/
theorem pulled_license : ∃ (t : State) (p : Pull), t.ops 0 = some (.pulled p) ∧ p.manifest.layers = [licenseLayer] ∧
    t.files.manifest p.name = some p.manifest ∧ ∀ l ∈ p.manifest.named, ∃ c,
      t.files.blob l.digest = some c ∧
        getBlobsPath l.digest = some (ascii "sha256-" ++ sumsOfLicense c) := by
  let pull : Pull := ⟨ascii "m", [], ⟨⟨[], []⟩, [licenseLayer]⟩, []⟩
  let got : Pull := pull.got licenseLayer.digest false
  have check : got.skipVerify.lookup licenseLayer.digest = some false := by
    simp [got, Pull.got]
  have placed : ∀ fs : Files, (fs.place (ascii "sha256-" ++ licenseSum) (ascii "1")).blobs
      (ascii "sha256-" ++ licenseSum) = some (ascii "1") := fun fs => Files.blobs_place_self ..
  have woken : State.wake licenseLayer.digest true (.wait pull licenseLayer []) =
      some (.arrived pull licenseLayer []) := by
    simp [State.wake]
  refine ⟨_, got, by rfl, rfl, run_verified {}
    (fun f ⟨c, hc, _⟩ => (nomatch hc)) (
    .head ⟨.start 0 (.pull (ascii "m")), rfl, ⟨⟨_, rfl⟩, fun _ => rfl⟩, trivial⟩ <|
    cautious_act 0 .go _ .nothing (.fetch (ascii "m") []) rfl rfl nofun <|
    cautious_act 0 (.served pull.manifest) _ .nothing (.stat pull [licenseLayer]) rfl rfl nofun <|
    cautious_act 0 .go _ (.download licenseLayer.digest) (.wait pull licenseLayer []) rfl
      (act_missing path_license rfl) nofun <|
    .head ⟨.land licenseLayer.digest (ascii "1"), step_land path_license List.mem_cons_self, trivial,
      .inl path_license⟩ <|
    cautious_act 0 .go (.arrived pull licenseLayer []) .nothing (.stat got []) woken rfl nofun <|
    cautious_act 0 .go _ .nothing (.verify got [licenseLayer]) rfl rfl nofun <|
    cautious_act 0 .go _ .nothing (.verify got []) rfl
      (act_verified path_license (placed _) check rfl) nofun <|
    cautious_act 0 .go _ (.write (ascii "m") (some pull.manifest)) (.scan got) rfl rfl nofun <|
    cautious_act 0 .go _ .nothing (.prune got []) rfl rfl
      (fun p hp => by cases hp; rfl) <|
    cautious_act 0 .go _ .nothing (.pulled got) rfl rfl nofun .refl) 0 got (by rfl)⟩

end Ecco9.Server
