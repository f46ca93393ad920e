import Ecco9.Convert.Mixtral

/-! The order in which the experts of a Mixtral model are merged. -/

namespace Ecco9.Convert

open Ecco9.Library

/-- The file describes a tensor under this key. -/
def File.holds (f : File) (key : Text) : Bool :=
  f.headers.any fun e => e.1 = key && e.2.dtype ≠ []

/-- The tensor of a file under a key. -/
def File.find (f : File) (replace : Text → Text) (key : Text) : Option Tensor :=
  (f.headers.find? fun e => e.1 = key && e.2.dtype ≠ []).bind fun e =>
    (f.tensor replace e.1 e.2).toOption

def expertKey (layer e : Nat) (w : Weight) : Text := (Name.layer layer (.expert e w)).key

/-- The `i`-th file holds the expert. -/
def HoldsExpert (files : List File) (i layer e : Nat) (w : Weight) : Prop :=
  ∃ f, files[i]? = some f ∧ f.holds (expertKey layer e w) = true

/-- The tensor of a file of the list. -/
def tensorAt (files : List File) (i : Nat) (key : Text) : Option Tensor :=
  files[i]?.bind (·.find (replacer mixtralReplacements) key)

/-- The tensor of an expert, wherever it is. -/
def expertTensor (files : List File) (layer : Nat) (w : Weight) (e : Nat) : Option Tensor :=
  tensorAt files (files.findIdx (·.holds (expertKey layer e w))) (expertKey layer e w)

/-- The files of a Mixtral model with so many layers and experts: all tensors have names of such a
model, and each expert of a layer is in one file. -/
structure Checkpoint (layers experts : Nat) (files : List File) : Prop where
  ok : ∀ f ∈ files, ∀ e ∈ f.headers, e.2.dtype ≠ [] → e.2.Ok
  named : ∀ f ∈ files, ∀ e ∈ f.headers, e.2.dtype ≠ [] → ∃ name : Name, e.1 = name.key
  all : ∀ layer < layers, ∀ e < experts, ∀ w, ∃ i, HoldsExpert files i layer e w
  once : ∀ layer e w i j, HoldsExpert files i layer e w → HoldsExpert files j layer e w → i = j
  only : ∀ layer e w i, HoldsExpert files i layer e w → e < experts

/-- The experts of a layer are written under their common name in the order of their numbers. -/
def InOrder (files : List File) (out : List Merged) (experts layer : Nat) (w : Weight) : Prop :=
  (writerTo out (expsName layer w (ascii ".weight"))).map some =
    (List.range experts).map (expertTensor files layer w)

/-- Of two experts of a layer the one with the smaller number is in an earlier file, or comes first in
their file because its number does as a string. -/
def StringOrder (files : List File) (experts layer : Nat) (w : Weight) : Prop :=
  ∀ e e', e < e' → e' < experts → ∀ i j, HoldsExpert files i layer e w →
    HoldsExpert files j layer e' w → i < j ∨ i = j ∧ decimal e < decimal e'

/-! ### The order of the keys -/

theorem Name.key_injective {a b : Name} (h : a.key = b.key) : a = b :=
  Name.ggufName_injective (by rw [← replacer_key, h, replacer_key])

theorem expertKey_eq (layer e : Nat) (w : Weight) : expertKey layer e w =
    (ascii "model.layers." ++ decimal layer ++ ascii ".block_sparse_moe.experts.") ++
      (decimal e ++ 46 :: (w.text ++ ascii ".weight")) := by
  simp only [expertKey, Name.key, Part.key, List.append_assoc]
  rfl

theorem expertKey_lt {layer e e' : Nat} {w : Weight} (hne : e ≠ e') :
    expertKey layer e w < expertKey layer e' w ↔ decimal e < decimal e' := by
  have hdigit {n : Nat} : ∀ b ∈ decimal n, (46 : UInt8) < b := by
    intro b hb
    have := (isDigit_of_mem_decimal hb).1
    rw [UInt8.lt_iff_toNat_lt]
    exact Nat.lt_of_lt_of_le (by decide) this
  rw [expertKey_eq, expertKey_eq, append_left_lt_iff]
  exact append_lt_append hdigit hdigit fun h => hne (decimal_injective h)

theorem File.entries_perm (f : File) : f.entries.Perm f.headers := List.mergeSort_perm ..

theorem File.entries_sorted (f : File) : f.entries.Pairwise fun a b => a.1 < b.1 := by
  have hle : f.entries.Pairwise fun a b => a.1 ≤ b.1 := by
    refine (List.pairwise_mergeSort (fun a b c hab hbc => ?_) (fun a b => ?_) _).imp
      fun h => of_decide_eq_true h
    · exact decide_eq_true (List.le_trans (of_decide_eq_true hab) (of_decide_eq_true hbc))
    · rw [Bool.or_eq_true, decide_eq_true_eq, decide_eq_true_eq]
      exact List.le_total _ _
  have hnodup : (f.entries.map (·.1)).Nodup := (f.entries_perm.map (·.1)).nodup_iff.mpr f.nodup
  have hne : f.entries.Pairwise fun a b => a.1 ≠ b.1 := List.pairwise_map.mp hnodup
  exact (hle.and hne).imp fun h => (List.le_iff_lt_or_eq.mp h.1).resolve_right h.2

/-! ### Where the experts are -/

theorem File.holds_iff {f : File} {key : Text} :
    f.holds key = true ↔ ∃ v, (key, v) ∈ f.headers ∧ v.dtype ≠ [] := by
  simp only [holds, List.any_eq_true, Bool.and_eq_true, decide_eq_true_eq]
  constructor
  · rintro ⟨⟨k, v⟩, he, rfl, hdtype⟩
    exact ⟨v, he, hdtype⟩
  · rintro ⟨v, he, hdtype⟩
    exact ⟨(key, v), he, rfl, hdtype⟩

/-- The entry under a key is found, for no other has this key. -/
theorem File.find_eq {f : File} {replace : Text → Text} {e : Text × Metadata} (he : e ∈ f.headers)
    (hdtype : e.2.dtype ≠ []) : f.find replace e.1 = (f.tensor replace e.1 e.2).toOption := by
  have hfound : f.headers.find? (fun e' => e'.1 = e.1 && e'.2.dtype ≠ []) = some e := by
    have hnodup := f.nodup
    generalize f.headers = headers at he hnodup
    induction headers with
    | nil => cases he
    | cons a headers ih =>
      rw [List.map_cons, List.nodup_cons] at hnodup
      rcases List.mem_cons.mp he with rfl | he
      · rw [List.find?_cons_of_pos (by simpa using hdtype)]
      · have hne : a.1 ≠ e.1 := fun h => hnodup.1 (List.mem_map.mpr ⟨e, he, h.symm⟩)
        rw [List.find?_cons_of_neg (by simp [hne]), ih he hnodup.2]
  rw [find, hfound]
  rfl

/-- The places of the experts of a layer, in the order in which they are read. -/
def expertPlaces (files : List File) (layer : Nat) (w : Weight) : List (Nat × Text) :=
  files.zipIdx.flatMap fun p =>
    (p.1.entries.filter fun e => e.2.dtype ≠ [] &&
      pathMatch (expsPattern layer w (ascii ".weight")) (replacer mixtralReplacements e.1)).map
        fun e => (p.2, e.1)

/-- An earlier file, or an earlier key in the same file. -/
def Earlier (a b : Nat × Text) : Prop := a.1 < b.1 ∨ a.1 = b.1 ∧ a.2 < b.2

variable {files : List File} {layers experts layer : Nat} {w : Weight}

theorem expertPlaces_sorted : (expertPlaces files layer w).Pairwise Earlier := by
  rw [expertPlaces, List.pairwise_flatMap]
  constructor
  · intro p _
    rw [List.pairwise_map]
    exact (p.1.entries_sorted.sublist List.filter_sublist).imp fun h => .inr ⟨rfl, h⟩
  · have hindex : (files.zipIdx.map (·.2)).Pairwise (· < ·) := by
      rw [List.zipIdx_map_snd]
      exact List.pairwise_lt_range'
    refine (List.pairwise_map.mp hindex).imp fun h x hx y hy => ?_
    obtain ⟨-, -, rfl⟩ := List.mem_map.mp hx
    obtain ⟨-, -, rfl⟩ := List.mem_map.mp hy
    exact .inl h

theorem Checkpoint.mem_expertPlaces (h : Checkpoint layers experts files) {i : Nat} {key : Text} :
    (i, key) ∈ expertPlaces files layer w ↔
      ∃ e, key = expertKey layer e w ∧ HoldsExpert files i layer e w := by
  simp only [expertPlaces, List.mem_flatMap, List.mem_map, List.mem_filter, Bool.and_eq_true,
    decide_eq_true_eq]
  constructor
  · rintro ⟨⟨f, j⟩, hf, e, ⟨he, hdtype, hmatch⟩, heq⟩
    obtain ⟨rfl, rfl⟩ := Prod.mk.inj heq
    have hfiles := List.mem_zipIdx_iff_getElem?.mp hf
    have he := f.entries_perm.mem_iff.mp he
    obtain ⟨name, hname⟩ := h.named f (List.mem_of_getElem? hfiles) e he hdtype
    rw [hname, replacer_key, pathMatch_exps (.inl rfl)] at hmatch
    obtain ⟨-, n, rfl⟩ := hmatch
    refine ⟨n, hname, f, hfiles, File.holds_iff.mpr ⟨e.2, ?_, hdtype⟩⟩
    rw [expertKey, ← hname]
    exact he
  · rintro ⟨n, rfl, f, hfiles, hholds⟩
    obtain ⟨v, hv, hdtype⟩ := File.holds_iff.mp hholds
    refine ⟨(f, i), List.mem_zipIdx_iff_getElem?.mpr hfiles, (expertKey layer n w, v),
      ⟨f.entries_perm.mem_iff.mpr hv, hdtype, ?_⟩, rfl⟩
    rw [expertKey, replacer_key, pathMatch_exps (.inl rfl)]
    exact ⟨rfl, n, rfl⟩

theorem Checkpoint.findIdx_eq (h : Checkpoint layers experts files) {i e : Nat}
    (hi : HoldsExpert files i layer e w) :
    files.findIdx (·.holds (expertKey layer e w)) = i := by
  obtain ⟨f, hfile, hholds⟩ := hi
  have hlt : files.findIdx (·.holds (expertKey layer e w)) < files.length :=
    List.findIdx_lt_length_of_exists ⟨f, List.mem_of_getElem? hfile, hholds⟩
  have hfound := @List.findIdx_getElem _ (·.holds (expertKey layer e w)) files hlt
  exact h.once layer e w _ _ ⟨_, List.getElem?_eq_getElem hlt, hfound⟩ ⟨f, hfile, hholds⟩

/-- The places of the experts, in the order of their numbers. -/
def numberedPlaces (files : List File) (experts layer : Nat) (w : Weight) : List (Nat × Text) :=
  (List.range experts).map fun e =>
    (files.findIdx (·.holds (expertKey layer e w)), expertKey layer e w)

theorem expertKey_injective {e e' : Nat} (h : expertKey layer e w = expertKey layer e' w) : e = e' := by
  have hname := Name.key_injective h
  injection hname with _ hpart
  injection hpart

theorem Earlier.asymm {a b : Nat × Text} (h : Earlier a b) : ¬Earlier b a := by
  rintro (h' | ⟨h', hkey'⟩)
  · rcases h with h | ⟨h, -⟩
    · exact Nat.lt_asymm h h'
    · exact Nat.ne_of_lt h' h.symm
  · rcases h with h | ⟨-, hkey⟩
    · exact Nat.ne_of_lt h h'.symm
    · exact List.lt_asymm hkey hkey'

theorem Checkpoint.places_perm (h : Checkpoint layers experts files) (hlayer : layer < layers) :
    (expertPlaces files layer w).Perm (numberedPlaces files experts layer w) := by
  have hsorted : (expertPlaces files layer w).Pairwise Earlier := expertPlaces_sorted
  have hplaces : (expertPlaces files layer w).Nodup := hsorted.imp fun hab heq => by
    rw [heq] at hab
    exact hab.asymm hab
  have hnumbered : (numberedPlaces files experts layer w).Nodup :=
    List.nodup_range.map_on fun e _ e' _ heq => expertKey_injective (Prod.mk.inj heq).2
  refine (List.perm_ext_iff_of_nodup hplaces hnumbered).mpr ?_
  rintro ⟨i, key⟩
  rw [h.mem_expertPlaces, numberedPlaces, List.mem_map]
  constructor
  · rintro ⟨e, rfl, hi⟩
    exact ⟨e, List.mem_range.mpr (h.only layer e w i hi), by rw [h.findIdx_eq hi]⟩
  · rintro ⟨e, he, heq⟩
    obtain ⟨rfl, rfl⟩ := Prod.mk.inj heq
    obtain ⟨i, hi⟩ := h.all layer hlayer e (List.mem_range.mp he) w
    exact ⟨e, rfl, by rw [h.findIdx_eq hi]; exact hi⟩

theorem Checkpoint.places_eq_iff (h : Checkpoint layers experts files) (hlayer : layer < layers) :
    expertPlaces files layer w = numberedPlaces files experts layer w ↔
      StringOrder files experts layer w := by
  have hnumbered : (numberedPlaces files experts layer w).Pairwise Earlier ↔
      StringOrder files experts layer w := by
    rw [numberedPlaces, List.pairwise_map, List.pairwise_iff_getElem]
    simp only [List.getElem_range, List.length_range]
    constructor
    · intro hpairs e e' hlt he' i j hi hj
      have hearlier := hpairs e e' (Nat.lt_trans hlt he') he' hlt
      rw [h.findIdx_eq hi, h.findIdx_eq hj, Earlier, expertKey_lt (Nat.ne_of_lt hlt)] at hearlier
      exact hearlier
    · intro horder e e' he he' hlt
      obtain ⟨i, hi⟩ := h.all layer hlayer e he w
      obtain ⟨j, hj⟩ := h.all layer hlayer e' he' w
      rw [h.findIdx_eq hi, h.findIdx_eq hj, Earlier, expertKey_lt (Nat.ne_of_lt hlt)]
      exact horder e e' hlt he' i j hi hj
  rw [← hnumbered]
  constructor
  · intro heq
    rw [← heq]
    exact expertPlaces_sorted
  · intro hpairs
    exact List.Perm.eq_of_pairwise (fun a b _ _ hab hba => absurd hba hab.asymm) expertPlaces_sorted
      hpairs (h.places_perm hlayer)

/-! ### What is written -/

theorem Checkpoint.parse (h : Checkpoint layers experts files) :
    parseSafetensors (replacer mixtralReplacements) files =
      .ok (files.flatMap fun f => f.tensors (replacer mixtralReplacements) f.entries) := by
  refine parseSafetensors_ok fun f hf => File.parseFrom_ok ?_ (fun _ _ _ => List.not_mem_nil) ?_
  · exact fun e he hdtype => h.ok f hf e (f.entries_perm.mem_iff.mp he) hdtype
  · refine (f.entries_sorted.sublist List.filter_sublist).imp_of_mem fun ha hb hlt heq => ?_
    obtain ⟨ha, hdtype⟩ := List.mem_filter.mp ha
    obtain ⟨hb, hdtype'⟩ := List.mem_filter.mp hb
    obtain ⟨a, hkey⟩ := h.named f hf _ (f.entries_perm.mem_iff.mp ha) (of_decide_eq_true hdtype)
    obtain ⟨b, hkey'⟩ := h.named f hf _ (f.entries_perm.mem_iff.mp hb) (of_decide_eq_true hdtype')
    rw [hkey, hkey', replacer_key, replacer_key] at heq
    rw [hkey, hkey', Name.ggufName_injective heq] at hlt
    exact List.lt_irrefl _ hlt

/-- The tensors of a file that fit a pattern are those of the entries that do. -/
theorem File.tensors_filter {f : File} {replace : Text → Text} (pattern : Text)
    {entries : List (Text × Metadata)} (hentries : ∀ e ∈ entries, e ∈ f.headers)
    (ok : ∀ e ∈ entries, e.2.dtype ≠ [] → e.2.Ok) :
    ((f.tensors replace entries).filter fun t => pathMatch pattern t.name).map some =
      (entries.filter fun e => e.2.dtype ≠ [] && pathMatch pattern (replace e.1)).map
        fun e => f.find replace e.1 := by
  induction entries with
  | nil => rfl
  | cons e entries ih =>
    have ih := ih (fun e he => hentries e (List.mem_cons_of_mem _ he))
      fun e he => ok e (List.mem_cons_of_mem _ he)
    by_cases hdtype : e.2.dtype = []
    · have htensors : f.tensors replace (e :: entries) = f.tensors replace entries := by
        rw [tensors, List.filter_cons_of_neg (by simpa using hdtype)]
        rfl
      rw [htensors, ih, List.filter_cons_of_neg (by simp [hdtype])]
    · obtain ⟨t, ht, hname⟩ := f.tensor_ok replace e.1 (ok e List.mem_cons_self hdtype)
      have htensors : f.tensors replace (e :: entries) = t :: f.tensors replace entries := by
        rw [tensors, List.filter_cons_of_pos (by simpa using hdtype), List.filterMap_cons, ht]
        rfl
      have hfind : f.find replace e.1 = some t := by
        rw [find_eq (hentries e List.mem_cons_self) hdtype, ht]
        rfl
      rw [htensors]
      cases hmatch : pathMatch pattern (replace e.1) with
      | true =>
        rw [List.filter_cons_of_pos (by rw [hname]; exact hmatch),
          List.filter_cons_of_pos (by simp [hdtype, hmatch]), List.map_cons, List.map_cons, ih, hfind]
      | false =>
        rw [List.filter_cons_of_neg (by rw [hname, hmatch]; exact Bool.false_ne_true),
          List.filter_cons_of_neg (by simp [hmatch]), ih]

theorem Checkpoint.group_eq (h : Checkpoint layers experts files) :
    ((files.flatMap fun f => f.tensors (replacer mixtralReplacements) f.entries).filter
        fun t => pathMatch (expsPattern layer w (ascii ".weight")) t.name).map some =
      (expertPlaces files layer w).map fun p => tensorAt files p.1 p.2 := by
  have hzip : files.flatMap (fun f => f.tensors (replacer mixtralReplacements) f.entries) =
      files.zipIdx.flatMap fun p => p.1.tensors (replacer mixtralReplacements) p.1.entries := by
    conv_lhs => rw [← List.zipIdx_map_fst 0 files, List.flatMap_map]
  rw [hzip, List.filter_flatMap, List.map_flatMap, expertPlaces, List.map_flatMap]
  refine List.flatMap_congr fun p hp => ?_
  have hfile := List.mem_zipIdx_iff_getElem?.mp hp
  have hmem := List.mem_of_getElem? hfile
  rw [File.tensors_filter _ (fun e he => p.1.entries_perm.mem_iff.mp he)
    fun e he => h.ok p.1 hmem e (p.1.entries_perm.mem_iff.mp he), List.map_map]
  refine List.map_congr_left fun e _ => ?_
  rw [Function.comp_apply, tensorAt, hfile]
  rfl

theorem tensorAt_name {i e : Nat} (ok : ∀ f ∈ files, ∀ e ∈ f.headers, e.2.dtype ≠ [] → e.2.Ok)
    (hi : HoldsExpert files i layer e w) : ∃ t, tensorAt files i (expertKey layer e w) = some t ∧
      t.name = (Name.layer layer (.expert e w)).ggufName := by
  obtain ⟨f, hfile, hholds⟩ := hi
  obtain ⟨v, hv, hdtype⟩ := File.holds_iff.mp hholds
  obtain ⟨t, ht, hname⟩ := f.tensor_ok (replacer mixtralReplacements)
    (expertKey layer e w) (ok f (List.mem_of_getElem? hfile) _ hv hdtype)
  refine ⟨t, ?_, by rw [hname, expertKey, replacer_key]⟩
  rw [tensorAt, hfile]
  exact (File.find_eq hv hdtype).trans (congrArg Except.toOption ht)

/-- Different places have different tensors. -/
theorem Checkpoint.tensorAt_injOn (h : Checkpoint layers experts files) {a b : Nat × Text}
    (ha : a ∈ expertPlaces files layer w) (hb : b ∈ expertPlaces files layer w)
    (heq : tensorAt files a.1 a.2 = tensorAt files b.1 b.2) : a = b := by
  obtain ⟨i, key⟩ := a
  obtain ⟨j, key'⟩ := b
  obtain ⟨e, rfl, hi⟩ := h.mem_expertPlaces.mp ha
  obtain ⟨e', rfl, hj⟩ := h.mem_expertPlaces.mp hb
  obtain ⟨t, ht, hname⟩ := tensorAt_name h.ok hi
  obtain ⟨t', ht', hname'⟩ := tensorAt_name h.ok hj
  dsimp only at heq
  rw [ht, ht', Option.some.injEq] at heq
  rw [heq, hname'] at hname
  have hlayer := Name.ggufName_injective hname
  injection hlayer with _ hpart
  injection hpart with hexpert
  subst hexpert
  rw [h.once layer _ w i j hi hj]

theorem map_eq_map_of_injOn {α β : Type} {f : α → β} {l l' : List α}
    (hinj : ∀ a ∈ l, ∀ b ∈ l', f a = f b → a = b) (h : l.map f = l'.map f) : l = l' := by
  induction l generalizing l' with
  | nil => exact (List.map_eq_nil_iff.mp h.symm).symm
  | cons a l ih =>
    cases l' with
    | nil => cases h
    | cons b l' =>
      rw [List.map_cons, List.map_cons] at h
      obtain ⟨hhead, htail⟩ := List.cons.inj h
      rw [hinj a List.mem_cons_self b List.mem_cons_self hhead,
        ih (fun x hx y hy => hinj x (List.mem_cons_of_mem _ hx) y (List.mem_cons_of_mem _ hy)) htail]

def expsMerge (layer : Nat) (w : Weight) (last : Text) : Merge :=
  ⟨expsPattern layer w last, expsName layer w last⟩

theorem expsName_injective {layer layer' : Nat} {w w' : Weight} {last last' : Text}
    (hlast : last = ascii ".weight" ∨ last = ascii ".bias")
    (hlast' : last' = ascii ".weight" ∨ last' = ascii ".bias")
    (h : expsName layer w last = expsName layer' w' last') :
    layer = layer' ∧ w = w' ∧ last = last' := by
  have hname (layer : Nat) (w : Weight) (last : Text) : expsName layer w last =
      ascii "blk." ++ (decimal layer ++ 46 :: (w.exps ++ last)) := by
    simp only [expsName, List.append_assoc]
    rfl
  rw [hname, hname] at h
  obtain ⟨rfl, hrest⟩ := decimal_append_inj not_isDigit_dot (List.append_cancel_left h)
  refine ⟨rfl, ?_⟩
  rcases hlast with rfl | rfl <;> rcases hlast' with rfl | rfl <;> cases w <;> cases w' <;>
    first | exact absurd hrest (by decide) | exact ⟨rfl, rfl⟩

theorem expsMerge_apart {ts : List Tensor} (named : ∀ t ∈ ts, ∃ name : Name, t.name = name.ggufName)
    {layer layer' : Nat} {w w' : Weight} {last last' : Text}
    (hlast : last = ascii ".weight" ∨ last = ascii ".bias")
    (hlast' : last' = ascii ".weight" ∨ last' = ascii ".bias")
    (hne : ¬(layer = layer' ∧ w = w' ∧ last = last')) :
    Merge.Apart ts (expsMerge layer w last) (expsMerge layer' w' last') := by
  refine ⟨fun heq => hne (expsName_injective hlast hlast' heq), fun t ht hmatch => ?_⟩
  obtain ⟨name, hname⟩ := named t ht
  rw [expsMerge, hname] at hmatch
  rw [expsMerge, hname, Bool.eq_false_iff]
  intro hmatch'
  obtain ⟨hweight, e, rfl⟩ := (pathMatch_exps hlast name).mp hmatch
  obtain ⟨hweight', e', hlayer⟩ := (pathMatch_exps hlast' _).mp hmatch'
  injection hlayer with hlayer hpart
  injection hpart with _ hw
  exact hne ⟨hlayer, hw, hweight.trans hweight'.symm⟩

theorem mixtralMerges_apart {ts : List Tensor}
    (named : ∀ t ∈ ts, ∃ name : Name, t.name = name.ggufName) (numHiddenLayers : Nat) :
    (mixtralMerges numHiddenLayers).Pairwise (Merge.Apart ts) := by
  have hpair {i : Nat} {w : Weight} {m : Merge}
      (hm : m ∈ [expsMerge i w (ascii ".weight"), expsMerge i w (ascii ".bias")]) :
      ∃ last, (last = ascii ".weight" ∨ last = ascii ".bias") ∧ m = expsMerge i w last := by
    rcases List.mem_cons.mp hm with rfl | hm
    · exact ⟨_, .inl rfl, rfl⟩
    · exact ⟨_, .inr rfl, List.mem_singleton.mp hm⟩
  rw [mixtralMerges, List.pairwise_flatMap]
  constructor
  · intro i _
    rw [List.pairwise_flatMap]
    constructor
    · intro w _
      refine List.pairwise_pair.mpr (expsMerge_apart named (.inl rfl) (.inr rfl) ?_)
      rintro ⟨-, -, h⟩
      exact absurd h (by decide)
    · have hweights : [Weight.w1, .w2, .w3].Pairwise (· ≠ ·) := by decide
      refine hweights.imp fun hne a ha b hb => ?_
      obtain ⟨last, hlast, rfl⟩ := hpair ha
      obtain ⟨last', hlast', rfl⟩ := hpair hb
      exact expsMerge_apart named hlast hlast' fun h => hne h.2.1
  · refine List.pairwise_lt_range.imp fun hlt a ha b hb => ?_
    obtain ⟨w, -, ha⟩ := List.mem_flatMap.mp ha
    obtain ⟨w', -, hb⟩ := List.mem_flatMap.mp hb
    obtain ⟨last, hlast, rfl⟩ := hpair ha
    obtain ⟨last', hlast', rfl⟩ := hpair hb
    exact expsMerge_apart named hlast hlast' fun h => Nat.ne_of_lt hlt h.1

theorem mem_mixtralMerges {numHiddenLayers layer : Nat} (hlayer : layer < numHiddenLayers)
    (w : Weight) : expsMerge layer w (ascii ".weight") ∈ mixtralMerges numHiddenLayers := by
  refine List.mem_flatMap.mpr ⟨layer, List.mem_range.mpr hlayer, List.mem_flatMap.mpr ⟨w, ?_, ?_⟩⟩
  · cases w <;> decide
  · exact List.mem_cons_self

theorem Checkpoint.names (h : Checkpoint layers experts files) :
    ∀ t ∈ files.flatMap fun f => f.tensors (replacer mixtralReplacements) f.entries,
      ∃ name : Name, t.name = name.ggufName := by
  intro t ht
  obtain ⟨f, hf, ht⟩ := List.mem_flatMap.mp ht
  obtain ⟨e, he, htensor⟩ := List.mem_filterMap.mp ht
  obtain ⟨he, hdtype⟩ := List.mem_filter.mp he
  have he := f.entries_perm.mem_iff.mp he
  have hdtype : e.2.dtype ≠ [] := of_decide_eq_true hdtype
  obtain ⟨name, hkey⟩ := h.named f hf e he hdtype
  obtain ⟨t', ht', hname⟩ := f.tensor_ok (replacer mixtralReplacements) e.1
    (h.ok f hf e he hdtype)
  rw [ht'] at htensor
  obtain rfl := Option.some.inj htensor
  exact ⟨name, by rw [hname, hkey, replacer_key]⟩

theorem Checkpoint.inOrder_iff (h : Checkpoint layers experts files) (hlayer : layer < layers) :
    InOrder files (mergeTensors
        (files.flatMap fun f => f.tensors (replacer mixtralReplacements) f.entries)
        (mixtralMerges layers)).1 experts layer w ↔ StringOrder files experts layer w := by
  have hgroup := mergeTensors_writerTo (mixtralMerges_apart h.names layers)
    (mem_mixtralMerges hlayer w)
  rw [InOrder]
  change (writerTo _ (expsMerge layer w (ascii ".weight")).name).map some = _ ↔ _
  rw [hgroup]
  change ((files.flatMap _).filter fun t : Tensor =>
    pathMatch (expsPattern layer w (ascii ".weight")) t.name).map some = _ ↔ _
  rw [h.group_eq, ← h.places_eq_iff hlayer]
  have hnumbered : (List.range experts).map (expertTensor files layer w) =
      (numberedPlaces files experts layer w).map fun p => tensorAt files p.1 p.2 := by
    rw [numberedPlaces, List.map_map]
    rfl
  rw [hnumbered]
  refine ⟨fun heq => map_eq_map_of_injOn (fun a ha b hb => ?_) heq, congrArg _⟩
  exact h.tensorAt_injOn ha ((h.places_perm hlayer).mem_iff.mpr hb)

theorem writeTo_eq (write : Tensor → Option Text) (group : List Tensor) :
    writeTo write group = (group.mapM write).map List.flatten := by
  induction group with
  | nil => rfl
  | cons t group ih =>
    rw [writeTo, ih, List.mapM_cons]
    cases write t with
    | none => rfl
    | some data => cases group.mapM write <;> rfl

/-- Where they are in order, the data is that of the first expert, then that of the second, and so
on. -/
theorem InOrder.writeTo {out : List Merged} (h : InOrder files out experts layer w)
    (write : Tensor → Option Text) :
    Convert.writeTo write (writerTo out (expsName layer w (ascii ".weight"))) =
      ((List.range experts).mapM fun e => (expertTensor files layer w e).bind write).map
        List.flatten := by
  have hmap (l : List Tensor) : l.mapM write = (l.map some).mapM fun t => t.bind write := by
    induction l with
    | nil => rfl
    | cons t l ih => rw [List.mapM_cons, List.map_cons, List.mapM_cons, ih]; rfl
  rw [writeTo_eq, hmap, h, List.mapM_map]
  rfl

/-- The files of a Mixtral model are read, and the experts of its layers are merged in the order of
their numbers just when they are read in it: file by file, and in a file by the number as a string. -/
theorem mixtral_experts (h : Checkpoint layers experts files) :
    ∃ ts, parseSafetensors (replacer mixtralReplacements) files = .ok ts ∧
      ((∀ layer < layers, ∀ w, InOrder files (mergeTensors ts (mixtralMerges layers)).1 experts layer w) ↔
        ∀ layer < layers, ∀ w, StringOrder files experts layer w) :=
  ⟨_, h.parse, forall₂_congr fun _ hlayer => forall_congr' fun _ => h.inOrder_iff hlayer⟩

/-- From the files to what is written: where the experts are read in order, their data is. -/
theorem mixtral_expert_data (h : Checkpoint layers experts files)
    (order : ∀ layer < layers, ∀ w, StringOrder files experts layer w) :
    ∃ ts, parseSafetensors (replacer mixtralReplacements) files = .ok ts ∧
      ∀ layer < layers, ∀ w write,
        writeTo write (writerTo (mergeTensors ts (mixtralMerges layers)).1 (expsName layer w (ascii ".weight"))) =
          ((List.range experts).mapM fun e => (expertTensor files layer w e).bind write).map List.flatten :=
  ⟨_, h.parse, fun layer hlayer w write => ((h.inOrder_iff hlayer).mpr (order layer hlayer w)).writeTo write⟩

/-! ### A layer in one file -/

def oneEntry (e : Nat) (w : Weight) : Text × Metadata :=
  let i : Int := 3 * e + match w with
    | .w1 => 0
    | .w2 => 1
    | .w3 => 2
  (expertKey 0 e w, { dtype := ascii "F32", shape := [1, 1], offsets := [4 * i, 4 * i + 4] })

def oneFile (experts : Nat) : File where
  path := ascii "model.safetensors"
  n := 2000
  headers := ((List.range experts).product [.w1, .w2, .w3]).map fun p => oneEntry p.1 p.2
  nodup := by
    rw [List.map_map]
    refine List.Nodup.map ?_ (List.nodup_range.product (by decide))
    rintro ⟨e, w⟩ ⟨e', w'⟩ heq
    have hkey : expertKey 0 e w = expertKey 0 e' w' := heq
    have hname := Name.key_injective hkey
    injection hname with _ hpart
    injection hpart with hexpert hweight
    rw [hexpert, hweight]

theorem mem_oneFile {experts : Nat} {entry : Text × Metadata} :
    entry ∈ (oneFile experts).headers ↔ ∃ e < experts, ∃ w, entry = oneEntry e w := by
  simp only [oneFile, List.mem_map, Prod.exists, List.pair_mem_product, List.mem_range]
  constructor
  · rintro ⟨e, w, ⟨he, -⟩, rfl⟩
    exact ⟨e, he, w, rfl⟩
  · rintro ⟨e, he, w, rfl⟩
    exact ⟨e, w, ⟨he, by cases w <;> decide⟩, rfl⟩

theorem oneFile_holds {experts e i : Nat} :
    HoldsExpert [oneFile experts] i layer e w ↔ i = 0 ∧ layer = 0 ∧ e < experts := by
  constructor
  · rintro ⟨f, hfile, hholds⟩
    obtain ⟨rfl, rfl⟩ : i = 0 ∧ oneFile experts = f := by
      cases i with
      | zero => exact ⟨rfl, Option.some.inj hfile⟩
      | succ i => cases hfile
    obtain ⟨v, hv, -⟩ := File.holds_iff.mp hholds
    obtain ⟨e', he', w', heq⟩ := mem_oneFile.mp hv
    have hkey : expertKey layer e w = expertKey 0 e' w' := congrArg Prod.fst heq
    have hname := Name.key_injective hkey
    injection hname with hlayer hpart
    injection hpart with hexpert
    exact ⟨rfl, hlayer, hexpert ▸ he'⟩
  · rintro ⟨rfl, rfl, he⟩
    refine ⟨_, rfl, File.holds_iff.mpr ⟨(oneEntry e w).2, mem_oneFile.mpr ⟨e, he, w, rfl⟩, ?_⟩⟩
    exact (by decide : ascii "F32" ≠ [])

theorem oneFile_checkpoint (experts : Nat) : Checkpoint 1 experts [oneFile experts] where
  ok f hf e he _ := by
    obtain rfl := List.mem_singleton.mp hf
    obtain ⟨n, -, w, rfl⟩ := mem_oneFile.mp he
    exact ⟨List.cons_ne_nil _ _, Nat.le_refl 2⟩
  named f hf e he _ := by
    obtain rfl := List.mem_singleton.mp hf
    obtain ⟨n, -, w, rfl⟩ := mem_oneFile.mp he
    exact ⟨.layer 0 (.expert n w), rfl⟩
  all layer hlayer e he w := ⟨0, oneFile_holds.mpr ⟨rfl, Nat.lt_one_iff.mp hlayer, he⟩⟩
  once layer e w i j hi hj := (oneFile_holds.mp hi).1.trans (oneFile_holds.mp hj).1.symm
  only layer e w i hi := (oneFile_holds.mp hi).2.2

/-- In one file up to ten experts are in order, and more are not. -/
theorem oneFile_stringOrder {experts : Nat} :
    StringOrder [oneFile experts] experts 0 w ↔ experts ≤ 10 := by
  constructor
  · intro h
    by_contra hmany
    have hholds {e : Nat} (he : e < experts) : HoldsExpert [oneFile experts] 0 0 e w :=
      oneFile_holds.mpr ⟨rfl, rfl, he⟩
    rcases h 2 10 (by decide) (by omega) 0 0 (hholds (by omega)) (hholds (by omega))
      with hlt | ⟨-, hlt⟩
    · exact Nat.lt_irrefl 0 hlt
    · revert hlt
      decide
  · intro hfew e e' hlt he' i j hi hj
    have hdigits : ∀ e' < 10, ∀ e < e', decimal e < decimal e' := by decide
    rw [(oneFile_holds.mp hi).1, (oneFile_holds.mp hj).1]
    exact .inr ⟨rfl, hdigits e' (by omega) e hlt⟩

theorem oneFile_eight : ∃ ts, parseSafetensors (replacer mixtralReplacements) [oneFile 8] = .ok ts ∧
    ∀ layer < 1, ∀ w, InOrder [oneFile 8] (mergeTensors ts (mixtralMerges 1)).1 8 layer w := by
  obtain ⟨ts, hparse, hiff⟩ := mixtral_experts (oneFile_checkpoint 8)
  refine ⟨ts, hparse, hiff.mpr fun layer hlayer w => ?_⟩
  rw [Nat.lt_one_iff.mp hlayer]
  exact oneFile_stringOrder.mpr (by decide)

theorem oneFile_data : ∃ ts, parseSafetensors (replacer mixtralReplacements) [oneFile 8] = .ok ts ∧
    ∀ layer < 1, ∀ w write,
      writeTo write (writerTo (mergeTensors ts (mixtralMerges 1)).1 (expsName layer w (ascii ".weight"))) =
        ((List.range 8).mapM fun e => (expertTensor [oneFile 8] layer w e).bind write).map List.flatten :=
  mixtral_expert_data (oneFile_checkpoint 8) fun layer hlayer w =>
    Nat.lt_one_iff.mp hlayer ▸ oneFile_stringOrder.mpr (by decide)

/-- The experts 0, 1, ..., 10 of one file are written in another order. -/
theorem oneFile_eleven : Checkpoint 1 11 [oneFile 11] ∧
    ∃ ts, parseSafetensors (replacer mixtralReplacements) [oneFile 11] = .ok ts ∧
      ¬∀ layer < 1, ∀ w, InOrder [oneFile 11] (mergeTensors ts (mixtralMerges 1)).1 11 layer w := by
  have h := oneFile_checkpoint 11
  refine ⟨h, _, h.parse, fun horder => ?_⟩
  have hstring := (h.inOrder_iff Nat.one_pos).mp (horder 0 Nat.one_pos .w1)
  exact absurd (oneFile_stringOrder.mp hstring) (by decide)

end Ecco9.Convert
