import Ecco9.Ggml.Lengths
import Ecco9.Ggml.Readback

/-! What `WriteGGUF` has written `Decode` reads. -/

namespace Ecco9.Ggml

open Ecco9.Library

/-! ### Offsets -/

theorem padding_ofNat {a n : Nat} (ha : 0 < a) (halt : a < 2 ^ 63) (hn : n < 2 ^ 63) :
    padding (.ofNat n) (.ofNat a) = .ofNat ((a - n % a) % a) := by
  have mod {m b : Nat} (hm : m < 2 ^ 63) (hb : b < 2 ^ 63) :
      Int64.ofNat m % Int64.ofNat b = Int64.ofNat (m % b) := by
    have hmod : m % b < 2 ^ 63 := Nat.lt_of_le_of_lt (Nat.mod_le m b) hm
    refine Int64.toInt_inj.mp ?_
    rw [Int64.toInt_mod, Int64.toInt_ofNat_of_lt hm, Int64.toInt_ofNat_of_lt hb,
      Int64.toInt_ofNat_of_lt hmod]
    rfl
  have hlt : n % a < a := Nat.mod_lt n ha
  rw [padding, mod hn halt, ← Int64.ofNat_sub _ _ hlt.le, mod (by omega) halt]

/-- The next multiple, from where a file is or a tensor ends. -/
theorem add_padding_ofNat {a n : Nat} (ha : 0 < a) (halt : a < 2 ^ 63) (hn : n < 2 ^ 63) :
    Int64.ofNat n + padding (.ofNat n) (.ofNat a) = .ofNat (alignUp a n) := by
  rw [padding_ofNat ha halt hn, ← Int64.ofNat_add, alignUp]

/-- The tensors with their offsets, as numbers. -/
def placeAt (a : Nat) : Nat → List TensorSource → List (TensorSource × Nat)
  | _, [] => []
  | s, t :: ts => (t, s) :: placeAt a (alignUp a (s + t.data.length)) ts

/-- The size of a tensor does not depend on where it is. -/
theorem Tensor.size_congr {t u : Tensor} (hkind : t.kind = u.kind) (hshape : t.shape = u.shape) :
    t.size = u.size := by
  rw [Tensor.size, Tensor.size, Tensor.elements, Tensor.elements, Tensor.type, Tensor.type, hkind, hshape]

theorem TensorSource.size_tensor (t : TensorSource) (offset : UInt64) :
    (t.tensor offset).size.toNat = t.data.length := by
  rw [t.length_data]
  exact congrArg UInt64.toNat (Tensor.size_congr rfl rfl)

theorem TensorSource.size_eq (t : TensorSource) : t.size = .ofNat t.data.length := by
  rw [t.length_data, UInt64.ofNat_toNat]
  rfl

/-- As long as each tensor ends in the file, no offset is cut off. -/
theorem place_ofNat {a b limit : Nat} (ha : 0 < a) (halt : a < 2 ^ 63) (hlimit : limit + a ≤ 2 ^ 63) {s : Nat}
    {ts : List TensorSource} (hs : a ∣ s) (hbase : b + s < 2 ^ 63)
    (ends : ∀ p ∈ place (.ofNat a) (.ofNat s) ts, p.1.data ≠ [] →
      (Int64.ofNat b + p.2.toInt64).toInt.toNat + p.1.data.length ≤ limit) :
    place (.ofNat a) (.ofNat s) ts = (placeAt a s ts).map (fun p => (p.1, .ofNat p.2)) ∧
      ∀ p ∈ placeAt a s ts, a ∣ p.2 ∧ b + p.2 < 2 ^ 63 ∧
        (p.1.data ≠ [] → b + p.2 + p.1.data.length ≤ limit) := by
  induction ts generalizing s with
  | nil => exact ⟨rfl, nofun⟩
  | cons t ts ih =>
    rw [place] at ends ⊢
    have fits : t.data ≠ [] → b + s + t.data.length ≤ limit := by
      intro hne
      have := ends _ List.mem_cons_self hne
      rwa [UInt64.toInt64_ofNat', ← Int64.ofNat_add, Int64.toInt_ofNat_of_lt hbase] at this
    have bound : s + t.data.length < 2 ^ 63 ∧ b + alignUp a (s + t.data.length) < 2 ^ 63 := by
      by_cases hne : t.data = []
      · rw [hne, List.length_nil, Nat.add_zero, alignUp_of_dvd hs]
        omega
      · have := fits hne
        have := alignUp_lt ha (s + t.data.length)
        omega
    have next : UInt64.ofNat s + t.size + (padding (UInt64.ofNat s + t.size).toInt64 (.ofNat a)).toUInt64 =
        .ofNat (alignUp a (s + t.data.length)) := by
      rw [t.size_eq, ← UInt64.ofNat_add, UInt64.toInt64_ofNat', padding_ofNat ha halt bound.1,
        Int64.toUInt64_ofNat', ← UInt64.ofNat_add, alignUp]
    rw [next] at ends ⊢
    obtain ⟨heq, hall⟩ := ih (dvd_alignUp ha _) bound.2 fun p hp => ends p (List.mem_cons_of_mem _ hp)
    rw [placeAt, List.map_cons, heq]
    exact ⟨rfl, List.forall_mem_cons.mpr ⟨⟨hs, hbase, fits⟩, hall⟩⟩

theorem le_placeAt {a s : Nat} {ts : List TensorSource} : ∀ p ∈ placeAt a s ts, s ≤ p.2 := by
  induction ts generalizing s with
  | nil => nofun
  | cons t ts ih =>
    refine List.forall_mem_cons.mpr ⟨Nat.le_refl s, fun p hp => ?_⟩
    have := ih p hp
    have := le_alignUp a (s + t.data.length)
    omega

/-- Each tensor ends before the next one begins. -/
theorem pairwise_placeAt (a s : Nat) (ts : List TensorSource) :
    (placeAt a s ts).Pairwise fun p q => p.2 + p.1.data.length ≤ q.2 := by
  induction ts generalizing s with
  | nil => exact .nil
  | cons t ts ih =>
    refine List.pairwise_cons.mpr ⟨fun p hp => ?_, ih _⟩
    have := le_placeAt p hp
    have := le_alignUp a (s + t.data.length)
    dsimp only
    omega

theorem map_fst_placeAt (a s : Nat) (ts : List TensorSource) : (placeAt a s ts).map Prod.fst = ts := by
  induction ts generalizing s with
  | nil => rfl
  | cons t ts ih => rw [placeAt, List.map_cons, ih]

/-! ### The file -/

def offsets (placed : List (TensorSource × Nat)) : List (TensorSource × UInt64) :=
  placed.map fun p => (p.1, .ofNat p.2)

/-- Where the data begin. -/
def base (kv : Metadata) (placed : List (TensorSource × Nat)) : Nat :=
  alignUp kv.alignment.toNat (header kv (offsets placed)).length

/-- What a successful `WriteGGUF` leaves: the header, and behind it the data, each at its place. -/
structure Written (kv : Metadata) (placed : List (TensorSource × Nat)) (file : Text) : Prop where
  alignment : 0 < kv.alignment.toNat
  typed : ∀ e ∈ kv.entries, e.2.value.isSome = true
  header : header kv (offsets placed) <+: file
  aligned : ∀ p ∈ placed, kv.alignment.toNat ∣ p.2
  bound : base kv placed < 2 ^ 63 ∧ ∀ p ∈ placed, base kv placed + p.2 < 2 ^ 63
  apart : placed.Pairwise fun p q => p.2 + p.1.data.length ≤ q.2
  within : ∀ p ∈ placed, p.1.data ≠ [] → base kv placed + p.2 + p.1.data.length ≤ file.length
  data : ∀ p ∈ placed, (file.drop (base kv placed + p.2)).take p.1.data.length = p.1.data

theorem parts_perm {jobs jobs' : List (Int64 × Text)} (h : jobs.Perm jobs') :
    (parts jobs).Perm (parts jobs') := (h.filter _).map _

theorem toInt64_alignment (n : UInt32) : n.toUInt64.toInt64 = .ofNat n.toNat := by
  rw [← UInt64.toInt64_ofNat', ← UInt32.toNat_toUInt64, UInt64.ofNat_toNat]

theorem writeGGUFFile_places {sort : Arrangement TensorSource}
    {schedule : Arrangement (TensorSource × UInt64)} {kv : Metadata} {ts : List TensorSource} {f : File}
    (h : writeGGUFFile sort schedule kv ts {} = .ok () f)
    (short : f.content.length + kv.alignment.toNat ≤ 2 ^ 63) :
    Written kv (placeAt kv.alignment.toNat 0 (sort.apply ts)) f.content := by
  obtain ⟨hne, typed, jobs, perm, nonneg, hcontent⟩ := writeGGUFFile_written rfl h
  have ha : 0 < kv.alignment.toNat := by
    rw [ne_eq, toInt64_eq_zero] at hne
    exact Nat.pos_of_ne_zero fun h0 => hne (UInt32.toNat_inj.mp h0)
  have halt : kv.alignment.toNat < 2 ^ 63 := Nat.lt_trans kv.alignment.toNat_lt (by decide)
  generalize hplaced : place kv.alignment.toUInt64.toInt64 0 (sort.apply ts) = placed at *
  rw [toInt64_alignment] at hplaced
  generalize hfront : header kv placed = front at *
  have hlen : front.length ≤ f.content.length := by
    rw [hcontent]
    exact le_length_writeAll 0 _ _
  have hstart : alignUp kv.alignment.toNat front.length < 2 ^ 63 := by
    have := alignUp_lt ha front.length
    omega
  have hjobs : jobsOf kv placed = placed.map fun t =>
      (Int64.ofNat (alignUp kv.alignment.toNat front.length) + t.2.toInt64, t.1.data) := by
    rw [jobsOf, hfront, toInt64_alignment, add_padding_ofNat ha halt (by omega)]
  -- each tensor that is not empty ends in the file, so that no offset is cut off
  have ends : ∀ p ∈ place (.ofNat kv.alignment.toNat) (.ofNat 0) (sort.apply ts), p.1.data ≠ [] →
      (Int64.ofNat (alignUp kv.alignment.toNat front.length) + p.2.toInt64).toInt.toNat +
        p.1.data.length ≤ f.content.length := by
    intro p hp hdata
    have hmem : p ∈ placed := hplaced ▸ hp
    have hjob := perm.mem_iff.mpr (hjobs ▸ List.mem_map_of_mem hmem)
    have hpart : ((Int64.ofNat (alignUp kv.alignment.toNat front.length) + p.2.toInt64).toInt.toNat,
        p.1.data) ∈ parts jobs :=
      List.mem_map.mpr ⟨_, List.mem_filter.mpr ⟨hjob, decide_eq_true hdata⟩, rfl⟩
    rw [hcontent]
    exact part_le_length_writeAll hpart
  obtain ⟨hoffsets, hall⟩ := place_ofNat (b := alignUp kv.alignment.toNat front.length) ha halt short
    (Nat.dvd_zero _) hstart ends
  have hplaced' : placed = offsets (placeAt kv.alignment.toNat 0 (sort.apply ts)) :=
    hplaced.symm.trans hoffsets
  have hbase : base kv (placeAt kv.alignment.toNat 0 (sort.apply ts)) =
      alignUp kv.alignment.toNat front.length := by
    rw [base, ← hplaced', hfront]
  have hapart := pairwise_placeAt kv.alignment.toNat 0 (sort.apply ts)
  generalize placeAt kv.alignment.toNat 0 (sort.apply ts) = regions at *
  have hparts : parts (jobsOf kv placed) = (regions.filter fun p => p.1.data ≠ []).map fun p =>
      (base kv regions + p.2, p.1.data) := by
    rw [hjobs, parts, hplaced', offsets, List.map_map, List.filter_map, List.map_map]
    refine List.map_congr_left fun p hp => ?_
    have hbound := (hall p (List.mem_of_mem_filter hp)).2.1
    simp only [Function.comp_apply, UInt64.toInt64_ofNat', ← Int64.ofNat_add,
      Int64.toInt_ofNat_of_lt hbound, Int.toNat_natCast, hbase]
  have hpermParts := parts_perm perm
  rw [hparts] at hpermParts
  have separate : (parts jobs).Pairwise fun p q => p.1 + p.2.length ≤ q.1 ∨ q.1 + q.2.length ≤ p.1 := by
    refine (hpermParts.pairwise_iff fun h => h.symm).mpr (List.pairwise_map.mpr ?_)
    exact (hapart.filter _).imp fun h => .inl (by dsimp only; omega)
  have hfrontLe := le_alignUp kv.alignment.toNat front.length
  refine
    { alignment := ha
      typed
      header := ?_
      aligned := fun p hp => (hall p hp).1
      bound := ⟨by rw [hbase]; exact hstart, fun p hp => by rw [hbase]; exact (hall p hp).2.1⟩
      apart := hapart
      within := fun p hp hdata => by rw [hbase]; exact (hall p hp).2.2 hdata
      data := fun p hp => ?_ }
  · have kept : (f.content.drop 0).take front.length = (front.drop 0).take front.length := by
      rw [hcontent]
      refine slice_writeAll_other (by omega) fun part hpart => ?_
      obtain ⟨p, -, rfl⟩ := List.mem_map.mp (hpermParts.mem_iff.mp hpart)
      left
      dsimp only
      omega
    rw [List.drop_zero, List.drop_zero, List.take_length] at kept
    rw [← hplaced', hfront, ← kept]
    exact List.take_prefix _ _
  · by_cases hdata : p.1.data = []
    · rw [hdata]
      rfl
    · have hpart : (base kv regions + p.2, p.1.data) ∈ parts jobs :=
        hpermParts.mem_iff.mpr (List.mem_map_of_mem (List.mem_filter.mpr ⟨hp, decide_eq_true hdata⟩))
      rw [hcontent]
      exact slice_writeAll separate hpart

/-! ### Decoding -/

section

variable {kv : Metadata} {ts : List TensorSource} {file : Text} {a b q : Nat}

theorem seekCurrent_forward {n : Nat} (h : q + n < 2 ^ 63) :
    seekCurrent (.ofNat n) ⟨file, q⟩ = .ok (.ofNat (q + n)) ⟨file, q + n⟩ := by
  have hwrap : wrap64 ((q : Int) + (n : Int)) = ((q + n : Nat) : Int) := by
    rw [← Int.natCast_add]
    exact wrap64_of_range (by omega) (by omega)
  have hseek : ReadSeeker.seek ⟨file, q⟩ (Int64.ofNat n).toInt 1 true = (some (q + n), ⟨file, q + n⟩) := by
    rw [Int64.toInt_ofNat_of_lt (by omega), ReadSeeker.seek,
      show ReadSeeker.target (⟨file, q⟩ : Source) n 1 = some (wrap64 ((q : Int) + (n : Int))) from rfl, hwrap]
    dsimp only
    rw [if_pos ⟨rfl, Int.natCast_nonneg _⟩, Int.toNat_natCast]
  rw [seekCurrent, hseek]

theorem seekCurrent_here (h : q < 2 ^ 63) : seekCurrent 0 ⟨file, q⟩ = .ok (.ofNat q) ⟨file, q⟩ :=
  seekCurrent_forward (n := 0) h

theorem failing_ok {α : Type} {x : Decoding α} {v : α} {rs rs' : Source} (what : String)
    (h : x rs = .ok v rs') : failing what x rs = .ok v rs' := by rw [failing, h]

/-- The data of a tensor are passed over. -/
theorem seekTensor_over (file : Text) {t : Tensor} (ha : 0 < a) (halt : a < 2 ^ 63)
    (h : alignUp a q + t.size.toNat < 2 ^ 63) :
    seekTensor (.ofNat a) t ⟨file, q⟩ = .ok () ⟨file, alignUp a q + t.size.toNat⟩ := by
  have hq := le_alignUp a q
  have hne : Int64.ofNat a ≠ 0 := by
    intro heq
    have := congrArg Int64.toInt heq
    rw [Int64.toInt_ofNat_of_lt halt, show Int64.toInt 0 = 0 from rfl] at this
    omega
  have hsize : t.size.toInt64 = .ofNat t.size.toNat := by
    rw [← UInt64.toInt64_ofNat', UInt64.ofNat_toNat]
  rw [seekTensor, bind_of_ok (failing_ok _ (seekCurrent_here (by omega))),
    bind_of_ok ((ggufPadding_eq ..).trans (if_pos hne)), padding_ofNat ha halt (by omega),
    bind_of_ok (failing_ok _ (seekCurrent_forward (by rw [alignUp] at h; omega))), hsize,
    bind_of_ok (failing_ok _ (seekCurrent_forward (by rw [alignUp] at h; omega)))]
  rfl

/-- The tensors, as they are told of. -/
def told (placed : List (TensorSource × Nat)) : List Tensor := placed.map fun p => p.1.tensor (.ofNat p.2)

theorem forM_seekTensor (file : Text) {s : Nat} (ha : 0 < a) (halt : a < 2 ^ 63) (hb : a ∣ b) (hq : alignUp a q = b + s)
    (hlt : q < 2 ^ 63) (bound : ∀ p ∈ placeAt a s ts, b + p.2 + p.1.data.length < 2 ^ 63) :
    ∃ q', (told (placeAt a s ts)).forM (seekTensor (.ofNat a)) ⟨file, q⟩ = .ok () ⟨file, q'⟩ ∧
      q' < 2 ^ 63 := by
  induction ts generalizing s q with
  | nil => exact ⟨q, rfl, hlt⟩
  | cons t ts ih =>
    have hsize := t.size_tensor (.ofNat s)
    have hend := bound _ List.mem_cons_self
    have hnext : alignUp a (b + s + t.data.length) = b + alignUp a (s + t.data.length) := by
      rw [Nat.add_assoc, alignUp_add hb]
    obtain ⟨q', hrest, hq'⟩ := ih hnext hend fun p hp => bound p (List.mem_cons_of_mem _ hp)
    have hover := seekTensor_over file (t := t.tensor (.ofNat s)) ha halt (by rw [hq, hsize]; exact hend)
    rw [hq, hsize] at hover
    have hcons : told (placeAt a s (t :: ts)) =
        t.tensor (.ofNat s) :: told (placeAt a (alignUp a (s + t.data.length)) ts) := rfl
    refine ⟨q', ?_, hq'⟩
    rw [hcons, List.forM, bind_of_ok hover]
    exact hrest

/-! The key values -/

/-- What is read of a key value. -/
def pair (e : GoString × Entry) : Text × Value := (e.1.1, e.2.value.getD (.plain (.bool false)))

theorem lookup_pairs (kv : Metadata) (typed : ∀ e ∈ kv.entries, e.2.value.isSome = true) (key : Text) :
    (assign Prod.fst Prod.snd (kv.sorted.map pair) ∅).lookup key = (kv.lookup key).bind Entry.value := by
  have perm : kv.entries.Perm kv.sorted.reverse :=
    (List.mergeSort_perm ..).symm.trans (List.reverse_perm _).symm
  have found : ((kv.sorted.map pair).reverse.find? fun e => e.1 = key) =
      (kv.entries.find? fun e => e.1.1 = key).map pair := by
    have same : (kv.sorted.reverse.find? fun e => e.1.1 = key) =
        kv.entries.find? fun e => e.1.1 = key := find?_eq_of_perm perm kv.nodup key
    rw [← List.map_reverse, List.find?_map, ← same]
    rfl
  rw [lookup_assign, found, AList.lookup_empty, Option.or_none, Metadata.lookup, Option.map_map]
  cases hfind : kv.entries.find? fun e => e.1.1 = key with
  | none => rfl
  | some e =>
    obtain ⟨value, hvalue⟩ := Option.isSome_iff_exists.mp (typed e (List.mem_of_find?_eq_some hfind))
    simp [pair, hvalue]

/-- The writer and the reader agree on the alignment, unless it is a file type. -/
theorem alignment_pairs (kv : Metadata) (typed : ∀ e ∈ kv.entries, e.2.value.isSome = true)
    (named : ∀ n, kv.lookup (ascii "general.alignment") ≠ some (.fileType n)) (count : Value) :
    KV.alignment ((assign Prod.fst Prod.snd (kv.sorted.map pair) ∅).insert
      (ascii "general.parameter_count") count) = kv.alignment := by
  rw [KV.alignment, KV.uint, AList.lookup_insert_ne (by decide), lookup_pairs kv typed, Metadata.alignment]
  cases hlookup : kv.lookup (ascii "general.alignment") with
  | none => rfl
  | some entry =>
    cases entry with
    | fileType n => exact absurd hlookup (named n)
    | _ => rfl

/-! The whole file -/

/-- The bytes of a tensor begin here. -/
def Model.start (m : Model) (t : Tensor) : Nat := m.tensorOffset.toNat + t.offset.toNat

/-- What is decoded of a file is what was written to it. -/
structure Preserves (kv : Metadata) (ts : List TensorSource) (file : Text) (m : Model) : Prop where
  values : ∀ key, key ≠ ascii "general.parameter_count" →
    m.kv.lookup key = (kv.lookup key).bind Entry.value
  count : m.kv.lookup (ascii "general.parameter_count") =
    some (.plain (.uint64 (m.tensors.foldl (· + ·.elements) 0)))
  tensors : m.tensors.map (fun t => (t.name, t.kind, t.shape)) =
    ts.map fun t => (t.name.1, t.kind, t.shape)
  data : m.tensors.map (fun t => (file.drop (m.start t)).take t.size.toNat) = ts.map TensorSource.data
  aligned : ∀ t ∈ m.tensors, kv.alignment.toNat ∣ m.start t
  apart : m.tensors.Pairwise fun t u => m.start t + t.size.toNat ≤ m.start u
  within : ∀ t ∈ m.tensors, t.size ≠ 0 → m.start t + t.size.toNat ≤ file.length

/-- The model that is decoded. -/
def modelOf (kv : Metadata) (placed : List (TensorSource × Nat)) : Model where
  kv := (assign Prod.fst Prod.snd (kv.sorted.map pair) ∅).insert (ascii "general.parameter_count")
    (.plain (.uint64 ((told placed).foldl (· + ·.elements) 0)))
  tensors := told placed
  parameters := (told placed).foldl (· + ·.elements) 0
  tensorOffset := .ofNat (base kv placed)

theorem Written.preserves {placed : List (TensorSource × Nat)} (w : Written kv placed file) :
    Preserves kv (placed.map Prod.fst) file (modelOf kv placed) := by
  have start (p : TensorSource × Nat) (hp : p ∈ placed) :
      (modelOf kv placed).start (p.1.tensor (.ofNat p.2)) = base kv placed + p.2 := by
    have := w.bound.2 p hp
    rw [Model.start, modelOf, TensorSource.tensor, UInt64.toNat_ofNat_of_lt' (by rw [UInt64.size]; omega),
      UInt64.toNat_ofNat_of_lt' (by rw [UInt64.size]; omega)]
  have size (p : TensorSource × Nat) := p.1.size_tensor (.ofNat p.2)
  constructor
  · intro key hkey
    rw [modelOf, AList.lookup_insert_ne hkey, lookup_pairs kv w.typed]
  · exact AList.lookup_insert _
  · rw [modelOf, told, List.map_map, List.map_map]
    rfl
  · rw [show (modelOf kv placed).tensors = told placed from rfl, told, List.map_map, List.map_map]
    refine List.map_congr_left fun p hp => ?_
    rw [Function.comp_apply, Function.comp_apply, start p hp, size p]
    exact w.data p hp
  · intro t ht
    obtain ⟨p, hp, rfl⟩ := List.mem_map.mp ht
    rw [start p hp]
    exact Nat.dvd_add (dvd_alignUp w.alignment _) (w.aligned p hp)
  · refine List.pairwise_map.mpr (w.apart.imp_of_mem fun {p q} hp hq h => ?_)
    rw [start p hp, start q hq, size p]
    omega
  · intro t ht hne
    obtain ⟨p, hp, rfl⟩ := List.mem_map.mp ht
    rw [start p hp, size p]
    refine w.within p hp fun hnil => hne (UInt64.toNat_inj.mp ?_)
    rw [size p, hnil]
    rfl

/-! Reading it -/

theorem le_flatMap_length {α : Type} {f : α → Text} {l : List α} (h : ∀ x ∈ l, f x ≠ []) :
    l.length ≤ (l.flatMap f).length := by
  induction l with
  | nil => exact Nat.le_refl 0
  | cons x l ih =>
    obtain ⟨hx, hl⟩ := List.forall_mem_cons.mp h
    have := List.length_pos_iff.mpr hx
    have := ih hl
    rw [List.flatMap_cons, List.length_append, List.length_cons]
    omega

theorem keyValueBytes_ne_nil (e : GoString × Entry) : keyValueBytes e ≠ [] := by
  intro h
  have := congrArg List.length h
  simp [keyValueBytes] at this

theorem tensorBytes_ne_nil (t : TensorSource × UInt64) : tensorBytes t ≠ [] := by
  intro h
  have := congrArg List.length h
  simp [tensorBytes] at this

/-- The container of a file that `WriteGGUF` writes. -/
def containerOf (kv : Metadata) (ts : List TensorSource) : Container where
  order := .littleEndian
  version := 3
  numTensor := .ofNat ts.length
  numKV := .ofNat kv.entries.length
  maxArraySize := -1

theorem reads_keyValues (ts : List TensorSource) (typed : ∀ e ∈ kv.entries, e.2.value.isSome = true)
    (hlen : kv.entries.length < 2 ^ 64) :
    Reads (repeated (containerOf kv ts).readKeyValue (containerOf kv ts).numKV.toNat)
      (kv.sorted.flatMap keyValueBytes) (kv.sorted.map pair) := by
  have hcount : (containerOf kv ts).numKV.toNat = kv.sorted.length := by
    rw [containerOf, UInt64.toNat_ofNat_of_lt' (by rw [UInt64.size]; omega), Metadata.sorted,
      List.length_mergeSort]
  rw [hcount]
  refine reads_repeated fun e he => ?_
  obtain ⟨value, hvalue⟩ := Option.isSome_iff_exists.mp
    (typed e ((List.mergeSort_perm ..).mem_iff.mp he))
  have hreads := Container.reads_readKeyValue (c := containerOf kv ts) rfl
    (show (3 : UInt32) ≠ 1 by decide) (show (-1 : Int) < 0 by decide) hvalue
  rwa [pair, hvalue]

theorem reads_tensors (kv : Metadata) {placed : List (TensorSource × Nat)} (hts : placed.map Prod.fst = ts)
    (hlen : ts.length < 2 ^ 64) (shapes : ∀ t ∈ ts, t.shape.length < 2 ^ 32) :
    Reads (repeated (containerOf kv ts).readTensor (containerOf kv ts).numTensor.toNat)
      ((offsets placed).flatMap tensorBytes) (told placed) := by
  have hcount : (containerOf kv ts).numTensor.toNat = (offsets placed).length := by
    rw [containerOf, UInt64.toNat_ofNat_of_lt' (by rw [UInt64.size]; omega), ← hts, offsets,
      List.length_map, List.length_map]
  have htold : told placed = (offsets placed).map fun t => t.1.tensor t.2 := by
    rw [told, offsets, List.map_map]
    rfl
  rw [hcount, htold]
  refine reads_repeated fun t ht => ?_
  obtain ⟨p, hp, rfl⟩ := List.mem_map.mp ht
  exact Container.reads_readTensor (c := containerOf kv ts) rfl
    (show (3 : UInt32) ≠ 1 by decide)
    (shapes p.1 (hts ▸ List.mem_map_of_mem hp))

theorem decodeData_written (w : Written kv (placeAt kv.alignment.toNat 0 ts) file) {values : KV}
    (halign : values.alignment = kv.alignment) (parameters : UInt64)
    (hq : q = (header kv (offsets (placeAt kv.alignment.toNat 0 ts))).length) (hlt : file.length < 2 ^ 63) :
    ∃ q', decodeData values (told (placeAt kv.alignment.toNat 0 ts)) parameters ⟨file, q⟩ =
      .ok { kv := values, tensors := told (placeAt kv.alignment.toNat 0 ts), parameters
            tensorOffset := .ofNat (base kv (placeAt kv.alignment.toNat 0 ts)) } ⟨file, q'⟩ ∧
      q' < 2 ^ 63 := by
  have halt : kv.alignment.toNat < 2 ^ 63 := Nat.lt_trans kv.alignment.toNat_lt (by decide)
  have hbase : base kv (placeAt kv.alignment.toNat 0 ts) = alignUp kv.alignment.toNat q := by rw [base, hq]
  have hb := w.bound.1
  have hle := le_alignUp kv.alignment.toNat q
  rw [hbase] at hb
  have hne : Int64.ofNat kv.alignment.toNat ≠ 0 := by
    rw [← toInt64_alignment, ne_eq, toInt64_eq_zero]
    intro h
    have := w.alignment
    rw [h] at this
    exact absurd this (by decide)
  have ends : ∀ p ∈ placeAt kv.alignment.toNat 0 ts,
      alignUp kv.alignment.toNat q + p.2 + p.1.data.length < 2 ^ 63 := by
    intro p hp
    by_cases hdata : p.1.data = []
    · have := w.bound.2 p hp
      rw [hbase] at this
      rwa [hdata]
    · have := w.within p hp hdata
      rw [hbase] at this
      omega
  obtain ⟨q', hseeks, hq'⟩ := forM_seekTensor file (q := q) w.alignment halt
    (dvd_alignUp w.alignment q) (Nat.add_zero _).symm (by omega) ends
  refine ⟨q', ?_, hq'⟩
  rw [decodeData, halign, toInt64_alignment, bind_of_ok (seekCurrent_here (by omega)),
    bind_of_ok ((ggufPadding_eq ..).trans (if_pos hne)), bind_of_ok hseeks,
    add_padding_ofNat w.alignment halt (by omega), Int64.toUInt64_ofNat', hbase]
  rfl

/-- The header is read up to the data. -/
theorem decodeContainer_front {placed : List (TensorSource × Nat)} {rest : Text}
    (hfile : header kv (offsets placed) ++ rest = file) (hlt : file.length < 2 ^ 63)
    (typed : ∀ e ∈ kv.entries, e.2.value.isSome = true) (hts : placed.map Prod.fst = ts)
    (shapes : ∀ t ∈ ts, t.shape.length < 2 ^ 32) {m : Model} {rs : Source}
    (hdata : decodeData (modelOf kv placed).kv (told placed) (modelOf kv placed).parameters
      ⟨file, (header kv (offsets placed)).length⟩ = .ok m rs) :
    decodeContainer .littleEndian (-1) ⟨file, 4⟩ = .ok (containerOf kv ts, m) rs := by
  have htensors : (offsets placed).length = ts.length := by
    rw [offsets, List.length_map, ← hts, List.length_map]
  have hkvs : kv.entries.length ≤ (kv.sorted.flatMap keyValueBytes).length := by
    have := le_flatMap_length fun e (_ : e ∈ kv.sorted) => keyValueBytes_ne_nil e
    rwa [Metadata.sorted, List.length_mergeSort] at this
  have hinfos : ts.length ≤ ((offsets placed).flatMap tensorBytes).length := by
    rw [← htensors]
    exact le_flatMap_length fun t _ => tensorBytes_ne_nil t
  have hheader := congrArg List.length hfile
  simp only [header, List.length_append, length_digits] at hheader
  -- the file in the pieces that are read, after one, two, three and four of them
  have h₁ := hfile.symm
  rw [header] at h₁
  simp only [List.append_assoc] at h₁
  have h₂ : file = (ascii "GGUF" ++ digits 4 3) ++ ((digits 8 (offsets placed).length ++
      digits 8 kv.entries.length) ++ (kv.sorted.flatMap keyValueBytes ++
        ((offsets placed).flatMap tensorBytes ++ rest))) := by simpa only [List.append_assoc] using h₁
  have h₃ := h₂
  rw [← List.append_assoc] at h₃
  have h₄ := h₃
  rw [← List.append_assoc] at h₄
  have hversion := (reads_readFull (digits 4 3)).at h₁
  have hcounts := (reads_readFull (digits 8 (offsets placed).length ++ digits 8 kv.entries.length)).at h₂
  have hvalues := (reads_keyValues ts typed (by omega)).at h₃
  have htold := (reads_tensors kv hts (by omega) shapes).at h₄
  rw [length_digits, show (ascii "GGUF").length = 4 from rfl] at hversion
  rw [List.length_append, length_digits, length_digits] at hcounts
  have hend : (ascii "GGUF" ++ digits 4 3 ++ (digits 8 (offsets placed).length ++
      digits 8 kv.entries.length) ++ kv.sorted.flatMap keyValueBytes ++
        (offsets placed).flatMap tensorBytes).length = (header kv (offsets placed)).length := by
    rw [header]
    simp only [List.append_assoc]
  rw [hend] at htold
  have hdecode : (containerOf kv ts).decode ⟨file, (ascii "GGUF" ++ digits 4 3 ++
      (digits 8 (offsets placed).length ++ digits 8 kv.entries.length)).length⟩ = .ok m rs := by
    rw [Container.decode, bind_of_ok hvalues, bind_of_ok htold]
    exact hdata
  have hcontainer : (⟨.littleEndian, .ofNat (ByteOrder.nat .littleEndian (digits 4 3)),
      .ofNat (ByteOrder.nat .littleEndian ((digits 8 (offsets placed).length ++
        digits 8 kv.entries.length).take 8)), .ofNat (ByteOrder.nat .littleEndian
          ((digits 8 (offsets placed).length ++ digits 8 kv.entries.length).drop 8)), -1⟩ : Container) =
        containerOf kv ts := by
    rw [List.take_left' (length_digits ..), List.drop_left' (length_digits ..), ByteOrder.nat, ByteOrder.nat,
      ByteOrder.nat, littleEndian_digits (by omega), littleEndian_digits (by omega),
      littleEndian_digits (by omega), htensors]
    rfl
  refine (bind_of_ok hversion _).trans ((bind_of_ok hcounts _).trans ?_)
  refine (bind_of_ok (t := rs) (a := m) ?_ _).trans ?_
  · exact (congrFun (congrArg Container.decode hcontainer) _).trans hdecode
  · exact congrArg (fun c => EStateM.Result.ok (c, m) rs) hcontainer

theorem decodeFile_written (w : Written kv (placeAt kv.alignment.toNat 0 ts) file)
    (named : ∀ n, kv.lookup (ascii "general.alignment") ≠ some (.fileType n))
    (shapes : ∀ t ∈ ts, t.shape.length < 2 ^ 32) (hlt : file.length < 2 ^ 63) :
    ∃ ggml, decodeFile file (-1) = .ok ggml ∧ ggml.container = containerOf kv ts ∧
      ggml.model = modelOf kv (placeAt kv.alignment.toNat 0 ts) := by
  obtain ⟨rest, hfile⟩ := w.header
  obtain ⟨q, hdata, hq⟩ := decodeData_written w (alignment_pairs kv w.typed named _)
    ((told (placeAt kv.alignment.toNat 0 ts)).foldl (· + ·.elements) 0) rfl hlt
  have hcontainer := decodeContainer_front hfile hlt w.typed (map_fst_placeAt _ 0 ts) shapes hdata
  have hmagic : readFull 4 ⟨file, 0⟩ = .ok (ascii "GGUF") ⟨file, 4⟩ := by
    have hpieces := hfile.symm
    rw [header, List.append_assoc] at hpieces
    exact (reads_readFull (ascii "GGUF")).at (show file = [] ++ (ascii "GGUF" ++ _) from hpieces)
  have horder : byteOrder (Gguf.littleEndian (ascii "GGUF")) ⟨file, 4⟩ = .ok .littleEndian ⟨file, 4⟩ := rfl
  refine ⟨⟨containerOf kv ts, modelOf kv (placeAt kv.alignment.toNat 0 ts), .ofNat q⟩, ?_, rfl, rfl⟩
  have hdecode : decode (-1) ⟨file, 0⟩ = .ok ⟨containerOf kv ts,
      modelOf kv (placeAt kv.alignment.toNat 0 ts), .ofNat q⟩ ⟨file, q⟩ := by
    rw [decode, bind_of_ok hmagic, bind_of_ok horder, bind_of_ok hcontainer]
    dsimp only
    rw [bind_of_ok (seekCurrent_here hq)]
    rfl
  rw [decodeFile, hdecode]

end

/-- `Decode` gives back what `WriteGGUF` was given. -/
theorem writeGGUFFile_preserves {sort : Arrangement TensorSource}
    {schedule : Arrangement (TensorSource × UInt64)} {kv : Metadata} {ts : List TensorSource} {f : File}
    (named : ∀ n, kv.lookup (ascii "general.alignment") ≠ some (.fileType n))
    (shapes : ∀ t ∈ ts, t.shape.length < 2 ^ 32)
    (h : writeGGUFFile sort schedule kv ts {} = .ok () f)
    (short : f.content.length + kv.alignment.toNat ≤ 2 ^ 63) :
    ∃ ggml, decodeFile f.content (-1) = .ok ggml ∧
      Preserves kv (sort.apply ts) f.content ggml.model := by
  have w := writeGGUFFile_places h short
  have hlt : f.content.length < 2 ^ 63 := by
    have := w.alignment
    omega
  obtain ⟨ggml, hdecode, -, hmodel⟩ := decodeFile_written w named
    (fun t ht => shapes t ((sort.perm ts).mem_iff.mp ht)) hlt
  have preserves := w.preserves
  rw [map_fst_placeAt] at preserves
  exact ⟨ggml, hdecode, hmodel ▸ preserves⟩

def asGiven {α : Type} : Arrangement α := ⟨id, fun _ => .refl _⟩

/-- A number of four bytes, in a file that is aligned to eight. -/
def alignedNumber : Metadata :=
  ⟨[(⟨ascii "general.alignment", by decide⟩, .uint32 8)], by decide⟩

def number : TensorSource where
  name := ⟨ascii "t", by decide⟩
  kind := 0
  shape := [1]
  data := [1, 2, 3, 4]
  length_data := by decide

/-- What is in the file where all went well. -/
def contentOf : EStateM.Result WriteStop File Unit → Option Text
  | .ok _ f => some f.content
  | .error _ _ => none

theorem number_preserved : ∃ f, writeGGUFFile asGiven asGiven alignedNumber [number] {} = .ok () f ∧
    f.content.length = 100 ∧ ∃ ggml, decodeFile f.content (-1) = .ok ggml ∧
      Preserves alignedNumber [number] f.content ggml.model := by
  have hsorted : alignedNumber.sorted = alignedNumber.entries := List.mergeSort_singleton _
  have hwrite : (contentOf (writeGGUFFile asGiven asGiven alignedNumber [number] {})).map List.length =
      some 100 := by
    rw [writeGGUFFile, writeHeader, hsorted]
    decide +kernel
  rcases hresult : writeGGUFFile asGiven asGiven alignedNumber [number] {} with ⟨⟨⟩, f⟩ | ⟨e, f⟩
  · rw [hresult] at hwrite
    have hlen : f.content.length = 100 := Option.some.inj hwrite
    have named : ∀ n, alignedNumber.lookup (ascii "general.alignment") ≠ some (.fileType n) := by
      intro n hn
      cases (show some (Entry.uint32 8) = some (.fileType n) from hn)
    have preserves := writeGGUFFile_preserves named (by decide) hresult (by rw [hlen]; decide)
    exact ⟨f, rfl, hlen, preserves⟩
  · rw [hresult] at hwrite
    cases hwrite

/-- The alignment is a file type, which is no number to the writer and one to the reader. -/
def zeroFileType : Metadata :=
  ⟨[(⟨ascii "general.alignment", by decide⟩, .fileType 0)], by decide⟩

theorem zeroFileType_panics : ¬∀ (sort : Arrangement TensorSource)
    (schedule : Arrangement (TensorSource × UInt64)) (kv : Metadata) (ts : List TensorSource) (f : File),
    (ts.map fun t => t.name.1).Nodup → 0 < kv.alignment →
    writeGGUFFile sort schedule kv ts {} = .ok () f →
      ∃ ggml, decodeFile f.content (-1) = .ok ggml ∧
        Preserves kv (sort.apply ts) f.content ggml.model := by
  intro h
  have hsorted : zeroFileType.sorted = zeroFileType.entries := List.mergeSort_singleton _
  have hwrite : writeGGUFFile asGiven asGiven zeroFileType [] {} = .ok () ⟨zeroAlignment, zeroAlignment.length⟩ := by
    rw [writeGGUFFile, writeHeader, hsorted]
    rfl
  obtain ⟨ggml, hdecode, -⟩ := h asGiven asGiven zeroFileType [] _ .nil (by decide) hwrite
  cases hdecode.symm.trans (show decodeFile zeroAlignment (-1) = .error .panic from rfl)

end Ecco9.Ggml
