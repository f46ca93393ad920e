import Ecco9.Library.Blocks
import Ecco9.Vision.Windows
import Mathlib.Tactic.Ring

/-! How the image processor of `qwen25vl` cuts an image into patches: `createPatches` in
`model/models/qwen25vl/process_image.go`. -/

universe u

namespace Ecco9.Vision.Qwen25vl

open Ecco9.Library

structure ImageProcessor where
  numChannels : Nat
  patchSize : Nat
  temporalPatchSize : Nat
  mergeSize : Nat
  minPixels : Nat
  maxPixels : Nat
  factor : Nat

namespace ImageProcessor

variable {α : Type u} (p : ImageProcessor)

def patchDim : Nat := p.numChannels * p.temporalPatchSize * p.patchSize * p.patchSize

/-- The values of `for h := 0; h < n; h += mergeSize`. -/
def mergeSteps (n : Nat) : List Nat := (List.range (ceilDiv n p.mergeSize)).map (· * p.mergeSize)

/-- The patches in the order of the loops, each as its row and its column in the grid. -/
def patchPositions (grid : Grid) : List (Nat × Nat) :=
  (List.range grid.temporal).flatMap fun _ =>
    (p.mergeSteps grid.height).flatMap fun h =>
      (p.mergeSteps grid.width).flatMap fun w =>
        (List.range p.mergeSize).flatMap fun mh =>
          (List.range p.mergeSize).map fun mw => (h + mh, w + mw)

def channelOffset (patchIndex c : Nat) : Nat :=
  patchIndex * p.patchDim + c * p.temporalPatchSize * p.patchSize * p.patchSize

def srcIdx (height width : Nat) (pos : Nat × Nat) (c py px : Nat) : Nat :=
  c * height * width + (pos.1 * p.patchSize + py) * width + (pos.2 * p.patchSize + px)

def dstIdx (patchIndex c py px : Nat) : Nat := p.channelOffset patchIndex c + py * p.patchSize + px

/-- One pixel, if both indices are in range. -/
def copyPixel (pixels result : List α) (srcIdx dstIdx : Nat) : List α :=
  match pixels[srcIdx]? with
  | some pixel => if dstIdx < result.length then result.set dstIdx pixel else result
  | none => result

/-- The first temporal frame of a patch. -/
def copyPixels (pixels : List α) (height width patchIndex : Nat) (pos : Nat × Nat) (result : List α) :
    List α :=
  (List.range p.numChannels).foldl (fun result c =>
    (List.range p.patchSize).foldl (fun result py =>
      (List.range p.patchSize).foldl (fun result px =>
        copyPixel pixels result (p.srcIdx height width pos c py px) (p.dstIdx patchIndex c py px))
        result) result) result

/-- `copy` of a slice; slices that are out of range panic. -/
def copyFrame (size : Nat) (result : List α) (dst src : Nat) : Option (List α) :=
  if dst + size ≤ result.length ∧ src + size ≤ result.length then
    some (result.take dst ++ (result.drop src).take size ++ result.drop (dst + size))
  else none

/-- The other frames of a patch. -/
def copyFrames (patchIndex : Nat) (result : List α) : Option (List α) :=
  if p.temporalPatchSize > 1 then
    (List.range p.numChannels).foldlM (fun result c =>
      (List.range' 1 (p.temporalPatchSize - 1)).foldlM (fun result tp =>
        copyFrame (p.patchSize * p.patchSize) result
          (p.channelOffset patchIndex c + tp * (p.patchSize * p.patchSize))
          (p.channelOffset patchIndex c)) result) result
  else some result

/-- The values of the result are zero until they are written. -/
def createPatches (zero : α) (pixels : List α) (height width : Nat) (grid : Grid) : Option (List α) :=
  (p.patchPositions grid).zipIdx.foldlM
    (fun result e => p.copyFrames e.2 (p.copyPixels pixels height width e.2 e.1 result))
    (List.replicate (grid.temporal * grid.height * grid.width * p.patchDim) zero)

/-! ### One patch -/

/-- The pixels of one channel of a patch, row by row. -/
def frame (zero : α) (pixels : List α) (height width : Nat) (pos : Nat × Nat) (c : Nat) : List α :=
  cells (List.range p.patchSize) (List.range p.patchSize) fun py px =>
    pixels.getD (p.srcIdx height width pos c py px) zero

/-- A patch with all frames of all channels. -/
def patch (zero : α) (pixels : List α) (height width : Nat) (pos : Nat × Nat) : List α :=
  (List.range p.numChannels).flatMap fun c =>
    (List.replicate p.temporalPatchSize (p.frame zero pixels height width pos c)).flatten

def frameSize : Nat := p.patchSize * p.patchSize

def channelSize : Nat := p.temporalPatchSize * p.frameSize

/-- The image has all pixels that the patches at this position read. -/
def Holds (pixels : List α) (height width : Nat) (pos : Nat × Nat) : Prop :=
  ∀ c < p.numChannels, ∀ py < p.patchSize, ∀ px < p.patchSize,
    p.srcIdx height width pos c py px < pixels.length

variable {p} {zero : α} {pixels before old after : List α} {height width patchIndex : Nat}
  {pos : Nat × Nat}

theorem patchDim_eq : p.patchDim = p.numChannels * p.channelSize := by
  rw [patchDim, channelSize, frameSize, Nat.mul_assoc, Nat.mul_assoc]

theorem channelOffset_eq (patchIndex c : Nat) :
    p.channelOffset patchIndex c = patchIndex * p.patchDim + c * p.channelSize := by
  rw [channelOffset, channelSize, frameSize, Nat.mul_assoc, Nat.mul_assoc]

theorem length_frame (c : Nat) : (p.frame zero pixels height width pos c).length = p.frameSize := by
  rw [frame, length_cells, List.length_range, frameSize]

theorem length_frames (c : Nat) : (List.replicate p.temporalPatchSize
    (p.frame zero pixels height width pos c)).flatten.length = p.channelSize := by
  rw [List.length_flatten, List.map_replicate, List.sum_replicate_nat, length_frame, channelSize]

theorem length_patch : (p.patch zero pixels height width pos).length = p.patchDim := by
  rw [patch, length_flatMap_blocks fun c _ => length_frames c, List.length_range, patchDim_eq]

theorem copyPixel_eq (zero : α) {src dst : Nat} (hsrc : src < pixels.length)
    (hdst : before.length = dst) (hold : old.length = 1) :
    copyPixel pixels (before ++ old ++ after) src dst =
      before ++ [pixels.getD src zero] ++ after := by
  obtain ⟨a, rfl⟩ := List.length_eq_one_iff.mp hold
  have hlt : dst < (before ++ [a] ++ after).length := by simp; omega
  have hget : pixels[src]? = some (pixels.getD src zero) := by simp [hsrc]
  rw [copyPixel, hget]
  simp only [hlt, if_true]
  rw [List.append_assoc, List.set_append_right _ _ (by omega), hdst, Nat.sub_self,
    List.append_assoc]
  rfl

/-- The two inner loops write the first frame of a channel. -/
theorem copyChannel_eq (zero : α) (after : List α) {c : Nat} (hholds : p.Holds pixels height width pos) (hc : c < p.numChannels)
    (hbefore : before.length = p.channelOffset patchIndex c) (hold : old.length = p.frameSize) :
    (List.range p.patchSize).foldl (fun result py =>
      (List.range p.patchSize).foldl (fun result px =>
        copyPixel pixels result (p.srcIdx height width pos c py px) (p.dstIdx patchIndex c py px))
        result) (before ++ old ++ after) =
      before ++ p.frame zero pixels height width pos c ++ after := by
  refine foldl_fill (fun py => p.channelOffset patchIndex c + py * p.patchSize) p.patchSize
    ?_ ?_ ?_ ?_ after
  · intro py _
    rw [List.length_map, List.length_range]
  · intro py hpy before old after hbefore hold
    rw [List.map_eq_flatMap]
    refine foldl_fill (p.dstIdx patchIndex c py) 1 (fun _ _ => rfl) ?_ ?_ ?_ after
    · intro px hpx before old after hbefore hold
      exact copyPixel_eq zero (hholds c hc py (List.mem_range.mp hpy) px (List.mem_range.mp hpx)) hbefore
        hold
    · have hadjacent := adjacent_range before.length 1 p.patchSize
      simp only [Nat.mul_one, hbefore] at hadjacent
      rw [hbefore]
      exact hadjacent
    · rw [List.length_range, Nat.mul_one]
      exact hold
  · rw [hbefore]
    exact adjacent_range _ _ _
  · rw [List.length_range]
    exact hold

theorem adjacent_channels (patchIndex : Nat) : Adjacent (p.channelOffset patchIndex) p.channelSize
    (patchIndex * p.patchDim) (List.range p.numChannels) := by
  have hoffset : p.channelOffset patchIndex = fun c => patchIndex * p.patchDim + c * p.channelSize :=
    funext (channelOffset_eq patchIndex)
  rw [hoffset]
  exact adjacent_range _ _ _

/-- The first frames of all channels. -/
theorem copyPixels_eq (zero : α) (hframes : 1 ≤ p.temporalPatchSize)
    (hholds : p.Holds pixels height width pos)
    (hbefore : before.length = patchIndex * p.patchDim) {olds : List (List α)}
    (hlen : olds.length = p.numChannels) (holds : ∀ old ∈ olds, old.length = p.channelSize) :
    p.copyPixels pixels height width patchIndex pos (before ++ olds.flatten ++ after) =
      before ++ (List.zipWith (fun c old => p.frame zero pixels height width pos c ++ old.drop p.frameSize)
        (List.range p.numChannels) olds).flatten ++ after := by
  have hle : p.frameSize ≤ p.channelSize := Nat.le_mul_of_pos_left _ hframes
  refine foldl_blocks (p.channelOffset patchIndex) p.channelSize ?_ ?_ ?_ ?_ holds after
  · intro c _ old hold
    rw [List.length_append, length_frame, List.length_drop, hold]
    omega
  · intro c hc before old after hbefore hold
    have hfirst : (old.take p.frameSize).length = p.frameSize := by
      rw [List.length_take, hold]
      omega
    have hchannel := copyChannel_eq zero (old.drop p.frameSize ++ after) hholds
      (List.mem_range.mp hc) hbefore hfirst
    have hsplit : before ++ old ++ after =
        before ++ old.take p.frameSize ++ (old.drop p.frameSize ++ after) := by
      simp only [List.append_assoc]
      rw [← List.append_assoc (old.take _), List.take_append_drop]
    rw [hsplit]
    exact hchannel.trans (by simp only [List.append_assoc])
  · rw [hbefore]
    exact adjacent_channels patchIndex
  · rw [List.length_range]
    exact hlen

theorem copyFrame_eq {first more : List α} {size dst src : Nat} (hfirst : first.length = size)
    (hsrc : before.length = src) (hdst : (before ++ first ++ more).length = dst)
    (hold : old.length = size) :
    copyFrame size (before ++ first ++ more ++ old ++ after) dst src =
      some (before ++ first ++ more ++ first ++ after) := by
  have hread : ((before ++ first ++ more ++ old ++ after).drop src).take size = first := by
    rw [← hsrc, ← hfirst]
    simp only [List.append_assoc]
    rw [List.drop_append_length, List.take_append_length]
  have hrange : dst + size ≤ (before ++ first ++ more ++ old ++ after).length ∧
      src + size ≤ (before ++ first ++ more ++ old ++ after).length := by
    simp only [List.length_append] at hdst ⊢
    omega
  rw [copyFrame, if_pos hrange, hread, ← hdst, ← hold, List.append_assoc _ old, List.take_append_length,
    ← List.append_assoc _ old, ← List.length_append, List.drop_append_length]

/-- The other frames of one channel are copies of the first one. -/
theorem copyFrames_channel (after : List α) {first : List α} {offset : Nat} (hfirst : first.length = p.frameSize)
    (hbefore : before.length = offset)
    (hold : old.length = (p.temporalPatchSize - 1) * p.frameSize) :
    (List.range' 1 (p.temporalPatchSize - 1)).foldlM (fun result tp =>
        copyFrame (p.patchSize * p.patchSize) result (offset + tp * (p.patchSize * p.patchSize)) offset)
        (before ++ first ++ old ++ after) =
      some (before ++ (List.replicate (p.temporalPatchSize - 1 + 1) first).flatten ++ after) := by
  have hcopies : (List.range' 1 (p.temporalPatchSize - 1)).flatMap (fun _ => first) =
      (List.replicate (p.temporalPatchSize - 1) first).flatten := by
    rw [List.flatMap_def, List.map_const', List.length_range']
  rw [List.replicate_succ, List.flatten_cons, ← hcopies, ← List.append_assoc]
  refine foldlM_fill (fun tp => offset + tp * p.frameSize) p.frameSize
    (fun r => ∃ more, r = before ++ first ++ more) (fun _ _ => hfirst) ?_ ?_
    ⟨[], (List.append_nil _).symm⟩ ?_ ?_ after
  · rintro tp - _ old after ⟨more, rfl⟩ hdst hold
    exact copyFrame_eq hfirst hbefore hdst hold
  · rintro tp - _ ⟨more, rfl⟩
    exact ⟨more ++ first, List.append_assoc _ _ _⟩
  · have hadjacent := adjacent_range' offset p.frameSize 1 (p.temporalPatchSize - 1)
    have hstart : (before ++ first).length = offset + p.frameSize := by
      rw [List.length_append, hbefore, hfirst]
    rw [hstart]
    rwa [Nat.one_mul] at hadjacent
  · rw [List.length_range']
    exact hold

/-- With a single frame the loops would do nothing. -/
theorem copyFrames_loop (hframes : 1 ≤ p.temporalPatchSize) (patchIndex : Nat) (result : List α) :
    p.copyFrames patchIndex result = (List.range p.numChannels).foldlM (fun result c =>
      (List.range' 1 (p.temporalPatchSize - 1)).foldlM (fun result tp =>
        copyFrame (p.patchSize * p.patchSize) result
          (p.channelOffset patchIndex c + tp * (p.patchSize * p.patchSize))
          (p.channelOffset patchIndex c)) result) result := by
  rw [copyFrames]
  split
  · rfl
  · have hone : p.temporalPatchSize - 1 = 0 := by omega
    rw [hone]
    induction List.range p.numChannels with
    | nil => rfl
    | cons c l ih => exact ih

/-- All frames of all channels, after the first ones. -/
theorem copyFrames_eq (hframes : 1 ≤ p.temporalPatchSize)
    (hbefore : before.length = patchIndex * p.patchDim) {olds : List (List α)}
    (hlen : olds.length = p.numChannels) (holds : ∀ old ∈ olds, old.length = p.channelSize) :
    p.copyFrames patchIndex (before ++ olds.flatten ++ after) = some (before ++
      (List.zipWith (fun _ old => (List.replicate p.temporalPatchSize (old.take p.frameSize)).flatten)
        (List.range p.numChannels) olds).flatten ++ after) := by
  have hsize : p.channelSize = p.frameSize + (p.temporalPatchSize - 1) * p.frameSize := by
    rw [channelSize, Nat.add_comm, ← Nat.succ_mul]
    congr 1
    omega
  have htake {old : List α} (hold : old.length = p.channelSize) :
      (old.take p.frameSize).length = p.frameSize := by
    rw [List.length_take]
    omega
  rw [copyFrames_loop hframes]
  refine foldlM_blocks (p.channelOffset patchIndex) p.channelSize (fun _ => True) ?_ ?_
    (fun _ _ _ _ _ => trivial) trivial ?_ ?_ holds after
  · intro c _ old hold
    rw [List.length_flatten, List.map_replicate, List.sum_replicate_nat, htake hold, channelSize]
  · intro c _ before old after _ hbefore hold
    have hrest : (old.drop p.frameSize).length = (p.temporalPatchSize - 1) * p.frameSize := by
      rw [List.length_drop]
      omega
    have hchannel := copyFrames_channel after (htake hold) hbefore hrest
    rwa [List.append_assoc before, List.take_append_drop, Nat.sub_add_cancel hframes] at hchannel
  · rw [hbefore]
    exact adjacent_channels patchIndex
  · rw [List.length_range]
    exact hlen

/-- One round of the outer loops writes a patch, whatever was in its place. -/
theorem addPatch_eq (zero : α) (hframes : 1 ≤ p.temporalPatchSize)
    (hholds : p.Holds pixels height width pos)
    (hbefore : before.length = patchIndex * p.patchDim) (hold : old.length = p.patchDim) :
    p.copyFrames patchIndex (p.copyPixels pixels height width patchIndex pos (before ++ old ++ after)) =
      some (before ++ p.patch zero pixels height width pos ++ after) := by
  rw [patchDim_eq] at hold
  obtain ⟨olds, hlen, holds, rfl⟩ := exists_blocks hold
  have hle : p.frameSize ≤ p.channelSize := Nat.le_mul_of_pos_left _ hframes
  rw [copyPixels_eq zero hframes hholds hbefore hlen holds, copyFrames_eq hframes hbefore,
    zipWith_zipWith_left (fun c => (List.replicate p.temporalPatchSize
      (p.frame zero pixels height width pos c)).flatten), ← List.flatMap_def]
  · rfl
  · rwa [List.length_range]
  · intro c _ old _
    have hframe : (p.frame zero pixels height width pos c).length = p.frameSize := length_frame c
    rw [← hframe, List.take_append_length]
  · rw [List.length_zipWith, List.length_range, hlen, Nat.min_self]
  · intro new hnew
    obtain ⟨c, -, old, hold, rfl⟩ := exists_of_mem_zipWith hnew
    rw [List.length_append, length_frame, List.length_drop, holds old hold]
    omega

/-! ### The patches of an image -/

section Image

variable {rows cols : Nat}

/-- The grid of an image of so many merged cells. -/
def gridOf (p : ImageProcessor) (rows cols : Nat) : Grid where
  height := rows * p.mergeSize
  width := cols * p.mergeSize
  temporal := 1

theorem patchPositions_eq (hmerge : 0 < p.mergeSize) (rows cols : Nat) :
    p.patchPositions (gridOf p rows cols) =
      (List.range rows).flatMap fun i => (List.range cols).flatMap fun j =>
        cells (List.range p.mergeSize) (List.range p.mergeSize) fun mh mw =>
          (i * p.mergeSize + mh, j * p.mergeSize + mw) := by
  simp only [patchPositions, gridOf, mergeSteps, ceilDiv_mul _ hmerge, List.flatMap_map,
    List.range_one, List.flatMap_singleton]
  rfl

theorem patchPositions_perm (hmerge : 0 < p.mergeSize) (rows cols : Nat) :
    (p.patchPositions (gridOf p rows cols)).Perm (cells (List.range (rows * p.mergeSize))
      (List.range (cols * p.mergeSize)) Prod.mk) := by
  rw [patchPositions_eq hmerge]
  exact cells_mul_perm rows cols hmerge Prod.mk

theorem length_patchPositions (hmerge : 0 < p.mergeSize) (rows cols : Nat) :
    (p.patchPositions (gridOf p rows cols)).length = rows * p.mergeSize * (cols * p.mergeSize) := by
  rw [(patchPositions_perm hmerge rows cols).length_eq, length_cells, List.length_range,
    List.length_range]

theorem mem_patchPositions (hmerge : 0 < p.mergeSize)
    (h : pos ∈ p.patchPositions (gridOf p rows cols)) :
    pos.1 < rows * p.mergeSize ∧ pos.2 < cols * p.mergeSize := by
  obtain ⟨i, hi, j, hj, rfl⟩ := mem_cells.mp ((patchPositions_perm hmerge rows cols).mem_iff.mp h)
  exact ⟨List.mem_range.mp hi, List.mem_range.mp hj⟩

/-- The patches of a merged cell follow each other, row by row. -/
theorem patchPositions_get? (hmerge : 0 < p.mergeSize) {i j mh mw : Nat} (hi : i < rows) (hj : j < cols)
    (hmh : mh < p.mergeSize) (hmw : mw < p.mergeSize) :
    (p.patchPositions (gridOf p rows cols))[((i * cols + j) * p.mergeSize + mh) * p.mergeSize + mw]? =
      some (i * p.mergeSize + mh, j * p.mergeSize + mw) := by
  have hcell {α : Type} (f : Nat → Nat → α) :
      (cells (List.range p.mergeSize) (List.range p.mergeSize) f).length =
        p.mergeSize * p.mergeSize := by
    rw [length_cells, List.length_range]
  have hplace : ((i * cols + j) * p.mergeSize + mh) * p.mergeSize + mw =
      i * (cols * (p.mergeSize * p.mergeSize)) +
        (j * (p.mergeSize * p.mergeSize) + (mh * p.mergeSize + mw)) := by
    ring
  have hin := place_lt hmh hmw
  rw [patchPositions_eq hmerge, hplace, getElem?_blocks _ (List.getElem?_range hi) (place_lt hj hin),
    getElem?_blocks (fun _ _ => hcell _) (List.getElem?_range hj) hin, cells,
    getElem?_blocks _ (List.getElem?_range hmh) hmw, List.getElem?_map, List.getElem?_range hmw]
  · rfl
  · intro _ _
    rw [List.length_map, List.length_range]
  · intro _ _
    rw [length_flatMap_blocks fun _ _ => hcell _, List.length_range]

/-- The pixels of the image that the patches read are there. -/
theorem holds_of_lt (hpixels : pixels.length = p.numChannels * height * width)
    (hheight : height = rows * p.mergeSize * p.patchSize)
    (hwidth : width = cols * p.mergeSize * p.patchSize)
    (hrow : pos.1 < rows * p.mergeSize) (hcol : pos.2 < cols * p.mergeSize) :
    p.Holds pixels height width pos := by
  intro c hc py hpy px hpx
  have hy : pos.1 * p.patchSize + py < height := hheight ▸ place_lt hrow hpy
  have hx : pos.2 * p.patchSize + px < width := hwidth ▸ place_lt hcol hpx
  have hline : c * height + (pos.1 * p.patchSize + py) < p.numChannels * height := place_lt hc hy
  have hsrc := place_lt hline hx
  rw [Nat.add_mul] at hsrc
  rw [hpixels]
  exact hsrc

/-- The result consists of the patches. -/
theorem createPatches_eq (zero : α) (hmerge : 0 < p.mergeSize) (hframes : 1 ≤ p.temporalPatchSize)
    (hpixels : pixels.length = p.numChannels * height * width)
    (hheight : height = rows * p.mergeSize * p.patchSize)
    (hwidth : width = cols * p.mergeSize * p.patchSize) :
    p.createPatches zero pixels height width (gridOf p rows cols) =
      some ((p.patchPositions (gridOf p rows cols)).flatMap (p.patch zero pixels height width)) := by
  have hlength : (gridOf p rows cols).temporal * (gridOf p rows cols).height *
      (gridOf p rows cols).width = (p.patchPositions (gridOf p rows cols)).zipIdx.length := by
    rw [List.length_zipIdx, length_patchPositions hmerge, gridOf, Nat.one_mul]
  have hloop : (p.patchPositions (gridOf p rows cols)).zipIdx.foldlM
      (fun result e => p.copyFrames e.2 (p.copyPixels pixels height width e.2 e.1 result))
      ([] ++ List.replicate ((p.patchPositions (gridOf p rows cols)).zipIdx.length * p.patchDim) zero ++
        []) =
      some ([] ++ (p.patchPositions (gridOf p rows cols)).zipIdx.flatMap (fun e =>
        p.patch zero pixels height width e.1) ++ []) := by
    refine foldlM_fill (fun e => e.2 * p.patchDim) p.patchDim (fun _ => True)
      (fun _ _ => length_patch) ?_ (fun _ _ _ _ => trivial) trivial (adjacent_zipIdx _ _)
      List.length_replicate []
    intro e he before old after _ hbefore hold
    have hpos := mem_patchPositions hmerge (List.fst_mem_of_mem_zipIdx he)
    exact addPatch_eq zero hframes (holds_of_lt hpixels hheight hwidth hpos.1 hpos.2) hbefore hold
  rw [List.nil_append, List.append_nil, List.nil_append, List.append_nil] at hloop
  rw [createPatches, hlength, hloop, ← List.zipIdx_map_fst 0 (p.patchPositions (gridOf p rows cols)),
    List.flatMap_map, List.zipIdx_map_fst]

end Image

end ImageProcessor

end Ecco9.Vision.Qwen25vl
