import Ecco9.Vision.Patches

/-! `createPatches` rearranges the pixels of an image: where each of them comes to, and that all of them
come to one place of each temporal frame. -/

universe u

namespace Ecco9.Vision.Qwen25vl.ImageProcessor

open Ecco9.Library

variable {α : Type u} {p : ImageProcessor} {zero : α} {pixels : List α} {height width : Nat}

/-- A place in the result: a merged cell of the grid, a patch of it, a channel, a temporal frame and a
pixel of the patch. -/
structure Place (p : ImageProcessor) (height width : Nat) where
  row : Nat
  col : Nat
  mh : Nat
  mw : Nat
  c : Nat
  tp : Nat
  py : Nat
  px : Nat
  row_lt : row < height / (p.mergeSize * p.patchSize)
  col_lt : col < width / (p.mergeSize * p.patchSize)
  mh_lt : mh < p.mergeSize
  mw_lt : mw < p.mergeSize
  c_lt : c < p.numChannels
  tp_lt : tp < p.temporalPatchSize
  py_lt : py < p.patchSize
  px_lt : px < p.patchSize

namespace Place

/-- The merged cells are in row-major order, and so are the patches of each. -/
def patchIndex (q : Place p height width) : Nat :=
  ((q.row * (width / (p.mergeSize * p.patchSize)) + q.col) * p.mergeSize + q.mh) * p.mergeSize + q.mw

def index (q : Place p height width) : Nat :=
  q.patchIndex * p.patchDim + (((q.c * p.temporalPatchSize + q.tp) * p.patchSize + q.py) * p.patchSize +
    q.px)

/-- The pixel of the image that belongs there, whatever the temporal frame. -/
def pixel (q : Place p height width) : Nat :=
  q.c * height * width + ((q.row * p.mergeSize + q.mh) * p.patchSize + q.py) * width +
    ((q.col * p.mergeSize + q.mw) * p.patchSize + q.px)

end Place

/-- The values that the result has in one channel and one temporal frame. -/
def frameOf (p : ImageProcessor) (numPatches : Nat) (result : List α) (c tp : Nat) : List α :=
  (List.range numPatches).flatMap fun k =>
    (result.drop (k * p.patchDim + (c * p.temporalPatchSize + tp) * p.frameSize)).take p.frameSize

structure Rearrangement (p : ImageProcessor) (pixels result : List α) (height width : Nat) : Prop where
  length : result.length = height / p.patchSize * (width / p.patchSize) * p.patchDim
  entry : ∀ q : Place p height width,
    q.pixel < pixels.length ∧ result[q.index]? = pixels[q.pixel]?
  every : ∀ i < result.length, ∃ q : Place p height width, q.index = i
  equal : ∀ c < p.numChannels, ∀ tp < p.temporalPatchSize,
    p.frameOf (height / p.patchSize * (width / p.patchSize)) result c tp =
      p.frameOf (height / p.patchSize * (width / p.patchSize)) result c 0
  once : ∀ c < p.numChannels, ∀ tp < p.temporalPatchSize,
    (p.frameOf (height / p.patchSize * (width / p.patchSize)) result c tp).Perm
      ((pixels.drop (c * height * width)).take (height * width))

/-- No index that the loops compute is out of range. -/
structure InRange (p : ImageProcessor) (pixels result : List α) (height width : Nat) (grid : Grid) :
    Prop where
  pixel : ∀ (k : Nat) (pos : Nat × Nat), (p.patchPositions grid)[k]? = some pos →
    ∀ c < p.numChannels, ∀ py < p.patchSize, ∀ px < p.patchSize,
      p.srcIdx height width pos c py px < pixels.length ∧ p.dstIdx k c py px < result.length
  frame : ∀ k < (p.patchPositions grid).length, ∀ c < p.numChannels, ∀ tp < p.temporalPatchSize,
    p.channelOffset k c + tp * (p.patchSize * p.patchSize) + p.patchSize * p.patchSize ≤ result.length

section Result

theorem getElem?_eq_getD (zero : α) {i : Nat} (hi : i < pixels.length) :
    pixels[i]? = some (pixels.getD i zero) := by
  rw [List.getD_eq_getElem?_getD, List.getElem?_eq_getElem hi, Option.getD_some]

variable {pos : Nat × Nat} {c tp py px : Nat}

theorem patch_get? (hc : c < p.numChannels) (htp : tp < p.temporalPatchSize) (hpy : py < p.patchSize)
    (hpx : px < p.patchSize) :
    (p.patch zero pixels height width pos)[((c * p.temporalPatchSize + tp) * p.patchSize + py) *
        p.patchSize + px]? = some (pixels.getD (p.srcIdx height width pos c py px) zero) := by
  have hplace : ((c * p.temporalPatchSize + tp) * p.patchSize + py) * p.patchSize + px =
      c * p.channelSize + (tp * p.frameSize + (py * p.patchSize + px)) := by
    rw [channelSize, frameSize]
    ring
  have hframe : py * p.patchSize + px < p.frameSize := place_lt hpy hpx
  have hreplicate : (List.replicate p.temporalPatchSize (p.frame zero pixels height width pos c))[tp]? =
      some (p.frame zero pixels height width pos c) := by
    rw [List.getElem?_replicate, if_pos htp]
  rw [hplace, patch, getElem?_blocks (fun c _ => length_frames c) (List.getElem?_range hc)
    (place_lt htp hframe), ← List.flatMap_id, getElem?_blocks ?_ hreplicate hframe]
  · rw [id, frame, cells, getElem?_blocks ?_ (List.getElem?_range hpy) hpx, List.getElem?_map,
      List.getElem?_range hpx]
    · rfl
    · intro _ _
      rw [List.length_map, List.length_range]
  · intro l hl
    rw [List.eq_of_mem_replicate hl]
    exact length_frame c

/-- A frame of a channel within a patch. -/
theorem patch_slice (hc : c < p.numChannels) (htp : tp < p.temporalPatchSize) :
    ((p.patch zero pixels height width pos).drop ((c * p.temporalPatchSize + tp) * p.frameSize)).take
        p.frameSize = p.frame zero pixels height width pos c := by
  have hplace : (c * p.temporalPatchSize + tp) * p.frameSize =
      c * p.channelSize + (tp * p.frameSize + 0) := by
    rw [channelSize]
    ring
  have hend : tp * p.frameSize + 0 + p.frameSize ≤ p.channelSize := by
    have hle : (tp + 1) * p.frameSize ≤ p.channelSize := Nat.mul_le_mul_right _ htp
    rwa [Nat.succ_mul] at hle
  have hreplicate : (List.replicate p.temporalPatchSize (p.frame zero pixels height width pos c))[tp]? =
      some (p.frame zero pixels height width pos c) := by
    rw [List.getElem?_replicate, if_pos htp]
  rw [hplace, patch, slice_blocks (fun c _ => length_frames c) (List.getElem?_range hc) hend,
    ← List.flatMap_id, slice_blocks ?_ hreplicate (Nat.le_of_eq (Nat.zero_add _))]
  · rw [id, List.drop_zero, List.take_of_length_le (Nat.le_of_eq (length_frame c))]
  · intro l hl
    rw [List.eq_of_mem_replicate hl]
    exact length_frame c

end Result

section Image

variable {rows cols : Nat}

/-- The pixels of a channel are those of the frames of all patches. -/
theorem frames_perm (zero : α) (hmerge : 0 < p.mergeSize) (hsize : 0 < p.patchSize)
    (hpixels : pixels.length = p.numChannels * height * width)
    (hheight : height = rows * p.mergeSize * p.patchSize)
    (hwidth : width = cols * p.mergeSize * p.patchSize) {c : Nat} (hc : c < p.numChannels) :
    ((p.patchPositions (gridOf p rows cols)).flatMap fun pos =>
      p.frame zero pixels height width pos c).Perm
    ((pixels.drop (c * height * width)).take (height * width)) := by
  have hcells := ((patchPositions_perm hmerge rows cols).flatMap_right fun pos =>
    p.frame zero pixels height width pos c)
  have hgrid := cells_mul_perm (rows * p.mergeSize) (cols * p.mergeSize) hsize fun y x =>
    pixels.getD (c * height * width + y * width + x) zero
  rw [← hheight, ← hwidth] at hgrid
  have hslice : cells (List.range height) (List.range width) (fun y x =>
      pixels.getD (c * height * width + y * width + x) zero) =
      (pixels.drop (c * height * width)).take (height * width) := by
    have hmap := map_cells (List.range height) (List.range width) (fun y x => y * width + x) fun n =>
      pixels.getD (c * height * width + n) zero
    rw [cells_number] at hmap
    simp only [← Nat.add_assoc] at hmap
    rw [← hmap]
    refine List.ext_getElem? fun n => ?_
    rw [List.getElem?_map, List.getElem?_take, List.getElem?_drop]
    by_cases hn : n < height * width
    · have hlt : c * height * width + n < pixels.length := by
        rw [hpixels, Nat.mul_assoc, Nat.mul_assoc]
        exact place_lt hc hn
      rw [List.getElem?_range hn, if_pos hn, Option.map_some, getElem?_eq_getD zero hlt]
    · rw [List.getElem?_eq_none (by rwa [List.length_range, ← Nat.not_lt]), if_neg hn]
      rfl
  rw [← hslice]
  refine hcells.trans ((List.Perm.of_eq ?_).trans hgrid)
  rw [cells, List.flatMap_assoc]
  simp only [List.flatMap_map]
  rfl

theorem frameOf_eq (zero : α) {l : List (Nat × Nat)} {c tp : Nat} (hc : c < p.numChannels)
    (htp : tp < p.temporalPatchSize) :
    p.frameOf l.length (l.flatMap (p.patch zero pixels height width)) c tp =
      l.flatMap fun pos => p.frame zero pixels height width pos c := by
  have hend : (c * p.temporalPatchSize + tp) * p.frameSize + p.frameSize ≤ p.patchDim := by
    have hle : (c * p.temporalPatchSize + tp + 1) * p.frameSize ≤
        p.numChannels * p.temporalPatchSize * p.frameSize := Nat.mul_le_mul_right _ (place_lt hc htp)
    rwa [Nat.succ_mul, Nat.mul_assoc p.numChannels, ← channelSize, ← patchDim_eq] at hle
  refine flatMap_range_length fun k pos hk => ?_
  rw [slice_blocks (fun _ _ => length_patch) hk hend, patch_slice hc htp]

/-- The indices of the loops are in range. -/
theorem inRange (hmerge : 0 < p.mergeSize) (hframes : 1 ≤ p.temporalPatchSize)
    (hpixels : pixels.length = p.numChannels * height * width)
    (hheight : height = rows * p.mergeSize * p.patchSize)
    (hwidth : width = cols * p.mergeSize * p.patchSize) {result : List α}
    (hresult : result.length = rows * p.mergeSize * (cols * p.mergeSize) * p.patchDim) :
    InRange p pixels result height width (gridOf p rows cols) := by
  have hframe {k c tp : Nat} (hk : k < (p.patchPositions (gridOf p rows cols)).length)
      (hc : c < p.numChannels) (htp : tp < p.temporalPatchSize) :
      p.channelOffset k c + tp * p.frameSize + p.frameSize ≤ result.length := by
    have htp : (tp + 1) * p.frameSize ≤ p.channelSize := Nat.mul_le_mul_right _ htp
    have hc : (c + 1) * p.channelSize ≤ p.patchDim := patchDim_eq (p := p) ▸ Nat.mul_le_mul_right _ hc
    have hk : (k + 1) * p.patchDim ≤ result.length := by
      rw [hresult, ← length_patchPositions hmerge]
      exact Nat.mul_le_mul_right _ hk
    rw [Nat.succ_mul] at htp hc hk
    rw [channelOffset_eq]
    omega
  constructor
  · intro k pos hk c hc py hpy px hpx
    obtain ⟨hrow, hcol⟩ := mem_patchPositions hmerge (List.mem_of_getElem? hk)
    refine ⟨holds_of_lt hpixels hheight hwidth hrow hcol c hc py hpy px hpx, ?_⟩
    have hfirst := hframe (List.getElem?_eq_some_iff.mp hk).1 hc hframes
    have hplace : py * p.patchSize + px < p.frameSize := place_lt hpy hpx
    rw [dstIdx]
    omega
  · intro k hk c hc tp htp
    exact hframe hk hc htp

/-- Every index of the result is that of a place: it is taken apart digit by digit. -/
theorem Place.exists_index (hrows : height / (p.mergeSize * p.patchSize) = rows)
    (hcols : width / (p.mergeSize * p.patchSize) = cols) {i : Nat}
    (hi : i < rows * p.mergeSize * (cols * p.mergeSize) * p.patchDim) :
    ∃ q : Place p height width, q.index = i := by
  have harea : rows * p.mergeSize * (cols * p.mergeSize) = rows * cols * p.mergeSize * p.mergeSize := by
    ring
  rw [harea] at hi
  obtain ⟨k, hk, r, hr, rfl⟩ := exists_place hi
  obtain ⟨line, hline, mw, hmw, rfl⟩ := exists_place hk
  obtain ⟨cell, hcell, mh, hmh, rfl⟩ := exists_place hline
  obtain ⟨row, hrow, col, hcol, rfl⟩ := exists_place hcell
  obtain ⟨s, hs, px, hpx, rfl⟩ := exists_place hr
  obtain ⟨frame, hframe, py, hpy, rfl⟩ := exists_place hs
  obtain ⟨c, hc, tp, htp, rfl⟩ := exists_place hframe
  refine ⟨{
    row := row
    col := col
    mh := mh
    mw := mw
    c := c
    tp := tp
    py := py
    px := px
    row_lt := hrows.symm ▸ hrow
    col_lt := hcols.symm ▸ hcol
    mh_lt := hmh
    mw_lt := hmw
    c_lt := hc
    tp_lt := htp
    py_lt := hpy
    px_lt := hpx
  }, ?_⟩
  dsimp only [Place.index, Place.patchIndex]
  rw [hcols]

theorem rearrangement (zero : α) (hmerge : 0 < p.mergeSize) (hsize : 0 < p.patchSize)
    (hframes : 0 < p.temporalPatchSize)
    (hpixels : pixels.length = p.numChannels * height * width)
    (hheight : height = rows * p.mergeSize * p.patchSize)
    (hwidth : width = cols * p.mergeSize * p.patchSize) :
    Rearrangement p pixels ((p.patchPositions (gridOf p rows cols)).flatMap
      (p.patch zero pixels height width)) height width := by
  have hrows : height / (p.mergeSize * p.patchSize) = rows := by
    rw [hheight, Nat.mul_assoc, Nat.mul_div_cancel _ (Nat.mul_pos hmerge hsize)]
  have hcols : width / (p.mergeSize * p.patchSize) = cols := by
    rw [hwidth, Nat.mul_assoc, Nat.mul_div_cancel _ (Nat.mul_pos hmerge hsize)]
  have hgrid : height / p.patchSize * (width / p.patchSize) =
      (p.patchPositions (gridOf p rows cols)).length := by
    rw [hheight, hwidth, Nat.mul_div_cancel _ hsize, Nat.mul_div_cancel _ hsize,
      length_patchPositions hmerge]
  have hlength : ((p.patchPositions (gridOf p rows cols)).flatMap
      (p.patch zero pixels height width)).length =
        height / p.patchSize * (width / p.patchSize) * p.patchDim := by
    rw [length_flatMap_blocks fun _ _ => length_patch, hgrid]
  constructor
  · exact hlength
  · intro q
    have hplace := patchPositions_get? hmerge (hrows ▸ q.row_lt) (hcols ▸ q.col_lt) q.mh_lt q.mw_lt
    obtain ⟨hrow, hcol⟩ := mem_patchPositions hmerge (List.mem_of_getElem? hplace)
    have hpixel : q.pixel < pixels.length :=
      holds_of_lt hpixels hheight hwidth hrow hcol q.c q.c_lt q.py q.py_lt q.px q.px_lt
    have hr : ((q.c * p.temporalPatchSize + q.tp) * p.patchSize + q.py) * p.patchSize + q.px <
        p.patchDim := place_lt (place_lt (place_lt q.c_lt q.tp_lt) q.py_lt) q.px_lt
    refine ⟨hpixel, ?_⟩
    rw [Place.index, Place.patchIndex, hcols, getElem?_blocks (fun _ _ => length_patch) hplace hr,
      patch_get? q.c_lt q.tp_lt q.py_lt q.px_lt, getElem?_eq_getD zero hpixel]
    rfl
  · intro i hi
    rw [hlength, hgrid, length_patchPositions hmerge] at hi
    exact Place.exists_index hrows hcols hi
  · intro c hc tp htp
    rw [hgrid, frameOf_eq zero hc htp, frameOf_eq zero hc hframes]
  · intro c hc tp htp
    rw [hgrid, frameOf_eq zero hc htp]
    exact frames_perm zero hmerge hsize hpixels hheight hwidth hc

end Image

/-- Where height and width are multiples of the size of a merged cell, `createPatches` does not panic, its
indices are in range, and the result is a rearrangement of the image. -/
theorem createPatches_rearrangement (zero : α) (hmerge : 1 ≤ p.mergeSize) (hsize : 1 ≤ p.patchSize)
    (hframes : 1 ≤ p.temporalPatchSize) (hheight : p.patchSize * p.mergeSize ∣ height)
    (hwidth : p.patchSize * p.mergeSize ∣ width)
    (hpixels : pixels.length = p.numChannels * height * width) :
    ∃ result, p.createPatches zero pixels height width {
        height := height / p.patchSize
        width := width / p.patchSize
        temporal := 1
      } = some result ∧ Rearrangement p pixels result height width ∧
      InRange p pixels result height width {
        height := height / p.patchSize
        width := width / p.patchSize
        temporal := 1
      } := by
  obtain ⟨rows, hrows⟩ := hheight
  obtain ⟨cols, hcols⟩ := hwidth
  have hheight : height = rows * p.mergeSize * p.patchSize := by rw [hrows]; ring
  have hwidth : width = cols * p.mergeSize * p.patchSize := by rw [hcols]; ring
  have hgrid : ({
        height := height / p.patchSize
        width := width / p.patchSize
        temporal := 1
      } : Grid) = gridOf p rows cols := by
    rw [hheight, hwidth, Nat.mul_div_cancel _ hsize, Nat.mul_div_cancel _ hsize, gridOf]
  have hresult := rearrangement zero hmerge hsize hframes hpixels hheight hwidth
  have hlength := hresult.length
  rw [hheight, hwidth, Nat.mul_div_cancel _ hsize, Nat.mul_div_cancel _ hsize, ← hheight, ← hwidth]
    at hlength
  rw [hgrid]
  exact ⟨_, createPatches_eq zero hmerge hframes hpixels hheight hwidth, hresult,
    inRange hmerge hframes hpixels hheight hwidth hlength⟩

def smallProcessor : ImageProcessor where
  numChannels := 3
  patchSize := 2
  temporalPatchSize := 2
  mergeSize := 2
  minPixels := 16
  maxPixels := 64
  factor := 4

/-- An image of 4 times 8 pixels, which stand for themselves. -/
theorem smallImage_rearrangement :
    ∃ result, smallProcessor.createPatches 0 (List.range 96) 4 8 {
        height := 2
        width := 4
        temporal := 1
      } = some result ∧ Rearrangement smallProcessor (List.range 96) result 4 8 ∧
      InRange smallProcessor (List.range 96) result 4 8 {
        height := 2
        width := 4
        temporal := 1
      } :=
  createPatches_rearrangement 0 (by decide) (by decide) (by decide) (by decide) (by decide)
    List.length_range

end Ecco9.Vision.Qwen25vl.ImageProcessor
