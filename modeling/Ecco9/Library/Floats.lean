import Mathlib

/-! What the model of `Float32` does with the values that are not finite and with zeros, and the
order of all other values. -/

namespace Ecco9.Library

open Float.Model (Format UnpackedFloat)
open Float.Model.UnpackedFloat

theorem components_eq {spec : Format} (b : BitVec spec.numBits) :
    (unpackSign b ++ unpackExponent b ++ unpackMantissa b : BitVec _) = b := by
  have hk := spec.hm
  have he := spec.he
  apply BitVec.eq_of_getLsbD_eq
  intro i hi
  simp only [BitVec.getLsbD_append, unpackSign, unpackExponent, unpackMantissa,
    BitVec.getLsbD_cast, BitVec.getLsbD_extractLsb]
  by_cases h : i < spec.mantissaBitsWithoutImplicit
  · simp [h]
    omega
  · by_cases h' : i - spec.mantissaBitsWithoutImplicit < spec.exponentBits
    · have : spec.mantissaBitsWithoutImplicit + (i - spec.mantissaBitsWithoutImplicit) = i := by
        omega
      simp [h, h', this]
      omega
    · have top : i = spec.mantissaBitsWithoutImplicit + spec.exponentBits := by omega
      subst top
      simp [h]

theorem toBitVec_ofBitVec (b : BitVec 1) : (Sign.ofBitVec b).toBitVec = b := by
  revert b
  decide

theorem toNat_implicit (m : BitVec k) : (1#1 ++ m).toNat = 2 ^ k + m.toNat := by
  rw [BitVec.toNat_append, ← Nat.shiftLeft_add_eq_or_of_lt m.isLt]
  simp [Nat.shiftLeft_eq]

theorem log2_implicit (m : BitVec k) : (1#1 ++ m).toNat.log2 = k := by
  have := m.isLt
  rw [toNat_implicit, Nat.log2_eq_iff (by omega), Nat.pow_succ]
  omega

/-- Packing undoes unpacking. A format with one exponent bit has no normal numbers. -/
theorem pack_unpack {spec : Format} {b : BitVec spec.numBits} (bits : 1 < spec.exponentBits)
    (hb : spec.Valid b) : pack spec (unpack spec b) = b := by
  have whole : packComponents spec (Sign.ofBitVec (unpackSign b)) (unpackExponent b)
      (unpackMantissa b) = b := by
    rw [packComponents, toBitVec_ofBitVec, components_eq]
  have hman := (unpackMantissa b).isLt
  unfold unpack
  simp only
  split
  case isTrue infinite =>
    split
    case isTrue zero =>
      rw [infinite, zero] at whole
      exact whole
    case isFalse nonzero => exact (hb.eq_packedNaN infinite nonzero).symm
  case isFalse finite =>
    have hexp : (unpackExponent b).toNat + 1 < 2 ^ spec.exponentBits := by
      have := (unpackExponent b).isLt
      have : (unpackExponent b).toNat ≠ 2 ^ spec.exponentBits - 1 := by
        intro h
        apply finite
        apply BitVec.eq_of_toNat_eq
        simpa [BitVec.neg_one_eq_allOnes] using h
      omega
    split
    case isTrue small =>
      split
      case isTrue zero =>
        rw [small, zero] at whole
        exact whole
      case isFalse nonzero =>
        have hlog : (unpackMantissa b).toNat.log2 + 1 ≠ spec.mantissaBits := by
          have hne : (unpackMantissa b).toNat ≠ 0 :=
            fun h => nonzero (BitVec.eq_of_toNat_eq (by simpa using h))
          have := (Nat.log2_lt hne).mpr hman
          simp only [Format.mantissaBits]
          omega
        have hbias : (((unpackExponent b).toNat -
            (spec.exponentBias + spec.mantissaBitsWithoutImplicit) + 1 : Int) +
            spec.exponentBias + spec.mantissaBitsWithoutImplicit).toNat = 1 := by
          rw [small, BitVec.toNat_zero]
          omega
        have : 2 ^ 2 ≤ 2 ^ spec.exponentBits := Nat.pow_le_pow_right (by decide) bits
        rw [small] at whole
        simp only [pack]
        rw [hbias, if_neg (by omega), if_neg hlog, BitVec.ofNat_toNat, BitVec.setWidth_eq, whole]
    case isFalse normal =>
      have hlog : (1#1 ++ unpackMantissa b).toNat.log2 + 1 = spec.mantissaBits := by
        rw [log2_implicit, Format.mantissaBits, Nat.add_comm]
      have hbias : ((unpackExponent b).toNat -
          (spec.exponentBias + spec.mantissaBitsWithoutImplicit : Int) +
          spec.exponentBias + spec.mantissaBitsWithoutImplicit).toNat =
          (unpackExponent b).toNat := by
        omega
      have hmant : BitVec.ofNat spec.mantissaBitsWithoutImplicit
          (1#1 ++ unpackMantissa b).toNat = unpackMantissa b := by
        apply BitVec.eq_of_toNat_eq
        rw [BitVec.toNat_ofNat, toNat_implicit, Nat.add_mod_left, Nat.mod_eq_of_lt hman]
      simp only [pack]
      rw [hbias, if_neg (by omega), if_pos hlog, hmant, BitVec.ofNat_toNat, BitVec.setWidth_eq,
        whole]

def view (x : Float32) : UnpackedFloat := x.toModel.unpack

def packed (u : UnpackedFloat) : Float32 := .ofModel (.pack u)

/-- `math.Inf(-1)` as a `float32` -/
def negInf : Float32 := packed (.infinity .negative)

@[simp] theorem packed_view (x : Float32) : packed (view x) = x := by
  obtain ⟨⟨bits, valid⟩⟩ := x
  simp only [packed, view, Float32.Model.pack, Float32.Model.unpack]
  congr 2
  exact UInt32.toBitVec_inj.mp (pack_unpack (by decide) valid)

@[simp] theorem view_packed_nan : view (packed .notANumber) = .notANumber := rfl

@[simp] theorem view_packed_infinity (s : Sign) : view (packed (.infinity s)) = .infinity s := by
  cases s <;> rfl

@[simp] theorem view_packed_zero (s : Sign) : view (packed (.zero s)) = .zero s := by
  cases s <;> rfl

@[simp] theorem view_negInf : view negInf = .infinity .negative := rfl

theorem add_eq (x y : Float32) : x + y = packed (.add .binary32 (view x) (view y)) := rfl

theorem sub_eq (x y : Float32) : x - y = packed (.sub .binary32 (view x) (view y)) := rfl

theorem div_eq (x y : Float32) : x / y = packed (.div .binary32 (view x) (view y)) := rfl

theorem isNaN_iff {x : Float32} : x.isNaN = true ↔ view x = .notANumber := by
  change (view x).isNaN = true ↔ _
  cases view x <;> simp [UnpackedFloat.isNaN]

theorem eq_of_view {x : Float32} (h : view x = u) : x = packed u := by
  rw [← h, packed_view]

/-- Where a value stands, in lexicographic order. -/
def rank : UnpackedFloat → Int × Int × Int
  | .infinity .negative => (-2, 0, 0)
  | .finite .negative m e _ => (-1, -e, -m)
  | .notANumber | .zero _ => (0, 0, 0)
  | .finite .positive m e _ => (1, e, m)
  | .infinity .positive => (2, 0, 0)

def Before (a b : Int × Int × Int) : Prop :=
  a.1 < b.1 ∨ a.1 = b.1 ∧ (a.2.1 < b.2.1 ∨ a.2.1 = b.2.1 ∧ a.2.2 < b.2.2)

theorem compare_finite (s t : Sign) {m m' : Nat} (e e' : Int) (h : 0 < m) (h' : 0 < m') :
    UnpackedFloat.compare (.finite s m e h) (.finite t m' e' h') = some .lt ↔
      Before (rank (.finite s m e h)) (rank (.finite t m' e' h')) := by
  cases s <;> cases t <;>
    simp [UnpackedFloat.compare, rank, Before, Ordering.then_eq_lt, Ordering.swap_eq_lt,
      Ordering.then_eq_gt, Int.compare_eq_lt, Int.compare_eq_gt, Nat.compare_eq_lt,
      Nat.compare_eq_gt]

theorem compare_eq_lt {a b : UnpackedFloat} (ha : a ≠ .notANumber) (hb : b ≠ .notANumber) :
    a.compare b = some .lt ↔ Before (rank a) (rank b) := by
  rcases a with ⟨_ | _⟩ | _ | _ | ⟨s, m, e, h⟩ <;> rcases b with ⟨_ | _⟩ | _ | _ | ⟨t, m', e', h'⟩
  case finite.finite => exact compare_finite s t e e' h h'
  all_goals first | contradiction | skip
  all_goals try cases s
  all_goals try cases t
  all_goals simp [UnpackedFloat.compare, rank, Before, Ord.compare]

theorem compare_eq_eq {a b : UnpackedFloat} (ha : a ≠ .notANumber) (hb : b ≠ .notANumber) :
    a.compare b = some .eq ↔ rank a = rank b := by
  rcases a with ⟨_ | _⟩ | _ | _ | ⟨s, m, e, h⟩ <;> rcases b with ⟨_ | _⟩ | _ | _ | ⟨t, m', e', h'⟩
  case finite.finite =>
    cases s <;> cases t <;>
      simp [UnpackedFloat.compare, rank, Ordering.then_eq_eq, Ordering.swap_eq_eq]
  all_goals first | contradiction | skip
  all_goals try cases s
  all_goals try cases t
  all_goals simp [UnpackedFloat.compare, rank, Ord.compare]

theorem lt_iff {x y : Float32} : x < y ↔ (view x).compare (view y) = some .lt := by
  change decide ((view x).lt (view y) = true) = true ↔ _
  simp [UnpackedFloat.lt]

theorem le_iff {x y : Float32} :
    x ≤ y ↔ ((view x).compare (view y)).any (·.isLE) = true := by
  change decide ((view x).le (view y) = true) = true ↔ _
  rw [decide_eq_true_iff]
  rfl

theorem lt_iff_before {x y : Float32} (hx : x.isNaN = false) (hy : y.isNaN = false) :
    x < y ↔ Before (rank (view x)) (rank (view y)) := by
  rw [lt_iff, compare_eq_lt]
  · exact fun h => absurd (isNaN_iff.mpr h) (Bool.eq_false_iff.mp hx)
  · exact fun h => absurd (isNaN_iff.mpr h) (Bool.eq_false_iff.mp hy)

/-- Two numbers are equal if none of them is less. -/
theorem beq_iff {x y : Float32} (hx : x.isNaN = false) (hy : y.isNaN = false) :
    (x == y) = true ↔ ¬x < y ∧ ¬y < x := by
  have hbeq : (x == y) = true ↔ (view x).compare (view y) = some .eq := by
    change ((view x).compare (view y) == some .eq) = true ↔ _
    exact beq_iff_eq
  rw [hbeq, compare_eq_eq, lt_iff_before hx hy, lt_iff_before hy hx, Before, Before, Prod.ext_iff,
    Prod.ext_iff]
  · omega
  · exact fun h => absurd (isNaN_iff.mpr h) (Bool.eq_false_iff.mp hx)
  · exact fun h => absurd (isNaN_iff.mpr h) (Bool.eq_false_iff.mp hy)

theorem isNaN_of_lt_left {x y : Float32} (h : x < y) : x.isNaN = false := by
  rw [Bool.eq_false_iff]
  intro nan
  simp [lt_iff, isNaN_iff.mp nan, UnpackedFloat.compare] at h

theorem isNaN_of_lt_right {x y : Float32} (h : x < y) : y.isNaN = false := by
  rw [Bool.eq_false_iff]
  intro nan
  rw [lt_iff, isNaN_iff.mp nan] at h
  cases hx : view x <;> simp [hx, UnpackedFloat.compare] at h

theorem lt_asymm_float {x y : Float32} (h : x < y) : ¬y < x := by
  have hx := isNaN_of_lt_left h
  have hy := isNaN_of_lt_right h
  rw [lt_iff_before hx hy, Before] at h
  rw [lt_iff_before hy hx, Before]
  omega

theorem not_lt_trans {x y z : Float32} (hy : y.isNaN = false) (hyx : ¬y < x) (hzy : ¬z < y) :
    ¬z < x := by
  intro h
  have hz := isNaN_of_lt_left h
  have hx := isNaN_of_lt_right h
  rw [lt_iff_before hz hx, Before] at h
  rw [lt_iff_before hy hx, Before] at hyx
  rw [lt_iff_before hz hy, Before] at hzy
  omega

@[simp] theorem isNaN_negInf : negInf.isNaN = false := rfl

theorem not_lt_negInf (x : Float32) : ¬x < negInf := by
  intro h
  have hx := isNaN_of_lt_left h
  rw [lt_iff_before hx isNaN_negInf] at h
  rcases hv : view x with ⟨_ | _⟩ | _ | _ | ⟨_ | _, m, e, pos⟩ <;> simp [hv, rank, Before] at h

theorem negInf_lt {x : Float32} (hx : x.isNaN = false) (h : x ≠ negInf) : negInf < x := by
  rw [lt_iff_before isNaN_negInf hx]
  rcases hv : view x with ⟨_ | _⟩ | _ | _ | ⟨_ | _, m, e, pos⟩
  case infinity.negative => exact absurd (eq_of_view hv) h
  case notANumber => exact absurd (isNaN_iff.mpr hv) (Bool.eq_false_iff.mp hx)
  all_goals simp [rank, Before]

theorem add_isNaN {x y : Float32} (h : x.isNaN = true ∨ y.isNaN = true) : (x + y).isNaN = true := by
  rw [add_eq, isNaN_iff]
  rcases h with h | h
  · simp [isNaN_iff.mp h, UnpackedFloat.add]
  · rw [isNaN_iff.mp h]
    cases view x <;> simp [UnpackedFloat.add]

theorem sub_isNaN {x y : Float32} (h : x.isNaN = true ∨ y.isNaN = true) : (x - y).isNaN = true := by
  rw [sub_eq, isNaN_iff]
  rcases h with h | h
  · simp [isNaN_iff.mp h, UnpackedFloat.sub]
  · rw [isNaN_iff.mp h]
    cases view x <;> simp [UnpackedFloat.sub]

theorem div_isNaN {x y : Float32} (h : x.isNaN = true ∨ y.isNaN = true) : (x / y).isNaN = true := by
  rw [div_eq, isNaN_iff]
  rcases h with h | h
  · simp [isNaN_iff.mp h, UnpackedFloat.div]
  · rw [isNaN_iff.mp h]
    cases view x <;> simp [UnpackedFloat.div]

theorem negInf_sub (y : Float32) : negInf - y = negInf ∨ (negInf - y).isNaN = true := by
  rw [isNaN_iff, sub_eq, view_negInf]
  rcases view y with ⟨_ | _⟩ | _ | _ | _
  case infinity.negative => exact .inr rfl
  case notANumber => exact .inr rfl
  all_goals exact .inl rfl

theorem negInf_sub_negInf : (negInf - negInf).isNaN = true := rfl

/-- A divisor that is above zero, or no number. -/
theorem negInf_div {y : Float32} (h : 0 < y ∨ y.isNaN = true) :
    negInf / y = negInf ∨ (negInf / y).isNaN = true := by
  have zero : view 0 = .zero .positive := rfl
  rw [isNaN_iff, lt_iff, zero] at h
  rw [isNaN_iff, div_eq, view_negInf]
  rcases hv : view y with ⟨_ | _⟩ | _ | _ | ⟨_ | _, m, e, pos⟩
  case infinity.negative => simp [hv, UnpackedFloat.compare] at h
  case zero => simp [hv, UnpackedFloat.compare] at h
  case finite.negative => simp [hv, UnpackedFloat.compare] at h
  case finite.positive => exact .inl rfl
  all_goals exact .inr rfl

theorem max_pos {c : Float32} (x : Float32) (hc : 0 < c) : 0 < max x c ∨ (max x c).isNaN = true := by
  have zero : view 0 = .zero .positive := rfl
  change 0 < (if x ≤ c then c else x) ∨ (if x ≤ c then c else x).isNaN = true
  split
  case isTrue => exact .inl hc
  case isFalse above =>
    rw [lt_iff, zero] at hc
    rw [lt_iff, isNaN_iff, zero]
    rw [le_iff] at above
    rcases hx : view x with ⟨_ | _⟩ | _ | _ | ⟨_ | _, m, e, pos⟩ <;>
      rcases hv : view c with ⟨_ | _⟩ | _ | _ | ⟨_ | _, m', e', pos'⟩ <;>
      simp_all [UnpackedFloat.compare]

def IsZero (x : Float32) : Prop := ∃ s, view x = .zero s

theorem IsZero.div {x : Float32} (h : IsZero x) (y : Float32) :
    IsZero (x / y) ∨ (x / y).isNaN = true := by
  obtain ⟨s, hs⟩ := h
  rw [IsZero, isNaN_iff, div_eq, hs]
  cases view y with
  | notANumber => exact .inr (by simp [UnpackedFloat.div])
  | zero t => exact .inr (by simp [UnpackedFloat.div])
  | infinity t => exact .inl ⟨s / t, by simp [UnpackedFloat.div]⟩
  | finite t m e pos => exact .inl ⟨s / t, by simp [UnpackedFloat.div]⟩

theorem compare_zero (s t : Sign) (u : UnpackedFloat) :
    UnpackedFloat.compare (.zero s) u = UnpackedFloat.compare (.zero t) u := by
  rcases u with ⟨_ | _⟩ | _ | _ | ⟨_ | _, m, e, pos⟩ <;> rfl

theorem IsZero.add_lt {z : Float32} (h : IsZero z) (x r : Float32) : x + z < r ↔ x < r := by
  obtain ⟨s, hs⟩ := h
  rw [add_eq, hs]
  cases hx : view x with
  | zero t =>
    rw [lt_iff, lt_iff, hx, UnpackedFloat.add]
    split <;> rw [view_packed_zero, compare_zero _ t]
  | notANumber => rw [eq_of_view hx]; rfl
  | infinity t => rw [eq_of_view hx]; rfl
  | finite t m e pos => rw [eq_of_view hx]; rfl

end Ecco9.Library
