/-
Decimal digits are worth a number without a sign.

A number written with digits is made by rounding, from whole numbers and powers of ten, with one
product or one quotient.  Rounding a number with a plus sign gives one, even where it ends in zero or
infinity, and so does every step here; the steps that lead to NaN need a zero or an infinity on either
side, and a power of ten is neither.
-/
import Branchwise.Decimal.Numeral
import Branchwise.Proofs.Binary64.Equality

namespace Branchwise.Binary64

open Float.Model Float.Model.UnpackedFloat

/-- The number is positive, or it is a zero or an infinity with a plus sign. -/
inductive IsUnsigned : UnpackedFloat → Prop
  | infinity : IsUnsigned (.infinity .positive)
  | zero : IsUnsigned (.zero .positive)
  | finite {m : Nat} {e : Int} {hm : 0 < m} : IsUnsigned (.finite .positive m e hm)

section Operations

variable {u : UnpackedFloat} {spec : Float.Model.Format}

theorem isUnsigned_roundWithAccuracy (m : Nat) (e : Int) (accuracy : Accuracy) :
    IsUnsigned (roundWithAccuracy spec .positive m e accuracy) := by
  unfold roundWithAccuracy
  dsimp only
  split
  · exact .zero
  · exact .finite

theorem isUnsigned_ofNat (n : Nat) : IsUnsigned (UnpackedFloat.ofNat spec n) := by
  unfold UnpackedFloat.ofNat UnpackedFloat.ofInt UnpackedFloat.normalize
  split
  · rename_i hlt
    rw [Int.compare_eq_lt] at hlt
    omega
  · exact .zero
  · exact isUnsigned_roundWithAccuracy _ _ _

theorem IsUnsigned.mul_finite (h : IsUnsigned u) {m : Nat} {e : Int} (hm : 0 < m) :
    IsUnsigned (UnpackedFloat.mul spec u (.finite .positive m e hm)) := by
  cases h with
  | infinity => exact .infinity
  | zero => exact .zero
  | finite => exact isUnsigned_roundWithAccuracy _ _ _

theorem IsUnsigned.div_finite (h : IsUnsigned u) {m : Nat} {e : Int} (hm : 0 < m) :
    IsUnsigned (UnpackedFloat.div spec u (.finite .positive m e hm)) := by
  cases h with
  | infinity => exact .infinity
  | zero => exact .zero
  | finite => exact isUnsigned_roundWithAccuracy _ _ _

theorem isUnsigned_ofScientific (m : Nat) (e : Int) :
    IsUnsigned (UnpackedFloat.ofScientific spec m e) := by
  unfold UnpackedFloat.ofScientific
  split
  · exact .zero
  · split
    · exact .infinity
    · split
      · exact .zero
      · split
        · exact IsUnsigned.finite.mul_finite _
        · exact IsUnsigned.finite.div_finite _

end Operations

/-! ### Words without a sign -/

/-- The first bit of a word is the sign that was packed. -/
theorem unpackSign_packComponents {spec : Float.Model.Format} (s : Sign)
    (exponent : BitVec spec.exponentBits)
    (mantissa : BitVec spec.mantissaBitsWithoutImplicit) :
    unpackSign (packComponents spec s exponent mantissa) = s.toBitVec := by
  ext i hi
  obtain rfl : i = 0 := by omega
  simp [unpackSign, packComponents, BitVec.getLsbD_append, BitVec.getElem_append]

theorem Encodes.isUnsigned {b : BitVec Format.binary64.numBits} {u : UnpackedFloat}
    (h : Encodes b u) (hpositive : unpackSign b = 0#1)
    (hnan : unpackExponent b = -1#_ → unpackMantissa b = 0#_) : IsUnsigned u := by
  have hpos {s : Sign} (hsign : Sign.ofBitVec (unpackSign b) = s) : Sign.positive = s := by
    rw [← hsign, hpositive]
    rfl
  cases h with
  | notANumber hexponent hmantissa => exact absurd (hnan hexponent) hmantissa
  | infinity hsign => exact hpos hsign ▸ .infinity
  | zero hsign => exact hpos hsign ▸ .zero
  | subnormal hsign => exact hpos hsign ▸ .finite
  | normal hsign => exact hpos hsign ▸ .finite

theorem isUnsigned_packComponents {exponent : BitVec 11} {mantissa : BitVec 52}
    (hnan : exponent = -1#11 → mantissa = 0#52) :
    IsUnsigned (UnpackedFloat.unpack Format.binary64
      (packComponents Format.binary64 .positive exponent mantissa)) := by
  refine (encodes_unpack _).isUnsigned (unpackSign_packComponents _ _ _) ?_
  rw [unpackExponent_packComponents, unpackMantissa_packComponents]
  exact hnan

/-- A number keeps its sign when it is stored, even if it is too large and becomes infinite. -/
theorem IsUnsigned.unpack_pack {u : UnpackedFloat} (h : IsUnsigned u) :
    IsUnsigned (UnpackedFloat.unpack Format.binary64 (UnpackedFloat.pack Format.binary64 u)) := by
  cases h with
  | infinity => exact isUnsigned_packComponents fun _ => rfl
  | zero => exact isUnsigned_packComponents fun _ => rfl
  | @finite m e hm =>
    unfold UnpackedFloat.pack
    dsimp only
    split
    · exact isUnsigned_packComponents fun _ => rfl
    · rename_i hfits
      split
      · -- the exponent of a number that fits is not the one kept for infinity and NaN
        refine isUnsigned_packComponents fun hexponent => ?_
        have hexponent' := congrArg BitVec.toNat hexponent
        rw [BitVec.toNat_ofNat, Nat.mod_eq_of_lt (by omega)] at hexponent'
        change _ = 2 ^ 11 - 1 at hexponent'
        omega
      · exact isUnsigned_packComponents nofun

/-! ### Decimals -/

/-- Whether the number is finite and above zero. -/
def isPositive : UnpackedFloat → Bool
  | .finite .positive .. => true
  | _ => false

theorem exists_eq_finite {u : UnpackedFloat} (h : isPositive u) :
    ∃ m e hm, u = .finite .positive m e hm := by
  unfold isPositive at h
  split at h
  · exact ⟨_, _, _, rfl⟩
  · cases h

/-- Each power of ten in the table is a positive number. -/
theorem isPositive_powerOfTen :
    ∀ power ∈ Float.exactlyRepresentablePowersOfTen, isPositive power.toModel.unpack := by
  decide +kernel

/-- **A number written with digits has no sign.** -/
theorem isUnsigned_floatOfScientific (m : Nat) (s : Bool) (e : Nat) :
    IsUnsigned (Float.ofScientific m s e).toModel.unpack := by
  unfold Float.ofScientific
  split
  · rename_i hsmall
    have hsize : e < Float.exactlyRepresentablePowersOfTen.size := Nat.lt_succ_of_le hsmall.2
    obtain ⟨n, k, hn, hpower⟩ :=
      exists_eq_finite (isPositive_powerOfTen _ (Array.getElem_mem hsize))
    have hwhole : IsUnsigned m.toUInt64.toFloat.toModel.unpack := (isUnsigned_ofNat _).unpack_pack
    dsimp only
    split
    · show IsUnsigned (Float.Model.div _ _).unpack
      rw [Float.Model.div, hpower]
      exact (hwhole.div_finite hn).unpack_pack
    · show IsUnsigned (Float.Model.mul _ _).unpack
      rw [Float.Model.mul, hpower]
      exact (hwhole.mul_finite hn).unpack_pack
  · exact (isUnsigned_ofScientific _ _).unpack_pack

theorem IsUnsigned.isPlain {x : Float} (h : IsUnsigned x.toModel.unpack) : IsPlain x := by
  refine ⟨?_, ?_⟩
  · rw [isNaN_iff]
    intro hnan
    rw [hnan] at h
    cases h
  · rw [ne_eq, eq_negativeZero_iff]
    intro hzero
    rw [hzero] at h
    cases h

end Branchwise.Binary64

namespace Branchwise.Decimal

theorem isPlain_scaled (digits : Nat) (exponent : Int) :
    Binary64.IsPlain (scaled digits exponent) :=
  (Binary64.isUnsigned_floatOfScientific _ _ _).isPlain

end Branchwise.Decimal
