/-
When equal numbers are the same bits.

Equality of floating-point numbers is neither reflexive nor does it carry over to results: NaN is
unequal to itself, and the two zeros are equal but have different inverses.  Away from NaN and from
the negative zero it is equality of bits.  A number is compared by its sign, significand and exponent,
so what has to be shown is that these can be read off the bits in one way only.
-/
import Mathlib
import Branchwise.Binary64.Parts

namespace Branchwise.Binary64

open Float.Model Float.Model.UnpackedFloat

/-! ### The fields of a word -/

section Fields

variable {a b : BitVec Format.binary64.numBits}

theorem toNat_unpackMantissa (b : BitVec Format.binary64.numBits) :
    (unpackMantissa b).toNat = b.toNat % 2 ^ 52 := by
  simp [unpackMantissa]

theorem toNat_unpackExponent (b : BitVec Format.binary64.numBits) :
    (unpackExponent b).toNat = b.toNat / 2 ^ 52 % 2 ^ 11 := by
  simp [unpackExponent, Nat.shiftRight_eq_div_pow]

theorem toNat_unpackSign (b : BitVec Format.binary64.numBits) :
    (unpackSign b).toNat = b.toNat / 2 ^ 63 % 2 := by
  simp [unpackSign, Nat.shiftRight_eq_div_pow]

theorem sign_injective : Function.Injective Sign.ofBitVec :=
  have hinverse : Function.LeftInverse Sign.toBitVec Sign.ofBitVec := by
    intro v
    revert v
    decide
  hinverse.injective

/-- A word is its three fields. -/
theorem eq_of_fields_eq
    (hsign : Sign.ofBitVec (unpackSign a) = Sign.ofBitVec (unpackSign b))
    (hexponent : unpackExponent a = unpackExponent b)
    (hmantissa : unpackMantissa a = unpackMantissa b) : a = b := by
  have hs := congrArg BitVec.toNat (sign_injective hsign)
  have he := congrArg BitVec.toNat hexponent
  have hm := congrArg BitVec.toNat hmantissa
  rw [toNat_unpackSign, toNat_unpackSign] at hs
  rw [toNat_unpackExponent, toNat_unpackExponent] at he
  rw [toNat_unpackMantissa, toNat_unpackMantissa] at hm
  have ha : a.toNat < 2 ^ 64 := a.isLt
  have hb : b.toNat < 2 ^ 64 := b.isLt
  apply BitVec.eq_of_toNat_eq
  omega

end Fields

/-! ### Unpacking -/

/-- What number the fields of a word make. -/
inductive Encodes (b : BitVec Format.binary64.numBits) : UnpackedFloat → Prop
  | infinity {s : Sign} (hsign : Sign.ofBitVec (unpackSign b) = s)
      (hexponent : unpackExponent b = -1#_) (hmantissa : unpackMantissa b = 0#_) :
      Encodes b (.infinity s)
  | notANumber (hexponent : unpackExponent b = -1#_) (hmantissa : unpackMantissa b ≠ 0#_) :
      Encodes b .notANumber
  | zero {s : Sign} (hsign : Sign.ofBitVec (unpackSign b) = s)
      (hexponent : unpackExponent b = 0#_) (hmantissa : unpackMantissa b = 0#_) :
      Encodes b (.zero s)
  | subnormal {s : Sign} {m : Nat} {e : Int} {hm : 0 < m}
      (hsign : Sign.ofBitVec (unpackSign b) = s) (hexponent : unpackExponent b = 0#_)
      (hmantissa : (unpackMantissa b).toNat = m) : Encodes b (.finite s m e hm)
  | normal {s : Sign} {m : Nat} {e : Int} {hm : 0 < m}
      (hsign : Sign.ofBitVec (unpackSign b) = s)
      (hexponent : ((unpackExponent b).toNat : Int) - 1075 = e)
      (hmantissa : 2 ^ 52 + (unpackMantissa b).toNat = m) : Encodes b (.finite s m e hm)

theorem toNat_one_append (v : BitVec 52) : (1#1 ++ v).toNat = 2 ^ 52 + v.toNat := by
  rw [BitVec.toNat_append, ← Nat.shiftLeft_add_eq_or_of_lt v.isLt]
  rfl

theorem encodes_unpack (b : BitVec Format.binary64.numBits) :
    Encodes b (UnpackedFloat.unpack Format.binary64 b) := by
  unfold UnpackedFloat.unpack
  dsimp only
  split
  · rename_i hexponent
    split
    · exact .infinity rfl hexponent ‹_›
    · exact .notANumber hexponent ‹_›
  · split
    · rename_i hexponent
      split
      · exact .zero rfl hexponent ‹_›
      · exact .subnormal rfl hexponent rfl
    · exact .normal rfl rfl (toNat_one_append _).symm

/-- Only NaN is the number of more than one word. -/
theorem Encodes.eq {a b : BitVec Format.binary64.numBits} {u : UnpackedFloat} (ha : Encodes a u)
    (hb : Encodes b u) (hu : u ≠ .notANumber) : a = b := by
  cases ha with
  | notANumber => exact absurd rfl hu
  | infinity hsign hexponent hmantissa =>
    cases hb with
    | infinity hsign' hexponent' hmantissa' =>
      exact eq_of_fields_eq (hsign.trans hsign'.symm) (hexponent.trans hexponent'.symm)
        (hmantissa.trans hmantissa'.symm)
  | zero hsign hexponent hmantissa =>
    cases hb with
    | zero hsign' hexponent' hmantissa' =>
      exact eq_of_fields_eq (hsign.trans hsign'.symm) (hexponent.trans hexponent'.symm)
        (hmantissa.trans hmantissa'.symm)
  | subnormal hsign hexponent hmantissa =>
    cases hb with
    | subnormal hsign' hexponent' hmantissa' =>
      exact eq_of_fields_eq (hsign.trans hsign'.symm) (hexponent.trans hexponent'.symm)
        (BitVec.eq_of_toNat_eq (hmantissa.trans hmantissa'.symm))
    | normal hsign' hexponent' hmantissa' =>
      -- a subnormal significand lacks the leading bit
      have hlt : (unpackMantissa a).toNat < 2 ^ 52 := (unpackMantissa a).isLt
      omega
  | normal hsign hexponent hmantissa =>
    cases hb with
    | subnormal hsign' hexponent' hmantissa' =>
      have hlt : (unpackMantissa b).toNat < 2 ^ 52 := (unpackMantissa b).isLt
      omega
    | normal hsign' hexponent' hmantissa' =>
      exact eq_of_fields_eq (hsign.trans hsign'.symm) (BitVec.eq_of_toNat_eq (by omega))
        (BitVec.eq_of_toNat_eq (by omega))

/-- The word of a number and what is unpacked from it. -/
theorem encodes_toModel (x : Float) : Encodes x.toModel.toBits.toBitVec x.toModel.unpack :=
  encodes_unpack x.toModel.toBits.toBitVec

/-- There is only one NaN. -/
theorem toBits_of_unpack_eq_notANumber {x : Float} (h : x.toModel.unpack = .notANumber) :
    x.toModel.toBits.toBitVec = packedNaN Format.binary64 := by
  have hx := encodes_toModel x
  rw [h] at hx
  cases hx with
  | notANumber hexponent hmantissa => exact x.toModel.valid.eq_packedNaN hexponent hmantissa

/-- A number is known by its sign, significand and exponent. -/
theorem eq_of_unpack_eq {x y : Float} (h : x.toModel.unpack = y.toModel.unpack) : x = y := by
  have hbits : x.toModel.toBits.toBitVec = y.toModel.toBits.toBitVec := by
    by_cases hnan : y.toModel.unpack = .notANumber
    · rw [toBits_of_unpack_eq_notANumber hnan, toBits_of_unpack_eq_notANumber (h.trans hnan)]
    · have hx := encodes_toModel x
      rw [h] at hx
      exact hx.eq (encodes_toModel y) hnan
  obtain ⟨⟨bits, hvalid⟩⟩ := x
  obtain ⟨⟨bits', hvalid'⟩⟩ := y
  obtain rfl : bits = bits' := UInt64.toBitVec_inj.1 hbits
  rfl

/-! ### Equality -/

/-- The zero whose sign bit is set. -/
def negativeZero : Float := Float.ofBits 0x8000000000000000

/-- Neither NaN nor the negative zero. -/
def IsPlain (x : Float) : Prop :=
  ¬ x.isNaN ∧ x ≠ negativeZero

instance (x : Float) : Decidable (IsPlain x) :=
  inferInstanceAs (Decidable (_ ∧ _))

theorem isNaN_iff {x : Float} : x.isNaN ↔ x.toModel.unpack = .notANumber := by
  show x.toModel.unpack.isNaN ↔ _
  cases x.toModel.unpack <;> simp [UnpackedFloat.isNaN]

theorem eq_negativeZero_iff {x : Float} :
    x = negativeZero ↔ x.toModel.unpack = .zero .negative := by
  have hzero : negativeZero.toModel.unpack = .zero .negative := by rfl
  refine ⟨?_, ?_⟩
  · rintro rfl
    exact hzero
  · intro h
    exact eq_of_unpack_eq (h.trans hzero.symm)

theorem compare_sign_eq_iff {s t : Sign} : compare s t = .eq ↔ s = t := by
  cases s <;> cases t <;> simp [compare]

/-- Numbers compare as equal if they are the same or both are zero. -/
theorem compare_eq_some_eq_iff {u v : UnpackedFloat} : u.compare v = some .eq ↔
    u = v ∧ u ≠ .notANumber ∨ ∃ s t, u = .zero s ∧ v = .zero t := by
  cases u with
  | notANumber => simp [UnpackedFloat.compare]
  | infinity s =>
    cases v with
    | infinity t => simp [UnpackedFloat.compare, compare_sign_eq_iff]
    | _ => cases s <;> simp [UnpackedFloat.compare]
  | zero s =>
    cases v with
    | infinity t => cases t <;> simp [UnpackedFloat.compare]
    | finite t n f hn => cases t <;> simp [UnpackedFloat.compare]
    | _ => simp [UnpackedFloat.compare]
  | finite s m e hm =>
    cases v with
    | infinity t => cases t <;> simp [UnpackedFloat.compare]
    | finite t n f hn =>
      cases s <;> cases t <;>
        simp [UnpackedFloat.compare, Ordering.swap_eq_eq, and_comm]
    | _ => cases s <;> simp [UnpackedFloat.compare]

theorem IsPlain.sign_eq {x : Float} {s : Sign} (hx : IsPlain x)
    (hzero : x.toModel.unpack = .zero s) : s = .positive := by
  cases s with
  | negative => exact absurd (eq_negativeZero_iff.2 hzero) hx.2
  | positive => rfl

/-- **Away from NaN and the negative zero, equal numbers are the same bits.** -/
theorem beq_iff_of_isPlain {x y : Float} (hx : IsPlain x) (hy : IsPlain y) : x == y ↔ x = y := by
  have hbeq : x == y ↔ x.toModel.unpack.compare y.toModel.unpack = some .eq := by
    show (x.toModel.unpack.compare y.toModel.unpack == some .eq) = true ↔ _
    exact beq_iff_eq
  have hnan : x.toModel.unpack ≠ .notANumber := fun h => hx.1 (isNaN_iff.2 h)
  rw [hbeq, compare_eq_some_eq_iff]
  refine ⟨?_, ?_⟩
  · rintro (⟨h, -⟩ | ⟨s, t, hs, ht⟩)
    · exact eq_of_unpack_eq h
    · refine eq_of_unpack_eq ?_
      rw [hs, ht, hx.sign_eq hs, hy.sign_eq ht]
  · rintro rfl
    exact .inl ⟨rfl, hnan⟩

end Branchwise.Binary64
