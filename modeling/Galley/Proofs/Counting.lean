import Galley.Decimal.Exact
import Mathlib
/-!
# Counting in floating point

A float that counts by ones stands for the number of steps (`isCount_add_one`) up to 2⁵³, where it stays.
A step is exact because the sum, aligned at the exponent of one, has no digits behind its leading 53.
-/

namespace Galley.Decimal

open Float.Model Float.Model.UnpackedFloat

/-! ## Unpacked whole numbers -/

/-- A significand of 53 digits and an exponent at which it is `n`. -/
def IsWhole (n : Nat) (u : UnpackedFloat) : Prop :=
  ∃ m e h, u = .finite .positive m e h ∧ 2 ^ 52 ≤ m ∧ m < 2 ^ 53 ∧ -52 ≤ e ∧ e ≤ 1 ∧ m * 2 ^ (e + 52).toNat = n * 2 ^ 52

theorem shiftRight_mul (a k : Nat) : (⟨a * 2 ^ k, false, false⟩ : ExtendedMantissa) >>> k = ⟨a, false, false⟩ := by
  induction k generalizing a with
  | zero => simp [HShiftRight.hShiftRight, Nat.repeat]
  | succ k ih =>
    have hstep : (⟨a * 2 ^ (k + 1), false, false⟩ : ExtendedMantissa) >>> (k + 1) =
        ((⟨(2 * a) * 2 ^ k, false, false⟩ : ExtendedMantissa) >>> k).shiftRightOne := by
      rw [Nat.pow_succ, Nat.mul_comm 2 a, Nat.mul_assoc a 2, Nat.mul_comm 2]
      rfl
    rw [hstep, ih]
    simp [ExtendedMantissa.shiftRightOne]

/-- The leading digits of `n`: 53 of them, and the place of the last one. -/
theorem exists_significand {n : Nat} (hn : n ≠ 0) (hle : n ≤ 2 ^ 53) :
    ∃ a, a * 2 ^ n.log2 = n * 2 ^ 52 ∧ 2 ^ 52 ≤ a ∧ a < 2 ^ 53 ∧ n.log2 ≤ 53 := by
  obtain ⟨hlow, hhigh⟩ := (Nat.log2_eq_iff hn).1 rfl
  rcases Nat.lt_or_ge n.log2 53 with hlog | hlog
  · refine ⟨n * 2 ^ (52 - n.log2), ?_, ?_, ?_, by omega⟩
    · rw [Nat.mul_assoc, ← Nat.pow_add, Nat.sub_add_cancel (by omega)]
    · calc 2 ^ 52 = 2 ^ n.log2 * 2 ^ (52 - n.log2) := by rw [← Nat.pow_add, Nat.add_sub_cancel' (by omega)]
        _ ≤ n * 2 ^ (52 - n.log2) := Nat.mul_le_mul_right _ hlow
    · calc n * 2 ^ (52 - n.log2) < 2 ^ (n.log2 + 1) * 2 ^ (52 - n.log2) :=
            Nat.mul_lt_mul_of_pos_right hhigh (Nat.two_pow_pos _)
        _ = 2 ^ 53 := by rw [← Nat.pow_add, show n.log2 + 1 + (52 - n.log2) = 53 by omega]
  · have hge : 2 ^ 53 ≤ n := (Nat.pow_le_pow_right (by decide) hlog).trans hlow
    obtain rfl : n = 2 ^ 53 := Nat.le_antisymm hle hge
    exact ⟨2 ^ 52, by decide +kernel, by decide, by decide, by decide +kernel⟩

theorem targetExponent_eq {m : Nat} {e : Int} {l : Nat} (hlow : 2 ^ l ≤ m) (hhigh : m < 2 ^ (l + 1)) (he : -52 ≤ e) :
    Format.binary64.targetExponent (totalExponent m e) = l + e - 52 := by
  have hne : m ≠ 0 := Nat.ne_of_gt (Nat.lt_of_lt_of_le (Nat.two_pow_pos l) hlow)
  have hlog : m.log2 = l := (Nat.log2_eq_iff hne).2 ⟨hlow, hhigh⟩
  have hbits : Format.binary64.mantissaBits = 53 := rfl
  have hleast : Format.binary64.minExponent = -1074 := rfl
  rw [Format.targetExponent, totalExponent, hlog, hbits, hleast]
  push_cast
  omega

theorem shiftToTargetExponent_exact {m k : Nat} {e : Int} (hk : Format.binary64.targetExponent (totalExponent m e) = e + k) :
    shiftToTargetExponent .binary64 m e .exact = ((⟨m, false, false⟩ : ExtendedMantissa) >>> k, e + k) := by
  have hshift : (e + (k : Int) - e).toNat = k := by omega
  simp only [shiftToTargetExponent, shiftToExponent, hk, hshift, ExtendedMantissa.ofMantissaAndAccuracy]

/-- A whole number up to 2⁵³ is rounded to itself. -/
theorem isWhole_round {n : Nat} (hn : n ≠ 0) (hle : n ≤ 2 ^ 53) :
    IsWhole n (UnpackedFloat.round .binary64 .positive (n * 2 ^ 52) (-52)) := by
  obtain ⟨a, ha, hlow, hhigh, hlog⟩ := exists_significand hn hle
  obtain ⟨hnlow, hnhigh⟩ := (Nat.log2_eq_iff hn).1 rfl
  -- the sum has `n.log2` digits more than a significand, and they are zeros
  have htarget : Format.binary64.targetExponent (totalExponent (n * 2 ^ 52) (-52)) = (-52 : Int) + n.log2 := by
    rw [targetExponent_eq (l := n.log2 + 52) _ _ (by decide)]
    · push_cast
      omega
    · rw [Nat.pow_add]
      exact Nat.mul_le_mul_right _ hnlow
    · rw [show n.log2 + 52 + 1 = n.log2 + 1 + 52 by omega, Nat.pow_add]
      exact Nat.mul_lt_mul_of_pos_right hnhigh (Nat.two_pow_pos _)
  have hfirst : shiftToTargetExponent .binary64 (n * 2 ^ 52) (-52) .exact = (⟨a, false, false⟩, (-52 : Int) + n.log2) := by
    rw [shiftToTargetExponent_exact htarget, ← ha, shiftRight_mul]
  have hsecond : shiftToTargetExponent .binary64 a ((-52 : Int) + n.log2) .exact =
      (⟨a, false, false⟩, (-52 : Int) + n.log2) := by
    have hfits := targetExponent_eq (e := (-52 : Int) + n.log2) hlow hhigh (by omega)
    rw [shiftToTargetExponent_exact (k := 0) (by rw [hfits]; push_cast; omega)]
    simp [HShiftRight.hShiftRight, Nat.repeat]
  have hround : UnpackedFloat.round .binary64 .positive (n * 2 ^ 52) (-52) =
      .finite .positive a ((-52 : Int) + n.log2) (Nat.lt_of_lt_of_le (Nat.two_pow_pos _) hlow) := by
    have hshift : (-52 - ((-52 : Int) + n.log2)).toNat = 0 := by omega
    simp only [UnpackedFloat.round, htarget, decreaseExponent, hshift, Nat.shiftLeft_zero, Int.natCast_zero, Int.sub_zero,
      roundWithAccuracy, hfirst]
    simp only [ExtendedMantissa.roundedMantissa, ExtendedMantissa.accuracy, Accuracy.roundToNearestEven, hsecond]
    rw [dif_neg (Nat.ne_of_gt (Nat.lt_of_lt_of_le (Nat.two_pow_pos _) hlow))]
  refine ⟨a, _, _, hround, hlow, hhigh, by omega, by omega, ?_⟩
  rw [show ((-52 : Int) + n.log2 + 52).toNat = n.log2 by omega, ha]

theorem unpack_one : (1 : Float).toModel.unpack = .finite .positive (2 ^ 52) (-52) (by decide) := rfl

theorem normalize_natCast {k : Nat} (hk : 0 < k) (e : Int) :
    UnpackedFloat.normalize .binary64 k e .positive = UnpackedFloat.round .binary64 .positive k e := by
  have hgt : compare (k : Int) 0 = .gt := Int.compare_eq_gt.2 (Int.natCast_pos.2 hk)
  simp only [UnpackedFloat.normalize, hgt, Int.toNat_natCast]

theorem isWhole_add_one {n : Nat} {u : UnpackedFloat} (hu : IsWhole n u) (hn : n < 2 ^ 53) :
    IsWhole (n + 1) (UnpackedFloat.add .binary64 u (1 : Float).toModel.unpack) := by
  obtain ⟨m, e, hpos, rfl, hlow, hhigh, he, he', hvalue⟩ := hu
  have hleast : min e (-52) = -52 := by omega
  have hfirst : m * 2 ^ (e - -52).toNat = n * 2 ^ 52 := by rw [← hvalue, Int.sub_neg]
  have hsecond : 2 ^ 52 * 2 ^ ((-52 : Int) - -52).toNat = 2 ^ 52 := by
    rw [Int.sub_self, Int.toNat_zero, Nat.pow_zero, Nat.mul_one]
  have hsum : UnpackedFloat.add .binary64 (.finite .positive m e hpos) (.finite .positive (2 ^ 52) (-52) (by decide)) =
      UnpackedFloat.normalize .binary64 (((n + 1) * 2 ^ 52 : Nat) : Int) (-52) .positive := by
    simp only [UnpackedFloat.add, hleast, decreaseExponent, Sign.apply, Nat.shiftLeft_eq, hfirst, hsecond]
    rw [← Int.natCast_add, ← Nat.succ_mul]
  rw [unpack_one, hsum, normalize_natCast (Nat.mul_pos (Nat.succ_pos n) (Nat.two_pow_pos 52))]
  exact isWhole_round (Nat.succ_ne_zero n) hn

/-! ## Packed whole numbers -/

theorem unpackSign_packComponents_positive (a : BitVec 11) (b : BitVec 52) :
    unpackSign (packComponents .binary64 .positive a b) = 0#1 := by
  simp only [unpackSign, packComponents, BitVec.extractLsb]
  rw [BitVec.extractLsb'_append_eq_of_le (by omega), BitVec.extractLsb'_append_eq_of_le (by omega)]
  rfl

theorem pack_finite {m : Nat} {e : Int} (hpos : 0 < m) (hlow : 2 ^ 52 ≤ m) (hhigh : m < 2 ^ 53) (he : -52 ≤ e) (he' : e ≤ 1) :
    UnpackedFloat.pack .binary64 (.finite .positive m e hpos) =
      packComponents .binary64 .positive (BitVec.ofNat 11 (e + 1075).toNat) (BitVec.ofNat 52 m) := by
  have hlog : m.log2 = 52 := (Nat.log2_eq_iff (Nat.ne_of_gt hpos)).2 ⟨hlow, hhigh⟩
  have hbias : e + (Format.binary64.exponentBias : Nat) + (Format.binary64.mantissaBitsWithoutImplicit : Nat) = e + 1075 := by
    rw [Int.add_assoc]
    rfl
  rw [UnpackedFloat.pack.eq_4]
  dsimp only
  have hbits : 52 + 1 = Format.binary64.mantissaBits := rfl
  have hplaces : (2 : Nat) ^ Format.binary64.exponentBits = 2048 := rfl
  rw [hbias, hlog, if_neg (by omega), if_pos hbits]

theorem unpack_pack {n : Nat} {u : UnpackedFloat} (hu : IsWhole n u) : (Float.Model.pack u).unpack = u := by
  obtain ⟨m, e, hpos, rfl, hlow, hhigh, he, he', -⟩ := hu
  have hpack := pack_finite hpos hlow hhigh he he'
  have hexponent : (BitVec.ofNat 11 (e + 1075).toNat).toNat = (e + 1075).toNat := by
    rw [BitVec.toNat_ofNat, Nat.mod_eq_of_lt (by omega)]
  have hlast : BitVec.ofNat 11 (e + 1075).toNat ≠ -1#11 := by
    intro h
    have := congrArg BitVec.toNat h
    rw [hexponent] at this
    simp at this
    omega
  have hfirst : BitVec.ofNat 11 (e + 1075).toNat ≠ 0#11 := by
    intro h
    have := congrArg BitVec.toNat h
    rw [hexponent] at this
    simp at this
    omega
  have hunpack : (Float.Model.pack (.finite .positive m e hpos)).unpack =
      UnpackedFloat.unpack .binary64 (packComponents .binary64 .positive (BitVec.ofNat 11 (e + 1075).toNat) (BitVec.ofNat 52 m)) := by
    rw [← hpack]
    rfl
  rw [hunpack]
  simp only [UnpackedFloat.unpack, unpackExponent_packComponents, unpackMantissa_packComponents,
    unpackSign_packComponents_positive]
  rw [if_neg hlast, if_neg hfirst, hexponent]
  have hmantissa : (1#1 ++ BitVec.ofNat 52 m).toNat = m := by
    have hone : (1#1).toNat <<< 52 = 2 ^ 52 := by decide
    have hrest : (BitVec.ofNat 52 m).toNat = m % 2 ^ 52 := BitVec.toNat_ofNat m 52
    rw [BitVec.toNat_append, ← Nat.shiftLeft_add_eq_or_of_lt (BitVec.isLt _), hone, hrest]
    omega
  have hbias : (((e + 1075).toNat : Nat) : Int) - ((Format.binary64.exponentBias : Nat) + (52 : Nat)) = e := by
    have : ((Format.binary64.exponentBias : Nat) : Int) = 1023 := rfl
    omega
  rw [UnpackedFloat.finite.injEq]
  exact ⟨rfl, hmantissa, hbias⟩

/-! ## Counts -/

/-- A float stands for a whole number. -/
def IsCount (n : Nat) (x : Float) : Prop :=
  ∃ m e narrow, Value.of x = .finite false m e narrow ∧ (Fraction.scaled m 2 e).num = n * (Fraction.scaled m 2 e).den

theorem isCount_zero : IsCount 0 0 :=
  ⟨0, Int.negSucc 1073, false, rfl, (Nat.zero_mul _).symm⟩

/-- The bits of a number: no sign, the exponent, and the significand without its first digit. -/
theorem toNat_packComponents (a : BitVec 11) (b : BitVec 52) :
    (packComponents .binary64 .positive a b).toNat = a.toNat * 2 ^ 52 + b.toNat := by
  have hsign : (0#1 ++ a).toNat = a.toNat := by
    rw [BitVec.toNat_append]
    simp
  have hbits : packComponents .binary64 .positive a b = (0#1 ++ a) ++ b := rfl
  rw [hbits, BitVec.toNat_append, hsign, ← Nat.shiftLeft_add_eq_or_of_lt b.isLt, Nat.shiftLeft_eq]

theorem num_scaled {m n : Nat} {e : Int} (he : -52 ≤ e) (hvalue : m * 2 ^ (e + 52).toNat = n * 2 ^ 52) :
    (Fraction.scaled m 2 e).num = n * (Fraction.scaled m 2 e).den := by
  cases e with
  | ofNat k =>
    have hshift : (Int.ofNat k + 52).toNat = k + 52 := rfl
    rw [hshift, Nat.pow_add, ← Nat.mul_assoc] at hvalue
    exact (Nat.eq_of_mul_eq_mul_right (Nat.two_pow_pos 52) hvalue).trans (Nat.mul_one n).symm
  | negSucc k =>
    have hshift : (Int.negSucc k + 52).toNat + (k + 1) = 52 := by omega
    rw [← hshift, Nat.pow_add, Nat.mul_comm (2 ^ _), ← Nat.mul_assoc] at hvalue
    exact Nat.eq_of_mul_eq_mul_right (Nat.two_pow_pos _) hvalue

/-- A number that is not near zero is read off its exponent and its significand. -/
theorem Value.of_eq {x : Float} {k f : Nat} (hbits : x.toBits.toNat = k * 2 ^ 52 + f) (hf : f < 2 ^ 52) (hk : 0 < k)
    (hk' : k < 2047) : ∃ narrow, Value.of x = .finite false (2 ^ 52 + f) (k - 1075) narrow := by
  have hplaces : Nat.pow 2 52 = 2 ^ 52 := rfl
  have hlast : Nat.pow 2 63 = 2 ^ 63 := rfl
  have hexponent : (k * 2 ^ 52 + f) / 2 ^ 52 % 2048 = k := by omega
  have hmantissa : (k * 2 ^ 52 + f) % 2 ^ 52 = f := by omega
  have hsign : ¬(k * 2 ^ 52 + f) / 2 ^ 63 = 1 := by omega
  unfold Value.of
  rw [hbits, hplaces, hlast]
  simp only [hexponent, hmantissa, hsign, Nat.ne_of_lt hk', Nat.ne_of_gt hk, if_false, decide_false]
  exact ⟨_, rfl⟩

theorem isCount_of_isWhole {n : Nat} {x : Float} {u : UnpackedFloat} (hx : x.toModel = Float.Model.pack u) (hu : IsWhole n u) :
    IsCount n x := by
  obtain ⟨m, e, hpos, rfl, hlow, hhigh, he, he', hvalue⟩ := hu
  have hbits : x.toBits.toNat = (e + 1075).toNat * 2 ^ 52 + m % 2 ^ 52 := by
    have hpacked : x.toBits.toNat =
        (packComponents .binary64 .positive (BitVec.ofNat 11 (e + 1075).toNat) (BitVec.ofNat 52 m)).toNat := by
      rw [← pack_finite hpos hlow hhigh he he']
      exact congrArg (fun y : Float.Model => y.toBits.toNat) hx
    rw [hpacked, toNat_packComponents, BitVec.toNat_ofNat, BitVec.toNat_ofNat, Nat.mod_eq_of_lt (by omega)]
  obtain ⟨narrow, hof⟩ := Value.of_eq hbits (Nat.mod_lt _ (Nat.two_pow_pos 52)) (by omega) (by omega)
  have hexponent : (((e + 1075).toNat : Nat) : Int) - 1075 = e := by omega
  rw [hexponent, show 2 ^ 52 + m % 2 ^ 52 = m by omega] at hof
  exact ⟨m, e, narrow, hof, num_scaled he hvalue⟩

/-! ## Counting -/

/-- What counting by ones from zero arrives at. -/
def tally : Nat → Float
  | 0 => 0
  | n + 1 => tally n + 1

theorem toModel_add (x y : Float) :
    (x + y).toModel = Float.Model.pack (UnpackedFloat.add .binary64 x.toModel.unpack y.toModel.unpack) := rfl

theorem exists_isWhole_tally {n : Nat} (hn : n < 2 ^ 53) :
    ∃ u, (tally (n + 1)).toModel = Float.Model.pack u ∧ IsWhole (n + 1) u := by
  induction n with
  | zero => exact ⟨(1 : Float).toModel.unpack, rfl, 2 ^ 52, -52, by decide, rfl, by decide, by decide, by decide, by decide, rfl⟩
  | succ n ih =>
    obtain ⟨u, hu, hwhole⟩ := ih (Nat.lt_of_succ_lt hn)
    refine ⟨_, toModel_add _ 1, ?_⟩
    rw [hu, unpack_pack hwhole]
    exact isWhole_add_one hwhole hn

theorem isWhole_last {u : UnpackedFloat} (hu : IsWhole (2 ^ 53) u) : u = .finite .positive (2 ^ 52) 1 (by decide) := by
  obtain ⟨m, e, hpos, rfl, hlow, hhigh, he, he', hvalue⟩ := hu
  have hplace : e = 1 := by
    by_contra hne
    have hlt : m * 2 ^ (e + 52).toNat < 2 ^ 53 * 2 ^ 52 :=
      calc m * 2 ^ (e + 52).toNat < 2 ^ 53 * 2 ^ (e + 52).toNat := Nat.mul_lt_mul_of_pos_right hhigh (Nat.two_pow_pos _)
        _ ≤ 2 ^ 53 * 2 ^ 52 := Nat.mul_le_mul_left _ (Nat.pow_le_pow_right (by decide) (by omega))
    omega
  subst hplace
  have hshift : ((1 : Int) + 52).toNat = 53 := rfl
  rw [hshift] at hvalue
  rw [UnpackedFloat.finite.injEq]
  exact ⟨rfl, by omega, rfl⟩

/-- One more than 2⁵³ lies between two floats and is rounded back. -/
theorem tally_stays (k : Nat) : tally (2 ^ 53 + k) = tally (2 ^ 53) := by
  obtain ⟨u, hu, hwhole⟩ := exists_isWhole_tally (n := 2 ^ 53 - 1) (by decide)
  have hlast : tally (2 ^ 53) = 9007199254740992 := by
    have hmodel : (tally (2 ^ 53)).toModel = (9007199254740992 : Float).toModel := by
      rw [show 2 ^ 53 = 2 ^ 53 - 1 + 1 from rfl, hu, isWhole_last hwhole]
      rfl
    exact congrArg Float.ofModel hmodel
  induction k with
  | zero => rfl
  | succ k ih =>
    have hstep : (9007199254740992 : Float) + 1 = 9007199254740992 := by decide +kernel
    rw [← Nat.add_assoc, tally, ih, hlast, hstep]

/-- Counting by ones is exact up to 2⁵³ and stays there. -/
theorem isCount_tally (n : Nat) : IsCount (min n (2 ^ 53)) (tally n) := by
  have hexact (n : Nat) (hn : n ≤ 2 ^ 53) : IsCount n (tally n) := by
    cases n with
    | zero => exact isCount_zero
    | succ n =>
      obtain ⟨u, hu, hwhole⟩ := exists_isWhole_tally hn
      exact isCount_of_isWhole hu hwhole
  rcases Nat.le_total n (2 ^ 53) with hn | hn
  · rw [Nat.min_eq_left hn]
    exact hexact n hn
  · obtain ⟨k, rfl⟩ := Nat.exists_eq_add_of_le hn
    rw [Nat.min_eq_right hn, tally_stays]
    exact hexact _ (Nat.le_refl _)

end Galley.Decimal
