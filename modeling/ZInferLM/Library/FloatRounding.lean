import Mathlib

/-! # Integers as floats

A float keeps the leading bits of an integer. Two integers become the same float exactly when they
are rounded to the same multiple of a power of two. -/

namespace ZInferLM.Library
open Float.Model (Format UnpackedFloat totalExponent)
open Float.Model.UnpackedFloat

/-- `n / 2 ^ k`, rounded to nearest and ties to even. -/
def shiftRound (n k : ℕ) : ℕ :=
  let r := 2 * (n % 2 ^ k)
  if r < 2 ^ k ∨ r = 2 ^ k ∧ n / 2 ^ k % 2 = 0 then n / 2 ^ k else n / 2 ^ k + 1

/-- The nearest number with at most `p` significant bits. -/
def roundBits (p n : ℕ) : ℕ := shiftRound n (n.log2 + 1 - p) * 2 ^ (n.log2 + 1 - p)

@[simp] theorem shiftRound_zero (n : ℕ) : shiftRound n 0 = n := by
  simp [shiftRound, Nat.mod_one]

theorem shiftRound_eq_or (n k : ℕ) :
    shiftRound n k = n / 2 ^ k ∨ shiftRound n k = n / 2 ^ k + 1 := by
  rw [shiftRound]
  split_ifs
  · exact .inl rfl
  · exact .inr rfl

@[simp] theorem roundBits_zero (p : ℕ) : roundBits p 0 = 0 := by simp [roundBits, shiftRound]

theorem roundBits_of_lt {p n : ℕ} (h : n < 2 ^ p) : roundBits p n = n := by
  rcases Nat.eq_zero_or_pos n with rfl | hn
  · exact roundBits_zero p
  · have hlog := (Nat.log2_lt hn.ne').mpr h
    rw [roundBits, show n.log2 + 1 - p = 0 by omega, shiftRound_zero, Nat.pow_zero, Nat.mul_one]

/-- A number of more than `m` bits is rounded to `m + 1` bits, or up to the next power of two. -/
theorem shiftRound_bounds {m n : ℕ} (h : 2 ^ m ≤ n) :
    2 ^ m ≤ shiftRound n (n.log2 - m) ∧ shiftRound n (n.log2 - m) ≤ 2 ^ (m + 1) := by
  have hn : n ≠ 0 := (Nat.two_pow_pos m).trans_le h |>.ne'
  have hlog := (Nat.le_log2 hn).mpr h
  have hlow : 2 ^ m ≤ n / 2 ^ (n.log2 - m) := by
    rw [Nat.le_div_iff_mul_le (Nat.two_pow_pos _), ← Nat.pow_add, Nat.add_sub_cancel' hlog]
    exact Nat.log2_self_le hn
  have hhigh : n / 2 ^ (n.log2 - m) < 2 ^ (m + 1) := by
    rw [Nat.div_lt_iff_lt_mul (Nat.two_pow_pos _), ← Nat.pow_add,
      show m + 1 + (n.log2 - m) = n.log2 + 1 by omega]
    exact Nat.lt_log2_self
  rcases shiftRound_eq_or n (n.log2 - m) with h | h <;> omega

theorem two_pow_succ_le_roundBits {m n : ℕ} (h : 2 ^ (m + 1) ≤ n) :
    2 ^ (m + 1) ≤ roundBits (m + 1) n := by
  have hlog := (Nat.le_log2 ((Nat.two_pow_pos _).trans_le h).ne').mpr h
  have hlow := (shiftRound_bounds ((Nat.pow_le_pow_right Nat.two_pos (Nat.le_succ m)).trans h)).1
  rw [roundBits, Nat.add_sub_add_right]
  calc 2 ^ (m + 1) = 2 ^ m * 2 ^ 1 := Nat.pow_add 2 m 1
    _ ≤ shiftRound n (n.log2 - m) * 2 ^ (n.log2 - m) :=
      Nat.mul_le_mul hlow (Nat.pow_le_pow_right Nat.two_pos (by omega))

theorem roundBits_le (m n : ℕ) : roundBits (m + 1) n ≤ 2 ^ (n.log2 + 1) := by
  rcases Nat.lt_or_ge n (2 ^ (m + 1)) with hlt | hge
  · rw [roundBits_of_lt hlt]
    exact Nat.lt_log2_self.le
  · have hlog := (Nat.le_log2 ((Nat.two_pow_pos _).trans_le hge).ne').mpr hge
    have hlong := (Nat.pow_le_pow_right Nat.two_pos (Nat.le_succ m)).trans hge
    have hhigh := (shiftRound_bounds hlong).2
    rw [roundBits, Nat.add_sub_add_right]
    calc shiftRound n (n.log2 - m) * 2 ^ (n.log2 - m)
      _ ≤ 2 ^ (m + 1) * 2 ^ (n.log2 - m) := Nat.mul_le_mul_right _ hhigh
      _ = 2 ^ (n.log2 + 1) := by rw [← Nat.pow_add]; congr 1; omega

/-- The nearest integer with at most `p` significant bits. -/
def roundInt (p : ℕ) (n : ℤ) : ℤ := n.sign * roundBits p n.natAbs

@[simp] theorem roundInt_zero (p : ℕ) : roundInt p 0 = 0 := by simp [roundInt]

theorem roundInt_of_lt {p : ℕ} {n : ℤ} (h : n.natAbs < 2 ^ p) : roundInt p n = n := by
  rw [roundInt, roundBits_of_lt h, Int.sign_mul_natAbs]

theorem natAbs_roundInt {p : ℕ} {n : ℤ} (hn : n ≠ 0) :
    (roundInt p n).natAbs = roundBits p n.natAbs := by
  rw [roundInt, Int.natAbs_mul, Int.natAbs_sign_of_ne_zero hn, Nat.one_mul, Int.natAbs_natCast]

theorem two_pow_le_natAbs_roundInt {m : ℕ} {n : ℤ} (h : 2 ^ (m + 1) ≤ n.natAbs) :
    2 ^ (m + 1) ≤ (roundInt (m + 1) n).natAbs := by
  have hn := Int.natAbs_pos.mp ((Nat.two_pow_pos _).trans_le h)
  rw [natAbs_roundInt hn]
  exact two_pow_succ_le_roundBits h

theorem roundInt_ne_zero {m : ℕ} {n : ℤ} (hn : n ≠ 0) : roundInt (m + 1) n ≠ 0 := by
  rcases Nat.lt_or_ge n.natAbs (2 ^ (m + 1)) with hlt | hge
  · rwa [roundInt_of_lt hlt]
  · have hle := two_pow_le_natAbs_roundInt hge
    exact Int.natAbs_pos.mp ((Nat.two_pow_pos _).trans_le hle)

/-- Different integers are rounded to the same only if both are too long for the bits. -/
theorem roundInt_eq_iff {m : ℕ} {a b : ℤ} : roundInt (m + 1) a = roundInt (m + 1) b ↔
    a = b ∨ 2 ^ (m + 1) ≤ a.natAbs ∧ 2 ^ (m + 1) ≤ b.natAbs ∧
      roundInt (m + 1) a = roundInt (m + 1) b := by
  constructor
  · intro h
    rcases Nat.lt_or_ge a.natAbs (2 ^ (m + 1)) with ha | ha <;>
      rcases Nat.lt_or_ge b.natAbs (2 ^ (m + 1)) with hb | hb
    · rw [roundInt_of_lt ha, roundInt_of_lt hb] at h
      exact .inl h
    · have hle := two_pow_le_natAbs_roundInt hb
      rw [← h, roundInt_of_lt ha] at hle
      omega
    · have hle := two_pow_le_natAbs_roundInt ha
      rw [h, roundInt_of_lt hb] at hle
      omega
    · exact .inr ⟨ha, hb, h⟩
  · rintro (rfl | ⟨-, -, h⟩)
    · rfl
    · exact h

/-- Shifting collects in the two residual bits what the rounding asks for. -/
theorem shiftRight_exact (n k : ℕ) :
    k.repeat ExtendedMantissa.shiftRightOne ⟨n, false, false⟩ =
      ⟨n / 2 ^ k, decide (2 ^ k ≤ 2 * (n % 2 ^ k)),
        decide (n % 2 ^ k ≠ 0 ∧ 2 * (n % 2 ^ k) ≠ 2 ^ k)⟩ := by
  induction k with
  | zero => simp [Nat.repeat, Nat.mod_one]
  | succ k ih =>
    have hdiv : n / 2 ^ k / 2 = n / 2 ^ (k + 1) := by rw [Nat.div_div_eq_div_mul, Nat.pow_succ]
    have hmod : n % 2 ^ (k + 1) = n % 2 ^ k + 2 ^ k * (n / 2 ^ k % 2) := by
      rw [Nat.pow_succ, Nat.mod_mul]
    have hlt := Nat.mod_lt n (Nat.two_pow_pos k)
    have hpow : 2 ^ (k + 1) = 2 * 2 ^ k := by rw [Nat.pow_succ, Nat.mul_comm]
    rw [Nat.repeat, ih, ExtendedMantissa.shiftRightOne, hdiv, hmod, hpow]
    dsimp only
    rw [ExtendedMantissa.mk.injEq]
    refine ⟨rfl, ?_, ?_⟩
    · rcases Nat.mod_two_eq_zero_or_one (n / 2 ^ k) with hbit | hbit
      · rw [hbit, Nat.mul_zero, Nat.add_zero]
        exact (decide_eq_false (by omega)).symm
      · rw [hbit, Nat.mul_one]
        exact (decide_eq_true (by omega)).symm
    · rw [← Bool.decide_or, decide_eq_decide]
      rcases Nat.mod_two_eq_zero_or_one (n / 2 ^ k) with hbit | hbit <;> rw [hbit]
      · omega
      · omega

theorem roundedMantissa_shiftRight (n k : ℕ) :
    (k.repeat ExtendedMantissa.shiftRightOne ⟨n, false, false⟩).roundedMantissa =
      shiftRound n k := by
  rw [shiftRight_exact, shiftRound, ExtendedMantissa.roundedMantissa]
  by_cases hround : 2 ^ k ≤ 2 * (n % 2 ^ k)
  · by_cases htie : 2 * (n % 2 ^ k) = 2 ^ k
    · have hexact : ¬ (n % 2 ^ k ≠ 0 ∧ 2 * (n % 2 ^ k) ≠ 2 ^ k) := fun h => h.2 htie
      rw [decide_eq_true hround, decide_eq_false hexact]
      simp only [ExtendedMantissa.accuracy, Accuracy.roundToNearestEven]
      split_ifs <;> omega
    · have hsticky : n % 2 ^ k ≠ 0 ∧ 2 * (n % 2 ^ k) ≠ 2 ^ k := by
        refine ⟨?_, htie⟩
        have hpos := Nat.two_pow_pos k
        omega
      rw [decide_eq_true hround, decide_eq_true hsticky]
      simp only [ExtendedMantissa.accuracy, Accuracy.roundToNearestEven]
      rw [if_neg (by omega)]
  · rw [decide_eq_false hround]
    rw [if_pos (.inl (by omega))]
    by_cases hzero : n % 2 ^ k ≠ 0 ∧ 2 * (n % 2 ^ k) ≠ 2 ^ k
    · rw [decide_eq_true hzero]
      rfl
    · rw [decide_eq_false hzero]
      rfl

section
variable {spec : Format}

/-- A number from `1` on has an exponent of its own: it is not subnormal. -/
theorem targetExponent_eq (he : 2 ≤ spec.exponentBits) {n : ℕ} {e : ℤ} (h : 0 ≤ n.log2 + e) :
    spec.targetExponent (totalExponent n e) =
      n.log2 + e - spec.mantissaBitsWithoutImplicit := by
  have hbits : (2 : ℤ) ≤ 2 ^ (spec.exponentBits - 1) := by
    have hpow := Nat.pow_le_pow_right Nat.two_pos (show 1 ≤ spec.exponentBits - 1 by omega)
    exact_mod_cast hpow
  rw [Format.targetExponent, totalExponent, Format.minExponent, Format.mantissaBits]
  push_cast
  omega

theorem shiftToTargetExponent_eq (he : 2 ≤ spec.exponentBits) {n : ℕ} {e : ℤ}
    (h : 0 ≤ n.log2 + e) : shiftToTargetExponent spec n e .exact =
      ((n.log2 - spec.mantissaBitsWithoutImplicit).repeat ExtendedMantissa.shiftRightOne
        ⟨n, false, false⟩, e + (n.log2 - spec.mantissaBitsWithoutImplicit : ℕ)) := by
  have hshift : ((n.log2 : ℤ) + e - spec.mantissaBitsWithoutImplicit - e).toNat =
      n.log2 - spec.mantissaBitsWithoutImplicit := by omega
  rw [shiftToTargetExponent, targetExponent_eq he h, shiftToExponent, hshift]
  rfl

/-- A mantissa that is long enough is rounded to the bits of the format, and shifted once more where
that gives the next power of two. -/
theorem roundWithAccuracy_exact (he : 2 ≤ spec.exponentBits) (sign : Sign) {n : ℕ} {e : ℤ}
    (hn : 2 ^ spec.mantissaBitsWithoutImplicit ≤ n) (h : 0 ≤ n.log2 + e) :
    ∃ (m E : ℕ) (hm : 0 < m), roundWithAccuracy spec sign n e .exact =
        .finite sign m (E - spec.mantissaBitsWithoutImplicit) hm ∧
      m.log2 = spec.mantissaBitsWithoutImplicit ∧
      m * 2 ^ E = shiftRound n (n.log2 - spec.mantissaBitsWithoutImplicit) *
        2 ^ (n.log2 + e).toNat := by
  obtain ⟨hlow, hhigh⟩ := shiftRound_bounds hn
  have hlog := (Nat.le_log2 ((Nat.two_pow_pos _).trans_le hn).ne').mpr hn
  rw [roundWithAccuracy, shiftToTargetExponent_eq he h]
  dsimp only
  rw [roundedMantissa_shiftRight]
  generalize shiftRound n (n.log2 - spec.mantissaBitsWithoutImplicit) = q at hlow hhigh
  have hq : 0 < q := (Nat.two_pow_pos _).trans_le hlow
  have hlogq := (Nat.le_log2 hq.ne').mpr hlow
  rw [shiftToTargetExponent_eq he (by omega)]
  dsimp only
  rw [shiftRight_exact]
  dsimp only
  rcases Nat.lt_or_eq_of_le hhigh with hlt | rfl
  · have hlogq' : q.log2 = spec.mantissaBitsWithoutImplicit :=
      Nat.le_antisymm (Nat.lt_succ_iff.mp ((Nat.log2_lt hq.ne').mpr hlt)) hlogq
    rw [hlogq', Nat.sub_self, Nat.pow_zero, Nat.div_one, dif_neg hq.ne']
    refine ⟨q, (n.log2 + e).toNat, hq, ?_, hlogq', rfl⟩
    congr 1
    omega
  · have hlogq' : (2 ^ (spec.mantissaBitsWithoutImplicit + 1)).log2 =
      spec.mantissaBitsWithoutImplicit + 1 := Nat.log2_two_pow
    have hhalf : 2 ^ (spec.mantissaBitsWithoutImplicit + 1) / 2 ^ 1 =
        2 ^ spec.mantissaBitsWithoutImplicit := Nat.pow_div (Nat.le_add_left _ _) Nat.two_pos
    have hpos := Nat.two_pow_pos spec.mantissaBitsWithoutImplicit
    rw [hlogq', Nat.add_sub_cancel_left, hhalf, dif_neg hpos.ne']
    refine ⟨_, (n.log2 + e).toNat + 1, hpos, ?_, Nat.log2_two_pow, ?_⟩
    · congr 1
      omega
    · ring

theorem log2_mul_two_pow {n : ℕ} (hn : n ≠ 0) (k : ℕ) : (n * 2 ^ k).log2 = n.log2 + k := by
  obtain ⟨hlow, hhigh⟩ := (Nat.log2_eq_iff hn).mp rfl
  rw [Nat.log2_eq_iff (Nat.mul_ne_zero hn (Nat.two_pow_pos k).ne'), Nat.pow_add,
    Nat.add_right_comm, Nat.pow_add]
  exact ⟨Nat.mul_le_mul_right _ hlow, Nat.mul_lt_mul_of_pos_right hhigh (Nat.two_pow_pos k)⟩

theorem round_natCast (he : 2 ≤ spec.exponentBits) (sign : Sign) {n : ℕ} (hn : 0 < n) :
    ∃ (m E : ℕ) (hm : 0 < m), UnpackedFloat.round spec sign n 0 =
        .finite sign m (E - spec.mantissaBitsWithoutImplicit) hm ∧
      m.log2 = spec.mantissaBitsWithoutImplicit ∧
      m * 2 ^ E = roundBits spec.mantissaBits n * 2 ^ spec.mantissaBitsWithoutImplicit := by
  have hshift : (0 - ((n.log2 : ℤ) + 0 - spec.mantissaBitsWithoutImplicit)).toNat =
      spec.mantissaBitsWithoutImplicit - n.log2 := by omega
  have hlog := log2_mul_two_pow hn.ne' (spec.mantissaBitsWithoutImplicit - n.log2)
  have hlong : 2 ^ spec.mantissaBitsWithoutImplicit ≤
      n * 2 ^ (spec.mantissaBitsWithoutImplicit - n.log2) := by
    rw [← Nat.le_log2 (Nat.mul_pos hn (Nat.two_pow_pos _)).ne', hlog]
    omega
  rw [UnpackedFloat.round, targetExponent_eq he (by omega), decreaseExponent, hshift,
    Nat.shiftLeft_eq]
  dsimp only
  obtain ⟨m, E, hm, hround, hm', hvalue⟩ := roundWithAccuracy_exact he sign hlong
    (e := 0 - (spec.mantissaBitsWithoutImplicit - n.log2 : ℕ)) (by omega)
  refine ⟨m, E, hm, hround, hm', hvalue.trans ?_⟩
  have hexp : ((n.log2 + (spec.mantissaBitsWithoutImplicit - n.log2) : ℕ) +
      (0 - (spec.mantissaBitsWithoutImplicit - n.log2 : ℕ)) : ℤ).toNat = n.log2 := by omega
  rw [hlog, hexp, roundBits, Format.mantissaBits,
    show n.log2 + 1 - (1 + spec.mantissaBitsWithoutImplicit) =
      n.log2 - spec.mantissaBitsWithoutImplicit by omega,
    show n.log2 + (spec.mantissaBitsWithoutImplicit - n.log2) -
      spec.mantissaBitsWithoutImplicit = n.log2 - spec.mantissaBitsWithoutImplicit by omega]
  rcases Nat.le_total n.log2 spec.mantissaBitsWithoutImplicit with hshort | hlong
  · rw [Nat.sub_eq_zero_of_le hshort, shiftRound_zero, shiftRound_zero, Nat.pow_zero, Nat.mul_one,
      Nat.mul_assoc, ← Nat.pow_add, Nat.sub_add_cancel hshort]
  · rw [Nat.sub_eq_zero_of_le hlong, Nat.pow_zero, Nat.mul_one, Nat.mul_assoc, ← Nat.pow_add,
      Nat.sub_add_cancel hlong]

theorem packComponents_inj {sign sign' : Sign} {e e' : BitVec spec.exponentBits}
    {m m' : BitVec spec.mantissaBitsWithoutImplicit} :
    packComponents spec sign e m = packComponents spec sign' e' m' ↔
      sign = sign' ∧ e = e' ∧ m = m' := by
  constructor
  · intro h
    have hsign := congrArg unpackSign h
    have he := congrArg unpackExponent h
    have hm := congrArg unpackMantissa h
    rw [unpackSign_packComponents, unpackSign_packComponents] at hsign
    rw [unpackExponent_packComponents, unpackExponent_packComponents] at he
    rw [unpackMantissa_packComponents, unpackMantissa_packComponents] at hm
    refine ⟨?_, he, hm⟩
    rw [← Sign.ofBitVec_toBitVec sign, hsign, Sign.ofBitVec_toBitVec]
  · rintro ⟨rfl, rfl, rfl⟩
    rfl

theorem pack_finite (sign : Sign) {m E : ℕ} (hm : 0 < m)
    (hlog : m.log2 = spec.mantissaBitsWithoutImplicit)
    (hE : E + spec.exponentBias + 1 < 2 ^ spec.exponentBits) :
    pack spec (.finite sign m (E - spec.mantissaBitsWithoutImplicit) hm) =
      packComponents spec sign (.ofNat _ (E + spec.exponentBias)) (.ofNat _ m) := by
  have hbiased : ((E : ℤ) - spec.mantissaBitsWithoutImplicit + spec.exponentBias +
      spec.mantissaBitsWithoutImplicit).toNat = E + spec.exponentBias := by omega
  rw [pack, hbiased, if_neg (by omega), if_pos (by rw [hlog, Format.mantissaBits, Nat.add_comm])]

/-- Mantissas of full length that agree behind their leading bit are equal. -/
theorem eq_of_ofNat_eq {k m m' : ℕ} (hm : 0 < m) (hm' : 0 < m') (hlog : m.log2 = k)
    (hlog' : m'.log2 = k) (h : BitVec.ofNat k m = BitVec.ofNat k m') : m = m' := by
  obtain ⟨hlow, hhigh⟩ := (Nat.log2_eq_iff hm.ne').mp hlog
  obtain ⟨hlow', hhigh'⟩ := (Nat.log2_eq_iff hm'.ne').mp hlog'
  have hmod := congrArg BitVec.toNat h
  rw [BitVec.toNat_ofNat, BitVec.toNat_ofNat] at hmod
  rw [Nat.pow_succ] at hhigh hhigh'
  rw [Nat.mod_eq_sub_mod hlow, Nat.mod_eq_sub_mod hlow', Nat.mod_eq_of_lt (by omega),
    Nat.mod_eq_of_lt (by omega)] at hmod
  omega

def signOf (n : ℤ) : Sign := if n < 0 then .negative else .positive

theorem signOf_roundInt (m : ℕ) (n : ℤ) : signOf (roundInt (m + 1) n) = signOf n := by
  have hneg : roundInt (m + 1) n < 0 ↔ n < 0 := by
    rcases lt_trichotomy n 0 with hn | rfl | hn
    · have hne := roundInt_ne_zero (m := m) hn.ne
      rw [roundInt, Int.sign_eq_neg_one_of_neg hn] at hne ⊢
      omega
    · rw [roundInt_zero]
    · rw [roundInt, Int.sign_eq_one_of_pos hn]
      omega
  rw [signOf, signOf]
  simp only [hneg]

theorem eq_of_signOf_eq {a b : ℤ} (h : signOf a = signOf b) (habs : a.natAbs = b.natAbs) :
    a = b := by
  rw [signOf, signOf] at h
  split_ifs at h <;> omega

theorem ofInt_of_ne_zero {n : ℤ} (hn : n ≠ 0) :
    ofInt spec n = UnpackedFloat.round spec (signOf n) n.natAbs 0 := by
  rw [ofInt, UnpackedFloat.normalize, signOf]
  rcases lt_or_gt_of_ne hn with hneg | hpos
  · rw [compare_lt_iff_lt.mpr hneg, if_pos hneg]
    dsimp only
    rw [show (-n).toNat = n.natAbs by omega]
  · rw [compare_gt_iff_gt.mpr hpos, if_neg (by omega)]
    dsimp only
    rw [show n.toNat = n.natAbs by omega]

/-- An integer is packed with a mantissa and an exponent that give its rounded value. -/
theorem pack_ofInt (he : 2 ≤ spec.exponentBits) {n : ℤ} (hn : n ≠ 0)
    (hfits : n.natAbs < 2 ^ spec.exponentBias) :
    ∃ m E : ℕ, 0 < m ∧ m.log2 = spec.mantissaBitsWithoutImplicit ∧
      E + spec.exponentBias + 1 < 2 ^ spec.exponentBits ∧
      m * 2 ^ E = roundBits spec.mantissaBits n.natAbs * 2 ^ spec.mantissaBitsWithoutImplicit ∧
      pack spec (ofInt spec n) = packComponents spec (signOf n)
        (.ofNat _ (E + spec.exponentBias)) (.ofNat _ m) := by
  obtain ⟨m, E, hm, hround, hlog, hvalue⟩ := round_natCast he (signOf n) (Int.natAbs_pos.mpr hn)
  have hE : E + spec.exponentBias + 1 < 2 ^ spec.exponentBits := by
    have hlow := (Nat.log2_eq_iff hm.ne').mp hlog |>.1
    have hround := roundBits_le spec.mantissaBitsWithoutImplicit n.natAbs
    rw [Format.mantissaBits, Nat.add_comm 1] at hvalue
    have hpow : 2 ^ (spec.mantissaBitsWithoutImplicit + E) ≤
        2 ^ (n.natAbs.log2 + 1 + spec.mantissaBitsWithoutImplicit) := by
      rw [Nat.pow_add, Nat.pow_add _ (n.natAbs.log2 + 1)]
      calc 2 ^ spec.mantissaBitsWithoutImplicit * 2 ^ E
        _ ≤ m * 2 ^ E := Nat.mul_le_mul_right _ hlow
        _ = _ := hvalue
        _ ≤ _ := Nat.mul_le_mul_right _ hround
    have hexp := (Nat.pow_le_pow_iff_right Nat.one_lt_two).mp hpow
    have hbias := (Nat.log2_lt (Int.natAbs_pos.mpr hn).ne').mpr hfits
    have hbits : 2 ^ spec.exponentBits = 2 * 2 ^ (spec.exponentBits - 1) := by
      rw [← Nat.pow_succ']
      congr 1
      omega
    have hpos := Nat.two_pow_pos (spec.exponentBits - 1)
    rw [Format.exponentBias] at hbias ⊢
    omega
  refine ⟨m, E, hm, hlog, hE, hvalue, ?_⟩
  rw [ofInt_of_ne_zero hn, hround, pack_finite (signOf n) hm hlog hE]

theorem pack_ofInt_zero : pack spec (ofInt spec 0) = packComponents spec .positive 0#_ 0#_ := rfl

theorem pack_ofInt_ne_zero (he : 2 ≤ spec.exponentBits) {n : ℤ} (hn : n ≠ 0)
    (hfits : n.natAbs < 2 ^ spec.exponentBias) :
    pack spec (ofInt spec n) ≠ pack spec (ofInt spec 0) := by
  obtain ⟨m, E, _, _, hE, _, hpack⟩ := pack_ofInt he hn hfits
  rw [hpack, pack_ofInt_zero, Ne, packComponents_inj]
  rintro ⟨-, hexp, -⟩
  have hmod := congrArg BitVec.toNat hexp
  have hbias := Nat.pow_le_pow_right Nat.two_pos (show 1 ≤ spec.exponentBits - 1 by omega)
  rw [BitVec.toNat_ofNat, Nat.mod_eq_of_lt (by omega), BitVec.toNat_zero,
    Format.exponentBias] at hmod
  omega

/-- Integers that are not too large become the same float if and only if they are rounded to the
same integer. -/
theorem pack_ofInt_eq_iff (he : 2 ≤ spec.exponentBits) {a b : ℤ}
    (ha : a.natAbs < 2 ^ spec.exponentBias) (hb : b.natAbs < 2 ^ spec.exponentBias) :
    pack spec (ofInt spec a) = pack spec (ofInt spec b) ↔
      roundInt spec.mantissaBits a = roundInt spec.mantissaBits b := by
  rw [show spec.mantissaBits = spec.mantissaBitsWithoutImplicit + 1 from Nat.add_comm _ _]
  rcases eq_or_ne a 0 with rfl | ha0 <;> rcases eq_or_ne b 0 with rfl | hb0
  · exact iff_of_true rfl rfl
  · rw [roundInt_zero]
    exact iff_of_false (pack_ofInt_ne_zero he hb0 hb).symm (roundInt_ne_zero hb0).symm
  · rw [roundInt_zero]
    exact iff_of_false (pack_ofInt_ne_zero he ha0 ha) (roundInt_ne_zero ha0)
  · obtain ⟨m, E, hm, hlog, hE, hvalue, hpack⟩ := pack_ofInt he ha0 ha
    obtain ⟨m', E', hm', hlog', hE', hvalue', hpack'⟩ := pack_ofInt he hb0 hb
    rw [Format.mantissaBits, Nat.add_comm 1] at hvalue hvalue'
    rw [hpack, hpack', packComponents_inj]
    constructor
    · rintro ⟨hsign, hexp, hmantissa⟩
      have hexp := congrArg BitVec.toNat hexp
      rw [BitVec.toNat_ofNat, BitVec.toNat_ofNat, Nat.mod_eq_of_lt (by omega),
        Nat.mod_eq_of_lt (by omega)] at hexp
      rw [eq_of_ofNat_eq hm hm' hlog hlog' hmantissa, Nat.add_right_cancel hexp, hvalue'] at hvalue
      apply eq_of_signOf_eq
      · rw [signOf_roundInt, signOf_roundInt, hsign]
      · rw [natAbs_roundInt ha0, natAbs_roundInt hb0]
        exact (Nat.eq_of_mul_eq_mul_right (Nat.two_pow_pos _) hvalue).symm
    · intro h
      have hsign := congrArg signOf h
      rw [signOf_roundInt, signOf_roundInt] at hsign
      have habs := congrArg Int.natAbs h
      rw [natAbs_roundInt ha0, natAbs_roundInt hb0] at habs
      rw [habs, ← hvalue'] at hvalue
      have hexp := congrArg Nat.log2 hvalue
      rw [log2_mul_two_pow hm.ne', log2_mul_two_pow hm'.ne', hlog, hlog',
        Nat.add_left_cancel_iff] at hexp
      subst hexp
      rw [Nat.eq_of_mul_eq_mul_right (Nat.two_pow_pos E) hvalue]
      exact ⟨hsign, rfl, rfl⟩

end

end ZInferLM.Library
