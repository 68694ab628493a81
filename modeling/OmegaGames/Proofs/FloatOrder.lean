import Mathlib

/-!
# Subtracting from one

On floats `1 - t` is at most one for every positive `t`. The exact difference is less than one; rounding
it to the nearest float may carry it up to one, but no further.
-/
namespace OmegaGames

open Float.Model Float.Model.UnpackedFloat

namespace FloatOrder

private def unit : UnpackedFloat := .finite .positive (2 ^ 52) (-52) (Nat.two_pow_pos 52)

/-- A float of this mantissa and exponent is one, or its exponent is lower than that of one. -/
private def AtMostOne (m : Nat) (e : Int) : Prop := e ≤ -53 ∨ e = -52 ∧ m = 2 ^ 52

/-! ## Rounding -/

private theorem mantissa_shiftRight (em : ExtendedMantissa) (k : Nat) :
    (em >>> k).mantissa = em.mantissa / 2 ^ k := by
  induction k with
  | zero => simp [HShiftRight.hShiftRight, Nat.repeat]
  | succ k ih =>
    change (em >>> k).mantissa / 2 = _
    rw [ih, Nat.div_div_eq_div_mul, Nat.pow_succ]

private theorem roundedMantissa_le (em : ExtendedMantissa) : em.roundedMantissa ≤ em.mantissa + 1 := by
  obtain ⟨m, round, sticky⟩ := em
  cases round <;> cases sticky <;>
    simp only [ExtendedMantissa.roundedMantissa, ExtendedMantissa.accuracy,
      Accuracy.roundToNearestEven] <;> omega

private theorem targetExponent_eq (t : Int) : Format.binary64.targetExponent t = max (t - 53) (-1074) := by
  rw [Format.targetExponent]
  rfl

/-- A number less than one is to have a lower exponent than one. -/
private theorem targetExponent_le {m : Nat} {e : Int} (he : e < 0) (hm : m < 2 ^ (-e).toNat) :
    Format.binary64.targetExponent (totalExponent m e) ≤ -53 := by
  have hlog : m.log2 < (-e).toNat := by
    by_cases hz : m = 0
    · rw [hz, Nat.log2_zero]
      omega
    · exact (Nat.log2_lt hz).mpr hm
  rw [targetExponent_eq, totalExponent]
  omega

/-- Shifting to the right keeps a number less than one. -/
private theorem div_lt {m k : Nat} {e : Int} (hk : e + k ≤ 0) (hm : m < 2 ^ (-e).toNat) :
    m / 2 ^ k < 2 ^ (-(e + k)).toNat := by
  rw [Nat.div_lt_iff_lt_mul (Nat.two_pow_pos k), ← Nat.pow_add]
  have hexp : (-(e + k)).toNat + k = (-e).toNat := by omega
  rwa [hexp]

/-- The second shift, after rounding, leaves a number that is at most one. -/
private theorem atMostOne_shift {r : Nat} {e : Int} (he : e ≤ -53) (hr : r ≤ 2 ^ (-e).toNat) :
    AtMostOne (shiftToTargetExponent .binary64 r e .exact).1.mantissa
      (shiftToTargetExponent .binary64 r e .exact).2 := by
  rw [shiftToTargetExponent, shiftToExponent]
  dsimp only
  rw [mantissa_shiftRight]
  rcases hr.lt_or_eq with hlt | heq
  · have htarget := targetExponent_le (by omega) hlt
    exact Or.inl (by omega)
  · -- the carry: the number has become one
    have htarget : Format.binary64.targetExponent (totalExponent r e) = -52 := by
      rw [targetExponent_eq, totalExponent, heq, Nat.log2_two_pow]
      omega
    rw [htarget]
    refine Or.inr ⟨by omega, ?_⟩
    change r / 2 ^ (-52 - e).toNat = 2 ^ 52
    rw [heq, Nat.pow_div (by omega) (by omega)]
    congr 1
    omega

private theorem roundWithAccuracy_cases (s : Sign) {m : Nat} {e : Int} (he : e ≤ -53)
    (hm : m < 2 ^ (-e).toNat) :
    roundWithAccuracy .binary64 s m e .exact = .zero s ∨
      ∃ m' e' h, roundWithAccuracy .binary64 s m e .exact = .finite s m' e' h ∧ AtMostOne m' e' := by
  have htarget := targetExponent_le (by omega) hm
  obtain ⟨k, hk⟩ : ∃ k, k = (Format.binary64.targetExponent (totalExponent m e) - e).toNat := ⟨_, rfl⟩
  have hfirst : (shiftToTargetExponent .binary64 m e .exact).1.roundedMantissa ≤ 2 ^ (-(e + k)).toNat := by
    have hlt := div_lt (k := k) (by omega) hm
    refine (roundedMantissa_le _).trans ?_
    rw [shiftToTargetExponent, shiftToExponent]
    dsimp only
    rw [mantissa_shiftRight, ← hk]
    exact hlt
  have hsecond := atMostOne_shift (by omega) hfirst
  have hexp : (shiftToTargetExponent .binary64 m e .exact).2 = e + k := by
    rw [hk]
    rfl
  rw [roundWithAccuracy]
  dsimp only
  rw [hexp]
  split
  · exact Or.inl rfl
  · rename_i hne
    exact Or.inr ⟨_, _, Nat.pos_of_ne_zero hne, rfl, hsecond⟩

private theorem round_cases (s : Sign) {m : Nat} {e : Int} (he : e ≤ -52) (hm : m < 2 ^ (-e).toNat) :
    UnpackedFloat.round .binary64 s m e = .zero s ∨
      ∃ m' e' h, UnpackedFloat.round .binary64 s m e = .finite s m' e' h ∧ AtMostOne m' e' := by
  have htarget := targetExponent_le (by omega) hm
  obtain ⟨k, hk⟩ : ∃ k, k = (e - Format.binary64.targetExponent (totalExponent m e)).toNat := ⟨_, rfl⟩
  have hround : UnpackedFloat.round .binary64 s m e = roundWithAccuracy .binary64 s (m <<< k) (e - k) .exact := by
    rw [hk]
    rfl
  rw [hround]
  refine roundWithAccuracy_cases s (by omega) ?_
  rw [Nat.shiftLeft_eq]
  have hexp : (-(e - k)).toNat = (-e).toNat + k := by omega
  rw [hexp, Nat.pow_add]
  exact Nat.mul_lt_mul_of_pos_right hm (Nat.two_pow_pos k)

private theorem round_sign (s : Sign) (m : Nat) (e : Int) :
    UnpackedFloat.round .binary64 s m e = .zero s ∨
      ∃ m' e' h, UnpackedFloat.round .binary64 s m e = .finite s m' e' h := by
  have hround : ∀ (m : Nat) (e : Int), roundWithAccuracy .binary64 s m e .exact = .zero s ∨
      ∃ m' e' h, roundWithAccuracy .binary64 s m e .exact = .finite s m' e' h := by
    intro m e
    rw [roundWithAccuracy]
    dsimp only
    split
    · exact Or.inl rfl
    · rename_i hne
      exact Or.inr ⟨_, _, Nat.pos_of_ne_zero hne, rfl⟩
  exact hround _ _

/-! ## Packing -/

private theorem le_unit_of_exponent {m : Nat} {e : Int} {hm : 0 < m} (he : e < -52) :
    (UnpackedFloat.finite .positive m e hm).le unit = true := by
  have hcmp : compare e (-52) = .lt := compare_lt_iff_lt.mpr he
  simp [UnpackedFloat.le, UnpackedFloat.compare, unit, hcmp]

/-- A float is at most one if it is negative or if its bits are at most those of one. -/
private theorem le_unit_of_components (s : Sign) (E : BitVec 11) (M : BitVec 52)
    (h : (s = .negative ∧ (E ≠ -1#11 ∨ M = 0#52)) ∨ E.toNat < 1023 ∨ E.toNat = 1023 ∧ M = 0#52) :
    (UnpackedFloat.unpack .binary64 (packComponents .binary64 s E M)).le unit = true := by
  rw [UnpackedFloat.unpack]
  simp only [unpackMantissa_packComponents, unpackExponent_packComponents, unpackSign_packComponents,
    Sign.ofBitVec_toBitVec]
  split
  · rename_i hE
    have hE : E = -1#11 := hE
    subst hE
    rcases h with ⟨rfl, hne | hM⟩ | hlt | ⟨heq, -⟩
    · exact absurd rfl hne
    · rw [if_pos hM]
      rfl
    · exact absurd hlt (by decide)
    · exact absurd heq (by decide)
  · split
    · split
      · cases s <;> rfl
      · rename_i hE _
        have hE : E = 0#11 := hE
        subst hE
        cases s with
        | negative => rfl
        | positive => rfl
    · cases s with
      | negative => rfl
      | positive =>
        rcases h with ⟨hs, -⟩ | hlt | ⟨heq, rfl⟩
        · cases hs
        · apply le_unit_of_exponent
          change (E.toNat : Int) - (1023 + 52) < -52
          omega
        · rw [heq]
          rfl

private theorem pack_le_unit {s : Sign} {m : Nat} {e : Int} {hm : 0 < m}
    (h : s = .negative ∨ AtMostOne m e) :
    (UnpackedFloat.unpack .binary64 (UnpackedFloat.pack .binary64 (.finite s m e hm))).le unit = true := by
  obtain ⟨b, hb⟩ : ∃ b, b = (e + 1023 + 52).toNat := ⟨_, rfl⟩
  have hpack : UnpackedFloat.pack .binary64 (.finite s m e hm) =
      if 2 ^ 11 ≤ b + 1 then packedInfinity .binary64 s
      else if m.log2 + 1 = 53 then
        packComponents .binary64 s (BitVec.ofNat 11 b) (BitVec.ofNat 52 m)
      else packComponents .binary64 s 0#11 (BitVec.ofNat 52 m) := by
    rw [hb]
    rfl
  rw [hpack]
  split
  · rename_i hbig
    rcases h with rfl | hlow | ⟨rfl, -⟩
    · exact le_unit_of_components _ _ _ (Or.inl ⟨rfl, Or.inr rfl⟩)
    · omega
    · omega
  · rename_i hfit
    have hE : (BitVec.ofNat 11 b).toNat = b := by
      rw [BitVec.toNat_ofNat, Nat.mod_eq_of_lt (by omega)]
    split
    · apply le_unit_of_components
      rcases h with rfl | hlow | ⟨rfl, rfl⟩
      · refine Or.inl ⟨rfl, Or.inl fun heq => ?_⟩
        rw [heq] at hE
        have hones : (-1#11).toNat = 2047 := rfl
        omega
      · exact Or.inr (Or.inl (by omega))
      · exact Or.inr (Or.inr ⟨by omega, rfl⟩)
    · exact le_unit_of_components _ _ _ (Or.inr (Or.inl (by decide)))

private theorem pack_zero_le_unit (s : Sign) :
    (UnpackedFloat.unpack .binary64 (UnpackedFloat.pack .binary64 (.zero s))).le unit = true :=
  le_unit_of_components s 0#11 0#52 (Or.inr (Or.inl (by decide)))

/-! ## Subtraction -/

/-- The exact difference is less than one, and what it is rounded to at most one. -/
private theorem normalize_le_unit {d e : Int} (he : e ≤ -52) (hd : d < 2 ^ (-e).toNat) :
    (UnpackedFloat.unpack .binary64
      (UnpackedFloat.pack .binary64 (UnpackedFloat.normalize .binary64 d e .positive))).le unit = true := by
  rw [UnpackedFloat.normalize]
  split
  · rcases round_sign .negative (-d).toNat e with h | ⟨m', e', hm, h⟩
    · rw [h]
      exact pack_zero_le_unit _
    · rw [h]
      exact pack_le_unit (Or.inl rfl)
  · exact pack_zero_le_unit _
  · have hlt : d.toNat < 2 ^ (-e).toNat := by
      rw [Int.toNat_lt_of_ne_zero (Nat.two_pow_pos _).ne']
      exact_mod_cast hd
    rcases round_cases .positive he hlt with h | ⟨m', e', hm, h, hone⟩
    · rw [h]
      exact pack_zero_le_unit _
    · rw [h]
      exact pack_le_unit (Or.inr hone)

private theorem sub_le_unit {u : UnpackedFloat} (hu : (UnpackedFloat.zero .positive).lt u = true) :
    (UnpackedFloat.unpack .binary64
      (UnpackedFloat.pack .binary64 (UnpackedFloat.sub .binary64 unit u))).le unit = true := by
  cases u with
  | notANumber => cases hu
  | zero s => cases hu
  | infinity s =>
    cases s with
    | negative => cases hu
    | positive => exact le_unit_of_components .negative (-1#11) 0#52 (Or.inl ⟨rfl, Or.inr rfl⟩)
  | finite s m e hm =>
    cases s with
    | negative => cases hu
    | positive =>
      apply normalize_le_unit (min_le_left _ _)
      change ((2 ^ 52 <<< (-52 - min (-52) e).toNat : Nat) : Int) - (m <<< (e - min (-52) e).toNat : Nat) < _
      have hone : 2 ^ 52 <<< (-52 - min (-52) e).toNat = 2 ^ (-min (-52) e).toNat := by
        rw [Nat.shiftLeft_eq, ← Nat.pow_add]
        congr 1
        omega
      have hpos : 0 < m <<< (e - min (-52) e).toNat := by
        rw [Nat.shiftLeft_eq]
        exact Nat.mul_pos hm (Nat.two_pow_pos _)
      rw [hone, Nat.cast_pow]
      exact sub_lt_self _ (Nat.cast_pos.mpr hpos)

end FloatOrder

/-- What is left of one is at most one. -/
theorem Float.one_sub_le_one {t : Float} (ht : 0 < t) : 1 - t ≤ 1 := by
  have hpos : (UnpackedFloat.zero .positive).lt t.toModel.unpack = true := of_decide_eq_true ht
  suffices h : (Float.Model.pack (UnpackedFloat.sub .binary64 FloatOrder.unit t.toModel.unpack)).unpack.le
      FloatOrder.unit = true from decide_eq_true h
  exact FloatOrder.sub_le_unit hpos

end OmegaGames
