import AlgebraicEffects.Number.Basic
import Mathlib.Data.Nat.Log
import Mathlib.Order.Monotone.Basic
import Mathlib.Tactic.Ring

/-!
Rounding to doubles.

A double is a significand of 53 bits at an exponent, and doubles are numbered by exponent and
significand (`code`); the numbering is that of their values (`Canonical.code_lt_iff`). What a positive
number is rounded to is a double again, and no double lies between the two (`exists_round`).
-/

set_option autoImplicit false

namespace AlgebraicEffects

open Float.Model (UnpackedFloat Format)
open Float.Model.UnpackedFloat (Sign ExtendedMantissa)

namespace Doubles

/-- The significand and the exponent of a double, above the least exponent. -/
structure Canonical (m e : Nat) : Prop where
  lt : m < 2 ^ 53
  normal : 2 ^ 52 ≤ m ∨ e = 0

/-- The place of a positive double among all of them. -/
def code (m e : Nat) : Nat := e * 2 ^ 52 + m

/-- The one with the greater exponent is greater. -/
theorem Canonical.lt_of_exponent_lt {m e n f : Nat} (h : m < 2 ^ 53) (g : Canonical n f)
    (hef : e < f) : code m e < code n f ∧ m * 2 ^ e < n * 2 ^ f := by
  have hn : 2 ^ 52 ≤ n := g.normal.resolve_right (Nat.ne_of_gt (Nat.zero_lt_of_lt hef))
  constructor
  · unfold code
    omega
  · calc m * 2 ^ e < 2 ^ 53 * 2 ^ e := Nat.mul_lt_mul_of_pos_right h (Nat.two_pow_pos e)
      _ = 2 ^ 52 * 2 ^ (e + 1) := by ring
      _ ≤ n * 2 ^ f := Nat.mul_le_mul hn (Nat.pow_le_pow_right Nat.two_pos hef)

/-- The greater place has the greater number. -/
theorem Canonical.code_lt_iff {m e n f : Nat} (h : Canonical m e) (g : Canonical n f) :
    code m e < code n f ↔ m * 2 ^ e < n * 2 ^ f := by
  rcases Nat.lt_trichotomy e f with hef | rfl | hfe
  · exact iff_of_true (g.lt_of_exponent_lt h.lt hef).1 (g.lt_of_exponent_lt h.lt hef).2
  · rw [Nat.mul_lt_mul_right (Nat.two_pow_pos e)]
    exact Nat.add_lt_add_iff_left
  · obtain ⟨hcode, hvalue⟩ := h.lt_of_exponent_lt g.lt hfe
    exact iff_of_false (Nat.lt_asymm hcode) (Nat.lt_asymm hvalue)

/-- The least place is that of zero. -/
theorem Canonical.code_eq_zero_iff {m e : Nat} (h : Canonical m e) :
    code m e = 0 ↔ m * 2 ^ e = 0 := by
  rw [Nat.mul_eq_zero]
  have hpow := Nat.two_pow_pos e
  have hnormal := h.normal
  unfold code
  omega

/-- What is rounded lies between the same doubles. -/
def Rounds (a r : Nat) : Prop :=
  ∀ m e, m < 2 ^ 53 → (m * 2 ^ e ≤ a → m * 2 ^ e ≤ r) ∧ (a ≤ m * 2 ^ e → r ≤ m * 2 ^ e)

theorem rounds_of_grid {a r : Nat} (ha : 0 < a) (hlow : a / 2 ^ (Nat.log2 a - 52) ≤ r)
    (hhigh : r ≤ a / 2 ^ (Nat.log2 a - 52) + 1)
    (hexact : a % 2 ^ (Nat.log2 a - 52) = 0 → r = a / 2 ^ (Nat.log2 a - 52)) :
    Rounds a (r * 2 ^ (Nat.log2 a - 52)) := by
  generalize ht : Nat.log2 a - 52 = t at *
  have hpos : 0 < 2 ^ t := Nat.two_pow_pos t
  intro m e hm
  rcases Nat.lt_or_ge e t with het | hte
  · -- A double with a finer grid is less than every number that is rounded to this one.
    have hlog : 2 ^ 52 * 2 ^ t ≤ a := by
      rw [← Nat.pow_add, show 52 + t = Nat.log2 a by omega]
      exact Nat.log2_self_le (Nat.ne_of_gt ha)
    have hless : m * 2 ^ e < 2 ^ 52 * 2 ^ t := by
      calc m * 2 ^ e < 2 ^ 53 * 2 ^ e := Nat.mul_lt_mul_of_pos_right hm (Nat.two_pow_pos e)
        _ = 2 ^ 52 * 2 ^ (e + 1) := by ring
        _ ≤ 2 ^ 52 * 2 ^ t := Nat.mul_le_mul_left _ (Nat.pow_le_pow_right Nat.two_pos het)
    constructor
    · intro _
      have hr : 2 ^ 52 ≤ r := ((Nat.le_div_iff_mul_le hpos).2 hlog).trans hlow
      exact (hless.trans_le (Nat.mul_le_mul_right _ hr)).le
    · intro hle
      exact absurd (hle.trans_lt hless) (Nat.not_lt.2 hlog)
  · -- Any other double is on the grid of the result.
    obtain ⟨k, rfl⟩ := Nat.exists_eq_add_of_le hte
    have hgrid : m * 2 ^ (t + k) = m * 2 ^ k * 2 ^ t := by ring
    rw [hgrid]
    constructor
    · intro hle
      exact Nat.mul_le_mul_right _ (((Nat.le_div_iff_mul_le hpos).2 hle).trans hlow)
    · intro hle
      refine Nat.mul_le_mul_right _ ?_
      by_cases hmod : a % 2 ^ t = 0
      · rw [hexact hmod]
        exact Nat.div_le_of_le_mul (by rw [Nat.mul_comm]; exact hle)
      · refine hhigh.trans ?_
        refine Nat.succ_le_of_lt ((Nat.div_lt_iff_lt_mul hpos).2 (lt_of_le_of_ne hle ?_))
        rintro rfl
        exact hmod (Nat.mul_mod_left _ _)

/-- Shifting keeps the quotient, and whether something was lost. -/
theorem shifted (m k : Nat) :
    let x : ExtendedMantissa := (⟨m, false, false⟩ : ExtendedMantissa) >>> k
    x.mantissa = m / 2 ^ k ∧ (x.roundBit || x.stickyBit) = decide (m % 2 ^ k ≠ 0) := by
  induction k with
  | zero => exact ⟨(Nat.div_one m).symm, by rw [Nat.pow_zero, Nat.mod_one]; rfl⟩
  | succ k ih =>
    obtain ⟨hmantissa, hlost⟩ := ih
    have hstep : (⟨m, false, false⟩ : ExtendedMantissa) >>> (k + 1) =
        ((⟨m, false, false⟩ : ExtendedMantissa) >>> k).shiftRightOne := rfl
    simp only [hstep, ExtendedMantissa.shiftRightOne, hmantissa, hlost]
    refine ⟨by rw [Nat.div_div_eq_div_mul, Nat.pow_succ], ?_⟩
    have hmod := Nat.mod_pow_succ (b := 2) (k := k) (x := m)
    rw [hmod]
    have hpos := Nat.two_pow_pos k
    rcases Nat.mod_two_eq_zero_or_one (m / 2 ^ k) with h | h <;> simp [h]

/-- What a mantissa is rounded to is the quotient or one more, and the quotient if nothing is lost. -/
theorem roundedMantissa_shifted (m k : Nat) :
    let r := ((⟨m, false, false⟩ : ExtendedMantissa) >>> k).roundedMantissa
    m / 2 ^ k ≤ r ∧ r ≤ m / 2 ^ k + 1 ∧ (m % 2 ^ k = 0 → r = m / 2 ^ k) := by
  obtain ⟨hmantissa, hlost⟩ := shifted m k
  generalize (⟨m, false, false⟩ : ExtendedMantissa) >>> k = x at *
  obtain ⟨q, a, b⟩ := x
  subst hmantissa
  have hkept : m % 2 ^ k = 0 → a = false ∧ b = false := fun h => by simpa [h] using hlost
  cases a with
  | false =>
    have hr : (⟨m / 2 ^ k, false, b⟩ : ExtendedMantissa).roundedMantissa = m / 2 ^ k := by
      cases b <;> rfl
    rw [hr]
    exact ⟨Nat.le_refl _, Nat.le_succ _, fun _ => rfl⟩
  | true =>
    have hr : (⟨m / 2 ^ k, true, b⟩ : ExtendedMantissa).roundedMantissa ≤ m / 2 ^ k + 1 ∧
        m / 2 ^ k ≤ (⟨m / 2 ^ k, true, b⟩ : ExtendedMantissa).roundedMantissa := by
      cases b with
      | false =>
        show m / 2 ^ k + m / 2 ^ k % 2 ≤ _ ∧ _ ≤ m / 2 ^ k + m / 2 ^ k % 2
        omega
      | true => exact ⟨Nat.le_refl _, Nat.le_succ _⟩
    exact ⟨hr.2, hr.1, fun h => absurd (hkept h).1 (Bool.noConfusion ·)⟩

theorem log2_mul_two_pow {m : Nat} (hm : 0 < m) (e : Nat) :
    Nat.log2 (m * 2 ^ e) = Nat.log2 m + e := by
  have hne := Nat.ne_of_gt hm
  have hpos := Nat.two_pow_pos e
  refine (Nat.log2_eq_iff (Nat.mul_ne_zero hne (Nat.ne_of_gt hpos))).2 ⟨?_, ?_⟩
  · rw [Nat.pow_add]
    exact Nat.mul_le_mul_right _ (Nat.log2_self_le hne)
  · rw [Nat.add_right_comm, Nat.pow_add]
    exact Nat.mul_lt_mul_of_pos_right ((Nat.log2_lt hne).1 (Nat.lt_succ_self _)) hpos

theorem targetExponent_eq (m e : Nat) :
    Format.binary64.targetExponent (Float.Model.totalExponent m ((e : Int) - 1074)) =
      ((Nat.log2 m + e - 52 : Nat) : Int) - 1074 := by
  have hmin : Format.binary64.minExponent = -1074 := by decide
  have hbits : Format.binary64.mantissaBits = 53 := rfl
  unfold Format.targetExponent Float.Model.totalExponent
  rw [hmin, hbits]
  omega

/-- A mantissa is brought to its exponent by halving it as often as needed. -/
theorem shiftToTargetExponent_eq (m e : Nat) :
    UnpackedFloat.shiftToTargetExponent Format.binary64 m ((e : Int) - 1074) .exact =
      ((⟨m, false, false⟩ : ExtendedMantissa) >>> (Nat.log2 m + e - 52 - e),
        ((e + (Nat.log2 m + e - 52 - e) : Nat) : Int) - 1074) := by
  unfold UnpackedFloat.shiftToTargetExponent UnpackedFloat.shiftToExponent
  rw [targetExponent_eq]
  dsimp only
  have hshift : (((Nat.log2 m + e - 52 : Nat) : Int) - 1074 - ((e : Int) - 1074)).toNat =
      Nat.log2 m + e - 52 - e := by omega
  rw [hshift]
  refine Prod.ext rfl ?_
  show (e : Int) - 1074 + _ = _
  omega

/-- Before it is rounded, a mantissa is brought to the exponent of the result if that is less. -/
theorem decreaseExponent_eq (m e : Nat) :
    UnpackedFloat.decreaseExponent m ((e : Int) - 1074)
      (Format.binary64.targetExponent (Float.Model.totalExponent m ((e : Int) - 1074))) =
    (m * 2 ^ (e - (Nat.log2 m + e - 52)), ((min e (Nat.log2 m + e - 52) : Nat) : Int) - 1074) := by
  rw [targetExponent_eq]
  generalize Nat.log2 m + e - 52 = t
  unfold UnpackedFloat.decreaseExponent
  dsimp only
  have hshift : ((e : Int) - 1074 - ((t : Int) - 1074)).toNat = e - t := by omega
  rw [Nat.shiftLeft_eq, hshift]
  refine Prod.ext rfl ?_
  show (e : Int) - 1074 - _ = _
  omega

/-- From there it is brought to the exponent of the result. -/
theorem shiftToTargetExponent_decreased {m : Nat} (hm : 0 < m) (e : Nat) :
    UnpackedFloat.shiftToTargetExponent Format.binary64 (m * 2 ^ (e - (Nat.log2 m + e - 52)))
        (((min e (Nat.log2 m + e - 52) : Nat) : Int) - 1074) .exact =
      ((⟨m * 2 ^ (e - (Nat.log2 m + e - 52)), false, false⟩ : ExtendedMantissa) >>>
        (Nat.log2 m + e - 52 - min e (Nat.log2 m + e - 52)),
        ((Nat.log2 m + e - 52 : Nat) : Int) - 1074) := by
  have hlog : Nat.log2 m + (e - (Nat.log2 m + e - 52)) + min e (Nat.log2 m + e - 52) =
      Nat.log2 m + e := by omega
  rw [shiftToTargetExponent_eq, log2_mul_two_pow hm, hlog, Nat.add_sub_cancel' (Nat.min_le_right _ _)]

/-- Wherever the exponent is brought to, shifting divides the number on the grid of the result. -/
theorem quotient_on_grid (m e t : Nat) :
    m * 2 ^ (e - t) / 2 ^ (t - min e t) = m * 2 ^ e / 2 ^ t ∧
      (m * 2 ^ (e - t) % 2 ^ (t - min e t) = 0 ↔ m * 2 ^ e % 2 ^ t = 0) := by
  have hnumber : m * 2 ^ e = m * 2 ^ (e - t) * 2 ^ min e t := by
    rw [Nat.mul_assoc, ← Nat.pow_add, show e - t + min e t = e by omega]
  have hgrid : 2 ^ t = 2 ^ (t - min e t) * 2 ^ min e t := by
    rw [← Nat.pow_add, show t - min e t + min e t = t by omega]
  rw [hnumber, hgrid, Nat.mul_div_mul_right _ _ (Nat.two_pow_pos _), Nat.mul_mod_mul_right]
  refine ⟨rfl, ?_⟩
  rw [Nat.mul_eq_zero]
  exact ⟨.inl, fun h => h.resolve_right (Nat.ne_of_gt (Nat.two_pow_pos _))⟩

/-- On its grid a number has 53 bits, and fewer only if the grid is the finest. -/
theorem bits_on_grid {a : Nat} (ha : 0 < a) :
    a / 2 ^ (Nat.log2 a - 52) < 2 ^ 53 ∧
      (2 ^ 52 ≤ a / 2 ^ (Nat.log2 a - 52) ∨ Nat.log2 a - 52 = 0) := by
  have hne := Nat.ne_of_gt ha
  constructor
  · refine (Nat.div_lt_iff_lt_mul (Nat.two_pow_pos _)).2 ?_
    refine ((Nat.log2_lt hne).1 (Nat.lt_succ_self _)).trans_le ?_
    rw [← Nat.pow_add]
    exact Nat.pow_le_pow_right Nat.two_pos (by omega)
  · refine (Nat.eq_zero_or_pos _).symm.imp_left fun h => ?_
    refine (Nat.le_div_iff_mul_le (Nat.two_pow_pos _)).2 ?_
    rw [← Nat.pow_add, show 52 + (Nat.log2 a - 52) = Nat.log2 a by omega]
    exact Nat.log2_self_le hne

/-- What a mantissa is rounded to becomes that of a double, at its exponent or the next one. -/
theorem exists_roundWithAccuracy (s : Sign) {m t : Nat} {i : Int} {x : ExtendedMantissa}
    (hx : UnpackedFloat.shiftToTargetExponent Format.binary64 m i .exact = (x, (t : Int) - 1074))
    (hpos : 0 < x.roundedMantissa) (hle : x.roundedMantissa ≤ 2 ^ 53)
    (hlarge : 2 ^ 52 ≤ x.roundedMantissa ∨ t = 0) :
    ∃ n, ∃ f : Nat, ∃ h, UnpackedFloat.roundWithAccuracy Format.binary64 s m i .exact =
      .finite s n ((f : Int) - 1074) h ∧ Canonical n f ∧ n * 2 ^ f = x.roundedMantissa * 2 ^ t := by
  unfold UnpackedFloat.roundWithAccuracy
  rw [hx]
  dsimp only
  rw [shiftToTargetExponent_eq]
  dsimp only
  generalize x.roundedMantissa = r at *
  rcases Nat.lt_or_eq_of_le hle with hlt | rfl
  · have hlog : Nat.log2 r < 53 := (Nat.log2_lt (Nat.ne_of_gt hpos)).2 hlt
    have hstay : Nat.log2 r + t - 52 - t = 0 := by omega
    rw [hstay]
    have hmantissa : ((⟨r, false, false⟩ : ExtendedMantissa) >>> 0).mantissa = r := rfl
    refine ⟨r, t, hpos, ?_, ⟨hlt, hlarge⟩, rfl⟩
    rw [hmantissa, dif_neg (Nat.ne_of_gt hpos)]
    rfl
  · -- Rounding has gone up to the next power of two.
    have hstep : Nat.log2 (2 ^ 53) + t - 52 - t = 1 := by
      rw [Nat.log2_two_pow]
      omega
    rw [hstep]
    have hmantissa : ((⟨2 ^ 53, false, false⟩ : ExtendedMantissa) >>> 1).mantissa = 2 ^ 52 := rfl
    refine ⟨2 ^ 52, t + 1, Nat.two_pow_pos 52, ?_, ⟨by omega, .inl (Nat.le_refl _)⟩, by ring⟩
    rw [hmantissa, dif_neg (Nat.ne_of_gt (Nat.two_pow_pos 52))]

/-- A number is rounded to a double with a neighbouring number. -/
theorem exists_round (s : Sign) {m : Nat} (hm : 0 < m) (e : Nat) :
    ∃ n, ∃ f : Nat, ∃ h, UnpackedFloat.round Format.binary64 s m ((e : Int) - 1074) =
      .finite s n ((f : Int) - 1074) h ∧ Canonical n f ∧ Rounds (m * 2 ^ e) (n * 2 ^ f) := by
  have hpos : 0 < m * 2 ^ e := Nat.mul_pos hm (Nat.two_pow_pos e)
  obtain ⟨hquotient, hremainder⟩ := quotient_on_grid m e (Nat.log2 (m * 2 ^ e) - 52)
  obtain ⟨hsmall, hlarge⟩ := bits_on_grid hpos
  have hrounds {r : Nat} := rounds_of_grid (r := r) hpos
  have hdecreased := decreaseExponent_eq m e
  have hx := shiftToTargetExponent_decreased hm e
  rw [← log2_mul_two_pow hm e] at hdecreased hx
  generalize Nat.log2 (m * 2 ^ e) - 52 = t at *
  obtain ⟨hlow, hhigh, hexact⟩ := roundedMantissa_shifted (m * 2 ^ (e - t)) (t - min e t)
  rw [hquotient] at hlow hhigh hexact
  rw [hremainder] at hexact
  have hrpos : 0 < ((⟨m * 2 ^ (e - t), false, false⟩ : ExtendedMantissa) >>>
      (t - min e t)).roundedMantissa := by
    rcases hlarge with h | rfl
    · exact Nat.lt_of_lt_of_le (Nat.two_pow_pos 52) (h.trans hlow)
    · rw [Nat.pow_zero, Nat.div_one] at hlow
      exact hpos.trans_le hlow
  obtain ⟨n, f, h, hround, hcanonical, hvalue⟩ :=
    exists_roundWithAccuracy s hx hrpos (by omega) (hlarge.imp_left (·.trans hlow))
  refine ⟨n, f, h, ?_, hcanonical, hvalue ▸ hrounds hlow hhigh hexact⟩
  unfold UnpackedFloat.round
  dsimp only
  rw [hdecreased]
  exact hround

end Doubles

end AlgebraicEffects
