import AlgebraicEffects.Proofs.Doubles.Order
import AlgebraicEffects.Proofs.Queue.Agenda

/-!
Doubles as times.

Sums of doubles are rounded, and rounding keeps the order. So a delay that is not negative does not
lead back: doubles other than NaN and the least infinity are the times of a clock, and the delays are
the numbers that have a nearest double (`TimeDomain.doubles`).
-/

set_option autoImplicit false

namespace AlgebraicEffects

open Float.Model (UnpackedFloat Format)
open Float.Model.UnpackedFloat (Sign Accuracy)

namespace Doubles

/-- The double that is packed from what it is. -/
def packed (u : UnpackedFloat) : Float := .ofModel (.pack u)

theorem packed_components {u : UnpackedFloat} {s : Sign} {e : BitVec 11} {f : BitVec 52}
    (h : UnpackedFloat.pack Format.binary64 u = UnpackedFloat.packComponents Format.binary64 s e f) :
    (packed u).toModel.unpack = decode s e.toNat f.toNat ∧
      rank (packed u) = s.apply (e.toNat * 2 ^ 52 + f.toNat : Nat) := by
  have hbits : (packed u).toBits.toBitVec = UnpackedFloat.packComponents Format.binary64 s e f := h
  have hsign : Sign.ofBitVec s.toBitVec = s := by cases s <;> rfl
  constructor
  · have hunpack := unpack_eq (UnpackedFloat.packComponents Format.binary64 s e f)
    rw [← toNat_unpackExponent, ← toNat_unpackMantissa,
      UnpackedFloat.unpackExponent_packComponents, UnpackedFloat.unpackMantissa_packComponents] at hunpack
    have hs : UnpackedFloat.unpackSign (UnpackedFloat.packComponents Format.binary64 s e f) =
        s.toBitVec := by
      refine BitVec.eq_of_toNat_eq ?_
      rw [toNat_unpackSign, toNat_packComponents]
      have he := e.isLt
      have hf := f.isLt
      cases s <;> simp only [Sign.toBitVec] <;> omega
    rw [hs, hsign, ← hbits] at hunpack
    exact hunpack
  · have hnat : (packed u).toBits.toNat = s.toBitVec.toNat * 2 ^ 63 + e.toNat * 2 ^ 52 + f.toNat := by
      rw [← toNat_packComponents, ← hbits]
      rfl
    have he := e.isLt
    have hf := f.isLt
    unfold rank
    rw [hnat]
    cases s <;> simp only [Sign.toBitVec, Sign.apply, BitVec.toNat_ofNat] <;> omega

theorem decode_ne_notANumber {s : Sign} {e f : Nat} (h : e = 2047 → f = 0) :
    decode s e f ≠ .notANumber := by
  unfold decode
  by_cases hmost : e = 2047
  · rw [if_pos hmost, if_pos (h hmost)]
    exact UnpackedFloat.noConfusion
  · rw [if_neg hmost]
    by_cases hleast : e = 0
    · rw [if_pos hleast]
      by_cases hf : f = 0
      · rw [dif_pos hf]
        exact UnpackedFloat.noConfusion
      · rw [dif_neg hf]
        exact UnpackedFloat.noConfusion
    · rw [if_neg hleast]
      exact UnpackedFloat.noConfusion

/-- What has the bits of an infinity is one. -/
theorem packed_infinity {u : UnpackedFloat} {s : Sign}
    (h : UnpackedFloat.pack Format.binary64 u = UnpackedFloat.pack Format.binary64 (.infinity s)) :
    IsNumber (packed u) ∧ rank (packed u) = s.apply greatest := by
  obtain ⟨hunpack, hrank⟩ := packed_components (u := u) (s := s) (e := -1#11) (f := 0#52) h
  refine ⟨?_, hrank⟩
  rw [IsNumber, hunpack]
  exact decode_ne_notANumber fun _ => rfl

theorem packed_zero (s : Sign) : IsNumber (packed (.zero s)) ∧ rank (packed (.zero s)) = 0 := by
  obtain ⟨hunpack, hrank⟩ := packed_components (u := .zero s) (s := s) (e := 0#11) (f := 0#52) rfl
  refine ⟨?_, hrank.trans (by cases s <;> simp [Sign.apply])⟩
  rw [IsNumber, hunpack]
  exact decode_ne_notANumber fun _ => rfl

theorem biased_exponent (e : Nat) : ((e : Int) - 1074 + (Format.binary64.exponentBias : Nat) +
    (Format.binary64.mantissaBitsWithoutImplicit : Nat)).toNat = e + 1 := by
  have hbias : Format.binary64.exponentBias = 1023 := rfl
  have hbits : Format.binary64.mantissaBitsWithoutImplicit = 52 := rfl
  rw [hbias, hbits]
  omega

/-- Beyond the greatest exponent there is the infinity only. -/
theorem pack_overflow (s : Sign) {m e : Nat} (hm : 0 < m) (he : 2046 ≤ e) :
    UnpackedFloat.pack Format.binary64 (.finite s m ((e : Int) - 1074) hm) =
      UnpackedFloat.pack Format.binary64 (.infinity s) := by
  unfold UnpackedFloat.pack
  dsimp only
  rw [biased_exponent, if_pos (show 2 ^ 11 ≤ e + 1 + 1 by omega)]

/-- The fields of a double, whether it has the leading bit or not. -/
theorem exists_pack_finite (s : Sign) {m e : Nat} (hm : 0 < m) (h : Canonical m e) (he : e < 2046) :
    ∃ (k : BitVec 11) (f : BitVec 52),
      UnpackedFloat.pack Format.binary64 (.finite s m ((e : Int) - 1074) hm) =
        UnpackedFloat.packComponents Format.binary64 s k f ∧
      k.toNat ≠ 2047 ∧ k.toNat * 2 ^ 52 + f.toNat = code m e := by
  have hlt := h.lt
  unfold UnpackedFloat.pack
  dsimp only
  rw [biased_exponent, if_neg (show ¬ 2 ^ 11 ≤ e + 1 + 1 by omega)]
  have hnormal : Nat.log2 m + 1 = 53 ↔ 2 ^ 52 ≤ m := by
    have hlow := Nat.le_log2 (k := 52) (Nat.ne_of_gt hm)
    have hhigh := (Nat.log2_lt (k := 53) (Nat.ne_of_gt hm)).2 hlt
    omega
  by_cases hlead : 2 ^ 52 ≤ m
  · refine ⟨_, _, if_pos (hnormal.2 hlead), ?_⟩
    have hk : (BitVec.ofNat 11 (e + 1)).toNat = e + 1 := Nat.mod_eq_of_lt (by omega)
    have hf : (BitVec.ofNat 52 m).toNat = m - 2 ^ 52 := by
      rw [BitVec.toNat_ofNat]
      omega
    refine ⟨fun h => by omega, ?_⟩
    unfold code
    omega
  · refine ⟨_, _, if_neg (mt hnormal.1 hlead), ?_⟩
    have hf : (BitVec.ofNat 52 m).toNat = m := Nat.mod_eq_of_lt (by omega)
    have he : e = 0 := h.normal.resolve_left hlead
    have hk : (BitVec.ofNat 11 0).toNat = 0 := rfl
    refine ⟨fun h => by omega, ?_⟩
    unfold code
    omega

/-- The finite doubles, and the infinity behind them. -/
theorem packed_finite (s : Sign) {m e : Nat} (hm : 0 < m) (h : Canonical m e) :
    IsNumber (packed (.finite s m ((e : Int) - 1074) hm)) ∧
      rank (packed (.finite s m ((e : Int) - 1074) hm)) = s.apply (min (code m e) greatest : Nat) := by
  have hlt := h.lt
  rcases Nat.lt_or_ge e 2046 with he | he
  · have hcode : code m e ≤ greatest := by
      unfold greatest code
      omega
    obtain ⟨k, f, hpack, hk, hplace⟩ := exists_pack_finite s hm h he
    obtain ⟨hunpack, hrank⟩ := packed_components hpack
    rw [hplace] at hrank
    rw [Nat.min_eq_left hcode]
    refine ⟨?_, hrank⟩
    rw [IsNumber, hunpack]
    exact decode_ne_notANumber fun h => absurd h hk
  · have hcode : greatest ≤ code m e := by
      have hnormal := h.normal.resolve_right (by omega)
      unfold greatest code
      omega
    rw [Nat.min_eq_right hcode]
    exact packed_infinity (pack_overflow s hm he)

theorem add_eq (x y : Float) :
    x + y = packed (UnpackedFloat.add Format.binary64 x.toModel.unpack y.toModel.unpack) := rfl

/-- A finite double is packed to itself. -/
theorem rank_packed_finite (s : Sign) {m e : Nat} (hm : 0 < m) (h : Canonical m e) (he : e ≤ 2045) :
    rank (packed (.finite s m ((e : Int) - 1074) hm)) = s.apply (code m e) := by
  rw [(packed_finite s hm h).2, Nat.min_eq_left (code_lt_greatest h he).le]

/-- What a number is rounded to is packed to a double that keeps its order to the others. -/
theorem exists_rank_packed_round (s : Sign) {d : Nat} (hd : 0 < d) (k : Nat) :
    let x := packed (UnpackedFloat.round Format.binary64 s d ((k : Int) - 1074))
    IsNumber x ∧ ∃ c : Nat, rank x = s.apply c ∧ ∀ m e, Canonical m e → e ≤ 2045 →
      (m * 2 ^ e ≤ d * 2 ^ k → code m e ≤ c) ∧ (d * 2 ^ k ≤ m * 2 ^ e → c ≤ code m e) := by
  obtain ⟨n, f, hn, hround, hcanonical, hrounds⟩ := exists_round s hd k
  rw [hround]
  obtain ⟨hnumber, hrank⟩ := packed_finite s hn hcanonical
  refine ⟨hnumber, _, hrank, fun m e h he => ⟨fun hle => ?_, fun hle => ?_⟩⟩
  · have hbelow := (hrounds m e h.lt).1 hle
    have hcode := Nat.not_lt.1 (mt (hcanonical.code_lt_iff h).1 (Nat.not_lt.2 hbelow))
    exact Nat.le_min.2 ⟨hcode, (code_lt_greatest h he).le⟩
  · have habove := (hrounds m e h.lt).2 hle
    have hcode := Nat.not_lt.1 (mt (h.code_lt_iff hcanonical).1 (Nat.not_lt.2 habove))
    exact (Nat.min_le_left _ _).trans hcode

/-- A number is packed to a double that is not below those that are not above the number. -/
theorem le_rank_packed (a : Int) (k : Nat) :
    let x := packed (UnpackedFloat.normalize Format.binary64 a ((k : Int) - 1074) .positive)
    IsNumber x ∧ ∀ (s : Sign) (m e : Nat), Canonical m e → e ≤ 2045 →
      s.apply (m * 2 ^ e : Nat) ≤ a * (2 ^ k : Nat) → s.apply (code m e) ≤ rank x := by
  unfold UnpackedFloat.normalize
  rcases lt_trichotomy a 0 with ha | rfl | ha
  · obtain ⟨d, rfl⟩ : ∃ d : Nat, a = -d := ⟨a.natAbs, by omega⟩
    rw [compare_lt_iff_lt.2 ha]
    dsimp only
    rw [Int.neg_neg, Int.toNat_natCast]
    obtain ⟨hnumber, c, hrank, horder⟩ := exists_rank_packed_round .negative (d := d) (by omega) k
    refine ⟨hnumber, fun s m e h he hle => ?_⟩
    have hd : 0 < d * 2 ^ k := Nat.mul_pos (by omega) (Nat.two_pow_pos k)
    rw [Int.neg_mul, ← Int.natCast_mul] at hle
    rw [hrank]
    cases s with
    | positive =>
      simp only [Sign.apply] at hle
      omega
    | negative =>
      simp only [Sign.apply] at hle ⊢
      have hcode := (horder m e h he).2 (by omega)
      omega
  · rw [compare_eq_iff_eq.2 rfl]
    obtain ⟨hnumber, hrank⟩ := packed_zero .positive
    refine ⟨hnumber, fun s m e h he hle => ?_⟩
    dsimp only
    rw [hrank]
    rw [Int.zero_mul] at hle
    cases s with
    | positive =>
      have hcode := h.code_eq_zero_iff.2 (by simp only [Sign.apply] at hle; omega)
      simp only [Sign.apply, hcode]
      omega
    | negative =>
      simp only [Sign.apply]
      omega
  · obtain ⟨d, rfl⟩ : ∃ d : Nat, a = d := ⟨a.natAbs, by omega⟩
    rw [compare_gt_iff_gt.2 ha]
    dsimp only
    rw [Int.toNat_natCast]
    obtain ⟨hnumber, c, hrank, horder⟩ := exists_rank_packed_round .positive (d := d) (by omega) k
    refine ⟨hnumber, fun s m e h he hle => ?_⟩
    rw [← Int.natCast_mul] at hle
    rw [hrank]
    cases s with
    | positive =>
      simp only [Sign.apply] at hle ⊢
      exact Int.ofNat_le.2 ((horder m e h he).1 (Int.ofNat_le.1 hle))
    | negative =>
      simp only [Sign.apply]
      omega

/-- The sum of two mantissas at their exponents. -/
theorem add_finite (s : Sign) {m n : Nat} (e f : Nat) (hm : 0 < m) (hn : 0 < n) :
    UnpackedFloat.add Format.binary64 (.finite s m ((e : Int) - 1074) hm)
      (.finite .positive n ((f : Int) - 1074) hn) =
    UnpackedFloat.normalize Format.binary64
      (s.apply (m * 2 ^ (e - min e f) : Nat) + (n * 2 ^ (f - min e f) : Nat))
      ((min e f : Nat) - 1074) .positive := by
  have hunit : min ((e : Int) - 1074) ((f : Int) - 1074) = ((min e f : Nat) : Int) - 1074 := by omega
  have hdecreased (m e : Nat) (k : Nat) (hk : k ≤ e) :
      (UnpackedFloat.decreaseExponent m ((e : Int) - 1074) ((k : Int) - 1074)).1 =
        m * 2 ^ (e - k) := by
    unfold UnpackedFloat.decreaseExponent
    dsimp only
    rw [Nat.shiftLeft_eq, show ((e : Int) - 1074 - ((k : Int) - 1074)).toNat = e - k by omega]
  unfold UnpackedFloat.add
  dsimp only
  rw [hunit, hdecreased m e _ (Nat.min_le_left e f), hdecreased n f _ (Nat.min_le_right e f)]
  rfl

/-- A finite double is not above its sum with a positive one. -/
theorem rank_le_add_finite (s : Sign) {m e n f : Nat} (hm : 0 < m) (hn : 0 < n) (h : Canonical m e)
    (he : e ≤ 2045) :
    let x := packed (UnpackedFloat.add Format.binary64 (.finite s m ((e : Int) - 1074) hm)
      (.finite .positive n ((f : Int) - 1074) hn))
    IsNumber x ∧ s.apply (code m e) ≤ rank x := by
  rw [add_finite]
  obtain ⟨hnumber, hle⟩ := le_rank_packed
    (s.apply (m * 2 ^ (e - min e f) : Nat) + (n * 2 ^ (f - min e f) : Nat)) (min e f)
  refine ⟨hnumber, hle s m e h he ?_⟩
  have hunit : s.apply (m * 2 ^ e : Nat) = s.apply (m * 2 ^ (e - min e f) : Nat) * (2 ^ min e f : Nat) := by
    have hsplit : m * 2 ^ e = m * 2 ^ (e - min e f) * 2 ^ min e f := by
      rw [Nat.mul_assoc, ← Nat.pow_add, Nat.sub_add_cancel (Nat.min_le_left e f)]
    rw [hsplit, apply_mul]
  rw [hunit]
  exact Int.mul_le_mul_of_nonneg_right (Int.le_add_of_nonneg_right (Int.natCast_nonneg _))
    (Int.natCast_nonneg _)

theorem le_rank_infinity {r : Int} (hr : r ≤ greatest) :
    IsNumber (packed (.infinity .positive)) ∧ r ≤ rank (packed (.infinity .positive)) := by
  obtain ⟨hnumber, hrank⟩ := packed_infinity (u := .infinity .positive) rfl
  exact ⟨hnumber, hrank ▸ hr⟩

theorem le_rank_zero {r : Int} (s : Sign) (hr : r ≤ 0) :
    IsNumber (packed (.zero s)) ∧ r ≤ rank (packed (.zero s)) := by
  obtain ⟨hnumber, hrank⟩ := packed_zero s
  exact ⟨hnumber, hrank ▸ hr⟩

theorem eq_positive_of_nonneg {s : Sign} {c : Nat} (hc : 0 < c) (h : 0 ≤ s.apply c) :
    s = .positive := by
  cases s with
  | positive => rfl
  | negative =>
    simp only [Sign.apply] at h
    omega

/-- Adding a double that is not negative does not lead below. -/
theorem rank_le_add {x y : Float} (hx : IsNumber x) (hleast : -greatest < rank x) (hy : IsNumber y)
    (hpositive : 0 ≤ rank y) : IsNumber (x + y) ∧ rank x ≤ rank (x + y) := by
  rw [add_eq]
  cases kind x with
  | nan h => exact absurd h hx
  | infinity s h hrank =>
    obtain rfl : s = .positive := by
      cases s with
      | positive => rfl
      | negative => exact absurd hleast (by rw [hrank]; exact lt_irrefl _)
    have hsum : UnpackedFloat.add Format.binary64 (.infinity .positive) y.toModel.unpack =
        .infinity .positive := by
      cases kind y with
      | nan g => exact absurd g hy
      | infinity t g hranky =>
        rw [hranky] at hpositive
        rw [g, eq_positive_of_nonneg (by decide) hpositive]
        rfl
      | zero t g => rw [g]; rfl
      | finite t n f hn g => rw [g]; rfl
    rw [h, hsum]
    exact le_rank_infinity hrank.le
  | zero s h hrank =>
    rw [h, hrank]
    cases kind y with
    | nan g => exact absurd g hy
    | infinity t g hranky =>
      rw [hranky] at hpositive
      rw [g, eq_positive_of_nonneg (by decide) hpositive]
      exact le_rank_infinity (by decide)
    | zero t g =>
      rw [g]
      cases s <;> cases t <;> exact le_rank_zero _ le_rfl
    | finite t n f hn g hcanonical hf hranky =>
      rw [g]
      refine ⟨(packed_finite t hn hcanonical).1, ?_⟩
      rw [hranky, ← rank_packed_finite t hn hcanonical hf] at hpositive
      exact hpositive
  | finite s m e hm h hcanonical he hrank =>
    rw [h, hrank]
    cases kind y with
    | nan g => exact absurd g hy
    | infinity t g hranky =>
      rw [hranky] at hpositive
      rw [g, eq_positive_of_nonneg (by decide) hpositive]
      refine le_rank_infinity ?_
      have hcode := code_lt_greatest hcanonical he
      cases s <;> simp only [Sign.apply] <;> omega
    | zero t g =>
      rw [g]
      exact ⟨(packed_finite s hm hcanonical).1, (rank_packed_finite s hm hcanonical he).ge⟩
    | finite t n f hn g hcanonicaly hf hranky =>
      have hcode : 0 < code n f := Nat.add_pos_right _ hn
      rw [hranky] at hpositive
      rw [g]
      obtain rfl := eq_positive_of_nonneg hcode hpositive
      exact rank_le_add_finite s hm hn hcanonical he

/-- What is unpacked has no sign, or the positive one. -/
def Unsigned : UnpackedFloat → Prop
  | .notANumber => True
  | .infinity s | .zero s | .finite s _ _ _ => s = .positive

theorem unsigned_round {s : Sign} (hs : s = .positive) (m : Nat) (e : Int) (a : Accuracy) :
    Unsigned (UnpackedFloat.roundWithAccuracy Format.binary64 s m e a) := by
  show Unsigned (dite _ _ _)
  rw [apply_dite Unsigned, dite_prop_iff_and]
  exact ⟨fun _ => hs, fun _ => hs⟩

theorem unsigned_mul {u v : UnpackedFloat} (hu : Unsigned u) (hv : Unsigned v) :
    Unsigned (UnpackedFloat.mul Format.binary64 u v) := by
  have hsign {s t : Sign} (hs : s = .positive) (ht : t = .positive) : s * t = .positive := by
    rw [hs, ht]
    rfl
  cases u <;> cases v <;>
    first
    | trivial
    | exact hsign hu hv
    | exact unsigned_round (hsign hu hv) _ _ _

/-- It is packed without a sign. -/
theorem pack_unsigned {u : UnpackedFloat} (hu : Unsigned u) : ∃ (e : BitVec 11) (f : BitVec 52),
    UnpackedFloat.pack Format.binary64 u =
      UnpackedFloat.packComponents Format.binary64 .positive e f := by
  cases u with
  | notANumber => exact ⟨_, _, rfl⟩
  | infinity s => exact ⟨_, _, by rw [← show s = .positive from hu]; rfl⟩
  | zero s => exact ⟨_, _, by rw [← show s = .positive from hu]; rfl⟩
  | finite s m e h =>
    rw [← show s = .positive from hu]
    unfold UnpackedFloat.pack
    dsimp only
    split
    · exact ⟨_, _, rfl⟩
    · split <;> exact ⟨_, _, rfl⟩

theorem unsigned_decode (e f : Nat) : Unsigned (decode .positive e f) := by
  unfold decode
  by_cases hmost : e = 2047
  · rw [if_pos hmost]
    split
    · exact rfl
    · trivial
  · rw [if_neg hmost]
    by_cases hleast : e = 0
    · rw [if_pos hleast, apply_dite Unsigned, dite_prop_iff_and]
      exact ⟨fun _ => rfl, fun _ => rfl⟩
    · rw [if_neg hleast]
      exact rfl

theorem packed_unsigned {u : UnpackedFloat} (hu : Unsigned u) :
    Unsigned (packed u).toModel.unpack ∧ 0 ≤ rank (packed u) := by
  obtain ⟨e, f, hpack⟩ := pack_unsigned hu
  obtain ⟨hunpack, hrank⟩ := packed_components hpack
  exact ⟨hunpack ▸ unsigned_decode _ _, hrank ▸ Int.natCast_nonneg _⟩

/-- An integer that is not negative is rounded to a double that is not below zero. -/
theorem rank_roundInt {n : Int} (hn : 0 ≤ n) {y : Float} (hy : Number.roundInt n = .ok y) :
    0 ≤ rank y := by
  obtain ⟨d, rfl⟩ := Int.eq_ofNat_of_zero_le hn
  have hround : y = Float.ofScientific d false 0 := by
    unfold Number.roundInt at hy
    dsimp only at hy
    split at hy
    · cases hy
    · rw [if_neg (Int.not_lt.2 hn)] at hy
      cases hy
      rfl
  have hinteger : Unsigned (UnpackedFloat.ofUInt64 Format.binary64 d.toUInt64) := by
    unfold UnpackedFloat.ofUInt64 UnpackedFloat.ofNat UnpackedFloat.ofInt UnpackedFloat.normalize
    split
    · rename_i h
      exact absurd (compare_lt_iff_lt.1 h) (Int.not_lt.2 (Int.natCast_nonneg _))
    · exact rfl
    · exact unsigned_round rfl _ _ _
  have hone : Unsigned Float.exactlyRepresentablePowersOfTen[0].toModel.unpack := by
    exact rfl
  have hscientific : Unsigned (UnpackedFloat.ofScientific Format.binary64 d 0) := by
    unfold UnpackedFloat.ofScientific
    by_cases hd : d = 0
    · rw [dif_pos hd]
      exact rfl
    · have hbits : (0 : Int) < 2 ^ Format.binary64.exponentBits := by decide
      rw [dif_neg hd, if_neg (by omega), if_neg (by omega), if_pos le_rfl]
      refine unsigned_mul ?_ ?_
      · exact Eq.refl Sign.positive
      · exact Eq.refl Sign.positive
  rw [hround]
  unfold Float.ofScientific
  split
  · exact (packed_unsigned (unsigned_mul (packed_unsigned hinteger).1 hone)).2
  · exact (packed_unsigned hscientific).2

/-- The nearest double of a number that is not negative is not below zero. -/
theorem rank_delay {delay : Number} {y : Float} (hdelay : delay.toFloat = .ok y) (hy : IsNumber y)
    (hpositive : delay.less (.int 0) = false) : 0 ≤ rank y := by
  cases delay with
  | float z =>
    cases hdelay
    exact Int.not_lt.1 (mt (less_zero_iff hy).2 (ne_true_of_eq_false hpositive))
  | int n =>
    refine rank_roundInt ?_ hdelay
    rw [Number.less, Number.compare?_int, beq_eq_false_iff_ne, ne_eq, Option.some.injEq,
      Std.compare_eq_lt] at hpositive
    exact Int.not_lt.1 hpositive

end Doubles

/-- The doubles are times, but for NaN and the least infinity, and the delays between them are the
numbers that have a nearest double. -/
def TimeDomain.doubles : TimeDomain ℤ where
  Mem a := ∃ x, a = .float x ∧ Doubles.IsNumber x ∧ -Doubles.greatest < Doubles.rank x
  Delay d := ∃ y, d.toFloat = .ok y ∧ Doubles.IsNumber y
  rank
    | .int _ => 0
    | .float x => Doubles.rank x
  less := by
    rintro _ _ ⟨x, rfl, hx, -⟩ ⟨y, rfl, hy, -⟩
    rw [Number.less, Doubles.compare?_eq hx hy, beq_iff_eq, Option.some.injEq]
    exact Std.compare_eq_lt
  equal := by
    rintro _ _ ⟨x, rfl, hx, -⟩ ⟨y, rfl, hy, -⟩
    rw [Number.equal, Doubles.compare?_eq hx hy, beq_iff_eq, Option.some.injEq]
    exact Std.compare_eq_iff_eq
  add := by
    rintro _ delay due ⟨x, rfl, hx, hleast⟩ ⟨y, hdelay, hy⟩ hpositive hdue
    have hsum := Number.float_add hdelay x
    obtain rfl : due = .float (x + y) := Except.ok.inj (hdue.symm.trans hsum)
    obtain ⟨hnumber, hle⟩ :=
      Doubles.rank_le_add hx hleast hy (Doubles.rank_delay hdelay hy hpositive)
    exact ⟨⟨_, rfl, hnumber, hleast.trans_le hle⟩, hle⟩

/-- No time at all is a delay, and leads from a time to one that is not before it. -/
theorem TimeDomain.doubles_soon :
    TimeDomain.doubles.Delay (.float 0) ∧ (Number.float 0).less (.int 0) = false := by
  refine ⟨⟨0, rfl, Doubles.isNumber_zero⟩, Bool.eq_false_iff.2 fun h => ?_⟩
  exact Int.lt_irrefl 0 ((Doubles.less_zero_iff Doubles.isNumber_zero).1 h)

theorem TimeDomain.delay_int {n : Nat} (hfinite : (Float.ofScientific n false 0).isInf = false)
    (hnumber : (Float.ofScientific n false 0).isNaN = false) : TimeDomain.doubles.Delay (.int n) := by
  refine ⟨Float.ofScientific n false 0, ?_, Doubles.isNumber_of_isNaN hnumber⟩
  show Number.roundInt n = _
  unfold Number.roundInt
  dsimp only
  rw [Int.natAbs_natCast, hfinite, if_neg Bool.false_ne_true, if_neg (Int.natCast_nonneg n).not_gt]

theorem TimeDomain.mem_zero : TimeDomain.doubles.Mem (.float 0) :=
  ⟨0, rfl, Doubles.isNumber_zero, by decide⟩

theorem TimeDomain.doubles_add {now delay : Number} (hnow : TimeDomain.doubles.Mem now)
    (hdelay : TimeDomain.doubles.Delay delay) : ∃ due, now.add delay = .ok due := by
  obtain ⟨x, rfl, -⟩ := hnow
  obtain ⟨y, hy, -⟩ := hdelay
  exact ⟨_, Number.float_add hy x⟩

end AlgebraicEffects
