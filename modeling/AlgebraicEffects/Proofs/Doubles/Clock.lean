import AlgebraicEffects.Proofs.Doubles.Times

/-!
What a clock shows that starts at zero.

Among doubles that are no NaN the comparisons of the machine are those of their places. A clock that
starts at zero and is only put forward shows doubles without a sign (`IsTime`). Such a double is known
by its place, it stays as it is when zero is added, and a delay that is not negative leads from it to
one that is not before it (`IsTime.add`).
-/

set_option autoImplicit false

namespace AlgebraicEffects.Doubles

open Float.Model (UnpackedFloat Format)
open Float.Model.UnpackedFloat (Sign)

section Comparing

variable {x y : Float}

/-- Of two finite doubles the one with the greater exponent is greater, then the one with the greater
significand. -/
theorem compare_exponent {m e n f : Nat} (h : Canonical m e) (g : Canonical n f) :
    (Ord.compare ((e : Int) - 1074) ((f : Int) - 1074)).then (Ord.compare m n) =
      Ord.compare (code m e : Int) (code n f) := by
  rcases Nat.lt_trichotomy e f with hlt | rfl | hlt
  · have hcode := (Canonical.lt_of_exponent_lt h.lt g hlt).1
    rw [compare_lt_iff_lt.2 (show (e : Int) - 1074 < (f : Int) - 1074 by omega),
      compare_lt_iff_lt.2 (Int.ofNat_lt.2 hcode)]
    rfl
  · rw [compare_eq_iff_eq.2 rfl, Ordering.eq_then]
    unfold code
    rcases Nat.lt_trichotomy m n with hmn | rfl | hmn
    · rw [compare_lt_iff_lt.2 hmn, compare_lt_iff_lt.2 (by omega)]
    · rw [compare_eq_iff_eq.2 rfl, compare_eq_iff_eq.2 rfl]
    · rw [compare_gt_iff_gt.2 hmn, compare_gt_iff_gt.2 (by omega)]
  · have hcode := (Canonical.lt_of_exponent_lt g.lt h hlt).1
    rw [compare_gt_iff_gt.2 (show (f : Int) - 1074 < (e : Int) - 1074 by omega),
      compare_gt_iff_gt.2 (Int.ofNat_lt.2 hcode)]
    rfl

/-- The machine compares the places of doubles. -/
theorem unpacked_compare (hx : IsNumber x) (hy : IsNumber y) :
    x.toModel.unpack.compare y.toModel.unpack = some (Ord.compare (rank x) (rank y)) := by
  have hpositive {m e : Nat} (hm : 0 < m) : 0 < code m e := Nat.add_pos_right _ hm
  cases kind x with
  | nan h => exact absurd h hx
  | infinity s h hrank =>
    cases kind y with
    | nan g => exact absurd g hy
    | infinity t g hranky =>
      rw [h, g, hrank, hranky]
      cases s <;> cases t <;> rfl
    | zero t g hranky =>
      rw [h, g, hrank, hranky]
      cases s <;> rfl
    | finite t n f hn g hcanonical hf hranky =>
      have hcode := code_lt_greatest hcanonical hf
      rw [h, g, hrank, hranky]
      cases s with
      | positive => exact congrArg some (compare_gt_iff_gt.2 (by cases t <;> simp only [Sign.apply] <;> omega)).symm
      | negative => exact congrArg some (compare_lt_iff_lt.2 (by cases t <;> simp only [Sign.apply] <;> omega)).symm
  | zero s h hrank =>
    cases kind y with
    | nan g => exact absurd g hy
    | infinity t g hranky =>
      rw [h, g, hrank, hranky]
      cases t <;> rfl
    | zero t g hranky =>
      rw [h, g, hrank, hranky]
      rfl
    | finite t n f hn g hcanonical hf hranky =>
      have hcode := hpositive (e := f) hn
      rw [h, g, hrank, hranky]
      cases t with
      | positive => exact congrArg some (compare_lt_iff_lt.2 (by simp only [Sign.apply]; omega)).symm
      | negative => exact congrArg some (compare_gt_iff_gt.2 (by simp only [Sign.apply]; omega)).symm
  | finite s m e hm h hcanonical he hrank =>
    have hcode := hpositive (e := e) hm
    cases kind y with
    | nan g => exact absurd g hy
    | infinity t g hranky =>
      have hcode := code_lt_greatest hcanonical he
      rw [h, g, hrank, hranky]
      cases t with
      | positive => cases s <;> exact congrArg some (compare_lt_iff_lt.2 (by simp only [Sign.apply]; omega)).symm
      | negative => cases s <;> exact congrArg some (compare_gt_iff_gt.2 (by simp only [Sign.apply]; omega)).symm
    | zero t g hranky =>
      rw [h, g, hrank, hranky]
      cases s with
      | positive => exact congrArg some (compare_gt_iff_gt.2 (by simp only [Sign.apply]; omega)).symm
      | negative => exact congrArg some (compare_lt_iff_lt.2 (by simp only [Sign.apply]; omega)).symm
    | finite t n f hn g hcanonicaly hf hranky =>
      have hcodey := hpositive (e := f) hn
      rw [h, g, hrank, hranky]
      cases s <;> cases t
      · refine congrArg some ((congrArg Ordering.swap (compare_exponent hcanonical hcanonicaly)).trans ?_)
        rw [Std.OrientedOrd.eq_swap (a := Sign.negative.apply _)]
        exact congrArg Ordering.swap (compare_congr (by simp only [Sign.apply]; omega)
          (by simp only [Sign.apply]; omega))
      · exact congrArg some (compare_lt_iff_lt.2 (by simp only [Sign.apply]; omega)).symm
      · exact congrArg some (compare_gt_iff_gt.2 (by simp only [Sign.apply]; omega)).symm
      · exact congrArg some (compare_exponent hcanonical hcanonicaly)

theorem lt_iff (hx : IsNumber x) (hy : IsNumber y) : x < y ↔ rank x < rank y := by
  have hlt : x < y ↔ (x.toModel.unpack.compare y.toModel.unpack == some .lt) = true :=
    decide_eq_true_iff
  rw [hlt, unpacked_compare hx hy, beq_iff_eq, Option.some.injEq]
  exact compare_lt_iff_lt

theorem le_iff (hx : IsNumber x) (hy : IsNumber y) : x ≤ y ↔ rank x ≤ rank y := by
  have hle : x ≤ y ↔ (x.toModel.unpack.compare y.toModel.unpack).any (·.isLE) = true :=
    decide_eq_true_iff
  rw [hle, unpacked_compare hx hy]
  exact Std.isLE_compare

theorem beq_iff (hx : IsNumber x) (hy : IsNumber y) : (x == y) = true ↔ rank x = rank y := by
  have hbeq : (x == y) = (x.toModel.unpack.compare y.toModel.unpack == some .eq) := rfl
  rw [hbeq, unpacked_compare hx hy, beq_iff_eq, Option.some.injEq]
  exact compare_eq_iff_eq

end Comparing

/-- A double that is no NaN, and whose sign is not set. -/
structure IsTime (x : Float) : Prop where
  isNumber : IsNumber x
  lt : x.toBits.toNat < 2 ^ 63

namespace IsTime

variable {x y : Float}

theorem zero : IsTime 0 := ⟨isNumber_zero, by decide⟩

theorem rank_eq (h : IsTime x) : rank x = x.toBits.toNat := by
  have hlt := h.lt
  unfold rank
  rw [if_neg (by omega)]
  omega

theorem rank_nonneg (h : IsTime x) : 0 ≤ rank x := h.rank_eq ▸ Int.natCast_nonneg _

/-- Times are known by their places. -/
theorem eq_of_rank_eq (hx : IsTime x) (hy : IsTime y) (h : rank x = rank y) : x = y := by
  rw [hx.rank_eq, hy.rank_eq, Int.ofNat_inj] at h
  obtain ⟨⟨a, ha⟩⟩ := x
  obtain ⟨⟨b, hb⟩⟩ := y
  obtain rfl : a = b := UInt64.toNat_inj.1 h
  rfl

theorem unsigned (h : IsTime x) : Unsigned x.toModel.unpack := by
  have hlt := h.lt
  have hbit : (@UnpackedFloat.unpackSign Format.binary64 x.toBits.toBitVec).toNat =
      x.toBits.toNat / 2 ^ 63 % 2 := toNat_unpackSign x.toBits.toBitVec
  have hsign : Sign.ofBitVec (@UnpackedFloat.unpackSign Format.binary64 x.toBits.toBitVec) =
      .positive := by
    refine if_pos (BitVec.toNat_inj.1 ?_)
    rw [hbit, BitVec.toNat_ofNat]
    omega
  have hunpack : x.toModel.unpack = decode (Sign.ofBitVec
      (@UnpackedFloat.unpackSign Format.binary64 x.toBits.toBitVec)) _ _ := unpack_eq x.toBits.toBitVec
  rw [hunpack, hsign]
  exact unsigned_decode _ _

/-- What is packed without a sign is a time, unless it is NaN. -/
theorem of_packed {u : UnpackedFloat} (hu : Unsigned u) (h : IsNumber (packed u)) : IsTime (packed u) := by
  obtain ⟨e, f, hpack⟩ := pack_unsigned hu
  have hbits : (packed u).toBits.toBitVec =
      UnpackedFloat.packComponents Format.binary64 .positive e f := hpack
  refine ⟨h, ?_⟩
  have hnat : (packed u).toBits.toNat = Sign.positive.toBitVec.toNat * 2 ^ 63 + e.toNat * 2 ^ 52 + f.toNat := by
    rw [← toNat_packComponents, ← hbits]
    rfl
  have hsign : Sign.positive.toBitVec.toNat = 0 := rfl
  have he := e.isLt
  have hf := f.isLt
  omega

/-- Packing what was unpacked gives the place back. -/
theorem rank_packed (h : IsNumber x) :
    IsNumber (packed x.toModel.unpack) ∧ rank (packed x.toModel.unpack) = rank x := by
  cases kind x with
  | nan g => exact absurd g h
  | infinity s g hrank =>
    obtain ⟨hnumber, hpacked⟩ := packed_infinity (u := .infinity s) rfl
    rw [g, hrank]
    exact ⟨hnumber, hpacked⟩
  | zero s g hrank =>
    rw [g, hrank]
    exact packed_zero s
  | finite s m e hm g hcanonical he hrank =>
    rw [g, hrank]
    exact ⟨(packed_finite s hm hcanonical).1, rank_packed_finite s hm hcanonical he⟩

/-- Adding zero changes nothing. -/
theorem add_zero (h : IsTime x) : x + 0 = x := by
  have hunsigned := h.unsigned
  have hsum : UnpackedFloat.add Format.binary64 x.toModel.unpack (.zero .positive) =
      x.toModel.unpack := by
    cases hunpack : x.toModel.unpack with
    | zero s =>
      rw [hunpack] at hunsigned
      rw [show s = .positive from hunsigned]
      rfl
    | _ => rfl
  obtain ⟨hnumber, hrank⟩ := rank_packed h.isNumber
  rw [add_eq, unpack_zero, hsum]
  exact (of_packed hunsigned hnumber).eq_of_rank_eq h hrank

/-- Adding a double that is not negative does not change the sign of a time. -/
theorem unsigned_add (hx : IsTime x) (hy : IsNumber y) (hpositive : 0 ≤ rank y) :
    Unsigned (UnpackedFloat.add Format.binary64 x.toModel.unpack y.toModel.unpack) := by
  have hunsigned := hx.unsigned
  have hsign {t : Sign} {c : Nat} (hrank : rank y = t.apply c) (hc : 0 < c) : t = .positive :=
    eq_positive_of_nonneg hc (hrank ▸ hpositive)
  cases kind x with
  | nan h => exact absurd h hx.isNumber
  | infinity s h =>
    rw [h] at hunsigned ⊢
    obtain rfl : s = .positive := hunsigned
    cases kind y with
    | nan g => exact absurd g hy
    | infinity t g hranky =>
      rw [g, hsign hranky (by decide)]
      exact rfl
    | zero t g | finite t n f hn g =>
      rw [g]
      exact rfl
  | zero s h =>
    rw [h] at hunsigned ⊢
    obtain rfl : s = .positive := hunsigned
    cases kind y with
    | nan g => exact absurd g hy
    | infinity t g hranky =>
      rw [g, hsign hranky (by decide)]
      exact rfl
    | zero t g =>
      rw [g]
      cases t <;> exact rfl
    | finite t n f hn g hcanonical hf hranky =>
      rw [g, hsign hranky (Nat.add_pos_right _ hn)]
      exact rfl
  | finite s m e hm h =>
    rw [h] at hunsigned ⊢
    obtain rfl : s = .positive := hunsigned
    cases kind y with
    | nan g => exact absurd g hy
    | infinity t g hranky =>
      rw [g, hsign hranky (by decide)]
      exact rfl
    | zero t g =>
      rw [g]
      exact rfl
    | finite t n f hn g hcanonical hf hranky =>
      rw [g, hsign hranky (Nat.add_pos_right _ hn), add_finite]
      unfold UnpackedFloat.normalize
      split
      · rename_i hcompare
        have hlt := compare_lt_iff_lt.1 hcompare
        simp only [Sign.apply] at hlt
        omega
      · exact rfl
      · exact unsigned_round rfl _ _ _

/-- A delay that is not negative leads from a time to one that is not before it. -/
theorem add (hx : IsTime x) (hy : IsNumber y) (hpositive : 0 ≤ rank y) :
    IsTime (x + y) ∧ rank x ≤ rank (x + y) := by
  have hleast : -greatest < rank x := lt_of_lt_of_le (by decide) hx.rank_nonneg
  obtain ⟨hnumber, hle⟩ := rank_le_add hx.isNumber hleast hy hpositive
  exact ⟨of_packed (unsigned_add hx hy hpositive) hnumber, hle⟩

end IsTime

end AlgebraicEffects.Doubles
