import AlgebraicEffects.Proofs.Doubles.Times
import Mathlib

/-!
Integers and doubles on one clock.

An integer and a double are compared as exact numbers, so both have their place among the multiples of
the least double, and the greatest infinity is above them all (`Number.place`). The numbers other than
NaN and the least infinity are times, and integers are delays between them (`TimeDomain.numbers`). A
delay that is a double leads from a double to one that is not before it, too. It need not lead on from
an integer, which is rounded before they are added; but the sum is a time in any case
(`TimeDomain.numbers_add`).
-/

set_option autoImplicit false

namespace AlgebraicEffects

open Float.Model (UnpackedFloat Format)
open Float.Model.UnpackedFloat (Sign Accuracy)

section Places

/-- The place of a number that is finite or above all finite ones: its value, counted in units of the
least double. -/
def Number.place (n : Number) : WithTop ℤ :=
  match n.scaled? with
  | some x => (x.atUnit (-1074) : ℤ)
  | none => ⊤

/-- What comparisons see of a number that has a place. -/
inductive Number.Placed (n : Number) : Prop where
  | finite (a : ℤ) (e : ℕ) : n.side = some .eq → n.scaled? = some ⟨a, (e : ℤ) - 1074⟩ →
      n.place = (a * (2 ^ e : ℕ) : ℤ) → Placed n
  | above : n.side = some .gt → n.scaled? = none → n.place = ⊤ → Placed n

variable {n m : Number}

theorem Number.place_of_scaled {a : ℤ} {e : ℕ} (h : n.scaled? = some ⟨a, (e : ℤ) - 1074⟩) :
    n.place = (a * (2 ^ e : ℕ) : ℤ) := by
  have hunit : ((e : ℤ) - 1074 - (-1074)).toNat = e := by omega
  unfold place
  rw [h]
  dsimp only [Scaled.atUnit]
  rw [hunit]
  rfl

theorem Number.place_of_none (h : n.scaled? = none) : n.place = ⊤ := by
  unfold place
  rw [h]

theorem Number.place_int (m : ℤ) : (Number.int m).place = (m * (2 ^ 1074 : ℕ) : ℤ) :=
  place_of_scaled (e := 1074) rfl

/-- A double is a number if it has a place relative to the finite ones. -/
theorem Doubles.isNumber_of_side {x : Float} {o : Ordering} (h : (Number.float x).side = some o) :
    IsNumber x := by
  refine isNumber_of_isNaN ?_
  unfold Number.side at h
  dsimp only at h
  by_cases hnan : x.isNaN = true
  · rw [if_pos hnan] at h
    cases h
  · exact Bool.eq_false_iff.2 hnan

theorem Number.placed (h : n.side = some .eq ∨ n.side = some .gt) : n.Placed := by
  cases n with
  | int m => exact .finite m 1074 rfl rfl (place_int m)
  | float x =>
    have hx : Doubles.IsNumber x := by
      rcases h with h | h
      · exact Doubles.isNumber_of_side h
      · exact Doubles.isNumber_of_side h
    cases Doubles.seen hx with
    | finite s m e hside hscaled => exact .finite _ e hside hscaled (place_of_scaled hscaled)
    | infinite s o hside ho hscaled =>
      rw [hside, Option.some.injEq, Option.some.injEq] at h
      have hgt : o = .gt := by
        refine h.resolve_left fun heq => ?_
        subst heq
        cases s <;> cases ho
      subst hgt
      exact .above hside hscaled (place_of_none hscaled)

/-- Numbers are compared by their places. -/
theorem Number.Placed.compare? (hn : n.Placed) (hm : m.Placed) :
    ∃ a b : ℤ, n.compare? m = some (Ord.compare a b) ∧ (a < b ↔ n.place < m.place) ∧
      (a = b ↔ n.place = m.place) := by
  unfold Number.compare?
  cases hn with
  | finite a e hside hscaled hplace =>
    cases hm with
    | finite b f hside' hscaled' hplace' =>
      rw [hside, hside', hscaled, hscaled', hplace, hplace']
      exact ⟨_, _, congrArg some (Doubles.compare_scaled a b e f), WithTop.coe_lt_coe.symm,
        WithTop.coe_inj.symm⟩
    | above hside' hscaled' hplace' =>
      rw [hside, hside', hscaled, hscaled', hplace, hplace']
      exact ⟨0, 1, rfl, iff_of_true Int.zero_lt_one (WithTop.coe_lt_top _),
        iff_of_false (by decide) (WithTop.coe_ne_top)⟩
  | above hside hscaled hplace =>
    cases hm with
    | finite b f hside' hscaled' hplace' =>
      rw [hside, hside', hscaled, hscaled', hplace, hplace']
      exact ⟨1, 0, rfl, iff_of_false (by decide) not_top_lt, iff_of_false (by decide) (WithTop.top_ne_coe)⟩
    | above hside' hscaled' hplace' =>
      rw [hside, hside', hscaled, hscaled', hplace, hplace']
      exact ⟨1, 1, rfl, iff_of_false (by decide) (lt_irrefl _), iff_of_true rfl rfl⟩

theorem Number.Placed.less_iff (hn : n.Placed) (hm : m.Placed) :
    n.less m = true ↔ n.place < m.place := by
  obtain ⟨a, b, hcompare, hlt, -⟩ := hn.compare? hm
  rw [Number.less, hcompare, beq_iff_eq, Option.some.injEq, ← hlt]
  exact Std.compare_eq_lt

theorem Number.Placed.equal_iff (hn : n.Placed) (hm : m.Placed) :
    n.equal m = true ↔ n.place = m.place := by
  obtain ⟨a, b, hcompare, -, heq⟩ := hn.compare? hm
  rw [Number.equal, hcompare, beq_iff_eq, Option.some.injEq, ← heq]
  exact Std.compare_eq_iff_eq

/-- Doubles have their places in the order of their bits. -/
theorem Doubles.place_le_iff {x y : Float} (hx : IsNumber x) (hy : IsNumber y)
    (hplaced : (Number.float x).Placed) (hplaced' : (Number.float y).Placed) :
    (Number.float x).place ≤ (Number.float y).place ↔ rank x ≤ rank y := by
  rw [← not_lt, ← not_lt, not_iff_not, ← hplaced'.less_iff hplaced, Number.less,
    compare?_eq hy hx, beq_iff_eq, Option.some.injEq]
  exact Std.compare_eq_lt

/-- The doubles that have a place are those but for NaN and the least infinity. -/
theorem Doubles.side_iff {x : Float} :
    ((Number.float x).side = some .eq ∨ (Number.float x).side = some .gt) ↔
      IsNumber x ∧ -greatest < rank x := by
  constructor
  · intro h
    have hx : IsNumber x := h.elim isNumber_of_side isNumber_of_side
    refine ⟨hx, ?_⟩
    cases seen hx with
    | finite s m e _ _ hcanonical he hrank =>
      have hcode := code_lt_greatest hcanonical he
      rw [hrank]
      cases s <;> simp only [Sign.apply] <;> omega
    | infinite s o hside ho _ hrank =>
      rw [hrank]
      cases s with
      | positive => decide
      | negative =>
        rw [hside, Option.some.injEq, Option.some.injEq] at h
        rcases h with rfl | rfl <;> cases ho
  · rintro ⟨hx, hrank⟩
    cases seen hx with
    | finite s m e hside => exact .inl hside
    | infinite s o hside ho _ hinfinite =>
      cases s with
      | negative => exact absurd hrank (by rw [hinfinite]; exact lt_irrefl _)
      | positive =>
        rw [hside]
        cases o with
        | gt => exact .inr rfl
        | lt | eq => cases ho

end Places

namespace Doubles

section Nearest

/-- What is unpacked is packed to a number again, unless it is NaN. -/
theorem isNumber_packed {u : UnpackedFloat} (hu : u ≠ .notANumber) : IsNumber (packed u) := by
  cases u with
  | notANumber => exact absurd rfl hu
  | infinity s => exact (packed_infinity (u := .infinity s) rfl).1
  | zero s => exact (packed_zero s).1
  | finite s m e hm =>
    -- The exponent field of a finite double is less than that of the infinities.
    have hfields : UnpackedFloat.pack Format.binary64 (.finite s m e hm) =
        UnpackedFloat.pack Format.binary64 (.infinity s) ∨
        ∃ (k : BitVec 11) (f : BitVec 52), UnpackedFloat.pack Format.binary64 (.finite s m e hm) =
          UnpackedFloat.packComponents Format.binary64 s k f ∧ k.toNat ≠ 2047 := by
      have hbits : Format.binary64.exponentBits = 11 := rfl
      unfold UnpackedFloat.pack
      dsimp only
      generalize (e + (Format.binary64.exponentBias : ℤ) +
        (Format.binary64.mantissaBitsWithoutImplicit : ℤ)).toNat = biased
      by_cases hover : 2 ^ Format.binary64.exponentBits ≤ biased + 1
      · exact .inl (if_pos hover)
      · rw [if_neg hover]
        refine .inr ?_
        rw [hbits] at hover
        split
        · refine ⟨BitVec.ofNat 11 biased, _, rfl, ?_⟩
          rw [BitVec.toNat_ofNat]
          omega
        · exact ⟨0#11, _, rfl, by decide⟩
    rcases hfields with hinfinite | ⟨k, f, hpack, hk⟩
    · exact (packed_infinity hinfinite).1
    · rw [IsNumber, (packed_components hpack).1]
      exact decode_ne_notANumber fun h => absurd h hk

theorem round_ne_notANumber (s : Sign) (m : ℕ) (e : ℤ) (a : Accuracy) :
    UnpackedFloat.roundWithAccuracy Format.binary64 s m e a ≠ .notANumber := by
  show dite _ _ _ ≠ _
  split <;> exact UnpackedFloat.noConfusion

/-- A product with a finite double is a number. -/
theorem mul_ne_notANumber {u : UnpackedFloat} (hu : u ≠ .notANumber) (s : Sign) (m : ℕ) (e : ℤ)
    (hm : 0 < m) : UnpackedFloat.mul Format.binary64 u (.finite s m e hm) ≠ .notANumber := by
  cases u with
  | notANumber => exact absurd rfl hu
  | infinity t => exact UnpackedFloat.noConfusion
  | zero t => exact UnpackedFloat.noConfusion
  | finite t n f hn => exact round_ne_notANumber _ _ _ _

/-- A natural number is rounded to a number. -/
theorem isNumber_ofScientific (n : ℕ) : IsNumber (Float.ofScientific n false 0) := by
  have hinteger : UnpackedFloat.ofUInt64 Format.binary64 n.toUInt64 ≠ .notANumber := by
    unfold UnpackedFloat.ofUInt64 UnpackedFloat.ofNat UnpackedFloat.ofInt UnpackedFloat.normalize
    split
    · exact round_ne_notANumber _ _ _ _
    · exact UnpackedFloat.noConfusion
    · exact round_ne_notANumber _ _ _ _
  have hscientific : UnpackedFloat.ofScientific Format.binary64 n 0 ≠ .notANumber := by
    unfold UnpackedFloat.ofScientific
    by_cases hn : n = 0
    · rw [dif_pos hn]
      exact UnpackedFloat.noConfusion
    · have hbits : (0 : ℤ) < 2 ^ Format.binary64.exponentBits := by decide
      rw [dif_neg hn, if_neg (by omega), if_neg (by omega), if_pos le_rfl]
      exact mul_ne_notANumber UnpackedFloat.noConfusion _ _ _ _
  have hone : ∃ m e hm, Float.exactlyRepresentablePowersOfTen[0].toModel.unpack =
      .finite .positive m e hm := ⟨_, _, _, rfl⟩
  obtain ⟨m, e, hm, hone⟩ := hone
  unfold Float.ofScientific
  split
  · refine isNumber_packed ?_
    show UnpackedFloat.mul Format.binary64 _ _ ≠ _
    rw [hone]
    exact mul_ne_notANumber (isNumber_packed hinteger) _ _ _ _
  · exact isNumber_packed hscientific

/-- A double that is neither NaN nor infinite has its negation among these, too. -/
theorem neg_finite {x : Float} (hx : IsNumber x) (hfinite : x.isInf = false) :
    IsNumber (-x) ∧ -greatest < rank (-x) := by
  have hneg : -x = packed x.toModel.unpack.neg := rfl
  have hinf : x.toModel.unpack.isInf = false := hfinite
  rw [hneg]
  cases kind x with
  | nan h => exact absurd h hx
  | infinity s h =>
    rw [h] at hinf
    cases hinf
  | zero s h =>
    obtain ⟨hnumber, hrank⟩ := packed_zero (-s)
    rw [h]
    refine ⟨hnumber, ?_⟩
    show _ < rank (packed (.zero (-s)))
    rw [hrank]
    decide
  | finite s m e hm h hcanonical he =>
    have hcode := code_lt_greatest hcanonical he
    have hrank := rank_packed_finite (-s) hm hcanonical he
    rw [h]
    refine ⟨(packed_finite (-s) hm hcanonical).1, ?_⟩
    show _ < rank (packed (.finite (-s) m _ hm))
    rw [hrank]
    generalize -s = t
    cases t <;> simp only [Sign.apply] <;> omega

/-- The nearest double of an integer is a time. -/
theorem isTime_roundInt {n : ℤ} {y : Float} (hy : Number.roundInt n = .ok y) :
    IsNumber y ∧ -greatest < rank y := by
  have hnumber := isNumber_ofScientific n.natAbs
  by_cases hn : n < 0
  · unfold Number.roundInt at hy
    dsimp only at hy
    split at hy
    · cases hy
    · rename_i hfinite
      cases hy
      exact neg_finite hnumber (Bool.eq_false_iff.2 hfinite)
  · refine ⟨?_, lt_of_lt_of_le (by decide) (rank_roundInt (Int.not_lt.1 hn) hy)⟩
    unfold Number.roundInt at hy
    dsimp only at hy
    split at hy
    · cases hy
    · cases hy
      exact hnumber

end Nearest

end Doubles

/-- An integer is rounded before it is added to a double. -/
theorem Number.float_add_int (x : Float) (n : ℤ) :
    (Number.float x).add (.int n) = Number.roundInt n >>= fun y => .ok (.float (x + y)) := rfl

namespace TimeDomain

variable {now delay due : Number}

/-- A double and a delay that is not negative are added to a time that is not before it. -/
theorem place_le_add_double {x y : Float}
    (hx : (Number.float x).side = some .eq ∨ (Number.float x).side = some .gt)
    (hy : Doubles.IsNumber y) (hpositive : 0 ≤ Doubles.rank y) :
    ((Number.float (x + y)).side = some .eq ∨ (Number.float (x + y)).side = some .gt) ∧
      (Number.float x).place ≤ (Number.float (x + y)).place := by
  obtain ⟨hnumber, hleast⟩ := Doubles.side_iff.1 hx
  obtain ⟨hsum, hle⟩ := Doubles.rank_le_add hnumber hleast hy hpositive
  have hside := Doubles.side_iff.2 ⟨hsum, hleast.trans_le hle⟩
  exact ⟨hside, (Doubles.place_le_iff hnumber hsum (Number.placed hx) (Number.placed hside)).2 hle⟩

/-- A delay that is not NaN and has a nearest double leads on from a double. -/
theorem place_le_add_float {x : Float}
    (hx : (Number.float x).side = some .eq ∨ (Number.float x).side = some .gt)
    (hnumber : delay.side ≠ none) (hpositive : delay.less (.int 0) = false)
    (hdue : (Number.float x).add delay = .ok due) :
    (due.side = some .eq ∨ due.side = some .gt) ∧ (Number.float x).place ≤ due.place := by
  cases hnearest : delay.toFloat with
  | error fault =>
    cases delay with
    | float y => cases hnearest
    | int n =>
      rw [Number.float_add_int, show Number.roundInt n = _ from hnearest] at hdue
      cases hdue
  | ok y =>
    obtain rfl : .float (x + y) = due := Except.ok.inj ((Number.float_add hnearest x).symm.trans hdue)
    have hy : Doubles.IsNumber y := by
      cases delay with
      | int n => exact (Doubles.isTime_roundInt hnearest).1
      | float z =>
        cases hnearest
        obtain ⟨o, ho⟩ := Option.ne_none_iff_exists'.1 hnumber
        exact Doubles.isNumber_of_side ho
    exact place_le_add_double hx hy (Doubles.rank_delay hnearest hy hpositive)

/-- The integers are times and delays between them. -/
theorem place_le_add_int {m n : ℤ} (hpositive : (Number.int n).less (.int 0) = false)
    (hdue : (Number.int m).add (.int n) = .ok due) :
    (due.side = some .eq ∨ due.side = some .gt) ∧ (Number.int m).place ≤ due.place := by
  rw [Number.less_int, decide_eq_false_iff_not, Int.not_lt] at hpositive
  obtain rfl : .int (m + n) = due := Except.ok.inj hdue
  refine ⟨.inl rfl, ?_⟩
  rw [Number.place_int, Number.place_int, WithTop.coe_le_coe]
  exact Int.mul_le_mul_of_nonneg_right (Int.le_add_of_nonneg_right hpositive) (Int.natCast_nonneg _)

/-- Numbers are times, but for NaN and the least infinity, and integers are delays from each of them. -/
def numbers : TimeDomain (WithTop ℤ) where
  Mem n := n.side = some .eq ∨ n.side = some .gt
  Delay d := ∃ n, d = .int n
  rank := Number.place
  less ha hb := (Number.placed ha).less_iff (Number.placed hb)
  equal ha hb := (Number.placed ha).equal_iff (Number.placed hb)
  add {now delay due} hnow hdelay hpositive hdue := by
    obtain ⟨n, rfl⟩ := hdelay
    cases now with
    | int m => exact place_le_add_int hpositive hdue
    | float x => exact place_le_add_float hnow (by exact Option.some_ne_none _) hpositive hdue

theorem mem_finite (h : now.side = some .eq) : numbers.Mem now := .inl h

end TimeDomain

end AlgebraicEffects
