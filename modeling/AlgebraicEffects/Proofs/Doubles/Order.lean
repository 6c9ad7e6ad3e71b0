import AlgebraicEffects.Proofs.Doubles.Rounding

/-!
The order of doubles.

The bits of a double, with the sign in front, are its place among all doubles (`rank`). What is not
NaN is compared by its place: infinities, zeros and finite doubles alike (`compare?_eq`).
-/

set_option autoImplicit false

namespace AlgebraicEffects

open Float.Model (UnpackedFloat Format)
open Float.Model.UnpackedFloat (Sign)

namespace Doubles

theorem toNat_unpackExponent (b : BitVec Format.binary64.numBits) :
    (UnpackedFloat.unpackExponent b).toNat = b.toNat / 2 ^ 52 % 2 ^ 11 := by
  unfold UnpackedFloat.unpackExponent
  rw [BitVec.toNat_cast, BitVec.extractLsb_toNat, Nat.shiftRight_eq_div_pow]
  rfl

theorem toNat_unpackMantissa (b : BitVec Format.binary64.numBits) :
    (UnpackedFloat.unpackMantissa b).toNat = b.toNat % 2 ^ 52 := by
  unfold UnpackedFloat.unpackMantissa
  rw [BitVec.toNat_cast, BitVec.extractLsb_toNat, Nat.shiftRight_eq_div_pow]
  simp

theorem toNat_unpackSign (b : BitVec Format.binary64.numBits) :
    (UnpackedFloat.unpackSign b).toNat = b.toNat / 2 ^ 63 % 2 := by
  unfold UnpackedFloat.unpackSign
  rw [BitVec.toNat_cast, BitVec.extractLsb_toNat, Nat.shiftRight_eq_div_pow]
  rfl

theorem toNat_packComponents (s : Sign) (e : BitVec 11) (m : BitVec 52) :
    (UnpackedFloat.packComponents Format.binary64 s e m).toNat =
      s.toBitVec.toNat * 2 ^ 63 + e.toNat * 2 ^ 52 + m.toNat := by
  unfold UnpackedFloat.packComponents
  rw [BitVec.toNat_append, BitVec.toNat_append, ← Nat.shiftLeft_add_eq_or_of_lt m.isLt,
    ← Nat.shiftLeft_add_eq_or_of_lt e.isLt, Nat.shiftLeft_eq, Nat.shiftLeft_eq]
  ring

/-- The place of the infinities. -/
def greatest : Nat := 2047 * 2 ^ 52

/-- The place of a double among all doubles, below zero for negative ones. -/
def rank (x : Float) : Int :=
  if x.toBits.toNat / 2 ^ 63 = 1 then -(x.toBits.toNat % 2 ^ 63 : Nat) else x.toBits.toNat % 2 ^ 63

/-- What a double is, its place, and its exact value. -/
inductive Kind (x : Float) : Prop where
  | nan : x.toModel.unpack = .notANumber → Kind x
  | infinity (s : Sign) : x.toModel.unpack = .infinity s → rank x = s.apply greatest →
      Scaled.ofFloat? x = none → Kind x
  | zero (s : Sign) : x.toModel.unpack = .zero s → rank x = 0 →
      Scaled.ofFloat? x = some ⟨0, -1074⟩ → Kind x
  | finite (s : Sign) (m e : Nat) (h : 0 < m) :
      x.toModel.unpack = .finite s m ((e : Int) - 1074) h → Canonical m e → e ≤ 2045 →
      rank x = s.apply (code m e) → Scaled.ofFloat? x = some ⟨s.apply m, (e : Int) - 1074⟩ → Kind x

/-- The bits of a double are its sign, its exponent and its fraction. -/
theorem bits_eq {n : Nat} (hn : n < 2 ^ 64) :
    n % 2 ^ 63 = n / 2 ^ 52 % 2 ^ 11 * 2 ^ 52 + n % 2 ^ 52 ∧ (n / 2 ^ 63 = 0 ∨ n / 2 ^ 63 = 1) := by
  omega

/-- The double of a sign, an exponent field and a fraction. -/
def decode (s : Sign) (e f : Nat) : UnpackedFloat :=
  if e = 2047 then if f = 0 then .infinity s else .notANumber
  else if e = 0 then
    if h : f = 0 then .zero s else .finite s f (-1074) (Nat.pos_of_ne_zero h)
  else .finite s (f + 2 ^ 52) ((e : Int) - 1075) (Nat.lt_add_left f (Nat.two_pow_pos 52))

theorem finite_congr {s : Sign} {m n : Nat} {e f : Int} (hm : m = n) (he : e = f) (h : 0 < m)
    (g : 0 < n) : UnpackedFloat.finite s m e h = .finite s n f g := by
  subst hm he
  rfl

theorem unpack_eq (b : BitVec Format.binary64.numBits) :
    UnpackedFloat.unpack Format.binary64 b =
      decode (Sign.ofBitVec (UnpackedFloat.unpackSign b)) (b.toNat / 2 ^ 52 % 2 ^ 11)
        (b.toNat % 2 ^ 52) := by
  rw [← toNat_unpackExponent, ← toNat_unpackMantissa]
  have hones (e : BitVec 11) : e = -1#11 ↔ e.toNat = 2047 := by
    rw [← BitVec.toNat_inj]
    rfl
  have hnull {k : Nat} (v : BitVec k) : v = 0#k ↔ v.toNat = 0 := by
    rw [← BitVec.toNat_inj, BitVec.toNat_ofNat, Nat.zero_mod]
  unfold UnpackedFloat.unpack decode
  dsimp only
  have hbias : ((Format.binary64.exponentBias : Int) + (52 : Nat)) = 1075 := by decide
  by_cases hmost : UnpackedFloat.unpackExponent b = -1#11
  · rw [if_pos hmost, if_pos ((hones _).1 hmost)]
    by_cases hf : UnpackedFloat.unpackMantissa b = 0#52
    · rw [if_pos hf, if_pos ((hnull _).1 hf)]
    · rw [if_neg hf, if_neg (mt (hnull _).2 hf)]
  · rw [if_neg hmost, if_neg (mt (hones _).2 hmost)]
    by_cases hleast : UnpackedFloat.unpackExponent b = 0#11
    · rw [if_pos hleast, if_pos ((hnull _).1 hleast)]
      by_cases hf : UnpackedFloat.unpackMantissa b = 0#52
      · rw [dif_pos hf, dif_pos ((hnull _).1 hf)]
      · rw [dif_neg hf, dif_neg (mt (hnull _).2 hf)]
        refine finite_congr rfl ?_ _ _
        rw [hbias, (hnull _).1 hleast]
        rfl
    · rw [if_neg hleast, if_neg (mt (hnull _).2 hleast)]
      refine finite_congr ?_ ?_ _ _
      · rw [BitVec.toNat_append, ← Nat.shiftLeft_add_eq_or_of_lt (BitVec.isLt _), Nat.shiftLeft_eq,
          Nat.add_comm]
        rfl
      · rw [hbias]

/-- The sign, the exponent field and the fraction of a double say all about it. -/
theorem exists_fields (x : Float) : ∃ (s : Sign) (e f : Nat), f < 2 ^ 52 ∧ e < 2 ^ 11 ∧
    x.toModel.unpack = decode s e f ∧ rank x = s.apply (e * 2 ^ 52 + f : Nat) ∧
    Scaled.ofFloat? x =
      if e = 2047 then none else if e = 0 then some ⟨s.apply f, -1074⟩
      else some ⟨s.apply (f + 2 ^ 52 : Nat), (e : Int) - 1075⟩ := by
  obtain ⟨hsplit, hb⟩ := bits_eq x.toBits.toNat_lt
  have hsign : ∃ s : Sign, Sign.ofBitVec (@UnpackedFloat.unpackSign Format.binary64
      x.toBits.toBitVec) = s ∧ ∀ n : Int,
      (if x.toBits.toNat / 2 ^ 63 = 1 then -n else n) = s.apply n ∧
      (if x.toBits.toNat / 2 ^ 63 == 1 then -1 else 1 : Int) * n = s.apply n := by
    have hbit : (@UnpackedFloat.unpackSign Format.binary64 x.toBits.toBitVec).toNat =
        x.toBits.toNat / 2 ^ 63 % 2 := toNat_unpackSign x.toBits.toBitVec
    rcases hb with hb | hb
    · refine ⟨.positive, if_pos (BitVec.toNat_inj.1 (by rw [hbit, hb]; rfl)), fun n => ?_⟩
      rw [hb]
      exact ⟨rfl, Int.one_mul n⟩
    · have hnegative : @UnpackedFloat.unpackSign Format.binary64 x.toBits.toBitVec ≠ 0#1 := by
        intro h
        rw [h, hb] at hbit
        cases hbit
      refine ⟨.negative, if_neg hnegative, fun n => ?_⟩
      rw [hb]
      exact ⟨rfl, Int.neg_one_mul n⟩
  obtain ⟨s, hs, happly⟩ := hsign
  refine ⟨s, x.toBits.toNat / 2 ^ 52 % 2 ^ 11, x.toBits.toNat % 2 ^ 52, Nat.mod_lt _ (Nat.two_pow_pos _),
    Nat.mod_lt _ (Nat.two_pow_pos _), ?_, ?_, ?_⟩
  · rw [← hs]
    exact unpack_eq x.toBits.toBitVec
  · rw [← (happly _).1, ← hsplit]
    rfl
  · rw [← (happly _).2, ← (happly _).2]
    rfl

theorem kind (x : Float) : Kind x := by
  obtain ⟨s, e, f, hf, he, hunpack, hrank, hscaled⟩ := exists_fields x
  unfold decode at hunpack
  by_cases hmost : e = 2047
  · subst hmost
    rw [if_pos rfl] at hunpack hscaled
    by_cases hzero : f = 0
    · subst hzero
      exact .infinity s hunpack hrank hscaled
    · rw [if_neg hzero] at hunpack
      exact .nan hunpack
  · rw [if_neg hmost] at hunpack hscaled
    by_cases hleast : e = 0
    · subst hleast
      rw [if_pos rfl] at hunpack hscaled
      by_cases hzero : f = 0
      · subst hzero
        rw [dif_pos rfl] at hunpack
        have hnothing : s.apply ((0 : Nat) : Int) = 0 := by cases s <;> rfl
        rw [hnothing] at hscaled
        exact .zero s hunpack (hrank.trans hnothing) hscaled
      · rw [dif_neg hzero] at hunpack
        exact .finite s f 0 _ hunpack ⟨by omega, .inr rfl⟩ (by omega) hrank
          hscaled
    · rw [if_neg hleast] at hunpack hscaled
      have hexponent : (e : Int) - 1075 = ((e - 1 : Nat) : Int) - 1074 := by omega
      rw [hexponent] at hscaled
      refine .finite s (f + 2 ^ 52) (e - 1) (by omega) (hunpack.trans (finite_congr rfl hexponent _ _))
        ⟨by omega, .inl (by omega)⟩ (by omega) (hrank.trans ?_) hscaled
      rw [code, show (e - 1) * 2 ^ 52 + (f + 2 ^ 52) = e * 2 ^ 52 + f by omega]

/-- A double other than NaN. -/
def IsNumber (x : Float) : Prop := x.toModel.unpack ≠ .notANumber

theorem isNumber_of_isNaN {x : Float} (h : x.isNaN = false) : IsNumber x := by
  intro hunpack
  have hnan : x.toModel.unpack.isNaN = false := h
  rw [hunpack] at hnan
  cases hnan

theorem compare_congr {a b c d : Int} (hlt : a < b ↔ c < d) (hgt : b < a ↔ d < c) :
    Ord.compare a b = Ord.compare c d := by
  rcases lt_trichotomy a b with h | rfl | h
  · rw [compare_lt_iff_lt.2 h, compare_lt_iff_lt.2 (hlt.1 h)]
  · have hcd : c = d := le_antisymm (Int.not_lt.1 (mt hgt.2 (Int.lt_irrefl a)))
      (Int.not_lt.1 (mt hlt.2 (Int.lt_irrefl a)))
    rw [compare_eq_iff_eq.2 rfl, compare_eq_iff_eq.2 hcd]
  · rw [compare_gt_iff_gt.2 h, compare_gt_iff_gt.2 (hgt.1 h)]

theorem compare_scaled (a b : Int) (e f : Nat) :
    Scaled.compare ⟨a, (e : Int) - 1074⟩ ⟨b, (f : Int) - 1074⟩ =
      Ord.compare (a * (2 ^ e : Nat)) (b * (2 ^ f : Nat)) := by
  have hunit (e f : Nat) : ((e : Int) - 1074 - min ((e : Int) - 1074) ((f : Int) - 1074)).toNat =
      e - min e f := by omega
  have hscale (a : Int) (e f : Nat) :
      a * (2 ^ e : Nat) = a * (2 ^ (e - min e f) : Nat) * (2 ^ min e f : Nat) := by
    rw [Int.mul_assoc, ← Int.natCast_mul, ← Nat.pow_add, Nat.sub_add_cancel (Nat.min_le_left e f)]
  unfold Scaled.compare Scaled.atUnit
  dsimp only
  rw [hunit, min_comm ((e : Int) - 1074), hunit, hscale a e f, hscale b f e, Nat.min_comm f e]
  have hpos : (0 : Int) < (2 ^ min e f : Nat) := Int.natCast_pos.2 (Nat.two_pow_pos _)
  exact compare_congr (Int.mul_lt_mul_right hpos).symm (Int.mul_lt_mul_right hpos).symm

/-- Signs are put in front of places as in front of numbers. -/
theorem apply_lt_apply {s t : Sign} {a b c d : Nat} (hlt : a < b ↔ c < d) (hgt : b < a ↔ d < c)
    (ha : a = 0 ↔ c = 0) (hb : b = 0 ↔ d = 0) :
    s.apply (a : Int) < t.apply (b : Int) ↔ s.apply (c : Int) < t.apply (d : Int) := by
  cases s <;> cases t <;> simp only [Sign.apply] <;> omega

theorem apply_mul (s : Sign) (m n : Nat) : s.apply m * (n : Int) = s.apply (m * n : Nat) := by
  cases s
  · exact Int.neg_mul _ _
  · rfl

/-- Finite doubles are compared by their places. -/
theorem compare_canonical {s t : Sign} {m e n f : Nat} (h : Canonical m e) (g : Canonical n f) :
    Scaled.compare ⟨s.apply m, (e : Int) - 1074⟩ ⟨t.apply n, (f : Int) - 1074⟩ =
      Ord.compare (s.apply (code m e)) (t.apply (code n f)) := by
  rw [compare_scaled, apply_mul, apply_mul]
  exact compare_congr
    (apply_lt_apply (h.code_lt_iff g).symm (g.code_lt_iff h).symm h.code_eq_zero_iff.symm
      g.code_eq_zero_iff.symm)
    (apply_lt_apply (g.code_lt_iff h).symm (h.code_lt_iff g).symm g.code_eq_zero_iff.symm
      h.code_eq_zero_iff.symm)

/-- What comparisons see of a double: an infinity, or a finite number. -/
inductive Seen (x : Float) : Prop where
  | infinite (s : Sign) (o : Ordering) : (Number.float x).side = some o →
      Number.compare?.sideRank o = s.apply 1 → Scaled.ofFloat? x = none →
      rank x = s.apply greatest → Seen x
  | finite (s : Sign) (m e : Nat) : (Number.float x).side = some .eq →
      Scaled.ofFloat? x = some ⟨s.apply m, (e : Int) - 1074⟩ → Canonical m e → e ≤ 2045 →
      rank x = s.apply (code m e) → Seen x

theorem unpack_zero : (0 : Float).toModel.unpack = .zero .positive := by
  rfl

theorem isNumber_zero : IsNumber 0 := isNumber_of_isNaN rfl

theorem seen {x : Float} (hx : IsNumber x) : Seen x := by
  have hside : (Number.float x).side =
      if x.toModel.unpack.isNaN then none
      else if x.toModel.unpack.isInf then some (if x < 0 then .lt else .gt) else some .eq := rfl
  cases kind x with
  | nan h => exact absurd h hx
  | infinity s h hrank hscaled =>
    have hnegative : x < 0 ↔ (UnpackedFloat.infinity s).lt (.zero .positive) = true := by
      rw [← h, ← unpack_zero]
      exact decide_eq_true_iff
    have hinfinite : (Number.float x).side = some (if x < 0 then .lt else .gt) := by
      rw [hside, h]
      rfl
    cases s with
    | negative =>
      exact .infinite .negative .lt (hinfinite.trans (by rw [if_pos (hnegative.2 rfl)])) rfl hscaled
        hrank
    | positive =>
      refine .infinite .positive .gt (hinfinite.trans ?_) rfl hscaled hrank
      rw [if_neg (mt hnegative.1 (Bool.noConfusion ·))]
  | zero s h hrank hscaled =>
    refine .finite s 0 0 ?_ (hscaled.trans ?_) ⟨by omega, .inr rfl⟩ (by omega) (hrank.trans ?_)
    · rw [hside, h]
      rfl
    · cases s <;> rfl
    · cases s <;> rfl
  | finite s m e hm h hcanonical he hrank hscaled =>
    refine .finite s m e ?_ hscaled hcanonical he hrank
    rw [hside, h]
    rfl

theorem code_lt_greatest {m e : Nat} (h : Canonical m e) (he : e ≤ 2045) : code m e < greatest := by
  have hm := h.lt
  unfold code greatest
  omega

theorem compare?_eq {x y : Float} (hx : IsNumber x) (hy : IsNumber y) :
    (Number.float x).compare? (.float y) = some (Ord.compare (rank x) (rank y)) := by
  have hless {s t : Sign} {c : Nat} (hc : c < greatest) :
      (s.apply 1 < 0 ↔ s.apply (greatest : Int) < t.apply (c : Int)) ∧
        (0 < s.apply 1 ↔ t.apply (c : Int) < s.apply (greatest : Int)) := by
    cases s <;> cases t <;> simp only [Sign.apply] <;> omega
  have hamong : Number.compare?.sideRank .eq = 0 := rfl
  unfold Number.compare? Number.scaled?
  dsimp only
  cases seen hx with
  | infinite s o hs ho hxs hrx =>
    cases seen hy with
    | infinite t p ht hp hyt hry =>
      rw [hs, ht, hxs, hyt, hrx, hry]
      dsimp only
      rw [ho, hp]
      cases s <;> cases t <;> rfl
    | finite t n f ht hyt hg hf hry =>
      rw [hs, ht, hxs, hyt, hrx, hry]
      dsimp only
      rw [ho, hamong]
      obtain ⟨hlt, hgt⟩ := hless (s := s) (t := t) (code_lt_greatest hg hf)
      exact congrArg some (compare_congr hlt hgt)
  | finite s m e hs hxs hh he hrx =>
    cases seen hy with
    | infinite t p ht hp hyt hry =>
      rw [hs, ht, hxs, hyt, hrx, hry]
      dsimp only
      rw [hp, hamong]
      obtain ⟨hlt, hgt⟩ := hless (s := t) (t := s) (code_lt_greatest hh he)
      exact congrArg some (compare_congr hgt hlt)
    | finite t n f ht hyt hg hf hry =>
      rw [hs, ht, hxs, hyt, hrx, hry, ← compare_canonical hh hg]

/-- The doubles below zero are those that are less. -/
theorem less_zero_iff {y : Float} (hy : IsNumber y) :
    (Number.float y).less (.int 0) = true ↔ rank y < 0 := by
  have hzero : Number.scaled? (.int 0) = some ⟨0, ((1074 : Nat) : Int) - 1074⟩ := rfl
  have hamong : (Number.int 0).side = some .eq := rfl
  rw [Number.less, beq_iff_eq]
  unfold Number.compare?
  rw [hzero, hamong]
  unfold Number.scaled?
  dsimp only
  cases seen hy with
  | infinite s o hs ho hys hrank =>
    rw [hs, hys, hrank]
    dsimp only
    rw [ho]
    cases s with
    | negative => exact iff_of_true rfl (by decide)
    | positive => exact iff_of_false (by decide) (by decide)
  | finite s m e hs hys hcanonical he hrank =>
    rw [hs, hys, hrank]
    dsimp only
    rw [compare_scaled, Int.zero_mul, apply_mul, Option.some.injEq, compare_lt_iff_lt]
    have hvalue := hcanonical.code_eq_zero_iff
    exact apply_lt_apply (t := .positive) (b := 0) (d := 0) (by omega) (by omega) hvalue.symm Iff.rfl

end Doubles

end AlgebraicEffects
