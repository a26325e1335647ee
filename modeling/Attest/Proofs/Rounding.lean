import Attest.Time
import Mathlib.Algebra.Order.Floor.Ring
import Mathlib.Data.Int.Log
import Mathlib.Data.Rat.Floor
import Mathlib.Tactic.FieldSimp
import Mathlib.Tactic.Linarith
import Mathlib.Tactic.NormNum
import Mathlib.Tactic.Positivity
import Mathlib.Tactic.Ring

/-! Rounding to doubles keeps the order of numbers, and numbers that a double can hold. -/

namespace Attest

namespace Binary64

/-! ### Rounding to an integer -/

/-- The nearest integer, a half to the even one. -/
def nearestEven (x : Rat) : Int :=
  if 2 * (x - ⌊x⌋) < 1 then ⌊x⌋
  else if 1 < 2 * (x - ⌊x⌋) then ⌊x⌋ + 1
  else if ⌊x⌋ % 2 = 0 then ⌊x⌋ else ⌊x⌋ + 1

theorem floor_le_nearestEven (x : Rat) : ⌊x⌋ ≤ nearestEven x := by
  unfold nearestEven
  split_ifs <;> omega

theorem nearestEven_le_floor_add_one (x : Rat) : nearestEven x ≤ ⌊x⌋ + 1 := by
  unfold nearestEven
  split_ifs <;> omega

theorem nearestEven_mono {x y : Rat} (h : x ≤ y) : nearestEven x ≤ nearestEven y := by
  obtain hlt | heq := (Int.floor_mono h).lt_or_eq
  · have hx := nearestEven_le_floor_add_one x
    have hy := floor_le_nearestEven y
    omega
  · unfold nearestEven
    rw [heq]
    split_ifs <;> first | omega | linarith

theorem nearestEven_intCast (n : Int) : nearestEven (n : Rat) = n := by
  simp [nearestEven]

theorem roundQuotient_eq (num den : Nat) (hden : 0 < den) :
    (roundQuotient num den : Int) = nearestEven ((num : Rat) / den) := by
  have hfloor : ⌊(num : Rat) / den⌋ = ((num / den : Nat) : Int) := by
    rw [Rat.floor_natCast_div_natCast]
    rfl
  have hpos : (0 : Rat) < den := by exact_mod_cast hden
  have hrest : (num : Rat) / den - ((num / den : Nat) : Rat) = ((num % den : Nat) : Rat) / den := by
    have hsum : (num : Rat) = ((num / den : Nat) : Rat) * den + ((num % den : Nat) : Rat) := by
      exact_mod_cast (Nat.div_add_mod' num den).symm
    rw [sub_eq_iff_eq_add, div_eq_iff hpos.ne', add_mul, div_mul_cancel₀ _ hpos.ne', add_comm]
    exact hsum
  unfold nearestEven roundQuotient
  rw [hfloor, Int.cast_natCast, hrest]
  have hlt : 2 * (((num % den : Nat) : Rat) / den) < 1 ↔ 2 * (num % den) < den := by
    rw [← mul_div_assoc, div_lt_one hpos]
    exact_mod_cast Iff.rfl
  have hgt : 1 < 2 * (((num % den : Nat) : Rat) / den) ↔ den < 2 * (num % den) := by
    rw [← mul_div_assoc, one_lt_div hpos]
    exact_mod_cast Iff.rfl
  simp only [hlt, hgt]
  split_ifs <;> omega

/-! ### The grid -/

theorem two_zpow_pos (e : Int) : (0 : Rat) < 2 ^ e := zpow_pos (by norm_num) e

theorem scale_den_pos (num : Nat) {den : Nat} (hden : 0 < den) (e : Int) :
    0 < (scale num den e).2 := by
  unfold scale
  split
  · exact Nat.mul_pos hden (Nat.pow_pos (by decide))
  · exact hden

theorem scale_eq (num den : Nat) (e : Int) :
    ((scale num den e).1 : Rat) / (scale num den e).2 = (num : Rat) / den / 2 ^ e := by
  unfold scale
  split
  · rename_i he
    obtain ⟨n, rfl⟩ := Int.eq_ofNat_of_zero_le he
    simp [div_div]
  · rename_i he
    obtain ⟨n, hn⟩ : ∃ n : Nat, e = -(n : Int) := ⟨(-e).toNat, by omega⟩
    subst hn
    simp [mul_div_right_comm]

/-- The exponent of the grid that a positive number is rounded on. -/
def gridExponent (x : Rat) : Int := max (-1074) (Int.log 2 x - 52)

theorem log2_bounds {n : Nat} (hn : 0 < n) :
    (2 : Rat) ^ (n.log2 : Int) ≤ n ∧ (n : Rat) < 2 ^ ((n.log2 : Int) + 1) := by
  constructor
  · rw [zpow_natCast]
    exact_mod_cast Nat.log2_self_le hn.ne'
  · rw [zpow_add_one₀ (by norm_num), zpow_natCast, ← pow_succ]
    exact_mod_cast Nat.lt_log2_self

/-- The order of magnitude of a fraction is the difference of those of its parts, or one less. -/
theorem log_div_bounds {num den : Nat} (hnum : 0 < num) (hden : 0 < den) :
    (num.log2 : Int) - den.log2 - 1 ≤ Int.log 2 ((num : Rat) / den) ∧
      Int.log 2 ((num : Rat) / den) < num.log2 - den.log2 + 1 := by
  have hd : (0 : Rat) < den := by exact_mod_cast hden
  have hx : (0 : Rat) < num / den := div_pos (by exact_mod_cast hnum) hd
  obtain ⟨hn1, hn2⟩ := log2_bounds hnum
  obtain ⟨hd1, hd2⟩ := log2_bounds hden
  constructor
  · rw [← Int.zpow_le_iff_le_log (by decide) hx, le_div_iff₀ hd]
    calc
      ((2 : Nat) : Rat) ^ ((num.log2 : Int) - den.log2 - 1) * den
          ≤ 2 ^ ((num.log2 : Int) - den.log2 - 1) * 2 ^ ((den.log2 : Int) + 1) := by
        exact mul_le_mul_of_nonneg_left hd2.le (two_zpow_pos _).le
      _ = 2 ^ (num.log2 : Int) := by
        rw [← zpow_add₀ (by norm_num)]
        congr 1
        ring
      _ ≤ num := hn1
  · rw [← Int.lt_zpow_iff_log_lt (by decide) hx, div_lt_iff₀ hd]
    calc
      (num : Rat) < 2 ^ ((num.log2 : Int) + 1) := hn2
      _ = 2 ^ ((num.log2 : Int) - den.log2 + 1) * 2 ^ (den.log2 : Int) := by
        rw [← zpow_add₀ (by norm_num)]
        congr 1
        ring
      _ ≤ ((2 : Nat) : Rat) ^ ((num.log2 : Int) - den.log2 + 1) * den := by
        exact mul_le_mul_of_nonneg_left hd1 (two_zpow_pos _).le

theorem fittingExponent_eq {num den : Nat} (hnum : 0 < num) (hden : 0 < den) :
    fittingExponent num den = gridExponent ((num : Rat) / den) := by
  have hx : (0 : Rat) < num / den :=
    div_pos (by exact_mod_cast hnum) (by exact_mod_cast hden)
  obtain ⟨hlow, hhigh⟩ := log_div_bounds hnum hden
  generalize hguess : (num.log2 : Int) - den.log2 - precision = guess
  have hsum : (num.log2 : Int) - den.log2 = 53 + guess := by
    have : (precision : Int) = 53 := rfl
    omega
  -- The guess is right, or too small by one.
  have hsmall : Nat.pow 2 precision ≤ (scale num den guess).1 / (scale num den guess).2 ↔
      53 + guess ≤ Int.log 2 ((num : Rat) / den) := by
    have hpos := scale_den_pos num hden guess
    have hscale := scale_eq num den guess
    have hcast : (0 : Rat) < (scale num den guess).2 := by exact_mod_cast hpos
    rw [eq_div_iff (two_zpow_pos _).ne'] at hscale
    rw [Nat.le_div_iff_mul_le hpos, ← Int.zpow_le_iff_le_log (by decide) hx, ← hscale,
      Nat.cast_ofNat, zpow_add₀ (by norm_num), mul_le_mul_iff_left₀ (two_zpow_pos _),
      le_div_iff₀ hcast]
    exact_mod_cast Iff.rfl
  unfold fittingExponent gridExponent
  simp only [hguess, hsmall, leastExponent]
  split_ifs <;> omega

/-- A positive number is less than all steps of its grid together, and makes up half of them at least
unless its grid is the finest one. -/
theorem grid_bounds {x : Rat} (hx : 0 < x) :
    x / 2 ^ gridExponent x < 2 ^ (53 : Int) ∧
      (gridExponent x = -1074 ∨ 2 ^ (52 : Int) ≤ x / 2 ^ gridExponent x) := by
  have hlog := Int.lt_zpow_succ_log_self (b := 2) (by decide) x
  have hlow := Int.zpow_log_le_self (b := 2) (by decide) hx
  rw [Nat.cast_ofNat] at hlog hlow
  constructor
  · rw [div_lt_iff₀ (two_zpow_pos _), ← zpow_add₀ (by norm_num)]
    refine hlog.trans_le (zpow_le_zpow_right₀ (by norm_num) ?_)
    unfold gridExponent
    omega
  · by_cases hleast : gridExponent x = -1074
    · exact .inl hleast
    · right
      rw [le_div_iff₀ (two_zpow_pos _), ← zpow_add₀ (by norm_num)]
      refine le_trans (zpow_le_zpow_right₀ (by norm_num) ?_) hlow
      unfold gridExponent at hleast ⊢
      omega

theorem gridExponent_mono {x y : Rat} (hx : 0 < x) (h : x ≤ y) : gridExponent x ≤ gridExponent y := by
  have := Int.log_mono_right (b := 2) hx h
  unfold gridExponent
  omega

/-- A positive number rounded on its grid. -/
def rounded (x : Rat) : Rat := nearestEven (x / 2 ^ gridExponent x) * 2 ^ gridExponent x

theorem nearestEven_grid_le {x : Rat} (hx : 0 < x) : nearestEven (x / 2 ^ gridExponent x) ≤ 2 ^ 53 := by
  have h := nearestEven_mono (grid_bounds hx).1.le
  have hcast : (2 : Rat) ^ (53 : Int) = ((2 ^ 53 : Int) : Rat) := by norm_num
  rwa [hcast, nearestEven_intCast] at h

theorem le_nearestEven_grid {x : Rat} (h : 2 ^ (52 : Int) ≤ x / 2 ^ gridExponent x) :
    2 ^ 52 ≤ nearestEven (x / 2 ^ gridExponent x) := by
  have h := nearestEven_mono h
  have hcast : (2 : Rat) ^ (52 : Int) = ((2 ^ 52 : Int) : Rat) := by norm_num
  rwa [hcast, nearestEven_intCast] at h

theorem rounded_mono {x y : Rat} (hx : 0 < x) (h : x ≤ y) : rounded x ≤ rounded y := by
  obtain heq | hlt := (gridExponent_mono hx h).eq_or_lt
  · unfold rounded
    rw [heq]
    refine mul_le_mul_of_nonneg_right ?_ (two_zpow_pos _).le
    exact_mod_cast nearestEven_mono (div_le_div_of_nonneg_right h (two_zpow_pos _).le)
  · -- The greater number has a coarser grid, where it makes up more steps than the other one can.
    have hy : 2 ^ (52 : Int) ≤ y / 2 ^ gridExponent y := by
      refine (grid_bounds (hx.trans_le h)).2.resolve_left fun hleast => ?_
      unfold gridExponent at hlt hleast
      omega
    calc
      rounded x ≤ 2 ^ (53 : Int) * 2 ^ gridExponent x := by
        refine mul_le_mul_of_nonneg_right ?_ (two_zpow_pos _).le
        exact_mod_cast nearestEven_grid_le hx
      _ = 2 ^ (53 + gridExponent x) := (zpow_add₀ (by norm_num) _ _).symm
      _ ≤ 2 ^ (52 + gridExponent y) := zpow_le_zpow_right₀ (by norm_num) (by omega)
      _ = 2 ^ (52 : Int) * 2 ^ gridExponent y := zpow_add₀ (by norm_num) _ _
      _ ≤ rounded y := by
        refine mul_le_mul_of_nonneg_right ?_ (two_zpow_pos _).le
        exact_mod_cast le_nearestEven_grid hy

/-- What lies on a grid, with as many steps as a significand can hold, is not changed. -/
theorem rounded_eq_self {n : Int} {e : Int} (hpos : 0 < n) (hle : n ≤ 2 ^ 53) (he : -1074 ≤ e) :
    rounded ((n : Rat) * 2 ^ e) = n * 2 ^ e := by
  have hx : (0 : Rat) < n * 2 ^ e := mul_pos (by exact_mod_cast hpos) (two_zpow_pos e)
  obtain ⟨k, hk⟩ : ∃ k : Int, (n : Rat) * 2 ^ e / 2 ^ gridExponent (n * 2 ^ e) = k := by
    by_cases hgrid : gridExponent (n * 2 ^ e) ≤ e
    · refine ⟨n * 2 ^ (e - gridExponent (n * 2 ^ e)).toNat, ?_⟩
      rw [mul_div_assoc, ← zpow_sub₀ (by norm_num), Int.cast_mul, Int.cast_pow, Int.cast_ofNat,
        ← zpow_natCast, Int.toNat_of_nonneg (by omega)]
    · -- Only a significand that is a power of two itself needs a coarser grid.
      have hlog : e + 53 ≤ Int.log 2 ((n : Rat) * 2 ^ e) := by
        unfold gridExponent at hgrid
        omega
      rw [← Int.zpow_le_iff_le_log (by decide) hx, Nat.cast_ofNat, zpow_add₀ (by norm_num),
        mul_comm, mul_le_mul_iff_left₀ (two_zpow_pos e)] at hlog
      have hn : n = 2 ^ 53 := le_antisymm hle (by exact_mod_cast hlog)
      have hvalue : (n : Rat) * 2 ^ e = 2 ^ (53 + e) := by
        rw [hn, zpow_add₀ (by norm_num)]
        norm_num
      have hg : gridExponent ((n : Rat) * 2 ^ e) = e + 1 := by
        have : Int.log 2 ((2 : Rat) ^ (53 + e)) = 53 + e := by
          exact_mod_cast Int.log_zpow (R := Rat) (b := 2) (by decide) (53 + e)
        unfold gridExponent
        rw [hvalue, this]
        omega
      refine ⟨2 ^ 52, ?_⟩
      rw [hg, hvalue, ← zpow_sub₀ (by norm_num), show 53 + e - (e + 1) = 52 by ring]
      norm_num
  have hback : (n : Rat) * 2 ^ e = k * 2 ^ gridExponent (n * 2 ^ e) :=
    (div_eq_iff (two_zpow_pos _).ne').mp hk
  rw [rounded, hk, nearestEven_intCast, ← hback]

theorem nearestEven_grid_nonneg {x : Rat} (hx : 0 < x) :
    0 ≤ nearestEven (x / 2 ^ gridExponent x) := by
  have h := nearestEven_mono (div_pos hx (two_zpow_pos (gridExponent x))).le
  rwa [← Int.cast_zero, nearestEven_intCast] at h

theorem rounded_nonneg {x : Rat} (hx : 0 < x) : 0 ≤ rounded x :=
  mul_nonneg (by exact_mod_cast nearestEven_grid_nonneg hx) (two_zpow_pos _).le

theorem rounded_rounded {x : Rat} (hx : 0 < x) (h : 0 < rounded x) :
    rounded (rounded x) = rounded x := by
  refine rounded_eq_self ?_ (nearestEven_grid_le hx) (le_max_left _ _)
  exact_mod_cast pos_of_mul_pos_left h (two_zpow_pos (gridExponent x)).le

/-! ### Doubles -/

theorem toRat?_finite (negative : Bool) (m : Nat) (e : Int) :
    (finite negative m e).toRat? =
      some (if negative then -((m : Rat) * 2 ^ e) else (m : Rat) * 2 ^ e) := by
  have h := scale_eq m 1 (-e)
  simp only [toRat?, Rat.mkRat_eq_div]
  have hvalue : (((scale m 1 (-e)).1 : Int) : Rat) / (scale m 1 (-e)).2 = (m : Rat) * 2 ^ e := by
    rw [Int.cast_natCast, h]
    simp
  rw [hvalue]

/-- A double can be doubled exactly, unless that is too much. -/
theorem toRat?_double {x : Binary64} {r : Rat} (h : x.double.toRat? = some r) :
    ∃ q, x.toRat? = some q ∧ r = q + q := by
  cases x with
  | infinite negative => cases h
  | undefined => cases h
  | finite negative m e =>
    refine ⟨_, toRat?_finite negative m e, ?_⟩
    dsimp only [double] at h
    split_ifs at h
    · cases h
    · rw [toRat?_finite, Option.some.injEq] at h
      rw [← h, Nat.cast_mul, Nat.cast_ofNat]
      split_ifs <;> ring
    · rw [toRat?_finite, Option.some.injEq] at h
      rw [← h, zpow_add_one₀ (by norm_num)]
      split_ifs <;> ring

/-- A significand of full precision makes a number too great just when its exponent is. -/
theorem greatestExponent_lt_iff {m : Nat} {g : Int} (hm : m < 2 ^ 53)
    (hfull : g = -1074 ∨ 2 ^ 52 ≤ m) :
    greatestExponent < g ↔ (2 : Rat) ^ (1024 : Int) ≤ m * 2 ^ g := by
  unfold greatestExponent
  constructor
  · intro hgreat
    have hm : 2 ^ 52 ≤ m := hfull.resolve_left (by omega)
    calc
      (2 : Rat) ^ (1024 : Int) ≤ 2 ^ (52 + g) := zpow_le_zpow_right₀ (by norm_num) (by omega)
      _ = 2 ^ (52 : Int) * 2 ^ g := zpow_add₀ (by norm_num) _ _
      _ ≤ m * 2 ^ g := by
        refine mul_le_mul_of_nonneg_right ?_ (two_zpow_pos _).le
        exact_mod_cast hm
  · intro hbig
    by_contra hgreat
    apply not_lt.mpr hbig
    calc
      (m : Rat) * 2 ^ g < 2 ^ (53 : Int) * 2 ^ g := by
        refine mul_lt_mul_of_pos_right ?_ (two_zpow_pos _)
        exact_mod_cast hm
      _ = 2 ^ (53 + g) := (zpow_add₀ (by norm_num) _ _).symm
      _ ≤ 2 ^ (1024 : Int) := zpow_le_zpow_right₀ (by norm_num) (by omega)

/-- A number that rounds up to a power of two moves to the next exponent. -/
theorem carried_eq {m : Nat} (hcarry : m = Nat.pow 2 precision) (g : Int) :
    ((Nat.pow 2 (precision - 1) : Nat) : Rat) * 2 ^ (g + 1) = m * 2 ^ g := by
  rw [hcarry, zpow_add_one₀ (by norm_num)]
  norm_num [precision]
  ring

/-- Rounding to a double comes to rounding on the grid, unless that gives a number that is too great. -/
theorem toRat?_ofRatio (negative : Bool) {num den : Nat} (hnum : 0 < num) (hden : 0 < den) :
    (ofRatio negative num den).toRat? =
      if 2 ^ (1024 : Int) ≤ rounded ((num : Rat) / den) then none
      else some (if negative then -rounded ((num : Rat) / den) else rounded ((num : Rat) / den)) := by
  have hx : (0 : Rat) < num / den := div_pos (by exact_mod_cast hnum) (by exact_mod_cast hden)
  have hround := roundQuotient_eq (scale num den (gridExponent (num / den))).1
    (scale num den (gridExponent (num / den))).2 (scale_den_pos num hden _)
  rw [scale_eq] at hround
  have hle := nearestEven_grid_le hx
  have hfull := (grid_bounds hx).2.imp_right le_nearestEven_grid
  unfold ofRatio
  rw [if_neg hnum.ne', fittingExponent_eq hnum hden]
  simp only
  generalize roundQuotient (scale num den (gridExponent (num / den))).1
    (scale num den (gridExponent (num / den))).2 = m at hround ⊢
  have hrounded : rounded ((num : Rat) / den) = m * 2 ^ gridExponent ((num : Rat) / den) := by
    rw [rounded, ← hround, Int.cast_natCast]
  rw [← hround] at hle hfull
  rw [hrounded]
  generalize gridExponent ((num : Rat) / den) = g at hfull ⊢
  have hmost : m ≤ Nat.pow 2 precision := by exact_mod_cast hle
  -- A significand that is too long by now is a power of two, and is halved.
  by_cases hcarry : m = Nat.pow 2 precision
  · rw [if_pos hcarry, ← carried_eq hcarry]
    have hiff := greatestExponent_lt_iff (m := Nat.pow 2 (precision - 1)) (g := g + 1) (by decide)
      (.inr (by decide))
    by_cases hgreat : greatestExponent < g + 1
    · rw [if_pos hgreat, if_pos (hiff.mp hgreat)]
      rfl
    · rw [if_neg hgreat, if_neg fun hbig => hgreat (hiff.mpr hbig), toRat?_finite]
  · rw [if_neg hcarry]
    have hiff := greatestExponent_lt_iff (m := m) (g := g) (lt_of_le_of_ne hmost hcarry)
      (hfull.imp_right fun hm => by exact_mod_cast hm)
    by_cases hgreat : greatestExponent < g
    · rw [if_pos hgreat, if_pos (hiff.mp hgreat)]
      rfl
    · rw [if_neg hgreat, if_neg fun hbig => hgreat (hiff.mpr hbig), toRat?_finite]

end Binary64

/-! ### Times -/

namespace Seconds

open Binary64

theorem nearest_zero : nearest 0 = 0 := by
  decide +kernel

theorem nearest_of_ne_zero {q : Seconds} (hq : q ≠ 0) :
    nearest q =
      if 2 ^ (1024 : Int) ≤ rounded |q| then q
      else if q < 0 then -rounded |q| else rounded |q| := by
  have hnum : q.num ≠ 0 := Rat.num_ne_zero.mpr hq
  have hvalue : ((q.num.natAbs : Nat) : Rat) / q.den = |q| := by
    rw [Nat.cast_natAbs, Int.cast_abs, ← Nat.abs_cast, ← abs_div, Rat.num_div_den]
  have hround := toRat?_ofRatio (decide (q < 0)) (Int.natAbs_pos.mpr hnum) q.den_pos
  rw [hvalue] at hround
  rw [nearest, ofRat, hround]
  simp only [decide_eq_true_eq]
  split_ifs <;> rfl

theorem nearest_of_pos {q : Seconds} (hq : 0 < q) :
    nearest q = if 2 ^ (1024 : Int) ≤ rounded q then q else rounded q := by
  rw [nearest_of_ne_zero hq.ne', abs_of_pos hq, if_neg (not_lt.mpr hq.le)]

theorem nearest_neg (q : Seconds) : nearest (-q) = -nearest q := by
  obtain rfl | hq := eq_or_ne q 0
  · rw [neg_zero, nearest_zero, neg_zero]
  · rw [nearest_of_ne_zero (neg_ne_zero.mpr hq), nearest_of_ne_zero hq, abs_neg]
    obtain hneg | hpos := hq.lt_or_gt
    · rw [if_pos hneg, if_neg (by linarith : ¬-q < 0)]
      split_ifs <;> ring
    · rw [if_neg hpos.le.not_gt, if_pos (by linarith : -q < 0)]
      split_ifs <;> rfl

theorem nearest_nonneg {q : Seconds} (hq : 0 ≤ q) : 0 ≤ nearest q := by
  obtain rfl | hpos := hq.eq_or_lt
  · exact nearest_zero.ge
  · rw [nearest_of_pos hpos]
    split_ifs
    · exact hq
    · exact rounded_nonneg hpos

theorem nearest_mono_of_pos {q r : Seconds} (hq : 0 < q) (h : q ≤ r) : nearest q ≤ nearest r := by
  have hr := hq.trans_le h
  have hround := rounded_mono hq h
  rw [nearest_of_pos hq, nearest_of_pos hr]
  by_cases hsmall : 2 ^ (1024 : Int) ≤ rounded q
  · rwa [if_pos hsmall, if_pos (hsmall.trans hround)]
  rw [if_neg hsmall]
  by_cases hgreat : 2 ^ (1024 : Int) ≤ rounded r
  · -- What is too great for a double is greater than all doubles.
    rw [if_pos hgreat]
    by_contra hlt
    rw [not_le] at hlt
    have hback := rounded_mono hr hlt.le
    rw [rounded_rounded hq (hr.trans hlt)] at hback
    exact hsmall (hgreat.trans hback)
  · rwa [if_neg hgreat]

/-- The order of times survives rounding. -/
theorem nearest_mono {q r : Seconds} (h : q ≤ r) : nearest q ≤ nearest r := by
  obtain hq | hq := lt_or_ge 0 q
  · exact nearest_mono_of_pos hq h
  obtain hr | hr := lt_or_ge r 0
  · have := nearest_mono_of_pos (neg_pos.mpr hr) (neg_le_neg h)
    rw [nearest_neg, nearest_neg] at this
    exact neg_le_neg_iff.mp this
  · have hneg := nearest_nonneg (neg_nonneg.mpr hq)
    rw [nearest_neg, neg_nonneg] at hneg
    exact hneg.trans (nearest_nonneg hr)

/-- A whole number of steps, each an inverse power of two. -/
def Steps (g : Nat) (q : Seconds) : Prop := ∃ n : Int, q = n / 2 ^ g

/-- How far steps can be told apart. -/
def reach (g : Nat) : Seconds := 2 ^ 53 / 2 ^ g

/-- A clock keeps steps exactly as far as it can tell them apart. -/
theorem nearest_of_steps {g : Nat} (hg : g ≤ 1074) {q : Seconds} (hq : Steps g q)
    (hreach : |q| ≤ reach g) : nearest q = q := by
  wlog hpos : 0 < q generalizing q
  · obtain rfl | hneg := eq_or_lt_of_not_gt hpos
    · exact nearest_zero
    · obtain ⟨n, rfl⟩ := hq
      have := this (q := -((n : Rat) / 2 ^ g)) ⟨-n, by rw [Int.cast_neg, neg_div]⟩
        (by rwa [abs_neg]) (by linarith)
      rwa [nearest_neg, neg_inj] at this
  obtain ⟨n, rfl⟩ := hq
  have hscale : (0 : Rat) < 2 ^ g := by positivity
  have hvalue : (n : Rat) / 2 ^ g = n * 2 ^ (-(g : Int)) := by
    rw [zpow_neg, zpow_natCast, div_eq_mul_inv]
  have hn : 0 < n := by
    exact_mod_cast (div_pos_iff_of_pos_right hscale).mp hpos
  have hle : n ≤ 2 ^ 53 := by
    rw [abs_of_pos hpos, reach, div_le_div_iff_of_pos_right hscale] at hreach
    exact_mod_cast hreach
  rw [nearest_of_pos hpos, hvalue, rounded_eq_self hn hle (by omega)]
  split_ifs <;> rfl

namespace Steps

variable {g : Nat} {q r : Seconds}

theorem zero : Steps g 0 := ⟨0, by simp⟩

theorem add (hq : Steps g q) (hr : Steps g r) : Steps g (q + r) := by
  obtain ⟨m, rfl⟩ := hq
  obtain ⟨n, rfl⟩ := hr
  exact ⟨m + n, by rw [Int.cast_add, add_div]⟩

theorem sub (hq : Steps g q) (hr : Steps g r) : Steps g (q - r) := by
  obtain ⟨m, rfl⟩ := hq
  obtain ⟨n, rfl⟩ := hr
  exact ⟨m - n, by rw [Int.cast_sub, sub_div]⟩

theorem clamp (hq : Steps g q) : Steps g (Seconds.clamp q) := by
  unfold Seconds.clamp
  split_ifs
  · exact zero
  · exact hq

end Steps

end Seconds

end Attest
