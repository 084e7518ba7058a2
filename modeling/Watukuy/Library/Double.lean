import Mathlib.Data.Int.Log
import Mathlib.Data.Rat.Floor
import Mathlib.Algebra.Order.Ring.Rat
import Mathlib.Data.Nat.Factorization.Basic
import Mathlib.RingTheory.Coprime.Lemmas
import Mathlib.Tactic.Linarith
import Mathlib.Tactic.Positivity
import Mathlib.Tactic.Ring
import Mathlib.Tactic.FieldSimp
import Mathlib.Tactic.NormNum

/-!
# Rounded arithmetic

A `Rounding` takes every number to a number of its format that is nearest. That alone makes it keep the
format and the order. `Rounding.exact` keeps every number; `Rounding.double` is the double precision of
IEEE 754, ties to even. `Double` adds what is no finite number: sums and products that overflow are
infinite, and some operations have no value.
-/

set_option autoImplicit false

namespace Watukuy.Library

structure Rounding where
  format : Set ℚ
  round : ℚ → ℚ
  mem : ∀ x, round x ∈ format
  near : ∀ x, ∀ y ∈ format, |round x - x| ≤ |y - x|
  whole_mem : ∀ n : ℤ, |n| ≤ 2 ^ 53 → (n : ℚ) ∈ format
  /-- Next to a number that is not tiny lies one of the format. -/
  dense : ∀ x : ℚ, 1 ≤ |x| * 2 ^ 200 → ∃ y ∈ format, |y - x| ≤ |x| / 2 ^ 53

namespace Rounding

variable (r : Rounding) {x y : ℚ}

def add (x y : ℚ) : ℚ := r.round (x + y)

def sub (x y : ℚ) : ℚ := r.round (x - y)

def mul (x y : ℚ) : ℚ := r.round (x * y)

def div (x y : ℚ) : ℚ := r.round (x / y)

/-- The numbers of the format are kept. -/
theorem round_eq (h : x ∈ r.format) : r.round x = x := by
  have hnear := r.near x x h
  rw [sub_self, abs_zero] at hnear
  exact sub_eq_zero.1 (abs_nonpos_iff.1 hnear)

theorem round_whole {n : ℤ} (h : |n| ≤ 2 ^ 53) : r.round n = n := r.round_eq (r.whole_mem n h)

@[simp] theorem round_zero : r.round 0 = 0 := by
  have hzero : r.round ((0 : ℤ) : ℚ) = ((0 : ℤ) : ℚ) := r.round_whole (by norm_num)
  simpa using hzero

/-- Rounding keeps the order: of two numbers the smaller one cannot be nearer to the larger one's
result. -/
theorem mono : Monotone r.round := by
  intro x y hxy
  rcases hxy.eq_or_lt with rfl | hlt
  · exact le_rfl
  by_contra hcross
  rw [not_le] at hcross
  -- `x` lies beyond the middle of the two results, and `y` before it
  have hx := sq_le_sq.2 (r.near x (r.round y) (r.mem y))
  have hy := sq_le_sq.2 (r.near y (r.round x) (r.mem x))
  have hbeyond : (r.round x - r.round y) * (r.round x + r.round y - 2 * x) ≤ 0 := by linarith
  have hbefore : 0 ≤ (r.round x - r.round y) * (r.round x + r.round y - 2 * y) := by linarith
  have hmiddle := nonpos_of_mul_nonpos_right hbeyond (sub_pos.2 hcross)
  have hmiddle' := nonneg_of_mul_nonneg_right hbefore (sub_pos.2 hcross)
  linarith

theorem round_le (h : x ≤ y) (hy : y ∈ r.format) : r.round x ≤ y :=
  (r.mono h).trans_eq (r.round_eq hy)

theorem le_round (h : x ≤ y) (hx : x ∈ r.format) : x ≤ r.round y :=
  (r.round_eq hx).symm.trans_le (r.mono h)

theorem round_nonneg (h : 0 ≤ x) : 0 ≤ r.round x := by
  rw [← r.round_zero]
  exact r.mono h

theorem error_le (h : 1 ≤ |x| * 2 ^ 200) : |r.round x - x| ≤ |x| / 2 ^ 53 := by
  obtain ⟨y, hy, hle⟩ := r.dense x h
  exact (r.near x y hy).trans hle

/-- Arithmetic without rounding. -/
def exact : Rounding where
  format := Set.univ
  round x := x
  mem _ := Set.mem_univ _
  near x y _ := by
    rw [sub_self, abs_zero]
    exact abs_nonneg _
  whole_mem _ _ := Set.mem_univ _
  dense x _ := ⟨x, Set.mem_univ _, by rw [sub_self, abs_zero]; positivity⟩

@[simp] theorem exact_round (x : ℚ) : exact.round x = x := rfl

@[simp] theorem exact_add (x y : ℚ) : exact.add x y = x + y := rfl

@[simp] theorem exact_sub (x y : ℚ) : exact.sub x y = x - y := rfl

@[simp] theorem exact_mul (x y : ℚ) : exact.mul x y = x * y := rfl

@[simp] theorem exact_div (x y : ℚ) : exact.div x y = x / y := rfl

end Rounding

/-! ## Double precision -/

/-- The nearest whole number, and of two the even one. -/
def halfEven (y : ℚ) : ℤ :=
  if Int.fract y < 1 / 2 then ⌊y⌋
  else if 1 / 2 < Int.fract y then ⌊y⌋ + 1
  else if ⌊y⌋ % 2 = 0 then ⌊y⌋
  else ⌊y⌋ + 1

theorem halfEven_bounds (y : ℚ) : ⌊y⌋ ≤ halfEven y ∧ halfEven y ≤ ⌊y⌋ + 1 := by
  unfold halfEven
  split_ifs <;> omega

theorem halfEven_near (y : ℚ) (z : ℤ) : |(halfEven y : ℚ) - y| ≤ |(z : ℚ) - y| := by
  have hfloor := Int.floor_add_fract y
  have hpos := Int.fract_nonneg y
  have hlt := Int.fract_lt_one y
  -- a whole number lies below `y` by the fraction at least, or above by the rest
  have hz : min (Int.fract y) (1 - Int.fract y) ≤ |(z : ℚ) - y| := by
    rcases le_or_gt z ⌊y⌋ with hle | hgt
    · have hle' : (z : ℚ) ≤ ⌊y⌋ := by exact_mod_cast hle
      rw [abs_sub_comm]
      exact (min_le_left _ _).trans (le_trans (by linarith) (le_abs_self _))
    · have hgt' : (⌊y⌋ : ℚ) + 1 ≤ z := by exact_mod_cast hgt
      exact (min_le_right _ _).trans (le_trans (by linarith) (le_abs_self _))
  refine le_trans ?_ hz
  have hdown : |((⌊y⌋ : ℤ) : ℚ) - y| = Int.fract y := by
    rw [abs_sub_comm, abs_of_nonneg (by linarith)]
    linarith
  have hup : |((⌊y⌋ + 1 : ℤ) : ℚ) - y| = 1 - Int.fract y := by
    rw [Int.cast_add, Int.cast_one, abs_of_nonneg (by linarith)]
    linarith
  unfold halfEven
  split
  · rw [hdown]
    exact le_min le_rfl (by linarith)
  split
  · rw [hup]
    exact le_min (by linarith) le_rfl
  have hhalf : Int.fract y = 1 / 2 := by linarith
  split
  · rw [hdown]
    exact le_min le_rfl (by linarith)
  · rw [hup]
    exact le_min (by linarith) le_rfl

/-- The exponent of the last place that a double has for `x`. -/
def lastPlace (x : ℚ) : ℤ := max (Int.log 2 |x| - 52) (-1074)

/-- The nearest number with 53 bits. -/
def nearest (x : ℚ) : ℚ := halfEven (x / 2 ^ lastPlace x) * 2 ^ lastPlace x

/-- The numbers with 53 bits and no place below `2 ^ (-1074)`; there is no largest one here. -/
def doubles : Set ℚ := {x | ∃ m e : ℤ, |m| ≤ 2 ^ 53 ∧ -1074 ≤ e ∧ x = m * 2 ^ e}

theorem pow_place_pos (e : ℤ) : (0 : ℚ) < 2 ^ e := zpow_pos (by norm_num) e

theorem abs_lt_place (x : ℚ) : |x| < 2 ^ (53 : ℤ) * 2 ^ lastPlace x := by
  have hlog := Int.lt_zpow_succ_log_self (b := 2) (by norm_num) |x|
  rw [Nat.cast_ofNat] at hlog
  refine hlog.trans_le ?_
  rw [← zpow_add₀ (by norm_num)]
  refine zpow_le_zpow_right₀ (by norm_num) ?_
  have hle := le_max_left (Int.log 2 |x| - 52) (-1074)
  unfold lastPlace
  omega

theorem nearest_error (x : ℚ) (z : ℤ) : |nearest x - x| ≤ |z * 2 ^ lastPlace x - x| := by
  have hpos := pow_place_pos (lastPlace x)
  have hscale : ∀ a : ℚ, |a * 2 ^ lastPlace x - x| = |a - x / 2 ^ lastPlace x| * 2 ^ lastPlace x := by
    intro a
    rw [← abs_of_pos hpos, ← abs_mul, abs_of_pos hpos, sub_mul, div_mul_cancel₀ x hpos.ne']
  rw [nearest, hscale, hscale]
  exact mul_le_mul_of_nonneg_right (halfEven_near _ z) hpos.le

theorem nearest_mem (x : ℚ) : nearest x ∈ doubles := by
  refine ⟨halfEven (x / 2 ^ lastPlace x), lastPlace x, ?_, le_max_right _ _, rfl⟩
  have hpos := pow_place_pos (lastPlace x)
  have habs : |x / 2 ^ lastPlace x| < 2 ^ 53 := by
    rw [abs_div, abs_of_pos hpos, div_lt_iff₀ hpos]
    exact_mod_cast abs_lt_place x
  obtain ⟨hlow, hhigh⟩ := abs_lt.1 habs
  obtain ⟨hfloor, hceil⟩ := halfEven_bounds (x / 2 ^ lastPlace x)
  have hmin : -2 ^ 53 ≤ ⌊x / 2 ^ lastPlace x⌋ := Int.le_floor.2 (by push_cast; exact hlow.le)
  have hmax : ⌊x / 2 ^ lastPlace x⌋ < 2 ^ 53 := Int.floor_lt.2 (by push_cast; exact hhigh)
  exact abs_le.2 ⟨by omega, by omega⟩

@[simp] theorem nearest_zero : nearest 0 = 0 := by simp [nearest, halfEven]

/-- No number with 53 bits is nearer. -/
theorem nearest_near (x y : ℚ) (hy : y ∈ doubles) : |nearest x - x| ≤ |y - x| := by
  obtain ⟨m, e, hm, he, rfl⟩ := hy
  rcases eq_or_ne x 0 with rfl | hx
  · rw [nearest_zero, sub_zero, abs_zero]
    exact abs_nonneg _
  rcases le_or_gt (lastPlace x) e with hle | hlt
  · -- a multiple of the last place
    obtain ⟨k, rfl⟩ := Int.le.dest hle
    have hmultiple : (m : ℚ) * 2 ^ (lastPlace x + k) = (m * 2 ^ k : ℤ) * 2 ^ lastPlace x := by
      rw [zpow_add₀ (by norm_num), zpow_natCast]
      push_cast
      ring
    rw [hmultiple]
    exact nearest_error x _
  · -- a finer number is small: a power of two lies between
    have hlarge : (2 : ℚ) ^ (52 : ℤ) * 2 ^ lastPlace x ≤ |x| := by
      have hlog := Int.zpow_log_le_self (b := 2) (by norm_num) (abs_pos.2 hx)
      rw [Nat.cast_ofNat] at hlog
      have hplace : 52 + lastPlace x = Int.log 2 |x| := by
        unfold lastPlace at hlt ⊢
        omega
      rw [← zpow_add₀ (by norm_num), hplace]
      exact hlog
    have hsmall : |(m : ℚ) * 2 ^ e| ≤ 2 ^ (52 : ℤ) * 2 ^ lastPlace x := by
      have hm' : |(m : ℚ)| ≤ 2 ^ (53 : ℤ) := by exact_mod_cast hm
      calc |(m : ℚ) * 2 ^ e| = |(m : ℚ)| * 2 ^ e := by
            rw [abs_mul, abs_of_pos (pow_place_pos e)]
        _ ≤ 2 ^ (53 : ℤ) * 2 ^ e := mul_le_mul_of_nonneg_right hm' (pow_place_pos e).le
        _ = 2 ^ (53 + e) := (zpow_add₀ (by norm_num) _ _).symm
        _ ≤ 2 ^ (52 + lastPlace x) := zpow_le_zpow_right₀ (by norm_num) (by omega)
        _ = 2 ^ (52 : ℤ) * 2 ^ lastPlace x := zpow_add₀ (by norm_num) _ _
    have hgap : |x| - 2 ^ (52 : ℤ) * 2 ^ lastPlace x ≤ |(m : ℚ) * 2 ^ e - x| := by
      have hsub := abs_sub_abs_le_abs_sub x ((m : ℚ) * 2 ^ e)
      rw [abs_sub_comm] at hsub
      linarith
    refine le_trans ?_ hgap
    rcases le_or_gt 0 x with hpos | hneg
    · have hpower := nearest_error x (2 ^ 52)
      rw [abs_of_nonneg hpos] at hlarge ⊢
      refine hpower.trans_eq ?_
      rw [abs_sub_comm, abs_of_nonneg]
      · norm_num
      · norm_num at hlarge ⊢
        exact hlarge
    · have hpower := nearest_error x (-2 ^ 52)
      rw [abs_of_neg hneg] at hlarge ⊢
      refine hpower.trans_eq ?_
      rw [abs_of_nonneg]
      · push_cast
        norm_num
        ring
      · push_cast
        norm_num at hlarge ⊢
        linarith

theorem halfEven_error (y : ℚ) : |(halfEven y : ℚ) - y| ≤ 1 / 2 := by
  have hfloor := Int.floor_add_fract y
  have hlt := Int.fract_lt_one y
  rcases le_or_gt (Int.fract y) (1 / 2) with hle | hgt
  · refine (halfEven_near y ⌊y⌋).trans ?_
    rw [abs_sub_comm, abs_of_nonneg (by linarith [Int.fract_nonneg y])]
    linarith
  · refine (halfEven_near y (⌊y⌋ + 1)).trans ?_
    rw [Int.cast_add, Int.cast_one, abs_of_nonneg (by linarith)]
    linarith

/-- Unless a number is tiny, the error is at most a part in `2 ^ 53` of it. -/
theorem nearest_dense (x : ℚ) (h : 1 ≤ |x| * 2 ^ 200) : |nearest x - x| ≤ |x| / 2 ^ 53 := by
  have hpos := pow_place_pos (lastPlace x)
  have hx : 0 < |x| := by
    rw [abs_pos]
    rintro rfl
    rw [abs_zero, zero_mul] at h
    exact absurd h (by norm_num)
  have hlog := Int.zpow_log_le_self (b := 2) (by norm_num) hx
  have hlog' := Int.lt_zpow_succ_log_self (b := 2) (by norm_num) |x|
  rw [Nat.cast_ofNat] at hlog hlog'
  have hplace : lastPlace x = Int.log 2 |x| - 52 := by
    have hle : (2 : ℚ) ^ (-200 : ℤ) < 2 ^ (Int.log 2 |x| + 1) := by
      refine lt_of_le_of_lt ?_ hlog'
      rw [zpow_neg, inv_le_iff_one_le_mul₀ (zpow_pos (by norm_num) _)]
      exact_mod_cast h
    have hexp := (zpow_lt_zpow_iff_right₀ (by norm_num)).1 hle
    unfold lastPlace
    omega
  have herror : |nearest x - x| ≤ 1 / 2 * 2 ^ lastPlace x := by
    have hscale : nearest x - x = (halfEven (x / 2 ^ lastPlace x) - x / 2 ^ lastPlace x) *
        2 ^ lastPlace x := by
      rw [nearest, sub_mul, div_mul_cancel₀ x hpos.ne']
    rw [hscale, abs_mul, abs_of_pos hpos]
    exact mul_le_mul_of_nonneg_right (halfEven_error _) hpos.le
  calc |nearest x - x| ≤ 1 / 2 * 2 ^ lastPlace x := herror
    _ = 2 ^ Int.log 2 |x| / 2 ^ 53 := by
      rw [hplace, zpow_sub₀ (by norm_num)]
      norm_num
      ring
    _ ≤ |x| / 2 ^ 53 := div_le_div_of_nonneg_right hlog (by norm_num)

/-- The double precision of IEEE 754, but for its largest number. -/
def Rounding.double : Rounding where
  format := doubles
  round := nearest
  mem := nearest_mem
  near := nearest_near
  whole_mem n hn := ⟨n, 0, hn, by norm_num, by simp⟩
  dense x hx := ⟨nearest x, nearest_mem x, nearest_dense x hx⟩

theorem nat_mem_doubles {n : Nat} (h : n ≤ 2 ^ 53) : (n : ℚ) ∈ doubles := by
  have hwhole := Rounding.double.whole_mem n (by rw [Nat.abs_cast]; exact_mod_cast h)
  rwa [Int.cast_natCast] at hwhole

/-- Every power of two from 1 on is a double. -/
theorem two_pow_mem (k : Nat) : (2 ^ k : ℚ) ∈ doubles := ⟨1, k, by norm_num, by omega, by simp⟩

/-- The divisors of a whole double are doubles. -/
theorem dvd_mem_doubles {n k : Nat} (hn : (n : ℚ) ∈ doubles) (hpos : n ≠ 0) (hdvd : k ∣ n) :
    (k : ℚ) ∈ doubles := by
  obtain ⟨m, e, hm, he, heq⟩ := hn
  have hk : k ≠ 0 := fun hk => hpos (Nat.eq_zero_of_zero_dvd (hk ▸ hdvd))
  obtain ⟨a, odd, hodd, hsplit⟩ := Nat.exists_eq_two_pow_mul_odd hk
  -- the odd part of the divisor divides the digits of the number
  have hpart : (odd : Int) ∣ m := by
    have hcoprime : ∀ j : Nat, IsCoprime (odd : Int) (2 ^ j) := by
      intro j
      apply IsCoprime.pow_right
      rw [← Nat.cast_ofNat, Nat.isCoprime_iff_coprime]
      exact hodd.coprime_two_right
    have hfactor : (odd : Int) ∣ n := by
      have hnat : odd ∣ n := Dvd.dvd.trans ⟨2 ^ a, by rw [hsplit, mul_comm]⟩ hdvd
      exact_mod_cast hnat
    rcases Int.eq_nat_or_neg e with ⟨j, rfl | rfl⟩
    · have hscaled : (n : Int) = m * 2 ^ j := by
        rw [zpow_natCast] at heq
        exact_mod_cast heq
      exact (hcoprime j).dvd_of_dvd_mul_right (hscaled ▸ hfactor)
    · have hscaled : (n : Int) * 2 ^ j = m := by
        rw [zpow_neg, zpow_natCast, ← div_eq_mul_inv, eq_div_iff (by positivity)] at heq
        exact_mod_cast heq
      exact hscaled ▸ hfactor.mul_right _
  have hm0 : m ≠ 0 := by
    rintro rfl
    rw [Int.cast_zero, zero_mul] at heq
    exact hpos (by exact_mod_cast heq)
  refine ⟨odd, a, ?_, by omega, ?_⟩
  · exact (Int.le_of_dvd (abs_pos.2 hm0) ((dvd_abs _ _).2 hpart) |>.trans hm |>.trans' (by simp))
  · rw [hsplit]
    push_cast
    rw [zpow_natCast, mul_comm]

/-! ## Numbers that are none -/

inductive Double where
  | nan
  | infinite (negative : Bool)
  | finite (q : ℚ)
  deriving DecidableEq

namespace Double

/-- The double of a result: what rounds to `2 ^ 1024` and beyond is infinite. -/
def ofRat (q : ℚ) : Double :=
  if 2 ^ 1024 ≤ |nearest q| then .infinite (decide (q < 0)) else .finite (nearest q)

def negative : Double → Bool
  | .nan => false
  | .infinite negative => negative
  | .finite q => decide (q < 0)

/-- Infinity times zero has no value. -/
def mul : Double → Double → Double
  | .finite a, .finite b => ofRat (a * b)
  | .nan, _ => .nan
  | _, .nan => .nan
  | x, y => if x = .finite 0 ∨ y = .finite 0 then .nan else .infinite (x.negative != y.negative)

/-- The power of a number; `x ** 0` is 1 of every `x`. -/
def pow (x : Double) (n : Nat) : Double :=
  match x with
  | .finite q => ofRat (q ^ n)
  | x => if n = 0 then .finite 1
    else match x with
      | .infinite negative => .infinite (negative && n % 2 = 1)
      | x => x

/-- `Math.min`. -/
def min : Double → Double → Double
  | .nan, _ => .nan
  | _, .nan => .nan
  | .infinite true, _ => .infinite true
  | _, .infinite true => .infinite true
  | .infinite false, y => y
  | x, .infinite false => x
  | .finite a, .finite b => .finite (Min.min a b)

/-- `Math.max`. -/
def max : Double → Double → Double
  | .nan, _ => .nan
  | _, .nan => .nan
  | .infinite false, _ => .infinite false
  | _, .infinite false => .infinite false
  | .infinite true, y => y
  | x, .infinite true => x
  | .finite a, .finite b => .finite (Max.max a b)

/-- `x < y`. -/
def lt : Double → Double → Bool
  | .nan, _ => false
  | _, .nan => false
  | .infinite true, y => y ≠ .infinite true
  | _, .infinite true => false
  | .infinite false, _ => false
  | _, .infinite false => true
  | .finite a, .finite b => decide (a < b)

/-- `x <= y`. -/
def le (x y : Double) : Bool := x.lt y || (x = y && x ≠ .nan)

/-- `Math.round`: of two whole numbers equally near the larger one. -/
def mathRound : Double → Double
  | .finite q => .finite ⌊q + 1 / 2⌋
  | x => x

/-- A finite whole number. -/
def whole : Double → Option Int
  | .finite q => if q.den = 1 then some q.num else none
  | _ => none

/-- The text of a number, given that of the finite ones. -/
def text (numberText : ℚ → String) : Double → String
  | .nan => "NaN"
  | .infinite negative => if negative then "-Infinity" else "Infinity"
  | .finite q => numberText q

theorem ofRat_eq {q : ℚ} (h : q ∈ doubles) (hlt : |q| < 2 ^ 1024) : ofRat q = .finite q := by
  have hnearest : nearest q = q := Rounding.double.round_eq h
  rw [ofRat, hnearest, if_neg (not_le.2 hlt)]

/-- What is no negative number rounds to none. -/
theorem ofRat_nonneg {q : ℚ} (h : 0 ≤ q) : le (.finite 0) (ofRat q) = true := by
  have hnearest : 0 ≤ nearest q := Rounding.double.round_nonneg h
  unfold ofRat
  split
  · rw [decide_eq_false (not_lt.2 h)]
    rfl
  · rcases hnearest.eq_or_lt with heq | hpos
    · simp [le, ← heq]
    · simp [le, lt, hpos]

theorem ofRat_large {q : ℚ} (h : 2 ^ 1024 ≤ q) : ofRat q = .infinite false := by
  have hnearest : 2 ^ 1024 ≤ nearest q := Rounding.double.le_round h (two_pow_mem 1024)
  have hpos : (0 : ℚ) ≤ 2 ^ 1024 := by positivity
  rw [ofRat, if_pos (hnearest.trans (le_abs_self _)), decide_eq_false (not_lt.2 (hpos.trans h))]

theorem le_iff {x y : Double} : le x y = true ↔ lt x y = true ∨ x = y ∧ x ≠ .nan := by
  simp [le]

theorem lt_eq_false {x y : Double} (hx : x ≠ .nan) (hy : y ≠ .nan) :
    lt x y = false ↔ le y x = true := by
  cases x with
  | nan => exact absurd rfl hx
  | infinite negative =>
    cases y with
    | nan => exact absurd rfl hy
    | infinite negative' => cases negative <;> cases negative' <;> simp [le, lt]
    | finite b => cases negative <;> simp [le, lt]
  | finite a =>
    cases y with
    | nan => exact absurd rfl hy
    | infinite negative' => cases negative' <;> simp [le, lt]
    | finite b => simp [le, lt, le_iff_lt_or_eq]

theorem le_eq_false {x y : Double} (hx : x ≠ .nan) (hy : y ≠ .nan) :
    le x y = false ↔ lt y x = true := by
  rw [← Bool.not_eq_true, ← lt_eq_false hy hx, Bool.not_eq_false]

theorem lt_trans {x y z : Double} (hxy : lt x y = true) (hyz : lt y z = true) : lt x z = true := by
  rcases x with _ | (_ | _) | a <;> rcases y with _ | (_ | _) | b <;>
    rcases z with _ | (_ | _) | c <;> simp [lt] at hxy hyz ⊢
  exact hxy.trans hyz

theorem le_trans {x y z : Double} (hxy : le x y = true) (hyz : le y z = true) : le x z = true := by
  rw [le_iff] at hxy hyz ⊢
  rcases hxy with hxy | ⟨rfl, -⟩
  · rcases hyz with hyz | ⟨rfl, -⟩
    · exact Or.inl (lt_trans hxy hyz)
    · exact Or.inl hxy
  · exact hyz

theorem ne_nan_of_le {x y : Double} (h : le x y = true) : x ≠ .nan ∧ y ≠ .nan := by
  constructor
  · rintro rfl
    simp [le, lt] at h
  · rintro rfl
    cases x <;> simp [le, lt] at h

/-- The numbers from zero on. -/
theorem nonneg_iff (x : Double) :
    le (.finite 0) x = true ↔ x = .infinite false ∨ ∃ q, x = .finite q ∧ 0 ≤ q := by
  cases x with
  | nan => simp [le, lt]
  | infinite negative => cases negative <;> simp [le, lt]
  | finite q => simp [le, lt, le_iff_lt_or_eq]

theorem mathRound_nonneg {x : Double} (h : le (.finite 0) x = true) :
    le (.finite 0) x.mathRound = true := by
  rw [nonneg_iff] at h ⊢
  rcases h with rfl | ⟨q, rfl, hq⟩
  · exact Or.inl rfl
  · refine Or.inr ⟨_, rfl, ?_⟩
    rw [Int.cast_nonneg_iff, Int.floor_nonneg]
    positivity

theorem mul_nonneg {x : Double} {n : ℚ} (hx : le (.finite 0) x = true) (hn : 0 < n) :
    le (.finite 0) (mul x (.finite n)) = true := by
  rw [nonneg_iff] at hx
  rcases hx with rfl | ⟨q, rfl, hq⟩
  · have hne : ¬(Double.finite n = .finite 0) := fun h => hn.ne' (Double.finite.inj h)
    simp [mul, hne, negative, not_lt.2 hn.le, le, lt]
  · exact ofRat_nonneg (by positivity)

@[simp] theorem mathRound_whole (n : Int) : mathRound (.finite n) = .finite n := by
  have hhalf : ⌊(1 / 2 : ℚ)⌋ = 0 := by
    rw [Int.floor_eq_zero_iff]
    constructor <;> norm_num
  rw [mathRound, Int.floor_intCast_add, hhalf, add_zero]

theorem whole_eq_some {x : Double} {n : Int} : x.whole = some n ↔ x = .finite n := by
  cases x with
  | finite q =>
    simp only [whole, Double.finite.injEq]
    constructor
    · intro h
      split at h
      · next hden =>
        rw [← Option.some.inj h]
        exact ((Rat.den_eq_one_iff q).1 hden).symm
      · cases h
    · rintro rfl
      simp
  | _ => simp [whole]

end Double

example : Double.mul (.finite 0) (Double.pow (.finite (10 ^ 200)) 2) = .nan := by decide +kernel
example : nearest (1 / 10) = 3602879701896397 / 2 ^ 55 := by decide +kernel

end Watukuy.Library
