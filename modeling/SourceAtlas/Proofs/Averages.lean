import Mathlib.Tactic.Ring
import SourceAtlas.Metrics

/-!
Averages are finite as long as what they are taken of is within the range of doubles. Rounding a quotient
to the digits of a double, and that to two places, adds no more than a unit each time.
-/
namespace SourceAtlas

namespace Number

/-- Rounding a quotient adds one to the whole part at most. -/
theorem roundDiv_le (num den : Nat) : roundDiv num den ≤ num / den + 1 := by
  simp only [roundDiv]
  generalize num / den = whole
  split_ifs <;> omega

namespace Double

/-- A number that is neither infinite nor missing. -/
def IsFinite (x : Double) : Prop := ∃ negative m e, x = .finite negative m e

theorem ratio_of_nonneg {e : Int} (hSign : 0 ≤ e) (m : Nat) : ratio m e = (m * 2 ^ e.toNat, 1) := by
  simp [ratio, hSign]

theorem ratio_of_neg {e : Int} (hSign : e < 0) (m : Nat) : ratio m e = (m, 2 ^ (-e).toNat) := by
  simp [ratio, not_le.mpr hSign]

/-- The unit of a quotient leaves 52 binary digits of its dividend above it. -/
theorem unitExponent_le {num k : Nat} (hSome : num ≠ 0) (hNum : num < 2 ^ k) (den : Nat) :
    unitExponent num den ≤ (k : Int) - 53 := by
  have hLog : num.log2 < k := (Nat.log2_lt hSome).mpr hNum
  simp only [unitExponent]
  split_ifs <;> omega

/-- A quotient in units stands for a value that is greater than the dividend
by one unit at most. -/
theorem ratio_inUnits_le (num den : Nat) (e : Int) :
    (ratio (inUnits num den e) e).1 ≤ (num + 2 ^ e.toNat) * (ratio (inUnits num den e) e).2 := by
  rcases le_or_gt 0 e with hSign | hSign
  · have hScaled : num / (den * 2 ^ e.toNat) * 2 ^ e.toNat ≤ num := by
      rw [← Nat.div_div_eq_div_mul]
      exact (Nat.div_mul_le_self _ _).trans (Nat.div_le_self _ _)
    rw [ratio_of_nonneg hSign, inUnits, if_pos hSign, Nat.pow_eq]
    calc roundDiv num (den * 2 ^ e.toNat) * 2 ^ e.toNat
        ≤ (num / (den * 2 ^ e.toNat) + 1) * 2 ^ e.toNat := Nat.mul_le_mul_right _ (roundDiv_le _ _)
      _ = num / (den * 2 ^ e.toNat) * 2 ^ e.toNat + 2 ^ e.toNat := by rw [Nat.add_mul, Nat.one_mul]
      _ ≤ (num + 2 ^ e.toNat) * 1 := by rw [Nat.mul_one]; exact Nat.add_le_add_right hScaled _
  · have hLow : e.toNat = 0 := by omega
    rw [ratio_of_neg hSign, inUnits, if_neg (not_le.mpr hSign), Nat.pow_eq, hLow]
    calc roundDiv (num * 2 ^ (-e).toNat) den
        ≤ num * 2 ^ (-e).toNat / den + 1 := roundDiv_le _ _
      _ ≤ num * 2 ^ (-e).toNat + 2 ^ (-e).toNat := Nat.add_le_add (Nat.div_le_self _ _) Nat.one_le_two_pow
      _ = (num + 2 ^ 0) * 2 ^ (-e).toNat := by rw [pow_zero, Nat.add_mul, Nat.one_mul]

/-- A power of two in units of another stands for their product. -/
theorem ratio_pow_le {i k : Nat} {e : Int} (hBoth : (i : Int) + e ≤ k) (hMantissa : i ≤ k) :
    (ratio (2 ^ i) e).1 ≤ 2 ^ k * (ratio (2 ^ i) e).2 := by
  rcases le_or_gt 0 e with hSign | hSign
  · rw [ratio_of_nonneg hSign, ← pow_add, Nat.mul_one]
    exact Nat.pow_le_pow_right (by decide) (by omega)
  · rw [ratio_of_neg hSign]
    exact (Nat.pow_le_pow_right (by decide) hMantissa).trans (Nat.le_mul_of_pos_right _ (Nat.two_pow_pos _))

/-- A quotient with a dividend in the range of doubles is finite, and no
greater than twice the bound of the dividend. -/
theorem ofRatio_finite {num k : Nat} (hNum : num < 2 ^ k) (hLow : 53 ≤ k) (hRange : k ≤ 1023)
    (negative : Bool) (den : Nat) :
    ∃ m e, ofRatio negative num den = .finite negative m e ∧
      (ratio m e).1 ≤ 2 ^ (k + 1) * (ratio m e).2 := by
  by_cases hNone : (num = 0 || den = 0) = true
  · refine ⟨0, leastExponent, by rw [ofRatio, if_pos hNone, zero], ?_⟩
    rw [ratio_of_neg (by decide)]
    exact Nat.zero_le _
  · have hSome : num ≠ 0 := by
      rintro rfl
      exact hNone (by simp)
    have hUnit : max (unitExponent num den) leastExponent ≤ (k : Int) - 53 :=
      max_le (unitExponent_le hSome hNum den) (by simp only [leastExponent]; omega)
    rw [ofRatio, if_neg hNone]
    dsimp only
    generalize max (unitExponent num den) leastExponent = e at hUnit
    by_cases hCarry : inUnits num den e = Nat.pow 2 53
    · rw [if_pos hCarry, if_neg (by simp only [greatestExponent]; omega)]
      exact ⟨_, _, rfl, ratio_pow_le (by push_cast; omega) (by omega)⟩
    · rw [if_neg hCarry, if_neg (by simp only [greatestExponent]; omega)]
      have hSum : num + 2 ^ e.toNat ≤ 2 ^ (k + 1) := by
        have hStep : 2 ^ e.toNat ≤ 2 ^ k := Nat.pow_le_pow_right (by decide) (by omega)
        rw [pow_succ]
        omega
      exact ⟨_, _, rfl, (ratio_inUnits_le num den e).trans (Nat.mul_le_mul_right _ hSum)⟩

/-- Rounding to two places keeps a finite double finite, as long as it is
well within the range. -/
theorem roundHundredths_finite {m k : Nat} {e : Int} (hBound : (ratio m e).1 ≤ 2 ^ k * (ratio m e).2)
    (hLow : 53 ≤ k) (hRange : k ≤ 1016) (negative : Bool) :
    (Double.finite negative m e).roundHundredths.IsFinite := by
  have hQuotient : (ratio m e).1 * 100 / (ratio m e).2 ≤ 2 ^ k * 100 := by
    refine Nat.div_le_of_le_mul ?_
    calc (ratio m e).1 * 100 ≤ 2 ^ k * (ratio m e).2 * 100 := Nat.mul_le_mul_right _ hBound
      _ = (ratio m e).2 * (2 ^ k * 100) := by ring
  have hRounded : roundDiv ((ratio m e).1 * 100) (ratio m e).2 < 2 ^ (k + 7) := by
    have hWhole := roundDiv_le ((ratio m e).1 * 100) (ratio m e).2
    have hPower : 2 ^ (k + 7) = 2 ^ k * 128 := pow_add 2 k 7
    have hPositive := Nat.two_pow_pos k
    omega
  obtain ⟨m', e', hRatio, -⟩ := ofRatio_finite hRounded (by omega) (by omega) negative 100
  exact ⟨negative, m', e', hRatio⟩

/-- Averages are finite up to totals far beyond what any machine counts to.
They are infinite only where the quotient of two integers is out of range. -/
theorem average_finite {total : Int} {k : Nat} (hTotal : total.natAbs < 2 ^ k) (hRange : k ≤ 1015) (count : Nat) :
    (average total count).IsFinite := by
  have hWide : total.natAbs < 2 ^ max k 53 :=
    hTotal.trans_le (Nat.pow_le_pow_right (by decide) (le_max_left _ _))
  rw [average]
  split_ifs
  · exact ⟨false, 0, leastExponent, rfl⟩
  · obtain ⟨m, e, hRatio, hBound⟩ :=
      ofRatio_finite hWide (le_max_right _ _) (by omega) (decide (total < 0)) count
    rw [hRatio]
    exact roundHundredths_finite hBound (by omega) (by omega) _

end Double

end Number

/-- The averages over records are finite if all their lines and functions
together are far within the range of doubles. -/
theorem Metrics.averages_finite {records : List Record} {k : Nat} (hLines : (totalLines records).natAbs < 2 ^ k)
    (hFunctions : totalFunctions records < 2 ^ k) (hRange : k ≤ 1015) (g : DependencyGraph) (top : Int) :
    (ofRecords records g top).averageFunctions.IsFinite ∧ (ofRecords records g top).averageLines.IsFinite :=
  ⟨Number.Double.average_finite (by rwa [Int.natAbs_natCast]) hRange _,
    Number.Double.average_finite hLines hRange _⟩

end SourceAtlas
