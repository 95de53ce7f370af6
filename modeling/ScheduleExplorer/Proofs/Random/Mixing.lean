import ScheduleExplorer.Config
import Mathlib.Data.FinEnum
import Mathlib.Data.Nat.ModEq
import Mathlib.Data.Nat.Prime.Basic

/-!
# Seeds of iterations do not repeat

The mix of a seed is a sequence of steps each of which can be undone. A fold by a positive shift
sends only zero to zero, since a word that equals its own shift to the right is zero, and it
respects exclusive or. A product with an odd word can be cancelled modulo 2 ^ 64. So two iterations
with the same base have different seeds, and so have two bases in the same iteration. Every word is
the seed of one iteration, and the last counter of all is the one whose seed a combination gives to
its rest.
-/

namespace ScheduleExplorer

open Function

/-! ### The steps of the mix -/

/-- A fold respects exclusive or. -/
theorem xorShift_xor (a b shift : UInt64) :
    xorShift (a ^^^ b) shift = xorShift a shift ^^^ xorShift b shift := by
  rw [xorShift, UInt64.shiftRight_xor, xorShift, xorShift]
  ac_rfl

/-- Only zero is folded to zero. -/
theorem eq_zero_of_xorShift {word shift : UInt64} (hshift : 0 < shift.toNat % 64)
    (h : xorShift word shift = 0) : word = 0 := by
  have hsame : word = word >>> shift := UInt64.xor_eq_zero_iff.mp h
  have hnumber : word.toNat = word.toNat / 2 ^ (shift.toNat % 64) := by
    rw [← Nat.shiftRight_eq_div_pow, ← UInt64.toNat_shiftRight, ← hsame]
  have hhalf : 1 < 2 ^ (shift.toNat % 64) := Nat.one_lt_two_pow (Nat.ne_of_gt hshift)
  have hzero : word.toNat = 0 := by
    by_contra hpos
    exact Nat.ne_of_gt (Nat.div_lt_self (Nat.pos_of_ne_zero hpos) hhalf) hnumber
  exact UInt64.toNat_inj.mp hzero

/-- A fold by at least one bit and less than a whole word loses nothing. -/
theorem bijective_xorShift {shift : UInt64} (hshift : 0 < shift.toNat % 64) :
    Bijective (xorShift · shift) := by
  refine Finite.injective_iff_bijective.mp fun a b heq => ?_
  have hzero : xorShift (a ^^^ b) shift = 0 := by
    rw [xorShift_xor]
    exact UInt64.xor_eq_zero_iff.mpr heq
  exact UInt64.xor_eq_zero_iff.mp (eq_zero_of_xorShift hshift hzero)

/-- A product with an odd word loses nothing. -/
theorem bijective_mul_odd {factor : UInt64} (hodd : Odd factor.toNat) :
    Bijective (· * factor) := by
  refine Finite.injective_iff_bijective.mp fun a b heq => UInt64.toNat_inj.mp ?_
  have hcoprime : Nat.Coprime (2 ^ 64) factor.toNat :=
    hodd.coprime_two_left.pow_left 64
  have hproducts : a.toNat * factor.toNat ≡ b.toNat * factor.toNat [MOD 2 ^ 64] := by
    rw [Nat.ModEq, ← UInt64.toNat_mul, ← UInt64.toNat_mul]
    exact congrArg UInt64.toNat heq
  have hwords : a.toNat ≡ b.toNat [MOD 2 ^ 64] := hproducts.cancel_right_of_coprime hcoprime
  exact hwords.eq_of_lt_of_lt a.toNat_lt b.toNat_lt

/-- A sum with a fixed word loses nothing. -/
theorem bijective_add_right (offset : UInt64) : Bijective (· + offset) :=
  Finite.injective_iff_bijective.mp fun _ _ heq => (UInt64.add_left_inj offset).mp heq

/-! ### The mix -/

/-- What the mix does to the sum of the base and the spread iteration. -/
def scramble (word : UInt64) : UInt64 :=
  xorShift (xorShift (xorShift word 30 * 0xBF58476D1CE4E5B9) 27 * 0x94D049BB133111EB) 31

/-- A seed is the scramble of its base and its iteration. -/
theorem deriveSeed_eq_scramble (base iteration : UInt64) :
    deriveSeed base iteration = scramble (base + iteration * 0x9E3779B97F4A7C15) := rfl

/-- The scramble loses nothing. -/
theorem bijective_scramble : Bijective scramble :=
  (bijective_xorShift (by decide)).comp <| (bijective_mul_odd (by decide)).comp <|
    (bijective_xorShift (by decide)).comp <| (bijective_mul_odd (by decide)).comp <|
      bijective_xorShift (by decide)

/-- With one base every word is the seed of one iteration, and in one iteration it is derived from
one base. So two iterations never have the same seed, and the seed of the rest of a combination is
the one of the last counter only. -/
theorem bijective_deriveSeed (base iteration other : UInt64) :
    Bijective (deriveSeed base) ∧ Bijective (deriveSeed · iteration) ∧
      (deriveSeed base iteration = deriveSeed base other ↔ iteration = other) ∧
      (deriveSeed base iteration = Config.restSeed base ↔ iteration.toNat + 1 = 2 ^ 64) := by
  have hcounters : Bijective (deriveSeed base) := by
    have hspread : Bijective fun counter : UInt64 => base + counter * 0x9E3779B97F4A7C15 := by
      simp only [UInt64.add_comm base]
      exact (bijective_add_right base).comp (bijective_mul_odd (by decide))
    rw [funext (deriveSeed_eq_scramble base)]
    exact bijective_scramble.comp hspread
  have hbases : Bijective (deriveSeed · iteration) := by
    simp only [deriveSeed_eq_scramble]
    exact bijective_scramble.comp (bijective_add_right (iteration * 0x9E3779B97F4A7C15))
  refine ⟨hcounters, hbases, hcounters.injective.eq_iff, ?_⟩
  rw [Config.restSeed, hcounters.injective.eq_iff, ← UInt64.toNat_inj]
  have hlast : (0 - 1 : UInt64).toNat = 2 ^ 64 - 1 := rfl
  rw [hlast]
  omega

end ScheduleExplorer
