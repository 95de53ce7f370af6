/-!
# Words as sets of positions

A 64-bit word is the set of the positions at which it has a bit. The positions are listed from the
lowest one on: the lowest bit is taken and cleared until the word is empty.
-/

namespace ScheduleExplorer.Word

/-- The word with the bit at one position. -/
def bit (position : Nat) : UInt64 :=
  1 <<< UInt64.ofNat position

/-- Whether a word has the bit at a position. -/
def hasBit (position : Nat) (word : UInt64) : Bool :=
  word &&& bit position != 0

/-- The first of a number of positions, from one on, at which a word has a bit. -/
def firstFrom (word : UInt64) : Nat → Nat → Nat
  | 0, position => position
  | count + 1, position =>
    if word.toNat.testBit position then position else firstFrom word count (position + 1)

/-- The position of the lowest bit, and 64 for the empty word. -/
def lowest (word : UInt64) : Nat :=
  firstFrom word 64 0

/-- The number of bits. -/
def size (word : UInt64) : Nat :=
  (List.range 64).countP word.toNat.testBit

/-- Clears the lowest bit. -/
def clearLowest (word : UInt64) : UInt64 :=
  word &&& (word - 1)

/-- The positions of the bits, from the lowest on, for a number of rounds or until none is left. -/
def positionsIn : Nat → UInt64 → List Nat
  | 0, _ => []
  | rounds + 1, word =>
    if word = 0 then [] else lowest word :: positionsIn rounds (clearLowest word)

/-- The positions of the bits, from the lowest on. Each round clears a bit, so that 64 rounds are
enough. -/
def positions (word : UInt64) : List Nat :=
  positionsIn 64 word

/-! ### Bits -/

/-- The bits of a word are at positions below 64. -/
theorem lt_of_testBit {word : UInt64} {i : Nat} (h : word.toNat.testBit i = true) : i < 64 := by
  have hle := Nat.ge_two_pow_of_testBit h
  have hlt := word.toNat_lt
  exact (Nat.pow_lt_pow_iff_right (by decide)).mp (Nat.lt_of_le_of_lt hle hlt)

/-- The empty word has no bit. -/
theorem eq_zero_iff {word : UInt64} : word = 0 ↔ ∀ i, word.toNat.testBit i = false := by
  constructor
  · rintro rfl i
    exact Nat.zero_testBit i
  · intro h
    apply UInt64.toNat_inj.mp
    exact Nat.eq_of_testBit_eq fun i => by rw [h, UInt64.toNat_zero, Nat.zero_testBit]

/-- The word of one position has no other bit. -/
theorem testBit_bit {position : Nat} (h : position < 64) (i : Nat) :
    (bit position).toNat.testBit i = decide (position = i) := by
  have hpow : 2 ^ position < 2 ^ 64 := Nat.pow_lt_pow_right (by decide) h
  have hsmall : position < 2 ^ 64 := by omega
  rw [bit, UInt64.toNat_shiftLeft, UInt64.toNat_ofNat', UInt64.toNat_one, Nat.mod_eq_of_lt hsmall,
    Nat.mod_eq_of_lt h, Nat.one_shiftLeft, Nat.mod_eq_of_lt hpow, Nat.testBit_two_pow]

/-- A word has the bits of the number that it is. -/
theorem hasBit_eq {position : Nat} (h : position < 64) (word : UInt64) :
    hasBit position word = word.toNat.testBit position := by
  have hand (i : Nat) : (word &&& bit position).toNat.testBit i =
      (word.toNat.testBit i && decide (position = i)) := by
    rw [UInt64.toNat_and, Nat.testBit_and, testBit_bit h]
  rw [hasBit, Bool.eq_iff_iff, bne_iff_ne, Ne, eq_zero_iff]
  constructor
  · intro hsome
    rw [← Bool.not_eq_false]
    intro hnone
    refine hsome fun i => ?_
    rw [hand]
    by_cases hi : position = i
    · rw [← hi, hnone, Bool.false_and]
    · rw [decide_eq_false hi, Bool.and_false]
  · intro hbit hnone
    have hhere := hnone position
    rw [hand, hbit, decide_eq_true rfl] at hhere
    cases hhere

/-- The bits of a word without those of another one. -/
theorem testBit_and_not (word other : UInt64) (i : Nat) :
    (word &&& ~~~other).toNat.testBit i = (word.toNat.testBit i && !other.toNat.testBit i) := by
  rw [UInt64.toNat_and, Nat.testBit_and]
  cases hword : word.toNat.testBit i with
  | false => rw [Bool.false_and, Bool.false_and]
  | true =>
    have hnot : (~~~other.toBitVec).getLsbD i = !other.toBitVec.getLsbD i := by
      simp [lt_of_testBit hword]
    rw [Bool.true_and, Bool.true_and]
    exact hnot

/-! ### The lowest bit -/

/-- A search for a bit stops at the first one, or behind the positions searched. -/
theorem firstFrom_spec (word : UInt64) (count position : Nat)
    (h : ∀ i < position, word.toNat.testBit i = false) :
    (∀ i < firstFrom word count position, word.toNat.testBit i = false) ∧
      (word.toNat.testBit (firstFrom word count position) = true ∨
        firstFrom word count position = position + count) := by
  induction count generalizing position with
  | zero => exact ⟨h, .inr rfl⟩
  | succ count ih =>
    rw [firstFrom]
    split
    case isTrue hbit => exact ⟨h, .inl hbit⟩
    case isFalse hbit =>
      obtain ⟨hbelow, hstop⟩ := ih (position + 1) fun i hi => by
        rcases Nat.lt_or_eq_of_le (Nat.le_of_lt_succ hi) with hlt | rfl
        · exact h i hlt
        · exact Bool.eq_false_iff.mpr hbit
      refine ⟨hbelow, hstop.imp_right fun hend => ?_⟩
      omega

/-- A word has no bit below its lowest one. -/
theorem lowest_le {word : UInt64} {i : Nat} (h : word.toNat.testBit i = true) : lowest word ≤ i := by
  refine Nat.not_lt.mp fun hlt => ?_
  have hnone := (firstFrom_spec word 64 0 fun _ hi => by cases hi).1 i hlt
  rw [h] at hnone
  cases hnone

/-- A word that is not empty has its lowest bit. -/
theorem testBit_lowest {word : UInt64} (h : word ≠ 0) : word.toNat.testBit (lowest word) = true := by
  rcases (firstFrom_spec word 64 0 fun _ hi => by cases hi).2 with hbit | hend
  · exact hbit
  · refine absurd (eq_zero_iff.mpr fun i => Bool.eq_false_iff.mpr fun hi => ?_) h
    have hlt := lt_of_testBit hi
    have hle := lowest_le hi
    rw [lowest, hend] at hle
    omega

/-- A number with a lowest bit is an odd number, shifted there. -/
theorem exists_eq_of_lowest {n k : Nat} (hbit : n.testBit k = true)
    (hlower : ∀ i < k, n.testBit i = false) : ∃ rest, n = (2 * rest + 1) <<< k := by
  have hmod : n % 2 ^ k = 0 := Nat.eq_of_testBit_eq fun i => by
    rw [Nat.testBit_mod_two_pow, Nat.zero_testBit]
    by_cases hi : i < k
    · rw [hlower i hi, Bool.and_false]
    · rw [decide_eq_false hi, Bool.false_and]
  have hodd : n / 2 ^ k % 2 = 1 := by
    rwa [← Nat.zero_add k, ← Nat.testBit_div_two_pow, Nat.testBit_zero, decide_eq_true_eq] at hbit
  refine ⟨n / 2 ^ k / 2, ?_⟩
  have hsplit := Nat.div_add_mod n (2 ^ k)
  have hhalf := Nat.div_add_mod (n / 2 ^ k) 2
  rw [hmod, Nat.add_zero] at hsplit
  rw [hodd] at hhalf
  rw [hhalf, Nat.shiftLeft_eq, Nat.mul_comm, hsplit]

/-- Subtracting one borrows from the lowest bit, and the bits above stay. -/
theorem testBit_and_sub_one {n k : Nat} (hbit : n.testBit k = true)
    (hlower : ∀ i < k, n.testBit i = false) (i : Nat) :
    (n &&& (n - 1)).testBit i = (n.testBit i && decide (i ≠ k)) := by
  obtain ⟨rest, hodd⟩ := exists_eq_of_lowest hbit hlower
  have hpos := Nat.two_pow_pos k
  have hn : n = 2 ^ (k + 1) * rest + 2 ^ k := by
    rw [hodd, Nat.shiftLeft_eq, Nat.add_mul, Nat.one_mul, Nat.pow_succ', Nat.mul_right_comm]
  have hdouble : 2 ^ (k + 1) = 2 ^ k * 2 := Nat.pow_succ ..
  have hpred : n - 1 = 2 ^ (k + 1) * rest + (2 ^ k - 1) := by omega
  rw [Nat.testBit_and, hpred, Nat.testBit_two_pow_mul_add _ (by omega),
    Nat.testBit_two_pow_sub_one]
  rcases Nat.lt_trichotomy i k with hi | rfl | hi
  · rw [hlower i hi, Bool.false_and, Bool.false_and]
  · simp
  · have hbeyond : ¬i < k + 1 := by omega
    rw [if_neg hbeyond, hn, Nat.testBit_two_pow_mul_add _ (by omega), if_neg hbeyond]
    simp [Nat.ne_of_gt hi]

/-- Clearing the lowest bit keeps the others. -/
theorem testBit_clearLowest {word : UInt64} (h : word ≠ 0) (i : Nat) :
    (clearLowest word).toNat.testBit i = (word.toNat.testBit i && decide (i ≠ lowest word)) := by
  have hbit := testBit_lowest h
  have hlower (j : Nat) (hj : j < lowest word) : word.toNat.testBit j = false :=
    Bool.eq_false_iff.mpr fun htrue => by
      have := lowest_le htrue
      omega
  have hpos := Nat.ge_two_pow_of_testBit hbit
  have hone : (1 : UInt64) ≤ word := by
    rw [UInt64.le_iff_toNat_le, UInt64.toNat_one]
    exact Nat.le_trans (Nat.two_pow_pos _) hpos
  rw [clearLowest, UInt64.toNat_and, UInt64.toNat_sub_of_le _ _ hone, UInt64.toNat_one,
    testBit_and_sub_one hbit hlower]

/-! ### The list of positions -/

/-- As many rounds as there are positions from the lowest bit on find every bit, in order. -/
theorem positionsIn_spec (rounds : Nat) (word : UInt64)
    (h : ∀ i, word.toNat.testBit i = true → 64 ≤ i + rounds) :
    (∀ i, i ∈ positionsIn rounds word ↔ word.toNat.testBit i = true) ∧
      (positionsIn rounds word).Pairwise (· < ·) := by
  induction rounds generalizing word with
  | zero =>
    have hnone (i : Nat) : word.toNat.testBit i = false := Bool.eq_false_iff.mpr fun htrue => by
      have hle := h i htrue
      have hlt := lt_of_testBit htrue
      omega
    simp [positionsIn, hnone]
  | succ rounds ih =>
    by_cases hzero : word = 0
    · simp [positionsIn, hzero]
    · have hclear := testBit_clearLowest hzero
      obtain ⟨hmem, hpairwise⟩ := ih (clearLowest word) fun i hi => by
        rw [hclear, Bool.and_eq_true, decide_eq_true_eq] at hi
        have hlow := h _ (testBit_lowest hzero)
        have hle := lowest_le hi.1
        omega
      rw [positionsIn, if_neg hzero]
      refine ⟨fun i => ?_, List.pairwise_cons.mpr ⟨fun i hi => ?_, hpairwise⟩⟩
      · rw [List.mem_cons, hmem, hclear, Bool.and_eq_true, decide_eq_true_eq]
        by_cases hi : i = lowest word
        · simp [hi, testBit_lowest hzero]
        · simp [hi]
      · rw [hmem, hclear, Bool.and_eq_true, decide_eq_true_eq] at hi
        have hle := lowest_le hi.1
        omega

/-- The positions are those of the bits. -/
@[simp] theorem mem_positions {i : Nat} {word : UInt64} :
    i ∈ positions word ↔ word.toNat.testBit i = true :=
  (positionsIn_spec 64 word fun i _ => Nat.le_add_left 64 i).1 i

/-- The positions ascend. -/
theorem pairwise_positions (word : UInt64) : (positions word).Pairwise (· < ·) :=
  (positionsIn_spec 64 word fun i _ => Nat.le_add_left 64 i).2

/-- The first position is that of the lowest bit. -/
theorem head?_positions (word : UInt64) :
    (positions word).head? = if word = 0 then none else some (lowest word) := by
  rw [positions, positionsIn]
  split <;> rfl

end ScheduleExplorer.Word
