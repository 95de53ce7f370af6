import ScheduleExplorer.Dpor.Word
import ScheduleExplorer.Operation.Id

/-!
# Sets of operations

A set of operations is a list of 64-bit words: the operation with number `n` belongs to it if word
`n / 64` has the bit `n % 64`. Words are added when a member needs them and taken back only by
`clear`. Two sets are combined word by word as far as both have words, and they are equal when their
words are, so that empty words at the end count.
-/

namespace ScheduleExplorer

/-- A finite set of operations. -/
structure OpSet where
  words : List UInt64 := []
deriving DecidableEq, Inhabited

namespace OpSet

/-- The word that an operation has its bit in. -/
def wordOf (id : OperationId) : Nat :=
  id.index / 64

/-- The bit of an operation in its word. -/
def bitOf (id : OperationId) : Nat :=
  id.index % 64

/-- The operation of a bit of a word. -/
def operationAt (word bit : Nat) : OperationId :=
  ⟨word * 64 + bit⟩

/-- Changes the words of a set by the words of another one, as far as both go. -/
def combine (f : UInt64 → UInt64 → UInt64) : List UInt64 → List UInt64 → List UInt64
  | mine :: rest, theirs :: others => f mine theirs :: combine f rest others
  | mine, _ => mine

/-- Whether an operation belongs to the set. -/
def contains (id : OperationId) (set : OpSet) : Bool :=
  match set.words[wordOf id]? with
  | some word => Word.hasBit (bitOf id) word
  | none => false

/-- Adds an operation. -/
def insert (id : OperationId) (set : OpSet) : OpSet :=
  ⟨(set.words.rightpad (wordOf id + 1) 0).modify (wordOf id) (· ||| Word.bit (bitOf id))⟩

/-- Takes an operation out. -/
def erase (id : OperationId) (set : OpSet) : OpSet :=
  ⟨set.words.modify (wordOf id) (· &&& ~~~Word.bit (bitOf id))⟩

/-- Adds the members of another set. -/
def union (set other : OpSet) : OpSet :=
  ⟨combine (· ||| ·) (set.words.rightpad other.words.length 0) other.words⟩

/-- Takes the members of another set out. -/
def difference (set other : OpSet) : OpSet :=
  ⟨combine (· &&& ~~~·) set.words other.words⟩

/-- Whether two sets have a common member. -/
def intersects (set other : OpSet) : Bool :=
  (set.words.zip other.words).any fun (mine, theirs) => mine &&& theirs != 0

/-- Whether the set has no member. -/
def isEmpty (set : OpSet) : Bool :=
  set.words.all (· == 0)

/-- The members in ascending order. -/
def toList (set : OpSet) : List OperationId :=
  set.words.zipIdx.flatMap fun (word, index) => (Word.positions word).map (operationAt index)

/-- The least member. -/
def first? (set : OpSet) : Option OperationId :=
  set.words.zipIdx.findSome? fun (word, index) =>
    if word = 0 then none else some (operationAt index (Word.lowest word))

/-- The number of members. -/
def size (set : OpSet) : Nat :=
  set.words.foldr (fun word count => Word.size word + count) 0

/-- Takes every member out and gives the words back. -/
def clear (_ : OpSet) : OpSet :=
  {}

/-- The set of the operations of a list. -/
def ofList (ids : List OperationId) : OpSet :=
  ids.foldl (fun set id => set.insert id) {}

/-- The members in braces. -/
def text (set : OpSet) : String :=
  "\x7b" ++ ", ".intercalate (set.toList.map fun id => toString id.index) ++ "\x7d"

/-! ### Words

A set is read through its words, with the empty word beyond the last one. -/

/-- The word at an index. -/
def wordAt (index : Nat) (words : List UInt64) : UInt64 :=
  words[index]?.getD 0

/-- The words beyond the last one are empty. -/
theorem wordAt_of_le {index : Nat} {words : List UInt64} (h : words.length ≤ index) :
    wordAt index words = 0 := by
  rw [wordAt, List.getElem?_eq_none h, Option.getD_none]

/-- Adding empty words changes no word. -/
theorem wordAt_rightpad (count index : Nat) (words : List UInt64) :
    wordAt index (words.rightpad count 0) = wordAt index words := by
  rw [wordAt, wordAt, List.rightpad]
  rcases Nat.lt_or_ge index words.length with hlt | hge
  · rw [List.getElem?_append_left hlt]
  · rw [List.getElem?_append_right hge, List.getElem?_eq_none hge, List.getElem?_replicate]
    split <;> rfl

/-- Changing a word changes no other one. -/
theorem wordAt_modify (index other : Nat) (f : UInt64 → UInt64) (words : List UInt64) :
    wordAt other (words.modify index f) =
      if index = other ∧ index < words.length then f (wordAt other words)
      else wordAt other words := by
  rcases Nat.lt_or_ge other words.length with hlt | hge
  · rw [wordAt, wordAt, List.getElem?_modify, List.getElem?_eq_getElem hlt]
    by_cases heq : index = other
    · subst heq
      simp [hlt]
    · simp [heq]
  · rw [if_neg (by omega), wordAt_of_le hge, wordAt_of_le (by rwa [List.length_modify])]

/-- Two sets are combined as far as both have words. -/
theorem wordAt_combine (f : UInt64 → UInt64 → UInt64) (index : Nat) (mine theirs : List UInt64) :
    wordAt index (combine f mine theirs) =
      if index < mine.length ∧ index < theirs.length then
        f (wordAt index mine) (wordAt index theirs)
      else wordAt index mine := by
  fun_induction combine f mine theirs generalizing index with
  | case1 mine rest theirs others ih =>
    cases index with
    | zero => simp [wordAt]
    | succ index => simpa [wordAt] using ih index
  | case2 mine theirs hstop =>
    cases mine with
    | nil => simp
    | cons mine rest =>
      cases theirs with
      | nil => simp
      | cons theirs others => exact (hstop _ _ _ _ rfl rfl).elim

/-! ### Members -/

/-- An operation is known by its word and its bit. -/
theorem eq_iff {id other : OperationId} :
    id = other ↔ wordOf id = wordOf other ∧ bitOf id = bitOf other := by
  cases id with | mk i
  cases other with | mk j
  simp only [OperationId.mk.injEq, wordOf, bitOf]
  omega

/-- The position of a number within its word. -/
theorem bitOf_lt (id : OperationId) : bitOf id < 64 :=
  Nat.mod_lt _ (by decide)

/-- The word and the bit of the operation at a bit of a word. -/
theorem operationAt_eq_iff {word bit : Nat} (h : bit < 64) (id : OperationId) :
    operationAt word bit = id ↔ word = wordOf id ∧ bit = bitOf id := by
  cases id with | mk i
  simp only [operationAt, OperationId.mk.injEq, wordOf, bitOf]
  omega

/-- An operation belongs to a set if its word has its bit. -/
theorem contains_eq (id : OperationId) (set : OpSet) :
    set.contains id = (wordAt (wordOf id) set.words).toNat.testBit (bitOf id) := by
  rw [contains, wordAt]
  cases set.words[wordOf id]? with
  | none => rw [Option.getD_none, UInt64.toNat_zero, Nat.zero_testBit]
  | some word => exact Word.hasBit_eq (bitOf_lt id) word

/-- Nothing is in the empty set. -/
@[simp] theorem contains_empty (id : OperationId) : ({} : OpSet).contains id = false :=
  rfl

/-- An insertion adds one number. -/
@[simp] theorem contains_insert (id other : OperationId) (set : OpSet) :
    (set.insert id).contains other = (set.contains other || id = other) := by
  have hroom : wordOf id < (set.words.rightpad (wordOf id + 1) 0).length := by
    rw [List.rightpad, List.length_append, List.length_replicate]
    omega
  rw [contains_eq, contains_eq, insert, wordAt_modify, wordAt_rightpad]
  by_cases hword : wordOf id = wordOf other
  · rw [if_pos ⟨hword, hroom⟩, UInt64.toNat_or, Nat.testBit_or, Word.testBit_bit (bitOf_lt id)]
    simp [eq_iff, hword]
  · rw [if_neg fun h => hword h.1]
    simp [eq_iff, hword]

/-- An erasure takes one number out. -/
@[simp] theorem contains_erase (id other : OperationId) (set : OpSet) :
    (set.erase id).contains other = (set.contains other && id ≠ other) := by
  rw [contains_eq, contains_eq, erase, wordAt_modify]
  by_cases hword : wordOf id = wordOf other
  · by_cases hroom : wordOf id < set.words.length
    · rw [if_pos ⟨hword, hroom⟩, Word.testBit_and_not, Word.testBit_bit (bitOf_lt id)]
      simp [eq_iff, hword]
    · rw [if_neg fun h => hroom h.2, ← hword, wordAt_of_le (Nat.not_lt.mp hroom),
        UInt64.toNat_zero, Nat.zero_testBit, Bool.false_and]
  · rw [if_neg fun h => hword h.1]
    simp [eq_iff, hword]

/-- A union has the numbers of both sets. -/
@[simp] theorem contains_union (id : OperationId) (set other : OpSet) :
    (set.union other).contains id = (set.contains id || other.contains id) := by
  have hroom : other.words.length ≤ (set.words.rightpad other.words.length 0).length := by
    rw [List.rightpad, List.length_append, List.length_replicate]
    omega
  rw [contains_eq, contains_eq, contains_eq, union, wordAt_combine, wordAt_rightpad]
  split
  case isTrue => rw [UInt64.toNat_or, Nat.testBit_or]
  case isFalse h =>
    have hbeyond : other.words.length ≤ wordOf id := by omega
    rw [wordAt_of_le hbeyond, UInt64.toNat_zero, Nat.zero_testBit, Bool.or_false]

/-- A difference has the numbers of the first set that are not in the second. -/
@[simp] theorem contains_difference (id : OperationId) (set other : OpSet) :
    (set.difference other).contains id = (set.contains id && !other.contains id) := by
  rw [contains_eq, contains_eq, contains_eq, difference, wordAt_combine]
  split
  case isTrue => exact Word.testBit_and_not ..
  case isFalse h =>
    have hbeyond : set.words.length ≤ wordOf id ∨ other.words.length ≤ wordOf id := by omega
    rcases hbeyond with hbeyond | hbeyond
    · rw [wordAt_of_le hbeyond, UInt64.toNat_zero, Nat.zero_testBit, Bool.false_and]
    · rw [wordAt_of_le hbeyond, UInt64.toNat_zero, Nat.zero_testBit, Bool.not_false, Bool.and_true]

/-- The set of a list holds its operations. -/
@[simp] theorem contains_ofList {id : OperationId} {ids : List OperationId} :
    (ofList ids).contains id = true ↔ id ∈ ids := by
  have hfold (set : OpSet) : (ids.foldl (fun set id => set.insert id) set).contains id = true ↔
      set.contains id = true ∨ id ∈ ids := by
    induction ids generalizing set with
    | nil => simp
    | cons first rest ih =>
      rw [List.foldl_cons, ih, contains_insert, Bool.or_eq_true, decide_eq_true_eq, List.mem_cons,
        or_assoc, eq_comm (a := id)]
  rw [ofList, hfold]
  simp

/-- An operation belongs to a set if the set has its word, and the word its bit. -/
theorem contains_iff {id : OperationId} {set : OpSet} :
    set.contains id = true ↔
      ∃ word, set.words[wordOf id]? = some word ∧ word.toNat.testBit (bitOf id) = true := by
  rw [contains]
  cases set.words[wordOf id]? with
  | none => simp
  | some word => simp [Word.hasBit_eq (bitOf_lt id)]

/-- Each bit of a word is that of a member. -/
theorem contains_operationAt {set : OpSet} {index bit : Nat} {word : UInt64}
    (hword : set.words[index]? = some word) (hbit : word.toNat.testBit bit = true) :
    set.contains (operationAt index bit) = true := by
  obtain ⟨hindex, hposition⟩ := (operationAt_eq_iff (Word.lt_of_testBit hbit) _).mp rfl
  rw [contains_iff, ← hindex, ← hposition]
  exact ⟨word, hword, hbit⟩

/-- Sets intersect if they have a common member. -/
theorem intersects_iff {set other : OpSet} :
    set.intersects other = true ↔ ∃ id, set.contains id = true ∧ other.contains id = true := by
  rw [intersects, List.any_eq_true]
  constructor
  · rintro ⟨⟨mine, theirs⟩, hmem, hcommon⟩
    obtain ⟨index, hindex⟩ := List.mem_iff_getElem?.mp hmem
    obtain ⟨hmine, htheirs⟩ := List.getElem?_zip_eq_some.mp hindex
    rw [bne_iff_ne, Ne, Word.eq_zero_iff, Classical.not_forall] at hcommon
    obtain ⟨bit, hbit⟩ := hcommon
    rw [Bool.not_eq_false, UInt64.toNat_and, Nat.testBit_and, Bool.and_eq_true] at hbit
    exact ⟨operationAt index bit, contains_operationAt hmine hbit.1,
      contains_operationAt htheirs hbit.2⟩
  · rintro ⟨id, hset, hother⟩
    obtain ⟨mine, hmine, hbit⟩ := contains_iff.mp hset
    obtain ⟨theirs, htheirs, hbit'⟩ := contains_iff.mp hother
    refine ⟨(mine, theirs),
      List.mem_of_getElem? (List.getElem?_zip_eq_some.mpr ⟨hmine, htheirs⟩), ?_⟩
    rw [bne_iff_ne, Ne, Word.eq_zero_iff]
    intro hnone
    have hcommon := hnone (bitOf id)
    rw [UInt64.toNat_and, Nat.testBit_and, hbit, hbit'] at hcommon
    cases hcommon

/-- Which of two sets is asked does not matter for a common member. -/
theorem intersects_comm (set other : OpSet) : set.intersects other = other.intersects set := by
  rw [Bool.eq_iff_iff, intersects_iff, intersects_iff]
  simp only [and_comm]

/-- A set is empty if nothing belongs to it. -/
theorem isEmpty_iff {set : OpSet} : set.isEmpty = true ↔ ∀ id, set.contains id = false := by
  rw [isEmpty, List.all_eq_true]
  constructor
  · intro hempty id
    refine Bool.eq_false_iff.mpr fun hid => ?_
    obtain ⟨word, hword, hbit⟩ := contains_iff.mp hid
    have hzero := hempty word (List.mem_of_getElem? hword)
    rw [beq_iff_eq, Word.eq_zero_iff] at hzero
    rw [hzero] at hbit
    cases hbit
  · intro hnone word hword
    obtain ⟨index, hindex⟩ := List.mem_iff_getElem?.mp hword
    rw [beq_iff_eq, Word.eq_zero_iff]
    intro bit
    refine Bool.eq_false_iff.mpr fun hbit => ?_
    have hmember := contains_operationAt hindex hbit
    rw [hnone] at hmember
    cases hmember

/-- The list of members holds exactly the operations that belong to the set. -/
@[simp] theorem mem_toList {id : OperationId} {set : OpSet} :
    id ∈ set.toList ↔ set.contains id = true := by
  simp only [toList, List.mem_flatMap, List.mem_map, Word.mem_positions]
  constructor
  · rintro ⟨⟨word, index⟩, hword, bit, hbit, rfl⟩
    exact contains_operationAt (List.mem_zipIdx_iff_getElem?.mp hword) hbit
  · intro hid
    obtain ⟨word, hword, hbit⟩ := contains_iff.mp hid
    exact ⟨(word, wordOf id), List.mem_zipIdx_iff_getElem?.mpr hword, bitOf id, hbit,
      (operationAt_eq_iff (bitOf_lt id) id).mpr ⟨rfl, rfl⟩⟩

/-- The least member is the first one of the list. -/
theorem first?_eq (set : OpSet) : set.first? = set.toList.head? := by
  rw [first?, toList, List.head?_flatMap]
  congr
  funext ⟨word, index⟩
  rw [List.head?_map, Word.head?_positions]
  by_cases hzero : word = 0 <;> simp [hzero]

/-- The least member belongs to the set. -/
theorem contains_of_first? {id : OperationId} {set : OpSet} (h : set.first? = some id) :
    set.contains id = true := by
  rw [first?_eq] at h
  exact mem_toList.mp (List.mem_of_head? h)

end OpSet

end ScheduleExplorer
