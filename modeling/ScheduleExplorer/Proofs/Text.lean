import Mathlib.Data.List.Basic
import Mathlib.Data.List.DropRight
import Mathlib.Data.List.TakeWhile
import ScheduleExplorer.Text.Blank
import ScheduleExplorer.Text.Natural

/-!
# Reading what was written

A text that is put together from parts is taken apart again where the parts were joined, as long as
the separator does not occur in the first part. A number that is written in decimal is read as the
same number if it is a word, and refused otherwise.

What a text is read as is also said without the reader: `Surrounds` is the text inside the blanks,
and `Writes` the number that digits write.
-/

namespace ScheduleExplorer.Text

/-- A text without the separator is not split. -/
theorem splitFirst?_eq_none {separator : Char} {s : List Char} (h : separator ∉ s) :
    splitFirst? separator s = none := by
  induction s with
  | nil => rfl
  | cons c rest ih =>
    rw [List.mem_cons, not_or] at h
    rw [splitFirst?, if_neg (Ne.symm h.1), ih h.2, Option.map_none]

/-- A text is split where the separator occurs first. -/
theorem splitFirst?_append {separator : Char} {before : List Char} (h : separator ∉ before)
    (after : List Char) :
    splitFirst? separator (before ++ separator :: after) = some (before, after) := by
  induction before with
  | nil => exact if_pos rfl
  | cons c rest ih =>
    rw [List.mem_cons, not_or] at h
    rw [List.cons_append, splitFirst?, if_neg (Ne.symm h.1), ih h.2, Option.map_some]

/-- A text is split before the separator occurs. -/
theorem not_mem_of_splitFirst? {separator : Char} {s before after : List Char}
    (h : splitFirst? separator s = some (before, after)) : separator ∉ before := by
  induction s generalizing before with
  | nil => cases h
  | cons c rest ih =>
    rw [splitFirst?] at h
    split at h
    · obtain rfl := (Prod.mk.inj (Option.some.inj h)).1
      exact List.not_mem_nil
    · next hother =>
      obtain ⟨⟨earlier, later⟩, hsplit, heq⟩ := Option.map_eq_some_iff.mp h
      obtain ⟨rfl, rfl⟩ := Prod.mk.inj heq
      rw [List.mem_cons, not_or]
      exact ⟨Ne.symm hother, ih hsplit⟩

/-- A character between two printable ASCII characters other than the space is not blank. -/
theorem isBlank_eq_false {c first last : Char} (hfirst : first.val ≤ c.val)
    (hlast : c.val ≤ last.val) (hfrom : 0x20 < first.toNat) (hto : last.toNat < 0x7F) :
    isBlank c = false := by
  have hlower : first.toNat ≤ c.toNat := UInt32.le_iff_toNat_le.mp hfirst
  have hupper : c.toNat ≤ last.toNat := UInt32.le_iff_toNat_le.mp hlast
  simp only [isBlank, Bool.or_eq_false_iff, Bool.and_eq_false_imp, decide_eq_true_eq,
    decide_eq_false_iff_not, beq_eq_false_iff_ne]
  omega

/-- A text without blanks is not trimmed. -/
theorem trim_eq_self {s : List Char} (h : ∀ c ∈ s, isBlank c = false) : trim s = s := by
  have hkeep (t : List Char) (ht : ∀ c ∈ t, isBlank c = false) : t.dropWhile isBlank = t := by
    cases t with
    | nil => rfl
    | cons c rest => rw [List.dropWhile_cons, ht c List.mem_cons_self, if_neg Bool.false_ne_true]
  rw [trim, hkeep s h, hkeep s.reverse fun c hc => h c (List.mem_reverse.mp hc),
    List.reverse_reverse]

/-- Trimming adds nothing. -/
theorem mem_of_mem_trim {s : List Char} {c : Char} (h : c ∈ trim s) : c ∈ s := by
  rw [trim, List.mem_reverse] at h
  have hmem := (List.dropWhile_sublist isBlank).subset h
  exact (List.dropWhile_sublist isBlank).subset (List.mem_reverse.mp hmem)

/-- The value of digits is the number that they write. -/
theorem digitsValue?_eq {s : List Char} (h : ∀ c ∈ s, c.isDigit = true) (acc : Nat) :
    digitsValue? acc s = some (Nat.ofDigitChars 10 s acc) := by
  induction s generalizing acc with
  | nil => rfl
  | cons c rest ih =>
    rw [digitsValue?, if_pos (h c List.mem_cons_self),
      ih (fun d hd => h d (List.mem_cons_of_mem c hd)), Nat.ofDigitChars_cons]

/-- The digits of a number. -/
theorem isDigit_of_mem_toDigits {n : Nat} {c : Char} (h : c ∈ Nat.toDigits 10 n) :
    c.isDigit = true :=
  Nat.isDigit_of_mem_toDigits (by omega) (Nat.le_refl 10) h

/-- A number has a first digit. -/
theorem exists_first_toDigits (n : Nat) :
    ∃ first digits, Nat.toDigits 10 n = first :: digits ∧ first.isDigit = true := by
  obtain ⟨first, digits, hdigits⟩ : ∃ first digits, Nat.toDigits 10 n = first :: digits :=
    List.exists_cons_of_ne_nil Nat.toDigits_ne_nil
  exact ⟨first, digits, hdigits, isDigit_of_mem_toDigits (n := n) (hdigits ▸ List.mem_cons_self)⟩

/-- A number is read back from its digits exactly if it is a word. -/
theorem readWord?_toDigits (n : Nat) :
    readWord? (Nat.toDigits 10 n) = if n < Nat.pow 2 64 then some n else none := by
  have hvalue : digitsValue? 0 (Nat.toDigits 10 n) = some n := by
    rw [digitsValue?_eq fun c => isDigit_of_mem_toDigits, Nat.ofDigitChars_ten_toDigits]
  obtain ⟨first, rest, hdigits, hfirst⟩ := exists_first_toDigits n
  have hplus : first ≠ '+' := by
    rintro rfl
    cases hfirst
  rw [hdigits] at hvalue ⊢
  rw [readWord?]
  · rw [List.isEmpty_cons, if_neg Bool.false_ne_true, hvalue, Option.filter_some]
    simp only [decide_eq_true_eq]
  · intro digits heq
    exact hplus (List.cons.inj heq).1

/-! ### Blanks around a text -/

/-- A text is another one with blanks around it, and that one neither begins nor ends with a
blank. -/
structure Surrounds (s core : List Char) : Prop where
  exists_blanks : ∃ before after, s = before ++ core ++ after ∧
    (∀ c ∈ before, isBlank c = true) ∧ ∀ c ∈ after, isBlank c = true
  head : ∀ c ∈ core.head?, isBlank c = false
  last : ∀ c ∈ core.getLast?, isBlank c = false

/-- What is left of a text without the blanks before it does not begin with one. -/
theorem isBlank_head_dropWhile (s : List Char) :
    ∀ c ∈ (s.dropWhile isBlank).head?, isBlank c = false := by
  intro c hc
  have hhead := List.head?_dropWhile_not isBlank s
  rw [Option.mem_def.mp hc] at hhead
  exact hhead

/-- What is trimmed off are the blanks around a text. -/
theorem surrounds_trim (s : List Char) : Surrounds s (trim s) := by
  have htrim : trim s = (s.dropWhile isBlank).rdropWhile isBlank := rfl
  refine ⟨⟨s.takeWhile isBlank, (s.dropWhile isBlank).rtakeWhile isBlank, ?_, ?_, ?_⟩, ?_, ?_⟩
  · rw [htrim, List.append_assoc, List.rdropWhile_append_rtakeWhile,
      List.takeWhile_append_dropWhile]
  · exact fun c hc => List.mem_takeWhile_imp hc
  · exact fun c hc => List.mem_rtakeWhile_imp hc
  · intro c hc
    obtain ⟨rest, hrest⟩ := List.rdropWhile_prefix isBlank (s.dropWhile isBlank)
    obtain ⟨inner, hinner⟩ := List.head?_eq_some_iff.mp hc
    refine isBlank_head_dropWhile s c ?_
    rw [← hrest, ← htrim, hinner]
    rfl
  · rw [trim, List.getLast?_reverse]
    exact isBlank_head_dropWhile _

/-- Trimming removes the blanks around a text and nothing else. -/
theorem trim_eq_iff {s core : List Char} : trim s = core ↔ Surrounds s core := by
  have hkeep (t : List Char) (ht : ∀ c ∈ t.head?, isBlank c = false) :
      t.dropWhile isBlank = t := by
    cases t with
    | nil => rfl
    | cons c rest => rw [List.dropWhile_cons, ht c rfl, if_neg Bool.false_ne_true]
  refine ⟨fun h => h ▸ surrounds_trim s, fun h => ?_⟩
  obtain ⟨before, after, rfl, hbefore, hafter⟩ := h.exists_blanks
  rw [trim, List.append_assoc, List.dropWhile_append_of_pos hbefore, List.dropWhile_append,
    hkeep core h.head]
  cases core with
  | nil =>
    have hnone : after.dropWhile isBlank = [] := List.dropWhile_eq_nil_iff.mpr hafter
    rw [List.isEmpty_nil, if_pos rfl, hnone]
    rfl
  | cons c rest =>
    have hlast : (c :: rest).reverse.dropWhile isBlank = (c :: rest).reverse :=
      hkeep _ (by rw [List.head?_reverse]; exact h.last)
    rw [List.isEmpty_cons, if_neg Bool.false_ne_true, List.reverse_append,
      List.dropWhile_append_of_pos fun c hc => hafter c (List.mem_reverse.mp hc), hlast,
      List.reverse_reverse]

/-! ### Numbers -/

/-- A text writes a number: it has at least one digit, and a plus sign may stand before them. -/
def Writes (s : List Char) (n : Nat) : Prop :=
  ∃ digits, digits ≠ [] ∧ (∀ c ∈ digits, c.isDigit = true) ∧
    (s = digits ∨ s = '+' :: digits) ∧ Nat.ofDigitChars 10 digits 0 = n

/-- A text has a value if it consists of digits. -/
theorem digitsValue?_eq_some_iff {s : List Char} {acc n : Nat} :
    digitsValue? acc s = some n ↔
      (∀ c ∈ s, c.isDigit = true) ∧ Nat.ofDigitChars 10 s acc = n := by
  have hdigits (h : digitsValue? acc s = some n) : ∀ c ∈ s, c.isDigit = true := by
    induction s generalizing acc with
    | nil => exact fun c hc => absurd hc List.not_mem_nil
    | cons c rest ih =>
      rw [digitsValue?] at h
      split at h
      · next hdigit => exact List.forall_mem_cons.mpr ⟨hdigit, ih h⟩
      · cases h
  constructor
  · intro h
    have hvalue := digitsValue?_eq (hdigits h) acc
    exact ⟨hdigits h, Option.some.inj (hvalue.symm.trans h)⟩
  · rintro ⟨h, rfl⟩
    exact digitsValue?_eq h acc

/-- A word is read from the texts that write it. -/
theorem readWord?_eq_some_iff {s : List Char} {n : Nat} :
    readWord? s = some n ↔ Writes s n ∧ n < Nat.pow 2 64 := by
  have hvalue (digits : List Char) :
      (if digits.isEmpty then none else (digitsValue? 0 digits).filter (· < Nat.pow 2 64)) =
          some n ↔
        (digits ≠ [] ∧ (∀ c ∈ digits, c.isDigit = true) ∧ Nat.ofDigitChars 10 digits 0 = n) ∧
          n < Nat.pow 2 64 := by
    cases digits with
    | nil => simp
    | cons c rest => simp [Option.filter_eq_some_iff, digitsValue?_eq_some_iff, and_assoc]
  by_cases hsign : ∃ rest, s = '+' :: rest
  · obtain ⟨rest, rfl⟩ := hsign
    rw [readWord?, hvalue, Writes]
    refine and_congr_left' ⟨fun ⟨hne, hdigits, hn⟩ => ⟨rest, hne, hdigits, .inr rfl, hn⟩, ?_⟩
    rintro ⟨digits, hne, hdigits, rfl | heq, hn⟩
    · exact absurd (hdigits '+' List.mem_cons_self) (by decide)
    · obtain rfl := (List.cons.inj heq).2
      exact ⟨hne, hdigits, hn⟩
  · have hnone (rest : List Char) (heq : s = '+' :: rest) : False := hsign ⟨rest, heq⟩
    rw [readWord?, hvalue, Writes]
    · refine and_congr_left' ⟨fun ⟨hne, hdigits, hn⟩ => ⟨s, hne, hdigits, .inl rfl, hn⟩, ?_⟩
      rintro ⟨digits, hne, hdigits, rfl | heq, hn⟩
      · exact ⟨hne, hdigits, hn⟩
      · exact (hnone digits heq).elim
    · exact hnone

/-- A text that writes a number has no colon. -/
theorem Writes.colon_not_mem {s : List Char} {n : Nat} (h : Writes s n) : ':' ∉ s := by
  obtain ⟨digits, -, hdigits, hs, -⟩ := h
  have hcolon : ':' ∉ digits := fun hmem => absurd (hdigits ':' hmem) (by decide)
  rcases hs with rfl | rfl
  · exact hcolon
  · exact List.not_mem_cons_of_ne_of_not_mem (by decide) hcolon

end ScheduleExplorer.Text
