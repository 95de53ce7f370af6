/-!
# Blank characters

Names are read with the blanks around them removed. A blank is a character with the Unicode
property White_Space, which is a larger set than the core library's `Char.isWhitespace`.
-/

namespace ScheduleExplorer.Text

/-- The characters with the Unicode property White_Space. -/
def isBlank (c : Char) : Bool :=
  let n := c.toNat
  (0x9 ≤ n && n ≤ 0xD) || n == 0x20 || n == 0x85 || n == 0xA0 || n == 0x1680 ||
    (0x2000 ≤ n && n ≤ 0x200A) || n == 0x2028 || n == 0x2029 || n == 0x202F || n == 0x205F ||
    n == 0x3000

/-- The text without the blanks at its two ends; blanks inside it stay. -/
def trim (s : List Char) : List Char :=
  ((s.dropWhile isBlank).reverse.dropWhile isBlank).reverse

/-- Letters outside ASCII keep their case. -/
def lowerAscii (s : List Char) : List Char :=
  s.map Char.toLower

/-- The parts of a text before and after the first occurrence of a separator, which is in
neither; `none` without one. -/
def splitFirst? (separator : Char) : List Char → Option (List Char × List Char)
  | [] => none
  | c :: rest =>
    if c = separator then some ([], rest)
    else (splitFirst? separator rest).map fun (before, after) => (c :: before, after)

/-- A split gives the text back. -/
theorem eq_append_of_splitFirst? {separator : Char} {s before after : List Char}
    (h : splitFirst? separator s = some (before, after)) : s = before ++ separator :: after := by
  induction s generalizing before with
  | nil => simp [splitFirst?] at h
  | cons c rest ih =>
    by_cases hc : c = separator
    · simp [splitFirst?, hc] at h
      simp [hc, h.1, h.2]
    · simp only [splitFirst?, hc, if_false, Option.map_eq_some_iff, Prod.mk.injEq] at h
      obtain ⟨⟨b, a⟩, hsplit, hb, ha⟩ := h
      subst hb ha
      simp [ih hsplit]

/-- Both parts of a split are shorter than the text. -/
theorem length_lt_of_splitFirst? {separator : Char} {s before after : List Char}
    (h : splitFirst? separator s = some (before, after)) :
    before.length < s.length ∧ after.length < s.length := by
  rw [eq_append_of_splitFirst? h]
  simp
  omega

/-- Removing blanks never lengthens a text. -/
theorem length_trim_le (s : List Char) : (trim s).length ≤ s.length := by
  simp only [trim, List.length_reverse]
  calc _ ≤ (s.dropWhile isBlank).reverse.length :=
        (List.dropWhile_sublist isBlank).length_le
    _ = (s.dropWhile isBlank).length := List.length_reverse
    _ ≤ s.length := (List.dropWhile_sublist isBlank).length_le

end ScheduleExplorer.Text
