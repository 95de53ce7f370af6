import ScheduleExplorer.Json.Parser
import ScheduleExplorer.Json.Printer
import ScheduleExplorer.Proofs.Text

/-!
# JSON text is read as it was written

The text of a value that holds no double is read back as the value, whatever is written after it in an
array or an object. What is written after a value matters for numbers only: the digits of a number end
where another character begins.
-/

namespace ScheduleExplorer.Json

/-- A value that its text says in full: its integers fit the words that integers are read as, and it holds
no double and no unreadable part. -/
inductive IsPlain : Json → Prop
  | null : IsPlain null
  | bool (value : Bool) : IsPlain (bool value)
  | natural {value : Nat} (h : value < Nat.pow 2 64) : IsPlain (natural value)
  | negative {magnitude : Nat} (hpos : 1 ≤ magnitude) (h : magnitude ≤ Nat.pow 2 63) :
      IsPlain (negative magnitude)
  | string (value : String) : IsPlain (string value)
  | array {items : List Json} (h : ∀ item ∈ items, IsPlain item) : IsPlain (array items)
  | object {fields : List (String × Json)} (h : ∀ field ∈ fields, IsPlain field.2) :
      IsPlain (object fields)

/-- An object without fields. -/
theorem IsPlain.noFields : (Json.object []).IsPlain :=
  .object fun _ hfield => absurd hfield List.not_mem_nil

/-- A field before the other fields of an object. -/
theorem IsPlain.field {name : String} {value : Json} {fields : List (String × Json)}
    (h : value.IsPlain) (hfields : (Json.object fields).IsPlain) :
    (Json.object ((name, value) :: fields)).IsPlain := by
  cases hfields with
  | object hfields => exact .object (List.forall_mem_cons.mpr ⟨h, hfields⟩)

/-- The values of a list as the items of an array. -/
theorem IsPlain.items {α : Type} {write : α → Json} {values : List α}
    (h : ∀ a ∈ values, (write a).IsPlain) : (Json.array (values.map write)).IsPlain :=
  .array (List.forall_mem_map.mpr h)

/-! ### Numbers -/

/-- What may be written after a value: nothing, or the character that ends an item. -/
def Delimits (rest : List Char) : Prop :=
  ∀ c ∈ rest.head?, c = ',' ∨ c = ']' ∨ c = '}'

/-- The digits of a number end before what may be written after it. -/
theorem digits?_append {digits rest : List Char} (hdigits : ∀ c ∈ digits, c.isDigit = true)
    (hne : digits ≠ []) (hrest : Delimits rest) : digits? (digits ++ rest) = some (digits, rest) := by
  have hstop : rest.takeWhile Char.isDigit = [] ∧ rest.dropWhile Char.isDigit = rest := by
    cases rest with
    | nil => exact ⟨rfl, rfl⟩
    | cons c rest =>
      have hc : c.isDigit = false := by
        rcases hrest c rfl with rfl | rfl | rfl <;> rfl
      rw [List.takeWhile_cons, List.dropWhile_cons, hc]
      exact ⟨rfl, rfl⟩
  rw [digits?, List.takeWhile_append_of_pos hdigits, List.dropWhile_append_of_pos hdigits, hstop.1,
    hstop.2, List.append_nil]
  simp [hne]

/-- The digits of a number begin with a zero only if the number is zero. -/
theorem eq_zero_of_head_toDigits {n : Nat} (h : (Nat.toDigits 10 n).head? = some '0') : n = 0 := by
  induction n using Nat.strongRecOn with
  | ind n ih =>
    rw [Nat.toDigits_eq_if (by decide)] at h
    split at h
    · next hsmall =>
      have hdigit : ∀ m < 10, Nat.digitChar m = '0' → m = 0 := by decide
      exact hdigit n hsmall (Option.some.inj h)
    · next hlarge =>
      rw [List.head?_append_of_ne_nil _ Nat.toDigits_ne_nil] at h
      have hzero := ih (n / 10) (by omega) h
      omega

/-- The digits of a number stand alone if they begin with a zero. -/
theorem wholeDigits?_toDigits (n : Nat) {rest : List Char} (hrest : Delimits rest) :
    wholeDigits? (Nat.toDigits 10 n ++ rest) = some (Nat.toDigits 10 n, rest) := by
  have hzero : ¬ ((Nat.toDigits 10 n).head? = some '0' && 1 < (Nat.toDigits 10 n).length) := by
    rw [Bool.and_eq_true, decide_eq_true_eq, decide_eq_true_eq]
    rintro ⟨hhead, hlength⟩
    obtain rfl := eq_zero_of_head_toDigits hhead
    rw [Nat.toDigits_zero] at hlength
    exact absurd hlength (by decide)
  rw [wholeDigits?, digits?_append (fun c => Text.isDigit_of_mem_toDigits) Nat.toDigits_ne_nil hrest,
    Option.bind_eq_bind, Option.bind_some]
  exact if_neg hzero

/-- Digits are taken as long as their number fits a word. -/
theorem leading_eq {digits : List Char} {acc taken : Nat}
    (h : Nat.ofDigitChars 10 digits acc < Nat.pow 2 64) :
    leading acc taken digits = (Nat.ofDigitChars 10 digits acc, taken + digits.length, 0) := by
  induction digits generalizing acc taken with
  | nil => rfl
  | cons c rest ih =>
    rw [Nat.ofDigitChars_cons] at h ⊢
    have hnext : 10 * acc + (c.toNat - '0'.toNat) < Nat.pow 2 64 := by
      rw [Nat.ofDigitChars_eq_ofDigitChars_zero] at h
      exact Nat.lt_of_le_of_lt (Nat.le_trans
        (Nat.le_mul_of_pos_left _ (Nat.pow_pos (by decide))) (Nat.le_add_right _ _)) h
    rw [leading, if_pos hnext, ih h, List.length_cons, Nat.add_right_comm, Nat.add_assoc]

/-- A text after which an item may end is neither the fraction nor the exponent of a number. -/
theorem number?_of_wholeDigits? (isNegative : Bool) {whole rest : List Char} (hrest : Delimits rest)
    (hwhole : wholeDigits? (whole ++ rest) = some (whole, rest))
    (hsign : ∀ tail, whole ++ rest ≠ '-' :: tail) :
    number? ((if isNegative then ['-'] else []) ++ (whole ++ rest)) =
      some (ofParts isNegative whole none none, rest) := by
  cases isNegative with
  | false =>
    rw [if_neg Bool.false_ne_true, List.nil_append, number?, hwhole]
    · cases rest with
      | nil => rfl
      | cons c rest => rcases hrest c rfl with rfl | rfl | rfl <;> rfl
    · exact fun tail htail => hsign tail htail
  | true =>
    rw [if_pos rfl, List.singleton_append, number?, hwhole]
    cases rest with
    | nil => rfl
    | cons c rest => rcases hrest c rfl with rfl | rfl | rfl <;> rfl

/-- The digits of a number do not begin with a sign. -/
theorem toDigits_append_ne (n : Nat) (rest tail : List Char) :
    Nat.toDigits 10 n ++ rest ≠ '-' :: tail := by
  obtain ⟨first, digits, hdigits, hfirst⟩ := Text.exists_first_toDigits n
  rw [hdigits, List.cons_append]
  rintro heq
  obtain rfl := (List.cons.inj heq).1
  cases hfirst

/-- An integer is read from its text. -/
theorem number?_toDigits (isNegative : Bool) (n : Nat) {rest : List Char} (hrest : Delimits rest) :
    number? ((if isNegative then ['-'] else []) ++ (Nat.toDigits 10 n ++ rest)) =
      some (ofParts isNegative (Nat.toDigits 10 n) none none, rest) :=
  number?_of_wholeDigits? isNegative hrest (wholeDigits?_toDigits n hrest) (toDigits_append_ne n rest)

/-- The digits of a word are read as the word. -/
theorem ofParts_natural {n : Nat} (hn : n < Nat.pow 2 64) :
    ofParts false (Nat.toDigits 10 n) none none = .natural n := by
  rw [ofParts, leading_eq (by rw [Nat.ofDigitChars_ten_toDigits]; exact hn),
    Nat.ofDigitChars_ten_toDigits]
  rfl

/-- The digits of the negative of a signed word are read as it. -/
theorem ofParts_negative {n : Nat} (hpos : 1 ≤ n) (hn : n ≤ Nat.pow 2 63) :
    ofParts true (Nat.toDigits 10 n) none none = .negative n := by
  have hfits : 1 ≤ n ∧ n ≤ Nat.pow 2 63 := ⟨hpos, hn⟩
  have hword : Nat.ofDigitChars 10 (Nat.toDigits 10 n) 0 < Nat.pow 2 64 := by
    rw [Nat.ofDigitChars_ten_toDigits]
    exact Nat.lt_of_le_of_lt hn (by decide)
  rw [ofParts, leading_eq hword, Nat.ofDigitChars_ten_toDigits]
  simp [hfits]

/-! ### Strings -/

/-- A hexadecimal digit is read as it was written. -/
theorem hexDigit?_hexChar (n : Nat) : hexDigit? (hexChar n) = some (n % 16) := by
  have hread : ∀ m < 16, hexDigit? (Nat.digitChar m) = some m := by decide
  exact hread (n % 16) (Nat.mod_lt n (by decide))

/-- A control character is read from its code. -/
theorem escapedUnit?_hexChar {c : Char} (hc : c.toNat < 0x20) (rest : List Char) :
    escapedUnit? ('0' :: '0' :: hexChar (c.toNat / 16) :: hexChar c.toNat :: rest) =
      some (some c, rest) := by
  have hunit : hexUnit? ('0' :: '0' :: hexChar (c.toNat / 16) :: hexChar c.toNat :: rest) =
      some (c.toNat, rest) := by
    have hzero : hexDigit? '0' = some 0 := rfl
    have hvalue : ((0 * 16 + 0) * 16 + c.toNat / 16 % 16) * 16 + c.toNat % 16 = c.toNat := by omega
    simp only [hexUnit?, hzero, hexDigit?_hexChar, Option.bind_eq_bind, Option.bind_some, hvalue]
    rfl
  have hhigh : ¬ (0xD800 ≤ c.toNat && c.toNat ≤ 0xDBFF) := by
    simp only [Bool.and_eq_true, decide_eq_true_eq]
    omega
  have hlow : ¬ (0xDC00 ≤ c.toNat && c.toNat ≤ 0xDFFF) := by
    simp only [Bool.and_eq_true, decide_eq_true_eq]
    omega
  rw [escapedUnit?, hunit, Option.bind_eq_bind, Option.bind_some]
  dsimp only
  rw [if_neg hhigh, if_neg hlow, Char.ofNat_toNat]
  rfl

/-- A character is read from its escape. -/
theorem stringBody?_escapeChar (fuel : Nat) (read : List Char) (c : Char) (rest : List Char) :
    stringBody? (fuel + 1) (some read) (escapeChar c ++ rest) =
      stringBody? fuel (some (c :: read)) rest := by
  rw [escapeChar.eq_def]
  split
  case h_8 hquote hbackslash _ _ _ _ _ =>
    split
    · next hcontrol =>
      simp only [List.cons_append, List.nil_append, stringBody?, escapedUnit?_hexChar hcontrol]
      rfl
    · next hprintable =>
      rw [List.singleton_append, stringBody?, if_neg hprintable]
      · rfl
      · exact hquote
      · exact fun _ heq _ => hbackslash heq
      · exact fun _ _ heq _ => hbackslash heq
  all_goals rfl

/-- A string is read from its escapes. -/
theorem stringBody?_flatMap (chars : List Char) {fuel : Nat} (read rest : List Char)
    (hfuel : chars.length < fuel) :
    stringBody? fuel (some read) (chars.flatMap escapeChar ++ '"' :: rest) =
      some (some (String.ofList (read.reverse ++ chars)), rest) := by
  induction chars generalizing fuel read with
  | nil =>
    obtain ⟨fuel, rfl⟩ := Nat.exists_eq_succ_of_ne_zero (Nat.ne_of_gt hfuel)
    rw [List.append_nil]
    rfl
  | cons c chars ih =>
    obtain ⟨fuel, rfl⟩ := Nat.exists_eq_succ_of_ne_zero (Nat.ne_of_gt (Nat.zero_lt_of_lt hfuel))
    rw [List.flatMap_cons, List.append_assoc, stringBody?_escapeChar,
      ih (c :: read) (Nat.lt_of_succ_lt_succ hfuel), List.reverse_cons, List.append_assoc,
      List.singleton_append]

/-- No character is left out when a text is escaped. -/
theorem length_le_length_flatMap (chars : List Char) : chars.length ≤ (chars.flatMap escapeChar).length := by
  have hpos (c : Char) : 1 ≤ (escapeChar c).length := by
    rw [escapeChar.eq_def]
    split
    case h_8 => split <;> simp
    all_goals simp
  induction chars with
  | nil => exact Nat.le_refl 0
  | cons c chars ih =>
    rw [List.flatMap_cons, List.length_append, List.length_cons, Nat.add_comm]
    exact Nat.add_le_add (hpos c) ih

/-- A string is read up to its closing quote. -/
theorem stringRest?_quote (text : String) (rest : List Char) :
    stringRest? (text.toList.flatMap escapeChar ++ '"' :: rest) = some (some text, rest) := by
  have hlength := length_le_length_flatMap text.toList
  rw [stringRest?, stringBody?_flatMap _ _ _ (by rw [List.length_append]; omega), List.reverse_nil,
    List.nil_append, String.ofList_toList]

/-! ### Values -/

/-- A negative number is written with its sign and its digits. -/
theorem toList_render_negative (n : Nat) : (negative n).render.toList = '-' :: Nat.toDigits 10 n := by
  rw [render, Nat.toString_eq_ofList_toDigits, String.toList_append, String.toList_ofList,
    String.toList_ofList]
  rfl

/-- An array is written in brackets. -/
theorem toList_render_array (items : List Json) :
    (array items).render.toList = '[' :: ((renderItems items).toList ++ [']']) := by
  rw [render, String.toList_append, String.toList_append]
  rfl

/-- An object is written in braces. -/
theorem toList_render_object (fields : List (String × Json)) :
    (object fields).render.toList = '{' :: ((renderFields fields).toList ++ ['}']) := by
  rw [render, String.toList_append, String.toList_append]
  rfl

/-- The text of a value begins with a character that is neither a blank nor a closing bracket. -/
theorem IsPlain.exists_first {json : Json} (h : json.IsPlain) :
    ∃ c tail, json.render.toList = c :: tail ∧ c ≠ ']' ∧
      ∀ rest, skipBlanks (c :: rest) = c :: rest := by
  cases h with
  | null => exact ⟨'n', _, rfl, by decide, fun _ => rfl⟩
  | bool value => cases value with
    | true => exact ⟨'t', _, rfl, by decide, fun _ => rfl⟩
    | false => exact ⟨'f', _, rfl, by decide, fun _ => rfl⟩
  | @natural value _ =>
    obtain ⟨first, digits, hdigits, hfirst⟩ := Text.exists_first_toDigits value
    refine ⟨first, digits, ?_, ?_, fun rest => ?_⟩
    · rw [render, Nat.toString_eq_ofList_toDigits, String.toList_ofList, hdigits]
    · rintro rfl
      cases hfirst
    · have hblank : ¬ (first == ' ' || first == '\n' || first == '\t' || first == '\r') := by
        simp only [Bool.or_eq_true, beq_iff_eq]
        rintro (((rfl | rfl) | rfl) | rfl) <;> cases hfirst
      rw [skipBlanks, List.dropWhile_cons, if_neg hblank]
  | negative => exact ⟨'-', _, toList_render_negative _, by decide, fun _ => rfl⟩
  | string value =>
    exact ⟨'"', _, by rw [render, quote, String.toList_ofList]; rfl, by decide, fun _ => rfl⟩
  | array => exact ⟨'[', _, toList_render_array _, by decide, fun _ => rfl⟩
  | object => exact ⟨'{', _, toList_render_object _, by decide, fun _ => rfl⟩

/-- The text of a value is read as the value. Each level of nesting takes two steps, and its brackets are
two characters. -/
def IsRead (json : Json) : Prop :=
  ∀ fuel rest, 2 * json.render.toList.length ≤ fuel → Delimits rest →
    value? fuel (json.render.toList ++ rest) = some (json, rest)

/-- A comma and the closing brackets end a number. -/
theorem delimits_cons {c : Char} (h : c = ',' ∨ c = ']' ∨ c = '}') (rest : List Char) :
    Delimits (c :: rest) := fun _ hc => Option.some.inj hc ▸ h

/-- Items are separated by commas. -/
theorem toList_renderItems_cons (item next : Json) (items : List Json) :
    (renderItems (item :: next :: items)).toList =
      item.render.toList ++ ',' :: (renderItems (next :: items)).toList := by
  rw [renderItems, String.toList_append, String.toList_append, List.append_assoc]
  · rfl
  · exact List.cons_ne_nil next items

/-- The items of an array begin as the first one does. -/
theorem exists_first_renderItems {items : List Json} (hne : items ≠ [])
    (hplain : ∀ item ∈ items, item.IsPlain) :
    ∃ c tail, (renderItems items).toList = c :: tail ∧ c ≠ ']' ∧
      ∀ rest, skipBlanks (c :: rest) = c :: rest := by
  cases items with
  | nil => exact absurd rfl hne
  | cons item items =>
    obtain ⟨c, tail, hfirst, hbracket, hblanks⟩ := (hplain item List.mem_cons_self).exists_first
    cases items with
    | nil => exact ⟨c, tail, by rw [renderItems, hfirst], hbracket, hblanks⟩
    | cons next items =>
      exact ⟨c, _, by rw [toList_renderItems_cons, hfirst, List.cons_append], hbracket, hblanks⟩

/-- The items of an array are read up to its bracket. -/
theorem itemsRest?_renderItems {items : List Json} (hne : items ≠ [])
    (hplain : ∀ item ∈ items, item.IsPlain) (hread : ∀ item ∈ items, item.IsRead) {fuel : Nat}
    (hfuel : 2 * (renderItems items).toList.length + 1 ≤ fuel) (read : List Json) (rest : List Char) :
    itemsRest? fuel read ((renderItems items).toList ++ ']' :: rest) =
      some (read.reverse ++ items, rest) := by
  induction items generalizing fuel read with
  | nil => exact absurd rfl hne
  | cons item items ih =>
    rw [List.forall_mem_cons] at hplain hread
    obtain ⟨fuel, rfl⟩ := Nat.exists_eq_add_of_le' (Nat.le_of_add_left_le hfuel)
    cases items with
    | nil =>
      rw [renderItems] at hfuel ⊢
      rw [itemsRest?, hread.1 fuel _ (by omega) (delimits_cons (.inr (.inl rfl)) rest),
        Option.bind_eq_bind, Option.bind_some]
      exact congrArg (fun items => some (items, rest)) List.reverse_cons
    | cons next items =>
      obtain ⟨first, tail, hfirst, -, hblanks⟩ := exists_first_renderItems (List.cons_ne_nil _ _) hplain.2
      rw [toList_renderItems_cons, List.length_append, List.length_cons] at hfuel
      have hlater := ih (List.cons_ne_nil _ _) hplain.2 hread.2 (by omega : _ ≤ fuel) (item :: read)
      rw [hfirst, List.cons_append] at hlater
      rw [toList_renderItems_cons, List.append_assoc, List.cons_append, itemsRest?,
        hread.1 fuel _ (by omega) (delimits_cons (.inl rfl) _), Option.bind_eq_bind, Option.bind_some,
        hfirst, List.cons_append]
      change itemsRest? fuel (item :: read) (skipBlanks (first :: _)) = _
      rw [hblanks, hlater, List.reverse_cons, List.append_assoc, List.singleton_append]

/-- A field is written with its name in quotes and a colon. -/
theorem toList_renderFields_singleton (name : String) (value : Json) :
    (renderFields [(name, value)]).toList =
      '"' :: name.toList.flatMap escapeChar ++ '"' :: ':' :: value.render.toList := by
  rw [renderFields, quote, String.toList_append, String.toList_append, String.toList_ofList,
    List.append_assoc, List.append_assoc]
  rfl

/-- Fields are separated by commas. -/
theorem toList_renderFields_cons (name : String) (value : Json) (next : String × Json)
    (fields : List (String × Json)) :
    (renderFields ((name, value) :: next :: fields)).toList =
      '"' :: name.toList.flatMap escapeChar ++
        '"' :: ':' :: (value.render.toList ++ ',' :: (renderFields (next :: fields)).toList) := by
  rw [renderFields, quote]
  · simp only [String.toList_append, String.toList_ofList, List.append_assoc, List.cons_append]
    rfl
  · exact List.cons_ne_nil next fields

/-- The fields of an object begin with a quote. -/
theorem exists_tail_renderFields {fields : List (String × Json)} (hne : fields ≠ []) :
    ∃ tail, (renderFields fields).toList = '"' :: tail := by
  match fields with
  | [] => exact absurd rfl hne
  | [(name, value)] => exact ⟨_, toList_renderFields_singleton name value⟩
  | (name, value) :: next :: fields => exact ⟨_, toList_renderFields_cons name value next fields⟩

/-- A field is read, and then the brace or the next field. -/
theorem fieldsRest?_quote (name : String) {value : Json} (hplain : value.IsPlain) {fuel : Nat}
    {rest : List Char} (hvalue : value? fuel (value.render.toList ++ rest) = some (value, rest))
    (read : List (Option String × Json)) :
    fieldsRest? (fuel + 1) read
        ('"' :: (name.toList.flatMap escapeChar ++ '"' :: ':' :: (value.render.toList ++ rest))) =
      match skipBlanks rest with
      | '}' :: rest => some (((some name, value) :: read).reverse, rest)
      | ',' :: rest => fieldsRest? fuel ((some name, value) :: read) (skipBlanks rest)
      | _ => none := by
  obtain ⟨first, tail, hfirst, -, hblanks⟩ := hplain.exists_first
  have hskip : skipBlanks (value.render.toList ++ rest) = value.render.toList ++ rest := by
    rw [hfirst, List.cons_append, hblanks]
  rw [fieldsRest?, stringRest?_quote, Option.bind_eq_bind, Option.bind_some]
  change (value? fuel (skipBlanks (value.render.toList ++ rest))).bind _ = _
  rw [hskip, hvalue, Option.bind_some]
  rfl

/-- The fields of an object are read up to its brace. -/
theorem fieldsRest?_renderFields {fields : List (String × Json)} (hne : fields ≠ [])
    (hplain : ∀ field ∈ fields, field.2.IsPlain) (hread : ∀ field ∈ fields, field.2.IsRead) {fuel : Nat}
    (hfuel : 2 * (renderFields fields).toList.length + 1 ≤ fuel) (read : List (Option String × Json))
    (rest : List Char) :
    fieldsRest? fuel read ((renderFields fields).toList ++ '}' :: rest) =
      some (read.reverse ++ fields.map fun field => (some field.1, field.2), rest) := by
  induction fields generalizing fuel read with
  | nil => exact absurd rfl hne
  | cons field fields ih =>
    rw [List.forall_mem_cons] at hplain hread
    obtain ⟨fuel, rfl⟩ := Nat.exists_eq_add_of_le' (Nat.le_of_add_left_le hfuel)
    obtain ⟨name, value⟩ := field
    have hvalue : value.IsRead := hread.1
    cases fields with
    | nil =>
      rw [toList_renderFields_singleton] at hfuel ⊢
      simp only [List.length_append, List.length_cons] at hfuel
      have hfield := fieldsRest?_quote name hplain.1
        (hvalue fuel ('}' :: rest) (by omega) (delimits_cons (.inr (.inr rfl)) rest)) read
      simp only [List.cons_append, List.append_assoc] at hfield ⊢
      rw [hfield]
      exact congrArg (fun fields => some (fields, rest)) List.reverse_cons
    | cons next fields =>
      obtain ⟨tail, htail⟩ := exists_tail_renderFields (List.cons_ne_nil next fields)
      rw [toList_renderFields_cons] at hfuel ⊢
      simp only [List.length_append, List.length_cons] at hfuel
      have hlater := ih (List.cons_ne_nil _ _) hplain.2 hread.2 (by omega : _ ≤ fuel)
        ((some name, value) :: read)
      have hfield := fieldsRest?_quote name hplain.1
        (hvalue fuel (',' :: ((renderFields (next :: fields)).toList ++ '}' :: rest)) (by omega)
          (delimits_cons (.inl rfl) _)) read
      simp only [List.cons_append, List.append_assoc] at hfield ⊢
      rw [hfield, htail]
      rw [htail] at hlater
      change fieldsRest? fuel ((some name, value) :: read) _ = _
      exact hlater.trans (by rw [List.reverse_cons, List.append_assoc]; rfl)

/-- Values are read one after another as they were written. -/
theorem mapM_map_eq_some {α β : Type} {write : α → β} {read : β → Option α} {values : List α}
    (h : ∀ a ∈ values, read (write a) = some a) : (values.map write).mapM read = some values := by
  induction values with
  | nil => rfl
  | cons a values ih =>
    rw [List.forall_mem_cons] at h
    rw [List.map_cons, List.mapM_cons, h.1, ih h.2]
    rfl

/-- An object is put together from fields that have names. -/
theorem ofFields_map (fields : List (String × Json)) :
    ofFields (fields.map fun field => (some field.1, field.2)) = object fields := by
  rw [ofFields]
  split
  · next named hnamed =>
    exact congrArg object (Option.some.inj (hnamed.symm.trans (mapM_map_eq_some fun _ _ => rfl)))
  · next hnone => cases hnone.symm.trans (mapM_map_eq_some fun _ _ => rfl)

/-- What begins with a digit is a number. -/
theorem value?_toDigits (fuel : Nat) {n : Nat} (hn : n < Nat.pow 2 64) {rest : List Char}
    (hrest : Delimits rest) :
    value? (fuel + 1) (Nat.toDigits 10 n ++ rest) = some (natural n, rest) := by
  have hnumber := number?_toDigits false n hrest
  rw [if_neg Bool.false_ne_true, List.nil_append, ofParts_natural hn] at hnumber
  obtain ⟨first, digits, hdigits, hfirst⟩ := Text.exists_first_toDigits n
  rw [hdigits, List.cons_append] at hnumber ⊢
  rw [value?, hnumber]
  all_goals
    intro tail heq
    obtain rfl := (List.cons.inj heq).1
    cases hfirst

/-- What begins with a minus is a number. -/
theorem value?_minus (fuel : Nat) (s : List Char) : value? (fuel + 1) ('-' :: s) = number? ('-' :: s) :=
  rfl

/-- What follows an opening bracket are items, unless the array is empty. -/
theorem value?_bracket {fuel : Nat} {items : List Json} {s rest : List Char} (hblanks : skipBlanks s = s)
    (hitem : ∀ tail, s ≠ ']' :: tail) (hitems : itemsRest? fuel [] s = some (items, rest)) :
    value? (fuel + 1) ('[' :: s) = some (array items, rest) := by
  rw [value?, hblanks]
  split
  · next tail => exact absurd rfl (hitem tail)
  · rw [hitems]
    rfl

/-- What follows an opening brace are fields, unless the object is empty. -/
theorem value?_brace {fuel : Nat} {fields : List (Option String × Json)} {s rest : List Char}
    (hblanks : skipBlanks s = s) (hfield : ∀ tail, s ≠ '}' :: tail)
    (hfields : fieldsRest? fuel [] s = some (fields, rest)) :
    value? (fuel + 1) ('{' :: s) = some (ofFields fields, rest) := by
  rw [value?, hblanks]
  split
  · next tail => exact absurd rfl (hfield tail)
  · rw [hfields]
    rfl

/-- Reading a value takes at least one step. -/
theorem IsPlain.isRead_of_succ {json : Json} (h : json.IsPlain)
    (hread : ∀ fuel rest, 2 * json.render.toList.length ≤ fuel + 1 → Delimits rest →
      value? (fuel + 1) (json.render.toList ++ rest) = some (json, rest)) : json.IsRead := by
  intro fuel rest hfuel
  obtain ⟨c, tail, hfirst, -⟩ := h.exists_first
  have hpos : 1 ≤ fuel := by
    rw [hfirst, List.length_cons] at hfuel
    omega
  obtain ⟨fuel, rfl⟩ := Nat.exists_eq_add_of_le' hpos
  exact hread fuel rest hfuel

/-- The text of a value is read as the value, whatever may be written after it. -/
theorem IsPlain.isRead {json : Json} (h : json.IsPlain) : json.IsRead := by
  induction h with
  | null => exact IsPlain.null.isRead_of_succ fun _ _ _ _ => rfl
  | bool value =>
    refine (IsPlain.bool value).isRead_of_succ fun _ _ _ _ => ?_
    cases value <;> rfl
  | natural hn =>
    refine (IsPlain.natural hn).isRead_of_succ fun fuel rest _ hrest => ?_
    rw [render, Nat.toString_eq_ofList_toDigits, String.toList_ofList]
    exact value?_toDigits fuel hn hrest
  | @negative n hpos hn =>
    refine (IsPlain.negative hpos hn).isRead_of_succ fun fuel rest _ hrest => ?_
    have hnumber := number?_toDigits true n hrest
    rw [if_pos rfl, List.singleton_append, ofParts_negative hpos hn] at hnumber
    rw [toList_render_negative, List.cons_append, value?_minus, hnumber]
  | string value =>
    refine (IsPlain.string value).isRead_of_succ fun fuel rest _ _ => ?_
    rw [render, quote, String.toList_ofList, List.append_assoc, List.cons_append, List.singleton_append,
      value?, stringRest?_quote]
    rfl
  | @array items hplain ih =>
    refine (IsPlain.array hplain).isRead_of_succ fun fuel rest hfuel _ => ?_
    rw [toList_render_array] at hfuel ⊢
    rw [List.length_cons, List.length_append, List.length_singleton] at hfuel
    rw [List.cons_append, List.append_assoc, List.singleton_append]
    by_cases hne : items = []
    · subst hne
      rfl
    · obtain ⟨first, tail, hfirst, hbracket, hblanks⟩ := exists_first_renderItems hne hplain
      have hitems := itemsRest?_renderItems hne hplain ih (by omega : _ ≤ fuel) [] rest
      rw [hfirst, List.cons_append] at hitems ⊢
      exact value?_bracket (hblanks _) (fun _ heq => hbracket (List.cons.inj heq).1) hitems
  | @object fields hplain ih =>
    refine (IsPlain.object hplain).isRead_of_succ fun fuel rest hfuel _ => ?_
    rw [toList_render_object] at hfuel ⊢
    rw [List.length_cons, List.length_append, List.length_singleton] at hfuel
    rw [List.cons_append, List.append_assoc, List.singleton_append]
    by_cases hne : fields = []
    · subst hne
      rfl
    · obtain ⟨tail, htail⟩ := exists_tail_renderFields hne
      have hfields := fieldsRest?_renderFields hne hplain ih (by omega : _ ≤ fuel) [] rest
      rw [htail, List.cons_append] at hfields ⊢
      rw [← ofFields_map]
      exact value?_brace rfl (fun _ heq => by cases (List.cons.inj heq).1) hfields

/-- A value without doubles is read back from its text. -/
theorem parse?_render {json : Json} (h : json.IsPlain) : parse? json.render = some json := by
  obtain ⟨c, tail, hfirst, -, hblanks⟩ := h.exists_first
  have hread := h.isRead (2 * json.render.toList.length + 2) [] (by omega)
    fun c hc => by cases hc
  rw [List.append_nil] at hread
  have hskip : skipBlanks json.render.toList = json.render.toList := by
    rw [hfirst, hblanks]
  simp only [parse?, hskip, hread, Option.bind_eq_bind, Option.bind_some]
  rfl

end ScheduleExplorer.Json
