import Mathlib.Data.List.Flatten
import Mathlib.Tactic.SplitIfs
import ScheduleExplorer.Fingerprint

/-!
# What the encoding of a state tells

The values of a state are written one after another, most of them without a mark in between. Each code
still ends where it ends: what is written after it can be told apart from it. A code need not hold the
whole value; what it tells of the value is a view of it.
-/

namespace ScheduleExplorer.Fingerprint

variable {α β γ δ : Type}

/-- The codes of the values that fit tell a view of them, whatever is written after them. -/
def Tells (encode : α → Bytes) (Fits : α → Prop) (view : α → β) : Prop :=
  ∀ ⦃a b : α⦄, Fits a → Fits b → ∀ rest rest' : Bytes,
    encode a ++ rest = encode b ++ rest' ↔ view a = view b ∧ rest = rest'

namespace Tells

variable {encode : α → Bytes} {Fits : α → Prop} {view : α → β}

/-- Alone, a code tells its view as well. -/
theorem eq_iff (h : Tells encode Fits view) {a b : α} (ha : Fits a) (hb : Fits b) :
    encode a = encode b ↔ view a = view b := by
  have heq := h ha hb [] []
  simpa using heq

/-- Where codes tell a view, they tell every view that is equal for the same values. -/
theorem of_view (h : Tells encode Fits view) {view' : α → γ}
    (hview : ∀ a b, view a = view b ↔ view' a = view' b) : Tells encode Fits view' := by
  intro a b ha hb rest rest'
  rw [h ha hb rest rest', hview]

/-- The code of a part of a value tells the view of the part. -/
theorem comp (h : Tells encode Fits view) {part : γ → α} {Fits' : γ → Prop}
    (hfits : ∀ c, Fits' c → Fits (part c)) :
    Tells (fun c => encode (part c)) Fits' fun c => view (part c) :=
  fun _ _ hc hd => h (hfits _ hc) (hfits _ hd)

/-- One code after another tells both views. -/
theorem append (h : Tells encode Fits view) {encode' : α → Bytes} {view' : α → γ}
    (h' : Tells encode' Fits view') :
    Tells (fun a => encode a ++ encode' a) Fits fun a => (view a, view' a) := by
  intro a b ha hb rest rest'
  rw [List.append_assoc, List.append_assoc, h ha hb, h' ha hb, Prod.mk.injEq, and_assoc]

/-- The codes of as many values tell the views of all of them. -/
theorem flatMap_append (h : Tells encode Fits view) {as bs : List α}
    (has : ∀ a ∈ as, Fits a) (hbs : ∀ b ∈ bs, Fits b) (hlength : as.length = bs.length)
    (rest rest' : Bytes) :
    as.flatMap encode ++ rest = bs.flatMap encode ++ rest' ↔
      as.map view = bs.map view ∧ rest = rest' := by
  induction as generalizing bs with
  | nil =>
    obtain rfl := List.length_eq_zero_iff.mp hlength.symm
    simp
  | cons a as ih =>
    cases bs with
    | nil => cases hlength
    | cons b bs =>
      rw [List.forall_mem_cons] at has hbs
      rw [List.flatMap_cons, List.flatMap_cons, List.append_assoc, List.append_assoc,
        h has.1 hbs.1, ih has.2 hbs.2 (Nat.succ.inj hlength), List.map_cons, List.map_cons,
        List.cons.injEq, and_assoc]

/-- Codes that hold at least one byte tell how many values there are, and the views of all of them. -/
theorem flatMap (h : Tells encode Fits view) (hpos : ∀ a, encode a ≠ []) {as bs : List α}
    (has : ∀ a ∈ as, Fits a) (hbs : ∀ b ∈ bs, Fits b) :
    as.flatMap encode = bs.flatMap encode ↔ as.map view = bs.map view := by
  induction as generalizing bs with
  | nil =>
    cases bs with
    | nil => simp
    | cons b bs => simp [hpos b]
  | cons a as ih =>
    cases bs with
    | nil => simp [hpos a]
    | cons b bs =>
      rw [List.forall_mem_cons] at has hbs
      rw [List.flatMap_cons, List.flatMap_cons, h has.1 hbs.1, ih has.2 hbs.2, List.map_cons,
        List.map_cons, List.cons.injEq]

end Tells

/-! ### Numbers -/

/-- A number is written with the given number of bytes. -/
theorem length_littleEndian (count n : Nat) : (littleEndian count n).length = count := by
  induction count generalizing n with
  | zero => rfl
  | succ count ih => rw [littleEndian, List.length_cons, ih]

/-- Numbers with as many bytes are told apart. -/
theorem littleEndian_inj {count m n : Nat} (hm : m < Nat.pow 256 count) (hn : n < Nat.pow 256 count) :
    littleEndian count m = littleEndian count n ↔ m = n := by
  induction count generalizing m n with
  | zero =>
    exact iff_of_true rfl ((Nat.lt_one_iff.mp hm).trans (Nat.lt_one_iff.mp hn).symm)
  | succ count ih =>
    have hbyte : UInt8.ofNat m = UInt8.ofNat n ↔ m % 256 = n % 256 := by
      rw [← UInt8.toNat_inj]
      rfl
    change m < Nat.pow 256 count * 256 at hm
    change n < Nat.pow 256 count * 256 at hn
    rw [littleEndian, littleEndian, List.cons.injEq, hbyte,
      ih (Nat.div_lt_of_lt_mul (by omega)) (Nat.div_lt_of_lt_mul (by omega))]
    omega

/-- The code of a number tells the number. -/
theorem tells_ofNat : Tells ofNat (· < Nat.pow 2 64) id := by
  intro m n hm hn rest rest'
  rw [List.append_eq_append_iff_of_size_eq_left
      (by rw [ofNat, ofNat, length_littleEndian, length_littleEndian]),
    ofNat, ofNat, littleEndian_inj (by omega) (by omega), id, id]

/-- The bytes of a word tell the word. -/
theorem tells_ofWord : Tells ofWord (fun _ => True) id :=
  (tells_ofNat.comp fun word _ => word.toNat_lt).of_view fun _ _ => UInt64.toNat_inj

/-- A number is written with at least one byte. -/
theorem ofNat_ne_nil (n : Nat) : ofNat n ≠ [] :=
  List.ne_nil_of_length_pos (by rw [ofNat, length_littleEndian]; decide)

/-! ### Optional values and lists -/

/-- The code of an optional value tells whether there is one, and its view. -/
theorem tells_ofOption {encode : α → Bytes} {Fits : α → Prop} {view : α → β}
    (h : Tells encode Fits view) :
    Tells (ofOption encode) (fun value => ∀ a ∈ value, Fits a) (Option.map view) := by
  intro a b ha hb rest rest'
  have h01 := tells_ofNat (a := 0) (b := 1) (by decide) (by decide)
  have h10 := tells_ofNat (a := 1) (b := 0) (by decide) (by decide)
  cases a with
  | none =>
    cases b with
    | none => simp [ofOption]
    | some b => simp [ofOption, h01]
  | some a =>
    cases b with
    | none => simp [ofOption, h10]
    | some b =>
      rw [ofOption, ofOption, List.append_assoc, List.append_assoc, List.append_cancel_left_eq,
        h (ha a rfl) (hb b rfl), Option.map_some, Option.map_some, Option.some_inj]

/-- The code of a list tells how long it is, and the views of its values. -/
theorem tells_ofList {encode : α → Bytes} {Fits : α → Prop} {view : α → β}
    (h : Tells encode Fits view) :
    Tells (ofList encode) (fun values => values.length < Nat.pow 2 64 ∧ ∀ a ∈ values, Fits a)
      (List.map view) := by
  intro as bs has hbs rest rest'
  rw [ofList, ofList, List.append_assoc, List.append_assoc, tells_ofNat has.1 hbs.1, id, id]
  constructor
  · rintro ⟨hlength, heq⟩
    exact (h.flatMap_append has.2 hbs.2 hlength rest rest').mp heq
  · rintro ⟨hview, hrest⟩
    have hlength : as.length = bs.length := by
      simpa using congrArg List.length hview
    exact ⟨hlength, (h.flatMap_append has.2 hbs.2 hlength rest rest').mpr ⟨hview, hrest⟩⟩

/-- A list is written with at least one byte, its length. -/
theorem ofList_ne_nil (encode : α → Bytes) (values : List α) : ofList encode values ≠ [] :=
  List.append_ne_nil_of_left_ne_nil (ofNat_ne_nil _) _

/-! ### Texts -/

/-- The bytes of an array, in order. -/
theorem toList_eq_data (bytes : ByteArray) : bytes.toList = bytes.data.toList := by
  have hloop (i : Nat) (read : Bytes) :
      ByteArray.toList.loop bytes i read = read.reverse ++ bytes.data.toList.drop i := by
    fun_induction ByteArray.toList.loop bytes i read with
    | case1 i read hi ih =>
      have hbyte : bytes.get! i = bytes.data.toList.get ⟨i, hi⟩ := getElem!_pos bytes.data i hi
      rw [ih, List.reverse_cons, List.append_assoc, List.singleton_append, hbyte,
        List.get_eq_getElem, List.getElem_cons_drop]
    | case2 i read hi =>
      rw [List.drop_eq_nil_of_le (Nat.le_of_not_lt hi), List.append_nil]
  exact hloop 0 []

/-- UTF-8 does not hold the byte that ends a text. -/
theorem ne_end_of_mem_utf8EncodeChar {c : Char} {byte : UInt8} (h : byte ∈ String.utf8EncodeChar c) :
    byte ≠ 0xFF := by
  have hsmall {n : Nat} (hn : n < 255) : UInt8.ofNat n ≠ 0xFF := by
    rw [Ne, ← UInt8.toNat_inj, UInt8.toNat_ofNat', Nat.mod_eq_of_lt (by omega)]
    exact Nat.ne_of_lt hn
  rw [String.utf8EncodeChar] at h
  split_ifs at h
  all_goals
    simp only [List.mem_cons, List.not_mem_nil, or_false] at h
    rcases h with rfl | rfl | rfl | rfl
  all_goals exact hsmall (by omega)

/-- The end mark does not stand in the bytes of a text. -/
theorem end_notMem_toUTF8 (s : String) : 0xFF ∉ s.toUTF8.toList := by
  rw [toList_eq_data, String.toUTF8, ← String.utf8Encode_toList, List.utf8Encode,
    List.toList_data_toByteArray, List.mem_flatMap]
  rintro ⟨c, -, hc⟩
  exact ne_end_of_mem_utf8EncodeChar hc rfl

/-- What stands before the first end, and what stands after it. -/
theorem append_cons_inj {mark : UInt8} {before before' after after' : Bytes}
    (h : mark ∉ before) (h' : mark ∉ before') :
    before ++ mark :: after = before' ++ mark :: after' ↔ before = before' ∧ after = after' := by
  induction before generalizing before' with
  | nil =>
    cases before' with
    | nil => simp
    | cons byte rest => simp [List.ne_of_not_mem_cons h']
  | cons byte rest ih =>
    cases before' with
    | nil => simp [(List.ne_of_not_mem_cons h).symm]
    | cons byte' rest' =>
      rw [List.cons_append, List.cons_append, List.cons.injEq, List.cons.injEq,
        ih (List.not_mem_of_not_mem_cons h) (List.not_mem_of_not_mem_cons h'), and_assoc]

/-- The code of a text tells the text. -/
theorem tells_ofString : Tells ofString (fun _ => True) id := by
  intro s t _ _ rest rest'
  rw [ofString, ofString, List.append_assoc, List.append_assoc, List.singleton_append,
    List.singleton_append, append_cons_inj (end_notMem_toUTF8 s) (end_notMem_toUTF8 t),
    toList_eq_data, toList_eq_data, Array.toList_inj, ← ByteArray.ext_iff, String.toUTF8,
    String.toUTF8, String.toByteArray_inj, id, id]

end ScheduleExplorer.Fingerprint
