import ScheduleExplorer.Config
import ScheduleExplorer.Proofs.Text

/-!
# Selections and configurations read back

The text of a selection is flat, and the selection itself is a tree. A combination is read by
splitting its text at the first plus sign, which is the one that joins the two parts only if the
lead has none of its own. So a text is read as the selection that it was written for if no
combination is the lead of another one, and if its numbers are words; all other texts of selections
are refused. A configuration is read back exactly if its selection is.
-/

namespace ScheduleExplorer

namespace Selection

/-- Whether every number of a selection is a word. -/
def FitsWords : Selection → Prop
  | sticky n | priority n | fairPriority n | delayBounding n | iterativeDelayBounding n =>
    n < Nat.pow 2 64
  | combo lead rest => lead.FitsWords ∧ rest.FitsWords
  | _ => True

/-- Whether no combination is the lead of a combination. The rest of one may be another one. -/
def HasSingleLeads : Selection → Prop
  | combo lead rest => lead.isCombo = false ∧ rest.HasSingleLeads
  | _ => True

/-! ### Texts of single selections -/

/-- The name of a selection. -/
def name : Selection → String
  | random => "random"
  | sticky _ => "prob"
  | priority _ => "pct"
  | fairPriority _ => "fairpct"
  | delayBounding _ => "db"
  | iterativeDelayBounding _ => "idb"
  | depthFirst => "dfs"
  | dpor => "dpor"
  | randomDpor => "rdpor"
  | qLearning => "rl"
  | novelty => "greedy"
  | combo .. => "combo"

/-- The number of a selection, if it has one of its own. -/
def number? : Selection → Option Nat
  | sticky n | priority n | fairPriority n | delayBounding n | iterativeDelayBounding n => some n
  | _ => none

/-- What follows the colon after the name, if there is one. -/
def digits? (s : Selection) : Option (List Char) :=
  s.number?.map (Nat.toDigits 10)

/-- The names of all selections. -/
def names : List String :=
  ["random", "prob", "pct", "fairpct", "db", "idb", "dfs", "dpor", "rdpor", "rl", "greedy", "combo"]

/-- Every selection has one of the names. -/
theorem name_mem_names (s : Selection) : s.name ∈ names := by
  cases s <;> simp only [name, names, List.mem_cons, true_or, or_true]

/-- A name consists of lower-case letters. -/
theorem isLower_of_mem {name : String} (hname : name ∈ names) {c : Char} (h : c ∈ name.toList) :
    c.isLower = true := by
  have hnames : (names.all fun name => name.toList.all Char.isLower) = true := by decide
  exact List.all_eq_true.mp (List.all_eq_true.mp hnames name hname) c h

/-- Names have small letters only. -/
theorem isLower_of_mem_name {s : Selection} {c : Char} (h : c ∈ s.name.toList) :
    c.isLower = true :=
  isLower_of_mem s.name_mem_names h

/-- A name is its own name in small letters. -/
theorem nameOf_name (s : Selection) : nameOf s.name.toList = s.name := by
  have hnames : ∀ name ∈ names, nameOf name.toList = name := by decide
  exact hnames s.name s.name_mem_names

/-- Only a combination has the name of combinations. -/
theorem name_eq_combo_iff (s : Selection) : s.name = "combo" ↔ s.isCombo = true := by
  cases s <;> simp [name, isCombo]

/-- A number is written after a colon. -/
theorem toList_numbered (before name : String) (h : before.toList = name.toList ++ [':']) (n : Nat) :
    (before ++ toString n).toList = name.toList ++ ':' :: Nat.toDigits 10 n := by
  rw [String.toList_append, Nat.toString_eq_repr, Nat.toList_repr, h, List.append_assoc]
  rfl

/-- A selection that is no combination is written as its name and its number. -/
theorem toList_text {s : Selection} (h : s.isCombo = false) :
    s.text.toList = s.name.toList ++ s.digits?.elim [] (':' :: ·) := by
  cases s with
  | sticky flips => exact toList_numbered "prob:" "prob" rfl flips
  | priority points => exact toList_numbered "pct:" "pct" rfl points
  | fairPriority points => exact toList_numbered "fairpct:" "fairpct" rfl points
  | delayBounding delays => exact toList_numbered "db:" "db" rfl delays
  | iterativeDelayBounding delays => exact toList_numbered "idb:" "idb" rfl delays
  | combo => cases h
  | _ => rfl

/-- A combination is written as its two parts. -/
theorem toList_text_combo (lead rest : Selection) :
    (combo lead rest).text.toList =
      "combo".toList ++ ':' :: (lead.text.toList ++ '+' :: rest.text.toList) := by
  simp [text]

/-- What follows a name is a colon and digits. -/
theorem of_mem_digits {s : Selection} {c : Char} (h : c ∈ s.digits?.elim [] (':' :: ·)) :
    c.isDigit = true ∨ c = ':' ∨ (c = '+' ∧ s.isCombo = true) := by
  rw [digits?] at h
  cases hnumber : s.number? with
  | none =>
    rw [hnumber] at h
    cases h
  | some n =>
    rw [hnumber, Option.map_some, Option.elim_some, List.mem_cons] at h
    rcases h with hcolon | hdigit
    · exact .inr (.inl hcolon)
    · exact .inl (Text.isDigit_of_mem_toDigits hdigit)

/-- A text consists of lower-case letters, digits and signs; only that of a combination has a plus
sign. -/
theorem of_mem_text {s : Selection} {c : Char} (h : c ∈ s.text.toList) :
    c.isLower = true ∨ c.isDigit = true ∨ c = ':' ∨ (c = '+' ∧ s.isCombo = true) := by
  induction s with
  | combo lead rest ihLead ihRest =>
    rw [toList_text_combo, List.mem_append, List.mem_cons, List.mem_append, List.mem_cons] at h
    rcases h with hname | hcolon | hlead | hplus | hrest
    · exact .inl (isLower_of_mem_name (s := combo lead rest) hname)
    · exact .inr (.inr (.inl hcolon))
    · exact (ihLead hlead).imp_right (·.imp_right (·.imp_right fun hplus => ⟨hplus.1, rfl⟩))
    · exact .inr (.inr (.inr ⟨hplus, rfl⟩))
    · exact (ihRest hrest).imp_right (·.imp_right (·.imp_right fun hplus => ⟨hplus.1, rfl⟩))
  | _ =>
    rw [toList_text rfl, List.mem_append] at h
    rcases h with hname | hrest
    · exact .inl (isLower_of_mem_name hname)
    · exact .inr (of_mem_digits hrest)

/-- The text of a selection has no blanks. -/
theorem isBlank_of_mem_text {s : Selection} {c : Char} (h : c ∈ s.text.toList) :
    Text.isBlank c = false := by
  rcases of_mem_text h with hlower | hdigit | rfl | ⟨rfl, -⟩
  · obtain ⟨hfirst, hlast⟩ := Bool.and_eq_true_iff.mp hlower
    exact Text.isBlank_eq_false (of_decide_eq_true hfirst) (of_decide_eq_true hlast) (by decide)
      (by decide)
  · simp only [Char.isDigit, Bool.and_eq_true, decide_eq_true_eq] at hdigit
    exact Text.isBlank_eq_false hdigit.1 hdigit.2 (by decide) (by decide)
  · decide
  · decide

/-- Only the text of a combination has a plus sign. -/
theorem plus_not_mem_text {s : Selection} (h : s.isCombo = false) : '+' ∉ s.text.toList := by
  intro hmem
  rcases of_mem_text hmem with hlower | hdigit | hcolon | ⟨-, hcombo⟩
  · exact absurd hlower (by decide)
  · exact absurd hdigit (by decide)
  · exact absurd hcolon (by decide)
  · rw [h] at hcombo
    cases hcombo

/-! ### Reading a text -/

/-- How a text is read. -/
theorem ofChars_eq (input : List Char) :
    ofChars input =
      match Text.splitFirst? ':' (Text.trim input) with
      | none =>
        if nameOf (Text.trim input) = "combo" then incomplete input
        else single input (nameOf (Text.trim input)) none
      | some (name, parts) =>
        if nameOf name = "combo" then
          match Text.splitFirst? '+' parts with
          | none => incomplete input
          | some (lead, rest) =>
            match ofChars lead with
            | .error fault => .error fault
            | .ok lead => (ofChars rest).map (combo lead)
        else single input (nameOf name) (some parts) := by
  rw [ofChars]
  split
  · next heq => simp only [heq]
  · next name parts heq =>
    simp only [heq]
    split
    · split
      · next heq => rw [heq]
      · next heq => exact heq ▸ rfl
    · rfl

/-- A text that begins with a name of its own is read by that name. -/
theorem ofChars_text {s : Selection} (h : s.isCombo = false) :
    ofChars s.text.toList = single s.text.toList s.name s.digits? := by
  have hname : ':' ∉ s.name.toList := fun hmem =>
    absurd (isLower_of_mem_name hmem) (by decide)
  have hcombo : nameOf s.name.toList ≠ "combo" := fun heq => by
    rw [nameOf_name, s.name_eq_combo_iff, h] at heq
    cases heq
  rw [ofChars_eq, Text.trim_eq_self fun c => isBlank_of_mem_text]
  cases hdigits : s.digits? with
  | none =>
    have htext : s.text.toList = s.name.toList := by
      rw [toList_text h, hdigits, Option.elim_none, List.append_nil]
    rw [htext, Text.splitFirst?_eq_none hname]
    dsimp only
    rw [if_neg hcombo, nameOf_name]
  | some digits =>
    have htext : s.text.toList = s.name.toList ++ ':' :: digits := by
      rw [toList_text h, hdigits, Option.elim_some]
    rw [htext, Text.splitFirst?_append hname]
    dsimp only
    rw [if_neg hcombo, nameOf_name]

/-- A combination without a plus sign is refused. -/
theorem ofChars_incomplete {parts : List Char}
    (hblank : ∀ c ∈ "combo".toList ++ ':' :: parts, Text.isBlank c = false) (hplus : '+' ∉ parts) :
    ofChars ("combo".toList ++ ':' :: parts) = incomplete ("combo".toList ++ ':' :: parts) := by
  rw [ofChars_eq, Text.trim_eq_self hblank, Text.splitFirst?_append (by decide)]
  dsimp only
  rw [if_pos (by decide), Text.splitFirst?_eq_none hplus]

/-- A combination is read as what its two parts are read as. -/
theorem ofChars_combo {lead rest : List Char} {s : Selection}
    (hblank : ∀ c ∈ "combo".toList ++ ':' :: (lead ++ '+' :: rest), Text.isBlank c = false)
    (hplus : '+' ∉ lead) :
    ofChars ("combo".toList ++ ':' :: (lead ++ '+' :: rest)) = .ok s ↔
      ∃ first second, ofChars lead = .ok first ∧ ofChars rest = .ok second ∧
        s = combo first second := by
  rw [ofChars_eq, Text.trim_eq_self hblank, Text.splitFirst?_append (by decide)]
  dsimp only
  rw [if_pos (by decide), Text.splitFirst?_append hplus]
  dsimp only
  cases ofChars lead with
  | error fault => simp
  | ok first =>
    cases ofChars rest with
    | error fault => simp [Except.map]
    | ok second => simp [Except.map, eq_comm]

/-- A name and a number are read as a selection exactly if the number is a word. -/
theorem single_eq_ok_iff {s t : Selection} (h : s.isCombo = false) (input : List Char) :
    single input s.name s.digits? = .ok t ↔ s.FitsWords ∧ t = s := by
  have hparameter (n default : Nat) (make : Nat → Selection) :
      (parameter input default (some (Nat.toDigits 10 n))).map make = .ok t ↔
        n < Nat.pow 2 64 ∧ t = make n := by
    rw [parameter, Text.readWord?_toDigits]
    by_cases hword : n < Nat.pow 2 64
    · simp [hword, Except.map, eq_comm]
    · simp [hword, Except.map, refuse]
  have hplain (name : String) (make : Selection) :
      plain input name make none = .ok t ↔ t = make := by
    rw [plain, Except.ok.injEq, eq_comm]
  have hcolon (n : Nat) : (Nat.toDigits 10 n).contains ':' = false := by
    rw [List.contains_eq_mem, decide_eq_false_iff_not]
    exact fun hmem => absurd (Text.isDigit_of_mem_toDigits hmem) (by decide)
  cases s with
  | combo => cases h
  | _ =>
    simp only [single, name, digits?, number?, FitsWords, Option.map_some, Option.map_none,
      Option.any_some, Option.any_none, hcolon, hparameter, hplain, Bool.false_eq_true, if_false,
      true_and]

/-- A combination whose lead is a combination is refused: its text is cut at the plus sign within the
lead. -/
theorem ofChars_text_ne_ok {lead : Selection} (h : lead.isCombo = true) (rest t : Selection) :
    ofChars (combo lead rest).text.toList ≠ .ok t := by
  obtain ⟨first, second, rfl⟩ : ∃ first second, lead = combo first second := by
    cases lead with
    | combo first second => exact ⟨first, second, rfl⟩
    | _ => cases h
  have hmem : '+' ∈ first.text.toList ++ '+' :: second.text.toList :=
    List.mem_append_right _ List.mem_cons_self
  obtain ⟨before, after, hparts, hplus⟩ := List.eq_append_cons_of_mem hmem
  have htext : (combo (combo first second) rest).text.toList =
      "combo".toList ++ ':' ::
        (("combo".toList ++ ':' :: before) ++ '+' :: (after ++ '+' :: rest.text.toList)) := by
    rw [toList_text_combo, toList_text_combo, hparts]
    simp only [List.append_assoc, List.cons_append]
  have hblank : ∀ c ∈ (combo (combo first second) rest).text.toList, Text.isBlank c = false :=
    fun c => isBlank_of_mem_text
  have hlead : '+' ∉ "combo".toList ++ ':' :: before := by
    rw [List.mem_append, List.mem_cons, not_or, not_or]
    exact ⟨by decide, by decide, hplus⟩
  rw [htext] at hblank ⊢
  have hcut : ∀ c ∈ "combo".toList ++ ':' :: before, Text.isBlank c = false := fun c hc =>
    hblank c (List.mem_append_right _ (List.mem_cons_of_mem _ (List.mem_append_left _ hc)))
  rw [Ne, ofChars_combo hblank hlead, ofChars_incomplete hcut hplus]
  rintro ⟨_, _, heq, -⟩
  cases heq

/-- A selection is read from its own text if its numbers are words and its leads are single, and no
selection is read from it otherwise. -/
theorem ofChars_text_eq_ok_iff (s t : Selection) :
    ofChars s.text.toList = .ok t ↔ (s.FitsWords ∧ s.HasSingleLeads) ∧ t = s := by
  induction s generalizing t with
  | combo lead rest _ ihRest =>
    cases hlead : lead.isCombo with
    | true =>
      simp only [ofChars_text_ne_ok hlead, HasSingleLeads, hlead, Bool.true_eq_false, false_and,
        and_false]
    | false =>
      have hblank : ∀ c ∈ (combo lead rest).text.toList, Text.isBlank c = false :=
        fun c => isBlank_of_mem_text
      have hsingle (first : Selection) :
          ofChars lead.text.toList = .ok first ↔ lead.FitsWords ∧ first = lead := by
        rw [ofChars_text hlead, single_eq_ok_iff hlead]
      rw [toList_text_combo] at hblank ⊢
      rw [ofChars_combo hblank (plus_not_mem_text hlead), FitsWords, HasSingleLeads]
      constructor
      · rintro ⟨first, second, hfirst, hsecond, rfl⟩
        obtain ⟨hfits, rfl⟩ := (hsingle first).mp hfirst
        obtain ⟨⟨hrest, hleads⟩, rfl⟩ := (ihRest second).mp hsecond
        exact ⟨⟨⟨hfits, hrest⟩, hlead, hleads⟩, rfl⟩
      · rintro ⟨⟨⟨hfits, hrest⟩, -, hleads⟩, rfl⟩
        exact ⟨lead, rest, (hsingle lead).mpr ⟨hfits, rfl⟩, (ihRest rest).mpr ⟨⟨hrest, hleads⟩, rfl⟩,
          rfl⟩
  | _ =>
    rw [ofChars_text rfl, single_eq_ok_iff rfl, HasSingleLeads, and_true]
    all_goals exact fun _ _ heq => by cases heq

/-- A selection whose numbers are words and whose leads are single is read from its own text. -/
theorem parse_text {s : Selection} (hfits : s.FitsWords) (hleads : s.HasSingleLeads) :
    parse s.text = .ok s :=
  (s.ofChars_text_eq_ok_iff s).mpr ⟨⟨hfits, hleads⟩, rfl⟩

/-- What is read from a name and a number is no combination. -/
theorem isCombo_of_single {input : List Char} {name : String} {rest : Option (List Char)}
    {s : Selection} (h : single input name rest = .ok s) : s.isCombo = false := by
  have hplain {made : Selection} (hmade : made.isCombo = false)
      (h : plain input name made rest = .ok s) : s.isCombo = false := by
    cases rest with
    | none => exact Except.ok.inj h ▸ hmade
    | some => cases h
  have hnumber {default : Nat} {make : Nat → Selection} (hmade : ∀ n, (make n).isCombo = false)
      (h : (parameter input default rest).map make = .ok s) : s.isCombo = false := by
    cases hparameter : parameter input default rest with
    | error => rw [hparameter] at h; cases h
    | ok n =>
      rw [hparameter] at h
      exact Except.ok.inj h ▸ hmade n
  unfold single at h
  split at h
  · cases h
  · split at h
    all_goals first
      | exact hplain rfl h
      | exact hnumber (fun _ => rfl) h
      | cases h

/-- What a text is read as is read from its name, from its name and what follows the first colon, or
from the two parts of a combination. -/
theorem ofChars_cases {input : List Char} {s : Selection} (h : ofChars input = .ok s) :
    single input (nameOf (Text.trim input)) none = .ok s ∨
      (∃ name digits, Text.trim input = name ++ ':' :: digits ∧
        single input (nameOf name) (some digits) = .ok s) ∨
      ∃ name before after lead rest,
        Text.trim input = name ++ ':' :: (before ++ '+' :: after) ∧ nameOf name = "combo" ∧
          '+' ∉ before ∧ ofChars before = .ok lead ∧ ofChars after = .ok rest ∧
          s = combo lead rest := by
  rw [ofChars_eq] at h
  split at h
  · split at h
    · cases h
    · exact .inl h
  · next name parts hcolon =>
    have htext := Text.eq_append_of_splitFirst? hcolon
    split at h
    · next hcombo =>
      split at h
      · cases h
      · next before after hplus =>
        split at h
        · cases h
        · next lead hlead =>
          cases hafter : ofChars after with
          | error => rw [hafter] at h; cases h
          | ok rest =>
            rw [hafter] at h
            rw [Text.eq_append_of_splitFirst? hplus] at htext
            exact .inr (.inr ⟨name, before, after, lead, rest, htext, hcombo,
              Text.not_mem_of_splitFirst? hplus, hlead, hafter, (Except.ok.inj h).symm⟩)
    · exact .inr (.inl ⟨name, parts, htext, h⟩)

/-- A selection that is read has single leads, since a combination has a plus sign. -/
theorem hasSingleLeads_of_ofChars {input : List Char} {s : Selection} (h : ofChars input = .ok s) :
    s.HasSingleLeads ∧ (s.isCombo = true → '+' ∈ input) := by
  induction s generalizing input with
  | combo lead rest ihLead ihRest =>
    rcases ofChars_cases h with hsingle | ⟨_, _, _, hsingle⟩ |
      ⟨name, before, after, lead, rest, htext, -, hbefore, hlead, hrest, heq⟩
    · cases isCombo_of_single hsingle
    · cases isCombo_of_single hsingle
    · obtain ⟨rfl, rfl⟩ := Selection.combo.inj heq
      refine ⟨⟨Bool.eq_false_iff.mpr fun hcombo => ?_, (ihRest hrest).1⟩, fun _ => ?_⟩
      · exact hbefore ((ihLead hlead).2 hcombo)
      · refine Text.mem_of_mem_trim ?_
        rw [htext]
        simp
  | _ => exact ⟨trivial, fun hcombo => by cases hcombo⟩

end Selection

namespace Json

/-- A field whose name no other field has. -/
theorem filter_eq_singleton {fields : List (String × Json)} (hnodup : (fields.map Prod.fst).Nodup)
    {field : String × Json} (hmem : field ∈ fields) :
    fields.filter (·.1 == field.1) = [field] := by
  induction fields with
  | nil => exact absurd hmem List.not_mem_nil
  | cons first rest ih =>
    obtain ⟨hfirst, hrest⟩ := List.nodup_cons.mp hnodup
    rcases List.mem_cons.mp hmem with rfl | hlater
    · rw [List.filter_cons, if_pos BEq.rfl, List.filter_eq_nil_iff.mpr]
      intro other hother hname
      exact hfirst (List.mem_map.mpr ⟨other, hother, eq_of_beq hname⟩)
    · rw [List.filter_cons_of_neg, ih hrest hlater]
      intro hname
      exact hfirst (List.mem_map.mpr ⟨field, hlater, (eq_of_beq hname).symm⟩)

/-- A field that is there once is read. -/
theorem fieldOr?_of_mem {α : Type} {fields : List (String × Json)}
    (hnodup : (fields.map Prod.fst).Nodup) {name : String} {value : Json}
    (hmem : (name, value) ∈ fields) (read : Json → Option α) (default : α) :
    fieldOr? fields name read default = read value := by
  rw [fieldOr?, optional?, filter_eq_singleton hnodup hmem]

end Json

namespace Config

/-- A selection is read from the data of a configuration as it is read from its text. -/
theorem selectionOfJson?_text (s t : Selection) :
    selectionOfJson? (.string s.text) = some t ↔ (s.FitsWords ∧ s.HasSingleLeads) ∧ t = s := by
  rw [← Selection.ofChars_text_eq_ok_iff]
  change (Selection.parse s.text).toOption = some t ↔ Selection.parse s.text = .ok t
  cases Selection.parse s.text with
  | error fault => simp [Except.toOption]
  | ok found => simp [Except.toOption]

/-- A level is read from its name. -/
theorem levelOfJson?_name (level : AbstractionLevel) :
    AbstractionLevel.ofJson? (.string level.name) = some level := by
  cases level <;> decide

/-- A configuration is read from its own data as its selection is read. -/
theorem ofJson?_toJson (config : Config) :
    ofJson? config.toJson =
      (selectionOfJson? (.string config.selection.text)).map fun selection =>
        { config with selection } := by
  obtain ⟨fields, hfields⟩ : ∃ fields, config.toJson.fields? = some fields := ⟨_, rfl⟩
  have hnodup : (fields.map Prod.fst).Nodup := by
    obtain rfl := Option.some.inj hfields
    simp only [List.map_cons, List.map_nil]
    decide
  have hread {α : Type} (place : Nat) {name : String} {value : Json}
      (hplace : fields[place]? = some (name, value)) (read : Json → Option α) (default : α) :
      Json.fieldOr? fields name read default = read value :=
    Json.fieldOr?_of_mem hnodup (List.mem_of_getElem? hplace) read default
  obtain rfl := Option.some.inj hfields
  rw [ofJson?, hfields]
  simp only [Option.bind_eq_bind, Option.bind_some, hread 0 rfl, hread 1 rfl, hread 2 rfl,
    hread 3 rfl, hread 4 rfl, hread 5 rfl, hread 6 rfl, hread 7 rfl, hread 8 rfl, hread 9 rfl,
    levelOfJson?_name, Json.natural?, Json.bool?, UInt64.ofNat_toNat]
  cases selectionOfJson? (.string config.selection.text) <;> rfl

/-- A selection is read back from its text, and a configuration from its data, exactly if the
numbers of the selection are words and no combination in it is the lead of a combination. Nothing
else is ever read. -/
theorem readsBack_iff_hasSingleLeads (s t : Selection) (config other : Config) :
    (Selection.parse s.text = .ok t ↔ (s.FitsWords ∧ s.HasSingleLeads) ∧ t = s) ∧
      (ofJson? config.toJson = some other ↔
        (config.selection.FitsWords ∧ config.selection.HasSingleLeads) ∧ other = config) := by
  refine ⟨s.ofChars_text_eq_ok_iff t, ?_⟩
  rw [ofJson?_toJson, Option.map_eq_some_iff]
  constructor
  · rintro ⟨selection, hselection, rfl⟩
    obtain ⟨hread, rfl⟩ := (selectionOfJson?_text _ _).mp hselection
    exact ⟨hread, rfl⟩
  · rintro ⟨hread, rfl⟩
    exact ⟨other.selection, (selectionOfJson?_text _ _).mpr ⟨hread, rfl⟩, rfl⟩

/-- A combination of a combination and another strategy. -/
def nestedLead : Selection :=
  .combo (.combo .random .depthFirst) .dpor

/-- A combination with a combination as its lead is not read back, nor is a configuration that
selects it. -/
theorem not_readsBack_nestedLead :
    nestedLead.FitsWords ∧ Selection.parse nestedLead.text ≠ .ok nestedLead ∧
      ofJson? { selection := nestedLead : Config }.toJson ≠ some { selection := nestedLead } := by
  have hrefused (t : Selection) : Selection.parse nestedLead.text ≠ .ok t :=
    Selection.ofChars_text_ne_ok rfl .dpor t
  refine ⟨⟨⟨trivial, trivial⟩, trivial⟩, hrefused _, ?_⟩
  rw [ofJson?_toJson, Ne, Option.map_eq_some_iff]
  rintro ⟨selection, hselection, -⟩
  obtain ⟨⟨-, hleads⟩, -⟩ := (selectionOfJson?_text _ _).mp hselection
  cases hleads.1

end Config

end ScheduleExplorer
