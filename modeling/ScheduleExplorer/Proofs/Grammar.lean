import ScheduleExplorer.Proofs.Selections
import Mathlib.Tactic.FinCases

/-!
# The texts that are read as selections

Up to blanks around it, the text of a selection is a name, a name with a number after a colon, or
the name of a combination with two texts of selections that a plus sign joins. The case of a name
does not count, and the plus sign that joins two texts is the first one. `Denotes` is this grammar;
a text is read as a selection exactly if it denotes it, and every other text is refused.

The grammar has many texts for one selection, and the text that is written is one of them: it
denotes the selection again, and is written for what it denotes.
-/

namespace ScheduleExplorer

namespace Selection

/-- The names that stand alone, with what they select. A number that is left out has its default. -/
def bareNames : List (String × Selection) :=
  [("random", random), ("prob", sticky defaultFlips), ("pct", priority defaultPoints),
    ("fairpct", fairPriority defaultPoints), ("db", delayBounding defaultDelays),
    ("idb", iterativeDelayBounding defaultInitialDelays), ("dfs", depthFirst), ("dpor", dpor),
    ("rdpor", randomDpor), ("rl", qLearning), ("greedy", novelty)]

/-- The names that a number follows, with what they select. -/
def numberedNames : List (String × (Nat → Selection)) :=
  [("prob", sticky), ("pct", priority), ("fairpct", fairPriority), ("db", delayBounding),
    ("idb", iterativeDelayBounding)]

/-- The texts of selections, each with the selection that it is for. -/
inductive Denotes : List Char → Selection → Prop where
  | bare {input name : List Char} {s : Selection} (hinput : Text.Surrounds input name)
      (hname : (nameOf name, s) ∈ bareNames) : Denotes input s
  | numbered {input name digits : List Char} {make : Nat → Selection} {n : Nat}
      (hinput : Text.Surrounds input (name ++ ':' :: digits))
      (hname : (nameOf name, make) ∈ numberedNames) (hdigits : Text.Writes digits n)
      (hword : n < Nat.pow 2 64) : Denotes input (make n)
  | combo {input name before after : List Char} {lead rest : Selection}
      (hinput : Text.Surrounds input (name ++ ':' :: (before ++ '+' :: after)))
      (hname : nameOf name = "combo") (hplus : '+' ∉ before) (hlead : Denotes before lead)
      (hrest : Denotes after rest) : Denotes input (combo lead rest)

/-! ### Names -/

/-- A name alone is read by the table of the names that stand alone. -/
theorem single_none_eq_ok_iff {input : List Char} {name : String} {s : Selection} :
    single input name none = .ok s ↔ (name, s) ∈ bareNames := by
  constructor
  · intro h
    unfold single at h
    split at h
    · cases h
    · split at h
      all_goals first
        | obtain rfl := Except.ok.inj h; decide
        | cases h
  · intro h
    have hread : ∀ entry ∈ bareNames, single input entry.1 none = .ok entry.2 := by
      intro entry hentry
      fin_cases hentry <;> rfl
    exact hread (name, s) h

/-- A number after a colon is read if it is a word. -/
theorem map_parameter_eq_ok_iff {input digits : List Char} {default : Nat} {make : Nat → Selection}
    {s : Selection} : (parameter input default (some digits)).map make = .ok s ↔
      ∃ n, (Text.Writes digits n ∧ n < Nat.pow 2 64) ∧ make n = s := by
  simp only [← Text.readWord?_eq_some_iff]
  rw [parameter]
  cases Text.readWord? digits with
  | none => simp [refuse, Except.map]
  | some n => simp [Except.map]

/-- A name with a number is read by the table of the names that a number follows. -/
theorem single_some_eq_ok_iff {input digits : List Char} {name : String} {s : Selection} :
    single input name (some digits) = .ok s ↔
      ∃ make n, (name, make) ∈ numberedNames ∧ (Text.Writes digits n ∧ n < Nat.pow 2 64) ∧
        make n = s := by
  constructor
  · intro h
    unfold single at h
    split at h
    · cases h
    · split at h
      all_goals first
        | cases h
        | obtain ⟨n, hn⟩ := map_parameter_eq_ok_iff.mp h
          exact ⟨_, n, by simp [numberedNames], hn⟩
  · rintro ⟨make, n, hname, hn, rfl⟩
    have hcolon : digits.contains ':' = false := by
      rw [List.contains_eq_mem, decide_eq_false_iff_not]
      exact hn.1.colon_not_mem
    have hread : ∀ entry ∈ numberedNames, ∃ default, single input entry.1 (some digits) =
        (parameter input default (some digits)).map entry.2 := by
      intro entry hentry
      unfold single
      rw [Option.any_some, hcolon, if_neg Bool.false_ne_true]
      fin_cases hentry <;> exact ⟨_, rfl⟩
    obtain ⟨default, hdefault⟩ := hread (name, make) hname
    rw [hdefault]
    exact map_parameter_eq_ok_iff.mpr ⟨n, hn, rfl⟩

/-- No letter of a name becomes a colon. -/
theorem colon_not_mem_of_nameOf {letters : List Char} (h : nameOf letters ∈ names) :
    ':' ∉ letters := by
  intro hmem
  have hcolon : ':' ∈ (nameOf letters).toList := by
    rw [nameOf, String.toList_ofList, Text.lowerAscii]
    exact List.mem_map.mpr ⟨':', hmem, by decide⟩
  exact absurd (isLower_of_mem h hcolon) (by decide)

/-- The names that stand alone are names, and none of them is the one of a combination. -/
theorem mem_names_of_bare {name : String} {s : Selection} (h : (name, s) ∈ bareNames) :
    name ∈ names ∧ name ≠ "combo" := by
  have hnames : ∀ entry ∈ bareNames, entry.1 ∈ names ∧ entry.1 ≠ "combo" := by decide
  exact hnames (name, s) h

/-- The names that a number follows are names, and none of them is the one of a combination. -/
theorem mem_names_of_numbered {name : String} {make : Nat → Selection}
    (h : (name, make) ∈ numberedNames) : name ∈ names ∧ name ≠ "combo" := by
  have hnames : ∀ entry ∈ numberedNames.map Prod.fst, entry ∈ names ∧ entry ≠ "combo" := by decide
  exact hnames name (List.mem_map.mpr ⟨(name, make), h, rfl⟩)

/-! ### Reading -/

/-- A text that denotes a selection is read as it. -/
theorem Denotes.ofChars_eq_ok {input : List Char} {s : Selection} (h : Denotes input s) :
    ofChars input = .ok s := by
  induction h with
  | bare hinput hname =>
    obtain ⟨hmem, hcombo⟩ := mem_names_of_bare hname
    rw [ofChars_eq, Text.trim_eq_iff.mpr hinput,
      Text.splitFirst?_eq_none (colon_not_mem_of_nameOf hmem)]
    exact (if_neg hcombo).trans (single_none_eq_ok_iff.mpr hname)
  | @numbered input name digits make n hinput hname hdigits hword =>
    obtain ⟨hmem, hcombo⟩ := mem_names_of_numbered hname
    rw [ofChars_eq, Text.trim_eq_iff.mpr hinput,
      Text.splitFirst?_append (colon_not_mem_of_nameOf hmem)]
    exact (if_neg hcombo).trans
      (single_some_eq_ok_iff.mpr ⟨make, n, hname, ⟨hdigits, hword⟩, rfl⟩)
  | @combo input name before after lead rest hinput hname hplus _ _ ihLead ihRest =>
    have hmem : nameOf name ∈ names := hname ▸ by decide
    rw [ofChars_eq, Text.trim_eq_iff.mpr hinput,
      Text.splitFirst?_append (colon_not_mem_of_nameOf hmem)]
    dsimp only
    rw [if_pos hname, Text.splitFirst?_append hplus]
    dsimp only
    rw [ihLead, ihRest]
    rfl

/-- A text denotes what is read from a name, alone or with a number. -/
theorem denotes_of_single {input : List Char} {s : Selection}
    (h : single input (nameOf (Text.trim input)) none = .ok s ∨
      ∃ name digits, Text.trim input = name ++ ':' :: digits ∧
        single input (nameOf name) (some digits) = .ok s) : Denotes input s := by
  rcases h with hname | ⟨name, digits, hinput, hname⟩
  · exact .bare (Text.surrounds_trim input) (single_none_eq_ok_iff.mp hname)
  · obtain ⟨make, n, hmake, ⟨hdigits, hword⟩, rfl⟩ := single_some_eq_ok_iff.mp hname
    exact .numbered (Text.trim_eq_iff.mp hinput) hmake hdigits hword

/-- A text denotes the selection that is read from it. -/
theorem denotes_of_ofChars {input : List Char} {s : Selection} (h : ofChars input = .ok s) :
    Denotes input s := by
  induction s generalizing input with
  | combo lead rest ihLead ihRest =>
    rcases ofChars_cases h with hname | hnumber |
      ⟨name, before, after, lead, rest, hinput, hname, hplus, hlead, hrest, heq⟩
    · exact denotes_of_single (.inl hname)
    · exact denotes_of_single (.inr hnumber)
    · obtain ⟨rfl, rfl⟩ := Selection.combo.inj heq
      exact .combo (Text.trim_eq_iff.mp hinput) hname hplus (ihLead hlead) (ihRest hrest)
  | _ =>
    rcases ofChars_cases h with hname | hnumber | ⟨_, _, _, _, _, _, _, _, _, _, heq⟩
    · exact denotes_of_single (.inl hname)
    · exact denotes_of_single (.inr hnumber)
    · cases heq

/-- The numbers of a selection that is read are words. -/
theorem Denotes.fitsWords {input : List Char} {s : Selection} (h : Denotes input s) :
    s.FitsWords := by
  induction h with
  | bare _ hname =>
    have hbare : ∀ entry ∈ bareNames, entry.2.FitsWords := by
      intro entry hentry
      fin_cases hentry <;> first | trivial | (change _ < _; decide)
    exact hbare _ hname
  | @numbered input name digits make n hinput hname hdigits hword =>
    have hnumbered : ∀ entry ∈ numberedNames, (entry.2 n).FitsWords := by
      intro entry hentry
      fin_cases hentry <;> exact hword
    exact hnumbered _ hname
  | combo _ _ _ _ _ ihLead ihRest => exact ⟨ihLead, ihRest⟩

/-- A text is read as a selection exactly if it denotes the selection. What is read has no
combination as the lead of a combination, and its own text is read as it again, so that this text is
written once more. -/
theorem parse_eq_ok_iff_denotes (input : String) :
    (∀ s, parse input = .ok s ↔ Denotes input.toList s) ∧
      ∀ s, parse input = .ok s → s.HasSingleLeads ∧ parse s.text = .ok s ∧
        (parse s.text).map text = .ok s.text := by
  refine ⟨fun s => ⟨denotes_of_ofChars, Denotes.ofChars_eq_ok⟩, fun s h => ?_⟩
  have hleads := (hasSingleLeads_of_ofChars h).1
  have hread := parse_text (denotes_of_ofChars h).fitsWords hleads
  refine ⟨hleads, hread, ?_⟩
  rw [hread]
  rfl

/-- A combination of three strategies. -/
def threeParts : Selection :=
  combo (fairPriority 7) (combo depthFirst (iterativeDelayBounding 2))

/-- Capitals, blanks, leading zeros and a plus sign do not matter. What is read is printed without
them. -/
theorem parse_eq_ok_iff_denotes_threeParts :
    parse "\u2003COMBO:fairPCT:007\u00a0+ combo:dfs +IDB:+2\t" = .ok threeParts ∧
      threeParts.HasSingleLeads ∧ parse threeParts.text = .ok threeParts ∧
      threeParts.text = "combo:fairpct:7+combo:dfs+idb:2" := by
  have hlead : Denotes "fairPCT:007\u00a0".toList (fairPriority 7) := by
    have hinput : Text.Surrounds "fairPCT:007\u00a0".toList
        ("fairPCT".toList ++ ':' :: "007".toList) := Text.trim_eq_iff.mp (by decide)
    have hname : (nameOf "fairPCT".toList, fairPriority) ∈ numberedNames := by
      rw [show nameOf "fairPCT".toList = "fairpct" by decide]
      simp [numberedNames]
    have hdigits : Text.Writes "007".toList 7 := ⟨"007".toList, by decide, by simp, .inl rfl, rfl⟩
    exact .numbered hinput hname hdigits (by decide)
  have hfirst : Denotes "dfs ".toList depthFirst := by
    have hinput : Text.Surrounds "dfs ".toList "dfs".toList := Text.trim_eq_iff.mp (by decide)
    exact .bare hinput (by decide)
  have hsecond : Denotes "IDB:+2".toList (iterativeDelayBounding 2) := by
    have hinput : Text.Surrounds "IDB:+2".toList ("IDB".toList ++ ':' :: "+2".toList) :=
      Text.trim_eq_iff.mp (by decide)
    have hname : (nameOf "IDB".toList, iterativeDelayBounding) ∈ numberedNames := by
      rw [show nameOf "IDB".toList = "idb" by decide]
      simp [numberedNames]
    have hdigits : Text.Writes "+2".toList 2 := ⟨"2".toList, by decide, by simp, .inr rfl, rfl⟩
    exact .numbered hinput hname hdigits (by decide)
  have hrest : Denotes " combo:dfs +IDB:+2".toList
      (combo depthFirst (iterativeDelayBounding 2)) := by
    have hinput : Text.Surrounds " combo:dfs +IDB:+2".toList
        ("combo".toList ++ ':' :: ("dfs ".toList ++ '+' :: "IDB:+2".toList)) :=
      Text.trim_eq_iff.mp (by decide)
    exact .combo hinput (by decide) (by decide) hfirst hsecond
  have hdenotes : Denotes "\u2003COMBO:fairPCT:007\u00a0+ combo:dfs +IDB:+2\t".toList
      threeParts := by
    have hinput : Text.Surrounds "\u2003COMBO:fairPCT:007\u00a0+ combo:dfs +IDB:+2\t".toList
        ("COMBO".toList ++ ':' ::
          ("fairPCT:007\u00a0".toList ++ '+' :: " combo:dfs +IDB:+2".toList)) :=
      Text.trim_eq_iff.mp (by decide)
    exact .combo hinput (by decide) (by decide) hlead hrest
  have hread := ((parse_eq_ok_iff_denotes _).1 _).mpr hdenotes
  obtain ⟨hleads, hagain, -⟩ := (parse_eq_ok_iff_denotes _).2 _ hread
  exact ⟨hread, hleads, hagain, by decide⟩

end Selection

end ScheduleExplorer
