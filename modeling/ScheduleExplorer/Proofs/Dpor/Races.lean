import ScheduleExplorer.Proofs.Dpor.Causality

/-!
# The races of a path

Two steps race if they belong to different operations, are dependent, and are not in the order of
causes. Of the races with one later step only the closest is reported. This describes the result of
`Race.ofPath` without clocks.
-/

namespace ScheduleExplorer

variable {frames : List Frame}

/-- Whether the step at a position could have come before a step at an earlier one. -/
structure IsRace (frames : List Frame) (index position : Nat) : Prop where
  lt : index < position
  conflict : ∃ earlier later, selectedAt? frames index = some earlier ∧
    selectedAt? frames position = some later ∧ earlier.1 ≠ later.1 ∧
    earlier.2.isDependent later.2 = true
  unordered : ¬ HappensBefore frames index position

/-- Whether a step is the last one that the step at a position races with. -/
structure IsClosestRace (frames : List Frame) (index position : Nat) : Prop
    extends IsRace frames index position where
  closest : ∀ between, index < between → ¬ IsRace frames between position

/-- What an operation does from a step on that receives a message does not race with the send of the
message. -/
theorem not_isRace_of_matchingSend {send receive later : Nat} {frame : Frame} {receiver : OperationId}
    {step other : PendingStep} (hlt : send < receive) (hframe : frames[receive]? = some frame)
    (hstep : frame.selectedStep? = some (receiver, step)) (hkind : step.kind = .receive)
    (hsend : frame.matchingSend = some send) (hle : receive ≤ later)
    (hlater : selectedAt? frames later = some (receiver, other)) : ¬ IsRace frames send later := by
  intro hrace
  have hcause : HappensBefore frames send receive := .single (.message hframe hstep hkind hsend hlt)
  refine hrace.unordered ?_
  rcases Nat.eq_or_lt_of_le hle with rfl | hless
  · exact hcause
  · have hreceive : selectedAt? frames receive = some (receiver, step) := by
      rw [selectedAt?, hframe, Option.bind_some, hstep]
    obtain ⟨c, hc, hcop⟩ := PathStep.exists_at? hreceive
    obtain ⟨d, hd, hdop⟩ := PathStep.exists_at? hlater
    have hop : c.op = d.op := (Prod.mk.inj hcop).1.trans (Prod.mk.inj hdop).1.symm
    exact .trans hcause (PathStep.happensBefore_of_op_eq hc hd hop hless).1

namespace PathStep

/-- The comparison of two steps by their clocks decides whether they race. -/
theorem racesWith_iff {index position : Nat} {earlier later : PathStep}
    (hearlier : at? frames index = some earlier) (hlater : at? frames position = some later)
    (hlt : index < position) :
    earlier.racesWith later = true ↔ IsRace frames index position := by
  have hordered := happensBefore_clock_iff hearlier hlater (Nat.ne_of_lt hlt)
  rw [racesWith, Bool.and_eq_true, Bool.and_eq_true, decide_eq_true_eq, Bool.not_eq_true',
    ← Bool.not_eq_true, hordered]
  constructor
  · rintro ⟨⟨hne, hdependent⟩, hunordered⟩
    exact ⟨hlt, ⟨_, _, selectedAt?_of_at? hearlier, selectedAt?_of_at? hlater, hne, hdependent⟩,
      hunordered⟩
  · rintro ⟨-, ⟨first, second, hfirst, hsecond, hne, hdependent⟩, hunordered⟩
    rw [selectedAt?_of_at? hearlier, Option.some.injEq] at hfirst
    rw [selectedAt?_of_at? hlater, Option.some.injEq] at hsecond
    subst hfirst hsecond
    exact ⟨⟨hne, hdependent⟩, hunordered⟩

/-- Only steps race. -/
theorem exists_at?_of_isRace {index position : Nat} (h : IsRace frames index position) :
    ∃ s, at? frames index = some s := by
  obtain ⟨earlier, -, hearlier, -⟩ := h.conflict
  obtain ⟨s, hs, -⟩ := exists_at? hearlier
  exact ⟨s, hs⟩

/-- Looking backwards for a step that races finds the closest race. -/
theorem find?_racesWith_eq_some {position : Nat} {later s : PathStep}
    (hlater : at? frames position = some later) :
    (before frames position).find? (·.racesWith later) = some s ↔
      at? frames s.frame = some s ∧ IsClosestRace frames s.frame position := by
  rw [find?_before_eq_some]
  constructor
  · rintro ⟨hlt, hs, hraces, hlatest⟩
    refine ⟨hs, (racesWith_iff hs hlater hlt).mp hraces, fun between hbetween hrace => ?_⟩
    obtain ⟨t, ht⟩ := exists_at?_of_isRace hrace
    have hskipped := hlatest between hbetween hrace.lt t ht
    rw [(racesWith_iff ht hlater hrace.lt).mpr hrace] at hskipped
    cases hskipped
  · rintro ⟨hs, hrace, hclosest⟩
    refine ⟨hrace.lt, hs, (racesWith_iff hs hlater hrace.lt).mpr hrace,
      fun between hbetween hposition t ht => ?_⟩
    rw [← Bool.not_eq_true, racesWith_iff ht hlater hposition]
    exact hclosest between hbetween

/-- The closest race of a step is the one that is found when looking backwards. -/
theorem isClosestRace_iff {index position : Nat} {later : PathStep}
    (hlater : at? frames position = some later) :
    IsClosestRace frames index position ↔
      ∃ s, (before frames position).find? (·.racesWith later) = some s ∧ s.frame = index := by
  constructor
  · intro hclosest
    obtain ⟨s, hs⟩ := exists_at?_of_isRace hclosest.toIsRace
    obtain rfl := frame_of_at? hs
    exact ⟨s, (find?_racesWith_eq_some hlater).mpr ⟨hs, hclosest⟩, rfl⟩
  · rintro ⟨s, hfind, rfl⟩
    exact ((find?_racesWith_eq_some hlater).mp hfind).2

end PathStep

namespace Race

open PathStep

/-- The race of one more step comes last. -/
theorem ofSteps_append (earlier steps : List PathStep) (later : PathStep) :
    ofSteps earlier (steps ++ [later]) = ofSteps earlier steps ++
      (((steps.reverse ++ earlier).find? (·.racesWith later)).map
        fun s => ⟨s.frame, later.op⟩).toList := by
  induction steps generalizing earlier with
  | nil =>
    rw [List.nil_append, ofSteps, ofSteps, List.reverse_nil, List.nil_append, List.nil_append]
    cases earlier.find? (·.racesWith later) <;> rfl
  | cons step rest ih =>
    rw [List.cons_append, ofSteps, ofSteps, ih, List.reverse_cons, List.append_assoc,
      List.singleton_append]
    cases earlier.find? (·.racesWith step) <;> rfl

/-- The clock of the frame at a position. -/
def clockAt (frames : List Frame) (index : Nat) : VectorClock :=
  (clocks frames)[index]?.getD {}

/-- The clock at the frame of a step is the clock of the step. -/
theorem clockAt_eq {index : Nat} {s : PathStep} (hs : at? frames index = some s) :
    clockAt frames index = s.clock := by
  rw [at?, Option.join_eq_some_iff] at hs
  rw [clockAt, clocks, List.getElem?_map, hs]
  rfl

/-- The races of the steps before a position are the closest ones, in the order of the later
steps. -/
theorem exists_found_before (frames : List Frame) (position : Nat) :
    ∃ found : List (Nat × Nat),
      (ofSteps [] (before frames position).reverse).map some =
        found.map (fun pair => (selectedAt? frames pair.2).map fun later => ⟨pair.1, later.1⟩) ∧
      found.Pairwise (fun first second => first.2 < second.2) ∧
      ∀ i j, (i, j) ∈ found ↔ j < position ∧ IsClosestRace frames i j := by
  induction position with
  | zero => exact ⟨[], rfl, .nil, fun i j => by simp⟩
  | succ position ih =>
    obtain ⟨found, hmap, hsorted, hmem⟩ := ih
    have hnext (i j : Nat) : j < position + 1 ∧ IsClosestRace frames i j ↔
        (i, j) ∈ found ∨ j = position ∧ IsClosestRace frames i position := by
      rw [hmem, Nat.lt_succ_iff_lt_or_eq, or_and_right]
      exact or_congr_right (and_congr_right fun heq => by rw [heq])
    -- A position with no closest race adds nothing.
    have hskip (hnone : ∀ i, ¬ IsClosestRace frames i position) (i j : Nat) :
        (i, j) ∈ found ↔ j < position + 1 ∧ IsClosestRace frames i j := by
      simp only [hnext, hnone, and_false, or_false]
    rw [before_succ]
    cases hlater : at? frames position with
    | none =>
      refine ⟨found, hmap, hsorted, hskip fun i hclosest => ?_⟩
      obtain ⟨-, later, -, hselected, -⟩ := hclosest.conflict
      obtain ⟨s, hs, -⟩ := exists_at? hselected
      cases hlater.symm.trans hs
    | some later =>
      rw [Option.toList_some, List.singleton_append, List.reverse_cons, ofSteps_append,
        List.reverse_reverse, List.append_nil]
      cases hfind : (before frames position).find? (·.racesWith later) with
      | none =>
        refine ⟨found, by rw [Option.map_none, Option.toList_none, List.append_nil, hmap], hsorted,
          hskip fun i hclosest => ?_⟩
        obtain ⟨s, hs, -⟩ := (isClosestRace_iff hlater).mp hclosest
        cases hfind.symm.trans hs
      | some s =>
        refine ⟨found ++ [(s.frame, position)], ?_, ?_, fun i j => ?_⟩
        · rw [List.map_append, List.map_append, hmap, Option.map_some, Option.toList_some,
            List.map_singleton, List.map_singleton, selectedAt?_of_at? hlater, Option.map_some]
        · refine List.pairwise_append.mpr ⟨hsorted, List.pairwise_singleton _ _, ?_⟩
          rintro ⟨i, j⟩ hfound last hlast
          rw [List.mem_singleton.mp hlast]
          exact ((hmem i j).mp hfound).1
        · rw [hnext, isClosestRace_iff hlater, hfind, List.mem_append, List.mem_singleton,
            Prod.mk.injEq]
          refine or_congr_right ⟨fun ⟨hi, hj⟩ => ⟨hj, s, rfl, hi.symm⟩, ?_⟩
          rintro ⟨hj, t, ht, hi⟩
          exact ⟨hi.symm.trans (congrArg PathStep.frame (Option.some.inj ht).symm), hj⟩

/-- The clocks of a path are in the order of causes of its steps, and the reported races are, in the
order of their later steps, each step's closest earlier step of another operation that is dependent
on it and not before it in this order. -/
theorem analysis_exact (frames : List Frame) :
    (∀ i j, i ≠ j → (selectedAt? frames i).isSome → (selectedAt? frames j).isSome →
      ((clockAt frames i).happensBefore (clockAt frames j) = true ↔ HappensBefore frames i j)) ∧
    ∃ found : List (Nat × Nat),
      (ofPath frames).map some =
        found.map (fun pair => (selectedAt? frames pair.2).map fun later => ⟨pair.1, later.1⟩) ∧
      found.Pairwise (fun first second => first.2 < second.2) ∧
      ∀ i j, (i, j) ∈ found ↔ IsClosestRace frames i j := by
  constructor
  · intro i j hne hi hj
    obtain ⟨earlier, hearlier⟩ := Option.isSome_iff_exists.mp hi
    obtain ⟨later, hlater⟩ := Option.isSome_iff_exists.mp hj
    obtain ⟨c, hc, -⟩ := exists_at? hearlier
    obtain ⟨s, hs, -⟩ := exists_at? hlater
    rw [clockAt_eq hc, clockAt_eq hs]
    exact happensBefore_clock_iff hc hs hne
  · obtain ⟨found, hmap, hsorted, hmem⟩ := exists_found_before frames frames.length
    have hsteps : (before frames frames.length).reverse = (timeline frames).filterMap id := by
      rw [before, List.reverse_reverse, List.take_length]
    rw [hsteps] at hmap
    refine ⟨found, hmap, hsorted, fun i j => (hmem i j).trans (and_iff_right_of_imp fun hclosest => ?_)⟩
    obtain ⟨-, later, -, hselected, -⟩ := hclosest.conflict
    by_contra hge
    rw [selectedAt?, List.getElem?_eq_none (Nat.le_of_not_lt hge)] at hselected
    cases hselected

/-- One operation sends a message, which another one receives. -/
def handover : List Frame :=
  let send : PendingStep := { kind := .send, target := .inbox, targetId := 1 }
  let receive : PendingStep := { kind := .receive, target := .inbox, targetId := 1 }
  [{ pending := [some send, some receive], selected := some ⟨0⟩ },
    { pending := [none, some receive], selected := some ⟨1⟩, matchingSend := some 0 }]

/-- The clocks of the two steps order them, so the send happens before the receive. -/
theorem analysis_exact_handover :
    (clockAt handover 0).happensBefore (clockAt handover 1) = true ∧ HappensBefore handover 0 1 := by
  have hclocks : (clockAt handover 0).happensBefore (clockAt handover 1) = true := by decide
  exact ⟨hclocks, ((analysis_exact handover).1 0 1 (by decide) (by decide) (by decide)).mp hclocks⟩

end Race

end ScheduleExplorer
