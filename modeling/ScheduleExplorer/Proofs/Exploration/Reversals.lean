import ScheduleExplorer.Proofs.Dpor.Marks
import ScheduleExplorer.Proofs.Dpor.Races
import ScheduleExplorer.Proofs.Exploration.Records

/-!
# Race reversal

In random mode a search reverses a race of each path: the next walk takes the same decisions up to the
turn of the earlier step and passes this turn on to the operation of the later one, or if that one
was not enabled there, to another one. After a number of reversals in a row, or when a path has no
race, the next walk begins with nothing recorded.

This is so for every program that is deterministic given the decisions, wherever a walk ends, and
whatever the source of the search draws.
-/

namespace ScheduleExplorer

variable {ε γ : Type}

namespace Race

/-- A race that is reported is one of the selected step of its frame with a step of its operation. -/
theorem exists_isClosestRace {frames : List Frame} {race : Race} (h : race ∈ ofPath frames) :
    ∃ position later, IsClosestRace frames race.frame position ∧
      selectedAt? frames position = some later ∧ later.1 = race.op := by
  obtain ⟨found, hmap, -, hmem⟩ := exists_found_before frames frames.length
  have hsteps : (PathStep.before frames frames.length).reverse =
      (PathStep.timeline frames).filterMap id := by
    rw [PathStep.before, List.reverse_reverse, List.take_length]
  rw [hsteps] at hmap
  have hrace := List.mem_map_of_mem (f := some) h
  rw [ofPath, hmap] at hrace
  obtain ⟨⟨index, position⟩, hfound, hlater⟩ := List.mem_map.mp hrace
  obtain ⟨later, hselected, rfl⟩ := Option.map_eq_some_iff.mp hlater
  exact ⟨position, later, ((hmem index position).mp hfound).2, hselected, rfl⟩

/-- The frame of a race that is reported is in the path, and another operation was selected in it. -/
theorem exists_frame {frames : List Frame} {race : Race} (h : race ∈ ofPath frames) :
    ∃ frame, frames[race.frame]? = some frame ∧ frame.selected ≠ some race.op := by
  obtain ⟨position, later, hclosest, hlater, hop⟩ := exists_isClosestRace h
  obtain ⟨earlier, other, hearlier, hother, hne, -⟩ := hclosest.conflict
  obtain rfl := Option.some.inj (hother.symm.trans hlater)
  obtain ⟨frame, hframe, hstep⟩ := Option.bind_eq_some_iff.mp hearlier
  refine ⟨frame, hframe, fun hsame => hne ?_⟩
  have hselected : frame.selected = some earlier.1 := Frame.selected_of_selectedStep? hstep
  rw [hselected] at hsame
  exact (Option.some.inj hsame).trans hop.symm

end Race

/-- The source from which a random search draws when it moves on. -/
def ReversalMode.reseeded [RandomSource γ] (mode : ReversalMode γ) : γ :=
  RandomSource.reseed (deriveSeed mode.baseSeed (UInt64.ofNat (mode.iterations + 1))) mode.source

namespace Dpor

/-- The operation that takes the place of the selected one when a race is reversed in a frame, if
there is one: that of the race if it was enabled, and otherwise any other enabled one. -/
inductive Replaces (race : Race) (frame : Frame) : Option OperationId → Prop where
  | racing (h : frame.enabled.contains race.op = true) : Replaces race frame (some race.op)
  | other {id : OperationId} (h : frame.enabled.contains race.op = false)
      (hid : frame.enabled.contains id = true) (hne : frame.selected ≠ some id) :
      Replaces race frame (some id)
  | nothing (h : frame.enabled.contains race.op = false)
      (hall : ∀ id, frame.enabled.contains id = true → frame.selected = some id) :
      Replaces race frame none

/-- The frames of a path in which a race is reversed. -/
def reversedFrames (race : Race) (frames : List Frame) : Option OperationId → List Frame
  | some id => frames.take race.frame ++ ((frames[race.frame]?).map (Frame.select id)).toList
  | none => frames.take (race.frame + 1)

/-- Nothing is recorded in a search, and no step is counted. -/
structure IsFresh (s : Dpor γ) : Prop where
  path : s.path = []
  ahead : s.ahead = []
  initial : s.initial = {}
  steps : s.steps = 0

variable [RandomSource γ]

/-- A new search has nothing recorded. -/
theorem isFresh_ofSource (source : γ) (maxSteps limit : Nat) : (ofSource source maxSteps limit).IsFresh :=
  ⟨rfl, rfl, rfl, rfl⟩

/-- The race of its path that a random search picks when it moves on, if it reverses one. -/
def picked? (s : Dpor γ) : Option Race :=
  s.random.bind fun mode =>
    let races := Race.ofPath s.path.reverse
    if races.isEmpty || mode.limit ≤ mode.reversals then none
    else races[(RandomSource.nextBounded races.length mode.reseeded).1]?

variable {s : Dpor γ} {mode : ReversalMode γ} {race : Race}

/-- A race is picked as it is drawn, unless there is none or as many as allowed have been reversed. -/
theorem picked?_eq (hrandom : s.random = some mode) : s.picked? =
    if (Race.ofPath s.path.reverse).isEmpty || mode.limit ≤ mode.reversals then none
    else (Race.ofPath s.path.reverse)[(RandomSource.nextBounded
      (Race.ofPath s.path.reverse).length mode.reseeded).1]? := by
  rw [picked?, hrandom]
  rfl

/-- A race that is picked is one of the path, and fewer than allowed have been reversed. -/
theorem of_picked? (hrandom : s.random = some mode) (hpicked : s.picked? = some race) :
    race ∈ Race.ofPath s.path.reverse ∧ mode.reversals < mode.limit := by
  rw [picked?_eq hrandom] at hpicked
  split at hpicked
  · cases hpicked
  · next hopen =>
    rw [Bool.or_eq_true, not_or, decide_eq_true_iff] at hopen
    exact ⟨List.mem_of_getElem? hpicked, Nat.lt_of_not_le hopen.2⟩

/-- A random search always moves on, by the races of the path that it has passed. -/
theorem exists_prepare (hrandom : s.random = some mode) : ∃ stats, s.prepare =
    (true, ({ s with ahead := [], stats } : Dpor γ).prepareRandom (Race.ofPath s.path.reverse)
      mode) := by
  have hframes : ({ s with ahead := [] } : Dpor γ).frames = s.path.reverse := List.append_nil _
  refine ⟨{ s.stats with
    iterations := s.stats.iterations + 1
    races := s.stats.races + (Race.ofPath s.path.reverse).length }, ?_⟩
  rw [prepare]
  dsimp only
  rw [hframes, hrandom]

omit [RandomSource γ] in
/-- The first turns that a search has recorded are those of its path. -/
theorem take_turns {count : Nat} (h : count ≤ s.path.length) :
    s.turns.take count = (s.path.reverse.take count).map Frame.record := by
  rw [turns, frames, ← List.map_take, List.take_append_of_le_length]
  rwa [List.length_reverse]

section Draws

variable (hdraws : ∀ (bound : Nat) (source : γ), 0 < bound →
  (RandomSource.nextBounded bound source).1 < bound)

include hdraws

/-- No race is picked if there is none, or if as many as allowed have been reversed. -/
theorem picked?_eq_none_iff (hrandom : s.random = some mode) :
    s.picked? = none ↔ ((Race.ofPath s.path.reverse).isEmpty ||
      decide (mode.limit ≤ mode.reversals)) = true := by
  rw [picked?_eq hrandom]
  generalize Race.ofPath s.path.reverse = races
  split
  · next hnone => exact iff_of_true rfl hnone
  · next hsome =>
    refine iff_of_false (fun hnone => ?_) hsome
    have hraces : races ≠ [] := by
      rintro rfl
      exact hsome rfl
    have hlt := hdraws races.length mode.reseeded
      (List.length_pos_of_ne_nil hraces)
    have hge := List.getElem?_eq_none_iff.mp hnone
    omega

/-- What takes the place of the selected operation is drawn from the source of the search. -/
theorem replaces_reversal? (race : Race) (frame : Frame)
    (mode : ReversalMode γ) : ∃ source, (reversal? race frame mode).2 = { mode with source } ∧
      Replaces race frame (reversal? race frame mode).1 := by
  rw [reversal?]
  split
  · next henabled => exact ⟨mode.source, rfl, .racing henabled⟩
  · next hnot =>
    have hfalse : frame.enabled.contains race.op = false := Bool.eq_false_iff.mpr hnot
    have hmem (id : OperationId) : id ∈ frame.enabled.toList.filter
        (fun id => frame.selected ≠ some id) ↔
        frame.enabled.contains id = true ∧ frame.selected ≠ some id := by
      rw [List.mem_filter, OpSet.mem_toList, decide_eq_true_iff]
    dsimp only
    generalize frame.enabled.toList.filter (fun id => frame.selected ≠ some id) = others at hmem
    split
    · next hempty =>
      refine ⟨mode.source, rfl, .nothing hfalse fun id hid => ?_⟩
      by_contra hne
      have hother := (hmem id).mpr ⟨hid, hne⟩
      rw [List.isEmpty_iff.mp hempty] at hother
      cases hother
    · next hsome =>
      have hlt := hdraws others.length mode.source
        (List.length_pos_of_ne_nil fun hnil => hsome (List.isEmpty_iff.mpr hnil))
      dsimp only
      rw [List.getElem?_eq_getElem hlt]
      obtain ⟨hid, hne⟩ := (hmem _).mp (List.getElem_mem hlt)
      exact ⟨_, rfl, .other hfalse hid hne⟩

/-- Where no race is picked a random search moves on to a fresh path. -/
theorem exists_prepare_of_eq_none (hrandom : s.random = some mode)
    (hnone : s.picked? = none) : ∃ source stats, s.prepare = (true, ({ s with
      ahead := []
      initial := {}
      random := some { mode with iterations := mode.iterations + 1, source, reversals := 0 }
      stats } : Dpor γ).restart []) := by
  obtain ⟨stats, hprepare⟩ := exists_prepare hrandom
  refine ⟨mode.reseeded, stats, ?_⟩
  rw [hprepare, prepareRandom]
  dsimp only
  rw [if_pos ((picked?_eq_none_iff hdraws hrandom).mp hnone)]
  rfl

/-- Where a race is picked a random search keeps the path up to its frame and replaces the operation
selected there. -/
theorem exists_prepare_of_eq_some (hrandom : s.random = some mode)
    (hpicked : s.picked? = some race) : ∃ frame choice source stats,
      s.path.reverse[race.frame]? = some frame ∧ frame.selected ≠ some race.op ∧
      Replaces race frame choice ∧ s.prepare = (true, ({ s with
        ahead := []
        random := some { mode with
          iterations := mode.iterations + 1, source, reversals := mode.reversals + 1 }
        stats } : Dpor γ).restart (reversedFrames race s.path.reverse choice)) := by
  obtain ⟨frame, hframe, hne⟩ := Race.exists_frame (of_picked? hrandom hpicked).1
  obtain ⟨stats, hprepare⟩ := exists_prepare hrandom
  have hopen : ¬ s.picked? = none := by
    rw [hpicked]
    exact Option.some_ne_none race
  rw [picked?_eq_none_iff hdraws hrandom] at hopen
  rw [picked?_eq hrandom, if_neg hopen] at hpicked
  have hframes : ({ s with ahead := [], stats } : Dpor γ).frames = s.path.reverse :=
    List.append_nil _
  have hlast : (s.path.reverse.take (race.frame + 1)).getLast? = some frame := by
    rw [List.take_add_one, hframe]
    exact List.getLast?_concat
  have hfirst : (s.path.reverse.take (race.frame + 1)).dropLast = s.path.reverse.take race.frame := by
    rw [List.take_add_one, hframe]
    exact List.dropLast_concat
  -- The race is drawn first, and then from the same source what takes its place.
  generalize hdrawn : RandomSource.nextBounded (Race.ofPath s.path.reverse).length mode.reseeded =
    drawn at hpicked
  obtain ⟨index, source⟩ := drawn
  obtain ⟨source', hsource, hreplaces⟩ := replaces_reversal? hdraws race frame
    ({ mode with iterations := mode.iterations + 1, source } : ReversalMode γ)
  refine ⟨frame, _, source', { stats with backtracks := stats.backtracks + 1 }, hframe, hne,
    hreplaces, ?_⟩
  rw [hprepare, prepareRandom]
  dsimp only
  rw [if_neg hopen]
  rw [ReversalMode.reseeded] at hdrawn
  simp only [hdrawn, hpicked, Option.getD_some, hframes, hlast, hfirst]
  generalize reversal? race frame { mode with iterations := mode.iterations + 1, source } = reversed
    at hsource hreplaces
  obtain ⟨choice, after⟩ := reversed
  obtain rfl : after = _ := hsource
  cases choice with
  | none => rfl
  | some id =>
    rw [reversedFrames, hframe]
    rfl

/-- Where no race is picked nothing stays recorded, and reversals are counted anew. -/
theorem prepare_of_eq_none (hrandom : s.random = some mode)
    (hnone : s.picked? = none) : s.prepare.1 = true ∧ s.prepare.2.IsFresh ∧
      ∃ source, s.prepare.2.random = some { mode with
        iterations := mode.iterations + 1, source, reversals := 0 } := by
  obtain ⟨source, stats, hprepare⟩ := exists_prepare_of_eq_none hdraws hrandom hnone
  rw [hprepare]
  exact ⟨rfl, ⟨rfl, rfl, rfl, rfl⟩, source, rfl⟩

/-- Where a race is picked one more reversal is counted. -/
theorem prepare_of_eq_some (hrandom : s.random = some mode)
    (hpicked : s.picked? = some race) : s.prepare.1 = true ∧
      s.prepare.2.maxSteps = s.maxSteps ∧ ∃ source, s.prepare.2.random = some { mode with
        iterations := mode.iterations + 1, source, reversals := mode.reversals + 1 } := by
  obtain ⟨frame, choice, source, stats, -, -, -, hprepare⟩ :=
    exists_prepare_of_eq_some hdraws hrandom hpicked
  rw [hprepare]
  exact ⟨rfl, rfl, source, rfl⟩

end Draws

end Dpor

namespace Behaviour

variable {b : Behaviour ε} {past upcoming : List Decision} {s : Dpor γ} {race : Race}

/-- A search that has nothing recorded stands at the beginning. -/
theorem stands_of_isFresh (h : s.IsFresh) : b.Stands [] [] s := by
  have hcursor : s.cursor = {} := by
    rw [Dpor.cursor, h.path]
    exact h.initial
  have hturns : s.turns = [] := by
    rw [Dpor.turns, Dpor.frames, h.path, h.ahead]
    rfl
  refine ⟨?_, ?_, ?_, ?_, h.steps⟩
  · rw [hturns, h.initial]
    exact .nothing []
  · rw [hcursor, h.ahead]
    exact .nothing []
  · rw [h.ahead]
    exact fun frame hframe => absurd hframe List.not_mem_nil
  · rw [h.path]
    rfl

/-- A search that is restarted with a record stands at its beginning. -/
theorem stands_restart {frames : List Frame}
    (h : b.Records [] s.initial.toList (frames.map Frame.record) upcoming) :
    b.Stands [] upcoming (s.restart frames) := by
  have hrecord : (s.restart frames).ahead.map Frame.record = frames.map Frame.record := by
    rw [Dpor.restart, List.map_map]
    refine List.map_congr_left fun frame _ => ?_
    simp [Frame.record]
  refine ⟨?_, ?_, ?_, rfl, rfl⟩
  · have hturns : (s.restart frames).turns = (s.restart frames).ahead.map Frame.record := rfl
    rw [hturns, hrecord]
    exact (Odometer.toList_rewind s.initial).symm ▸ h
  · rw [hrecord]
    exact h
  · intro frame hframe
    obtain ⟨old, -, rfl⟩ := List.mem_map.mp hframe
    rfl

/-- How a race of a path is reversed: the decisions before its turn, the operations that were known
then, the one whose turn it was and the one whose turn it is next. -/
structure Reversal where
  before : List Decision
  ops : List Operation
  taken : OperationId
  next : OperationId

/-- A race of a path that came to some decisions is reversed: at its turn the operation of the race
takes the place of the one whose turn it was, or another operation does. -/
structure Reversal.Reverses (r : Reversal) (b : Behaviour ε) (race : Race) (past : List Decision) :
    Prop where
  path : r.before ++ [.operation r.taken] <+: past
  turns : (r.before.filterMap Decision.operation?).length = race.frame
  asked : ∃ current, b.next r.before = .asked current (.operation r.ops)
  isEnabled : r.next ∈ Operation.enabledIds r.ops
  eq_op : race.op ∈ Operation.enabledIds r.ops → r.next = race.op
  ne_taken : (∃ other ∈ Operation.enabledIds r.ops, other ≠ r.taken) → r.next ≠ r.taken

/-- Of decisions that are split in two ways, a turn is in the first part if fewer turns come before
it. -/
theorem prefix_of_append_eq {first second before rest : List Decision} {id : OperationId}
    (h : first ++ second = before ++ .operation id :: rest)
    (hturns : (before.filterMap Decision.operation?).length <
      (first.filterMap Decision.operation?).length) :
    before ++ [.operation id] <+: first := by
  rcases List.append_eq_append_iff.mp h with ⟨between, rfl, hsecond⟩ | ⟨between, rfl, hrest⟩
  · rw [List.filterMap_append, List.length_append] at hturns
    omega
  · cases between with
    | nil =>
      rw [List.append_nil] at hturns
      omega
    | cons decision between =>
      obtain ⟨rfl, -⟩ := List.cons.inj hrest
      exact ⟨between, by rw [List.append_assoc, List.singleton_append]⟩

variable [RandomSource γ]

/-- The states in which a random search begins a walk through a program: it has nothing recorded, as a
new search and one that was reset, or it has moved on after a walk, wherever that walk ended. -/
inductive Begins (b : Behaviour ε) : Dpor γ → Prop where
  | fresh {s : Dpor γ} (h : s.IsFresh) (hrandom : s.isRandom = true) : Begins b s
  | next {s after : Dpor γ} {past : List Decision} (h : Begins b s) (hcomes : b.Comes [] s past after) :
      Begins b after.prepare.2

/-- A number of walks one after another, after each of which a race is reversed. -/
inductive ReversesTimes (b : Behaviour ε) : Nat → Dpor γ → Dpor γ → Prop where
  | zero (s : Dpor γ) : ReversesTimes b 0 s s
  | more {count : Nat} {s after later : Dpor γ} {past : List Decision} {race : Race}
      (hcomes : b.Comes [] s past after) (hpicked : after.picked? = some race)
      (hrest : ReversesTimes b count after.prepare.2 later) : ReversesTimes b (count + 1) s later

/-- How a random search goes through a program from a state in which a walk begins, if it reverses at
most a number of races in a row. Whatever the program asks is what is recorded next, if anything is.
Wherever the walk ends there is another one. Where a race of the path is picked, the next walk comes,
without drawing anything, to the decisions that came before its turn and then passes the turn on to
the operation of the race, or to another one. Otherwise the next walk begins with nothing recorded. -/
structure ReversesRaces (b : Behaviour ε) (limit : Nat) (s : Dpor γ) : Prop where
  replays : ∀ {past : List Decision} {after : Dpor γ} {current : Operation} {query : Query},
    b.Comes [] s past after → b.next past = .asked current query → after.Replays query
  goesOn : ∀ {past : List Decision} {after : Dpor γ}, b.Comes [] s past after →
    after.prepare.1 = true
  reverses : ∀ {past : List Decision} {after : Dpor γ} {race : Race}, b.Comes [] s past after →
    after.picked? = some race → race ∈ Race.ofPath after.path.reverse ∧
      ∃ r : Reversal, r.Reverses b race past ∧
        ∃ last, b.Comes [] after.prepare.2 (r.before ++ [.operation r.next]) last ∧
          last.random = after.prepare.2.random
  startsAfresh : ∀ {past : List Decision} {after : Dpor γ}, b.Comes [] s past after →
    after.picked? = none → after.prepare.2.IsFresh
  noRace : ∀ {past : List Decision} {after : Dpor γ}, b.Comes [] s past after →
    Race.ofPath after.path.reverse = [] → after.picked? = none
  inARow : ∀ {count : Nat} {later : Dpor γ}, b.ReversesTimes count s later → count ≤ limit

section Draws

variable (hdraws : ∀ (bound : Nat) (source : γ), 0 < bound →
  (RandomSource.nextBounded bound source).1 < bound)

include hdraws

/-- Where a race is picked, the next walk begins with a record of the decisions before its turn, and
of the turn that takes the place of it. -/
theorem Stands.exists_reverses (h : b.Stands past upcoming s)
    {mode : ReversalMode γ} (hrandom : s.random = some mode) (hpicked : s.picked? = some race) :
    ∃ (r : Reversal) (values : List Decision), r.Reverses b race past ∧
      b.Stands [] (r.before ++ .operation r.next :: values) s.prepare.2 := by
  obtain ⟨frame, choice, source, stats, hframe, hne, hreplaces, hprepare⟩ :=
    Dpor.exists_prepare_of_eq_some hdraws hrandom hpicked
  have hindex : race.frame < s.path.length := by
    have hlt := (List.getElem?_eq_some_iff.mp hframe).1
    rwa [List.length_reverse] at hlt
  have hturn : s.turns[race.frame]? = some frame.record := by
    rw [Dpor.turns, Dpor.frames, List.map_append, List.getElem?_append_left (by simpa using hindex),
      List.getElem?_map, hframe]
    rfl
  obtain ⟨before, ops, id, rest, hsplit, hcut⟩ :=
    h.all.exists_cutsAt (List.getElem?_eq_some_iff.mp hturn).1
  obtain ⟨henabled, hselected, hid⟩ := hcut.shows _ hturn
  have hpath : before ++ [.operation id] <+: past := by
    refine prefix_of_append_eq hsplit ?_
    rw [hcut.turns_before, h.turns]
    exact hindex
  have hop : id ≠ race.op := fun hsame => hne (hsame ▸ hselected)
  -- With another operation in its place the turn is recorded with no values after it.
  have hreplaced {next : OperationId} (hnext : next ∈ Operation.enabledIds ops) :
      b.Stands [] (before ++ .operation next :: [])
        (({ s with
          ahead := []
          random := some { mode with
            iterations := mode.iterations + 1, source, reversals := mode.reversals + 1 }
          stats } : Dpor γ).restart (Dpor.reversedFrames race s.path.reverse (some next))) := by
    refine stands_restart ?_
    have hrecord := hcut.other (frame.select next).record next ⟨henabled, rfl, hnext⟩ rfl
    rw [Dpor.take_turns (Nat.le_of_lt hindex)] at hrecord
    rw [Dpor.reversedFrames, hframe, List.map_append]
    exact hrecord
  rw [hprepare]
  cases hreplaces with
  | racing hracing =>
    have hnext := (henabled race.op).mp hracing
    exact ⟨⟨before, ops, id, race.op⟩, [], ⟨hpath, hcut.turns_before, hcut.asked, hnext, fun _ => rfl,
      fun _ => hop.symm⟩, hreplaced hnext⟩
  | @other next hnot hother hdifferent =>
    have hnext := (henabled next).mp hother
    refine ⟨⟨before, ops, id, next⟩, [], ⟨hpath, hcut.turns_before, hcut.asked, hnext, fun hracing => ?_,
      fun _ hsame => ?_⟩, hreplaced hnext⟩
    · cases hnot.symm.trans ((henabled race.op).mpr hracing)
    · exact hdifferent (hselected.trans (congrArg some hsame.symm))
  | nothing hnot hall =>
    obtain ⟨values, hbehind⟩ := hcut.behind
    refine ⟨⟨before, ops, id, id⟩, values, ⟨hpath, hcut.turns_before, hcut.asked, hid, fun hracing => ?_,
      ?_⟩, ?_⟩
    · cases hnot.symm.trans ((henabled race.op).mpr hracing)
    · rintro ⟨other, hother, hdifferent⟩
      have hsame := (hall other ((henabled other).mpr hother)).symm.trans hselected
      exact absurd (Option.some.inj hsame) hdifferent
    · refine stands_restart ?_
      rw [Dpor.take_turns hindex] at hbehind
      exact hbehind

/-- A walk begins with a record of what the program does, in random mode. -/
theorem Begins.exists_stands (h : b.Begins s) :
    ∃ upcoming mode, b.Stands [] upcoming s ∧ s.random = some mode := by
  induction h with
  | fresh hfresh hrandom =>
    obtain ⟨mode, hmode⟩ := Option.isSome_iff_exists.mp hrandom
    exact ⟨[], mode, stands_of_isFresh hfresh, hmode⟩
  | @next s after past _ hcomes ih =>
    obtain ⟨upcoming, mode, hstands, hmode⟩ := ih
    obtain ⟨left, source, hafter, hrandom, -⟩ := hstands.of_comes hdraws hmode hcomes
    cases hpicked : after.picked? with
    | none =>
      obtain ⟨-, hfresh, source', hnext⟩ := Dpor.prepare_of_eq_none hdraws hrandom hpicked
      exact ⟨[], _, stands_of_isFresh hfresh, hnext⟩
    | some race =>
      obtain ⟨r, values, -, hnext⟩ := hafter.exists_reverses hdraws hrandom hpicked
      obtain ⟨-, -, source', hmode'⟩ := Dpor.prepare_of_eq_some hdraws hrandom hpicked
      exact ⟨_, _, hnext, hmode'⟩

/-- Races are reversed in a row at most as often as reversals are left. -/
theorem ReversesTimes.le {count : Nat} {later : Dpor γ} (h : b.ReversesTimes count s later)
    (hbegins : b.Begins s) {mode : ReversalMode γ} (hmode : s.random = some mode) :
    count ≤ mode.limit - mode.reversals := by
  induction h generalizing mode with
  | zero => exact Nat.zero_le _
  | more hcomes hpicked _ ih =>
    obtain ⟨upcoming, mode', hstands, hmode'⟩ := hbegins.exists_stands hdraws
    obtain rfl := Option.some.inj (hmode.symm.trans hmode')
    obtain ⟨left, source, -, hrandom, -⟩ := hstands.of_comes hdraws hmode hcomes
    obtain ⟨-, hless⟩ := Dpor.of_picked? hrandom hpicked
    obtain ⟨-, -, source', hnext⟩ := Dpor.prepare_of_eq_some hdraws hrandom hpicked
    have hle := ih (hbegins.next hcomes) hnext
    dsimp only at hle hless
    omega

/-- After a race is picked the next walk comes to its reversal, and draws nothing before. -/
theorem Begins.exists_reversal (h : b.Begins s) {past : List Decision} {after : Dpor γ}
    (hcomes : b.Comes [] s past after) (hpicked : after.picked? = some race) :
    ∃ r : Reversal, r.Reverses b race past ∧
      ∃ last, b.Comes [] after.prepare.2 (r.before ++ [.operation r.next]) last ∧
        last.random = after.prepare.2.random := by
  obtain ⟨upcoming, mode, hstands, hmode⟩ := h.exists_stands hdraws
  obtain ⟨left, source, hafter, hrandom, hmaxSteps⟩ := hstands.of_comes hdraws hmode hcomes
  obtain ⟨r, values, hreverses, hnext⟩ := hafter.exists_reverses hdraws hrandom hpicked
  obtain ⟨-, hsame, -⟩ := Dpor.prepare_of_eq_some hdraws hrandom hpicked
  -- The turn of the race was within the step bound, so the one in its place is.
  have hbound : after.prepare.2.maxSteps = 0 ∨
      (r.before ++ [Decision.operation r.next]).length ≤ after.prepare.2.maxSteps := by
    rw [hsame, hmaxSteps]
    refine (hcomes.length_le hstands.steps (.inr (Nat.zero_le _))).imp_right fun hle => ?_
    have htaken := hreverses.path.length_le
    rw [List.length_append, List.length_singleton] at htaken ⊢
    omega
  rw [List.append_cons] at hnext
  obtain ⟨last, hreached, -, hdrawn⟩ := hnext.comes hbound
  exact ⟨r, hreverses, last, hreached, hdrawn⟩

end Draws

/-- Random partial-order search of a program that is deterministic given the decisions reverses races:
it replays a path up to the turn of the race that it picks and passes this turn on otherwise. It
begins afresh after at most as many reversals in a row as it is limited to, and never ends. -/
theorem reversesRaces_of_begins (hdraws : ∀ (bound : Nat) (source : γ), 0 < bound →
      (RandomSource.nextBounded bound source).1 < bound)
    (h : b.Begins s) : ∃ mode, s.random = some mode ∧ b.ReversesRaces mode.limit s := by
  obtain ⟨upcoming, mode, hstands, hmode⟩ := h.exists_stands hdraws
  have hafter {past : List Decision} {after : Dpor γ} (hcomes : b.Comes [] s past after) :
      ∃ left mode', b.Stands past left after ∧ after.random = some mode' := by
    obtain ⟨left, source, hleft, hrandom, -⟩ := hstands.of_comes hdraws hmode hcomes
    exact ⟨left, _, hleft, hrandom⟩
  refine ⟨mode, hmode, ?_, ?_, ?_, ?_, ?_, ?_⟩
  · intro past after current query hcomes hnext
    obtain ⟨left, mode', hleft, hrandom⟩ := hafter hcomes
    exact hleft.replays hdraws hnext hrandom
  · intro past after hcomes
    obtain ⟨left, mode', -, hrandom⟩ := hafter hcomes
    cases hpicked : after.picked? with
    | none => exact (Dpor.prepare_of_eq_none hdraws hrandom hpicked).1
    | some race => exact (Dpor.prepare_of_eq_some hdraws hrandom hpicked).1
  · intro past after race hcomes hpicked
    obtain ⟨left, mode', -, hrandom⟩ := hafter hcomes
    exact ⟨(Dpor.of_picked? hrandom hpicked).1, h.exists_reversal hdraws hcomes hpicked⟩
  · intro past after hcomes hnone
    obtain ⟨left, mode', -, hrandom⟩ := hafter hcomes
    exact (Dpor.prepare_of_eq_none hdraws hrandom hnone).2.1
  · intro past after hcomes hraces
    obtain ⟨left, mode', -, hrandom⟩ := hafter hcomes
    rw [Dpor.picked?_eq_none_iff hdraws hrandom, hraces]
    rfl
  · intro count later htimes
    exact (htimes.le hdraws h hmode).trans (Nat.sub_le _ _)

/-- An operation that is about to acquire a resource. -/
def acquirer (id : OperationId) : Operation :=
  { (Operation.new id "a").create with kind := .acquire, target := .resource, targetId := 0 }

/-- Two operations are about to acquire one resource, and the program ends after two turns. -/
def acquires : Behaviour Unit where
  next past :=
    if past.length < 2 then .asked (acquirer ⟨0⟩) (.operation [acquirer ⟨0⟩, acquirer ⟨1⟩])
    else .ended ()
  isAskedBy {past current query} h := by
    split at h
    · obtain ⟨rfl, rfl⟩ := Event.asked.inj h
      exact ⟨List.mem_cons_self, by decide⟩
    · cases h
  alternatives_ne_nil {past current query} h := by
    split at h
    · obtain ⟨rfl, rfl⟩ := Event.asked.inj h
      decide
    · cases h

/-- The search after a turn. -/
def passTurn (s : Dpor Tape) : Dpor Tape :=
  (s.answer (acquirer ⟨0⟩) (.operation [acquirer ⟨0⟩, acquirer ⟨1⟩])).2

/-- A search that gives the turn to the first operation and then to the second. -/
def firstThenSecond : Dpor Tape :=
  .ofSource { words := #[0, 1] } 0 1

/-- The steps of the two operations race, and in the next walk the second one comes first. -/
theorem reversesRaces_acquires :
    (∀ (bound : Nat) (source : Tape), 0 < bound → (RandomSource.nextBounded bound source).1 < bound) ∧
      acquires.Begins firstThenSecond ∧
      acquires.Comes [] firstThenSecond [.operation ⟨0⟩, .operation ⟨1⟩]
        (passTurn (passTurn firstThenSecond)) ∧
      (passTurn (passTurn firstThenSecond)).picked? = some ⟨0, ⟨1⟩⟩ ∧
      ∃ last, acquires.Comes [] (passTurn (passTurn firstThenSecond)).prepare.2 [.operation ⟨1⟩]
        last := by
  have hdraws (bound : Nat) (source : Tape) (hbound : 0 < bound) :
      (RandomSource.nextBounded bound source).1 < bound :=
    LawfulRandomSource.nextBounded_lt bound source hbound
  have hbegins : acquires.Begins firstThenSecond := .fresh (Dpor.isFresh_ofSource _ _ _) rfl
  have hfirst : (firstThenSecond.answer (acquirer ⟨0⟩)
      (.operation [acquirer ⟨0⟩, acquirer ⟨1⟩])).1 = some ⟨0⟩ := by decide +kernel
  have hsecond : ((passTurn firstThenSecond).answer (acquirer ⟨0⟩)
      (.operation [acquirer ⟨0⟩, acquirer ⟨1⟩])).1 = some ⟨1⟩ := by decide +kernel
  have hcomes : acquires.Comes [] firstThenSecond [.operation ⟨0⟩, .operation ⟨1⟩]
      (passTurn (passTurn firstThenSecond)) := by
    have hfree : Explorer.atBound (passTurn firstThenSecond) = false := by decide +kernel
    exact .answered rfl rfl (Prod.ext hfirst rfl)
      (.answered rfl hfree (Prod.ext hsecond rfl) (.here _ _))
  have hpicked : (passTurn (passTurn firstThenSecond)).picked? = some ⟨0, ⟨1⟩⟩ := by
    decide +kernel
  obtain ⟨mode, -, hreverses⟩ := reversesRaces_of_begins hdraws hbegins
  obtain ⟨-, r, hreversed, last, hlast, -⟩ := hreverses.reverses hcomes hpicked
  obtain ⟨before, ops, taken, next⟩ := r
  obtain rfl : before = [] := by
    have hpath : before ++ [.operation taken] <+: [.operation ⟨0⟩, .operation ⟨1⟩] := hreversed.path
    have hturns : (before.filterMap Decision.operation?).length = 0 := hreversed.turns
    cases before with
    | nil => rfl
    | cons decision rest =>
      obtain ⟨rfl, -⟩ := List.cons_prefix_cons.mp hpath
      cases hturns
  obtain ⟨current, hasked⟩ := hreversed.asked
  obtain ⟨rfl, hops⟩ := Event.asked.inj hasked
  obtain rfl := Query.operation.inj hops
  have henabled : (⟨1⟩ : OperationId) ∈ Operation.enabledIds [acquirer ⟨0⟩, acquirer ⟨1⟩] := by decide
  obtain rfl : next = ⟨1⟩ := hreversed.eq_op henabled
  exact ⟨hdraws, hbegins, hcomes, hpicked, last, hlast⟩

end Behaviour

end ScheduleExplorer
