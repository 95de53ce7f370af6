import ScheduleExplorer.Proofs.Dpor.Positions
import ScheduleExplorer.Proofs.Exploration.SleepSets
import ScheduleExplorer.Proofs.Strategy.Delays

/-!
# The stack of an exhaustive search

An exhaustive search is asked, moved on and reset in some order, with whatever tables of operations. Its
frames form a stack at any time: in each of them an enabled operation is selected that has not been tried
there, the operations to be tried are enabled, those that have been tried were to be, and what sleeps is
what the frame before it hands on. Frames are pushed, dropped and selected anew at the top of the stack;
below the top, only what races have called for, the send received from and the values drawn change, and
none of them counts for what is handed on.
-/

namespace ScheduleExplorer

namespace Frame

/-- The sets of a frame agree with each other and with what is selected. -/
structure IsConsistent (frame : Frame) : Prop where
  selected : ∃ id, frame.selected = some id ∧ frame.enabled.contains id = true ∧
    frame.backtrack.contains id = true ∧ frame.done.contains id = false
  backtrack : ∀ id, frame.backtrack.contains id = true → frame.enabled.contains id = true
  done : ∀ id, frame.done.contains id = true → frame.backtrack.contains id = true

/-- A frame that stands, in which more enabled operations may be tried. -/
structure Widens (frame later : Frame) : Prop where
  stands : frame.Stands later
  kept : ∀ id, frame.backtrack.contains id = true → later.backtrack.contains id = true
  within : ∀ id, later.backtrack.contains id = true →
    frame.backtrack.contains id = true ∨ frame.enabled.contains id = true

/-- What a frame hands on does not change as long as it stands. -/
theorem Stands.inheritedSleep_eq {frame later : Frame} (h : frame.Stands later) :
    later.inheritedSleep = frame.inheritedSleep := by
  obtain ⟨_, _, _, rfl⟩ := h
  rfl

/-- A frame as it is counts as widened. -/
theorem Widens.refl (frame : Frame) : frame.Widens frame :=
  ⟨.refl frame, fun _ => id, fun _ => .inl⟩

/-- The send received from and the values drawn may change. -/
theorem widens_of_values (frame : Frame) (matchingSend : Option Nat) (choices : Odometer) :
    frame.Widens { frame with matchingSend, choices } :=
  ⟨⟨_, _, _, rfl⟩, fun _ => id, fun _ => .inl⟩

/-- A frame that is widened twice is widened. -/
theorem Widens.trans {frame between later : Frame} (h : frame.Widens between)
    (h' : between.Widens later) : frame.Widens later := by
  have henabled : between.enabled = frame.enabled := by
    obtain ⟨_, _, _, rfl⟩ := h.stands
    rfl
  refine ⟨h.stands.trans h'.stands, fun id hid => h'.kept id (h.kept id hid), fun id hid => ?_⟩
  rcases h'.within id hid with hbetween | hid
  · exact h.within id hbetween
  · exact .inr (henabled ▸ hid)

/-- A race widens its frame. -/
theorem widens_addBacktrack (op : OperationId) (frame : Frame) :
    frame.Widens (Dpor.addBacktrack op frame) := by
  refine ⟨(frame.grows_addBacktrack op).stands, fun id hid => ?_, fun id hid => ?_⟩
  · rw [Dpor.addBacktrack]
    split
    · simp [hid]
    · simp [hid]
  · obtain ⟨backtrack, heq, hwithin⟩ := frame.grows_addBacktrack op
    rw [heq] at hid
    exact hwithin id hid

/-- A frame that is widened stays consistent. -/
theorem IsConsistent.widens {frame later : Frame} (h : frame.IsConsistent) (hlater : frame.Widens later) :
    later.IsConsistent := by
  obtain ⟨backtrack, matchingSend, choices, rfl⟩ := hlater.stands
  obtain ⟨id, hselected, henabled, hbacktrack, hdone⟩ := h.selected
  refine ⟨⟨id, hselected, henabled, hlater.kept id hbacktrack, hdone⟩, fun other hother => ?_,
    fun other hother => hlater.kept other (h.done other hother)⟩
  exact (hlater.within other hother).elim (h.backtrack other) fun henabled => henabled

/-- The next operation that is to be tried in a frame is selected consistently. -/
theorem IsConsistent.select {frame : Frame} (h : frame.IsConsistent) {next : OperationId}
    (hnext : frame.close.unexplored.first? = some next) : (frame.close.select next).IsConsistent := by
  obtain ⟨id, hselected, -, hbacktrack, -⟩ := h.selected
  have hdone : frame.close.done = frame.done.insert id := by
    rw [close]
    simp only [hselected]
  have hmem := OpSet.contains_of_first? hnext
  rw [unexplored, OpSet.contains_difference, OpSet.contains_difference, Bool.and_eq_true,
    Bool.and_eq_true, Bool.not_eq_true'] at hmem
  have hnextBacktrack : frame.backtrack.contains next = true := hmem.1.1
  refine ⟨⟨next, rfl, h.backtrack next hnextBacktrack, hnextBacktrack, hmem.1.2⟩, h.backtrack,
    fun other hother => ?_⟩
  rw [Frame.select, hdone, OpSet.contains_insert, Bool.or_eq_true, decide_eq_true_eq] at hother
  rcases hother with hold | rfl
  · exact h.done other hold
  · exact hbacktrack

end Frame

/-! ### Stacks -/

/-- What sleeps after some frames, which are held last first. -/
def sleepAfter (earlier : List Frame) : OpSet :=
  (earlier.head?.map Frame.inheritedSleep).getD {}

/-- The frames of a stack, held last first: each is consistent, and what sleeps in it is what the frame
before it hands on. -/
inductive IsStack : List Frame → Prop
  | nil : IsStack []
  | cons {frame : Frame} {earlier : List Frame} (hframe : frame.IsConsistent)
      (hsleep : frame.sleep = sleepAfter earlier) (hearlier : IsStack earlier) :
      IsStack (frame :: earlier)

namespace IsStack

variable {frames earlier : List Frame}

/-- A stack stays one when its last frames are dropped. -/
theorem of_append {later : List Frame} (h : IsStack (later ++ earlier)) : IsStack earlier := by
  induction later with
  | nil => exact h
  | cons frame rest ih =>
    cases h with
    | cons _ _ hrest => exact ih hrest

/-- A stack stays one when frames are widened. -/
theorem widens {later : List Frame} (h : IsStack frames) (hlater : frames.Forall₂ Frame.Widens later) :
    IsStack later := by
  induction h generalizing later with
  | nil =>
    cases hlater with
    | nil => exact .nil
  | @cons frame earlier hframe hsleep hearlier ih =>
    cases hlater with
    | @cons _ top _ rest htop hrest =>
      have hstands : top.sleep = frame.sleep := by
        obtain ⟨_, _, _, rfl⟩ := htop.stands
        rfl
      refine .cons (hframe.widens htop) ?_ (ih hrest)
      rw [hstands, hsleep]
      cases hrest with
      | nil => rfl
      | cons hbelow _ => exact hbelow.stands.inheritedSleep_eq.symm

/-- The frame with which a turn is entered goes on top of a stack. -/
theorem enter {t : Trail} (h : IsStack t.frames) {current id : OperationId} {ops : List Operation}
    {frame : Frame} (henter : t.enter? current ops = some (id, frame)) :
    IsStack (frame :: t.frames) := by
  have hopen := Trail.isOpen_enter henter
  obtain ⟨henabled, hbacktrack, hdone, hsleep⟩ :
      frame.enabled = (t.capture ops).enabled ∧
        frame.backtrack = (t.capture ops).backtrack.insert id ∧
        frame.done = (t.capture ops).done ∧ frame.sleep = sleepAfter t.frames := by
    rw [Trail.enter?, Option.map_eq_some_iff] at henter
    obtain ⟨found, -, heq⟩ := henter
    obtain ⟨rfl, rfl⟩ := Prod.mk.inj heq
    exact ⟨rfl, rfl, rfl, rfl⟩
  have hmem (other : OperationId) (hother : other ∈ Operation.enabledIds ops) :
      frame.enabled.contains other = true := by
    rw [henabled]
    exact (t.contains_enabled_capture ops other).mpr hother
  refine .cons ⟨⟨id, hopen.selected, hmem id hopen.mem, ?_, hopen.untried⟩,
    fun other hother => hmem other (hopen.backtrack other hother), fun other hother => ?_⟩ hsleep h
  · rw [hbacktrack, OpSet.contains_insert]
    simp
  · rw [hdone, Trail.capture, (Frame.capture_untouched ops).2] at hother
    simp [OpSet.contains] at hother

/-- Moving on keeps a stack: frames are dropped, and the top one selects anew. -/
theorem rewindFrames (h : IsStack frames) : IsStack (Dpor.rewindFrames frames).2 := by
  induction h with
  | nil => exact .nil
  | @cons frame earlier hframe hsleep hearlier ih =>
    rw [Dpor.rewindFrames]
    dsimp only
    split
    · exact .cons (hframe.widens (frame.widens_of_values frame.matchingSend _)) hsleep hearlier
    · split
      · next id hnext => exact .cons (hframe.select hnext) hsleep hearlier
      · exact ih

/-- A frame of a stack and what sleeps in it, by its position. -/
theorem getElem? (h : IsStack frames) {depth : Nat} {frame : Frame}
    (hframe : frames.reverse[depth]? = some frame) :
    frame.IsConsistent ∧ frame.sleep = sleepAfter (frames.reverse.take depth).reverse := by
  induction h with
  | nil => cases hframe
  | @cons top earlier htop hsleep hearlier ih =>
    rw [List.reverse_cons] at hframe ⊢
    rcases Nat.lt_trichotomy depth earlier.reverse.length with hlt | rfl | hgt
    · rw [List.getElem?_append_left hlt] at hframe
      rw [List.take_append_of_le_length (Nat.le_of_lt hlt)]
      exact ih hframe
    · rw [List.getElem?_concat_length] at hframe
      obtain rfl := Option.some.inj hframe
      rw [List.take_left, List.reverse_reverse]
      exact ⟨htop, hsleep⟩
    · rw [List.getElem?_eq_none (by rw [List.length_append]; exact hgt)] at hframe
      cases hframe

end IsStack

/-! ### Calls of a search -/

namespace Dpor

open DelayBounding (Call)

variable {γ : Type} [RandomSource γ]

/-- The search after a call. -/
def perform (s : Dpor γ) : Call → Dpor γ
  | .answer current query => (s.answer current query).2
  | .prepare => s.prepare.2
  | .reset => s.reset

/-- The search after a history, in which the last call stands first. -/
def after (s : Dpor γ) : List Call → Dpor γ
  | [] => s
  | call :: past => (s.after past).perform call

/-- Whether a search gives out a turn. -/
def givesTurn (s : Dpor γ) (current : Operation) : Query → Bool
  | .operation ops => (s.answer current (.operation ops)).1.isSome
  | .boolean _ | .integer _ => false

/-- The number of turns that a search has given out since the iteration began. -/
def turnsGiven (s : Dpor γ) : List Call → Nat
  | [] | .prepare :: _ | .reset :: _ => 0
  | .answer current query :: past =>
    s.turnsGiven past + ((s.after past).givesTurn current query).toNat

/-- An exhaustive search with a stack, of which it has passed some frames. -/
structure HasStack (s : Dpor γ) (passed : Nat) : Prop where
  mode : s.random = none
  stack : IsStack (s.ahead.reverse ++ s.path)
  passed : s.path.length = passed

variable {s : Dpor γ} {passed : Nat}

omit [RandomSource γ] in
/-- Widening the frames before the cursor leaves a stack. -/
theorem HasStack.widens (h : s.HasStack passed) {path : List Frame}
    (hpath : s.path.Forall₂ Frame.Widens path) (initial : Odometer) (steps : Nat) :
    HasStack { s with path, initial, steps } passed :=
  ⟨h.mode, h.stack.widens (List.rel_append (List.forall₂_same.mpr fun frame _ => .refl frame) hpath),
    hpath.length_eq.symm.trans h.passed⟩

omit [RandomSource γ] in
/-- Changing the send and the values of the last frame passed leaves a stack. -/
theorem HasStack.mapLast (h : s.HasStack passed) {frame : Frame} {earlier : List Frame}
    (hpath : s.path = frame :: earlier) (matchingSend : Option Nat) (choices : Odometer) (steps : Nat) :
    HasStack { s with path := { frame with matchingSend, choices } :: earlier, steps } passed := by
  refine h.widens ?_ s.initial steps
  rw [hpath]
  exact .cons (frame.widens_of_values matchingSend choices)
    (List.forall₂_same.mpr fun other _ => .refl other)

omit [RandomSource γ] in
/-- Recording which send has been received from leaves a stack. -/
theorem HasStack.recordMatchingSend (h : s.HasStack passed) (ops : List Operation) :
    (s.recordMatchingSend ops).HasStack passed := by
  rw [Dpor.recordMatchingSend]
  split
  · exact h
  · next frame earlier hpath =>
    dsimp only
    split
    · exact h.mapLast hpath _ frame.choices s.steps
    · exact h

/-- Choosing a value leaves a stack, and the search is still exhaustive. -/
theorem HasStack.chooseValue (h : s.HasStack passed) (options : Nat) :
    (s.step.chooseValue options).2.HasStack passed := by
  have hmode (odometer : Odometer) : (odometer.draw options freshValue s.random).2.2 = s.random := by
    rw [Odometer.draw, h.mode]
    dsimp only
    split <;> rfl
  rw [Dpor.chooseValue]
  split
  · next frame earlier hpath =>
    have hlast := h.mapLast hpath frame.matchingSend
      (frame.choices.draw options freshValue s.random).2.1 (s.steps + 1)
    exact ⟨(hmode _).trans h.mode, hlast.stack, hlast.passed⟩
  · next hpath => exact ⟨(hmode _).trans h.mode, h.stack, h.passed⟩

/-- An answer leaves a stack, and a turn passes one more frame of it. -/
theorem HasStack.answer (h : s.HasStack passed) (current : Operation) (query : Query) :
    (s.answer current query).2.HasStack (passed + (s.givesTurn current query).toNat) := by
  cases query with
  | boolean max => exact h.chooseValue 2
  | integer max => exact h.chooseValue (Max.max max 1)
  | operation ops =>
    rw [givesTurn, Dpor.answer]
    dsimp only
    by_cases hempty : Operation.enabledIds ops = []
    · have hnone : Operation.anyEnabled ops = false := by
        simpa [Operation.anyEnabled, Operation.enabledIds] using hempty
      rw [hnone]
      exact h
    · have hsome : Operation.anyEnabled ops = true := by
        simpa [Operation.anyEnabled, Operation.enabledIds] using hempty
      rw [hsome]
      simp only [Bool.not_true, Bool.false_eq_true, if_false]
      have hsent := h.recordMatchingSend ops
      generalize s.recordMatchingSend ops = sent at hsent
      cases hreplayed : sent.replayed? ops with
      | some replayed =>
        obtain ⟨id, frame, rest⟩ := replayed
        obtain ⟨-, hahead⟩ := replayed?_eq_some hreplayed
        have hstack := hsent.stack
        rw [hahead, List.reverse_cons, List.append_assoc, List.singleton_append] at hstack
        exact ⟨hsent.mode, hstack, congrArg (· + 1) hsent.passed⟩
      | none =>
        obtain ⟨id, frame, henter⟩ :=
          Trail.exists_enter? hempty current.id ⟨sent.path, sent.initial⟩
        obtain ⟨counted, hpush⟩ := pushFrame_of_enter? (s := { sent with ahead := [] }) hsent.mode
          henter
        rw [hpush]
        exact ⟨hsent.mode, hsent.stack.of_append.enter henter, congrArg (· + 1) hsent.passed⟩

omit [RandomSource γ] in
/-- A restarted search has the stack it is given, of which nothing has been passed. -/
theorem hasStack_restart {frames : List Frame} (hmode : s.random = none)
    (hstack : IsStack frames.reverse) : (s.restart frames).HasStack 0 := by
  refine ⟨hmode, ?_, rfl⟩
  have hrewound : frames.Forall₂ Frame.Widens
      (frames.map fun frame => { frame with choices := frame.choices.rewind }) :=
    List.forall₂_map_right_iff.mpr (List.forall₂_same.mpr fun frame _ =>
      frame.widens_of_values frame.matchingSend _)
  have hwidened := hstack.widens (List.forall₂_reverse_iff.mpr hrewound)
  rwa [← List.append_nil (List.reverse _)] at hwidened

/-- The races of a path widen its frames. -/
theorem widens_addRaces (races : List Race) (frames : List Frame) :
    frames.Forall₂ Frame.Widens (addRaces races frames) :=
  forall₂_addRaces Frame.Widens.refl (fun _ _ _ => .trans) Frame.widens_addBacktrack races frames

/-- Moving on leaves a stack, of which nothing has been passed. -/
theorem HasStack.prepare (h : s.HasStack passed) : s.prepare.2.HasStack 0 := by
  have hpath : IsStack s.path := h.stack.of_append
  have hanalysed (races : List Race) : IsStack (addRaces races s.path.reverse).reverse := by
    have hraces := List.forall₂_reverse_iff.mpr (widens_addRaces races s.path.reverse)
    rw [List.reverse_reverse] at hraces
    exact hpath.widens hraces
  rw [Dpor.prepare]
  simp only [h.mode, prepareExhaustive, frames, List.append_nil]
  split
  · exact hasStack_restart rfl .nil
  · refine hasStack_restart rfl ?_
    rw [List.reverse_reverse]
    exact (hanalysed _).rewindFrames

/-- A search has a stack at any time, of which it has passed a frame for each turn. -/
theorem hasStack_after (maxSteps : Nat) (calls : List Call) :
    (({ maxSteps } : Dpor γ).after calls).HasStack (({ maxSteps } : Dpor γ).turnsGiven calls) := by
  induction calls with
  | nil => exact ⟨rfl, .nil, rfl⟩
  | cons call past ih =>
    cases call with
    | answer current query => exact ih.answer current query
    | prepare => exact ih.prepare
    | reset => exact ⟨ih.mode, .nil, rfl⟩

omit [RandomSource γ] in
/-- A frame of the search and what sleeps in it, by its position. -/
theorem HasStack.getElem? (h : s.HasStack passed) {depth : Nat} {frame : Frame}
    (hframe : s.frames[depth]? = some frame) :
    frame.IsConsistent ∧ frame.sleep = sleepAfter (s.frames.take depth).reverse := by
  have hreverse : s.frames = (s.ahead.reverse ++ s.path).reverse := by
    rw [frames, List.reverse_append, List.reverse_reverse]
  rw [hreverse] at hframe ⊢
  exact h.stack.getElem? hframe

omit [RandomSource γ] in
/-- A frame that is not the first one has what the frame before it hands on asleep. -/
theorem HasStack.sleep_succ (h : s.HasStack passed) {depth : Nat} {above frame : Frame}
    (habove : s.frames[depth]? = some above) (hframe : s.frames[depth + 1]? = some frame) :
    frame.sleep = above.inheritedSleep := by
  rw [(h.getElem? hframe).2, sleepAfter, List.take_add_one, habove, Option.toList_some,
    List.reverse_append, List.reverse_singleton, List.singleton_append, List.head?_cons,
    Option.map_some, Option.getD_some]

/-- The frames of an exhaustive search, with whatever calls it got to here: it has passed one for each
turn it gave out since the iteration began; in each of them an enabled operation that has not been tried
is selected, the operations tried are among those to be tried, and these among the enabled ones; nothing
sleeps in the first frame, and in each other one what the frame before it hands on. The analysis of any
number of first frames finds every position that it looks up. -/
theorem frames_after (maxSteps : Nat) (calls : List Call) :
    let s := ({ maxSteps } : Dpor γ).after calls
    s.path.length = ({ maxSteps } : Dpor γ).turnsGiven calls ∧ s.path.length ≤ s.frames.length ∧
      (∀ frame ∈ s.frames, frame.IsConsistent) ∧
      (∀ frame, s.frames[0]? = some frame → frame.sleep = ({} : OpSet)) ∧
      (∀ depth above frame, s.frames[depth]? = some above → s.frames[depth + 1]? = some frame →
        frame.sleep = above.inheritedSleep) ∧
      ∀ length, Race.clocksByPosition? (s.frames.take length) =
          some (Race.clocks (s.frames.take length)) ∧
        Race.ofPathByPosition? (s.frames.take length) = some (Race.ofPath (s.frames.take length)) := by
  intro s
  have h : s.HasStack _ := hasStack_after maxSteps calls
  refine ⟨h.passed, ?_, fun frame hframe => ?_, fun frame hframe => (h.getElem? hframe).2,
    fun _ _ _ => h.sleep_succ, fun length => ⟨Race.clocksByPosition?_eq _, Race.ofPathByPosition?_eq _⟩⟩
  · rw [frames, List.length_append, List.length_reverse]
    exact Nat.le_add_right _ _
  · obtain ⟨depth, hdepth⟩ := List.mem_iff_getElem?.mp hframe
    exact (h.getElem? hdepth).1

end Dpor

end ScheduleExplorer
