import ScheduleExplorer.Proofs.Random.Lawful
import ScheduleExplorer.Proofs.Strategy.Points
import ScheduleExplorer.Proofs.Strategy.Walks
import Mathlib.Data.List.InsertIdx
import Mathlib.Data.List.Nodup

/-!
# Priorities and demotions

Within an iteration a priority schedule gives the turn to the enabled operation that stands first
among the priorities. Operations that it did not know are entered behind the head, and nothing else
moves, except at a change point where there is a choice: there the operation that would have had the
turn goes to the end.

A change point that meets no choice moves forward, so the number of change points stays the same.
Every step is passed once and a demotion is at the change point of its step, so no more operations
are demoted than change points are allowed. A value that is drawn at a change point uses up the point
without a demotion.
-/

namespace ScheduleExplorer

/-- The operations that may get the turn in answer to a query. -/
def Query.enabledIds : Query → List OperationId
  | .operation ops => Operation.enabledIds ops
  | .boolean _ | .integer _ => []

namespace PrioritySchedule

variable {γ : Type}

/-! ### Entering operations -/

/-- Operations have been entered among priorities: those that were there keep their order and their
head, and no operation stands there twice. -/
structure Enters (ids before after : List OperationId) : Prop where
  sublist : before.Sublist after
  head : ∀ top ∈ before.head?, top ∈ after.head?
  mem_iff : ∀ id, id ∈ after ↔ id ∈ before ∨ id ∈ ids
  nodup : before.Nodup → after.Nodup

/-- Nothing has been entered. -/
theorem Enters.none (priorities : List OperationId) : Enters [] priorities priorities :=
  ⟨.refl _, fun _ htop => htop, by simp, id⟩

/-- An operation that is there already need not be entered. -/
theorem Enters.skip {id : OperationId} {priorities : List OperationId} (h : id ∈ priorities) :
    Enters [id] priorities priorities := by
  refine ⟨.refl _, fun _ htop => htop, fun other => ?_, fun hnodup => hnodup⟩
  rw [List.mem_singleton]
  exact ⟨.inl, fun hor => hor.elim (fun hmem => hmem) fun hsame => hsame ▸ h⟩

/-- The first operation is entered alone. -/
theorem Enters.first (id : OperationId) : Enters [id] [] [id] :=
  ⟨List.nil_sublist _, fun _ htop => (by cases htop), by simp, fun _ => List.nodup_singleton id⟩

/-- A new operation is entered behind the head. -/
theorem Enters.behind {id : OperationId} {priorities : List OperationId} (hnew : id ∉ priorities)
    {place : Nat} (hplace : place < priorities.length) :
    Enters [id] priorities (priorities.insertIdx (place + 1) id) := by
  have hperm := List.perm_insertIdx id priorities (i := place + 1) hplace
  refine ⟨List.sublist_insertIdx _ _ _, fun top htop => ?_, fun other => ?_, fun hnodup => ?_⟩
  · obtain ⟨rest, rfl⟩ := List.head?_eq_some_iff.mp htop
    rw [List.insertIdx_succ_cons]
    rfl
  · rw [List.mem_insertIdx hplace, List.mem_singleton, or_comm]
  · exact hperm.nodup_iff.mpr (List.nodup_cons.mpr ⟨hnew, hnodup⟩)

/-- Operations may be entered one after another. -/
theorem Enters.trans {ids later before between after : List OperationId}
    (h : Enters ids before between) (h' : Enters later between after) :
    Enters (ids ++ later) before after where
  sublist := h.sublist.trans h'.sublist
  head top htop := h'.head top (h.head top htop)
  mem_iff id := by rw [h'.mem_iff, h.mem_iff, List.mem_append, or_assoc]
  nodup hnodup := h'.nodup (h.nodup hnodup)

/-- The operation of some that stands first among priorities. -/
def IsFirst (ids priorities : List OperationId) (id : OperationId) : Prop :=
  id ∈ ids ∧ ∃ higher lower, priorities = higher ++ id :: lower ∧ ∀ other ∈ higher, other ∉ ids

/-- The enabled operation with the highest priority is the one that stands first. -/
theorem highest?_eq_some_iff {enabled : List OperationId} {id : OperationId}
    {s : PrioritySchedule γ} : s.highest? enabled = some id ↔ IsFirst enabled s.priorities id := by
  rw [highest?, List.find?_eq_some_iff_append, IsFirst]
  simp only [List.contains_iff_mem, Bool.not_eq_true', Bool.eq_false_iff, ne_eq]

/-! ### Turns -/

/-- The operations that a query makes known: the enabled ones, and the running one before them if
none is known yet. -/
def arrivals (current : Operation) (query : Query) (s : PrioritySchedule γ) : List OperationId :=
  if s.priorities.isEmpty && !query.enabledIds.isEmpty then current.id :: query.enabledIds
  else query.enabledIds

/-- A query with nothing enabled makes nothing known. -/
theorem arrivals_of_enabledIds {query : Query} (hnone : query.enabledIds = []) (current : Operation)
    (s : PrioritySchedule γ) : s.arrivals current query = [] := by
  rw [arrivals, hnone, List.isEmpty_nil, Bool.not_true, Bool.and_false]
  rfl

/-- The enabled operations are made known. -/
theorem mem_arrivals {query : Query} {id : OperationId} (h : id ∈ query.enabledIds)
    (current : Operation) (s : PrioritySchedule γ) : id ∈ s.arrivals current query := by
  rw [arrivals]
  split
  · exact List.mem_cons_of_mem _ h
  · exact h

/-- Whether a query is for a turn that there is a choice about, at a change point. -/
def demotes (query : Query) (s : PrioritySchedule γ) : Bool :=
  s.changePoints.contains s.walk.steps && decide (1 < query.enabledIds.length)

/-- What a query for a turn does once the new operations are entered. The priorities stay as they are,
or a change point without a choice moves forward, or at a change point the operation that stands first
goes to the end. In each case the turn goes to the operation that stands first then. -/
inductive Turns (enabled known : List OperationId) (walk : RandomWalk γ) (s : PrioritySchedule γ) :
    Option OperationId × PrioritySchedule γ → Prop where
  | kept {id : OperationId} (hpoint : s.walk.steps ∉ s.changePoints)
      (hid : IsFirst enabled known id) :
      Turns enabled known walk s (some id, { s with walk := walk.step, priorities := known })
  | postponed {id : OperationId} (hpoint : s.walk.steps ∈ s.changePoints)
      (hone : enabled.length = 1) (hid : IsFirst enabled known id) :
      Turns enabled known walk s (some id, { s with
        walk := walk.step
        priorities := known
        changePoints := s.changePoints.moveForward s.walk.steps })
  | demoted {top id : OperationId} (hpoint : s.walk.steps ∈ s.changePoints)
      (hmany : 1 < enabled.length) (htop : IsFirst enabled known top)
      (hid : IsFirst enabled (known.filter (· ≠ top) ++ [top]) id) :
      Turns enabled known walk s (some id, { s with
        walk := walk.step
        priorities := known.filter (· ≠ top) ++ [top] })

/-- Where an enabled operation has a priority, one of them has the turn. -/
theorem exists_highest? {enabled : List OperationId} {s : PrioritySchedule γ} (hsome : enabled ≠ [])
    (hknown : ∀ id ∈ enabled, id ∈ s.priorities) :
    ∃ id, s.highest? enabled = some id ∧ IsFirst enabled s.priorities id := by
  obtain ⟨id, rest, rfl⟩ := List.exists_cons_of_ne_nil hsome
  obtain ⟨top, -, htop⟩ := highest?_eq_some List.mem_cons_self (hknown id List.mem_cons_self)
  exact ⟨top, htop, highest?_eq_some_iff.mp htop⟩

/-- An operation that goes to the end stays among the others. -/
theorem mem_demoted {known : List OperationId} {top id : OperationId} (h : id ∈ known) :
    id ∈ known.filter (· ≠ top) ++ [top] := by
  by_cases hsame : id = top <;> simp [hsame, h]

/-- What happens at a change point, if the enabled operations are known. -/
theorem turns_change {enabled known : List OperationId} {walk : RandomWalk γ}
    {s : PrioritySchedule γ} (hsome : enabled ≠ []) (hknown : ∀ id ∈ enabled, id ∈ known)
    (hsteps : walk.steps = s.walk.steps) (hpoint : s.walk.steps ∈ s.changePoints) :
    Turns enabled known walk s
      ((change enabled { s with walk, priorities := known }).highest? enabled,
        { change enabled { s with walk, priorities := known } with
          walk := (change enabled { s with walk, priorities := known }).walk.step }) := by
  obtain ⟨top, hhighest, hfirst⟩ :=
    exists_highest? (s := { s with walk, priorities := known }) hsome hknown
  rw [change]
  split
  · next hone =>
    have hmoved : ({ s with
        walk, priorities := known
        changePoints := s.changePoints.moveForward walk.steps } : PrioritySchedule γ).highest? enabled =
          some top := hhighest
    rw [hmoved, hsteps]
    exact .postponed hpoint hone hfirst
  · next hmany =>
    have hpos := List.length_pos_of_ne_nil hsome
    have hdemoted : ∀ id ∈ enabled,
        id ∈ (demote top { s with walk, priorities := known }).priorities :=
      fun id hid => mem_demoted (hknown id hid)
    obtain ⟨next, hnext, hfirst'⟩ := exists_highest? hsome hdemoted
    rw [hhighest]
    dsimp only
    rw [hnext]
    exact .demoted hpoint (by omega) hfirst hfirst'

/-! ### Queries -/

/-- What no query of an iteration takes away: steps, change points, those that are passed, and
priorities. -/
structure Keeps (s after : PrioritySchedule γ) : Prop where
  steps : s.walk.steps ≤ after.walk.steps
  size : after.changePoints.size = s.changePoints.size
  passed : ∀ point ∈ s.changePoints, point < s.walk.steps → point ∈ after.changePoints
  known : s.priorities ⊆ after.priorities
  nodup : s.priorities.Nodup → after.priorities.Nodup

/-- A demotion puts no operation twice into the order. -/
theorem nodup_demoted {known : List OperationId} (top : OperationId) (h : known.Nodup) :
    (known.filter (· ≠ top) ++ [top]).Nodup := by
  refine List.nodup_append.mpr ⟨h.filter _, List.nodup_singleton top, ?_⟩
  intro id hid other hother hsame
  rw [List.mem_singleton] at hother
  simp [hsame, hother] at hid

/-- A turn keeps what is known once the new operations are entered. -/
theorem Turns.keeps {enabled known : List OperationId} {walk : RandomWalk γ}
    {s : PrioritySchedule γ} {turn : Option OperationId × PrioritySchedule γ}
    (h : Turns enabled known walk s turn) (hsteps : walk.steps = s.walk.steps)
    (hknown : s.priorities ⊆ known) (hnodup : s.priorities.Nodup → known.Nodup) :
    Keeps s turn.2 := by
  have hlater : s.walk.steps ≤ walk.step.steps := by
    rw [← hsteps]
    exact Nat.le_succ _
  cases h with
  | kept hpoint hid => exact ⟨hlater, rfl, fun _ hmem _ => hmem, hknown, hnodup⟩
  | postponed hpoint hone hid =>
    obtain ⟨hsize, hpassed⟩ := Points.moveForward_spec hpoint
    exact ⟨hlater, hsize, hpassed, hknown, hnodup⟩
  | @demoted top id hpoint hmany htop hid =>
    exact ⟨hlater, rfl, fun _ hmem _ => hmem, fun _ hmem => mem_demoted (hknown hmem),
      fun h => nodup_demoted top (hnodup h)⟩

variable [RandomSource γ]

/-- What a query does that is for no turn, or for a turn with nothing enabled. -/
theorem answer_of_enabledIds {query : Query} (hnone : query.enabledIds = []) (current : Operation)
    (s : PrioritySchedule γ) :
    ∃ walk, (s.answer current query).2 = { s with walk } ∧ s.walk.steps ≤ walk.steps := by
  cases query with
  | operation ops =>
    refine ⟨s.walk, ?_, Nat.le_refl _⟩
    have hempty : (Operation.enabledIds ops).isEmpty = true := List.isEmpty_iff.mpr hnone
    simp only [answer, hempty, if_true]
  | boolean bound => exact ⟨_, rfl, Nat.le_succ _⟩
  | integer bound => exact ⟨_, rfl, Nat.le_succ _⟩

section Draws

variable (hdraws : ∀ (bound : Nat) (source : γ), 0 < bound →
  (RandomSource.nextBounded bound source).1 < bound)

include hdraws

/-- Entering operations changes the priorities and the source that is drawn from. -/
theorem enters_insertNew (ids : List OperationId) {s : PrioritySchedule γ}
    (hne : s.priorities ≠ []) :
    ∃ walk priorities, insertNew ids s = { s with walk, priorities } ∧
      walk.steps = s.walk.steps ∧ Enters ids s.priorities priorities := by
  induction ids generalizing s with
  | nil => exact ⟨s.walk, s.priorities, rfl, rfl, .none _⟩
  | cons id rest ih =>
    rw [insertNew]
    split
    · next hknown =>
      obtain ⟨walk, priorities, heq, hsteps, henters⟩ := ih hne
      exact ⟨walk, priorities, heq, hsteps,
        (Enters.skip (List.contains_iff_mem.mp hknown)).trans henters⟩
    · next hnew =>
      have hplace : (s.walk.draw s.priorities.length).1 < s.priorities.length :=
        hdraws _ s.walk.source (List.length_pos_of_ne_nil hne)
      have hfirst := Enters.behind (fun hmem => hnew (List.contains_iff_mem.mpr hmem)) hplace
      obtain ⟨walk, priorities, heq, hsteps, henters⟩ :=
        ih (s := { s with
          walk := (s.walk.draw s.priorities.length).2
          priorities := s.priorities.insertIdx ((s.walk.draw s.priorities.length).1 + 1) id })
          (List.ne_nil_of_mem ((hfirst.mem_iff id).mpr (.inr List.mem_cons_self)))
      exact ⟨walk, priorities, heq, hsteps, hfirst.trans henters⟩

/-- What a query for a turn does where something is enabled. -/
theorem turns_answer (current : Operation) {ops : List Operation}
    (hsome : Operation.enabledIds ops ≠ []) (s : PrioritySchedule γ) :
    ∃ known walk, Enters (s.arrivals current (.operation ops)) s.priorities known ∧
      walk.steps = s.walk.steps ∧
      Turns (Operation.enabledIds ops) known walk s (s.answer current (.operation ops)) := by
  obtain ⟨walk, known, heq, hsteps, henters⟩ : ∃ walk known,
      insertNew (Operation.enabledIds ops)
        (if s.priorities.isEmpty then { s with priorities := [current.id] } else s) =
          { s with walk, priorities := known } ∧ walk.steps = s.walk.steps ∧
        Enters (s.arrivals current (.operation ops)) s.priorities known := by
    rw [arrivals, Query.enabledIds, List.isEmpty_eq_false_iff.mpr hsome, Bool.not_false,
      Bool.and_true]
    split
    · next hempty =>
      obtain ⟨walk, known, heq, hsteps, henters⟩ := enters_insertNew hdraws
        (Operation.enabledIds ops) (s := { s with priorities := [current.id] }) (List.cons_ne_nil _ _)
      rw [List.isEmpty_iff.mp hempty]
      exact ⟨walk, known, heq, hsteps, (Enters.first current.id).trans henters⟩
    · next hne =>
      exact enters_insertNew hdraws _ (by rwa [List.isEmpty_iff] at hne)
  have hknown : ∀ id ∈ Operation.enabledIds ops, id ∈ known := fun id hid =>
    (henters.mem_iff id).mpr (.inr (mem_arrivals hid current s))
  refine ⟨known, walk, henters, hsteps, ?_⟩
  simp only [answer, List.isEmpty_iff, hsome, if_false] at heq ⊢
  rw [heq]
  by_cases hpoint : s.walk.steps ∈ s.changePoints
  · have hcontained : s.changePoints.contains walk.steps = true := hsteps ▸ hpoint
    rw [if_pos hcontained]
    exact turns_change hsome hknown hsteps hpoint
  · have hcontained : ¬ s.changePoints.contains walk.steps = true := hsteps ▸ hpoint
    obtain ⟨top, hhighest, hfirst⟩ :=
      exists_highest? (s := { s with walk, priorities := known }) hsome hknown
    rw [if_neg hcontained, hhighest]
    exact .kept hpoint hfirst

/-- No query takes anything away. -/
theorem keeps_answer (current : Operation) (query : Query) (s : PrioritySchedule γ) :
    Keeps s (s.answer current query).2 := by
  by_cases hnone : query.enabledIds = []
  · obtain ⟨walk, heq, hsteps⟩ := answer_of_enabledIds hnone current s
    rw [heq]
    exact ⟨hsteps, rfl, fun _ hmem _ => hmem, List.Subset.refl _, fun hnodup => hnodup⟩
  · cases query with
    | operation ops =>
      obtain ⟨known, walk, henters, hsteps, hturn⟩ := turns_answer hdraws current hnone s
      exact hturn.keeps hsteps henters.sublist.subset henters.nodup
    | boolean => exact absurd rfl hnone
    | integer => exact absurd rfl hnone

/-- After a query every operation that was enabled has a priority. -/
theorem mem_priorities_answer (current : Operation) {query : Query} (s : PrioritySchedule γ)
    {id : OperationId} (h : id ∈ query.enabledIds) :
    id ∈ (s.answer current query).2.priorities := by
  cases query with
  | operation ops =>
    obtain ⟨known, walk, henters, hsteps, hturn⟩ :=
      turns_answer hdraws current (List.ne_nil_of_mem h) s
    have hknown : id ∈ known := (henters.mem_iff id).mpr (.inr (mem_arrivals h current s))
    generalize s.answer current (.operation ops) = turn at hturn ⊢
    cases hturn with
    | kept => exact hknown
    | postponed => exact hknown
    | demoted => exact mem_demoted hknown
  | boolean => cases h
  | integer => cases h

/-- The turn goes to the operation that stands first among the priorities after the call. -/
theorem isFirst_answer (current : Operation) {ops : List Operation}
    (hsome : Operation.enabledIds ops ≠ []) (s : PrioritySchedule γ) :
    ∃ id, (s.answer current (.operation ops)).1 = some id ∧
      IsFirst (Operation.enabledIds ops) (s.answer current (.operation ops)).2.priorities id := by
  obtain ⟨known, walk, -, -, hturn⟩ := turns_answer hdraws current hsome s
  generalize s.answer current (.operation ops) = turn at hturn ⊢
  cases hturn with
  | kept hpoint hid => exact ⟨_, rfl, hid⟩
  | postponed hpoint hone hid => exact ⟨_, rfl, hid⟩
  | demoted hpoint hmany htop hid => exact ⟨_, rfl, hid⟩

/-- A query that demotes nothing only enters new operations. -/
theorem enters_answer (current : Operation) {query : Query} {s : PrioritySchedule γ}
    (h : s.demotes query = false) :
    Enters (s.arrivals current query) s.priorities (s.answer current query).2.priorities := by
  by_cases hnone : query.enabledIds = []
  · obtain ⟨walk, heq, -⟩ := answer_of_enabledIds hnone current s
    rw [heq, arrivals_of_enabledIds hnone]
    exact .none _
  · cases query with
    | operation ops =>
      obtain ⟨known, walk, henters, -, hturn⟩ := turns_answer hdraws current hnone s
      generalize s.answer current (.operation ops) = turn at hturn ⊢
      cases hturn with
      | kept => exact henters
      | postponed => exact henters
      | demoted hpoint hmany htop hid =>
        have hdemotes : s.demotes (.operation ops) = true :=
          Bool.and_eq_true_iff.mpr ⟨hpoint, decide_eq_true hmany⟩
        rw [h] at hdemotes
        cases hdemotes
    | boolean => exact absurd rfl hnone
    | integer => exact absurd rfl hnone

/-- A query that demotes is at a change point, which it passes. Once the new operations are entered,
the one that would have had the turn goes to the end. -/
theorem demoted_answer (current : Operation) {query : Query} {s : PrioritySchedule γ}
    (h : s.demotes query = true) :
    (s.walk.steps ∈ (s.answer current query).2.changePoints ∧
      s.walk.steps < (s.answer current query).2.walk.steps) ∧
    ∃ known top, Enters (s.arrivals current query) s.priorities known ∧
      IsFirst query.enabledIds known top ∧
      (s.answer current query).2.priorities = known.filter (· ≠ top) ++ [top] := by
  obtain ⟨hpoint, hmany⟩ := Bool.and_eq_true_iff.mp h
  rw [decide_eq_true_eq] at hmany
  cases query with
  | operation ops =>
    have hsome : Operation.enabledIds ops ≠ [] := List.ne_nil_of_length_pos (by
      exact Nat.lt_trans Nat.one_pos hmany)
    obtain ⟨known, walk, henters, hsteps, hturn⟩ := turns_answer hdraws current hsome s
    generalize s.answer current (.operation ops) = turn at hturn ⊢
    cases hturn with
    | kept hnot => exact absurd hpoint hnot
    | postponed _ hone => exact absurd hmany (by rw [Query.enabledIds, hone]; decide)
    | demoted _ _ htop hid =>
      refine ⟨⟨hpoint, ?_⟩, known, _, henters, htop, rfl⟩
      rw [RandomWalk.step, hsteps]
      exact Nat.lt_succ_self _
  | boolean => cases hmany
  | integer => cases hmany

/-! ### An iteration -/

/-- The schedule after some queries, the last one first. -/
def asked (s : PrioritySchedule γ) : List (Operation × Query) → PrioritySchedule γ
  | [] => s
  | (current, query) :: earlier => ((s.asked earlier).answer current query).2

/-- The steps of an iteration at which an operation is demoted. -/
def demotionSteps (s : PrioritySchedule γ) : List (Operation × Query) → List Nat
  | [] => []
  | (_, query) :: earlier =>
    if (s.asked earlier).demotes query then (s.asked earlier).walk.steps :: s.demotionSteps earlier
    else s.demotionSteps earlier

/-- No query of an iteration takes anything away. -/
theorem keeps_asked (s : PrioritySchedule γ) (queries : List (Operation × Query)) :
    (s.asked queries).changePoints.size = s.changePoints.size ∧
      (s.priorities.Nodup → (s.asked queries).priorities.Nodup) ∧
      ∀ entry ∈ queries, ∀ id ∈ entry.2.enabledIds, id ∈ (s.asked queries).priorities := by
  induction queries with
  | nil => exact ⟨rfl, fun hnodup => hnodup, fun _ hentry => absurd hentry List.not_mem_nil⟩
  | cons entry earlier ih =>
    obtain ⟨current, query⟩ := entry
    obtain ⟨hsize, hnodup, hknown⟩ := ih
    have hkeeps := keeps_answer hdraws current query (s.asked earlier)
    refine ⟨hkeeps.size.trans hsize, fun h => hkeeps.nodup (hnodup h), ?_⟩
    exact List.forall_mem_cons.mpr ⟨fun id hid => mem_priorities_answer hdraws current _ hid,
      fun entry hentry id hid => hkeeps.known (hknown entry hentry id hid)⟩

/-- Operations are demoted at different steps of an iteration, all of them change points that are
passed. -/
theorem demotionSteps_spec (s : PrioritySchedule γ) (queries : List (Operation × Query)) :
    (s.demotionSteps queries).Nodup ∧ ∀ step ∈ s.demotionSteps queries,
      step ∈ (s.asked queries).changePoints ∧ step < (s.asked queries).walk.steps := by
  induction queries with
  | nil => exact ⟨List.nodup_nil, fun _ hstep => absurd hstep List.not_mem_nil⟩
  | cons entry earlier ih =>
    obtain ⟨current, query⟩ := entry
    obtain ⟨hnodup, hsteps⟩ := ih
    have hkeeps := keeps_answer hdraws current query (s.asked earlier)
    have hpassed : ∀ step ∈ s.demotionSteps earlier,
        step ∈ (s.asked ((current, query) :: earlier)).changePoints ∧
          step < (s.asked ((current, query) :: earlier)).walk.steps := fun step hmem =>
      ⟨hkeeps.passed step (hsteps step hmem).1 (hsteps step hmem).2,
        Nat.lt_of_lt_of_le (hsteps step hmem).2 hkeeps.steps⟩
    rw [demotionSteps]
    split
    · next hdemotes =>
      refine ⟨List.nodup_cons.mpr ⟨fun hmem => Nat.lt_irrefl _ (hsteps _ hmem).2, hnodup⟩, ?_⟩
      exact List.forall_mem_cons.mpr ⟨(demoted_answer hdraws current hdemotes).1, hpassed⟩
    · exact ⟨hnodup, hpassed⟩

/-- No more operations are demoted in an iteration than it has change points. -/
theorem length_demotionSteps_le (s : PrioritySchedule γ) (queries : List (Operation × Query)) :
    (s.demotionSteps queries).length ≤ s.changePoints.size := by
  obtain ⟨hnodup, hsteps⟩ := demotionSteps_spec hdraws s queries
  rw [← (keeps_asked hdraws s queries).1, ← Std.TreeSet.length_toList]
  exact (hnodup.subperm fun step hmem => Std.TreeSet.mem_toList.mpr (hsteps step hmem).1).length_le

end Draws

/-- A schedule at the beginning of an iteration: a new one, or one that moves on or forgets. -/
inductive Begins : PrioritySchedule γ → Prop where
  | new (source : γ) (maxSteps maxChangePoints : Nat) :
      Begins (.ofSource source maxSteps maxChangePoints)
  | prepare (s : PrioritySchedule γ) : Begins s.prepare
  | reset (s : PrioritySchedule γ) : Begins s.reset

/-- An iteration begins with no priorities, and with no more change points than are allowed. -/
theorem Begins.spec {s : PrioritySchedule γ} (h : s.Begins) :
    s.priorities = [] ∧ s.changePoints.size ≤ s.maxChangePoints := by
  cases h with
  | new => exact ⟨rfl, Nat.zero_le _⟩
  | prepare s => exact ⟨rfl, (Points.size_sample _ _ _).trans_le (Nat.min_le_left _ _)⟩
  | reset => exact ⟨rfl, Nat.zero_le _⟩

/-! ### What a priority schedule guarantees -/

/-- What holds after some queries of an iteration, and what the next query does then. -/
structure Prioritizes (s : PrioritySchedule γ) (queries : List (Operation × Query)) : Prop where
  nodup : (s.asked queries).priorities.Nodup
  known : ∀ entry ∈ queries, ∀ id ∈ entry.2.enabledIds, id ∈ (s.asked queries).priorities
  size : (s.asked queries).changePoints.size = s.changePoints.size
  demotions : (s.demotionSteps queries).length ≤ s.maxChangePoints
  /-- The turn goes to the enabled operation that stands first among the priorities after the
  call. -/
  turn : ∀ (current : Operation) (ops : List Operation), Operation.enabledIds ops ≠ [] →
    ∃ id, ((s.asked queries).answer current (.operation ops)).1 = some id ∧
      IsFirst (Operation.enabledIds ops)
        ((s.asked queries).answer current (.operation ops)).2.priorities id
  /-- Unless there is a choice at a change point, new operations are entered and nothing else
  happens. -/
  order : ∀ (current : Operation) (query : Query), (s.asked queries).demotes query = false →
    Enters ((s.asked queries).arrivals current query) (s.asked queries).priorities
      ((s.asked queries).answer current query).2.priorities
  /-- Where there is a choice at a change point, the enabled operation that stands first goes to the
  end. -/
  demotion : ∀ (current : Operation) (query : Query), (s.asked queries).demotes query = true →
    ∃ known top, Enters ((s.asked queries).arrivals current query) (s.asked queries).priorities known ∧
      IsFirst query.enabledIds known top ∧
      ((s.asked queries).answer current query).2.priorities = known.filter (· ≠ top) ++ [top]

/-- In every iteration a priority schedule gives the turns by priority, and demotes no more
operations than it is allowed. -/
theorem prioritizes_of_begins (hdraws : ∀ (bound : Nat) (source : γ), 0 < bound →
      (RandomSource.nextBounded bound source).1 < bound)
    {s : PrioritySchedule γ} (h : s.Begins) (queries : List (Operation × Query)) :
    s.Prioritizes queries := by
  obtain ⟨hpriorities, hpoints⟩ := h.spec
  obtain ⟨hsize, hnodup, hknown⟩ := keeps_asked hdraws s queries
  exact {
    nodup := hnodup (hpriorities ▸ List.nodup_nil)
    known := hknown
    size := hsize
    demotions := (length_demotionSteps_le hdraws s queries).trans hpoints
    turn := fun current _ hsome => isFirst_answer hdraws current hsome _
    order := fun current _ hkept => enters_answer hdraws current hkept
    demotion := fun current _ hdemotes => (demoted_answer hdraws current hdemotes).2 }

/-- Two enabled operations that are asked about three times. -/
def threeQueries : List (Operation × Query) :=
  let ops := [(Operation.new ⟨0⟩ "a").create, (Operation.new ⟨1⟩ "b").create]
  List.replicate 3 ((Operation.new ⟨0⟩ "a").create, .operation ops)

/-- One demotion is allowed in three steps, and it is at the first of them. -/
theorem prioritizes_of_begins_threeQueries :
    (∀ (bound : Nat) (source : Tape), 0 < bound → (RandomSource.nextBounded bound source).1 < bound) ∧
      (((ofSource ({ words := #[1] } : Tape) 0 1).asked threeQueries).prepare).Begins ∧
      (((ofSource ({ words := #[1] } : Tape) 0 1).asked threeQueries).prepare).Prioritizes
        threeQueries ∧
      (((ofSource ({ words := #[1] } : Tape) 0 1).asked threeQueries).prepare).demotionSteps
        threeQueries = [0] := by
  have hdraws (bound : Nat) (source : Tape) (hbound : 0 < bound) :
      (RandomSource.nextBounded bound source).1 < bound :=
    LawfulRandomSource.nextBounded_lt bound source hbound
  exact ⟨hdraws, .prepare _, prioritizes_of_begins hdraws (.prepare _) threeQueries,
    by decide +kernel⟩

end PrioritySchedule

end ScheduleExplorer
