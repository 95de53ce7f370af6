import ScheduleExplorer.Proofs.Exploration.Position
import ScheduleExplorer.Proofs.Exploration.Rounds
import ScheduleExplorer.Proofs.Exploration.Survey

/-!
# Partial-order search takes the schedules of the reduction

The search keeps the trail of its last path and begins every walk at the root again: it replays what
it has recorded and then goes on with first choices. So after a walk it stands where the recursion
of `DecisionTree.survey` stands, and its rounds show the visits of the recursion, in order. While it
replays, what is recorded next is always what is asked.
-/

namespace ScheduleExplorer

variable {ε γ : Type}

/-- A schedule that goes on after decisions. -/
def Schedule.after (decisions : List Decision) (schedule : Schedule ε) : Schedule ε :=
  { schedule with decisions := decisions ++ schedule.decisions }

/-- A decision may count as the first one after decisions, or as the last one of them. -/
theorem Schedule.after_cons (decisions : List Decision) (decision : Decision)
    (schedule : Schedule ε) :
    (schedule.cons decision).after decisions = schedule.after (decisions ++ [decision]) := by
  simp [Schedule.after, Schedule.cons]

namespace Explorer

variable {σ : Type} [Explorer σ]

/-- One walk through a tree that no step bound cuts off. -/
def descend : DecisionTree (Option ε) → σ → Schedule ε × σ
  | .leaf ending, s => (⟨[], ending⟩, s)
  | .ask current query child, s =>
    match answer current query s with
    | (none, s) => (⟨[], none⟩, s)
    | (some value, s) =>
      let (rest, s) := descend (child value) s
      (rest.cons (query.decision value), s)

/-- A walk that is stopped at a step bound is a walk through the tree cut off there. -/
theorem walk_eq_descend (clock : σ → Clock) (hbound : ∀ s : σ, atBound s = (clock s).atBound)
    (hanswer : ∀ current query (s : σ),
      clock (answer current query s).2 = (clock s).tick (answer current query s).1.isSome)
    (tree : DecisionTree ε) (s : σ) :
    walk tree s = descend (tree.truncate (clock s).remaining) s := by
  induction tree generalizing s with
  | leaf ending => rfl
  | ask current query child ih =>
    rw [walk, hbound, Clock.atBound_eq, DecisionTree.truncate]
    by_cases hremaining : (clock s).remaining = some 0
    · simp only [hremaining, decide_true, if_true, descend]
    · simp only [hremaining, decide_false, Bool.false_eq_true, if_false, descend]
      have hclock := hanswer current query s
      generalize answer current query s = answered at hclock
      obtain ⟨value, after⟩ := answered
      cases value with
      | none => rfl
      | some value =>
        have hafter : clock after = (clock s).tick true := hclock
        simp only [ih value after, hafter, Clock.remaining_tick]
        rfl

/-- Something holds at every query of a walk through a tree that no step bound cuts off, and every
answer is a possible one. -/
def Throughout (P : Query → σ → Prop) : DecisionTree ε → σ → Prop
  | .leaf _, _ => True
  | .ask current query child, s =>
    P query s ∧ ∀ value ∈ (answer current query s).1, value ∈ query.alternatives ∧
      Throughout P (child value) (answer current query s).2

end Explorer

namespace Dpor

variable [RandomSource γ]

instance : Explorer (Dpor γ) where
  answer := answer
  atBound s := boundReached s.steps s.maxSteps
  prepare := prepare

/-- The values chosen since the last turn, and those recorded to come before the next one. -/
def cursor (s : Dpor γ) : Odometer :=
  match s.path with
  | [] => s.initial
  | frame :: _ => frame.choices

/-- What is recorded next, if anything is, is what is asked: a choice among as many values, or an
operation that is enabled. -/
def Replays (query : Query) (s : Dpor γ) : Prop :=
  match query with
  | .operation ops => s.cursor.ahead = [] ∧ ∀ frame rest, s.ahead = frame :: rest →
      ∃ id ∈ Operation.enabledIds ops, frame.selected = some id
  | query => (s.cursor.ahead = [] → s.ahead = []) ∧ ∀ choice rest, s.cursor.ahead = choice :: rest →
      choice.options = query.alternatives.length

variable {maxSteps steps : Nat} {stats : DporStats} {t : Trail} {decisions : List Decision}
  {choices : List Choice} {ahead : List Frame}

omit [RandomSource γ] in
/-- The values recorded beyond a trail are recorded at the cursor. -/
theorem ahead_cursor_placed :
    (placed maxSteps stats steps t choices ahead : Dpor γ).cursor.ahead = choices := by
  obtain ⟨frames, initial⟩ := t
  cases frames <;> rfl

omit [RandomSource γ] in
/-- A recorded choice among as many values is replayed. -/
theorem replays_value {query : Query} (hquery : query.IsValue) {index : Nat} :
    (placed maxSteps stats steps t (⟨query.alternatives.length, index⟩ :: choices) ahead :
      Dpor γ).Replays query := by
  have hvalue : (placed maxSteps stats steps t (⟨query.alternatives.length, index⟩ :: choices)
      ahead : Dpor γ).cursor.ahead = ⟨query.alternatives.length, index⟩ :: choices :=
    ahead_cursor_placed
  cases query with
  | operation => exact hquery.elim
  | _ =>
    refine ⟨fun hnone => absurd (hvalue.symm.trans hnone) (List.cons_ne_nil _ _),
      fun choice rest hcons => ?_⟩
    obtain ⟨rfl, rfl⟩ := List.cons.inj (hvalue.symm.trans hcons)
    rfl

omit [RandomSource γ] in
/-- A recorded operation that is enabled is replayed. -/
theorem replays_turn {ops : List Operation} {frame : Frame} {id : OperationId}
    (hselected : frame.selected = some id) (hid : id ∈ Operation.enabledIds ops) :
    (placed maxSteps stats steps t [] (frame :: ahead) : Dpor γ).Replays (.operation ops) := by
  refine ⟨ahead_cursor_placed, fun other rest hcons => ?_⟩
  obtain ⟨rfl, rfl⟩ := List.cons.inj hcons
  exact ⟨id, hid, hselected⟩

omit [RandomSource γ] in
/-- Where nothing is recorded anything may be asked. -/
theorem replays_fresh (query : Query) :
    (placed maxSteps stats steps t [] [] : Dpor γ).Replays query := by
  have hcursor : (placed maxSteps stats steps t [] [] : Dpor γ).cursor.ahead = [] :=
    ahead_cursor_placed
  cases query with
  | operation ops => exact ⟨hcursor, fun frame rest hcons => by cases hcons⟩
  | _ =>
    exact ⟨fun _ => rfl, fun choice rest hcons =>
      absurd (hcons.symm.trans hcursor) (List.cons_ne_nil _ _)⟩

/-- A search that has nothing recorded beyond its trail has nothing to replay in the rest of its
walk. -/
theorem throughout_fresh {node : DecisionTree (Option ε)} (hnode : node.IsProper)
    (ht : t.IsPassed) :
    Explorer.Throughout Replays node (placed maxSteps stats steps t [] [] : Dpor γ) := by
  induction node generalizing t stats steps with
  | leaf => trivial
  | ask current query child ih =>
    obtain ⟨hsome, -, hchild⟩ := hnode
    refine ⟨replays_fresh query, fun value hvalue => ?_⟩
    have hfresh (hquery : query.IsValue) : ∃ first ∈ query.alternatives,
        (placed maxSteps stats steps t [] [] : Dpor γ).answer current query = (some first,
          placed maxSteps stats (steps + 1) (t.choose ⟨query.alternatives.length, 0⟩) [] []) := by
      obtain ⟨first, rest, hcons⟩ := List.exists_cons_of_ne_nil hsome
      exact ⟨first, hcons ▸ List.mem_cons_self,
        answer_value_fresh hquery (by rw [hcons, List.getElem?_cons_zero])⟩
    cases query with
    | operation ops =>
      obtain ⟨id, frame, henter⟩ := Trail.exists_enter? hsome current.id (t.recordSend ops)
      have hopen := Trail.isOpen_enter henter
      obtain ⟨counted, hanswer⟩ : ∃ counted, (placed maxSteps stats steps t [] [] : Dpor γ).answer
          current (.operation ops) = (some id, placed maxSteps counted (steps + 1)
            ((t.recordSend ops).push frame) [] []) := answer_turn_fresh ht henter
      simp only [Explorer.answer, hanswer, Option.mem_some_iff] at hvalue ⊢
      subst hvalue
      have hpassed := (ht.grows (t.grows_recordSend ops)).push hopen.choices
      exact ⟨hopen.mem, ih id (hchild id hopen.mem) hpassed⟩
    | boolean bound =>
      obtain ⟨first, hfirst, hanswer⟩ := hfresh trivial
      simp only [Explorer.answer, hanswer, Option.mem_some_iff] at hvalue ⊢
      subst hvalue
      exact ⟨hfirst, ih _ (hchild _ hfirst) (ht.choose _)⟩
    | integer bound =>
      obtain ⟨first, hfirst, hanswer⟩ := hfresh trivial
      simp only [Explorer.answer, hanswer, Option.mem_some_iff] at hvalue ⊢
      subst hvalue
      exact ⟨hfirst, ih _ (hchild _ hfirst) (ht.choose _)⟩

variable (γ maxSteps) in
/-- The walks of a search that has a trail recorded come to a node after decisions, and the search
then has come down the trail and has replayed it. This is so for every trail that has grown from
it. -/
def LeadsTo (root : DecisionTree (Option ε)) (t : Trail) (decisions : List Decision)
    (node : DecisionTree (Option ε)) : Prop :=
  ∀ grown, t.Grows grown → ∀ stats choices ahead,
    Explorer.descend root (recorded maxSteps stats grown choices ahead : Dpor γ) =
        ((Explorer.descend node
          (placed maxSteps stats decisions.length grown choices ahead : Dpor γ)).1.after decisions,
        (Explorer.descend node
          (placed maxSteps stats decisions.length grown choices ahead : Dpor γ)).2) ∧
      (Explorer.Throughout Replays node
          (placed maxSteps stats decisions.length grown choices ahead : Dpor γ) →
        Explorer.Throughout Replays root (recorded maxSteps stats grown choices ahead : Dpor γ))

/-- A walk begins at the root. -/
theorem leadsTo_root (root : DecisionTree (Option ε)) : LeadsTo γ maxSteps root {} [] root := by
  intro grown hgrown stats choices ahead
  cases hgrown with
  | empty => exact ⟨rfl, id⟩

/-- Walks come to the same node when the trail has grown. -/
theorem LeadsTo.grows {root node : DecisionTree (Option ε)}
    (h : LeadsTo γ maxSteps root t decisions node) {grown : Trail} (hgrown : t.Grows grown) :
    LeadsTo γ maxSteps root grown decisions node :=
  fun later hlater => h later (hgrown.trans hlater)

/-- Where a value is recorded, walks go on below it. -/
theorem LeadsTo.choose {root : DecisionTree (Option ε)} {current : Operation} {query : Query}
    {child : query.Answer → DecisionTree (Option ε)}
    (h : LeadsTo γ maxSteps root t decisions (.ask current query child)) (hquery : query.IsValue)
    {index : Nat} {value : query.Answer} (hvalue : query.alternatives[index]? = some value) :
    LeadsTo γ maxSteps root (t.choose ⟨query.alternatives.length, index⟩)
      (decisions ++ [query.decision value]) (child value) := by
  intro grown hgrown stats choices ahead
  obtain ⟨hback, heq⟩ := hgrown.of_choose
  have hlength : (decisions ++ [query.decision value]).length = decisions.length + 1 := by simp
  obtain ⟨hdescend, hreplays⟩ := h _ hback stats (⟨query.alternatives.length, index⟩ :: choices) ahead
  rw [← heq, recorded_choose, hdescend]
  constructor
  · simp only [Explorer.descend, Explorer.answer, answer_value_recorded hquery hvalue, hlength,
      Schedule.after_cons]
  · intro hbelow
    apply hreplays
    refine ⟨replays_value hquery, fun other hother => ?_⟩
    simp only [Explorer.answer, answer_value_recorded hquery hvalue, Option.mem_some_iff] at hother ⊢
    subst hother
    rw [hlength] at hbelow
    exact ⟨List.mem_of_getElem? hvalue, hbelow⟩

/-- Where an operation is recorded, walks go on below it. -/
theorem LeadsTo.push {root : DecisionTree (Option ε)} {current : Operation} {ops : List Operation}
    {child : OperationId → DecisionTree (Option ε)}
    (h : LeadsTo γ maxSteps root t decisions (.ask current (.operation ops) child))
    (ht : t.IsPassed) (hrecorded : t.IsRecorded ops) {frame : Frame} {id : OperationId}
    (hselected : frame.selected = some id) (hframe : frame.choices = {})
    (hid : id ∈ Operation.enabledIds ops) :
    LeadsTo γ maxSteps root (t.push frame) (decisions ++ [.operation id]) (child id) := by
  intro grown hgrown stats choices ahead
  obtain ⟨send, later, above, hlater, hsettles, rfl⟩ := hgrown.of_push
  have hkept : later.selected = some id ∧ later.choices = {} := by
    obtain ⟨backtrack, rfl, -⟩ := hlater
    exact ⟨hselected, hframe⟩
  have hpassed := ht.grows hsettles.grows
  have hlength : (decisions ++ [Decision.operation id]).length = decisions.length + 1 := by simp
  have hanswer {stats : DporStats} {steps : Nat} :
      (placed maxSteps stats steps above [] ({ later with choices := ⟨[], choices⟩ } :: ahead) :
        Dpor γ).answer current (.operation ops) =
          (some id, placed maxSteps stats (steps + 1) (above.push later) choices ahead) :=
    answer_turn_recorded hpassed (hrecorded.settles hsettles) hkept.1 hkept.2 hid
  obtain ⟨hdescend, hreplays⟩ :=
    h _ hsettles.grows stats [] ({ later with choices := ⟨[], choices⟩ } :: ahead)
  rw [recorded_push hpassed hkept.2, hdescend]
  constructor
  · simp only [Explorer.descend, Explorer.answer, hanswer, hlength]
    rw [← Schedule.after_cons]
    rfl
  · intro hbelow
    apply hreplays
    refine ⟨replays_turn hkept.1 hid, fun other hother => ?_⟩
    simp only [Explorer.answer, hanswer, Option.mem_some_iff] at hother ⊢
    subst hother
    rw [hlength] at hbelow
    exact ⟨hid, hbelow⟩

/-! ### Exploring below a trail -/

variable (γ maxSteps) in
/-- The walks of a search that has a trail recorded and replays it go through a tree that is cut off
at the step bound. -/
def Descends (W : Dpor γ → Schedule ε → Dpor γ → Prop) (root : DecisionTree (Option ε)) : Prop :=
  ∀ stats t, Explorer.Throughout Replays root (recorded maxSteps stats t [] [] : Dpor γ) →
    ∀ schedule after, W (recorded maxSteps stats t [] []) schedule after ↔
      Explorer.descend root (recorded maxSteps stats t [] []) = (schedule, after)

/-- Walks through a tree go through the tree cut off at the step bound. -/
theorem descends_walks (tree : DecisionTree ε) :
    Descends γ maxSteps (Explorer.Walks tree) (tree.bounded maxSteps) := by
  intro stats t _ schedule after
  have hwalk : Explorer.walk tree (recorded maxSteps stats t [] [] : Dpor γ) =
      Explorer.descend (tree.bounded maxSteps) (recorded maxSteps stats t [] []) :=
    Explorer.walk_eq_descend clock (fun _ => rfl) clock_answer tree _
  rw [Explorer.Walks, hwalk]

variable (γ maxSteps) in
/-- What a preparation gives at the end of a trail. -/
def resume (stats : DporStats) (t : Trail) : Bool × Dpor γ :=
  match t.next? with
  | some next => (true, recorded maxSteps stats next [] [])
  | none => (false, recorded maxSteps stats {} [] [])

variable (γ maxSteps) in
/-- A round shows a visit below decisions: its schedule, the trail on which it ends, and that it has
replayed what was recorded. -/
structure Shows (root : DecisionTree (Option ε)) (decisions : List Decision)
    (round : Round (Dpor γ) ε) (visit : Visit ε) : Prop where
  before : ∃ stats t, round.before = recorded maxSteps stats t [] []
  schedule : round.schedule = visit.schedule.after decisions
  after : ∃ ending t stats steps, visit.ending = some (ending, t) ∧ t.IsPassed ∧
    round.after = placed maxSteps stats steps t [] []
  replays : Explorer.Throughout Replays root round.before

variable (γ maxSteps) in
/-- The rounds of a search that has a trail recorded show some visits below decisions, and then the
search is at the end of another trail. -/
def Takes (W : Dpor γ → Schedule ε → Dpor γ → Prop) (root : DecisionTree (Option ε)) (t : Trail)
    (decisions : List Decision) (visits : List (Visit ε)) (last : Trail) : Prop :=
  ∀ stats, ∃ rounds counted,
    Explorer.Rounds W (recorded maxSteps stats t [] []) rounds (resume γ maxSteps counted last) ∧
      rounds.Forall₂ (Shows γ maxSteps root decisions) visits

variable {W : Dpor γ → Schedule ε → Dpor γ → Prop} {root : DecisionTree (Option ε)}

/-- Only the next trail counts at the end of a trail. -/
theorem Takes.of_next? {visits : List (Visit ε)} {last other : Trail}
    (h : Takes γ maxSteps W root t decisions visits last) (hnext : last.next? = other.next?) :
    Takes γ maxSteps W root t decisions visits other := by
  intro stats
  obtain ⟨rounds, counted, hrounds, hshows⟩ := h stats
  refine ⟨rounds, counted, ?_, hshows⟩
  rw [resume, ← hnext]
  exact hrounds

/-- A search goes on with the next trail. -/
theorem Takes.append {visits later : List (Visit ε)} {between next last : Trail}
    (h : Takes γ maxSteps W root t decisions visits between) (hnext : between.next? = some next)
    (hlater : Takes γ maxSteps W root next decisions later last) :
    Takes γ maxSteps W root t decisions (visits ++ later) last := by
  intro stats
  obtain ⟨rounds, counted, hrounds, hshows⟩ := h stats
  obtain ⟨others, more, hothers, hlast⟩ := hlater counted
  rw [resume, hnext] at hrounds
  exact ⟨rounds ++ others, more, hrounds.append hothers, List.rel_append hshows hlast⟩

/-- The visits below a decision are shown after it. -/
theorem Takes.cons {decision : Decision} {visits : Reduction (Option ε × Trail)} {last : Trail}
    (h : Takes γ maxSteps W root t (decisions ++ [decision]) visits.1 last) :
    Takes γ maxSteps W root t decisions (visits.cons decision).1 last := by
  intro stats
  obtain ⟨rounds, counted, hrounds, hshows⟩ := h stats
  refine ⟨rounds, counted, hrounds, ?_⟩
  rw [Reduction.cons, List.forall₂_map_right_iff]
  refine hshows.imp fun round visit hshow => ⟨hshow.before, ?_, hshow.after, hshow.replays⟩
  rw [hshow.schedule, ← Schedule.after_cons]
  rfl

/-- A search shows the visits that it shows with another trail if the next walk is the same. -/
theorem Takes.of_descend {visits : List (Visit ε)} {other last : Trail}
    (h : Takes γ maxSteps W root other decisions visits last) (hW : Descends γ maxSteps W root)
    (hreplays : ∀ stats, Explorer.Throughout Replays root
      (recorded maxSteps stats t [] [] : Dpor γ))
    (hdescend : ∀ stats, ∃ counted,
      Explorer.descend root (recorded maxSteps stats t [] [] : Dpor γ) =
        Explorer.descend root (recorded maxSteps counted other [] [])) :
    Takes γ maxSteps W root t decisions visits last := by
  intro stats
  obtain ⟨counted, hsame⟩ := hdescend stats
  obtain ⟨rounds, more, hrounds, hshows⟩ := h counted
  have hwalk {schedule : Schedule ε} {after : Dpor γ}
      (hother : Explorer.Throughout Replays root (recorded maxSteps counted other [] [] : Dpor γ))
      (hfirst : W (recorded maxSteps counted other [] []) schedule after) :
      W (recorded maxSteps stats t [] []) schedule after := by
    rw [hW _ _ hother, ← hsame] at hfirst
    exact (hW _ _ (hreplays stats) _ _).mpr hfirst
  cases hrounds with
  | last hfirst hlast =>
    cases hshows with
    | cons hshow hrest =>
      exact ⟨_, more, .last (hwalk hshow.replays hfirst) hlast,
        .cons ⟨⟨stats, t, rfl⟩, hshow.schedule, hshow.after, hreplays stats⟩ hrest⟩
  | more hfirst hmore hrest =>
    cases hshows with
    | cons hshow hshows =>
      exact ⟨_, more, .more (hwalk hshow.replays hfirst) hmore hrest,
        .cons ⟨⟨stats, t, rfl⟩, hshow.schedule, hshow.after, hreplays stats⟩ hshows⟩

/-- At a leaf the walk is taken and its path is analysed. -/
theorem takes_leaf {ending : Option ε} (hW : Descends γ maxSteps W root) (ht : t.IsPassed)
    (h : LeadsTo γ maxSteps root t decisions (.leaf ending)) :
    Takes γ maxSteps W root t decisions [⟨[], some (ending, t)⟩] t.analyse := by
  intro stats
  have hprepare : ∃ counted, (placed maxSteps stats decisions.length t [] [] : Dpor γ).prepare =
      match t.analyse.next? with
      | some next => (true, recorded maxSteps counted next [] [])
      | none => (false, recorded maxSteps counted {} [] []) :=
    prepare_placed ht
  obtain ⟨counted, hcounted⟩ := hprepare
  obtain ⟨hdescend, hreplays⟩ := h t (.refl t) stats [] []
  refine ⟨_, counted, .last ((hW _ _ (hreplays trivial) _ _).mpr hdescend) hcounted, ?_⟩
  refine List.forall₂_cons.mpr
    ⟨⟨⟨stats, t, rfl⟩, ?_, ⟨ending, t, stats, _, rfl, ht, rfl⟩, hreplays trivial⟩, .nil⟩
  simp [Explorer.descend, Visit.schedule]

variable (γ maxSteps) in
/-- A search shows the visits below a node whenever its walks come to the node. -/
def Covers (W : Dpor γ → Schedule ε → Dpor γ → Prop) (root node : DecisionTree (Option ε)) : Prop :=
  ∀ (t : Trail) (decisions : List Decision), t.IsPassed →
    LeadsTo γ maxSteps root t decisions node →
    Takes γ maxSteps W root t decisions (node.survey t).1 (node.survey t).2

/-- A search shows the visits below the values from a position on. -/
theorem takes_values {current : Operation} {query : Query} (hquery : query.IsValue)
    {child : query.Answer → DecisionTree (Option ε)}
    (hcovers : ∀ value ∈ query.alternatives, Covers γ maxSteps W root (child value))
    {index : Nat} {rest : List query.Answer} (hdrop : query.alternatives.drop index = rest)
    (hsome : rest ≠ []) (ht : t.IsPassed)
    (h : LeadsTo γ maxSteps root t decisions (.ask current query child)) :
    let visits := Reduction.values
      (fun value t => ((child value).survey t).cons (query.decision value))
      query.alternatives.length index rest t
    Takes γ maxSteps W root (t.choose ⟨query.alternatives.length, index⟩) decisions visits.1
      visits.2 := by
  induction rest generalizing index t with
  | nil => exact absurd rfl hsome
  | cons value rest ih =>
    have hvalue : query.alternatives[index]? = some value := by
      rw [← List.head?_drop, hdrop, List.head?_cons]
    have hrest : query.alternatives.drop (index + 1) = rest := by
      rw [← List.tail_drop, hdrop, List.tail_cons]
    have hgrown := (child value).grows_survey (t.choose ⟨query.alternatives.length, index⟩)
    have hnow := (hcovers value (List.mem_of_getElem? hvalue) _ _ (ht.choose _)
      (h.choose hquery hvalue)).cons
    have hnext := hgrown.next?_of_choose ht
    simp only [Reduction.values]
    cases rest with
    | nil =>
      rw [if_neg (Nat.not_lt.mpr (List.drop_eq_nil_iff.mp hrest))] at hnext
      rw [Reduction.values, List.append_nil]
      exact hnow.of_next? hnext
    | cons next later =>
      have hmore : index + 1 < query.alternatives.length := by
        rw [← List.drop_eq_nil_iff.not.trans Nat.not_le, hrest]
        exact List.cons_ne_nil _ _
      rw [if_pos hmore] at hnext
      have hback := hgrown.of_choose.1
      exact hnow.append hnext (ih hrest (List.cons_ne_nil _ _) (ht.grows hback) (h.grows hback))

/-- A search shows the visits below the operations of an open frame. -/
theorem takes_turns {current : Operation} {ops : List Operation}
    {child : OperationId → DecisionTree (Option ε)}
    (hcovers : ∀ id ∈ Operation.enabledIds ops, Covers γ maxSteps W root (child id))
    {id : OperationId} {count : Nat} {frame : Frame} (hopen : frame.IsOpen ops id count)
    (ht : t.IsPassed) (hrecorded : t.IsRecorded ops)
    (h : LeadsTo γ maxSteps root t decisions (.ask current (.operation ops) child)) :
    let visits := Reduction.turns
      (fun id t => ((child id).survey t).cons (.operation id)) count id (t.push frame)
    Takes γ maxSteps W root (t.push frame) decisions visits.1 visits.2 := by
  induction count generalizing id frame t with
  | zero => exact absurd hopen.pos (Nat.lt_irrefl 0)
  | succ count ih =>
    obtain ⟨send, grown, above, hgrown, hsettles, heq, hnone, hsome⟩ :=
      Reduction.turns_eq (fun id t => ((child id).survey t).cons (.operation id))
        ((child id).grows_survey (t.push frame))
    have hchoices : grown.choices = {} := by
      obtain ⟨backtrack, rfl, -⟩ := hgrown
      exact hopen.choices
    have hnow := (hcovers id hopen.mem _ _ (ht.push hopen.choices)
      (h.push ht hrecorded hopen.selected hopen.choices hopen.mem)).cons
    have hlast : ((child id).survey (t.push frame)).2 = above.push grown := heq
    have hnext := above.next?_push hchoices
    rw [hlast] at hnow
    cases hfirst : grown.close.unexplored.first? with
    | none =>
      rw [hfirst] at hnext
      rw [hnone hfirst]
      exact hnow.of_next? hnext
    | some next =>
      rw [hfirst] at hnext
      rw [hsome next hfirst]
      exact hnow.append hnext (ih (hopen.next hgrown hfirst) (ht.grows hsettles.grows)
        (hrecorded.settles hsettles) (h.grows hsettles.grows))

/-- A search shows the visits below a node with a value. -/
theorem covers_value {current : Operation} {query : Query} (hquery : query.IsValue)
    {child : query.Answer → DecisionTree (Option ε)} (hW : Descends γ maxSteps W root)
    (hnode : (DecisionTree.ask current query child).IsProper)
    (hcovers : ∀ value ∈ query.alternatives, Covers γ maxSteps W root (child value)) :
    Covers γ maxSteps W root (.ask current query child) := by
  intro t decisions ht h
  have hsome := hnode.1
  obtain ⟨value, rest, hcons⟩ := List.exists_cons_of_ne_nil hsome
  have hvalue : query.alternatives[0]? = some value := by rw [hcons, List.getElem?_cons_zero]
  have hlength : (decisions ++ [query.decision value]).length = decisions.length + 1 := by simp
  rw [DecisionTree.survey_value hquery]
  refine (takes_values hquery hcovers List.drop_zero hsome ht h).of_descend hW
    (fun stats => (h t (.refl t) stats [] []).2 (throughout_fresh hnode ht))
    fun stats => ⟨stats, ?_⟩
  rw [(h t (.refl t) stats [] []).1, (h.choose hquery hvalue _ (.refl _) stats [] []).1]
  simp only [Explorer.descend, Explorer.answer, answer_value_fresh hquery hvalue, hlength,
    Schedule.after_cons]

/-- A search shows the visits below a node with a turn. -/
theorem covers_turn {current : Operation} {ops : List Operation}
    {child : OperationId → DecisionTree (Option ε)} (hW : Descends γ maxSteps W root)
    (hnode : (DecisionTree.ask current (.operation ops) child).IsProper)
    (hcovers : ∀ id ∈ Operation.enabledIds ops, Covers γ maxSteps W root (child id)) :
    Covers γ maxSteps W root (.ask current (.operation ops) child) := by
  intro t decisions ht h
  obtain ⟨id, frame, henter⟩ := Trail.exists_enter? hnode.1 current.id (t.recordSend ops)
  have hopen := Trail.isOpen_enter henter
  have hpassed := ht.grows (t.grows_recordSend ops)
  have hrecorded := t.isRecorded_recordSend ops
  have hsent := h.grows (t.grows_recordSend ops)
  rw [DecisionTree.survey_turn henter]
  refine (takes_turns hcovers hopen hpassed hrecorded hsent).of_descend hW
    (fun stats => (h t (.refl t) stats [] []).2 (throughout_fresh hnode ht)) fun stats => ?_
  have hanswer : ∃ counted, (placed maxSteps stats decisions.length t [] [] : Dpor γ).answer current
      (.operation ops) = (some id,
        placed maxSteps counted (decisions.length + 1) ((t.recordSend ops).push frame) [] []) :=
    answer_turn_fresh ht henter
  obtain ⟨counted, hcounted⟩ := hanswer
  have hpush := hsent.push hpassed hrecorded hopen.selected hopen.choices hopen.mem
  have hlength : (decisions ++ [Decision.operation id]).length = decisions.length + 1 := by simp
  refine ⟨counted, ?_⟩
  rw [(h t (.refl t) stats [] []).1, (hpush _ (.refl _) counted [] []).1]
  simp only [Explorer.descend, Explorer.answer, hcounted, hlength]
  rw [← Schedule.after_cons]
  rfl

/-- A search shows the visits below every node. -/
theorem covers {node : DecisionTree (Option ε)} (hW : Descends γ maxSteps W root)
    (hnode : node.IsProper) : Covers γ maxSteps W root node := by
  induction node with
  | leaf ending =>
    intro t decisions ht h
    exact takes_leaf hW ht h
  | ask current query child ih =>
    have hcovers : ∀ value ∈ query.alternatives, Covers γ maxSteps W root (child value) :=
      fun value hvalue => ih value (hnode.2.2 value hvalue)
    cases query with
    | operation ops => exact covers_turn hW hnode hcovers
    | boolean bound =>
      have hquery : (Query.boolean bound).IsValue := trivial
      exact covers_value hquery hW hnode hcovers
    | integer bound =>
      have hquery : (Query.integer bound).IsValue := trivial
      exact covers_value hquery hW hnode hcovers

/-- An exhaustive search ends, and its rounds show the visits of the survey. -/
theorem exists_rounds (hW : Descends γ maxSteps W root) (hroot : root.IsProper) :
    ∃ rounds final, Explorer.Rounds W ({ maxSteps } : Dpor γ) rounds (false, final) ∧
      rounds.Forall₂ (Shows γ maxSteps root []) (root.survey {}).1 := by
  have hpassed : ({} : Trail).IsPassed := ⟨fun _ hnone => absurd hnone List.not_mem_nil, rfl⟩
  obtain ⟨rounds, counted, hrounds, hshows⟩ := covers hW hroot {} [] hpassed (leadsTo_root _) {}
  have hgrown := root.grows_survey {}
  generalize root.survey {} = visits at hrounds hshows hgrown
  obtain ⟨visits, last⟩ := visits
  have hlast : last.next? = none := by
    dsimp only at hgrown
    cases hgrown with
    | empty => rfl
  rw [resume, hlast] at hrounds
  exact ⟨rounds, _, hrounds, hshows⟩

/-- Rounds that show visits below the root take their schedules. -/
theorem map_schedule_of_shows {rounds : List (Round (Dpor γ) ε)}
    {visits : List (Visit ε)} (h : rounds.Forall₂ (Shows γ maxSteps root []) visits) :
    rounds.map Round.schedule = visits.map Visit.schedule := by
  have hsame : (rounds.map Round.schedule).Forall₂ (· = ·) (visits.map Visit.schedule) := by
    rw [List.forall₂_map_left_iff, List.forall₂_map_right_iff]
    exact h.imp fun round visit hshow => hshow.schedule
  rwa [List.forall₂_eq_eq_eq] at hsame

/-- Every round shows one of the visits. -/
theorem exists_shows {decisions : List Decision} {rounds : List (Round (Dpor γ) ε)}
    {visits : List (Visit ε)} (h : rounds.Forall₂ (Shows γ maxSteps root decisions) visits)
    {round : Round (Dpor γ) ε} (hround : round ∈ rounds) :
    ∃ visit ∈ visits, Shows γ maxSteps root decisions round visit := by
  induction h with
  | nil => exact absurd hround List.not_mem_nil
  | cons hshow _ ih =>
    rcases List.mem_cons.mp hround with rfl | hlater
    · exact ⟨_, List.mem_cons_self, hshow⟩
    · obtain ⟨visit, hvisit, hshow⟩ := ih hlater
      exact ⟨visit, List.mem_cons_of_mem _ hvisit, hshow⟩

/-- An exhaustive search ends, and it takes the schedules of the reduction in their order. -/
theorem explore_eq_reduce {tree : DecisionTree ε} (htree : tree.IsProper) (maxSteps : Nat) :
    ∃ final : Dpor γ, ∀ fuel,
      Explorer.explore tree fuel ({ maxSteps } : Dpor γ) =
        if ((tree.bounded maxSteps).reduce {}).1.length ≤ fuel then
          some (((tree.bounded maxSteps).reduce {}).1, final)
        else none := by
  obtain ⟨rounds, final, hrounds, hshows⟩ :=
    exists_rounds (γ := γ) (descends_walks tree) (htree.truncate _)
  have hschedules : rounds.map Round.schedule = ((tree.bounded maxSteps).reduce {}).1 := by
    rw [map_schedule_of_shows hshows, ← DecisionTree.schedules_survey]
    rfl
  refine ⟨final, fun fuel => ?_⟩
  rw [Explorer.explore_of_rounds hrounds, ← hschedules, List.length_map]

end Dpor

end ScheduleExplorer
