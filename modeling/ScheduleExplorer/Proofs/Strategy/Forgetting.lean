import ScheduleExplorer.Proofs.Random.Alike
import ScheduleExplorer.Proofs.Strategy.Learning

/-!
# A bug makes a learning strategy forget

A learning strategy is asked, told of a bug, moved on and reset in some order. If it was told of a bug in
the iteration that it moves on from, then nothing is left of what it has learned, visited or drawn:
another strategy with the same settings that was told of a bug too, whatever its past, gives the same
replies to whatever calls follow.

The position that a draw selects is taken as any function of the values of the actions and the draw, of
which the softmax is one. The two strategies have their own sources, of one kind; each iteration begins
with a seed that depends on the settings alone, so from there on the sources run alike.
-/

namespace ScheduleExplorer

namespace QLearning

open RandomSource (RunsAlike OfOneKind)

variable {γ : Type} [RandomSource γ]

/-! ### Calls and replies -/

/-- A call of a strategy, which is asked, told of a bug, moved on or reset. -/
inductive Call where
  | answer (current : Operation) (query : Query)
  | notifyBug
  | prepare
  | reset

/-- What can be seen of a strategy after a call: the decision if it was a query, and what the strategy
tells of itself. -/
structure Reply where
  decision : Option Decision
  steps : Nat
  isAtBound : Bool
  description : String
  knownStates : Nat
  value? : UInt64 → UInt64 → Option Float

section Calls

variable (select : List Float → Float → Nat)

/-- The strategy after a call. -/
def perform (s : QLearning γ) : Call → QLearning γ
  | .answer current query => (s.answerBy select current query).2
  | .notifyBug => s.notifyBug
  | .prepare => s.prepare
  | .reset => s.reset

/-- The decision that a call asks for. -/
def decision? (s : QLearning γ) : Call → Option Decision
  | .answer current query => (s.answerBy select current query).1.map query.decision
  | .notifyBug | .prepare | .reset => none

/-- The reply to a call. -/
def reply (s : QLearning γ) (call : Call) : Reply :=
  let next := s.perform select call
  { decision := s.decision? select call
    steps := next.walk.steps
    isAtBound := next.walk.atBound
    description := next.description
    knownStates := next.knownStates
    value? := fun state action => next.value? state action }

/-- The strategy after some calls. -/
def after (s : QLearning γ) : List Call → QLearning γ
  | [] => s
  | call :: rest => (s.perform select call).after rest

/-- The replies to some calls. -/
def replies (s : QLearning γ) : List Call → List Reply
  | [] => []
  | call :: rest => s.reply select call :: (s.perform select call).replies rest

end Calls

/-- Two strategies have the same settings and have moved on equally often. Their sources are of one
kind. -/
structure SharesSettings (s t : QLearning γ) : Prop where
  baseSeed : s.walk.baseSeed = t.walk.baseSeed
  iterations : s.walk.iterations = t.walk.iterations
  maxSteps : s.walk.maxSteps = t.walk.maxSteps
  level : s.level = t.level
  kind : OfOneKind s.walk.source t.walk.source

/-! ### Strategies that differ in their source -/

/-- The same strategy with another source. -/
def drawingFrom (source : γ) (s : QLearning γ) : QLearning γ :=
  { s with walk := { s.walk with source } }

omit [RandomSource γ] in
/-- Learning changes what is known of the actions. -/
theorem learnPath_eq (path : List (Option UInt64 × UInt64)) (s : QLearning γ) :
    learnPath path s = { s with table := (learnPath path s).table } := by
  fun_induction learnPath path s with
  | case1 earlier state action next rest s learned ih =>
    rw [ih]
    cases action <;> rfl
  | case2 => rfl

/-- Moving on keeps the settings. What has been learned and visited stays only without a bug. -/
theorem prepare_eq (s : QLearning γ) :
    s.prepare =
      { walk := s.walk.prepare
        level := s.level
        table := if s.bugFound then ∅ else (learnPath s.path.reverse s).table
        visits := if s.bugFound then {} else s.visits } := by
  rw [prepare, learnPath_eq]
  dsimp only
  split
  · rfl
  · rfl

omit [RandomSource γ] in
/-- Learning draws nothing. -/
theorem learnPath_drawingFrom (source : γ) (path : List (Option UInt64 × UInt64)) (s : QLearning γ) :
    learnPath path (s.drawingFrom source) = (learnPath path s).drawingFrom source := by
  fun_induction learnPath path s with
  | case1 earlier state action next rest s learned ih =>
    rw [← ih]
    cases action <;> rfl
  | case2 path s hpath =>
    rw [learnPath]
    exact hpath

/-- Preparing the learner prepares its walk. -/
@[simp] theorem walk_prepare (s : QLearning γ) : s.prepare.walk = s.walk.prepare := by
  rw [prepare_eq]

/-- Moving on depends on the source as far as it sets a new seed. -/
theorem prepare_drawingFrom (source : γ) (s : QLearning γ) :
    (s.drawingFrom source).prepare =
      s.prepare.drawingFrom (s.drawingFrom source).walk.prepare.source := by
  have hlearned : learnPath (s.drawingFrom source).path.reverse (s.drawingFrom source) =
      (learnPath s.path.reverse s).drawingFrom source := learnPath_drawingFrom source _ s
  rw [prepare_eq, prepare_eq, hlearned]
  rfl

section Calls

variable (select : List Float → Float → Nat)

/-- A query draws one double at most. -/
theorem answerBy_drawingFrom {s : QLearning γ} {source : γ} (h : RunsAlike s.walk.source source)
    (current : Operation) (query : Query) :
    ((s.drawingFrom source).answerBy select current query).1 =
        (s.answerBy select current query).1 ∧
      ∃ source', RunsAlike (s.answerBy select current query).2.walk.source source' ∧
        ((s.drawingFrom source).answerBy select current query).2 =
          (s.answerBy select current query).2.drawingFrom source' := by
  obtain ⟨hdraw, hrest⟩ := h.nextDouble
  by_cases hempty : (Action.ofQuery query).isEmpty
  · rw [answerBy, answerBy, if_pos hempty, if_pos hempty]
    exact ⟨rfl, source, h, rfl⟩
  · rw [answerBy, answerBy, if_neg hempty, if_neg hempty]
    dsimp only [capture, drawingFrom]
    rw [← hdraw]
    exact ⟨rfl, _, hrest, rfl⟩

/-- A call leaves two strategies that differ in their source, and whose sources run alike, so. It has
the same reply from both. -/
theorem perform_drawingFrom {s : QLearning γ} {source : γ} (h : RunsAlike s.walk.source source)
    (call : Call) :
    (s.drawingFrom source).reply select call = s.reply select call ∧
      ∃ source', RunsAlike (s.perform select call).walk.source source' ∧
        (s.drawingFrom source).perform select call = (s.perform select call).drawingFrom source' := by
  have hreply {source' : γ} (hdecision : (s.drawingFrom source).decision? select call =
      s.decision? select call) (hnext : (s.drawingFrom source).perform select call =
        (s.perform select call).drawingFrom source') :
      (s.drawingFrom source).reply select call = s.reply select call := by
    rw [reply, hdecision, hnext]
    rfl
  cases call with
  | answer current query =>
    obtain ⟨hanswer, source', hsource', hnext⟩ := answerBy_drawingFrom select h current query
    exact ⟨hreply (congrArg (Option.map query.decision) hanswer) hnext, source', hsource', hnext⟩
  | notifyBug => exact ⟨rfl, source, h, rfl⟩
  | prepare =>
    have hnext := prepare_drawingFrom source s
    refine ⟨hreply rfl hnext, _, ?_, hnext⟩
    rw [perform, walk_prepare]
    exact h.ofOneKind _
  | reset => exact ⟨rfl, source, h, rfl⟩

/-- Two strategies that differ in their source, and whose sources run alike, give the same replies. -/
theorem replies_drawingFrom {s : QLearning γ} {source : γ} (h : RunsAlike s.walk.source source)
    (calls : List Call) :
    (s.drawingFrom source).replies select calls = s.replies select calls := by
  induction calls generalizing s source with
  | nil => rfl
  | cons call rest ih =>
    obtain ⟨hreply, source', hsource', hnext⟩ := perform_drawingFrom select h call
    rw [replies, replies, hreply, hnext, ih hsource']

/-! ### Bugs -/

/-- Within an iteration, a strategy knows of a bug if and only if it has been told. -/
theorem bugFound_after_iff {calls : List Call} (hturn : .prepare ∉ calls) (s : QLearning γ) :
    (s.after select calls).bugFound = true ↔ s.bugFound = true ∨ .notifyBug ∈ calls := by
  induction calls generalizing s with
  | nil => simp [after]
  | cons call rest ih =>
    rw [List.mem_cons, not_or] at hturn
    rw [after, ih hturn.2, List.mem_cons, ← or_assoc]
    refine or_congr_left ?_
    cases call with
    | answer current query =>
      have hkept : (s.answerBy select current query).2.bugFound = s.bugFound := by
        rw [answerBy]
        split <;> rfl
      simp [perform, hkept]
    | notifyBug => simp [perform, notifyBug]
    | prepare => exact absurd rfl hturn.1
    | reset => simp [perform, reset]

end Calls

/-- After a bug, only the settings are left. -/
theorem prepare_of_bugFound {s : QLearning γ} (h : s.bugFound = true) :
    s.prepare = { walk := s.walk.prepare, level := s.level } := by
  rw [prepare_eq, if_pos h, if_pos h]

/-- A bug makes a strategy forget: two strategies with the same settings that have been told of a bug in
their iterations give the same replies from the next iteration on. -/
theorem replies_eq_of_notifyBug (select : List Float → Float → Nat) {s t : QLearning γ}
    {sCalls tCalls : List Call} (hs : .notifyBug ∈ sCalls ∧ .prepare ∉ sCalls)
    (ht : .notifyBug ∈ tCalls ∧ .prepare ∉ tCalls)
    (hsettings : (s.after select sCalls).SharesSettings (t.after select tCalls))
    (calls : List Call) :
    ((s.after select sCalls).prepare).replies select calls =
      ((t.after select tCalls).prepare).replies select calls := by
  have hsbug := (bugFound_after_iff select hs.2 s).mpr (.inr hs.1)
  have htbug := (bugFound_after_iff select ht.2 t).mpr (.inr ht.1)
  generalize s.after select sCalls = s at hsbug hsettings
  generalize t.after select tCalls = t at htbug hsettings
  have hdiffer : t.prepare = s.prepare.drawingFrom t.prepare.walk.source := by
    rw [prepare_of_bugFound htbug, prepare_of_bugFound hsbug, ← hsettings.level]
    simp only [drawingFrom, RandomWalk.prepare, hsettings.baseSeed, hsettings.iterations,
      hsettings.maxSteps]
  have halike : RunsAlike s.prepare.walk.source t.prepare.walk.source := by
    rw [walk_prepare, walk_prepare, RandomWalk.prepare, RandomWalk.prepare, hsettings.baseSeed,
      hsettings.iterations]
    exact hsettings.kind _
  rw [hdiffer]
  exact (replies_drawingFrom select halike calls).symm

/-- An enabled operation asks for a turn. -/
def askTurn : Call :=
  .answer (Operation.new ⟨0⟩ "a").create (.operation [(Operation.new ⟨0⟩ "a").create])

/-- A strategy that has learned from earlier iterations. -/
def experienced : QLearning ChaChaSource :=
  { ofSource (.ofSeed 4) 0 .full with
    table := (∅ : Std.TreeMap UInt64 QValues).insert 0 ((∅ : QValues).insert 0 (-3.5))
    visits := ({} : VisitCounts).record 0 }

/-- A strategy that knows nothing and an experienced one cannot be told apart after a bug. -/
theorem replies_eq_of_notifyBug_experienced :
    (.notifyBug ∈ [askTurn, .notifyBug] ∧ .prepare ∉ [askTurn, .notifyBug]) ∧
      (.notifyBug ∈ [.notifyBug, askTurn, askTurn] ∧ .prepare ∉ [.notifyBug, askTurn, askTurn]) ∧
      ((ofSource (ChaChaSource.ofSeed 4) 0 .full).after softmaxIndex
          [askTurn, .notifyBug]).SharesSettings
        (experienced.after softmaxIndex [.notifyBug, askTurn, askTurn]) ∧
      (((ofSource (ChaChaSource.ofSeed 4) 0 .full).after softmaxIndex
          [askTurn, .notifyBug]).prepare).replies softmaxIndex [askTurn, .prepare, askTurn] =
        ((experienced.after softmaxIndex [.notifyBug, askTurn, askTurn]).prepare).replies
          softmaxIndex [askTurn, .prepare, askTurn] := by
  have hfirst : .notifyBug ∈ [askTurn, .notifyBug] ∧ .prepare ∉ [askTurn, .notifyBug] := by
    simp [askTurn]
  have hsecond : .notifyBug ∈ [.notifyBug, askTurn, askTurn] ∧
      .prepare ∉ [.notifyBug, askTurn, askTurn] := by
    simp [askTurn]
  have hsettings : ((ofSource (ChaChaSource.ofSeed 4) 0 .full).after softmaxIndex
        [askTurn, .notifyBug]).SharesSettings
      (experienced.after softmaxIndex [.notifyBug, askTurn, askTurn]) :=
    ⟨rfl, rfl, rfl, rfl, ChaChaSource.ofOneKind _ _⟩
  exact ⟨hfirst, hsecond, hsettings, replies_eq_of_notifyBug softmaxIndex hfirst hsecond hsettings _⟩

end QLearning

end ScheduleExplorer
