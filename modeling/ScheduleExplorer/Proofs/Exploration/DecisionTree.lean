import ScheduleExplorer.Proofs.Strategy.Answers

/-!
# Decision trees and their exploration

To a scheduler a deterministic program is a tree: what is asked next depends only on the answers so
far. An explorer walks the tree from the root to a leaf, or until its step bound stops it, and then
prepares for its next walk.

`DecisionTree.Path` says what the walks of a tree are, and `Explorer.explore` repeats walks until
the explorer has nothing left. Nothing is said here about the order of walks.
-/

namespace ScheduleExplorer

/-- What a deterministic program asks, depending on the answers so far; a leaf is an ending of the
program. -/
inductive DecisionTree (ε : Type) where
  | leaf (ending : ε)
  | ask (current : Operation) (query : Query) (child : query.Answer → DecisionTree ε)

/-- One walk through a decision tree: the answers, and the leaf if the walk was not stopped before
one. -/
structure Schedule (ε : Type) where
  decisions : List Decision
  ending : Option ε
deriving DecidableEq

namespace DecisionTree

variable {ε : Type}

/-- Every query has an answer, and no answer stands twice among its alternatives. -/
def IsProper : DecisionTree ε → Prop
  | leaf _ => True
  | ask _ query child =>
    query.alternatives ≠ [] ∧ query.alternatives.Nodup ∧
      ∀ answer ∈ query.alternatives, (child answer).IsProper

/-- A path from the root to a leaf: the positions of its answers among the alternatives, the
answers, and the ending. -/
inductive Path : DecisionTree ε → List Nat → List Decision → ε → Prop where
  | leaf (ending : ε) : Path (.leaf ending) [] [] ending
  | ask {current : Operation} {query : Query} {child : query.Answer → DecisionTree ε}
      {index : Nat} {answer : query.Answer} {indices : List Nat} {decisions : List Decision}
      {ending : ε} (hanswer : query.alternatives[index]? = some answer)
      (hrest : Path (child answer) indices decisions ending) :
      Path (.ask current query child) (index :: indices) (query.decision answer :: decisions) ending

/-- The tree cut off after a number of decisions, or the whole tree; a leaf without an ending stands
where it is cut. -/
def truncate : Option Nat → DecisionTree ε → DecisionTree (Option ε)
  | _, leaf ending => .leaf (some ending)
  | depth, ask current query child =>
    if depth = some 0 then .leaf none
    else .ask current query fun answer => (child answer).truncate (depth.map (· - 1))

/-- The tree as a search with a step bound sees it; zero stands for no bound. -/
def bounded (maxSteps : Nat) (tree : DecisionTree ε) : DecisionTree (Option ε) :=
  tree.truncate (if maxSteps = 0 then none else some maxSteps)

/-- Cutting a tree off keeps it proper. -/
theorem IsProper.truncate {tree : DecisionTree ε} (h : tree.IsProper) (depth : Option Nat) :
    (tree.truncate depth).IsProper := by
  induction tree generalizing depth with
  | leaf ending => trivial
  | ask current query child ih =>
    obtain ⟨hsome, hnodup, hchild⟩ := h
    rw [DecisionTree.truncate]
    split
    · trivial
    · exact ⟨hsome, hnodup, fun answer ha => ih answer (hchild answer ha) _⟩

/-- Different answers to a query are different decisions. -/
theorem decision_injective (query : Query) : Function.Injective query.decision := by
  intro answer other heq
  cases query <;> exact Decision.noConfusion heq id

end DecisionTree

/-- Something that walks through decision trees again and again. -/
class Explorer (σ : Type) where
  /-- Answers a query of the running operation. -/
  answer (current : Operation) (query : Query) : σ → Option query.Answer × σ
  /-- Whether the step bound of the walk is reached. -/
  atBound : σ → Bool
  /-- Prepares for the next walk; false when there is none. -/
  prepare : σ → Bool × σ

namespace Explorer

variable {σ ε : Type} [Explorer σ]

/-- One walk, which ends at a leaf or as soon as the step bound is reached. -/
def walk : DecisionTree ε → σ → Schedule ε × σ
  | .leaf ending, s => (⟨[], some ending⟩, s)
  | .ask current query child, s =>
    if atBound s then (⟨[], none⟩, s)
    else
      match answer current query s with
      | (none, s) => (⟨[], none⟩, s)
      | (some a, s) =>
        let (rest, s) := walk (child a) s
        (⟨query.decision a :: rest.decisions, rest.ending⟩, s)

/-- Walks until there is nothing left, for at most `fuel` walks: the walks in order, and the explorer
after the last one. -/
def explore (tree : DecisionTree ε) : Nat → σ → Option (List (Schedule ε) × σ)
  | 0, _ => none
  | fuel + 1, s =>
    let (schedule, s) := walk tree s
    match prepare s with
    | (false, s) => some ([schedule], s)
    | (true, s) => (explore tree fuel s).map fun (rest, s) => (schedule :: rest, s)

/-- An exploration that ends begins with a walk, and then either nothing is left or it goes on. -/
theorem exists_of_explore_succ {tree : DecisionTree ε} {fuel : Nat} {s after final : σ}
    {schedule : Schedule ε} {schedules : List (Schedule ε)} (hwalk : walk tree s = (schedule, after))
    (h : explore tree (fuel + 1) s = some (schedules, final)) :
    ∃ more next rest, prepare after = (more, next) ∧ schedules = schedule :: rest ∧
      (more = false → rest = [] ∧ next = final) ∧
      (more = true → explore tree fuel next = some (rest, final)) := by
  rw [explore, hwalk] at h
  dsimp only at h
  generalize prepare after = prepared at h
  obtain ⟨more, next⟩ := prepared
  cases more with
  | false =>
    obtain ⟨rfl, rfl⟩ := Prod.mk.inj (Option.some.inj h)
    exact ⟨false, _, [], rfl, rfl, fun _ => ⟨rfl, rfl⟩, Bool.noConfusion⟩
  | true =>
    obtain ⟨⟨rest, last⟩, hrest, hsame⟩ := Option.map_eq_some_iff.mp h
    obtain ⟨rfl, rfl⟩ := Prod.mk.inj hsame
    exact ⟨true, next, rest, rfl, rfl, Bool.noConfusion, fun _ => hrest⟩

end Explorer

end ScheduleExplorer
