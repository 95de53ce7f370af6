import ScheduleExplorer.Proofs.Exploration.DepthFirst
import ScheduleExplorer.Proofs.Exploration.Rounds
import ScheduleExplorer.Proofs.Strategy.Contract
import ScheduleExplorer.Random.ChaCha
import Mathlib.Data.List.Perm.Subperm

/-!
# Depth-first searches one after another

A combination runs one search until its step bound and then another one, and after a walk both move
on at once. So when both of them have seen everything they know, the combination reports that
nothing is left, although it need not have followed every path: the second search knows only what
lies behind the last walk of the first.

What the nested searches do follow is stated here. They follow paths of the tree cut off at the sum
of their bounds, none of them twice, and all that the first search can see.
-/

namespace ScheduleExplorer

variable {ε γ : Type}

/-- Depth-first searches that run one after another, in any nesting, each with its own step bound. -/
inductive Nesting where
  | search (maxSteps : Nat)
  | combo (lead rest : Nesting)

namespace Nesting

variable (γ) in
/-- The strategy at its beginning. -/
def strategy : Nesting → Strategy γ
  | search maxSteps => .depthFirst { maxSteps }
  | combo lead rest => .combo lead.strategy rest.strategy

/-- The number of decisions until the step bound of the last search, if every search has one. -/
def bound : Nesting → Option Nat
  | search maxSteps => (Clock.mk 0 maxSteps).remaining
  | combo lead rest => lead.bound.bind fun first => rest.bound.map (first + ·)

/-- The step bound of the first search; zero stands for no bound. -/
def firstBound : Nesting → Nat
  | search maxSteps => maxSteps
  | combo lead _ => lead.firstBound

end Nesting

namespace Strategy

/-- The number of decisions until the step bound of the last part, if every part has one. -/
def left : Strategy γ → Option Nat
  | combo lead rest => lead.left.bind fun first => rest.left.map (first + ·)
  | liveness inner => inner.left
  | s => s.clock.remaining

/-- The depth-first search with which a strategy begins its walks. -/
def first? : Strategy γ → Option DepthFirst
  | depthFirst s => some s
  | combo lead _ => lead.first?
  | _ => none

/-- A strategy that runs the searches of a nesting, each of which may be anywhere in its part of a
walk. -/
inductive Runs : Nesting → Strategy γ → Prop where
  | search {s : DepthFirst} {maxSteps : Nat} (hmax : s.maxSteps = maxSteps)
      (hrange : s.odometer.InRange) : Runs (.search maxSteps) (.depthFirst s)
  | combo {lead rest : Nesting} {now later : Strategy γ} (hlead : Runs lead now)
      (hrest : Runs rest later) (hwaits : now.atBound = false → later.steps = 0) :
      Runs (.combo lead rest) (.combo now later)

variable {n : Nesting} {s : Strategy γ}

variable (γ) in
/-- The strategy of a nesting runs its searches, none of which has taken a step. -/
theorem runs_strategy (n : Nesting) :
    Runs n (n.strategy γ) ∧ (n.strategy γ).left = n.bound ∧ (n.strategy γ).steps = 0 ∧
      (n.strategy γ).first? = some { maxSteps := n.firstBound } := by
  induction n with
  | search maxSteps => exact ⟨.search rfl Odometer.inRange_empty, rfl, rfl, rfl⟩
  | combo lead rest ihLead ihRest =>
    obtain ⟨hlead, hleadLeft, hleadSteps, hfirst⟩ := ihLead
    obtain ⟨hrest, hrestLeft, hrestSteps, -⟩ := ihRest
    refine ⟨.combo hlead hrest fun _ => hrestSteps, ?_, ?_, hfirst⟩
    · simp only [Nesting.strategy, left, hleadLeft, hrestLeft, Nesting.bound]
    · simp only [Nesting.strategy, steps, hleadSteps, hrestSteps, ite_self]

/-- Nested searches are well-formed. -/
theorem Runs.wellFormed (h : Runs n s) : s.WellFormed := by
  induction h with
  | search _ hrange => exact hrange
  | combo _ _ hwaits ihLead ihRest => exact ⟨ihLead, ihRest, hwaits⟩

/-- The lead of a combination is at its bound before the rest is. -/
theorem Runs.lead_atBound {lead rest : Nesting} {now later : Strategy γ}
    (h : Runs (.combo lead rest) (.combo now later)) (hdone : later.atBound = true) :
    now.atBound = true := by
  cases h with
  | combo hlead hrest hwaits =>
    by_contra hnot
    have hzero := hwaits (Bool.eq_false_iff.mpr hnot)
    obtain ⟨hpos, hle, -⟩ := bound_le_steps hrest.wellFormed hdone
    omega

/-- Nested searches are at their bound when no decision is left. -/
theorem Runs.atBound_eq (h : Runs n s) : s.atBound = decide (s.left = some 0) := by
  induction h with
  | @search s _ _ _ => exact Clock.atBound_eq ⟨s.steps, s.maxSteps⟩
  | @combo lead rest now later hlead hrest hwaits ihLead ihRest =>
    have hlater : (Strategy.combo now later).atBound = later.atBound := rfl
    rw [hlater, Bool.eq_iff_iff, decide_eq_true_iff]
    constructor
    · intro hdone
      have hbehind := (Runs.combo hlead hrest hwaits).lead_atBound hdone
      rw [ihLead, decide_eq_true_iff] at hbehind
      rw [ihRest, decide_eq_true_iff] at hdone
      rw [left, hbehind, hdone]
      rfl
    · intro hleft
      obtain ⟨first, hfirst, hsum⟩ := Option.bind_eq_some_iff.mp hleft
      obtain ⟨second, hsecond, hzero⟩ := Option.map_eq_some_iff.mp hsum
      rw [ihRest, decide_eq_true_iff, hsecond]
      congr 1
      omega

/-- Nested searches at their bound have run the first search up to its bound. -/
theorem Runs.first_atBound (h : Runs n s) {first : DepthFirst} (hfirst : s.first? = some first)
    (hdone : s.atBound = true) : Explorer.atBound first = true := by
  induction h with
  | search =>
    obtain rfl := Option.some.inj hfirst
    exact hdone
  | combo hlead hrest hwaits ihLead _ =>
    exact ihLead hfirst ((Runs.combo hlead hrest hwaits).lead_atBound hdone)

end Strategy

/-- A depth-first search answers with the alternative at the position that its odometer gives. -/
theorem DepthFirst.exists_answer {s : DepthFirst} (hrange : s.odometer.InRange) {query : Query}
    (hsome : query.alternatives ≠ []) :
    ∃ index value odometer, query.alternatives[index]? = some value ∧
      s.odometer.next query.alternatives.length 0 = (index, odometer) ∧ odometer.InRange ∧
      s.answer query = (some value, { s with odometer, steps := s.steps + 1 }) := by
  obtain ⟨hlt, hkept⟩ := hrange.next (List.length_pos_of_ne_nil hsome)
  have hvalue := List.getElem?_eq_getElem hlt
  exact ⟨_, _, _, hvalue, rfl, hkept, DepthFirst.answer_eq hvalue rfl⟩

namespace Strategy

/-! ### What is followed -/

variable [RandomSource γ] {n : Nesting} {s : Strategy γ} {query : Query}

/-- A strategy explores with fresh monitors. -/
instance : Explorer (Strategy γ) where
  answer current query s := ((s.answer current query {}).1, (s.answer current query {}).2.1)
  atBound := atBound
  prepare := prepare

/-- The answer of a combination is the one of the part whose turn it is. -/
theorem explorer_answer_combo (current : Operation) (now later : Strategy γ) :
    Explorer.answer current query (combo now later) =
      if now.atBound then
        ((Explorer.answer current query later).1, combo now (Explorer.answer current query later).2)
      else ((Explorer.answer current query now).1, combo (Explorer.answer current query now).2 later) := by
  simp only [Explorer.answer, answer]
  split <;> rfl

/-- Nested searches below their bound answer a query, which takes one of the decisions left. -/
theorem Runs.answer (h : Runs n s) (hbound : s.atBound = false) (hsome : query.alternatives ≠ [])
    (current : Operation) :
    ∃ value ∈ query.alternatives, ∃ after,
      Explorer.answer current query s = (some value, after) ∧ Runs n after ∧
        after.left = s.left.map (· - 1) := by
  induction h with
  | @search s _ hmax hrange =>
    obtain ⟨index, value, odometer, hvalue, -, hkept, hanswer⟩ :=
      DepthFirst.exists_answer hrange hsome
    refine ⟨value, List.mem_of_getElem? hvalue,
      .depthFirst { s with odometer, steps := s.steps + 1 }, ?_, .search hmax hkept,
      Clock.remaining_tick ⟨s.steps, s.maxSteps⟩⟩
    simp only [Explorer.answer, Strategy.answer, hanswer]
  | @combo lead rest now later hlead hrest hwaits ihLead ihRest =>
    rw [explorer_answer_combo]
    by_cases hdone : now.atBound = true
    · obtain ⟨value, hvalue, after, hanswer, hafter, hleft⟩ := ihRest hbound
      rw [if_pos hdone, hanswer]
      refine ⟨value, hvalue, _, rfl, .combo hlead hafter fun hnot => ?_, ?_⟩
      · rw [hdone] at hnot
        cases hnot
      · rw [hlead.atBound_eq, decide_eq_true_iff] at hdone
        simp [left, hdone, hleft, Function.comp_def]
    · obtain ⟨value, hvalue, after, hanswer, hafter, hleft⟩ := ihLead (Bool.eq_false_iff.mpr hdone)
      rw [if_neg hdone, hanswer]
      refine ⟨value, hvalue, _, rfl, .combo hafter hrest fun _ => ?_, ?_⟩
      · exact hwaits (Bool.eq_false_iff.mpr hdone)
      · rw [hlead.atBound_eq, decide_eq_true_iff] at hdone
        simp only [left, hleft]
        rcases hnow : now.left with - | first
        · rfl
        · have hpos : first ≠ 0 := fun hzero => hdone (hnow.trans (congrArg some hzero))
          rcases hlater : later.left with - | second
          · rfl
          · simp only [Option.map_some, Option.bind_some]
            congr 1
            omega

/-- A walk of nested searches follows a path of the tree cut off where their decisions end. -/
theorem Runs.walk {tree : DecisionTree ε} (htree : tree.IsProper) (h : Runs n s) :
    Runs n (Explorer.walk tree s).2 ∧ ∃ indices, (tree.truncate s.left).Path indices
      (Explorer.walk tree s).1.decisions (Explorer.walk tree s).1.ending := by
  induction tree generalizing s with
  | leaf ending => exact ⟨h, [], .leaf (some ending)⟩
  | ask current query child ih =>
    obtain ⟨hsome, -, hchild⟩ := htree
    have hbound : Explorer.atBound s = decide (s.left = some 0) := h.atBound_eq
    rw [Explorer.walk, DecisionTree.truncate, hbound]
    by_cases hleft : s.left = some 0
    · simp only [hleft, decide_true, if_true]
      exact ⟨h, [], .leaf none⟩
    · obtain ⟨value, hvalue, after, hanswer, hafter, hrest⟩ :=
        h.answer (hbound.trans (decide_eq_false hleft)) hsome current
      obtain ⟨hkept, indices, hpath⟩ := ih value (hchild value hvalue) hafter
      obtain ⟨index, hindex⟩ := List.mem_iff_getElem?.mp hvalue
      rw [hrest] at hpath
      simp only [hleft, decide_false, Bool.false_eq_true, if_false, hanswer]
      exact ⟨hkept, index :: indices, .ask hindex hpath⟩

/-- The first search of nested searches is the one that answers until it is at its bound. -/
theorem Runs.answer_first (h : Runs n s) (hbound : s.atBound = false) {first : DepthFirst}
    (hfirst : s.first? = some first) (current : Operation) (query : Query) :
    (Explorer.answer current query s).2.first? =
        some (if Explorer.atBound first then first else (Explorer.answer current query first).2) ∧
      (Explorer.atBound first = false →
        (Explorer.answer current query s).1 = (Explorer.answer current query first).1) := by
  induction h with
  | @search s =>
    have hs : s = first := Option.some.inj hfirst
    have hfree : Explorer.atBound s = false := hbound
    rw [← hs, hfree]
    exact ⟨rfl, fun _ => rfl⟩
  | @combo lead rest now later hlead hrest hwaits ihLead _ =>
    rw [explorer_answer_combo]
    by_cases hdone : now.atBound = true
    · rw [if_pos hdone, hlead.first_atBound hfirst hdone]
      exact ⟨hfirst, fun hfree => by cases hfree⟩
    · rw [if_neg hdone]
      exact ihLead (Bool.eq_false_iff.mpr hdone) hfirst

/-- A walk of nested searches begins with a walk of the first search. -/
theorem Runs.walk_first {tree : DecisionTree ε} (htree : tree.IsProper) (h : Runs n s)
    {first : DepthFirst} (hfirst : s.first? = some first) :
    (Explorer.walk tree first).1.decisions <+: (Explorer.walk tree s).1.decisions ∧
      (Explorer.walk tree s).2.first? = some (Explorer.walk tree first).2 := by
  induction tree generalizing s first with
  | leaf ending => exact ⟨List.prefix_refl _, hfirst⟩
  | ask current query child ih =>
    obtain ⟨hsome, -, hchild⟩ := htree
    rw [Explorer.walk, Explorer.walk]
    cases hbound : Explorer.atBound s with
    | true =>
      rw [h.first_atBound hfirst hbound]
      exact ⟨List.nil_prefix, hfirst⟩
    | false =>
      obtain ⟨value, hvalue, after, hanswer, hafter, -⟩ := h.answer hbound hsome current
      obtain ⟨hkept, hsame⟩ := h.answer_first hbound hfirst current query
      rw [hanswer] at hkept hsame ⊢
      obtain ⟨hbegins, hgoes⟩ := ih value (hchild value hvalue) hafter hkept
      cases hfirstBound : Explorer.atBound first with
      | true =>
        -- The first search has ended its walk here, and stays as it is below.
        rw [hfirstBound, if_pos rfl] at hgoes
        refine ⟨List.nil_prefix, hgoes.trans ?_⟩
        cases child value with
        | leaf => rfl
        | ask => simp [Explorer.walk, hfirstBound]
      | false =>
        rw [hfirstBound] at hbegins hgoes
        generalize Explorer.answer current query first = answered at hbegins hgoes hsame
        obtain ⟨other, later⟩ := answered
        obtain rfl : some value = other := hsame hfirstBound
        exact ⟨(List.prefix_cons_inj _).mpr hbegins, hgoes⟩

/-- Nested searches prepare for another walk, and then they begin with the first search prepared; they
go on as long as it does. -/
theorem Runs.prepare (h : Runs n s) :
    Runs n s.prepare.2 ∧ s.prepare.2.steps = 0 ∧ ∀ first, s.first? = some first →
      s.prepare.2.first? = some first.prepare.2 ∧
        (first.prepare.1 = true → s.prepare.1 = true) := by
  induction h with
  | @search s _ hmax hrange =>
    refine ⟨.search hmax (DepthFirst.prepare_spec hrange).1, rfl, fun first hfirst => ?_⟩
    have hs : s = first := Option.some.inj hfirst
    rw [← hs]
    exact ⟨rfl, id⟩
  | combo hlead hrest hwaits ihLead ihRest =>
    obtain ⟨hnow, hnowSteps, hfirst⟩ := ihLead
    obtain ⟨hlater, hlaterSteps, -⟩ := ihRest
    refine ⟨.combo hnow hlater fun _ => hlaterSteps, ?_, fun first hlast => ?_⟩
    · simp only [Strategy.prepare, steps, hnowSteps, hlaterSteps, ite_self]
    · obtain ⟨hprepared, hmore⟩ := hfirst first hlast
      refine ⟨hprepared, fun hleft => ?_⟩
      simp only [Strategy.prepare, hmore hleft, Bool.true_or]

/-! ### What is not followed twice -/

/-- Two strategies are made up of the same searches, which have taken as many steps, and what they
have recorded is related. -/
inductive Alike (R : Odometer → Odometer → Prop) : Strategy γ → Strategy γ → Prop where
  | search {s other : DepthFirst} (hodometer : R s.odometer other.odometer)
      (hsteps : s.steps = other.steps) (hmax : s.maxSteps = other.maxSteps) :
      Alike R (.depthFirst s) (.depthFirst other)
  | combo {now now' later later' : Strategy γ} (hlead : Alike R now now')
      (hrest : Alike R later later') : Alike R (.combo now later) (.combo now' later')

/-- The searches have come the same way; what they have recorded ahead may differ. -/
abbrev Abreast (s other : Strategy γ) : Prop :=
  Alike (fun o p => o.passed = p.passed) s other

variable {R : Odometer → Odometer → Prop} {other third : Strategy γ}

omit [RandomSource γ] in
/-- Strategies that are alike are at their bounds together, and as many decisions are left. -/
theorem Alike.left_eq (h : Alike R s other) : s.atBound = other.atBound ∧ s.left = other.left := by
  induction h with
  | search _ hsteps hmax => simp only [atBound, left, clock, steps, maxSteps, hsteps, hmax, and_self]
  | combo _ _ ihLead ihRest => exact ⟨ihRest.1, by rw [left, left, ihLead.2, ihRest.2]⟩

omit [RandomSource γ] in
/-- Searches that have the same recorded have come the same way. -/
theorem Alike.abreast (h : Alike Eq s other) : Abreast s other := by
  induction h with
  | search hodometer hsteps hmax => exact .search (congrArg Odometer.passed hodometer) hsteps hmax
  | combo _ _ ihLead ihRest => exact .combo ihLead ihRest

omit [RandomSource γ] in
/-- Searches that have come the same way as others have come the same way as each other. -/
theorem Abreast.trans (h : Abreast s other) (h' : Abreast s third) : Abreast other third := by
  induction h generalizing third with
  | search hodometer hsteps hmax =>
    cases h' with
    | search hodometer' hsteps' hmax' =>
      exact .search (hodometer.symm.trans hodometer') (hsteps.symm.trans hsteps')
        (hmax.symm.trans hmax')
  | combo _ _ ihLead ihRest =>
    cases h' with
    | combo hlead hrest => exact .combo (ihLead hlead) (ihRest hrest)

/-- Searches that have the same recorded answer alike. -/
theorem Alike.answer (h : Alike Eq s other) (current : Operation) (query : Query) :
    (Explorer.answer current query s).1 = (Explorer.answer current query other).1 ∧
      Alike Eq (Explorer.answer current query s).2 (Explorer.answer current query other).2 := by
  induction h with
  | @search s other hodometer hsteps hmax =>
    have hs : s = { other with explored := s.explored } := by rw [← hodometer, ← hsteps, ← hmax]
    rw [hs]
    simp only [Explorer.answer, Strategy.answer]
    cases query with
    | operation ops =>
      simp only [DepthFirst.answer]
      split
      · exact ⟨rfl, .search rfl rfl rfl⟩
      · exact ⟨rfl, .search rfl rfl rfl⟩
    | boolean bound => exact ⟨rfl, .search rfl rfl rfl⟩
    | integer bound => exact ⟨rfl, .search rfl rfl rfl⟩
  | @combo now now' later later' hlead hrest ihLead ihRest =>
    rw [explorer_answer_combo, explorer_answer_combo, hlead.left_eq.1]
    split
    · exact ⟨ihRest.1, .combo hlead ihRest.2⟩
    · exact ⟨ihLead.1, .combo ihLead.2 hrest⟩

/-- Searches that come the same way and answer the same go on the same way. -/
theorem Abreast.answer (h : Abreast s other) (hs : Runs n s) (hother : Runs n other)
    (hsome : query.alternatives ≠ []) (hnodup : query.alternatives.Nodup) {current : Operation}
    (heq : (Explorer.answer current query s).1 = (Explorer.answer current query other).1) :
    Abreast (Explorer.answer current query s).2 (Explorer.answer current query other).2 := by
  induction h generalizing n with
  | @search s other hodometer hsteps hmax =>
    cases hs with
    | search _ hrange =>
      cases hother with
      | search _ hrange' =>
        obtain ⟨index, value, odometer, hvalue, hnext, -, hanswer⟩ :=
          DepthFirst.exists_answer hrange hsome
        obtain ⟨index', value', odometer', hvalue', hnext', -, hanswer'⟩ :=
          DepthFirst.exists_answer hrange' hsome
        simp only [Explorer.answer, Strategy.answer, hanswer, hanswer'] at heq ⊢
        obtain rfl := Option.some.inj heq
        obtain ⟨hlt, -⟩ := List.getElem?_eq_some_iff.mp hvalue
        have hindex : index = index' :=
          (List.getElem?_inj hlt hnodup).mp (hvalue.trans hvalue'.symm)
        refine .search ?_ (congrArg (· + 1) hsteps) hmax
        have hpassed (o : Odometer) :
            (o.next query.alternatives.length 0).2.passed =
              ⟨query.alternatives.length, (o.next query.alternatives.length 0).1⟩ :: o.passed := by
          rw [Odometer.next]
          split <;> rfl
        have hleft := hpassed s.odometer
        have hright := hpassed other.odometer
        rw [hnext] at hleft
        rw [hnext'] at hright
        exact hleft.trans (by rw [hright, hodometer, hindex])
  | @combo now now' later later' hlead hrest ihLead ihRest =>
    cases hs with
    | combo hnow hlater _ =>
      cases hother with
      | combo hnow' hlater' _ =>
        rw [explorer_answer_combo, explorer_answer_combo, hlead.left_eq.1] at heq ⊢
        by_cases hdone : now'.atBound = true
        · simp only [hdone, if_true] at heq ⊢
          exact .combo hlead (ihRest hlater hlater' heq)
        · simp only [hdone, Bool.false_eq_true, if_false] at heq ⊢
          exact .combo (ihLead hnow hnow' heq) hrest

/-- Searches that have the same recorded take the same walk. -/
theorem Alike.walk (h : Alike Eq s other) (tree : DecisionTree ε) :
    (Explorer.walk tree s).1 = (Explorer.walk tree other).1 ∧
      Alike Eq (Explorer.walk tree s).2 (Explorer.walk tree other).2 := by
  induction tree generalizing s other with
  | leaf ending => exact ⟨rfl, h⟩
  | ask current query child ih =>
    have hbound : Explorer.atBound s = Explorer.atBound other := h.left_eq.1
    obtain ⟨hvalue, hafter⟩ := h.answer current query
    rw [Explorer.walk, Explorer.walk, hbound]
    split
    · exact ⟨rfl, h⟩
    · generalize Explorer.answer current query s = answered at hvalue hafter
      generalize Explorer.answer current query other = answered' at hvalue hafter
      obtain ⟨value, after⟩ := answered
      obtain ⟨value', after'⟩ := answered'
      obtain rfl : value = value' := hvalue
      cases value with
      | none => exact ⟨rfl, hafter⟩
      | some value =>
        have hafter' : Alike Eq after after' := hafter
        obtain ⟨hsame, hkept⟩ := ih value hafter'
        simp only [hsame]
        exact ⟨trivial, hkept⟩

/-- Searches that begin abreast and take the same decisions end abreast. -/
theorem Abreast.walk {tree : DecisionTree ε} (htree : tree.IsProper) (h : Abreast s other)
    (hs : Runs n s) (hother : Runs n other)
    (heq : (Explorer.walk tree s).1.decisions = (Explorer.walk tree other).1.decisions) :
    Abreast (Explorer.walk tree s).2 (Explorer.walk tree other).2 := by
  induction tree generalizing s other with
  | leaf ending => exact h
  | ask current query child ih =>
    obtain ⟨hsome, hnodup, hchild⟩ := htree
    have hbound : Explorer.atBound s = Explorer.atBound other := h.left_eq.1
    rw [Explorer.walk, Explorer.walk, hbound] at heq ⊢
    cases hfree : Explorer.atBound other with
    | true => exact h
    | false =>
      obtain ⟨value, hvalue, after, hanswer, hkept, -⟩ :=
        hs.answer (hbound.trans hfree) hsome current
      obtain ⟨value', -, after', hanswer', hkept', -⟩ := hother.answer hfree hsome current
      simp only [hfree, Bool.false_eq_true, if_false, hanswer, hanswer'] at heq ⊢
      obtain ⟨hdecision, hrest⟩ := List.cons.inj heq
      obtain rfl := DecisionTree.decision_injective query hdecision
      have hafter := h.answer hs hother hsome hnodup (by rw [hanswer, hanswer'])
      rw [hanswer, hanswer'] at hafter
      exact ih value (hchild value hvalue) hafter hkept hkept' hrest

/-- Searches that end their walks abreast go on or not together, and have the same recorded then. -/
theorem Abreast.prepare (h : Abreast s other) :
    s.prepare.1 = other.prepare.1 ∧ Alike Eq s.prepare.2 other.prepare.2 := by
  induction h with
  | @search s other hodometer hsteps hmax =>
    have htruncate : s.odometer.truncate = other.odometer.truncate :=
      congrArg (Odometer.mk · []) hodometer
    simp only [Strategy.prepare, DepthFirst.prepare, htruncate]
    exact ⟨trivial, .search rfl rfl hmax⟩
  | combo _ _ ihLead ihRest =>
    simp only [Strategy.prepare, ihLead.1, ihRest.1]
    exact ⟨trivial, .combo ihLead.2 ihRest.2⟩

/-- Searches that have the same recorded take as many walks until nothing is left. -/
theorem Alike.length_eq {tree : DecisionTree ε} (h : Alike Eq s other)
    {rounds others : List (Round (Strategy γ) ε)} {final last : Strategy γ}
    (hrounds : Explorer.Rounds (Explorer.Walks tree) s rounds (false, final))
    (hothers : Explorer.Rounds (Explorer.Walks tree) other others (false, last)) :
    rounds.length = others.length := by
  generalize hresult : (false, final) = result at hrounds
  generalize hresult' : (false, last) = result' at hothers
  have hsame {s other after after' : Strategy γ} {schedule schedule' : Schedule ε}
      (h : Alike Eq s other) (hwalk : Explorer.Walks tree s schedule after)
      (hwalk' : Explorer.Walks tree other schedule' after') :
      (Explorer.prepare after).1 = (Explorer.prepare after').1 ∧
        Alike Eq (Explorer.prepare after).2 (Explorer.prepare after').2 := by
    have hafter := (h.walk tree).2.abreast.prepare
    rw [hwalk, hwalk'] at hafter
    exact hafter
  induction hrounds generalizing other others with
  | last hwalk hlast =>
    cases hothers with
    | last => rfl
    | more hwalk' hmore =>
      have hflag := (hsame h hwalk hwalk').1
      rw [hlast, hmore, ← hresult] at hflag
      cases hflag
  | more hwalk hmore _ ih =>
    cases hothers with
    | last hwalk' hlast =>
      have hflag := (hsame h hwalk hwalk').1
      rw [hmore, hlast, ← hresult'] at hflag
      cases hflag
    | more hwalk' hmore' hrest' =>
      have hnext := (hsame h hwalk hwalk').2
      rw [hmore, hmore'] at hnext
      exact congrArg (· + 1) (ih hnext hresult hrest')

/-- Nested searches at the beginning of a walk. -/
structure Begins (n : Nesting) (s : Strategy γ) : Prop where
  runs : Runs n s
  abreast : Abreast (n.strategy γ) s

omit [RandomSource γ] in
/-- Nested searches begin at their beginning. -/
theorem begins_strategy (n : Nesting) : Begins n (n.strategy γ) := by
  refine ⟨(runs_strategy γ n).1, ?_⟩
  induction n with
  | search => exact .search rfl rfl rfl
  | combo _ _ ihLead ihRest => exact .combo ihLead ihRest

/-- Nested searches that have prepared begin a walk. -/
theorem Runs.begins (h : Runs n s) : Begins n s.prepare.2 := by
  refine ⟨h.prepare.1, ?_⟩
  induction h with
  | search hmax => exact .search rfl rfl hmax.symm
  | combo _ _ _ ihLead ihRest => exact .combo ihLead ihRest

/-- Nested searches that begin a walk begin every later one. -/
theorem Begins.before {tree : DecisionTree ε} (htree : tree.IsProper) (h : Begins n s)
    {rounds : List (Round (Strategy γ) ε)} {result : Bool × Strategy γ}
    (hrounds : Explorer.Rounds (Explorer.Walks tree) s rounds result) :
    ∀ round ∈ rounds, Begins n round.before := by
  refine hrounds.forall_before (fun {s schedule after} hs hwalk => ?_) h
  have hkept := (hs.runs.walk htree).1
  rw [hwalk] at hkept
  exact hkept.begins

/-- No sequence of decisions is taken twice before nothing is left. -/
theorem Begins.nodup {tree : DecisionTree ε} (htree : tree.IsProper) (h : Begins n s)
    {rounds : List (Round (Strategy γ) ε)} {final : Strategy γ}
    (hrounds : Explorer.Rounds (Explorer.Walks tree) s rounds (false, final)) :
    (rounds.map fun round => round.schedule.decisions).Nodup := by
  generalize hresult : (false, final) = result at hrounds
  induction hrounds with
  | last => exact List.nodup_singleton _
  | @more s after next schedule rounds result hwalk hmore hrest ih =>
    subst hresult
    have hnext : Begins n next := by
      have hkept := (h.runs.walk htree).1
      rw [hwalk] at hkept
      have hbegins := hkept.begins
      rwa [show after.prepare = (true, next) from hmore] at hbegins
    refine List.nodup_cons.mpr ⟨fun hmem => ?_, ih hnext rfl⟩
    obtain ⟨round, hround, heq⟩ := List.mem_map.mp hmem
    obtain ⟨htaken, hends⟩ := hrest.of_mem hround
    have hbefore := hnext.before htree hrest round hround
    -- The round that takes the same decisions ends abreast with this one, so as many follow it.
    have hafter := (h.abreast.trans hbefore.abreast).walk htree h.runs hbefore.runs (by
      rw [hwalk, htaken]
      exact heq.symm)
    rw [hwalk, htaken] at hafter
    obtain ⟨hflag, hlater⟩ := hafter.prepare
    rw [show after.prepare = (true, next) from hmore] at hflag hlater
    rcases hends with hlast | ⟨later, others, hleft, hothers, hlt⟩
    · rw [show round.after.prepare = (false, final) from hlast] at hflag
      cases hflag
    · rw [show round.after.prepare = (true, later) from hleft] at hlater
      exact absurd (hlater.length_eq hrest hothers) (Nat.ne_of_gt hlt)

/-- The rounds of nested searches begin with the walks of the first search, as far as that has
any. -/
theorem Begins.exists_prefix {tree : DecisionTree ε} (htree : tree.IsProper) (h : Runs n s)
    {first : DepthFirst} (hfirst : s.first? = some first)
    {rounds : List (Round (Strategy γ) ε)} {final : Strategy γ}
    (hrounds : Explorer.Rounds (Explorer.Walks tree) s rounds (false, final))
    {firsts : List (Round DepthFirst ε)} {result : Bool × DepthFirst}
    (hfirsts : Explorer.Rounds (Explorer.Walks tree) first firsts result) :
    ∀ walked ∈ firsts, ∃ round ∈ rounds,
      walked.schedule.decisions <+: round.schedule.decisions := by
  have hstep {s after : Strategy γ} {first later : DepthFirst} {schedule walked : Schedule ε}
      (h : Runs n s) (hfirst : s.first? = some first) (hwalk : Explorer.Walks tree s schedule after)
      (hwalked : Explorer.Walks tree first walked later) :
      walked.decisions <+: schedule.decisions ∧ Runs n after ∧ after.first? = some later := by
    have hkept := (h.walk htree).1
    have hbegins := h.walk_first htree hfirst
    rw [hwalk] at hkept hbegins
    rw [hwalked] at hbegins
    exact ⟨hbegins.1, hkept, hbegins.2⟩
  induction hfirsts generalizing s rounds with
  | last hwalked =>
    refine List.forall_mem_singleton.mpr ?_
    cases hrounds with
    | last hwalk => exact ⟨_, List.mem_cons_self, (hstep h hfirst hwalk hwalked).1⟩
    | more hwalk => exact ⟨_, List.mem_cons_self, (hstep h hfirst hwalk hwalked).1⟩
  | more hwalked hleft _ ih =>
    cases hrounds with
    | last hwalk hlast =>
      obtain ⟨-, hkept, hlater⟩ := hstep h hfirst hwalk hwalked
      have hmore := (hkept.prepare.2.2 _ hlater).2 (congrArg Prod.fst hleft)
      cases hmore.symm.trans (congrArg Prod.fst hlast)
    | @more _ after next _ _ _ hwalk hmore hrest =>
      obtain ⟨hbegins, hkept, hlater⟩ := hstep h hfirst hwalk hwalked
      obtain ⟨hruns, -, hprepared⟩ := hkept.prepare
      have hnext := (hprepared _ hlater).1
      rw [show after.prepare = (true, next) from hmore] at hruns hnext
      rw [show DepthFirst.prepare _ = (true, _) from hleft] at hnext
      refine List.forall_mem_cons.mpr ⟨⟨_, List.mem_cons_self, hbegins⟩, fun walked hmem => ?_⟩
      obtain ⟨round, hround, hprefix⟩ := ih hruns hnext hrest walked hmem
      exact ⟨round, List.mem_cons_of_mem _ hround, hprefix⟩

end Strategy

namespace DecisionTree

/-- The schedules of a tree that is cut off: the decisions and the ending of every walk. -/
def schedules (tree : DecisionTree (Option ε)) : List (Schedule ε) :=
  tree.walks.map fun walk => ⟨walk.decisions, walk.ending⟩

/-- There are as many schedules as walks. -/
theorem length_schedules (tree : DecisionTree (Option ε)) : tree.schedules.length = tree.walks.length :=
  List.length_map _

/-- The schedules of a tree are its paths. -/
theorem mem_schedules_iff {tree : DecisionTree (Option ε)} {schedule : Schedule ε} :
    schedule ∈ tree.schedules ↔ ∃ indices, tree.Path indices schedule.decisions schedule.ending := by
  rw [schedules, List.mem_map]
  constructor
  · rintro ⟨walk, hwalk, rfl⟩
    exact ⟨_, mem_walks_iff.mp ⟨walk, hwalk, rfl, rfl, rfl⟩⟩
  · rintro ⟨indices, hpath⟩
    obtain ⟨walk, hwalk, -, hdecisions, hending⟩ := mem_walks_iff.mpr hpath
    exact ⟨walk, hwalk, by rw [hdecisions, hending]⟩

/-- No schedule of a proper tree occurs twice. -/
theorem nodup_schedules {tree : DecisionTree (Option ε)} (h : tree.IsProper) : tree.schedules.Nodup :=
  List.pairwise_map.mpr
    ((pairwise_ne_walks h).imp fun hne heq => hne (congrArg Schedule.decisions heq))

end DecisionTree

namespace Nesting

variable [RandomSource γ]

variable (γ) in
/-- When nested searches report that nothing is left, they have followed every path of the tree cut
off at their step bound. -/
def Covers (n : Nesting) (tree : DecisionTree ε) : Prop :=
  ∀ fuel schedules final, Explorer.explore tree fuel (n.strategy γ) = some (schedules, final) →
    ∀ indices decisions ending, (tree.truncate n.bound).Path indices decisions ending →
      ⟨decisions, ending⟩ ∈ schedules

section Rounds

variable {tree : DecisionTree ε} {n : Nesting} {rounds : List (Round (Strategy γ) ε)}
  {final : Strategy γ}

/-- The rounds of nested searches follow paths of the tree cut off at their step bound. -/
theorem path_of_mem_rounds (htree : tree.IsProper)
    (hrounds : Explorer.Rounds (Explorer.Walks tree) (n.strategy γ) rounds (false, final))
    {round : Round (Strategy γ) ε} (hround : round ∈ rounds) : ∃ indices,
      (tree.truncate n.bound).Path indices round.schedule.decisions round.schedule.ending := by
  obtain ⟨-, hleft, -⟩ := Strategy.runs_strategy γ n
  have hbefore := (Strategy.begins_strategy (γ := γ) n).before htree hrounds round hround
  have hpath := (hbefore.runs.walk htree).2
  rw [(hrounds.of_mem hround).1, ← hbefore.abreast.left_eq.2, hleft] at hpath
  exact hpath

/-- The rounds of nested searches begin with all that the first search can see. -/
theorem exists_round_of_path (htree : tree.IsProper)
    (hrounds : Explorer.Rounds (Explorer.Walks tree) (n.strategy γ) rounds (false, final))
    {indices : List Nat} {decisions : List Decision} {ending : Option ε}
    (hpath : (tree.bounded n.firstBound).Path indices decisions ending) :
    ∃ round ∈ rounds, decisions <+: round.schedule.decisions := by
  obtain ⟨hruns, -, -, hfirst⟩ := Strategy.runs_strategy γ n
  obtain ⟨walk, hwalk, -, rfl, -⟩ := DecisionTree.mem_walks_iff.mpr hpath
  have hexplored := DepthFirst.explore_eq_walks htree n.firstBound 0
    (tree.bounded n.firstBound).walks.length
  rw [if_pos le_rfl] at hexplored
  obtain ⟨firsts, hfirsts, hschedules⟩ := Explorer.exists_rounds_of_explore hexplored
  have hmem : (⟨walk.decisions, walk.ending⟩ : Schedule ε) ∈ firsts.map Round.schedule :=
    hschedules ▸ List.mem_map_of_mem hwalk
  obtain ⟨walked, hwalked, heq⟩ := List.mem_map.mp hmem
  obtain ⟨round, hround, hprefix⟩ :=
    Strategy.Begins.exists_prefix htree hruns hfirst hrounds hfirsts walked hwalked
  rw [heq] at hprefix
  exact ⟨round, hround, hprefix⟩

/-- Nested searches have followed every path if and only if their rounds have. -/
theorem covers_iff
    (hrounds : Explorer.Rounds (Explorer.Walks tree) (n.strategy γ) rounds (false, final)) :
    n.Covers γ tree ↔ (tree.truncate n.bound).schedules ⊆ rounds.map Round.schedule := by
  constructor
  · intro hcovers schedule hschedule
    obtain ⟨indices, hpath⟩ := DecisionTree.mem_schedules_iff.mp hschedule
    have hexplored := Explorer.explore_of_rounds hrounds rounds.length
    rw [if_pos le_rfl] at hexplored
    exact hcovers _ _ _ hexplored _ _ _ hpath
  · intro hall fuel schedules last hother indices decisions ending hpath
    rw [Explorer.explore_of_rounds hrounds] at hother
    split at hother
    · obtain ⟨rfl, rfl⟩ := Prod.mk.inj (Option.some.inj hother)
      exact hall (DecisionTree.mem_schedules_iff.mpr ⟨indices, hpath⟩)
    · cases hother

end Rounds

/-- A part of a list without duplicates is all of it if it is as long. -/
theorem subset_iff_length_eq {α : Type} {part whole : List α} (hpart : part.Nodup)
    (hwhole : whole.Nodup) (h : part ⊆ whole) : whole ⊆ part ↔ part.length = whole.length := by
  have hsubperm := List.Nodup.subperm hpart h
  constructor
  · intro hall
    exact Nat.le_antisymm hsubperm.length_le (List.Nodup.subperm hwhole hall).length_le
  · intro hlength
    exact (hsubperm.perm_of_length_le hlength.ge).symm.subset

/-- Nested searches that report that nothing is left have followed paths of the tree cut off at their
step bound, none of them twice, and in the beginnings of these all that the first search can see. So
they have followed every path if and only if there were as many walks as there are paths. -/
theorem explore_nesting {tree : DecisionTree ε} (htree : tree.IsProper) (n : Nesting) {fuel : Nat}
    {schedules : List (Schedule ε)} {final : Strategy γ}
    (h : Explorer.explore tree fuel (n.strategy γ) = some (schedules, final)) :
    (∀ schedule ∈ schedules, ∃ indices,
      (tree.truncate n.bound).Path indices schedule.decisions schedule.ending) ∧
    (schedules.map Schedule.decisions).Nodup ∧
    (∀ indices decisions ending, (tree.bounded n.firstBound).Path indices decisions ending →
      ∃ schedule ∈ schedules, decisions <+: schedule.decisions) ∧
    (n.Covers γ tree ↔ schedules.length = (tree.truncate n.bound).walks.length) := by
  obtain ⟨rounds, hrounds, rfl⟩ := Explorer.exists_rounds_of_explore h
  have hnodup : ((rounds.map Round.schedule).map Schedule.decisions).Nodup := by
    rw [List.map_map]
    exact (Strategy.begins_strategy n).nodup htree hrounds
  have hpaths : ∀ schedule ∈ rounds.map Round.schedule, ∃ indices,
      (tree.truncate n.bound).Path indices schedule.decisions schedule.ending :=
    List.forall_mem_map.mpr fun round hround => path_of_mem_rounds htree hrounds hround
  refine ⟨hpaths, hnodup, fun indices decisions ending hpath => ?_, ?_⟩
  · obtain ⟨round, hround, hprefix⟩ := exists_round_of_path htree hrounds hpath
    exact ⟨round.schedule, List.mem_map_of_mem hround, hprefix⟩
  · have hsubset : rounds.map Round.schedule ⊆ (tree.truncate n.bound).schedules :=
      fun schedule hschedule => DecisionTree.mem_schedules_iff.mpr (hpaths schedule hschedule)
    rw [covers_iff hrounds, ← DecisionTree.length_schedules,
      subset_iff_length_eq hnodup.of_map (DecisionTree.nodup_schedules (htree.truncate _)) hsubset]

/-- Two coins. -/
def twoCoins : DecisionTree Unit :=
  .ask default (.boolean 2) fun _ => .ask default (.boolean 2) fun _ => .leaf ()

/-- Every coin has two sides. -/
theorem isProper_twoCoins : twoCoins.IsProper :=
  ⟨by decide, by decide, fun _ _ => ⟨by decide, by decide, fun _ _ => trivial⟩⟩

/-- One search for each of two coins. -/
def oneEach : Nesting :=
  .combo (.search 1) (.search 1)

/-- Two iterations of the nested searches, and then nothing is left. -/
theorem explore_nesting_oneEach : twoCoins.IsProper ∧
    ∃ (schedules : List (Schedule Unit)) (final : Strategy ChaChaSource),
      Explorer.explore twoCoins 2 (oneEach.strategy ChaChaSource) = some (schedules, final) ∧
      (∀ schedule ∈ schedules, ∃ indices,
        (twoCoins.truncate oneEach.bound).Path indices schedule.decisions schedule.ending) ∧
      (schedules.map Schedule.decisions).Nodup ∧
      (∀ indices decisions ending, (twoCoins.bounded oneEach.firstBound).Path indices decisions
        ending → ∃ schedule ∈ schedules, decisions <+: schedule.decisions) ∧
      (oneEach.Covers ChaChaSource twoCoins ↔
        schedules.length = (twoCoins.truncate oneEach.bound).walks.length) := by
  have hexplore : Explorer.explore twoCoins 2 (oneEach.strategy ChaChaSource) = some (_, _) := rfl
  exact ⟨isProper_twoCoins, _, _, hexplore, explore_nesting isProper_twoCoins oneEach hexplore⟩

/-- One search for each of two coins reports that nothing is left after both coins have shown their
two sides together. That the sides differ it has not seen. -/
theorem not_covers_oneEach : twoCoins.IsProper ∧ ¬ oneEach.Covers ChaChaSource twoCoins := by
  refine ⟨isProper_twoCoins, fun hcovers => ?_⟩
  have hpath : (twoCoins.truncate oneEach.bound).Path [0, 1] [.boolean true, .boolean false]
      (some ()) := .ask rfl (.ask rfl (.leaf _))
  have hmem := hcovers 2 _ _ rfl _ _ _ hpath
  revert hmem
  decide

end Nesting

end ScheduleExplorer
