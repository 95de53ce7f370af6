import ScheduleExplorer.Proofs.Exploration.PartialOrder
import Mathlib.Data.Set.Finite.Lattice

/-!
# Behaviours of programs

What a deterministic program asks next depends on the decisions so far. A behaviour says so for every
sequence of decisions, so it may go on forever, and only the part within a step bound need be finite.

`Behaviour.cut` is the part of the decision tree that a search with a step bound sees. A walk through
the behaviour is a walk through that part.
-/

namespace ScheduleExplorer

/-- What a program does next: it ends, or its running operation asks. -/
inductive Event (ε : Type) where
  | ended (ending : ε)
  | asked (current : Operation) (query : Query)

/-- A program that is deterministic given the decisions. It asks only what can be answered. -/
structure Behaviour (ε : Type) where
  next : List Decision → Event ε
  isAskedBy : ∀ {past current query}, next past = .asked current query → query.IsAskedBy current
  alternatives_ne_nil : ∀ {past current query}, next past = .asked current query →
    query.alternatives ≠ []

namespace Behaviour

variable {ε σ γ : Type} {b : Behaviour ε} {past : List Decision}

/-- The decisions that the program can come to. -/
inductive Reaches (b : Behaviour ε) : List Decision → Prop where
  | start : Reaches b []
  | answer {past : List Decision} {current : Operation} {query : Query} {value : query.Answer}
      (h : Reaches b past) (hnext : b.next past = .asked current query)
      (hvalue : value ∈ query.alternatives) : Reaches b (past ++ [query.decision value])

/-- The decision tree cut off at a step bound is finite; zero stands for no bound. -/
def IsFinite (b : Behaviour ε) (maxSteps : Nat) : Prop :=
  {past | b.Reaches past ∧ (maxSteps = 0 ∨ past.length ≤ maxSteps)}.Finite

/-! ### Walks -/

variable [Explorer σ]

/-- One walk after decisions, which ends with the program or as soon as the step bound is reached. -/
inductive Walks (b : Behaviour ε) : List Decision → σ → Schedule ε → σ → Prop where
  | ended {past : List Decision} {s : σ} {ending : ε} (hnext : b.next past = .ended ending) :
      Walks b past s ⟨[], some ending⟩ s
  | stopped {past : List Decision} {s : σ} {current : Operation} {query : Query}
      (hnext : b.next past = .asked current query) (hbound : Explorer.atBound s = true) :
      Walks b past s ⟨[], none⟩ s
  | refused {past : List Decision} {s after : σ} {current : Operation} {query : Query}
      (hnext : b.next past = .asked current query) (hfree : Explorer.atBound s = false)
      (hanswer : Explorer.answer current query s = (none, after)) : Walks b past s ⟨[], none⟩ after
  | answered {past : List Decision} {s between after : σ} {current : Operation} {query : Query}
      {value : query.Answer} {schedule : Schedule ε} (hnext : b.next past = .asked current query)
      (hfree : Explorer.atBound s = false)
      (hanswer : Explorer.answer current query s = (some value, between))
      (hrest : Walks b (past ++ [query.decision value]) between schedule after) :
      Walks b past s (schedule.cons (query.decision value)) after

/-- The states in which an explorer comes to decisions within a walk. -/
inductive Comes (b : Behaviour ε) : List Decision → σ → List Decision → σ → Prop where
  | here (past : List Decision) (s : σ) : Comes b past s past s
  | answered {past later : List Decision} {s between after : σ} {current : Operation} {query : Query}
      {value : query.Answer} (hnext : b.next past = .asked current query)
      (hfree : Explorer.atBound s = false)
      (hanswer : Explorer.answer current query s = (some value, between))
      (hrest : Comes b (past ++ [query.decision value]) between later after) :
      Comes b past s later after

/-- There is only one walk. -/
theorem Walks.unique {s after other : σ} {schedule schedule' : Schedule ε}
    (h : b.Walks past s schedule after) (h' : b.Walks past s schedule' other) :
    schedule = schedule' ∧ after = other := by
  induction h generalizing schedule' with
  | ended hnext =>
    cases h' with
    | ended hnext' =>
      obtain rfl := Event.ended.inj (hnext.symm.trans hnext')
      exact ⟨rfl, rfl⟩
    | stopped hnext' => cases hnext.symm.trans hnext'
    | refused hnext' => cases hnext.symm.trans hnext'
    | answered hnext' => cases hnext.symm.trans hnext'
  | stopped hnext hbound =>
    cases h' with
    | ended hnext' => cases hnext.symm.trans hnext'
    | stopped => exact ⟨rfl, rfl⟩
    | refused _ hfree => cases hbound.symm.trans hfree
    | answered _ hfree => cases hbound.symm.trans hfree
  | refused hnext hfree hanswer =>
    cases h' with
    | ended hnext' => cases hnext.symm.trans hnext'
    | stopped _ hbound => cases hbound.symm.trans hfree
    | refused hnext' _ hanswer' =>
      obtain ⟨rfl, rfl⟩ := Event.asked.inj (hnext.symm.trans hnext')
      exact ⟨rfl, (Prod.mk.inj (hanswer.symm.trans hanswer')).2⟩
    | answered hnext' _ hanswer' =>
      obtain ⟨rfl, rfl⟩ := Event.asked.inj (hnext.symm.trans hnext')
      cases (Prod.mk.inj (hanswer.symm.trans hanswer')).1
  | answered hnext hfree hanswer _ ih =>
    cases h' with
    | ended hnext' => cases hnext.symm.trans hnext'
    | stopped _ hbound => cases hbound.symm.trans hfree
    | refused hnext' _ hanswer' =>
      obtain ⟨rfl, rfl⟩ := Event.asked.inj (hnext.symm.trans hnext')
      cases (Prod.mk.inj (hanswer.symm.trans hanswer')).1
    | answered hnext' _ hanswer' hrest' =>
      obtain ⟨rfl, rfl⟩ := Event.asked.inj (hnext.symm.trans hnext')
      obtain ⟨hvalue, rfl⟩ := Prod.mk.inj (hanswer.symm.trans hanswer')
      obtain rfl := Option.some.inj hvalue
      obtain ⟨rfl, rfl⟩ := ih hrest'
      exact ⟨rfl, rfl⟩

/-! ### The part that a search sees -/

omit [Explorer σ] in
/-- The decision tree after decisions, cut off at a depth; a leaf without an ending stands where it is
cut. -/
def cut (b : Behaviour ε) : Nat → List Decision → DecisionTree (Option ε)
  | 0, past =>
    match b.next past with
    | .ended ending => .leaf (some ending)
    | .asked _ _ => .leaf none
  | depth + 1, past =>
    match b.next past with
    | .ended ending => .leaf (some ending)
    | .asked current query =>
      .ask current query fun value => b.cut depth (past ++ [query.decision value])

omit [Explorer σ] in
/-- Where the program ends there is a leaf. -/
theorem cut_ended {ending : ε} (hnext : b.next past = .ended ending) (depth : Nat) :
    b.cut depth past = .leaf (some ending) := by
  cases depth <;> rw [cut, hnext]

omit [Explorer σ] in
/-- Where the program asks there is a node, unless the tree is cut there. -/
theorem cut_asked {current : Operation} {query : Query} (hnext : b.next past = .asked current query)
    (depth : Nat) : b.cut (depth + 1) past =
      .ask current query fun value => b.cut depth (past ++ [query.decision value]) := by
  rw [cut, hnext]

omit [Explorer σ] in
/-- The part that is seen is a proper tree. -/
theorem isProper_cut (b : Behaviour ε) (depth : Nat) (past : List Decision) :
    (b.cut depth past).IsProper := by
  induction depth generalizing past with
  | zero =>
    rw [cut]
    split <;> trivial
  | succ depth ih =>
    rw [cut]
    split
    · trivial
    · next current query hnext =>
      exact ⟨b.alternatives_ne_nil hnext, (b.isAskedBy hnext).nodup_alternatives, fun _ _ => ih _⟩

omit [Explorer σ] in
/-- A depth to which a search with a step bound sees: the step bound, and without one a depth below
which nothing is. -/
structure IsSeenTo (b : Behaviour ε) (maxSteps depth : Nat) : Prop where
  bound : maxSteps ≠ 0 → depth = maxSteps
  length_le : maxSteps = 0 → ∀ past, b.Reaches past → past.length ≤ depth

omit [Explorer σ] in
/-- A search sees a finite tree to some depth. -/
theorem IsFinite.exists_depth {maxSteps : Nat} (h : b.IsFinite maxSteps) :
    ∃ depth, b.IsSeenTo maxSteps depth := by
  by_cases hzero : maxSteps = 0
  · obtain ⟨depth, hdepth⟩ := (h.image List.length).bddAbove
    exact ⟨depth, fun hne => absurd hzero hne, fun _ past hpast =>
      hdepth (Set.mem_image_of_mem _ ⟨hpast, .inl hzero⟩)⟩
  · exact ⟨maxSteps, fun _ => rfl, fun hnone => absurd hnone hzero⟩

/-- An explorer whose answers are counted by a clock. -/
structure KeepsTime (clock : σ → Clock) : Prop where
  atBound : ∀ s, Explorer.atBound s = (clock s).atBound
  answer : ∀ current query s, clock (Explorer.answer current query s).2 =
    (clock s).tick (Explorer.answer current query s).1.isSome

variable {clock : σ → Clock} {maxSteps depth left : Nat} {s : σ}

/-- A walk does not change the step bound. -/
theorem Walks.maxSteps_clock {after : σ} {schedule : Schedule ε} (h : b.Walks past s schedule after)
    (htime : KeepsTime clock) : (clock after).maxSteps = (clock s).maxSteps := by
  have hanswered {current : Operation} {query : Query} {s between : σ} {answer : Option query.Answer}
      (hanswer : Explorer.answer current query s = (answer, between)) :
      (clock between).maxSteps = (clock s).maxSteps := by
    have hafter := htime.answer current query s
    rw [hanswer] at hafter
    rw [hafter, Clock.tick]
  induction h with
  | ended => rfl
  | stopped => rfl
  | refused _ _ hanswer => exact hanswered hanswer
  | answered _ _ hanswer _ ih => exact ih.trans (hanswered hanswer)

/-- Where a query is asked, the step bound is reached when the depth is. -/
theorem IsSeenTo.atBound_eq (hseen : b.IsSeenTo maxSteps depth) (htime : KeepsTime clock)
    (hreach : b.Reaches past) {current : Operation} {query : Query}
    (hnext : b.next past = .asked current query) (hlength : past.length + left = depth)
    (hclock : clock s = ⟨past.length, maxSteps⟩) : Explorer.atBound s = decide (left = 0) := by
  rw [htime.atBound, hclock, Bool.eq_iff_iff, Clock.atBound_iff, decide_eq_true_iff]
  by_cases hzero : maxSteps = 0
  · obtain ⟨value, rest, hcons⟩ := List.exists_cons_of_ne_nil (b.alternatives_ne_nil hnext)
    have hvalue : value ∈ query.alternatives := hcons ▸ List.mem_cons_self
    have hdeeper := hseen.length_le hzero _ (hreach.answer hnext hvalue)
    rw [List.length_append, List.length_singleton] at hdeeper
    dsimp only
    omega
  · have hdepth := hseen.bound hzero
    dsimp only
    omega

/-- After an answer one decision fewer is left. -/
theorem KeepsTime.of_answer (htime : KeepsTime clock) {current : Operation} {query : Query}
    {value : query.Answer} {between : σ} (hclock : clock s = ⟨past.length, maxSteps⟩)
    (hanswer : Explorer.answer current query s = (some value, between)) :
    clock between = ⟨(past ++ [query.decision value]).length, maxSteps⟩ := by
  have hafter := htime.answer current query s
  rw [hanswer, hclock] at hafter
  rw [hafter, List.length_append]
  rfl

/-- A walk that ends above the depth at which the decision tree is cut off, or at a step bound that is
that depth, is a walk through the cut tree. -/
theorem Walks.descend {after : σ} {schedule : Schedule ε} (h : b.Walks past s schedule after)
    (htime : KeepsTime clock) (hlength : past.length + left = depth)
    (hclock : clock s = ⟨past.length, maxSteps⟩) (hbound : maxSteps ≠ 0 → depth = maxSteps)
    (hshort : maxSteps = 0 → schedule.decisions.length < left) :
    Explorer.descend (b.cut left past) s = (schedule, after) := by
  have hstopped (past : List Decision) (s : σ) (hclock : clock s = ⟨past.length, maxSteps⟩) :
      Explorer.atBound s = true ↔ 0 < maxSteps ∧ maxSteps ≤ past.length := by
    rw [htime.atBound, hclock, Clock.atBound_iff]
  induction h generalizing left with
  | ended hnext =>
    rw [cut_ended hnext]
    rfl
  | stopped hnext hatBound =>
    have hreached := (hstopped _ _ hclock).mp hatBound
    have hdepth := hbound (Nat.pos_iff_ne_zero.mp hreached.1)
    obtain rfl : left = 0 := by omega
    rw [cut, hnext]
    rfl
  | @refused past s after current query hnext hfree hanswer =>
    have hopen := (hstopped _ _ hclock).not.mp (Bool.eq_false_iff.mp hfree)
    cases left with
    | zero => omega
    | succ left =>
      rw [cut_asked hnext, Explorer.descend, hanswer]
  | @answered past s between after current query value schedule hnext hfree hanswer _ ih =>
    have hopen := (hstopped _ _ hclock).not.mp (Bool.eq_false_iff.mp hfree)
    cases left with
    | zero => omega
    | succ left =>
      have hlater : (past ++ [query.decision value]).length + left = depth := by
        rw [List.length_append, List.length_singleton]
        omega
      have hbelow := ih hlater (htime.of_answer hclock hanswer) fun hnone =>
        Nat.lt_of_succ_lt_succ (hshort hnone)
      rw [cut_asked hnext, Explorer.descend, hanswer]
      dsimp only
      rw [hbelow]

/-- A walk whose answers are possible ones is a walk through the part that is seen. -/
theorem walks_descend (hseen : b.IsSeenTo maxSteps depth) (htime : KeepsTime clock)
    {P : Query → σ → Prop} (hreach : b.Reaches past) (hlength : past.length + left = depth)
    (hclock : clock s = ⟨past.length, maxSteps⟩)
    (hthroughout : Explorer.Throughout P (b.cut left past) s) :
    b.Walks past s (Explorer.descend (b.cut left past) s).1
      (Explorer.descend (b.cut left past) s).2 := by
  induction left generalizing past s with
  | zero =>
    cases hnext : b.next past with
    | ended ending =>
      rw [cut_ended hnext]
      exact .ended hnext
    | asked current query =>
      have hbound := hseen.atBound_eq htime hreach hnext hlength hclock
      rw [cut, hnext]
      exact .stopped hnext hbound
  | succ left ih =>
    cases hnext : b.next past with
    | ended ending =>
      rw [cut_ended hnext]
      exact .ended hnext
    | asked current query =>
      have hfree : Explorer.atBound s = false := by
        rw [hseen.atBound_eq htime hreach hnext hlength hclock]
        exact decide_eq_false (Nat.succ_ne_zero left)
      rw [cut_asked hnext] at hthroughout ⊢
      obtain ⟨-, hanswers⟩ := hthroughout
      rw [Explorer.descend]
      cases hanswer : Explorer.answer current query s with
      | mk answer between =>
        cases answer with
        | none => exact .refused hnext hfree hanswer
        | some value =>
          rw [hanswer] at hanswers
          obtain ⟨hvalue, hbelow⟩ := hanswers value rfl
          have hlater : (past ++ [query.decision value]).length + left = depth := by
            rw [List.length_append, List.length_singleton]
            omega
          exact .answered hnext hfree hanswer (ih (hreach.answer hnext hvalue) hlater
            (htime.of_answer hclock hanswer) hbelow)

/-- What holds throughout a walk through the part that is seen holds wherever an explorer comes in its
walk. -/
theorem of_comes (hseen : b.IsSeenTo maxSteps depth) (htime : KeepsTime clock)
    {P : Query → σ → Prop} (hreach : b.Reaches past) (hlength : past.length + left = depth)
    (hclock : clock s = ⟨past.length, maxSteps⟩)
    (hthroughout : Explorer.Throughout P (b.cut left past) s) {later : List Decision} {after : σ}
    (hcomes : b.Comes past s later after) {current : Operation} {query : Query}
    (hasked : b.next later = .asked current query) (hfree : Explorer.atBound after = false) :
    P query after := by
  induction hcomes generalizing left with
  | here past s =>
    cases left with
    | zero =>
      have hbound := hseen.atBound_eq htime hreach hasked hlength hclock
      cases hbound.symm.trans hfree
    | succ left =>
      rw [cut_asked hasked] at hthroughout
      exact hthroughout.1
  | @answered past later s between after current query value hnext hbefore hanswer _ ih =>
    cases left with
    | zero =>
      have hbound := hseen.atBound_eq htime hreach hnext hlength hclock
      cases hbound.symm.trans hbefore
    | succ left =>
      rw [cut_asked hnext] at hthroughout
      obtain ⟨-, hanswers⟩ := hthroughout
      rw [hanswer] at hanswers
      obtain ⟨hvalue, hbelow⟩ := hanswers value rfl
      have hlater : (past ++ [query.decision value]).length + left = depth := by
        rw [List.length_append, List.length_singleton]
        omega
      exact ih (hreach.answer hnext hvalue) hlater (htime.of_answer hclock hanswer) hbelow hasked
        hfree

omit [Explorer σ] in
/-- A search with a step bound keeps time. -/
theorem keepsTime_dpor [RandomSource γ] : KeepsTime (Dpor.clock (γ := γ)) :=
  ⟨fun _ => rfl, Dpor.clock_answer⟩

end Behaviour

end ScheduleExplorer
