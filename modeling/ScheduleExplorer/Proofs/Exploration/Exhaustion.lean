import ScheduleExplorer.Proofs.Exploration.Behaviour
import ScheduleExplorer.Random.ChaCha

/-!
# Partial-order search ends and repeats nothing

The visits below a node fall into blocks, one for each answer that the search gives there: every
answer has one block at most, and every value has one. From this it follows by recursion on the tree
that no decisions are taken twice and that with one value of a choice every other one is tried.
-/

namespace ScheduleExplorer

variable {ε γ : Type}

namespace DecisionTree

/-- No two visits give the same answers. -/
theorem nodup_survey {tree : DecisionTree (Option ε)} (h : tree.IsProper) (t : Trail) :
    ((tree.survey t).1.map Schedule.decisions).Nodup := by
  induction tree generalizing t with
  | leaf ending => exact List.nodup_singleton _
  | ask current query child ih =>
    obtain ⟨blocks, -, hsurvey, hnodup, hmem, -⟩ := exists_blocks h t
    rw [hsurvey]
    refine List.pairwise_map.mpr (List.pairwise_flatMap.mpr ⟨fun block hblock => ?_, ?_⟩)
    · rw [List.pairwise_map]
      have hbelow := List.pairwise_map.mp (ih block.1 (h.2.2 _ (hmem block hblock)) block.2)
      exact hbelow.imp fun hne heq => hne (List.cons.inj heq).2
    · refine (List.pairwise_map.mp hnodup).imp fun hne visit hvisit other hother heq => hne ?_
      obtain ⟨visit, -, rfl⟩ := List.mem_map.mp hvisit
      obtain ⟨other, -, rfl⟩ := List.mem_map.mp hother
      exact decision_injective query (List.cons.inj heq).1

/-- Every value is given in some visit below a node with a value. -/
theorem exists_visit_cons {current : Operation} {query : Query}
    {child : query.Answer → DecisionTree (Option ε)} (h : (ask current query child).IsProper)
    (hquery : query.IsValue) {value : query.Answer} (hvalue : value ∈ query.alternatives)
    (t : Trail) : ∃ visit ∈ ((ask current query child).survey t).1, ∃ later,
      visit.decisions = query.decision value :: later := by
  obtain ⟨blocks, -, hsurvey, -, -, hall⟩ := exists_blocks h t
  rw [← hall hquery] at hvalue
  obtain ⟨block, hblock, rfl⟩ := List.mem_map.mp hvalue
  have hchild : (child block.1).IsProper := h.2.2 _ (hall hquery ▸ List.mem_map_of_mem hblock)
  obtain ⟨visit, rest, hcons⟩ := List.exists_cons_of_ne_nil (survey_ne_nil hchild block.2)
  have hmem : visit ∈ ((child block.1).survey block.2).1 := hcons ▸ List.mem_cons_self
  rw [hsurvey]
  exact ⟨_, List.mem_flatMap.mpr ⟨block, hblock, List.mem_map_of_mem hmem⟩, visit.decisions, rfl⟩

end DecisionTree

namespace Behaviour

variable {b : Behaviour ε} {before : List Decision}

/-- With one answer to a query for a value every other one is given. -/
theorem exists_visit_of_value {left : Nat} {t : Trail} {visit : Visit ε}
    (hvisit : visit ∈ ((b.cut left before).survey t).1) {past rest : List Decision}
    {decision : Decision} (hdecisions : visit.decisions = past ++ decision :: rest)
    {current : Operation} {query : Query} (hnext : b.next (before ++ past) = .asked current query)
    (hquery : query.IsValue) {value : query.Answer} (hvalue : value ∈ query.alternatives) :
    ∃ other ∈ ((b.cut left before).survey t).1, ∃ later,
      other.decisions = past ++ query.decision value :: later := by
  induction left generalizing before t visit past with
  | zero =>
    have hnil : visit.decisions = [] := by
      rw [cut] at hvisit
      split at hvisit <;> rw [List.mem_singleton.mp hvisit]
    rw [hnil] at hdecisions
    exact absurd hdecisions.symm (List.append_ne_nil_of_right_ne_nil _ (List.cons_ne_nil _ _))
  | succ left ih =>
    cases hbefore : b.next before with
    | ended ending =>
      rw [cut_ended hbefore] at hvisit
      rw [List.mem_singleton.mp hvisit] at hdecisions
      exact absurd hdecisions.symm (List.append_ne_nil_of_right_ne_nil _ (List.cons_ne_nil _ _))
    | asked now asked =>
      have hproper := b.isProper_cut (left + 1) before
      rw [cut_asked hbefore] at hvisit hproper ⊢
      cases past with
      | nil =>
        rw [List.append_nil, hbefore] at hnext
        obtain ⟨rfl, rfl⟩ := Event.asked.inj hnext
        exact DecisionTree.exists_visit_cons hproper hquery hvalue t
      | cons first past =>
        obtain ⟨blocks, -, hsurvey, -⟩ := DecisionTree.exists_blocks hproper t
        rw [hsurvey] at hvisit ⊢
        obtain ⟨block, hblock, hvisit⟩ := List.mem_flatMap.mp hvisit
        obtain ⟨visit, hbelow, rfl⟩ := List.mem_map.mp hvisit
        obtain ⟨rfl, htail⟩ := List.cons.inj hdecisions
        rw [← List.singleton_append, ← List.append_assoc] at hnext
        obtain ⟨other, hfound, later, hlater⟩ := ih hbelow htail hnext
        refine ⟨_, List.mem_flatMap.mpr ⟨block, hblock, List.mem_map_of_mem hfound⟩, later, ?_⟩
        exact congrArg (List.cons _) hlater

/-- Walks of a search through a behaviour go through the part that it sees. -/
theorem descends [RandomSource γ] {maxSteps depth : Nat} (hseen : b.IsSeenTo maxSteps depth) :
    Dpor.Descends γ maxSteps (b.Walks []) (b.cut depth []) := by
  intro stats t hthroughout schedule after
  have hwalk := walks_descend hseen keepsTime_dpor .start (Nat.zero_add depth) rfl hthroughout
  constructor
  · intro hwalks
    obtain ⟨rfl, rfl⟩ := hwalk.unique hwalks
    rfl
  · intro hdescend
    rwa [hdescend] at hwalk

/-- Exhaustive partial-order search of a program that is deterministic given the decisions, and whose
decision tree within the step bound is finite, ends. No two of its iterations take the same decisions.
Whatever is asked in an iteration is what is recorded there, if anything is. With one value of a
choice every other one is tried after the same decisions. -/
theorem exhaustive_search [RandomSource γ] (b : Behaviour ε) {maxSteps : Nat}
    (hfinite : b.IsFinite maxSteps) :
    ∃ (rounds : List (Round (Dpor γ) ε)) (final : Dpor γ),
      Explorer.Rounds (b.Walks []) ({ maxSteps } : Dpor γ) rounds (false, final) ∧
      (∀ others result, Explorer.Rounds (b.Walks []) ({ maxSteps } : Dpor γ) others result →
        others <+: rounds) ∧
      (rounds.map fun round => round.schedule.decisions).Nodup ∧
      (∀ round ∈ rounds, ∀ past s current query, b.Comes [] round.before past s →
        b.next past = .asked current query → Explorer.atBound s = false → s.Replays query) ∧
      ∀ round ∈ rounds, ∀ past decision rest current query,
        round.schedule.decisions = past ++ decision :: rest →
        b.next past = .asked current query → query.IsValue → ∀ value ∈ query.alternatives,
          ∃ other ∈ rounds, ∃ later,
            other.schedule.decisions = past ++ query.decision value :: later := by
  obtain ⟨depth, hseen⟩ := hfinite.exists_depth
  obtain ⟨rounds, final, hrounds, hshows⟩ :=
    Dpor.exists_rounds (γ := γ) (descends hseen) (b.isProper_cut depth [])
  have hdecisions : rounds.map (fun round => round.schedule.decisions) =
      ((b.cut depth []).survey {}).1.map Schedule.decisions := by
    have hschedules := congrArg (List.map Schedule.decisions) (Dpor.map_schedule_of_shows hshows)
    rw [List.map_map, List.map_map] at hschedules
    exact hschedules
  refine ⟨rounds, final, hrounds, ?_, ?_, ?_, ?_⟩
  · intro others result hothers
    exact hrounds.prefix_of_complete (fun h h' => h.unique h') hothers
  · rw [hdecisions]
    exact DecisionTree.nodup_survey (b.isProper_cut depth []) {}
  · intro round hround past s current query hcomes hasked hfree
    obtain ⟨visit, -, hshow⟩ := Dpor.exists_shows hshows hround
    have hclock : Dpor.clock round.before = ⟨0, maxSteps⟩ := by
      obtain ⟨stats, t, hbefore⟩ := hshow.before
      rw [hbefore]
      rfl
    exact of_comes hseen keepsTime_dpor .start (Nat.zero_add depth) hclock hshow.replays hcomes
      hasked hfree
  · intro round hround past decision rest current query hdecision hasked hquery value hvalue
    have hmem := List.mem_map_of_mem hround (f := fun round => round.schedule.decisions)
    rw [hdecisions] at hmem
    obtain ⟨visit, hvisit, heq⟩ := List.mem_map.mp hmem
    obtain ⟨other, hother, later, hlater⟩ := exists_visit_of_value hvisit (heq.trans hdecision)
      (by rwa [List.nil_append]) hquery hvalue
    have hshown := List.mem_map_of_mem hother (f := Schedule.decisions)
    rw [← hdecisions] at hshown
    obtain ⟨found, hfound, hsame⟩ := List.mem_map.mp hshown
    exact ⟨found, hfound, later, hsame.trans hlater⟩

/-- The program goes on in finitely many ways after decisions. -/
theorem finite_answers (b : Behaviour ε) (past : List Decision) :
    {later | ∃ current query, b.next past = .asked current query ∧
      ∃ value ∈ query.alternatives, later = past ++ [query.decision value]}.Finite := by
  cases hpast : b.next past with
  | ended ending =>
    apply Set.finite_empty.subset
    rintro later ⟨current, query, hasked, -⟩
    cases hasked
  | asked current query =>
    apply (query.alternatives.map fun value => past ++ [query.decision value]).finite_toSet.subset
    rintro later ⟨current', query', hasked, value, hvalue, rfl⟩
    obtain ⟨rfl, rfl⟩ := Event.asked.inj hasked
    exact List.mem_map.mpr ⟨value, hvalue, rfl⟩

/-- The program comes to finitely many sequences of decisions of one length. -/
theorem finite_reaches (b : Behaviour ε) (length : Nat) :
    {past | b.Reaches past ∧ past.length = length}.Finite := by
  induction length with
  | zero =>
    apply (Set.finite_singleton []).subset
    intro past hpast
    exact List.length_eq_zero_iff.mp hpast.2
  | succ length ih =>
    apply (ih.biUnion fun past _ => b.finite_answers past).subset
    rintro later ⟨hreach, hlength⟩
    cases hreach with
    | start => cases hlength
    | answer hbefore hasked hvalue =>
      rw [List.length_append] at hlength
      exact Set.mem_biUnion ⟨hbefore, Nat.succ.inj hlength⟩ ⟨_, _, hasked, _, hvalue, rfl⟩

/-- Within a step bound the decision tree is finite. -/
theorem isFinite_of_bound (b : Behaviour ε) {maxSteps : Nat} (h : maxSteps ≠ 0) :
    b.IsFinite maxSteps := by
  apply ((Set.finite_le_nat maxSteps).biUnion fun length _ => b.finite_reaches length).subset
  rintro past ⟨hreach, hzero | hle⟩
  · exact absurd hzero h
  · exact Set.mem_biUnion hle ⟨hreach, rfl⟩

/-- Two operations take turns forever, and each tosses a coin in its turn. -/
def tosses : Behaviour Empty where
  next past :=
    let current := (Operation.new ⟨0⟩ "a").create
    if past.length % 2 = 0 then
      .asked current (.operation [current, (Operation.new ⟨1⟩ "b").create])
    else
      .asked current (.boolean 2)
  isAskedBy {past current query} h := by
    split at h <;> obtain ⟨rfl, rfl⟩ := Event.asked.inj h
    · exact ⟨List.mem_cons_self, by decide⟩
    · trivial
  alternatives_ne_nil {past current query} h := by
    split at h <;> obtain ⟨rfl, rfl⟩ := Event.asked.inj h <;> decide

/-- Three decisions of the endless tosses are searched to the end. -/
theorem exhaustive_search_tosses : tosses.IsFinite 3 ∧
    ∃ (rounds : List (Round (Dpor ChaChaSource) Empty)) (final : Dpor ChaChaSource),
      Explorer.Rounds (tosses.Walks []) ({ maxSteps := 3 } : Dpor ChaChaSource) rounds
        (false, final) ∧
      (∀ others result, Explorer.Rounds (tosses.Walks []) ({ maxSteps := 3 } : Dpor ChaChaSource)
        others result → others <+: rounds) ∧
      (rounds.map fun round => round.schedule.decisions).Nodup ∧
      (∀ round ∈ rounds, ∀ past s current query, tosses.Comes [] round.before past s →
        tosses.next past = .asked current query → Explorer.atBound s = false → s.Replays query) ∧
      ∀ round ∈ rounds, ∀ past decision rest current query,
        round.schedule.decisions = past ++ decision :: rest →
        tosses.next past = .asked current query → query.IsValue → ∀ value ∈ query.alternatives,
          ∃ other ∈ rounds, ∃ later,
            other.schedule.decisions = past ++ query.decision value :: later := by
  have hfinite : tosses.IsFinite 3 := tosses.isFinite_of_bound (by decide)
  exact ⟨hfinite, tosses.exhaustive_search hfinite⟩

end Behaviour

end ScheduleExplorer
