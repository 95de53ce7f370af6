import ScheduleExplorer.Proofs.Exploration.DecisionTree

/-!
# Rounds of an exploration

A round is one walk together with the states of the explorer before and after it. An exploration is
a sequence of rounds in which each begins as the one before it has prepared; it is complete when the
last preparation finds nothing left.

What takes the walks is a parameter here, so the same rounds go through a tree or through the
behaviour of a program that may go on forever.
-/

namespace ScheduleExplorer

/-- A walk, and the explorer before and after it. -/
structure Round (σ ε : Type) where
  before : σ
  schedule : Schedule ε
  after : σ

namespace Explorer

variable {σ ε : Type} [Explorer σ] {W : σ → Schedule ε → σ → Prop} {s : σ}
  {rounds : List (Round σ ε)} {result : Bool × σ}

/-- Rounds one after another, and what the last preparation gives. -/
inductive Rounds (W : σ → Schedule ε → σ → Prop) : σ → List (Round σ ε) → Bool × σ → Prop where
  | last {s after : σ} {schedule : Schedule ε} {result : Bool × σ} (hwalk : W s schedule after)
      (hlast : prepare after = result) : Rounds W s [⟨s, schedule, after⟩] result
  | more {s after next : σ} {schedule : Schedule ε} {rounds : List (Round σ ε)} {result : Bool × σ}
      (hwalk : W s schedule after) (hmore : prepare after = (true, next))
      (hrest : Rounds W next rounds result) : Rounds W s (⟨s, schedule, after⟩ :: rounds) result

/-- Rounds may be followed by others if something is left after them. -/
theorem Rounds.append {next : σ} {later : List (Round σ ε)} (h : Rounds W s rounds (true, next))
    (hlater : Rounds W next later result) : Rounds W s (rounds ++ later) result := by
  generalize hmore : (true, next) = between at h
  induction h with
  | last hwalk hlast => exact .more hwalk (hlast.trans hmore.symm) hlater
  | more hwalk hfirst _ ih => exact .more hwalk hfirst (ih hmore)

/-- Every round of a sequence takes a walk, and then it is the last one or others follow it. -/
theorem Rounds.of_mem (h : Rounds W s rounds result) {round : Round σ ε} (hround : round ∈ rounds) :
    W round.before round.schedule round.after ∧
      (prepare round.after = result ∨ ∃ next later, prepare round.after = (true, next) ∧
        Rounds W next later result ∧ later.length < rounds.length) := by
  induction h with
  | last hwalk hlast =>
    obtain rfl := List.mem_singleton.mp hround
    exact ⟨hwalk, .inl hlast⟩
  | more hwalk hmore hrest ih =>
    rcases List.mem_cons.mp hround with rfl | hlater
    · exact ⟨hwalk, .inr ⟨_, _, hmore, hrest, Nat.lt_succ_self _⟩⟩
    · obtain ⟨htaken, hlast | ⟨next, later, hnext, hrounds, hlt⟩⟩ := ih hlater
      · exact ⟨htaken, .inl hlast⟩
      · exact ⟨htaken, .inr ⟨next, later, hnext, hrounds, Nat.lt_succ_of_lt hlt⟩⟩

/-- Rounds are rounds of other walks if every walk that they take is one. -/
theorem Rounds.imp {V : σ → Schedule ε → σ → Prop} (h : Rounds W s rounds result)
    (hwalks : ∀ round ∈ rounds, W round.before round.schedule round.after →
      V round.before round.schedule round.after) : Rounds V s rounds result := by
  induction h with
  | last hwalk hlast => exact .last (hwalks _ List.mem_cons_self hwalk) hlast
  | more hwalk hmore _ ih =>
    have hrest := ih fun round hround => hwalks round (List.mem_cons_of_mem _ hround)
    exact .more (hwalks _ List.mem_cons_self hwalk) hmore hrest

/-- What holds before the first round, and is kept by a walk and the preparation after it, holds
before every round. -/
theorem Rounds.forall_before {P : σ → Prop}
    (hstep : ∀ {s schedule after}, P s → W s schedule after → P (prepare after).2)
    (h : Rounds W s rounds result) (hs : P s) : ∀ round ∈ rounds, P round.before := by
  induction h with
  | last hwalk => exact List.forall_mem_singleton.mpr hs
  | more hwalk hmore _ ih =>
    have hnext := hstep hs hwalk
    rw [hmore] at hnext
    exact List.forall_mem_cons.mpr ⟨hs, ih hnext⟩

/-- Where there is only one walk from every state, rounds are the beginning of complete ones. -/
theorem Rounds.prefix_of_complete
    (hunique : ∀ {s schedule after schedule' after'}, W s schedule after → W s schedule' after' →
      schedule = schedule' ∧ after = after') {final : σ} {others : List (Round σ ε)}
    (h : Rounds W s rounds (false, final)) (h' : Rounds W s others result) : others <+: rounds := by
  generalize hcomplete : (false, final) = last at h
  induction h' generalizing rounds with
  | last hwalk =>
    cases h with
    | last hother =>
      obtain ⟨rfl, rfl⟩ := hunique hwalk hother
      exact List.prefix_refl _
    | more hother =>
      obtain ⟨rfl, rfl⟩ := hunique hwalk hother
      exact (List.prefix_cons_inj _).mpr List.nil_prefix
  | more hwalk hmore _ ih =>
    cases h with
    | last hother hlast =>
      obtain ⟨rfl, rfl⟩ := hunique hwalk hother
      cases hcomplete.trans (hlast.symm.trans hmore)
    | more hother hmore' hrest =>
      obtain ⟨rfl, rfl⟩ := hunique hwalk hother
      obtain ⟨-, rfl⟩ := Prod.mk.inj (hmore.symm.trans hmore')
      exact (List.prefix_cons_inj _).mpr (ih hrest)

/-- A walk through a tree. -/
def Walks (tree : DecisionTree ε) (s : σ) (schedule : Schedule ε) (after : σ) : Prop :=
  walk tree s = (schedule, after)

/-- Complete rounds are an exploration that ends, and it needs as much fuel as there are rounds. -/
theorem explore_of_rounds {tree : DecisionTree ε} {final : σ}
    (h : Rounds (Walks tree) s rounds (false, final)) (fuel : Nat) :
    explore tree fuel s =
      if rounds.length ≤ fuel then some (rounds.map Round.schedule, final) else none := by
  generalize hresult : (false, final) = result at h
  induction h generalizing fuel with
  | last hwalk hlast =>
    rw [Walks] at hwalk
    cases fuel with
    | zero => rfl
    | succ fuel => simp [explore, hwalk, hlast, ← hresult]
  | more hwalk hmore _ ih =>
    rw [Walks] at hwalk
    cases fuel with
    | zero => rfl
    | succ fuel =>
      simp only [explore, hwalk, hmore, ih fuel hresult, List.length_cons, Nat.add_le_add_iff_right]
      split <;> rfl

/-- An exploration that ends goes through complete rounds. -/
theorem exists_rounds_of_explore {tree : DecisionTree ε} {fuel : Nat} {final : σ}
    {schedules : List (Schedule ε)} (h : explore tree fuel s = some (schedules, final)) :
    ∃ rounds, Rounds (Walks tree) s rounds (false, final) ∧
      rounds.map Round.schedule = schedules := by
  induction fuel generalizing s schedules with
  | zero => cases h
  | succ fuel ih =>
    generalize hwalk : walk tree s = walked
    obtain ⟨schedule, after⟩ := walked
    obtain ⟨more, next, rest, hprepare, rfl, hnone, hsome⟩ := exists_of_explore_succ hwalk h
    cases more with
    | false =>
      obtain ⟨rfl, rfl⟩ := hnone rfl
      exact ⟨_, .last hwalk hprepare, rfl⟩
    | true =>
      obtain ⟨rounds, hrounds, rfl⟩ := ih (hsome rfl)
      exact ⟨_, .more hwalk hprepare hrounds, rfl⟩

end Explorer

end ScheduleExplorer
