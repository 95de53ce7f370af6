import ScheduleExplorer.Proofs.Strategy.Faults
import ScheduleExplorer.Proofs.Strategy.Promises
import Mathlib.Data.ENat.Lattice

/-!
# Bounds of compositions

A strategy that stands on its own takes as many decisions as its step bound allows, and any number
if it has none. A combination takes as many as both parts together: the rest begins when the lead is
at its bound. Before a query only the last part is looked at to tell whether the bound is reached, so
that this is the sum of the bounds rests on the parts taking turns.

`IsOnTime` is the state of the parts that makes it so, and `Asked` is what a query does to them. Both
are about every place inside a composition, of whatever depth.
-/

namespace ScheduleExplorer

namespace Clock

/-- The number of decisions that a step bound allows. -/
def limit (clock : Clock) : ℕ∞ :=
  if clock.maxSteps = 0 then ⊤ else clock.maxSteps

/-- A clock allows at least one decision. -/
theorem limit_pos (clock : Clock) : 0 < clock.limit := by
  rw [limit]
  split
  · exact ENat.top_pos
  · next hmax => exact_mod_cast Nat.pos_of_ne_zero hmax

/-- A clock that is within its limit is at its bound when it has reached the limit. -/
theorem atBound_iff_eq_limit {clock : Clock} (h : (clock.steps : ℕ∞) ≤ clock.limit) :
    clock.atBound = true ↔ (clock.steps : ℕ∞) = clock.limit := by
  rw [atBound_iff]
  rw [limit] at h ⊢
  split
  · next hmax =>
    rw [hmax]
    exact iff_of_false (fun hpos => Nat.lt_irrefl 0 hpos.1) (ENat.natCast_ne_top _)
  · next hmax =>
    rw [if_neg hmax] at h
    have hle : clock.steps ≤ clock.maxSteps := Nat.cast_le.mp h
    rw [Nat.cast_inj]
    omega

/-- A decision that is taken before the bound is reached stays within the limit. -/
theorem tick_le_limit {clock : Clock} (h : (clock.steps : ℕ∞) ≤ clock.limit)
    (hopen : clock.atBound = false) (answered : Bool) :
    ((clock.tick answered).steps : ℕ∞) ≤ clock.limit := by
  have hlt : (clock.steps : ℕ∞) < clock.limit := by
    refine lt_of_le_of_ne h fun heq => ?_
    cases hopen.symm.trans ((atBound_iff_eq_limit h).mpr heq)
  cases answered with
  | false => exact h
  | true =>
    have hsucc := Order.add_one_le_of_lt hlt
    exact_mod_cast hsucc

end Clock

namespace Strategy

variable {γ : Type}

/-! ### Bounds -/

/-- How many decisions a strategy takes in an iteration at most. -/
def bound : Strategy γ → ℕ∞
  | combo lead rest => lead.bound + rest.bound
  | liveness inner => inner.bound
  | s => s.clock.limit

/-- Whether a strategy stands on its own. -/
def isSingle : Strategy γ → Bool
  | combo .. | liveness _ => false
  | _ => true

/-- No part has taken more decisions than it may, and the rest of a combination has taken none
before its lead is at its bound. -/
def IsOnTime : Strategy γ → Prop
  | combo lead rest => lead.IsOnTime ∧ rest.IsOnTime ∧ (lead.atBound = false → rest.steps = 0)
  | liveness inner => inner.IsOnTime
  | s => (s.clock.steps : ℕ∞) ≤ s.clock.limit

/-- The bound of a strategy that stands on its own is the one of its clock. -/
theorem bound_of_isSingle {s : Strategy γ} (h : s.isSingle = true) : s.bound = s.clock.limit := by
  cases s <;> first | rfl | cases h

/-- A strategy that stands on its own is on time when its clock is. -/
theorem isOnTime_of_isSingle {s : Strategy γ} (h : s.isSingle = true) :
    s.IsOnTime ↔ (s.clock.steps : ℕ∞) ≤ s.clock.limit := by
  cases s <;> first | rfl | cases h

/-- A strategy that stands on its own is no combination. -/
theorem isCombined_of_isSingle {s : Strategy γ} (h : s.isSingle = true) : s.isCombined = false := by
  cases s <;> first | rfl | cases h

/-- Every strategy takes at least one decision. -/
theorem bound_pos (s : Strategy γ) : 0 < s.bound := by
  induction s with
  | combo lead rest ihLead _ => exact lt_of_lt_of_le ihLead le_self_add
  | liveness inner ih => exact ih
  | _ => exact Clock.limit_pos _

/-- As long as the lead is not at its bound, all decisions of a combination are its own; from then on
they are those of both parts. So they always are those of both parts. -/
theorem steps_combo {lead rest : Strategy γ} (h : lead.atBound = false → rest.steps = 0) :
    (combo lead rest).steps = lead.steps + rest.steps := by
  rw [steps]
  split
  · rfl
  · next hopen => rw [h (Bool.eq_false_iff.mpr hopen), Nat.add_zero]

/-- A strategy that is on time has taken no more decisions than its bound, and it is at its bound
when it has taken as many. -/
theorem IsOnTime.steps_le_bound {s : Strategy γ} (h : s.IsOnTime) :
    (s.steps : ℕ∞) ≤ s.bound ∧ (s.atBound = true ↔ (s.steps : ℕ∞) = s.bound) := by
  induction s with
  | combo lead rest ihLead ihRest =>
    obtain ⟨hlead, hrest, hwaits⟩ := h
    obtain ⟨hleadLe, hleadIff⟩ := ihLead hlead
    obtain ⟨hrestLe, hrestIff⟩ := ihRest hrest
    rw [steps_combo hwaits, Nat.cast_add, bound]
    refine ⟨add_le_add hleadLe hrestLe, ?_⟩
    change rest.atBound = true ↔ _
    rw [hrestIff]
    constructor
    · intro hdone
      have hleadDone : lead.atBound = true := by
        by_contra hopen
        rw [hwaits (Bool.eq_false_iff.mpr hopen)] at hdone
        exact rest.bound_pos.ne hdone
      rw [hleadIff.mp hleadDone, hdone]
    · intro hsum
      -- Both parts are within their bounds, so together they reach the sum only if each reaches its own.
      by_contra hopen
      have hlt : (rest.steps : ℕ∞) < rest.bound := lt_of_le_of_ne hrestLe hopen
      have hfinite : (lead.steps : ℕ∞) ≠ ⊤ := ENat.natCast_ne_top _
      have hbelow : (lead.steps : ℕ∞) + rest.steps < lead.bound + rest.bound :=
        lt_of_lt_of_le ((ENat.add_lt_add_iff_left hfinite).mpr hlt) (add_le_add_left hleadLe _)
      exact hbelow.ne hsum
  | liveness inner ih => exact ih h
  | _ => exact ⟨h, Clock.atBound_iff_eq_limit h⟩

/-- The lead of a combination has taken the first of its decisions. -/
theorem IsOnTime.steps_lead {lead rest : Strategy γ} (h : (combo lead rest).IsOnTime) :
    (lead.steps : ℕ∞) = min lead.bound ((combo lead rest).steps : ℕ∞) := by
  obtain ⟨hlead, -, hwaits⟩ := h
  obtain ⟨hle, hiff⟩ := hlead.steps_le_bound
  rw [steps_combo hwaits, Nat.cast_add]
  cases hbound : lead.atBound with
  | true =>
    rw [← hiff.mp hbound]
    exact (min_eq_left le_self_add).symm
  | false =>
    rw [hwaits hbound, Nat.cast_zero, add_zero]
    exact (min_eq_right hle).symm

/-! ### Beginnings -/

/-- A strategy that stands on its own is on time at its beginning. -/
theorem isOnTime_of_steps_eq_zero {s : Strategy γ} (hsingle : s.isSingle = true)
    (hsteps : s.steps = 0) : s.IsOnTime := by
  have hclock : s.clock.steps = 0 := hsteps
  simp [isOnTime_of_isSingle hsingle, hclock]

/-- A new strategy is on time, and no fault is pending. -/
theorem IsNew.isOnTime [RandomSource γ] {s : Strategy γ} (h : s.IsNew) : s.IsOnTime ∧ s.IsFaultless := by
  induction h with
  | combo hlead hrest ihLead ihRest =>
    exact ⟨⟨ihLead.1, ihRest.1, fun _ => hrest.atStart.2⟩, isFaultless_combo.mpr ⟨ihLead.2, ihRest.2⟩⟩
  | liveness _ ih => exact ih
  | _ => exact ⟨isOnTime_of_steps_eq_zero rfl rfl, rfl⟩

/-- A strategy that moves on is on time, and a fault is pending only if there was one. -/
theorem isOnTime_prepare [RandomSource γ] {s : Strategy γ} (hs : s.WellFormed) :
    s.prepare.2.IsOnTime ∧ (s.IsFaultless → s.prepare.2.IsFaultless) := by
  have hsteps {s : Strategy γ} (hs : s.WellFormed) : s.prepare.2.steps = 0 :=
    congrArg Clock.steps (restarts_prepare hs).clock
  induction s with
  | combo lead rest ihLead ihRest =>
    obtain ⟨hlead, hleadFault⟩ := ihLead hs.1
    obtain ⟨hrest, hrestFault⟩ := ihRest hs.2.1
    refine ⟨⟨hlead, hrest, fun _ => hsteps hs.2.1⟩, fun hfaultless => ?_⟩
    rw [isFaultless_combo] at hfaultless
    exact isFaultless_combo.mpr ⟨hleadFault hfaultless.1, hrestFault hfaultless.2⟩
  | liveness inner ih => exact ih hs
  | replay s => exact ⟨isOnTime_of_steps_eq_zero rfl rfl, id⟩
  | _ => exact ⟨isOnTime_of_steps_eq_zero rfl (hsteps hs), fun _ => rfl⟩

/-- A strategy that is reset is on time, and a fault is pending only if there was one. -/
theorem isOnTime_reset (s : Strategy γ) :
    s.reset.IsOnTime ∧ (s.IsFaultless → s.reset.IsFaultless) := by
  induction s with
  | combo lead rest ihLead ihRest =>
    obtain ⟨hlead, hleadFault⟩ := ihLead
    obtain ⟨hrest, hrestFault⟩ := ihRest
    have hsteps : rest.reset.steps = 0 := congrArg Clock.steps (restarts_reset rest).clock
    refine ⟨⟨hlead, hrest, fun _ => hsteps⟩, fun hfaultless => ?_⟩
    rw [isFaultless_combo] at hfaultless
    exact isFaultless_combo.mpr ⟨hleadFault hfaultless.1, hrestFault hfaultless.2⟩
  | liveness inner ih => exact ih
  | replay s => exact ⟨isOnTime_of_steps_eq_zero rfl rfl, id⟩
  | _ => exact ⟨isOnTime_of_steps_eq_zero rfl rfl, fun _ => rfl⟩

/-! ### Places -/

/-- One step of the way from a strategy to a part of it. -/
inductive Place where
  | lead
  | rest
  | inner
deriving DecidableEq

/-- The part at the end of a way, if the way leads to one. -/
def part? : List Place → Strategy γ → Option (Strategy γ)
  | [], s => some s
  | .lead :: path, combo lead _ => part? path lead
  | .rest :: path, combo _ rest => part? path rest
  | .inner :: path, liveness inner => part? path inner
  | _ :: _, _ => none

/-- The parts of a part are parts. -/
theorem part?_append (path later : List Place) (s : Strategy γ) :
    s.part? (path ++ later) = (s.part? path).bind (part? later) := by
  induction path generalizing s with
  | nil => rfl
  | cons place path ih => cases place <;> cases s <;> first | exact ih _ | rfl

/-- A strategy that stands on its own has no other part. -/
theorem eq_nil_of_part? {s part : Strategy γ} {path : List Place} (h : s.isSingle = true)
    (hpart : s.part? path = some part) : path = [] := by
  cases path with
  | nil => rfl
  | cons place path => cases place <;> cases s <;> first | cases hpart | cases h

/-- A strategy that is told of a bug tells all its parts. -/
theorem part?_notifyBug (path : List Place) (s : Strategy γ) :
    s.notifyBug.part? path = (s.part? path).map notifyBug := by
  induction path generalizing s with
  | nil => rfl
  | cons place path ih => cases place <;> cases s <;> first | exact ih _ | rfl

/-- The parts of a strategy that is on time are on time. -/
theorem IsOnTime.part {s part : Strategy γ} {path : List Place} (h : s.IsOnTime)
    (hpart : s.part? path = some part) : part.IsOnTime := by
  induction path generalizing s with
  | nil =>
    obtain rfl := Option.some.inj hpart
    exact h
  | cons place path ih =>
    cases place with
    | lead =>
      cases s with
      | combo lead rest => exact ih h.1 hpart
      | _ => cases hpart
    | rest =>
      cases s with
      | combo lead rest => exact ih h.2.1 hpart
      | _ => cases hpart
    | inner =>
      cases s with
      | liveness inner =>
        have hinner : inner.IsOnTime := h
        exact ih hinner hpart
      | _ => cases hpart

/-- The parts of a strategy that is on time and has taken no step have taken none. -/
theorem IsOnTime.steps_part {s part : Strategy γ} {path : List Place} (h : s.IsOnTime)
    (hzero : s.steps = 0) (hpart : s.part? path = some part) : part.steps = 0 := by
  induction path generalizing s with
  | nil =>
    obtain rfl := Option.some.inj hpart
    exact hzero
  | cons place path ih =>
    cases s with
    | combo lead rest =>
      rw [steps_combo h.2.2, Nat.add_eq_zero_iff] at hzero
      cases place with
      | lead => exact ih h.1 hzero.1 hpart
      | rest => exact ih h.2.1 hzero.2 hpart
      | inner => cases hpart
    | liveness inner =>
      have hinner : inner.IsOnTime := h
      cases place with
      | inner => exact ih hinner hzero hpart
      | _ => cases hpart
    | _ => cases place <;> cases hpart

/-- What has a lead is a combination. -/
theorem exists_combo_of_part? {s lead : Strategy γ} {path : List Place}
    (h : s.part? (path ++ [.lead]) = some lead) : ∃ rest, s.part? path = some (combo lead rest) := by
  rw [part?_append] at h
  obtain ⟨now, hnow, hlead⟩ := Option.bind_eq_some_iff.mp h
  cases now with
  | combo first rest =>
    obtain rfl := Option.some.inj hlead
    exact ⟨rest, hnow⟩
  | _ => cases hlead

/-! ### Queries -/

/-- What a query makes of a strategy, with an answer or without one. Among the parts of a
combination it concerns the one whose turn it is, and there it is counted if it was answered. -/
inductive Asked (answered : Bool) : Strategy γ → Strategy γ → Prop where
  | skipped {s : Strategy γ} (h : answered = false) : Asked answered s s
  | single {s after : Strategy γ} (hsingle : s.isSingle = true) (hafter : after.isSingle = true)
      (hclock : after.clock = s.clock.tick answered) : Asked answered s after
  | lead {lead after rest : Strategy γ} (hopen : lead.atBound = false)
      (h : Asked answered lead after) : Asked answered (combo lead rest) (combo after rest)
  | rest {lead rest after : Strategy γ} (hdone : lead.atBound = true)
      (h : Asked answered rest after) : Asked answered (combo lead rest) (combo lead after)
  | inner {inner after : Strategy γ} (h : Asked answered inner after) :
      Asked answered (liveness inner) (liveness after)

namespace Asked

variable {answered : Bool} {s after : Strategy γ}

/-- A query changes no bound. -/
theorem bound_eq (h : Asked answered s after) : after.bound = s.bound := by
  induction h with
  | skipped => rfl
  | single hsingle hafter hclock =>
    rw [bound_of_isSingle hsingle, bound_of_isSingle hafter, hclock]
    rfl
  | lead _ _ ih => rw [bound, bound, ih]
  | rest _ _ ih => rw [bound, bound, ih]
  | inner _ ih => exact ih

/-- A strategy on time counts the query if it was answered. -/
theorem steps_eq (h : Asked answered s after) (hs : s.IsOnTime) :
    after.steps = s.steps + answered.toNat := by
  induction h with
  | skipped h =>
    rw [h]
    rfl
  | single _ _ hclock => exact congrArg Clock.steps hclock
  | lead hopen _ ih =>
    have hzero := hs.2.2 hopen
    have hsteps := ih hs.1
    rw [steps_combo fun _ => hzero, steps_combo fun _ => hzero]
    omega
  | rest hdone _ ih =>
    have hsteps := ih hs.2.1
    simp only [steps, hdone, if_true]
    omega
  | inner _ ih => exact ih hs

/-- A strategy on time that is not at its bound is on time after a query. -/
theorem isOnTime (h : Asked answered s after) (hs : s.IsOnTime)
    (hopen : answered = true → s.atBound = false) : after.IsOnTime := by
  induction h with
  | skipped => exact hs
  | single hsingle hafter hclock =>
    rw [isOnTime_of_isSingle hsingle] at hs
    rw [isOnTime_of_isSingle hafter, hclock]
    cases answered with
    | false => exact hs
    | true =>
      have hbelow := hopen rfl
      rw [atBound_eq_of_not_combined (isCombined_of_isSingle hsingle)] at hbelow
      exact Clock.tick_le_limit hs hbelow true
  | lead hbelow _ ih => exact ⟨ih hs.1 fun _ => hbelow, hs.2.1, fun _ => hs.2.2 hbelow⟩
  | rest hdone _ ih =>
    exact ⟨hs.1, ih hs.2.1 hopen, fun hbelow => by cases hbelow.symm.trans hdone⟩
  | inner _ ih => exact ih hs hopen

/-- A query either concerns a part or leaves it alone. -/
theorem part (h : Asked answered s after) {path : List Place} {part : Strategy γ}
    (hpart : s.part? path = some part) :
    ∃ now, after.part? path = some now ∧ (now = part ∨ Asked answered part now) := by
  induction h generalizing path with
  | skipped => exact ⟨part, hpart, .inl rfl⟩
  | single hsingle hafter hclock =>
    obtain rfl := eq_nil_of_part? hsingle hpart
    obtain rfl := Option.some.inj hpart
    exact ⟨_, rfl, .inr (.single hsingle hafter hclock)⟩
  | lead hopen h ih =>
    cases path with
    | nil =>
      obtain rfl := Option.some.inj hpart
      exact ⟨_, rfl, .inr (.lead hopen h)⟩
    | cons place path =>
      cases place with
      | lead => exact ih hpart
      | rest => exact ⟨part, hpart, .inl rfl⟩
      | inner => cases hpart
  | rest hdone h ih =>
    cases path with
    | nil =>
      obtain rfl := Option.some.inj hpart
      exact ⟨_, rfl, .inr (.rest hdone h)⟩
    | cons place path =>
      cases place with
      | lead => exact ⟨part, hpart, .inl rfl⟩
      | rest => exact ih hpart
      | inner => cases hpart
  | inner h ih =>
    cases path with
    | nil =>
      obtain rfl := Option.some.inj hpart
      exact ⟨_, rfl, .inr (.inner h)⟩
    | cons place path =>
      cases place with
      | inner => exact ih hpart
      | _ => cases hpart

/-- A query leaves the lead of a combination alone once the lead is at its bound. -/
theorem part?_lead (h : Asked answered s after) {path : List Place} {lead rest : Strategy γ}
    (hpart : s.part? path = some (combo lead rest)) (hdone : lead.atBound = true) :
    ∃ later, after.part? path = some (combo lead later) := by
  obtain ⟨now, hnow, rfl | hasked⟩ := h.part hpart
  · exact ⟨rest, hnow⟩
  · cases hasked with
    | skipped => exact ⟨rest, hnow⟩
    | single hsingle => cases hsingle
    | lead hopen => cases hopen.symm.trans hdone
    | rest => exact ⟨_, hnow⟩

/-- Taking the fault of a query from a strategy that had none pending leaves it as the query did. -/
theorem takeFault (h : Asked answered s after) (hs : s.IsFaultless) :
    Asked answered s after.takeFault.2 := by
  induction h with
  | skipped h =>
    rw [hs.takeFault_eq]
    exact .skipped h
  | @single s after hsingle hafter hclock =>
    refine .single hsingle ?_ (after.keeps_takeFault.clock.trans hclock)
    cases after <;> first | rfl | cases hafter
  | @lead lead after rest hopen _ ih =>
    obtain ⟨hlead, hrest⟩ := isFaultless_combo.mp hs
    have htaken := ih hlead
    rw [Strategy.takeFault]
    split
    · next hfault =>
      rw [hfault] at htaken
      exact .lead hopen htaken
    · next hfault =>
      rw [hfault] at htaken
      rw [hrest.takeFault_eq]
      exact .lead hopen htaken
  | @rest lead rest after hdone _ ih =>
    obtain ⟨hlead, hrest⟩ := isFaultless_combo.mp hs
    rw [Strategy.takeFault, hlead.takeFault_eq]
    exact .rest hdone (ih hrest)
  | inner _ ih => exact .inner (ih hs)

end Asked

/-- Answering a query is what a query does to a strategy. -/
theorem asked_answer [RandomSource γ] [BoundedRandomSource γ] {current : Operation} {query : Query}
    (hquery : query.IsAskedBy current) {s : Strategy γ} (hs : s.WellFormed) (monitors : Monitors) :
    Asked (answer current query s monitors).1.isSome s (answer current query s monitors).2.1 := by
  induction s generalizing monitors with
  | combo lead rest ihLead ihRest =>
    rw [answer]
    split
    · next hdone => exact .rest hdone (ihRest hs.2.1 monitors)
    · next hopen => exact .lead (Bool.eq_false_iff.mpr hopen) (ihLead hs.1 monitors)
  | liveness inner ih =>
    rw [answer]
    dsimp only
    split
    · exact .skipped rfl
    · exact .inner (ih hs (checkMonitors inner monitors))
  | _ => exact .single rfl rfl (answered hquery hs monitors).clock

end Strategy

end ScheduleExplorer
