import ScheduleExplorer.Proofs.Execution.Recorded
import Mathlib.Data.List.Induction

/-!
# What blocking primitives promise when they return

A join returns when the operations that it waits for have completed, and an acquire when nobody
holds the resource. The holder of a resource is determined by the returns of acquires and releases
(`Locks`), and this gives mutual exclusion: between two acquires of a resource that return there is
a release by the operation that acquired it first.
-/

namespace ScheduleExplorer

variable {γ σ μ : Type}

/-- Whether a call acquires or releases a resource. -/
def Request.concerns (resource : ResourceId) : Request σ → Prop
  | .acquire other | .release other => other = resource
  | _ => False

/-- A local call concerns no resource. -/
theorem Request.not_concerns_of_isLocal {request : Request σ} (h : request.isLocal = true)
    (resource : ResourceId) : ¬ request.concerns resource := by
  cases request <;> first | exact fun hconcerns => hconcerns | cases h

/-- A join concerns no resource. -/
theorem Request.not_concerns_of_join? {request : Request σ} {wait : List OperationId × Bool}
    (h : request.join? = some wait) (resource : ResourceId) : ¬ request.concerns resource := by
  cases request <;> first | exact fun hconcerns => hconcerns | cases h

/-- What the returns of acquires and releases make of the holder of a resource. -/
inductive Locks (resource : ResourceId) : List (Return σ) → Option OperationId → Prop where
  | nil : Locks resource [] none
  | acquired {returns : List (Return σ)} {done : Return σ} (h : Locks resource returns none)
      (hrequest : done.request = .acquire resource) :
      Locks resource (returns ++ [done]) (some done.caller)
  | released {returns : List (Return σ)} {done : Return σ}
      (h : Locks resource returns (some done.caller))
      (hrequest : done.request = .release resource) : Locks resource (returns ++ [done]) none
  | other {returns : List (Return σ)} {holder : Option OperationId} {done : Return σ}
      (h : Locks resource returns holder) (hrequest : ¬ done.request.concerns resource) :
      Locks resource (returns ++ [done]) holder

namespace Locks

variable {resource : ResourceId} {returns : List (Return σ)} {holder : Option OperationId}
  {done : Return σ}

/-- The last of some returns. -/
theorem last (h : Locks resource (returns ++ [done]) holder) :
    (Locks resource returns none ∧ done.request = .acquire resource ∧ holder = some done.caller) ∨
      (Locks resource returns (some done.caller) ∧ done.request = .release resource ∧
        holder = none) ∨
      (Locks resource returns holder ∧ ¬ done.request.concerns resource) := by
  generalize hall : returns ++ [done] = all at h
  cases h with
  | nil => exact absurd hall (by simp)
  | acquired h hrequest =>
    obtain ⟨rfl, hlast⟩ := List.append_inj' hall rfl
    obtain rfl := (List.cons.inj hlast).1
    exact .inl ⟨h, hrequest, rfl⟩
  | released h hrequest =>
    obtain ⟨rfl, hlast⟩ := List.append_inj' hall rfl
    obtain rfl := (List.cons.inj hlast).1
    exact .inr (.inl ⟨h, hrequest, rfl⟩)
  | other h hrequest =>
    obtain ⟨rfl, hlast⟩ := List.append_inj' hall rfl
    obtain rfl := (List.cons.inj hlast).1
    exact .inr (.inr ⟨h, hrequest⟩)

/-- The holder that some of the returns made. -/
theorem exists_of_append {later : List (Return σ)} (h : Locks resource (returns ++ later) holder) :
    ∃ before, Locks resource returns before := by
  induction later using List.reverseRecOn generalizing holder with
  | nil => exact ⟨holder, by rwa [List.append_nil] at h⟩
  | append_singleton later done ih =>
    rw [← List.append_assoc] at h
    rcases h.last with ⟨hbefore, -⟩ | ⟨hbefore, -⟩ | ⟨hbefore, -⟩ <;> exact ih hbefore

/-- Who has acquired a resource holds it until it releases it. -/
theorem held_or_released {between : List (Return σ)}
    (h : Locks resource (returns ++ done :: between) holder)
    (hrequest : done.request = .acquire resource) :
    holder = some done.caller ∨
      ∃ release ∈ between, release.caller = done.caller ∧ release.request = .release resource := by
  induction between using List.reverseRecOn generalizing holder with
  | nil =>
    rcases h.last with ⟨-, -, hholder⟩ | ⟨-, hother, -⟩ | ⟨-, hother⟩
    · exact .inl hholder
    · rw [hrequest] at hother
      cases hother
    · rw [hrequest] at hother
      exact absurd rfl hother
  | append_singleton between last ih =>
    have happend : returns ++ done :: (between ++ [last]) =
        (returns ++ done :: between) ++ [last] := by simp
    rw [happend] at h
    have hlater {holder : Option OperationId}
        (hbefore : Locks resource (returns ++ done :: between) holder) :
        holder = some done.caller ∨ ∃ release ∈ between ++ [last],
          release.caller = done.caller ∧ release.request = .release resource := by
      rcases ih hbefore with hheld | ⟨release, hrelease, hdone⟩
      · exact .inl hheld
      · exact .inr ⟨release, List.mem_append_left _ hrelease, hdone⟩
    rcases h.last with ⟨hbefore, -, -⟩ | ⟨hbefore, hreleased, -⟩ | ⟨hbefore, -⟩
    · rcases hlater hbefore with hheld | hreleased
      · cases hheld
      · exact .inr hreleased
    · rcases hlater hbefore with hheld | hearlier
      · exact .inr ⟨last, List.mem_append_right _ (List.mem_singleton_self last),
          Option.some.inj hheld, hreleased⟩
      · exact .inr hearlier
    · exact hlater hbefore

/-- Between two acquires of a resource the first acquirer releases it. -/
theorem released_between {between later : List (Return σ)} {second : Return σ}
    (h : Locks resource (returns ++ done :: (between ++ second :: later)) holder)
    (hfirst : done.request = .acquire resource) (hsecond : second.request = .acquire resource) :
    ∃ release ∈ between, release.caller = done.caller ∧ release.request = .release resource := by
  have happend : returns ++ done :: (between ++ second :: later) =
      ((returns ++ done :: between) ++ [second]) ++ later := by simp
  rw [happend] at h
  obtain ⟨before, hbefore⟩ := h.exists_of_append
  rcases hbefore.last with ⟨hnone, -, -⟩ | ⟨-, hother, -⟩ | ⟨-, hother⟩
  · rcases hnone.held_or_released hfirst with hheld | hreleased
    · cases hheld
    · exact hreleased
  · rw [hsecond] at hother
    cases hother
  · rw [hsecond] at hother
    exact absurd rfl hother

end Locks

namespace Execution

/-- The holder of a resource after a step is what the call that returns makes of it. -/
theorem Effect.locks {ex after : Execution γ σ μ} {call : Option (Return σ)}
    (h : ex.Effect after call) {resource : ResourceId} {returns : List (Return σ)}
    (hlocks : Locks resource returns (ex.holder? resource)) :
    Locks resource (returns ++ call.toList) (after.holder? resource) := by
  have hother {done : Return σ} (hholder : after.holder? resource = ex.holder? resource)
      (hrequest : ¬ done.request.concerns resource) :
      Locks resource (returns ++ [done]) (after.holder? resource) := by
    rw [hholder]
    exact hlocks.other hrequest
  cases h with
  | silent hcall _ hholder =>
    replace hholder := congrFun hholder resource
    cases call with
    | none =>
      rw [Option.toList_none, List.append_nil, hholder]
      exact hlocks
    | some done =>
      exact hother hholder (Request.not_concerns_of_isLocal (hcall done rfl) resource)
  | joined hjoin _ _ hholder =>
    exact hother (congrFun hholder resource) (Request.not_concerns_of_join? hjoin resource)
  | sent _ _ hholder => exact hother (congrFun hholder resource) fun hconcerns => hconcerns
  | received _ _ _ _ hholder => exact hother (congrFun hholder resource) fun hconcerns => hconcerns
  | @acquired caller acquired reply hfree _ hholder =>
    have hafter : after.holder? resource =
      Function.update ex.holder? acquired (some caller) resource := congrFun hholder resource
    by_cases hsame : acquired = resource
    · subst hsame
      rw [hafter, Function.update_self]
      rw [hfree] at hlocks
      exact hlocks.acquired rfl
    · rw [hafter, Function.update_of_ne (Ne.symm hsame)]
      exact hlocks.other hsame
  | @released caller released reply hheld _ hholder =>
    have hafter : after.holder? resource =
      Function.update ex.holder? released none resource := congrFun hholder resource
    by_cases hsame : released = resource
    · subst hsame
      rw [hafter, Function.update_self]
      rw [hheld] at hlocks
      exact hlocks.released rfl
    · rw [hafter, Function.update_of_ne (Ne.symm hsame)]
      exact hlocks.other hsame

/-- A join that returns is over. -/
theorem Effect.join {ex after : Execution γ σ μ} {done : Return σ} (h : ex.Effect after (some done))
    {targets : List OperationId} {all : Bool} (hjoin : done.request.join? = some (targets, all))
    (hsome : targets ≠ []) : after.isJoined targets all = true := by
  cases h with
  | silent hcall =>
    rw [Request.join?_of_isLocal (hcall done rfl)] at hjoin
    cases hjoin
  | @joined caller request reply others each hother hover =>
    obtain ⟨rfl, rfl⟩ := Prod.mk.inj (Option.some.inj (hother.symm.trans hjoin))
    exact hover hsome
  | sent => cases hjoin
  | received => cases hjoin
  | acquired => cases hjoin
  | released => cases hjoin

/-- An acquire that returns found the resource free. -/
theorem Effect.acquire {ex after : Execution γ σ μ} {done : Return σ}
    (h : ex.Effect after (some done)) {resource : ResourceId}
    (hrequest : done.request = .acquire resource) :
    ex.holder? resource = none ∧ after.holder? resource = some done.caller := by
  cases h with
  | silent hcall =>
    have hlocal := hcall done rfl
    rw [hrequest] at hlocal
    cases hlocal
  | joined hjoin =>
    cases hrequest
    cases hjoin
  | sent => cases hrequest
  | received => cases hrequest
  | @acquired caller acquired reply hfree _ hholder =>
    obtain rfl : acquired = resource := Request.acquire.inj hrequest
    exact ⟨hfree, (congrFun hholder acquired).trans (Function.update_self ..)⟩
  | released => cases hrequest

/-- A held resource is freed only when its holder releases it. -/
theorem Effect.held_or_released {ex after : Execution γ σ μ} {call : Option (Return σ)}
    (h : ex.Effect after call) {resource : ResourceId} {holder : OperationId}
    (hheld : ex.holder? resource = some holder) :
    after.holder? resource = some holder ∨
      ∃ done, call = some done ∧ done.caller = holder ∧ done.request = .release resource := by
  have hsame (hholder : after.holder? resource = ex.holder? resource) :
      after.holder? resource = some holder ∨
        ∃ done, call = some done ∧ done.caller = holder ∧ done.request = .release resource :=
    .inl (hholder.trans hheld)
  cases h with
  | silent _ _ hholder => exact hsame (congrFun hholder resource)
  | joined _ _ _ hholder => exact hsame (congrFun hholder resource)
  | sent _ _ hholder => exact hsame (congrFun hholder resource)
  | received _ _ _ _ hholder => exact hsame (congrFun hholder resource)
  | @acquired caller acquired reply hfree _ hholder =>
    have hne : resource ≠ acquired := by
      rintro rfl
      rw [hheld] at hfree
      cases hfree
    exact hsame ((congrFun hholder resource).trans (Function.update_of_ne hne _ _))
  | @released caller released reply hreleased _ hholder =>
    by_cases hother : resource = released
    · subst hother
      exact .inr ⟨_, rfl, Option.some.inj (hreleased.symm.trans hheld), rfl⟩
    · exact hsame ((congrFun hholder resource).trans (Function.update_of_ne hother _ _))

variable [RandomSource γ]

/-- An operation that has its turn at a release of a resource that it does not hold ends the
iteration with a bug, and the resource stays with its holder. -/
theorem InOrder.step_release {program : Program σ μ} {ex : Execution γ σ μ}
    {pending : OperationId → Option (Request σ)} (h : ex.InOrder pending ex.iteration.current)
    (hrunning : ex.iteration.isRunning = true) {resource : ResourceId}
    (hpending : pending ex.iteration.current = some (.release resource))
    (hheld : ex.holder? resource ≠ some ex.iteration.current) :
    ∃ after, ex.step program = some after ∧ after.holder? = ex.holder? ∧
      after.iteration.phase = .stopped (.bugFound .assertion) := by
  obtain ⟨op, hop, -⟩ := h.enabled
  obtain ⟨stage, hstage⟩ := h.body
  have haccords := h.orderly.accords _ op stage hop hstage
  rw [hpending] at haccords
  obtain ⟨next, rfl⟩ : ∃ next, stage = .parked (.release resource) next := by
    cases haccords with
    | parked hcarries =>
      cases hcarries with
      | blocked hjoin => cases hjoin
      | join hjoin => cases hjoin
      | release => exact ⟨_, rfl⟩
  have hphase := Iteration.phase_reportBug hrunning .assertion
    s!"{ex.iteration.current} released {resource} without holding it"
  refine ⟨ex.mapIteration (·.reportBug .assertion _), ?_, rfl, hphase⟩
  simp only [Execution.step, hrunning, if_true, hstage, h.isEnabled, grant, if_neg hheld]

namespace Recorded

variable {program : Program σ μ} {ex : Execution γ σ μ} {journal : Journal σ}

/-- The holder of a resource is what the returns of a recorded execution make of it. -/
theorem locks (h : Recorded program ex journal) (resource : ResourceId) :
    Locks resource journal.returns (ex.holder? resource) := by
  induction h with
  | start => exact .nil
  | step h hstep ih => exact (h.effect hstep).locks ih

/-- A join that returns has all its targets completed, and a join of any one of some operations has
one of them completed. An acquire that returns found the resource without a holder and has made its
caller the holder. Between two acquires of a resource that return, the first caller's release
returns, and no other call frees a resource. A release by an operation that does not hold the
resource ends the iteration with an assertion, and the resource stays with its holder. -/
theorem returns_if_condition_holds (h : Recorded program ex journal) :
    (∀ after done, ex.step program = some after → journal.return? program ex after = some done →
      (∀ targets, done.request = .join targets →
        ∀ target ∈ targets, after.iteration.isCompleted target = true) ∧
      (∀ targets, done.request = .joinAny targets → targets ≠ [] →
        ∃ target ∈ targets, after.iteration.isCompleted target = true) ∧
      (∀ resource, done.request = .acquire resource →
        ex.holder? resource = none ∧ after.holder? resource = some done.caller)) ∧
    (∀ before first between second later resource,
      journal.returns = before ++ first :: (between ++ second :: later) →
      first.request = .acquire resource → second.request = .acquire resource →
      ∃ release ∈ between, release.caller = first.caller ∧ release.request = .release resource) ∧
    (∀ after resource holder, ex.step program = some after → ex.holder? resource = some holder →
      after.holder? resource = some holder ∨
        ∃ done, journal.return? program ex after = some done ∧ done.caller = holder ∧
          done.request = .release resource) ∧
    (∀ resource, ex.iteration.isRunning = true →
      journal.pending ex.iteration.current = some (.release resource) →
      ex.holder? resource ≠ some ex.iteration.current →
      ∃ after, ex.step program = some after ∧ after.holder? = ex.holder? ∧
        after.iteration.phase = .stopped (.bugFound .assertion)) := by
  refine ⟨fun after done hstep hreturn => ?_, ?_, ?_, ?_⟩
  · have heffect := h.effect hstep
    rw [hreturn] at heffect
    refine ⟨fun targets hrequest target htarget => ?_, fun targets hrequest hsome => ?_,
      fun resource hrequest => heffect.acquire hrequest⟩
    · have hjoined : after.isJoined targets true = true :=
        heffect.join (by rw [hrequest]; rfl) (List.ne_nil_of_mem htarget)
      exact List.all_eq_true.mp hjoined target htarget
    · have hjoined : after.isJoined targets false = true :=
        heffect.join (by rw [hrequest]; rfl) hsome
      exact List.any_eq_true.mp hjoined
  · intro before first between second later resource hreturns hfirst hsecond
    have hlocks := h.locks resource
    rw [hreturns] at hlocks
    exact hlocks.released_between hfirst hsecond
  · intro after resource holder hstep hheld
    exact (h.effect hstep).held_or_released hheld
  · intro resource hrunning hpending hheld
    exact (h.inOrder hrunning).step_release hrunning hpending hheld

end Recorded

/-- A program whose first operation takes turns with another at a resource, joins it, and then
releases the resource without holding it. -/
def contenders : Program Nat Unit where
  main := 0
  memory := ()
  resume _ state _ memory :=
    let action : Action Nat :=
      match state with
      | 0 => .call .createResource 1
      | 1 => .call (.spawn "other" 6) 2
      | 2 => .call (.acquire ⟨0⟩) 3
      | 3 => .call (.release ⟨0⟩) 4
      | 4 => .call (.join [⟨1⟩]) 5
      | 5 => .call (.release ⟨0⟩) 8
      | 6 => .call (.acquire ⟨0⟩) 7
      | 7 => .call (.release ⟨0⟩) 8
      | _ => .finish
    (action, memory)
  hasher := some fun _ => {}

/-- The join returns when the other operation has completed, and the release that follows ends the
iteration. -/
theorem returns_if_condition_holds_contenders :
    (∃ after done, ((first contenders).run contenders 16).step contenders = some after ∧
      (runRecorded contenders 16 (first contenders, {})).2.return? contenders
        ((first contenders).run contenders 16) after = some done ∧
      done.request = .join [⟨1⟩] ∧ after.iteration.isCompleted ⟨1⟩ = true) ∧
    ∃ after, ((first contenders).run contenders 18).step contenders = some after ∧
      after.iteration.phase = .stopped (.bugFound .assertion) := by
  refine ⟨?_, ?_⟩
  · obtain ⟨hreturns, -⟩ := (recorded_first contenders 16).returns_if_condition_holds
    have hjoins : (((first contenders).run contenders 16).step contenders).bind (fun after =>
        ((runRecorded contenders 16 (first contenders, {})).2.return? contenders
          ((first contenders).run contenders 16) after).bind fun done => done.request.join?) =
        some ([⟨1⟩], true) := by decide +kernel
    obtain ⟨after, hstep, hjoins⟩ := Option.bind_eq_some_iff.mp hjoins
    obtain ⟨done, hdone, hjoin⟩ := Option.bind_eq_some_iff.mp hjoins
    have hrequest := Request.eq_join hjoin
    have hcompleted := (hreturns after done hstep hdone).1 [⟨1⟩] hrequest
    exact ⟨after, done, hstep, hdone, hrequest, hcompleted ⟨1⟩ (List.mem_singleton_self _)⟩
  · obtain ⟨-, -, -, hrelease⟩ := (recorded_first contenders 18).returns_if_condition_holds
    have hwaits : ((runRecorded contenders 18 (first contenders, {})).2.pending
        ((first contenders).run contenders 18).iteration.current).any (fun request =>
          match request with
          | .release resource => resource = ⟨0⟩
          | _ => false) = true := by decide +kernel
    rw [Option.any_eq_true] at hwaits
    obtain ⟨request, hpending, hrequest⟩ := hwaits
    obtain rfl : request = .release ⟨0⟩ := by
      cases request with
      | release resource => rw [of_decide_eq_true hrequest]
      | _ => cases hrequest
    obtain ⟨after, hstep, -, hphase⟩ :=
      hrelease ⟨0⟩ (by decide +kernel) hpending (by decide +kernel)
    exact ⟨after, hstep, hphase⟩

end Execution

end ScheduleExplorer
