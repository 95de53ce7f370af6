import ScheduleExplorer.Proofs.Execution.Turn

/-!
# An execution under another strategy

A program sees nothing of the strategy, of the coverage, or of how often monitors were checked. So an
execution goes through the same turns when others are put in their place: `turn?_under` says this of
one turn. The coverage differs afterwards only if the turn records a state.
-/

namespace ScheduleExplorer

variable {γ σ μ : Type}

/-- The same iteration under another strategy, with another coverage and another count of
checks. -/
def Iteration.under (strategy : Strategy γ) (coverage : Coverage) (checks : Nat)
    (it : Iteration γ) : Iteration γ :=
  { it with strategy, coverage, monitors := { it.monitors with checks } }

/-- The same execution under another strategy, with another coverage and another count of
checks. -/
def Execution.under (strategy : Strategy γ) (coverage : Coverage) (checks : Nat)
    (ex : Execution γ σ μ) : Execution γ σ μ :=
  { ex with iteration := ex.iteration.under strategy coverage checks }

/-- The same turn under another strategy, with another coverage and another count of checks. -/
def Turn.under (strategy : Strategy γ) (coverage : Coverage) (checks : Nat) :
    Turn γ σ μ → Turn γ σ μ
  | quiet ex => quiet (ex.under strategy coverage checks)
  | point ex => point (ex.under strategy coverage checks)
  | choice id next query wrap ex => choice id next query wrap (ex.under strategy coverage checks)
  | bug kind message ex => bug kind message (ex.under strategy coverage checks)
  | fault cause ex => fault cause (ex.under strategy coverage checks)

/-- Whether a turn asks the strategy. -/
def Turn.isQuery : Turn γ σ μ → Bool
  | point _ | choice .. => true
  | quiet _ | bug .. | fault .. => false

/-- Whether a turn looks at the step bound, which it does not where every operation is completed. -/
def Turn.looksAtBound : Turn γ σ μ → Bool
  | point ex => !ex.iteration.enableWaiting.operations.all (·.status.isCompleted)
  | choice .. => true
  | quiet _ | bug .. | fault .. => false

/-- A turn that looks at the step bound asks the strategy. -/
theorem Turn.isQuery_of_looksAtBound {turn : Turn γ σ μ} (h : turn.looksAtBound = true) :
    turn.isQuery = true := by
  cases turn with
  | point ex => rfl
  | choice id next query wrap ex => rfl
  | _ => cases h

namespace Execution

variable (strategy : Strategy γ) (coverage : Coverage) (checks : Nat)

/-- The start of a program depends on nothing that is replaced. -/
theorem start_under (program : Program σ μ) (it : Iteration γ) :
    start program (it.under strategy coverage checks) =
      (start program it).under strategy coverage checks :=
  rfl

/-- A message is taken from an inbox alike. -/
theorem takeMessage?_under (id : OperationId) (events : List EventType) (ex : Execution γ σ μ) :
    (ex.under strategy coverage checks).takeMessage? id events =
      (ex.takeMessage? id events).map fun taken =>
        (taken.1, taken.2.under strategy coverage checks) := by
  unfold takeMessage?
  change (ex.inboxes[id.index]? >>= _) = _
  cases ex.inboxes[id.index]? with
  | none => rfl
  | some inbox =>
    change (inbox.take? events >>= _) = Option.map _ (inbox.take? events >>= _)
    cases inbox.take? events <;> rfl

/-- A primitive is carried out alike. -/
theorem grantTurn_under (id : OperationId) (next : σ) (ex : Execution γ σ μ)
    (primitive : Primitive σ) :
    (ex.under strategy coverage checks).grantTurn id next primitive =
      (ex.grantTurn id next primitive).under strategy coverage checks := by
  cases primitive with
  | join targets all =>
    simp only [grantTurn]
    change (if ex.isJoined targets all then _ else _) = _
    split <;> rfl
  | receive events =>
    simp only [grantTurn, takeMessage?_under]
    cases ex.takeMessage? id events <;> rfl
  | acquire resource =>
    have hholder : (ex.under strategy coverage checks).holder? resource = ex.holder? resource := rfl
    simp only [grantTurn, hholder]
    cases ex.holder? resource with
    | none => rfl
    | some holder =>
      dsimp only
      split <;> rfl
  | release resource =>
    simp only [grantTurn]
    change (if ex.holder? resource = some id then _ else _) = _
    split <;> rfl
  | _ => rfl

/-- A call takes the same turn; the coverage differs only if it records a state. -/
theorem callTurn_under (program : Program σ μ) (id : OperationId) (next : σ)
    (ex : Execution γ σ μ) (request : Request σ) :
    ∃ after, (ex.under strategy coverage checks).callTurn program id next request =
      (ex.callTurn program id next request).under strategy after checks := by
  have hjoin (targets : List OperationId) (all : Bool) :
      ∃ after, (ex.under strategy coverage checks).joinTurn program id next targets all =
        (ex.joinTurn program id next targets all).under strategy after checks := by
    have hknown : (targets.find? fun target =>
        !(ex.under strategy coverage checks).isKnownOperation target) =
        targets.find? fun target => !ex.isKnownOperation target := rfl
    rw [joinTurn, joinTurn, hknown]
    cases targets.find? fun target => !ex.isKnownOperation target <;> exact ⟨_, rfl⟩
  have hresource (resource : ResourceId) (kind : StepKind) (primitive : Primitive σ) :
      ∃ after, (ex.under strategy coverage checks).resourceTurn program id next resource kind
          primitive =
        (ex.resourceTurn program id next resource kind primitive).under strategy after checks := by
    unfold resourceTurn
    change ∃ _, (if ex.isKnownResource resource then _ else _) = _
    split <;> exact ⟨_, rfl⟩
  cases request with
  | join targets => exact hjoin targets true
  | joinAny targets =>
    simp only [callTurn]
    split
    · exact ⟨_, rfl⟩
    · exact hjoin targets false
  | send target message =>
    simp only [callTurn]
    change ∃ _, (if ex.isKnownOperation target then _ else _) = _
    split <;> exact ⟨_, rfl⟩
  | acquire resource => exact hresource resource _ _
  | release resource => exact hresource resource _ _
  | assert condition message =>
    simp only [callTurn]
    split <;> exact ⟨_, rfl⟩
  | setMonitor monitor isHot =>
    simp only [callTurn]
    change ∃ _, (if ex.iteration.monitors.isKnown monitor then _ else _) = _
    split <;> exact ⟨_, rfl⟩
  | _ => exact ⟨_, rfl⟩

/-- An action takes the same turn; the coverage differs only if it records a state. -/
theorem actTurn_under (program : Program σ μ) (id : OperationId) (ex : Execution γ σ μ)
    (action : Action σ) :
    ∃ after, (ex.under strategy coverage checks).actTurn program id action =
      (ex.actTurn program id action).under strategy after checks := by
  cases action with
  | call request next => exact callTurn_under strategy coverage checks program id next ex request
  | _ => exact ⟨coverage, rfl⟩

/-- The next turn is the same; the coverage differs only if it records a state. -/
theorem turn?_under (program : Program σ μ) (ex : Execution γ σ μ) :
    ∃ after, (ex.under strategy coverage checks).turn? program =
      (ex.turn? program).map (Turn.under strategy after checks) := by
  have hstage : (ex.under strategy coverage checks).stage? ex.iteration.current =
      ex.stage? ex.iteration.current := rfl
  have hcurrent : (ex.under strategy coverage checks).iteration.current = ex.iteration.current :=
    rfl
  simp only [turn?, hcurrent, hstage]
  cases hrunning : ex.iteration.isRunning with
  | false =>
    have hended : (ex.under strategy coverage checks).iteration.isRunning = false := hrunning
    exact ⟨coverage, by rw [hended, if_neg Bool.false_ne_true, if_neg Bool.false_ne_true]; rfl⟩
  | true =>
    have hgoesOn : (ex.under strategy coverage checks).iteration.isRunning = true := hrunning
    rw [hgoesOn, if_pos rfl, if_pos rfl]
    cases ex.stage? ex.iteration.current with
    | none => exact ⟨coverage, rfl⟩
    | some stage =>
      cases stage with
      | announced => exact ⟨coverage, rfl⟩
      | ended => exact ⟨coverage, rfl⟩
      | parked primitive next =>
        refine ⟨coverage, ?_⟩
        dsimp only
        have henabled : (ex.under strategy coverage checks).isEnabled ex.iteration.current =
            ex.isEnabled ex.iteration.current := rfl
        rw [henabled]
        split
        · exact congrArg some (grantTurn_under strategy coverage checks _ next ex primitive)
        · rfl
      | running state reply =>
        obtain ⟨after, hact⟩ := actTurn_under strategy coverage checks program
          ex.iteration.current
          { ex with memory := (program.resume ex.iteration.current state reply ex.memory).2 }
          (program.resume ex.iteration.current state reply ex.memory).1
        exact ⟨after, congrArg some hact⟩

end Execution

end ScheduleExplorer
