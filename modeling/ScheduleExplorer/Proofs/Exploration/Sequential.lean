import ScheduleExplorer.Proofs.Exploration.Survey
import ScheduleExplorer.Proofs.Exploration.Unfolding

/-!
# Programs with one operation

Where a turn finds no second enabled operation there is nothing to reduce: partial-order search goes
through every schedule. This is so in a program whose bodies never spawn. The order in which
operations are registered is not a step of its own, so once there are two of them the reduction may
lose a schedule.
-/

namespace ScheduleExplorer

variable {ε γ σ μ : Type}

namespace DecisionTree

/-- At no turn of the tree is there a second enabled operation. -/
def IsSequential : DecisionTree ε → Prop
  | leaf _ => True
  | ask _ query child =>
    (query.IsValue ∨ query.alternatives.length ≤ 1) ∧ ∀ answer, (child answer).IsSequential

/-- Cutting a tree off leaves it sequential. -/
theorem IsSequential.truncate {tree : DecisionTree ε} (h : tree.IsSequential)
    (depth : Option Nat) : (tree.truncate depth).IsSequential := by
  induction tree generalizing depth with
  | leaf => trivial
  | ask current query child ih =>
    rw [DecisionTree.truncate]
    split
    · trivial
    · exact ⟨h.1, fun answer => ih answer (h.2 answer) _⟩

/-- Every path of a sequential tree is visited: each value is given, and the one operation that may
be tried is tried. -/
theorem exists_visit_of_path {tree : DecisionTree (Option ε)} (htree : tree.IsProper)
    (hsequential : tree.IsSequential) {indices : List Nat} {decisions : List Decision}
    {ending : Option ε} (h : tree.Path indices decisions ending) (t : Trail) :
    ∃ visit ∈ (tree.survey t).1, Visit.schedule visit = ⟨decisions, ending⟩ := by
  induction h generalizing t with
  | leaf ending => exact ⟨_, List.mem_singleton_self _, rfl⟩
  | @ask current query child index answer _ _ _ hanswer _ ih =>
    have hmem : answer ∈ query.alternatives := List.mem_of_getElem? hanswer
    obtain ⟨blocks, hne, hsurvey, -, hgiven, hall⟩ := exists_blocks htree t
    have hblock : ∃ below, (answer, below) ∈ blocks := by
      rcases hsequential.1 with hvalue | hsingle
      · rw [← hall hvalue] at hmem
        obtain ⟨⟨_, below⟩, hblock, rfl⟩ := List.mem_map.mp hmem
        exact ⟨below, hblock⟩
      · obtain ⟨⟨given, below⟩, rest, rfl⟩ := List.exists_cons_of_ne_nil hne
        have hpos := List.length_pos_iff.mpr htree.1
        obtain ⟨only, honly⟩ := List.length_eq_one_iff.mp (Nat.le_antisymm hsingle hpos)
        have hfirst : given ∈ query.alternatives := hgiven _ List.mem_cons_self
        rw [honly, List.mem_singleton] at hmem hfirst
        have hsame : given = answer := hfirst.trans hmem.symm
        exact ⟨below, hsame ▸ List.mem_cons_self⟩
    obtain ⟨below, hblock⟩ := hblock
    obtain ⟨visit, hvisit, hschedule⟩ := ih (htree.2.2 answer hmem) (hsequential.2 answer) below
    refine ⟨visit.cons (query.decision answer), ?_, ?_⟩
    · rw [hsurvey]
      exact List.mem_flatMap.mpr ⟨_, hblock, List.mem_map_of_mem hvisit⟩
    · exact congrArg (Schedule.cons (query.decision answer)) hschedule

/-- The reduction keeps every path of a sequential tree. -/
theorem mem_reduce_of_path {tree : DecisionTree (Option ε)} (htree : tree.IsProper)
    (hsequential : tree.IsSequential) {indices : List Nat} {decisions : List Decision}
    {ending : Option ε} (h : tree.Path indices decisions ending) (t : Trail) :
    ⟨decisions, ending⟩ ∈ (tree.reduce t).1 := by
  obtain ⟨visit, hvisit, hschedule⟩ := exists_visit_of_path htree hsequential h t
  rw [← schedules_survey, ← hschedule]
  exact List.mem_map_of_mem hvisit

end DecisionTree

/-! ### Bodies that never spawn -/

/-- No body of the program ever spawns. -/
def Program.NeverSpawns (program : Program σ μ) : Prop :=
  ∀ id state reply memory name body next,
    (program.resume id state reply memory).1 ≠ .call (.spawn name body) next

namespace Execution

variable {ex : Execution γ σ μ}

/-- The number of operations that are registered. -/
def size (ex : Execution γ σ μ) : Nat :=
  ex.iteration.operations.length

/-- A change of one operation leaves the number of operations alone. -/
@[simp] theorem size_updateOperation (id : OperationId) (f : Operation → Operation)
    (ex : Execution γ σ μ) : (ex.updateOperation id f).size = ex.size :=
  List.length_modify ..

/-- Parking an operation leaves the number of operations alone. -/
@[simp] theorem size_park (program : Program σ μ) (id : OperationId)
    (primitive : Primitive σ) (next : σ) (describe : Operation → Operation)
    (ex : Execution γ σ μ) : (ex.park program id primitive next describe).size = ex.size :=
  (List.length_modify ..).trans (List.length_modify ..)

/-- No primitive that is carried out registers an operation. -/
theorem size_grantTurn (id : OperationId) (next : σ) (ex : Execution γ σ μ)
    (primitive : Primitive σ) : (ex.grantTurn id next primitive).execution.size = ex.size := by
  cases primitive with
  | start => rfl
  | resume => rfl
  | spawn child body => exact size_updateOperation child _ ex
  | join targets all =>
    rw [grantTurn]
    split
    · rfl
    · exact size_updateOperation id _ _
  | send target message => exact size_updateOperation target _ _
  | receive events =>
    rw [grantTurn]
    split
    · next envelope after htake =>
      obtain ⟨inbox, rest, -, -, rfl⟩ := exists_of_takeMessage? htake
      exact size_updateOperation id _ _
    · exact size_updateOperation id _ _
  | acquire resource =>
    rw [grantTurn]
    split
    · rfl
    · split
      · rfl
      · exact size_updateOperation id _ _
  | release resource =>
    rw [grantTurn]
    split
    · exact List.length_map ..
    · rfl

/-- A call registers an operation only if it spawns. -/
theorem size_callTurn (program : Program σ μ) (id : OperationId) (next : σ)
    (ex : Execution γ σ μ) {request : Request σ} (h : ∀ name body, request ≠ .spawn name body) :
    (ex.callTurn program id next request).execution.size = ex.size := by
  have hjoin (targets : List OperationId) (all : Bool) :
      (ex.joinTurn program id next targets all).execution.size = ex.size := by
    rw [joinTurn]
    split
    · rfl
    · exact size_park ..
  have hresource (resource : ResourceId) (kind : StepKind) (primitive : Primitive σ) :
      (ex.resourceTurn program id next resource kind primitive).execution.size = ex.size := by
    rw [resourceTurn]
    split
    · exact size_park ..
    · rfl
  cases request with
  | spawn name body => exact absurd rfl (h name body)
  | yield => exact size_park ..
  | receive events => exact size_park ..
  | join targets => exact hjoin targets true
  | joinAny targets =>
    rw [callTurn]
    split
    · rfl
    · exact hjoin targets false
  | send target message =>
    rw [callTurn]
    split
    · exact size_park ..
    · rfl
  | acquire resource => exact hresource resource _ _
  | release resource => exact hresource resource _ _
  | assert condition message =>
    rw [callTurn]
    split <;> rfl
  | setMonitor monitor isHot =>
    rw [callTurn]
    split <;> rfl
  | _ => rfl

/-- If no body spawns, no turn registers an operation. -/
theorem size_turn {program : Program σ μ} (hprogram : program.NeverSpawns) {turn : Turn γ σ μ}
    (hturn : ex.turn? program = some turn) : turn.execution.size = ex.size := by
  obtain ⟨-, ⟨primitive, next, -, -, rfl⟩ | ⟨state, reply, -, rfl⟩⟩ := turn?_cases hturn
  · exact size_grantTurn ..
  · have hspawns := hprogram ex.iteration.current state reply ex.memory
    generalize program.resume ex.iteration.current state reply ex.memory = resumed at hspawns ⊢
    obtain ⟨action, memory⟩ := resumed
    cases action with
    | work next => rfl
    | call request next =>
      exact size_callTurn program _ next _ fun name body heq => hspawns name body next (by rw [heq])
    | finish => exact size_updateOperation ..
    | raise message => rfl
    | giveUp => rfl

end Execution

/-- What is ahead asks for no choice among operations, and leaves their number at one. -/
def Prospect.IsSequential : Prospect γ σ μ → Prop
  | .alone after => after.size = 1
  | .asking _ query next =>
    (query.IsValue ∨ query.alternatives.length ≤ 1) ∧ ∀ answer, (next answer).size = 1

namespace Execution

variable {ex : Execution γ σ μ}

/-- An ending that changes no record leaves the number of operations alone. -/
theorem size_of_sameRecord (ex : Execution γ σ μ) {it after : Iteration γ}
    (h : it.SameRecord after) :
    { ex with iteration := after }.size = { ex with iteration := it }.size :=
  congrArg List.length h.operations

/-- One operation is no choice when the turn is passed on. -/
theorem isSequential_scheduling (h : ex.size = 1) (maxSteps : Nat) :
    (ex.scheduling maxSteps).IsSequential := by
  have henabled : ex.iteration.enableWaiting.operations.length = 1 := (List.length_map ..).trans h
  rw [scheduling]
  split
  · exact h
  · split
    · exact (size_of_sameRecord ex (Iteration.sameRecord_stop _ _)).trans henabled
    · split
      · exact (size_of_sameRecord ex (Iteration.sameRecord_cutOff _)).trans henabled
      · split
        · exact henabled
        · split
          · refine ⟨.inr ?_, fun _ => henabled⟩
            rw [Query.alternatives, Operation.enabledIds, List.length_map]
            exact Nat.le_trans (List.length_filter_le _ _) (Nat.le_of_eq henabled)
          · exact (size_of_sameRecord ex (Iteration.sameRecord_endWithoutChoice _)).trans
              henabled

/-- A value is asked for, and not an operation. -/
theorem isSequential_choosing (h : ex.size = 1) (maxSteps : Nat) (id : OperationId) (next : σ)
    {query : Query} (hquery : query.IsValue) (wrap : query.Answer → Reply) :
    (ex.choosing maxSteps id next query wrap).IsSequential := by
  rw [choosing]
  split
  · exact (size_of_sameRecord ex (Iteration.sameRecord_cutOff _)).trans h
  · split
    · exact h
    · exact ⟨.inl hquery, fun _ => h⟩

/-- With one operation a turn leads to no choice among operations. -/
theorem isSequential_prospect {turn : Turn γ σ μ} (h : turn.Settled)
    (hsize : turn.execution.size = 1) (maxSteps : Nat) :
    (turn.prospect maxSteps).IsSequential := by
  cases turn with
  | quiet ex => exact hsize
  | point ex => exact isSequential_scheduling hsize maxSteps
  | choice id next query wrap ex => exact isSequential_choosing hsize maxSteps id next h.2.2 wrap
  | bug kind message ex =>
    exact (size_of_sameRecord ex (Iteration.sameRecord_reportBug kind message _)).trans hsize
  | fault cause ex => exact hsize

/-- The tree of a program is sequential while there is one operation and no body spawns. -/
theorem isSequential_unfold [RandomSource γ] {program : Program σ μ}
    (hprogram : program.NeverSpawns) (hsettled : ex.Settled) (h : ex.size = 1)
    (maxSteps fuel : Nat) : (ex.unfold program maxSteps fuel).IsSequential := by
  induction fuel generalizing ex with
  | zero => trivial
  | succ fuel ih =>
    rw [unfold]
    split
    · trivial
    · next turn hturn =>
      have hahead := isOf_turn_prospect hsettled hturn maxSteps
      have hsequential := isSequential_prospect (hsettled.turn hturn)
        ((size_turn hprogram hturn).trans h) maxSteps
      split
      · next after hprospect =>
        rw [hprospect] at hahead hsequential
        exact ih hahead.settled hsequential
      · next current query next hprospect =>
        rw [hprospect] at hahead hsequential
        exact ⟨hsequential.1, fun answer => ih (hahead.takenOn answer).settled (hsequential.2 answer)⟩

end Execution

end ScheduleExplorer
