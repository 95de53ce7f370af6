import ScheduleExplorer.Proofs.Dpor.Races
import ScheduleExplorer.Proofs.Execution.Driven
import ScheduleExplorer.Proofs.Execution.Frames
import ScheduleExplorer.Proofs.Execution.Stamps

/-!
# Which sends a search knows of

Under partial-order reduction the frame of a turn in which an operation receives a message is to be
marked with the turn in which the message was sent, so that the analysis of races sees that the one
comes after the other.

An operation that completes forgets the send, and the search asks for it only when the turn is passed
on. So the frame is marked if the receiver goes on to another scheduling point, and it is marked
beforehand if the message has woken the receiver; otherwise it keeps the mark with which it was
entered.
-/

namespace ScheduleExplorer

variable {γ σ μ : Type}

/-- The last one of a list that is held last first. -/
theorem getElem?_reverse_last {α : Type} (last : α) (earlier : List α) :
    (last :: earlier).reverse[earlier.length]? = some last := by
  simp

/-- The last but one of a list that is held last first. -/
theorem getElem?_reverse_second {α : Type} (last second : α) (earlier : List α) :
    (last :: second :: earlier).reverse[earlier.length]? = some second := by
  simp

variable [RandomSource γ]

namespace Iteration

omit [RandomSource γ] in
/-- What an operation has last received from, in a numbered table. -/
theorem IsNumbered.sendOf?_eq {it : Iteration γ} (h : it.IsNumbered) (id : OperationId) :
    Operation.sendOf? it.operations id = (it.operation? id).bind (·.matchingSend) := by
  rw [Operation.sendOf?]
  cases hfind : it.operations.find? fun op => op.id = id with
  | none =>
    cases hop : it.operation? id with
    | none => rfl
    | some op =>
      have hother := List.find?_eq_none.mp hfind op (List.mem_of_getElem? hop)
      simp [h id op hop] at hother
  | some found =>
    obtain ⟨index, hindex⟩ := List.mem_iff_getElem?.mp (List.mem_of_find?_eq_some hfind)
    have hid : found.id = id := by simpa using List.find?_some hfind
    have hplace : it.operation? ⟨index⟩ = some found := hindex
    rw [← h _ _ hplace, hid] at hplace
    rw [hplace]

end Iteration

namespace Execution

omit [RandomSource γ] in
/-- A step of an execution makes the path of the search grow. -/
theorem FrameStep.extends {ex after : Execution γ σ μ} {s later : Dpor γ}
    (h : FrameStep ex after s later) : s.Extends later := by
  cases h with
  | stays h => exact h.extends
  | enters h => exact h.extends

/-- No step takes an operation away. -/
theorem length_operations_step {program : Program σ μ} {ex after : Execution γ σ μ}
    (hstep : ex.step program = some after) :
    ex.iteration.operations.length ≤ after.iteration.operations.length := by
  rcases isDriven_step hstep with harises | ⟨before, fault, harises, hafter⟩
  · exact harises.length_operations
  · rw [hafter]
    exact harises.length_operations

/-- An execution at the beginning of an iteration of a search. -/
structure BeginsSearch (program : Program σ μ) (s : Dpor γ) (start : Execution γ σ μ) : Prop where
  start : ∃ strategy monitors coverage depthBoundIsBug,
    start = .start program { strategy, monitors, coverage, depthBoundIsBug } ∧
      strategy.dpor? = some s ∧ monitors.violation = none
  path : s.path = []

/-- Whose turn the last frame is. While the body is still parked, the frame has the mark with which it
was entered; beyond the frames of the iteration before this is the send that the operation has last
received from. -/
structure Tracked (count : Nat) (s : Dpor γ) (ex : Execution γ σ μ) : Prop where
  stamped : ∃ bound, ex.IsStamped bound
  selected : ∀ mark earlier, s.marks = mark :: earlier → mark.1 = some ex.iteration.current
  fresh : ∀ mark earlier, s.marks = mark :: earlier → count ≤ earlier.length →
    ∀ primitive next, ex.stage? ex.iteration.current = some (.parked primitive next) →
      mark.2 = Operation.sendOf? ex.iteration.operations ex.iteration.current

/-- What is known of an execution of a search at any time. -/
structure Searched (program : Program σ μ) (count : Nat) (s : Dpor γ) (ex : Execution γ σ μ) : Prop
    where
  recorded : ∃ journal, Recorded program ex journal
  searches : ex.iteration.Searches s
  ahead : s.ahead.length ≤ count - s.marks.length
  tracked : ex.iteration.isRunning = true → Tracked count s ex

variable {program : Program σ μ} {count : Nat} {s : Dpor γ} {start ex after : Execution γ σ μ}

omit [RandomSource γ] in
/-- An execution begins with the main operation alone. -/
theorem operations_start (program : Program σ μ) (strategy : Strategy γ) (monitors : Monitors)
    (coverage : Coverage) (depthBoundIsBug : Bool) :
    (Execution.start program { strategy, monitors, coverage, depthBoundIsBug }).iteration.operations =
      [(Operation.new ⟨0⟩ "main").create] := by
  simp [Execution.start, Iteration.register, Iteration.update]

omit [RandomSource γ] in
/-- Nothing has been sent when an execution begins. -/
theorem slot?_start {program : Program σ μ} {strategy : Strategy γ} {monitors : Monitors}
    {coverage : Coverage} {depthBoundIsBug : Bool} {id : OperationId} {slot : Slot σ}
    (h : (Execution.start program { strategy, monitors, coverage, depthBoundIsBug }).slot? id =
      some slot) : slot.inbox = [] ∧ slot.operation.matchingSend = none := by
  obtain ⟨hop, -, hinbox⟩ := slot?_eq_some.mp h
  rw [Iteration.operation?, operations_start, List.getElem?_singleton] at hop
  rw [Execution.start, List.getElem?_singleton] at hinbox
  split at hop
  · next hfirst =>
    rw [if_pos hfirst] at hinbox
    exact ⟨(Option.some.inj hinbox).symm, Option.some.inj hop ▸ rfl⟩
  · cases hop

/-- An iteration of a search begins with no frames. -/
theorem BeginsSearch.searched (h : start.BeginsSearch program s) :
    Searched program s.ahead.length s start := by
  obtain ⟨⟨strategy, monitors, coverage, depthBoundIsBug, rfl, hs, hclean⟩, hpath⟩ := h
  have hmarks : s.marks = [] := by rw [Dpor.marks, hpath, List.map_nil]
  refine ⟨⟨{}, .start strategy monitors coverage depthBoundIsBug⟩,
    ⟨hs, hclean, by rw [hmarks]; rfl⟩, by rw [hmarks]; exact Nat.le_refl _, fun _ => ⟨⟨0, ?_⟩, ?_, ?_⟩⟩
  · refine ⟨Nat.zero_le _, fun primitive next hstage hnot => ?_, fun id slot hslot => ?_⟩
    · exact absurd (Stage.parked.inj (Option.some.inj hstage)).1.symm hnot
    · obtain ⟨hinbox, hsend⟩ := slot?_start hslot
      exact Slot.stamped_of_nil 0 hinbox hsend
  · rw [hmarks]
    intro _ _ heq
    cases heq
  · rw [hmarks]
    intro _ _ heq
    cases heq

/-- A step keeps all that is known of an execution of a search. -/
theorem Searched.step [BoundedRandomSource γ] (h : Searched program count s ex)
    (hstep : ex.step program = some after) :
    ∃ later, Searched program count later after ∧ FrameStep ex after s later := by
  obtain ⟨journal, hrecorded⟩ := h.recorded
  have hrunning := isRunning_of_step hstep
  have hin := hrecorded.inOrder hrunning
  obtain ⟨bound, hstamped⟩ := (h.tracked hrunning).stamped
  obtain ⟨later, hlater, hframes⟩ := exists_search_step h.searches hrecorded.settled hin hstep
  have hsteps : ex.iteration.operationSteps ≤ after.iteration.operationSteps := by
    rw [← h.searches.steps, ← hlater.steps]
    exact hframes.extends.le
  have hslots (id : OperationId) (slot : Slot σ) (hslot : after.slot? id = some slot) :
      slot.Stamped ex.iteration.operationSteps := by
    rcases mailsTo_step hrecorded.settled hin hstep id slot hslot with
      ⟨-, hinbox, hsend⟩ | ⟨old, hold, hmails⟩
    · exact Slot.stamped_of_nil _ hinbox hsend
    · exact hmails.stamped hstamped (hrecorded.settled.fits id old hold) (hstamped.stamped id old hold)
  have hahead := h.ahead
  refine ⟨later, ⟨⟨_, hrecorded.step hstep⟩, hlater, ?_, fun hgoesOn => ?_⟩, hframes⟩
  · cases hframes with
    | stays hstays => rwa [hstays.ahead, hstays.marks]
    | enters henters =>
      rw [henters.length_marks]
      rcases henters.ahead with hrest | hnone
      · rw [hrest, List.length_tail]
        omega
      · rw [hnone]
        exact Nat.zero_le _
  · cases hframes with
    | stays hstays hturn =>
      obtain ⟨hcurrent, hleft⟩ := hturn hgoesOn
      refine ⟨⟨_, hsteps, fun primitive next hstage => absurd hstage (hleft primitive next), hslots⟩,
        ?_, fun _ _ _ _ primitive next hstage => absurd hstage (hleft primitive next)⟩
      rw [hcurrent, hstays.marks]
      exact (h.tracked hrunning).selected
    | enters henters =>
      obtain ⟨send, hmarks, hsend⟩ := henters.marks
      refine ⟨⟨_, hsteps, fun _ _ _ _ => ?_, hslots⟩, fun mark earlier hcons => ?_,
        fun mark earlier hcons hcount _ _ _ => ?_⟩
      · rw [← h.searches.steps, ← hlater.steps, henters.length_marks]
        exact Nat.lt_succ_self _
      · rw [← (List.cons.inj (hmarks.symm.trans hcons)).1]
      · obtain ⟨rfl, rfl⟩ := List.cons.inj (hmarks.symm.trans hcons)
        rw [Dpor.length_remark] at hcount
        refine hsend (List.eq_nil_of_length_eq_zero ?_)
        omega

/-! ### Moments of a run -/

section Moments

variable [BoundedRandomSource γ]

omit [BoundedRandomSource γ] in
/-- A run goes on by a step, or it stays. -/
theorem run_succ_cases (program : Program σ μ) (start : Execution γ σ μ) (moment : Nat) :
    (start.run program moment).step program = some (start.run program (moment + 1)) ∨
      (start.run program moment).step program = none ∧
        start.run program (moment + 1) = start.run program moment := by
  rw [run_add program start moment 1]
  cases hstep : (start.run program moment).step program with
  | none => exact .inr ⟨rfl, run_eq_self hstep 1⟩
  | some after => exact .inl (by rw [run_succ hstep, run])

/-- The frames of a moment are there at the next one. -/
theorem Searched.succ {moment : Nat} (h : Searched program count s (start.run program moment)) :
    ∃ later, Searched program count later (start.run program (moment + 1)) ∧
      (((start.run program moment).step program = none ∧
          start.run program (moment + 1) = start.run program moment ∧ later = s) ∨
        (start.run program moment).step program = some (start.run program (moment + 1)) ∧
          FrameStep (start.run program moment) (start.run program (moment + 1)) s later) := by
  rcases run_succ_cases program start moment with hstep | ⟨hnone, hsame⟩
  · obtain ⟨later, hlater, hframes⟩ := h.step hstep
    exact ⟨later, hlater, .inr ⟨hstep, hframes⟩⟩
  · exact ⟨s, hsame ▸ h, .inl ⟨hnone, hsame, rfl⟩⟩

omit [BoundedRandomSource γ] in
/-- There is one search at a moment. -/
theorem Searched.eq {other : Dpor γ} (h : Searched program count s ex)
    (hother : Searched program count other ex) : s = other :=
  Option.some.inj (h.searches.search.symm.trans hother.searches.search)

/-- The frames of a moment are there at any later one. -/
theorem Searched.exists_extends {first second : Nat} (hle : first ≤ second)
    (h : Searched program count s (start.run program first)) :
    ∃ later, Searched program count later (start.run program second) ∧ s.Extends later := by
  induction second, hle using Nat.le_induction with
  | base => exact ⟨s, h, .refl s⟩
  | succ second hle ih =>
    obtain ⟨between, hbetween, hextends⟩ := ih
    obtain ⟨later, hlater, ⟨-, -, rfl⟩ | ⟨-, hframes⟩⟩ := hbetween.succ
    · exact ⟨_, hlater, hextends⟩
    · exact ⟨later, hlater, hextends.trans hframes.extends⟩

/-- At every moment there is a search. -/
theorem BeginsSearch.exists_searched (h : start.BeginsSearch program s) (moment : Nat) :
    ∃ later, Searched program s.ahead.length later (start.run program moment) := by
  have hstart : Searched program s.ahead.length s (start.run program 0) := h.searched
  obtain ⟨later, hlater, -⟩ := hstart.exists_extends (Nat.zero_le moment)
  exact ⟨later, hlater⟩

/-- No turn is taken back. -/
theorem Searched.operationSteps_le {first second : Nat} (hle : first ≤ second)
    (h : Searched program count s (start.run program first)) :
    (start.run program first).iteration.operationSteps ≤
      (start.run program second).iteration.operationSteps := by
  obtain ⟨later, hlater, hextends⟩ := h.exists_extends hle
  rw [← h.searches.steps, ← hlater.searches.steps]
  exact hextends.le

/-- The operation waits for a message of a type. -/
def Awaits (id : OperationId) (event : EventType) (ex : Execution γ σ μ) : Prop :=
  ∃ op, ex.iteration.operation? id = some op ∧ op.awaitsEvent event = true

/-- The next step sends an envelope. -/
structure Posts (program : Program σ μ) (receiver : OperationId) (envelope : Envelope)
    (ex : Execution γ σ μ) : Prop extends ex.Sends receiver envelope where
  arrives : ∃ after, ex.step program = some after ∧
    after.inbox receiver = ex.inbox receiver ++ [envelope]

/-- A message that waits has been sent at an earlier moment, and the operation has last received from
its send just if it awaited the message then. -/
theorem BeginsSearch.exists_posts (h : start.BeginsSearch program s) {moment : Nat} {id : OperationId}
    {slot : Slot σ} (hslot : (start.run program moment).slot? id = some slot) {envelope : Envelope}
    (henvelope : envelope ∈ slot.inbox) :
    ∃ sent < moment, (start.run program sent).Posts program id envelope ∧
      (slot.operation.matchingSend = some envelope.sendStep ↔
        (start.run program sent).Awaits id envelope.message.event) := by
  induction moment generalizing slot with
  | zero =>
    obtain ⟨⟨strategy, monitors, coverage, depthBoundIsBug, rfl, -⟩, -⟩ := h
    rw [(slot?_start hslot).1] at henvelope
    cases henvelope
  | succ moment ih =>
    rcases run_succ_cases program start moment with hstep | ⟨-, hsame⟩
    · obtain ⟨between, hbetween⟩ := h.exists_searched moment
      obtain ⟨journal, hrecorded⟩ := hbetween.recorded
      have hrunning := isRunning_of_step hstep
      obtain ⟨bound, hstamped⟩ := (hbetween.tracked hrunning).stamped
      rcases mailsTo_step hrecorded.settled (hrecorded.inOrder hrunning) hstep id slot hslot with
        ⟨-, hinbox, -⟩ | ⟨old, hold, hmails⟩
      · rw [hinbox] at henvelope
        cases henvelope
      · rcases hmails.origin hstamped (hstamped.stamped id old hold) henvelope with
          ⟨hwaited, hsend⟩ | ⟨hsends, hinbox, hsend⟩
        · obtain ⟨sent, hsent, hposts, hawaits⟩ := ih hold hwaited
          exact ⟨sent, Nat.lt_succ_of_lt hsent, hposts, hsend.trans hawaits⟩
        · obtain ⟨hop, -, hbefore⟩ := slot?_eq_some.mp hold
          obtain ⟨-, -, hafter⟩ := slot?_eq_some.mp hslot
          refine ⟨moment, Nat.lt_succ_self moment, ⟨hsends, _, hstep, ?_⟩, hsend.trans ?_⟩
          · rw [inbox, inbox, hbefore, hafter]
            exact hinbox
          · constructor
            · exact fun hawaits => ⟨old.operation, hop, hawaits⟩
            · rintro ⟨op, hop', hawaits⟩
              exact Option.some.inj (hop'.symm.trans hop) ▸ hawaits
    · rw [hsame] at hslot
      obtain ⟨sent, hsent, hposts⟩ := ih hslot henvelope
      exact ⟨sent, Nat.lt_succ_of_lt hsent, hposts⟩

/-! ### Receipts -/

/-- The turn is that of an operation whose receive takes an envelope. -/
structure Receives (envelope : Envelope) (ex : Execution γ σ μ) : Prop where
  running : ex.iteration.isRunning = true
  takes : ∃ events next rest, ex.stage? ex.iteration.current = some (.parked (.receive events) next) ∧
    (ex.inbox ex.iteration.current).take? events = some (envelope, rest)

omit [BoundedRandomSource γ] in
/-- The next step takes the envelope without passing the turn on, and the operation has then last
received from its send. -/
theorem Receives.exists_step {envelope : Envelope} {pending : OperationId → Option (Request σ)}
    (h : ex.Receives envelope) (hin : ex.InOrder pending ex.iteration.current)
    (program : Program σ μ) :
    ∃ after, ex.step program = some after ∧
      after.iteration.operationSteps = ex.iteration.operationSteps ∧
      (after.iteration.operation? ex.iteration.current).bind (·.matchingSend) =
        some envelope.sendStep := by
  obtain ⟨events, next, rest, hstage, htake⟩ := h.takes
  obtain ⟨op, hop, -⟩ := hin.enabled
  have htaken : ex.takeMessage? ex.iteration.current events = some (envelope,
      { ex with inboxes := ex.inboxes.set ex.iteration.current.index rest }) := by
    rw [inbox] at htake
    rw [takeMessage?]
    cases hinbox : ex.inboxes[ex.iteration.current.index]? with
    | none =>
      rw [hinbox] at htake
      cases htake
    | some inbox =>
      rw [hinbox, Option.getD_some] at htake
      simp only [Option.bind_eq_bind, Option.bind_some, htake, Option.pure_def]
  have hstep : ex.step program = some
      ((({ ex with inboxes := ex.inboxes.set ex.iteration.current.index rest } :
          Execution γ σ μ).updateOperation ex.iteration.current
            (Operation.receive envelope.sendStep)).reply ex.iteration.current next
              (.message envelope.message)) := by
    simp only [Execution.step, h.running, hstage, hin.isEnabled, if_true, grant, htaken]
  refine ⟨_, hstep, rfl, ?_⟩
  have hop' : ex.iteration.operations[ex.iteration.current.index]? = some op := hop
  simp only [Execution.reply, Execution.setStage, updateOperation, mapIteration, Iteration.update,
    Iteration.operation?, List.getElem?_modify_eq, hop']
  rfl

/-- The turn with a number is passed on before a moment, and the operation has not completed then. -/
def PassesOpen (program : Program σ μ) (start : Execution γ σ μ) (turn : Nat) (id : OperationId)
    (moment : Nat) : Prop :=
  ∃ last < moment, (start.run program last).iteration.operationSteps = turn ∧
    (start.run program (last + 1)).iteration.operationSteps = turn + 1 ∧
    (start.run program (last + 1)).iteration.isCompleted id = false

omit [BoundedRandomSource γ] in
/-- The turn is not passed on twice. -/
theorem passesOpen_succ_iff {turn moment : Nat} {id : OperationId}
    (h : (start.run program moment).iteration.operationSteps = turn →
      (start.run program (moment + 1)).iteration.operationSteps ≠ turn + 1) :
    PassesOpen program start turn id (moment + 1) ↔ PassesOpen program start turn id moment := by
  constructor
  · rintro ⟨last, hlast, hturn, hpassed, hopen⟩
    rcases Nat.lt_succ_iff_lt_or_eq.mp hlast with hlt | rfl
    · exact ⟨last, hlt, hturn, hpassed, hopen⟩
    · exact absurd hpassed (h hturn)
  · rintro ⟨last, hlast, hpasses⟩
    exact ⟨last, Nat.lt_succ_of_lt hlast, hpasses⟩

/-- The turn in which a message was received goes on: the frames are those of its beginning, and the
operation has last received from the send of the message. -/
structure GoesOn (s : Dpor γ) (id : OperationId) (envelope : Envelope) (ex : Execution γ σ μ)
    (later : Dpor γ) : Prop where
  marks : later.marks = s.marks
  turn : ex.iteration.isRunning = true → ex.iteration.current = id ∧
    (ex.iteration.operation? id).bind (·.matchingSend) = some envelope.sendStep ∧
    ∀ primitive next, ex.stage? id ≠ some (.parked primitive next)

omit [BoundedRandomSource γ] in
/-- What the operation has last received from after one more step of the turn. -/
theorem GoesOn.send {later : Dpor γ} {id : OperationId} {envelope : Envelope} {journal : Journal σ}
    (h : GoesOn s id envelope ex later) (hrecorded : Recorded program ex journal)
    (hstep : ex.step program = some after) :
    (after.iteration.operation? id).bind (·.matchingSend) = some envelope.sendStep ∧
        after.iteration.isCompleted id = false ∨
      (after.iteration.operation? id).bind (·.matchingSend) = none ∧
        after.iteration.isCompleted id = true := by
  have hrunning := isRunning_of_step hstep
  have hsettled := hrecorded.settled
  have hin := hrecorded.inOrder hrunning
  obtain ⟨rfl, hsend, hstage⟩ := h.turn hrunning
  obtain ⟨op, hop, henabled⟩ := hin.enabled
  obtain ⟨new, hnew, -⟩ := (hrecorded.step hstep).settled.exists_slot
    (List.getElem?_eq_getElem (Nat.lt_of_lt_of_le (List.getElem?_eq_some_iff.mp hop).1
      (length_operations_step hstep)))
  obtain ⟨old, hold, rfl⟩ := hsettled.exists_slot hop
  obtain ⟨-, hbody, -⟩ := slot?_eq_some.mp hold
  rw [hop, Option.bind_some] at hsend
  rw [Iteration.isCompleted, (slot?_eq_some.mp hnew).1, Option.bind_some, Option.any_some, ← hsend]
  rcases mailsTo_step hsettled hin hstep _ new hnew with ⟨hnone, -⟩ | ⟨old', hold', hmails⟩
  · cases hnone.symm.trans hold
  · cases hold.symm.trans hold'
    refine (hmails.of_running henabled (fun primitive next heq => ?_) fun heq => ?_)
    · exact hstage primitive next (heq ▸ hbody)
    · exact hin.not_announced (heq ▸ hbody)

omit [BoundedRandomSource γ] in
/-- The operations of a searched execution are numbered by their positions. -/
theorem Searched.isNumbered (h : Searched program count s ex) : ex.iteration.IsNumbered := by
  obtain ⟨journal, hrecorded⟩ := h.recorded
  exact hrecorded.settled.isNumbered

/-- A turn that goes on has not been passed on. -/
theorem BeginsSearch.not_passesOpen (h : start.BeginsSearch program s) (moment : Nat)
    (id : OperationId) :
    ¬ PassesOpen program start (start.run program moment).iteration.operationSteps id moment := by
  rintro ⟨last, hlast, -, hpassed, -⟩
  obtain ⟨between, hbetween⟩ := h.exists_searched (last + 1)
  have hle := hbetween.operationSteps_le (Nat.succ_le_of_lt hlast)
  rw [hpassed] at hle
  exact absurd hle (Nat.not_succ_le_self _)

/-! ### The mark of a receipt -/

/-- The turn in which a message was received has been passed on, so that its frame has another one
after it. It is marked with the send just if the operation had not completed then, or if it had that
mark already. -/
structure IsPassedOn (program : Program σ μ) (start : Execution γ σ μ) (id : OperationId)
    (envelope : Envelope) (turn : Nat) (send : Option Nat) (moment : Nat) (later : Dpor γ) : Prop where
  lt : turn + 1 < later.marks.length
  marked : ∃ last, later.marks.reverse[turn]? = some (some id, last) ∧
    (last = some envelope.sendStep ↔
      PassesOpen program start (turn + 1) id moment ∨ send = some envelope.sendStep)

section Receipts

variable {first between later : Dpor γ} {received moment turn : Nat} {envelope : Envelope}
  {id : OperationId} {send : Option Nat} {earlier : List (Option OperationId × Option Nat)}

/-- The turn goes on after the step that takes the message. -/
theorem Searched.goesOn_of_receives (h : Searched program count s (start.run program received))
    (hreceives : (start.run program received).Receives envelope)
    (hid : (start.run program received).iteration.current = id) :
    ∃ later, Searched program count later (start.run program (received + 1)) ∧
      GoesOn s id envelope (start.run program (received + 1)) later := by
  obtain ⟨journal, hrecorded⟩ := h.recorded
  obtain ⟨after, hstep, hsteps, hsend⟩ :=
    hreceives.exists_step (hrecorded.inOrder hreceives.running) program
  obtain ⟨later, hlater, ⟨hnone, -⟩ | ⟨hstep', hframes⟩⟩ := h.succ
  · cases hnone.symm.trans hstep
  · obtain rfl := Option.some.inj (hstep.symm.trans hstep')
    refine ⟨later, hlater, ?_⟩
    cases hframes with
    | stays hstays hturn =>
      refine ⟨hstays.marks, fun hgoesOn => ?_⟩
      obtain ⟨hcurrent, hstage⟩ := hturn hgoesOn
      rw [hcurrent, hid] at hstage
      exact ⟨hcurrent.trans hid, hid ▸ hsend, hstage⟩
    | enters henters =>
      have hlength := henters.length_marks
      rw [h.searches.steps, hlater.searches.steps, hsteps] at hlength
      exact absurd hlength (Nat.ne_of_lt (Nat.lt_succ_self _))

omit [BoundedRandomSource γ] in
/-- The turn goes on as long as no frame is entered. -/
theorem GoesOn.stays {journal : Journal σ} (h : GoesOn s id envelope ex between)
    (hrecorded : Recorded program ex journal) (hstep : ex.step program = some after)
    (hstays : between.Stays later)
    (hturn : after.iteration.isRunning = true →
      after.iteration.current = ex.iteration.current ∧ ∀ primitive next,
        after.stage? after.iteration.current ≠ some (.parked primitive next)) :
    GoesOn s id envelope after later := by
  refine ⟨hstays.marks.trans h.marks, fun hgoesOn => ?_⟩
  obtain ⟨hcurrent, hstage⟩ := hturn hgoesOn
  rw [(h.turn (isRunning_of_step hstep)).1] at hcurrent
  obtain ⟨op, hop, henabled⟩ := ((hrecorded.step hstep).inOrder hgoesOn).enabled
  rw [hcurrent] at hstage hop
  refine ⟨hcurrent, ?_, hstage⟩
  rcases h.send hrecorded hstep with ⟨hkept, -⟩ | ⟨-, hdone⟩
  · exact hkept
  · rw [Iteration.isCompleted, hop, Option.any_some, henabled] at hdone
    cases hdone

/-- The turn is passed on by the step that enters the next frame. -/
theorem GoesOn.isPassedOn (hstart : start.BeginsSearch program first)
    (hmarks : s.marks = (some id, send) :: earlier)
    (h : GoesOn s id envelope (start.run program moment) between)
    (hbetween : Searched program count between (start.run program moment))
    (hlater : Searched program count later (start.run program (moment + 1)))
    (hstep : (start.run program moment).step program = some (start.run program (moment + 1)))
    (henters : between.Enters (start.run program (moment + 1)).iteration.operations
      (start.run program (moment + 1)).iteration.current later) :
    IsPassedOn program start id envelope earlier.length send (moment + 1) later := by
  obtain ⟨journal, hrecorded⟩ := hbetween.recorded
  have hlength : between.marks.length = earlier.length + 1 := by rw [h.marks, hmarks, List.length_cons]
  have hturn : (start.run program moment).iteration.operationSteps = earlier.length + 1 :=
    hbetween.searches.steps.symm.trans hlength
  have hlaterLength : later.marks.length = earlier.length + 2 := by rw [henters.length_marks, hlength]
  have hpassed : (start.run program (moment + 1)).iteration.operationSteps = earlier.length + 2 :=
    hlater.searches.steps.symm.trans hlaterLength
  -- The mark is made anew from what the operation has last received from.
  obtain ⟨next, hlaterMarks, -⟩ := henters.marks
  rw [h.marks, hmarks, Dpor.remark, Option.bind_some, hlater.isNumbered.sendOf?_eq] at hlaterMarks
  have hmark := getElem?_reverse_second
    (some (start.run program (moment + 1)).iteration.current, next) (some id,
      (((start.run program (moment + 1)).iteration.operation? id).bind
        (·.matchingSend)).orElse fun _ => send) earlier
  rw [← hlaterMarks] at hmark
  refine ⟨hlaterLength ▸ Nat.lt_succ_self _, _, hmark, ?_⟩
  rcases h.send hrecorded hstep with ⟨hkept, hopen⟩ | ⟨hforgotten, hdone⟩
  · rw [hkept]
    exact iff_of_true rfl (.inl ⟨moment, Nat.lt_succ_self _, hturn, hpassed, hopen⟩)
  · have hnot : ¬ PassesOpen program start (earlier.length + 1) id (moment + 1) := by
      rintro ⟨last, hlast, hbefore, hnext, hopen⟩
      rcases Nat.lt_succ_iff_lt_or_eq.mp hlast with hless | rfl
      · refine hstart.not_passesOpen moment id ?_
        rw [hturn]
        exact ⟨last, hless, hbefore, hnext, hopen⟩
      · cases hdone.symm.trans hopen
    rw [hforgotten, Option.orElse_none, or_iff_right hnot]

omit [BoundedRandomSource γ] in
/-- A turn that has been passed on keeps its mark. -/
theorem IsPassedOn.succ (h : IsPassedOn program start id envelope turn send moment between)
    (hbetween : Searched program count between (start.run program moment))
    (hextends : between.Extends later) :
    IsPassedOn program start id envelope turn send (moment + 1) later := by
  obtain ⟨last, hlast, hiff⟩ := h.marked
  refine ⟨h.lt.trans_le hextends.le, last, (hextends.marks turn h.lt).trans hlast, ?_⟩
  rw [hiff, passesOpen_succ_iff fun hturn => ?_]
  exact absurd (hbetween.searches.steps.trans hturn) (Nat.ne_of_gt h.lt)

/-- After a message was received the turn goes on until it is passed on. -/
theorem Searched.goesOn_or_isPassedOn (hstart : start.BeginsSearch program first)
    (h : Searched program count s (start.run program received))
    (hreceives : (start.run program received).Receives envelope)
    (hid : (start.run program received).iteration.current = id)
    (hmarks : s.marks = (some id, send) :: earlier) (hlt : received < moment) :
    ∃ later, Searched program count later (start.run program moment) ∧
      (GoesOn s id envelope (start.run program moment) later ∨
        IsPassedOn program start id envelope earlier.length send moment later) := by
  induction moment, hlt using Nat.le_induction with
  | base =>
    obtain ⟨later, hlater, hgoes⟩ := h.goesOn_of_receives hreceives hid
    exact ⟨later, hlater, .inl hgoes⟩
  | succ moment hlt ih =>
    obtain ⟨between, hbetween, hcases⟩ := ih
    obtain ⟨later, hlater, ⟨-, hsame, rfl⟩ | ⟨hstep, hframes⟩⟩ := hbetween.succ
    · refine ⟨later, hlater, ?_⟩
      rcases hcases with hgoes | hpassed
      · exact .inl (hsame ▸ hgoes)
      · exact .inr (hpassed.succ hbetween (.refl later))
    · refine ⟨later, hlater, ?_⟩
      rcases hcases with hgoes | hpassed
      · obtain ⟨journal, hrecorded⟩ := hbetween.recorded
        cases hframes with
        | stays hstays hturn => exact .inl (hgoes.stays hrecorded hstep hstays hturn)
        | enters henters =>
          exact .inr (hgoes.isPassedOn hstart hmarks hbetween hlater hstep henters)
      · exact .inr (hpassed.succ hbetween hframes.extends)

/-- The mark of the turn in which a message was received, at a later moment. -/
theorem Searched.exists_mark_of_receives (hstart : start.BeginsSearch program first)
    (h : Searched program count s (start.run program received))
    (hreceives : (start.run program received).Receives envelope)
    (hid : (start.run program received).iteration.current = id)
    (hmarks : s.marks = (some id, send) :: earlier) (hlt : received < moment) :
    ∃ later, Searched program count later (start.run program moment) ∧ ∃ last,
      later.marks.reverse[earlier.length]? = some (some id, last) ∧
        (last = some envelope.sendStep ↔ PassesOpen program start (earlier.length + 1) id moment ∨
          send = some envelope.sendStep) := by
  obtain ⟨later, hlater, hcases⟩ := h.goesOn_or_isPassedOn hstart hreceives hid hmarks hlt
  refine ⟨later, hlater, ?_⟩
  rcases hcases with hgoes | hpassed
  · have hmarked : later.marks = (some id, send) :: earlier := hgoes.marks.trans hmarks
    have hopen := hstart.not_passesOpen moment id
    rw [← hlater.searches.steps, hmarked, List.length_cons] at hopen
    refine ⟨send, ?_, (or_iff_right hopen).symm⟩
    rw [hmarked]
    exact getElem?_reverse_last _ _
  · exact hpassed.marked

omit [BoundedRandomSource γ] in
/-- The last frame is that of the turn. -/
theorem Searched.exists_marks (h : Searched program count s ex)
    (hrunning : ex.iteration.isRunning = true) (hturn : ex.iteration.operationSteps = turn + 1) :
    ∃ send earlier, s.marks = (some ex.iteration.current, send) :: earlier ∧ earlier.length = turn ∧
      s.sendAt? turn = send := by
  have hlength := h.searches.steps.trans hturn
  cases hmarks : s.marks with
  | nil =>
    rw [hmarks] at hlength
    cases hlength
  | cons mark earlier =>
    obtain ⟨selected, send⟩ := mark
    obtain rfl : selected = some ex.iteration.current := (h.tracked hrunning).selected _ earlier hmarks
    obtain rfl : earlier.length = turn := by
      rw [hmarks, List.length_cons] at hlength
      exact Nat.succ.inj hlength
    refine ⟨send, earlier, rfl, rfl, ?_⟩
    rw [Dpor.sendAt?_eq, hmarks, getElem?_reverse_last]
    rfl

/-- The frame of a turn in which a message is sent is there at any later moment. -/
theorem BeginsSearch.selectedIn?_of_posts (hstart : start.BeginsSearch program s) {sent : Nat}
    (hle : sent ≤ moment) {receiver : OperationId}
    (hposts : (start.run program sent).Posts program receiver envelope)
    (hlater : Searched program s.ahead.length later (start.run program moment)) :
    selectedIn? later.path.reverse envelope.sendStep = some envelope.sender := by
  obtain ⟨sending, hsending⟩ := hstart.exists_searched sent
  obtain ⟨extended, hextended, hextends⟩ := hsending.exists_extends hle
  obtain rfl := hextended.eq hlater
  obtain ⟨after, hstep, -⟩ := hposts.arrives
  obtain ⟨send, earlier, hmarks, hlength, -⟩ :=
    hsending.exists_marks (isRunning_of_step hstep) hposts.step
  have hlt : envelope.sendStep < sending.marks.length := by
    rw [hmarks, List.length_cons, hlength]
    exact Nat.lt_succ_self _
  rw [Dpor.selectedIn?_path, hextends.selected _ hlt, hmarks, ← hlength, getElem?_reverse_last,
    hposts.turn]
  rfl

omit [BoundedRandomSource γ] in
/-- A message that is received has been waiting since an earlier turn. -/
theorem Searched.exists_slot_of_receives (h : Searched program count s ex)
    (hreceives : ex.Receives envelope) (hturn : ex.iteration.operationSteps = turn + 1) :
    ∃ slot, ex.slot? ex.iteration.current = some slot ∧ envelope ∈ slot.inbox ∧
      envelope.sendStep < turn := by
  obtain ⟨journal, hrecorded⟩ := h.recorded
  obtain ⟨⟨bound, hstamped⟩, -, -⟩ := h.tracked hreceives.running
  obtain ⟨events, next, rest, hstage, htake⟩ := hreceives.takes
  obtain ⟨op, hop, -⟩ := (hrecorded.inOrder hreceives.running).enabled
  obtain ⟨slot, hslot, rfl⟩ := hrecorded.settled.exists_slot hop
  have hwaits : envelope ∈ slot.inbox := by
    obtain ⟨before, after, hinbox, -⟩ := Inbox.eq_append_of_take? htake
    rw [inbox, (slot?_eq_some.mp hslot).2.2, Option.getD_some] at hinbox
    simp [hinbox]
  have hbelow := (hstamped.stamped _ slot hslot).below envelope hwaits
  have hbound := hstamped.lt (.receive events) next hstage fun heq => by cases heq
  exact ⟨slot, hslot, hwaits, by omega⟩

end Receipts

omit [RandomSource γ] [BoundedRandomSource γ] in
/-- What an operation does from a receive on does not race with the send that the frame of the receive
is marked with. -/
theorem not_isRace_of_sendAt? {send turn later : Nat} {receiver : OperationId} {step : PendingStep}
    (hlt : send < turn) (hreceiver : selectedIn? s.path.reverse turn = some receiver)
    (hsend : s.sendAt? turn = some send)
    (hkind : (selectedAt? s.path.reverse turn).map (·.2.kind) = some .receive) (hle : turn ≤ later)
    (hlater : selectedAt? s.path.reverse later = some (receiver, step)) :
    ¬ IsRace s.path.reverse send later := by
  obtain ⟨frame, hframe, hselected⟩ := Option.bind_eq_some_iff.mp hreceiver
  obtain ⟨⟨id, taken⟩, htaken, hreceive⟩ := Option.map_eq_some_iff.mp hkind
  rw [selectedAt?, hframe, Option.bind_some] at htaken
  rw [Dpor.sendAt?, hframe, Option.bind_some] at hsend
  obtain rfl := Option.some.inj ((Frame.selected_of_selectedStep? htaken).symm.trans hselected)
  exact not_isRace_of_matchingSend hlt hframe htaken hreceive hsend hle hlater

/-- What the frames of a path say of a message that an operation has received in a turn. -/
structure IsReceipt (frames : List Frame) (turn : Nat) (receiver : OperationId) (envelope : Envelope) :
    Prop where
  lt : envelope.sendStep < turn
  sender : selectedIn? frames envelope.sendStep = some envelope.sender
  receiver : selectedIn? frames turn = some receiver

/-- A message that an operation receives under partial-order reduction was sent in an earlier turn. At
any later moment of the iteration the path has a frame for either turn, and the frame of the receipt is
marked with the turn of the send just if the receiver has gone on to another scheduling point, or the
frame was so marked when it was entered: in a new frame this is so just if the receiver awaited the
message when it was sent. A receive whose frame is so marked does not race with the send, nor does
what the receiver does after it. -/
theorem sendAt?_of_receives (hstart : start.BeginsSearch program s) {received moment : Nat}
    (hlt : received < moment) {envelope : Envelope} {receiver : OperationId} {turn : Nat}
    (hreceives : (start.run program received).Receives envelope)
    (hreceiver : (start.run program received).iteration.current = receiver)
    (hturn : (start.run program received).iteration.operationSteps = turn + 1) :
    ∃ sent < received, (start.run program sent).Posts program receiver envelope ∧
    ∃ entered searched, (start.run program received).iteration.strategy.dpor? = some entered ∧
      (start.run program moment).iteration.strategy.dpor? = some searched ∧
      IsReceipt searched.path.reverse turn receiver envelope ∧
      (searched.sendAt? turn = some envelope.sendStep ↔
        PassesOpen program start (turn + 1) receiver moment ∨
          entered.sendAt? turn = some envelope.sendStep) ∧
      (s.ahead.length ≤ turn → (entered.sendAt? turn = some envelope.sendStep ↔
        (start.run program sent).Awaits receiver envelope.message.event)) ∧
      (searched.sendAt? turn = some envelope.sendStep →
        (selectedAt? searched.path.reverse turn).map (·.2.kind) = some .receive →
        ∀ later step, turn ≤ later →
          selectedAt? searched.path.reverse later = some (receiver, step) →
          ¬ IsRace searched.path.reverse envelope.sendStep later) := by
  obtain ⟨entered, hentered⟩ := hstart.exists_searched received
  obtain ⟨slot, hslot, hwaits, hstep⟩ := hentered.exists_slot_of_receives hreceives hturn
  obtain ⟨send, earlier, hmarks, hearlier, hnoted⟩ := hentered.exists_marks hreceives.running hturn
  rw [hreceiver] at hslot hmarks
  obtain ⟨sent, hsent, hposts, hawaits⟩ := hstart.exists_posts hslot hwaits
  obtain ⟨searched, hsearched, last, hlast, hiff⟩ :=
    hentered.exists_mark_of_receives hstart hreceives hreceiver hmarks hlt
  rw [hearlier] at hlast hiff
  have hselected : selectedIn? searched.path.reverse turn = some receiver := by
    rw [Dpor.selectedIn?_path, hlast]
    rfl
  have hsendAt : searched.sendAt? turn = last := by
    rw [Dpor.sendAt?_eq, hlast]
    rfl
  refine ⟨sent, hsent, hposts, entered, searched, hentered.searches.search,
    hsearched.searches.search, ⟨hstep, ?_, hselected⟩, ?_, fun hcount => ?_, ?_⟩
  · exact hstart.selectedIn?_of_posts (Nat.le_of_lt (hsent.trans hlt)) hposts hsearched
  · rw [hsendAt, hnoted]
    exact hiff
  · -- A frame that is new has been marked from the table when it was entered.
    obtain ⟨events, next, -, hstage, -⟩ := hreceives.takes
    have hread := (hentered.tracked hreceives.running).fresh _ earlier hmarks (hearlier ▸ hcount) _
      next hstage
    rw [hentered.isNumbered.sendOf?_eq, hreceiver, (slot?_eq_some.mp hslot).1,
      Option.bind_some] at hread
    rw [hnoted, ← hawaits, ← hread]
  · exact fun hsend hkind later step hle hlater =>
      not_isRace_of_sendAt? hstep hselected hsend hkind hle hlater

/-- A program whose first operation sends a message to another, which receives it and may linger. -/
def courier (lingers : Bool) : Program Nat Unit where
  main := 0
  memory := ()
  resume _ state _ memory :=
    let action : Action Nat :=
      match state with
      | 0 => .call (.spawn "receiver" 10) 1
      | 1 => .call (.send ⟨1⟩ (.signal ⟨7⟩)) 2
      | 10 => .call (.receive [⟨7⟩]) 11
      | 11 => if lingers then .call .yield 12 else .finish
      | _ => .finish
    (action, memory)
  hasher := some fun _ => {}

end Moments

/-- The first iteration of an exhaustive search over the program. -/
def courierStart (lingers : Bool) : Execution Tape Nat Unit :=
  .start (courier lingers) { strategy := .dpor { maxSteps := 0 } }

/-- The courier begins under a search with an empty path. -/
theorem beginsSearch_courier (lingers : Bool) :
    (courierStart lingers).BeginsSearch (courier lingers) { maxSteps := 0 } :=
  ⟨⟨_, _, _, _, rfl, rfl, rfl⟩, rfl⟩

/-- The fourth turn is that of the receiver, which takes the message sent in the second. -/
theorem receives_courier (lingers : Bool) :
    ((courierStart lingers).run (courier lingers) 8).Receives ⟨.signal ⟨7⟩, ⟨0⟩, 1⟩ := by
  cases lingers <;> exact ⟨rfl, [⟨7⟩], 11, [], rfl, rfl⟩

/-- A receiver that lingers has its frame marked with the send. -/
theorem sendAt?_of_receives_lingering :
    ((courierStart true).run (courier true) 8).Receives ⟨.signal ⟨7⟩, ⟨0⟩, 1⟩ ∧
    ∃ searched, ((courierStart true).run (courier true) 12).iteration.strategy.dpor? = some searched ∧
      searched.sendAt? 3 = some 1 ∧ ¬ IsRace searched.path.reverse 1 3 := by
  have hreceives := receives_courier true
  obtain ⟨sent, -, -, entered, searched, -, hsearched, -, hmarked, -, hordered⟩ :=
    sendAt?_of_receives (beginsSearch_courier true) (by decide : 8 < 12) hreceives rfl rfl
  have hpasses : PassesOpen (courier true) (courierStart true) 4 ⟨1⟩ 12 :=
    ⟨9, by decide, rfl, rfl, rfl⟩
  have hsend := hmarked.mpr (.inl hpasses)
  refine ⟨hreceives, searched, hsearched, hsend, ?_⟩
  obtain rfl := Option.some.inj hsearched
  exact hordered hsend rfl 3 _ (Nat.le_refl 3) rfl

/-- A receiver that completes forgets the send before the search asks for it. When the iteration is
over its frame has no mark, and the send and the receive of the same message are reported as a race. -/
theorem sendAt?_eq_none_courier :
    (courierStart false).BeginsSearch (courier false) { maxSteps := 0 } ∧
    ((courierStart false).run (courier false) 8).Receives ⟨.signal ⟨7⟩, ⟨0⟩, 1⟩ ∧
    ((courierStart false).run (courier false) 10).iteration.outcome? = some .completed ∧
    ∃ searched, ((courierStart false).run (courier false) 10).iteration.strategy.dpor? =
        some searched ∧
      selectedIn? searched.path.reverse 3 = some ⟨1⟩ ∧ searched.sendAt? 3 = none ∧
      Race.ofPath searched.path.reverse = [⟨1, ⟨1⟩⟩] :=
  ⟨beginsSearch_courier false, receives_courier false, by decide +kernel, _, rfl, by decide +kernel,
    by decide +kernel, by decide +kernel⟩

end Execution

end ScheduleExplorer
