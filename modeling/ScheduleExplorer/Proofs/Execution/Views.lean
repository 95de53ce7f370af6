import ScheduleExplorer.Proofs.Execution.Diamond

/-!
# Views of the memory

A part of the memory on which no action depends, such as a log, is no part of what a program does.
`Program.SeenThrough` says that the actions depend only on a view of the memory, so that the program is
seen through it as another one. The turns of the two are the same, up to the view
(`Outlook.Plays.see`, `Outlook.exists_plays_of_see`).
-/

namespace ScheduleExplorer

variable {σ μ ν : Type}

/-- The actions of a program depend only on a view of its memory, and seen through it the program is
another one. -/
def Program.SeenThrough (view : μ → ν) (program : Program σ μ) (seen : Program σ ν) : Prop :=
  ∀ id state reply memory, seen.resume id state reply (view memory) =
    ((program.resume id state reply memory).1, view (program.resume id state reply memory).2)

/-- An outlook with a view of the memory. -/
def Outlook.see (view : μ → ν) (o : Outlook σ μ) : Outlook σ ν where
  size := o.size
  slots := o.slots
  holders := o.holders
  knows := o.knows
  memory := view o.memory

/-- The same is done to all but the memory, and the same to the view of it. -/
inductive Act.Sees (view : μ → ν) : Act σ μ → Act σ ν → Prop where
  | does {move : Move σ} {reach : Reach σ} {memory : μ → μ} {seen : ν → ν}
      (h : ∀ m, seen (view m) = view (memory m)) :
      Sees view (.does { move, reach, memory }) (.does { move, reach, memory := seen })
  | asks {next : σ} {query : Query} {wrap : query.Answer → Reply} {memory : μ → μ} {seen : ν → ν}
      (h : ∀ m, seen (view m) = view (memory m)) :
      Sees view (.asks next query wrap memory) (.asks next query wrap seen)
  | fails : Sees view .fails .fails

namespace Outlook

variable {view : μ → ν} {program : Program σ μ} {seen : Program σ ν} {id : OperationId}
  {o after : Outlook σ μ} {values : List Decision} {states : List (σ × Reply)}

/-- A primitive does the same. -/
theorem sees_grantAct (o : Outlook σ μ) (id : OperationId) (next : σ) (inbox : Inbox)
    (primitive : Primitive σ) : (o.grantAct id next inbox primitive).Sees view
      ((o.see view).grantAct id next inbox primitive) := by
  have hdoes (move : Move σ) (reach : Reach σ) : Act.Sees view (.does { move, reach })
      (.does { move, reach }) := .does fun _ => rfl
  cases primitive with
  | start => exact hdoes _ _
  | resume => exact hdoes _ _
  | spawn child body => exact hdoes _ _
  | send target message => exact hdoes _ _
  | join targets all =>
    have hjoined : (o.see view).isJoined targets all = o.isJoined targets all := rfl
    rw [grantAct, grantAct, hjoined]
    split
    · exact hdoes _ _
    · exact hdoes _ _
  | receive events =>
    rw [grantAct, grantAct]
    split
    · exact hdoes _ _
    · exact hdoes _ _
  | acquire resource =>
    have hholder : (o.see view).holder? resource = o.holder? resource := rfl
    rw [grantAct, grantAct, hholder]
    split
    · exact hdoes _ _
    · split
      · exact .fails
      · exact hdoes _ _
  | release resource =>
    have hholder : (o.see view).holder? resource = o.holder? resource := rfl
    rw [grantAct, grantAct, hholder]
    split
    · exact hdoes _ _
    · exact .fails

/-- An action does the same. -/
theorem sees_actionAct (o : Outlook σ μ) {memory : μ → μ} {change : ν → ν}
    (h : ∀ m, change (view m) = view (memory m)) (action : Action σ) :
    (o.actionAct memory action).Sees view ((o.see view).actionAct change action) := by
  have hdoes (move : Move σ) (reach : Reach σ) : Act.Sees view (.does { move, reach, memory })
      (.does { move, reach, memory := change }) := .does h
  have hif {condition : Prop} [Decidable condition] {act : Act σ μ} {acted : Act σ ν}
      (hact : act.Sees view acted) : Act.Sees view (if condition then act else .fails)
        (if condition then acted else .fails) := by
    split
    · exact hact
    · exact .fails
  cases action with
  | work next => exact hdoes _ _
  | finish => exact hdoes _ _
  | raise message => exact .fails
  | giveUp => exact hdoes _ _
  | call request next =>
    cases request with
    | yield => exact hdoes _ _
    | spawn name body => exact hdoes _ _
    | join targets => exact hif (hdoes _ _)
    | joinAny targets =>
      rw [actionAct, actionAct, callAct, callAct]
      split
      · exact hdoes _ _
      · exact hif (hdoes _ _)
    | send target message => exact hif (hdoes _ _)
    | receive events => exact hdoes _ _
    | createResource => exact hdoes _ _
    | acquire resource => exact hif (hdoes _ _)
    | release resource => exact hif (hdoes _ _)
    | boolean => exact .asks h
    | integer max => exact .asks h
    | assert condition message => exact hif (hdoes _ _)
    | setMonitor monitor isHot => exact hif (hdoes _ _)
    | foreignCall thread owner => exact .fails

/-- An operation does next the same. -/
theorem rel_see (h : program.SeenThrough view seen) (o : Outlook σ μ) (id : OperationId) :
    Option.Rel (Act.Sees view) (o.act? program id) ((o.see view).act? seen id) := by
  have hslots : (o.see view).slots id = o.slots id := rfl
  rw [act?, act?, hslots]
  cases o.slots id with
  | none => exact .none
  | some slot =>
    rw [Option.bind_some, Option.bind_some]
    split
    · split
      · exact .some (sees_grantAct o id _ _ _)
      · next state reply _ =>
        have hmemory : (o.see view).memory = view o.memory := rfl
        rw [hmemory, h id state reply o.memory]
        refine .some (sees_actionAct o (fun memory => ?_) _)
        rw [h id state reply memory]
      · exact .none
    · exact .none

/-- What is done leaves the same outlook, up to the view. -/
theorem see_perform {move : Move σ} {reach : Reach σ} {memory : μ → μ} {change : ν → ν}
    (h : ∀ m, change (view m) = view (memory m)) :
    (o.perform id { move, reach, memory }).see view =
      (o.see view).perform id { move, reach, memory := change } := by
  apply Outlook.ext <;> try rfl
  exact (h o.memory).symm

/-- What an operation does next is done also as it is seen. -/
theorem Moves.see (hview : program.SeenThrough view seen) {value : Option Decision}
    {deed : Deed σ μ} (h : o.Moves program id value deed) :
    ∃ shown, (o.see view).Moves seen id value shown ∧ shown.move = deed.move ∧
      (o.perform id deed).see view = (o.see view).perform id shown := by
  have hrel := rel_see hview o id
  cases h with
  | does hact =>
    rw [hact] at hrel
    generalize hseen : (o.see view).act? seen id = act at hrel
    cases hrel with
    | some hsees =>
      cases hsees with
      | does hmemory => exact ⟨_, .does hseen, rfl, see_perform hmemory⟩
  | draws hact value =>
    rw [hact] at hrel
    generalize hseen : (o.see view).act? seen id = act at hrel
    cases hrel with
    | some hsees =>
      cases hsees with
      | asks hmemory => exact ⟨_, .draws hseen value, rfl, see_perform hmemory⟩

/-- What is seen to be done next is done. -/
theorem exists_moves_of_see (hview : program.SeenThrough view seen) {value : Option Decision}
    {shown : Deed σ ν} (h : (o.see view).Moves seen id value shown) :
    ∃ deed, o.Moves program id value deed ∧ deed.move = shown.move ∧
      (o.perform id deed).see view = (o.see view).perform id shown := by
  have hrel := rel_see hview o id
  cases h with
  | does hact =>
    rw [hact] at hrel
    generalize hacts : o.act? program id = act at hrel
    cases hrel with
    | some hsees =>
      cases hsees with
      | does hmemory => exact ⟨_, .does hacts, rfl, see_perform hmemory⟩
  | draws hact value =>
    rw [hact] at hrel
    generalize hacts : o.act? program id = act at hrel
    cases hrel with
    | some hsees =>
      cases hsees with
      | asks hmemory => exact ⟨_, .draws hacts value, rfl, see_perform hmemory⟩

/-- A turn is a turn also as it is seen. -/
theorem Plays.see (hview : program.SeenThrough view seen)
    (h : o.Plays program id states values after) :
    (o.see view).Plays seen id states values (after.see view) := by
  induction h with
  | last h hpoint =>
    obtain ⟨shown, hmoves, hmove, hperform⟩ := h.see hview
    rw [hperform]
    exact .last hmoves (hmove ▸ hpoint)
  | step h hquiet rest ih =>
    obtain ⟨shown, hmoves, hmove, hperform⟩ := h.see hview
    rw [hperform] at ih
    exact .step hmoves (hmove ▸ hquiet) ih

/-- What is seen to be a turn is one. -/
theorem exists_plays_of_see (hview : program.SeenThrough view seen) {before final : Outlook σ ν}
    (h : before.Plays seen id states values final) (hbefore : o.see view = before) :
    ∃ after, o.Plays program id states values after ∧ after.see view = final := by
  induction h generalizing o with
  | last h hpoint =>
    subst hbefore
    obtain ⟨deed, hmoves, hmove, hperform⟩ := exists_moves_of_see hview h
    exact ⟨_, .last hmoves (hmove ▸ hpoint), hperform⟩
  | step h hquiet rest ih =>
    subst hbefore
    obtain ⟨deed, hmoves, hmove, hperform⟩ := exists_moves_of_see hview h
    obtain ⟨after, hplays, hafter⟩ := ih hperform
    exact ⟨after, .step hmoves (hmove ▸ hquiet) hplays, hafter⟩

/-! ### Turns in either order -/

variable {p q : OperationId}

/-- An operation stands beside another also as it is seen. -/
theorem Beside.see (h : o.Beside p q) : (o.see view).Beside p q :=
  ⟨h.bounded, ⟨h.enabled.known, h.enabled.enabled⟩, h.known, h.spawns⟩

/-- Operations are apart also as they are seen. -/
theorem Apart.see (h : o.Apart p q) : (o.see view).Apart p q :=
  ⟨h.ne, h.left.see, h.right.see, h.objects⟩

/-- Turns of two operations that are apart may be taken in either order if their bodies have nothing in
common of what is seen of the memory. -/
theorem Apart.exists_plays_of_separates (h : o.Apart p q) (hview : program.SeenThrough view seen)
    {statesP statesQ : List (σ × Reply)} (hseparates : seen.Separates p q statesP statesQ)
    {valuesP valuesQ : List Decision} {oP oQ : Outlook σ μ}
    (hp : o.Plays program p statesP valuesP oP) (hq : o.Plays program q statesQ valuesQ oQ)
    (hsize : oP.size = o.size ∨ oQ.size = o.size)
    (hholders : oP.holders.length = o.holders.length ∨ oQ.holders.length = o.holders.length)
    (hjoin : SameJoin p o oQ) (hother : SameJoin q o oP) :
    (oP.ready.HasEnabled q ∧ oQ.ready.HasEnabled p) ∧
      ∃ oPQ oQP, oP.ready.Plays program q statesQ valuesQ oPQ ∧
        oQ.ready.Plays program p statesP valuesP oQP ∧ oPQ.ready.see view = oQP.ready.see view := by
  obtain ⟨⟨hq', hp'⟩, seenPQ, seenQP, hthenQ, hthenP, hsame⟩ :=
    h.see.exists_plays hseparates (hp.see hview) (hq.see hview) hsize hholders hjoin hother
  obtain ⟨oPQ, hplaysPQ, rfl⟩ := exists_plays_of_see (o := oP.ready) hview hthenQ rfl
  obtain ⟨oQP, hplaysQP, rfl⟩ := exists_plays_of_see (o := oQ.ready) hview hthenP rfl
  exact ⟨⟨⟨hq'.known, hq'.enabled⟩, hp'.known, hp'.enabled⟩, oPQ, oQP, hplaysPQ, hplaysQP, hsame⟩

end Outlook

end ScheduleExplorer
