import ScheduleExplorer.Proofs.Execution.Commutation

/-!
# Two turns in either order

Whole turns of two operations that are apart may be taken in either order. A turn of one is pulled
past a single deed of the other (`Apart.plays_perform`), and then past its whole turn
(`Apart.plays_plays`), both by induction on the deeds. The turn is passed on between the two: the
waits that are over by then are examined, and the second turn is the same after that
(`Beside.plays_wakes`).
-/

namespace ScheduleExplorer

variable {σ μ : Type}

/-- A wait that is over stays over when more has completed. -/
theorem Operation.waitIsOver_mono {before after : OperationId → Bool}
    (hmore : ∀ id, before id = true → after id = true) {op : Operation}
    (hover : op.waitIsOver before = true) : op.waitIsOver after = true := by
  unfold waitIsOver at hover ⊢
  split at hover
  · exact (joinIsOver_mono hmore hover : joinIsOver after op.dependencies true = true)
  · exact (joinIsOver_mono hmore hover : joinIsOver after op.dependencies false = true)
  · cases hover

namespace Outlook

variable {program : Program σ μ} {p q : OperationId} {o after : Outlook σ μ}
  {states : List (σ × Reply)} {values : List Decision}

/-! ### What a turn leaves -/

/-- Nothing is lost in a turn. -/
theorem Plays.mono (h : o.Plays program p states values after) :
    o.size ≤ after.size ∧ o.holders.length ≤ after.holders.length := by
  have hdeed (deed : Deed σ μ) (o : Outlook σ μ) : o.size ≤ (o.perform p deed).size ∧
      o.holders.length ≤ (o.perform p deed).holders.length := by
    refine ⟨Nat.le_add_right _ _, ?_⟩
    rw [length_holders_perform]
    exact Nat.le_add_right _ _
  induction h with
  | last h hpoint => exact hdeed _ _
  | step h hquiet rest ih =>
    obtain ⟨hsize, hholders⟩ := hdeed _ _
    exact ⟨Nat.le_trans hsize ih.1, Nat.le_trans hholders ih.2⟩

/-- What has completed stays completed in a turn. -/
theorem Plays.isCompleted (h : o.Plays program p states values after) (hbeside : o.Beside p q)
    {id : OperationId} (hid : o.isCompleted id = true) : after.isCompleted id = true := by
  induction h with
  | last h hpoint => exact hbeside.isCompleted_of_perform h.fits hid
  | step h hquiet rest ih =>
    exact ih (hbeside.perform_of_quiet h.fits hquiet) (hbeside.isCompleted_of_perform h.fits hid)

/-- An operation stands beside another also after a turn of the other. -/
theorem Plays.beside (h : o.Plays program p states values after) (hapart : o.Apart p q) :
    after.Beside q p := by
  induction h with
  | last h hpoint => exact hapart.beside_perform h.fits
  | step h hquiet rest ih => exact ih (hapart.perform_of_quiet h.fits hquiet)

/-- The body of another operation stands where it stood. -/
theorem Plays.stage?_eq (h : o.Plays program p states values after) (hapart : o.Apart p q) :
    after.stage? q = o.stage? q := by
  induction h with
  | last h hpoint => exact hapart.symm.stage?_perform h.fits
  | step h hquiet rest ih =>
    rw [ih (hapart.perform_of_quiet h.fits hquiet), hapart.symm.stage?_perform h.fits]

/-- A turn leaves the bodies of other operations where they stand. -/
theorem Plays.resumed_eq (h : o.Plays program p states values after) (hapart : o.Apart p q) :
    after.resumed q = o.resumed q := by
  rw [resumed, h.stage?_eq hapart, resumed]

/-- A join looks the same after a deed of another operation that is not the last of its turn. -/
theorem SameJoin.perform_of_quiet {b : Deed σ μ} (h : SameJoin p o after) (hapart : o.Apart p q)
    (hb : b.Fits program q o) (hquiet : b.move.isPoint = false) :
    SameJoin p (o.perform q b) after ∧ SameJoin p o (o.perform q b) := by
  have hjoined (targets : List OperationId) (all : Bool) :
      (o.perform q b).isJoined targets all = o.isJoined targets all := by
    rw [isJoined, isJoined, hapart.right.isCompleted_perform_of_quiet hb hquiet]
  refine ⟨fun targets all next hparked => ?_, fun targets all _ _ => hjoined targets all⟩
  rw [hapart.stage?_perform hb] at hparked
  rw [hjoined]
  exact h targets all next hparked

/-! ### Two turns -/

/-- A deed of one operation and a turn of another that is apart may come in either order. -/
theorem Apart.plays_perform (hplays : o.Plays program q states values after)
    {value : Option Decision} {a : Deed σ μ} (h : o.Apart p q)
    (hseparates : program.Separates p q (o.resumed p) states) (ha : o.Moves program p value a)
    (hsize : a.reach.growth = 0 ∨ after.size = o.size)
    (hholders : a.reach.gain = 0 ∨ after.holders.length = o.holders.length)
    (hjoin : SameJoin p o after) (hother : SameJoin q o (o.perform p a)) :
    (o.perform p a).Plays program q states values (after.perform p a) ∧
      after.Moves program p value a := by
  -- A deed of the other operation adds nothing if the turn that it begins adds nothing.
  have hadd {b : Deed σ μ} {o final : Outlook σ μ}
      (hsize : a.reach.growth = 0 ∨ final.size = o.size)
      (hholders : a.reach.gain = 0 ∨ final.holders.length = o.holders.length)
      (hmono : (o.perform q b).size ≤ final.size ∧
        (o.perform q b).holders.length ≤ final.holders.length) : a.reach.AddApart b.reach := by
    obtain ⟨hgrows, hgains⟩ := hmono
    rw [size_perform] at hgrows
    rw [length_holders_perform] at hgains
    exact ⟨hsize.imp_right fun hsame => by omega, hholders.imp_right fun hsame => by omega⟩
  induction hplays with
  | last hb hpoint =>
    have hadd := hadd hsize hholders ⟨Nat.le_refl _, Nat.le_refl _⟩
    refine ⟨?_, h.moves_perform hseparates ha hb.fits hadd hjoin⟩
    rw [h.perform_perform hseparates ha.fits hb.fits hadd, ← h.symm.resumed_perform ha.fits]
    exact .last (h.symm.moves_perform hseparates.symm hb ha.fits hadd.symm hother) hpoint
  | @step o after value' b states values hb hquiet rest ih =>
    have hadd := hadd hsize hholders rest.mono
    have hhere := hseparates.mono (List.Subset.refl _) (List.subset_append_left _ _)
    have hthere := hseparates.mono (List.Subset.refl _) (List.subset_append_right _ _)
    obtain ⟨hgrows, hgrowsHolders⟩ := rest.mono
    obtain ⟨hjoin', hsame⟩ := hjoin.perform_of_quiet h hb.fits hquiet
    obtain ⟨hplays, hmoves⟩ := ih (h.symm.perform_of_quiet hb.fits hquiet).symm
      (by rwa [h.resumed_perform hb.fits])
      (h.moves_perform hhere ha hb.fits hadd hsame)
      (hsize.imp_right fun hsize => by
        have hsteps : o.size ≤ (o.perform q b).size := Nat.le_add_right _ _
        omega)
      (hholders.imp_right fun hholders => by
        rw [length_holders_perform] at hgrowsHolders ⊢
        omega)
      hjoin' fun targets all next hparked =>
        absurd hparked ((h.right.perform_self hb.fits hquiet).2 _ next)
    rw [← h.symm.resumed_perform ha.fits]
    refine ⟨.step (h.symm.moves_perform hhere.symm hb ha.fits hadd.symm hother) hquiet ?_, hmoves⟩
    rw [← h.perform_perform hhere ha.fits hb.fits hadd]
    exact hplays

/-- Turns of two operations that are apart may be taken in either order, as far as it is not seen
when the waits of others are examined. -/
theorem Apart.plays_plays {statesP statesQ : List (σ × Reply)} {valuesP valuesQ : List Decision}
    {oP oQ : Outlook σ μ} (hp : o.Plays program p statesP valuesP oP)
    (hq : o.Plays program q statesQ valuesQ oQ) (h : o.Apart p q)
    (hseparates : program.Separates p q statesP statesQ)
    (hsize : oP.size = o.size ∨ oQ.size = o.size)
    (hholders : oP.holders.length = o.holders.length ∨ oQ.holders.length = o.holders.length)
    (hjoin : SameJoin p o oQ) (hother : SameJoin q o oP) :
    ∃ oPQ, oP.Plays program q statesQ valuesQ oPQ ∧ oQ.Plays program p statesP valuesP oPQ := by
  induction hp generalizing oQ with
  | @last o value a ha hpoint =>
    rw [size_perform] at hsize
    rw [length_holders_perform] at hholders
    obtain ⟨hplays, hmoves⟩ := h.plays_perform hq hseparates ha (hsize.imp_left Nat.add_eq_left.mp)
      (hholders.imp_left Nat.add_eq_left.mp) hjoin hother
    refine ⟨_, hplays, ?_⟩
    rw [← hq.resumed_eq h.symm]
    exact .last hmoves hpoint
  | @step o oP value a states values ha hquiet rest ih =>
    have hhere := hseparates.mono (List.subset_append_left _ _) (List.Subset.refl _)
    have hthere := hseparates.mono (List.subset_append_right _ _) (List.Subset.refl _)
    obtain ⟨hgrows, hgains⟩ := rest.mono
    have hmoved := size_perform p a o
    have hmovedHolders := length_holders_perform p a o
    obtain ⟨hother', hsame⟩ := hother.perform_of_quiet h.symm ha.fits hquiet
    obtain ⟨hplays, hmoves⟩ := h.plays_perform hq hhere ha
      (hsize.imp_left fun hsame => by omega) (hholders.imp_left fun hsame => by omega) hjoin hsame
    have hsize' : oP.size = (o.perform p a).size ∨ (oQ.perform p a).size = (o.perform p a).size := by
      rw [size_perform p a oQ]
      omega
    have hholders' : oP.holders.length = (o.perform p a).holders.length ∨
        (oQ.perform p a).holders.length = (o.perform p a).holders.length := by
      rw [length_holders_perform p a oQ]
      omega
    obtain ⟨oPQ, hq', hp'⟩ := ih hplays (h.perform_of_quiet ha.fits hquiet) hthere hsize' hholders'
      (fun targets all next hparked =>
        absurd hparked ((h.left.perform_self ha.fits hquiet).2 _ next)) hother'
    refine ⟨oPQ, hq', ?_⟩
    rw [← hq.resumed_eq h.symm]
    exact .step hmoves hquiet hp'

/-! ### Passing the turn on -/

/-- Waking operations completes none. -/
theorem isCompleted_wakes (isCompleted : OperationId → Bool) (o : Outlook σ μ) :
    ((Reach.wakes isCompleted).apply o).isCompleted = o.isCompleted := by
  funext id
  change ((o.slots id).map fun slot => (Reach.wakes isCompleted).touch id slot).any _ = _
  rw [Option.any_map]
  congr 1
  funext slot
  exact (Operation.isWaking_enableIfReady isCompleted).isCompleted_eq _

/-- Waking operations moves no body. -/
theorem stage?_wakes (isCompleted : OperationId → Bool) (o : Outlook σ μ) :
    ((Reach.wakes isCompleted).apply o).stage? p = o.stage? p := by
  change ((o.slots p).map _).map _ = _
  rw [Option.map_map]
  rfl

/-- What an enabled operation does next does not depend on the waits of others. -/
theorem HasEnabled.act?_wakes (h : o.HasEnabled p) {isCompleted : OperationId → Bool}
    {act : Act σ μ} (hact : o.act? program p = some act) (hdoes : act ≠ .fails) :
    ((Reach.wakes isCompleted).apply o).act? program p = some act := by
  obtain ⟨slot, hslot, henabled⟩ := h.enabled
  have hnew : ((Reach.wakes isCompleted).apply o).slots p = some slot := by
    change (o.slots p).map _ = _
    rw [hslot, Option.map_some]
    change some { slot with operation := slot.operation.enableIfReady isCompleted } = _
    rw [(Operation.isWaking_enableIfReady isCompleted).of_enabled henabled]
  apply act?_congr hact hdoes hslot hnew rfl rfl
  · intro primitive next _
    refine ⟨fun _ => rfl, fun _ _ => rfl, fun targets all _ => ?_⟩
    rw [isJoined, isJoined, isCompleted_wakes]
  · exact fun _ _ _ => rfl
  · exact ⟨Nat.le_refl _, Nat.le_refl _, rfl, fun _ _ _ => rfl, fun _ _ _ => rfl⟩

/-- An enabled operation does the same after others have been woken. -/
theorem HasEnabled.moves_wakes (h : o.HasEnabled p) {isCompleted : OperationId → Bool}
    {value : Option Decision} {a : Deed σ μ} (ha : o.Moves program p value a) :
    ((Reach.wakes isCompleted).apply o).Moves program p value a := by
  cases ha with
  | does hact => exact .does (h.act?_wakes hact fun heq => by cases heq)
  | draws hact value => exact .draws (h.act?_wakes hact fun heq => by cases heq) value

/-- A turn is the same after operations were woken whose wait for others was over before it. -/
theorem Beside.plays_wakes (h : o.Beside p q) (hplays : o.Plays program p states values after)
    {isCompleted : OperationId → Bool}
    (hbefore : ∀ id, isCompleted id = true → o.isCompleted id = true) :
    ((Reach.wakes isCompleted).apply o).Plays program p states values
      ((Reach.wakes isCompleted).apply after) := by
  have hresumed (o : Outlook σ μ) :
      ((Reach.wakes isCompleted).apply o).resumed p = o.resumed p := by
    rw [resumed, stage?_wakes, resumed]
  have hperform {o : Outlook σ μ} (h : o.Beside p q)
      (hbefore : ∀ id, isCompleted id = true → o.isCompleted id = true) {a : Deed σ μ}
      (ha : a.Fits program p o) : (Reach.wakes isCompleted).apply (o.perform p a) =
        ((Reach.wakes isCompleted).apply o).perform p a := by
    apply wakes_perform h.enabled (h.isKnown ha)
    intro targets all next hjoins
    rw [Bool.eq_false_iff]
    intro hover
    cases (ha.joins hjoins).symm.trans (joinIsOver_mono hbefore hover)
  induction hplays with
  | last ha hpoint =>
    rw [hperform h hbefore ha.fits, ← hresumed]
    exact .last (h.enabled.moves_wakes ha) hpoint
  | step ha hquiet rest ih =>
    rw [← hresumed]
    refine .step (h.enabled.moves_wakes ha) hquiet ?_
    rw [← hperform h hbefore ha.fits]
    refine ih (h.perform_of_quiet ha.fits hquiet) fun id hid => ?_
    rw [h.isCompleted_perform_of_quiet ha.fits hquiet]
    exact hbefore id hid

/-- Waits that were over before need not be examined before all are. -/
theorem ready_wakes {isCompleted : OperationId → Bool}
    (hbefore : ∀ id, isCompleted id = true → o.isCompleted id = true) :
    ((Reach.wakes isCompleted).apply o).ready = o.ready := by
  have htwice (op : Operation) : (op.enableIfReady isCompleted).enableIfReady o.isCompleted =
      op.enableIfReady o.isCompleted := by
    have hwaking := Operation.isWaking_enableIfReady isCompleted
    cases hover : op.waitIsOver isCompleted with
    | false => rw [hwaking.same op hover]
    | true =>
      rw [(Operation.isWaking_enableIfReady _).of_enabled (hwaking.enabled op hover),
        Operation.enableIfReady, Operation.enableIfReady, if_pos hover,
        if_pos (Operation.waitIsOver_mono hbefore hover)]
  rw [ready, ready, isCompleted_wakes]
  apply Outlook.ext <;> try rfl
  funext id
  change ((o.slots id).map _).map _ = (o.slots id).map _
  rw [Option.map_map]
  congr 1
  funext slot
  exact congrArg (fun op => { slot with operation := op }) (htwice slot.operation)

/-- An enabled operation stays enabled when the turn is passed on. -/
theorem HasEnabled.ready (h : o.HasEnabled p) : o.ready.HasEnabled p :=
  h.apply fun _ _ heq => by cases heq

/-- Turns of two operations that are apart may be taken in either order, with the turn passed on in
between and after them. -/
theorem Apart.exists_plays (h : o.Apart p q) {statesP statesQ : List (σ × Reply)}
    (hseparates : program.Separates p q statesP statesQ) {valuesP valuesQ : List Decision}
    {oP oQ : Outlook σ μ} (hp : o.Plays program p statesP valuesP oP)
    (hq : o.Plays program q statesQ valuesQ oQ) (hsize : oP.size = o.size ∨ oQ.size = o.size)
    (hholders : oP.holders.length = o.holders.length ∨ oQ.holders.length = o.holders.length)
    (hjoin : SameJoin p o oQ) (hother : SameJoin q o oP) :
    (oP.ready.HasEnabled q ∧ oQ.ready.HasEnabled p) ∧
      ∃ oPQ oQP, oP.ready.Plays program q statesQ valuesQ oPQ ∧
        oQ.ready.Plays program p statesP valuesP oQP ∧ oPQ.ready = oQP.ready := by
  obtain ⟨both, hthenQ, hthenP⟩ := h.plays_plays hp hq hseparates hsize hholders hjoin hother
  have hbesideQ := hp.beside h
  have hbesideP := hq.beside h.symm
  refine ⟨⟨hbesideQ.enabled.ready, hbesideP.enabled.ready⟩,
    (Reach.wakes oP.isCompleted).apply both, (Reach.wakes oQ.isCompleted).apply both,
    hbesideQ.plays_wakes hthenQ fun _ hid => hid, hbesideP.plays_wakes hthenP fun _ hid => hid, ?_⟩
  rw [ready_wakes fun _ hid => hthenQ.isCompleted hbesideQ hid,
    ready_wakes fun _ hid => hthenP.isCompleted hbesideP hid]

end Outlook

end ScheduleExplorer
