import ScheduleExplorer.Proofs.Execution.Recorded

/-!
# Messages are neither lost nor duplicated nor reordered

The inbox of an operation is what the sends have put there, in the order in which they returned,
without what the receives of the operation have taken out; and a receive takes the oldest message
that it accepts. Every message sent to an operation has a position, and `Kept` says which positions
have been taken. So a message is returned at most once, and messages with the same content are told
apart.
-/

namespace ScheduleExplorer

variable {γ σ μ : Type}

/-- What a call that has returned put into an inbox, with its sender. -/
def Return.sentTo? (id : OperationId) (done : Return σ) : Option (OperationId × Message) :=
  match done.request with
  | .send target message => if target = id then some (done.caller, message) else none
  | _ => none

/-- The message that a receive of an operation has returned. -/
def Return.receivedBy? (id : OperationId) (done : Return σ) : Option Message :=
  match done.request, done.reply with
  | .receive _, .message message => if done.caller = id then some message else none
  | _, _ => none

/-- A local call neither sends nor receives. -/
theorem Return.of_isLocal {done : Return σ} (h : done.request.isLocal = true) (id : OperationId) :
    done.sentTo? id = none ∧ done.receivedBy? id = none := by
  obtain ⟨caller, request, reply⟩ := done
  cases request <;> first | exact ⟨rfl, rfl⟩ | cases h

/-- A join neither sends nor receives. -/
theorem Return.of_join? {request : Request σ} {wait : List OperationId × Bool}
    (h : request.join? = some wait) (caller : OperationId) (reply : Reply) (id : OperationId) :
    Return.sentTo? id ⟨caller, request, reply⟩ = none ∧
      Return.receivedBy? id ⟨caller, request, reply⟩ = none := by
  cases request <;> first | exact ⟨rfl, rfl⟩ | cases h

namespace Journal

/-- What has been sent to an operation, oldest first. -/
def sent (id : OperationId) (journal : Journal σ) : List (OperationId × Message) :=
  journal.returns.filterMap (Return.sentTo? id)

/-- What the receives of an operation have returned, oldest first. -/
def received (id : OperationId) (journal : Journal σ) : List Message :=
  journal.returns.filterMap (Return.receivedBy? id)

end Journal

/-! ### Positions -/

/-- The positions below a bound that have not been taken. -/
def remaining (bound : Nat) (taken : List Nat) : List Nat :=
  (List.range bound).filter (· ∉ taken)

/-- A position beyond all that are taken remains. -/
theorem remaining_succ {bound : Nat} {taken : List Nat} (hbound : ∀ place ∈ taken, place < bound) :
    remaining (bound + 1) taken = remaining bound taken ++ [bound] := by
  have hnew : bound ∉ taken := fun hmem => Nat.lt_irrefl bound (hbound bound hmem)
  rw [remaining, List.range_succ, List.filter_append, remaining,
    List.filter_cons_of_pos (by simpa using hnew), List.filter_nil]

/-- A position that is taken does not remain, and the others do. -/
theorem remaining_concat {bound place : Nat} {taken before after : List Nat}
    (h : remaining bound taken = before ++ place :: after) :
    place ∉ taken ∧ remaining bound (taken ++ [place]) = before ++ after := by
  have hmem : place ∈ remaining bound taken := by
    rw [h]
    exact List.mem_append_right _ List.mem_cons_self
  have hnodup : (before ++ place :: after).Nodup := by
    rw [← h]
    exact List.nodup_range.filter _
  rw [List.nodup_middle, List.nodup_cons, List.mem_append, not_or] at hnodup
  have hrest : remaining bound (taken ++ [place]) =
      (remaining bound taken).filter (· ≠ place) := by
    rw [remaining, remaining, List.filter_filter]
    refine List.filter_congr fun other _ => ?_
    simp [not_or, and_comm]
  refine ⟨?_, ?_⟩
  · simpa using (List.mem_filter.mp hmem).2
  · have hbefore : before.filter (· ≠ place) = before :=
      List.filter_eq_self.mpr fun other hother => by
        simpa using fun heq : other = place => hnodup.1.1 (heq ▸ hother)
    have hafter : after.filter (· ≠ place) = after :=
      List.filter_eq_self.mpr fun other hother => by
        simpa using fun heq : other = place => hnodup.1.2 (heq ▸ hother)
    rw [hrest, h, List.filter_append, List.filter_cons_of_neg (by simp), hbefore, hafter]

/-- The messages at the taken positions have been received, and those at the remaining positions are
in the inbox, both in order. -/
structure Kept (sent : List (OperationId × Message)) (received : List Message) (inbox : Inbox)
    (taken : List Nat) : Prop where
  nodup : taken.Nodup
  received : received.map some = taken.map fun place => (sent[place]?).map Prod.snd
  inbox : (inbox.map fun envelope => some (envelope.sender, envelope.message)) =
    (remaining sent.length taken).map fun place => sent[place]?

namespace Kept

variable {sent : List (OperationId × Message)} {received : List Message} {inbox : Inbox}
  {taken : List Nat}

/-- What is taken was sent. -/
theorem lt_length (h : Kept sent received inbox taken) {place : Nat} (hplace : place ∈ taken) :
    place < sent.length := by
  have hmem : (sent[place]?).map Prod.snd ∈ received.map some := by
    rw [h.received]
    exact List.mem_map_of_mem hplace
  obtain ⟨message, -, hmessage⟩ := List.mem_map.mp hmem
  obtain ⟨entry, hentry, -⟩ := Option.map_eq_some_iff.mp hmessage.symm
  exact (List.getElem?_eq_some_iff.mp hentry).1

/-- A message that is sent goes to the end of the inbox. -/
theorem send (h : Kept sent received inbox taken) (envelope : Envelope) :
    Kept (sent ++ [(envelope.sender, envelope.message)]) received (inbox ++ [envelope]) taken := by
  have hsame {place : Nat} (hplace : place < sent.length) :
      (sent ++ [(envelope.sender, envelope.message)])[place]? = sent[place]? :=
    List.getElem?_append_left hplace
  refine ⟨h.nodup, ?_, ?_⟩
  · rw [h.received]
    refine List.map_congr_left fun place hplace => ?_
    rw [hsame (h.lt_length hplace)]
  · rw [List.length_append, List.length_singleton,
      remaining_succ fun place hplace => h.lt_length hplace, List.map_append, List.map_append,
      h.inbox]
    congr 1
    · refine List.map_congr_left fun place hplace => ?_
      rw [hsame (List.mem_range.mp (List.mem_filter.mp hplace).1)]
    · rw [List.map_singleton, List.map_singleton, List.getElem?_concat_length]

/-- A message that is received leaves the inbox and is not received again. -/
theorem receive {earlier later : Inbox} {envelope : Envelope}
    (h : Kept sent received (earlier ++ envelope :: later) taken) :
    ∃ place, Kept sent (received ++ [envelope.message]) (earlier ++ later) (taken ++ [place]) := by
  have hinbox := h.inbox
  rw [List.map_append, List.map_cons, eq_comm, List.map_eq_append_iff] at hinbox
  obtain ⟨before, rest, hremaining, hbefore, hrest⟩ := hinbox
  obtain ⟨place, after, rfl, hplace, hafter⟩ := List.map_eq_cons_iff.mp hrest
  obtain ⟨hnew, hleft⟩ := remaining_concat hremaining
  refine ⟨place, ?_, ?_, ?_⟩
  · rw [List.nodup_append]
    refine ⟨h.nodup, List.nodup_singleton place, fun first hfirst second hsecond heq => ?_⟩
    rw [List.mem_singleton.mp hsecond] at heq
    exact hnew (heq ▸ hfirst)
  · rw [List.map_append, List.map_append, h.received, List.map_singleton, List.map_singleton,
      hplace]
    rfl
  · rw [hleft, List.map_append, List.map_append, hbefore, hafter]

end Kept

namespace Execution

/-- What a call that returns adds to the messages sent to an operation and to those that it has
received is what it changes in the inbox. -/
theorem Effect.kept {ex after : Execution γ σ μ} {call : Option (Return σ)}
    (h : ex.Effect after call) (id : OperationId) {sent : List (OperationId × Message)}
    {received : List Message} {taken : List Nat} (hkept : Kept sent received (ex.inbox id) taken) :
    ∃ takenAfter, Kept (sent ++ (call.bind (Return.sentTo? id)).toList)
      (received ++ (call.bind (Return.receivedBy? id)).toList) (after.inbox id) takenAfter := by
  have hsame (hinbox : after.inbox = ex.inbox) (hsent : call.bind (Return.sentTo? id) = none)
      (hreceived : call.bind (Return.receivedBy? id) = none) :
      ∃ takenAfter, Kept (sent ++ (call.bind (Return.sentTo? id)).toList)
        (received ++ (call.bind (Return.receivedBy? id)).toList) (after.inbox id) takenAfter := by
    rw [hsent, hreceived, hinbox, Option.toList_none, List.append_nil, Option.toList_none,
      List.append_nil]
    exact ⟨taken, hkept⟩
  cases h with
  | silent hcall hinbox =>
    cases call with
    | none => exact hsame hinbox rfl rfl
    | some done =>
      obtain ⟨hsent, hreceived⟩ := Return.of_isLocal (hcall done rfl) id
      exact hsame hinbox hsent hreceived
  | @joined caller request reply targets all hjoin hover hinbox =>
    obtain ⟨hsent, hreceived⟩ := Return.of_join? hjoin caller reply id
    exact hsame hinbox hsent hreceived
  | acquired _ hinbox => exact hsame hinbox rfl rfl
  | released _ hinbox => exact hsame hinbox rfl rfl
  | @sent caller target message reply sendStep hinbox =>
    by_cases htarget : target = id
    · subst htarget
      refine ⟨taken, ?_⟩
      simpa [Return.sentTo?, Return.receivedBy?, hinbox] using
        hkept.send ⟨message, caller, sendStep⟩
    · refine ⟨taken, ?_⟩
      simpa [Return.sentTo?, Return.receivedBy?, hinbox, htarget, Ne.symm htarget] using hkept
  | @received caller events envelope earlier later hfound _ _ hinbox =>
    by_cases hcaller : caller = id
    · subst hcaller
      rw [hfound] at hkept
      obtain ⟨place, hplace⟩ := hkept.receive
      refine ⟨taken ++ [place], ?_⟩
      simpa [Return.sentTo?, Return.receivedBy?, hinbox] using hplace
    · refine ⟨taken, ?_⟩
      simpa [Return.sentTo?, Return.receivedBy?, hinbox, hcaller, Ne.symm hcaller] using hkept

variable [RandomSource γ]

namespace Recorded

variable {program : Program σ μ} {ex after : Execution γ σ μ} {journal : Journal σ}

/-- In every recorded execution the messages that have been sent are in the inbox or have been
received once. -/
theorem kept (h : Recorded program ex journal) (id : OperationId) :
    ∃ taken, Kept (journal.sent id) (journal.received id) (ex.inbox id) taken := by
  induction h with
  | start strategy monitors coverage depthBoundIsBug =>
    refine ⟨[], List.nodup_nil, rfl, ?_⟩
    have hempty : (Execution.start program
        { strategy, monitors, coverage, depthBoundIsBug }).inbox id = [] := by
      rw [inbox, Execution.start, List.getElem?_singleton]
      split <;> rfl
    rw [hempty]
    rfl
  | @step ex after journal h hstep ih =>
    obtain ⟨taken, hkept⟩ := ih
    obtain ⟨takenAfter, hafter⟩ := (h.effect hstep).kept id hkept
    refine ⟨takenAfter, ?_⟩
    rw [Journal.sent, Journal.received, Journal.record, List.filterMap_append,
      List.filterMap_append]
    cases hreturn : journal.return? program ex after <;> rw [hreturn] at hafter <;> exact hafter

/-- At every point of a recorded execution the inbox of an operation holds exactly the messages whose
sends have returned, in the order of the sends, but for those at some positions, and these are the
messages that its receives have returned, each position once. And every receive that returns takes
the oldest message in the inbox of its caller whose event is among those it asks for, or the oldest
of all if it asks for none. -/
theorem messages_kept_in_order (h : Recorded program ex journal) :
    (∀ id, ∃ taken : List Nat, taken.Nodup ∧
      (journal.received id).map some =
        (taken.map fun place => ((journal.sent id)[place]?).map Prod.snd) ∧
      ((ex.inbox id).map fun envelope => some (envelope.sender, envelope.message)) =
        ((List.range (journal.sent id).length).filter (· ∉ taken)).map
          fun place => (journal.sent id)[place]?) ∧
    ∀ after done events, ex.step program = some after →
      journal.return? program ex after = some done → done.request = .receive events →
      ∃ earlier envelope later, ex.inbox done.caller = earlier ++ envelope :: later ∧
        after.inbox done.caller = earlier ++ later ∧ done.reply = .message envelope.message ∧
        (events = [] ∨ envelope.message.event ∈ events) ∧
        ∀ other ∈ earlier, events ≠ [] ∧ other.message.event ∉ events := by
  refine ⟨fun id => ?_, fun after done events hstep hreturn hrequest => ?_⟩
  · obtain ⟨taken, hkept⟩ := h.kept id
    exact ⟨taken, hkept.nodup, hkept.received, hkept.inbox⟩
  · have heffect := h.effect hstep
    rw [hreturn] at heffect
    cases heffect with
    | silent hcall =>
      have hlocal := hcall done rfl
      rw [hrequest] at hlocal
      cases hlocal
    | joined hjoin =>
      cases hrequest
      cases hjoin
    | sent => cases hrequest
    | acquired => cases hrequest
    | released => cases hrequest
    | @received caller filter envelope earlier later hfound haccepted hearlier hinbox =>
      obtain rfl : filter = events := Request.receive.inj hrequest
      refine ⟨earlier, envelope, later, hfound, ?_, rfl, ?_, fun other hother => ?_⟩
      · rw [hinbox, Function.update_self]
      · simpa [Envelope.isAccepted] using haccepted
      · simpa [Envelope.isAccepted] using hearlier other hother

end Recorded

/-- A program whose only operation sends itself two messages and receives the second. -/
def selfSender : Program Nat Unit where
  main := 0
  memory := ()
  resume id state _ memory :=
    let action : Action Nat :=
      match state with
      | 0 => .call (.send id (.signal ⟨1⟩)) 1
      | 1 => .call (.send id (.signal ⟨2⟩)) 2
      | 2 => .call (.receive [⟨2⟩]) 3
      | _ => .finish
    (action, memory)
  hasher := some fun _ => {}

/-- Once the second message is received the first one is in the inbox. -/
theorem messages_kept_in_order_selfSender :
    ((runRecorded selfSender 7 (first selfSender, {})).2.received ⟨0⟩).map Message.event = [⟨2⟩] ∧
      (((first selfSender).run selfSender 7).inbox ⟨0⟩).map (·.message.event) = [⟨1⟩] ∧
      ∃ taken : List Nat, taken.Nodup ∧
        ((runRecorded selfSender 7 (first selfSender, {})).2.received ⟨0⟩).map some =
          taken.map fun place =>
            (((runRecorded selfSender 7 (first selfSender, {})).2.sent ⟨0⟩)[place]?).map
              Prod.snd := by
  obtain ⟨hkept, -⟩ := (recorded_first selfSender 7).messages_kept_in_order
  obtain ⟨taken, hnodup, hreceived, -⟩ := hkept ⟨0⟩
  exact ⟨by decide +kernel, by decide +kernel, taken, hnodup, hreceived⟩

end Execution

end ScheduleExplorer
