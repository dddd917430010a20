import P2pDriver.Refinement

/-!
# What a connection attempt is judged by

`connect_to_device` issues its command and then takes the next event that tells of
an outcome for its own. The queue of the control interface may still hold events
of earlier attempts, which the search script does not remove. This module says
what an attempt on an arbitrary queue ends with, and when that is what the events
after its command tell.

Results:
1. `negotiationRound_encode`: what one well-formed event does to an attempt.
2. `judged_of_firstOutcome`: every run over a queue ends with the outcome of its
   first event that has one, and there is such a run.
3. `attempt_own_events_iff`: leftover events do not matter exactly when they have
   no outcome, or the same one first.
-/

namespace P2pDriver

open Resumable Prog EventLoopLemmas RefinementLemmas

/-! ## 1. Outcomes -/

/-- What an attempt ends with: the value returned, and the name stored to
`group_name`, which is left as it is otherwise. -/
structure Verdict where
  connected : Bool
  groupName : Option Bytes
deriving DecidableEq, Repr

/-- The verdict an event leads to. -/
def Event.verdict : Event → Option Verdict
  | .groupStarted ifname => some ⟨true, some ifname⟩
  | .formationFailure | .goNegFailure => some ⟨false, none⟩
  | _ => none

/-- The verdict of the first event of a queue that has one. -/
def firstOutcome (q : List Datagram) : Option Verdict := q.findSome? fun d => d.parse.verdict

/-- The name that a run has stored last. -/
def storedName (tr : List (Call × Answer)) : Option Bytes :=
  tr.foldl (fun name e => match e.1 with | .setGroupName n => some n | _ => name) none

/-- An attempt on the queue `q` ends with `v`: no run over the queue is undefined,
waits for an event when all of the queue is consumed, or returns with anything
else, and there is one that returns. -/
structure Judged (mac : Bytes) (q : List Datagram) (v : Verdict) : Prop where
  defined : ∀ rs, receivedBytes ((connectToDevice mac).trace rs) <+: q.map Datagram.encode →
    (connectToDevice mac).after rs ≠ .fault
  ends : ∀ rs, receivedBytes ((connectToDevice mac).trace rs) <+: q.map Datagram.encode →
    ((connectToDevice mac).after rs).pending = some .wpaCtrlPending →
      (receivedBytes ((connectToDevice mac).trace rs)).length < q.length
  returns : ∀ rs, receivedBytes ((connectToDevice mac).trace rs) <+: q.map Datagram.encode →
    ∀ connected, (connectToDevice mac).after rs = .ret connected →
      ⟨connected, storedName ((connectToDevice mac).trace rs)⟩ = v
  runs : ∃ rs, receivedBytes ((connectToDevice mac).trace rs) <+: q.map Datagram.encode ∧
    ∃ connected, (connectToDevice mac).after rs = .ret connected

/-! ## 2. One event -/

/-- The end of a round of `connect_to_device`, for the verdict of its event. -/
def conclude : Option Verdict → Drv (Option Bool)
  | none => .ret none
  | some ⟨connected, none⟩ => .ret (some connected)
  | some ⟨connected, some ifname⟩ => .call (.setGroupName ifname) fun _ => .ret (some connected)

/-- One round of `connect_to_device` with a well-formed event. -/
theorem negotiationRound_encode {d : Datagram} {m : Message} (hm : m.bytes = d.encode) :
    negotiationRound m = .call (.print m.buffer.cells) fun _ => conclude d.parse.verdict := by
  have hs := isType_groupStarted hm
  have hf := isType_groupFormationFailure hm
  have hn := isType_goNegFailure hm
  simp only [negotiationRound, bind_eq, perform_bind]
  rw [testType_eq m (by decide), testType_eq m (by decide), testType_eq m (by decide), hs, hf, hn]
  simp only [ret_bind, decide_eq_true_eq]
  congr
  funext _
  by_cases hstarted : d.header = groupStarted
  · have hspace := d.started hstarted
    have hmem : space ∈ nameCells m := by
      rw [nameCells_encode hm hstarted]
      exact List.mem_append_left _ hspace
    have hparse : d.parse = .groupStarted (d.payload.takeWhile (· ≠ space)) := by
      rw [Datagram.parse, if_neg (by rw [hstarted]; decide), if_pos hstarted]
    rw [if_pos hstarted, getGroupName_eq, if_pos hmem, nameCells_encode hm hstarted,
      takeWhile_append_of_mem hspace, hparse]
    rfl
  · rw [if_neg hstarted]
    by_cases hformation : d.header = groupFormationFailure
    · have hparse : d.parse = .formationFailure := by
        rw [Datagram.parse, if_neg (by rw [hformation]; decide), if_neg hstarted, if_pos hformation]
      rw [if_pos hformation, hparse]
      rfl
    · rw [if_neg hformation]
      by_cases hneg : d.header = goNegFailure
      · have hparse : d.parse = .goNegFailure := by
          rw [Datagram.parse, if_neg (by rw [hneg]; decide), if_neg hstarted, if_neg hformation,
            if_pos hneg]
        rw [if_pos hneg, hparse]
        rfl
      · have hnone : d.parse.verdict = none := by
          rw [Datagram.parse, if_neg hstarted, if_neg hformation, if_neg hneg]
          split_ifs <;> rfl
        rw [if_neg hneg, hnone]
        rfl

/-! ## 3. Runs -/

/-- The part of the queue a run has not consumed, and the name it has stored. -/
structure AttemptState where
  rest : List Datagram
  groupName : Option Bytes

/-- The verdict `v` is still to come. -/
def AttemptState.Undecided (v : Verdict) (s : AttemptState) : Prop :=
  s.groupName = none ∧ firstOutcome s.rest = some v

instance (v : Verdict) (s : AttemptState) : Decidable (s.Undecided v) :=
  inferInstanceAs (Decidable (_ ∧ _))

/-- What an answered call does to it. -/
def AttemptState.next (s : AttemptState) (c : Call) (r : Answer) : AttemptState :=
  match c with
  | .wpaCtrlRecv _ => if (delivered r).isSome then { s with rest := s.rest.tail } else s
  | .setGroupName name => { s with groupName := some name }
  | _ => s

/-- Events are received from the queue, and polled for while the verdict is to come. -/
def attemptSpec (v : Verdict) : Spec Call Answer AttemptState where
  admits s c r := ∀ b, receivedBy (c, r) = some b → ∃ d rest, s.rest = d :: rest ∧ b = d.encode
  step s c r := if c = .wpaCtrlPending ∧ ¬ s.Undecided v then none else some (s.next c r)
  faults _ := False

namespace AttemptLemmas

variable {v : Verdict} {s : AttemptState}

theorem step_attempt {c : Call} (r : Answer) (hc : c ≠ .wpaCtrlPending) :
    (attemptSpec v).step s c r = some (s.next c r) :=
  if_neg fun h => hc h.1

/-- The end of a round, on the event the verdict of which is `o`. -/
theorem keeps_conclude {o : Option Verdict} {rest : List Datagram}
    (h : o = some v ∨ o = none ∧ firstOutcome rest = some v) :
    Keeps (attemptSpec v) ⟨rest, none⟩ (conclude o) (RoundPost (attemptSpec v)
      (AttemptState.Undecided v) .ret fun connected s => ⟨connected, s.groupName⟩ = v) := by
  rcases h with rfl | ⟨rfl, hrest⟩
  · obtain ⟨connected, groupName⟩ := v
    cases groupName with
    | none => exact keeps_ret (keeps_ret rfl)
    | some name =>
      exact keeps_call fun r _ => ⟨_, step_attempt r (by simp), keeps_ret (keeps_ret rfl)⟩
  · exact keeps_ret ⟨rfl, hrest⟩

/-- The polling loop ends with the verdict. -/
theorem keeps_negotiationLoop_attempt (h : s.Undecided v) :
    Keeps (attemptSpec v) s negotiationLoop fun connected s => ⟨connected, s.groupName⟩ = v := by
  refine keeps_loop (AttemptState.Undecided v) h fun s h r _ => ⟨s, if_neg fun hc => hc.2 h, ?_⟩
  dsimp only
  cases r.isSet with
  | false => exact keeps_ret h
  | true =>
    rw [if_pos rfl, recieveMessage_eq, call_bind]
    refine keeps_call fun r hr => ⟨_, step_attempt r (by decide), ?_⟩
    rw [ret_bind]
    cases hd : delivered r with
    | none =>
      rw [show s.next (.wpaCtrlRecv messageCap) r = s by simp [AttemptState.next, hd]]
      exact keeps_ret h
    | some m =>
      obtain ⟨rest, groupName⟩ := s
      obtain ⟨hname, hfirst⟩ := h
      obtain rfl : groupName = none := hname
      obtain ⟨d, rest', rfl, hm⟩ := hr m.bytes (by rw [receivedBy, hd, Option.map_some])
      rw [show AttemptState.next ⟨d :: rest', none⟩ (.wpaCtrlRecv messageCap) r = ⟨rest', none⟩ by
        simp [AttemptState.next, hd]]
      dsimp only
      rw [negotiationRound_encode hm]
      refine keeps_call fun r _ => ⟨_, step_attempt r (by simp), keeps_conclude ?_⟩
      -- the event decides, or the rest of the queue does
      rw [firstOutcome, List.findSome?_cons] at hfirst
      cases ho : d.parse.verdict with
      | none =>
        rw [ho] at hfirst
        exact .inr ⟨rfl, hfirst⟩
      | some v' =>
        rw [ho] at hfirst
        exact .inl hfirst

theorem keeps_connectToDevice_attempt (mac : Bytes) {q : List Datagram}
    (h : firstOutcome q = some v) :
    Keeps (attemptSpec v) ⟨q, none⟩ (connectToDevice mac)
      fun connected s => ⟨connected, s.groupName⟩ = v := by
  simp only [connectToDevice, bind_eq, system_bind]
  refine keeps_call fun r _ => ⟨_, step_attempt r (by simp), ?_⟩
  refine keeps_bind ((keeps_negotiationLoop_attempt ⟨rfl, h⟩).mono fun connected s hs => ?_)
  exact keeps_call fun r _ => ⟨_, step_attempt r (by simp), keeps_ret hs⟩

/-- What a call does to the queue and to the name. -/
theorem next_attempt (s : AttemptState) (c : Call) (r : Answer) :
    (s.next c r).rest = s.rest.drop (receivedBy (c, r)).toList.length ∧
      (s.next c r).groupName = match c with | .setGroupName n => some n | _ => s.groupName := by
  cases c with
  | wpaCtrlRecv n => cases hd : delivered r <;> simp [AttemptState.next, receivedBy, hd]
  | _ => exact ⟨rfl, rfl⟩

/-- A run over a queue gets answers the monitor expects. -/
theorem admits_attempt {tr : List (Call × Answer)}
    (hq : receivedBytes tr <+: s.rest.map Datagram.encode) : (attemptSpec v).Admits s tr := by
  induction tr generalizing s with
  | nil => trivial
  | cons e tr ih =>
    obtain ⟨c, r⟩ := e
    rw [receivedBytes_cons] at hq
    refine ⟨fun b hb => ?_, fun s' hs' => ih ?_⟩
    · rw [hb, Option.toList_some, List.singleton_append] at hq
      cases hrest : s.rest with
      | nil =>
        rw [hrest] at hq
        exact absurd (List.prefix_nil.mp hq) (List.cons_ne_nil _ _)
      | cons d rest =>
        rw [hrest] at hq
        exact ⟨d, rest, rfl, (List.cons_prefix_cons.mp hq).1⟩
    · simp only [attemptSpec] at hs'
      split at hs'
      · cases hs'
      · obtain rfl := Option.some.inj hs'
        rw [(next_attempt s c r).1, List.map_drop]
        obtain ⟨t, ht⟩ := hq
        exact ⟨t, by rw [← ht, List.append_assoc, List.drop_left]⟩

/-- The monitor keeps count of the queue and of the name. -/
theorem exec_attempt {tr : List (Call × Answer)} {s' : AttemptState}
    (h : (attemptSpec v).exec s tr = some s') :
    s'.rest = s.rest.drop (receivedBytes tr).length ∧
      s'.groupName = tr.foldl (fun name e => match e.1 with | .setGroupName n => some n | _ => name)
        s.groupName := by
  induction tr generalizing s with
  | nil =>
    obtain rfl := Option.some.inj h
    exact ⟨rfl, rfl⟩
  | cons e tr ih =>
    obtain ⟨c, r⟩ := e
    rw [Spec.exec_cons] at h
    obtain ⟨s₁, hstep, hexec⟩ := Option.bind_eq_some_iff.mp h
    simp only [attemptSpec] at hstep
    split at hstep
    · cases hstep
    · obtain rfl := Option.some.inj hstep
      obtain ⟨hrest, hname⟩ := next_attempt s c r
      obtain ⟨hrest', hname'⟩ := ih hexec
      refine ⟨?_, ?_⟩
      · rw [hrest', hrest, receivedBytes_cons, List.length_append, List.drop_drop]
      · rw [hname', hname, List.foldl_cons]

/-- What a run over the queue `q` has come to. -/
theorem run_attempt (mac : Bytes) {q : List Datagram} (h : firstOutcome q = some v)
    {rs : List Answer}
    (hq : receivedBytes ((connectToDevice mac).trace rs) <+: q.map Datagram.encode) :
    ∃ s, Keeps (attemptSpec v) s ((connectToDevice mac).after rs)
        (fun connected s => ⟨connected, s.groupName⟩ = v) ∧
      s.rest = q.drop (receivedBytes ((connectToDevice mac).trace rs)).length ∧
      s.groupName = storedName ((connectToDevice mac).trace rs) := by
  obtain ⟨s, hexec, hk⟩ := (keeps_connectToDevice_attempt mac h).exec rs (admits_attempt hq)
  exact ⟨s, hk, (exec_attempt hexec).1, (exec_attempt hexec).2⟩

/-- Where a round of the polling loop goes on. -/
def concluded (o : Option Verdict) : Drv Bool :=
  match o with
  | none => negotiationLoop
  | some ⟨connected, none⟩ => .ret connected
  | some ⟨connected, some ifname⟩ => .call (.setGroupName ifname) fun _ => .ret connected

/-- An event that is polled, received and printed. -/
theorem run_event (d : Datagram) (rs : List Answer) :
    receivedBytes (negotiationLoop.trace (serve [] :: serve d.encode :: serve [] :: rs)) =
        d.encode :: receivedBytes ((concluded d.parse.verdict).trace rs) ∧
      negotiationLoop.after (serve [] :: serve d.encode :: serve [] :: rs) =
        (concluded d.parse.verdict).after rs := by
  let m : Message := Delivery.ofOffer messageCap d.encode []
  have hm : m.bytes = d.encode := List.take_of_length_le (encode_fits d)
  have hreceived : (negotiationLoop.resume (serve [])).pending = some (.wpaCtrlRecv messageCap) :=
    rfl
  have hround : (negotiationLoop.resume (serve [])).resume (serve d.encode) =
      .call (.print m.buffer.cells) fun _ => concluded d.parse.verdict := by
    change (negotiationRound m).bind _ = _
    rw [negotiationRound_encode hm]
    rcases d.parse.verdict with _ | ⟨connected, _ | ifname⟩ <;> rfl
  have hbytes : receivedBy (.wpaCtrlRecv messageCap, serve d.encode) = some d.encode :=
    congrArg some hm
  constructor
  · rw [trace_cons (p := negotiationLoop) rfl, trace_cons hreceived, hround, trace_cons rfl,
      receivedBytes_cons, receivedBytes_cons, hbytes, receivedBytes_cons]
    rfl
  · rw [after_cons (p := negotiationLoop) rfl, after_cons hreceived, hround, after_cons rfl]
    rfl

/-- A queue with an outcome can be served until the polling loop returns. -/
theorem exists_negotiationLoop {q : List Datagram} (h : firstOutcome q = some v) :
    ∃ rs, receivedBytes (negotiationLoop.trace rs) <+: q.map Datagram.encode ∧
      negotiationLoop.after rs = .ret v.connected := by
  induction q with
  | nil => cases h
  | cons d q ih =>
    suffices hrest : ∃ rs, receivedBytes ((concluded d.parse.verdict).trace rs) <+:
        q.map Datagram.encode ∧ (concluded d.parse.verdict).after rs = .ret v.connected by
      obtain ⟨rs, hreceived, hreturned⟩ := hrest
      obtain ⟨htrace, hafter⟩ := run_event d rs
      refine ⟨serve [] :: serve d.encode :: serve [] :: rs, ?_, hafter.trans hreturned⟩
      rw [htrace, List.map_cons]
      exact List.cons_prefix_cons.mpr ⟨rfl, hreceived⟩
    rw [firstOutcome, List.findSome?_cons] at h
    cases ho : d.parse.verdict with
    | none =>
      rw [ho] at h
      exact ih h
    | some v' =>
      rw [ho] at h
      obtain rfl := Option.some.inj h
      obtain ⟨connected, groupName⟩ := v'
      cases groupName with
      | none => exact ⟨[], List.nil_prefix, rfl⟩
      | some ifname => exact ⟨[serve []], List.nil_prefix, rfl⟩

/-- A verdict is all there is to an attempt. -/
theorem judged_unique {mac : Bytes} {q : List Datagram} {v v' : Verdict} (h : Judged mac q v)
    (h' : Judged mac q v') : v = v' := by
  obtain ⟨rs, hq, connected, hreturned⟩ := h.runs
  rw [← h.returns rs hq connected hreturned, ← h'.returns rs hq connected hreturned]

theorem firstOutcome_append (q e : List Datagram) :
    firstOutcome (q ++ e) = (firstOutcome q).or (firstOutcome e) := List.findSome?_append

end AttemptLemmas

open AttemptLemmas

/-- An attempt ends with the verdict of the first event of the queue that has one. -/
theorem judged_of_firstOutcome (mac : Bytes) {q : List Datagram} {v : Verdict}
    (h : firstOutcome q = some v) : Judged mac q v := by
  refine ⟨fun rs hq hfault => ?_, fun rs hq hpoll => ?_, fun rs hq connected hret => ?_, ?_⟩
  · obtain ⟨s, hk, -, -⟩ := run_attempt mac h hq
    rw [hfault] at hk
    exact hk.faults
  · obtain ⟨s, hk, hrest, -⟩ := run_attempt mac h hq
    have hundecided : s.Undecided v := by
      by_contra hno
      obtain ⟨s', hs', -⟩ := hk.resume hpoll (r := default) fun b hb => by cases hb
      rw [show (attemptSpec v).step s .wpaCtrlPending default = none from if_pos ⟨rfl, hno⟩] at hs'
      cases hs'
    by_contra hall
    rw [List.drop_eq_nil_of_le (Nat.not_lt.mp hall)] at hrest
    have hfirst := hundecided.2
    rw [hrest] at hfirst
    cases hfirst
  · obtain ⟨s, hk, -, hname⟩ := run_attempt mac h hq
    rw [hret] at hk
    rw [← hname]
    exact hk.result
  · obtain ⟨rs, hq, hret⟩ := exists_negotiationLoop h
    obtain ⟨rs', htrace, hbind⟩ := exists_run_bind (β := Bool) hret
    obtain ⟨htrace', hafter'⟩ := hbind
      (fun connected => .call (.mark (.connectToDeviceReturned connected)) fun _ => .ret connected)
      [default]
    have htail : (connectToDevice mac).resume default = negotiationLoop.bind fun connected =>
      .call (.mark (.connectToDeviceReturned connected)) fun _ => .ret connected := rfl
    refine ⟨default :: (rs' ++ [default]), ?_, v.connected, ?_⟩
    · rw [trace_cons (p := connectToDevice mac) rfl, receivedBytes_cons, htail, htrace',
      trace_cons rfl, trace_nil,
        receivedBytes_snoc]
      simpa [receivedBy] using hq
    · rw [after_cons (p := connectToDevice mac) rfl, htail]
      exact hafter'

/-- An attempt is judged by the events after its command alone exactly when the
events that were left over have no outcome, or the same one first. -/
theorem attempt_own_events_iff (mac : Bytes) (q : List Datagram) {e : List Datagram}
    (h : ∃ d ∈ e, d.parse.verdict ≠ none) :
    (∃ v, Judged mac (q ++ e) v ∧ Judged mac e v) ↔
      firstOutcome q = none ∨ firstOutcome q = firstOutcome e := by
  obtain ⟨v, hv⟩ : ∃ v, firstOutcome e = some v := by
    obtain ⟨d, hd, hverdict⟩ := h
    rw [← Option.isSome_iff_exists, firstOutcome, List.findSome?_isSome_iff]
    exact ⟨d, hd, Option.isSome_iff_ne_none.mpr hverdict⟩
  have hown := judged_of_firstOutcome mac hv
  cases hq : firstOutcome q with
  | none =>
    have hall := judged_of_firstOutcome mac (q := q ++ e) (v := v)
      (by rw [firstOutcome_append, hq, hv]; rfl)
    exact iff_of_true ⟨v, hall, hown⟩ (.inl rfl)
  | some v' =>
    have hall := judged_of_firstOutcome mac (q := q ++ e) (v := v')
      (by rw [firstOutcome_append, hq]; rfl)
    constructor
    · rintro ⟨w, hw, hw'⟩
      rw [hv, judged_unique hall hw, judged_unique hown hw']
      exact .inr rfl
    · rintro (hnone | hsame)
      · cases hnone
      · rw [hv] at hsame
        exact ⟨v', hall, Option.some.inj hsame ▸ hown⟩

/-- A failure event of an earlier attempt. -/
def staleFailure : Datagram where
  digit := 51
  type := bytes "P2P-GO-NEG-FAILURE"
  payload := bytes "status=1"
  isDigit := by decide
  type_noSpace := by decide
  fits := by decide
  request := by decide
  started := by decide

/-- The event of a group that was started. -/
def freshGroup : Datagram where
  digit := 51
  type := bytes "P2P-GROUP-STARTED"
  payload := bytes "p2p-wlan0-0 GO"
  isDigit := by decide
  type_noSpace := by decide
  fits := by decide
  request := by decide
  started := by decide

/-- The start of a group of an earlier attempt. -/
def earlierGroup : Datagram where
  digit := 51
  type := bytes "P2P-GROUP-STARTED"
  payload := bytes "p2p-wlan0-0 GO freq=2437"
  isDigit := by decide
  type_noSpace := by decide
  fits := by decide
  request := by decide
  started := by decide

theorem freshGroup_judged :
    (∃ v, Judged (bytes "02:00:00:00:00:01") ([earlierGroup] ++ [freshGroup]) v ∧
        Judged (bytes "02:00:00:00:00:01") [freshGroup] v) ↔
      firstOutcome [earlierGroup] = none ∨
        firstOutcome [earlierGroup] = firstOutcome [freshGroup] :=
  attempt_own_events_iff (bytes "02:00:00:00:00:01") [earlierGroup]
    ⟨freshGroup, List.mem_singleton.mpr rfl, by decide⟩

/-- The failure of an earlier attempt is taken for that of a new one. -/
theorem stale_failure_decides :
    ¬ ∀ (mac : Bytes) (q e : List Datagram), (∃ d ∈ e, d.parse.verdict ≠ none) →
      ∃ v, Judged mac (q ++ e) v ∧ Judged mac e v := by
  intro h
  obtain ⟨v, hall, hown⟩ := h (bytes "02:00:00:00:00:01") [staleFailure] [freshGroup]
    ⟨freshGroup, List.mem_singleton.mpr rfl, by decide⟩
  have hfailed := judged_unique hall (judged_of_firstOutcome _ (v := ⟨false, none⟩) (by decide))
  have hstarted := judged_unique hown
    (judged_of_firstOutcome _ (v := ⟨true, some (bytes "p2p-wlan0-0")⟩) (by decide))
  exact absurd (hfailed.symm.trans hstarted) (by decide)

end P2pDriver
