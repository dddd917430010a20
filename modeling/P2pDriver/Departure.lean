import P2pDriver.Attempt

/-!
# Which departures end a session

`connected_loop` waits for an `AP_STA_DISCONNECTED` event, and takes the first one
for that of its device: the address that `connect_to_device` was called on is not
kept, and the payload of the event is not looked at. This module says what any
sequence of well-formed events does to a session while the flag stays true.

Results:
1. `progress_next`: one answered call, before the first departure and behind it.
2. `departure_ends`: a session ends exactly upon the first departure, whichever station
   it names, and nothing else touches it.
3. `deviceDeparture_ends_iff`: when that is the departure of the device itself.
4. `other_station_ends`: the departure of another station ends the session as well.
-/

namespace P2pDriver

open Resumable Prog EventLoopLemmas RefinementLemmas

/-! ## 1. Departures -/

/-- The event names an address, as its station or in its field `p2p_dev_addr`. -/
def names (mac : Bytes) (d : Datagram) : Prop :=
  mac <+: d.payload ∨ bytes "p2p_dev_addr=" ++ mac <:+: d.payload

instance (mac : Bytes) (d : Datagram) : Decidable (names mac d) :=
  inferInstanceAs (Decidable (_ ∨ _))

/-- The event is an `AP_STA_DISCONNECTED`. -/
def isDeparture (d : Datagram) : Bool := decide (d.parse = .staDisconnected)

/-- The event is an `AP_STA_DISCONNECTED` that names `mac`. -/
def isDepartureOf (mac : Bytes) (d : Datagram) : Bool := isDeparture d && decide (names mac d)

/-- The events of a queue before the first that is to end the session. -/
def eventsBefore (ending : Datagram → Bool) (q : List Datagram) : List Datagram :=
  q.takeWhile fun d => !ending d

/-- What a run has done to the global variables and to its surroundings. -/
def effectsIn (tr : List (Call × Answer)) : List Call := (tr.map Prod.fst).filter Call.isEffect

/-- `connected_loop` on the queue `q` ends exactly upon the first event that is to end
the session. -/
structure EndsUpon (ending : Datagram → Bool) (q : List Datagram) : Prop where
  /-- the events before it leave the session, the flag and `connection_is_valid` as they are -/
  untouched : ∀ rs, Fed connectedLoop q rs →
    (receivedBytes (connectedLoop.trace rs)).length ≤ (eventsBefore ending q).length →
      (∃ c, (connectedLoop.after rs).pending = some c) ∧ effectsIn (connectedLoop.trace rs) = []
  /-- no event behind it is received, and the function returns within three calls -/
  ends : ∀ rs, Fed connectedLoop q rs →
    (eventsBefore ending q).length < (receivedBytes (connectedLoop.trace rs)).length →
      (receivedBytes (connectedLoop.trace rs)).length = (eventsBefore ending q).length + 1 ∧
      ∀ r₁ r₂ r₃, connectedLoop.after (rs ++ [r₁, r₂, r₃]) = .ret () ∧
        effectsIn (connectedLoop.trace (rs ++ [r₁, r₂, r₃])) =
          [.setConnectionIsValid false, .setListenForCommands false]
  /-- there are runs that receive all there is to receive -/
  runs : ∃ rs, Fed connectedLoop q rs ∧ Complete connectedLoop q rs

namespace DepartureLemmas

variable {q l : List Datagram} {d : Datagram} {tr : List (Call × Answer)} {s : LoopState} {c : Call}
  {r : Answer}

theorem effectsIn_snoc (tr : List (Call × Answer)) (c : Call) (r : Answer) :
    effectsIn (tr ++ [(c, r)]) = effectsIn tr ++ [c].filter Call.isEffect := by
  rw [effectsIn, List.map_append, List.filter_append, effectsIn]
  rfl

theorem parse_eq_departed : d.parse = .staDisconnected ↔ d.header = deviceDisconnected := by
  constructor
  · intro h
    unfold Datagram.parse at h
    split_ifs at h with _ _ _ _ hheader
    exact hheader
  · intro h
    rw [Datagram.parse, h, if_neg (by decide), if_neg (by decide), if_neg (by decide),
      if_neg (by decide), if_pos rfl]

theorem isDeparture_iff : isDeparture d = true ↔ d.parse = .staDisconnected := decide_eq_true_iff

variable {ending : Datagram → Bool}

theorem eventsBefore_prefix : eventsBefore ending q <+: q := List.takeWhile_prefix _

theorem not_ending_of_mem (h : d ∈ eventsBefore ending q) : (!ending d) = true :=
  (List.mem_takeWhile_imp h :)

/-- An event that does not end the session is one more before the first that does. -/
theorem eventsBefore_extend (hl : l <+: eventsBefore ending q) (hq : l ++ [d] <+: q)
    (hd : ending d = false) : l ++ [d] <+: eventsBefore ending q := by
  obtain ⟨rest, rfl⟩ := hq
  have hall : ∀ x ∈ l ++ [d], (!ending x) = true := by
    intro x hx
    rcases List.mem_append.mp hx with hx | hx
    · exact not_ending_of_mem (hl.subset hx)
    · rw [List.mem_singleton.mp hx, hd]
      rfl
  rw [eventsBefore, List.takeWhile_append_of_pos hall]
  exact List.prefix_append _ _

/-- An event that ends the session is the first one where none is before it. -/
theorem eventsBefore_eq (hl : l <+: eventsBefore ending q) (hq : l ++ [d] <+: q)
    (hd : ending d = true) : eventsBefore ending q = l := by
  obtain ⟨rest, rfl⟩ := hq
  have hall : ∀ x ∈ l, (!ending x) = true := fun x hx => not_ending_of_mem (hl.subset hx)
  rw [eventsBefore, List.append_assoc, List.takeWhile_append_of_pos hall, List.singleton_append,
    List.takeWhile_cons_of_neg (by simp [hd]), List.append_nil]

/-! ## 2. Runs -/

/-- How far a run is: the departure is still to come, or it was received and the
calls `done` of the reaction are made. -/
inductive Progress (q : List Datagram) (tr : List (Call × Answer)) (s : LoopState) : Prop where
  | watching (l : List Datagram) (hl : l <+: eventsBefore isDeparture q)
      (hreceived : receivedBytes tr = l.map Datagram.encode) (hphase : s.phase = .monitoring)
      (howed : s.owed = []) (heffects : effectsIn tr = [])
  | leaving (d : Datagram) (cells : Bytes) (done : List Call)
      (hreceived : receivedBytes tr = (eventsBefore isDeparture q ++ [d]).map Datagram.encode)
      (hphase : s.phase = .ended) (hstage : s.stage = .poll)
      (howed : done ++ s.owed =
        [.print cells, .setConnectionIsValid false, .setListenForCommands false])
      (heffects : effectsIn tr = done.filter Call.isEffect)

/-- The calls of the reaction receive nothing. -/
theorem not_fetch_of_owed {cells : Bytes}
    (h : c ∈ [Call.print cells, .setConnectionIsValid false, .setListenForCommands false]) :
    c.isFetch = false := by
  have hnone : ∀ c ∈ [Call.print cells, .setConnectionIsValid false, .setListenForCommands false],
      c.isFetch = false := by simp [Call.isFetch]
  exact hnone c h

/-- A call before the departure that receives nothing. -/
theorem progress_silent (hl : l <+: eventsBefore isDeparture q)
    (hreceived : receivedBytes tr = l.map Datagram.encode)
    (heffects : effectsIn tr = []) (hr : receivedBy (c, r) = none) (hc : c.isEffect = false)
    (hphase : s.phase = .monitoring) (howed : s.owed = []) : Progress q (tr ++ [(c, r)]) s := by
  refine .watching l hl ?_ hphase howed ?_
  · rw [receivedBytes_snoc, hr, hreceived, Option.toList_none, List.append_nil]
  · rw [effectsIn_snoc, heffects, List.filter_cons_of_neg (by simp [hc])]
    rfl

/-- A message is received before the departure. -/
theorem progress_recv (hl : l <+: eventsBefore isDeparture q)
    (hreceived : receivedBytes tr = l.map Datagram.encode)
    (heffects : effectsIn tr = []) {m : Message} (hm : delivered r = some m)
    (hq : receivedBytes (tr ++ [(.wpaCtrlRecv messageCap, r)]) <+: q.map Datagram.encode) :
    Progress q (tr ++ [(.wpaCtrlRecv messageCap, r)]) (react .monitoring m) := by
  have hr : receivedBy (.wpaCtrlRecv messageCap, r) = some m.bytes := by
    rw [receivedBy, hm, Option.map_some]
  rw [receivedBytes_snoc, hreceived, hr] at hq
  obtain ⟨d, hbytes, hl'⟩ := next_datagram hq (hl.trans eventsBefore_prefix)
  have heffects' : effectsIn (tr ++ [(.wpaCtrlRecv messageCap, r)]) = [] := by
    rw [effectsIn_snoc, heffects]
    rfl
  have hreceived' : receivedBytes (tr ++ [(.wpaCtrlRecv messageCap, r)]) =
    (l ++ [d]).map Datagram.encode := by
    rw [receivedBytes_snoc, hreceived, hr, hbytes, List.map_append]
    rfl
  have htype := isType_deviceDisconnected hbytes
  by_cases hd : d.parse = .staDisconnected
  · rw [decide_eq_true (parse_eq_departed.mp hd)] at htype
    refine .leaving d m.buffer.cells [] ?_ ?_ ?_ ?_ heffects'
    · rw [eventsBefore_eq hl hl' (isDeparture_iff.mpr hd), hreceived']
    all_goals rw [react, htype, if_pos rfl]
    rfl
  · rw [decide_eq_false fun h => hd (parse_eq_departed.mpr h)] at htype
    have hother : isDeparture d = false := decide_eq_false hd
    refine .watching (l ++ [d]) (eventsBefore_extend hl hl' hother) hreceived' ?_ ?_ heffects'
    all_goals rw [react, htype]; rfl

/-- One answered call of a run over the queue. -/
theorem progress_next (h : Progress q tr s) (hexp : eventLoop.expects s = some c)
    (hq : receivedBytes (tr ++ [(c, r)]) <+: q.map Datagram.encode)
    (hflag : c = .isListeningForCommands → r.isSet = true) :
    Progress q (tr ++ [(c, r)]) (eventLoop.next s r) := by
  obtain ⟨φ, st, owed⟩ := s
  cases h with
  | watching l hl hreceived hphase howed heffects =>
    obtain rfl : φ = .monitoring := hphase
    obtain rfl : owed = [] := howed
    have hc : c = st.call := expects_nil hexp
    cases st with
    | poll =>
      refine progress_silent hl hreceived heffects (by rw [hc]; rfl) (by rw [hc]; rfl) ?_ ?_
      all_goals
        rw [show (⟨.monitoring, .poll, []⟩ : LoopState) = atPoll .monitoring from rfl, next_poll]
        split <;> rfl
    | check =>
      have hset : r.isSet = true := hflag hc
      refine progress_silent hl hreceived heffects (by rw [hc]; rfl) (by rw [hc]; rfl) ?_ ?_
      all_goals rw [next_check, if_pos hset]; rfl
    | recv =>
      obtain rfl : c = .wpaCtrlRecv messageCap := hc
      rw [next_recv]
      cases hd : delivered r with
      | none =>
        refine progress_silent hl hreceived heffects ?_ rfl rfl rfl
        rw [receivedBy, hd, Option.map_none]
      | some m => exact progress_recv hl hreceived heffects hd hq
  | leaving d cells done hreceived hphase hstage howed heffects =>
    obtain rfl : φ = .ended := hphase
    obtain rfl : st = .poll := hstage
    cases owed with
    | nil => cases hexp
    | cons c' cs =>
      obtain rfl : c' = c := Option.some.inj hexp
      have hmem : c' ∈ done ++ c' :: cs := List.mem_append_right _ List.mem_cons_self
      have hfetch : c'.isFetch = false := not_fetch_of_owed (howed ▸ hmem)
      refine .leaving d cells (done ++ [c']) ?_ rfl rfl ?_ ?_
      · rw [receivedBytes_snoc, receivedBy_of_not_fetch hfetch, hreceived, Option.toList_none,
          List.append_nil]
      · rw [List.append_assoc]
        exact howed
      · rw [effectsIn_snoc, heffects, List.filter_append]

/-- How far a run over the queue is. -/
theorem progress_run {rs : List Answer} (h : Fed connectedLoop q rs) :
    Progress q (connectedLoop.trace rs) (eventLoop.after (atPoll .monitoring) rs) := by
  have hqueue := h.queue
  have hlistening := h.listening
  rw [connectedLoop_trace] at hqueue hlistening ⊢
  refine eventLoop.run_induction rs (P := fun tr s => receivedBytes tr <+: q.map Datagram.encode →
    (∀ e ∈ tr, e.1 = .isListeningForCommands → e.2.isSet = true) → Progress q tr s) ?_ ?_
    hqueue hlistening
  · exact fun _ _ => .watching [] List.nil_prefix rfl rfl rfl rfl
  · intro rs' r c _ hexp ih hq hflag
    have hpre : receivedBytes (eventLoop.trace (atPoll .monitoring) rs') <+:
        q.map Datagram.encode := by
      rw [receivedBytes_snoc] at hq
      exact (List.prefix_append _ _).trans hq
    exact progress_next (ih hpre fun e he => hflag e (List.mem_append_left _ he)) hexp hq fun hc =>
      hflag (c, r) (List.mem_append_right _ List.mem_cons_self) hc

/-- What is owed behind the departure is called, whatever the answers are. -/
theorem owed_run {owed : List Call} {rs : List Answer} (h : owed.length ≤ rs.length) :
    eventLoop.after ⟨.ended, .poll, owed⟩ rs = atPoll .ended ∧
      effectsIn (eventLoop.trace ⟨.ended, .poll, owed⟩ rs) = owed.filter Call.isEffect := by
  induction owed generalizing rs with
  | nil =>
    rw [eventLoop.after_of_expects_none rfl, eventLoop.trace_of_expects_none rfl]
    exact ⟨rfl, rfl⟩
  | cons c cs ih =>
    cases rs with
    | nil => exact absurd h (by simp)
    | cons r rs =>
      obtain ⟨hafter, heffects⟩ := @ih rs (by simpa using h)
      rw [eventLoop.after_cons (c := c) rfl, eventLoop.trace_cons (c := c) rfl]
      refine ⟨hafter, ?_⟩
      rw [effectsIn, List.map_cons, List.filter_cons, List.filter_cons, ← heffects]
      rfl

/-- A run that has received the departure and has nothing left to do has returned. -/
theorem returned_of_complete {rs : List Answer} (hfed : Fed connectedLoop q rs)
    (hlen : (eventsBefore isDeparture q).length <
      (receivedBytes (connectedLoop.trace rs)).length)
    (hcomplete : Complete connectedLoop q rs) : connectedLoop.after rs = .ret () := by
  rcases hcomplete with hret | ⟨hpoll, -⟩
  · exact hret
  · rw [connectedLoop_pending] at hpoll
    cases progress_run hfed with
    | watching l hl hreceived hphase howed heffects =>
      rw [hreceived, List.length_map] at hlen
      exact absurd hl.length_le (Nat.not_le.mpr hlen)
    | leaving d cells done hreceived hphase hstage howed heffects =>
      -- a poll is no call of the reaction
      generalize eventLoop.after (atPoll .monitoring) rs = s at hphase howed hpoll
      obtain ⟨φ, st, owed⟩ := s
      obtain rfl : φ = .ended := hphase
      cases owed with
      | nil => cases hpoll
      | cons c cs =>
        obtain rfl : c = .wpaCtrlPending := Option.some.inj hpoll
        have hmem : Call.wpaCtrlPending ∈ done ++ .wpaCtrlPending :: cs :=
          List.mem_append_right _ List.mem_cons_self
        exact Bool.noConfusion (not_fetch_of_owed (howed ▸ hmem))

end DepartureLemmas

open DepartureLemmas

/-- A session ends exactly upon the first departure, and no other event touches it. -/
theorem departure_ends (q : List Datagram) : EndsUpon isDeparture q where
  untouched rs hfed hlen := by
    cases progress_run hfed with
    | watching l hl hreceived hphase howed heffects =>
      refine ⟨⟨(eventLoop.after (atPoll .monitoring) rs).stage.call, ?_⟩, heffects⟩
      rw [connectedLoop_pending]
      generalize eventLoop.after (atPoll .monitoring) rs = s at hphase howed
      obtain ⟨φ, st, owed⟩ := s
      obtain rfl : φ = .monitoring := hphase
      obtain rfl : owed = [] := howed
      rfl
    | leaving d cells done hreceived hphase hstage howed heffects =>
      rw [hreceived, List.length_map, List.length_append] at hlen
      exact absurd hlen (Nat.not_succ_le_self _)
  ends rs hfed hlen := by
    cases progress_run hfed with
    | watching l hl hreceived hphase howed heffects =>
      rw [hreceived, List.length_map] at hlen
      exact absurd hl.length_le (Nat.not_le.mpr hlen)
    | leaving d cells done hreceived hphase hstage howed heffects =>
      refine ⟨by rw [hreceived, List.length_map, List.length_append]; rfl, fun r₁ r₂ r₃ => ?_⟩
      rw [connectedLoop_returned_iff, connectedLoop_trace, eventLoop.after_append,
        eventLoop.trace_append, ← connectedLoop_trace]
      generalize eventLoop.after (atPoll .monitoring) rs = s at hphase hstage howed
      obtain ⟨φ, st, owed⟩ := s
      obtain rfl : φ = .ended := hphase
      obtain rfl : st = .poll := hstage
      have hshort : owed.length ≤ [r₁, r₂, r₃].length := by
        have htotal := congrArg List.length howed
        rw [List.length_append] at htotal
        exact Nat.le_trans (Nat.le_add_left _ _) (Nat.le_of_eq htotal)
      obtain ⟨hafter, hdone⟩ := owed_run hshort
      refine ⟨hafter, ?_⟩
      rw [effectsIn, List.map_append, List.filter_append, ← effectsIn, ← effectsIn, heffects, hdone,
        ← List.filter_append, show done ++ owed = _ from howed]
      rfl
  runs := (refines_connectedLoop q).2

/-! ## 3. The departure of the device -/

namespace DepartureLemmas

variable {q : List Datagram} {mac : Bytes}

/-- Where the first departure is that of the device, the same events are before either. -/
theorem eventsBefore_departure (h : ∀ d, q.find? isDeparture = some d → names mac d) :
    eventsBefore (isDepartureOf mac) q = eventsBefore isDeparture q := by
  induction q with
  | nil => rfl
  | cons d q ih =>
    cases hd : isDeparture d with
    | true =>
      have hown : isDepartureOf mac d = true := by
        rw [isDepartureOf, hd, decide_eq_true (h d (List.find?_cons_of_pos hd))]
        rfl
      rw [eventsBefore, eventsBefore, List.takeWhile_cons_of_neg (by simp [hown]),
        List.takeWhile_cons_of_neg (by simp [hd])]
    | false =>
      have hother : isDepartureOf mac d = false := by rw [isDepartureOf, hd, Bool.false_and]
      have hrest : ∀ d, q.find? isDeparture = some d → names mac d := fun d' hd' =>
        h d' (by rwa [List.find?_cons_of_neg (by simp [hd])])
      rw [eventsBefore, eventsBefore, List.takeWhile_cons_of_pos (by simp [hother]),
        List.takeWhile_cons_of_pos (by simp [hd])]
      exact congrArg (d :: ·) (ih hrest)

/-- Where it is that of another station, it is one of the events before that of the device. -/
theorem eventsBefore_lt {d : Datagram} (hd : q.find? isDeparture = some d) (h : ¬ names mac d) :
    (eventsBefore isDeparture q).length < (eventsBefore (isDepartureOf mac) q).length := by
  induction q with
  | nil => cases hd
  | cons d' q ih =>
    cases hd' : isDeparture d' with
    | true =>
      obtain rfl : d' = d := Option.some.inj ((List.find?_cons_of_pos hd').symm.trans hd)
      have hother : isDepartureOf mac d' = false := by
        rw [isDepartureOf, decide_eq_false h, Bool.and_false]
      rw [eventsBefore, eventsBefore, List.takeWhile_cons_of_neg (by simp [hd']),
        List.takeWhile_cons_of_pos (by simp [hother])]
      exact Nat.succ_pos _
    | false =>
      have hother : isDepartureOf mac d' = false := by rw [isDepartureOf, hd', Bool.false_and]
      rw [List.find?_cons_of_neg (by simp [hd'])] at hd
      rw [eventsBefore, eventsBefore, List.takeWhile_cons_of_pos (by simp [hd']),
        List.takeWhile_cons_of_pos (by simp [hother])]
      exact Nat.succ_lt_succ (ih hd)

end DepartureLemmas

/-- A session with the device `mac` ends exactly upon the first departure of that device if
and only if no other station departs before it. -/
theorem deviceDeparture_ends_iff (mac : Bytes) (q : List Datagram) :
    EndsUpon (isDepartureOf mac) q ↔ ∀ d, q.find? isDeparture = some d → names mac d := by
  have hends := departure_ends q
  constructor
  · intro hown d hd
    by_contra hother
    have hlt := eventsBefore_lt hd hother
    have hall : (eventsBefore (isDepartureOf mac) q).length ≤ q.length :=
      eventsBefore_prefix.length_le
    obtain ⟨rs, hfed, hcomplete⟩ := hends.runs
    -- a run that has nothing left to do has received the departure of the other station
    have hreceived : (eventsBefore isDeparture q).length <
        (receivedBytes (connectedLoop.trace rs)).length := by
      by_contra hno
      obtain ⟨⟨c, hpending⟩, -⟩ := hends.untouched rs hfed (Nat.not_lt.mp hno)
      rcases hcomplete with hret | ⟨-, hconsumed⟩
      · rw [hret] at hpending
        cases hpending
      · omega
    have hret := returned_of_complete hfed hreceived hcomplete
    have hlen := (hends.ends rs hfed hreceived).1
    -- but a session that has not lost its device goes on
    obtain ⟨⟨c, hpending⟩, -⟩ := hown.untouched rs hfed (by omega)
    rw [hret] at hpending
    cases hpending
  · intro hfirst
    have hsame := eventsBefore_departure hfirst
    refine ⟨fun rs hfed hlen => ?_, fun rs hfed hlen => ?_, hends.runs⟩
    · rw [hsame] at hlen
      exact hends.untouched rs hfed hlen
    · rw [hsame] at hlen ⊢
      exact hends.ends rs hfed hlen

theorem info_isDigit : (48 : Byte) ≤ 51 ∧ (51 : Byte) ≤ 57 := by decide

/-- The event that another station has disconnected. -/
def otherStation : Datagram where
  digit := 51
  type := bytes "AP-STA-DISCONNECTED"
  payload := bytes "02:00:00:00:00:02"
  isDigit := info_isDigit
  type_noSpace := by decide
  fits := by decide
  request := by decide
  started := by decide

/-- The other station disconnects, and the loop reacts. -/
def otherLeaves : List Answer := [{ isSet := true }, { offer := otherStation.encode }, {}, {}, {}]

/-- A session with one station is ended by the departure of another. -/
theorem other_station_ends : ¬ ∀ (mac : Bytes) (rs₀ : List Answer),
    (connectToDevice mac).after rs₀ = .ret true →
      ∀ q : List Datagram, EndsUpon (isDepartureOf mac) q := by
  intro h
  have hends := h (bytes "02:00:00:00:00:01")
    [{}, { isSet := true }, { offer := freshGroup.encode }, {}, {}, {}] rfl [otherStation]
  have hfed : Fed connectedLoop [otherStation] otherLeaves :=
    ⟨by decide +kernel, by decide +kernel, by decide +kernel⟩
  have hreturned : connectedLoop.after otherLeaves = .ret () := by
    rw [connectedLoop_returned_iff]
    decide +kernel
  obtain ⟨⟨c, hpending⟩, -⟩ := hends.untouched otherLeaves hfed (by decide +kernel)
  rw [hreturned] at hpending
  cases hpending

end P2pDriver
