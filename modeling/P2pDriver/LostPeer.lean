import P2pDriver.Recovery

/-!
# Recovery from a lost peer

The peer may leave at any moment after `connect_loop` has returned. The driver then
gets back to a search on its own in every state but these: `main` waits for a
datagram of the peer in the handshake, or `listen_for_commands` waits for its
connection, and neither wait has a timeout. A message that has overrun its buffer
ends all promises as well.

From every other state some call of a thread brings the search closer: `main` ends
its handshake and starts the session threads, `connected_loop` takes the events up
to the one that tells that the peer has gone, and `listen_for_commands` then finds
the flag cleared.

Results:
1. `recovers_iff`: when the driver recovers, exactly.
2. `lost_in_handshake`: a peer that leaves before its datagram blocks the driver.
-/

namespace P2pDriver

open Resumable Prog ProcessLemmas SessionMachineLemmas HandleLifecycleLemmas RecoveryLemmas

/-! ## 1. What the driver may be stuck in -/

/-- `main` waits for a datagram, and none that fits in its buffer is there. -/
def helloMissing (C : WorldState) : Bool :=
  match waitsOn (inside C) .main with
  | some (.recvfrom _ len) => C.store.around.datagrams.head?.all fun message => len ≤ message.length
  | _ => false

/-- `listen_for_commands` listens, and no connection is there for its `accept`. -/
def clientMissing (C : WorldState) : Bool :=
  match waitsOn (inside C) .commandHandler with
  | some .freeaddrinfo | some (.accept _) => C.store.around.connections = 0
  | _ => false

/-- A thread that has run into undefined behaviour. -/
def faulted (C : WorldState) (t : Thread) : Bool := (C.threads t).any fun s => s.base.pending.isNone

/-- The states the driver does not leave without its peer. -/
def Stuck (C : WorldState) : Prop :=
  helloMissing C = true ∨ clientMissing C = true ∨ faulted C .main = true ∨
    faulted C .commandHandler = true

/-! ## 2. How far it is to the next search -/

/-- The calls of `main` before its next search, where they are not those of the
other threads. -/
def MainStage.rank : MainStage → Nat
  | searching | overrun => 0
  | rejoined n => n
  | joining => 2
  | watched => 3
  | handling => 4
  | armed => 5
  | greeted n => n + 6
  | greeting => 16
  | resolving => 17
  | connected => 18

/-- While the flag is set `connected_loop` looks for a message, then it looks past it. -/
def WatcherStage.rank (flag : Bool) : WatcherStage → Nat
  | head => if flag then 5 else 7
  | fetching => 4
  | judging => 6
  | dropping n => n + 2
  | leaving => 2
  | ended => 1

/-- The calls of `connected_loop` while `pending` messages wait for it. -/
def watcherRank (flag : Bool) (pending : Nat) : Option WatcherStage → Nat
  | some k => 4 * pending + k.rank flag
  | none => 0

/-- The calls of `listen_for_commands` once the flag is cleared. -/
def HandlerStage.rank : HandlerStage → Nat
  | overrun => 0
  | refused n | closing n => n + 1
  | preparing | accepting => 4
  | freeing => 5
  | reading n => n + 4
  | receiving => 7

def handlerRank : Option HandlerStage → Nat
  | some l => l.rank
  | none => 0

/-- The session threads count only when `main` has nothing else to do, and
`connected_loop` comes first. -/
abbrev Rank := Nat × Nat × Nat

def Rank.lt : Rank → Rank → Prop := Prod.Lex (· < ·) (Prod.Lex (· < ·) (· < ·))

/-- `listen_for_commands` does not wait for a connection of the peer, and has not
failed. -/
def Unblocked (connections : Nat) : Option HandlerStage → Prop
  | some .freeing | some .accepting => 0 < connections
  | some .overrun => False
  | _ => True

/-- How far the driver is from its next search. -/
def rank (C : WorldState) (m : MainStage) (l : Option HandlerStage)
    (k : Option WatcherStage) : Rank :=
  (m.rank, watcherRank C.store.shared.runCommandLoop C.store.around.events.length k, handlerRank l)

/-- The driver gets to the next search from here. -/
structure WayBack (C : WorldState) (m : MainStage) (l : Option HandlerStage)
    (k : Option WatcherStage) : Prop where
  stages : InStages C (some m) l k
  lost : Lost C
  sound : m ≠ .overrun
  hello : m = .greeting → helloMissing C = false
  client : Unblocked C.store.around.connections l

/-- The driver gets to the next search from here, and `b` is how far it is. -/
def OnWayBack (b : Rank) (C : WorldState) : Prop := ∃ m l k, WayBack C m l k ∧ b = rank C m l k

/-- The driver gets closer to the next search with some call. -/
abbrev GetsCloser (C : WorldState) (b : Rank) : Prop :=
  world.Approaches StartsSearch Rank.lt OnWayBack b C

/-- The driver does not get to the next search from here. -/
def Doomed (C : WorldState) (m : MainStage) (l : Option HandlerStage) : Prop :=
  m = .greeting ∧ helloMissing C = true ∨ m = .overrun ∨
    (m = .handling ∨ m = .watched) ∧ ¬ Unblocked C.store.around.connections l

namespace LostPeerLemmas

variable {C C' : WorldState} {m m' : MainStage} {l : Option HandlerStage} {k : Option WatcherStage}
  {t : Thread} {x : Stack Call Answer Signal} {c : Call} {r : Answer}

/-! ## 3. What the threads wait on -/

theorem pending_of_waitsOn (h : waitsOn (inside C) t = some c) :
    ∃ x, C.threads t = some x ∧ x.base.pending = some c := Option.bind_eq_some_iff.mp h

theorem waitsOn_of_pending (hx : C.threads t = some x) (hnil : x.handlers = [])
    (hpend : x.running.pending = some c) : waitsOn (inside C) t = some c := by
  rw [Stack.running_of_nil hnil] at hpend
  exact Option.bind_eq_some_iff.mpr ⟨x, hx, hpend⟩

theorem fault_of_faulted (h : faulted C t = true) :
    ∃ x, C.threads t = some x ∧ x.base.pending = none := by
  obtain ⟨x, hx, hnone⟩ := (Option.any_eq_true _ _).mp h
  exact ⟨x, hx, Option.isNone_iff_eq_none.mp hnone⟩

theorem faulted_of_fault (hx : C.threads t = some x) (hnone : x.base.pending = none) :
    faulted C t = true := by
  rw [faulted, hx, Option.any_some, hnone]
  rfl

/-- `main` receives a datagram in one stage only. -/
theorem greeting_of_recvfrom {fd : Int} {len : Nat} (h : m.step (.recvfrom fd len) r = some m')
    (hne : m ≠ .searching) : m = .greeting := by
  cases m with
  | searching => exact absurd rfl hne
  | greeting => rfl
  | greeted n => rcases greeted_step h with ⟨hc, -⟩ | ⟨hc, -⟩ | ⟨hc, -⟩ <;> cases hc
  | rejoined n => rcases rejoined_step h with ⟨hc, -⟩ | ⟨hc, -⟩ <;> cases hc
  | _ => cases h

theorem greeting_of_helloMissing (h : InStages C (some m) l k) (hne : m ≠ .searching)
    (hmissing : helloMissing C = true) : m = .greeting := by
  unfold helloMissing at hmissing
  split at hmissing
  · rename_i fd len hwaits
    obtain ⟨x, hx, hpend⟩ := pending_of_waitsOn hwaits
    have hat := h.main
    rw [hx] at hat
    obtain ⟨-, -, hkeeps⟩ := hat
    have hadmits : mainStageSpec.admits m (.recvfrom fd len) {} := by
      cases m <;> first | exact trivial | exact le_refl _
    obtain ⟨m', hm', -⟩ := hkeeps.resume hpend hadmits
    exact greeting_of_recvfrom hm' hne
  · cases hmissing

/-- A stage in which `listen_for_commands` comes to its `accept`. -/
theorem accepting_of_step {l l' : HandlerStage} (h : l.step c r = some l')
    (hc : c = .freeaddrinfo ∨ ∃ fd, c = .accept fd) : l = .freeing ∨ l = .accepting := by
  cases l with
  | freeing => exact .inl rfl
  | accepting => exact .inr rfl
  | refused n => rcases hc with rfl | ⟨fd, rfl⟩ <;> cases n <;> cases h
  | reading n => rcases hc with rfl | ⟨fd, rfl⟩ <;> cases n <;> cases h
  | closing n => rcases hc with rfl | ⟨fd, rfl⟩ <;> cases n <;> cases h
  | _ => rcases hc with rfl | ⟨fd, rfl⟩ <;> cases h

theorem blocked_of_clientMissing (h : InStages C (some m) l k) (hmissing : clientMissing C = true) :
    ¬ Unblocked C.store.around.connections l := by
  have hblocked : ∀ c, waitsOn (inside C) .commandHandler = some c →
      (c = .freeaddrinfo ∨ ∃ fd, c = .accept fd) → C.store.around.connections = 0 →
      ¬ Unblocked C.store.around.connections l := by
    intro c hwaits hc hzero
    obtain ⟨x, hx, hpend⟩ := pending_of_waitsOn hwaits
    obtain ⟨l, rfl, -, -, hkeeps⟩ := Stack.some_of_at (hx ▸ h.handler)
    obtain ⟨l', hl', -⟩ := hkeeps.resume hpend (r := {}) trivial
    rw [hzero]
    rcases accepting_of_step hl' hc with rfl | rfl <;> exact lt_irrefl 0
  unfold clientMissing at hmissing
  split at hmissing
  · rename_i hwaits
    exact hblocked _ hwaits (.inl rfl) (of_decide_eq_true hmissing)
  · rename_i fd hwaits
    exact hblocked _ hwaits (.inr ⟨fd, rfl⟩) (of_decide_eq_true hmissing)
  · cases hmissing

/-- What blocks `listen_for_commands` is seen in what it waits on. -/
theorem stuck_of_blocked (h : InStages C (some m) l k)
    (hl : ¬ Unblocked C.store.around.connections l) :
    clientMissing C = true ∨ faulted C .commandHandler = true := by
  have hzero : ¬ 0 < C.store.around.connections → decide (C.store.around.connections = 0) = true :=
    fun h => decide_eq_true (Nat.eq_zero_of_not_pos h)
  cases l with
  | none => exact absurd trivial hl
  | some l =>
    cases l with
    | freeing =>
      obtain ⟨x, c, hx, hnil, hpend, hcalls⟩ := Stack.waits_of_at h.handler HandlerStage.noConfusion
      obtain ⟨l', hl'⟩ := hcalls {} trivial
      obtain ⟨rfl, -⟩ := freeing_step hl'
      left
      rw [clientMissing, waitsOn_of_pending hx hnil hpend]
      exact hzero hl
    | accepting =>
      obtain ⟨x, c, hx, hnil, hpend, hcalls⟩ := Stack.waits_of_at h.handler HandlerStage.noConfusion
      obtain ⟨l', hl'⟩ := hcalls {} trivial
      obtain ⟨fd, rfl, -⟩ := accepting_step hl'
      left
      rw [clientMissing, waitsOn_of_pending hx hnil hpend]
      exact hzero hl
    | overrun =>
      obtain ⟨x, hx⟩ := Stack.runs_of_at h.handler
      exact .inr (faulted_of_fault hx (Stack.stalled_of_at (hx ▸ h.handler) (fun _ _ => trivial)
        fun c r => handler_overrun_step (c := c) (r := r)))
    | _ => exact absurd trivial hl

/-- A session thread that waits for the peer does so while `main` waits for it. -/
theorem doomed_of_blocked (h : InStages C (some m) l k) (hne : m ≠ .searching)
    (hl : ¬ Unblocked C.store.around.connections l) : Doomed C m l := by
  have hsome : l ≠ none := by
    rintro rfl
    exact hl trivial
  rcases company_cases (h.company m rfl) (.inl hsome) with rfl | rfl | rfl | rfl | rfl
  · exact absurd rfl hne
  · exact .inr (.inr ⟨.inl rfl, hl⟩)
  · exact .inr (.inr ⟨.inr rfl, hl⟩)
  · exact absurd (h.company _ rfl) hsome
  · exact .inr (.inl rfl)

theorem faulted_main_iff (h : InStages C (some m) l k) (hne : m ≠ .searching) :
    faulted C .main = true ↔ m = .overrun := by
  constructor
  · intro hfaulted
    obtain ⟨x, hx, hnone⟩ := fault_of_faulted hfaulted
    have hfaults : mainStageSpec.faults m := Stack.faults_of_at (hx ▸ h.main) hnone
    exact hfaults.resolve_left hne
  · rintro rfl
    obtain ⟨x, hx⟩ := Stack.runs_of_at h.main
    exact faulted_of_fault hx (Stack.stalled_of_at (hx ▸ h.main) (fun _ _ => trivial)
      fun c r => overrun_step (c := c) (r := r))

theorem blocked_of_faulted (h : InStages C (some m) l k)
    (hfaulted : faulted C .commandHandler = true) :
    ¬ Unblocked C.store.around.connections l := by
  obtain ⟨x, hx, hnone⟩ := fault_of_faulted hfaulted
  obtain ⟨l, rfl, hat⟩ := Stack.some_of_at (hx ▸ h.handler)
  obtain rfl : l = .overrun := Stack.faults_of_at hat hnone
  exact id

/-- The states the driver is stuck in, by the stages of its threads. -/
theorem stuck_iff (h : InStages C (some m) l k) (hne : m ≠ .searching) :
    Stuck C ↔ Doomed C m l := by
  constructor
  · rintro (hmissing | hmissing | hfaulted | hfaulted)
    · exact .inl ⟨greeting_of_helloMissing h hne hmissing, hmissing⟩
    · exact doomed_of_blocked h hne (blocked_of_clientMissing h hmissing)
    · exact .inr (.inl ((faulted_main_iff h hne).mp hfaulted))
    · exact doomed_of_blocked h hne (blocked_of_faulted h hfaulted)
  · rintro (⟨-, hmissing⟩ | hm | ⟨-, hl⟩)
    · exact .inl hmissing
    · exact .inr (.inr (.inl ((faulted_main_iff h hne).mpr hm)))
    · exact .inr ((stuck_of_blocked h hl).imp_right .inr)

/-- Where the driver is not doomed there is a way back. -/
theorem wayBack_of_not_doomed (h : InStages C (some m) l k) (hlost : Lost C) (hne : m ≠ .searching)
    (hdoomed : ¬ Doomed C m l) : WayBack C m l k where
  stages := h
  lost := hlost
  sound hm := hdoomed (.inr (.inl hm))
  hello hm := by
    cases hmissing : helloMissing C with
    | false => rfl
    | true => exact absurd (.inl ⟨hm, hmissing⟩) hdoomed
  client := by
    by_contra hl
    exact hdoomed (doomed_of_blocked h hne hl)

/-! ## 4. Calls on the way back -/

/-- The answer with which `connected_loop` goes on. -/
abbrev watcherAnswer (s : World) : Answer :=
  { isSet := s.shared.runCommandLoop, offer := s.around.events.headD [] }

theorem watcher_answered {k k' : WatcherStage} {s : World}
    (hk' : k.step c (watcherAnswer s) = some k')
    (hqueue : k = .fetching ∨ k = .head ∧ s.shared.runCommandLoop = true → s.around.events ≠ []) :
    world.answers s c (watcherAnswer s) = true := by
  refine world_answers.mpr ?_
  cases k with
  | head =>
    obtain ⟨rfl, -⟩ := head_step hk'
    refine ⟨rfl, ?_⟩
    cases hflag : s.shared.runCommandLoop with
    | true => simp [Surroundings.answers, hqueue (.inr ⟨rfl, hflag⟩)]
    | false => simp [Surroundings.answers, hflag]
  | fetching =>
    obtain ⟨len, rfl, -⟩ := fetching_step hk'
    obtain ⟨message, rest, hevents⟩ := List.exists_cons_of_ne_nil (hqueue (.inl rfl))
    refine ⟨rfl, ?_⟩
    simp [Surroundings.answers, hevents]
  | judging =>
    rcases judging_step hk' with ⟨rfl, -⟩ | ⟨⟨buffer, rfl⟩, -⟩
    · exact ⟨decide_eq_true rfl, rfl⟩
    · exact ⟨rfl, rfl⟩
  | dropping n =>
    rcases dropping_step hk' with ⟨_, -, -, ⟨_, rfl⟩ | rfl⟩ | ⟨rfl, -⟩ <;> exact ⟨rfl, rfl⟩
  | leaving =>
    obtain ⟨rfl, -⟩ := leaving_stage_step hk'
    exact ⟨rfl, rfl⟩
  | ended =>
    rw [ended_step] at hk'
    cases hk'

/-- A call of `connected_loop` takes a message, or gets closer to taking one or to the end. -/
theorem watcher_descends {k k' : WatcherStage} {s : World}
    (hk' : k.step c (watcherAnswer s) = some k')
    (hqueue : k = .fetching ∨ k = .head ∧ s.shared.runCommandLoop = true → s.around.events ≠ []) :
    4 * (s.around.effect c (watcherAnswer s)).events.length +
        k'.rank (flagAfter s.shared.runCommandLoop c) <
      4 * s.around.events.length + k.rank s.shared.runCommandLoop := by
  cases k with
  | head =>
    obtain ⟨rfl, rfl⟩ := head_step hk'
    refine Nat.add_lt_add_left ?_ _
    cases hflag : s.shared.runCommandLoop <;> simp [hflag, WatcherStage.rank]
  | fetching =>
    obtain ⟨len, rfl, he⟩ := fetching_step hk'
    obtain ⟨message, rest, hevents⟩ := List.exists_cons_of_ne_nil (hqueue (.inl rfl))
    have hrank : k'.rank s.shared.runCommandLoop ≤ 6 := by
      rw [he]
      split
      · exact show 4 ≤ 6 by decide
      · exact le_refl 6
    have htaken : (s.around.effect (.wpaCtrlRecv len) (watcherAnswer s)).events = rest := by
      simp [Surroundings.effect, hevents]
    rw [htaken, hevents, List.length_cons]
    show 4 * rest.length + k'.rank s.shared.runCommandLoop < 4 * (rest.length + 1) + 4
    omega
  | judging =>
    rcases judging_step hk' with ⟨rfl, rfl⟩ | ⟨⟨buffer, rfl⟩, rfl⟩
    · refine Nat.add_lt_add_left ?_ _
      cases hflag : s.shared.runCommandLoop <;> simp [hflag, flagAfter, WatcherStage.rank]
    · exact Nat.add_lt_add_left (show 3 < 6 by decide) _
  | dropping n =>
    rcases dropping_step hk' with ⟨n', rfl, rfl, ⟨buffer, rfl⟩ | rfl⟩ | ⟨rfl, rfl⟩
    · exact Nat.add_lt_add_left (Nat.lt_succ_self _) _
    · exact Nat.add_lt_add_left (Nat.lt_succ_self _) _
    · exact Nat.add_lt_add_left (Nat.lt_add_left n (Nat.lt_succ_self 1)) _
  | leaving =>
    obtain ⟨rfl, rfl⟩ := leaving_stage_step hk'
    exact Nat.add_lt_add_left (Nat.lt_succ_self 1) _
  | ended =>
    rw [ended_step] at hk'
    cases hk'

/-- The answer with which `listen_for_commands` goes on once the flag is cleared: it
receives one byte, and what can fail does. -/
def handlerAnswer (w : Surroundings) : HandlerStage → Answer
  | .receiving => { ret := (w.stream.take 1).length, offer := w.stream.take 1 }
  | _ => { ret := -1 }

theorem recv_answered {w : Surroundings} (hreadable : w.readable = true) (fd : Int) :
    w.answers (.recv fd commandMaxRecv) (handlerAnswer w .receiving) = true := by
  have hlen : (w.stream.take 1).length ≤ commandMaxRecv :=
    (List.length_take_le 1 w.stream).trans (by decide)
  have hsome : (w.stream.take 1 ≠ [] || w.shut && w.stream = []) = true := by
    unfold Surroundings.readable at hreadable
    cases hstream : w.stream with
    | nil => simpa [hstream] using hreadable
    | cons b stream => rfl
  unfold Surroundings.answers handlerAnswer
  simp only [Bool.and_eq_true]
  exact ⟨⟨⟨decide_eq_true (List.take_prefix 1 w.stream), decide_eq_true hlen⟩, rfl⟩, hsome⟩

/-- A call of `listen_for_commands` once the flag is cleared. -/
theorem handler_descends {l l' : HandlerStage} {s : World} (hflag : s.shared.runCommandLoop = false)
    (hl' : l.step c (handlerAnswer s.around l) = some l')
    (hreadable : l = .receiving → s.around.readable = true)
    (hfree : Unblocked s.around.connections (some l)) :
    world.answers s c (handlerAnswer s.around l) = true ∧ l'.rank < l.rank ∧
      Unblocked (s.around.effect c (handlerAnswer s.around l)).connections (some l') := by
  have hread : decide (false = s.shared.runCommandLoop) = true := decide_eq_true hflag.symm
  cases l with
  | preparing =>
    rcases preparing_step hl' with ⟨port, udp, rfl, rfl⟩ | ⟨⟨udp, rfl⟩ | ⟨fd, rfl⟩, rfl⟩ |
      ⟨fd, rfl, rfl⟩ <;>
      exact ⟨world_answers.mpr ⟨rfl, rfl⟩, show 3 < 4 by decide, trivial⟩
  | freeing =>
    obtain ⟨rfl, rfl⟩ := freeing_step hl'
    exact ⟨world_answers.mpr ⟨rfl, rfl⟩, show 4 < 5 by decide, hfree⟩
  | accepting =>
    obtain ⟨fd, rfl, rfl⟩ := accepting_step hl'
    exact ⟨world_answers.mpr ⟨rfl, decide_eq_true hfree⟩, show 3 < 4 by decide, trivial⟩
  | refused n =>
    obtain ⟨n', rfl, rfl, ⟨fd, rfl⟩ | rfl⟩ := refused_step hl' <;>
      exact ⟨world_answers.mpr ⟨rfl, rfl⟩, Nat.lt_succ_self _, trivial⟩
  | reading n =>
    rcases reading_step hl' with ⟨rfl, rfl⟩ | ⟨n', rfl, ⟨⟨fd, rfl⟩, rfl⟩ | ⟨rfl | ⟨e, rfl⟩, rfl⟩⟩
    · exact ⟨world_answers.mpr ⟨hread, rfl⟩, Nat.lt_add_left n (show 3 < 4 by decide), trivial⟩
    all_goals exact ⟨world_answers.mpr ⟨rfl, rfl⟩, Nat.lt_succ_self _, trivial⟩
  | receiving =>
    obtain ⟨fd, rfl, he⟩ := receiving_step hl'
    have hfits : (s.around.stream.take 1).length < commandMaxRecv :=
      (List.length_take_le 1 s.around.stream).trans_lt (by decide)
    obtain rfl : l' = .reading 2 := he.trans (if_pos (.inr hfits))
    exact ⟨world_answers.mpr ⟨rfl, recv_answered (hreadable rfl) fd⟩, show 6 < 7 by decide, trivial⟩
  | closing n =>
    obtain ⟨n', fd, rfl, rfl, rfl⟩ := closing_step hl'
    exact ⟨world_answers.mpr ⟨rfl, rfl⟩, Nat.lt_succ_self _, trivial⟩
  | overrun =>
    rw [handler_overrun_step] at hl'
    cases hl'

/-- The answer with which `main` goes on: it finds `control_data` and receives what
is there, and what can fail does. -/
def mainAnswer (s : World) : Call → Answer
  | .recvfrom _ len =>
    { ret := (min len (s.around.datagrams.headD []).length : Nat),
      offer := s.around.datagrams.headD [] }
  | _ => { ret := -1, handle := s.shared.controlData }

theorem main_admitted (h : InStages C (some m) l k) (hne : m ≠ .searching) (c : Call) :
    mainStageSpec.admits m c (mainAnswer C.store c) := by
  have hcontrol : C.store.shared.controlData ≠ none := by
    obtain ⟨handle, hhandle⟩ := h.control m rfl hne
    rw [hhandle]
    exact Option.some_ne_none handle
  simp only [mainStageSpec]
  split
  · exact Int.natCast_nonneg _
  · exact hcontrol
  · exact hcontrol
  · trivial

theorem followUp_answered {s : World} (hc : c.isFollowUp = true) :
    world.answers s c (mainAnswer s c) = true := by
  refine world_answers.mpr ?_
  cases c with
  | controlData => exact ⟨decide_eq_true rfl, rfl⟩
  | mark m => exact ⟨rfl, rfl⟩
  | _ => first | exact ⟨rfl, rfl⟩ | exact Bool.noConfusion hc

/-- A call of `main` on its way to the next search. -/
theorem main_descends {s : World} (hm' : m.step c (mainAnswer s c) = some m') (hne : m ≠ .searching)
    (hhello : ∀ fd len, m = .greeting → c = .recvfrom fd len →
      ∃ message, s.around.datagrams.head? = some message ∧ message.length < len) :
    world.answers s c (mainAnswer s c) = true ∧
      (c = startCall ∨ m'.rank < m.rank ∧ m' ≠ .overrun ∧ m' ≠ .greeting) := by
  have hfree : ∀ {c},
      (s.shared.answers c (mainAnswer s c) && s.around.answers c (mainAnswer s c)) = true →
      world.answers s c (mainAnswer s c) = true := fun h => h
  cases m with
  | searching => exact absurd rfl hne
  | connected =>
    obtain ⟨rfl, rfl⟩ := connected_step hm'
    exact ⟨hfree rfl, .inr ⟨show 17 < 18 by decide, by simp, by simp⟩⟩
  | resolving =>
    obtain ⟨port, udp, rfl, rfl⟩ := resolving_step hm'
    exact ⟨hfree rfl, .inr ⟨show 15 < 17 by decide, by simp [mainAnswer], by simp [mainAnswer]⟩⟩
  | greeting =>
    rcases greeting_step hm' with ⟨⟨udp, rfl⟩ | ⟨fd, rfl⟩, rfl⟩ | ⟨fd, len, rfl, he⟩
    · exact ⟨hfree rfl, .inr ⟨show 15 < 16 by decide, by simp [mainAnswer], by simp [mainAnswer]⟩⟩
    · exact ⟨hfree rfl, .inr ⟨show 15 < 16 by decide, by simp [mainAnswer], by simp [mainAnswer]⟩⟩
    · obtain ⟨message, hmessage, hfits⟩ := hhello fd len rfl rfl
      have hoffer : s.around.datagrams.headD [] = message := by
        rw [List.headD_eq_head?_getD, hmessage]
        rfl
      have hgreeted : m' = .greeted 9 := by
        rw [he, mainAnswer, hoffer]
        exact if_pos hfits
      subst hgreeted
      refine ⟨world_answers.mpr ⟨rfl, ?_⟩, .inr ⟨show 15 < 16 by decide, by simp, by simp⟩⟩
      simp [Surroundings.answers, mainAnswer, hmessage]
  | greeted n =>
    rcases greeted_step hm' with ⟨rfl, -⟩ | ⟨rfl, rfl⟩ | ⟨hc, n', rfl, rfl⟩
    · exact ⟨hfree rfl, .inl rfl⟩
    · exact ⟨hfree rfl, .inr ⟨Nat.lt_add_left n (show 5 < 6 by decide), by simp, by simp⟩⟩
    · exact ⟨followUp_answered hc, .inr ⟨Nat.lt_succ_self _, by simp, by simp⟩⟩
  | armed =>
    obtain ⟨rfl, rfl⟩ := armed_step hm'
    exact ⟨hfree rfl, .inr ⟨show 4 < 5 by decide, by simp, by simp⟩⟩
  | handling =>
    obtain ⟨rfl, rfl⟩ := handling_step hm'
    exact ⟨hfree rfl, .inr ⟨show 3 < 4 by decide, by simp, by simp⟩⟩
  | watched =>
    obtain ⟨rfl, rfl⟩ := watched_step hm'
    exact ⟨hfree rfl, .inr ⟨show 2 < 3 by decide, by simp, by simp⟩⟩
  | joining =>
    obtain ⟨rfl, rfl⟩ := joining_step hm'
    exact ⟨hfree rfl, .inr ⟨show 1 < 2 by decide, by simp, by simp⟩⟩
  | rejoined n =>
    rcases rejoined_step hm' with ⟨rfl, -⟩ | ⟨rfl, n', rfl, rfl⟩
    · exact ⟨hfree rfl, .inl rfl⟩
    · exact ⟨followUp_answered rfl, .inr ⟨Nat.lt_succ_self _, by simp, by simp⟩⟩
  | overrun =>
    rw [overrun_step] at hm'
    cases hm'

/-! ## 5. Every state gets closer -/

theorem not_searching (h : InStages C (some m) l k) (hlost : Lost C) : m ≠ .searching := by
  obtain ⟨m', hm', hne⟩ := h.joined hlost.1
  exact Option.some.inj hm' ▸ hne

theorem lost_of_effect (hlost : Lost C)
    (hjoined : (C.store.around.effect c r).joined = C.store.around.joined)
    (hgone : (C.store.around.effect c r).gone = C.store.around.gone) : Lost (afterCall C t x c r) :=
  ⟨hjoined.trans hlost.1, hgone.trans hlost.2⟩

/-- Which threads `main` joins. -/
theorem joins_of_main_step {u : Thread} (h : m.step c r = some m') (hne : m ≠ .searching)
    (hu : world.joins c = some u) :
    m = .watched ∧ u = .commandHandler ∨ m = .joining ∧ u = .connectionListener := by
  obtain rfl : c = .join u := by
    cases c <;> first | exact congrArg _ (Option.some.inj hu) | cases hu
  cases m with
  | searching => exact absurd rfl hne
  | watched => exact .inl ⟨rfl, by simpa using (watched_step h).1⟩
  | joining => exact .inr ⟨rfl, by simpa using (joining_step h).1⟩
  | greeted n => rcases greeted_step h with ⟨hc, -⟩ | ⟨hc, -⟩ | ⟨hc, -⟩ <;> cases hc
  | rejoined n => rcases rejoined_step h with ⟨hc, -⟩ | ⟨hc, -⟩ <;> cases hc
  | _ => cases h

/-- `main` goes on by itself unless it waits for a session thread. -/
theorem main_progress (h : WayBack C m l k) (hl : m = .watched → l = none)
    (hk : m = .joining → k = none) : GetsCloser C (rank C m l k) := by
  have hne := not_searching h.stages h.lost
  obtain ⟨x, c, hx, hnil, hpend, hcalls⟩ :=
    Stack.waits_of_at h.stages.main fun hfaults => hfaults.elim hne h.sound
  obtain ⟨m', hm'⟩ := hcalls _ (main_admitted h.stages hne c)
  have hhello : ∀ fd len, m = .greeting → c = .recvfrom fd len →
      ∃ message, C.store.around.datagrams.head? = some message ∧ message.length < len := by
    rintro fd len hm rfl
    have hmissing := h.hello hm
    unfold helloMissing at hmissing
    rw [waitsOn_of_pending hx hnil hpend] at hmissing
    cases hhead : C.store.around.datagrams.head? with
    | none =>
      rw [hhead] at hmissing
      cases hmissing
    | some message =>
      rw [hhead] at hmissing
      exact ⟨message, rfl, not_le.mp (of_decide_eq_false hmissing)⟩
  obtain ⟨hans, hcase⟩ := main_descends hm' hne hhello
  have hjoin : ∀ u, world.joins c = some u → C.threads u = none := by
    intro u hu
    rcases joins_of_main_step hm' hne hu with ⟨hm, rfl⟩ | ⟨hm, rfl⟩
    · exact Stack.absent_of_at (hl hm ▸ h.stages.handler)
    · exact Stack.absent_of_at (hk hm ▸ h.stages.watcher)
  have hstep := System.step_of_call hx hpend hans hjoin
  rcases hcase with rfl | ⟨hlt, hsound, hgreeting⟩
  · exact .inl ⟨_, _, ⟨_, rfl⟩, hstep⟩
  · obtain ⟨m'', o, hm'', hend, hstages⟩ := stages_main h.stages hx hpend hans hjoin
    obtain rfl := Option.some.inj (hm'.symm.trans hm'')
    rcases main_step_away hne hm' with ⟨rfl, -⟩ | ⟨haway, hsearch⟩
    · exact .inl ⟨_, _, ⟨_, rfl⟩, hstep⟩
    · obtain rfl : o = some m' := hend.resolve_right fun he => hsearch he.2
      obtain ⟨-, -, hconnections, hjoined, hgone⟩ := effect_of_isAway (w := C.store.around) haway
      refine .inr ⟨_, _, _, _, _, hstep, .left _ _ hlt, m', _, _,
        ⟨hstages, ?_, hsound, ?_, ?_⟩, rfl⟩
      · exact lost_of_effect h.lost hjoined hgone
      · exact fun hm => absurd hm hgreeting
      · rw [afterCall_around, hconnections]
        unfold startedBy
        split
        · trivial
        · exact h.client

/-- `connected_loop` goes on by itself while `main` waits for session threads. -/
theorem watcher_progress {k : WatcherStage} (h : WayBack C m l (some k))
    (hm : m = .watched ∨ m = .joining) : GetsCloser C (rank C m l (some k)) := by
  obtain ⟨x, c, hx, -, hpend, hcalls⟩ := Stack.waits_of_at h.stages.watcher id
  obtain ⟨k', hk'⟩ := hcalls (watcherAnswer C.store) trivial
  have htold : C.store.around.events.any tellsDisconnect = true ∨
      (∃ n, some k = some (.dropping n)) ∨
      C.store.shared.runCommandLoop = false := by
    have htold := h.stages.told h.lost m rfl
    rcases hm with rfl | rfl <;> exact htold
  have hqueue : k = .fetching ∨ k = .head ∧ C.store.shared.runCommandLoop = true →
      C.store.around.events ≠ [] := by
    rintro (rfl | ⟨rfl, hflag⟩)
    · exact h.stages.fetchable rfl
    · rcases htold with hevents | ⟨n, hn⟩ | hclear
      · rintro he
        rw [he] at hevents
        cases hevents
      · cases hn
      · cases hflag.symm.trans hclear
  have hans := watcher_answered hk' hqueue
  have hlt := watcher_descends hk' hqueue
  have hjoin : ∀ u, world.joins c = some u → C.threads u = none := by
    intro u hu
    have hnone : process.joins c = none := by
      rcases watcher_step_away hk' with ⟨-, len, rfl⟩ | ⟨-, -, -, hjoins⟩
      · rfl
      · exact hjoins
    cases hnone.symm.trans hu
  obtain ⟨k'', o, hk'', hend, hstages⟩ := stages_watcher h.stages hx hpend hans hjoin
  obtain rfl := Option.some.inj (hk'.symm.trans hk'')
  obtain ⟨-, hconnections, hjoined, hgone⟩ := effect_of_watcher (w := C.store.around) hk'
  refine .inr ⟨_, _, _, _, _, System.step_of_call hx hpend hans hjoin,
    .right _ (.left _ _ ?_), m, l, o,
    ⟨hstages, lost_of_effect h.lost hjoined hgone, h.sound, fun hgreeting => ?_, ?_⟩, rfl⟩
  · rw [afterCall_shared, effect_flag, afterCall_around]
    rcases hend with rfl | ⟨rfl, -⟩
    · exact hlt
    · exact Nat.zero_lt_of_lt hlt
  · rcases hm with rfl | rfl <;> cases hgreeting
  · rw [afterCall_around, hconnections]
    exact h.client

theorem joins_of_isCommandHandling (hc : c.isCommandHandling = true) : process.joins c = none := by
  cases c <;> first | rfl | exact Bool.noConfusion hc

/-- `listen_for_commands` goes on by itself once the flag is cleared. -/
theorem handler_progress {l : HandlerStage} (h : WayBack C .watched (some l) none)
    (hflag : C.store.shared.runCommandLoop = false) :
    GetsCloser C (rank C .watched (some l) none) := by
  have hsound : l ≠ .overrun := by
    rintro rfl
    exact h.client
  obtain ⟨x, c, hx, -, hpend, hcalls⟩ := Stack.waits_of_at h.stages.handler hsound
  obtain ⟨l', hl'⟩ := hcalls (handlerAnswer C.store.around l) trivial
  obtain ⟨hans, hlt, hfree⟩ :=
    handler_descends hflag hl' (fun hl => h.stages.readable (congrArg some hl)) h.client
  have hhandling := handling_of_handler_step hl'
  have hjoin : ∀ u, world.joins c = some u → C.threads u = none := by
    intro u hu
    cases (joins_of_isCommandHandling hhandling).symm.trans hu
  obtain ⟨l'', o, hl'', hend, hstages⟩ := stages_handler h.stages hx hpend hans hjoin
  obtain rfl := Option.some.inj (hl'.symm.trans hl'')
  obtain ⟨-, hjoined, hgone⟩ := effect_of_handling (w := C.store.around)
    (r := handlerAnswer C.store.around l)
    hhandling
  refine .inr ⟨_, _, _, _, _, System.step_of_call hx hpend hans hjoin,
    .right _ (.right _ ?_), _, o, _,
    ⟨hstages, lost_of_effect h.lost hjoined hgone, h.sound, fun hgreeting => ?_, ?_⟩, rfl⟩
  · rcases hend with rfl | ⟨rfl, -⟩
    · exact hlt
    · exact Nat.zero_lt_of_lt hlt
  · cases hgreeting
  · rcases hend with rfl | ⟨rfl, -⟩
    · exact hfree
    · trivial

/-- While `main` waits for `listen_for_commands`, the flag is cleared once
`connected_loop` has returned. -/
theorem flag_of_watched (h : InStages C (some .watched) l none) :
    C.store.shared.runCommandLoop = false := by
  obtain ⟨a, htracks, hcoherent⟩ := h.session
  obtain ⟨x, c, hx, hnil, hpend, hcalls⟩ := Stack.waits_of_at h.main (by simp [mainStageSpec])
  obtain ⟨m', hm'⟩ := hcalls {} trivial
  obtain ⟨rfl, -⟩ := watched_step hm'
  rw [Stack.running_of_nil hnil] at hpend
  obtain ⟨p, hp, -⟩ := (htracks.main x hx).base.resume hpend (r := {}) trivial
  have hwatched : a.main = .watched := by
    rcases main_step_cases hp with ⟨-, hc, -⟩ | ⟨-, hc, -⟩ | ⟨-, hc, -⟩ | ⟨-, hc, -⟩ | ⟨hm, -, -⟩ |
      ⟨-, hc, -⟩
    · cases hc
    · cases hc
    · cases hc
    · cases hc
    · exact hm
    · cases hc
  have hwatcher := htracks.watcher
  rw [inside, Config.map, Stack.absent_of_at h.watcher] at hwatcher
  exact htracks.flag.trans ((hcoherent.watched hwatched).2 (inPhase_none hwatcher))

theorem gets_closer (h : WayBack C m l k) : GetsCloser C (rank C m l k) := by
  by_cases hm : m = .watched ∧ l ≠ none ∨ m = .joining
  · cases k with
    | some k => exact watcher_progress h (hm.imp_left And.left)
    | none =>
      rcases hm with ⟨rfl, hl⟩ | rfl
      · obtain ⟨l, rfl⟩ := Option.ne_none_iff_exists'.mp hl
        exact handler_progress h (flag_of_watched h.stages)
      · exact main_progress h (by simp) fun _ => rfl
  · obtain ⟨hwatched, hjoining⟩ := not_or.mp hm
    refine main_progress h (fun hm => ?_) fun hm => absurd hm hjoining
    by_contra hl
    exact hwatched ⟨hm, hl⟩

theorem rank_wellFounded : WellFounded Rank.lt :=
  (Prod.lex Nat.lt_wfRel (Prod.lex Nat.lt_wfRel Nat.lt_wfRel)).wf

theorem recovers_of_wayBack (h : WayBack C m l k) : Recovers C := by
  refine System.LeadsTo.of_descent rank_wellFounded (P := OnWayBack) ?_ ⟨m, l, k, h, rfl⟩
  rintro b C ⟨m, l, k, h, rfl⟩
  exact gets_closer h

/-! ## 6. What the driver does not leave -/

theorem startCall_of_searching (h : m.step startCall r = some m') (hne : m ≠ .searching) :
    (∃ n, m = .greeted n) ∨ ∃ n, m = .rejoined n := by
  cases m with
  | searching => exact absurd rfl hne
  | greeted n => exact .inl ⟨n, rfl⟩
  | rejoined n => exact .inr ⟨n, rfl⟩
  | _ => cases h

/-- A call of `main` where the driver is doomed. -/
theorem doomed_main (h : InStages C (some m) l k) (hdoomed : Doomed C m l)
    (hx : C.threads .main = some x)
    (hpend : x.running.pending = some c) (hans : world.answers C.store c r = true)
    (hjoin : ∀ u, world.joins c = some u → C.threads u = none) (hm' : m.step c r = some m') :
    m' ≠ .searching ∧ Doomed (afterCall C .main x c r) m'
      (startedBy c .commandHandler .preparing l) := by
  rcases hdoomed with ⟨rfl, hmissing⟩ | rfl | ⟨rfl | rfl, hl⟩
  · have hat := h.main
    rw [hx] at hat
    unfold helloMissing at hmissing
    rw [waitsOn_of_pending hx hat.1 hpend] at hmissing
    rcases greeting_step hm' with ⟨⟨udp, rfl⟩ | ⟨fd, rfl⟩, -⟩ | ⟨fd, len, rfl, he⟩
    · cases hmissing
    · cases hmissing
    · -- a datagram is there, which overruns the buffer
      have hhead : C.store.around.datagrams.head? = some r.offer :=
        of_decide_eq_true (Bool.and_eq_true_iff.mp (world_answers.mp hans).2).1
      rw [hhead] at hmissing
      have hlong : len ≤ r.offer.length := of_decide_eq_true hmissing
      obtain rfl : m' = .overrun := he.trans (if_neg (not_lt.mpr hlong))
      exact ⟨by simp, .inr (.inl rfl)⟩
  · rw [overrun_step] at hm'
    cases hm'
  · obtain ⟨rfl, rfl⟩ := handling_step hm'
    rw [startedBy_of_ne (by simp)]
    exact ⟨by simp, .inr (.inr ⟨.inr rfl, hl⟩)⟩
  · obtain ⟨rfl, rfl⟩ := watched_step hm'
    have hnone := h.handler
    rw [hjoin .commandHandler rfl] at hnone
    rw [Stack.none_of_at hnone] at hl
    exact absurd trivial hl

/-- A call of `listen_for_commands` where the driver is doomed. -/
theorem doomed_handler {l l' : HandlerStage} {o : Option HandlerStage}
    (h : InStages C (some m) (some l) k) (hdoomed : Doomed C m (some l))
    (hans : world.answers C.store c r = true) (hl' : l.step c r = some l')
    (hend : o = some l' ∨ o = none ∧ l'.ends) : Doomed (afterCall C .commandHandler x c r) m o := by
  rcases hdoomed with ⟨rfl, -⟩ | hm | ⟨hm, hl⟩
  · exact absurd (h.company _ rfl).1 (Option.some_ne_none l)
  · exact .inr (.inl hm)
  · cases l with
    | freeing =>
      obtain ⟨rfl, rfl⟩ := freeing_step hl'
      obtain rfl : o = some .accepting := hend.resolve_right And.right
      exact .inr (.inr ⟨hm, hl⟩)
    | accepting =>
      obtain ⟨fd, rfl, -⟩ := accepting_step hl'
      exact absurd (of_decide_eq_true (world_answers.mp hans).2) hl
    | overrun =>
      rw [handler_overrun_step] at hl'
      cases hl'
    | _ => exact absurd trivial hl

/-- A call of `connected_loop` where the driver is doomed. -/
theorem doomed_watcher {k k' : WatcherStage} (h : InStages C (some m) l (some k))
    (hdoomed : Doomed C m l)
    (hk' : k.step c r = some k') : Doomed (afterCall C .connectionListener x c r) m l := by
  rcases hdoomed with ⟨rfl, -⟩ | hm | ⟨hm, hl⟩
  · exact absurd (h.company _ rfl).2 (Option.some_ne_none k)
  · exact .inr (.inl hm)
  · refine .inr (.inr ⟨hm, ?_⟩)
    rw [afterCall_around, (effect_of_watcher hk').2.1]
    exact hl

/-- The driver is doomed, whatever stages its session threads are in. -/
def IsDoomed (C : WorldState) : Prop :=
  ∃ m l k, InStages C (some m) l k ∧ m ≠ .searching ∧ Doomed C m l

theorem doomed_step (h : IsDoomed C) (hstep : world.step C (.call t c r) = some C') :
    IsDoomed C' := by
  obtain ⟨m, l, k, h, hne, hdoomed⟩ := h
  obtain ⟨x, hx, hpend, hans, hjoin, rfl⟩ := System.step_call hstep
  cases t with
  | main =>
    obtain ⟨m', o, hm', hend, hstages⟩ := stages_main h hx hpend hans hjoin
    obtain ⟨hne', hdoomed'⟩ := doomed_main h hdoomed hx hpend hans hjoin hm'
    obtain rfl : o = some m' := hend.resolve_right fun he => hne' he.2
    exact ⟨m', _, _, hstages, hne', hdoomed'⟩
  | commandHandler =>
    obtain ⟨l, rfl, -⟩ := Stack.some_of_at (hx ▸ h.handler)
    obtain ⟨l', o, hl', hend, hstages⟩ := stages_handler h hx hpend hans hjoin
    exact ⟨m, o, k, hstages, hne, doomed_handler h hdoomed hans hl' hend⟩
  | connectionListener =>
    obtain ⟨k, rfl, -⟩ := Stack.some_of_at (hx ▸ h.watcher)
    obtain ⟨k', o, hk', -, hstages⟩ := stages_watcher h hx hpend hans hjoin
    exact ⟨m, l, o, hstages, hne, doomed_watcher h hdoomed hk'⟩

/-- Where the driver is doomed it does not start a search. -/
theorem doomed_not_startCall (h : IsDoomed C) :
    world.step C (.call .main startCall r) ≠ some C' := by
  obtain ⟨m, l, k, h, hne, hdoomed⟩ := h
  intro hstep
  obtain ⟨x, hx, hpend, hans, hjoin, rfl⟩ := System.step_call hstep
  obtain ⟨m', -, hm', -⟩ := stages_main h hx hpend hans hjoin
  have hwhere : m = .greeting ∨ m = .overrun ∨ m = .handling ∨ m = .watched :=
    hdoomed.imp And.left (Or.imp_right And.left)
  rcases startCall_of_searching hm' hne with ⟨n, rfl⟩ | ⟨n, rfl⟩ <;> simp at hwhere

theorem not_recovers_of_doomed (h : IsDoomed C) : ¬ Recovers C := by
  refine System.LeadsTo.avoids IsDoomed h (fun _ _ _ _ _ => doomed_step) ?_
  rintro C move C' hdoomed ⟨r, rfl⟩
  exact doomed_not_startCall hdoomed

theorem not_recovers_of_stuck {ls : List WorldMove} (hrun : world.run worldStart ls = some C)
    (hlost : Lost C) (hstuck : Stuck C) : ¬ Recovers C := by
  obtain ⟨m, l, k, h⟩ := stages_run hrun
  obtain ⟨m, rfl, hne⟩ := h.joined hlost.1
  exact not_recovers_of_doomed ⟨m, l, k, h, hne, (stuck_iff h hne).mp hstuck⟩

end LostPeerLemmas

open LostPeerLemmas

/-- Once the peer has gone, the driver gets back to a search on its own exactly
where it is not stuck. -/
theorem recovers_iff {ls : List WorldMove} {C : WorldState}
    (hrun : world.run worldStart ls = some C) (hlost : Lost C) : Recovers C ↔ ¬ Stuck C := by
  constructor
  · exact fun hrecovers hstuck => not_recovers_of_stuck hrun hlost hstuck hrecovers
  · intro hstuck
    obtain ⟨m, l, k, h⟩ := stages_run hrun
    obtain ⟨m, rfl, hne⟩ := h.joined hlost.1
    exact recovers_of_wayBack (wayBack_of_not_doomed h hlost hne fun hdoomed =>
      hstuck ((stuck_iff h hne).mpr hdoomed))

/-- `main` connects to a device, which leaves while the handshake waits for its datagram. -/
def lostRun : List WorldMove :=
  [.outside (.event (bytes "<3>P2P-GO-NEG-REQUEST 02:00:00:00:00:01")),
    .outside (.event (bytes "<3>P2P-GROUP-STARTED p2p-wlan0-0 GO"))] ++
    ((main .udp).trace (sampleMainRun.take 25)).map (fun e => .call .main e.1 e.2) ++
    [.outside (.event (bytes "<3>AP-STA-DISCONNECTED 02:00:00:00:00:01")), .outside .leave]

theorem lostRun_end :
    ∃ C, world.run worldStart lostRun = some C ∧ Lost C ∧ helloMissing C = true := by
  have hend : (world.run worldStart lostRun).any (fun C =>
      C.store.around.joined && C.store.around.gone && helloMissing C) = true := by decide +kernel
  obtain ⟨C, hC, hlost⟩ := (Option.any_eq_true _ _).mp hend
  simp only [Bool.and_eq_true] at hlost
  exact ⟨C, hC, ⟨hlost.1.1, hlost.1.2⟩, hlost.2⟩

theorem lostRun_recovers_iff :
    ∃ C, world.run worldStart lostRun = some C ∧ Lost C ∧ (Recovers C ↔ ¬ Stuck C) := by
  obtain ⟨C, hC, hlost, -⟩ := lostRun_end
  exact ⟨C, hC, hlost, recovers_iff hC hlost⟩

/-- A peer that leaves before it has sent its datagram blocks the driver for good. -/
theorem lost_in_handshake : ¬ ∀ (ls : List WorldMove) (C : WorldState),
    world.run worldStart ls = some C → Lost C → Recovers C := by
  intro h
  obtain ⟨C, hC, hlost, hmissing⟩ := lostRun_end
  exact not_recovers_of_stuck hC hlost (.inl hmissing) (h lostRun C hC hlost)

end P2pDriver
