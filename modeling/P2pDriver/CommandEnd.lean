import P2pDriver.CommandStream
import P2pDriver.SocketLedger
import P2pDriver.StopRequest

/-!
# The end of the command connection

`recv` on the command socket returns 0 once the client has closed the connection,
and fails once it is dead. `listen_for_commands` acts on positive counts only. This
module says what it does after either: the end of the connection is no reason to
end the session, `run_command_loop` is.

Results:
1. `flagGoverns`: what `listen_for_commands` does once the connection has ended.
2. `session_outlives`: a session goes on until a device disconnects.
3. `connectionEnd_ignored`: both, for every run.
4. `received_after_end`: `recv` may be called again on that socket.
-/

namespace P2pDriver

open Resumable Prog EventLoopLemmas SocketLemmas SessionMachineLemmas StopRequestLemmas

/-! ## 1. Sessions whose connection ends -/

/-- What `recv` reports when the connection has ended: 0 bytes, or an error. -/
def reportsEnd (len : Nat) (r : Answer) : Prop := r.ret < 0 ∨ r.offer.take len = []

instance (len : Nat) (r : Answer) : Decidable (reportsEnd len r) :=
  inferInstanceAs (Decidable (_ ∨ _))

/-- The listening socket and the accepted one. -/
def acceptedBy : Call × Answer → Option (Int × Int)
  | (.accept sockFd, r) => if r.ret < 0 then none else some (sockFd, r.ret)
  | _ => none

def acceptedSockets (tr : List (Call × Answer)) : Option (Int × Int) := tr.findSome? acceptedBy

/-- A run of `listen_for_commands` that has accepted a connection is governed by
the flag, whatever `recv` reports. -/
structure FlagGoverns (sockFd newFd : Int) (rs : List Answer) : Prop where
  /-- the end of the connection leads to nothing but the next read of the flag -/
  ignores : ∀ tr len r, listenForCommands.trace rs = tr ++ [(.recv newFd len, r)] →
    reportsEnd len r →
    (listenForCommands.after rs).pending = some .isListeningForCommands
  /-- while the flag reads true, the same socket is selected again -/
  resumes : ∀ tr r, listenForCommands.trace rs = tr ++ [(.isListeningForCommands, r)] →
    r.isSet = true →
    (listenForCommands.after rs).pending = some (.select newFd)
  /-- the first read of false leads to the end of the function, and nothing else is
  called than what closes both sockets -/
  stops : ∀ tr r rest, listenForCommands.trace rs = tr ++ (.isListeningForCommands, r) :: rest →
    r.isSet = false →
      rest.map Prod.fst ++ (listenForCommands.after rs).pending.toList =
        [.close newFd, .close sockFd].take (rest.length + 1) ∧
      (rest.length = 2 → listenForCommands.after rs = .ret ())
  /-- it returns in no other way -/
  returned : listenForCommands.after rs = .ret () → ∃ tr r r₁ r₂, listenForCommands.trace rs =
    tr ++ [(.isListeningForCommands, r), (.close newFd, r₁), (.close sockFd, r₂)] ∧ r.isSet = false
  /-- it does not write the flag -/
  unwritten : ∀ val, .setListenForCommands val ∉ listenForCommands.issued rs

/-- A failure that keeps `listen_for_commands` from accepting a connection. -/
def opensNot (c : Call) (r : Answer) : Bool := setupFailed c r || acceptFailed c r

/-- An `AP_STA_DISCONNECTED` event is received. -/
def disconnects : Call → Answer → Bool
  | .wpaCtrlRecv _, r => (delivered r).any fun m => isType m deviceDisconnected
  | _, _ => false

/-- `enter_connected_state` starts `listen_for_commands`. -/
def startsHandler : Move → Bool
  | .call .main (.spawn .commandHandler) _ => true
  | _ => false

/-- `enter_connected_state` joins one of its threads. -/
def joinsThread : Move → Bool
  | .call .main (.join _) _ => true
  | _ => false

/-- What the end of the command connection leads to. -/
structure EndIgnored (ip : IpExchange) : Prop where
  governed : ∀ rs sockFd newFd,
    acceptedSockets (listenForCommands.trace rs) = some (sockFd, newFd) →
      FlagGoverns sockFd newFd rs
  /-- once `listen_for_commands` has returned, the flag is false -/
  left : ∀ before l d C, startsSession l = true →
    process.run (initial ip) (before ++ l :: d) = some C → (∀ l' ∈ d, endsSession l' = false) →
    (∃ l' ∈ d, startsHandler l' = true) → C.threads .commandHandler = none →
      C.store.runCommandLoop = false
  /-- a session in which a connection could be accepted and no device disconnects goes
  on: the flag is true, and `enter_connected_state` can join neither thread -/
  outlives : ∀ before l d C, startsSession l = true →
    process.run (initial ip) (before ++ l :: d) = some C →
    (∀ c r, .call .commandHandler c r ∈ d → opensNot c r = false) →
    (∀ c r, .call .connectionListener c r ∈ d → disconnects c r = false) →
      C.store.runCommandLoop = true ∧ ∀ l' ∈ d, joinsThread l' = false

/-! ## 2. Stages of the listener -/

/-- Where `listen_for_commands` is: before a connection is accepted or behind its
failure, in a round of its loop, behind a `recv` that has reported the end, behind a
read of the flag, or closing its sockets. -/
inductive EndStage where
  | opening
  | refused
  | serving (sockFd newFd : Int)
  | ended (sockFd newFd : Int)
  | resumed (sockFd newFd : Int)
  | stopped (sockFd newFd : Int)
  | closing (sockFd newFd : Int)
  | closed (sockFd newFd : Int)

def EndStage.step : EndStage → Call → Answer → Option EndStage
  | opening, .accept sockFd, r => some (if r.ret < 0 then opening else serving sockFd r.ret)
  | opening, .setListenForCommands false, _ => some refused
  | opening, c, _ => if c.isSocketOpening then some opening else none
  | serving sockFd newFd, .recv fd len, r =>
    if fd = newFd then some (if reportsEnd len r then ended sockFd newFd else serving sockFd newFd)
    else none
  | serving sockFd newFd, .isListeningForCommands, r
  | ended sockFd newFd, .isListeningForCommands, r =>
    some (if r.isSet then resumed sockFd newFd else stopped sockFd newFd)
  | serving sockFd newFd, c, _ => if c.isExecution then some (serving sockFd newFd) else none
  | resumed sockFd newFd, .select fd, _ => if fd = newFd then some (serving sockFd newFd) else none
  | stopped sockFd newFd, .close fd, _ => if fd = newFd then some (closing sockFd newFd) else none
  | closing sockFd newFd, .close fd, _ => if fd = sockFd then some (closed sockFd newFd) else none
  | _, _, _ => none

/-- Only a chunk that fills its buffer leaves the function undefined. -/
def endSpec : Spec Call Answer EndStage where
  admits _ _ _ := True
  step := EndStage.step
  faults m := ∃ sockFd newFd, m = .serving sockFd newFd

/-- The sockets of a stage. -/
def EndStage.sockets : EndStage → Option (Int × Int)
  | opening | refused => none
  | serving sockFd newFd | ended sockFd newFd | resumed sockFd newFd | stopped sockFd newFd
  | closing sockFd newFd | closed sockFd newFd => some (sockFd, newFd)

/-- Where the function returns. -/
def EndStage.Final (m : EndStage) : Prop := m = .refused ∨ ∃ sockFd newFd, m = .closed sockFd newFd

namespace CommandEndLemmas

variable {sockFd newFd : Int}

theorem keeps_tcpInitAcceptSocket (port : Bytes) :
    Keeps endSpec .opening (tcpInitAcceptSocket port) fun (sockFd, newFd, _) m =>
      newFd = nlosSocketErr ∧ m = .opening ∨ newFd ≠ nlosSocketErr ∧ m = .serving sockFd newFd := by
  have honly := SocketLemmas.only_tcpInitSocket (F := False) (P := Call.isSocketOpening)
    (fun _ hc => hc) port
  refine keeps_bind
    ((honly.keeps (fun c r hc => ?_) fun h => h.elim).mono fun origSockFd m hm => ?_)
  · cases c <;> first | rfl | exact Bool.noConfusion hc
  · subst hm
    split
    · exact keeps_ret (.inl ⟨rfl, rfl⟩)
    · refine keeps_call fun r _ => ⟨_, rfl, ?_⟩
      simp only [ret_bind]
      by_cases hret : r.ret < 0
      · rw [if_pos hret, if_pos hret]
        exact keeps_ret (.inl ⟨rfl, rfl⟩)
      · rw [if_neg hret, if_neg hret]
        refine keeps_ret (.inr ⟨fun herr => hret ?_, rfl⟩)
        show r.ret < 0
        rw [show r.ret = nlosSocketErr from herr]
        decide

/-- A round up to the read of the flag. -/
theorem keeps_receiveCommand (inSet : Bool) :
    Keeps endSpec (.serving sockFd newFd) (receiveCommand newFd inSet)
      fun _ m => m = .serving sockFd newFd ∨ m = .ended sockFd newFd := by
  cases inSet with
  | false => exact keeps_ret (.inl rfl)
  | true =>
    change Keeps _ _ (.call (.recv newFd commandMaxRecv) fun r =>
      (receiveCommand newFd true).resume r) _
    refine keeps_call fun r _ => ⟨_, if_pos rfl, ?_⟩
    rw [receiveCommand_eq]
    by_cases hend : reportsEnd commandMaxRecv r
    · rw [if_pos hend, show chunkOf (.recv newFd commandMaxRecv, r) = none from if_pos hend]
      exact keeps_ret (.inr rfl)
    · rw [if_neg hend, show chunkOf (.recv newFd commandMaxRecv, r) = some _ from if_neg hend]
      dsimp only
      split
      · refine keeps_call fun _ _ => ⟨.serving sockFd newFd, rfl, ?_⟩
        split
        · exact keeps_call fun _ _ => ⟨.serving sockFd newFd, rfl, keeps_ret (.inl rfl)⟩
        · exact keeps_ret (.inl rfl)
      · exact keeps_fault ⟨sockFd, newFd, rfl⟩

theorem keeps_commandLoop (runPlaceholder : Bool) :
    Keeps endSpec (if runPlaceholder then .resumed sockFd newFd else .stopped sockFd newFd)
      (commandLoop newFd runPlaceholder) fun _ m => m = .stopped sockFd newFd := by
  cases runPlaceholder with
  | false => exact keeps_ret rfl
  | true =>
    refine keeps_loop (· = .resumed sockFd newFd) rfl fun m hm inSet _ => ?_
    subst hm
    refine ⟨.serving sockFd newFd, if_pos rfl, ?_⟩
    simp only [bind_eq, ask_bind, pure_eq]
    refine keeps_bind ((keeps_receiveCommand inSet.isSet).mono fun _ m hm => ?_)
    refine keeps_call fun r _ =>
      ⟨if r.isSet then .resumed sockFd newFd else .stopped sockFd newFd, ?_, ?_⟩
    · rcases hm with rfl | rfl <;> rfl
    · cases r.isSet with
      | true => exact keeps_ret rfl
      | false => exact keeps_ret (keeps_ret rfl)

theorem keeps_listenForCommands : Keeps endSpec .opening listenForCommands fun _ m => m.Final := by
  refine keeps_bind
    ((keeps_tcpInitAcceptSocket commandPort).mono fun (sockFd, newFd, addr) m hm => ?_)
  dsimp only
  rcases hm with ⟨rfl, rfl⟩ | ⟨hne, rfl⟩
  · rw [if_pos rfl]
    exact keeps_call fun _ _ => ⟨.refused, rfl, keeps_ret (.inl rfl)⟩
  · rw [if_neg hne]
    simp only [bind_eq, ask_bind, perform_bind]
    refine keeps_call fun flag _ => ⟨_, rfl, keeps_bind ?_⟩
    refine (keeps_commandLoop flag.isSet).mono fun _ m hm => ?_
    subst hm
    exact keeps_call fun _ _ => ⟨.closing sockFd newFd, if_pos rfl, keeps_call fun _ _ =>
      ⟨.closed sockFd newFd, if_pos rfl, keeps_ret (.inr ⟨sockFd, newFd, rfl⟩)⟩⟩

/-! ## 3. What the stages say of a run -/

variable {m m' : EndStage} {c : Call} {r : Answer} {p : Drv Unit}

theorem opening_step (h : EndStage.opening.step c r = some m') :
    m'.sockets = acceptedBy (c, r) := by
  cases c with
  | accept fd =>
    obtain rfl := Option.some.inj h
    simp only [acceptedBy]
    split <;> rfl
  | setListenForCommands val => cases val <;> cases h; rfl
  | _ => first | (cases h; done) | (obtain rfl := Option.some.inj h; rfl)

/-- What the calls of the loop are. -/
theorem serving_step (h : (EndStage.serving sockFd newFd).step c r = some m') :
    (∃ len, c = .recv newFd len ∧
      m' = if reportsEnd len r then .ended sockFd newFd else .serving sockFd newFd) ∨
    (c = .isListeningForCommands ∧
      m' = if r.isSet then .resumed sockFd newFd else .stopped sockFd newFd) ∨
    (c.isExecution = true ∧ m' = .serving sockFd newFd) := by
  cases c with
  | recv fd len =>
    simp only [EndStage.step] at h
    split at h
    · rename_i hfd
      exact .inl ⟨len, by rw [hfd], (Option.some.inj h).symm⟩
    · cases h
  | isListeningForCommands => exact .inr (.inl ⟨rfl, (Option.some.inj h).symm⟩)
  | mark m =>
    cases m <;> first | (cases h; done) | exact .inr (.inr ⟨rfl, (Option.some.inj h).symm⟩)
  | execute e => exact .inr (.inr ⟨rfl, (Option.some.inj h).symm⟩)
  | _ => cases h

theorem ended_step (h : (EndStage.ended sockFd newFd).step c r = some m') :
    c = .isListeningForCommands ∧
      m' = if r.isSet then .resumed sockFd newFd else .stopped sockFd newFd := by
  cases c <;> first | exact ⟨rfl, (Option.some.inj h).symm⟩ | cases h

theorem resumed_step (h : (EndStage.resumed sockFd newFd).step c r = some m') :
    c = .select newFd ∧ m' = .serving sockFd newFd := by
  cases c <;> try cases h
  simp only [EndStage.step] at h
  split at h
  · rename_i hfd
    exact ⟨by rw [hfd], (Option.some.inj h).symm⟩
  · cases h

theorem stopped_step (h : (EndStage.stopped sockFd newFd).step c r = some m') :
    c = .close newFd ∧ m' = .closing sockFd newFd := by
  cases c <;> try cases h
  simp only [EndStage.step] at h
  split at h
  · rename_i hfd
    exact ⟨by rw [hfd], (Option.some.inj h).symm⟩
  · cases h

theorem closing_step (h : (EndStage.closing sockFd newFd).step c r = some m') :
    c = .close sockFd ∧ m' = .closed sockFd newFd := by
  cases c <;> try cases h
  simp only [EndStage.step] at h
  split at h
  · rename_i hfd
    exact ⟨by rw [hfd], (Option.some.inj h).symm⟩
  · cases h

/-- The sockets are those of the first `accept` that succeeded. -/
theorem sockets_step (h : m.step c r = some m') :
    m'.sockets = m.sockets.or (acceptedBy (c, r)) := by
  cases m with
  | opening => exact opening_step h
  | refused => cases h
  | serving sockFd newFd =>
    rcases serving_step h with ⟨len, -, rfl⟩ | ⟨-, rfl⟩ | ⟨-, rfl⟩
    · split <;> rfl
    · split <;> rfl
    · rfl
  | ended sockFd newFd =>
    obtain ⟨-, rfl⟩ := ended_step h
    split <;> rfl
  | resumed sockFd newFd =>
    obtain ⟨-, rfl⟩ := resumed_step h
    rfl
  | stopped sockFd newFd =>
    obtain ⟨-, rfl⟩ := stopped_step h
    rfl
  | closing sockFd newFd =>
    obtain ⟨-, rfl⟩ := closing_step h
    rfl
  | closed sockFd newFd => cases h

theorem sockets_exec {tr : List (Call × Answer)} (h : endSpec.exec m tr = some m') :
    m'.sockets = m.sockets.or (acceptedSockets tr) := by
  induction tr generalizing m with
  | nil =>
    obtain rfl := Option.some.inj h
    exact (Option.or_none).symm
  | cons e tr ih =>
    rw [Spec.exec_cons] at h
    obtain ⟨m₁, hstep, hexec⟩ := Option.bind_eq_some_iff.mp h
    rw [ih hexec, sockets_step hstep, Option.or_assoc]
    congr 1
    rw [acceptedSockets, acceptedSockets, List.findSome?_cons]
    cases acceptedBy (e.1, e.2) <;> rfl

theorem end_step {fd : Int} {len : Nat} (h : m.step (.recv fd len) r = some m')
    (hend : reportsEnd len r) : ∃ sockFd, m' = .ended sockFd fd := by
  cases m with
  | serving sockFd newFd =>
    rcases serving_step h with ⟨len', hc, rfl⟩ | ⟨hc, -⟩ | ⟨hc, -⟩
    · cases hc
      exact ⟨sockFd, if_pos hend⟩
    · cases hc
    · cases hc
  | _ => cases h

theorem read_step (h : m.step .isListeningForCommands r = some m') :
    ∃ sockFd newFd, m' = if r.isSet then .resumed sockFd newFd else .stopped sockFd newFd := by
  cases m with
  | serving sockFd newFd => exact ⟨sockFd, newFd, (Option.some.inj h).symm⟩
  | ended sockFd newFd => exact ⟨sockFd, newFd, (Option.some.inj h).symm⟩
  | _ => cases h

theorem write_step {val : Bool} (h : m.step (.setListenForCommands val) r = some m') :
    m = .opening ∧ m' = .refused := by
  cases m with
  | opening =>
    cases val with
    | true => cases h
    | false => exact ⟨rfl, (Option.some.inj h).symm⟩
  | _ => cases h

/-- How a stage behind a read of false has been reached. -/
def Reached (tr : List (Call × Answer)) : EndStage → Prop
  | .stopped _ _ => ∃ tr' r, tr = tr' ++ [(.isListeningForCommands, r)] ∧ r.isSet = false
  | .closing _ newFd => ∃ tr' r r₁, tr = tr' ++ [(.isListeningForCommands, r), (.close newFd, r₁)] ∧
    r.isSet = false
  | .closed sockFd newFd => ∃ tr' r r₁ r₂,
      tr = tr' ++ [(.isListeningForCommands, r), (.close newFd, r₁),
    (.close sockFd, r₂)] ∧ r.isSet = false
  | _ => True

theorem reached_read {tr : List (Call × Answer)} (sockFd newFd : Int) (r : Answer) :
    Reached (tr ++ [(.isListeningForCommands, r)])
      (if r.isSet then .resumed sockFd newFd else .stopped sockFd newFd) := by
  split
  · trivial
  · rename_i hset
    exact ⟨tr, r, rfl, by simpa using hset⟩

theorem reached_step {tr : List (Call × Answer)} (hm : Reached tr m) (h : m.step c r = some m') :
    Reached (tr ++ [(c, r)]) m' := by
  cases m with
  | opening =>
    cases m' with
    | opening | refused | serving sockFd newFd | ended sockFd newFd
    | resumed sockFd newFd => trivial
    | stopped sockFd newFd | closing sockFd newFd | closed sockFd newFd =>
      cases c with
      | accept fd =>
        have hstage := Option.some.inj h
        split at hstage <;> cases hstage
      | setListenForCommands val => cases val <;> cases h
      | _ => cases h
  | refused => cases h
  | serving sockFd newFd =>
    rcases serving_step h with ⟨len, -, rfl⟩ | ⟨rfl, rfl⟩ | ⟨-, rfl⟩
    · split <;> trivial
    · exact reached_read sockFd newFd r
    · trivial
  | ended sockFd newFd =>
    obtain ⟨rfl, rfl⟩ := ended_step h
    exact reached_read sockFd newFd r
  | resumed sockFd newFd =>
    obtain ⟨-, rfl⟩ := resumed_step h
    trivial
  | stopped sockFd newFd =>
    obtain ⟨rfl, rfl⟩ := stopped_step h
    obtain ⟨tr', r', rfl, hset⟩ := hm
    exact ⟨tr', r', r, by simp, hset⟩
  | closing sockFd newFd =>
    obtain ⟨rfl, rfl⟩ := closing_step h
    obtain ⟨tr', r', r₁, rfl, hset⟩ := hm
    exact ⟨tr', r', r₁, r, by simp, hset⟩
  | closed sockFd newFd => cases h

theorem reached_exec {tr : List (Call × Answer)} (h : endSpec.exec .opening tr = some m) :
    Reached tr m := by
  induction tr using List.reverseRecOn generalizing m with
  | nil =>
    obtain rfl := Option.some.inj h
    trivial
  | append_singleton tr e ih =>
    obtain ⟨m₁, m₂, hexec, hstep, hlast⟩ := Spec.exec_append_cons.mp h
    obtain rfl := Option.some.inj hlast
    exact reached_step (ih hexec) hstep

/-- Nothing is called behind a read of false but what closes both sockets. -/
theorem exec_stopped {tr : List (Call × Answer)}
    (h : endSpec.exec (.stopped sockFd newFd) tr = some m') :
    (tr.map Prod.fst = [] ∧ m' = .stopped sockFd newFd) ∨
    (tr.map Prod.fst = [.close newFd] ∧ m' = .closing sockFd newFd) ∨
    (tr.map Prod.fst = [.close newFd, .close sockFd] ∧ m' = .closed sockFd newFd) := by
  rcases tr with _ | ⟨e₁, _ | ⟨e₂, _ | ⟨e₃, tr⟩⟩⟩
  · exact .inl ⟨rfl, (Option.some.inj h).symm⟩
  all_goals
    obtain ⟨m₁, hstep₁, h⟩ := Option.bind_eq_some_iff.mp h
    obtain ⟨hc₁, rfl⟩ := stopped_step hstep₁
  · exact .inr (.inl ⟨congrArg (fun c => [c]) hc₁, (Option.some.inj h).symm⟩)
  all_goals
    obtain ⟨m₂, hstep₂, h⟩ := Option.bind_eq_some_iff.mp h
    obtain ⟨hc₂, rfl⟩ := closing_step hstep₂
  · refine .inr (.inr ⟨?_, (Option.some.inj h).symm⟩)
    rw [List.map_cons, List.map_cons, List.map_nil, hc₁, hc₂]
  · obtain ⟨m₃, hstep₃, -⟩ := Option.bind_eq_some_iff.mp h
    cases hstep₃

/-- The stage a run has reached. -/
theorem exists_stage (rs : List Answer) :
    ∃ m, endSpec.exec .opening (listenForCommands.trace rs) = some m ∧
      Keeps endSpec m (listenForCommands.after rs) fun _ m => m.Final :=
  keeps_listenForCommands.exec rs (admits_of_true (fun _ _ _ => trivial) _ _)

/-- Behind the loop, and where the flag is to be read, there is one call to make. -/
theorem pending_of_step (h : Keeps endSpec m p fun _ m => m.Final) (hfinal : ¬ m.Final)
    (hserving : ∀ sockFd newFd, m ≠ .serving sockFd newFd)
    (hstep : ∀ c' m', m.step c' default = some m' → c' = c) : p.pending = some c := by
  refine h.pending_of_forced (fun _ => hfinal) ?_ (fun _ => trivial) hstep
  rintro ⟨sockFd, newFd, hm⟩
  exact hserving sockFd newFd hm

theorem pending_ended (h : Keeps endSpec (.ended sockFd newFd) p fun _ m => m.Final) :
    p.pending = some .isListeningForCommands :=
  pending_of_step h (by simp [EndStage.Final]) (by simp) fun _ _ hstep => (ended_step hstep).1

theorem pending_resumed (h : Keeps endSpec (.resumed sockFd newFd) p fun _ m => m.Final) :
    p.pending = some (.select newFd) :=
  pending_of_step h (by simp [EndStage.Final]) (by simp) fun _ _ hstep => (resumed_step hstep).1

theorem pending_stopped (h : Keeps endSpec (.stopped sockFd newFd) p fun _ m => m.Final) :
    p.pending = some (.close newFd) :=
  pending_of_step h (by simp [EndStage.Final]) (by simp) fun _ _ hstep => (stopped_step hstep).1

theorem pending_closing (h : Keeps endSpec (.closing sockFd newFd) p fun _ m => m.Final) :
    p.pending = some (.close sockFd) :=
  pending_of_step h (by simp [EndStage.Final]) (by simp) fun _ _ hstep => (closing_step hstep).1

theorem returned_of_closed (h : Keeps endSpec (.closed sockFd newFd) p fun _ m => m.Final) :
    p = .ret () := by
  cases hp : p.pending with
  | none =>
    rcases pending_eq_none hp with ⟨a, rfl⟩ | rfl
    · rfl
    · obtain ⟨_, _, hserving⟩ := h.faults
      cases hserving
  | some c =>
    obtain ⟨m, hstep, -⟩ := h.resume hp (r := default) trivial
    cases hstep

/-- Once a connection is accepted the flag has not been written, and will not be. -/
theorem unwritten_of_sockets {rs : List Answer}
    (hexec : endSpec.exec .opening (listenForCommands.trace rs) = some m)
    (hk : Keeps endSpec m (listenForCommands.after rs) fun _ m => m.Final)
    (hsockets : m.sockets = some (sockFd, newFd)) (val : Bool) :
    .setListenForCommands val ∉ listenForCommands.issued rs := by
  intro hval
  rcases List.mem_append.mp hval with htrace | hpend
  · obtain ⟨⟨c, r⟩, hmem, rfl⟩ := List.mem_map.mp htrace
    obtain ⟨before, rest, hsplit⟩ := List.append_of_mem hmem
    rw [hsplit] at hexec
    obtain ⟨m₁, m₂, -, hstep, hrest⟩ := Spec.exec_append_cons.mp hexec
    obtain ⟨-, rfl⟩ := write_step hstep
    -- nothing is called behind the failure
    cases rest with
    | nil =>
      obtain rfl := Option.some.inj hrest
      cases hsockets
    | cons e rest =>
      obtain ⟨m₃, hstep', -⟩ := Option.bind_eq_some_iff.mp hrest
      cases hstep'
  · obtain ⟨m', hstep, -⟩ := hk.resume (Option.mem_toList.mp hpend) (r := default) trivial
    obtain ⟨rfl, -⟩ := write_step hstep
    cases hsockets

theorem flagGoverns {rs : List Answer}
    (haccept : acceptedSockets (listenForCommands.trace rs) = some (sockFd, newFd)) :
    FlagGoverns sockFd newFd rs := by
  obtain ⟨m, hexec, hk⟩ := exists_stage rs
  have hsockets : m.sockets = some (sockFd, newFd) := (sockets_exec hexec).trans haccept
  refine ⟨fun tr len r htr hend => ?_, fun tr r htr hset => ?_, fun tr r rest htr hset => ?_,
    fun hret => ?_, unwritten_of_sockets hexec hk hsockets⟩
  · rw [htr] at hexec
    obtain ⟨m₁, m₂, -, hstep, hlast⟩ := Spec.exec_append_cons.mp hexec
    obtain rfl := Option.some.inj hlast
    obtain ⟨s, rfl⟩ := end_step hstep hend
    exact pending_ended hk
  · rw [htr] at hexec
    obtain ⟨m₁, m₂, -, hstep, hlast⟩ := Spec.exec_append_cons.mp hexec
    obtain rfl := Option.some.inj hlast
    obtain ⟨s, n, rfl⟩ := read_step hstep
    rw [if_pos hset] at hk hsockets
    cases hsockets
    exact pending_resumed hk
  · rw [htr] at hexec
    obtain ⟨m₁, m₂, -, hstep, hlast⟩ := Spec.exec_append_cons.mp hexec
    obtain ⟨s, n, rfl⟩ := read_step hstep
    rw [if_neg (by simp [hset])] at hlast
    rcases exec_stopped hlast with ⟨hrest, rfl⟩ | ⟨hrest, rfl⟩ | ⟨hrest, rfl⟩ <;> cases hsockets
    · have hlen : rest.length = 0 := by simpa using congrArg List.length hrest
      rw [hrest, pending_stopped hk, hlen]
      exact ⟨rfl, nofun⟩
    · have hlen : rest.length = 1 := by simpa using congrArg List.length hrest
      rw [hrest, pending_closing hk, hlen]
      exact ⟨rfl, nofun⟩
    · have hlen : rest.length = 2 := by simpa using congrArg List.length hrest
      rw [hrest, returned_of_closed hk, hlen]
      exact ⟨rfl, fun _ => rfl⟩
  · rw [hret] at hk
    rcases hk.result with rfl | ⟨s, n, rfl⟩
    · cases hsockets
    · cases hsockets
      exact reached_exec hexec

/-! ## 4. Sessions -/

/-- A thread that does not write the flag unless a `bad` answer makes it. -/
def quietSpec (bad : Call → Answer → Bool) : Spec Call Answer Unit where
  admits _ c r := bad c r = false
  step _ c _ :=
    match c with
    | .setListenForCommands _ => none
    | _ => some ()
  faults _ := True

theorem keeps_openSocket_quiet (port : Bytes) (udp : Bool) :
    Keeps (quietSpec opensNot) () (openSocket port udp) fun sockFd _ => 0 ≤ sockFd := by
  refine keeps_call fun r hr => ⟨(), rfl, ?_⟩
  have hfilled : r.ret = 0 := by simpa [quietSpec, opensNot, setupFailed, acceptFailed] using hr
  simp only [ret_bind, hfilled, decide_true, if_true]
  refine keeps_call fun r hr => ⟨(), rfl, keeps_ret ?_⟩
  simpa [quietSpec, opensNot, setupFailed, acceptFailed] using hr

theorem keeps_tcpInitSocket_quiet (port : Bytes) :
    Keeps (quietSpec opensNot) () (tcpInitSocket port) fun sockFd _ => 0 ≤ sockFd := by
  refine keeps_bind ((keeps_openSocket_quiet port false).mono fun sockFd _ hfd => ?_)
  rw [if_neg (Int.not_lt.mpr hfd)]
  refine keeps_call fun r hr => ⟨(), rfl, ?_⟩
  have hbound : ¬ r.ret < 0 := by simpa [quietSpec, opensNot, setupFailed, acceptFailed] using hr
  simp only [ret_bind]
  rw [if_neg hbound]
  refine keeps_call fun r hr => ⟨(), rfl, ?_⟩
  have hlistening : ¬ r.ret < 0 := by
    simpa [quietSpec, opensNot, setupFailed, acceptFailed] using hr
  simp only [ret_bind]
  rw [if_neg hlistening]
  exact keeps_call fun _ _ => ⟨(), rfl, keeps_ret hfd⟩

theorem keeps_listenForCommands_quiet :
    Keeps (quietSpec opensNot) () listenForCommands fun _ _ => True := by
  have hne : ∀ {fd : Int}, 0 ≤ fd → fd ≠ nlosSocketErr := by
    rintro fd hfd rfl
    exact absurd hfd (by decide)
  refine keeps_bind
    (keeps_bind ((keeps_tcpInitSocket_quiet commandPort).mono fun sockFd _ hfd => ?_))
  rw [if_neg (hne hfd)]
  refine keeps_call fun r hr => ⟨(), rfl, ?_⟩
  have haccepted : ¬ r.ret < 0 := by simpa [quietSpec, opensNot, setupFailed, acceptFailed] using hr
  simp only [ret_bind]
  rw [if_neg haccepted]
  refine keeps_ret ?_
  rw [if_neg (hne (Int.not_lt.mp haccepted))]
  have hloop := CommandHandlerLemmas.only_commandLoop (P := Call.isCommandRound) fun _ hc => hc
  simp only [bind_eq, ask_bind, perform_bind]
  refine keeps_call fun flag _ => ⟨(), rfl,
    keeps_bind (((hloop r.ret flag.isSet).keeps (fun c r hc => ?_)
    fun _ => trivial).mono fun _ _ _ => ?_)⟩
  · cases c <;> first | rfl | exact Bool.noConfusion hc
  · exact keeps_call fun _ _ => ⟨(), rfl, keeps_call fun _ _ => ⟨(), rfl, keeps_ret trivial⟩⟩

theorem keeps_stopRound_quiet : Keeps (quietSpec disconnects) () stopRound fun _ _ => True := by
  refine keeps_call fun listening _ => ⟨(), rfl, ?_⟩
  split
  · exact keeps_ret trivial
  · exact keeps_call fun _ _ => ⟨(), rfl, keeps_ret trivial⟩

theorem keeps_connectedLoop_quiet :
    Keeps (quietSpec disconnects) () connectedLoop fun _ _ => True := by
  refine keeps_loop (fun _ => True) trivial fun _ _ pending _ => ⟨(), rfl, ?_⟩
  have hend : ∀ (o : Option Unit) (u : Unit), True →
      RoundPost (quietSpec disconnects) (fun _ => True)
      (.ret : Unit → Drv Unit) (fun _ _ => True) o u := by
    rintro (_ | _) _ -
    · trivial
    · exact keeps_ret trivial
  refine keeps_poll (fun _ => keeps_stopRound_quiet.mono hend) fun _ r hr => ⟨(), rfl, ?_⟩
  cases hd : delivered r with
  | none => exact keeps_stopRound_quiet.mono hend
  | some m =>
    have hother : isType m deviceDisconnected = false := by
      simpa [quietSpec, disconnects, hd] using hr
    simp only [bind_eq]
    rw [testType_eq m (by decide), ret_bind, hother]
    exact keeps_stopRound_quiet.mono hend

/-- The session threads do not write the flag. -/
theorem quiet_run {t : Thread} {bad : Call → Answer → Bool} {C C' : State} {ls : List Move}
    (hkeeps : Keeps (quietSpec bad) () (threadBody t) fun _ _ => True) (hnone : C.threads t = none)
    (hrun : process.run C ls = some C') (hbad : ∀ c r, .call t c r ∈ ls → bad c r = false) :
    ∀ c r, .call t c r ∈ ls → ∀ val, c ≠ .setListenForCommands val := by
  rintro c r hmem val rfl
  have hwatched := System.watched_run (Q := fun _ => True)
    DriverLemmas.only_signalCallbackHandler hkeeps
    (fun s hs => absurd (hs.symm.trans hnone) (Option.some_ne_none s)) hrun
    fun c r hc _ => hbad c r hc
  rcases hwatched.2 _ r hmem with hdisposal | ⟨_, _, hstep⟩
  · cases hdisposal
  · cases hstep

/-- A session thread writes the flag. -/
def writesFlag : Move → Bool
  | .call .main _ _ => false
  | .call _ (.setListenForCommands _) _ => true
  | _ => false

variable {a a' : SessionState}

/-- While the flag is not written, a session goes on. -/
theorem goesOn_moves {l : Move} (h : a.Moves l a') (hc : Coherent a) (hin : a.main ≠ .outside)
    (hflag : a.flag = true) (hl : writesFlag l = false) :
    (a'.main ≠ .outside ∧ a'.flag = true) ∧ joinsThread l = false := by
  cases h with
  | interrupt => exact ⟨⟨hin, hflag⟩, rfl⟩
  | @handler t c r hdisposal =>
    refine ⟨⟨hin, hflag⟩, ?_⟩
    cases c <;> first | exact Bool.noConfusion hdisposal | (cases t <;> rfl)
  | main hm hlistener hwatcher =>
    -- a thread can be joined only once the flag is false
    have hne : a.flag ≠ false := by simp [hflag]
    rcases main_step_cases hm with ⟨hmain, -, -⟩ | ⟨hmain, -, -⟩ | ⟨-, rfl, rfl⟩ | ⟨-, rfl, rfl⟩ |
      ⟨hmain, rfl, -⟩ | ⟨hmain, -, -⟩
    · exact absurd hmain hin
    · exact absurd hmain hin
    · exact ⟨⟨by simp, hflag⟩, rfl⟩
    · exact ⟨⟨by simp, hflag⟩, rfl⟩
    · exact absurd ((hc.watched hmain).1 (hlistener rfl)) hne
    · exact absurd (hc.joining hmain).2 hne
  | @listener c r _ _ _ _ hstep _ _ =>
    refine ⟨⟨hin, ?_⟩, rfl⟩
    rcases listener_step_cases hstep with ⟨-, rfl, -⟩ | ⟨-, rfl, -⟩ | ⟨-, rfl, -⟩ | ⟨hother, -, -⟩
    · exact Bool.noConfusion hl
    · exact hflag
    · exact hflag
    · exact (flagAfter_of_not_session hother _).trans hflag
  | @watcher c r _ _ _ _ hstep _ _ =>
    refine ⟨⟨hin, ?_⟩, rfl⟩
    rcases watcher_step_cases hstep with ⟨-, rfl, -⟩ | ⟨-, rfl, -⟩ | ⟨-, rfl, -⟩ | ⟨-, rfl, -⟩ |
      ⟨-, hother, -⟩
    · exact hflag
    · exact hflag
    · exact hflag
    · exact Bool.noConfusion hl
    · exact (flagAfter_of_not_session hother _).trans hflag

theorem goesOn_reaches {ls : List Move} (h : a.Reaches ls a') (hc : Coherent a)
    (hin : a.main ≠ .outside) (hflag : a.flag = true) (hls : ∀ l ∈ ls, writesFlag l = false) :
    (a'.main ≠ .outside ∧ a'.flag = true) ∧ ∀ l ∈ ls, joinsThread l = false := by
  induction h with
  | nil => exact ⟨⟨hin, hflag⟩, fun l hl => absurd hl List.not_mem_nil⟩
  | @snoc ls l b b' hreach hl ih =>
    obtain ⟨⟨hin', hflag'⟩, hjoins⟩ := ih fun l' hl' => hls l' (List.mem_append_left _ hl')
    obtain ⟨hend, hjoin⟩ := goesOn_moves hl (coherent_reaches hc hreach) hin' hflag'
      (hls l (List.mem_append_right _ List.mem_cons_self))
    refine ⟨hend, fun l' hl' => ?_⟩
    rcases List.mem_append.mp hl' with hl' | hl'
    · exact hjoins l' hl'
    · rw [List.mem_singleton.mp hl']
      exact hjoin

theorem started_moves {l : Move} (h : a.Moves l a') (hin : a.main ≠ .outside)
    (hl : endsSession l = false)
    (ha : startsHandler l = true ∨ a.main ≠ .armed) : a'.main ≠ .armed := by
  cases h with
  | interrupt => exact ha.resolve_left Bool.false_ne_true
  | @handler t c r hdisposal =>
    refine ha.resolve_left fun hstarts => ?_
    cases c <;>
      first | exact Bool.noConfusion hdisposal | (cases t <;> exact Bool.noConfusion hstarts)
  | main hm _ _ =>
    rcases main_step_cases hm with ⟨hmain, -, -⟩ | ⟨hmain, -, -⟩ | ⟨-, -, rfl⟩ | ⟨-, -, rfl⟩ |
      ⟨-, -, rfl⟩ | ⟨-, rfl, -⟩
    · exact absurd hmain hin
    · exact absurd hmain hin
    · simp
    · simp
    · simp
    · cases hl
  | listener _ _ _ _ => exact ha.resolve_left Bool.false_ne_true
  | watcher _ _ _ _ => exact ha.resolve_left Bool.false_ne_true

theorem started_reaches {ls : List Move} (h : a.Reaches ls a') (hin : a.main ≠ .outside)
    (hls : ∀ l ∈ ls, endsSession l = false) (hstarts : ∃ l ∈ ls, startsHandler l = true) :
    a'.main ≠ .armed := by
  induction h with
  | nil =>
    obtain ⟨l, hl, -⟩ := hstarts
    exact absurd hl List.not_mem_nil
  | @snoc ls l b b' hreach hl ih =>
    have hls' : ∀ l' ∈ ls, endsSession l' = false :=
      fun l' hl' => hls l' (List.mem_append_left _ hl')
    refine started_moves hl (inside_reaches hreach hin hls').1
      (hls l (List.mem_append_right _ List.mem_cons_self)) ?_
    obtain ⟨l', hl', hstart⟩ := hstarts
    rcases List.mem_append.mp hl' with hl' | hl'
    · exact .inr (ih hls' ⟨l', hl', hstart⟩)
    · exact .inl (List.mem_singleton.mp hl' ▸ hstart)

/-- When `listen_for_commands` has returned, it has read the flag false or has cleared it. -/
theorem flag_of_returned {ip : IpExchange} {before d : List Move} {l : Move} {C : State}
    (hl : startsSession l = true) (hrun : process.run (initial ip) (before ++ l :: d) = some C)
    (hls : ∀ l' ∈ d, endsSession l' = false) (hstarts : ∃ l' ∈ d, startsHandler l' = true)
    (hnone : C.threads .commandHandler = none) : C.store.runCommandLoop = false := by
  obtain ⟨C₀, hC₀, hrest⟩ := System.run_append_eq_some.mp hrun
  obtain ⟨C₁, hC₁, hd⟩ := System.run_cons_eq_some.mp hrest
  obtain ⟨a₀, -, hcoherent, htracks⟩ := session_run hC₀
  obtain ⟨a₁, hmoves, htracks₁⟩ := moves_step htracks hC₁
  obtain ⟨-, hin, -⟩ := starts_moves hmoves hcoherent hl
  obtain ⟨a₂, hreaches, htracks₂⟩ := moves_run htracks₁ hd
  have hcoherent₂ := coherent_reaches (coherent_moves hcoherent hmoves) hreaches
  have hlistener : a₂.listener = none := inPhase_none (hnone ▸ htracks₂.listener)
  rw [htracks₂.flag]
  cases hmain : a₂.main with
  | outside => exact absurd hmain (inside_reaches hreaches hin hls).1
  | armed => exact absurd hmain (started_reaches hreaches hin hls hstarts)
  | handling => exact (hcoherent₂.handling hmain).2 hlistener
  | watched => exact (hcoherent₂.watched hmain).1 hlistener
  | joining => exact (hcoherent₂.joining hmain).2

theorem session_outlives {ip : IpExchange} {before d : List Move} {l : Move} {C : State}
    (hl : startsSession l = true) (hrun : process.run (initial ip) (before ++ l :: d) = some C)
    (hopen : ∀ c r, .call .commandHandler c r ∈ d → opensNot c r = false)
    (hcalm : ∀ c r, .call .connectionListener c r ∈ d → disconnects c r = false) :
    C.store.runCommandLoop = true ∧ ∀ l' ∈ d, joinsThread l' = false := by
  obtain ⟨C₀, hC₀, hrest⟩ := System.run_append_eq_some.mp hrun
  obtain ⟨C₁, hC₁, hd⟩ := System.run_cons_eq_some.mp hrest
  obtain ⟨a₀, -, hcoherent, htracks⟩ := session_run hC₀
  obtain ⟨a₁, hmoves, htracks₁⟩ := moves_step htracks hC₁
  obtain ⟨⟨hlistener, hwatcher⟩, hin, -⟩ := starts_moves hmoves hcoherent hl
  obtain ⟨hhandler, hconnection⟩ := threads_none htracks hlistener hwatcher
  -- the flag is set, and no session thread runs yet
  obtain ⟨r, rfl⟩ : ∃ r, l = .call .main (.setListenForCommands true) r := by
    unfold startsSession at hl
    split at hl
    · exact ⟨_, rfl⟩
    · cases hl
  obtain ⟨s, hs, -, -, -, hC⟩ := System.step_call hC₁
  have hset : C₁.store.runCommandLoop = true := by
    rw [hC]
    rfl
  have hnone : ∀ t ≠ Thread.main, C₁.threads t = C₀.threads t := by
    intro t ht
    rw [hC]
    dsimp only
    rw [System.threadsAfter_of_ne ht]
    rfl
  have hquiet : ∀ l' ∈ d, writesFlag l' = false := by
    intro l' hl'
    cases l' with
    | call t c r' =>
      cases t with
      | main => rfl
      | commandHandler =>
        have hne := quiet_run keeps_listenForCommands_quiet
          ((hnone _ (by decide)).trans hhandler) hd hopen c r' hl'
        cases c <;> first | rfl | exact absurd rfl (hne _)
      | connectionListener =>
        have hne := quiet_run keeps_connectedLoop_quiet ((hnone _ (by decide)).trans hconnection) hd
          hcalm c r' hl'
        cases c <;> first | rfl | exact absurd rfl (hne _)
    | interrupt t x => cases t <;> rfl
    | outside e => exact e.elim
  obtain ⟨a₂, hreaches, htracks₂⟩ := moves_run htracks₁ hd
  obtain ⟨⟨-, hflag⟩, hjoins⟩ := goesOn_reaches hreaches (coherent_moves hcoherent hmoves) hin
    (htracks₁.flag.symm.trans hset) hquiet
  exact ⟨htracks₂.flag.trans hflag, hjoins⟩

end CommandEndLemmas

open CommandEndLemmas

/-- The end of the command connection ends neither the listener nor the session. -/
theorem connectionEnd_ignored (ip : IpExchange) : EndIgnored ip where
  governed _ _ _ haccept := flagGoverns haccept
  left _ _ _ _ hl hrun hls hstarts hnone := flag_of_returned hl hrun hls hstarts hnone
  outlives _ _ _ _ hl hrun hopen hcalm := session_outlives hl hrun hopen hcalm

/-- What a call says about `run_command_loop`. -/
def flagAccess : Call × Answer → Option Bool
  | (.isListeningForCommands, r) => some r.isSet
  | (.setListenForCommands val, _) => some val
  | _ => none

/-- The connection has ended at call `i`, and the listener with it: it receives no more
on the socket, and it returns with both sockets closed and the flag false. -/
def EndsWithConnection (sockFd newFd : Int) (rs : List Answer) (i : Nat) : Prop :=
  (∀ j > i, ∀ len, (listenForCommands.issued rs)[j]? ≠ some (.recv newFd len)) ∧
  (listenForCommands.after rs = .ret () →
    .close newFd ∈ listenForCommands.issued rs ∧ .close sockFd ∈ listenForCommands.issued rs ∧
    ((listenForCommands.trace rs).filterMap flagAccess).getLast? = some false)

/-- The client closes the connection while the flag is true. -/
def closedByClient : List Answer :=
  [{}, { ret := 3 }, {}, {}, {}, { ret := 4 }, { isSet := true }, { isSet := true }, {},
    { isSet := true }, { isSet := true }]

/-- The socket is still readable, and is received from again. -/
theorem received_after_end : ¬ ∀ rs sockFd newFd,
    acceptedSockets (listenForCommands.trace rs) = some (sockFd, newFd) →
    ∀ i len r, (listenForCommands.trace rs)[i]? = some (.recv newFd len, r) → reportsEnd len r →
      EndsWithConnection sockFd newFd rs i := by
  intro h
  have hends := h closedByClient 3 4 (by decide +kernel) 8 commandMaxRecv {} (by decide +kernel)
    (by decide)
  exact hends.1 11 (by decide) commandMaxRecv (by decide +kernel)

end P2pDriver
