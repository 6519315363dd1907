import HashedBroker.Scripts

/-!
# What reaches a session before its reply

A connecting session enters the registry before its `registered` reply is enqueued. Whoever looks it
up in between can write to its channel first. Every message that is not an answer to the session's
own frames goes to a channel that the registry gave out, so it is enough to look at the look-ups.
-/
namespace HashedBroker.RegistrationOrder
open AtomicPrograms ReactiveTasks Protocol Server Sessions

/-- The messages that may come without the session having asked for them. -/
def isPush : ServerMessage → Bool
  | .signal .. => true
  | .relayOffer .. => true
  | .relayData .. => true
  | .relaySessionEstablished .. => true
  | .presenceUpdate .. => true
  | _ => false

def isRegistered : ServerMessage → Bool
  | .registered .. => true
  | _ => false

def PushesNothingTo (c : ℕ) (o : Op) : Prop := ∀ msg, o = .send c msg → isPush msg = false

def PushesNothing (o : Op) : Prop := ∀ c, PushesNothingTo c o

/-- A push goes to a peer that the registry has given, or to the session's own channel while it
handles a message. -/
def Addressed (t : ℕ) (c : Phase) (hist : Prog.History Op Res) (o : Op) : Prop :=
  ∀ ch msg, o = .send ch msg → isPush msg = true →
    (ch = t ∧ ∃ pk text now, c = .handling pk text now) ∨
    ∃ pk peer, peer.tx = ch ∧
      (⟨.registry (.getPeer pk), some peer⟩ : Σ o : Op, Res o) ∈ hist

section Programs

variable {crates : Crates} {hasDb : Bool} {t : ℕ} {c : Phase} {hist : Prog.History Op Res}
  {α β : Type}

theorem addressed_of_nothing {o : Op} (ho : PushesNothing o) : Addressed t c hist o := by
  intro ch msg heq hpush
  rw [ho ch msg heq] at hpush
  cases hpush

theorem addressed_skip {p : Work α} {f : α → Work β} (hp : p.Always PushesNothing)
    (hf : ∀ hist a, (f a).Justified (Addressed t c) hist) :
    (p >>= f).Justified (Addressed t c) hist :=
  hp.justified_bind (fun _ _ => addressed_of_nothing) hf

theorem addressed_quiet {p : Work α} (hp : p.Always PushesNothing) :
    p.Justified (Addressed t c) hist := hp.justified fun _ _ => addressed_of_nothing

theorem pushesNothing_send {ch : ℕ} {msg : ServerMessage} (h : isPush msg = false) :
    PushesNothing (.send ch msg) := by
  intro ch' msg' heq
  cases heq
  exact h

theorem addressed_found {pk : String} {peer : Registry.PeerHandle} {msg : ServerMessage}
    (h : (⟨.registry (.getPeer pk), some peer⟩ : Σ o : Op, Res o) ∈ hist) :
    Addressed t c hist (.send peer.tx msg) := by
  intro ch msg' heq _
  cases heq
  exact Or.inr ⟨pk, peer, rfl, h⟩

theorem pushesNothing_registry (a : Registry.Access) : PushesNothing (.registry a) := nofun

theorem pushesNothing_presence (a : Presence.Access) : PushesNothing (.presence a) := nofun

theorem pushesNothing_relay (a : Relay.Access) : PushesNothing (.relay a) := nofun

theorem pushesNothing_signaling (a : Signaling.Access) : PushesNothing (.signaling a) := nofun

theorem pushesNothing_query (s : Database.Statement) : PushesNothing (.query s) := nofun

theorem pushesNothing_metric (u : MetricUpdate) : PushesNothing (.metric u) := nofun

theorem broadcast_addressed (pk : String) (online : Bool) (hist : Prog.History Op Res) :
    (broadcast pk online).Justified (Addressed t c) hist := by
  have heach : ∀ ws hist, (broadcastEach (.presenceUpdate pk online) ws).Justified
      (Addressed t c) hist := by
    intro ws
    induction ws with
    | nil => intro hist; trivial
    | cons w ws ih =>
      intro hist
      refine ⟨addressed_of_nothing (pushesNothing_registry _), fun found => ?_⟩
      cases found with
      | none => exact ih _
      | some peer => exact ⟨addressed_found List.mem_cons_self, fun _ => ih _⟩
  refine ⟨addressed_of_nothing (pushesNothing_presence _), fun watchers => ?_⟩
  cases watchers with
  | none => trivial
  | some ws => exact heach ws _

theorem cleanup_addressed (pk : String) : (cleanup pk).Justified (Addressed t c) [] := by
  refine addressed_skip (Prog.always_lift_of pushesNothing_registry _) fun _ _ => ?_
  refine addressed_skip (always_metric (pushesNothing_metric _)) fun _ _ => ?_
  refine addressed_skip (Prog.always_lift_of pushesNothing_presence _) fun _ _ => ?_
  refine addressed_skip (Prog.always_lift_of pushesNothing_relay _) fun _ _ => ?_
  exact (broadcast_addressed pk false _).bind fun _ _ => trivial

theorem recordPeer_quiet (pk : String) (handle : Option String) (kind : IdentityKind)
    (requestId : Option String) :
    (recordPeer crates hasDb t pk handle kind requestId).Always PushesNothing :=
  recordPeer_always crates hasDb t pk handle kind requestId (pushesNothing_query _)
    (fun _ => Prog.always_lift_of pushesNothing_query _) (fun _ => pushesNothing_metric _)
    fun _ _ => pushesNothing_send rfl

theorem enter_addressed (addr : Registry.SocketAddr) (pk : String) (handle : Option String)
    (addresses : PeerAddresses) (kind : Option IdentityKind) (requestId : Option String) :
    (enter crates hasDb t addr pk handle addresses kind requestId).Justified (Addressed t c) [] := by
  refine addressed_skip (recordPeer_quiet pk handle _ requestId) fun _ claimed => ?_
  refine addressed_skip (Prog.always_lift_of pushesNothing_registry _) fun _ _ => ?_
  refine addressed_skip (always_metric (pushesNothing_metric _)) fun _ _ => ?_
  refine addressed_skip (always_metric (pushesNothing_metric _)) fun _ _ => ?_
  refine addressed_skip (always_send (pushesNothing_send rfl)) fun _ _ => ?_
  exact (broadcast_addressed pk true _).bind fun _ _ => trivial

theorem addressed_own {pk text : String} {now : UnixTime} {msg : ServerMessage} :
    Addressed t (.handling pk text now) hist (.send t msg) := by
  intro ch msg' heq _
  cases heq
  exact Or.inl ⟨rfl, pk, text, now, rfl⟩

theorem addressed_except {x : Handler α} {f : α → Handler β}
    (hx : x.run.Justified (Addressed t c) hist)
    (hf : ∀ hist a, (f a).run.Justified (Addressed t c) hist) :
    (x >>= f).run.Justified (Addressed t c) hist := by
  rw [ExceptT.run_bind]
  refine hx.bind fun hist a => ?_
  cases a with
  | error e => trivial
  | ok a => exact hf hist a

theorem addressed_require {x : Except BrokerError α} {f : α → Handler β}
    (hf : ∀ a, x = .ok a → (f a).run.Justified (Addressed t c) hist) :
    (require x >>= f).run.Justified (Addressed t c) hist := by
  rw [run_require_bind]
  cases x with
  | error e => trivial
  | ok a => exact hf a rfl

theorem addressed_get {pk : String} {f : Registry.PeerHandle → Handler β}
    (hf : ∀ peer, (f peer).run.Justified (Addressed t c)
      (⟨.registry (.getPeer pk), some peer⟩ :: hist)) :
    (do
      let peer ← ExceptT.lift (registry (Registry.get pk))
      let recipient ← orElse peer .peerOffline
      f recipient : Handler β).run.Justified (Addressed t c) hist := by
  rw [run_lift_bind]
  refine ⟨addressed_of_nothing (pushesNothing_registry _), fun peer => ?_⟩
  cases peer with
  | none => trivial
  | some peer => exact hf peer

theorem addressed_trySend {pk : String} {peer : Registry.PeerHandle} {msg : ServerMessage}
    {f : Unit → Handler β}
    (h : (⟨.registry (.getPeer pk), some peer⟩ : Σ o : Op, Res o) ∈ hist)
    (hf : (f ()).run.Justified (Addressed t c) (⟨.send peer.tx msg, true⟩ :: hist)) :
    (trySend peer.tx msg >>= f).run.Justified (Addressed t c) hist := by
  rw [trySend, run_attempt_bind]
  refine ⟨addressed_found h, fun sent => ?_⟩
  cases sent with
  | false => trivial
  | true => exact hf

theorem request_addressed (initiator responder : String) :
    (request crates initiator responder).run.Justified (Addressed t c) hist := by
  refine addressed_get fun peer => ?_
  rw [run_lift_bind]
  refine ⟨addressed_of_nothing (pushesNothing_relay _), fun id => ?_⟩
  exact addressed_trySend (List.mem_cons_of_mem _ List.mem_cons_self) trivial

theorem accept_addressed (responder : String) (id : Uuid) :
    (accept crates responder id).run.Justified (Addressed t c) hist := by
  rw [accept, run_attempt_bind]
  refine ⟨addressed_of_nothing (pushesNothing_relay _), fun promoted => ?_⟩
  cases promoted with
  | error e => trivial
  | ok initiator =>
    refine addressed_get fun initPeer => ?_
    refine addressed_get fun respPeer => ?_
    refine addressed_trySend (List.mem_cons_of_mem _ List.mem_cons_self) ?_
    exact ⟨addressed_found (List.mem_cons_of_mem _ List.mem_cons_self), fun _ => trivial⟩

theorem forward_addressed (pk : String) (id : Uuid) (data : String) :
    (forward crates pk id data).run.Justified (Addressed t c) hist := by
  rw [forward, run_lift_bind]
  refine ⟨addressed_of_nothing (pushesNothing_relay _), fun entry => ?_⟩
  refine addressed_require fun session _ => ?_
  refine addressed_require fun other _ => ?_
  refine addressed_require fun len _ => ?_
  refine addressed_require fun _ _ => ?_
  rw [run_attempt_bind]
  refine addressed_skip (Prog.always_lift_of pushesNothing_relay _) fun hist consumed => ?_
  cases consumed with
  | error e => trivial
  | ok _ => exact addressed_get fun peer => addressed_trySend List.mem_cons_self trivial

theorem relaySignal_addressed (pk recipient payload : String) :
    (relaySignal crates pk recipient payload).run.Justified (Addressed t c) hist := by
  rw [relaySignal, run_attempt_bind]
  refine addressed_skip (Prog.always_lift_of pushesNothing_signaling _) fun hist checked => ?_
  cases checked with
  | error e => trivial
  | ok _ =>
    refine addressed_require fun len _ => ?_
    refine addressed_require fun _ _ => ?_
    refine addressed_get fun peer => ?_
    rw [run_lift_bind]
    refine ⟨addressed_of_nothing nofun, fun timestamp => ?_⟩
    exact ⟨addressed_found (List.mem_cons_of_mem _ List.mem_cons_self), fun _ => trivial⟩

theorem onSubscribePresence_addressed {pk text : String} {now : UnixTime} (pk' : String)
    (peers : List String) (requestId : Option String) :
    (onSubscribePresence t pk' peers requestId).Justified
      (Addressed t (.handling pk text now)) hist := by
  have hupdates : ∀ online hist, (sendUpdates t online).Justified
      (Addressed t (.handling pk text now)) hist := by
    intro online
    induction online with
    | nil => intro hist; trivial
    | cons x rest ih => exact fun hist => ⟨addressed_own, fun _ => ih _⟩
  refine addressed_skip (Prog.always_lift_of pushesNothing_presence _) fun _ _ => ?_
  refine addressed_skip (always_metric (pushesNothing_metric _)) fun _ _ => ?_
  refine addressed_skip (Prog.always_lift_of pushesNothing_registry _) fun _ online => ?_
  refine addressed_skip (always_send (pushesNothing_send rfl)) fun _ _ => ?_
  exact hupdates online _

theorem pushesNothing_of_tag {pk : String} {msg : ClientMessage} {o : Op}
    (hop : HandlerOp pk msg o)
    (htag : msg.tag ∉ ["signal", "request_relay", "accept_relay", "relay", "subscribe_presence"]) :
    PushesNothing o := by
  rintro ch m rfl
  simp only [List.mem_cons, List.not_mem_nil, or_false, not_or] at htag
  obtain ⟨hsignal, hrequest, haccept, hrelay, hsubscribe⟩ := htag
  have hled := hop.2
  cases m with
  | signal => exact absurd hled hsignal
  | relayOffer => exact absurd hled hrequest
  | relayData => exact absurd hled hrelay
  | relaySessionEstablished => exact (hled.elim hrequest haccept).elim
  | presenceUpdate => exact absurd hled hsubscribe
  | _ => rfl

theorem dispatch_addressed {pk text : String} {now : UnixTime} (pk' : String)
    (msg : ClientMessage) : (dispatch crates hasDb t pk' msg).run.Justified
      (Addressed t (.handling pk text now)) [] := by
  by_cases htag : msg.tag ∈
      ["signal", "request_relay", "accept_relay", "relay", "subscribe_presence"]
  · cases msg with
    | signal sender recipient payload timestamp signature requestId =>
      refine (relaySignal_addressed pk' recipient payload).bind fun hist x => ?_
      cases x with
      | ok _ => exact addressed_quiet ⟨pushesNothing_metric _, fun _ => trivial⟩
      | error e => exact addressed_quiet ⟨pushesNothing_metric _, fun _ => trivial⟩
    | requestRelay sender peer timestamp signature requestId =>
      refine addressed_except (request_addressed pk' peer) fun hist id => ?_
      rw [run_lift_bind]
      refine ⟨addressed_of_nothing (pushesNothing_metric _), fun _ => ?_⟩
      exact ⟨addressed_own, fun _ => trivial⟩
    | acceptRelay sender sessionId timestamp signature requestId =>
      exact addressed_require fun id _ => accept_addressed pk' id
    | relay sender sessionId data timestamp signature =>
      refine addressed_require fun id _ => ?_
      refine addressed_except (forward_addressed pk' id data) fun hist bytes => ?_
      exact addressed_quiet ⟨pushesNothing_metric _, fun _ => trivial⟩
    | subscribePresence sender peers timestamp signature requestId =>
      refine (onSubscribePresence_addressed pk' peers requestId).bind fun _ _ => ?_
      trivial
    | _ => simp [ClientMessage.tag] at htag
  · exact addressed_quiet ((dispatch_always crates hasDb t pk' msg).mono
      fun o ho => pushesNothing_of_tag ho htag)

theorem start_addressed {c c' : Phase} {i : Input} {p : Work Outcome}
    (hs : start crates hasDb t c i = some (c', p)) : p.Justified (Addressed t c') [] := by
  have hpump : ∀ pk text now, (pump crates hasDb t now pk text).Justified
      (Addressed t (.handling pk text now)) [] := by
    intro pk text now
    have hhandler : (handleClientMessage crates hasDb t now pk text).run.Justified
        (Addressed t (.handling pk text now)) [] :=
      addressed_require fun msg _ => dispatch_addressed pk msg
    refine hhandler.bind fun hist x => ?_
    cases x with
    | ok _ => trivial
    | error e => exact addressed_quiet ⟨pushesNothing_send rfl, fun _ => trivial⟩
  cases start_cases hs with
  | connects addr => trivial
  | registers addr f now =>
    rcases register_cases crates hasDb t now addr f.payload with
      ⟨s, pk, handle, addresses, kind, timestamp, signature, requestId, -, -, heq⟩ |
        ⟨msg, hmsg, heq, -⟩
    · rw [heq]
      exact enter_addressed addr pk handle addresses kind requestId
    · rw [heq]
      refine addressed_quiet ((reject_always t hmsg).mono fun o ho => ?_)
      obtain ⟨code, message, requestId, rfl⟩ := ho
      exact pushesNothing_send rfl
  | handles pk text f now hf => exact hpump pk text now
  | stays pk f now hf => trivial
  | closes pk f now hf => exact cleanup_addressed pk

end Programs

/-! ## When a session is told -/

/-- The channels a task has sent a `registered` to, whatever became of it. -/
def greet (greeted : List ℕ) : (o : Op) → Res o → List ℕ
  | .send c msg, _ => if isRegistered msg then c :: greeted else greeted
  | _, _ => greeted

/-- The operations of a session that has sent its reply leave it so. -/
theorem mem_greet {greeted : List ℕ} {o : Op} {r : Res o} {c : ℕ} (h : c ∈ greeted) :
    c ∈ greet greeted o r := by
  cases o with
  | send c' msg =>
    simp only [greet]
    split_ifs
    · exact List.mem_cons_of_mem _ h
    · exact h
  | _ => exact h

/-- A session has sent its reply before it enters its loop. -/
def Greeted (t : ℕ) : Phase → List ℕ → Prop
  | .pumping _, greeted | .handling .., greeted | .closing _, greeted => t ∈ greeted
  | _, _ => True

section Greeting

variable {crates : Crates} {hasDb : Bool} {t : ℕ} {greeted : List ℕ} {α : Type}

theorem greeted_of_mem {p : Work α} (h : t ∈ greeted) :
    p.Follows greet (fun greeted _ => t ∈ greeted) (fun greeted _ => t ∈ greeted) greeted := by
  induction p generalizing greeted with
  | done a => exact h
  | call o k ih => exact ⟨h, fun r => ih r (mem_greet h)⟩

theorem greeted_any (p : Work α) :
    p.Follows greet (fun _ _ => True) (fun _ _ => True) greeted := by
  induction p generalizing greeted with
  | done a => trivial
  | call o k ih => exact ⟨trivial, fun r => ih r⟩

theorem enter_greets (addr : Registry.SocketAddr) (pk : String) (handle : Option String)
    (addresses : PeerAddresses) (kind : Option IdentityKind) (requestId : Option String) :
    (enter crates hasDb t addr pk handle addresses kind requestId).Follows greet
      (fun _ _ => True) (fun greeted _ => t ∈ greeted) greeted := by
  refine (greeted_any _).bind fun _ claimed _ => ?_
  refine (greeted_any _).bind fun _ _ _ => ?_
  refine (greeted_any _).bind fun _ _ _ => ?_
  refine (greeted_any _).bind fun _ _ _ => ?_
  refine ⟨trivial, fun _ => ?_⟩
  exact (greeted_of_mem List.mem_cons_self).mono_ok fun _ _ _ => trivial

theorem start_greets {c c' : Phase} {i : Input} {p : Work Outcome}
    (hs : start crates hasDb t c i = some (c', p)) (hc : Greeted t c greeted) :
    p.Follows greet (fun greeted _ => Greeted t c' greeted)
      (fun greeted a => Greeted t (finish c' a) greeted) greeted := by
  cases start_cases hs with
  | connects addr => trivial
  | registers addr f now =>
    rcases register_cases crates hasDb t now addr f.payload with
      ⟨s, pk, handle, addresses, kind, timestamp, signature, requestId, -, -, heq⟩ |
        ⟨msg, -, heq, -⟩
    · rw [heq]
      refine (enter_greets addr pk handle addresses kind requestId).mono fun l a hl => ?_
      cases a with
      | registered pk' => exact hl
      | _ => trivial
    · rw [heq]
      cases msg with
      | none => trivial
      | some m => exact ⟨trivial, fun _ => trivial⟩
  | handles pk text f now hf => exact greeted_of_mem hc
  | stays pk f now hf => exact hc
  | closes pk f now hf => exact (greeted_of_mem hc).mono fun _ _ _ => trivial

end Greeting

section Runs

variable {crates : Crates} {hasDb : Bool} {db₀ : Database.Db ℕ} {tr : List BrokerEvent}
  {σ : BrokerConfig}

/-- Nothing can come before the reply any more: it is on the channel, or the channel is closed. -/
def Told (ch : Channel) : Prop := (∃ msg ∈ ch.sent, isRegistered msg = true) ∨ ch.closed = true

theorem Told.send {ch ch' : Channel} {msg : ServerMessage} {sent : Bool}
    (h : ch.send msg = some (sent, ch')) (htold : Told ch) : Told ch' := by
  rcases Channel.send_cases h with ⟨-, -, rfl⟩ | ⟨hopen, -, rfl⟩
  · exact htold
  · rcases htold with ⟨m, hm, hreg⟩ | hc
    · exact Or.inl ⟨m, List.mem_cons_of_mem _ hm, hreg⟩
    · rw [hopen] at hc
      cases hc

theorem told_of_send {ch ch' : Channel} {msg : ServerMessage} {sent : Bool}
    (h : ch.send msg = some (sent, ch')) (hmsg : isRegistered msg = true) : Told ch' := by
  rcases Channel.send_cases h with ⟨hclosed, -, rfl⟩ | ⟨-, -, rfl⟩
  · exact Or.inr hclosed
  · exact Or.inl ⟨msg, List.mem_cons_self, hmsg⟩

theorem told_exec {t c : ℕ} {o : Op} {env : Env} {b b' : Broker} {r : Res o}
    (h : Broker.exec crates t o env b = some (r, b')) (htold : Told (b.channels c)) :
    Told (b'.channels c) := by
  cases o with
  | send c' msg =>
    obtain ⟨ch, hsend, rfl⟩ := Broker.exec_send h
    simp only [Broker.withChannel]
    by_cases hc : c = c'
    · subst hc
      rw [Function.update_self]
      exact htold.send hsend
    · rw [Function.update_of_ne hc]
      exact htold
  | _ =>
    rw [(Broker.exec_frame h).channels (by simp)]
    exact htold

theorem told_writer {c : ℕ} {x : Broker.WriterEvent} {b b' : Broker}
    (h : b.writerStep x = some b') (htold : Told (b.channels c)) : Told (b'.channels c) := by
  rcases htold with hsent | hclosed
  · refine Or.inl ?_
    rw [Broker.writerStep_sent h]
    exact hsent
  · exact Or.inr (Broker.writerStep_closed h hclosed)

theorem told_of_greeted (h : Run (broker crates hasDb) (fresh db₀) tr σ) {t c : ℕ}
    (hc : c ∈ localState greet [] t tr) : Told (σ.shared.channels c) := by
  induction h with
  | start => cases hc
  | @step tr σ σ' e prior next ih =>
    rcases next.cases with ⟨u, i, c₀, c', p, rfl, hw, hs, rfl⟩ |
      ⟨u, c₀, o, k, env, r, s', rfl, hu, hx, rfl⟩ | ⟨x, s', rfl, hx, rfl⟩
    · exact ih hc
    · have hx' : Broker.exec crates u o env σ.shared = some (r, s') := hx
      by_cases hut : u = t
      · subst hut
        rw [localState_performed_self] at hc
        cases o with
        | send c' msg =>
          simp only [greet] at hc
          split_ifs at hc with hreg
          · rcases List.mem_cons.mp hc with rfl | hc
            · obtain ⟨ch, hsend, rfl⟩ := Broker.exec_send hx'
              simp only [Broker.withChannel, Function.update_self]
              exact told_of_send hsend hreg
            · exact told_exec hx' (ih hc)
          · exact told_exec hx' (ih hc)
        | _ => exact told_exec hx' (ih hc)
      · rw [localState_performed_of_ne (Ne.symm hut)] at hc
        exact told_exec hx' (ih hc)
    · exact told_writer hx (ih hc)

theorem told_of_handling (h : Run (broker crates hasDb) (fresh db₀) tr σ) {t : ℕ}
    {pk text : String} {now : UnixTime} {o : Op} {k : Res o → Work Outcome}
    (ht : σ.tasks t = .running (.handling pk text now) (.call o k)) :
    Told (σ.shared.channels t) := by
  have htracks := (h.tracks greet [] (fun t c greeted _ => Greeted t c greeted) Greeted
    (fun t => ⟨.absent, rfl, trivial⟩)
    (fun t c i c' p l hs hrest => start_greets hs hrest)).2 t _ _ ht
  exact told_of_greeted h htracks.1

/-! ## Nothing comes before the reply -/

/-- Every push on the channel was enqueued after the session's reply. -/
def ReplyFirst (sent : List ServerMessage) : Prop :=
  ∀ newer msg older, sent = newer ++ msg :: older → isPush msg = true →
    ∃ reply ∈ older, isRegistered reply = true

def MayPushTo (c : ℕ) (p : Work Outcome) : Prop := ¬ p.Always (PushesNothingTo c)

/-- A look-up that finds a session, to push something to it, finds one that has been told. -/
def FindsTold (_ : List BrokerEvent) (σ : BrokerConfig) (e : BrokerEvent) : Prop :=
  ∀ t pk peer c k, e = .performed t (.registry (.getPeer pk)) (some peer) →
    σ.tasks t = .running c (.call (.registry (.getPeer pk)) k) →
    MayPushTo peer.tx (k (some peer)) → Told (σ.shared.channels peer.tx)

/-- A peer that has been looked up, to push something to it, has been told. -/
def FoundTold (o : Op) (r : Res o) (p : Work Outcome) (b : Broker) : Prop :=
  ∀ pk peer, (⟨o, r⟩ : Σ o : Op, Res o) = ⟨.registry (.getPeer pk), some peer⟩ →
    MayPushTo peer.tx p → Told (b.channels peer.tx)

theorem told_of_push (h : GuardedRun (broker crates hasDb) FindsTold (fresh db₀) tr σ) {t ch : ℕ}
    {c : Phase} {msg : ServerMessage} {k : Bool → Work Outcome}
    (ht : σ.tasks t = .running c (.call (.send ch msg) k)) (hpush : isPush msg = true) :
    Told (σ.shared.channels ch) := by
  have hremembers : ∃ c₀ i p₀ hist, (broker crates hasDb).start t c₀ i = some (c, p₀) ∧
      Prog.After p₀ hist (.call (.send ch msg) k) ∧
      ∀ x ∈ hist, FoundTold x.1 x.2 (.call (.send ch msg) k) σ.shared := by
    refine h.remembers (fresh_idle db₀) ?_ ?_ ?_ ?_ ht
    · intro tr σ t c o k env r s' hguard ht hx pk peer heq hmay
      cases heq
      have hx' : Broker.exec crates t (.registry (.getPeer pk)) env σ.shared =
          some (some peer, s') := hx
      exact told_exec hx' (hguard t pk peer c k rfl ht hmay)
    · intro o r o' k r' s hfact pk peer heq hmay
      exact hfact pk peer heq fun halways => hmay (halways.2 r')
    · intro u o r p o' env r' s s' hx hfact pk peer heq hmay
      exact told_exec hx (hfact pk peer heq hmay)
    · intro o r p x s s' hx hfact pk peer heq hmay
      exact told_writer hx (hfact pk peer heq hmay)
  obtain ⟨c₀, i, p₀, hist, hs, ha, hfacts⟩ := hremembers
  rcases ((start_addressed hs).after ha).1 ch msg rfl hpush with
    ⟨rfl, pk, text, now, rfl⟩ | ⟨pk, peer, rfl, hmem⟩
  · exact told_of_handling h.run ht
  · refine hfacts _ hmem pk peer rfl fun halways => ?_
    have hquiet := halways.1 msg rfl
    rw [hpush] at hquiet
    cases hquiet

theorem ReplyFirst.cons {sent : List ServerMessage} {msg : ServerMessage} (h : ReplyFirst sent)
    (hmsg : isPush msg = true → ∃ reply ∈ sent, isRegistered reply = true) :
    ReplyFirst (msg :: sent) := by
  intro newer m older hsplit hpush
  cases newer with
  | nil =>
    cases hsplit
    exact hmsg hpush
  | cons m' newer =>
    cases hsplit
    exact h newer m older rfl hpush

/-- In every run in which look-ups find sessions that have been told, nothing is pushed on a
session's channel before its reply. -/
theorem registered_first (h : GuardedRun (broker crates hasDb) FindsTold (fresh db₀) tr σ) (t : ℕ) :
    ReplyFirst (σ.shared.channels t).sent := by
  revert t
  refine h.invariant (I := fun _ σ => ∀ t, ReplyFirst (σ.shared.channels t).sent) ?_ ?_
  · intro t newer msg older hsplit
    cases newer <;> cases hsplit
  · intro tr σ e σ' hrun ih hstep _ t
    rcases hstep.cases with ⟨u, i, c, c', p, rfl, hw, hs, rfl⟩ |
      ⟨u, c, o, k, env, r, s', rfl, hu, hx, rfl⟩ | ⟨x, s', rfl, hx, rfl⟩
    · exact ih t
    · have hx' : Broker.exec crates u o env σ.shared = some (r, s') := hx
      cases o with
      | send ch msg =>
        rcases Broker.sent_of_send hx' with ⟨-, -, hsame⟩ | ⟨hopen, -, hsent, hsame⟩
        · rw [hsame]
          exact ih t
        · by_cases htc : t = ch
          · subst htc
            rw [hsent]
            refine (ih t).cons fun hpush => ?_
            rcases told_of_push hrun hu hpush with hreply | hc
            · exact hreply
            · rw [hopen] at hc
              cases hc
          · rw [hsame t htc]
            exact ih t
      | _ =>
        rw [(Broker.exec_frame hx').channels (by simp)]
        exact ih t
    · rw [Broker.writerStep_sent hx]
      exact ih t

end Runs

/-! ## Two schedules -/

open Scripts Crates

def findsTold (_ : List BrokerEvent) (σ : BrokerConfig) : BrokerEvent → Bool
  | .performed _ (.registry (.getPeer _)) (some peer) =>
    (σ.shared.channels peer.tx).sent.any isRegistered
  | _ => true

theorem findsTold_sound {tr : List BrokerEvent} {σ : BrokerConfig} {e : BrokerEvent}
    (h : findsTold tr σ e = true) : FindsTold tr σ e := by
  intro t pk peer c k heq _ _
  subst heq
  obtain ⟨msg, hmem, hreg⟩ := List.any_eq_true.mp h
  exact Or.inl ⟨msg, hmem, hreg⟩

/-- What `a` says to `b`. -/
def greeting : ClientMessage :=
  .signal (keyText 'a') (keyText 'b') "AAAA" 0 (signatureText 'a') none

/-- `b` has registered before `a` signals it. -/
theorem registered_first_signal : ∃ tr σ,
    GuardedRun (broker demo false) FindsTold (fresh DatabaseCalls.emptyDb) tr σ ∧
      (σ.shared.channels 1).sent.map isPush = [true, false] ∧
      ReplyFirst (σ.shared.channels 1).sent := by
  have hplayed : (play false findsTold (joins 0 'a' ++ joins 1 'b' ++ .say 0 'a' greeting ::
      steps 0 7 calm) [] (fresh DatabaseCalls.emptyDb)).map
      (fun x => (x.2.shared.channels 1).sent.map isPush) = some [true, false] := by decide +kernel
  obtain ⟨⟨tr, σ⟩, hp, hsent⟩ := Option.map_eq_some_iff.mp hplayed
  have hrun := guardedRun_of_play false (fun _ _ _ => findsTold_sound) .start hp
  exact ⟨tr, σ, hrun, hsent, registered_first hrun 1⟩

/-- `a` signals `b` when `b` has entered the registry and not yet sent its reply. -/
theorem signal_before_registered : ∃ tr σ,
    Run (broker demo false) (fresh DatabaseCalls.emptyDb) tr σ ∧
      ¬ ReplyFirst (σ.shared.channels 1).sent := by
  have hplayed : (play false (fun _ _ _ => true)
      (joins 0 'a' ++ [.connect 1, .say 1 'b' (registerAs 'b' none), .perform 1 calm] ++
        .say 0 'a' greeting :: steps 0 7 calm) [] (fresh DatabaseCalls.emptyDb)).map
      (fun x => (x.2.shared.channels 1).sent) = some [.signal (keyText 'a') "AAAA" 0] := by
    decide +kernel
  obtain ⟨⟨tr, σ⟩, hp, hsent⟩ := Option.map_eq_some_iff.mp hplayed
  refine ⟨tr, σ, run_of_play false hp, fun hfirst => ?_⟩
  obtain ⟨reply, hmem, -⟩ := hfirst [] _ [] hsent rfl
  cases hmem

end HashedBroker.RegistrationOrder
