import HashedBroker.Sessions

/-!
# What a session may ask for

One statement for each part of `serve_socket`: the operations it can reach, whatever it is answered.
A handler and a registration act in the name of one key only, a handler never writes to the
registry, and a frame that fails the checks leads to nothing but an error on the session's own
channel.
-/
namespace HashedBroker.Server
open AtomicPrograms Protocol Database

section Rules

variable {α β : Type} {Q : Op → Prop}

@[simp] theorem perform_bind (o : Op) (f : Res o → Work β) : (perform o >>= f) = .call o f := rfl

@[simp] theorem run_lift_bind (p : Work α) (f : α → Handler β) :
    (ExceptT.lift p >>= f).run = p >>= fun a => (f a).run := ExceptT.run_bind_lift p f

@[simp] theorem run_attempt_bind (p : Work (Except BrokerError α)) (f : α → Handler β) :
    (attempt p >>= f).run = p >>= fun x =>
      match x with
      | .ok a => (f a).run
      | .error e => .done (.error e) := by
  simp only [attempt, ExceptT.run_bind, ExceptT.run_mk]
  congr 1
  funext x
  cases x <;> rfl

@[simp] theorem run_require_bind (x : Except BrokerError α) (f : α → Handler β) :
    (require x >>= f).run =
      match x with
      | .ok a => (f a).run
      | .error e => .done (.error e) := by
  simp only [require, ExceptT.run_bind, ExceptT.run_mk, Prog.pure_def, Prog.done_bind]
  cases x <;> rfl

@[simp] theorem run_orElse_bind (x : Option α) (e : BrokerError) (f : α → Handler β) :
    (orElse x e >>= f).run =
      match x with
      | some a => (f a).run
      | none => .done (.error e) := by
  rw [orElse, run_require_bind]
  cases x <;> rfl

theorem always_perform (o : Op) : (perform o).Always Q ↔ Q o := by
  simp [perform]

theorem always_send {c : ℕ} {msg : ServerMessage} (h : Q (.send c msg)) :
    (send c msg).Always Q := ⟨h, fun _ => trivial⟩

theorem always_metric {u : MetricUpdate} (h : Q (.metric u)) : (metric u).Always Q :=
  ⟨h, fun _ => trivial⟩

theorem always_lift_bind {p : Work α} {f : α → Handler β} (hp : p.Always Q)
    (hf : ∀ a, (f a).run.Always Q) : (ExceptT.lift p >>= f).run.Always Q := by
  rw [run_lift_bind]
  exact hp.bind hf

theorem always_lift {p : Work α} (hp : p.Always Q) :
    (ExceptT.lift p : Handler α).run.Always Q := hp.bind fun _ => trivial

theorem always_attempt_bind {p : Work (Except BrokerError α)} {f : α → Handler β}
    (hp : p.Always Q) (hf : ∀ a, (f a).run.Always Q) : (attempt p >>= f).run.Always Q := by
  rw [run_attempt_bind]
  refine hp.bind fun x => ?_
  cases x with
  | ok a => exact hf a
  | error e => trivial

theorem always_require_bind {x : Except BrokerError α} {f : α → Handler β}
    (hf : ∀ a, x = .ok a → (f a).run.Always Q) : (require x >>= f).run.Always Q := by
  rw [run_require_bind]
  cases x with
  | ok a => exact hf a rfl
  | error e => trivial

theorem always_orElse_bind {x : Option α} {e : BrokerError} {f : α → Handler β}
    (hf : ∀ a, x = some a → (f a).run.Always Q) : (orElse x e >>= f).run.Always Q := by
  rw [run_orElse_bind]
  cases x with
  | some a => exact hf a rfl
  | none => trivial

theorem always_trySend {c : ℕ} {msg : ServerMessage} (h : Q (.send c msg)) :
    (trySend c msg).run.Always Q := ⟨h, fun _ => trivial⟩

theorem always_trySend_bind {c : ℕ} {msg : ServerMessage} {f : Unit → Handler β}
    (h : Q (.send c msg)) (hf : ∀ a, (f a).run.Always Q) : (trySend c msg >>= f).run.Always Q :=
  always_attempt_bind (p := do
    let sent ← perform (.send c msg)
    pure (if sent then .ok () else .error .peerOffline)) ⟨h, fun _ => trivial⟩ hf

end Rules

/-! ## Acting in the name of a key -/

/-- The rows a statement writes for a peer are rows of this one. -/
def StatementFor (pk : String) : Statement → Prop
  | .upsertPeer pubkey => pubkey = pk
  | .upsertPeerWithKind pubkey _ => pubkey = pk
  | .insertHandle _ pubkey => pubkey = pk
  | .updatePeerHandle _ pubkey => pubkey = pk
  | .insertTeamMember _ memberPubkey _ => memberPubkey = pk
  | _ => True

/-- The message names this key as its sender, if it names one. -/
def MessageFrom (pk : String) : ServerMessage → Prop
  | .signal sender _ _ => sender = pk
  | .relayOffer _ sender => sender = pk
  | .relayData _ sender _ => sender = pk
  | _ => True

/-- Whatever the operation registers, subscribes, creates, accepts, charges, stores or sends, it
does for this key. Nothing of a peer is taken away. -/
def ActsAs (pk : String) : Op → Prop
  | .query s => StatementFor pk s
  | .registry (.insertHandle _ pubkey) => pubkey = pk
  | .registry (.insertPeer peer) => peer.pubkey = pk
  | .registry (.removePeer _) | .registry (.removeHandle _) => False
  | .presence (.entry subscriber) | .presence (.getMut subscriber) => subscriber = pk
  | .presence (.insert subscriber _) | .presence (.remove subscriber _) => subscriber = pk
  | .presence (.watch _ subscriber) | .presence (.unwatch _ subscriber) => subscriber = pk
  | .presence (.take _) => False
  | .relay (.insertSession initiator _) => initiator = pk
  | .relay (.promote _ responder) => responder = pk
  | .relay (.quotaEntry pubkey) | .relay (.consume pubkey _) => pubkey = pk
  | .relay (.stale _) | .relay (.removeSession _) => False
  | .signaling (.get pubkey) | .signaling (.insert pubkey) => pubkey = pk
  | .signaling (.check pubkey _) => pubkey = pk
  | .send _ msg => MessageFrom pk msg
  | _ => True

/-- What only some messages lead to. No message changes the registry or opens a transaction. -/
def LedToBy (msg : ClientMessage) : Op → Prop
  | .query s => s.controls = false
  | .registry (.getPeer _) | .registry (.getHandle _) | .registry (.containsPeer _) => True
  | .registry _ => False
  | .presence _ => msg.tag = "subscribe_presence" ∨ msg.tag = "unsubscribe_presence"
  | .relay (.insertSession ..) => msg.tag = "request_relay"
  | .relay (.promote ..) => msg.tag = "accept_relay"
  | .signaling _ => msg.tag = "signal"
  | .send _ (.signal ..) => msg.tag = "signal"
  | .send _ (.relayOffer ..) => msg.tag = "request_relay"
  | .send _ (.relayData ..) => msg.tag = "relay"
  | .send _ (.presenceUpdate ..) => msg.tag = "subscribe_presence"
  | .send _ (.relaySessionEstablished ..) => msg.tag = "request_relay" ∨ msg.tag = "accept_relay"
  | _ => True

def HandlerOp (pk : String) (msg : ClientMessage) (o : Op) : Prop := ActsAs pk o ∧ LedToBy msg o

/-- Only subscribing and unsubscribing move the gauge of subscriptions. -/
def Gauges (msg : ClientMessage) : Op → Prop
  | .metric (.presenceSubscriptions _) =>
    msg.tag = "subscribe_presence" ∨ msg.tag = "unsubscribe_presence"
  | _ => True

def MessageOp (pk : String) (msg : ClientMessage) (o : Op) : Prop :=
  ActsAs pk o ∧ LedToBy msg o ∧ Gauges msg o

section Methods

theorem resolvedKind_always {Q : Op → Prop} (hasDb : Bool) (pubkey : String)
    (h : Q (.query (.peerKind pubkey))) : (resolvedKind hasDb pubkey).Always Q := by
  cases hasDb with
  | false => trivial
  | true =>
    refine Prog.Always.bind (Prog.Always.lift ?_) fun _ => trivial
    exact ⟨h, fun _ => trivial⟩

theorem onlineSet_always {Q : Registry.Access → Prop} (h : ∀ pk, Q (.containsPeer pk))
    (pks : List String) : (Registry.onlineSet pks).Always Q := by
  induction pks with
  | nil => trivial
  | cons pk pks ih => exact Prog.always_perform_bind (h pk) fun _ => ih.bind fun _ => trivial

theorem sendUpdates_always {tx : ℕ} {Q : Op → Prop}
    (h : ∀ pk online, Q (.send tx (.presenceUpdate pk online))) (online : List (String × Bool)) :
    (sendUpdates tx online).Always Q := by
  induction online with
  | nil => trivial
  | cons x rest ih => exact (always_send (h x.1 x.2)).bind fun _ => ih

theorem report_always {tx : ℕ} {Q : Op → Prop} {peers : List String} {requestId : Option String}
    (hread : ∀ pk, Q (.registry (.containsPeer pk)))
    (hack : Q (.send tx (.subscribePresenceAck peers requestId)))
    (hupdate : ∀ pk online, Q (.send tx (.presenceUpdate pk online))) :
    (do
      let online ← registry (Registry.onlineSet peers)
      send tx (.subscribePresenceAck peers requestId)
      sendUpdates tx online : Work Unit).Always Q := by
  have hread' : (registry (Registry.onlineSet peers)).Always Q :=
    Prog.Always.lift (onlineSet_always hread peers)
  exact hread'.bind fun online => (always_send hack).bind fun _ => sendUpdates_always hupdate online

theorem subscribe_always {Q : Presence.Access → Prop} {subscriber : String}
    (he : Q (.entry subscriber)) (hi : ∀ t, Q (.insert subscriber t))
    (hw : ∀ t, Q (.watch t subscriber)) (hr : Q .release) (targets : List String) :
    (Presence.subscribe subscriber targets).Always Q := by
  have heach : (Presence.subscribeEach subscriber targets).Always Q := by
    induction targets with
    | nil => trivial
    | cons t ts ih =>
      exact Prog.always_perform_bind (hi t) fun _ => Prog.always_perform_bind (hw t) fun _ => ih
  refine Prog.always_perform_bind he fun _ => heach.bind fun _ => ?_
  exact (Prog.always_perform _).mpr hr

theorem unwatch_always {Q : Presence.Access → Prop} {subscriber target : String}
    (hu : Q (.unwatch target subscriber)) (hd : Q (.dropWatchers target)) :
    (Presence.unwatch subscriber target).Always Q := by
  refine Prog.always_perform_bind hu fun emptied => ?_
  split_ifs
  · exact (Prog.always_perform _).mpr hd
  · trivial

theorem unsubscribe_always {Q : Presence.Access → Prop} {subscriber : String}
    (hg : Q (.getMut subscriber)) (hr : ∀ t, Q (.remove subscriber t))
    (hu : ∀ t, Q (.unwatch t subscriber)) (hd : ∀ t, Q (.dropWatchers t)) (hl : Q .release)
    (targets : List String) : (Presence.unsubscribe subscriber targets).Always Q := by
  have heach : (Presence.unsubscribeEach subscriber targets).Always Q := by
    induction targets with
    | nil => trivial
    | cons t ts ih =>
      refine Prog.always_perform_bind (hr t) fun _ => ?_
      exact (unwatch_always (hu t) (hd t)).bind fun _ => ih
  refine Prog.always_perform_bind hg fun found => ?_
  split_ifs
  · exact heach.bind fun _ => (Prog.always_perform _).mpr hl
  · trivial

theorem check_always {Q : Signaling.Access → Prop} {pubkey : String} (hg : Q (.get pubkey))
    (hi : Q (.insert pubkey)) (hc : ∀ n, Q (.check pubkey n)) :
    (Signaling.check pubkey).Always Q := by
  have hfor : (Signaling.limiterFor pubkey).Always Q := by
    refine Prog.always_perform_bind hg fun found => ?_
    cases found with
    | some n => trivial
    | none => exact (Prog.always_perform _).mpr hi
  exact hfor.bind fun n => Prog.always_perform_bind (hc n) fun _ => trivial

end Methods

section Handlers

variable (crates : Crates) (hasDb : Bool) (tx : ℕ) (pk : String)

def OwnError (tx : ℕ) (o : Op) : Prop := ∃ code message requestId,
  o = .send tx (.error code message requestId)

theorem get_always {Q : Op → Prop} (target : String) (h : Q (.registry (.getPeer target))) :
    (registry (Registry.get target)).Always Q := Prog.Always.lift ((Prog.always_perform _).mpr h)

theorem request_always {msg : ClientMessage} (responder : String)
    (hmsg : msg.tag = "request_relay") :
    (request crates pk responder).run.Always (MessageOp pk msg) := by
  refine always_lift_bind (get_always responder ⟨trivial, trivial, trivial⟩) fun peer => ?_
  refine always_orElse_bind fun recipient _ => ?_
  refine always_lift_bind ((always_perform _).mpr ⟨rfl, hmsg, trivial⟩) fun id => ?_
  exact always_trySend_bind ⟨rfl, hmsg, trivial⟩ fun _ => trivial

theorem accept_always {msg : ClientMessage} (id : Uuid) (hmsg : msg.tag = "accept_relay") :
    (accept crates pk id).run.Always (MessageOp pk msg) := by
  refine always_attempt_bind ((always_perform _).mpr ⟨rfl, hmsg, trivial⟩) fun initiator => ?_
  refine always_lift_bind (get_always _ ⟨trivial, trivial, trivial⟩) fun peer => ?_
  refine always_orElse_bind fun initPeer _ => ?_
  refine always_lift_bind (get_always _ ⟨trivial, trivial, trivial⟩) fun peer => ?_
  refine always_orElse_bind fun respPeer _ => ?_
  have hsend : ∀ c sid peer, MessageOp pk msg (.send c (.relaySessionEstablished sid peer none)) :=
    fun _ _ _ => ⟨trivial, Or.inr hmsg, trivial⟩
  exact always_trySend_bind (hsend _ _ _) fun _ => always_trySend (hsend _ _ _)

theorem forward_always {msg : ClientMessage} (id : Uuid) (data : String)
    (hmsg : msg.tag = "relay") : (forward crates pk id data).run.Always (MessageOp pk msg) := by
  refine always_lift_bind ((always_perform _).mpr ⟨trivial, trivial, trivial⟩) fun entry => ?_
  refine always_orElse_bind fun session _ => ?_
  refine always_require_bind fun other _ => ?_
  refine always_require_bind fun len _ => ?_
  refine always_require_bind fun _ _ => ?_
  refine always_attempt_bind (Prog.Always.lift ?_) fun _ => ?_
  · exact Prog.always_perform_bind ⟨rfl, trivial, trivial⟩ fun _ =>
      (Prog.always_perform _).mpr ⟨rfl, trivial, trivial⟩
  · refine always_lift_bind (get_always _ ⟨trivial, trivial, trivial⟩) fun peer => ?_
    refine always_orElse_bind fun recipient _ => ?_
    exact always_trySend_bind ⟨rfl, hmsg, trivial⟩ fun _ => trivial

theorem relaySignal_always {msg : ClientMessage} (recipient payload : String)
    (hmsg : msg.tag = "signal") :
    (relaySignal crates pk recipient payload).run.Always (MessageOp pk msg) := by
  have hcheck : (signaling (Signaling.check pk)).Always (MessageOp pk msg) :=
    Prog.Always.lift (check_always ⟨rfl, hmsg, trivial⟩ ⟨rfl, hmsg, trivial⟩
      fun _ => ⟨rfl, hmsg, trivial⟩)
  refine always_attempt_bind hcheck fun _ => ?_
  refine always_require_bind fun len _ => ?_
  refine always_require_bind fun _ _ => ?_
  refine always_lift_bind (get_always _ ⟨trivial, trivial, trivial⟩) fun peer => ?_
  refine always_orElse_bind fun recipient _ => ?_
  refine always_lift_bind ((always_perform _).mpr ⟨trivial, trivial, trivial⟩) fun timestamp => ?_
  exact always_trySend ⟨rfl, hmsg, trivial⟩

theorem onSignal_always {msg : ClientMessage} (recipient payload : String)
    (hmsg : msg.tag = "signal") :
    (onSignal crates pk recipient payload).run.Always (MessageOp pk msg) := by
  refine Prog.Always.bind (relaySignal_always crates pk recipient payload hmsg) fun x => ?_
  cases x with
  | ok u => exact (always_metric ⟨trivial, trivial, trivial⟩).bind fun _ => trivial
  | error e => exact (always_metric ⟨trivial, trivial, trivial⟩).bind fun _ => trivial

theorem onSubscribePresence_always {msg : ClientMessage} (peers : List String)
    (requestId : Option String) (hmsg : msg.tag = "subscribe_presence") :
    (onSubscribePresence tx pk peers requestId).Always (MessageOp pk msg) := by
  have hsub : (presence (Presence.subscribe pk peers)).Always (MessageOp pk msg) :=
    Prog.Always.lift (subscribe_always ⟨rfl, .inl hmsg, trivial⟩ (fun _ => ⟨rfl, .inl hmsg, trivial⟩)
      (fun _ => ⟨rfl, .inl hmsg, trivial⟩) ⟨trivial, .inl hmsg, trivial⟩ peers)
  refine hsub.bind fun _ => ?_
  refine (always_metric ⟨trivial, trivial, .inl hmsg⟩).bind fun _ => ?_
  exact report_always (fun _ => ⟨trivial, trivial, trivial⟩) ⟨trivial, trivial, trivial⟩
    fun _ _ => ⟨trivial, hmsg, trivial⟩

theorem onUnsubscribePresence_always {msg : ClientMessage} (peers : List String)
    (hmsg : msg.tag = "unsubscribe_presence") :
    (onUnsubscribePresence pk peers).Always (MessageOp pk msg) := by
  have hunsub : (presence (Presence.unsubscribe pk peers)).Always (MessageOp pk msg) :=
    Prog.Always.lift (unsubscribe_always ⟨rfl, .inr hmsg, trivial⟩
      (fun _ => ⟨rfl, .inr hmsg, trivial⟩) (fun _ => ⟨rfl, .inr hmsg, trivial⟩)
      (fun _ => ⟨trivial, .inr hmsg, trivial⟩) ⟨trivial, .inr hmsg, trivial⟩ peers)
  exact hunsub.bind fun _ => always_metric ⟨trivial, trivial, .inr hmsg⟩

def answerOwner (hasDb : Bool) (tx : ℕ) (target : String) (requestId : Option String) :
    Option String → Handler Unit
  | none => ExceptT.lift (send tx (errorMsg .peerNotFound requestId))
  | some pk => do
    let peer ← ExceptT.lift (registry (Registry.get pk))
    let kind ← ExceptT.lift (resolvedKind hasDb pk)
    ExceptT.lift (send tx (.peerInfo pk (some target) ((peer.map (·.addresses)).getD default)
      (peer.map (·.reflected)) peer.isSome kind requestId))

theorem onLookupHandle_bind (target : String) (requestId : Option String) :
    onLookupHandle hasDb tx target requestId =
      (if hasDb then attempt (query (Handles.resolve target))
        else ExceptT.lift (registry (Registry.resolveHandle target))) >>=
        answerOwner hasDb tx target requestId := by
  cases hasDb with
  | false => rfl
  | true => rfl

theorem onLookupHandle_always {msg : ClientMessage} (target : String)
    (requestId : Option String) :
    (onLookupHandle hasDb tx target requestId).run.Always (MessageOp pk msg) := by
  have hrest : ∀ owner : Option String, (answerOwner hasDb tx target requestId owner).run.Always
      (MessageOp pk msg) := by
    intro owner
    cases owner with
    | none => exact always_lift (always_send ⟨trivial, trivial, trivial⟩)
    | some target =>
      refine always_lift_bind (get_always target ⟨trivial, trivial, trivial⟩) fun peer => ?_
      refine always_lift_bind (resolvedKind_always hasDb _ ⟨trivial, rfl, trivial⟩) fun kind => ?_
      exact always_lift (always_send ⟨trivial, trivial, trivial⟩)
  rw [onLookupHandle_bind]
  cases hasDb with
  | false =>
    refine always_lift_bind (Prog.Always.lift ?_) hrest
    exact (Prog.always_perform _).mpr ⟨trivial, trivial, trivial⟩
  | true =>
    refine always_attempt_bind (Prog.Always.lift ?_) hrest
    exact ⟨⟨trivial, rfl, trivial⟩, fun _ => trivial⟩

theorem announce_actsAs {msg : ClientMessage} (teamId : Option Uuid)
    (teamName adminPubkey adminSignature : String) :
    (query (Teams.announce crates pk teamId teamName adminPubkey adminSignature)).Always
      (MessageOp pk msg) := by
  refine Prog.Always.lift ((Teams.announce_always crates pk teamId teamName adminPubkey
    adminSignature).mono fun s hs => ?_)
  rcases hs with ⟨id, -, rfl⟩ | ⟨-, rfl⟩ | rfl | ⟨id, rfl⟩
  · exact ⟨trivial, rfl, trivial⟩
  · exact ⟨trivial, rfl, trivial⟩
  · exact ⟨rfl, rfl, trivial⟩
  · exact ⟨rfl, rfl, trivial⟩

theorem onTeamLookup_always {msg : ClientMessage} (teamId : String) (requestId : Option String) :
    (onTeamLookup crates hasDb tx teamId requestId).run.Always (MessageOp pk msg) := by
  have honline : ∀ rows, (onlineMembers rows).Always (MessageOp pk msg) := by
    intro rows
    induction rows with
    | nil => trivial
    | cons m ms ih =>
      refine Prog.Always.bind (Prog.Always.lift ?_) fun _ => ih.bind fun _ => trivial
      exact (Prog.always_perform _).mpr ⟨trivial, trivial, trivial⟩
  cases hasDb with
  | false => trivial
  | true =>
    refine always_require_bind fun id _ => ?_
    refine always_attempt_bind (Prog.Always.lift ⟨⟨trivial, rfl, trivial⟩, fun _ => trivial⟩) ?_
    intro rows
    refine always_lift_bind (honline rows) fun out => ?_
    exact always_lift (always_send ⟨trivial, trivial, trivial⟩)

/-- A handler acts for the session's key, stays within what its message leads to, and leaves the
gauge of subscriptions to those that subscribe. -/
theorem dispatch_ops (msg : ClientMessage) :
    (dispatch crates hasDb tx pk msg).run.Always (MessageOp pk msg) := by
  cases msg with
  | register =>
    refine always_lift ((get_always _ ⟨trivial, trivial, trivial⟩).bind fun _ => ?_)
    refine (get_always _ ⟨trivial, trivial, trivial⟩).bind fun _ => ?_
    exact always_send ⟨trivial, trivial, trivial⟩
  | lookupPeer pubkey target timestamp signature requestId =>
    refine always_lift ((get_always _ ⟨trivial, trivial, trivial⟩).bind fun peer => ?_)
    refine (resolvedKind_always hasDb _ ⟨trivial, rfl, trivial⟩).bind fun kind => ?_
    cases peer with
    | some p => exact always_send ⟨trivial, trivial, trivial⟩
    | none => exact always_send ⟨trivial, trivial, trivial⟩
  | lookupHandle => exact onLookupHandle_always hasDb tx pk _ _
  | signal => exact onSignal_always crates pk _ _ rfl
  | subscribePresence => exact always_lift (onSubscribePresence_always tx pk _ _ rfl)
  | unsubscribePresence => exact always_lift (onUnsubscribePresence_always pk _ rfl)
  | requestRelay =>
    refine Prog.Always.except_bind (request_always crates pk _ rfl) fun id => ?_
    refine always_lift_bind (always_metric ⟨trivial, trivial, trivial⟩) fun _ => ?_
    exact always_lift (always_send ⟨trivial, Or.inl rfl, trivial⟩)
  | acceptRelay => exact always_require_bind fun id _ => accept_always crates pk id rfl
  | relay =>
    refine always_require_bind fun id _ => ?_
    refine Prog.Always.except_bind (forward_always crates pk id _ rfl) fun bytes => ?_
    exact always_lift (always_metric ⟨trivial, trivial, trivial⟩)
  | teamAnnounce =>
    cases hasDb with
    | false => trivial
    | true =>
      refine always_require_bind fun parsed _ => ?_
      refine always_attempt_bind (announce_actsAs crates pk _ _ _ _) fun id => ?_
      refine always_lift_bind (always_metric ⟨trivial, trivial, trivial⟩) fun _ => ?_
      exact always_lift (always_send ⟨trivial, trivial, trivial⟩)
  | teamLookup => exact onTeamLookup_always crates hasDb tx pk _ _
  | ping => exact always_lift (always_send ⟨trivial, trivial, trivial⟩)

theorem dispatch_always (msg : ClientMessage) :
    (dispatch crates hasDb tx pk msg).run.Always (HandlerOp pk msg) :=
  (dispatch_ops crates hasDb tx pk msg).mono fun _ ho => ⟨ho.1, ho.2.1⟩

theorem pump_always {now : UnixTime} {text : String} {msg : ClientMessage}
    (h : authenticate crates now pk text = .ok msg) :
    (pump crates hasDb tx now pk text).Always (HandlerOp pk msg) := by
  have hrun : (handleClientMessage crates hasDb tx now pk text).run.Always (HandlerOp pk msg) := by
    refine always_require_bind fun m hm => ?_
    obtain rfl : msg = m := Except.ok.inj (h.symm.trans hm)
    exact dispatch_always crates hasDb tx pk msg
  refine hrun.bind fun x => ?_
  cases x with
  | ok u => trivial
  | error e => exact (always_send ⟨trivial, trivial⟩).bind fun _ => trivial

/-- A frame that fails a check leads to an error on the session's own channel and nothing else. -/
theorem pump_rejected {now : UnixTime} {text : String} {e : BrokerError}
    (h : authenticate crates now pk text = .error e) :
    pump crates hasDb tx now pk text =
      .call (.send tx (errorMsg e (parseRequestId crates text))) fun _ => .done .finished := by
  have hrun : (handleClientMessage crates hasDb tx now pk text).run = .done (.error e) := by
    rw [handleClientMessage, run_require_bind, h]
  rw [pump, hrun]
  rfl

end Handlers

/-! ## Registration and closing -/

section Registration

variable (crates : Crates) (hasDb : Bool) (tx : ℕ) (pk : String)

theorem broadcast_always {Q : Op → Prop} (online : Bool)
    (hw : Q (.presence (.watchers pk))) (hg : ∀ target, Q (.registry (.getPeer target)))
    (hs : ∀ c, Q (.send c (.presenceUpdate pk online))) : (broadcast pk online).Always Q := by
  have heach : ∀ ws, (broadcastEach (.presenceUpdate pk online) ws).Always Q := by
    intro ws
    induction ws with
    | nil => trivial
    | cons w ws ih =>
      refine (get_always w (hg w)).bind fun peer => ?_
      cases peer with
      | some p => exact (always_send (hs p.tx)).bind fun _ => ih
      | none => exact ih
  refine Prog.always_perform_bind hw fun watchers => ?_
  cases watchers with
  | none => trivial
  | some ws => exact heach ws

/-- What registering a key does: it writes the key's rows, enters the registry under the session's
own channel, and tells the peer and its watchers. -/
def EntryOp (tx : ℕ) (pk : String) : Op → Prop
  | .query s => StatementFor pk s
  | .registry (.insertHandle _ pubkey) => pubkey = pk
  | .registry (.insertPeer peer) => peer.pubkey = pk ∧ peer.tx = tx
  | .registry (.getPeer _) => True
  | .presence (.watchers pubkey) => pubkey = pk
  | .send c (.error ..) => c = tx
  | .send c (.registered ..) => c = tx
  | .send _ msg => msg = .presenceUpdate pk true
  | .metric _ => True
  | _ => False

theorem claim_entry (handle : String) :
    (query (Handles.claim crates pk handle)).Always (EntryOp tx pk) := by
  refine Prog.Always.lift ((Handles.claim_always crates pk handle).mono fun s hs => ?_)
  simp only [Handles.claimStatements, List.mem_cons, List.not_mem_nil, or_false] at hs
  rcases hs with rfl | rfl | rfl | rfl | rfl | rfl | rfl | rfl
  · exact rfl
  · trivial
  · trivial
  · trivial
  · exact rfl
  · exact rfl
  · trivial
  · trivial

theorem claimRequested_always {Q : Op → Prop} (handle : String)
    (hq : (query (Handles.claim crates pk handle)).Always Q)
    (hm : ∀ outcome, Q (.metric (.handleClaimsTotal outcome))) :
    (claimRequested crates pk handle).Always Q := by
  refine hq.bind fun x => ?_
  split
  · exact (always_metric (hm _)).bind fun _ => trivial
  · exact (always_metric (hm _)).bind fun _ => trivial
  · exact (always_metric (hm _)).bind fun _ => trivial
  · exact (always_metric (hm _)).bind fun _ => trivial

theorem recordPeer_always {Q : Op → Prop} (handle : Option String) (kind : IdentityKind)
    (requestId : Option String) (hu : Q (.query (.upsertPeerWithKind pk kind.asStr)))
    (hq : ∀ h, (query (Handles.claim crates pk h)).Always Q)
    (hm : ∀ outcome, Q (.metric (.handleClaimsTotal outcome)))
    (he : ∀ code message, Q (.send tx (.error code message requestId))) :
    (recordPeer crates hasDb tx pk handle kind requestId).Always Q := by
  cases hasDb with
  | true =>
    refine Prog.Always.bind (Prog.Always.lift ⟨hu, fun _ => trivial⟩) fun _ => ?_
    cases handle with
    | some h => exact claimRequested_always crates pk h (hq h) hm
    | none => trivial
  | false =>
    cases handle with
    | some h => exact (always_send (he _ _)).bind fun _ => trivial
    | none => trivial

theorem insert_always {Q : Op → Prop} (peer : Registry.PeerHandle)
    (hi : ∀ handle, Q (.registry (.insertHandle handle peer.pubkey)))
    (hp : Q (.registry (.insertPeer peer))) : (registry (Registry.insert peer)).Always Q := by
  refine Prog.Always.lift ?_
  rw [Registry.insert]
  cases peer.handle with
  | some h =>
    exact Prog.always_perform_bind (hi h) fun _ => (Prog.always_perform _).mpr hp
  | none => exact (Prog.always_perform _).mpr hp

theorem enter_always (addr : Registry.SocketAddr) (handle : Option String)
    (addresses : PeerAddresses) (kind : Option IdentityKind) (requestId : Option String) :
    (enter crates hasDb tx addr pk handle addresses kind requestId).Always (EntryOp tx pk) := by
  have hrecord := recordPeer_always (Q := EntryOp tx pk) crates hasDb tx pk handle
    (kind.getD .user) requestId rfl (claim_entry crates tx pk) (fun _ => trivial) fun _ _ => rfl
  have hinsert : ∀ h, (registry (Registry.insert ⟨pk, h, addresses, addr, tx⟩)).Always
      (EntryOp tx pk) :=
    fun h => insert_always ⟨pk, h, addresses, addr, tx⟩ (fun _ => rfl) ⟨rfl, rfl⟩
  refine hrecord.bind fun claimed => ?_
  refine (hinsert _).bind fun _ => ?_
  refine (always_metric trivial).bind fun _ => ?_
  refine (always_metric trivial).bind fun _ => ?_
  have hreply : EntryOp tx pk (.send tx (.registered pk addr claimed requestId)) := rfl
  refine (always_send hreply).bind fun _ => ?_
  have hbroadcast : (broadcast pk true).Always (EntryOp tx pk) :=
    broadcast_always pk true rfl (fun _ => trivial) fun _ => rfl
  exact hbroadcast.bind fun _ => trivial

theorem authenticateRegister_ok {now : UnixTime} {text : String} {msg : ClientMessage}
    (h : authenticateRegister crates now text = .ok msg) :
    decode crates "first message parse" text = .ok msg ∧
      (∃ key, Auth.verifySignedMessage crates now msg = .ok key) ∧
      ∃ pubkey handle addresses kind timestamp signature requestId,
        msg = .register pubkey handle addresses kind timestamp signature requestId := by
  unfold authenticateRegister at h
  split at h
  · cases h
  · rename_i m hm
    cases m with
    | register =>
      simp only at h
      split at h
      · cases h
      · rename_i key hkey
        cases h
        exact ⟨hm, ⟨key, hkey⟩, _, _, _, _, _, _, _, rfl⟩
    | _ => cases h

/-- A first frame registers its sender, or is turned away with an error at most. -/
theorem register_cases (now : UnixTime) (addr : Registry.SocketAddr) (text : Option String) :
    (∃ t pubkey handle addresses kind timestamp signature requestId, text = some t ∧
      authenticateRegister crates now t =
        .ok (.register pubkey handle addresses kind timestamp signature requestId) ∧
      register crates hasDb tx now addr text =
        enter crates hasDb tx addr pubkey handle addresses kind requestId) ∨
    ∃ msg, (∀ m, msg = some m → ∃ code message requestId, m = .error code message requestId) ∧
      register crates hasDb tx now addr text = reject tx msg ∧
      ∀ t m, text = some t → authenticateRegister crates now t ≠ .ok m := by
  cases text with
  | none =>
    exact Or.inr ⟨_, fun m hm => ⟨_, _, _, (Option.some.inj hm).symm⟩, rfl, fun _ _ h => nomatch h⟩
  | some t =>
    cases h : authenticateRegister crates now t with
    | ok msg =>
      obtain ⟨-, -, pubkey, handle, addresses, kind, timestamp, signature, requestId, rfl⟩ :=
        authenticateRegister_ok crates h
      refine Or.inl ⟨t, pubkey, handle, addresses, kind, timestamp, signature, requestId, rfl, h, ?_⟩
      simp only [register, h]
    | error msg =>
      have hno : ∀ t' m, some t = some t' → authenticateRegister crates now t' ≠ .ok m := by
        rintro t' m ⟨rfl⟩ hm
        rw [h] at hm
        cases hm
      refine Or.inr ⟨msg, fun m hm => ?_, by simp only [register, h], hno⟩
      unfold authenticateRegister at h
      split at h
      · cases h
        cases hm
      · split at h
        · split at h
          · cases h
            cases hm
            exact ⟨_, _, _, rfl⟩
          · cases h
        · cases h
          cases hm
          exact ⟨_, _, _, rfl⟩

theorem reject_always {msg : Option ServerMessage}
    (hmsg : ∀ m, msg = some m → ∃ code message requestId, m = .error code message requestId) :
    (reject tx msg).Always (OwnError tx) := by
  cases msg with
  | none => trivial
  | some m =>
    obtain ⟨code, message, requestId, rfl⟩ := hmsg m rfl
    exact (always_send ⟨code, message, requestId, rfl⟩).bind fun _ => trivial

def CleanupOp (pk : String) : Op → Prop
  | .registry (.removePeer pubkey) => pubkey = pk
  | .registry (.getHandle _) | .registry (.removeHandle _) | .registry (.getPeer _) => True
  | .presence (.take subscriber) => subscriber = pk
  | .presence (.unwatch _ subscriber) => subscriber = pk
  | .presence (.dropWatchers _) => True
  | .presence (.watchers pubkey) => pubkey = pk
  | .relay (.stale pubkey) => pubkey = pk
  | .relay (.removeSession _) => True
  | .send _ msg => msg = .presenceUpdate pk false
  | .metric _ => True
  | _ => False

theorem remove_rest_always {Q : Registry.Access → Prop} (hg : ∀ h, Q (.getHandle h))
    (hd : ∀ h, Q (.removeHandle h)) :
    ∃ k, Registry.remove pk = .call (.removePeer pk) k ∧ ∀ removed, (k removed).Always Q := by
  refine ⟨_, rfl, fun removed => ?_⟩
  cases removed with
  | none => trivial
  | some peer =>
    obtain ⟨pk', handle, addresses, reflected, tx⟩ := peer
    cases handle with
    | none => trivial
    | some h =>
      refine Prog.always_perform_bind (hg h) fun entry => ?_
      cases entry with
      | none => trivial
      | some e =>
        simp only
        split_ifs
        · exact Prog.always_perform_bind (hd h) fun _ => trivial
        · trivial

theorem remove_always {Q : Registry.Access → Prop} (hr : Q (.removePeer pk))
    (hg : ∀ h, Q (.getHandle h)) (hd : ∀ h, Q (.removeHandle h)) :
    (Registry.remove pk).Always Q := by
  obtain ⟨k, hk, hrest⟩ := remove_rest_always pk hg hd
  rw [hk]
  exact ⟨hr, hrest⟩

theorem clearSubscriber_always {Q : Presence.Access → Prop} (ht : Q (.take pk))
    (hu : ∀ t, Q (.unwatch t pk)) (hd : ∀ t, Q (.dropWatchers t)) :
    (Presence.clearSubscriber pk).Always Q := by
  refine Prog.always_perform_bind ht fun taken => ?_
  cases taken with
  | none => trivial
  | some targets =>
    induction targets with
    | nil => trivial
    | cons t ts ih => exact (unwatch_always (hu t) (hd t)).bind fun _ => ih

theorem dropSessionsFor_always {Q : Relay.Access → Prop} (hs : Q (.stale pk))
    (hr : ∀ id, Q (.removeSession id)) : (Relay.dropSessionsFor pk).Always Q := by
  refine Prog.always_perform_bind hs fun stale => ?_
  induction stale with
  | nil => trivial
  | cons id ids ih => exact Prog.always_perform_bind (hr id) fun _ => ih

theorem cleanup_always : (cleanup pk).Always (CleanupOp pk) := by
  have hremove : (registry (Registry.remove pk)).Always (CleanupOp pk) :=
    Prog.Always.lift (remove_always pk rfl (fun _ => trivial) fun _ => trivial)
  have hclear : (presence (Presence.clearSubscriber pk)).Always (CleanupOp pk) :=
    Prog.Always.lift (clearSubscriber_always pk rfl (fun _ => rfl) fun _ => trivial)
  have hdrop : (relay (Relay.dropSessionsFor pk)).Always (CleanupOp pk) :=
    Prog.Always.lift (dropSessionsFor_always pk rfl fun _ => trivial)
  refine hremove.bind fun _ => ?_
  refine (always_metric trivial).bind fun _ => ?_
  refine hclear.bind fun _ => ?_
  refine hdrop.bind fun _ => ?_
  have hbroadcast : (broadcast pk false).Always (CleanupOp pk) :=
    broadcast_always pk false rfl (fun _ => trivial) fun _ => rfl
  exact hbroadcast.bind fun _ => trivial

end Registration

end HashedBroker.Server

namespace HashedBroker.Sessions
open AtomicPrograms ReactiveTasks Server Protocol

def Permitted (crates : Crates) (t : ℕ) : Phase → Op → Prop
  | .registering _ text now, o =>
    (∃ s msg, text = some s ∧ authenticateRegister crates now s = .ok msg ∧
      EntryOp t msg.pubkey o) ∨
    (∀ s msg, text = some s → authenticateRegister crates now s ≠ .ok msg) ∧ OwnError t o
  | .handling pk text now, o =>
    (∃ msg, authenticate crates now pk text = .ok msg ∧ HandlerOp pk msg o) ∨
    (∀ msg, authenticate crates now pk text ≠ .ok msg) ∧ OwnError t o
  | .closing pk, o => CleanupOp pk o
  | _, _ => False

variable {crates : Crates} {hasDb : Bool}

theorem register_permitted (t : ℕ) (addr : Registry.SocketAddr) (text : Option String)
    (now : UnixTime) : (register crates hasDb t now addr text).Always
      (Permitted crates t (.registering addr text now)) := by
  rcases register_cases crates hasDb t now addr text with
    ⟨s, pk, handle, addresses, kind, timestamp, signature, requestId, rfl, hauth, heq⟩ |
      ⟨msg, hmsg, heq, hnone⟩
  · rw [heq]
    exact (enter_always crates hasDb t pk addr handle addresses kind requestId).mono
      fun o ho => Or.inl ⟨s, _, rfl, hauth, ho⟩
  · rw [heq]
    exact (reject_always t hmsg).mono fun o ho => Or.inr ⟨hnone, ho⟩

theorem pump_permitted (t : ℕ) (pk text : String) (now : UnixTime) :
    (pump crates hasDb t now pk text).Always (Permitted crates t (.handling pk text now)) := by
  cases h : authenticate crates now pk text with
  | ok msg => exact (pump_always crates hasDb t pk h).mono fun o ho => Or.inl ⟨msg, h, ho⟩
  | error e =>
    rw [pump_rejected crates hasDb t pk h]
    have hno : ∀ msg, authenticate crates now pk text ≠ .ok msg := by
      intro msg hm
      rw [h] at hm
      cases hm
    exact ⟨Or.inr ⟨hno, _, _, _, rfl⟩, fun _ => trivial⟩

/-- What an input starts. -/
inductive Started (crates : Crates) (hasDb : Bool) (t : ℕ) :
    Phase → Input → Phase → Work Outcome → Prop
  | connects (addr : Registry.SocketAddr) :
      Started crates hasDb t .absent (.connect addr) (.connected addr) (.done .finished)
  | registers (addr : Registry.SocketAddr) (f : Frame) (now : UnixTime) :
      Started crates hasDb t (.connected addr) (.frame f now) (.registering addr f.payload now)
        (register crates hasDb t now addr f.payload)
  | handles (pk text : String) (f : Frame) (now : UnixTime) (hf : f.payload = some text) :
      Started crates hasDb t (.pumping pk) (.frame f now) (.handling pk text now)
        (pump crates hasDb t now pk text)
  | stays (pk : String) (f : Frame) (now : UnixTime) (hf : f = .ping ∨ f = .pong) :
      Started crates hasDb t (.pumping pk) (.frame f now) (.pumping pk) (.done .finished)
  | closes (pk : String) (f : Frame) (now : UnixTime) (hf : f = .close ∨ f = .failed) :
      Started crates hasDb t (.pumping pk) (.frame f now) (.closing pk) (cleanup pk)

theorem start_cases {t : ℕ} {c c' : Phase} {i : Input} {p : Work Outcome}
    (hs : start crates hasDb t c i = some (c', p)) : Started crates hasDb t c i c' p := by
  cases c with
  | absent =>
    cases i with
    | connect addr => cases hs; exact .connects addr
    | frame f now => cases hs
  | connected addr =>
    cases i with
    | connect addr' => cases hs
    | frame f now => cases hs; exact .registers addr f now
  | pumping pk =>
    cases i with
    | connect addr => cases hs
    | frame f now =>
      cases f with
      | text s => cases hs; exact .handles pk s _ now rfl
      | binary bytes => cases hs; exact .handles pk _ _ now rfl
      | ping => cases hs; exact .stays pk _ now (Or.inl rfl)
      | pong => cases hs; exact .stays pk _ now (Or.inr rfl)
      | close => cases hs; exact .closes pk _ now (Or.inl rfl)
      | failed => cases hs; exact .closes pk _ now (Or.inr rfl)
  | registering => cases hs
  | handling => cases hs
  | closing => cases hs
  | ended => cases hs

theorem start_permitted {t : ℕ} {c c' : Phase} {i : Input} {p : Work Outcome}
    (hs : start crates hasDb t c i = some (c', p)) : p.Always (Permitted crates t c') := by
  cases start_cases hs with
  | connects addr => trivial
  | registers addr f now => exact register_permitted t addr f.payload now
  | handles pk text f now hf => exact pump_permitted t pk text now
  | stays pk f now hf => trivial
  | closes pk f now hf => exact cleanup_always pk

theorem start_closing {t : ℕ} {c : Phase} {i : Input} {pk : String} {p : Work Outcome}
    (hs : start crates hasDb t c i = some (.closing pk, p)) :
    c = .pumping pk ∧ p = cleanup pk := by
  cases start_cases hs with
  | closes pk f now hf => exact ⟨rfl, rfl⟩

theorem start_registering {t : ℕ} {c : Phase} {i : Input} {addr : Registry.SocketAddr}
    {text : Option String} {now : UnixTime} {p : Work Outcome}
    (hs : start crates hasDb t c i = some (.registering addr text now, p)) :
    p = register crates hasDb t now addr text := by
  cases start_cases hs with
  | registers addr f now => rfl

theorem start_handling {t : ℕ} {c : Phase} {i : Input} {pk text : String} {now : UnixTime}
    {p : Work Outcome} (hs : start crates hasDb t c i = some (.handling pk text now, p)) :
    p = pump crates hasDb t now pk text := by
  cases start_cases hs with
  | handles pk text f now hf => rfl

/-- The operations of every program are justified, when those of the handlers are, those that the
other phases permit, and the errors a session reports. -/
theorem start_justified {J : Phase → Prog.History Op Res → Op → Prop} {t : ℕ}
    (hdispatch : ∀ pk text now msg, authenticate crates now pk text = .ok msg →
      (dispatch crates hasDb t pk msg).run.Justified (J (.handling pk text now)) [])
    (hother : ∀ c hist o, (∀ pk text now, c ≠ .handling pk text now) → Permitted crates t c o →
      J c hist o)
    (herror : ∀ c hist e requestId, J c hist (.send t (errorMsg e requestId)))
    {c c' : Phase} {i : Input} {p : Work Outcome}
    (hs : start crates hasDb t c i = some (c', p)) : p.Justified (J c') [] := by
  by_cases hc : ∃ pk text now, c' = .handling pk text now
  · obtain ⟨pk, text, now, rfl⟩ := hc
    rw [start_handling hs]
    have hhandler : (handleClientMessage crates hasDb t now pk text).run.Justified
        (J (.handling pk text now)) [] := by
      rw [handleClientMessage, run_require_bind]
      cases hauth : authenticate crates now pk text with
      | error e => trivial
      | ok msg => exact hdispatch pk text now msg hauth
    refine hhandler.bind fun hist x => ?_
    cases x with
    | ok u => trivial
    | error e => exact ⟨herror _ _ e _, fun _ => trivial⟩
  · refine (start_permitted hs).justified fun hist o ho => hother c' hist o ?_ ho
    intro pk text now heq
    exact hc ⟨pk, text, now, heq⟩

theorem permitted {db₀ : Database.Db ℕ} {tr : List BrokerEvent} {σ : BrokerConfig}
    (h : Run (broker crates hasDb) (fresh db₀) tr σ) {t : ℕ} {c : Phase} {o : Op}
    {k : Res o → Work Outcome} (ht : σ.tasks t = .running c (.call o k)) :
    Permitted crates t c o :=
  (h.always (Q := Permitted crates) (fresh_idle db₀) (fun _ _ _ _ _ hs => start_permitted hs) ht).1

theorem performed_split {db₀ : Database.Db ℕ} {tr₁ tr₂ : List BrokerEvent} {σ : BrokerConfig} {t : ℕ}
    {o : Op} {r : Res o}
    (h : Run (broker crates hasDb) (fresh db₀) (tr₂ ++ .performed t o r :: tr₁) σ) :
    ∃ σ₁ c k env s', Run (broker crates hasDb) (fresh db₀) tr₁ σ₁ ∧
      σ₁.tasks t = .running c (.call o k) ∧
      Broker.exec crates t o env σ₁.shared = some (r, s') := by
  obtain ⟨σ₁, σ₂, h₁, hstep, -⟩ := h.split
  rcases hstep.cases with ⟨u, i, c, c', p, he, -, -, -⟩ |
    ⟨u, c, o', k, env, r', s', he, ht, hx, -⟩ | ⟨x, s', he, -, -⟩
  · cases he
  · cases he
    exact ⟨σ₁, c, k, env, s', h₁, ht, hx⟩
  · cases he

end HashedBroker.Sessions
