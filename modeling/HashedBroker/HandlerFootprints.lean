import HashedBroker.SessionOps

/-!
# What each handler may do

Each arm of `handle_client_message` has its own footprint: the tables it touches, the metrics it
moves and the messages it sends. No handler does more than its footprint says, whatever it is
answered.
-/
namespace HashedBroker.Server
open AtomicPrograms Protocol Database

/-- The operations of the handler of a message, by their kinds; `tx` is the session's channel. -/
def Footprint (tx : ℕ) : ClientMessage → Op → Prop
  | .register .. => fun o => match o with
    | .registry (.getPeer _) => True
    | .send c (.registered ..) => c = tx
    | _ => False
  | .lookupPeer .. => fun o => match o with
    | .registry (.getPeer _) | .query (.peerKind _) => True
    | .send c (.peerInfo ..) | .send c (.error ..) => c = tx
    | _ => False
  | .lookupHandle .. => fun o => match o with
    | .registry (.getHandle _) | .query (.resolveHandle _) => True
    | .registry (.getPeer _) | .query (.peerKind _) => True
    | .send c (.peerInfo ..) | .send c (.error ..) => c = tx
    | _ => False
  | .signal .. => fun o => match o with
    | .signaling _ | .registry (.getPeer _) | .clock | .send _ (.signal ..) => True
    | .metric .signalingMessagesTotal | .metric (.signalingRejectedTotal _) => True
    | _ => False
  | .subscribePresence .. => fun o => match o with
    | .presence (.entry _) | .presence (.insert ..) | .presence (.watch ..) => True
    | .presence .release | .metric (.presenceSubscriptions _) => True
    | .registry (.containsPeer _) => True
    | .send c (.subscribePresenceAck ..) | .send c (.presenceUpdate ..) => c = tx
    | _ => False
  | .unsubscribePresence .. => fun o => match o with
    | .presence (.getMut _) | .presence (.remove ..) | .presence (.unwatch ..) => True
    | .presence (.dropWatchers _) | .presence .release => True
    | .metric (.presenceSubscriptions _) => True
    | _ => False
  | .requestRelay .. => fun o => match o with
    | .registry (.getPeer _) | .relay (.insertSession ..) | .send _ (.relayOffer ..) => True
    | .metric .relaySessionsTotal => True
    | .send c (.relaySessionEstablished ..) => c = tx
    | _ => False
  | .acceptRelay .. => fun o => match o with
    | .relay (.promote ..) | .registry (.getPeer _) => True
    | .send _ (.relaySessionEstablished ..) => True
    | _ => False
  | .relay .. => fun o => match o with
    | .relay (.getSession _) | .relay (.quotaEntry _) | .relay (.consume ..) => True
    | .registry (.getPeer _) | .send _ (.relayData ..) | .metric (.relayBytesTotal _) => True
    | _ => False
  | .teamAnnounce .. => fun o => match o with
    | .query (.upsertTeam ..) | .query (.insertTeam ..) => True
    | .query (.upsertPeer _) | .query (.insertTeamMember ..) => True
    | .metric .teamAnnouncesTotal => True
    | .send c (.teamAnnounced ..) => c = tx
    | _ => False
  | .teamLookup .. => fun o => match o with
    | .query (.teamMembers _) | .registry (.containsPeer _) => True
    | .send c (.teamMembers ..) => c = tx
    | _ => False
  | .ping .. => fun o => match o with
    | .send c (.pong _) => c = tx
    | _ => False

section Handlers

variable {crates : Crates} {hasDb : Bool} {tx : ℕ} {pk : String} {α : Type} {Q : Op → Prop}

theorem request_does (responder : String) (hget : ∀ target, Q (.registry (.getPeer target)))
    (hinsert : Q (.relay (.insertSession pk responder)))
    (hsend : ∀ c id, Q (.send c (.relayOffer id pk))) :
    (request crates pk responder).run.Always Q := by
  refine always_lift_bind (get_always responder (hget _)) fun peer => ?_
  refine always_orElse_bind fun recipient _ => ?_
  refine always_lift_bind ((always_perform _).mpr hinsert) fun id => ?_
  exact always_trySend_bind (hsend _ _) fun _ => trivial

theorem forward_does (id : Uuid) (data : String)
    (hrelay : Q (.relay (.getSession id)) ∧ Q (.relay (.quotaEntry pk)) ∧
      ∀ bytes, Q (.relay (.consume pk bytes)))
    (hget : ∀ target, Q (.registry (.getPeer target)))
    (hsend : ∀ c id, Q (.send c (.relayData id pk data))) :
    (forward crates pk id data).run.Always Q := by
  refine always_lift_bind ((always_perform _).mpr hrelay.1) fun entry => ?_
  refine always_orElse_bind fun session _ => always_require_bind fun other _ => ?_
  refine always_require_bind fun len _ => always_require_bind fun _ _ => ?_
  have hconsume : (relay (Relay.consumeQuota pk len)).Always Q :=
    Prog.Always.lift ⟨hrelay.2.1, fun _ => ⟨hrelay.2.2 len, fun _ => trivial⟩⟩
  refine always_attempt_bind hconsume fun _ => ?_
  refine always_lift_bind (get_always other (hget _)) fun peer => ?_
  refine always_orElse_bind fun recipient _ => ?_
  exact always_trySend_bind (hsend _ _) fun _ => trivial

theorem onLookupHandle_does (target : String) (requestId : Option String)
    (howner : Q (.registry (.getHandle target)) ∧ Q (.query (.resolveHandle target)))
    (hget : ∀ pk, Q (.registry (.getPeer pk))) (hkind : ∀ pk, Q (.query (.peerKind pk)))
    (hinfo : ∀ pk handle addresses reflected online kind,
      Q (.send tx (.peerInfo pk handle addresses reflected online kind requestId)))
    (herror : Q (.send tx (errorMsg .peerNotFound requestId))) :
    (onLookupHandle hasDb tx target requestId).run.Always Q := by
  have hrest : ∀ owner, (answerOwner hasDb tx target requestId owner).run.Always Q := by
    intro owner
    cases owner with
    | none => exact always_lift (always_send herror)
    | some pk =>
      refine always_lift_bind (get_always pk (hget _)) fun peer => ?_
      refine always_lift_bind (resolvedKind_always hasDb pk (hkind _)) fun kind => ?_
      exact always_lift (always_send (hinfo _ _ _ _ _ _))
  rw [onLookupHandle_bind]
  cases hasDb with
  | false =>
    exact always_lift_bind (Prog.Always.lift ((Prog.always_perform _).mpr howner.1)) hrest
  | true => exact always_attempt_bind (Prog.Always.lift ⟨howner.2, fun _ => trivial⟩) hrest

theorem onTeamLookup_does (teamId : String) (requestId : Option String)
    (hmembers : ∀ id, Q (.query (.teamMembers id)))
    (honline : ∀ pk, Q (.registry (.containsPeer pk)))
    (hsend : ∀ members, Q (.send tx (.teamMembers teamId members requestId))) :
    (onTeamLookup crates hasDb tx teamId requestId).run.Always Q := by
  have hmarked : ∀ rows, (onlineMembers rows).Always Q := by
    intro rows
    induction rows with
    | nil => trivial
    | cons m ms ih =>
      refine Prog.Always.bind (Prog.Always.lift ((Prog.always_perform _).mpr (honline _))) ?_
      exact fun _ => ih.bind fun _ => trivial
  cases hasDb with
  | false => trivial
  | true =>
    refine always_require_bind fun id _ => ?_
    refine always_attempt_bind (Prog.Always.lift ⟨hmembers id, fun _ => trivial⟩) fun rows => ?_
    exact always_lift_bind (hmarked rows) fun out => always_lift (always_send (hsend out))

theorem dispatch_footprint (msg : ClientMessage) :
    (dispatch crates hasDb tx pk msg).run.Always (Footprint tx msg) := by
  cases msg with
  | register =>
    refine always_lift ((get_always _ trivial).bind fun _ => ?_)
    exact (get_always _ trivial).bind fun _ => always_send rfl
  | lookupPeer pubkey target timestamp signature requestId =>
    refine always_lift ((get_always _ trivial).bind fun peer => ?_)
    refine (resolvedKind_always hasDb _ trivial).bind fun kind => ?_
    cases peer with
    | some p => exact always_send rfl
    | none => exact always_send rfl
  | lookupHandle =>
    exact onLookupHandle_does _ _ ⟨trivial, trivial⟩ (fun _ => trivial) (fun _ => trivial)
      (fun _ _ _ _ _ _ => rfl) rfl
  | signal pubkey recipient payload timestamp signature requestId =>
    have hrelay : (relaySignal crates pk recipient payload).run.Always
        (Footprint tx (.signal pubkey recipient payload timestamp signature requestId)) := by
      refine always_attempt_bind (Prog.always_lift_of (fun _ => trivial) _) fun _ => ?_
      refine always_require_bind fun len _ => always_require_bind fun _ _ => ?_
      refine always_lift_bind (get_always recipient trivial) fun peer => ?_
      refine always_orElse_bind fun found _ => ?_
      refine always_lift_bind ((always_perform _).mpr trivial) fun timestamp => ?_
      exact always_trySend trivial
    refine hrelay.bind fun x => ?_
    cases x with
    | ok u => exact ⟨trivial, fun _ => trivial⟩
    | error e => exact ⟨trivial, fun _ => trivial⟩
  | subscribePresence pubkey peers timestamp signature requestId =>
    have hsub : (presence (Presence.subscribe pk peers)).Always
        (Footprint tx (.subscribePresence pubkey peers timestamp signature requestId)) :=
      Prog.Always.lift (subscribe_always trivial (fun _ => trivial) (fun _ => trivial) trivial _)
    refine always_lift (hsub.bind fun _ => (always_metric trivial).bind fun _ => ?_)
    exact report_always (fun _ => trivial) rfl fun _ _ => rfl
  | unsubscribePresence pubkey peers timestamp signature requestId =>
    have hunsub : (presence (Presence.unsubscribe pk peers)).Always
        (Footprint tx (.unsubscribePresence pubkey peers timestamp signature requestId)) :=
      Prog.Always.lift (unsubscribe_always trivial (fun _ => trivial) (fun _ => trivial)
        (fun _ => trivial) trivial _)
    exact always_lift (hunsub.bind fun _ => always_metric trivial)
  | requestRelay =>
    refine Prog.Always.except_bind
      (request_does _ (fun _ => trivial) trivial fun _ _ => trivial) fun id => ?_
    exact always_lift_bind (always_metric trivial) fun _ => always_lift (always_send rfl)
  | acceptRelay =>
    refine always_require_bind fun id _ => ?_
    refine always_attempt_bind ((always_perform _).mpr trivial) fun initiator => ?_
    refine always_lift_bind (get_always _ trivial) fun peer => ?_
    refine always_orElse_bind fun initPeer _ => ?_
    refine always_lift_bind (get_always _ trivial) fun peer => ?_
    refine always_orElse_bind fun respPeer _ => ?_
    exact always_trySend_bind trivial fun _ => always_trySend trivial
  | relay =>
    refine always_require_bind fun id _ => ?_
    refine Prog.Always.except_bind (forward_does id _ ⟨trivial, trivial, fun _ => trivial⟩
      (fun _ => trivial) fun _ _ => trivial) fun len => ?_
    exact always_lift (always_metric trivial)
  | teamAnnounce pubkey teamId teamName adminPubkey adminSignature timestamp signature requestId =>
    cases hasDb with
    | false => trivial
    | true =>
      refine always_require_bind fun parsed _ => ?_
      refine always_attempt_bind (Prog.Always.lift ((Teams.announce_always crates pk _ _ _ _).mono
        fun s hs => ?_)) fun id => ?_
      · rcases hs with ⟨id, -, rfl⟩ | ⟨-, rfl⟩ | rfl | ⟨id, rfl⟩ <;> trivial
      · exact always_lift_bind (always_metric trivial) fun _ => always_lift (always_send rfl)
  | teamLookup =>
    exact onTeamLookup_does _ _ (fun _ => trivial) (fun _ => trivial) fun _ => rfl
  | ping => exact always_lift (always_send rfl)

end Handlers

end HashedBroker.Server
