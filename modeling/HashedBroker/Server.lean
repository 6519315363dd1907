import HashedBroker.ProtocolDecoding
import HashedBroker.Broker

/-!
# Sessions and handlers

`server.rs` with the parts of `presence.rs`, `relay.rs` and `signaling.rs` that write to channels,
as programs of atomic operations. Nothing here sees the shared state: a program asks for it one
operation at a time.
-/
namespace HashedBroker.Server
open AtomicPrograms Protocol Database

abbrev Work (α : Type) := Prog Op Res α

abbrev Handler (α : Type) := ExceptT BrokerError (Prog Op Res) α

def perform (o : Op) : Work (Res o) := Prog.perform o

def query {α : Type} (q : Query α) : Work (Except BrokerError α) :=
  q.run.lift Op.query fun _ r => r

def registry {α : Type} (p : Registry.Method α) : Work α := p.lift Op.registry fun _ r => r

def presence {α : Type} (p : Presence.Method α) : Work α := p.lift Op.presence fun _ r => r

def relay {α : Type} (p : Relay.Method α) : Work α := p.lift Op.relay fun _ r => r

def signaling {α : Type} (p : Signaling.Method α) : Work α := p.lift Op.signaling fun _ r => r

def metric (u : MetricUpdate) : Work Unit := perform (.metric u)

/-- Send and ignore a closed channel. -/
def send (channel : ℕ) (msg : ServerMessage) : Work Unit := do
  let _ ← perform (.send channel msg)
  pure ()

/-- A part of a handler whose result is the handler's own when it fails. -/
def attempt {α : Type} (p : Work (Except BrokerError α)) : Handler α := ExceptT.mk p

def require {α : Type} (x : Except BrokerError α) : Handler α := ExceptT.mk (pure x)

def orElse {α : Type} (x : Option α) (e : BrokerError) : Handler α := require (x.elim (.error e) .ok)

/-- `registry::try_send`. -/
def trySend (channel : ℕ) (msg : ServerMessage) : Handler Unit :=
  attempt do
    let sent ← perform (.send channel msg)
    pure (if sent then .ok () else .error .peerOffline)

def errorMsg (e : BrokerError) (requestId : Option String) : ServerMessage :=
  .error e.code e.message requestId

/-! ## Presence, relay and signaling -/

def broadcastEach (payload : ServerMessage) : List String → Work Unit
  | [] => pure ()
  | w :: ws => do
    match ← registry (Registry.get w) with
    | some peer => send peer.tx payload
    | none => pure ()
    broadcastEach payload ws

/-- `PresenceManager::broadcast`. -/
def broadcast (pubkey : String) (online : Bool) : Work Unit := do
  match ← perform (.presence (.watchers pubkey)) with
  | none => pure ()
  | some watchers => broadcastEach (.presenceUpdate pubkey online) watchers

variable (crates : Crates)

/-- `RelayManager::request`. -/
def request (initiator responder : String) : Handler Uuid := do
  let peer ← ExceptT.lift (registry (Registry.get responder))
  let recipient ← orElse peer .peerOffline
  let id ← ExceptT.lift (perform (.relay (.insertSession initiator responder)))
  trySend recipient.tx (.relayOffer (crates.uuidText id) initiator)
  pure id

/-- `RelayManager::accept`. -/
def accept (responder : String) (sessionId : Uuid) : Handler Unit := do
  let initiator ← attempt (perform (.relay (.promote sessionId responder)))
  let initPeer ← ExceptT.lift (registry (Registry.get initiator))
  let initPeer ← orElse initPeer .peerOffline
  let respPeer ← ExceptT.lift (registry (Registry.get responder))
  let respPeer ← orElse respPeer .peerOffline
  trySend initPeer.tx (.relaySessionEstablished (crates.uuidText sessionId) responder none)
  trySend respPeer.tx (.relaySessionEstablished (crates.uuidText sessionId) initiator none)

/-- The length of what a base64 text decodes to; the error's text starts with `label`. -/
def decodedLen (label data : String) : Except BrokerError ℕ :=
  match crates.base64Decode data with
  | .ok bytes => .ok bytes.length
  | .error e => .error (.malformed (label ++ ": " ++ e))

def checkSize (size max : ℕ) : Except BrokerError Unit :=
  if max < size then .error (.payloadTooLarge size max) else .ok ()

/-- `RelayManager::forward`. -/
def forward (senderPubkey : String) (sessionId : Uuid) (data : String) : Handler ℕ := do
  let entry ← ExceptT.lift (perform (.relay (.getSession sessionId)))
  let session ← orElse entry .relaySessionNotFound
  let other ← require (session.other senderPubkey)
  let len ← require (decodedLen crates "relay base64" data)
  require (checkSize len relayMaxFrame)
  attempt (relay (Relay.consumeQuota senderPubkey len))
  let peer ← ExceptT.lift (registry (Registry.get other))
  let recipient ← orElse peer .peerOffline
  trySend recipient.tx (.relayData (crates.uuidText sessionId) senderPubkey data)
  pure len

/-- `signaling::relay_signal`. -/
def relaySignal (sender recipient payload : String) : Handler Unit := do
  attempt (signaling (Signaling.check sender))
  let len ← require (decodedLen crates "base64" payload)
  require (checkSize len signalingMaxPayload)
  let peer ← ExceptT.lift (registry (Registry.get recipient))
  let recipient ← orElse peer .peerOffline
  let timestamp ← ExceptT.lift (perform .clock)
  trySend recipient.tx (.signal sender payload timestamp)

/-! ## The handlers of `handle_client_message` -/

variable (hasDb : Bool) (tx : ℕ)

/-- The kind stored for a peer; a failing query counts as none. -/
def resolvedKind (pubkey : String) : Work (Option IdentityKind) := do
  if hasDb then
    let kind ← query (peerKind pubkey)
    pure ((kind.toOption.getD none).bind IdentityKind.parse)
  else pure none

def onRegister (sessionPubkey : String) (requestId : Option String) : Work Unit := do
  let reflected ← registry (Registry.get sessionPubkey)
  let claimed ← registry (Registry.get sessionPubkey)
  send tx (.registered sessionPubkey ((reflected.map (·.reflected)).getD "")
    (claimed.bind (·.handle)).isSome requestId)

def onLookupPeer (targetPubkey : String) (requestId : Option String) : Work Unit := do
  let peer ← registry (Registry.get targetPubkey)
  let kind ← resolvedKind hasDb targetPubkey
  match peer with
  | some p =>
    send tx (.peerInfo p.pubkey p.handle p.addresses (some p.reflected) true kind requestId)
  | none => send tx (errorMsg .peerNotFound requestId)

def onLookupHandle (targetHandle : String) (requestId : Option String) : Handler Unit := do
  let owner ←
    if hasDb then attempt (query (Handles.resolve targetHandle))
    else ExceptT.lift (registry (Registry.resolveHandle targetHandle))
  match owner with
  | none => ExceptT.lift (send tx (errorMsg .peerNotFound requestId))
  | some pk =>
    let peer ← ExceptT.lift (registry (Registry.get pk))
    let kind ← ExceptT.lift (resolvedKind hasDb pk)
    ExceptT.lift (send tx (.peerInfo pk (some targetHandle)
      ((peer.map (·.addresses)).getD default) (peer.map (·.reflected)) peer.isSome kind requestId))

def onSignal (sessionPubkey recipient payload : String) : Handler Unit :=
  attempt do
    match ← (relaySignal crates sessionPubkey recipient payload).run with
    | .ok () =>
      metric .signalingMessagesTotal
      pure (.ok ())
    | .error e =>
      metric (.signalingRejectedTotal e.code)
      pure (.error e)

def sendUpdates : List (String × Bool) → Work Unit
  | [] => pure ()
  | (pk, online) :: rest => do
    send tx (.presenceUpdate pk online)
    sendUpdates rest

def onSubscribePresence (sessionPubkey : String) (peers : List String)
    (requestId : Option String) : Work Unit := do
  presence (Presence.subscribe sessionPubkey peers)
  metric (.presenceSubscriptions peers.length)
  let online ← registry (Registry.onlineSet peers)
  send tx (.subscribePresenceAck peers requestId)
  sendUpdates tx online

def onUnsubscribePresence (sessionPubkey : String) (peers : List String) : Work Unit := do
  presence (Presence.unsubscribe sessionPubkey peers)
  metric (.presenceSubscriptions (-peers.length))

def onRequestRelay (sessionPubkey peer : String) (requestId : Option String) : Handler Unit := do
  let id ← request crates sessionPubkey peer
  ExceptT.lift (metric .relaySessionsTotal)
  ExceptT.lift (send tx (.relaySessionEstablished (crates.uuidText id) peer requestId))

def onAcceptRelay (sessionPubkey sessionId : String) : Handler Unit := do
  let id ← require (Relay.parseSessionId crates sessionId)
  accept crates sessionPubkey id

def onRelay (sessionPubkey sessionId data : String) : Handler Unit := do
  let id ← require (Relay.parseSessionId crates sessionId)
  let bytes ← forward crates sessionPubkey id data
  ExceptT.lift (metric (.relayBytesTotal bytes))

def onTeamAnnounce (sessionPubkey : String) (teamId : Option String)
    (teamName adminPubkey adminSignature : String) (requestId : Option String) :
    Handler Unit := do
  if hasDb then
    let parsed ← require (match teamId with
      | some t => (Teams.parseTeamId crates t).map some
      | none => .ok none)
    let id ← attempt (query
      (Teams.announce crates sessionPubkey parsed teamName adminPubkey adminSignature))
    ExceptT.lift (metric .teamAnnouncesTotal)
    ExceptT.lift (send tx (.teamAnnounced (crates.uuidText id) requestId))
  else throw (.internal "teams require Postgres")

def onlineMembers : List TeamMemberRow → Work (List TeamMember)
  | [] => pure []
  | m :: ms => do
    let online ← registry (Registry.isOnline m.memberPubkey)
    let rest ← onlineMembers ms
    pure (⟨m.memberPubkey, online, m.joinedAt⟩ :: rest)

def onTeamLookup (teamId : String) (requestId : Option String) : Handler Unit := do
  if hasDb then
    let id ← require (Teams.parseTeamId crates teamId)
    let members ← attempt (query (Teams.members id))
    let out ← ExceptT.lift (onlineMembers members)
    ExceptT.lift (send tx (.teamMembers teamId out requestId))
  else throw (.internal "teams require Postgres")

/-- What the broker does with a message that has passed the checks. -/
def dispatch (sessionPubkey : String) : ClientMessage → Handler Unit
  | .register _ _ _ _ _ _ requestId => ExceptT.lift (onRegister tx sessionPubkey requestId)
  | .lookupPeer _ targetPubkey _ _ requestId =>
    ExceptT.lift (onLookupPeer hasDb tx targetPubkey requestId)
  | .lookupHandle _ targetHandle _ _ requestId => onLookupHandle hasDb tx targetHandle requestId
  | .signal _ recipient payload _ _ _ => onSignal crates sessionPubkey recipient payload
  | .subscribePresence _ peers _ _ requestId =>
    ExceptT.lift (onSubscribePresence tx sessionPubkey peers requestId)
  | .unsubscribePresence _ peers _ _ _ =>
    ExceptT.lift (onUnsubscribePresence sessionPubkey peers)
  | .requestRelay _ peer _ _ requestId => onRequestRelay crates tx sessionPubkey peer requestId
  | .acceptRelay _ sessionId _ _ _ => onAcceptRelay crates sessionPubkey sessionId
  | .relay _ sessionId data _ _ => onRelay crates sessionPubkey sessionId data
  | .teamAnnounce _ teamId teamName adminPubkey adminSignature _ _ requestId =>
    onTeamAnnounce crates hasDb tx sessionPubkey teamId teamName adminPubkey adminSignature
      requestId
  | .teamLookup _ teamId _ _ requestId => onTeamLookup crates hasDb tx teamId requestId
  | .ping _ timestamp _ => ExceptT.lift (send tx (.pong timestamp))

/-- `serde_json::from_str`, with the broker's error. -/
def decode (label text : String) : Except BrokerError ClientMessage :=
  match ClientMessage.fromStr crates.finite text with
  | some msg => .ok msg
  | none => .error (.malformed (label ++ ": " ++ crates.jsonError text))

/-- The checks a frame has to pass on a session: it parses, it is signed, and by the session's
key. -/
def authenticate (now : UnixTime) (sessionPubkey text : String) : Except BrokerError ClientMessage := do
  let msg ← decode crates "parse" text
  let _ ← Auth.verifySignedMessage crates now msg
  if msg.pubkey ≠ sessionPubkey then
    throw (.malformed "message pubkey doesn't match session pubkey")
  else pure msg

def handleClientMessage (now : UnixTime) (sessionPubkey text : String) : Handler Unit := do
  let msg ← require (authenticate crates now sessionPubkey text)
  dispatch crates hasDb tx sessionPubkey msg

/-- The `request_id` of a text, if it is JSON and has one; a repeated name counts last. -/
def parseRequestId (text : String) : Option String :=
  match JsonText.parse crates.finite text with
  | some (.obj ms) => (ms.reverse.lookup "request_id").bind asString
  | _ => none

/-- What is left of `serve_socket` when one of its parts has run. -/
inductive Outcome
  | rejected
  | registered (pubkey : String)
  | finished

/-- One turn of the loop of `pump_messages`. -/
def pump (now : UnixTime) (sessionPubkey text : String) : Work Outcome := do
  match ← (handleClientMessage crates hasDb tx now sessionPubkey text).run with
  | .ok () => pure .finished
  | .error e =>
    send tx (errorMsg e (parseRequestId crates text))
    pure .finished

/-! ## Registration and closing -/

/-- The claim a register message asks for, counted by its outcome. -/
def claimRequested (pubkey handle : String) : Work Bool := do
  match ← query (Handles.claim crates pubkey handle) with
  | .ok () =>
    metric (.handleClaimsTotal "ok")
    pure true
  | .error .handleTaken | .error .handleAlreadyOwned =>
    metric (.handleClaimsTotal "conflict")
    pure false
  | .error _ =>
    metric (.handleClaimsTotal "error")
    pure false

/-- The database part of a registration: whether the requested handle was claimed. -/
def recordPeer (pubkey : String) (handle : Option String) (kind : IdentityKind)
    (requestId : Option String) : Work Bool := do
  if hasDb then
    let _ ← query (upsertPeerWithKind pubkey kind.asStr)
    match handle with
    | some h => claimRequested crates pubkey h
    | none => pure false
  else
    match handle with
    | some _ =>
      send tx (errorMsg (.internal "handle claims require Postgres") requestId)
      pure false
    | none => pure false

/-- From a verified register message to the loop. -/
def enter (addr : Registry.SocketAddr) (pubkey : String) (handle : Option String)
    (addresses : PeerAddresses) (kind : Option IdentityKind) (requestId : Option String) :
    Work Outcome := do
  let handleClaimed ← recordPeer crates hasDb tx pubkey handle (kind.getD .user) requestId
  registry (Registry.insert ⟨pubkey, if handleClaimed then handle else none, addresses, addr, tx⟩)
  metric (.connectedPeers 1)
  metric .registrationsTotal
  send tx (.registered pubkey addr handleClaimed requestId)
  broadcast pubkey true
  pure (.registered pubkey)

/-- What a first frame has to be: a register message, signed. An error that is not reported to the
peer is `none`. -/
def authenticateRegister (now : UnixTime) (text : String) :
    Except (Option ServerMessage) ClientMessage :=
  match decode crates "first message parse" text with
  | .error _ => .error none
  | .ok msg =>
    match msg with
    | .register .. =>
      match Auth.verifySignedMessage crates now msg with
      | .error e => .error (some (errorMsg e msg.requestId))
      | .ok _ => .ok msg
    | _ =>
      .error (some (errorMsg (.malformed "first message must be `register`") msg.requestId))

def reject (msg : Option ServerMessage) : Work Outcome := do
  match msg with
  | some m => send tx m
  | none => pure ()
  pure .rejected

/-- The registration phase of `serve_socket`, from the text of the first frame; `none` is a frame
without text. -/
def register (now : UnixTime) (addr : Registry.SocketAddr) (text : Option String) :
    Work Outcome :=
  match text with
  | none => reject tx (some (errorMsg (.malformed "first message must be JSON text") none))
  | some t =>
    match authenticateRegister crates now t with
    | .ok (.register pubkey handle addresses kind _ _ requestId) =>
      enter crates hasDb tx addr pubkey handle addresses kind requestId
    | .ok _ => reject tx none
    | .error msg => reject tx msg

/-- The end of `serve_socket`. -/
def cleanup (pubkey : String) : Work Outcome := do
  let _ ← registry (Registry.remove pubkey)
  metric (.connectedPeers (-1))
  presence (Presence.clearSubscriber pubkey)
  relay (Relay.dropSessionsFor pubkey)
  broadcast pubkey false
  pure .finished

end HashedBroker.Server
