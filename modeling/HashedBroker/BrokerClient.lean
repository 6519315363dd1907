import HashedBroker.KeyedTables
import HashedBroker.ClientSigning

/-!
# The connections and requests of the TypeScript client

`BrokerClient` of `client.ts`: `connect`, `close`, the request methods, the handlers of the sockets
and the timers. JavaScript runs a callback to its end, so a step is one callback: a call of a method
up to its `await`, what is left of the call when the signature is there, a timer, an event of a
socket. The sockets are WebSockets: they open at most once and close at most once, and the handlers
of a socket stay attached to it. The listeners for pongs are left out.
-/
namespace HashedBroker.BrokerClient
open KeyedTables JsStringify Protocol ClientSigning

inductive ReadyState
  | connecting
  | opened
  | closing
  | closed
  deriving DecidableEq

/-- What `Date.now()` reads, in milliseconds. -/
structure TimeValue where
  ms : ℤ
  range : |ms| ≤ 8640000000000000

def TimeValue.nowSecs (now : TimeValue) : ℤ := now.ms / 1000

def digit36 (d : ℕ) : Char := if d < 10 then Char.ofNat (48 + d) else Char.ofNat (87 + d)

/-- `Number.prototype.toString(36)` of an integer. -/
def toString36 (n : ℤ) : String :=
  let digits := if n = 0 then ['0'] else ((Nat.digits 36 n.natAbs).map digit36).reverse
  String.ofList (if n < 0 then '-' :: digits else digits)

def requestIdText (now : TimeValue) (n : ℕ) : String :=
  "req-" ++ toString36 now.ms ++ "-" ++ toString n

/-- The type of reply a request waits for; the other methods do not wait for one and their message
has no `request_id`. -/
def expectedType : Request → Option String
  | .register .. => some "registered"
  | .lookupPeer .. => some "peer_info"
  | .lookupHandle .. => some "peer_info"
  | .subscribePresence .. => some "subscribe_presence_ack"
  | .requestRelay .. => some "relay_session_established"
  | .announceTeam .. => some "team_announced"
  | .lookupTeam .. => some "team_members"
  | _ => none

def messageType : ServerMessage → String
  | .registered .. => "registered"
  | .peerInfo .. => "peer_info"
  | .signal .. => "signal"
  | .presenceUpdate .. => "presence_update"
  | .subscribePresenceAck .. => "subscribe_presence_ack"
  | .relayOffer .. => "relay_offer"
  | .relaySessionEstablished .. => "relay_session_established"
  | .relayData .. => "relay_data"
  | .teamAnnounced .. => "team_announced"
  | .teamMembers .. => "team_members"
  | .pong .. => "pong"
  | .error .. => "error"

/-- One call of a request method: its message is built at once, with the time and the request id of
the call. -/
structure Call where
  request : Request
  timestamp : ℤ
  requestId : Option String

structure PendingRequest where
  call : ℕ
  expectedType : String
  deriving DecidableEq

/-- What a promise is rejected with. -/
inductive Failure
  | websocketNotOpen
  | notSigned
  | notSent
  | timedOut
  | websocketClosed
  | brokerError (code message : String)
  | unexpectedResponse (type : String)
  deriving DecidableEq

/-- How the promise of a call is settled; a method that waits for no reply resolves to nothing. -/
inductive Result
  | resolved (reply : Option ServerMessage)
  | rejected (failure : Failure)
  deriving DecidableEq

/-- How the promise of a `connect()` that has created a socket is settled. -/
inductive Connection
  | resolved
  | rejected
  deriving DecidableEq

/-- The fields of the client, and around them what they refer to: sockets and calls by their number,
the promises, the timers, the calls that await their signature. `sentOn` is the socket a call's
message was handed to, `outbox` what a socket has transmitted, the newest first, and `dispatched`
the messages that went to the listeners of their type. -/
structure Client where
  ws : Option ℕ
  connectedResolver : Option ℕ
  connectedRejector : Option ℕ
  pending : Table String PendingRequest
  nextRequestId : ℕ
  socketCount : ℕ
  readyState : ℕ → ReadyState
  connections : ℕ → Option Connection
  outbox : ℕ → List String
  callCount : ℕ
  calls : ℕ → Option Call
  signing : ℕ → Bool
  timers : ℕ → Bool
  sentOn : ℕ → Option ℕ
  results : ℕ → Option Result
  dispatched : List ServerMessage

/-- The client's key: its public text, and the signature of given bytes. -/
structure Options where
  pubkeyHex : String
  sign : ByteArray → String

inductive Action
  | connect
  | close
  | call (request : Request) (nowSecs now : TimeValue)
  | signed (call : ℕ)
  | notSigned (call : ℕ)
  | timeout (call : ℕ)
  | opened (socket : ℕ)
  | errored (socket : ℕ)
  | closed (socket : ℕ)
  | message (socket : ℕ) (msg : ServerMessage)

def Action.ofSockets : Action → Bool
  | .connect | .close | .opened _ | .errored _ => true
  | _ => false

namespace Client

def new : Client where
  ws := none
  connectedResolver := none
  connectedRejector := none
  pending := ∅
  nextRequestId := 0
  socketCount := 0
  readyState _ := .connecting
  connections _ := none
  outbox _ := []
  callCount := 0
  calls _ := none
  signing _ := false
  timers _ := false
  sentOn _ := none
  results _ := none
  dispatched := []

def settleConnection (c : Client) (socket : ℕ) (x : Connection) : Client :=
  if c.connections socket = none then
    { c with connections := Function.update c.connections socket (some x) }
  else c

def settleCall (c : Client) (call : ℕ) (x : Result) : Client :=
  if c.results call = none then { c with results := Function.update c.results call (some x) }
  else c

theorem settleConnection_eq (c : Client) (v : ℕ) (x : Connection) :
    ∃ connections, c.settleConnection v x = { c with connections := connections } ∧
      ∀ w, connections w = if v = w ∧ c.connections w = none then some x else c.connections w := by
  unfold settleConnection
  split_ifs with hnone
  · refine ⟨_, rfl, fun w => ?_⟩
    by_cases hw : v = w
    · subst hw
      rw [Function.update_self, if_pos ⟨rfl, hnone⟩]
    · rw [Function.update_of_ne (Ne.symm hw), if_neg fun h => hw h.1]
  · refine ⟨c.connections, rfl, fun w => ?_⟩
    rw [if_neg]
    rintro ⟨rfl, hw⟩
    exact hnone hw

theorem results_settleCall (c : Client) (i j : ℕ) (x : Result) :
    (c.settleCall i x).results j =
      if j = i ∧ c.results i = none then some x else c.results j := by
  unfold settleCall
  split_ifs with hnone hj hj
  · rw [hj.1]
    exact Function.update_self i (some x) c.results
  · refine Function.update_of_ne (fun heq => hj ⟨heq, hnone⟩) _ _
  · exact absurd hj.2 hnone
  · rfl

theorem settleCall_eq (c : Client) (i : ℕ) (x : Result) :
    ∃ results, c.settleCall i x = { c with results := results } := by
  unfold settleCall
  split_ifs
  · exact ⟨_, rfl⟩
  · exact ⟨c.results, rfl⟩

/-- `this.ws && this.ws.readyState === STATE_OPEN` -/
def isOpen (c : Client) : Bool :=
  match c.ws with
  | some w => c.readyState w = .opened
  | none => false

def connect (c : Client) : Client :=
  if c.isOpen then c
  else
    let w := c.socketCount
    { c with
      socketCount := w + 1
      readyState := Function.update c.readyState w .connecting
      ws := some w
      connectedResolver := some w
      connectedRejector := some w }

/-- `WebSocket.close`: nothing changes on a socket that is closing or closed. -/
def closeSocket (c : Client) (w : ℕ) : Client :=
  match c.readyState w with
  | .connecting | .opened => { c with readyState := Function.update c.readyState w .closing }
  | _ => c

def close (c : Client) : Client :=
  match c.ws with
  | some w => { c.closeSocket w with ws := none }
  | none => c

/-- A method builds its message; a request id is minted for those that wait for a reply. -/
def build (c : Client) (request : Request) (nowSecs now : TimeValue) : Client :=
  let waits := (expectedType request).isSome
  let n := c.nextRequestId + 1
  { c with
    nextRequestId := if waits then n else c.nextRequestId
    callCount := c.callCount + 1
    calls := Function.update c.calls c.callCount (some ⟨request, nowSecs.nowSecs,
      if waits then some (requestIdText now n) else none⟩) }

/-- A call up to the `await` of its signature. -/
def call (c : Client) (request : Request) (nowSecs now : TimeValue) : Client :=
  if c.isOpen then
    { c.build request nowSecs now with signing := Function.update c.signing c.callCount true }
  else (c.build request nowSecs now).settleCall c.callCount (.rejected .websocketNotOpen)

/-- The text of a call's signed message. A message is at most three levels deep. -/
def frameText (opts : Options) (x : Call) : Option String := do
  let signed ← signMessage opts.sign 4
    (x.request.message opts.pubkeyHex x.timestamp (x.requestId.getD ""))
  stringify identity 4 signed

def signedMembers (opts : Options) (x : Call) : List (String × JsonText.Json) :=
  x.request.signed opts.pubkeyHex x.timestamp (x.requestId.getD "")
    (x.request.signatureBy opts.pubkeyHex x.timestamp (x.requestId.getD "") opts.sign)

theorem frameText_eq (opts : Options) (x : Call) :
    frameText opts x = some (String.ofList (JsonText.print (.obj (signedMembers opts x)))) := by
  rw [frameText, signMessage_eq _ _ _ _ opts.sign (le_refl 4), Option.bind_eq_bind,
    Option.bind_some, stringify_signed _ _ _ _ _ (le_refl 4)]
  rfl

theorem parse_signedMembers {finite : List Char → Bool} {opts : Options} {x : Call}
    (hstamp : |x.timestamp| < 2 ^ 53) :
    JsonText.parse finite (String.ofList (JsonText.print (.obj (signedMembers opts x)))) =
      some (.obj (signedMembers opts x)) :=
  JsonText.parse_print (signed_readable _ _ _ _ hstamp _)

/-- `this.ws.send`: there is no `send` on `null`, a socket that is connecting throws, and one that
is closing or closed drops the text. -/
def send (c : Client) (i : ℕ) (text : String) : Except Failure Client :=
  match c.ws with
  | none => .error .notSent
  | some w =>
    match c.readyState w with
    | .connecting => .error .notSent
    | .opened => .ok { c with
        sentOn := Function.update c.sentOn i (some w)
        outbox := Function.update c.outbox w (text :: c.outbox w) }
    | _ => .ok { c with sentOn := Function.update c.sentOn i (some w) }

theorem send_ok {c c' : Client} {i : ℕ} {text : String} (h : c.send i text = .ok c') :
    ∃ w outbox, c' = { c with
      sentOn := Function.update c.sentOn i (some w), outbox := outbox } := by
  unfold send at h
  split at h
  · cases h
  · split at h
    · cases h
    · cases h
      exact ⟨_, _, rfl⟩
    · cases h
      exact ⟨_, c.outbox, rfl⟩

theorem send_error {c : Client} {i : ℕ} {text : String} {e : Failure}
    (h : c.send i text = .error e) : e = .notSent := by
  unfold send at h
  split at h
  · cases h
    rfl
  · split at h
    · cases h
      rfl
    · cases h
    · cases h

/-- What is left of a call when its message is signed. When `send` throws, the entry and the timer
of the request stay. -/
def transmit (c : Client) (i : ℕ) (x : Call) (text : String) : Client :=
  match expectedType x.request with
  | none =>
    match c.send i text with
    | .ok c' => c'.settleCall i (.resolved none)
    | .error e => c.settleCall i (.rejected e)
  | some type =>
    let c := { c with
      pending := c.pending.insert (x.requestId.getD "") ⟨i, type⟩
      timers := Function.update c.timers i true }
    match c.send i text with
    | .ok c' => c'
    | .error e => c.settleCall i (.rejected e)

def isPending (c : Client) (i : ℕ) : Bool := anyBinding c.pending fun _ p => p.call = i

/-- The timer of a request takes its entry away. -/
def timeout (c : Client) (i : ℕ) (requestId : String) : Client :=
  { c with
    pending := c.pending.erase requestId
    timers := Function.update c.timers i false }.settleCall i (.rejected .timedOut)

def onOpen (c : Client) : Client :=
  let c' := match c.connectedResolver with
    | some v => c.settleConnection v .resolved
    | none => c
  { c' with connectedResolver := none, connectedRejector := none }

def onError (c : Client) : Client :=
  let c' := match c.connectedRejector with
    | some v => c.settleConnection v .rejected
    | none => c
  { c' with connectedRejector := none }

theorem onOpen_eq (c : Client) :
    ∃ connections, c.onOpen = { c with
        connections := connections, connectedResolver := none, connectedRejector := none } ∧
      ∀ w, connections w = if c.connectedResolver = some w ∧ c.connections w = none then
        some .resolved else c.connections w := by
  unfold onOpen
  cases hr : c.connectedResolver with
  | none => exact ⟨c.connections, rfl, fun w => by simp⟩
  | some v =>
    obtain ⟨connections, heq, hw⟩ := c.settleConnection_eq v .resolved
    exact ⟨connections, by simp only [heq], fun w => by simp [hw]⟩

theorem onError_eq (c : Client) :
    ∃ connections, c.onError = { c with
        connections := connections, connectedRejector := none } ∧
      ∀ w, connections w = if c.connectedRejector = some w ∧ c.connections w = none then
        some .rejected else c.connections w := by
  unfold onError
  cases hr : c.connectedRejector with
  | none => exact ⟨c.connections, rfl, fun w => by simp⟩
  | some v =>
    obtain ⟨connections, heq, hw⟩ := c.settleConnection_eq v .rejected
    exact ⟨connections, by simp only [heq], fun w => by simp [hw]⟩

def onClose (c : Client) : Client :=
  { c with
    results := fun i =>
      if c.isPending i ∧ c.results i = none then some (.rejected .websocketClosed) else c.results i
    timers := fun i => c.timers i && !c.isPending i
    pending := ∅ }

def verdict (expected : String) (msg : ServerMessage) : Result :=
  if messageType msg = expected then .resolved (some msg)
  else
    match msg with
    | .error code message _ => .rejected (.brokerError code message)
    | msg => .rejected (.unexpectedResponse (messageType msg))

/-- The pending request a message is routed to. An absent, `null` or empty `request_id` is none. -/
def routed (c : Client) (msg : ServerMessage) : Option (String × PendingRequest) := do
  let id ← msg.requestId
  if id = "" then none
  else
    let p ← c.pending.lookup id
    some (id, p)

def handleIncoming (c : Client) (msg : ServerMessage) : Client :=
  match c.routed msg with
  | some (id, p) =>
    { c with
      pending := c.pending.erase id
      timers := Function.update c.timers p.call false }.settleCall p.call
        (verdict p.expectedType msg)
  | none => { c with dispatched := msg :: c.dispatched }

/-- One callback. It is undefined when nothing calls it back: a socket that does not exist or whose
state rules the event out, a timer that is not running, a signature nobody waits for. -/
def step (opts : Options) (c : Client) : Action → Option Client
  | .connect => some c.connect
  | .close => some c.close
  | .call request nowSecs now => some (c.call request nowSecs now)
  | .signed i => do
    let x ← c.calls i
    if c.signing i then
      let text ← frameText opts x
      some ({ c with signing := Function.update c.signing i false }.transmit i x text)
    else none
  | .notSigned i =>
    if c.signing i then
      some ({ c with signing := Function.update c.signing i false }.settleCall i
        (.rejected .notSigned))
    else none
  | .timeout i => do
    let x ← c.calls i
    if c.timers i then some (c.timeout i (x.requestId.getD "")) else none
  | .opened w =>
    if w < c.socketCount ∧ c.readyState w = .connecting then
      some { c with readyState := Function.update c.readyState w .opened }.onOpen
    else none
  | .errored w =>
    if w < c.socketCount ∧ c.readyState w ≠ .closed then
      some { c with readyState := Function.update c.readyState w .closing }.onError
    else none
  | .closed w =>
    if w < c.socketCount ∧ c.readyState w ≠ .closed then
      some { c with readyState := Function.update c.readyState w .closed }.onClose
    else none
  | .message w msg =>
    if w < c.socketCount ∧ (c.readyState w = .opened ∨ c.readyState w = .closing) then
      some (c.handleIncoming msg)
    else none

/-- What a callback does to the calls: one of the sockets that closes nothing leaves them alone. -/
inductive Effect (opts : Options) (c : Client) : Action → Client → Prop
  | sockets {a : Action} (ofSockets : a.ofSockets = true)
      (ws connectedResolver connectedRejector : Option ℕ) (socketCount : ℕ)
      (readyState : ℕ → ReadyState) (connections : ℕ → Option Connection) :
      Effect opts c a { c with
        ws := ws
        connectedResolver := connectedResolver
        connectedRejector := connectedRejector
        socketCount := socketCount
        readyState := readyState
        connections := connections }
  | started (request : Request) (nowSecs now : TimeValue) :
      Effect opts c (.call request nowSecs now)
        { c.build request nowSecs now with
          signing := Function.update c.signing c.callCount true }
  | refused (request : Request) (nowSecs now : TimeValue) :
      Effect opts c (.call request nowSecs now)
        ((c.build request nowSecs now).settleCall c.callCount (.rejected .websocketNotOpen))
  | transmitted {i : ℕ} {x : Call} {text : String} (made : c.calls i = some x)
      (signing : c.signing i = true) (signed : frameText opts x = some text) :
      Effect opts c (.signed i)
        ({ c with signing := Function.update c.signing i false }.transmit i x text)
  | notSigned {i : ℕ} (signing : c.signing i = true) :
      Effect opts c (.notSigned i)
        ({ c with signing := Function.update c.signing i false }.settleCall i
          (.rejected .notSigned))
  | timedOut {i : ℕ} {x : Call} (made : c.calls i = some x) (running : c.timers i = true) :
      Effect opts c (.timeout i) (c.timeout i (x.requestId.getD ""))
  | closed (w : ℕ) :
      Effect opts c (.closed w)
        { c with readyState := Function.update c.readyState w .closed }.onClose
  | answered {w : ℕ} {msg : ServerMessage} {id : String} {p : PendingRequest}
      (routed : c.routed msg = some (id, p)) :
      Effect opts c (.message w msg)
        ({ c with
          pending := c.pending.erase id
          timers := Function.update c.timers p.call false }.settleCall p.call
            (verdict p.expectedType msg))
  | dispatched {w : ℕ} {msg : ServerMessage} (unrouted : c.routed msg = none) :
      Effect opts c (.message w msg) { c with dispatched := msg :: c.dispatched }

theorem effect_of_step {opts : Options} {c c' : Client} {a : Action}
    (h : c.step opts a = some c') : Effect opts c a c' := by
  cases a with
  | connect =>
    cases h
    unfold connect
    split_ifs
    · exact .sockets rfl c.ws c.connectedResolver c.connectedRejector c.socketCount c.readyState
        c.connections
    · exact .sockets rfl _ _ _ _ _ c.connections
  | close =>
    cases h
    unfold close closeSocket
    split
    · split <;> exact .sockets rfl none c.connectedResolver c.connectedRejector c.socketCount _
        c.connections
    · exact .sockets rfl c.ws c.connectedResolver c.connectedRejector c.socketCount c.readyState
        c.connections
  | call request nowSecs now =>
    cases h
    unfold call
    split_ifs
    · exact .started request nowSecs now
    · exact .refused request nowSecs now
  | signed i =>
    simp only [step, Option.bind_eq_bind, Option.bind_eq_some_iff] at h
    obtain ⟨x, made, h⟩ := h
    split_ifs at h with signing
    obtain ⟨text, signed, h⟩ := Option.bind_eq_some_iff.mp h
    cases h
    exact .transmitted made signing signed
  | notSigned i =>
    simp only [step] at h
    split_ifs at h with signing
    cases h
    exact .notSigned signing
  | timeout i =>
    simp only [step, Option.bind_eq_bind, Option.bind_eq_some_iff] at h
    obtain ⟨x, made, h⟩ := h
    split_ifs at h with running
    cases h
    exact .timedOut made running
  | opened w =>
    simp only [step] at h
    split_ifs at h
    cases h
    obtain ⟨connections, heq, -⟩ := onOpen_eq
      { c with readyState := Function.update c.readyState w .opened }
    rw [heq]
    exact .sockets rfl c.ws none none c.socketCount _ connections
  | errored w =>
    simp only [step] at h
    split_ifs at h
    cases h
    obtain ⟨connections, heq, -⟩ := onError_eq
      { c with readyState := Function.update c.readyState w .closing }
    rw [heq]
    exact .sockets rfl c.ws c.connectedResolver none c.socketCount _ connections
  | closed w =>
    simp only [step] at h
    split_ifs at h
    cases h
    exact .closed w
  | message w msg =>
    simp only [step] at h
    split_ifs at h
    cases h
    unfold handleIncoming
    split
    · exact .answered ‹_›
    · exact .dispatched ‹_›

end Client

end HashedBroker.BrokerClient
