import HashedBroker.SortedMembers

/-!
# Wire protocol

The messages of `protocol.rs` and their serialisation: an internal `type` tag, the names in snake
case, options left out when they are `None`, and `signature` emptied in the canonical bytes.
-/
namespace HashedBroker.Protocol
open JsonText SortedMembers

structure PeerAddresses where
  lan : List String
  publicAddress : Option String
  deriving DecidableEq, Repr, Inhabited

/-- Identity scope a peer declares on `register`. -/
inductive IdentityKind
  | user
  | machine
  deriving DecidableEq, Repr

def IdentityKind.asStr : IdentityKind → String
  | .user => "user"
  | .machine => "machine"

def IdentityKind.parse : String → Option IdentityKind
  | "user" => some .user
  | "machine" => some .machine
  | _ => none

inductive ClientMessage
  | register (pubkey : String) (handle : Option String) (addresses : PeerAddresses)
      (kind : Option IdentityKind) (timestamp : Int64) (signature : String)
      (requestId : Option String)
  | lookupPeer (pubkey targetPubkey : String) (timestamp : Int64) (signature : String)
      (requestId : Option String)
  | lookupHandle (pubkey targetHandle : String) (timestamp : Int64) (signature : String)
      (requestId : Option String)
  | signal (pubkey recipient payload : String) (timestamp : Int64) (signature : String)
      (requestId : Option String)
  | subscribePresence (pubkey : String) (peers : List String) (timestamp : Int64)
      (signature : String) (requestId : Option String)
  | unsubscribePresence (pubkey : String) (peers : List String) (timestamp : Int64)
      (signature : String) (requestId : Option String)
  | requestRelay (pubkey peer : String) (timestamp : Int64) (signature : String)
      (requestId : Option String)
  | acceptRelay (pubkey sessionId : String) (timestamp : Int64) (signature : String)
      (requestId : Option String)
  | relay (pubkey sessionId data : String) (timestamp : Int64) (signature : String)
  | teamAnnounce (pubkey : String) (teamId : Option String)
      (teamName adminPubkey adminSignature : String) (timestamp : Int64) (signature : String)
      (requestId : Option String)
  | teamLookup (pubkey teamId : String) (timestamp : Int64) (signature : String)
      (requestId : Option String)
  | ping (pubkey : String) (timestamp : Int64) (signature : String)
  deriving DecidableEq

namespace ClientMessage

def pubkey : ClientMessage → String
  | register pubkey .. => pubkey
  | lookupPeer pubkey .. => pubkey
  | lookupHandle pubkey .. => pubkey
  | signal pubkey .. => pubkey
  | subscribePresence pubkey .. => pubkey
  | unsubscribePresence pubkey .. => pubkey
  | requestRelay pubkey .. => pubkey
  | acceptRelay pubkey .. => pubkey
  | relay pubkey .. => pubkey
  | teamAnnounce pubkey .. => pubkey
  | teamLookup pubkey .. => pubkey
  | ping pubkey .. => pubkey

def timestamp : ClientMessage → Int64
  | register _ _ _ _ timestamp _ _ => timestamp
  | lookupPeer _ _ timestamp _ _ => timestamp
  | lookupHandle _ _ timestamp _ _ => timestamp
  | signal _ _ _ timestamp _ _ => timestamp
  | subscribePresence _ _ timestamp _ _ => timestamp
  | unsubscribePresence _ _ timestamp _ _ => timestamp
  | requestRelay _ _ timestamp _ _ => timestamp
  | acceptRelay _ _ timestamp _ _ => timestamp
  | relay _ _ _ timestamp _ => timestamp
  | teamAnnounce _ _ _ _ _ timestamp _ _ => timestamp
  | teamLookup _ _ timestamp _ _ => timestamp
  | ping _ timestamp _ => timestamp

def signature : ClientMessage → String
  | register _ _ _ _ _ signature _ => signature
  | lookupPeer _ _ _ signature _ => signature
  | lookupHandle _ _ _ signature _ => signature
  | signal _ _ _ _ signature _ => signature
  | subscribePresence _ _ _ signature _ => signature
  | unsubscribePresence _ _ _ signature _ => signature
  | requestRelay _ _ _ signature _ => signature
  | acceptRelay _ _ _ signature _ => signature
  | relay _ _ _ _ signature => signature
  | teamAnnounce _ _ _ _ _ _ signature _ => signature
  | teamLookup _ _ _ signature _ => signature
  | ping _ _ signature => signature

def requestId : ClientMessage → Option String
  | register _ _ _ _ _ _ requestId => requestId
  | lookupPeer _ _ _ _ requestId => requestId
  | lookupHandle _ _ _ _ requestId => requestId
  | signal _ _ _ _ _ requestId => requestId
  | subscribePresence _ _ _ _ requestId => requestId
  | unsubscribePresence _ _ _ _ requestId => requestId
  | requestRelay _ _ _ _ requestId => requestId
  | acceptRelay _ _ _ _ requestId => requestId
  | relay .. => none
  | teamAnnounce _ _ _ _ _ _ _ requestId => requestId
  | teamLookup _ _ _ _ requestId => requestId
  | ping .. => none

def handle : ClientMessage → Option String
  | register _ handle .. => handle
  | _ => none

def withSignature (s : String) : ClientMessage → ClientMessage
  | register pubkey handle addresses kind timestamp _ requestId =>
    register pubkey handle addresses kind timestamp s requestId
  | lookupPeer pubkey target timestamp _ requestId => lookupPeer pubkey target timestamp s requestId
  | lookupHandle pubkey target timestamp _ requestId =>
    lookupHandle pubkey target timestamp s requestId
  | signal pubkey recipient payload timestamp _ requestId =>
    signal pubkey recipient payload timestamp s requestId
  | subscribePresence pubkey peers timestamp _ requestId =>
    subscribePresence pubkey peers timestamp s requestId
  | unsubscribePresence pubkey peers timestamp _ requestId =>
    unsubscribePresence pubkey peers timestamp s requestId
  | requestRelay pubkey peer timestamp _ requestId => requestRelay pubkey peer timestamp s requestId
  | acceptRelay pubkey sessionId timestamp _ requestId =>
    acceptRelay pubkey sessionId timestamp s requestId
  | relay pubkey sessionId data timestamp _ => relay pubkey sessionId data timestamp s
  | teamAnnounce pubkey teamId teamName adminPubkey adminSignature timestamp _ requestId =>
    teamAnnounce pubkey teamId teamName adminPubkey adminSignature timestamp s requestId
  | teamLookup pubkey teamId timestamp _ requestId => teamLookup pubkey teamId timestamp s requestId
  | ping pubkey timestamp _ => ping pubkey timestamp s

end ClientMessage

structure TeamMember where
  pubkey : String
  online : Bool
  joinedAt : ℕ
  deriving DecidableEq, Repr

inductive ServerMessage
  | registered (peerId reflectedAddress : String) (handleClaimed : Bool)
      (requestId : Option String)
  | peerInfo (peerId : String) (handle : Option String) (addresses : PeerAddresses)
      (reflectedAddress : Option String) (online : Bool) (kind : Option IdentityKind)
      (requestId : Option String)
  | signal (sender payload : String) (timestamp : Int64)
  | presenceUpdate (peerId : String) (online : Bool)
  | subscribePresenceAck (peers : List String) (requestId : Option String)
  | relayOffer (sessionId sender : String)
  | relaySessionEstablished (sessionId peer : String) (requestId : Option String)
  | relayData (sessionId sender data : String)
  | teamAnnounced (teamId : String) (requestId : Option String)
  | teamMembers (teamId : String) (members : List TeamMember) (requestId : Option String)
  | pong (timestamp : Int64)
  | error (code message : String) (requestId : Option String)
  deriving DecidableEq

def ServerMessage.requestId : ServerMessage → Option String
  | registered _ _ _ requestId => requestId
  | peerInfo _ _ _ _ _ _ requestId => requestId
  | subscribePresenceAck _ requestId => requestId
  | relaySessionEstablished _ _ requestId => requestId
  | teamAnnounced _ requestId => requestId
  | teamMembers _ _ requestId => requestId
  | error _ _ requestId => requestId
  | _ => none

/-! ## Serialisation -/

def stringList (xs : List String) : Json := .arr (xs.map .str)

/-- `lan` and `public` are always written, an absent public address as `null`. -/
def PeerAddresses.toValue (a : PeerAddresses) : Json :=
  .obj (insertAll [("lan", stringList a.lan), ("public", a.publicAddress.elim .null .str)] [])

namespace ClientMessage

def tag : ClientMessage → String
  | register .. => "register"
  | lookupPeer .. => "lookup_peer"
  | lookupHandle .. => "lookup_handle"
  | signal .. => "signal"
  | subscribePresence .. => "subscribe_presence"
  | unsubscribePresence .. => "unsubscribe_presence"
  | requestRelay .. => "request_relay"
  | acceptRelay .. => "accept_relay"
  | relay .. => "relay"
  | teamAnnounce .. => "team_announce"
  | teamLookup .. => "team_lookup"
  | ping .. => "ping"

/-- The fields in declaration order; `none` is a field that is skipped. -/
def fields : ClientMessage → List (String × Option Json)
  | register pubkey handle addresses kind timestamp signature requestId =>
    [("pubkey", some (.str pubkey)), ("handle", handle.map .str),
      ("addresses", some addresses.toValue), ("kind", kind.map fun k => .str k.asStr),
      ("timestamp", some (.int timestamp.toInt)), ("signature", some (.str signature)),
      ("request_id", requestId.map .str)]
  | lookupPeer pubkey targetPubkey timestamp signature requestId =>
    [("pubkey", some (.str pubkey)), ("target_pubkey", some (.str targetPubkey)),
      ("timestamp", some (.int timestamp.toInt)), ("signature", some (.str signature)),
      ("request_id", requestId.map .str)]
  | lookupHandle pubkey targetHandle timestamp signature requestId =>
    [("pubkey", some (.str pubkey)), ("target_handle", some (.str targetHandle)),
      ("timestamp", some (.int timestamp.toInt)), ("signature", some (.str signature)),
      ("request_id", requestId.map .str)]
  | signal pubkey recipient payload timestamp signature requestId =>
    [("pubkey", some (.str pubkey)), ("to", some (.str recipient)),
      ("payload", some (.str payload)),
      ("timestamp", some (.int timestamp.toInt)), ("signature", some (.str signature)),
      ("request_id", requestId.map .str)]
  | subscribePresence pubkey peers timestamp signature requestId =>
    [("pubkey", some (.str pubkey)), ("peers", some (stringList peers)),
      ("timestamp", some (.int timestamp.toInt)), ("signature", some (.str signature)),
      ("request_id", requestId.map .str)]
  | unsubscribePresence pubkey peers timestamp signature requestId =>
    [("pubkey", some (.str pubkey)), ("peers", some (stringList peers)),
      ("timestamp", some (.int timestamp.toInt)), ("signature", some (.str signature)),
      ("request_id", requestId.map .str)]
  | requestRelay pubkey peer timestamp signature requestId =>
    [("pubkey", some (.str pubkey)), ("peer", some (.str peer)),
      ("timestamp", some (.int timestamp.toInt)), ("signature", some (.str signature)),
      ("request_id", requestId.map .str)]
  | acceptRelay pubkey sessionId timestamp signature requestId =>
    [("pubkey", some (.str pubkey)), ("session_id", some (.str sessionId)),
      ("timestamp", some (.int timestamp.toInt)), ("signature", some (.str signature)),
      ("request_id", requestId.map .str)]
  | relay pubkey sessionId data timestamp signature =>
    [("pubkey", some (.str pubkey)), ("session_id", some (.str sessionId)),
      ("data", some (.str data)), ("timestamp", some (.int timestamp.toInt)),
      ("signature", some (.str signature))]
  | teamAnnounce pubkey teamId teamName adminPubkey adminSignature timestamp signature requestId =>
    [("pubkey", some (.str pubkey)), ("team_id", teamId.map .str),
      ("team_name", some (.str teamName)), ("admin_pubkey", some (.str adminPubkey)),
      ("admin_signature", some (.str adminSignature)),
      ("timestamp", some (.int timestamp.toInt)), ("signature", some (.str signature)),
      ("request_id", requestId.map .str)]
  | teamLookup pubkey teamId timestamp signature requestId =>
    [("pubkey", some (.str pubkey)), ("team_id", some (.str teamId)),
      ("timestamp", some (.int timestamp.toInt)), ("signature", some (.str signature)),
      ("request_id", requestId.map .str)]
  | ping pubkey timestamp signature =>
    [("pubkey", some (.str pubkey)), ("timestamp", some (.int timestamp.toInt)),
      ("signature", some (.str signature))]

/-- What the serialiser emits, the tag first. -/
def members (m : ClientMessage) : List (String × Json) :=
  ("type", .str m.tag) :: present m.fields

/-- `serde_json::to_value`: the object is an ordered map. -/
def toValue (m : ClientMessage) : List (String × Json) := insertAll m.members []

end ClientMessage

/-- The value that is signed: the message's own object with `signature` emptied. -/
def canonicalValue (m : ClientMessage) : Json := .obj (insertKey "signature" (.str "") m.toValue)

/-- What the peer signs and what the broker verifies. -/
def canonicalBytes (m : ClientMessage) : ByteArray :=
  (String.ofList (print (canonicalValue m))).toUTF8

/-- Bound on signaling payload size (4 KB). -/
def signalingMaxPayload : ℕ := 4 * 1024

/-- Bound on a single relay frame payload (64 KB). -/
def relayMaxFrame : ℕ := 64 * 1024

namespace ClientMessage

theorem names_nodup (m : ClientMessage) : ("type" :: m.fields.map Prod.fst).Nodup := by
  cases m <;> simp [fields]

theorem members_nodup (m : ClientMessage) : (m.members.map Prod.fst).Nodup :=
  m.names_nodup.sublist ((present_keys m.fields).cons_cons "type")

theorem lookup_members (m : ClientMessage) (k : String) :
    m.members.lookup k = if k = "type" then some (.str m.tag) else (m.fields.lookup k).join := by
  rw [members, lookup_cons_ite, lookup_present (List.nodup_cons.mp m.names_nodup).2]

theorem lookup_toValue (m : ClientMessage) (k : String) :
    m.toValue.lookup k = m.members.lookup k := by
  rw [toValue, lookup_insertAll m.members_nodup, List.lookup_nil, Option.or_none]

theorem toValue_increasing (m : ClientMessage) : Increasing m.toValue :=
  Increasing.insertAll List.Pairwise.nil

theorem insertKey_signature (m : ClientMessage) (s : String) :
    insertKey "signature" (.str s) m.toValue = (m.withSignature s).toValue := by
  refine m.toValue_increasing.insertKey.ext (toValue_increasing _) fun k => ?_
  rw [lookup_insertKey, lookup_toValue, lookup_toValue, lookup_members, lookup_members]
  by_cases hk : k = "signature"
  · subst hk
    cases m <;> simp [withSignature, fields, lookup_cons_ite]
  · cases m <;> simp [withSignature, fields, lookup_cons_ite, hk, tag]

end ClientMessage

end HashedBroker.Protocol
