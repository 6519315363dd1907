import HashedBroker.CanonicalBytes

/-!
# Errors and signature verification

`error.rs` and `auth.rs`. What the broker takes from its crates is collected in `Crates`: decoders,
the Ed25519 primitives and the wording of their errors. Nothing is assumed of them here; a result
that needs a property of one of them says so.
-/
namespace HashedBroker
open Protocol

inductive BrokerError
  | invalidPubKey (reason : String)
  | invalidSignature (reason : String)
  | signatureVerifyFailed
  | staleMessage (driftSecs : Int64)
  | futureMessage (driftSecs : Int64)
  | malformed (reason : String)
  | handleTaken
  | handleAlreadyOwned
  | peerNotFound
  | peerOffline
  | payloadTooLarge (size max : ℕ)
  | rateLimited
  | relayQuotaExceeded
  | relayNotConsented
  | relaySessionNotFound
  | database (reason : String)
  | io (reason : String)
  | internal (reason : String)
  deriving DecidableEq

namespace BrokerError

def code : BrokerError → String
  | invalidPubKey _ => "invalid_pubkey"
  | invalidSignature _ => "invalid_signature"
  | signatureVerifyFailed => "signature_verify_failed"
  | staleMessage _ => "stale_message"
  | futureMessage _ => "future_message"
  | malformed _ => "malformed"
  | handleTaken => "handle_taken"
  | handleAlreadyOwned => "handle_already_owned"
  | peerNotFound => "peer_not_found"
  | peerOffline => "peer_offline"
  | payloadTooLarge .. => "payload_too_large"
  | rateLimited => "rate_limited"
  | relayQuotaExceeded => "relay_quota_exceeded"
  | relayNotConsented => "relay_not_consented"
  | relaySessionNotFound => "relay_session_not_found"
  | database _ => "database_error"
  | io _ => "io_error"
  | internal _ => "internal_error"

def message : BrokerError → String
  | invalidPubKey reason => "invalid public key: " ++ reason
  | invalidSignature reason => "invalid signature: " ++ reason
  | signatureVerifyFailed => "signature verification failed"
  | staleMessage drift => "message too old (drift " ++ toString drift.toInt ++ "s > 60s)"
  | futureMessage drift => "message in the future (drift " ++ toString drift.toInt ++ "s > 60s)"
  | malformed reason => "malformed message: " ++ reason
  | handleTaken => "handle already claimed"
  | handleAlreadyOwned => "peer already has a handle claimed"
  | peerNotFound => "peer not found"
  | peerOffline => "peer offline"
  | payloadTooLarge size max =>
    "payload too large (" ++ toString size ++ " > " ++ toString max ++ ")"
  | rateLimited => "rate limit exceeded"
  | relayQuotaExceeded => "relay quota exceeded"
  | relayNotConsented => "relay peer did not consent"
  | relaySessionNotFound => "relay session not found"
  | database reason => "database error: " ++ reason
  | io reason => "io error: " ++ reason
  | internal reason => "internal: " ++ reason

end BrokerError

abbrev Bytes := List UInt8

abbrev VerifyingKey := Vector UInt8 32

abbrev Signature := Vector UInt8 64

abbrev Uuid := Vector UInt8 16

/-- The functions the broker takes from its crates; an error is its text. -/
structure Crates where
  hexDecode : String → Except String Bytes
  base64Decode : String → Except String Bytes
  uuidParse : String → Except String Uuid
  uuidText : Uuid → String
  /-- Whether 32 bytes encode a point of the curve. -/
  keyFromBytes : VerifyingKey → Except String Unit
  verify : VerifyingKey → Bytes → Signature → Bool
  /-- Whether the number a JSON lexeme denotes has a finite double. -/
  finite : List Char → Bool
  /-- What `serde_json` says about a text it rejects. -/
  jsonError : String → String
  /-- What a rate limiter of 100 per minute says, from the times it was asked before. -/
  limiterAllows : List ℕ → ℕ → Bool
  /-- The `Debug` text of a character. -/
  charDebug : Char → String

namespace Crates

def hexBytes : List Char → Option Bytes
  | [] => some []
  | a :: b :: r => do
    let a ← JsonText.hexValue a
    let b ← JsonText.hexValue b
    let r ← hexBytes r
    some (UInt8.ofNat (16 * a + b) :: r)
  | _ => none

def sextet (c : Char) : Option ℕ :=
  if 'A' ≤ c ∧ c ≤ 'Z' then some (c.toNat - 65)
  else if 'a' ≤ c ∧ c ≤ 'z' then some (c.toNat - 71)
  else if '0' ≤ c ∧ c ≤ '9' then some (c.toNat + 4)
  else if c = '+' then some 62
  else if c = '/' then some 63
  else none

/-- Standard base64: groups of four, the last one padded and without stray bits. -/
def base64Bytes : List Char → Option Bytes
  | [] => some []
  | [a, b, '=', '='] => do
    let a ← sextet a
    let b ← sextet b
    if b % 16 = 0 then some [UInt8.ofNat (a * 4 + b / 16)] else none
  | [a, b, c, '='] => do
    let a ← sextet a
    let b ← sextet b
    let c ← sextet c
    if c % 4 = 0 then
      some [UInt8.ofNat (a * 4 + b / 16), UInt8.ofNat (b % 16 * 16 + c / 4)]
    else none
  | a :: b :: c :: d :: r => do
    let a ← sextet a
    let b ← sextet b
    let c ← sextet c
    let d ← sextet d
    let r ← base64Bytes r
    some (UInt8.ofNat (a * 4 + b / 16) :: UInt8.ofNat (b % 16 * 16 + c / 4) ::
      UInt8.ofNat (c % 4 * 64 + d) :: r)
  | _ => none

def hexText (bytes : Bytes) : List Char :=
  bytes.flatMap fun b => [JsonText.hexDigit (b.toNat / 16), JsonText.hexDigit (b.toNat % 16)]

/-- A concrete instance to run the model with: the decoders as documented, hyphenated identifiers,
and a signature scheme in which a key signs everything with its own bytes written twice. -/
def demo : Crates where
  hexDecode s := (hexBytes s.toList).elim (.error "Invalid character") .ok
  base64Decode s := (base64Bytes s.toList).elim (.error "Invalid symbol") .ok
  uuidParse s :=
    match hexBytes (s.toList.filter fun c => c ≠ '-') with
    | some bytes => if h : bytes.length = 16 then .ok ⟨bytes.toArray, h⟩ else .error "invalid length"
    | none => .error "invalid character"
  uuidText id :=
    let hex := hexText id.toList
    String.ofList (hex.take 8 ++ '-' :: (hex.drop 8).take 4 ++ '-' :: (hex.drop 12).take 4 ++
      '-' :: (hex.drop 16).take 4 ++ '-' :: hex.drop 20)
  keyFromBytes _ := .ok ()
  verify key _ sig := sig.toList = key.toList ++ key.toList
  finite _ := true
  jsonError _ := "expected value"
  limiterAllows log now := (log.filter fun t => now < t + 60 * 10 ^ 9).length < 100
  charDebug c := String.ofList ['\'', c, '\'']

/-- A key of one repeated digit, and what it signs with under `demo`. -/
def keyText (digit : Char) : String := String.ofList (List.replicate 64 digit)

def signatureText (digit : Char) : String := String.ofList (List.replicate 128 digit)

end Crates

/-- A reading of the broker's clock, in Unix seconds. -/
structure UnixTime where
  secs : Int64
  nonneg : 0 ≤ secs.toInt
  bounded : secs.toInt ≤ 2 ^ 62

def UnixTime.midnight : UnixTime := ⟨0, by decide, by decide⟩

namespace Auth

/-- Replay window, both backward and forward. -/
def maxDriftSecs : Int64 := 60

def keyHex (s : String) : String :=
  if "ed25519:".toList.isPrefixOf s.toList then String.ofList (s.toList.drop 8) else s

variable (crates : Crates)

def parsePubkey (s : String) : Except BrokerError VerifyingKey := do
  let bytes ← (crates.hexDecode (keyHex s)).mapError .invalidPubKey
  if h : bytes.length = 32 then
    let key : VerifyingKey := ⟨bytes.toArray, h⟩
    (crates.keyFromBytes key).mapError .invalidPubKey
    pure key
  else throw (.invalidPubKey "expected 32 bytes")

def parseSignature (s : String) : Except BrokerError Signature := do
  let bytes ← (crates.hexDecode s).mapError .invalidSignature
  if h : bytes.length = 64 then pure ⟨bytes.toArray, h⟩
  else throw (.invalidSignature "expected 64 bytes")

/-- The subtraction and the negation wrap around, as in a release build. -/
def checkTimestamp (now : UnixTime) (ts : Int64) : Except BrokerError Unit :=
  let drift := now.secs - ts
  if maxDriftSecs < drift then throw (.staleMessage drift)
  else if drift < -maxDriftSecs then throw (.futureMessage (-drift))
  else pure ()

def verifySignedMessage (now : UnixTime) (msg : ClientMessage) :
    Except BrokerError VerifyingKey := do
  let pk ← parsePubkey crates msg.pubkey
  checkTimestamp now msg.timestamp
  let sig ← parseSignature crates msg.signature
  if crates.verify pk (canonicalBytes msg).data.toList sig then pure pk
  else throw .signatureVerifyFailed

def verifyDetached (pubkeyHex sigHex : String) (message : Bytes) : Except BrokerError Unit := do
  let pk ← parsePubkey crates pubkeyHex
  let sig ← parseSignature crates sigHex
  if crates.verify pk message sig then pure () else throw .signatureVerifyFailed

/-! ## What an accepted message has passed -/

theorem except_bind_eq_ok {ε α β : Type} {x : Except ε α} {f : α → Except ε β} {b : β}
    (h : (x >>= f) = .ok b) : ∃ a, x = .ok a ∧ f a = .ok b := by
  cases x with
  | error e => cases h
  | ok a => exact ⟨a, rfl, h⟩

/-- The wrapped difference of the clock and a timestamp is in the window only if the true one is. -/
theorem checkTimestamp_ok {now : UnixTime} {ts : Int64} (h : checkTimestamp now ts = .ok ()) :
    |now.secs.toInt - ts.toInt| ≤ 60 := by
  obtain ⟨secs, hn, hb⟩ := now
  have hts := int64_range ts
  have hsub : (secs - ts).toInt = (secs.toInt - ts.toInt).bmod (2 ^ 64) := Int64.toInt_sub secs ts
  have hwin : -60 ≤ (secs - ts).toInt ∧ (secs - ts).toInt ≤ 60 := by
    simp only [checkTimestamp] at h
    split_ifs at h with h1 h2
    rw [Int64.lt_iff_toInt_lt] at h1 h2
    have e1 : maxDriftSecs.toInt = 60 := by decide
    have e2 : (-maxDriftSecs).toInt = -60 := by decide
    omega
  rw [hsub] at hwin
  simp only at hn hb ⊢
  rw [abs_le]
  have hmod := Int.bmod_def (secs.toInt - ts.toInt) (2 ^ 64)
  omega

structure Verified (now : UnixTime) (msg : ClientMessage) : Prop where
  fresh : |now.secs.toInt - msg.timestamp.toInt| ≤ 60
  signed : ∃ key sig, parsePubkey crates msg.pubkey = .ok key ∧
    parseSignature crates msg.signature = .ok sig ∧
    crates.verify key (canonicalBytes msg).data.toList sig = true

variable {crates}

theorem verifySignedMessage_ok {now : UnixTime} {msg : ClientMessage} {key : VerifyingKey}
    (h : verifySignedMessage crates now msg = .ok key) :
    parsePubkey crates msg.pubkey = .ok key ∧ checkTimestamp now msg.timestamp = .ok () ∧
      ∃ sig, parseSignature crates msg.signature = .ok sig ∧
        crates.verify key (canonicalBytes msg).data.toList sig = true := by
  obtain ⟨pk, hpk, h⟩ := except_bind_eq_ok h
  obtain ⟨u, ht, h⟩ := except_bind_eq_ok h
  obtain ⟨sig, hs, h⟩ := except_bind_eq_ok h
  split_ifs at h with hv
  cases h
  exact ⟨hpk, ht, sig, hs, hv⟩

theorem Verified.of_ok {now : UnixTime} {msg : ClientMessage} {key : VerifyingKey}
    (h : verifySignedMessage crates now msg = .ok key) : Verified crates now msg := by
  obtain ⟨hpk, ht, sig, hs, hv⟩ := verifySignedMessage_ok h
  exact ⟨checkTimestamp_ok ht, key, sig, hpk, hs, hv⟩

/-- Under a key, a signature verifies for one message at most. -/
def Binding (crates : Crates) : Prop :=
  ∀ key sig bytes bytes', crates.verify key bytes sig = true →
    crates.verify key bytes' sig = true → bytes = bytes'

theorem canonicalBytes_toList_inj {m₁ m₂ : ClientMessage}
    (h : (canonicalBytes m₁).data.toList = (canonicalBytes m₂).data.toList) :
    canonicalBytes m₁ = canonicalBytes m₂ :=
  ByteArray.ext (Array.toList_inj.mp h)

/-- A message that names the key it is checked under is rejected, or accepted under that key. -/
theorem rejected_of_ne {now : UnixTime} {msg : ClientMessage} {key : VerifyingKey}
    (hpk : parsePubkey crates msg.pubkey = .ok key)
    (hne : verifySignedMessage crates now msg ≠ .ok key) :
    ∃ e, verifySignedMessage crates now msg = .error e := by
  cases h : verifySignedMessage crates now msg with
  | error e => exact ⟨e, rfl⟩
  | ok key' =>
    obtain ⟨hpk', -, -⟩ := verifySignedMessage_ok h
    rw [hpk] at hpk'
    cases hpk'
    exact absurd h hne

/-- The bytes a signature covers determine every field but the signature. So, when a signature
verifies for one message at most under a key, a changed message is not accepted under the key of the
original, and it is rejected if it still names that key. -/
theorem signature_binds_message (m₁ m₂ : ClientMessage) :
    (canonicalBytes m₁ = canonicalBytes m₂ ↔ ∃ s, m₂ = m₁.withSignature s) ∧
      (∀ crates : Crates, Binding crates → ∀ now now' key,
        verifySignedMessage crates now m₁ = .ok key → m₂.signature = m₁.signature → m₂ ≠ m₁ →
        verifySignedMessage crates now' m₂ ≠ .ok key ∧
          (parsePubkey crates m₂.pubkey = parsePubkey crates m₁.pubkey →
            ∃ e, verifySignedMessage crates now' m₂ = .error e)) := by
  refine ⟨canonicalBytes_eq, ?_⟩
  intro crates hb now now' key h₁ hsig hne
  obtain ⟨hpk, -, sig₁, hs₁, hv₁⟩ := verifySignedMessage_ok h₁
  have hother : verifySignedMessage crates now' m₂ ≠ .ok key := by
    intro h₂
    obtain ⟨-, -, sig₂, hs₂, hv₂⟩ := verifySignedMessage_ok h₂
    have hs : sig₁ = sig₂ := by
      rw [hsig, hs₁] at hs₂
      exact Except.ok.inj hs₂
    have hbytes := canonicalBytes_toList_inj (hb key sig₁ _ _ hv₁ (hs ▸ hv₂))
    obtain ⟨s, rfl⟩ := canonicalBytes_eq.mp hbytes
    rw [ClientMessage.signature_withSignature] at hsig
    exact hne (by rw [hsig, ClientMessage.withSignature_self])
  exact ⟨hother, fun hsame => rejected_of_ne (hsame.trans hpk) hother⟩

/-! ## A scheme in which each key signs one ping -/

open Crates

def pingOf (pk : String) (timestamp : Int64) : ClientMessage :=
  .ping pk timestamp (signatureText 'a')

/-- Every key signs the ping that names it, and nothing else. -/
def pinging : Crates :=
  { demo with verify := fun key bytes _ =>
      bytes = (canonicalBytes (pingOf (String.ofList (hexText key.toList)) 0)).data.toList }

theorem pinging_binding : Binding pinging := by
  intro key sig bytes bytes' h h'
  exact (of_decide_eq_true h).trans (of_decide_eq_true h').symm

/-- The text of a key that stands for it in lower case, with what else a ping of it needs. -/
def readsBack (pk : String) : Bool :=
  match parsePubkey pinging pk, parseSignature pinging (signatureText 'a') with
  | .ok key, .ok _ => decide (String.ofList (hexText key.toList) = pk)
  | _, _ => false

theorem ping_accepted {pk : String} (h : readsBack pk = true) :
    ∃ key, parsePubkey pinging pk = .ok key ∧
      verifySignedMessage pinging .midnight (pingOf pk 0) = .ok key := by
  unfold readsBack at h
  split at h
  · rename_i key sig hkey hsig
    have htext : String.ofList (hexText key.toList) = pk := of_decide_eq_true h
    refine ⟨key, hkey, ?_⟩
    have htime : checkTimestamp .midnight 0 = .ok () := by decide
    have hverify : pinging.verify key (canonicalBytes (pingOf pk 0)).data.toList sig = true := by
      refine decide_eq_true ?_
      rw [htext]
    have hpk : (pingOf pk 0).pubkey = pk := rfl
    have hsignature : (pingOf pk 0).signature = signatureText 'a' := rfl
    have hstamp : (pingOf pk 0).timestamp = 0 := rfl
    simp only [verifySignedMessage, hpk, hkey, hsignature, hsig, hstamp, htime, bind, Except.bind,
      hverify, if_true]
    rfl
  · cases h

/-- A ping with another timestamp is rejected. -/
theorem changed_ping_rejected :
    ∃ e, verifySignedMessage pinging .midnight (pingOf (keyText 'a') 1) = .error e := by
  have ha : readsBack (keyText 'a') = true := by decide +kernel
  obtain ⟨key, -, haccepted⟩ := ping_accepted ha
  have hne : pingOf (keyText 'a') 1 ≠ pingOf (keyText 'a') 0 := by
    intro heq
    have hstamp : (1 : Int64) = 0 := congrArg ClientMessage.timestamp heq
    exact absurd hstamp (by decide)
  exact ((signature_binds_message (pingOf (keyText 'a') 0) (pingOf (keyText 'a') 1)).2 pinging
    pinging_binding .midnight .midnight key haccepted rfl hne).2 rfl

/-- The pubkey is a field too: the ping with another key in it is accepted under that key. -/
theorem changed_pubkey_accepted :
    ¬ ∀ crates : Crates, Binding crates → ∀ now m₁ m₂ key,
      verifySignedMessage crates now m₁ = .ok key → m₂.signature = m₁.signature → m₂ ≠ m₁ →
      ∃ e, verifySignedMessage crates now m₂ = .error e := by
  intro hrejects
  have ha : readsBack (keyText 'a') = true := by decide +kernel
  have hb : readsBack (keyText 'b') = true := by decide +kernel
  obtain ⟨key, -, haccepted⟩ := ping_accepted ha
  obtain ⟨key', -, haccepted'⟩ := ping_accepted hb
  have hne : pingOf (keyText 'b') 0 ≠ pingOf (keyText 'a') 0 := by
    intro heq
    have hpk : keyText 'b' = keyText 'a' := congrArg ClientMessage.pubkey heq
    exact absurd hpk (by decide)
  obtain ⟨e, he⟩ := hrejects pinging pinging_binding .midnight (pingOf (keyText 'a') 0)
    (pingOf (keyText 'b') 0) key haccepted rfl hne
  rw [haccepted'] at he
  cases he

end Auth

end HashedBroker
