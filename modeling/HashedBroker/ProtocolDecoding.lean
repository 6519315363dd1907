import HashedBroker.Protocol

/-!
# Decoding a received frame

`serde_json::from_str` on the types of `protocol.rs`, as their attributes say: the tag is looked up
first, a field is found by its name in an object or by its position in an array, a name that occurs
twice is an error, unknown names are ignored, and `default` fields may be missing. Decoding either
succeeds or fails; the wording of a failure belongs to the library and is not modelled.
-/
namespace HashedBroker.Protocol
open JsonText SortedMembers

/-- The member of a name: a second one is an error, none at all is left to the field. -/
def member (ms : List (String × Json)) (name : String) : Option (Option Json) :=
  match ms.filter fun m => m.1 = name with
  | [] => some none
  | [m] => some (some m.2)
  | _ => none

/-- Where the fields of a struct come from: their names and their positions. -/
abbrev Source := String → ℕ → Option (Option Json)

def fromMap (ms : List (String × Json)) : Source := fun name _ => member ms name

def fromSeq (xs : List Json) : Source := fun _ i => some xs[i]?

def required {α : Type} (src : Source) (name : String) (i : ℕ) (decode : Json → Option α) :
    Option α := do
  let v ← src name i
  decode (← v)

def defaulted {α : Type} (src : Source) (name : String) (i : ℕ) (decode : Json → Option α)
    (default : α) : Option α := do
  match ← src name i with
  | none => some default
  | some v => decode v

def asString : Json → Option String
  | .str s => some s
  | _ => none

def asStrings : Json → Option (List String)
  | .arr xs => xs.mapM asString
  | _ => none

def asOption {α : Type} (decode : Json → Option α) : Json → Option (Option α)
  | .null => some none
  | v => (decode v).map some

def asInt64 : Json → Option Int64
  | .int n => if -2 ^ 63 ≤ n ∧ n < 2 ^ 63 then some (Int64.ofInt n) else none
  | _ => none

/-- A unit variant is its name, or an object of one member with nothing in it. -/
def asKind : Json → Option IdentityKind
  | .str s => IdentityKind.parse s
  | .obj [(s, .null)] => IdentityKind.parse s
  | .obj [(s, .obj [])] => IdentityKind.parse s
  | _ => none

def addressesFrom (src : Source) : Option PeerAddresses := do
  let lan ← defaulted src "lan" 0 asStrings []
  let publicAddress ← defaulted src "public" 1 (asOption asString) none
  some ⟨lan, publicAddress⟩

def asAddresses : Json → Option PeerAddresses
  | .obj ms => addressesFrom (fromMap ms)
  | .arr xs => if xs.length ≤ 2 then addressesFrom (fromSeq xs) else none
  | _ => none

namespace ClientMessage

def variantFrom (src : Source) : String → Option ClientMessage
  | "register" => do
    let pubkey ← required src "pubkey" 0 asString
    let handle ← defaulted src "handle" 1 (asOption asString) none
    let addresses ← required src "addresses" 2 asAddresses
    let kind ← defaulted src "kind" 3 (asOption asKind) none
    let timestamp ← required src "timestamp" 4 asInt64
    let signature ← defaulted src "signature" 5 asString ""
    let requestId ← defaulted src "request_id" 6 (asOption asString) none
    some (register pubkey handle addresses kind timestamp signature requestId)
  | "lookup_peer" => do
    let pubkey ← required src "pubkey" 0 asString
    let targetPubkey ← required src "target_pubkey" 1 asString
    let timestamp ← required src "timestamp" 2 asInt64
    let signature ← defaulted src "signature" 3 asString ""
    let requestId ← defaulted src "request_id" 4 (asOption asString) none
    some (lookupPeer pubkey targetPubkey timestamp signature requestId)
  | "lookup_handle" => do
    let pubkey ← required src "pubkey" 0 asString
    let targetHandle ← required src "target_handle" 1 asString
    let timestamp ← required src "timestamp" 2 asInt64
    let signature ← defaulted src "signature" 3 asString ""
    let requestId ← defaulted src "request_id" 4 (asOption asString) none
    some (lookupHandle pubkey targetHandle timestamp signature requestId)
  | "signal" => do
    let pubkey ← required src "pubkey" 0 asString
    let recipient ← required src "to" 1 asString
    let payload ← required src "payload" 2 asString
    let timestamp ← required src "timestamp" 3 asInt64
    let signature ← defaulted src "signature" 4 asString ""
    let requestId ← defaulted src "request_id" 5 (asOption asString) none
    some (signal pubkey recipient payload timestamp signature requestId)
  | "subscribe_presence" => do
    let pubkey ← required src "pubkey" 0 asString
    let peers ← required src "peers" 1 asStrings
    let timestamp ← required src "timestamp" 2 asInt64
    let signature ← defaulted src "signature" 3 asString ""
    let requestId ← defaulted src "request_id" 4 (asOption asString) none
    some (subscribePresence pubkey peers timestamp signature requestId)
  | "unsubscribe_presence" => do
    let pubkey ← required src "pubkey" 0 asString
    let peers ← required src "peers" 1 asStrings
    let timestamp ← required src "timestamp" 2 asInt64
    let signature ← defaulted src "signature" 3 asString ""
    let requestId ← defaulted src "request_id" 4 (asOption asString) none
    some (unsubscribePresence pubkey peers timestamp signature requestId)
  | "request_relay" => do
    let pubkey ← required src "pubkey" 0 asString
    let peer ← required src "peer" 1 asString
    let timestamp ← required src "timestamp" 2 asInt64
    let signature ← defaulted src "signature" 3 asString ""
    let requestId ← defaulted src "request_id" 4 (asOption asString) none
    some (requestRelay pubkey peer timestamp signature requestId)
  | "accept_relay" => do
    let pubkey ← required src "pubkey" 0 asString
    let sessionId ← required src "session_id" 1 asString
    let timestamp ← required src "timestamp" 2 asInt64
    let signature ← defaulted src "signature" 3 asString ""
    let requestId ← defaulted src "request_id" 4 (asOption asString) none
    some (acceptRelay pubkey sessionId timestamp signature requestId)
  | "relay" => do
    let pubkey ← required src "pubkey" 0 asString
    let sessionId ← required src "session_id" 1 asString
    let data ← required src "data" 2 asString
    let timestamp ← required src "timestamp" 3 asInt64
    let signature ← defaulted src "signature" 4 asString ""
    some (relay pubkey sessionId data timestamp signature)
  | "team_announce" => do
    let pubkey ← required src "pubkey" 0 asString
    let teamId ← defaulted src "team_id" 1 (asOption asString) none
    let teamName ← required src "team_name" 2 asString
    let adminPubkey ← required src "admin_pubkey" 3 asString
    let adminSignature ← required src "admin_signature" 4 asString
    let timestamp ← required src "timestamp" 5 asInt64
    let signature ← defaulted src "signature" 6 asString ""
    let requestId ← defaulted src "request_id" 7 (asOption asString) none
    some (teamAnnounce pubkey teamId teamName adminPubkey adminSignature timestamp signature
      requestId)
  | "team_lookup" => do
    let pubkey ← required src "pubkey" 0 asString
    let teamId ← required src "team_id" 1 asString
    let timestamp ← required src "timestamp" 2 asInt64
    let signature ← defaulted src "signature" 3 asString ""
    let requestId ← defaulted src "request_id" 4 (asOption asString) none
    some (teamLookup pubkey teamId timestamp signature requestId)
  | "ping" => do
    let pubkey ← required src "pubkey" 0 asString
    let timestamp ← required src "timestamp" 1 asInt64
    let signature ← defaulted src "signature" 2 asString ""
    some (ping pubkey timestamp signature)
  | _ => none

/-- An object carries its tag as the member `type`; an array carries it as the first element, and
no more elements after it than the variant has fields. -/
def ofJson : Json → Option ClientMessage
  | .obj ms => do
    let tag ← required (fromMap ms) "type" 0 asString
    variantFrom (fromMap (ms.filter fun m => m.1 ≠ "type")) tag
  | .arr (.str tag :: xs) => do
    let m ← variantFrom (fromSeq xs) tag
    if xs.length ≤ m.fields.length then some m else none
  | _ => none

/-- `serde_json::from_str::<ClientMessage>`. -/
def fromStr (finite : List Char → Bool) (text : String) : Option ClientMessage :=
  (parse finite text).bind ofJson

end ClientMessage

/-! ## Decoding undoes serialising -/

theorem member_of_nodup {ms : List (String × Json)} (h : (ms.map Prod.fst).Nodup)
    (name : String) : member ms name = some (ms.lookup name) := by
  induction ms with
  | nil => rfl
  | cons m ms ih =>
    simp only [List.map_cons, List.nodup_cons] at h
    have hi := ih h.2
    unfold member at hi ⊢
    rw [lookup_cons_ite]
    by_cases hm : m.1 = name
    · have hnone : ms.filter (fun m => m.1 = name) = [] := by
        rw [List.filter_eq_nil_iff]
        intro x hx
        have : x.1 ≠ name := fun he => h.1 (List.mem_map.mpr ⟨x, hx, he.trans hm.symm⟩)
        simpa using this
      rw [List.filter_cons_of_pos (by simpa using hm), hnone, if_pos hm.symm]
    · rw [List.filter_cons_of_neg (by simpa using hm), hi, if_neg (Ne.symm hm)]

theorem mapM_asString (xs : List String) : (xs.map Json.str).mapM asString = some xs := by
  induction xs with
  | nil => rfl
  | cons x xs ih => simp [List.mapM_cons, asString, ih]

@[simp] theorem asStrings_stringList (xs : List String) : asStrings (stringList xs) = some xs :=
  mapM_asString xs

theorem int64_range (t : Int64) : -2 ^ 63 ≤ t.toInt ∧ t.toInt < 2 ^ 63 :=
  ⟨by simpa using Int64.le_toInt t, by simpa using Int64.toInt_lt t⟩

@[simp] theorem asInt64_toInt (t : Int64) : asInt64 (.int t.toInt) = some t := by
  simp only [asInt64, int64_range t, and_self, ↓reduceIte, Int64.ofInt_toInt]

@[simp] theorem asKind_asStr (k : IdentityKind) : asKind (.str k.asStr) = some k := by
  cases k <;> rfl

theorem PeerAddresses.toValue_eq (a : PeerAddresses) : a.toValue =
    .obj [("lan", stringList a.lan), ("public", a.publicAddress.elim .null .str)] := by
  have h : ¬ "public" < "lan" := by decide
  simp [PeerAddresses.toValue, insertAll, insertKey, h]

@[simp] theorem asAddresses_toValue (a : PeerAddresses) : asAddresses a.toValue = some a := by
  obtain ⟨lan, publicAddress⟩ := a
  rw [PeerAddresses.toValue_eq]
  cases publicAddress <;>
    simp [asAddresses, addressesFrom, fromMap, member, defaulted, asOption, asString]

theorem required_fromMap {α : Type} {ms : List (String × Json)} (h : (ms.map Prod.fst).Nodup)
    (name : String) (i : ℕ) (decode : Json → Option α) :
    required (fromMap ms) name i decode = (ms.lookup name).bind decode := by
  simp [required, fromMap, member_of_nodup h]

theorem defaulted_fromMap {α : Type} {ms : List (String × Json)} (h : (ms.map Prod.fst).Nodup)
    (name : String) (i : ℕ) (decode : Json → Option α) (d : α) :
    defaulted (fromMap ms) name i decode d = (ms.lookup name).elim (some d) decode := by
  cases hv : ms.lookup name <;> simp [defaulted, fromMap, member_of_nodup h, hv]

theorem elim_asOption {α : Type} (decode : Json → Option α) (encode : α → Json) (o : Option α)
    (hd : ∀ a, decode (encode a) = some a) (hn : ∀ a, encode a ≠ .null) :
    o.elim (some none) (asOption decode ∘ encode) = some o := by
  cases o with
  | none => rfl
  | some a =>
    have ha := hn a
    have hda := hd a
    simp only [Option.elim_some, Function.comp_apply]
    unfold asOption
    split
    · contradiction
    · rw [hda]
      rfl

theorem elim_option_string (o : Option String) :
    o.elim (some none) (asOption asString ∘ Json.str) = some o :=
  elim_asOption asString .str o (fun _ => rfl) fun _ => by simp

theorem elim_option_kind (o : Option IdentityKind) :
    o.elim (some none) (asOption asKind ∘ fun k => Json.str k.asStr) = some o :=
  elim_asOption asKind (fun k => .str k.asStr) o asKind_asStr fun _ => by simp

namespace ClientMessage

theorem nodup_without_type {ms : List (String × Json)} (h : (ms.map Prod.fst).Nodup) :
    ((ms.filter fun m => m.1 ≠ "type").map Prod.fst).Nodup :=
  h.sublist (List.Sublist.map _ List.filter_sublist)

theorem lookup_without_type (ms : List (String × Json)) {k : String} (hk : k ≠ "type") :
    (ms.filter fun m => m.1 ≠ "type").lookup k = ms.lookup k := by
  induction ms with
  | nil => rfl
  | cons m ms ih =>
    by_cases hm : m.1 = "type"
    · rw [List.filter_cons_of_neg (by simpa using hm), ih, lookup_cons_ite,
        if_neg (by rw [hm]; exact hk)]
    · rw [List.filter_cons_of_pos (by simpa using hm), lookup_cons_ite, lookup_cons_ite, ih]

/-- An object with the members of a message, in any order, decodes to the message; the addresses may
be another value that decodes alike. -/
theorem ofJson_of_fields {ms : List (String × Json)} {m : ClientMessage}
    (h : (ms.map Prod.fst).Nodup)
    (hl : ∀ k, k ≠ "addresses" → ms.lookup k = m.members.lookup k)
    (ha : (ms.lookup "addresses").bind asAddresses =
      (m.members.lookup "addresses").bind asAddresses) : ofJson (.obj ms) = some m := by
  have htag : required (fromMap ms) "type" 0 asString = some m.tag := by
    rw [required_fromMap h, hl _ (by decide), lookup_members, if_pos rfl]
    rfl
  have hnd := nodup_without_type h
  have hf : ∀ k, k ≠ "type" → k ≠ "addresses" →
      (ms.filter fun m => m.1 ≠ "type").lookup k = (m.fields.lookup k).join := by
    intro k hk hka
    rw [lookup_without_type ms hk, hl k hka, lookup_members, if_neg hk]
  have hfa : ((ms.filter fun m => m.1 ≠ "type").lookup "addresses").bind asAddresses =
      (m.fields.lookup "addresses").join.bind asAddresses := by
    rw [lookup_without_type ms (by decide), ha, lookup_members, if_neg (by decide)]
  rw [ofJson, htag, Option.bind_eq_bind, Option.bind_some]
  generalize ms.filter (fun m => m.1 ≠ "type") = rest at hnd hf hfa
  cases m <;>
    simp [tag, variantFrom, required_fromMap hnd, defaulted_fromMap hnd, hf, hfa, fields,
      lookup_cons_ite, asString, elim_option_string, elim_option_kind]

theorem ofJson_of_lookup {ms : List (String × Json)} {m : ClientMessage}
    (h : (ms.map Prod.fst).Nodup) (hl : ∀ k, ms.lookup k = m.members.lookup k) :
    ofJson (.obj ms) = some m :=
  ofJson_of_fields h (fun k _ => hl k) (by rw [hl])

end ClientMessage

end HashedBroker.Protocol
