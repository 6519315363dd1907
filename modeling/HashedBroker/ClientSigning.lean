import HashedBroker.JsStringify
import HashedBroker.ReceivedObject

/-!
# The TypeScript client's signed bytes

`sign.ts` and the request methods of `client.ts`: what a `BrokerClient` puts into a message, the
text it signs and the text it sends. The broker, reading the sent text, verifies the signed one.
-/
namespace HashedBroker.ClientSigning
open JsonText SortedMembers JsStringify Protocol

/-! ## sign.ts -/

def sortReplacer (_key : String) : JsValue → JsValue
  | .object src =>
    .object ((sort (src.map Prod.fst)).foldl (fun result k =>
      match src.lookup k with
      | none => result
      | some .undefined => result
      | some v => setProperty k v result) [])
  | v => v

def canonicalJson (fuel : ℕ) (value : JsValue) : Option String := stringify sortReplacer fuel value

/-- `{ ...message, signature }` -/
def withSignature (message : List (String × JsValue)) (signature : String) : JsValue :=
  .object (setProperty "signature" (.string signature) message)

/-- `sign` maps the bytes to sign to the hexadecimal text of their signature. -/
def signMessage (sign : ByteArray → String) (fuel : ℕ) (message : List (String × JsValue)) :
    Option JsValue := do
  let canonical ← canonicalJson fuel (withSignature message "")
  some (withSignature message (sign canonical.toUTF8))

/-! ## client.ts -/

/-- An argument of type `PeerAddresses`. The type names the properties, not their order. -/
structure AddressesArg where
  lan : List String
  publicAddress : Option String
  publicFirst : Bool

def AddressesArg.value (a : AddressesArg) : JsValue :=
  let lan := ("lan", JsValue.array (a.lan.map .string))
  let pub := ("public", a.publicAddress.elim .null .string)
  .object (if a.publicFirst then [pub, lan] else [lan, pub])

/-- A call of a request method; an optional argument that is `undefined` is `none`. -/
inductive Request
  | register (handle : Option String) (addresses : AddressesArg)
  | lookupPeer (targetPubkey : String)
  | lookupHandle (targetHandle : String)
  | sendSignal (recipient payloadBase64 : String)
  | subscribePresence (peers : List String)
  | unsubscribePresence (peers : List String)
  | requestRelay (peer : String)
  | acceptRelay (sessionId : String)
  | sendRelayFrame (sessionId dataBase64 : String)
  | announceTeam (teamId : Option String) (teamName adminPubkey adminSignature : String)
  | lookupTeam (teamId : String)
  | ping

/-- The message a method builds from the client's key, `nowSecs()` and a minted request id. -/
def Request.message (pubkeyHex : String) (nowSecs : ℤ) (requestId : String) :
    Request → List (String × JsValue)
  | register handle addresses =>
    [("type", .string "register"), ("pubkey", .string pubkeyHex), ("addresses", addresses.value),
      ("timestamp", .number nowSecs), ("request_id", .string requestId)] ++
      handle.elim [] fun h => [("handle", .string h)]
  | lookupPeer targetPubkey =>
    [("type", .string "lookup_peer"), ("pubkey", .string pubkeyHex),
      ("target_pubkey", .string targetPubkey), ("timestamp", .number nowSecs),
      ("request_id", .string requestId)]
  | lookupHandle targetHandle =>
    [("type", .string "lookup_handle"), ("pubkey", .string pubkeyHex),
      ("target_handle", .string targetHandle), ("timestamp", .number nowSecs),
      ("request_id", .string requestId)]
  | sendSignal recipient payloadBase64 =>
    [("type", .string "signal"), ("pubkey", .string pubkeyHex), ("to", .string recipient),
      ("payload", .string payloadBase64), ("timestamp", .number nowSecs)]
  | subscribePresence peers =>
    [("type", .string "subscribe_presence"), ("pubkey", .string pubkeyHex),
      ("peers", .array (peers.map .string)), ("timestamp", .number nowSecs),
      ("request_id", .string requestId)]
  | unsubscribePresence peers =>
    [("type", .string "unsubscribe_presence"), ("pubkey", .string pubkeyHex),
      ("peers", .array (peers.map .string)), ("timestamp", .number nowSecs)]
  | requestRelay peer =>
    [("type", .string "request_relay"), ("pubkey", .string pubkeyHex), ("peer", .string peer),
      ("timestamp", .number nowSecs), ("request_id", .string requestId)]
  | acceptRelay sessionId =>
    [("type", .string "accept_relay"), ("pubkey", .string pubkeyHex),
      ("session_id", .string sessionId), ("timestamp", .number nowSecs)]
  | sendRelayFrame sessionId dataBase64 =>
    [("type", .string "relay"), ("pubkey", .string pubkeyHex), ("session_id", .string sessionId),
      ("data", .string dataBase64), ("timestamp", .number nowSecs)]
  | announceTeam teamId teamName adminPubkey adminSignature =>
    [("type", .string "team_announce"), ("pubkey", .string pubkeyHex),
      ("team_name", .string teamName), ("admin_pubkey", .string adminPubkey),
      ("admin_signature", .string adminSignature), ("timestamp", .number nowSecs),
      ("request_id", .string requestId)] ++
      teamId.elim [] fun t => [("team_id", .string t)]
  | lookupTeam teamId =>
    [("type", .string "team_lookup"), ("pubkey", .string pubkeyHex), ("team_id", .string teamId),
      ("timestamp", .number nowSecs), ("request_id", .string requestId)]
  | ping =>
    [("type", .string "ping"), ("pubkey", .string pubkeyHex), ("timestamp", .number nowSecs)]

/-! ## Sorting a message -/

/-- The members in the order `sortReplacer` sets them. -/
def inKeyOrder (ms : List (String × Json)) : List (String × Json) :=
  present ((sort (ms.map Prod.fst)).map fun k => (k, ms.lookup k))

theorem lookup_map_pair (ks : List String) (f : String → Option Json) (k : String) :
    ((ks.map fun k => (k, f k)).lookup k).join = if k ∈ ks then f k else none := by
  induction ks with
  | nil => simp
  | cons a ks ih =>
    rw [List.map_cons, lookup_cons_ite]
    by_cases hk : k = a
    · simp [hk]
    · simp [hk, ih]

theorem lookup_inKeyOrder {ms : List (String × Json)} (hn : (ms.map Prod.fst).Nodup)
    (k : String) : (inKeyOrder ms).lookup k = ms.lookup k := by
  have hperm : (sort (ms.map Prod.fst)).Perm (ms.map Prod.fst) := List.mergeSort_perm _ _
  have hkeys : (((sort (ms.map Prod.fst)).map fun k => (k, ms.lookup k)).map Prod.fst).Nodup := by
    rw [List.map_map]
    simpa [Function.comp_def] using hperm.nodup_iff.mpr hn
  rw [inKeyOrder, lookup_present hkeys, lookup_map_pair]
  split_ifs with hk
  · rfl
  · exact (lookup_eq_none_of_notMem fun h => hk (hperm.mem_iff.mpr h)).symm

theorem inKeyOrder_increasing {ms : List (String × Json)} (hn : (ms.map Prod.fst).Nodup)
    (hb : ∀ k ∈ ms.map Prod.fst, Basic k) : Increasing (inKeyOrder ms) := by
  have hs := present_keys ((sort (ms.map Prod.fst)).map fun k => (k, ms.lookup k))
  rw [List.map_map] at hs
  have hp := (sort_increasing hn hb).sublist (by simpa [Function.comp_def] using hs)
  exact List.pairwise_map.mp hp

theorem setProperty_append {k : String} {v : JsValue} {ps : List (String × JsValue)}
    (h : k ∉ ps.map Prod.fst) : setProperty k v ps = ps ++ [(k, v)] := by
  induction ps with
  | nil => rfl
  | cons p ps ih =>
    simp only [List.map_cons, List.mem_cons, not_or] at h
    rw [setProperty, if_neg (Ne.symm h.1), ih h.2]
    rfl

theorem lookup_embedMembers (ms : List (String × Json)) (k : String) :
    (embedMembers ms).lookup k = (ms.lookup k).map embed := by
  rw [embedMembers_eq]
  induction ms with
  | nil => rfl
  | cons m ms ih =>
    rw [List.map_cons, lookup_cons_ite, lookup_cons_ite, ih]
    split_ifs <;> rfl

theorem embed_ne_undefined {depth : ℕ} {j : Json} (h : Plain depth j) : embed j ≠ .undefined := by
  cases h <;> simp [embed]

theorem sort_loop {src : List (String × Json)} (hd : ∀ k v, src.lookup k = some v →
    embed v ≠ .undefined) (ks : List String) (hn : ks.Nodup) (acc : List (String × JsValue))
    (ha : ∀ k ∈ ks, k ∉ acc.map Prod.fst) :
    ks.foldl (fun result k =>
      match (embedMembers src).lookup k with
      | none => result
      | some .undefined => result
      | some v => setProperty k v result) acc =
      acc ++ embedMembers (present (ks.map fun k => (k, src.lookup k))) := by
  induction ks generalizing acc with
  | nil => simp [present, embedMembers]
  | cons k ks ih =>
    obtain ⟨hk, hn⟩ := List.nodup_cons.mp hn
    rw [List.foldl_cons, lookup_embedMembers]
    cases hv : src.lookup k with
    | none =>
      have hp : present ((k :: ks).map fun k => (k, src.lookup k)) =
          present (ks.map fun k => (k, src.lookup k)) := by
        simp [present, hv]
      rw [hp]
      exact ih hn acc fun a hm => ha a (by simp [hm])
    | some v =>
      have hp : present ((k :: ks).map fun k => (k, src.lookup k)) =
          (k, v) :: present (ks.map fun k => (k, src.lookup k)) := by
        simp [present, hv]
      have hset : (match (Option.map embed (some v)) with
          | none => acc
          | some .undefined => acc
          | some v => setProperty k v acc) = acc ++ [(k, embed v)] := by
        rw [← setProperty_append (ha k (by simp)), Option.map_some]
        split
        · rename_i heq
          cases heq
        · rename_i heq
          exact absurd (Option.some.inj heq) (hd k v hv)
        · rename_i heq
          rw [Option.some.inj heq]
      have hacc : ∀ a ∈ ks, a ∉ (acc ++ [(k, embed v)]).map Prod.fst := by
        intro a hm
        have hak : a ≠ k := fun he => hk (he ▸ hm)
        simpa [hak] using ha a (by simp [hm])
      rw [hset, ih hn _ hacc, hp, embedMembers]
      simp

theorem sortReplacer_obj {depth : ℕ} {ms : List (String × Json)}
    (hn : (ms.map Prod.fst).Nodup) (hm : ∀ m ∈ ms, Plain depth m.2) (key : String) :
    sortReplacer key (embed (.obj ms)) = .object (embedMembers (inKeyOrder ms)) := by
  have hkeys : (embedMembers ms).map Prod.fst = ms.map Prod.fst := by
    rw [embedMembers_eq, List.map_map]
    rfl
  have hperm : (sort (ms.map Prod.fst)).Perm (ms.map Prod.fst) := List.mergeSort_perm _ _
  rw [embed, sortReplacer, hkeys,
    sort_loop (fun k v hv => embed_ne_undefined (hm _ (mem_of_lookup_eq_some hv))) _
      (hperm.nodup_iff.mpr hn) [] (by simp)]
  rfl

theorem map_sorted_increasing {ms : List (String × Json)} (h : Increasing ms) :
    Increasing (ms.map fun m => (m.1, sorted m.2)) :=
  List.pairwise_map.mpr h

/-- The text `canonicalJson` gives a value is that of the value with sorted names. -/
theorem serializeProperty_sortReplacer {depth : ℕ} {j : Json} (h : Plain depth j) :
    ∀ fuel, depth < fuel → ∀ key,
      serializeProperty sortReplacer fuel key (embed j) = some (some (print (sorted j))) := by
  induction h with
  | null depth =>
    intro fuel hf key
    obtain ⟨fuel, rfl⟩ := Nat.exists_eq_add_one_of_ne_zero (Nat.ne_zero_of_lt hf)
    rw [sorted]
    exact serializeProperty_scalar rfl (by simp)
  | bool depth b =>
    intro fuel hf key
    obtain ⟨fuel, rfl⟩ := Nat.exists_eq_add_one_of_ne_zero (Nat.ne_zero_of_lt hf)
    rw [sorted]
    exact serializeProperty_scalar rfl (by simp)
  | int depth n =>
    intro fuel hf key
    obtain ⟨fuel, rfl⟩ := Nat.exists_eq_add_one_of_ne_zero (Nat.ne_zero_of_lt hf)
    rw [sorted]
    exact serializeProperty_scalar rfl (by simp)
  | str depth s =>
    intro fuel hf key
    obtain ⟨fuel, rfl⟩ := Nat.exists_eq_add_one_of_ne_zero (Nat.ne_zero_of_lt hf)
    rw [sorted]
    exact serializeProperty_scalar rfl (by simp)
  | @arr depth xs _ ih =>
    intro fuel hf key
    obtain ⟨fuel, rfl⟩ := Nat.exists_eq_add_one_of_ne_zero (Nat.ne_zero_of_lt hf)
    rw [sorted, sortedElements_eq]
    exact serializeProperty_array (by rw [embed, embedElements_eq]; rfl)
      fun x hx k => ih x hx fuel (by omega) k
  | @obj depth ms nodup basic members ih =>
    intro fuel hf key
    obtain ⟨fuel, rfl⟩ := Nat.exists_eq_add_one_of_ne_zero (Nat.ne_zero_of_lt hf)
    have hlook := lookup_inKeyOrder nodup
    have hinc := inKeyOrder_increasing nodup basic
    have hmem : ∀ m ∈ inKeyOrder ms, m ∈ ms := by
      intro m hm
      obtain ⟨k, _, hk⟩ := List.mem_map.mp (mem_present hm)
      obtain ⟨rfl, hv⟩ := Prod.mk.inj hk
      exact mem_of_lookup_eq_some hv
    have hsame : sortedMembers ms [] = (inKeyOrder ms).map fun m => (m.1, sorted m.2) := by
      rw [sortedMembers_eq]
      refine (Increasing.insertAll List.Pairwise.nil).ext (map_sorted_increasing hinc) fun k => ?_
      rw [lookup_map_sorted, hlook, lookup_insertAll (by simpa [Function.comp_def] using nodup),
        lookup_map_sorted, List.lookup_nil, Option.or_none]
    rw [sorted, hsame]
    exact serializeProperty_object (by rw [sortReplacer_obj nodup members, embedMembers_eq])
      fun m hm k => ih m (hmem m hm) fuel (by omega) k

/-! ## What the broker makes of a sent message -/

def AddressesArg.members (a : AddressesArg) : List (String × Json) :=
  if a.publicFirst then [("public", a.publicAddress.elim .null .str), ("lan", stringList a.lan)]
  else [("lan", stringList a.lan), ("public", a.publicAddress.elim .null .str)]

/-- The message of a method as a JSON object. -/
def Request.members (pubkeyHex : String) (nowSecs : ℤ) (requestId : String) :
    Request → List (String × Json)
  | register handle addresses =>
    [("type", .str "register"), ("pubkey", .str pubkeyHex), ("addresses", .obj addresses.members),
      ("timestamp", .int nowSecs), ("request_id", .str requestId)] ++
      handle.elim [] fun h => [("handle", .str h)]
  | lookupPeer targetPubkey =>
    [("type", .str "lookup_peer"), ("pubkey", .str pubkeyHex),
      ("target_pubkey", .str targetPubkey), ("timestamp", .int nowSecs),
      ("request_id", .str requestId)]
  | lookupHandle targetHandle =>
    [("type", .str "lookup_handle"), ("pubkey", .str pubkeyHex),
      ("target_handle", .str targetHandle), ("timestamp", .int nowSecs),
      ("request_id", .str requestId)]
  | sendSignal recipient payloadBase64 =>
    [("type", .str "signal"), ("pubkey", .str pubkeyHex), ("to", .str recipient),
      ("payload", .str payloadBase64), ("timestamp", .int nowSecs)]
  | subscribePresence peers =>
    [("type", .str "subscribe_presence"), ("pubkey", .str pubkeyHex), ("peers", stringList peers),
      ("timestamp", .int nowSecs), ("request_id", .str requestId)]
  | unsubscribePresence peers =>
    [("type", .str "unsubscribe_presence"), ("pubkey", .str pubkeyHex),
      ("peers", stringList peers), ("timestamp", .int nowSecs)]
  | requestRelay peer =>
    [("type", .str "request_relay"), ("pubkey", .str pubkeyHex), ("peer", .str peer),
      ("timestamp", .int nowSecs), ("request_id", .str requestId)]
  | acceptRelay sessionId =>
    [("type", .str "accept_relay"), ("pubkey", .str pubkeyHex), ("session_id", .str sessionId),
      ("timestamp", .int nowSecs)]
  | sendRelayFrame sessionId dataBase64 =>
    [("type", .str "relay"), ("pubkey", .str pubkeyHex), ("session_id", .str sessionId),
      ("data", .str dataBase64), ("timestamp", .int nowSecs)]
  | announceTeam teamId teamName adminPubkey adminSignature =>
    [("type", .str "team_announce"), ("pubkey", .str pubkeyHex), ("team_name", .str teamName),
      ("admin_pubkey", .str adminPubkey), ("admin_signature", .str adminSignature),
      ("timestamp", .int nowSecs), ("request_id", .str requestId)] ++
      teamId.elim [] fun t => [("team_id", .str t)]
  | lookupTeam teamId =>
    [("type", .str "team_lookup"), ("pubkey", .str pubkeyHex), ("team_id", .str teamId),
      ("timestamp", .int nowSecs), ("request_id", .str requestId)]
  | ping =>
    [("type", .str "ping"), ("pubkey", .str pubkeyHex), ("timestamp", .int nowSecs)]

@[simp] theorem embed_stringList (xs : List String) :
    embed (stringList xs) = .array (xs.map .string) := by
  rw [stringList, embed, embedElements_eq, List.map_map]
  exact congrArg JsValue.array (List.map_congr_left fun x _ => by rw [Function.comp_apply, embed])

@[simp] theorem embed_addresses (a : AddressesArg) :
    JsValue.object (embedMembers a.members) = a.value := by
  have hp : embed (a.publicAddress.elim .null .str) = a.publicAddress.elim .null .string := by
    cases a.publicAddress <;> simp [embed]
  rw [AddressesArg.members, AddressesArg.value]
  split_ifs <;> simp [embedMembers, hp]

variable (pubkeyHex : String) (nowSecs : ℤ) (requestId : String) (r : Request)

theorem message_eq : r.message pubkeyHex nowSecs requestId =
    embedMembers (r.members pubkeyHex nowSecs requestId) := by
  cases r with
  | register handle addresses =>
    cases handle <;> simp [Request.message, Request.members, embedMembers, embed]
  | announceTeam teamId _ _ _ =>
    cases teamId <;> simp [Request.message, Request.members, embedMembers, embed]
  | _ => simp [Request.message, Request.members, embedMembers, embed]

def Request.signed (signature : String) : List (String × Json) :=
  r.members pubkeyHex nowSecs requestId ++ [("signature", .str signature)]

theorem withSignature_eq (signature : String) :
    withSignature (r.message pubkeyHex nowSecs requestId) signature =
      embed (.obj (r.signed pubkeyHex nowSecs requestId signature)) := by
  have hkeys : "signature" ∉ (r.message pubkeyHex nowSecs requestId).map Prod.fst := by
    cases r with
    | register handle addresses => cases handle <;> simp [Request.message]
    | announceTeam teamId _ _ _ => cases teamId <;> simp [Request.message]
    | _ => simp [Request.message]
  rw [withSignature, setProperty_append hkeys, message_eq, Request.signed, embed, embedMembers_eq,
    embedMembers_eq, List.map_append]
  simp [embed]

theorem stringList_plain (depth : ℕ) (xs : List String) : Plain (depth + 1) (stringList xs) := by
  refine .arr fun x hx => ?_
  obtain ⟨s, _, rfl⟩ := List.mem_map.mp hx
  exact .str depth s

theorem addresses_plain (a : AddressesArg) : Plain 2 (.obj a.members) := by
  have hp : Plain 1 (a.publicAddress.elim .null .str) := by
    cases a.publicAddress with
    | none => exact .null 1
    | some s => exact .str 1 s
  have hb : Basic "lan" ∧ Basic "public" := by simp [Basic]
  rw [AddressesArg.members]
  split_ifs <;>
    exact .obj (by simp) (by simp [hb]) (by simp [hp, stringList_plain])

theorem signed_plain (signature : String) :
    Plain 3 (.obj (r.signed pubkeyHex nowSecs requestId signature)) := by
  have hs : ∀ s, Plain 2 (.str s) := Plain.str 2
  have hi : ∀ n, Plain 2 (.int n) := Plain.int 2
  have hl : ∀ xs, Plain 2 (stringList xs) := stringList_plain 1
  have hb : ∀ k ∈ ["type", "pubkey", "addresses", "timestamp", "request_id", "handle",
      "target_pubkey", "target_handle", "to", "payload", "peers", "peer", "session_id", "data",
      "team_name", "admin_pubkey", "admin_signature", "team_id", "signature"], Basic k := by
    simp [Basic]
  simp only [List.forall_mem_cons] at hb
  cases r with
  | register handle addresses =>
    cases handle <;> refine .obj ?_ ?_ ?_ <;>
      simp [Request.signed, Request.members, hb, hs, hi, addresses_plain]
  | announceTeam teamId _ _ _ =>
    cases teamId <;> refine .obj ?_ ?_ ?_ <;>
      simp [Request.signed, Request.members, hb, hs, hi]
  | _ =>
    refine .obj ?_ ?_ ?_ <;> simp [Request.signed, Request.members, hb, hs, hi, hl]

theorem addresses_readable {finite : List Char → Bool} (a : AddressesArg) :
    Readable finite 126 (.obj a.members) := by
  have hp : Readable finite 125 (a.publicAddress.elim .null .str) := by
    cases a.publicAddress with
    | none => exact .null _
    | some s => exact .str _ s
  have hl : Readable finite 125 (stringList a.lan) := stringList_readable _ _
  rw [AddressesArg.members]
  split_ifs <;> exact .obj (by simp [hp, hl])

theorem signed_readable {finite : List Char → Bool} (ht : |nowSecs| < 2 ^ 53)
    (signature : String) :
    Readable finite 127 (.obj (r.signed pubkeyHex nowSecs requestId signature)) := by
  have hs : ∀ s, Readable finite 126 (.str s) := Readable.str _
  have hi : Readable finite 126 (.int nowSecs) := by
    rw [abs_lt] at ht
    exact .int _ (by omega) (by omega)
  have hl : ∀ xs, Readable finite 126 (stringList xs) := stringList_readable _
  refine .obj ?_
  cases r with
  | register handle addresses =>
    cases handle <;> simp [Request.signed, Request.members, hs, hi, addresses_readable]
  | announceTeam teamId _ _ _ =>
    cases teamId <;> simp [Request.signed, Request.members, hs, hi]
  | _ => simp [Request.signed, Request.members, hs, hi, hl]

theorem asAddresses_members (a : AddressesArg) :
    asAddresses (.obj a.members) = some ⟨a.lan, a.publicAddress⟩ := by
  obtain ⟨lan, publicAddress, publicFirst⟩ := a
  cases publicFirst <;> cases publicAddress <;>
    simp [AddressesArg.members, asAddresses, addressesFrom, fromMap, member, defaulted, asOption,
      asString]

theorem addresses_names (a : AddressesArg) (k : String) :
    k ∈ a.members.map Prod.fst ↔ k = "lan" ∨ k = "public" := by
  rw [AddressesArg.members]
  split_ifs <;> simp [or_comm]

theorem signed_ne_null (signature : String) :
    ∀ x ∈ r.signed pubkeyHex nowSecs requestId signature, x.2 ≠ .null := by
  cases r with
  | register handle _ => cases handle <;> simp [Request.signed, Request.members]
  | announceTeam teamId _ _ _ => cases teamId <;> simp [Request.signed, Request.members]
  | _ => simp [Request.signed, Request.members, stringList]

/-- The broker accepts every message of the client, and the client sends nothing the broker's
message would not say again. -/
theorem signed_accepted (ht : |nowSecs| < 2 ^ 53) (signature : String) :
    ∃ m, ClientMessage.ofJson (.obj (r.signed pubkeyHex nowSecs requestId signature)) = some m ∧
      m.signature = signature ∧
      Transparent m.tag (r.signed pubkeyHex nowSecs requestId signature) := by
  have hi : asInt64 (.int nowSecs) = some (Int64.ofInt nowSecs) := by
    rw [abs_lt] at ht
    simp only [asInt64, Option.ite_none_right_eq_some, and_true]
    omega
  have hw : ∀ k v, (k, v) ∈ r.signed pubkeyHex nowSecs requestId signature → v ≠ .null :=
    fun k v h => signed_ne_null pubkeyHex nowSecs requestId r signature (k, v) h
  cases r with
  | register handle addresses =>
    cases handle <;>
    · refine ⟨_, by
        simp [Request.signed, Request.members, ClientMessage.ofJson, ClientMessage.variantFrom,
          required, defaulted, fromMap, member, asString, hi, asAddresses_members, asOption]
        rfl, rfl, ?_, fun k v h _ => hw k v h, ?_, ?_⟩
      · simp [Request.signed, Request.members, ClientMessage.tag, fieldNames]
      · intro v hv _
        have hv : v = .obj addresses.members := by
          simpa [Request.signed, Request.members] using hv
        exact ⟨_, hv, addresses_names addresses⟩
      · simp [Request.signed, Request.members]
  | announceTeam teamId _ _ _ =>
    cases teamId <;>
    · refine ⟨_, by
        simp [Request.signed, Request.members, ClientMessage.ofJson, ClientMessage.variantFrom,
          required, defaulted, fromMap, member, asString, hi, asOption]
        rfl, rfl, ?_, fun k v h _ => hw k v h, ?_, ?_⟩ <;>
        simp [Request.signed, Request.members, ClientMessage.tag, fieldNames]
  | _ =>
    refine ⟨_, by
      simp [Request.signed, Request.members, ClientMessage.ofJson, ClientMessage.variantFrom,
        required, defaulted, fromMap, member, asString, hi, asOption]
      rfl, rfl, ?_, fun k v h _ => hw k v h, ?_, ?_⟩ <;>
      simp [Request.signed, Request.members, ClientMessage.tag, fieldNames]

theorem insertKey_insertKey (k : String) (v w : Json) {ms : List (String × Json)}
    (h : Increasing ms) : insertKey k v (insertKey k w ms) = insertKey k v ms := by
  refine h.insertKey.insertKey.ext h.insertKey fun k' => ?_
  simp only [lookup_insertKey]
  split_ifs <;> rfl

/-- Emptying the signature of the sent object gives back the object that was signed. -/
theorem sorted_draft (signature : String) :
    sorted (.obj (r.signed pubkeyHex nowSecs requestId "")) =
      receivedValue (r.signed pubkeyHex nowSecs requestId signature) := by
  have hinc : Increasing (insertAll ((r.members pubkeyHex nowSecs requestId).map
      fun m => (m.1, sorted m.2)) []) := Increasing.insertAll List.Pairwise.nil
  have hsplit : ∀ s, sortedMembers (r.signed pubkeyHex nowSecs requestId s) [] =
      insertKey "signature" (.str s) (insertAll ((r.members pubkeyHex nowSecs requestId).map
        fun m => (m.1, sorted m.2)) []) := by
    intro s
    rw [sortedMembers_eq, Request.signed, List.map_append, insertAll, List.foldl_append]
    simp [insertAll, sorted]
  rw [sorted, receivedValue, hsplit, hsplit, insertKey_insertKey _ _ _ hinc]

theorem canonicalJson_eq {fuel : ℕ} (hf : 4 ≤ fuel) :
    canonicalJson fuel (withSignature (r.message pubkeyHex nowSecs requestId) "") =
      some (String.ofList (print (sorted (.obj (r.signed pubkeyHex nowSecs requestId ""))))) := by
  have hdraft := serializeProperty_sortReplacer (signed_plain pubkeyHex nowSecs requestId r "")
    fuel hf ""
  rw [canonicalJson, stringify, withSignature_eq, hdraft]
  rfl

def Request.signatureBy (sign : ByteArray → String) : String :=
  sign (String.ofList (print (sorted (.obj (r.signed pubkeyHex nowSecs requestId ""))))).toUTF8

theorem signMessage_eq (sign : ByteArray → String) {fuel : ℕ} (hf : 4 ≤ fuel) :
    signMessage sign fuel (r.message pubkeyHex nowSecs requestId) =
      some (withSignature (r.message pubkeyHex nowSecs requestId)
        (r.signatureBy pubkeyHex nowSecs requestId sign)) := by
  rw [signMessage, canonicalJson_eq pubkeyHex nowSecs requestId r hf]
  rfl

theorem stringify_signed (signature : String) {fuel : ℕ} (hf : 4 ≤ fuel) :
    stringify identity fuel (withSignature (r.message pubkeyHex nowSecs requestId) signature) =
      some (String.ofList (print (.obj (r.signed pubkeyHex nowSecs requestId signature)))) := by
  have hsigned := serializeProperty_identity
    (signed_plain pubkeyHex nowSecs requestId r signature) fuel hf ""
  rw [stringify, withSignature_eq, hsigned]
  rfl

/-- The broker reads a message from the text of the signed request, whose signature is that of the
bytes it verifies for this message. -/
theorem canonicalisers_agree (sign : ByteArray → String) (finite : List Char → Bool) (fuel : ℕ)
    (hf : 4 ≤ fuel) (ht : |nowSecs| < 2 ^ 53) :
    ∃ canonical signed text m,
      canonicalJson fuel (withSignature (r.message pubkeyHex nowSecs requestId) "") =
        some canonical ∧
      signMessage sign fuel (r.message pubkeyHex nowSecs requestId) = some signed ∧
      stringify identity fuel signed = some text ∧
      ClientMessage.fromStr finite text = some m ∧
      canonical.toUTF8 = canonicalBytes m ∧ m.signature = sign (canonicalBytes m) := by
  let signature := r.signatureBy pubkeyHex nowSecs requestId sign
  obtain ⟨m, hm, hsignature, htrans⟩ := signed_accepted pubkeyHex nowSecs requestId r ht signature
  have hread : Readable finite 127 (.obj (r.signed pubkeyHex nowSecs requestId signature)) :=
    signed_readable pubkeyHex nowSecs requestId r ht signature
  have hbytes : (String.ofList (print (sorted (.obj
      (r.signed pubkeyHex nowSecs requestId ""))))).toUTF8 = canonicalBytes m := by
    rw [(canonicalBytes_eq_receivedBytes hread hm).mpr htrans, receivedBytes,
      ← sorted_draft pubkeyHex nowSecs requestId r signature]
  refine ⟨_, _, _, m, canonicalJson_eq pubkeyHex nowSecs requestId r hf,
    signMessage_eq pubkeyHex nowSecs requestId r sign hf,
    stringify_signed pubkeyHex nowSecs requestId r signature hf, ?_, hbytes, ?_⟩
  · rw [ClientMessage.fromStr, parse_print hread, Option.bind_some, hm]
  · rw [hsignature, ← hbytes]
    rfl

theorem canonicalisers_agree_register : ∃ canonical signed text m,
    canonicalJson 4 (withSignature (Request.message "b3" 1731340000 "req-m1-1"
      (.register (some "alice") ⟨["192.168.1.42:51820"], none, true⟩)) "") = some canonical ∧
    signMessage (fun _ => "77") 4 (Request.message "b3" 1731340000 "req-m1-1"
      (.register (some "alice") ⟨["192.168.1.42:51820"], none, true⟩)) = some signed ∧
    stringify identity 4 signed = some text ∧
    ClientMessage.fromStr (fun _ => true) text = some m ∧
    canonical.toUTF8 = canonicalBytes m ∧ m.signature = "77" :=
  canonicalisers_agree "b3" 1731340000 "req-m1-1" _ (fun _ => "77") (fun _ => true) 4 (by decide)
    (by decide)

end HashedBroker.ClientSigning
