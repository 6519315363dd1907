import HashedBroker.CanonicalBytes

/-!
# The received object and the verified bytes

The broker verifies a re-serialisation of the message it decoded. Decoding forgets what an unknown
member said, that an option was written as `null`, and in which of several forms an address record
or a kind was given. `Transparent` is the shape of an object in which none of this occurs, and it is
exactly the shape whose own sorted text is what the broker verifies.
-/
namespace HashedBroker.Protocol
open JsonText SortedMembers

/-- The received object with its signature emptied, every object of it sorted. -/
def receivedValue (ms : List (String × Json)) : Json :=
  .obj (insertKey "signature" (.str "") (sortedMembers ms []))

def receivedBytes (ms : List (String × Json)) : ByteArray :=
  (String.ofList (print (receivedValue ms))).toUTF8

/-- The names a variant knows besides its tag. -/
def fieldNames : String → List String
  | "register" =>
    ["pubkey", "handle", "addresses", "kind", "timestamp", "signature", "request_id"]
  | "lookup_peer" => ["pubkey", "target_pubkey", "timestamp", "signature", "request_id"]
  | "lookup_handle" => ["pubkey", "target_handle", "timestamp", "signature", "request_id"]
  | "signal" => ["pubkey", "to", "payload", "timestamp", "signature", "request_id"]
  | "subscribe_presence" => ["pubkey", "peers", "timestamp", "signature", "request_id"]
  | "unsubscribe_presence" => ["pubkey", "peers", "timestamp", "signature", "request_id"]
  | "request_relay" => ["pubkey", "peer", "timestamp", "signature", "request_id"]
  | "accept_relay" => ["pubkey", "session_id", "timestamp", "signature", "request_id"]
  | "relay" => ["pubkey", "session_id", "data", "timestamp", "signature"]
  | "team_announce" =>
    ["pubkey", "team_id", "team_name", "admin_pubkey", "admin_signature", "timestamp", "signature",
      "request_id"]
  | "team_lookup" => ["pubkey", "team_id", "timestamp", "signature", "request_id"]
  | "ping" => ["pubkey", "timestamp", "signature"]
  | _ => []

/-- The names that are left out of a message when their value is `None`. -/
def optionalNames : String → List String
  | "register" => ["handle", "kind", "request_id"]
  | "team_announce" => ["team_id", "request_id"]
  | "relay" => []
  | "ping" => []
  | _ => ["request_id"]

/-- An object of a variant that says nothing the decoded message would not say again. -/
structure Transparent (tag : String) (ms : List (String × Json)) : Prop where
  known : ∀ k ∈ ms.map Prod.fst, k = "type" ∨ k ∈ fieldNames tag
  written : ∀ k v, (k, v) ∈ ms → k ∈ optionalNames tag → v ≠ .null
  addresses : ∀ v, ("addresses", v) ∈ ms → tag = "register" →
    ∃ inner, v = .obj inner ∧ ∀ k, k ∈ inner.map Prod.fst ↔ k = "lan" ∨ k = "public"
  kind : ∀ v, ("kind", v) ∈ ms → tag = "register" → ∃ s, v = .str s

/-! ## Lookups in a sorted object -/

theorem sortedMembers_eq (ms acc : List (String × Json)) :
    sortedMembers ms acc = insertAll (ms.map fun m => (m.1, sorted m.2)) acc := by
  induction ms generalizing acc with
  | nil => simp [sortedMembers, insertAll]
  | cons m ms ih =>
    obtain ⟨k, v⟩ := m
    rw [sortedMembers, ih]
    rfl

theorem lookup_insertAll_last (ms acc : List (String × Json)) (k : String) :
    (insertAll ms acc).lookup k = (ms.reverse.lookup k).or (acc.lookup k) := by
  induction ms generalizing acc with
  | nil => simp [insertAll]
  | cons m ms ih =>
    have hi := ih (insertKey m.1 m.2 acc)
    simp only [insertAll, List.foldl_cons] at hi ⊢
    rw [hi, lookup_insertKey, List.reverse_cons, List.lookup_append, lookup_cons_ite,
      List.lookup_nil, Option.or_assoc]
    split_ifs <;> simp

theorem lookup_map_sorted (ms : List (String × Json)) (k : String) :
    (ms.map fun m => (m.1, sorted m.2)).lookup k = (ms.lookup k).map sorted := by
  induction ms with
  | nil => rfl
  | cons m ms ih =>
    rw [List.map_cons, lookup_cons_ite, lookup_cons_ite, ih]
    split_ifs <;> rfl

theorem lookup_sortedMembers (ms : List (String × Json)) (k : String) :
    (sortedMembers ms []).lookup k = (ms.reverse.lookup k).map sorted := by
  rw [sortedMembers_eq, lookup_insertAll_last, ← List.map_reverse, lookup_map_sorted,
    List.lookup_nil, Option.or_none]

theorem lookup_ne_none_of_mem {k : String} {ms : List (String × Json)}
    (h : k ∈ ms.map Prod.fst) : ms.lookup k ≠ none := by
  intro hn
  rw [List.lookup_eq_none_iff] at hn
  obtain ⟨m, hm, rfl⟩ := List.mem_map.mp h
  simpa using hn m hm

theorem mem_of_lookup_eq_some {k : String} {v : Json} {ms : List (String × Json)}
    (h : ms.lookup k = some v) : (k, v) ∈ ms := by
  induction ms with
  | nil => cases h
  | cons m ms ih =>
    rw [lookup_cons_ite] at h
    split_ifs at h with hk
    · cases h
      rw [hk]
      simp
    · exact List.mem_cons_of_mem _ (ih h)

theorem member_eq_some {ms : List (String × Json)} {k : String} {o : Option Json}
    (h : member ms k = some o) :
    ms.reverse.lookup k = o ∧ ∀ v, (k, v) ∈ ms ↔ o = some v := by
  have hmem : ∀ v, (k, v) ∈ ms ↔ (k, v) ∈ ms.filter fun m => m.1 = k := by simp
  have hval : ∀ v, (k, v) ∈ ms ↔ o = some v := by
    intro v
    rw [hmem]
    unfold member at h
    split at h
    · rename_i hf
      cases h
      simp [hf]
    · rename_i m hf
      cases h
      have hm : m.1 = k := by
        have hin : m ∈ ms.filter fun m => m.1 = k := by simp [hf]
        simpa using (List.mem_filter.mp hin).2
      simp only [hf, List.mem_singleton, Option.some.injEq]
      constructor
      · rintro rfl
        rfl
      · rintro rfl
        rw [← hm]
    · cases h
  refine ⟨?_, hval⟩
  cases hl : ms.reverse.lookup k with
  | some v =>
    exact ((hval v).mp (List.mem_reverse.mp (mem_of_lookup_eq_some hl))).symm
  | none =>
    cases o with
    | none => rfl
    | some v =>
      have hin : (k, v) ∈ ms := (hval v).mpr rfl
      have hk : k ∈ ms.reverse.map Prod.fst :=
        List.mem_map.mpr ⟨(k, v), List.mem_reverse.mpr hin, rfl⟩
      exact absurd hl (lookup_ne_none_of_mem hk)

/-! ## What decoding keeps of a member -/

theorem required_eq_some {α : Type} {ms : List (String × Json)} {k : String} {i : ℕ}
    {decode : Json → Option α} {a : α} (h : required (fromMap ms) k i decode = some a) :
    ∃ v, member ms k = some (some v) ∧ decode v = some a := by
  obtain ⟨o, ho, h⟩ := Option.bind_eq_some_iff.mp h
  obtain ⟨v, hv, h⟩ := Option.bind_eq_some_iff.mp h
  exact ⟨v, by rw [← hv]; exact ho, h⟩

theorem defaulted_eq_some {α : Type} {ms : List (String × Json)} {k : String} {i : ℕ}
    {decode : Json → Option α} {d a : α} (h : defaulted (fromMap ms) k i decode d = some a) :
    member ms k = some none ∧ a = d ∨ ∃ v, member ms k = some (some v) ∧ decode v = some a := by
  obtain ⟨o, ho, h⟩ := Option.bind_eq_some_iff.mp h
  cases o with
  | none => exact Or.inl ⟨ho, (Option.some.inj h).symm⟩
  | some v => exact Or.inr ⟨v, ho, h⟩

theorem asString_eq_some {v : Json} {s : String} (h : asString v = some s) : v = .str s := by
  cases v <;> simp_all [asString]

theorem asInt64_eq_some {v : Json} {t : Int64} (h : asInt64 v = some t) : v = .int t.toInt := by
  cases v with
  | int n =>
    simp only [asInt64, Option.ite_none_right_eq_some, Option.some.injEq] at h
    obtain ⟨⟨hl, hh⟩, rfl⟩ := h
    rw [Int64.toInt_ofInt_of_le (by simpa using hl) (by simpa using hh)]
  | _ => simp [asInt64] at h

theorem asStrings_eq_some {v : Json} {xs : List String} (h : asStrings v = some xs) :
    v = stringList xs := by
  cases v with
  | arr vs =>
    refine congrArg Json.arr ?_
    simp only [asStrings] at h
    induction vs generalizing xs with
    | nil => cases h; rfl
    | cons v vs ih =>
      rw [List.mapM_cons] at h
      obtain ⟨s, hs, h⟩ := Option.bind_eq_some_iff.mp h
      obtain ⟨ss, hss, h⟩ := Option.bind_eq_some_iff.mp h
      cases h
      rw [asString_eq_some hs, ih hss]
      rfl
  | _ => simp [asStrings] at h

theorem asOption_eq_some {α : Type} {decode : Json → Option α} {v : Json} {o : Option α}
    (h : asOption decode v = some o) :
    v = .null ∧ o = none ∨ v ≠ .null ∧ ∃ a, decode v = some a ∧ o = some a := by
  unfold asOption at h
  split at h
  · exact Or.inl ⟨rfl, (Option.some.inj h).symm⟩
  · rename_i hv
    obtain ⟨a, ha, rfl⟩ := Option.map_eq_some_iff.mp h
    exact Or.inr ⟨hv, a, ha, rfl⟩

theorem sortedElements_str (xs : List String) :
    sortedElements (xs.map Json.str) = xs.map Json.str := by
  induction xs with
  | nil => simp [sortedElements]
  | cons x xs ih => simp [sortedElements, sorted, ih]

@[simp] theorem sorted_stringList (xs : List String) : sorted (stringList xs) = stringList xs := by
  rw [stringList, sorted, sortedElements_str]

theorem asKind_eq_some {v : Json} {k : IdentityKind} (h : asKind v = some k) :
    v = .str k.asStr ∨ ∃ ms, v = .obj ms := by
  unfold asKind at h
  split at h
  · rename_i s
    refine Or.inl (congrArg Json.str ?_)
    unfold IdentityKind.parse at h
    split at h <;> cases h <;> rfl
  · exact Or.inr ⟨_, rfl⟩
  · exact Or.inr ⟨_, rfl⟩
  · cases h

theorem kind_restated {v : Json} {k : IdentityKind} (h : asKind v = some k) :
    sorted v = .str k.asStr ↔ ∃ s, v = .str s := by
  rcases asKind_eq_some h with rfl | ⟨ms, rfl⟩
  · simp [sorted]
  · simp [sorted]

theorem both_members {found : String → Option Json} {a b : Json}
    (ha : found "lan" = none ∨ found "lan" = some a)
    (hb : found "public" = none ∨ found "public" = some b) (hsa : sorted a = a)
    (hsb : sorted b = b) :
    (∀ k, (found k).map sorted = [("lan", a), ("public", b)].lookup k) ↔
      ∀ k, found k ≠ none ↔ k = "lan" ∨ k = "public" := by
  simp only [lookup_cons_ite, List.lookup_nil]
  constructor
  · intro h k
    have hk := h k
    cases hf : found k with
    | none =>
      rw [hf, Option.map_none] at hk
      split_ifs at hk with h1 h2
      simp [h1, h2]
    | some v =>
      rw [hf, Option.map_some] at hk
      split_ifs at hk with h1 h2
      · simp [h1]
      · simp [h2]
  · intro h k
    have hk := h k
    split_ifs with h1 h2
    · subst h1
      rcases ha with ha | ha
      · exact absurd ha (hk.mpr (Or.inl rfl))
      · rw [ha, Option.map_some, hsa]
    · subst h2
      rcases hb with hb | hb
      · exact absurd hb (hk.mpr (Or.inr rfl))
      · rw [hb, Option.map_some, hsb]
    · have hn : found k = none := by
        by_contra hne
        rcases hk.mp hne with h | h
        · exact h1 h
        · exact h2 h
      rw [hn, Option.map_none]

/-- Decoded address records are written back as they came only from an object of both members. -/
theorem addresses_restated {v : Json} {a : PeerAddresses} (h : asAddresses v = some a) :
    sorted v = a.toValue ↔
      ∃ inner, v = .obj inner ∧ ∀ k, k ∈ inner.map Prod.fst ↔ k = "lan" ∨ k = "public" := by
  cases v with
  | obj inner =>
    simp only [asAddresses, addressesFrom, Option.bind_eq_bind] at h
    obtain ⟨lan, hlan, h⟩ := Option.bind_eq_some_iff.mp h
    obtain ⟨pub, hpub, h⟩ := Option.bind_eq_some_iff.mp h
    cases h
    have hnames : ∀ k, k ∈ inner.map Prod.fst ↔ inner.reverse.lookup k ≠ none := by
      intro k
      constructor
      · intro hk
        exact lookup_ne_none_of_mem (by simpa using hk)
      · intro hk
        obtain ⟨v, hv⟩ := Option.ne_none_iff_exists'.mp hk
        exact List.mem_map.mpr ⟨_, List.mem_reverse.mp (mem_of_lookup_eq_some hv), rfl⟩
    -- both sides are ordered maps, so they are compared name by name
    have hinc : Increasing [("lan", stringList lan), ("public", pub.elim .null .str)] := by
      have hlt : "lan" < "public" := by decide
      exact List.pairwise_pair.mpr hlt
    have hsorted : Increasing (sortedMembers inner []) := by
      rw [sortedMembers_eq]
      exact Increasing.insertAll List.Pairwise.nil
    have hiff : sorted (.obj inner) = PeerAddresses.toValue ⟨lan, pub⟩ ↔
        ∀ k, (inner.reverse.lookup k).map sorted =
          [("lan", stringList lan), ("public", pub.elim .null .str)].lookup k := by
      rw [PeerAddresses.toValue_eq, sorted, Json.obj.injEq]
      simp only [← lookup_sortedMembers]
      exact ⟨fun he k => by rw [he], fun hk => hsorted.ext hinc hk⟩
    have hlan' : inner.reverse.lookup "lan" = none ∨
        inner.reverse.lookup "lan" = some (stringList lan) := by
      rcases defaulted_eq_some hlan with ⟨hm, -⟩ | ⟨v, hm, hd⟩
      · exact Or.inl (member_eq_some hm).1
      · rw [asStrings_eq_some hd] at hm
        exact Or.inr (member_eq_some hm).1
    have hpub' : inner.reverse.lookup "public" = none ∨
        inner.reverse.lookup "public" = some (pub.elim .null .str) := by
      rcases defaulted_eq_some hpub with ⟨hm, -⟩ | ⟨v, hm, hd⟩
      · exact Or.inl (member_eq_some hm).1
      · rcases asOption_eq_some hd with ⟨rfl, rfl⟩ | ⟨-, s, hs, rfl⟩
        · exact Or.inr (member_eq_some hm).1
        · rw [asString_eq_some hs] at hm
          exact Or.inr (member_eq_some hm).1
    have hpubSorted : sorted (pub.elim .null .str) = pub.elim .null .str := by
      cases pub <;> simp [sorted]
    rw [hiff, both_members hlan' hpub' (sorted_stringList lan) hpubSorted]
    simp only [Json.obj.injEq, exists_eq_left', hnames]
  | arr xs =>
    rw [PeerAddresses.toValue_eq]
    simp [sorted]
  | _ => simp [asAddresses] at h

/-- What `Transparent` asks of the member of one name. -/
structure Restated (tag name : String) (o : Option Json) : Prop where
  written : name ∈ optionalNames tag → o ≠ some .null
  addresses : tag = "register" → name = "addresses" → ∀ v, o = some v →
    ∃ inner, v = .obj inner ∧ ∀ k, k ∈ inner.map Prod.fst ↔ k = "lan" ∨ k = "public"
  kind : tag = "register" → name = "kind" → ∀ v, o = some v → ∃ s, v = .str s

/-- The member of a name came through decoding, and is written back unless it is one of the forms
`Restated` excludes. -/
def Kept (ms : List (String × Json)) (tag name : String) (w : Option Json) : Prop :=
  ∃ o, member ms name = some o ∧ (w = o.map sorted ↔ Restated tag name o)

section Kept

variable {ms : List (String × Json)} {tag name : String} {i : ℕ}

theorem kept_of_eq {w : Json} (hm : member ms name = some (some w)) (hw : sorted w = w)
    (ho : name ∉ optionalNames tag) (ha : name ≠ "addresses") (hk : name ≠ "kind") :
    Kept ms tag name (some w) := by
  refine ⟨_, hm, ?_⟩
  rw [Option.map_some, hw]
  exact iff_of_true rfl ⟨fun h => absurd h ho, fun _ h => absurd h ha, fun _ h => absurd h hk⟩

theorem kept_string {s : String} (h : required (fromMap ms) name i asString = some s)
    (ho : name ∉ optionalNames tag) (ha : name ≠ "addresses") (hk : name ≠ "kind") :
    Kept ms tag name (some (.str s)) := by
  obtain ⟨v, hm, hv⟩ := required_eq_some h
  rw [asString_eq_some hv] at hm
  exact kept_of_eq hm (by rw [sorted]) ho ha hk

theorem kept_int64 {t : Int64} (h : required (fromMap ms) name i asInt64 = some t)
    (ho : name ∉ optionalNames tag) (ha : name ≠ "addresses") (hk : name ≠ "kind") :
    Kept ms tag name (some (.int t.toInt)) := by
  obtain ⟨v, hm, hv⟩ := required_eq_some h
  rw [asInt64_eq_some hv] at hm
  exact kept_of_eq hm (by rw [sorted]) ho ha hk

theorem kept_strings {xs : List String} (h : required (fromMap ms) name i asStrings = some xs)
    (ho : name ∉ optionalNames tag) (ha : name ≠ "addresses") (hk : name ≠ "kind") :
    Kept ms tag name (some (stringList xs)) := by
  obtain ⟨v, hm, hv⟩ := required_eq_some h
  rw [asStrings_eq_some hv] at hm
  exact kept_of_eq hm (sorted_stringList xs) ho ha hk

theorem kept_option {o : Option String}
    (h : defaulted (fromMap ms) name i (asOption asString) none = some o)
    (ho : name ∈ optionalNames tag) (ha : name ≠ "addresses") (hk : name ≠ "kind") :
    Kept ms tag name (o.map .str) := by
  rcases defaulted_eq_some h with ⟨hm, rfl⟩ | ⟨v, hm, hv⟩
  · exact ⟨_, hm, iff_of_true rfl
      ⟨fun _ => by simp, fun _ h => absurd h ha, fun _ h => absurd h hk⟩⟩
  · rcases asOption_eq_some hv with ⟨rfl, rfl⟩ | ⟨hn, s, hs, rfl⟩
    · exact ⟨_, hm, iff_of_false (by simp) fun hr => hr.written ho rfl⟩
    · obtain rfl := asString_eq_some hs
      exact ⟨_, hm, iff_of_true (by simp [sorted])
        ⟨fun _ => by simp, fun _ h => absurd h ha, fun _ h => absurd h hk⟩⟩

theorem kept_kind {o : Option IdentityKind}
    (h : defaulted (fromMap ms) "kind" i (asOption asKind) none = some o) :
    Kept ms "register" "kind" (o.map fun k => .str k.asStr) := by
  have ho : "kind" ∈ optionalNames "register" := by simp [optionalNames]
  rcases defaulted_eq_some h with ⟨hm, rfl⟩ | ⟨v, hm, hv⟩
  · exact ⟨_, hm, iff_of_true rfl ⟨fun _ => by simp, fun _ h => by simp at h, fun _ _ => by simp⟩⟩
  · rcases asOption_eq_some hv with ⟨rfl, rfl⟩ | ⟨hn, k, hk, rfl⟩
    · exact ⟨_, hm, iff_of_false (by simp) fun hr => hr.written ho rfl⟩
    · refine ⟨_, hm, ?_⟩
      rw [Option.map_some, Option.map_some, Option.some.injEq, eq_comm, kind_restated hk]
      constructor
      · intro hs
        exact ⟨fun _ h => hn (Option.some.inj h), fun _ h => by simp at h,
          fun _ _ v hv => Option.some.inj hv ▸ hs⟩
      · intro hr
        exact hr.kind rfl rfl v rfl

theorem kept_addresses {a : PeerAddresses}
    (h : required (fromMap ms) "addresses" i asAddresses = some a) :
    Kept ms "register" "addresses" (some a.toValue) := by
  obtain ⟨v, hm, hv⟩ := required_eq_some h
  refine ⟨_, hm, ?_⟩
  rw [Option.map_some, Option.some.injEq, eq_comm, addresses_restated hv]
  constructor
  · intro hs
    exact ⟨fun h => by simp [optionalNames] at h, fun _ _ v hv => Option.some.inj hv ▸ hs,
      fun _ h => by simp at h⟩
  · intro hr
    exact hr.addresses rfl rfl v rfl

theorem variantFrom_kept {m : ClientMessage}
    (h : ClientMessage.variantFrom (fromMap ms) tag = some m) :
    m.tag = tag ∧ ∀ f ∈ m.fields, f.1 ≠ "signature" → Kept ms tag f.1 f.2 := by
  unfold ClientMessage.variantFrom at h
  split at h
  rotate_right
  · cases h
  all_goals simp only [Option.bind_eq_bind, Option.bind_eq_some_iff, Option.some.injEq] at h
  · obtain ⟨_, h1, _, h2, _, h3, _, h4, _, h5, _, -, _, h6, rfl⟩ := h
    refine ⟨rfl, ?_⟩
    simp [ClientMessage.fields, optionalNames, kept_string h1, kept_option h2, kept_addresses h3,
      kept_kind h4, kept_int64 h5, kept_option h6]
  · obtain ⟨_, h1, _, h2, _, h3, _, -, _, h4, rfl⟩ := h
    refine ⟨rfl, ?_⟩
    simp [ClientMessage.fields, optionalNames, kept_string h1, kept_string h2, kept_int64 h3,
      kept_option h4]
  · obtain ⟨_, h1, _, h2, _, h3, _, -, _, h4, rfl⟩ := h
    refine ⟨rfl, ?_⟩
    simp [ClientMessage.fields, optionalNames, kept_string h1, kept_string h2, kept_int64 h3,
      kept_option h4]
  · obtain ⟨_, h1, _, h2, _, h3, _, h4, _, -, _, h5, rfl⟩ := h
    refine ⟨rfl, ?_⟩
    simp [ClientMessage.fields, optionalNames, kept_string h1, kept_string h2, kept_string h3,
      kept_int64 h4, kept_option h5]
  · obtain ⟨_, h1, _, h2, _, h3, _, -, _, h4, rfl⟩ := h
    refine ⟨rfl, ?_⟩
    simp [ClientMessage.fields, optionalNames, kept_string h1, kept_strings h2, kept_int64 h3,
      kept_option h4]
  · obtain ⟨_, h1, _, h2, _, h3, _, -, _, h4, rfl⟩ := h
    refine ⟨rfl, ?_⟩
    simp [ClientMessage.fields, optionalNames, kept_string h1, kept_strings h2, kept_int64 h3,
      kept_option h4]
  · obtain ⟨_, h1, _, h2, _, h3, _, -, _, h4, rfl⟩ := h
    refine ⟨rfl, ?_⟩
    simp [ClientMessage.fields, optionalNames, kept_string h1, kept_string h2, kept_int64 h3,
      kept_option h4]
  · obtain ⟨_, h1, _, h2, _, h3, _, -, _, h4, rfl⟩ := h
    refine ⟨rfl, ?_⟩
    simp [ClientMessage.fields, optionalNames, kept_string h1, kept_string h2, kept_int64 h3,
      kept_option h4]
  · obtain ⟨_, h1, _, h2, _, h3, _, h4, _, -, rfl⟩ := h
    refine ⟨rfl, ?_⟩
    simp [ClientMessage.fields, optionalNames, kept_string h1, kept_string h2, kept_string h3,
      kept_int64 h4]
  · obtain ⟨_, h1, _, h2, _, h3, _, h4, _, h5, _, h6, _, -, _, h7, rfl⟩ := h
    refine ⟨rfl, ?_⟩
    simp [ClientMessage.fields, optionalNames, kept_string h1, kept_option h2, kept_string h3,
      kept_string h4, kept_string h5, kept_int64 h6, kept_option h7]
  · obtain ⟨_, h1, _, h2, _, h3, _, -, _, h4, rfl⟩ := h
    refine ⟨rfl, ?_⟩
    simp [ClientMessage.fields, optionalNames, kept_string h1, kept_string h2, kept_int64 h3,
      kept_option h4]
  · obtain ⟨_, h1, _, h2, _, -, rfl⟩ := h
    refine ⟨rfl, ?_⟩
    simp [ClientMessage.fields, optionalNames, kept_string h1, kept_int64 h2]

end Kept

/-! ## The verified bytes -/

theorem fieldNames_tag (m : ClientMessage) : m.fields.map Prod.fst = fieldNames m.tag := by
  cases m <;> rfl

theorem signature_mem_fieldNames (m : ClientMessage) : "signature" ∈ fieldNames m.tag := by
  cases m <;> simp [ClientMessage.tag, fieldNames]

theorem optionalNames_subset (m : ClientMessage) :
    ∀ k ∈ optionalNames m.tag, k ∈ fieldNames m.tag ∧ k ≠ "signature" := by
  cases m <;> simp [ClientMessage.tag, optionalNames, fieldNames]

theorem type_notMem_fieldNames (m : ClientMessage) : "type" ∉ fieldNames m.tag := by
  rw [← fieldNames_tag]
  exact (List.nodup_cons.mp m.names_nodup).1

theorem lookup_members_of_mem {m : ClientMessage} {f : String × Option Json}
    (hf : f ∈ m.fields) : m.members.lookup f.1 = f.2 := by
  have hne : f.1 ≠ "type" := by
    intro he
    refine type_notMem_fieldNames m ?_
    rw [← fieldNames_tag, ← he]
    exact List.mem_map_of_mem hf
  have hnd := (List.nodup_cons.mp m.names_nodup).2
  rw [m.lookup_members, if_neg hne]
  generalize m.fields = fs at hf hnd
  induction fs with
  | nil => cases hf
  | cons g fs ih =>
    simp only [List.map_cons, List.nodup_cons] at hnd
    rw [lookup_cons_ite]
    rcases List.mem_cons.mp hf with rfl | hf
    · simp
    · have hfg : f.1 ≠ g.1 := fun he => hnd.1 (he ▸ List.mem_map_of_mem hf)
      rw [if_neg hfg, ih hf hnd.2]

theorem member_without_type (ms : List (String × Json)) {k : String} (hk : k ≠ "type") :
    member (ms.filter fun m => m.1 ≠ "type") k = member ms k := by
  have hf : (ms.filter fun m => m.1 ≠ "type").filter (fun m => m.1 = k) =
      ms.filter fun m => m.1 = k := by
    rw [List.filter_filter]
    refine List.filter_congr fun m _ => ?_
    by_cases hm : m.1 = k
    · simp [hm, hk]
    · simp [hm]
  unfold member
  rw [hf]

theorem ofJson_kept {ms : List (String × Json)} {m : ClientMessage}
    (h : ClientMessage.ofJson (.obj ms) = some m) :
    member ms "type" = some (some (.str m.tag)) ∧
      ∀ f ∈ m.fields, f.1 ≠ "signature" → Kept ms m.tag f.1 f.2 := by
  rw [ClientMessage.ofJson, Option.bind_eq_bind] at h
  obtain ⟨tag, ht, hv⟩ := Option.bind_eq_some_iff.mp h
  obtain ⟨v, hm, hs⟩ := required_eq_some ht
  obtain rfl := asString_eq_some hs
  obtain ⟨rfl, hk⟩ := variantFrom_kept hv
  refine ⟨hm, fun f hf hne => ?_⟩
  obtain ⟨o, ho, hiff⟩ := hk f hf hne
  have htype : f.1 ≠ "type" := fun he => type_notMem_fieldNames m <| by
    rw [← fieldNames_tag, ← he]
    exact List.mem_map_of_mem hf
  exact ⟨o, member_without_type ms htype ▸ ho, hiff⟩

/-- The two values are compared name by name. -/
theorem canonicalValue_eq_receivedValue (m : ClientMessage) (ms : List (String × Json)) :
    canonicalValue m = receivedValue ms ↔ ∀ k, k ≠ "signature" →
      m.members.lookup k = (ms.reverse.lookup k).map sorted := by
  have hinc : Increasing (sortedMembers ms []) := by
    rw [sortedMembers_eq]
    exact Increasing.insertAll List.Pairwise.nil
  rw [canonicalValue, receivedValue, Json.obj.injEq]
  constructor
  · intro h k hk
    have hl := congrArg (fun l => List.lookup k l) h
    simp only [lookup_insertKey, if_neg hk] at hl
    rw [← m.lookup_toValue, hl, lookup_sortedMembers]
  · intro h
    refine m.toValue_increasing.insertKey.ext hinc.insertKey fun k => ?_
    rw [lookup_insertKey, lookup_insertKey]
    split_ifs with hk
    · rfl
    · rw [m.lookup_toValue, h k hk, lookup_sortedMembers]

theorem transparent_iff {ms : List (String × Json)} {m : ClientMessage}
    (h : ClientMessage.ofJson (.obj ms) = some m) :
    canonicalValue m = receivedValue ms ↔ Transparent m.tag ms := by
  obtain ⟨htype, hkept⟩ := ofJson_kept h
  rw [canonicalValue_eq_receivedValue]
  constructor
  · intro hl
    -- each known member is restated, because its field is
    have hr : ∀ k ∈ fieldNames m.tag, k ≠ "signature" → ∀ v, (k, v) ∈ ms →
        Restated m.tag k (some v) := by
      intro k hk hne v hv
      rw [← fieldNames_tag] at hk
      obtain ⟨f, hf, rfl⟩ := List.mem_map.mp hk
      obtain ⟨o, ho, hiff⟩ := hkept f hf hne
      have hl' := hl f.1 hne
      rw [lookup_members_of_mem hf, (member_eq_some ho).1] at hl'
      rw [← ((member_eq_some ho).2 v).mp hv]
      exact hiff.mp hl'
    constructor
    · intro k hk
      by_cases hs : k = "signature"
      · exact Or.inr (hs ▸ signature_mem_fieldNames m)
      by_cases ht : k = "type"
      · exact Or.inl ht
      have hmem : k ∈ ms.reverse.map Prod.fst := by
        simpa using hk
      have hne : (ms.reverse.lookup k).map sorted ≠ none := by
        simpa using lookup_ne_none_of_mem hmem
      rw [← hl k hs, m.lookup_members, if_neg ht] at hne
      refine Or.inr ?_
      rw [← fieldNames_tag]
      by_contra hnot
      exact hne (by rw [lookup_eq_none_of_notMem hnot]; rfl)
    · intro k v hv hk hn
      obtain ⟨hf, hs⟩ := optionalNames_subset m k hk
      exact (hr k hf hs v hv).written hk (congrArg some hn)
    · intro v hv ht
      exact (hr "addresses" (by rw [ht]; simp [fieldNames]) (by simp) v hv).addresses ht rfl v rfl
    · intro v hv ht
      exact (hr "kind" (by rw [ht]; simp [fieldNames]) (by simp) v hv).kind ht rfl v rfl
  · intro ht k hs
    by_cases hk : k = "type"
    · subst hk
      rw [m.lookup_members, if_pos rfl, (member_eq_some htype).1, Option.map_some, sorted]
    by_cases hf : k ∈ fieldNames m.tag
    · rw [← fieldNames_tag] at hf
      obtain ⟨f, hmf, rfl⟩ := List.mem_map.mp hf
      obtain ⟨o, ho, hiff⟩ := hkept f hmf hs
      have hmem := (member_eq_some ho).2
      rw [lookup_members_of_mem hmf, (member_eq_some ho).1]
      refine hiff.mpr ⟨?_, ?_, ?_⟩
      · intro hopt hn
        exact ht.written f.1 .null ((hmem _).mpr hn) hopt rfl
      · intro htag hname v hv
        exact ht.addresses v (hname ▸ (hmem v).mpr hv) htag
      · intro htag hname v hv
        exact ht.kind v (hname ▸ (hmem v).mpr hv) htag
    · have hnot : k ∉ ms.reverse.map Prod.fst := by
        intro hin
        rcases ht.known k (by simpa using hin) with h | h
        · exact hk h
        · exact hf h
      rw [m.lookup_members, if_neg hk, lookup_eq_none_of_notMem hnot,
        lookup_eq_none_of_notMem (by rw [fieldNames_tag]; exact hf)]
      rfl

theorem sortedElements_eq (xs : List Json) : sortedElements xs = xs.map sorted := by
  induction xs with
  | nil => simp [sortedElements]
  | cons x xs ih => simp [sortedElements, ih]

theorem sorted_readable {finite : List Char → Bool} {depth : ℕ} {j : Json}
    (h : Readable finite depth j) : Readable finite depth (sorted j) := by
  induction h with
  | null depth => simpa [sorted] using .null depth
  | bool depth b => simpa [sorted] using .bool depth b
  | int depth low high => simpa [sorted] using .int depth low high
  | float depth chars number => simpa [sorted] using .float depth chars number
  | str depth s => simpa [sorted] using .str depth s
  | arr _ ih =>
    rw [sorted, sortedElements_eq]
    refine .arr fun x hx => ?_
    obtain ⟨y, hy, rfl⟩ := List.mem_map.mp hx
    exact ih y hy
  | obj _ ih =>
    rw [sorted, sortedMembers_eq]
    refine .obj fun x hx => ?_
    rcases mem_insertAll hx with hx | hx
    · obtain ⟨y, hy, rfl⟩ := List.mem_map.mp hx
      exact ih y hy
    · cases hx

theorem receivedValue_readable {finite : List Char → Bool} {ms : List (String × Json)}
    (h : Readable finite 127 (.obj ms)) : Readable finite 127 (receivedValue ms) := by
  have hs := sorted_readable h
  rw [sorted] at hs
  cases hs with
  | obj members =>
    refine .obj fun x hx => ?_
    rcases mem_insertKey hx with rfl | hx
    · exact .str _ _
    · exact members x hx

theorem canonicalBytes_eq_receivedBytes {finite : List Char → Bool} {ms : List (String × Json)}
    {m : ClientMessage} (hr : Readable finite 127 (.obj ms))
    (hm : ClientMessage.ofJson (.obj ms) = some m) :
    canonicalBytes m = receivedBytes ms ↔ Transparent m.tag ms := by
  rw [← transparent_iff hm]
  constructor
  · intro h
    have hl := String.ofList_injective (String.toByteArray_inj.mp h)
    exact print_injective (canonicalValue_readable m) (receivedValue_readable hr) hl
  · intro h
    rw [canonicalBytes, receivedBytes, h]

/-- The bytes the broker verifies are those of the received object exactly when the object is
transparent. -/
theorem verifies_received_iff_transparent {finite : List Char → Bool} {text : String}
    {ms : List (String × Json)} {m : ClientMessage} (hp : parse finite text = some (.obj ms))
    (hm : ClientMessage.fromStr finite text = some m) :
    canonicalBytes m = receivedBytes ms ↔ Transparent m.tag ms := by
  have hj : ClientMessage.ofJson (.obj ms) = some m := by
    rwa [ClientMessage.fromStr, hp, Option.bind_some] at hm
  exact canonicalBytes_eq_receivedBytes (parse_readable hp) hj

/-- A `ping` as the protocol describes it is verified as received. -/
theorem ping_verifies_received :
    canonicalBytes (.ping "b3" 1731340000 "77") =
      receivedBytes [("type", .str "ping"), ("pubkey", .str "b3"), ("timestamp", .int 1731340000),
        ("signature", .str "77")] := by
  have hr : Readable (fun _ => true) 127 (.obj [("type", .str "ping"), ("pubkey", .str "b3"),
      ("timestamp", .int 1731340000), ("signature", .str "77")]) := by
    refine .obj fun x hx => ?_
    simp only [List.mem_cons, List.not_mem_nil, or_false] at hx
    rcases hx with rfl | rfl | rfl | rfl
    all_goals first
      | exact .str _ _
      | exact .int _ (by norm_num) (by norm_num)
  have hp := parse_print hr
  have hm : ClientMessage.fromStr (fun _ => true) (String.ofList (print (.obj [("type", .str "ping"),
      ("pubkey", .str "b3"), ("timestamp", .int 1731340000), ("signature", .str "77")]))) =
      some (.ping "b3" 1731340000 "77") := by
    decide +kernel
  refine (verifies_received_iff_transparent hp hm).mpr ⟨?_, ?_, ?_, ?_⟩ <;>
    simp [ClientMessage.tag, fieldNames, optionalNames]

/-- A `team_announce` as `PROTOCOL.md` shows it, its `team_id` an explicit `null`. -/
def announceWithNull : String :=
  "\x7b\"type\":\"team_announce\",\"team_id\":null,\"team_name\":\"Engineering\"," ++
  "\"admin_pubkey\":\"9b\",\"admin_signature\":\"ee\",\"pubkey\":\"b3\"," ++
  "\"timestamp\":1731340000,\"signature\":\"77\"\x7d"

def announceWithNullMembers : List (String × Json) :=
  [("type", .str "team_announce"), ("team_id", .null), ("team_name", .str "Engineering"),
    ("admin_pubkey", .str "9b"), ("admin_signature", .str "ee"), ("pubkey", .str "b3"),
    ("timestamp", .int 1731340000), ("signature", .str "77")]

theorem announceWithNull_readable :
    Readable (fun _ => true) 127 (.obj announceWithNullMembers) := by
  refine .obj fun x hx => ?_
  simp only [announceWithNullMembers, List.mem_cons, List.not_mem_nil, or_false] at hx
  rcases hx with rfl | rfl | rfl | rfl | rfl | rfl | rfl | rfl
  all_goals first
    | exact .str _ _
    | exact .null _
    | exact .int _ (by norm_num) (by norm_num)

theorem announceWithNull_parse :
    parse (fun _ => true) announceWithNull = some (.obj announceWithNullMembers) := by
  have ht : announceWithNull = String.ofList (print (.obj announceWithNullMembers)) := by
    decide +kernel
  rw [ht]
  exact parse_print announceWithNull_readable

/-- The broker accepts that text and verifies other bytes than those of the object it received. -/
theorem announceWithNull_not_verified : ∃ m ms,
    ClientMessage.fromStr (fun _ => true) announceWithNull = some m ∧
      parse (fun _ => true) announceWithNull = some (.obj ms) ∧
      canonicalBytes m ≠ receivedBytes ms := by
  have hm : ClientMessage.fromStr (fun _ => true) announceWithNull =
      some (.teamAnnounce "b3" none "Engineering" "9b" "ee" 1731340000 "77" none) := by
    decide +kernel
  have hp := announceWithNull_parse
  refine ⟨_, _, hm, hp, fun he => ?_⟩
  rw [ClientMessage.fromStr, hp, Option.bind_some] at hm
  have ht := (canonicalBytes_eq_receivedBytes announceWithNull_readable hm).mp he
  refine ht.written "team_id" .null ?_ ?_ rfl
  · simp [announceWithNullMembers]
  · simp [ClientMessage.tag, optionalNames]

end HashedBroker.Protocol
