import HashedBroker.HandleRecords
import HashedBroker.PresenceRelation

/-!
# Two ways to look a peer up

A peer can be looked up by its key and by its handle. The first lookup answers from the registry and
takes the kind from the database; the second takes the key from the database, and asks the registry
for addresses only. They say the same of a peer that is online and whose entry has that handle. A peer
that has left, or has come back without asking for its handle, is known to the second alone.
-/
namespace HashedBroker.LookupAgreement
open AtomicPrograms ReactiveTasks Protocol Database Server Sessions HandleRecords

/-- The key the handle belongs to: the handle is the primary key of its table. -/
def owner (db : Db ℕ) (handle : String) : Option String :=
  (db.handles.find? fun r => r.handle = handle).map HandleRow.pubkey

def storedKind (db : Db ℕ) (pk : String) : Option IdentityKind :=
  ((db.peers.find? fun r => r.pubkey = pk).map PeerRow.kind).bind IdentityKind.parse

/-- The answers a lookup by key receives when it is alone at work. -/
def LooksUpPeer (crates : Crates) (b : Broker) (pk : String) (hist : Prog.History Op Res) : Prop :=
  ∃ t requestId b' a, Returns (broker crates true) t
    (onLookupPeer true t pk requestId) b hist b' a

/-- The answers a lookup by handle receives when it is alone at work. -/
def LooksUpHandle (crates : Crates) (b : Broker) (handle : String) (hist : Prog.History Op Res) :
    Prop :=
  ∃ t requestId b' a, Returns (broker crates true) t
    (onLookupHandle true t handle requestId).run b hist b' a

def replies (hist : Prog.History Op Res) : List ServerMessage := hist.filterMap fun x =>
  match x with
  | ⟨.send _ msg, _⟩ => some msg
  | _ => none

def Failed (s : Statement) (hist : Prog.History Op Res) : Prop :=
  ∃ e, (⟨.query s, .error e⟩ : Σ o : Op, Res o) ∈ hist

/-- Both lookups are answered with a `PeerInfo`, and with the same one but for the request. -/
def Agree (x y : Prog.History Op Res) : Prop :=
  ∃ pk handle addresses reflected online kind requestId requestId',
    replies x = [.peerInfo pk handle addresses reflected online kind requestId] ∧
    replies y = [.peerInfo pk handle addresses reflected online kind requestId']

/-! ## What the lookups read -/

/-- The part of the broker that lookups read, and leave as it is. -/
structure Sources where
  peers : List PeerRow
  handles : List HandleRow
  registry : Registry.PeerRegistry

def Sources.of (b : Broker) : Sources := ⟨b.db.peers, b.db.handles, b.registry⟩

section Reads

variable {crates : Crates} {t : ℕ} {b b' : Broker} {hist : Prog.History Op Res} {α : Type} {a : α}

def sources (crates : Crates) : View (broker crates true) Sources where
  of := Sources.of
  steady x b b' h := by
    obtain ⟨channels, rfl⟩ := Broker.writerStep_frame h
    rfl

def value (v : Sources) : (s : Statement) → s.Rows → Prop
  | .peerKind pk, found => found = (v.peers.find? fun r => r.pubkey = pk).map PeerRow.kind
  | .resolveHandle h, found => found = (v.handles.find? fun r => r.handle = h).map HandleRow.pubkey
  | _, _ => False

def Reads (s : Statement) : Prop := (∃ pk, s = .peerKind pk) ∨ ∃ h, s = .resolveHandle h

theorem sources_getPeer {pk : String} {env : Env} {r : Option Registry.PeerHandle}
    (h : (broker crates true).exec t (.registry (.getPeer pk)) env b = some (r, b')) :
    r = (Sources.of b).registry.byPubkey.lookup pk ∧ Sources.of b' = Sources.of b := by
  cases h
  exact ⟨rfl, rfl⟩

theorem sources_query {s : Statement} (hs : Reads s) {env : Env} {r : Answer s}
    (h : (broker crates true).exec t (.query s) env b = some (r, b')) :
    (∀ rows, r = .ok rows → value (Sources.of b) s rows) ∧ Sources.of b' = Sources.of b := by
  have hx : Broker.exec crates t (.query s) env b = some (r, b') := h
  obtain ⟨db, hdb, rfl⟩ := Broker.exec_query hx
  rcases Db.exec_cases hdb with ⟨e, rfl, rfl⟩ | ⟨rows, rfl, -, hrun⟩
  · refine ⟨fun rows heq => ?_, rfl⟩
    cases heq
  · rcases hs with ⟨pk, rfl⟩ | ⟨hd, rfl⟩
    · cases hrun
      refine ⟨fun rows heq => ?_, rfl⟩
      cases heq
      rfl
    · cases hrun
      refine ⟨fun rows heq => ?_, rfl⟩
      cases heq
      rfl

theorem returns_query {s : Statement} (hs : Reads s) {k : Answer s → Work α} {v : Sources}
    (hv : Sources.of b = v) (h : Returns (broker crates true) t (.call (.query s) k) b hist b' a) :
    ∃ r b₁ hist₁, ((∀ rows, r = .ok rows → value v s rows) ∧ Sources.of b₁ = v) ∧
      Returns (broker crates true) t (k r) b₁ hist₁ b' a ∧ hist = hist₁ ++ [⟨.query s, r⟩] :=
  h.call_in (sources crates) hv (fun r v' => (∀ rows, r = .ok rows → value v s rows) ∧ v' = v)
    fun _ _ _ _ hb₀ hx => hb₀ ▸ sources_query hs hx

end Reads

/-! ## What the lookups reply -/

def kindOf (found : Except String (Option String)) : Option IdentityKind :=
  (found.toOption.getD none).bind IdentityKind.parse

def peerReply (requestId : Option String) (kind : Option IdentityKind) :
    Option Registry.PeerHandle → ServerMessage
  | some p => .peerInfo p.pubkey p.handle p.addresses (some p.reflected) true kind requestId
  | none => errorMsg .peerNotFound requestId

def handleReply (pk handle : String) (requestId : Option String) (kind : Option IdentityKind)
    (peer : Option Registry.PeerHandle) : ServerMessage :=
  .peerInfo pk (some handle) ((peer.map (·.addresses)).getD default) (peer.map (·.reflected))
    peer.isSome kind requestId

section Lookups

variable {crates : Crates} {b : Broker} {pk handle : String} {hist : Prog.History Op Res}

theorem onLookupPeer_eq (t : ℕ) (requestId : Option String) :
    onLookupPeer true t pk requestId =
      .call (.registry (.getPeer pk)) fun peer =>
      .call (.query (.peerKind pk)) fun kind =>
      .call (.send t (peerReply requestId (kindOf kind) peer)) fun _ => .done () := by
  refine Prog.call_congr fun peer => Prog.call_congr fun kind => ?_
  cases peer with
  | none => cases kind <;> rfl
  | some p => cases kind <;> rfl

theorem onLookupHandle_eq (t : ℕ) (requestId : Option String) :
    (onLookupHandle true t handle requestId).run =
      .call (.query (.resolveHandle handle)) fun
        | .error e => .done (.error (.database e))
        | .ok none => .call (.send t (errorMsg .peerNotFound requestId)) fun _ => .done (.ok ())
        | .ok (some pk) =>
          .call (.registry (.getPeer pk)) fun peer =>
          .call (.query (.peerKind pk)) fun kind =>
          .call (.send t (handleReply pk handle requestId (kindOf kind) peer)) fun _ =>
            .done (.ok ()) := by
  refine Prog.call_congr fun owner => ?_
  cases owner with
  | error e => rfl
  | ok owner =>
    cases owner with
    | none => rfl
    | some pk =>
      refine Prog.call_congr fun peer => Prog.call_congr fun kind => ?_
      cases kind <;> rfl

theorem LooksUpPeer.outcome (h : LooksUpPeer crates b pk hist) : ∃ t requestId kind sent,
    (∀ rows, kind = .ok rows → value (.of b) (.peerKind pk) rows) ∧
    hist = [⟨.send t (peerReply requestId (kindOf kind) (b.registry.byPubkey.lookup pk)), sent⟩,
      ⟨.query (.peerKind pk), kind⟩, ⟨.registry (.getPeer pk), b.registry.byPubkey.lookup pk⟩] := by
  obtain ⟨t, requestId, b', a, he⟩ := h
  rw [onLookupPeer_eq] at he
  obtain ⟨b₁, hist₁, hb₁, h₁, rfl⟩ := he.read_in (sources crates) rfl
    (fun v => v.registry.byPubkey.lookup pk) fun _ _ _ _ hx => sources_getPeer hx
  obtain ⟨kind, b₂, hist₂, ⟨hkind, -⟩, h₂, rfl⟩ := returns_query (Or.inl ⟨pk, rfl⟩) hb₁ h₁
  obtain ⟨sent, rfl⟩ := h₂.of_last (sources crates) fun _ => rfl
  exact ⟨t, requestId, kind, sent, hkind, rfl⟩

theorem LooksUpHandle.outcome (h : LooksUpHandle crates b handle hist)
    (howner : owner b.db handle = some pk) :
    (∃ e, hist = [⟨.query (.resolveHandle handle), .error e⟩]) ∨ ∃ t requestId kind sent,
      (∀ rows, kind = .ok rows → value (.of b) (.peerKind pk) rows) ∧
      hist = [⟨.send t (handleReply pk handle requestId (kindOf kind)
          (b.registry.byPubkey.lookup pk)), sent⟩, ⟨.query (.peerKind pk), kind⟩,
        ⟨.registry (.getPeer pk), b.registry.byPubkey.lookup pk⟩,
        ⟨.query (.resolveHandle handle), .ok (some pk)⟩] := by
  obtain ⟨t, requestId, b', a, he⟩ := h
  rw [onLookupHandle_eq] at he
  obtain ⟨found, b₁, hist₁, ⟨hfound, hb₁⟩, h₁, rfl⟩ :=
    returns_query (v := .of b) (Or.inr ⟨handle, rfl⟩) rfl he
  cases found with
  | error e =>
    rw [h₁.silent_of_done]
    exact Or.inl ⟨e, rfl⟩
  | ok rows =>
    obtain rfl : rows = some pk := (hfound rows rfl).trans howner
    obtain ⟨b₂, hist₂, hb₂, h₂, rfl⟩ := h₁.read_in (sources crates) hb₁
      (fun v => v.registry.byPubkey.lookup pk) fun _ _ _ _ hx => sources_getPeer hx
    obtain ⟨kind, b₃, hist₃, ⟨hkind, -⟩, h₃, rfl⟩ := returns_query (Or.inl ⟨pk, rfl⟩) hb₂ h₂
    obtain ⟨sent, rfl⟩ := h₃.of_last (sources crates) fun _ => rfl
    exact Or.inr ⟨t, requestId, kind, sent, hkind, rfl⟩

theorem kindOf_read {kind : Except String (Option String)}
    (hkind : ∀ rows, kind = .ok rows → value (.of b) (.peerKind pk) rows) :
    kindOf kind = if kind.isOk then storedKind b.db pk else none := by
  cases kind with
  | error e => rfl
  | ok rows =>
    obtain rfl := hkind rows rfl
    rfl

/-- Two reads of the kind come to the same if there is none, or if both have failed or neither. -/
theorem kinds_agree {kind kind' : Except String (Option String)}
    (hkind : ∀ rows, kind = .ok rows → value (.of b) (.peerKind pk) rows)
    (hkind' : ∀ rows, kind' = .ok rows → value (.of b) (.peerKind pk) rows) :
    kindOf kind = kindOf kind' ↔
      storedKind b.db pk = none ∨ ((∃ e, kind = .error e) ↔ ∃ e, kind' = .error e) := by
  rw [kindOf_read hkind, kindOf_read hkind']
  cases kind <;> cases kind' <;> simp [Except.isOk, Except.toBool, eq_comm]

theorem agree_iff {x y : Prog.History Op Res} (hentry : Recorded b)
    (howner : owner b.db handle = some pk) (hx : LooksUpPeer crates b pk x)
    (hy : LooksUpHandle crates b handle y) :
    Agree x y ↔
      (∃ peer, b.registry.byPubkey.lookup pk = some peer ∧ peer.handle = some handle) ∧
      ¬ Failed (.resolveHandle handle) y ∧
      (storedKind b.db pk = none ∨ (Failed (.peerKind pk) x ↔ Failed (.peerKind pk) y)) := by
  obtain ⟨t, requestId, kind, sent, hkind, rfl⟩ := hx.outcome
  rcases hy.outcome howner with ⟨e, rfl⟩ | ⟨u, requestId', kind', sent', hkind', rfl⟩
  · simp [Agree, replies, Failed]
  · have hfailed : ∀ {kind : Except String (Option String)} {t m sent} {l : Prog.History Op Res},
        (∀ e, (⟨.query (.peerKind pk), .error e⟩ : Σ o : Op, Res o) ∉ l) →
        (Failed (.peerKind pk) (⟨.send t m, sent⟩ :: ⟨.query (.peerKind pk), kind⟩ :: l) ↔
          ∃ e, kind = .error e) := by
      intro kind t m sent l hl
      simp [Failed, hl, eq_comm]
    rw [hfailed (by simp), hfailed (by simp), ← kinds_agree hkind hkind']
    have hresolved : ¬ Failed (.resolveHandle handle) [⟨.send u (handleReply pk handle requestId'
        (kindOf kind') (b.registry.byPubkey.lookup pk)), sent'⟩, ⟨.query (.peerKind pk), kind'⟩,
        ⟨.registry (.getPeer pk), b.registry.byPubkey.lookup pk⟩,
        ⟨.query (.resolveHandle handle), .ok (some pk)⟩] := by
      simp [Failed]
    simp only [hresolved, not_false_eq_true, true_and]
    cases hpeer : b.registry.byPubkey.lookup pk with
    | none => simp [Agree, replies, peerReply, errorMsg]
    | some p =>
      obtain ⟨hkey, -⟩ := hentry pk p hpeer
      simpa [Agree, replies, peerReply, handleReply, hkey] using and_congr eq_comm eq_comm

def Unfailing (hist : Prog.History Op Res) : Prop := ∀ s, ¬ Failed s hist

section Completion

variable {t : ℕ} {b₁ : Broker} {α : Type}

/-- The program comes to its end while the database answers. -/
def Completes (crates : Crates) (t : ℕ) (p : Work α) (b : Broker) : Prop :=
  ∃ hist b' a, Returns (broker crates true) t p b hist b' a ∧ Unfailing hist

theorem completes_call {o : Op} {k : Res o → Work α} {r : Res o} {env : Env}
    (hx : (broker crates true).exec t o env b = some (r, b₁))
    (hr : ∀ s e, (⟨o, r⟩ : Σ o : Op, Res o) ≠ ⟨.query s, .error e⟩)
    (hrest : Completes crates t (k r) b₁) : Completes crates t (.call o k) b := by
  obtain ⟨hist, b', a, he, hfine⟩ := hrest
  refine ⟨_, b', a, .call trivial hx he, ?_⟩
  rintro s ⟨e, hmem⟩
  rcases List.mem_append.mp hmem with hmem | hmem
  · exact hfine s ⟨e, hmem⟩
  · exact hr s e (List.mem_singleton.mp hmem).symm

theorem completes_send (b : Broker) (c : ℕ) (msg : ServerMessage) (a : α) :
    Completes crates t (.call (.send c msg) fun _ => .done a) b := by
  have hdone : ∀ b', Completes crates t (.done a : Work α) b' :=
    fun b' => ⟨[], b', a, .done a b', fun s ⟨e, hmem⟩ => absurd hmem List.not_mem_nil⟩
  by_cases hclosed : (b.channels c).closed = true
  · have hx : (broker crates true).exec t (.send c msg) Scripts.calm b =
        some (false, b.withChannel c (b.channels c)) := by
      simp [broker, Broker.exec, Channel.send, hclosed]
    exact completes_call hx (by simp) (hdone _)
  · have hx : (broker crates true).exec t (.send c msg) Scripts.calm
        (b.withChannel c { b.channels c with queued := 0 }) =
          some (true, (b.withChannel c { b.channels c with queued := 0 }).withChannel c
            ⟨msg :: (b.channels c).sent, 1, false⟩) := by
      simp [broker, Broker.exec, Broker.withChannel, Channel.send, Channel.capacity, hclosed]
    obtain ⟨hist, b', a', he, hfine⟩ := completes_call (k := fun _ => .done a) hx (by simp) (hdone _)
    exact ⟨hist, b', a', .of_disturbed (PresenceRelation.drained b c) he, hfine⟩

theorem completes_getPeer {pk : String} {k : Option Registry.PeerHandle → Work α}
    (hrest : ∀ peer, Completes crates t (k peer) b) :
    Completes crates t (.call (.registry (.getPeer pk)) k) b := by
  have hx : (broker crates true).exec t (.registry (.getPeer pk)) Scripts.calm b =
      some (b.registry.byPubkey.lookup pk, b) := rfl
  exact completes_call hx nofun (hrest _)

theorem completes_query {s : Statement} (hs : Reads s) {k : Answer s → Work α}
    (hrest : ∀ rows, Completes crates t (k (.ok rows)) b) :
    Completes crates t (.call (.query s) k) b := by
  have hx : ∃ rows, (broker crates true).exec t (.query s) Scripts.calm b = some (.ok rows, b) := by
    rcases hs with ⟨pk, rfl⟩ | ⟨hd, rfl⟩
    · exact ⟨_, rfl⟩
    · exact ⟨_, rfl⟩
  obtain ⟨rows, hx⟩ := hx
  refine completes_call hx ?_ (hrest rows)
  intro s' e heq
  cases heq

end Completion

theorem lookups_answered (b : Broker) (pk handle : String) : ∃ x y, LooksUpPeer crates b pk x ∧
    LooksUpHandle crates b handle y ∧ Unfailing x ∧ Unfailing y := by
  have hpeer : Completes crates 0 (onLookupPeer true 0 pk none) b := by
    rw [onLookupPeer_eq]
    refine completes_getPeer fun peer => completes_query (Or.inl ⟨pk, rfl⟩) fun kind => ?_
    exact completes_send b 0 _ ()
  have hhandle : Completes crates 0 (onLookupHandle true 0 handle none).run b := by
    rw [onLookupHandle_eq]
    refine completes_query (Or.inr ⟨handle, rfl⟩) fun owner => ?_
    cases owner with
    | none => exact completes_send b 0 _ _
    | some pk =>
      refine completes_getPeer fun peer => completes_query (Or.inl ⟨pk, rfl⟩) fun kind => ?_
      exact completes_send b 0 _ _
  obtain ⟨x, b₁, a₁, hx, hfine⟩ := hpeer
  obtain ⟨y, b₂, a₂, hy, hfine'⟩ := hhandle
  exact ⟨x, y, ⟨0, none, b₁, a₁, hx⟩, ⟨0, none, b₂, a₂, hy⟩, hfine, hfine'⟩

end Lookups

/-! ## Reachable states -/

section Runs

variable {crates : Crates} {db₀ : Db ℕ} {tr : List BrokerEvent} {σ : BrokerConfig}

/-- In every reachable state, the lookups of an owner by its key and by its handle, each alone at
work, come to their end, and they agree exactly if the owner is registered with that handle and the
database answers their queries alike. -/
theorem lookups_agree_iff (h : Run (broker crates true) (fresh db₀) tr σ) {pk handle : String}
    (howner : owner σ.shared.db handle = some pk) :
    (∃ x y, LooksUpPeer crates σ.shared pk x ∧ LooksUpHandle crates σ.shared handle y ∧
      Unfailing x ∧ Unfailing y) ∧
    ∀ x y, LooksUpPeer crates σ.shared pk x → LooksUpHandle crates σ.shared handle y →
      (Agree x y ↔
        (∃ peer, σ.shared.registry.byPubkey.lookup pk = some peer ∧ peer.handle = some handle) ∧
        ¬ Failed (.resolveHandle handle) y ∧
        (storedKind σ.shared.db pk = none ∨ (Failed (.peerKind pk) x ↔ Failed (.peerKind pk) y))) :=
  ⟨lookups_answered σ.shared pk handle, fun _ _ hx hy => agree_iff (records h).1 howner hx hy⟩

end Runs

/-! ## An owner that is online, and one that has left -/

open Scripts Crates

theorem online_outcome :
    (play true (fun _ _ _ => true) (joinsAs "alice") [] (fresh DatabaseCalls.emptyDb)).map
      (fun x => (owner x.2.shared.db "alice",
        (x.2.shared.registry.byPubkey.lookup (keyText 'a')).bind (·.handle))) =
      some (some (keyText 'a'), some "alice") := by
  decide +kernel

theorem lookups_agree_online : ∃ tr σ x y,
    Run (broker demo true) (fresh DatabaseCalls.emptyDb) tr σ ∧
    owner σ.shared.db "alice" = some (keyText 'a') ∧ LooksUpPeer demo σ.shared (keyText 'a') x ∧
    LooksUpHandle demo σ.shared "alice" y ∧ Agree x y := by
  obtain ⟨⟨tr, σ⟩, hp, heq⟩ := Option.map_eq_some_iff.mp online_outcome
  simp only [Prod.mk.injEq] at heq
  obtain ⟨howner, hentry⟩ := heq
  have hrun := run_of_play true hp
  obtain ⟨⟨x, y, hx, hy, hfine, hfine'⟩, hiff⟩ := lookups_agree_iff hrun howner
  refine ⟨tr, σ, x, y, hrun, howner, hx, hy, (hiff x y hx hy).mpr ⟨?_, hfine' _, Or.inr ?_⟩⟩
  · exact Option.bind_eq_some_iff.mp hentry
  · exact iff_of_false (hfine _) (hfine' _)

theorem offline_outcome :
    (play true (fun _ _ _ => true) (joinsAs "alice" ++ .leave 0 :: steps 0 7 calm) []
      (fresh DatabaseCalls.emptyDb)).map (fun x => (owner x.2.shared.db "alice",
        x.2.shared.registry.isOnline (keyText 'a'))) =
      some (some (keyText 'a'), false) := by
  decide +kernel

/-- The handle of a peer that has left finds it, and its key does not. -/
theorem lookups_of_offline_disagree : ∃ tr σ x y,
    Run (broker demo true) (fresh DatabaseCalls.emptyDb) tr σ ∧
    owner σ.shared.db "alice" = some (keyText 'a') ∧ LooksUpPeer demo σ.shared (keyText 'a') x ∧
    LooksUpHandle demo σ.shared "alice" y ∧ Unfailing x ∧ Unfailing y ∧ ¬ Agree x y := by
  obtain ⟨⟨tr, σ⟩, hp, heq⟩ := Option.map_eq_some_iff.mp offline_outcome
  simp only [Prod.mk.injEq] at heq
  obtain ⟨howner, hoffline⟩ := heq
  have hrun := run_of_play true hp
  obtain ⟨x, y, hx, hy, hfine, hfine'⟩ : ∃ x y, LooksUpPeer demo σ.shared (keyText 'a') x ∧
      LooksUpHandle demo σ.shared "alice" y ∧ Unfailing x ∧ Unfailing y := lookups_answered _ _ _
  refine ⟨tr, σ, x, y, hrun, howner, hx, hy, hfine, hfine', fun hagree => ?_⟩
  obtain ⟨⟨peer, hpeer, -⟩, -⟩ := (agree_iff (records hrun).1 howner hx hy).mp hagree
  rw [Registry.PeerRegistry.isOnline, hpeer] at hoffline
  cases hoffline

end HashedBroker.LookupAgreement
