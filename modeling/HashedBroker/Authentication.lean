import HashedBroker.SessionTransactions
import HashedBroker.RegistryLiveness

/-!
# No effect without authentication

Whatever the broker stores, charges or sends in the name of a key happens while a session of that
key handles a frame the key has signed, or while the register frame of that session is handled. The
effects are read off the shared state before and after a step; the operation that causes one names
the key, and a session's operations name no key but the one it has authenticated. One operation
names none: a session drops a set of watchers it has emptied with whoever has joined it since.
-/
namespace HashedBroker.Authentication
open KeyedTables AtomicPrograms ReactiveTasks Protocol Database Server Sessions
open SessionTransactions (Acting)

/-! ## Effects in the name of a key -/

def sender : ServerMessage → Option String
  | .signal sender _ _ => some sender
  | .relayOffer _ sender => some sender
  | .relayData _ sender _ => some sender
  | _ => none

/-- What a step does in the name of a key: it enqueues a message from it, registers it, adds a
subscription of it, creates or accepts a relay session for it, charges it, or stores a row of it. -/
inductive Effect (P : String) (b b' : Broker) : Prop
  | sent (c : ℕ) (msg : ServerMessage) (named : sender msg = some P)
      (enqueued : (b'.channels c).sent = msg :: (b.channels c).sent)
  | registered (peer : Registry.PeerHandle) (entry : b'.registry.byPubkey.lookup P = some peer)
      (new : b.registry.byPubkey.lookup P ≠ some peer)
  | subscribed (target : String) (entry : target ∈ b'.presence.targets P)
      (new : target ∉ b.presence.targets P)
  | watching (target : String) (entry : P ∈ b'.presence.watching target)
      (new : P ∉ b.presence.watching target)
  | requested (id : Uuid) (responder : String)
      (entry : b'.relay.sessions.lookup id = some ⟨P, responder, .pending⟩)
      (new : b.relay.sessions.lookup id ≠ some ⟨P, responder, .pending⟩)
  | accepted (id : Uuid) (initiator : String)
      (entry : b'.relay.sessions.lookup id = some ⟨initiator, P, .active⟩)
      (new : b.relay.sessions.lookup id ≠ some ⟨initiator, P, .active⟩)
  | chargedQuota (changed : b'.relay.quotas.lookup P ≠ b.relay.quotas.lookup P)
  | madeLimiter (changed : b'.signaling.map.lookup P ≠ b.signaling.map.lookup P)
  | chargedLimiter (n : ℕ)
      (changed : b'.signaling.checks.lookup (P, n) ≠ b.signaling.checks.lookup (P, n))
  | peerRow (row : PeerRow) (key : row.pubkey = P) (entry : row ∈ b'.db.peers)
      (new : row ∉ b.db.peers)
  | handleRow (handle : String) (entry : ⟨handle, P⟩ ∈ b'.db.handles)
      (new : ⟨handle, P⟩ ∉ b.db.handles)
  | memberRow (row : TeamMemberRow) (key : row.memberPubkey = P) (entry : row ∈ b'.db.teamMembers)
      (new : row ∉ b.db.teamMembers)

inductive Unsubscribes (P : String) (b b' : Broker) : Prop
  | target (target : String) (old : target ∈ b.presence.targets P)
      (gone : target ∉ b'.presence.targets P)
  | watcher (target : String) (old : P ∈ b.presence.watching target)
      (gone : P ∉ b'.presence.watching target)

/-- The key an operation is about, if it has effects in the name of one. -/
def subject : Op → Option String
  | .query (.upsertPeer pubkey) => some pubkey
  | .query (.upsertPeerWithKind pubkey _) => some pubkey
  | .query (.insertTeamMember _ memberPubkey _) => some memberPubkey
  | .registry (.insertPeer peer) => some peer.pubkey
  | .presence (.insert subscriber _) => some subscriber
  | .presence (.remove subscriber _) => some subscriber
  | .presence (.watch _ subscriber) => some subscriber
  | .presence (.unwatch _ subscriber) => some subscriber
  | .presence (.take subscriber) => some subscriber
  | .relay (.insertSession initiator _) => some initiator
  | .relay (.promote _ responder) => some responder
  | .relay (.quotaEntry pubkey) => some pubkey
  | .relay (.consume pubkey _) => some pubkey
  | .signaling (.insert pubkey) => some pubkey
  | .signaling (.check pubkey _) => some pubkey
  | .send _ msg => sender msg
  | _ => none

def Commits (P : String) (txn : Transaction) : Prop :=
  (∃ row ∈ txn.handles, row.pubkey = P) ∨ ∃ u ∈ txn.peers, u.1 = P

/-! ## An effect comes from an operation about its key -/

section Effects

variable {crates : Crates} {t : ℕ} {o : Op} {env : Env} {b b' : Broker} {r : Res o} {P : String}

theorem subject_of_sent (hx : Broker.exec crates t o env b = some (r, b')) {c : ℕ}
    {msg : ServerMessage} (h : (b'.channels c).sent = msg :: (b.channels c).sent) :
    o = .send c msg := by
  rcases Broker.sent_of_exec hx c with hsame | ⟨msg', rfl, hsent⟩
  · rw [h] at hsame
    exact absurd hsame (List.cons_ne_self _ _)
  · rw [h] at hsent
    cases hsent
    rfl

theorem subject_of_registered (hx : Broker.exec crates t o env b = some (r, b'))
    {peer : Registry.PeerHandle} (h : b'.registry.byPubkey.lookup P = some peer)
    (hnew : b.registry.byPubkey.lookup P ≠ some peer) : subject o = some P := by
  by_cases ho : ∃ a, o = .registry a
  · obtain ⟨a, rfl⟩ := ho
    cases hx
    have hl := b.registry.lookup_exec a P
    simp only at h
    rw [hl] at h
    cases a with
    | insertPeer p =>
      simp only at h
      split_ifs at h with hp
      · exact congrArg some hp.symm
      · exact absurd h hnew
    | removePeer pk =>
      simp only at h
      split_ifs at h
      exact absurd h hnew
    | _ => exact absurd h hnew
  · have hne : ∀ a, o ≠ .registry a := fun a he => ho ⟨a, he⟩
    rw [(Broker.exec_frame hx).registry hne] at h
    exact absurd h hnew

theorem subject_of_targets (hx : Broker.exec crates t o env b = some (r, b')) {target : String}
    (h : ¬ (target ∈ b'.presence.targets P ↔ target ∈ b.presence.targets P)) :
    subject o = some P := by
  rcases Broker.presence_of_exec hx with hsame | ⟨a, x, rfl, hpm⟩
  · rw [hsame] at h
    exact absurd Iff.rfl h
  · have ht := Presence.PresenceManager.targets_exec hpm P
    rw [ht] at h
    cases a with
    | insert s target' =>
      by_cases hs : P = s
      · exact congrArg some hs.symm
      · simp [hs] at h
    | remove s target' =>
      by_cases hs : P = s
      · exact congrArg some hs.symm
      · simp [hs] at h
    | take s =>
      by_cases hs : P = s
      · exact congrArg some hs.symm
      · simp [hs] at h
    | _ => exact absurd Iff.rfl h

theorem subject_of_watching (hx : Broker.exec crates t o env b = some (r, b')) {target : String}
    (h : ¬ (P ∈ b'.presence.watching target ↔ P ∈ b.presence.watching target)) :
    subject o = some P ∨
      o = .presence (.dropWatchers target) ∧ P ∉ b'.presence.watching target := by
  rcases Broker.presence_of_exec hx with hsame | ⟨a, x, rfl, hpm⟩
  · rw [hsame] at h
    exact absurd Iff.rfl h
  · have hw := Presence.PresenceManager.watching_exec hpm target
    rw [hw] at h ⊢
    cases a with
    | watch target' s =>
      by_cases ht : target = target'
      · refine Or.inl (congrArg some ?_)
        by_contra hs
        simp [ht, Ne.symm hs] at h
      · simp [ht] at h
    | unwatch target' s =>
      by_cases ht : target = target'
      · refine Or.inl (congrArg some ?_)
        by_contra hs
        simp [ht, Ne.symm hs] at h
      · simp [ht] at h
    | dropWatchers target' =>
      by_cases ht : target = target'
      · subst ht
        exact Or.inr ⟨rfl, by simp⟩
      · simp [ht] at h
    | _ => exact absurd Iff.rfl h

theorem subject_of_session (hx : Broker.exec crates t o env b = some (r, b')) {id : Uuid}
    {s : Relay.Session} (h : b'.relay.sessions.lookup id = some s)
    (hnew : b.relay.sessions.lookup id ≠ some s) :
    subject o = some (if s.state = .pending then s.initiator else s.responder) := by
  rcases Broker.relay_of_exec hx with hsame | ⟨a, x, rfl, hrm⟩
  · rw [hsame] at h
    exact absurd h hnew
  · rcases Relay.RelayManager.sessions_exec hrm with ⟨A, B, rfl, hs⟩ | ⟨id', s', rfl, -, -, hs⟩ |
      ⟨id', rfl, hs⟩ | hs
    · rw [hs, lookup_insert_ite] at h
      split_ifs at h
      · cases h
        rfl
      · exact absurd h hnew
    · rw [hs, lookup_insert_ite] at h
      split_ifs at h
      · cases h
        rfl
      · exact absurd h hnew
    · rw [hs, lookup_erase_ite] at h
      split_ifs at h
      exact absurd h hnew
    · exact absurd (hs ▸ h) hnew

theorem subject_of_quota (hx : Broker.exec crates t o env b = some (r, b'))
    (h : b'.relay.quotas.lookup P ≠ b.relay.quotas.lookup P) : subject o = some P := by
  rcases Broker.relay_of_exec hx with hsame | ⟨a, x, rfl, hrm⟩
  · rw [hsame] at h
    exact absurd rfl h
  · rcases Relay.RelayManager.quotas_exec hrm with hs | ⟨pk, q, ha, hs⟩
    · exact absurd (congrArg (AList.lookup P) hs) h
    · rw [hs, lookup_insert_ite] at h
      split_ifs at h with hp
      · rcases ha with rfl | ⟨bytes, rfl⟩
        · exact congrArg some hp.symm
        · exact congrArg some hp.symm
      · exact absurd rfl h

theorem subject_of_limiter (hx : Broker.exec crates t o env b = some (r, b'))
    (h : b'.signaling.map.lookup P ≠ b.signaling.map.lookup P ∨
      ∃ n, b'.signaling.checks.lookup (P, n) ≠ b.signaling.checks.lookup (P, n)) :
    subject o = some P := by
  by_cases ho : ∃ a, o = .signaling a
  · obtain ⟨a, rfl⟩ := ho
    cases hx
    cases a with
    | get pk => simp [Signaling.SignalingLimiter.exec] at h
    | insert pk =>
      simp only [Signaling.SignalingLimiter.exec, lookup_insert_ite, ne_eq, not_true_eq_false,
        exists_false, or_false] at h
      split_ifs at h with hp
      · exact congrArg some hp.symm
      · exact absurd rfl h
    | check pk n =>
      simp only [Signaling.SignalingLimiter.exec, lookup_insert_ite, ne_eq, not_true_eq_false,
        false_or] at h
      obtain ⟨m, hm⟩ := h
      split_ifs at hm with hp
      · cases hp
        rfl
      · exact absurd rfl hm
  · have hne : ∀ a, o ≠ .signaling a := fun a he => ho ⟨a, he⟩
    rw [(Broker.exec_frame hx).signaling hne] at h
    simp at h

theorem subject_of_row (hx : Broker.exec crates t o env b = some (r, b'))
    (h : (∃ row ∈ b'.db.peers, row.pubkey = P ∧ row ∉ b.db.peers) ∨
      (∃ row ∈ b'.db.handles, row.pubkey = P ∧ row ∉ b.db.handles) ∨
      ∃ row ∈ b'.db.teamMembers, row.memberPubkey = P ∧ row ∉ b.db.teamMembers) :
    subject o = some P ∨ o = .query .commit ∧ Commits P (b.db.ownWrites t) := by
  rcases Broker.db_of_exec hx with hsame | ⟨s, x, rfl, hdb⟩
  · rw [hsame] at h
    rcases h with ⟨row, hin, -, hout⟩ | ⟨row, hin, -, hout⟩ | ⟨row, hin, -, hout⟩
    · exact absurd hin hout
    · exact absurd hin hout
    · exact absurd hin hout
  · rcases Db.exec_tables hdb with ⟨hpeers, hhandles, -, hmembers⟩ | ⟨pk, kind, hs, hdb'⟩ |
      ⟨id, name, admin, -, hdb'⟩ | ⟨id, name, admin, -, hdb'⟩ | ⟨new, rfl, hdb'⟩ | ⟨rfl, hdb'⟩
    · rw [hpeers, hhandles, hmembers] at h
      rcases h with ⟨row, hin, -, hout⟩ | ⟨row, hin, -, hout⟩ | ⟨row, hin, -, hout⟩
      · exact absurd hin hout
      · exact absurd hin hout
      · exact absurd hin hout
    · rw [hdb'] at h
      rcases h with ⟨row, hin, rfl, hout⟩ | ⟨row, hin, -, hout⟩ | ⟨row, hin, -, hout⟩
      · rcases Db.mem_upsertPeerRow hin with hin | hpk
        · exact absurd hin hout
        · refine Or.inl ?_
          rcases hs with rfl | ⟨kind', rfl⟩
          · exact congrArg some hpk.symm
          · exact congrArg some hpk.symm
      · exact absurd hin hout
      · exact absurd hin hout
    · rw [hdb'] at h
      rcases h with ⟨row, hin, -, hout⟩ | ⟨row, hin, -, hout⟩ | ⟨row, hin, -, hout⟩
      · exact absurd hin hout
      · exact absurd hin hout
      · exact absurd hin hout
    · rw [hdb'] at h
      rcases h with ⟨row, hin, -, hout⟩ | ⟨row, hin, -, hout⟩ | ⟨row, hin, -, hout⟩
      · exact absurd hin hout
      · exact absurd hin hout
      · exact absurd hin hout
    · rw [hdb'] at h
      rcases h with ⟨row, hin, -, hout⟩ | ⟨row, hin, -, hout⟩ | ⟨row, hin, rfl, hout⟩
      · exact absurd hin hout
      · exact absurd hin hout
      · rcases Db.mem_upsertMemberRow hin with hin | hpk
        · exact absurd hin hout
        · exact Or.inl (congrArg some hpk.symm)
    · rw [hdb'] at h
      refine Or.inr ⟨rfl, ?_⟩
      rcases h with ⟨row, hin, rfl, hout⟩ | ⟨row, hin, hpk, hout⟩ | ⟨row, hin, -, hout⟩
      · rcases Db.mem_setHandles hin with hin | hu
        · exact absurd hin hout
        · exact Or.inr hu
      · rcases List.mem_append.mp hin with hin | hin
        · exact absurd hin hout
        · exact Or.inl ⟨row, hin, hpk⟩
      · exact absurd hin hout

theorem subject_of_effect (hx : Broker.exec crates t o env b = some (r, b'))
    (h : Effect P b b') :
    subject o = some P ∨ o = .query .commit ∧ Commits P (b.db.ownWrites t) := by
  cases h with
  | sent c msg hfrom hsent =>
    obtain rfl := subject_of_sent hx hsent
    exact Or.inl hfrom
  | registered peer hentry hnew => exact Or.inl (subject_of_registered hx hentry hnew)
  | subscribed target hentry hnew =>
    exact Or.inl (subject_of_targets hx fun hiff => hnew (hiff.mp hentry))
  | watching target hentry hnew =>
    rcases subject_of_watching hx (fun hiff => hnew (hiff.mp hentry)) with ho | ⟨-, hout⟩
    · exact Or.inl ho
    · exact absurd hentry hout
  | requested id responder hentry hnew => exact Or.inl (subject_of_session hx hentry hnew)
  | accepted id initiator hentry hnew => exact Or.inl (subject_of_session hx hentry hnew)
  | chargedQuota h => exact Or.inl (subject_of_quota hx h)
  | madeLimiter h => exact Or.inl (subject_of_limiter hx (Or.inl h))
  | chargedLimiter n h => exact Or.inl (subject_of_limiter hx (Or.inr ⟨n, h⟩))
  | peerRow row hkey hentry hnew => exact subject_of_row hx (Or.inl ⟨row, hentry, hkey, hnew⟩)
  | handleRow handle hentry hnew =>
    exact subject_of_row hx (Or.inr (Or.inl ⟨_, hentry, rfl, hnew⟩))
  | memberRow row hkey hentry hnew =>
    exact subject_of_row hx (Or.inr (Or.inr ⟨row, hentry, hkey, hnew⟩))

theorem no_effect (hsent : ∀ c, (b'.channels c).sent = (b.channels c).sent)
    (hregistry : b'.registry = b.registry) (hrelay : b'.relay = b.relay)
    (hsignaling : b'.signaling = b.signaling) (hdb : b'.db = b.db)
    (htargets : ∀ target, target ∈ b'.presence.targets P → target ∈ b.presence.targets P)
    (hwatching : ∀ target, P ∈ b'.presence.watching target → P ∈ b.presence.watching target) :
    ¬ Effect P b b' := by
  intro h
  cases h with
  | sent c msg _ hnew =>
    rw [hsent] at hnew
    exact absurd hnew.symm (List.cons_ne_self _ _)
  | registered peer hentry hnew => exact hnew (hregistry ▸ hentry)
  | subscribed target hentry hnew => exact hnew (htargets target hentry)
  | watching target hentry hnew => exact hnew (hwatching target hentry)
  | requested id responder hentry hnew => exact hnew (hrelay ▸ hentry)
  | accepted id initiator hentry hnew => exact hnew (hrelay ▸ hentry)
  | chargedQuota h => exact h (by rw [hrelay])
  | madeLimiter h => exact h (by rw [hsignaling])
  | chargedLimiter n h => exact h (by rw [hsignaling])
  | peerRow row _ hentry hnew => exact hnew (hdb ▸ hentry)
  | handleRow handle hentry hnew => exact hnew (hdb ▸ hentry)
  | memberRow row _ hentry hnew => exact hnew (hdb ▸ hentry)

theorem no_effect_of_clearing {a : Presence.Access} {r : Res (.presence a)}
    (hx : Broker.exec crates t (.presence a) env b = some (r, b'))
    (ha : (∃ s, a = .take s) ∨ ∃ target s, a = .unwatch target s) : ¬ Effect P b b' := by
  obtain ⟨pm, hpm, rfl⟩ := Broker.exec_presence hx
  have htargets : ∀ target, target ∈ pm.targets P → target ∈ b.presence.targets P := by
    intro target htarget
    rw [Presence.PresenceManager.targets_exec hpm] at htarget
    rcases ha with ⟨s, rfl⟩ | ⟨target', s, rfl⟩
    · simp only at htarget
      split_ifs at htarget
      · exact absurd htarget (Finset.notMem_empty _)
      · exact htarget
    · exact htarget
  have hwatching : ∀ target, P ∈ pm.watching target → P ∈ b.presence.watching target := by
    intro target htarget
    rw [Presence.PresenceManager.watching_exec hpm] at htarget
    rcases ha with ⟨s, rfl⟩ | ⟨target', s, rfl⟩
    · exact htarget
    · simp only at htarget
      split_ifs at htarget
      · exact Finset.mem_of_mem_erase htarget
      · exact htarget
  exact no_effect (fun _ => rfl) rfl rfl rfl rfl htargets hwatching

end Effects

/-! ## A session's operations are about the key it has authenticated -/

section Subjects

variable {crates : Crates} {t : ℕ} {c : Phase} {o : Op} {pk P : String}

theorem subject_of_actsAs (ho : ActsAs pk o) (hs : subject o = some P) : pk = P := by
  cases o with
  | query s =>
    cases s with
    | upsertPeer pubkey => exact ho ▸ Option.some.inj hs
    | upsertPeerWithKind pubkey kind => exact ho ▸ Option.some.inj hs
    | insertTeamMember id pubkey sig => exact ho ▸ Option.some.inj hs
    | _ => cases hs
  | registry a =>
    cases a with
    | insertPeer peer => exact ho ▸ Option.some.inj hs
    | _ => cases hs
  | presence a =>
    cases a with
    | insert s target => exact ho ▸ Option.some.inj hs
    | remove s target => exact ho ▸ Option.some.inj hs
    | watch target s => exact ho ▸ Option.some.inj hs
    | unwatch target s => exact ho ▸ Option.some.inj hs
    | take s => exact ho.elim
    | _ => cases hs
  | relay a =>
    cases a with
    | insertSession A B => exact ho ▸ Option.some.inj hs
    | promote id B => exact ho ▸ Option.some.inj hs
    | quotaEntry pubkey => exact ho ▸ Option.some.inj hs
    | consume pubkey bytes => exact ho ▸ Option.some.inj hs
    | _ => cases hs
  | signaling a =>
    cases a with
    | insert pubkey => exact ho ▸ Option.some.inj hs
    | check pubkey n => exact ho ▸ Option.some.inj hs
    | get pubkey => cases hs
  | send c msg =>
    cases msg with
    | signal s payload timestamp => exact ho ▸ Option.some.inj hs
    | relayOffer id s => exact ho ▸ Option.some.inj hs
    | relayData id s data => exact ho ▸ Option.some.inj hs
    | _ => cases hs
  | clock => cases hs
  | metric u => cases hs

theorem actsAs_of_entryOp (ho : EntryOp t pk o) : ActsAs pk o := by
  cases o with
  | query s => exact ho
  | registry a =>
    cases a with
    | insertHandle handle pubkey => exact ho
    | insertPeer peer => exact ho.1
    | getPeer pubkey => trivial
    | _ => exact ho.elim
  | presence a =>
    cases a with
    | watchers target => trivial
    | _ => exact ho.elim
  | send c msg =>
    cases msg with
    | signal s payload timestamp => cases ho
    | relayOffer id s => cases ho
    | relayData id s data => cases ho
    | _ => trivial
  | metric u => trivial
  | relay a => exact ho.elim
  | signaling a => exact ho.elim
  | clock => exact ho.elim

theorem subject_of_cleanupOp (ho : CleanupOp pk o) (hs : subject o = some P) :
    pk = P ∧ ∃ a, o = .presence a ∧ ((∃ s, a = .take s) ∨ ∃ target s, a = .unwatch target s) := by
  cases o with
  | registry a =>
    cases a with
    | insertPeer peer => exact ho.elim
    | _ => cases hs
  | presence a =>
    cases a with
    | unwatch target s =>
      exact ⟨ho ▸ Option.some.inj hs, _, rfl, Or.inr ⟨target, s, rfl⟩⟩
    | take s => exact ⟨ho ▸ Option.some.inj hs, _, rfl, Or.inl ⟨s, rfl⟩⟩
    | insert s target => exact ho.elim
    | remove s target => exact ho.elim
    | watch target s => exact ho.elim
    | _ => cases hs
  | relay a =>
    cases a with
    | stale pubkey => cases hs
    | removeSession id => cases hs
    | _ => exact ho.elim
  | send c msg =>
    obtain rfl : msg = .presenceUpdate pk false := ho
    cases hs
  | metric u => cases hs
  | query s => exact ho.elim
  | signaling a => exact ho.elim
  | clock => exact ho.elim

/-- An operation about a key is made by a phase that acts for it, or it clears the key's
subscriptions when a session of it closes. -/
theorem acting_of_subject (ho : Permitted crates t c o) (hs : subject o = some P) :
    Acting crates c P ∨ c = .closing P ∧ ∃ a, o = .presence a ∧
      ((∃ s, a = .take s) ∨ ∃ target s, a = .unwatch target s) := by
  cases c with
  | registering addr text now =>
    rcases ho with ⟨s, msg, htext, hauth, ho⟩ | ⟨-, code, message, requestId, rfl⟩
    · exact Or.inl ⟨s, msg, htext, hauth, subject_of_actsAs (actsAs_of_entryOp ho) hs⟩
    · cases hs
  | handling pk text now =>
    rcases ho with ⟨msg, hauth, ho, -⟩ | ⟨-, code, message, requestId, rfl⟩
    · obtain rfl := subject_of_actsAs ho hs
      exact Or.inl ⟨rfl, msg, hauth⟩
    · cases hs
  | closing pk =>
    obtain ⟨rfl, a, ha, hclear⟩ := subject_of_cleanupOp ho hs
    exact Or.inr ⟨rfl, a, ha, hclear⟩
  | _ => exact ho.elim

end Subjects

/-! ## Runs -/

/-- The text is a message of the key, made within a minute of the clock and signed by the key. -/
structure Authentic (crates : Crates) (now : UnixTime) (P text : String) (msg : ClientMessage) :
    Prop where
  parsed : ClientMessage.fromStr crates.finite text = some msg
  sender : msg.pubkey = P
  verified : Auth.Verified crates now msg

def frameOf : Phase → Option (Option String × UnixTime)
  | .registering _ text now => some (text, now)
  | .handling _ text now => some (some text, now)
  | _ => none

def Received (tr : List BrokerEvent) (t : ℕ) (now : UnixTime) (text : String) : Prop :=
  ∃ f, Event.input t (.frame f now) ∈ tr ∧ f.payload = some text

def RegisteredAs (tr : List BrokerEvent) (t : ℕ) (P : String) : Prop :=
  ∃ peer r, peer.pubkey = P ∧ Event.performed t (.registry (.insertPeer peer)) r ∈ tr

/-- The connection is registered as the key and handles an authentic frame of it, or it handles the
register frame of the key. -/
def ActsFor (crates : Crates) (tr : List BrokerEvent) (σ : BrokerConfig) (t : ℕ) (P : String) :
    Prop :=
  ∃ text now msg, Received tr t now text ∧ Authentic crates now P text msg ∧
    ((σ.tasks t).ctl = .handling P text now ∧ RegisteredAs tr t P ∨
      (∃ addr, (σ.tasks t).ctl = .registering addr (some text) now) ∧ msg.tag = "register")

/-- The frame the connection handles is not authentic, or not a message of the session's key, or
not the register message a first frame has to be. -/
def Refused (crates : Crates) : Phase → Prop
  | .handling pk text now => ∀ msg, ¬ Authentic crates now pk text msg
  | .registering _ text now => ∀ s msg, text = some s → msg.tag = "register" →
    ¬ Authentic crates now msg.pubkey s msg
  | _ => False

/-- What a step does in the name of a key is done by a connection that acts for the key; a
subscription is removed by such a connection, or by the closing of a session of the key; and a frame
that is refused changes nothing but the connection's own channel, by one error. -/
structure Authenticated (crates : Crates) (tr : List BrokerEvent) (σ : BrokerConfig)
    (e : BrokerEvent) (σ' : BrokerConfig) : Prop where
  effects : ∀ P, Effect P σ.shared σ'.shared →
    ∃ t o r, e = .performed t o r ∧ ActsFor crates tr σ t P
  removals : ∀ P, Unsubscribes P σ.shared σ'.shared →
    ∃ t o r, e = .performed t o r ∧ (ActsFor crates tr σ t P ∨ (σ.tasks t).ctl = .closing P)
  refusals : ∀ t o r, e = .performed t o r → Refused crates (σ.tasks t).ctl →
    OwnError t o ∧ (∃ ch, σ'.shared = σ.shared.withChannel t ch) ∧ ∃ c, σ'.tasks t = .waiting c

def OfSession (P : String) (c : Phase) : Prop :=
  (∃ text now, c = .handling P text now) ∨ c = .closing P

/-- A set of watchers names nobody but the key of the session that drops it. -/
def DropsNoOther (_ : List BrokerEvent) (σ : BrokerConfig) (e : BrokerEvent) : Prop :=
  ∀ t target r, e = .performed t (.presence (.dropWatchers target)) r →
    ∀ P ∈ σ.shared.presence.watching target, OfSession P (σ.tasks t).ctl

section Runs

variable {crates : Crates} {hasDb : Bool} {db₀ : Db ℕ} {tr : List BrokerEvent}
  {σ σ' : BrokerConfig} {e : BrokerEvent}

theorem decode_ok {label text : String} {msg : ClientMessage}
    (h : decode crates label text = .ok msg) :
    ClientMessage.fromStr crates.finite text = some msg := by
  unfold decode at h
  split at h
  · cases h
    assumption
  · cases h

theorem authentic_of_authenticate {now : UnixTime} {pk text : String} {msg : ClientMessage}
    (h : authenticate crates now pk text = .ok msg) : Authentic crates now pk text msg := by
  obtain ⟨m, hm, h⟩ := Auth.except_bind_eq_ok h
  obtain ⟨key, hkey, h⟩ := Auth.except_bind_eq_ok h
  split_ifs at h with hpk
  cases h
  exact ⟨decode_ok hm, not_not.mp hpk, Auth.Verified.of_ok hkey⟩

theorem authentic_of_authenticateRegister {now : UnixTime} {text : String} {msg : ClientMessage}
    (h : authenticateRegister crates now text = .ok msg) :
    Authentic crates now msg.pubkey text msg ∧ msg.tag = "register" := by
  obtain ⟨hm, ⟨key, hkey⟩, pk, handle, addresses, kind, timestamp, signature, requestId, rfl⟩ :=
    authenticateRegister_ok crates h
  exact ⟨⟨decode_ok hm, rfl, Auth.Verified.of_ok hkey⟩, rfl⟩

theorem start_frame {t : ℕ} {c c' : Phase} {i : Input} {p : Work Outcome} {text : Option String}
    {now : UnixTime} (hs : start crates hasDb t c i = some (c', p))
    (hc : frameOf c' = some (text, now)) : ∃ f, i = .frame f now ∧ f.payload = text := by
  cases start_cases hs with
  | connects addr => cases hc
  | registers addr f now' => cases hc; exact ⟨f, rfl, rfl⟩
  | handles pk s f now' hf => cases hc; exact ⟨f, rfl, hf⟩
  | stays pk f now' hf => cases hc
  | closes pk f now' hf => cases hc

theorem actsFor_of_acting (h : Run (broker crates hasDb) (fresh db₀) tr σ) {t : ℕ} {c : Phase}
    {p : Work Outcome} (ht : σ.tasks t = .running c p) {P : String} (hc : Acting crates c P) :
    ActsFor crates tr σ t P := by
  obtain ⟨c₀, i, p₀, hist, hs, -, hsub⟩ := h.history (fresh_idle db₀) ht
  have hinput : Event.input t i ∈ tr := hsub.subset (by simp)
  have hctl : (σ.tasks t).ctl = c := by rw [ht]; rfl
  cases c with
  | registering addr text now =>
    obtain ⟨s, msg, rfl, hauth, rfl⟩ := hc
    obtain ⟨f, rfl, hf⟩ := start_frame hs rfl
    obtain ⟨hauthentic, htag⟩ := authentic_of_authenticateRegister hauth
    exact ⟨s, now, msg, ⟨f, hinput, hf⟩, hauthentic, Or.inr ⟨⟨addr, hctl⟩, htag⟩⟩
  | handling pk text now =>
    obtain ⟨rfl, msg, hauth⟩ := hc
    obtain ⟨f, rfl, hf⟩ := start_frame hs rfl
    have hlive := RegistryLiveness.stage_agrees h t
    rw [hctl] at hlive
    exact ⟨text, now, msg, ⟨f, hinput, hf⟩, authentic_of_authenticate hauth,
      Or.inl ⟨hctl, RegistryLiveness.inserted_of_live hlive⟩⟩
  | _ => exact hc.elim

theorem acting_of_effect (h : Run (broker crates hasDb) (fresh db₀) tr σ) {t : ℕ} {c : Phase}
    {o : Op} {k : Res o → Work Outcome} {env : Env} {r : Res o} {b' : Broker} {P : String}
    (ht : σ.tasks t = .running c (.call o k))
    (hx : Broker.exec crates t o env σ.shared = some (r, b')) (heff : Effect P σ.shared b') :
    Acting crates c P := by
  rcases subject_of_effect hx heff with hs | ⟨rfl, hcommit⟩
  · rcases acting_of_subject (permitted h ht) hs with hc | ⟨-, a, rfl, hclear⟩
    · exact hc
    · exact absurd heff (no_effect_of_clearing hx hclear)
  · -- the rows of a commit are those of the claim that is being made
    obtain ⟨pk, hc, handle, htxn⟩ := SessionTransactions.statement_in_order h ht
    have hown : σ.shared.db.ownWrites t = ⟨[⟨handle, pk⟩], [(pk, handle)]⟩ := by
      rw [Db.ownWrites, htxn]
      rfl
    rw [hown] at hcommit
    rcases hcommit with ⟨row, hrow, rfl⟩ | ⟨u, hu, rfl⟩
    · obtain rfl := List.mem_singleton.mp hrow
      exact hc
    · obtain rfl := List.mem_singleton.mp hu
      exact hc

theorem subject_of_unsubscribes {t : ℕ} {o : Op} {env : Env} {b b' : Broker} {r : Res o}
    {P : String} (hx : Broker.exec crates t o env b = some (r, b')) (h : Unsubscribes P b b') :
    subject o = some P ∨
      ∃ target, o = .presence (.dropWatchers target) ∧ P ∈ b.presence.watching target := by
  cases h with
  | target target hold hgone =>
    exact Or.inl (subject_of_targets hx fun hiff => hgone (hiff.mpr hold))
  | watcher target hold hgone =>
    rcases subject_of_watching hx (fun hiff => hgone (hiff.mpr hold)) with hs | ⟨ho, -⟩
    · exact Or.inl hs
    · exact Or.inr ⟨target, ho, hold⟩

theorem ofSession_of_drop (h : Run (broker crates hasDb) (fresh db₀) tr σ) {t : ℕ} {c : Phase}
    {target P : String} {k : Res (.presence (.dropWatchers target)) → Work Outcome}
    (ht : σ.tasks t = .running c (.call (.presence (.dropWatchers target)) k)) :
    ActsFor crates tr σ t P ∨ (σ.tasks t).ctl = .closing P ↔ OfSession P (σ.tasks t).ctl := by
  have hctl : (σ.tasks t).ctl = c := by
    rw [ht]
    rfl
  have hpermitted := permitted h ht
  constructor
  · rintro (⟨text, now, msg, -, -, ⟨hc, -⟩ | ⟨⟨addr, hc⟩, -⟩⟩ | hc)
    · exact Or.inl ⟨text, now, hc⟩
    · -- a registration drops nothing
      rw [hctl] at hc
      subst hc
      rcases hpermitted with ⟨s, msg', -, -, ho⟩ | ⟨-, code, message, requestId, ho⟩
      · exact ho.elim
      · cases ho
    · exact Or.inr hc
  · rintro (⟨text, now, hc⟩ | hc)
    · rw [hctl] at hc
      subst hc
      rcases hpermitted with ⟨msg, hauth, -, -⟩ | ⟨-, code, message, requestId, ho⟩
      · exact Or.inl (actsFor_of_acting h ht ⟨rfl, msg, hauth⟩)
      · cases ho
    · exact Or.inr hc

theorem start_refused {t : ℕ} {c c' : Phase} {i : Input} {p : Work Outcome}
    (hs : start crates hasDb t c i = some (c', p)) (hc : Refused crates c') :
    (∃ a, p = .done a) ∨ ∃ o a, OwnError t o ∧ p = .call o fun _ => .done a := by
  cases start_cases hs with
  | connects addr => exact hc.elim
  | registers addr f now =>
    rcases register_cases crates hasDb t now addr f.payload with
      ⟨s, pk, handle, addresses, kind, timestamp, signature, requestId, htext, hauth, -⟩ |
        ⟨msg, hmsg, heq, -⟩
    · obtain ⟨hauthentic, htag⟩ := authentic_of_authenticateRegister hauth
      exact absurd hauthentic (hc s _ htext htag)
    · rw [heq]
      cases msg with
      | none => exact Or.inl ⟨_, rfl⟩
      | some m =>
        obtain ⟨code, message, requestId, rfl⟩ := hmsg m rfl
        exact Or.inr ⟨_, _, ⟨code, message, requestId, rfl⟩, rfl⟩
  | handles pk text f now hf =>
    cases hauth : authenticate crates now pk text with
    | ok msg => exact absurd (authentic_of_authenticate hauth) (hc msg)
    | error err =>
      exact Or.inr ⟨_, _, ⟨_, _, _, rfl⟩, pump_rejected crates hasDb t pk hauth⟩
  | stays pk f now hf => exact hc.elim
  | closes pk f now hf => exact hc.elim

theorem after_one {o : Op} {a : Outcome} {hist : Prog.History Op Res} {q : Work Outcome}
    (h : Prog.After (.call o fun _ => .done a) hist q) :
    q = (.call o fun _ => .done a) ∨ ∃ a', q = .done a' := by
  induction h with
  | start => exact Or.inl rfl
  | answer prior r ih =>
    rcases ih with heq | ⟨a', heq⟩
    · cases heq
      exact Or.inr ⟨a, rfl⟩
    · cases heq

theorem refused_step (h : Run (broker crates hasDb) (fresh db₀) tr σ) {t : ℕ} {c : Phase}
    {o : Op} {k : Res o → Work Outcome} (ht : σ.tasks t = .running c (.call o k))
    (hc : Refused crates c) : OwnError t o ∧ ∀ r, ∃ a, k r = .done a := by
  obtain ⟨c₀, i, p₀, hist, hs, hafter, -⟩ := h.history (fresh_idle db₀) ht
  rcases start_refused hs hc with ⟨a, rfl⟩ | ⟨o', a, ho', rfl⟩
  · cases hafter.of_done.2
  · rcases after_one hafter with heq | ⟨a', heq⟩
    · cases heq
      exact ⟨ho', fun _ => ⟨a, rfl⟩⟩
    · cases heq

theorem authenticated_iff (h : Run (broker crates hasDb) (fresh db₀) tr σ)
    (hstep : Step (broker crates hasDb) σ e σ') :
    Authenticated crates tr σ e σ' ↔ DropsNoOther tr σ e := by
  rcases hstep.cases with ⟨u, i, c, c', p, rfl, hw, hs, rfl⟩ |
    ⟨u, c, o, k, env, r, b', rfl, ht, hx, rfl⟩ | ⟨x, b', rfl, hx, rfl⟩
  · refine iff_of_true ⟨?_, ?_, nofun⟩ nofun
    · intro P heff
      exact absurd heff (no_effect (fun _ => rfl) rfl rfl rfl rfl (fun _ => id) fun _ => id)
    · intro P hun
      cases hun with
      | target target hold hgone => exact absurd hold hgone
      | watcher target hold hgone => exact absurd hold hgone
  · have hx' : Broker.exec crates u o env σ.shared = some (r, b') := hx
    constructor
    · rintro hauth t target r' he P hP
      cases he
      have hgone : P ∉ b'.presence.watching target := by
        obtain ⟨pm, hpm, rfl⟩ := Broker.exec_presence hx'
        simp [Broker.withPresence, Presence.PresenceManager.watching_exec hpm]
      obtain ⟨t, o, r'', he, hacts⟩ := hauth.removals P (.watcher target hP hgone)
      cases he
      exact (ofSession_of_drop h ht).mp hacts
    · intro hdrops
      refine ⟨?_, ?_, ?_⟩
      · intro P heff
        exact ⟨u, o, r, rfl, actsFor_of_acting h ht (acting_of_effect h ht hx heff)⟩
      · intro P hun
        refine ⟨u, o, r, rfl, ?_⟩
        rcases subject_of_unsubscribes hx' hun with hs | ⟨target, rfl, hP⟩
        · rcases acting_of_subject (permitted h ht) hs with hc | ⟨hc, -⟩
          · exact Or.inl (actsFor_of_acting h ht hc)
          · rw [ht]
            exact Or.inr hc
        · exact (ofSession_of_drop h ht).mpr (hdrops u target r rfl P hP)
      · intro t o' r' he hrefused
        cases he
        rw [ht] at hrefused
        obtain ⟨⟨code, message, requestId, rfl⟩, hdone⟩ := refused_step h ht hrefused
        obtain ⟨ch, -, rfl⟩ := Broker.exec_send hx'
        obtain ⟨a, ha⟩ := hdone r
        refine ⟨⟨code, message, requestId, rfl⟩, ⟨ch, rfl⟩, finish c a, ?_⟩
        simp only [Function.update_self, ha]
        rfl
  · obtain ⟨channels, heq⟩ := Broker.writerStep_frame hx
    refine iff_of_true ⟨?_, ?_, nofun⟩ nofun
    · intro P heff
      have hsent := Broker.writerStep_sent hx
      subst heq
      exact absurd heff (no_effect hsent rfl rfl rfl rfl (fun _ => id) fun _ => id)
    · intro P hun
      subst heq
      cases hun with
      | target target hold hgone => exact absurd hold hgone
      | watcher target hold hgone => exact absurd hold hgone

/-- Every step of a run is authenticated if and only if no set of watchers is dropped that names
another key than its session's. -/
theorem no_effect_without_authentication :
    GuardedRun (broker crates hasDb)
        (fun tr σ e => ∀ σ', Step (broker crates hasDb) σ e σ' → Authenticated crates tr σ e σ')
        (fresh db₀) tr σ ↔
      GuardedRun (broker crates hasDb) DropsNoOther (fresh db₀) tr σ := by
  constructor
  · intro h
    exact h.weaken fun prior next hauth => (authenticated_iff prior.run next).mp (hauth _ next)
  · intro h
    exact h.weaken fun prior _ hdrops _ next => (authenticated_iff prior.run next).mpr hdrops

end Runs

/-! ## A registration, and a subscriber that is dropped -/

open Scripts Crates

example : ((play false (fun _ _ _ => true) [.connect 0, .say 0 'a' (registerAs 'a' none)] []
    (fresh DatabaseCalls.emptyDb)).bind fun x => (cue false x.2 (.perform 0 calm)).map fun y =>
      (x.2.shared.registry.isOnline (keyText 'a'), y.2.shared.registry.isOnline (keyText 'a'))) =
    some (false, true) := by
  decide +kernel

/-- `a` has taken itself out of the watchers of `c` as the last one, and `b` joins them. -/
def crossing : List Cue :=
  joins 0 'a' ++ joins 1 'b' ++ [.say 0 'a' (.subscribePresence (keyText 'a') [keyText 'c'] 0
      (signatureText 'a') none)] ++ steps 0 8 calm ++
    [.say 0 'a' (.unsubscribePresence (keyText 'a') [keyText 'c'] 0 (signatureText 'a') none)] ++
    steps 0 3 calm ++ [.say 1 'b' (.subscribePresence (keyText 'b') [keyText 'c'] 0
      (signatureText 'b') none)] ++ steps 1 8 calm

/-- The session `t` of another key is about to drop the watchers of `T`, and `P` is one of them. -/
def dropsOther (P T : String) (t : ℕ) (σ : BrokerConfig) : Bool :=
  match σ.tasks t with
  | .running (.handling pk _ _) (.call (.presence (.dropWatchers T')) _) =>
    decide (T' = T ∧ pk ≠ P ∧ P ∈ σ.shared.presence.watching T)
  | _ => false

theorem unauthenticated_drop {crates : Crates} {hasDb : Bool} {db₀ : Db ℕ} {tr : List BrokerEvent}
    {σ : BrokerConfig} {P T : String} {t : ℕ} (hrun : Run (broker crates hasDb) (fresh db₀) tr σ)
    (h : dropsOther P T t σ = true) :
    ∃ σ', Step (broker crates hasDb) σ (.performed t (.presence (.dropWatchers T)) ()) σ' ∧
      Unsubscribes P σ.shared σ'.shared ∧
      ¬ Authenticated crates tr σ (.performed t (.presence (.dropWatchers T)) ()) σ' := by
  unfold dropsOther at h
  split at h
  · rename_i pk text now T' k ht
    obtain ⟨rfl, hpk, hP⟩ := of_decide_eq_true h
    have hx : Broker.exec crates t (.presence (.dropWatchers T')) calm σ.shared =
        some ((), σ.shared.withPresence { σ.shared.presence with
          watchers := σ.shared.presence.watchers.erase T' }) := rfl
    have hstep : Step (broker crates hasDb) σ _ _ := ⟨.perform t calm, act_perform ht hx⟩
    refine ⟨_, hstep, .watcher T' hP ?_, fun hauth => ?_⟩
    · obtain ⟨pm, hpm, heq⟩ := Broker.exec_presence hx
      show P ∉ (σ.shared.withPresence _).presence.watching T'
      rw [heq]
      simp [Broker.withPresence, Presence.PresenceManager.watching_exec hpm]
    · have hdrops := (authenticated_iff hrun hstep).mp hauth t T' () rfl P hP
      rw [ht] at hdrops
      rcases hdrops with ⟨text', now', hc⟩ | hc
      · cases hc
        exact hpk rfl
      · cases hc
  · cases h

theorem crossing_played : ((play false (fun _ _ _ => true) crossing []
    (fresh DatabaseCalls.emptyDb)).map fun x => dropsOther (keyText 'b') (keyText 'c') 0 x.2) =
      some true := by
  decide +kernel

/-- The session of `a` removes the subscription of `b`. -/
theorem subscriber_is_dropped : ∃ tr σ σ',
    Run (broker demo false) (fresh DatabaseCalls.emptyDb) tr σ ∧
    Step (broker demo false) σ (.performed 0 (.presence (.dropWatchers (keyText 'c'))) ()) σ' ∧
    Unsubscribes (keyText 'b') σ.shared σ'.shared ∧
    ¬ Authenticated demo tr σ (.performed 0 (.presence (.dropWatchers (keyText 'c'))) ()) σ' := by
  obtain ⟨⟨tr, σ⟩, hp, hdrops⟩ := Option.map_eq_some_iff.mp crossing_played
  have hrun := run_of_play false hp
  obtain ⟨σ', hstep, hun, hauth⟩ := unauthenticated_drop hrun hdrops
  exact ⟨tr, σ, σ', hrun, hstep, hun, hauth⟩

end HashedBroker.Authentication
