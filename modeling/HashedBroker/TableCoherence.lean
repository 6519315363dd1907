import HashedBroker.SequentialRuns
import HashedBroker.PresenceIndexes
import HashedBroker.RegistryLiveness

/-!
# Coherence of the tables

When registrations, handlers and cleanups run one at a time, the tables in memory agree with each
other and with the sessions that are live: the registry lists the live keys, the handle index
inverts it, the two indexes of the subscriptions are inverse to each other, and the parties of every
relay session are live. Each part is kept by the programs that write to it, and the parts meet where
a relay session is created: the registry has said that the responder is online.
-/
namespace HashedBroker.TableCoherence
open KeyedTables AtomicPrograms ReactiveTasks Protocol Server Sessions

/-! ## What coherence is -/

/-- The tables of the broker that name peers. -/
structure Tables where
  registry : Registry.PeerRegistry
  presence : Presence.PresenceManager
  sessions : Table Uuid Relay.Session

def tables (b : Broker) : Tables := ⟨b.registry, b.presence, b.relay.sessions⟩

/-- The registry lists the live keys, each under its own name, and the handle index inverts it.
A handle is only given to its owner. -/
structure RegistryOk (owner : String → String) (live : String → Prop)
    (reg : Registry.PeerRegistry) : Prop where
  keys : ∀ pk, (reg.byPubkey.lookup pk).isSome ↔ live pk
  named : ∀ pk peer, reg.byPubkey.lookup pk = some peer → peer.pubkey = pk
  index : ∀ h pk, reg.handleToPubkey.lookup h = some pk ↔
    ∃ peer, reg.byPubkey.lookup pk = some peer ∧ peer.handle = some h
  owned : ∀ pk peer h, reg.byPubkey.lookup pk = some peer → peer.handle = some h → owner h = pk

/-- The indexes are inverse to each other, except for what `s` still owes at the targets in `D`,
and no set of watchers is empty, except at the targets in `E`. -/
structure Indexes (live : String → Prop) (s : String) (D E : Set String)
    (pm : Presence.PresenceManager) : Prop where
  subscribers : ∀ s', (pm.subscriptions.lookup s').isSome → live s'
  inverse : ∀ s' x, ¬ (s' = s ∧ x ∈ D) → (x ∈ pm.targets s' ↔ s' ∈ pm.watching x)
  nonempty : ∀ x, x ∉ E → pm.watchers.lookup x ≠ some ∅

def PartiesLive (live : String → Prop) (sessions : Table Uuid Relay.Session) : Prop :=
  ∀ id session, sessions.lookup id = some session →
    live session.initiator ∧ live session.responder

def At (A : Registry.PeerRegistry → Prop) (B : Presence.PresenceManager → Prop)
    (S : Table Uuid Relay.Session → Prop) (v : Tables) : Prop :=
  A v.registry ∧ B v.presence ∧ S v.sessions

def Live (phases : ℕ → Phase) (pk : String) : Prop := ∃ t, phases t = .pumping pk

def Distinct (phases : ℕ → Phase) : Prop :=
  ∀ t u pk, phases t = .pumping pk → phases u = .pumping pk → t = u

/-- The tables agree with each other and with the live sessions. -/
structure Coherent (phases : ℕ → Phase) (v : Tables) : Prop where
  keys : ∀ pk, (v.registry.byPubkey.lookup pk).isSome ↔ Live phases pk
  handles : ∀ h pk, v.registry.handleToPubkey.lookup h = some pk ↔
    ∃ peer, v.registry.byPubkey.lookup pk = some peer ∧ peer.handle = some h
  subscribers : ∀ s, (v.presence.subscriptions.lookup s).isSome → Live phases s
  watchers : ∀ s x, s ∈ v.presence.watching x → Live phases s
  inverse : ∀ s x, x ∈ v.presence.targets s ↔ s ∈ v.presence.watching x
  nonempty : ∀ x, v.presence.watchers.lookup x ≠ some ∅
  parties : ∀ id session, v.sessions.lookup id = some session →
    Live phases session.initiator ∧ Live phases session.responder

/-- The database gives a handle to its owner only: a session enters the handle index when its claim
has succeeded. -/
def GivenTo (owner : String → String) : Op → Prop
  | .registry (.insertHandle handle pubkey) => owner handle = pubkey
  | _ => True

/-- Programs run one at a time, no two live sessions share a key, and the database gives a handle to
one key at most. -/
def AtomicStep (owner : String → String) (tr : List BrokerEvent) (σ : BrokerConfig)
    (e : BrokerEvent) : Prop :=
  Alone tr σ e ∧ (∀ t i, e = .input t i → Distinct (ctls σ)) ∧
    ∀ t o r, e = .performed t o r → GivenTo owner o

/-! ## Rules for one table at a time -/

section Rules

variable {crates : Crates} {hasDb : Bool} {owner : String → String} {t : ℕ} {α β : Type}

def tablesView (crates : Crates) (hasDb : Bool) : View (broker crates hasDb) Tables where
  of := tables
  steady x s s' h := by
    obtain ⟨channels, rfl⟩ := Broker.writerStep_frame h
    rfl

/-- Evaluated alone, the program leads from `P` to `Q`. -/
abbrev Keeps (crates : Crates) (hasDb : Bool) (owner : String → String) (t : ℕ) {α : Type}
    (P : Tables → Prop) (p : Work α) (Q : α → Tables → Prop) : Prop :=
  Triple (GivenTo owner) t (tablesView crates hasDb) P p Q

def Untouched : Op → Prop
  | .registry (.getHandle _) | .registry (.getPeer _) | .registry (.containsPeer _) => True
  | .registry _ => False
  | .presence (.watchers _) => True
  | .presence _ => False
  | .relay (.insertSession ..) | .relay (.promote ..) | .relay (.removeSession _) => False
  | _ => True

theorem tables_of_untouched {o : Op} {env : Env} {b b' : Broker} {r : Res o} (ho : Untouched o)
    (h : Broker.exec crates t o env b = some (r, b')) : tables b' = tables b := by
  cases o with
  | registry a =>
    cases h
    cases a with
    | getHandle handle => rfl
    | getPeer pubkey => rfl
    | containsPeer pubkey => rfl
    | _ => exact ho.elim
  | presence a =>
    obtain ⟨pm, hpm, rfl⟩ := Broker.exec_presence h
    cases a with
    | watchers target =>
      obtain ⟨rfl, -⟩ := Presence.PresenceManager.exec_watchers hpm
      rfl
    | _ => exact ho.elim
  | relay a =>
    obtain ⟨rm, hrm, rfl⟩ := Broker.exec_relay h
    have hsame : rm.sessions = b.relay.sessions := by
      rcases Relay.RelayManager.sessions_exec hrm with ⟨A, B, rfl, -⟩ | ⟨id, s, rfl, -⟩ |
        ⟨id, rfl, -⟩ | hsame
      · exact ho.elim
      · exact ho.elim
      · exact ho.elim
      · exact hsame
    simp only [tables, Broker.withRelay, hsame]
  | _ =>
    have hframe := Broker.exec_frame h
    simp only [tables, hframe.registry (by simp), hframe.presence (by simp),
      hframe.relay (by simp)]

variable {P : Tables → Prop} {A : Registry.PeerRegistry → Prop}
  {B : Presence.PresenceManager → Prop} {S : Table Uuid Relay.Session → Prop}

theorem keeps_untouched {p : Work α} (hp : p.Always Untouched) :
    Keeps crates hasDb owner t P p fun _ => P := by
  refine Always.triple hp fun o env b r b' ho hP hx => ?_
  have hsame : (tablesView crates hasDb).of b' = (tablesView crates hasDb).of b :=
    tables_of_untouched ho hx
  rw [hsame]
  exact hP

theorem keeps_presence_bind {p : Presence.Method α} {f : α → Presence.Method β}
    {Q : α → Tables → Prop} {R : β → Tables → Prop}
    (hp : Keeps crates hasDb owner t P (presence p) Q)
    (hf : ∀ a, Keeps crates hasDb owner t (Q a) (presence (f a)) R) :
    Keeps crates hasDb owner t P (presence (p >>= f)) R := by
  rw [presence, Prog.lift_bind]
  exact Triple.bind hp hf

theorem keeps_registry {a : Registry.Access} {k : a.Result → Registry.Method α}
    {Q : α → Tables → Prop} (A' : a.Result → Registry.PeerRegistry → Prop)
    (hstep : ∀ reg, GivenTo owner (.registry a) → A reg → A' (reg.exec a).1 (reg.exec a).2)
    (hk : ∀ r, Keeps crates hasDb owner t (At (A' r) B S) (registry (k r)) Q) :
    Keeps crates hasDb owner t (At A B S) (registry (Registry.access a >>= k)) Q := by
  refine triple_call (fun r => At (A' r) B S) ?_ hk
  rintro env s r s' hok ⟨hA, hB, hS⟩ hx
  cases hx
  exact ⟨hstep _ hok hA, hB, hS⟩

theorem keeps_presence {a : Presence.Access} {k : a.Result → Presence.Method α}
    {Q : α → Tables → Prop} (B' : a.Result → Presence.PresenceManager → Prop)
    (hstep : ∀ order (pm : Presence.PresenceManager) r pm', B pm →
      pm.exec t order a = some (r, pm') → B' r pm')
    (hk : ∀ r, Keeps crates hasDb owner t (At A (B' r) S) (presence (k r)) Q) :
    Keeps crates hasDb owner t (At A B S) (presence (Presence.access a >>= k)) Q := by
  refine triple_call (fun r => At A (B' r) S) ?_ hk
  rintro env s r s' - ⟨hA, hB, hS⟩ hx
  have hx' : Broker.exec crates t (.presence a) env s = some (r, s') := hx
  obtain ⟨pm, hpm, rfl⟩ := Broker.exec_presence hx'
  exact ⟨hA, hstep _ _ _ _ hB hpm, hS⟩

theorem keeps_relay {a : Relay.Access} {k : Res (.relay a) → Work α} {Q : α → Tables → Prop}
    (S' : a.Result → Table Uuid Relay.Session → Prop)
    (hstep : ∀ env (rm : Relay.RelayManager) r rm', S rm.sessions → rm.exec env a = some (r, rm') →
      S' r rm'.sessions)
    (hk : ∀ r, Keeps crates hasDb owner t (At A B (S' r)) (k r) Q) :
    Keeps crates hasDb owner t (At A B S) (.call (.relay a) k) Q := by
  refine triple_call (fun r => At A B (S' r)) ?_ hk
  rintro env s r s' - ⟨hA, hB, hS⟩ hx
  have hx' : Broker.exec crates t (.relay a) env s = some (r, s') := hx
  obtain ⟨rm, hrm, rfl⟩ := Broker.exec_relay hx'
  exact ⟨hA, hB, hstep _ _ _ _ hS hrm⟩

end Rules

/-! ## Subscriptions -/

section Subscriptions

variable {crates : Crates} {hasDb : Bool} {owner : String → String} {t : ℕ}
  {live : String → Prop} {s x : String} {D E : Set String} {order : List String}
  {pm pm' : Presence.PresenceManager} {A : Registry.PeerRegistry → Prop}
  {S : Table Uuid Relay.Session → Prop}

theorem Indexes.of_same (h : Indexes live s D E pm)
    (hsub : ∀ s', (pm'.subscriptions.lookup s').isSome →
      (pm.subscriptions.lookup s').isSome ∨ live s')
    (ht : ∀ s', pm'.targets s' = pm.targets s') (hw : pm'.watchers = pm.watchers) :
    Indexes live s D E pm' where
  subscribers s' hs' := (hsub s' hs').elim (h.subscribers s') id
  inverse s' y hne := by
    rw [ht, Presence.PresenceManager.watching, hw]
    exact h.inverse s' y hne
  nonempty y hy := by
    rw [hw]
    exact h.nonempty y hy

theorem indexes_entry {r : Unit} (hs : live s) (h : Indexes live s D E pm)
    (hx : pm.exec t order (.entry s) = some (r, pm')) : Indexes live s D E pm' := by
  have ht := Presence.PresenceManager.targets_exec hx
  obtain rfl := Presence.PresenceManager.exec_entry hx
  refine h.of_same (fun s' hs' => ?_) ht rfl
  simp only [lookup_insert_ite] at hs'
  split_ifs at hs' with heq
  · exact Or.inr (heq ▸ hs)
  · exact Or.inl hs'

theorem indexes_insert {r : Unit} (hs : live s) (h : Indexes live s ∅ ∅ pm)
    (hx : pm.exec t order (.insert s x) = some (r, pm')) :
    Indexes live s {x} ∅ pm' ∧ x ∈ pm'.targets s := by
  have ht := Presence.PresenceManager.targets_exec hx
  cases hx
  refine ⟨⟨fun s' hs' => ?_, fun s' y hne => ?_, h.nonempty⟩, ?_⟩
  · simp only [lookup_insert_ite] at hs'
    split_ifs at hs' with heq
    · exact heq ▸ hs
    · exact h.subscribers s' hs'
  · rw [ht]
    simp only
    split_ifs with heq
    · have hy : y ≠ x := fun hyx => hne ⟨heq, hyx⟩
      rw [Finset.mem_insert, or_iff_right hy]
      exact h.inverse s' y (by simp)
    · exact h.inverse s' y (by simp)
  · rw [ht]
    simp

theorem indexes_watch {r : Unit} (h : Indexes live s {x} ∅ pm) (hmem : x ∈ pm.targets s)
    (hx : pm.exec t order (.watch x s) = some (r, pm')) : Indexes live s ∅ ∅ pm' := by
  have hw := Presence.PresenceManager.watching_exec hx
  cases hx
  refine ⟨h.subscribers, fun s' y _ => ?_, fun y _ => ?_⟩
  · rw [hw]
    simp only
    split_ifs with hy
    · subst hy
      by_cases hs' : s' = s
      · subst hs'
        exact iff_of_true hmem (Finset.mem_insert_self _ _)
      · rw [Finset.mem_insert, or_iff_right hs']
        exact h.inverse s' y (by simp [hs'])
    · exact h.inverse s' y fun hc => hy hc.2
  · simp only [lookup_insert_ite]
    split_ifs
    · simp
    · exact h.nonempty y (by simp)

theorem release_keeps : Keeps crates hasDb owner t (At A (Indexes live s D E) S)
    (presence (Presence.access .release)) fun _ => At A (Indexes live s D E) S := by
  refine keeps_presence (k := .done) (fun _ => Indexes live s D E) ?_ fun _ =>
    triple_done fun _ hv => hv
  rintro order pm r pm' hB ⟨⟩
  exact hB.of_same (fun _ h => Or.inl h) (fun _ => rfl) rfl

theorem subscribe_keeps (hs : live s) (targets : List String) :
    Keeps crates hasDb owner t (At A (Indexes live s ∅ ∅) S)
      (presence (Presence.subscribe s targets)) fun _ => At A (Indexes live s ∅ ∅) S := by
  have heach : Keeps crates hasDb owner t (At A (Indexes live s ∅ ∅) S)
      (presence (Presence.subscribeEach s targets)) fun _ => At A (Indexes live s ∅ ∅) S := by
    induction targets with
    | nil => exact triple_done fun _ hv => hv
    | cons x xs ih =>
      refine keeps_presence (fun _ pm => Indexes live s {x} ∅ pm ∧ x ∈ pm.targets s) ?_ fun _ => ?_
      · exact fun order pm r pm' hB hx => indexes_insert hs hB hx
      · refine keeps_presence (fun _ => Indexes live s ∅ ∅) ?_ fun _ => ih
        exact fun order pm r pm' hB hx => indexes_watch hB.1 hB.2 hx
  refine keeps_presence (fun _ => Indexes live s ∅ ∅) ?_ fun _ => ?_
  · exact fun order pm r pm' hB hx => indexes_entry hs hB hx
  · exact keeps_presence_bind heach fun _ => release_keeps

theorem unwatch_keeps (D : Set String) (x : String) (T : Finset String → Prop)
    (hT : ∀ ts, T ts → x ∉ ts) :
    Keeps crates hasDb owner t (At A (fun pm => Indexes live s D ∅ pm ∧ T (pm.targets s)) S)
      (presence (Presence.unwatch s x)) fun _ =>
        At A (fun pm => Indexes live s (D \ {x}) ∅ pm ∧ T (pm.targets s)) S := by
  refine keeps_presence (fun emptied pm => Indexes live s (D \ {x}) {x} pm ∧ T (pm.targets s) ∧
    if emptied then pm.watching x = ∅ else pm.watchers.lookup x ≠ some ∅) ?_ fun emptied => ?_
  · rintro order pm emptied pm' ⟨h, hts⟩ hx
    have hw := Presence.PresenceManager.watching_exec hx
    have ht := Presence.PresenceManager.targets_exec hx
    have hsub : pm'.subscriptions = pm.subscriptions := by
      rcases Presence.PresenceManager.exec_unwatch hx with ⟨ws, -, -, rfl⟩ | ⟨-, -, rfl⟩
      · rfl
      · rfl
    refine ⟨⟨fun s' hs' => h.subscribers s' (hsub ▸ hs'), fun s' y hne => ?_, fun y hy => ?_⟩,
      by rwa [ht], ?_⟩
    · rw [ht, hw]
      simp only
      split_ifs with hy
      · subst hy
        by_cases hs' : s' = s
        · subst hs'
          simpa using hT _ hts
        · rw [Finset.mem_erase, and_iff_right hs']
          exact h.inverse s' y fun hc => hs' hc.1
      · exact h.inverse s' y fun hc => hne ⟨hc.1, hc.2, hy⟩
    · have hne : y ≠ x := hy
      rcases Presence.PresenceManager.exec_unwatch hx with ⟨ws, -, -, rfl⟩ | ⟨-, -, rfl⟩
      · simp only [lookup_insert_ite, if_neg hne]
        exact h.nonempty y (by simp)
      · exact h.nonempty y (by simp)
    · rcases Presence.PresenceManager.exec_unwatch hx with ⟨ws, -, rfl, rfl⟩ | ⟨hnone, rfl, rfl⟩
      · split_ifs with hempty
        · simpa [Presence.PresenceManager.watching] using hempty
        · simpa using hempty
      · simp [hnone]
  · cases emptied with
    | true =>
      refine keeps_presence (k := .done)
        (fun _ pm => Indexes live s (D \ {x}) ∅ pm ∧ T (pm.targets s)) ?_ fun _ =>
          triple_done fun _ hv => hv
      rintro order pm r pm' ⟨h, hts, hempty⟩ hx
      have hw := Presence.PresenceManager.watching_exec hx
      cases hx
      refine ⟨⟨h.subscribers, fun s' y hne => ?_, fun y _ => ?_⟩, hts⟩
      · rw [hw]
        simp only
        split_ifs with hy
        · subst hy
          have hwatch : pm.watching y = ∅ := hempty
          have hinv := h.inverse s' y hne
          rw [hwatch] at hinv
          exact hinv
        · exact h.inverse s' y hne
      · simp only [lookup_erase_ite]
        split_ifs with hy
        · simp
        · exact h.nonempty y hy
    | false =>
      refine triple_done ?_
      rintro v ⟨hA, ⟨h, hts, hne⟩, hS⟩
      refine ⟨hA, ⟨⟨h.subscribers, h.inverse, fun y _ => ?_⟩, hts⟩, hS⟩
      by_cases hy : y = x
      · subst hy
        exact hne
      · exact h.nonempty y hy

theorem indexes_remove {r : Unit} (hs : live s) (h : Indexes live s ∅ ∅ pm)
    (hx : pm.exec t order (.remove s x) = some (r, pm')) :
    Indexes live s {x} ∅ pm' ∧ x ∉ pm'.targets s := by
  have ht := Presence.PresenceManager.targets_exec hx
  cases hx
  refine ⟨⟨fun s' hs' => ?_, fun s' y hne => ?_, h.nonempty⟩, ?_⟩
  · simp only [lookup_insert_ite] at hs'
    split_ifs at hs' with heq
    · exact heq ▸ hs
    · exact h.subscribers s' hs'
  · rw [ht]
    simp only
    split_ifs with heq
    · have hy : y ≠ x := fun hyx => hne ⟨heq, hyx⟩
      rw [Finset.mem_erase, and_iff_right hy]
      exact h.inverse s' y (by simp)
    · exact h.inverse s' y (by simp)
  · rw [ht]
    simp

theorem unsubscribe_keeps (hs : live s) (targets : List String) :
    Keeps crates hasDb owner t (At A (Indexes live s ∅ ∅) S)
      (presence (Presence.unsubscribe s targets)) fun _ => At A (Indexes live s ∅ ∅) S := by
  have heach : Keeps crates hasDb owner t (At A (Indexes live s ∅ ∅) S)
      (presence (Presence.unsubscribeEach s targets)) fun _ => At A (Indexes live s ∅ ∅) S := by
    induction targets with
    | nil => exact triple_done fun _ hv => hv
    | cons x xs ih =>
      refine keeps_presence (fun _ pm => Indexes live s {x} ∅ pm ∧ x ∉ pm.targets s) ?_ fun _ => ?_
      · exact fun order pm r pm' hB hx => indexes_remove hs hB hx
      · refine keeps_presence_bind (unwatch_keeps {x} x (x ∉ ·) fun _ hx => hx) fun _ => ?_
        refine ih.mono ?_ fun _ _ hv => hv
        rintro v ⟨hA, ⟨h, -⟩, hS⟩
        rw [Set.sdiff_self] at h
        exact ⟨hA, h, hS⟩
  refine keeps_presence (fun _ => Indexes live s ∅ ∅) ?_ fun found => ?_
  · intro order pm found pm' hB hx
    rcases Presence.PresenceManager.exec_getMut hx with ⟨-, rfl⟩ | ⟨-, -, rfl⟩
    · exact hB.of_same (fun _ h => Or.inl h) (fun _ => rfl) rfl
    · exact hB
  · cases found with
    | true => exact keeps_presence_bind heach fun _ => release_keeps
    | false => exact triple_done fun _ hv => hv

theorem unwatchEach_keeps (targets : List String) :
    Keeps crates hasDb owner t
      (At A (fun pm => Indexes live s {x | x ∈ targets} ∅ pm ∧ pm.targets s = ∅) S)
      (presence (Presence.unwatchEach s targets)) fun _ => At A (Indexes live s ∅ ∅) S := by
  induction targets with
  | nil =>
    refine triple_done ?_
    rintro v ⟨hA, ⟨h, -⟩, hS⟩
    refine ⟨hA, ?_, hS⟩
    simpa using h
  | cons y ys ih =>
    refine keeps_presence_bind (unwatch_keeps _ y (· = ∅) fun _ hts => by simp [hts]) fun _ => ?_
    refine ih.mono ?_ fun _ _ hv => hv
    rintro v ⟨hA, ⟨h, hts⟩, hS⟩
    refine ⟨hA, ⟨⟨h.subscribers, fun s' x hne => h.inverse s' x fun hc => hne ?_, h.nonempty⟩, hts⟩,
      hS⟩
    obtain ⟨hs', hx, hxy⟩ := hc
    exact ⟨hs', List.mem_of_ne_of_mem hxy hx⟩

theorem clearSubscriber_keeps :
    Keeps crates hasDb owner t (At A (Indexes live s ∅ ∅) S)
      (presence (Presence.clearSubscriber s))
      fun _ => At A (Indexes (fun pk => live pk ∧ pk ≠ s) s ∅ ∅) S := by
  refine keeps_presence (fun taken pm => Indexes (fun pk => live pk ∧ pk ≠ s) s
    {x | x ∈ taken.getD []} ∅ pm ∧ pm.targets s = ∅) ?_ fun taken => ?_
  · intro order pm taken pm' h hx
    have ht := Presence.PresenceManager.targets_exec hx
    have hanswer := PresenceIndexes.take_answer hx
    have hrest : pm'.watchers = pm.watchers ∧ ∀ s', (pm'.subscriptions.lookup s').isSome →
        (pm.subscriptions.lookup s').isSome ∧ s' ≠ s := by
      rcases Presence.PresenceManager.exec_take hx with ⟨ts, -, -, -, rfl⟩ | ⟨hnone, -, rfl⟩
      · refine ⟨rfl, fun s' hs' => ?_⟩
        simp only [lookup_erase_ite] at hs'
        split_ifs at hs' with heq
        · cases hs'
        · exact ⟨hs', heq⟩
      · refine ⟨rfl, fun s' hs' => ⟨hs', fun heq => ?_⟩⟩
        rw [heq, hnone] at hs'
        cases hs'
    obtain ⟨hwatchers, hsub⟩ := hrest
    refine ⟨⟨fun s' hs' => ?_, fun s' x hne => ?_, fun x hx => ?_⟩, ?_⟩
    · exact ⟨h.subscribers s' (hsub s' hs').1, (hsub s' hs').2⟩
    · rw [ht, Presence.PresenceManager.watching, hwatchers]
      have hinv := h.inverse s' x (by simp)
      simp only
      split_ifs with heq
      · subst heq
        have hout : x ∉ pm.targets s' := fun hx => hne ⟨rfl, (hanswer x).mpr hx⟩
        exact iff_of_false (by simp) fun hw => hout (hinv.mpr hw)
      · exact hinv
    · rw [hwatchers]
      exact h.nonempty x hx
    · rw [ht]
      simp
  · cases taken with
    | none =>
      refine triple_done ?_
      rintro v ⟨hA, ⟨h, -⟩, hS⟩
      exact ⟨hA, by simpa using h, hS⟩
    | some targets => exact unwatchEach_keeps targets

end Subscriptions

/-! ## The registry -/

section Registry

variable {crates : Crates} {hasDb : Bool} {owner : String → String} {t : ℕ}
  {live : String → Prop} {B : Presence.PresenceManager → Prop}
  {S : Table Uuid Relay.Session → Prop}

theorem RegistryOk.inserted {reg : Registry.PeerRegistry} {peer : Registry.PeerHandle}
    (h : RegistryOk owner live reg) (hnew : ¬ live peer.pubkey)
    (howner : ∀ handle, peer.handle = some handle → owner handle = peer.pubkey) :
    RegistryOk owner (fun pk => live pk ∨ pk = peer.pubkey)
      ⟨reg.byPubkey.insert peer.pubkey peer,
        peer.handle.elim reg.handleToPubkey (reg.handleToPubkey.insert · peer.pubkey)⟩ := by
  have habsent : reg.byPubkey.lookup peer.pubkey = none := by
    rw [← Option.not_isSome_iff_eq_none]
    exact fun hsome => hnew ((h.keys _).mp hsome)
  refine ⟨fun pk => ?_, fun pk peer' hl => ?_, fun handle pk => ?_, fun pk peer' handle hl hh => ?_⟩
  · simp only [lookup_insert_ite]
    split_ifs with heq
    · simp [heq]
    · simpa [heq] using h.keys pk
  · simp only [lookup_insert_ite] at hl
    split_ifs at hl with heq
    · cases hl
      exact heq.symm
    · exact h.named pk peer' hl
  · -- a handle of the new key, or one that is somebody else's
    have hold := h.index handle pk
    simp only [lookup_insert_ite]
    cases hh : peer.handle with
    | none =>
      simp only [Option.elim_none]
      split_ifs with heq
      · subst heq
        rw [hold, habsent]
        simp [hh]
      · exact hold
    | some handle' =>
      simp only [Option.elim_some, lookup_insert_ite]
      split_ifs with hhandle heq heq
      · simp [hh, hhandle, heq]
      · subst hhandle
        refine iff_of_false (fun hc => heq (Option.some.inj hc).symm) ?_
        rintro ⟨peer', hl, hp⟩
        exact heq ((h.owned pk peer' handle hl hp).symm.trans (howner handle hh))
      · subst heq
        rw [hold, habsent]
        simp [hh, Ne.symm hhandle]
      · exact hold
  · simp only [lookup_insert_ite] at hl
    split_ifs at hl with heq
    · cases hl
      exact (howner handle hh).trans heq.symm
    · exact h.owned pk peer' handle hl hh

theorem insert_keeps (peer : Registry.PeerHandle) (hnew : ¬ live peer.pubkey) :
    Keeps crates hasDb owner t (At (RegistryOk owner live) B S) (registry (Registry.insert peer))
      fun _ => At (RegistryOk owner fun pk => live pk ∨ pk = peer.pubkey) B S := by
  rw [Registry.insert]
  cases hh : peer.handle with
  | none =>
    refine keeps_registry (k := .done) (fun _ => RegistryOk owner _) (fun reg _ h => ?_) fun _ =>
      triple_done fun _ hv => hv
    have hin := h.inserted hnew fun handle hc => by simp [hh] at hc
    rw [hh] at hin
    exact hin
  | some handle =>
    refine keeps_registry (fun _ reg => ∃ reg₀, RegistryOk owner live reg₀ ∧
      owner handle = peer.pubkey ∧
      reg = ⟨reg₀.byPubkey, reg₀.handleToPubkey.insert handle peer.pubkey⟩)
      (fun reg hok h => ⟨reg, h, hok, rfl⟩) fun _ => ?_
    refine keeps_registry (k := .done) (fun _ => RegistryOk owner _) ?_ fun _ =>
      triple_done fun _ hv => hv
    rintro reg - ⟨reg₀, h, howner, rfl⟩
    have hin := h.inserted hnew fun handle' hc => by
      rw [hh] at hc
      exact Option.some.inj hc ▸ howner
    rw [hh] at hin
    exact hin

theorem RegistryOk.removed {reg : Registry.PeerRegistry} {index : Table String String} {pk : String}
    (h : RegistryOk owner live reg)
    (hindex : ∀ handle pk', index.lookup handle = some pk' ↔
      reg.handleToPubkey.lookup handle = some pk' ∧ pk' ≠ pk) :
    RegistryOk owner (fun pk' => live pk' ∧ pk' ≠ pk) ⟨reg.byPubkey.erase pk, index⟩ := by
  refine ⟨fun pk' => ?_, fun pk' peer hl => ?_, fun handle pk' => ?_, fun pk' peer handle hl hh => ?_⟩
  · simp only [lookup_erase_ite]
    split_ifs with heq
    · simp [heq]
    · simpa [heq] using h.keys pk'
  · simp only [lookup_erase_ite] at hl
    split_ifs at hl
    exact h.named pk' peer hl
  · rw [hindex, h.index]
    simp only [lookup_erase_ite]
    split_ifs with heq
    · simp [heq]
    · simp [heq]
  · simp only [lookup_erase_ite] at hl
    split_ifs at hl
    exact h.owned pk' peer handle hl hh

theorem remove_keeps (pk : String) :
    Keeps crates hasDb owner t (At (RegistryOk owner live) B S) (registry (Registry.remove pk))
      fun _ => At (RegistryOk owner fun pk' => live pk' ∧ pk' ≠ pk) B S := by
  refine keeps_registry (fun removed reg => ∃ reg₀, RegistryOk owner live reg₀ ∧
    removed = reg₀.byPubkey.lookup pk ∧ reg = ⟨reg₀.byPubkey.erase pk, reg₀.handleToPubkey⟩)
    (fun reg _ h => ⟨reg, h, rfl, rfl⟩) fun removed => ?_
  -- a key without a handle is in no entry of the index
  have hbare : (∀ peer handle, removed = some peer → peer.handle ≠ some handle) →
      ∀ a : Option Registry.PeerHandle, Keeps crates hasDb owner t
        (At (fun reg => ∃ reg₀, RegistryOk owner live reg₀ ∧
          removed = reg₀.byPubkey.lookup pk ∧ reg = ⟨reg₀.byPubkey.erase pk, reg₀.handleToPubkey⟩) B S)
        (.done a) fun _ => At (RegistryOk owner fun pk' => live pk' ∧ pk' ≠ pk) B S := by
    intro hno a
    refine triple_done ?_
    rintro v ⟨⟨reg₀, h, hremoved, hreg⟩, hB, hS⟩
    refine ⟨hreg ▸ h.removed fun handle pk' => (and_iff_left_of_imp fun hl hpk => ?_).symm, hB, hS⟩
    obtain ⟨peer, hpeer, hh⟩ := (h.index handle pk').mp hl
    rw [hpk, ← hremoved] at hpeer
    exact hno peer handle hpeer hh
  cases removed with
  | none => exact hbare (fun _ _ hc => by cases hc) none
  | some peer =>
    simp only
    cases hh : peer.handle with
    | none =>
      refine hbare (fun peer' handle hc => ?_) (some peer)
      cases hc
      simp [hh]
    | some handle =>
      refine keeps_registry (fun entry reg => entry = some pk ∧ ∃ reg₀, RegistryOk owner live reg₀ ∧
        some peer = reg₀.byPubkey.lookup pk ∧ reg = ⟨reg₀.byPubkey.erase pk, reg₀.handleToPubkey⟩)
        ?_ fun entry => ?_
      · rintro reg - ⟨reg₀, h, hremoved, rfl⟩
        exact ⟨(h.index handle pk).mpr ⟨peer, hremoved.symm, hh⟩, reg₀, h, hremoved, rfl⟩
      · cases entry with
        | none => exact triple_absurd fun v hv => nomatch hv.1.1
        | some e =>
          simp only
          split_ifs with he
          · refine keeps_registry (fun _ => RegistryOk owner fun pk' => live pk' ∧ pk' ≠ pk) ?_
              fun _ => triple_done fun _ hv => hv
            rintro reg - ⟨-, reg₀, h, hremoved, rfl⟩
            refine h.removed fun handle' pk' => ?_
            have hindex := (h.index handle pk).mpr ⟨peer, hremoved.symm, hh⟩
            simp only [lookup_erase_ite]
            split_ifs with heq
            · rw [heq, hindex]
              simp [eq_comm]
            · refine (and_iff_left_of_imp fun hl hpk => ?_).symm
              obtain ⟨peer', hpeer', hh'⟩ := (h.index handle' pk').mp hl
              rw [hpk, ← hremoved] at hpeer'
              cases hpeer'
              rw [hh] at hh'
              exact heq (Option.some.inj hh').symm
          · refine triple_absurd ?_
            rintro v ⟨⟨hentry, reg₀, h, hremoved, -⟩, -⟩
            cases hentry
            exact he (h.named _ peer hremoved.symm).symm

end Registry

/-! ## Relay sessions -/

section RelaySessions

variable {crates : Crates} {hasDb : Bool} {owner : String → String} {t : ℕ}
  {live : String → Prop} {A : Registry.PeerRegistry → Prop} {B : Presence.PresenceManager → Prop}

/-- The sessions of a peer that are left are in the list. -/
def LeftIn (live : String → Prop) (pk : String) (ids : List Uuid)
    (sessions : Table Uuid Relay.Session) : Prop :=
  PartiesLive live sessions ∧ ∀ id session, sessions.lookup id = some session →
    session.initiator = pk ∨ session.responder = pk → id ∈ ids

theorem removeEach_keeps (pk : String) (ids : List Uuid) :
    Keeps crates hasDb owner t (At A B (LeftIn live pk ids)) (relay (Relay.removeEach ids))
      fun _ => At A B (PartiesLive fun pk' => live pk' ∧ pk' ≠ pk) := by
  induction ids with
  | nil =>
    refine triple_done ?_
    rintro v ⟨hA, hB, hlive, hleft⟩
    refine ⟨hA, hB, fun id session hl => ?_⟩
    obtain ⟨hi, hr⟩ := hlive id session hl
    have hno : ¬ (session.initiator = pk ∨ session.responder = pk) :=
      fun hc => List.not_mem_nil (hleft id session hl hc)
    exact ⟨⟨hi, fun hc => hno (.inl hc)⟩, hr, fun hc => hno (.inr hc)⟩
  | cons id ids ih =>
    refine keeps_relay (fun _ => LeftIn live pk ids) ?_ fun _ => ih
    rintro env rm r rm' ⟨hlive, hleft⟩ ⟨⟩
    refine ⟨fun id' session hl => ?_, fun id' session hl hp => ?_⟩
    · simp only [lookup_erase_ite] at hl
      split_ifs at hl
      exact hlive id' session hl
    · simp only [lookup_erase_ite] at hl
      split_ifs at hl with heq
      exact List.mem_of_ne_of_mem heq (hleft id' session hl hp)

theorem dropSessionsFor_keeps (pk : String) :
    Keeps crates hasDb owner t (At A B (PartiesLive live)) (relay (Relay.dropSessionsFor pk))
      fun _ => At A B (PartiesLive fun pk' => live pk' ∧ pk' ≠ pk) := by
  refine keeps_relay (LeftIn live pk) ?_ fun stale => removeEach_keeps pk stale
  intro env rm stale rm' hlive hx
  obtain ⟨hperm, rfl⟩ := Relay.RelayManager.exec_stale hx
  refine ⟨hlive, fun id session hl hp => ?_⟩
  exact hperm.mem_iff.mpr (Relay.RelayManager.mem_sessionsOf.mpr ⟨session, hl, hp⟩)

theorem insertSession_keeps {initiator responder : String} (hi : live initiator)
    (hr : live responder) :
    Keeps crates hasDb owner t (At A B (PartiesLive live))
      (perform (.relay (.insertSession initiator responder))) fun _ => At A B (PartiesLive live) := by
  refine keeps_relay (fun _ => PartiesLive live) ?_ fun _ => triple_done fun _ hv => hv
  intro env rm r rm' hlive hx id session hl
  rcases Relay.RelayManager.parties_exec hx hl with ⟨old, hold, hi', hr'⟩ | ⟨_, _, ha, rfl⟩
  · rw [← hi', ← hr']
    exact hlive id old hold
  · cases ha
    exact ⟨hi, hr⟩

theorem promote_keeps (id : Uuid) (responder : String) :
    Keeps crates hasDb owner t (At A B (PartiesLive live))
      (perform (.relay (.promote id responder))) fun _ => At A B (PartiesLive live) := by
  refine keeps_relay (fun _ => PartiesLive live) ?_ fun _ => triple_done fun _ hv => hv
  intro env rm r rm' hlive hx id' session hl
  rcases Relay.RelayManager.parties_exec hx hl with ⟨old, hold, hi, hr⟩ | ⟨_, _, ha, -⟩
  · rw [← hi, ← hr]
    exact hlive id' old hold
  · cases ha

end RelaySessions

/-! ## Handlers, registration and closing -/

section Programs

variable {crates : Crates} {hasDb : Bool} {owner : String → String} {t : ℕ}
  {live : String → Prop} {pk : String} {α β : Type}

/-- The three tables agree, with these keys live. -/
abbrev Agree (owner : String → String) (live : String → Prop) (s : String) : Tables → Prop :=
  At (RegistryOk owner live) (Indexes live s ∅ ∅) (PartiesLive live)

theorem keeps_attempt_bind {P : Tables → Prop} {Q : Except BrokerError β → Tables → Prop}
    {p : Work (Except BrokerError α)} {f : α → Handler β}
    {R : Tables → Prop} (hp : Keeps crates hasDb owner t P p fun _ => R)
    (he : ∀ e v, R v → Q (.error e) v)
    (hf : ∀ a, Keeps crates hasDb owner t R (f a).run Q) :
    Keeps crates hasDb owner t P (attempt p >>= f).run Q := by
  rw [run_attempt_bind]
  refine hp.bind fun x => ?_
  cases x with
  | ok a => exact hf a
  | error e => exact triple_done fun v hv => he e v hv

theorem keeps_get_bind {s target : String} {Q : Except BrokerError β → Tables → Prop}
    {f : Option Registry.PeerHandle → Handler β}
    (hnone : Keeps crates hasDb owner t (Agree owner live s) (f none).run Q)
    (hsome : ∀ peer, live target →
      Keeps crates hasDb owner t (Agree owner live s) (f (some peer)).run Q) :
    Keeps crates hasDb owner t (Agree owner live s)
      (ExceptT.lift (registry (Registry.get target)) >>= f).run Q := by
  rw [run_lift_bind]
  refine triple_call (fun peer v => Agree owner live s v ∧ (peer.isSome → live target)) ?_ ?_
  · rintro env b peer b' - ⟨hA, hB, hS⟩ ⟨⟩
    exact ⟨⟨hA, hB, hS⟩, (hA.keys target).mp⟩
  · intro peer
    cases peer with
    | none => exact hnone.mono (fun v hv => hv.1) fun _ _ hv => hv
    | some peer => exact fun b hist b' a hP he => hsome peer (hP.2 rfl) b hist b' a hP.1 he

theorem request_keeps (hpk : live pk) (responder : String) :
    Keeps crates hasDb owner t (Agree owner live pk) (request crates pk responder).run
      fun _ => Agree owner live pk := by
  refine keeps_get_bind ?_ fun peer hresponder => ?_
  · rw [run_orElse_bind]
    exact triple_done fun _ hv => hv
  · simp only [run_orElse_bind, run_lift_bind]
    refine (insertSession_keeps hpk hresponder).bind fun id => ?_
    refine keeps_untouched ?_
    exact always_trySend_bind trivial fun _ => trivial

theorem accept_keeps (id : Uuid) :
    Keeps crates hasDb owner t (Agree owner live pk) (accept crates pk id).run
      fun _ => Agree owner live pk := by
  refine keeps_attempt_bind (promote_keeps id pk) (fun _ _ hv => hv) fun initiator => ?_
  refine keeps_untouched ?_
  refine always_lift_bind (get_always _ trivial) fun peer => ?_
  refine always_orElse_bind fun initPeer _ => ?_
  refine always_lift_bind (get_always _ trivial) fun peer => ?_
  refine always_orElse_bind fun respPeer _ => ?_
  exact always_trySend_bind trivial fun _ => always_trySend trivial

def Reads (msg : ClientMessage) : Prop :=
  msg.tag ∉ ["subscribe_presence", "unsubscribe_presence", "request_relay", "accept_relay"]

theorem dispatch_untouched {msg : ClientMessage} (hmsg : Reads msg) :
    (dispatch crates hasDb t pk msg).run.Always Untouched := by
  simp only [Reads, List.mem_cons, List.not_mem_nil, or_false, not_or] at hmsg
  obtain ⟨hsub, hunsub, hrequest, haccept⟩ := hmsg
  refine (dispatch_always crates hasDb t pk msg).mono fun o ho => ?_
  obtain ⟨hacts, hled⟩ := ho
  cases o with
  | registry a =>
    cases a with
    | getHandle handle => trivial
    | getPeer pubkey => trivial
    | containsPeer pubkey => trivial
    | _ => exact hled.elim
  | presence a => exact absurd hled (not_or.mpr ⟨hsub, hunsub⟩)
  | relay a =>
    cases a with
    | insertSession => exact absurd hled hrequest
    | promote => exact absurd hled haccept
    | removeSession => exact hacts.elim
    | _ => trivial
  | _ => trivial

theorem dispatch_keeps (hpk : live pk) (msg : ClientMessage) :
    Keeps crates hasDb owner t (Agree owner live pk) (dispatch crates hasDb t pk msg).run
      fun _ => Agree owner live pk := by
  by_cases hmsg : Reads msg
  · exact keeps_untouched (dispatch_untouched hmsg)
  · cases msg with
    | subscribePresence pubkey peers timestamp signature requestId =>
      refine ((subscribe_keeps hpk peers).bind fun _ => keeps_untouched ?_).bind fun _ =>
        triple_done fun _ hv => hv
      refine (always_metric trivial).bind fun _ => ?_
      exact report_always (fun _ => trivial) trivial fun _ _ => trivial
    | unsubscribePresence pubkey peers timestamp signature requestId =>
      refine ((unsubscribe_keeps hpk peers).bind fun _ => keeps_untouched ?_).bind fun _ =>
        triple_done fun _ hv => hv
      exact always_metric trivial
    | requestRelay pubkey peer timestamp signature requestId =>
      refine keeps_attempt_bind (request_keeps hpk peer) (fun _ _ hv => hv) fun id => ?_
      refine keeps_untouched (always_lift_bind (always_metric trivial) fun _ => ?_)
      exact always_lift (always_send trivial)
    | acceptRelay pubkey sessionId timestamp signature requestId =>
      simp only [dispatch, onAcceptRelay, run_require_bind]
      cases Relay.parseSessionId crates sessionId with
      | error e => exact triple_done fun _ hv => hv
      | ok id => exact accept_keeps id
    | _ => exact absurd (by simp [Reads, ClientMessage.tag]) hmsg

theorem pump_keeps (hpk : live pk) (now : UnixTime) (text : String) :
    Keeps crates hasDb owner t (Agree owner live pk) (pump crates hasDb t now pk text)
      fun _ => Agree owner live pk := by
  have hhandle : Keeps crates hasDb owner t (Agree owner live pk)
      (handleClientMessage crates hasDb t now pk text).run fun _ => Agree owner live pk := by
    rw [handleClientMessage, run_require_bind]
    cases authenticate crates now pk text with
    | error e => exact triple_done fun _ hv => hv
    | ok msg => exact dispatch_keeps hpk msg
  refine hhandle.bind fun x => ?_
  cases x with
  | ok u => exact triple_done fun _ hv => hv
  | error e => exact keeps_untouched ((always_send trivial).bind fun _ => trivial)

theorem Indexes.mono {live' : String → Prop} {s : String} {pm : Presence.PresenceManager}
    (h : Indexes live s ∅ ∅ pm) (hlive : ∀ pk, live pk → live' pk) : Indexes live' s ∅ ∅ pm :=
  ⟨fun s' hs' => hlive s' (h.subscribers s' hs'), h.inverse, h.nonempty⟩

theorem PartiesLive.mono {live' : String → Prop} {sessions : Table Uuid Relay.Session}
    (h : PartiesLive live sessions) (hlive : ∀ pk, live pk → live' pk) :
    PartiesLive live' sessions :=
  fun id session hl => ⟨hlive _ (h id session hl).1, hlive _ (h id session hl).2⟩

theorem enter_keeps {s : String} (hnew : ¬ live pk) (addr : Registry.SocketAddr)
    (handle : Option String) (addresses : PeerAddresses) (kind : Option IdentityKind)
    (requestId : Option String) :
    Keeps crates hasDb owner t (Agree owner live s)
      (enter crates hasDb t addr pk handle addresses kind requestId)
      fun _ => Agree owner (fun pk' => live pk' ∨ pk' = pk) s := by
  have hrecord : (recordPeer crates hasDb t pk handle (kind.getD .user) requestId).Always
      Untouched :=
    recordPeer_always crates hasDb t pk handle _ requestId trivial
      (fun h => Prog.Always.lift ((Handles.claim_always crates pk h).mono fun _ _ => trivial))
      (fun _ => trivial) fun _ _ => trivial
  have hbroadcast : (broadcast pk true).Always Untouched :=
    broadcast_always pk true trivial (fun _ => trivial) fun _ => trivial
  refine (keeps_untouched hrecord).bind fun claimed => ?_
  refine (insert_keeps _ hnew).bind fun _ => ?_
  refine Triple.mono (P := Agree owner (fun pk' => live pk' ∨ pk' = pk) s) (keeps_untouched ?_)
    ?_ fun _ _ hv => hv
  · refine (always_metric trivial).bind fun _ => (always_metric trivial).bind fun _ => ?_
    exact (always_send trivial).bind fun _ => hbroadcast.bind fun _ => trivial
  · rintro v ⟨hA, hB, hS⟩
    exact ⟨hA, hB.mono fun _ => Or.inl, hS.mono fun _ => Or.inl⟩

theorem cleanup_keeps :
    Keeps crates hasDb owner t (Agree owner live pk) (cleanup pk)
      fun _ => Agree owner (fun pk' => live pk' ∧ pk' ≠ pk) pk := by
  have hbroadcast : (broadcast pk false).Always Untouched :=
    broadcast_always pk false trivial (fun _ => trivial) fun _ => trivial
  refine (remove_keeps pk).bind fun _ => ?_
  refine (keeps_untouched (always_metric trivial)).bind fun _ => ?_
  refine clearSubscriber_keeps.bind fun _ => ?_
  refine (dropSessionsFor_keeps pk).bind fun _ => ?_
  exact keeps_untouched (hbroadcast.bind fun _ => trivial)

end Programs

/-! ## Runs -/

section Runs

variable {crates : Crates} {hasDb : Bool} {owner : String → String} {phases : ℕ → Phase} {t : ℕ}
  {pk : String}

theorem Agree.rename {live live' : String → Prop} {s : String} {v : Tables}
    (h : Agree owner live s v) (hlive : ∀ pk, live pk ↔ live' pk) (s' : String) :
    Agree owner live' s' v := by
  obtain rfl : live = live' := funext fun pk => propext (hlive pk)
  obtain ⟨hA, hB, hS⟩ := h
  exact ⟨hA, ⟨hB.subscribers, fun s x _ => hB.inverse s x (by simp), hB.nonempty⟩, hS⟩

def Inv (owner : String → String) (phases : ℕ → Phase) (v : Tables) : Prop :=
  Distinct phases → Agree owner (Live phases) "" v

theorem live_update_iff {c : Phase} (hold : ∀ pk, phases t ≠ .pumping pk) :
    Live (Function.update phases t c) pk ↔ Live phases pk ∨ c = .pumping pk := by
  constructor
  · rintro ⟨u, hu⟩
    by_cases hut : u = t
    · subst hut
      exact Or.inr (by simpa using hu)
    · exact Or.inl ⟨u, by simpa [hut] using hu⟩
  · rintro (⟨u, hu⟩ | hc)
    · have hut : u ≠ t := fun heq => hold pk (heq ▸ hu)
      exact ⟨u, by simpa [hut] using hu⟩
    · exact ⟨t, by simpa using hc⟩

theorem live_update_ended (hdistinct : Distinct phases) (ht : phases t = .pumping pk)
    (pk' : String) : Live (Function.update phases t .ended) pk' ↔ Live phases pk' ∧ pk' ≠ pk := by
  constructor
  · rintro ⟨u, hu⟩
    have hut : u ≠ t := by
      rintro rfl
      simp at hu
    rw [Function.update_of_ne hut] at hu
    exact ⟨⟨u, hu⟩, fun heq => hut (hdistinct u t pk (heq ▸ hu) ht)⟩
  · rintro ⟨⟨u, hu⟩, hne⟩
    have hut : u ≠ t := by
      rintro rfl
      rw [ht] at hu
      cases hu
      exact hne rfl
    exact ⟨u, by simpa [hut] using hu⟩

/-- The live sessions are the same after a task that was not live has not become so. -/
theorem Inv.same {c : Phase} {v : Tables} (h : Inv owner phases v) (hdistinct : Distinct phases)
    (hold : ∀ pk, phases t ≠ .pumping pk) (hc : ∀ pk, c ≠ .pumping pk) :
    Inv owner (Function.update phases t c) v := by
  intro _
  refine (h hdistinct).rename (fun pk => ?_) ""
  rw [live_update_iff hold, or_iff_left (hc pk)]

theorem reject_inv {msg : Option ServerMessage} {addr : Registry.SocketAddr}
    {text : Option String} {now : UnixTime} (hdistinct : Distinct phases)
    (hold : ∀ pk, phases t ≠ .pumping pk) :
    Keeps crates hasDb owner t (Inv owner phases) (reject t msg) fun a =>
      Inv owner (Function.update phases t (finish (.registering addr text now) a)) := by
  have hrejected : ∀ v, Inv owner phases v →
      Inv owner (Function.update phases t (finish (.registering addr text now) .rejected)) v :=
    fun v hv => hv.same hdistinct hold (by simp [finish])
  cases msg with
  | none => exact triple_done hrejected
  | some m => exact (keeps_untouched (always_send trivial)).bind fun _ => triple_done hrejected

theorem enter_returns (addr : Registry.SocketAddr) (handle : Option String)
    (addresses : PeerAddresses) (kind : Option IdentityKind) (requestId : Option String)
    {P : Tables → Prop} : Keeps crates hasDb owner t P
      (enter crates hasDb t addr pk handle addresses kind requestId)
      fun a _ => a = .registered pk := by
  have hany : ∀ {α : Type} {p : Work α} {P : Tables → Prop},
      Keeps crates hasDb owner t P p fun _ _ => True := fun _ _ _ _ _ _ => trivial
  refine Triple.bind hany fun claimed => Triple.bind hany fun _ => Triple.bind hany fun _ => ?_
  refine Triple.bind hany fun _ => Triple.bind hany fun _ => Triple.bind hany fun _ => ?_
  exact triple_done fun _ _ => rfl

/-- A registration: if no two sessions are live under one key after it, its key is new. -/
theorem enter_inv {c' : Phase} (hdistinct : Distinct phases) (hold : ∀ pk, phases t ≠ .pumping pk)
    (hc' : finish c' (.registered pk) = .pumping pk) (addr : Registry.SocketAddr)
    (handle : Option String) (addresses : PeerAddresses) (kind : Option IdentityKind)
    (requestId : Option String) :
    Keeps crates hasDb owner t (Inv owner phases)
      (enter crates hasDb t addr pk handle addresses kind requestId) fun a =>
        Inv owner (Function.update phases t (finish c' a)) := by
  intro b hist b' a hinv he
  obtain rfl : a = .registered pk :=
    enter_returns (P := fun _ => True) addr handle addresses kind requestId b hist b' a trivial he
  intro hdistinct'
  rw [hc'] at hdistinct' ⊢
  have hnew : ¬ Live phases pk := by
    rintro ⟨u, hu⟩
    have hut : u ≠ t := fun heq => hold pk (heq ▸ hu)
    exact hut (hdistinct' u t pk (by simpa [hut] using hu) (by simp))
  refine (enter_keeps hnew addr handle addresses kind requestId b hist b' _ (hinv hdistinct)
    he).rename (fun pk' => ?_) ""
  rw [live_update_iff hold]
  simp [eq_comm]

theorem start_keeps (hdistinct : Distinct phases) {i : Input} {c' : Phase} {p : Work Outcome}
    (hs : start crates hasDb t (phases t) i = some (c', p)) :
    Keeps crates hasDb owner t (Inv owner phases) p fun a =>
      Inv owner (Function.update phases t (finish c' a)) := by
  generalize hc : phases t = c at hs
  cases start_cases hs with
  | connects addr =>
    exact triple_done fun v hv => hv.same hdistinct (by simp [hc]) (by simp [finish])
  | registers addr f now =>
    rcases register_cases crates hasDb t now addr f.payload with
      ⟨text, pk, handle, addresses, kind, timestamp, signature, requestId, -, -, heq⟩ |
        ⟨msg, hmsg, heq, -⟩
    · rw [heq]
      exact enter_inv hdistinct (by simp [hc]) rfl addr handle addresses kind requestId
    · rw [heq]
      exact reject_inv hdistinct (by simp [hc])
  | handles pk text f now hf =>
    have hlive : Live phases pk := ⟨t, hc⟩
    refine (pump_keeps hlive now text).mono (fun v hv => ?_) fun a v hv _ => ?_
    · exact (hv hdistinct).rename (fun _ => Iff.rfl) pk
    · change Agree owner (Live (Function.update phases t (.pumping pk))) "" v
      rw [← hc, Function.update_eq_self]
      exact hv.rename (fun _ => Iff.rfl) ""
  | stays pk f now hf =>
    refine triple_done fun v hv => ?_
    change Inv owner (Function.update phases t (.pumping pk)) v
    rw [← hc, Function.update_eq_self]
    exact hv
  | closes pk f now hf =>
    have hcleanup : Keeps crates hasDb owner t (Agree owner (Live phases) pk) (cleanup pk)
        fun _ => Agree owner (fun pk' => Live phases pk' ∧ pk' ≠ pk) pk := cleanup_keeps
    refine hcleanup.mono (fun v hv => ?_) fun a v hv _ => ?_
    · exact (hv hdistinct).rename (fun _ => Iff.rfl) pk
    · exact hv.rename (fun pk' => (live_update_ended hdistinct hc pk').symm) ""

/-- In every state that atomic steps lead to, the tables agree with each other and with the live
sessions. -/
theorem tables_coherent {db₀ : Database.Db ℕ} {tr : List BrokerEvent} {σ : BrokerConfig}
    (h : GuardedRun (broker crates hasDb) (AtomicStep owner) (fresh db₀) tr σ) (hidle : Idle σ)
    (hdistinct : Distinct (ctls σ)) : Coherent (ctls σ) (tables σ.shared) := by
  have hinv : Inv owner (ctls σ) (tables σ.shared) := by
    refine h.sequential (tablesView crates hasDb) (fun _ _ _ hC => hC.1)
      (fun _ _ _ _ _ hC => hC.2.2 _ _ _ rfl) (fresh_idle db₀) (fun _ => ?_) ?_ hidle
    · have hnone : ∀ pk, ¬ Live (ctls (fresh db₀)) pk := by
        rintro pk ⟨t, ht⟩
        cases ht
      refine ⟨⟨fun pk => ?_, nofun, fun handle pk => ?_, nofun⟩,
        ⟨nofun, fun s x _ => ?_, nofun⟩, nofun⟩
      · exact iff_of_false nofun (hnone pk)
      · refine iff_of_false nofun ?_
        rintro ⟨peer, hl, -⟩
        cases hl
      · exact iff_of_false (Finset.notMem_empty x) (Finset.notMem_empty s)
    · intro tr σ t i c' p hC hs
      exact start_keeps (hC.2.1 t i rfl) hs
  obtain ⟨hA, hB, hS⟩ := hinv hdistinct
  refine ⟨hA.keys, hA.index, hB.subscribers, fun s x hw => ?_, fun s x => ?_, fun x => ?_, hS⟩
  · have hmem := (hB.inverse s x (by simp)).mpr hw
    refine hB.subscribers s (Option.isSome_iff_ne_none.mpr fun hnone => ?_)
    simp [Presence.PresenceManager.targets, hnone] at hmem
  · exact hB.inverse s x (by simp)
  · exact hB.nonempty x (by simp)

end Runs

/-! ## Two peers in turn -/

open Scripts Crates

def distinctBelow (n : ℕ) (σ : BrokerConfig) : Bool := (List.range n).all fun t =>
  (List.range n).all fun u =>
    match ctls σ t, ctls σ u with
    | .pumping pk, .pumping pk' => decide (pk = pk' → t = u)
    | _, _ => true

theorem distinct_of_distinctBelow {n : ℕ} {σ : BrokerConfig} (h : distinctBelow n σ = true)
    (habsent : ∀ t, n ≤ t → σ.tasks t = .waiting .absent) : Distinct (ctls σ) := by
  have hbound : ∀ {t pk}, ctls σ t = .pumping pk → t < n := by
    intro t pk ht
    by_contra hn
    rw [ctls, habsent t (by omega)] at ht
    cases ht
  intro t u pk ht hu
  have htest := List.all_eq_true.mp (List.all_eq_true.mp h t (List.mem_range.mpr (hbound ht))) u
    (List.mem_range.mpr (hbound hu))
  simp only [ht, hu] at htest
  simpa using htest

/-- Tests that a step is one of an atomic run of two tasks, with one owner for all handles. -/
def atomicTest (owner : String) (_ : List BrokerEvent) (σ : BrokerConfig) : BrokerEvent → Bool
  | .input _ _ => idleBelow 2 σ && distinctBelow 2 σ
  | .performed _ (.registry (.insertHandle _ pubkey)) _ => decide (owner = pubkey)
  | _ => true

theorem atomicTest_sound {owner : String} (tr : List BrokerEvent) (σ : BrokerConfig)
    (e : BrokerEvent) (habsent : ∀ t, 2 ≤ t → σ.tasks t = .waiting .absent)
    (h : atomicTest owner tr σ e = true) : AtomicStep (fun _ => owner) tr σ e := by
  cases e with
  | input t i =>
    simp only [atomicTest, Bool.and_eq_true] at h
    refine ⟨idle_of_idleBelow h.1 habsent, fun _ _ _ => ?_, nofun⟩
    exact distinct_of_distinctBelow h.2 habsent
  | performed t o r =>
    refine ⟨trivial, nofun, ?_⟩
    rintro t' o' r' ⟨⟩
    unfold atomicTest at h
    split at h
    · contradiction
    · rename_i heq
      cases heq
      have howner : owner = _ := of_decide_eq_true h
      exact howner
    · rename_i hno
      unfold GivenTo
      split
      · exact absurd rfl (hno _ _ _ _)
      · trivial
  | disturbed x => exact ⟨trivial, nofun, nofun⟩

/-- `a` registers with a handle, `b` without, `a` subscribes to `b` and asks it for a session. -/
def inTurn : List Cue :=
  [.connect 0, .say 0 'a' (registerAs 'a' (some "alice"))] ++ steps 0 15 calm ++
  [.connect 1, .say 1 'b' (registerAs 'b' none)] ++ steps 1 6 calm ++
  .say 0 'a' (.subscribePresence (keyText 'a') [keyText 'b'] 0 (signatureText 'a') none) ::
    steps 0 8 calm ++
  .say 0 'a' (.requestRelay (keyText 'a') (keyText 'b') 0 (signatureText 'a') none) ::
    steps 0 5 calm

theorem inTurn_played :
    (play true (atomicTest (keyText 'a')) inTurn [] (fresh DatabaseCalls.emptyDb)).map
      (fun x => (idleBelow 2 x.2, distinctBelow 2 x.2,
        x.2.shared.registry.handleToPubkey.lookup "alice",
        x.2.shared.relay.sessions.lookup (Vector.replicate 16 0))) =
      some (true, true, some (keyText 'a'), some ⟨keyText 'a', keyText 'b', .pending⟩) := by
  decide +kernel

theorem inTurn_coherent : ∃ tr σ,
    GuardedRun (broker demo true) (AtomicStep fun _ => keyText 'a') (fresh DatabaseCalls.emptyDb)
      tr σ ∧ Idle σ ∧ Distinct (ctls σ) ∧
      (∃ peer, σ.shared.registry.byPubkey.lookup (keyText 'a') = some peer ∧
        peer.handle = some "alice") ∧ Live (ctls σ) (keyText 'b') := by
  obtain ⟨⟨tr, σ⟩, hp, heq⟩ := Option.map_eq_some_iff.mp inTurn_played
  simp only [Prod.mk.injEq] at heq
  obtain ⟨hidle, hdistinct, hhandle, hsession⟩ := heq
  obtain ⟨hrun, habsent⟩ := guardedRun_of_play_among true atomicTest_sound (by decide) .start
    (fun _ _ => rfl) hp
  have hidle' := idle_of_idleBelow hidle habsent
  have hdistinct' := distinct_of_distinctBelow hdistinct habsent
  have hcoherent := tables_coherent hrun hidle' hdistinct'
  exact ⟨tr, σ, hrun, hidle', hdistinct', (hcoherent.handles _ _).mp hhandle,
    (hcoherent.parties _ _ hsession).2⟩

end HashedBroker.TableCoherence
