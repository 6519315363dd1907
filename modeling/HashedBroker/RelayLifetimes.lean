import HashedBroker.RegistryLiveness

/-!
# Relay sessions and their parties

A closing session takes its key out of the registry, collects the relay sessions of the key in one
scan and removes them one by one. A request looks the responder up and inserts the relay session in
a second access. If the responder's scan comes between the two, nobody removes the relay session. In
a run in which the responder is still registered at the insertion, or its scan is still to come,
every relay session has both of its parties in the registry between the cleanups.
-/
namespace HashedBroker.RelayLifetimes
open KeyedTables AtomicPrograms ReactiveTasks Protocol Server Sessions RegistryLiveness

/-! ## Where a cleanup stands -/

/-- What the cleanup of a session has done: nothing, taken the key out of the registry, or collected
the relay sessions of the key, of which these are left. -/
inductive Sweep
  | idle
  | removed (pubkey : String)
  | sweeping (ids : List Uuid)

def sweepNext (l : Sweep) : (o : Op) → Res o → Sweep
  | .registry (.removePeer pubkey), _ => .removed pubkey
  | .relay (.stale _), ids => .sweeping ids
  | .relay (.removeSession _), _ =>
    match l with
    | .sweeping ids => .sweeping ids.tail
    | l => l
  | _, _ => l

def sweep (t : ℕ) (tr : List BrokerEvent) : Sweep := localState sweepNext .idle t tr

/-- Cleanups go by the order of their steps, and nothing else sweeps. -/
def SweepOk (_ : ℕ) (c : Phase) (l : Sweep) (o : Op) : Prop :=
  ((∀ pk, c ≠ .closing pk) → l = .idle) ∧
    match o with
    | .registry (.removePeer _) => l = .idle
    | .relay (.stale pubkey) => l = .removed pubkey
    | .relay (.removeSession id) => ∃ ids, l = .sweeping (id :: ids)
    | _ => True

/-- A task that waits has nothing left to sweep. -/
def Swept (c : Phase) (l : Sweep) : Prop := l = .idle ∨ c = .ended ∧ l = .sweeping []

def Unswept : Op → Prop
  | .registry (.removePeer _) => False
  | .relay (.stale _) | .relay (.removeSession _) => False
  | _ => True

section Programs

variable {crates : Crates} {hasDb : Bool} {t : ℕ} {c : Phase} {l : Sweep} {α : Type} {pk : String}

theorem sweepOk_of_unswept {o : Op} (ho : Unswept o) (hl : (∀ pk, c ≠ .closing pk) → l = .idle) :
    SweepOk t c l o ∧ ∀ r, sweepNext l o r = l := by
  cases o with
  | registry a =>
    cases a with
    | removePeer pubkey => exact ho.elim
    | _ => exact ⟨⟨hl, trivial⟩, fun _ => rfl⟩
  | relay a =>
    cases a with
    | stale pubkey => exact ho.elim
    | removeSession id => exact ho.elim
    | _ => exact ⟨⟨hl, trivial⟩, fun _ => rfl⟩
  | _ => exact ⟨⟨hl, trivial⟩, fun _ => rfl⟩

theorem sweep_of_always {p : Work α} (hp : p.Always Unswept)
    (hl : (∀ pk, c ≠ .closing pk) → l = .idle) :
    p.Follows sweepNext (SweepOk t c) (fun l' _ => l' = l) l :=
  hp.follows (fun _ ho => sweepOk_of_unswept ho hl) fun _ => rfl

theorem removeEach_sweeps (ids : List Uuid) :
    (relay (Relay.removeEach ids)).Follows sweepNext (SweepOk t (.closing pk))
      (fun l _ => l = .sweeping []) (.sweeping ids) := by
  have hclosing : ∀ {l : Sweep}, (∀ pk', Phase.closing pk ≠ .closing pk') → l = .idle :=
    fun h => absurd rfl (h pk)
  induction ids with
  | nil => exact rfl
  | cons id ids ih => exact ⟨⟨hclosing, ids, rfl⟩, fun _ => ih⟩

theorem cleanup_sweeps :
    (cleanup pk).Follows sweepNext (SweepOk t (.closing pk))
      (fun l _ => l = .sweeping []) .idle := by
  have hclosing : ∀ {l : Sweep}, (∀ pk', Phase.closing pk ≠ .closing pk') → l = .idle :=
    fun h => absurd rfl (h pk)
  have hremove : (registry (Registry.remove pk)).Follows sweepNext (SweepOk t (.closing pk))
      (fun l _ => l = .removed pk) .idle := by
    obtain ⟨k, hk, hrest⟩ := remove_rest_always (Q := fun a => Unswept (.registry a)) pk
      (fun _ => trivial) fun _ => trivial
    rw [registry, hk]
    exact ⟨⟨hclosing, rfl⟩, fun removed =>
      sweep_of_always (Prog.Always.lift (hrest removed)) hclosing⟩
  have hclear : (presence (Presence.clearSubscriber pk)).Always Unswept :=
    Prog.Always.lift (clearSubscriber_always pk trivial (fun _ => trivial) fun _ => trivial)
  have hbroadcast : (broadcast pk false).Always Unswept :=
    broadcast_always pk false trivial (fun _ => trivial) fun _ => trivial
  have hdrop : (relay (Relay.dropSessionsFor pk)).Follows sweepNext (SweepOk t (.closing pk))
      (fun l _ => l = .sweeping []) (.removed pk) :=
    ⟨⟨hclosing, rfl⟩, fun stale => removeEach_sweeps stale⟩
  refine hremove.bind ?_
  rintro l - rfl
  refine (sweep_of_always (always_metric trivial) hclosing).bind ?_
  rintro l - rfl
  refine (sweep_of_always hclear hclosing).bind ?_
  rintro l - rfl
  refine hdrop.bind ?_
  rintro l - rfl
  refine (sweep_of_always hbroadcast hclosing).bind ?_
  rintro l - rfl
  exact rfl

theorem unswept_of_permitted {o : Op} (hc : ∀ pk, c ≠ .closing pk)
    (hop : Permitted crates t c o) : Unswept o := by
  have hother : ∀ {o : Op} {code message requestId},
      o = .send t (.error code message requestId) → Unswept o := by
    rintro o code message requestId rfl
    trivial
  cases c with
  | registering addr text now =>
    rcases hop with ⟨s, msg, -, -, hop⟩ | ⟨-, _, _, _, heq⟩
    · cases o with
      | registry a =>
        cases a with
        | removePeer pubkey => exact hop.elim
        | _ => trivial
      | relay a => exact hop.elim
      | _ => trivial
    · exact hother heq
  | handling pk text now =>
    rcases hop with ⟨msg, -, hacts, hled⟩ | ⟨-, _, _, _, heq⟩
    · cases o with
      | registry a =>
        cases a with
        | removePeer pubkey => exact hacts.elim
        | _ => trivial
      | relay a =>
        cases a with
        | stale pubkey => exact hacts.elim
        | removeSession id => exact hacts.elim
        | _ => trivial
      | _ => trivial
    · exact hother heq
  | closing pk => exact absurd rfl (hc pk)
  | _ => exact hop.elim

theorem start_sweeps {c' : Phase} {i : Input} {p : Work Outcome}
    (hs : start crates hasDb t c i = some (c', p)) (hl : Swept c l) :
    p.Follows sweepNext (SweepOk t c') (fun l a => Swept (finish c' a) l) l := by
  have hidle : l = .idle := by
    rcases hl with rfl | ⟨rfl, -⟩
    · rfl
    · cases hs
  subst hidle
  by_cases hc' : ∃ pk, c' = .closing pk
  · obtain ⟨pk, rfl⟩ := hc'
    rw [(start_closing hs).2]
    exact cleanup_sweeps.mono fun l _ hl => Or.inr ⟨rfl, hl⟩
  · have hno : ∀ pk, c' ≠ .closing pk := fun pk heq => hc' ⟨pk, heq⟩
    have halways : p.Always Unswept :=
      (start_permitted hs).mono fun o ho => unswept_of_permitted hno ho
    exact (sweep_of_always halways fun _ => rfl).mono fun l _ hl => Or.inl hl

end Programs

section Runs

variable {crates : Crates} {hasDb : Bool} {db₀ : Database.Db ℕ} {tr : List BrokerEvent}
  {σ : BrokerConfig}

theorem sweeps (h : Run (broker crates hasDb) (fresh db₀) tr σ) :
    (∀ t c, σ.tasks t = .waiting c → Swept c (sweep t tr)) ∧
      ∀ t c p, σ.tasks t = .running c p →
        p.Follows sweepNext (SweepOk t c) (fun l a => Swept (finish c a) l) (sweep t tr) :=
  h.tracks sweepNext .idle SweepOk (fun _ => Swept) (fun _ => ⟨.absent, rfl, Or.inl rfl⟩)
    fun _ _ _ _ _ _ hs hl => start_sweeps hs hl

theorem sweep_ok (h : Run (broker crates hasDb) (fresh db₀) tr σ) {t : ℕ} {c : Phase} {o : Op}
    {k : Res o → Work Outcome} (ht : σ.tasks t = .running c (.call o k)) :
    SweepOk t c (sweep t tr) o := ((sweeps h).2 t c _ ht).1

theorem swept_of_not_closing (h : Run (broker crates hasDb) (fresh db₀) tr σ) {t : ℕ}
    (hc : ∀ pk, (σ.tasks t).ctl ≠ .closing pk) : sweep t tr = .idle ∨ sweep t tr = .sweeping [] := by
  cases ht : σ.tasks t with
  | waiting c =>
    rcases (sweeps h).1 t c ht with hl | ⟨-, hl⟩
    · exact Or.inl hl
    · exact Or.inr hl
  | running c p =>
    obtain ⟨o, k, rfl⟩ := h.running_call (fresh_idle db₀) ht
    rw [ht] at hc
    exact Or.inl ((sweep_ok h ht).1 hc)

end Runs

/-! ## The invariant -/

/-- No two sessions share a key, and a relay session is inserted while its responder is registered
or before the responder's cleanup has collected its relay sessions. -/
def InTime (tr : List BrokerEvent) (σ : BrokerConfig) (e : BrokerEvent) : Prop :=
  Unshared tr σ e ∧ ∀ t initiator responder id,
    e = .performed t (.relay (.insertSession initiator responder)) id →
      σ.shared.registry.isOnline responder = true ∨ ∃ u, sweep u tr = .removed responder

/-- The party is registered, or a cleanup will remove the relay session. -/
def Covered (tr : List BrokerEvent) (reg : Registry.PeerRegistry) (id : Uuid) (party : String) :
    Prop :=
  reg.isOnline party = true ∨ ∃ u, sweep u tr = .removed party ∨
    ∃ ids, sweep u tr = .sweeping ids ∧ id ∈ ids

def PartiesCovered (tr : List BrokerEvent) (b : Broker) : Prop :=
  ∀ id session, b.relay.sessions.lookup id = some session →
    Covered tr b.registry id session.initiator ∧ Covered tr b.registry id session.responder

section Invariant

variable {crates : Crates} {hasDb : Bool} {db₀ : Database.Db ℕ} {tr : List BrokerEvent}
  {σ σ' : BrokerConfig} {e : BrokerEvent}

/-- A step of one task: what was covered by it has to be so again. -/
theorem Covered.step {reg reg' : Registry.PeerRegistry} {id : Uuid} {party : String} {t : ℕ}
    {o : Op} {r : Res o} (h : Covered tr reg id party)
    (hreg : reg.isOnline party = true → Covered (.performed t o r :: tr) reg' id party)
    (hremoved : sweep t tr = .removed party → Covered (.performed t o r :: tr) reg' id party)
    (hsweeping : ∀ ids, sweep t tr = .sweeping ids → id ∈ ids →
      Covered (.performed t o r :: tr) reg' id party) :
    Covered (.performed t o r :: tr) reg' id party := by
  rcases h with hon | ⟨u, hu⟩
  · exact hreg hon
  · by_cases hut : u = t
    · subst hut
      rcases hu with hu | ⟨ids, hu, hmem⟩
      · exact hremoved hu
      · exact hsweeping ids hu hmem
    · refine Or.inr ⟨u, ?_⟩
      rw [sweep, localState_performed_of_ne hut]
      exact hu

theorem sweep_performed (t : ℕ) (o : Op) (r : Res o) (tr : List BrokerEvent) :
    sweep t (.performed t o r :: tr) = sweepNext (sweep t tr) o r :=
  localState_performed_self _ _ t o r tr

theorem Covered.of_unswept {reg reg' : Registry.PeerRegistry} {id : Uuid} {party : String} {t : ℕ}
    {o : Op} {r : Res o} (h : Covered tr reg id party) (ho : Unswept o)
    (hreg : reg.isOnline party = true → reg'.isOnline party = true) :
    Covered (.performed t o r :: tr) reg' id party := by
  have hsame : sweep t (.performed t o r :: tr) = sweep t tr := by
    rw [sweep_performed]
    exact (sweepOk_of_unswept (t := t) (c := .closing "") ho fun hc => absurd rfl (hc "")).2 r
  refine h.step (fun hon => Or.inl (hreg hon)) (fun hu => ?_) fun ids hu hmem => ?_
  · exact Or.inr ⟨t, Or.inl (hsame.trans hu)⟩
  · exact Or.inr ⟨t, Or.inr ⟨ids, hsame.trans hu, hmem⟩⟩

theorem isOnline_exec {reg : Registry.PeerRegistry} {a : Registry.Access} {party : String}
    (ha : ∀ pk, a ≠ .removePeer pk) (hon : reg.isOnline party = true) :
    (reg.exec a).2.isOnline party = true := by
  simp only [Registry.PeerRegistry.isOnline, Registry.PeerRegistry.lookup_exec] at hon ⊢
  cases a with
  | insertPeer peer =>
    simp only
    split_ifs
    · rfl
    · exact hon
  | removePeer pk => exact absurd rfl (ha pk)
  | _ => exact hon

theorem own_key_online (h : GuardedRun (broker crates hasDb) InTime (fresh db₀) tr σ) {t : ℕ}
    {pk text : String} {now : UnixTime} (ht : (σ.tasks t).ctl = .handling pk text now) :
    σ.shared.registry.isOnline pk = true := by
  have hunshared : GuardedRun (broker crates hasDb) Unshared (fresh db₀) tr σ :=
    h.weaken fun _ _ hC => hC.1
  have hinv := inv_of_guardedRun (noOtherLive_of_unshared hunshared)
  obtain ⟨peer, hpeer⟩ := hinv.present t pk (pumping_live h.run (Or.inr ⟨text, now, ht⟩))
  rw [Registry.PeerRegistry.isOnline, hpeer]
  rfl

theorem handling_of_insertSession (h : Run (broker crates hasDb) (fresh db₀) tr σ) {t : ℕ}
    {c : Phase} {initiator responder : String} {k : Uuid → Work Outcome}
    (ht : σ.tasks t = .running c (.call (.relay (.insertSession initiator responder)) k)) :
    ∃ text now, c = .handling initiator text now := by
  have hop := permitted h ht
  cases c with
  | registering addr text now =>
    rcases hop with ⟨s, msg, -, -, hop⟩ | ⟨-, _, _, _, heq⟩
    · exact hop.elim
    · cases heq
  | handling pk text now =>
    rcases hop with ⟨msg, -, hacts, -⟩ | ⟨-, _, _, _, heq⟩
    · have hpk : initiator = pk := hacts
      exact ⟨text, now, by rw [hpk]⟩
    · cases heq
  | _ => exact hop.elim

theorem PartiesCovered.of_removePeer {b : Broker} {t : ℕ} {pk : String}
    {r : Option Registry.PeerHandle} (h : PartiesCovered tr b) (hidle : sweep t tr = .idle) :
    PartiesCovered (.performed t (.registry (.removePeer pk)) r :: tr)
      { b with registry := (b.registry.exec (.removePeer pk)).2 } := by
  have hcover : ∀ id party, Covered tr b.registry id party →
      Covered (.performed t (.registry (.removePeer pk)) r :: tr)
        (b.registry.exec (.removePeer pk)).2 id party := by
    intro id party hcov
    refine hcov.step (fun hon => ?_) (fun hu => ?_) fun ids hu => ?_
    · by_cases hparty : party = pk
      · subst hparty
        exact Or.inr ⟨t, Or.inl (sweep_performed t (.registry (.removePeer party)) r tr)⟩
      · refine Or.inl ?_
        simpa only [Registry.PeerRegistry.isOnline, Registry.PeerRegistry.lookup_exec,
          if_neg hparty] using hon
    · rw [hidle] at hu
      cases hu
    · rw [hidle] at hu
      cases hu
  intro id session hl
  obtain ⟨hi, hr⟩ := h id session hl
  exact ⟨hcover id _ hi, hcover id _ hr⟩

/-- The scan of a cleanup finds every relay session that it has to cover. -/
theorem PartiesCovered.of_stale {b : Broker} {t : ℕ} {pk : String} {ids : List Uuid}
    (h : PartiesCovered tr b) (hremoved : sweep t tr = .removed pk)
    (hids : ids.Perm (b.relay.sessionsOf pk)) :
    PartiesCovered (.performed t (.relay (.stale pk)) ids :: tr) b := by
  have hnow : sweep t (.performed t (.relay (.stale pk)) ids :: tr) = .sweeping ids :=
    sweep_performed t (.relay (.stale pk)) ids tr
  intro id session hl
  have hcover : ∀ party, session.initiator = party ∨ session.responder = party →
      Covered tr b.registry id party →
      Covered (.performed t (.relay (.stale pk)) ids :: tr) b.registry id party := by
    intro party hparty hcov
    refine hcov.step (fun hon => Or.inl hon) (fun hu => ?_) fun ids hu => ?_
    · rw [hremoved] at hu
      cases hu
      have hmem : id ∈ ids :=
        hids.mem_iff.mpr (Relay.RelayManager.mem_sessionsOf.mpr ⟨session, hl, hparty⟩)
      exact Or.inr ⟨t, Or.inr ⟨ids, hnow, hmem⟩⟩
    · rw [hremoved] at hu
      cases hu
  obtain ⟨hi, hr⟩ := h id session hl
  exact ⟨hcover _ (Or.inl rfl) hi, hcover _ (Or.inr rfl) hr⟩

theorem PartiesCovered.of_removeSession {b : Broker} {t : ℕ} {id₀ : Uuid} {ids : List Uuid}
    {r : Unit} (h : PartiesCovered tr b) (hsweep : sweep t tr = .sweeping (id₀ :: ids)) :
    PartiesCovered (.performed t (.relay (.removeSession id₀)) r :: tr)
      (b.withRelay { b.relay with sessions := b.relay.sessions.erase id₀ }) := by
  have hnow : sweep t (.performed t (.relay (.removeSession id₀)) r :: tr) = .sweeping ids := by
    rw [sweep_performed, hsweep]
    rfl
  intro id session hl
  simp only [Broker.withRelay, lookup_erase_ite] at hl
  split_ifs at hl with hid
  have hcover : ∀ party, Covered tr b.registry id party →
      Covered (.performed t (.relay (.removeSession id₀)) r :: tr) b.registry id party := by
    intro party hcov
    refine hcov.step (fun hon => Or.inl hon) (fun hu => ?_) fun ids' hu hmem => ?_
    · rw [hsweep] at hu
      cases hu
    · rw [hsweep] at hu
      cases hu
      exact Or.inr ⟨t, Or.inr ⟨ids, hnow, List.mem_of_ne_of_mem hid hmem⟩⟩
  obtain ⟨hi, hr⟩ := h id session hl
  exact ⟨hcover _ hi, hcover _ hr⟩

/-- An access to the relay sessions that is none of a cleanup's: what it leaves in the table has the
parties of a session that was there, or is covered. -/
theorem PartiesCovered.of_unswept {b : Broker} {t : ℕ} {o : Op} {r : Res o} {rm : Relay.RelayManager}
    (h : PartiesCovered tr b) (ho : Unswept o)
    (hrm : ∀ id session, rm.sessions.lookup id = some session →
      (∃ old, b.relay.sessions.lookup id = some old ∧ old.initiator = session.initiator ∧
        old.responder = session.responder) ∨
      Covered tr b.registry id session.initiator ∧ Covered tr b.registry id session.responder) :
    PartiesCovered (.performed t o r :: tr) (b.withRelay rm) := by
  intro id session hl
  rcases hrm id session hl with ⟨old, hold, hi, hr⟩ | ⟨hi, hr⟩
  · obtain ⟨hci, hcr⟩ := h id old hold
    rw [hi] at hci
    rw [hr] at hcr
    exact ⟨hci.of_unswept ho fun hon => hon, hcr.of_unswept ho fun hon => hon⟩
  · exact ⟨hi.of_unswept ho fun hon => hon, hr.of_unswept ho fun hon => hon⟩

theorem relay_covered (h : GuardedRun (broker crates hasDb) InTime (fresh db₀) tr σ)
    (hinv : PartiesCovered tr σ.shared) {t : ℕ} {c : Phase} {a : Relay.Access} {r : a.Result}
    {env : Env} {k : a.Result → Work Outcome} {rm : Relay.RelayManager}
    (ht : σ.tasks t = .running c (.call (.relay a) k))
    (hrm : σ.shared.relay.exec env.relay a = some (r, rm))
    (hguard : InTime tr σ (.performed t (.relay a) r)) :
    PartiesCovered (.performed t (.relay a) r :: tr) (σ.shared.withRelay rm) := by
  have hok := (sweep_ok h.run ht).2
  have hkeep : Unswept (.relay a) → PartiesCovered (.performed t (.relay a) r :: tr)
      (σ.shared.withRelay rm) := by
    intro hunswept
    refine hinv.of_unswept hunswept fun id session hl => ?_
    rcases Relay.RelayManager.parties_exec hrm hl with hold | ⟨initiator, responder, rfl, rfl⟩
    · exact Or.inl hold
    · obtain ⟨text, now, rfl⟩ := handling_of_insertSession h.run ht
      refine Or.inr ⟨Or.inl (own_key_online h (t := t) (by rw [ht]; rfl)), ?_⟩
      rcases hguard.2 t initiator responder _ rfl with hon | ⟨u, hu⟩
      · exact Or.inl hon
      · exact Or.inr ⟨u, Or.inl hu⟩
  cases a with
  | stale pubkey =>
    obtain ⟨hperm, rfl⟩ := Relay.RelayManager.exec_stale hrm
    exact hinv.of_stale hok hperm
  | removeSession id =>
    cases hrm
    obtain ⟨ids, hids⟩ := hok
    exact hinv.of_removeSession hids
  | _ => exact hkeep trivial

theorem partiesCovered_of_run (h : GuardedRun (broker crates hasDb) InTime (fresh db₀) tr σ) :
    PartiesCovered tr σ.shared := by
  refine h.invariant (I := fun tr σ => PartiesCovered tr σ.shared) nofun ?_
  intro tr σ e σ' hrun hinv hstep hguard
  rcases hstep.cases with ⟨t, i, c, c', p, rfl, hw, hs, rfl⟩ |
    ⟨t, c, o, k, env, r, s', rfl, ht, hx, rfl⟩ | ⟨x, s', rfl, hx, rfl⟩
  · exact hinv
  · have hx' : Broker.exec crates t o env σ.shared = some (r, s') := hx
    cases o with
    | registry a =>
      cases hx'
      by_cases ha : ∃ pk, a = .removePeer pk
      · obtain ⟨pk, rfl⟩ := ha
        exact hinv.of_removePeer (sweep_ok hrun.run ht).2
      · have ha' : ∀ pk, a ≠ .removePeer pk := fun pk heq => ha ⟨pk, heq⟩
        have hunswept : Unswept (.registry a) := by
          cases a with
          | removePeer pk => exact absurd rfl (ha' pk)
          | _ => trivial
        intro id session hl
        obtain ⟨hi, hr⟩ := hinv id session hl
        exact ⟨hi.of_unswept hunswept (isOnline_exec ha'),
          hr.of_unswept hunswept (isOnline_exec ha')⟩
    | relay a =>
      obtain ⟨rm, hrm, rfl⟩ := Broker.exec_relay hx'
      exact relay_covered hrun hinv ht hrm hguard
    | _ =>
      have hframe := Broker.exec_frame hx'
      intro id session hl
      rw [hframe.relay (by simp)] at hl
      rw [hframe.registry (by simp)]
      obtain ⟨hi, hr⟩ := hinv id session hl
      exact ⟨hi.of_unswept trivial fun hon => hon, hr.of_unswept trivial fun hon => hon⟩
  · obtain ⟨channels, rfl⟩ := Broker.writerStep_frame hx
    exact hinv

/-- In every run whose relay sessions are inserted in time, every relay session has both parties in
the registry when no cleanup is in progress. -/
theorem parties_registered (h : GuardedRun (broker crates hasDb) InTime (fresh db₀) tr σ)
    (hquiet : ∀ t pk, (σ.tasks t).ctl ≠ .closing pk) {id : Uuid} {session : Relay.Session}
    (hsession : σ.shared.relay.sessions.lookup id = some session) :
    σ.shared.registry.isOnline session.initiator = true ∧
      σ.shared.registry.isOnline session.responder = true := by
  have hregistered : ∀ {party}, Covered tr σ.shared.registry id party →
      σ.shared.registry.isOnline party = true := by
    rintro party (hon | ⟨u, hu⟩)
    · exact hon
    · rcases swept_of_not_closing h.run (hquiet u) with hs | hs
      · simp [hs] at hu
      · simp [hs] at hu
  obtain ⟨hi, hr⟩ := partiesCovered_of_run h id session hsession
  exact ⟨hregistered hi, hregistered hr⟩

end Invariant

/-! ## A request in time, and one that is late -/

open Scripts Crates

def unsharedTest (tr : List BrokerEvent) (_ : BrokerConfig) : BrokerEvent → Bool
  | .performed t (.registry (.insertPeer peer)) _ => tr.all fun e =>
    match e with
    | .performed u (.registry (.insertPeer _)) _ => decide (u = t) ||
      (match stage u tr with
      | .live pk => decide (pk ≠ peer.pubkey)
      | _ => true)
    | _ => true
  | _ => true

theorem unsharedTest_sound (tr : List BrokerEvent) (σ : BrokerConfig) (e : BrokerEvent)
    (h : unsharedTest tr σ e = true) : Unshared tr σ e := by
  unfold Unshared
  split
  · rename_i t peer _
    intro u hut hlive
    obtain ⟨peer', r, -, hmem⟩ := inserted_of_live hlive
    simp only [unsharedTest, List.all_eq_true] at h
    have hu := h _ hmem
    simp [hut, hlive] at hu
  · trivial

def inTimeTest (tr : List BrokerEvent) (σ : BrokerConfig) (e : BrokerEvent) : Bool :=
  unsharedTest tr σ e &&
    match e with
    | .performed _ (.relay (.insertSession _ responder)) _ => σ.shared.registry.isOnline responder
    | _ => true

theorem inTimeTest_sound (tr : List BrokerEvent) (σ : BrokerConfig) (e : BrokerEvent)
    (_ : ∀ t, 2 ≤ t → σ.tasks t = .waiting .absent) (h : inTimeTest tr σ e = true) :
    InTime tr σ e := by
  simp only [inTimeTest, Bool.and_eq_true] at h
  refine ⟨unsharedTest_sound tr σ e h.1, ?_⟩
  rintro t initiator responder id rfl
  exact Or.inl h.2

def requestFrom (n : ℕ) : List Cue :=
  .say 0 'a' (.requestRelay (keyText 'a') (keyText 'b') 0 (signatureText 'a') none) ::
    steps 0 n calm

def inTime : List Cue := joins 0 'a' ++ joins 1 'b' ++ requestFrom 5

/-- The session in the table, whether its responder is registered, whether all tasks wait, and
whether none is closing. -/
def aftermath (x : List BrokerEvent × BrokerConfig) : Option Relay.Session × Bool × Bool × Bool :=
  (x.2.shared.relay.sessions.lookup (Vector.replicate 16 0),
    x.2.shared.registry.isOnline (keyText 'b'), idleBelow 2 x.2,
    quiet (x.2.tasks 0).ctl && quiet (x.2.tasks 1).ctl)

theorem inTime_played :
    (play false inTimeTest inTime [] (fresh DatabaseCalls.emptyDb)).map aftermath =
      some (some ⟨keyText 'a', keyText 'b', .pending⟩, true, true, true) := by
  decide +kernel

theorem inTime_registered : ∃ tr σ,
    GuardedRun (broker demo false) InTime (fresh DatabaseCalls.emptyDb) tr σ ∧
      (∀ t pk, (σ.tasks t).ctl ≠ .closing pk) ∧
      (∃ id, σ.shared.relay.sessions.lookup id = some ⟨keyText 'a', keyText 'b', .pending⟩) ∧
      σ.shared.registry.isOnline (keyText 'a') = true := by
  obtain ⟨⟨tr, σ⟩, hp, heq⟩ := Option.map_eq_some_iff.mp inTime_played
  simp only [aftermath, Prod.mk.injEq, Bool.and_eq_true] at heq
  obtain ⟨hsession, -, -, hquiet⟩ := heq
  obtain ⟨hrun, habsent⟩ := guardedRun_of_play_among false inTimeTest_sound (by decide) .start
    (fun _ _ => rfl) hp
  have hclosing : ∀ t pk, (σ.tasks t).ctl ≠ .closing pk := by
    intro t pk hc
    have hq : quiet (σ.tasks t).ctl = true := by
      by_cases ht : t < 2
      · interval_cases t
        · exact hquiet.1
        · exact hquiet.2
      · rw [habsent t (by omega)]
        rfl
    rw [hc] at hq
    cases hq
  exact ⟨tr, σ, hrun, hclosing, ⟨_, hsession⟩, (parties_registered hrun hclosing hsession).1⟩

/-- `b` has left between the lookup and the insertion. -/
def late : List Cue :=
  joins 0 'a' ++ joins 1 'b' ++ requestFrom 1 ++ leaves 1 ++ steps 0 4 calm

theorem late_played :
    (play false unsharedTest late [] (fresh DatabaseCalls.emptyDb)).map aftermath =
      some (some ⟨keyText 'a', keyText 'b', .pending⟩, false, true, true) := by
  decide +kernel

/-- Nothing is in progress, no two sessions have shared a key, and a relay session has a responder
that is not registered. -/
theorem late_request_outlives_responder : ∃ tr σ id session,
    GuardedRun (broker demo false) Unshared (fresh DatabaseCalls.emptyDb) tr σ ∧ Idle σ ∧
      σ.shared.relay.sessions.lookup id = some session ∧
      σ.shared.registry.isOnline session.responder = false := by
  obtain ⟨⟨tr, σ⟩, hp, heq⟩ := Option.map_eq_some_iff.mp late_played
  simp only [aftermath, Prod.mk.injEq] at heq
  obtain ⟨hsession, hoffline, hidle, -⟩ := heq
  obtain ⟨hrun, habsent⟩ := guardedRun_of_play_among (n := 2) false
    (fun tr σ e _ h => unsharedTest_sound tr σ e h) (by decide) .start (fun _ _ => rfl) hp
  exact ⟨tr, σ, _, _, hrun, idle_of_idleBelow hidle habsent, hsession, hoffline⟩

end HashedBroker.RelayLifetimes
