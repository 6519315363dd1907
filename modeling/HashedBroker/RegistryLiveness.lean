import HashedBroker.Scripts

/-!
# The registry and the live sessions

A session enters the registry under its key when it registers and takes the key out when it closes.
Both go by the key alone: the last of several sessions of a key to register overwrites the entry of
the others, and the first to close removes whatever entry is there. In a run in which no session is
closed while another one of its key is live, the registry lists the live sessions.
-/
namespace HashedBroker.RegistryLiveness
open KeyedTables AtomicPrograms ReactiveTasks Server Sessions

/-! ## Where a session stands -/

/-- What a session has done to the registry so far. -/
inductive Stage
  | unregistered
  | live (pubkey : String)
  | removed (pubkey : String)

def stageNext (l : Stage) : (o : Op) → Res o → Stage
  | .registry (.insertPeer peer), _ => .live peer.pubkey
  | .registry (.removePeer pubkey), _ => .removed pubkey
  | _, _ => l

def stage (t : ℕ) (tr : List BrokerEvent) : Stage := localState stageNext .unregistered t tr

def StageAgrees : Phase → Stage → Prop
  | .absent, l => l = .unregistered
  | .connected _, l => l = .unregistered
  | .registering .., l => l = .unregistered ∨ ∃ pk, l = .live pk
  | .pumping pk, l => l = .live pk
  | .handling pk _ _, l => l = .live pk
  | .closing pk, l => l = .live pk ∨ l = .removed pk
  | .ended, l => ∀ pk, l ≠ .live pk

/-- A registration inserts once, under its own channel; closing removes the session's key. -/
def StageOk (t : ℕ) (c : Phase) (l : Stage) (o : Op) : Prop :=
  StageAgrees c l ∧
    match o with
    | .registry (.insertPeer peer) => l = .unregistered ∧ peer.tx = t
    | .registry (.removePeer pk) => l = .live pk ∧ c = .closing pk
    | _ => True

def Unstaged : Op → Prop
  | .registry (.insertPeer _) | .registry (.removePeer _) => False
  | _ => True

section Programs

variable {crates : Crates} {hasDb : Bool} {t : ℕ} {c : Phase} {l : Stage} {α : Type}

theorem stage_of_always {p : Work α} (hp : p.Always Unstaged) (hl : StageAgrees c l) :
    p.Follows stageNext (StageOk t c) (fun l' _ => l' = l) l := by
  refine hp.follows (fun o ho => ?_) fun _ => rfl
  cases o with
  | registry a =>
    cases a with
    | insertPeer peer => exact ho.elim
    | removePeer pk => exact ho.elim
    | _ => exact ⟨⟨hl, trivial⟩, fun _ => rfl⟩
  | _ => exact ⟨⟨hl, trivial⟩, fun _ => rfl⟩

theorem broadcast_unstaged (pk : String) (online : Bool) : (broadcast pk online).Always Unstaged :=
  broadcast_always pk online trivial (fun _ => trivial) fun _ => trivial

theorem recordPeer_unstaged (pk : String) (handle : Option String)
    (kind : Protocol.IdentityKind) (requestId : Option String) :
    (recordPeer crates hasDb t pk handle kind requestId).Always Unstaged :=
  recordPeer_always crates hasDb t pk handle kind requestId trivial
    (fun h => Prog.Always.lift ((Handles.claim_always crates pk h).mono fun _ _ => trivial))
    (fun _ => trivial) fun _ _ => trivial

theorem insert_staged (peer : Registry.PeerHandle) (htx : peer.tx = t)
    (hl : StageAgrees c .unregistered) :
    (registry (Registry.insert peer)).Follows stageNext (StageOk t c)
      (fun l _ => l = .live peer.pubkey) .unregistered := by
  rw [Registry.insert]
  cases peer.handle with
  | some h => exact ⟨⟨hl, trivial⟩, fun _ => ⟨⟨hl, rfl, htx⟩, fun _ => rfl⟩⟩
  | none => exact ⟨⟨hl, rfl, htx⟩, fun _ => rfl⟩

theorem enter_staged (addr addr' : Registry.SocketAddr) (text : Option String) (now : UnixTime)
    (pk : String) (handle : Option String) (addresses : Protocol.PeerAddresses)
    (kind : Option Protocol.IdentityKind) (requestId : Option String) :
    (enter crates hasDb t addr pk handle addresses kind requestId).Follows stageNext
      (StageOk t (.registering addr' text now))
      (fun l a => StageAgrees (finish (.registering addr' text now) a) l) .unregistered := by
  have hnew : StageAgrees (.registering addr' text now) .unregistered := Or.inl rfl
  have hlive : StageAgrees (.registering addr' text now) (.live pk) := Or.inr ⟨pk, rfl⟩
  refine (stage_of_always (recordPeer_unstaged pk handle _ requestId) hnew).bind ?_
  rintro l claimed rfl
  refine (insert_staged ⟨pk, _, addresses, addr, t⟩ rfl hnew).bind ?_
  rintro l - rfl
  refine (stage_of_always (always_metric trivial) hlive).bind ?_
  rintro l - rfl
  refine (stage_of_always (always_metric trivial) hlive).bind ?_
  rintro l - rfl
  refine (stage_of_always (always_send trivial) hlive).bind ?_
  rintro l - rfl
  refine (stage_of_always (broadcast_unstaged pk true) hlive).bind ?_
  rintro l - rfl
  exact rfl

theorem register_staged (now : UnixTime) (addr : Registry.SocketAddr) (text : Option String) :
    (register crates hasDb t now addr text).Follows stageNext
      (StageOk t (.registering addr text now))
      (fun l a => StageAgrees (finish (.registering addr text now) a) l) .unregistered := by
  rcases register_cases crates hasDb t now addr text with
    ⟨s, pk, handle, addresses, kind, timestamp, signature, requestId, -, -, heq⟩ |
      ⟨msg, hmsg, heq, -⟩
  · rw [heq]
    exact enter_staged addr addr text now pk handle addresses kind requestId
  · rw [heq]
    have hended : StageAgrees .ended .unregistered := by
      intro pk hpk
      cases hpk
    cases msg with
    | none => exact hended
    | some m => exact ⟨⟨Or.inl rfl, trivial⟩, fun _ => hended⟩

theorem pump_staged (now : UnixTime) (pk text : String) :
    (pump crates hasDb t now pk text).Follows stageNext (StageOk t (.handling pk text now))
      (fun l a => StageAgrees (finish (.handling pk text now) a) l) (.live pk) := by
  have hpump : (pump crates hasDb t now pk text).Always Unstaged := by
    cases h : authenticate crates now pk text with
    | ok msg =>
      refine (pump_always crates hasDb t pk h).mono fun o ho => ?_
      cases o with
      | registry a =>
        cases a with
        | insertPeer peer => exact ho.2
        | removePeer pubkey => exact ho.2
        | _ => trivial
      | _ => trivial
    | error e =>
      rw [pump_rejected crates hasDb t pk h]
      exact ⟨trivial, fun _ => trivial⟩
  have hl : StageAgrees (.handling pk text now) (.live pk) := rfl
  refine (stage_of_always hpump hl).mono ?_
  rintro l a rfl
  cases a <;> exact rfl

theorem remove_staged (pk : String) :
    (registry (Registry.remove pk)).Follows stageNext (StageOk t (.closing pk))
      (fun l _ => l = .removed pk) (.live pk) := by
  have hl : StageAgrees (.closing pk) (.removed pk) := Or.inr rfl
  obtain ⟨k, hk, hrest⟩ := remove_rest_always (Q := fun a => Unstaged (.registry a)) pk
    (fun _ => trivial) fun _ => trivial
  rw [registry, hk]
  exact ⟨⟨Or.inl rfl, rfl, rfl⟩, fun removed =>
    stage_of_always (Prog.Always.lift (hrest removed)) hl⟩

theorem cleanup_staged (pk : String) :
    (cleanup pk).Follows stageNext (StageOk t (.closing pk))
      (fun l a => StageAgrees (finish (.closing pk) a) l) (.live pk) := by
  have hl : StageAgrees (.closing pk) (.removed pk) := Or.inr rfl
  have hclear : (presence (Presence.clearSubscriber pk)).Always Unstaged :=
    Prog.Always.lift (clearSubscriber_always pk trivial (fun _ => trivial) fun _ => trivial)
  have hdrop : (relay (Relay.dropSessionsFor pk)).Always Unstaged :=
    Prog.Always.lift (dropSessionsFor_always pk trivial fun _ => trivial)
  refine (remove_staged pk).bind ?_
  rintro l - rfl
  refine (stage_of_always (always_metric trivial) hl).bind ?_
  rintro l - rfl
  refine (stage_of_always hclear hl).bind ?_
  rintro l - rfl
  refine (stage_of_always hdrop hl).bind ?_
  rintro l - rfl
  refine (stage_of_always (broadcast_unstaged pk false) hl).bind ?_
  rintro l - rfl
  intro pk' h
  cases h

theorem start_staged {c' : Phase} {i : Input} {p : Work Outcome}
    (hs : start crates hasDb t c i = some (c', p)) (hl : StageAgrees c l) :
    p.Follows stageNext (StageOk t c') (fun l a => StageAgrees (finish c' a) l) l := by
  cases start_cases hs with
  | connects addr => exact hl
  | registers addr f now =>
    obtain rfl : l = .unregistered := hl
    exact register_staged now addr f.payload
  | handles pk text f now hf =>
    obtain rfl : l = .live pk := hl
    exact pump_staged now pk text
  | stays pk f now hf => exact hl
  | closes pk f now hf =>
    obtain rfl : l = .live pk := hl
    exact cleanup_staged pk

end Programs

section Runs

variable {crates : Crates} {hasDb : Bool} {db₀ : Database.Db ℕ} {tr : List BrokerEvent}
  {σ : BrokerConfig}

theorem stages (h : Run (broker crates hasDb) (fresh db₀) tr σ) :
    (∀ t c, σ.tasks t = .waiting c → StageAgrees c (stage t tr)) ∧
      ∀ t c p, σ.tasks t = .running c p →
        p.Follows stageNext (StageOk t c) (fun l a => StageAgrees (finish c a) l) (stage t tr) :=
  h.tracks stageNext .unregistered StageOk (fun _ => StageAgrees)
    (fun _ => ⟨.absent, rfl, rfl⟩) fun _ _ _ _ _ _ hs hl => start_staged hs hl

theorem stage_agrees (h : Run (broker crates hasDb) (fresh db₀) tr σ) (t : ℕ) :
    StageAgrees (σ.tasks t).ctl (stage t tr) := by
  cases ht : σ.tasks t with
  | waiting c => exact (stages h).1 t c ht
  | running c p =>
    obtain ⟨o, k, rfl⟩ := h.running_call (fresh_idle db₀) ht
    exact ((stages h).2 t c _ ht).1.1

theorem stage_ok (h : Run (broker crates hasDb) (fresh db₀) tr σ) {t : ℕ} {c : Phase} {o : Op}
    {k : Res o → Work Outcome} (ht : σ.tasks t = .running c (.call o k)) :
    StageOk t c (stage t tr) o := ((stages h).2 t c _ ht).1

theorem stage_performed_self (t : ℕ) (o : Op) (r : Res o) (tr : List BrokerEvent) :
    stage t (.performed t o r :: tr) = stageNext (stage t tr) o r :=
  localState_performed_self _ _ t o r tr

theorem stage_performed_of_ne {t u : ℕ} (hut : u ≠ t) (o : Op) (r : Res o)
    (tr : List BrokerEvent) : stage u (.performed t o r :: tr) = stage u tr :=
  localState_performed_of_ne hut o r tr

theorem stageNext_of_unstaged {l : Stage} {o : Op} (ho : Unstaged o) (r : Res o) :
    stageNext l o r = l := by
  cases o with
  | registry a =>
    cases a with
    | insertPeer peer => exact ho.elim
    | removePeer pk => exact ho.elim
    | _ => rfl
  | _ => rfl

theorem inserted_of_live {t : ℕ} {tr : List BrokerEvent} {pk : String}
    (h : stage t tr = .live pk) :
    ∃ peer r, peer.pubkey = pk ∧ Event.performed t (.registry (.insertPeer peer)) r ∈ tr := by
  induction tr with
  | nil => cases h
  | cons e tr ih =>
    have hold : stage t tr = .live pk →
        ∃ peer r, peer.pubkey = pk ∧
          Event.performed t (.registry (.insertPeer peer)) r ∈ e :: tr := by
      intro hs
      obtain ⟨peer, r, hpk, hmem⟩ := ih hs
      exact ⟨peer, r, hpk, List.mem_cons_of_mem e hmem⟩
    cases e with
    | input u i => exact hold h
    | disturbed x => exact hold h
    | performed u o r =>
      by_cases htu : t = u
      · subst htu
        rw [stage_performed_self] at h
        cases o with
        | registry a =>
          cases a with
          | insertPeer peer =>
            cases h
            exact ⟨peer, r, rfl, List.mem_cons_self⟩
          | removePeer pk' => cases h
          | _ => exact hold h
        | _ => exact hold h
      · rw [stage_performed_of_ne htu] at h
        exact hold h

end Runs

/-! ## The invariant -/

/-- The session stands in the registry by its own doing and has not begun to close. -/
def Live (tr : List BrokerEvent) (σ : BrokerConfig) (t : ℕ) (pk : String) : Prop :=
  stage t tr = .live pk ∧ ∀ pk', (σ.tasks t).ctl ≠ .closing pk'

/-- A closing session takes a key out of the registry only when no other session of it is live. -/
def NoOtherLive (tr : List BrokerEvent) (σ : BrokerConfig) : BrokerEvent → Prop
  | .performed t (.registry (.removePeer pk)) _ => ∀ u, u ≠ t → ¬ Live tr σ u pk
  | _ => True

/-- Every live session's key is registered, and every entry leads to a session that stands there. -/
structure Inv (tr : List BrokerEvent) (σ : BrokerConfig) : Prop where
  present : ∀ t pk, Live tr σ t pk → ∃ peer, σ.shared.registry.byPubkey.lookup pk = some peer
  owned : ∀ pk peer, σ.shared.registry.byPubkey.lookup pk = some peer →
    peer.pubkey = pk ∧ stage peer.tx tr = .live pk

section Invariant

variable {crates : Crates} {hasDb : Bool} {db₀ : Database.Db ℕ} {tr : List BrokerEvent}
  {σ σ' : BrokerConfig} {e : BrokerEvent}

/-- A step that changes neither the registry nor a stage, and ends no closing. -/
theorem Inv.of_same {tr' : List BrokerEvent} (h : Inv tr σ)
    (hreg : σ'.shared.registry.byPubkey = σ.shared.registry.byPubkey)
    (hstage : ∀ t, stage t tr' = stage t tr)
    (hlive : ∀ t pk, Live tr' σ' t pk → Live tr σ t pk) : Inv tr' σ' := by
  constructor
  · intro t pk hl
    rw [hreg]
    exact h.present t pk (hlive t pk hl)
  · intro pk peer hp
    rw [hreg] at hp
    rw [hstage]
    exact h.owned pk peer hp

/-- A session that is live after a step was not closing before it. -/
theorem live_of_step (hrun : Run (broker crates hasDb) (fresh db₀) tr σ)
    (hstep : Step (broker crates hasDb) σ e σ') (t : ℕ) (pk : String)
    (hl : Live (e :: tr) σ' t pk) : ∀ pk', (σ.tasks t).ctl ≠ .closing pk' := by
  intro pk' hc
  have hagree := stage_agrees (.step hrun hstep) t
  rw [hl.1] at hagree
  rcases hstep.cases with ⟨u, i, c, c', p, rfl, hw, hs, rfl⟩ |
    ⟨u, c, o, k, env, r, s', rfl, ht, hx, rfl⟩ | ⟨x, s', rfl, hx, rfl⟩
  · by_cases htu : t = u
    · subst htu
      rw [hw] at hc
      simp only [Task.ctl] at hc
      subst hc
      cases hs
    · apply hl.2 pk'
      simpa [htu] using hc
  · by_cases htu : t = u
    · subst htu
      rw [ht] at hc
      simp only [Task.ctl] at hc
      subst hc
      -- the task is closing still, or it has ended
      simp only [Function.update_self] at hagree
      cases hk : k r with
      | done a =>
        rw [hk] at hagree
        exact hagree pk rfl
      | call o' k' =>
        apply hl.2 pk'
        simp only [Function.update_self, hk]
        rfl
    · apply hl.2 pk'
      simpa [htu] using hc
  · exact hl.2 pk' hc

theorem byPubkey_of_unstaged {t : ℕ} {o : Op} {env : Env} {b b' : Broker} {r : Res o}
    (hx : Broker.exec crates t o env b = some (r, b')) (ho : Unstaged o) :
    b'.registry.byPubkey = b.registry.byPubkey := by
  by_cases ha : ∃ a, o = .registry a
  · obtain ⟨a, rfl⟩ := ha
    cases hx
    cases a with
    | insertPeer peer => exact ho.elim
    | removePeer pk => exact ho.elim
    | _ => rfl
  · have hne : ∀ a, o ≠ .registry a := fun a he => ha ⟨a, he⟩
    rw [(Broker.exec_frame hx).registry hne]

theorem Inv.inserted (h : Inv tr σ) {u : ℕ} {peer : Registry.PeerHandle}
    (hlookup : ∀ pk, σ'.shared.registry.byPubkey.lookup pk =
      if pk = peer.pubkey then some peer else σ.shared.registry.byPubkey.lookup pk)
    (hnew : stage u tr = .unregistered) (htx : peer.tx = u)
    (hclosing : ∀ t pk, Live (.performed u (.registry (.insertPeer peer)) () :: tr) σ' t pk →
      ∀ pk', (σ.tasks t).ctl ≠ .closing pk') :
    Inv (.performed u (.registry (.insertPeer peer)) () :: tr) σ' := by
  constructor
  · intro t pk hl
    rw [hlookup]
    split_ifs with hpk
    · exact ⟨peer, rfl⟩
    · by_cases htu : t = u
      · subst htu
        have hs := hl.1
        rw [stage_performed_self] at hs
        cases hs
        exact absurd rfl hpk
      · refine h.present t pk ⟨?_, hclosing t pk hl⟩
        rw [← stage_performed_of_ne htu]
        exact hl.1
  · intro pk p hp
    rw [hlookup] at hp
    split_ifs at hp with hpk
    · cases hp
      rw [htx, stage_performed_self]
      exact ⟨hpk.symm, hpk ▸ rfl⟩
    · obtain ⟨hpub, hstage⟩ := h.owned pk p hp
      have hne : p.tx ≠ u := by
        intro he
        rw [he, hnew] at hstage
        cases hstage
      rw [stage_performed_of_ne hne]
      exact ⟨hpub, hstage⟩

theorem Inv.removed (h : Inv tr σ) {u : ℕ} {pk₀ : String}
    (hlookup : ∀ pk, σ'.shared.registry.byPubkey.lookup pk =
      if pk = pk₀ then none else σ.shared.registry.byPubkey.lookup pk)
    (hlive : stage u tr = .live pk₀) (hother : ∀ t, t ≠ u → ¬ Live tr σ t pk₀)
    {r : Option Registry.PeerHandle}
    (hclosing : ∀ t pk, Live (.performed u (.registry (.removePeer pk₀)) r :: tr) σ' t pk →
      ∀ pk', (σ.tasks t).ctl ≠ .closing pk') :
    Inv (.performed u (.registry (.removePeer pk₀)) r :: tr) σ' := by
  constructor
  · intro t pk hl
    have htu : t ≠ u := by
      rintro rfl
      have hs := hl.1
      rw [stage_performed_self] at hs
      cases hs
    have hl' : Live tr σ t pk := by
      refine ⟨?_, hclosing t pk hl⟩
      rw [← stage_performed_of_ne htu]
      exact hl.1
    rw [hlookup]
    split_ifs with hpk
    · subst hpk
      exact absurd hl' (hother t htu)
    · exact h.present t pk hl'
  · intro pk p hp
    rw [hlookup] at hp
    split_ifs at hp with hpk
    obtain ⟨hpub, hstage⟩ := h.owned pk p hp
    have hne : p.tx ≠ u := by
      intro he
      rw [he, hlive] at hstage
      cases hstage
      exact hpk rfl
    rw [stage_performed_of_ne hne]
    exact ⟨hpub, hstage⟩

/-- Every step of a session keeps the invariant, unless it closes on a live one of its key. -/
theorem Inv.step (h : Inv tr σ) (hrun : Run (broker crates hasDb) (fresh db₀) tr σ)
    (hstep : Step (broker crates hasDb) σ e σ') (hguard : NoOtherLive tr σ e) :
    Inv (e :: tr) σ' := by
  have hclosing := live_of_step hrun hstep
  rcases hstep.cases with ⟨u, i, c, c', p, rfl, hw, hs, rfl⟩ |
    ⟨u, c, o, k, env, r, s', rfl, ht, hx, rfl⟩ | ⟨x, s', rfl, hx, rfl⟩
  · exact h.of_same rfl (fun _ => rfl) fun t pk hl => ⟨hl.1, hclosing t pk hl⟩
  · have hok := stage_ok hrun ht
    by_cases ho : Unstaged o
    · have hstage : ∀ t, stage t (.performed u o r :: tr) = stage t tr := by
        intro t
        by_cases htu : t = u
        · subst htu
          rw [stage_performed_self, stageNext_of_unstaged ho]
        · exact stage_performed_of_ne htu o r tr
      exact h.of_same (byPubkey_of_unstaged hx ho) hstage
        fun t pk hl => ⟨hstage t ▸ hl.1, hclosing t pk hl⟩
    · cases o with
      | registry a =>
        cases a with
        | insertPeer peer =>
          obtain ⟨-, hnew, htx⟩ := hok
          cases hx
          exact h.inserted (fun pk => σ.shared.registry.lookup_exec (.insertPeer peer) pk) hnew htx
            hclosing
        | removePeer pk₀ =>
          obtain ⟨-, hlive, -⟩ := hok
          cases hx
          exact h.removed (fun pk => σ.shared.registry.lookup_exec (.removePeer pk₀) pk) hlive hguard
            hclosing
        | _ => exact absurd trivial ho
      | _ => exact absurd trivial ho
  · obtain ⟨channels, rfl⟩ := Broker.writerStep_frame hx
    exact h.of_same rfl (fun _ => rfl) fun t pk hl => ⟨hl.1, hclosing t pk hl⟩

theorem inv_of_guardedRun
    (h : GuardedRun (broker crates hasDb) NoOtherLive (fresh db₀) tr σ) : Inv tr σ := by
  refine h.invariant (I := Inv) ⟨?_, ?_⟩ fun hrun hi hstep hguard => hi.step hrun.run hstep hguard
  · intro t pk hl
    cases hl.1
  · intro pk peer hp
    cases hp

/-- A session enters the registry only when no other one stands there under its key. -/
def Unshared (tr : List BrokerEvent) (_ : BrokerConfig) : BrokerEvent → Prop
  | .performed t (.registry (.insertPeer peer)) _ =>
    ∀ u, u ≠ t → stage u tr ≠ .live peer.pubkey
  | _ => True

theorem unique_of_unshared (h : GuardedRun (broker crates hasDb) Unshared (fresh db₀) tr σ)
    {t u : ℕ} {pk : String} (ht : stage t tr = .live pk) (hu : stage u tr = .live pk) : t = u := by
  revert t u pk
  refine h.invariant
    (I := fun tr _ => ∀ {t u pk}, stage t tr = .live pk → stage u tr = .live pk → t = u) ?_ ?_
  · intro t u pk ht _
    cases ht
  · intro tr σ e σ' hrun hinv hstep hguard t u pk ht hu
    cases e with
    | input v i => exact hinv ht hu
    | disturbed x => exact hinv ht hu
    | performed v o r =>
      by_cases ho : Unstaged o
      · have hsame : ∀ w, stage w (.performed v o r :: tr) = stage w tr := by
          intro w
          by_cases hw : w = v
          · rw [hw, stage_performed_self, stageNext_of_unstaged ho]
          · exact stage_performed_of_ne hw o r tr
        rw [hsame] at ht hu
        exact hinv ht hu
      · -- the task that enters is the only one under its key, the one that leaves is under none
        by_cases htv : t = v
        · by_cases huv : u = v
          · rw [htv, huv]
          · subst htv
            rw [stage_performed_of_ne huv] at hu
            rw [stage_performed_self] at ht
            cases o with
            | registry a =>
              cases a with
              | insertPeer peer =>
                cases ht
                exact absurd hu (hguard u huv)
              | removePeer pk' => cases ht
              | _ => exact absurd trivial ho
            | _ => exact absurd trivial ho
        · by_cases huv : u = v
          · subst huv
            rw [stage_performed_of_ne htv] at ht
            rw [stage_performed_self] at hu
            cases o with
            | registry a =>
              cases a with
              | insertPeer peer =>
                cases hu
                exact absurd ht (hguard t htv)
              | removePeer pk' => cases hu
              | _ => exact absurd trivial ho
            | _ => exact absurd trivial ho
          · rw [stage_performed_of_ne htv] at ht
            rw [stage_performed_of_ne huv] at hu
            exact hinv ht hu

/-- Sessions that do not share keys close on no live one. -/
theorem noOtherLive_of_unshared (h : GuardedRun (broker crates hasDb) Unshared (fresh db₀) tr σ) :
    GuardedRun (broker crates hasDb) NoOtherLive (fresh db₀) tr σ := by
  refine h.weaken fun {tr σ e σ'} hrun hstep _ => ?_
  unfold NoOtherLive
  split
  · rename_i t pk r
    intro u hut hlive
    rcases hstep.cases with ⟨_, _, _, _, _, heq, -⟩ | ⟨t', c, o, k, env, r', s', heq, ht, -⟩ |
      ⟨_, _, heq, -⟩
    · cases heq
    · cases heq
      have hown := (stage_ok hrun.run ht).2.1
      exact hut (unique_of_unshared hrun hlive.1 hown)
    · cases heq
  · trivial

def Pumping (σ : BrokerConfig) (t : ℕ) (pk : String) : Prop :=
  (σ.tasks t).ctl = .pumping pk ∨ ∃ text now, (σ.tasks t).ctl = .handling pk text now

/-- No session is between its insertion into the registry and its message loop, and none is
closing. -/
structure Settled (tr : List BrokerEvent) (σ : BrokerConfig) : Prop where
  noneEntering : ∀ t pk addr text now, stage t tr = .live pk →
    (σ.tasks t).ctl ≠ .registering addr text now
  noneClosing : ∀ t pk, (σ.tasks t).ctl ≠ .closing pk

theorem pumping_live (hrun : Run (broker crates hasDb) (fresh db₀) tr σ) {t : ℕ} {pk : String}
    (hp : Pumping σ t pk) : Live tr σ t pk := by
  have hagree := stage_agrees hrun t
  rcases hp with hp | ⟨text, now, hp⟩
  · rw [hp] at hagree
    exact ⟨hagree, fun pk' => by simp [hp]⟩
  · rw [hp] at hagree
    exact ⟨hagree, fun pk' => by simp [hp]⟩

theorem Settled.pumping (hrun : Run (broker crates hasDb) (fresh db₀) tr σ) (hs : Settled tr σ)
    {t : ℕ} {pk : String} (hl : stage t tr = .live pk) : Pumping σ t pk := by
  have hagree := stage_agrees hrun t
  rw [hl] at hagree
  cases hc : (σ.tasks t).ctl with
  | absent => rw [hc] at hagree; cases hagree
  | connected addr => rw [hc] at hagree; cases hagree
  | registering addr text now => exact absurd hc (hs.noneEntering t pk addr text now hl)
  | pumping pk' =>
    rw [hc] at hagree
    cases hagree
    exact Or.inl hc
  | handling pk' text now =>
    rw [hc] at hagree
    cases hagree
    exact Or.inr ⟨text, now, hc⟩
  | closing pk' => exact absurd hc (hs.noneClosing t pk')
  | ended =>
    rw [hc] at hagree
    exact absurd rfl (hagree pk)

/-- In every run in which no session closes on a live one of its key, a key is registered exactly
while a session of it is in its message loop, and the entry leads to the channel of such a
session. -/
theorem registry_lists_live_sessions
    (h : GuardedRun (broker crates hasDb) NoOtherLive (fresh db₀) tr σ) (hs : Settled tr σ)
    (pk : String) :
    ((∃ peer, σ.shared.registry.byPubkey.lookup pk = some peer) ↔ ∃ t, Pumping σ t pk) ∧
      ∀ peer, σ.shared.registry.byPubkey.lookup pk = some peer → Pumping σ peer.tx pk := by
  have hi := inv_of_guardedRun h
  have howner : ∀ peer, σ.shared.registry.byPubkey.lookup pk = some peer →
      Pumping σ peer.tx pk :=
    fun peer hp => hs.pumping h.run (hi.owned pk peer hp).2
  refine ⟨⟨?_, ?_⟩, howner⟩
  · rintro ⟨peer, hp⟩
    exact ⟨peer.tx, howner peer hp⟩
  · rintro ⟨t, hp⟩
    exact hi.present t pk (pumping_live h.run hp)

end Invariant

/-! ## Two sessions of one key -/

open Scripts Crates

def quiet : Phase → Bool
  | .registering .. => false
  | .closing _ => false
  | _ => true

theorem settled_of_quiet {tr : List BrokerEvent} {σ : BrokerConfig}
    (h : ∀ t, quiet (σ.tasks t).ctl = true) : Settled tr σ := by
  constructor
  · intro t pk addr text now _ hc
    have ht := h t
    rw [hc] at ht
    cases ht
  · intro t pk hc
    have ht := h t
    rw [hc] at ht
    cases ht

def isPumping (pk : String) : Phase → Bool
  | .pumping pk' => pk' = pk
  | _ => false

theorem pumping_of_isPumping {σ : BrokerConfig} {t : ℕ} {pk : String}
    (h : isPumping pk (σ.tasks t).ctl = true) : Pumping σ t pk := by
  unfold isPumping at h
  split at h
  · rename_i pk' hc
    refine Or.inl ?_
    rw [hc, of_decide_eq_true h]
  · cases h

def noOtherLive (tr : List BrokerEvent) (_ : BrokerConfig) : BrokerEvent → Bool
  | .performed t (.registry (.removePeer pk)) _ => tr.all fun e =>
    match e with
    | .performed u (.registry (.insertPeer _)) _ => decide (u = t) ||
      (match stage u tr with
      | .live pk' => decide (pk' ≠ pk)
      | _ => true)
    | _ => true
  | _ => true

theorem noOtherLive_sound (tr : List BrokerEvent) (σ : BrokerConfig) (e : BrokerEvent)
    (h : noOtherLive tr σ e = true) : NoOtherLive tr σ e := by
  unfold NoOtherLive
  split
  · rename_i t pk _
    intro u hut hl
    obtain ⟨peer, r, -, hmem⟩ := inserted_of_live hl.1
    simp only [noOtherLive, List.all_eq_true] at h
    have hu := h _ hmem
    simp [hut, hl.1] at hu
  · trivial

def keysOf (x : List BrokerEvent × BrokerConfig) : Bool × Bool × Bool × Bool :=
  (x.2.shared.registry.isOnline (keyText 'a'), x.2.shared.registry.isOnline (keyText 'b'),
    quiet (x.2.tasks 0).ctl, quiet (x.2.tasks 1).ctl)

theorem quiet_of_play {test : List BrokerEvent → BrokerConfig → BrokerEvent → Bool}
    {xs : List Cue} {tr : List BrokerEvent} {σ : BrokerConfig} {db₀ : Database.Db ℕ}
    (hp : play false test xs [] (fresh db₀) = some (tr, σ)) (hxs : ∀ x ∈ xs, x.task < 2)
    (h₀ : quiet (σ.tasks 0).ctl = true) (h₁ : quiet (σ.tasks 1).ctl = true) (t : ℕ) :
    quiet (σ.tasks t).ctl = true := by
  by_cases ht : t < 2
  · interval_cases t
    · exact h₀
    · exact h₁
  · have hother : σ.tasks t = (fresh db₀).tasks t := by
      apply play_other false hp
      intro x hx he
      have := hxs x hx
      omega
    rw [hother]
    rfl

theorem settled_of_play {test : List BrokerEvent → BrokerConfig → BrokerEvent → Bool}
    {xs : List Cue} {tr : List BrokerEvent} {σ : BrokerConfig} {db₀ : Database.Db ℕ}
    (hp : play false test xs [] (fresh db₀) = some (tr, σ)) (hxs : ∀ x ∈ xs, x.task < 2)
    (h₀ : quiet (σ.tasks 0).ctl = true) (h₁ : quiet (σ.tasks 1).ctl = true) : Settled tr σ :=
  settled_of_quiet (quiet_of_play hp hxs h₀ h₁)

def orderly : List Cue := joins 0 'a' ++ joins 1 'b' ++ leaves 0

theorem orderly_keys :
    (play false noOtherLive orderly [] (fresh DatabaseCalls.emptyDb)).map keysOf =
      some (false, true, true, true) := by
  decide +kernel

theorem orderly_sessions_listed : ∃ σ : BrokerConfig,
    σ.shared.registry.isOnline (keyText 'b') = true ∧ ∃ t, Pumping σ t (keyText 'b') := by
  obtain ⟨⟨tr, σ⟩, hp, hkeys⟩ := Option.map_eq_some_iff.mp orderly_keys
  simp only [keysOf, Prod.mk.injEq] at hkeys
  obtain ⟨-, hb, h₀, h₁⟩ := hkeys
  have hs : Settled tr σ := settled_of_play hp (by decide) h₀ h₁
  have hlist := registry_lists_live_sessions
    (guardedRun_of_play false noOtherLive_sound .start hp) hs (keyText 'b')
  exact ⟨σ, hb, hlist.1.mp (Option.isSome_iff_exists.mp hb)⟩

def crossed : List Cue := joins 0 'a' ++ joins 1 'a' ++ leaves 0

theorem crossed_keys :
    (play false (fun _ _ _ => true) crossed [] (fresh DatabaseCalls.emptyDb)).map
      (fun x => (keysOf x, isPumping (keyText 'a') (x.2.tasks 1).ctl)) =
      some ((false, false, true, true), true) := by
  decide +kernel

/-- The second session is in its message loop, and its key is not registered. -/
theorem closing_unregisters_live_session : ∃ tr σ,
    Run (broker demo false) (fresh DatabaseCalls.emptyDb) tr σ ∧ Settled tr σ ∧
      ¬ ((∃ peer, σ.shared.registry.byPubkey.lookup (keyText 'a') = some peer) ↔
        ∃ t, Pumping σ t (keyText 'a')) := by
  obtain ⟨⟨tr, σ⟩, hp, hkeys⟩ := Option.map_eq_some_iff.mp crossed_keys
  simp only [keysOf, Prod.mk.injEq] at hkeys
  obtain ⟨⟨ha, -, h₀, h₁⟩, hpump⟩ := hkeys
  refine ⟨tr, σ, run_of_play false hp, settled_of_play hp (by decide) h₀ h₁, fun hiff => ?_⟩
  have hsome := hiff.mpr ⟨1, pumping_of_isPumping hpump⟩
  rw [← Option.isSome_iff_exists] at hsome
  simp only [Registry.PeerRegistry.isOnline] at ha
  rw [ha] at hsome
  cases hsome

end HashedBroker.RegistryLiveness
