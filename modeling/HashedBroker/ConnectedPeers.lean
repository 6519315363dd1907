import HashedBroker.MetricTotals

/-!
# The gauge of connected peers

A session adds one to the gauge when it has entered the registry and takes one away when it has left
it, so the gauge counts the sessions in their message loops. `/health` reports the size of the
registry instead, where sessions of one key share an entry.
-/
namespace HashedBroker.ConnectedPeers
open AtomicPrograms ReactiveTasks Protocol Server Sessions RegistryLiveness MetricTotals

/-- `PeerRegistry::len`. -/
def len (reg : Registry.PeerRegistry) : ℕ := reg.byPubkey.keys.length

def health (b : Broker) : String := "ok\npeers_online: " ++ toString (len b.registry) ++ "\n"

def gauged : (o : Op) → Res o → ℤ
  | .metric (.connectedPeers n), _ => n
  | _, _ => 0

/-- What a session has added to the gauge in its phase. -/
def Adds : Phase → ℤ → Prop
  | .registering .., l => l = 0 ∨ l = 1
  | .closing _, l => l = 0 ∨ l = 1
  | .pumping _, l => l = 1
  | .handling .., l => l = 1
  | _, l => l = 0

def Ungauged (o : Op) : Prop := ∀ r, gauged o r = 0

section Programs

variable {crates : Crates} {hasDb : Bool} {t : ℕ} {pk : String} {c : Phase} {l : ℤ} {α : Type}

abbrev Gauged (c : Phase) (p : Work α) (post : ℤ → α → Prop) (l : ℤ) : Prop :=
  p.Follows (deposit gauged) (fun l _ => Adds c l) post l

theorem gauged_of_ungauged {p : Work α} (hp : p.Always Ungauged) (hl : Adds c l) :
    Gauged c p (fun l' _ => l' = l) l := by
  refine hp.follows (fun o ho => ⟨hl, fun r => ?_⟩) fun _ => rfl
  rw [deposit, ho r, add_zero]

theorem metric_gauged (n : ℤ) (hl : Adds c l) :
    Gauged c (metric (.connectedPeers n)) (fun l' _ => l' = l + n) l := ⟨hl, fun _ => rfl⟩

theorem lift_ungauged {Op' : Type} {Res' : Op' → Type} {f : Op' → Op}
    {g : (o : Op') → Res (f o) → Res' o} (hf : ∀ o u, f o ≠ .metric u) (p : Prog Op' Res' α) :
    (p.lift f g).Always Ungauged := by
  refine Prog.always_lift_of (fun o r => ?_) p
  unfold gauged
  split
  · rename_i n heq _
    exact absurd heq (hf o _)
  · rfl

theorem broadcast_ungauged (online : Bool) : (broadcast pk online).Always Ungauged :=
  broadcast_always pk online (fun _ => rfl) (fun _ _ => rfl) fun _ _ => rfl

theorem enter_gauged (addr addr' : Registry.SocketAddr) (text : Option String) (now : UnixTime)
    (handle : Option String) (addresses : PeerAddresses) (kind : Option IdentityKind)
    (requestId : Option String) :
    Gauged (.registering addr' text now)
      (enter crates hasDb t addr pk handle addresses kind requestId)
      (fun l a => Adds (finish (.registering addr' text now) a) l) 0 := by
  have hout : Adds (.registering addr' text now) 0 := Or.inl rfl
  have hin : Adds (.registering addr' text now) 1 := Or.inr rfl
  have hrecord :
      (recordPeer crates hasDb t pk handle (kind.getD .user) requestId).Always Ungauged :=
    recordPeer_always crates hasDb t pk handle _ requestId (fun _ => rfl)
      (fun _ => lift_ungauged (by simp) _) (fun _ _ => rfl) fun _ _ _ => rfl
  refine (gauged_of_ungauged hrecord hout).bind ?_
  rintro l claimed rfl
  refine (gauged_of_ungauged (lift_ungauged (by simp) _) hout).bind ?_
  rintro l - rfl
  refine (metric_gauged 1 hout).bind fun l _ hl => ?_
  obtain rfl : l = 1 := hl
  refine (gauged_of_ungauged (always_metric fun _ => rfl) hin).bind ?_
  rintro l - rfl
  refine (gauged_of_ungauged (always_send fun _ => rfl) hin).bind ?_
  rintro l - rfl
  refine (gauged_of_ungauged (broadcast_ungauged true) hin).bind ?_
  rintro l - rfl
  exact rfl

theorem cleanup_gauged :
    Gauged (.closing pk) (cleanup pk) (fun l a => Adds (finish (.closing pk) a) l) 1 := by
  have hin : Adds (.closing pk) 1 := Or.inr rfl
  have hout : Adds (.closing pk) 0 := Or.inl rfl
  refine (gauged_of_ungauged (lift_ungauged (by simp) _) hin).bind ?_
  rintro l - rfl
  refine (metric_gauged (-1) hin).bind fun l _ hl => ?_
  obtain rfl : l = 0 := hl
  refine (gauged_of_ungauged (lift_ungauged (by simp) _) hout).bind ?_
  rintro l - rfl
  refine (gauged_of_ungauged (lift_ungauged (by simp) _) hout).bind ?_
  rintro l - rfl
  refine (gauged_of_ungauged (broadcast_ungauged false) hout).bind ?_
  rintro l - rfl
  exact rfl

theorem pump_ungauged (now : UnixTime) (text : String) :
    (pump crates hasDb t now pk text).Always Ungauged := by
  have hhandled : (handleClientMessage crates hasDb t now pk text).run.Always Ungauged := by
    refine always_require_bind fun msg _ => (dispatch_footprint msg).mono fun o ho => ?_
    cases o with
    | metric u =>
      cases u with
      | connectedPeers n => cases msg <;> exact ho.elim
      | _ => exact fun _ => rfl
    | _ => exact fun _ => rfl
  refine hhandled.bind fun x => ?_
  cases x with
  | ok u => trivial
  | error e => exact (always_send fun _ => rfl).bind fun _ => trivial

theorem start_gauged {c' : Phase} {i : Input} {p : Work Outcome}
    (hs : start crates hasDb t c i = some (c', p)) (hl : Adds c l) :
    Gauged c' p (fun l a => Adds (finish c' a) l) l := by
  cases start_cases hs with
  | connects addr => exact hl
  | registers addr f now =>
    obtain rfl : l = 0 := hl
    rcases register_cases crates hasDb t now addr f.payload with
      ⟨s, pk, handle, addresses, kind, timestamp, signature, requestId, -, -, heq⟩ |
        ⟨msg, hmsg, heq, -⟩
    · rw [heq]
      exact enter_gauged addr addr f.payload now handle addresses kind requestId
    · rw [heq]
      cases msg with
      | none => exact rfl
      | some m => exact ⟨Or.inl rfl, fun _ => rfl⟩
  | handles pk text f now hf =>
    obtain rfl : l = 1 := hl
    have hin : Adds (.handling pk text now) 1 := rfl
    refine (gauged_of_ungauged (pump_ungauged now text) hin).mono ?_
    rintro l a rfl
    cases a <;> exact rfl
  | stays pk f now hf => exact hl
  | closes pk f now hf =>
    obtain rfl : l = 1 := hl
    exact cleanup_gauged

end Programs

section Runs

variable {crates : Crates} {hasDb : Bool} {db₀ : Database.Db ℕ} {tr : List BrokerEvent}
  {σ : BrokerConfig}

theorem adds_balance (h : Run (broker crates hasDb) (fresh db₀) tr σ) (t : ℕ) :
    Adds (σ.tasks t).ctl (balance gauged t tr) := by
  have hgauged := h.tracks (deposit gauged) 0 (fun _ c l _ => Adds c l) (fun _ => Adds)
    (fun _ => ⟨.absent, rfl, rfl⟩) fun _ _ _ _ _ _ hs hl => start_gauged hs hl
  cases ht : σ.tasks t with
  | waiting c => exact hgauged.1 t c ht
  | running c p =>
    obtain ⟨o, k, rfl⟩ := h.running_call (fresh_idle db₀) ht
    exact (hgauged.2 t c _ ht).1

theorem connectedPeers_eq (h : Run (broker crates hasDb) (fresh db₀) tr σ) :
    σ.shared.metrics.connectedPeers = total gauged tr := by
  have hmoved := h.moved_by_total (w := gauged) (fun b => b.metrics.connectedPeers) ?_ ?_
  · exact hmoved.trans (add_zero _)
  · intro t o env s r s' hx
    have hx' : Broker.exec crates t o env s = some (r, s') := hx
    rw [metrics_exec hx']
    cases o with
    | metric u =>
      cases u with
      | connectedPeers n => exact add_comm _ _
      | _ => exact (zero_add _).symm
    | _ => exact (zero_add _).symm
  · intro x s s' hx
    obtain ⟨channels, rfl⟩ := Broker.writerStep_frame hx
    rfl

def pumping (σ : BrokerConfig) : Set ℕ := {t | ∃ pk, Pumping σ t pk}

theorem balance_of_pumping (h : Run (broker crates hasDb) (fresh db₀) tr σ) {t : ℕ}
    (ht : t ∈ pumping σ) : balance gauged t tr = 1 := by
  have hadds := adds_balance h t
  obtain ⟨pk, hc | ⟨text, now, hc⟩⟩ := ht
  · rw [hc] at hadds
    exact hadds
  · rw [hc] at hadds
    exact hadds

theorem balance_of_quiet (h : Run (broker crates hasDb) (fresh db₀) tr σ) {t : ℕ}
    (hquiet : quiet (σ.tasks t).ctl = true) (ht : t ∉ pumping σ) : balance gauged t tr = 0 := by
  have hadds := adds_balance h t
  cases hc : (σ.tasks t).ctl with
  | pumping pk => exact absurd ⟨pk, Or.inl hc⟩ ht
  | handling pk text now => exact absurd ⟨pk, Or.inr ⟨text, now, hc⟩⟩ ht
  | registering addr text now => rw [hc] at hquiet; cases hquiet
  | closing pk => rw [hc] at hquiet; cases hquiet
  | _ => rw [hc] at hadds; exact hadds

theorem balance_nonneg (h : Run (broker crates hasDb) (fresh db₀) tr σ) (t : ℕ) :
    0 ≤ balance gauged t tr := by
  have hadds := adds_balance h t
  cases hc : (σ.tasks t).ctl with
  | registering => rw [hc] at hadds; rcases hadds with hl | hl <;> omega
  | closing => rw [hc] at hadds; rcases hadds with hl | hl <;> omega
  | pumping => rw [hc] at hadds; exact hadds.symm ▸ zero_le_one
  | handling => rw [hc] at hadds; exact hadds.symm ▸ zero_le_one
  | _ => rw [hc] at hadds; exact hadds.symm ▸ le_rfl

theorem pumping_subset (h : Run (broker crates hasDb) (fresh db₀) tr σ) :
    pumping σ ⊆ ↑(performers tr) := by
  intro t ht
  by_contra hno
  have hone := balance_of_pumping h ht
  rw [balance_of_notMem hno] at hone
  exact absurd hone zero_ne_one

/-- In every run the gauge is never negative, and whenever no session is registering or closing it
is the number of sessions in their message loops, of which there are finitely many. -/
theorem connected_peers_counts_sessions (h : Run (broker crates hasDb) (fresh db₀) tr σ) :
    0 ≤ σ.shared.metrics.connectedPeers ∧ (pumping σ).Finite ∧
      ((∀ t, quiet (σ.tasks t).ctl = true) →
        σ.shared.metrics.connectedPeers = (pumping σ).ncard) := by
  classical
  have htotal : σ.shared.metrics.connectedPeers = ∑ t ∈ performers tr, balance gauged t tr := by
    rw [connectedPeers_eq h, total_eq_sum (Finset.Subset.refl _)]
  refine ⟨?_, (performers tr).finite_toSet.subset (pumping_subset h), fun hquiet => ?_⟩
  · rw [htotal]
    exact Finset.sum_nonneg fun t _ => balance_nonneg h t
  · have hbalance : ∀ t, balance gauged t tr = if t ∈ pumping σ then 1 else 0 := by
      intro t
      split_ifs with ht
      · exact balance_of_pumping h ht
      · exact balance_of_quiet h (hquiet t) ht
    have hset : pumping σ = ↑((performers tr).filter (· ∈ pumping σ)) := by
      ext t
      simp only [Finset.coe_filter, Set.mem_ofPred_eq]
      exact ⟨fun ht => ⟨pumping_subset h ht, ht⟩, fun ht => ht.2⟩
    rw [htotal, Finset.sum_congr rfl fun t _ => hbalance t, Finset.sum_boole]
    conv_rhs => rw [hset, Set.ncard_coe_finset]

/-- An entry of the registry leads to a session that has entered under its key and not left. -/
theorem entry_owned (h : Run (broker crates hasDb) (fresh db₀) tr σ) {pk : String}
    {peer : Registry.PeerHandle} (hpeer : σ.shared.registry.byPubkey.lookup pk = some peer) :
    peer.pubkey = pk ∧ stage peer.tx tr = .live pk := by
  revert pk peer
  refine h.induct (I := fun tr σ => ∀ {pk peer},
    σ.shared.registry.byPubkey.lookup pk = some peer →
      peer.pubkey = pk ∧ stage peer.tx tr = .live pk) ?_ ?_
  · intro pk peer hpeer
    cases hpeer
  · intro tr σ e σ' hrun hinv hstep pk peer hpeer
    rcases hstep.cases with ⟨u, i, c, c', p, rfl, -, -, rfl⟩ |
      ⟨u, c, o, k, env, r, s', rfl, ht, hx, rfl⟩ | ⟨x, s', rfl, hx, rfl⟩
    · exact hinv hpeer
    · have hok := stage_ok hrun ht
      -- an entry of another session, or one that an operation leaves alone, is as it was
      have hold : σ.shared.registry.byPubkey.lookup pk = some peer →
          (peer.tx = u → stageNext (stage u tr) o r = stage u tr) →
          peer.pubkey = pk ∧ stage peer.tx (.performed u o r :: tr) = .live pk := by
        intro hpeer hsame
        obtain ⟨hpub, hstage⟩ := hinv hpeer
        refine ⟨hpub, ?_⟩
        by_cases hu : peer.tx = u
        · rw [hu, stage_performed_self, hsame hu, ← hu]
          exact hstage
        · rw [stage_performed_of_ne hu]
          exact hstage
      by_cases ho : Unstaged o
      · rw [byPubkey_of_unstaged hx ho] at hpeer
        exact hold hpeer fun _ => stageNext_of_unstaged ho r
      · cases o with
        | registry a =>
          cases hx
          rw [Registry.PeerRegistry.lookup_exec] at hpeer
          cases a with
          | insertPeer entered =>
            obtain ⟨-, hnew, htx⟩ := hok
            simp only at hpeer
            split_ifs at hpeer with hpk
            · cases hpeer
              subst hpk
              exact ⟨rfl, by rw [htx, stage_performed_self]; rfl⟩
            · refine hold hpeer fun hu => ?_
              have hstage := (hinv hpeer).2
              rw [hu, hnew] at hstage
              cases hstage
          | removePeer pk' =>
            obtain ⟨-, hlive, -⟩ := hok
            simp only at hpeer
            split_ifs at hpeer with hpk
            refine hold hpeer fun hu => ?_
            have hstage := (hinv hpeer).2
            rw [hu, hlive] at hstage
            cases hstage
            exact absurd rfl hpk
          | _ => exact absurd trivial ho
        | _ => exact absurd trivial ho
    · obtain ⟨channels, rfl⟩ := Broker.writerStep_frame hx
      exact hinv hpeer

/-- The keys of the registry are those of sessions in their loops, one session for each key. -/
theorem len_le_pumping (h : Run (broker crates hasDb) (fresh db₀) tr σ) (hs : Settled tr σ) :
    len σ.shared.registry ≤ (pumping σ).ncard := by
  have hentry : ∀ pk ∈ σ.shared.registry.byPubkey.keys.toFinset, ∃ peer,
      σ.shared.registry.byPubkey.lookup pk = some peer := by
    intro pk hpk
    exact Option.isSome_iff_exists.mp (AList.lookup_isSome.mpr (List.mem_toFinset.mp hpk))
  let session (pk : String) : ℕ := ((σ.shared.registry.byPubkey.lookup pk).map (·.tx)).getD 0
  have hlive : ∀ pk ∈ σ.shared.registry.byPubkey.keys.toFinset,
      stage (session pk) tr = .live pk := by
    intro pk hpk
    obtain ⟨peer, hpeer⟩ := hentry pk hpk
    have htx : session pk = peer.tx := by simp [session, hpeer]
    rw [htx]
    exact (entry_owned h hpeer).2
  have hkeys : σ.shared.registry.byPubkey.keys.Nodup := σ.shared.registry.byPubkey.nodupKeys
  have hcard : len σ.shared.registry =
      (σ.shared.registry.byPubkey.keys.toFinset : Set String).ncard := by
    rw [Set.ncard_coe_finset, List.toFinset_card_of_nodup hkeys, len]
  rw [hcard]
  refine Set.ncard_le_ncard_of_injOn session ?_ ?_
    ((performers tr).finite_toSet.subset (pumping_subset h))
  · exact fun pk hpk => ⟨pk, hs.pumping h (hlive pk hpk)⟩
  · intro pk hpk pk' hpk' heq
    have hsame := hlive pk hpk
    rw [heq, hlive pk' hpk'] at hsame
    exact (Stage.live.inj hsame).symm

/-- When sessions share no key, every session in its loop has its key in the registry. -/
theorem pumping_le_len (h : GuardedRun (broker crates hasDb) Unshared (fresh db₀) tr σ)
    (hs : Settled tr σ) : (pumping σ).ncard ≤ len σ.shared.registry := by
  have hlists := registry_lists_live_sessions (noOtherLive_of_unshared h) hs
  have hsub : pumping σ ⊆ ↑((σ.shared.registry.byPubkey.keys.toFinset).image fun pk =>
      ((σ.shared.registry.byPubkey.lookup pk).map (·.tx)).getD 0) := by
    rintro t ⟨pk, ht⟩
    obtain ⟨peer, hpeer⟩ := (hlists pk).1.mpr ⟨t, ht⟩
    have hkey : pk ∈ σ.shared.registry.byPubkey.keys :=
      AList.lookup_isSome.mp (Option.isSome_iff_exists.mpr ⟨peer, hpeer⟩)
    refine Finset.mem_coe.mpr (Finset.mem_image.mpr ⟨pk, List.mem_toFinset.mpr hkey, ?_⟩)
    rw [hpeer]
    exact unique_of_unshared h (entry_owned h.run hpeer).2 (pumping_live h.run ht).1
  calc (pumping σ).ncard ≤ _ := Set.ncard_le_ncard hsub (Finset.finite_toSet _)
    _ ≤ σ.shared.registry.byPubkey.keys.toFinset.card := by
      rw [Set.ncard_coe_finset]
      exact Finset.card_image_le
    _ ≤ len σ.shared.registry := List.toFinset_card_le _

/-- In every run, whenever no session is registering or closing, `/health` reports no more peers
than the gauge, and when no two sessions have shared a key, its body is that of the gauge. -/
theorem health_at_rest (h : Run (broker crates hasDb) (fresh db₀) tr σ)
    (hquiet : ∀ t, quiet (σ.tasks t).ctl = true) :
    len σ.shared.registry ≤ σ.shared.metrics.connectedPeers ∧
      (GuardedRun (broker crates hasDb) Unshared (fresh db₀) tr σ →
        len σ.shared.registry = σ.shared.metrics.connectedPeers ∧ health σ.shared =
          "ok\npeers_online: " ++ toString σ.shared.metrics.connectedPeers ++ "\n") := by
  have hs : Settled tr σ := settled_of_quiet hquiet
  have hgauge := (connected_peers_counts_sessions h).2.2 hquiet
  have hle := len_le_pumping h hs
  refine ⟨?_, fun hunshared => ?_⟩
  · rw [hgauge]
    exact_mod_cast hle
  · have hge := pumping_le_len hunshared hs
    have heq : (len σ.shared.registry : ℤ) = σ.shared.metrics.connectedPeers := by
      rw [hgauge]
      exact_mod_cast le_antisymm hle hge
    refine ⟨heq, ?_⟩
    rw [← heq]
    rfl

end Runs

/-! ## Two sessions of one key -/

open Scripts Crates

def sharing : List Cue := joins 0 'a' ++ joins 1 'a'

def gaugeAndHealth (x : List BrokerEvent × BrokerConfig) : (ℤ × ℕ) × Bool × Bool :=
  ((x.2.shared.metrics.connectedPeers, len x.2.shared.registry), quiet (x.2.tasks 0).ctl,
    quiet (x.2.tasks 1).ctl)

theorem sharing_played :
    (play false (fun _ _ _ => true) sharing [] (fresh DatabaseCalls.emptyDb)).map gaugeAndHealth =
      some ((2, 1), true, true) := by
  decide +kernel

theorem gauge_counts_two_sessions : ∃ tr σ,
    Run (broker demo false) (fresh DatabaseCalls.emptyDb) tr σ ∧ (pumping σ).ncard = 2 := by
  obtain ⟨⟨tr, σ⟩, hp, heq⟩ := Option.map_eq_some_iff.mp sharing_played
  simp only [gaugeAndHealth, Prod.mk.injEq] at heq
  obtain ⟨⟨htwo, -⟩, h₀, h₁⟩ := heq
  have hrun := run_of_play false hp
  have hcount := (connected_peers_counts_sessions hrun).2.2 (quiet_of_play hp (by decide) h₀ h₁)
  refine ⟨tr, σ, hrun, ?_⟩
  rw [htwo] at hcount
  exact_mod_cast hcount.symm

theorem health_below_gauge : ∃ tr σ,
    Run (broker demo false) (fresh DatabaseCalls.emptyDb) tr σ ∧
      σ.shared.metrics.connectedPeers = 2 ∧ len σ.shared.registry = 1 ∧
      (len σ.shared.registry : ℤ) ≤ σ.shared.metrics.connectedPeers := by
  obtain ⟨⟨tr, σ⟩, hp, heq⟩ := Option.map_eq_some_iff.mp sharing_played
  simp only [gaugeAndHealth, Prod.mk.injEq] at heq
  obtain ⟨⟨htwo, hone⟩, h₀, h₁⟩ := heq
  have hrun := run_of_play false hp
  exact ⟨tr, σ, hrun, htwo, hone, (health_at_rest hrun (quiet_of_play hp (by decide) h₀ h₁)).1⟩

end HashedBroker.ConnectedPeers
