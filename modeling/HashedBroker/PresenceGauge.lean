import HashedBroker.PresenceRelation

/-!
# The gauge of subscriptions

`presence_subscriptions` moves by the length of the list a peer sends, and the tables by what the
list changes in a set. A closing session empties its part of the tables and leaves the gauge alone.
While every list holds new targets once each, or held ones once each, and nobody leaves with
subscriptions, the gauge counts the pairs.
-/
namespace HashedBroker.PresenceGauge
open AtomicPrograms ReactiveTasks Protocol Presence PresenceRelation Server Sessions

/-! ## The pairs and the gauge -/

/-- The pairs of a subscriber and a target that the manager holds. -/
def heldPairs (pm : PresenceManager) : Finset (String × String) :=
  pm.subscriptions.keys.toFinset.biUnion fun s => (pm.targets s).image (Prod.mk s)

theorem mem_heldPairs {pm : PresenceManager} {s x : String} :
    (s, x) ∈ heldPairs pm ↔ x ∈ pm.targets s := by
  simp only [heldPairs, Finset.mem_biUnion, List.mem_toFinset, Finset.mem_image, Prod.mk.injEq]
  constructor
  · rintro ⟨s', -, y, hy, rfl, rfl⟩
    exact hy
  · intro hx
    refine ⟨s, ?_, x, hx, rfl, rfl⟩
    rw [← AList.mem_keys, ← AList.lookup_isSome, Option.isSome_iff_ne_none]
    intro hnone
    rw [PresenceManager.targets, hnone] at hx
    exact Finset.notMem_empty x hx

/-- The list of a message changes the tables by as much as it moves the gauge. -/
def Fits (pm : PresenceManager) (s : String) : ClientMessage → Prop
  | .subscribePresence _ peers _ _ _ => peers.Nodup ∧ ∀ x ∈ peers, x ∉ pm.targets s
  | .unsubscribePresence _ peers _ _ _ => peers.Nodup ∧ ∀ x ∈ peers, x ∈ pm.targets s
  | _ => True

/-- What a frame leads to is counted: the list of a subscription fits, and who leaves holds no
pair. -/
def Counts (crates : Crates) (σ : BrokerConfig) : BrokerEvent → Prop
  | .input t (.frame f now) => ∀ pk, ctls σ t = .pumping pk →
    (f.payload = none → (f = .ping ∨ f = .pong) ∨ σ.shared.presence.targets pk = ∅) ∧
    ∀ text msg, f.payload = some text → authenticate crates now pk text = .ok msg →
      Fits σ.shared.presence pk msg
  | _ => True

/-- Each frame is handled atomically, and counted. -/
def CountedStep (crates : Crates) (tr : List BrokerEvent) (σ : BrokerConfig) (e : BrokerEvent) :
    Prop :=
  Alone tr σ e ∧ Counts crates σ e

def gaugeView (crates : Crates) (hasDb : Bool) : View (broker crates hasDb) (PresenceManager × ℤ) where
  of b := (b.presence, b.metrics.presenceSubscriptions)
  steady x b b' h := by
    obtain ⟨channels, rfl⟩ := Broker.writerStep_frame h
    rfl

/-- Both indexes are the pairs, which the gauge counts up to some that are due. -/
def Counted (R : Finset (String × String)) (due : ℤ) (v : PresenceManager × ℤ) : Prop :=
  Holds ↑R ↑R Unlocked v.1 ∧ v.2 = R.card - due

section Programs

variable {crates : Crates} {hasDb : Bool} {t : ℕ} {pk : String} {α β : Type}
  {R : Finset (String × String)} {n : ℤ}

abbrev Gauged (crates : Crates) (hasDb : Bool) (t : ℕ) {α : Type} (P : PresenceManager × ℤ → Prop)
    (p : Work α) (Q : α → PresenceManager × ℤ → Prop) : Prop :=
  Triple (fun _ => True) t (gaugeView crates hasDb) P p Q

def Uncounted : Op → Prop
  | .presence (.watchers _) => True
  | .presence _ => False
  | .metric (.presenceSubscriptions _) => False
  | _ => True

theorem uncounted_exec {o : Op} {env : Env} {b b' : Broker} {r : Res o} (ho : Uncounted o)
    (hx : Broker.exec crates t o env b = some (r, b')) :
    (gaugeView crates hasDb).of b' = (gaugeView crates hasDb).of b := by
  cases o with
  | presence a =>
    obtain ⟨pm, hpm, rfl⟩ := Broker.exec_presence hx
    cases a with
    | watchers x =>
      obtain ⟨rfl, -⟩ := watchers_answer hpm
      rfl
    | _ => exact ho.elim
  | metric u =>
    cases hx
    cases u with
    | presenceSubscriptions n => exact ho.elim
    | _ => rfl
  | query s => obtain ⟨db, -, rfl⟩ := Broker.exec_query hx; rfl
  | relay a => obtain ⟨rm, -, rfl⟩ := Broker.exec_relay hx; rfl
  | send c msg => obtain ⟨ch, -, rfl⟩ := Broker.exec_send hx; rfl
  | _ => cases hx; rfl

theorem gauged_uncounted {p : Work α} {P : PresenceManager × ℤ → Prop} (hp : p.Always Uncounted) :
    Gauged crates hasDb t P p fun _ => P := by
  refine Always.triple hp fun o env b r b' ho hP hx => ?_
  have hx' : Broker.exec crates t o env b = some (r, b') := hx
  rw [uncounted_exec ho hx']
  exact hP

theorem evaluates_presence {p : Method α} {ok : Op → Prop} {b b' : Broker}
    {hist : Prog.History Op Res} {a : α}
    (he : Evaluates (broker crates hasDb) ok t (presence p) b hist b' a) :
    (∃ hist', Returns manager t p b.presence hist' b'.presence a) ∧
      b'.metrics = b.metrics := by
  generalize hq : presence p = q at he
  induction he generalizing p with
  | done a b =>
    cases p with
    | done a' => cases hq; exact ⟨⟨[], .done _ _⟩, rfl⟩
    | call o k => cases hq
  | @call o k env b b₁ b' r hist a allowed answered rest ih =>
    cases p with
    | done a' => cases hq
    | call o' k' =>
      cases hq
      have hx : Broker.exec crates t (.presence o') env b = some (r, b₁) := answered
      obtain ⟨pm, hpm, rfl⟩ := Broker.exec_presence hx
      obtain ⟨⟨hist', hrest⟩, hmetrics⟩ := ih rfl
      exact ⟨⟨_, .call trivial hpm hrest⟩, hmetrics⟩
  | disturbed outside rest ih =>
    obtain ⟨channels, rfl⟩ := Broker.writerStep_frame outside
    exact ih hq

theorem gauged_presence {p : Method α} {R' : Finset (String × String)} {T T' : Set (String × String)}
    (hp : Leads t (Holds T T Unlocked) p fun _ => Holds T' T' Unlocked)
    (hR : ↑R = T) (hR' : ↑R' = T') (hn : (R'.card : ℤ) = R.card + n) :
    Gauged crates hasDb t (Counted R 0) (presence p) fun _ => Counted R' n := by
  rintro b hist b' a ⟨hpairs, hgauge⟩ he
  obtain ⟨⟨hist', hmanager⟩, hmetrics⟩ := evaluates_presence he
  rw [hR] at hpairs
  refine ⟨?_, ?_⟩
  · rw [hR']
    exact hp _ _ _ _ hpairs hmanager
  · change b'.metrics.presenceSubscriptions = _
    rw [hmetrics]
    change b.metrics.presenceSubscriptions = _ at hgauge
    omega

theorem gauged_metric : Gauged crates hasDb t (Counted R n) (metric (.presenceSubscriptions n))
    fun _ => Counted R 0 := by
  refine triple_call (fun _ => Counted R 0) ?_ fun _ => triple_done fun _ hv => hv
  rintro env b r b' - ⟨hpairs, hgauge⟩ ⟨⟩
  refine ⟨hpairs, ?_⟩
  change b.metrics.presenceSubscriptions = _ at hgauge
  change b.metrics.presenceSubscriptions + n = _
  omega

def pairsOf (s : String) (targets : List String) : Finset (String × String) :=
  (targets.map (Prod.mk s)).toFinset

theorem coe_pairsOf (s : String) (targets : List String) :
    (↑(pairsOf s targets) : Set (String × String)) = {s} ×ˢ {x | x ∈ targets} := by
  ext ⟨s', x⟩
  simp only [pairsOf, List.coe_toFinset, List.mem_map, Set.mem_ofPred_eq, Set.mem_prod,
    Set.mem_singleton_iff, Prod.mk.injEq]
  constructor
  · rintro ⟨y, hy, rfl, rfl⟩
    exact ⟨rfl, hy⟩
  · rintro ⟨rfl, hx⟩
    exact ⟨x, hx, rfl, rfl⟩

theorem card_pairsOf {targets : List String} (h : targets.Nodup) (s : String) :
    (pairsOf s targets).card = targets.length := by
  rw [pairsOf, List.toFinset_card_of_nodup (h.map (Prod.mk_right_injective s)), List.length_map]

theorem mem_of_holds {pm : PresenceManager} {H : KeyedTables.Table ℕ String → Prop}
    (h : Holds (↑R) ↑R H pm) (s x : String) : x ∈ pm.targets s ↔ (s, x) ∈ R :=
  Set.ext_iff.mp (congrArg Prod.fst h.1) (s, x)

/-- The tables and the gauge agree. -/
def Tallied (v : PresenceManager × ℤ) : Prop := ∃ R, Counted R 0 v

theorem subscribe_tallied (peers : List String) (requestId : Option String) :
    Gauged crates hasDb t
      (fun v => Tallied v ∧ peers.Nodup ∧ ∀ x ∈ peers, x ∉ v.1.targets pk)
      (onSubscribePresence t pk peers requestId) fun _ => Tallied := by
  rintro b hist b' a ⟨⟨R, hcounted⟩, hnodup, hnew⟩ he
  have hdisjoint : Disjoint R (pairsOf pk peers) := by
    rw [← Finset.disjoint_coe, coe_pairsOf, Set.disjoint_left]
    rintro ⟨s, x⟩ hmem ⟨hs, hx⟩
    obtain rfl : s = pk := hs
    exact hnew x hx ((mem_of_holds hcounted.1 s x).mpr hmem)
  have hcard : ((R ∪ pairsOf pk peers).card : ℤ) = R.card + peers.length := by
    rw [Finset.card_union_of_disjoint hdisjoint, card_pairsOf hnodup]
    push_cast
    rfl
  have hsubscribe : Gauged crates hasDb t (Counted R 0)
      (presence (Presence.subscribe pk peers)) fun _ => Counted (R ∪ pairsOf pk peers) peers.length :=
    gauged_presence (subscribe_leads pk peers) rfl
      (by rw [Finset.coe_union, coe_pairsOf]; rfl) hcard
  have hall : Gauged crates hasDb t (Counted R 0) (onSubscribePresence t pk peers requestId)
      fun _ => Counted (R ∪ pairsOf pk peers) 0 := by
    refine hsubscribe.bind fun _ => gauged_metric.bind fun _ => gauged_uncounted ?_
    exact report_always (fun _ => trivial) trivial fun _ _ => trivial
  exact ⟨_, hall b hist b' a hcounted he⟩

theorem unsubscribe_tallied (peers : List String) :
    Gauged crates hasDb t
      (fun v => Tallied v ∧ peers.Nodup ∧ ∀ x ∈ peers, x ∈ v.1.targets pk)
      (onUnsubscribePresence pk peers) fun _ => Tallied := by
  rintro b hist b' a ⟨⟨R, hcounted⟩, hnodup, hheld⟩ he
  have hsubset : pairsOf pk peers ⊆ R := by
    rw [← Finset.coe_subset, coe_pairsOf]
    rintro ⟨s, x⟩ ⟨hs, hx⟩
    obtain rfl : s = pk := hs
    exact (mem_of_holds hcounted.1 s x).mp (hheld x hx)
  have hcard : ((R \ pairsOf pk peers).card : ℤ) = R.card + -peers.length := by
    have hle := Finset.card_le_card hsubset
    rw [Finset.card_sdiff_of_subset hsubset, card_pairsOf hnodup]
    rw [card_pairsOf hnodup] at hle
    omega
  have hunsubscribe : Gauged crates hasDb t (Counted R 0)
      (presence (Presence.unsubscribe pk peers)) fun _ =>
        Counted (R \ pairsOf pk peers) (-peers.length) :=
    gauged_presence (unsubscribe_leads pk peers) rfl
      (by rw [Finset.coe_sdiff, coe_pairsOf]; rfl) hcard
  have hall : Gauged crates hasDb t (Counted R 0) (onUnsubscribePresence pk peers)
      fun _ => Counted (R \ pairsOf pk peers) 0 :=
    hunsubscribe.bind fun _ => gauged_metric
  exact ⟨_, hall b hist b' a hcounted he⟩

theorem dispatch_tallied (msg : ClientMessage) :
    Gauged crates hasDb t (fun v => Tallied v ∧ Fits v.1 pk msg)
      (dispatch crates hasDb t pk msg).run fun _ => Tallied := by
  by_cases hmsg : msg.tag = "subscribe_presence" ∨ msg.tag = "unsubscribe_presence"
  · cases msg with
    | subscribePresence pubkey peers timestamp signature requestId =>
      exact (subscribe_tallied peers requestId).bind fun _ => triple_done fun _ hv => hv
    | unsubscribePresence pubkey peers timestamp signature requestId =>
      exact (unsubscribe_tallied peers).bind fun _ => triple_done fun _ hv => hv
    | _ => simp [ClientMessage.tag] at hmsg
  · have halways : (dispatch crates hasDb t pk msg).run.Always Uncounted := by
      refine (dispatch_ops crates hasDb t pk msg).mono fun o ho => ?_
      obtain ⟨-, hled, hgauges⟩ := ho
      cases o with
      | presence a => exact absurd hled hmsg
      | metric u =>
        cases u with
        | presenceSubscriptions n => exact absurd hgauges hmsg
        | _ => trivial
      | _ => trivial
    exact (gauged_uncounted halways).mono (fun _ hv => hv.1) fun _ _ hv => hv

theorem pump_tallied {now : UnixTime} {text : String} (pm : PresenceManager)
    (hfits : ∀ msg, authenticate crates now pk text = .ok msg → Fits pm pk msg) :
    Gauged crates hasDb t (fun v => v.1 = pm ∧ Tallied v) (pump crates hasDb t now pk text)
      fun _ => Tallied := by
  have hhandle : Gauged crates hasDb t (fun v => v.1 = pm ∧ Tallied v)
      (handleClientMessage crates hasDb t now pk text).run fun _ => Tallied := by
    rw [handleClientMessage, run_require_bind]
    cases h : authenticate crates now pk text with
    | error e => exact triple_done fun _ hv => hv.2
    | ok msg =>
      refine (dispatch_tallied msg).mono ?_ fun _ _ hv => hv
      rintro v ⟨rfl, hv⟩
      exact ⟨hv, hfits msg h⟩
  refine hhandle.bind fun x => ?_
  cases x with
  | ok u => exact triple_done fun _ hv => hv
  | error e => exact gauged_uncounted ((always_send trivial).bind fun _ => trivial)

theorem cleanup_tallied :
    Gauged crates hasDb t (fun v => v.1.targets pk = ∅ ∧ Tallied v) (cleanup pk)
      fun _ => Tallied := by
  rintro b hist b' a ⟨hnone, R, hcounted⟩ he
  have hempty : (↑R : Set (String × String)) \ {pk} ×ˢ Set.univ = ↑R := by
    refine (Set.disjoint_left.mpr ?_).sdiff_eq_left
    rintro ⟨s, x⟩ hmem ⟨hs, -⟩
    obtain rfl : s = pk := hs
    have hx := (mem_of_holds hcounted.1 s x).mpr hmem
    rw [hnone] at hx
    exact Finset.notMem_empty x hx
  have hclear : Gauged crates hasDb t (Counted R 0) (presence (Presence.clearSubscriber pk))
      fun _ => Counted R 0 :=
    gauged_presence (clearSubscriber_leads pk) rfl hempty.symm (by simp)
  have hremove : (registry (Registry.remove pk)).Always Uncounted :=
    Prog.always_lift_of (fun _ => trivial) _
  have hmetric : (metric (.connectedPeers (-1))).Always Uncounted := always_metric trivial
  have hdrop : (relay (Relay.dropSessionsFor pk)).Always Uncounted :=
    Prog.always_lift_of (fun _ => trivial) _
  have hbroadcast : (broadcast pk false).Always Uncounted :=
    broadcast_always pk false trivial (fun _ => trivial) fun _ => trivial
  have hall : Gauged crates hasDb t (Counted R 0) (cleanup pk) fun _ => Counted R 0 := by
    refine (gauged_uncounted hremove).bind fun _ => ?_
    refine (gauged_uncounted hmetric).bind fun _ => hclear.bind fun _ => ?_
    exact gauged_uncounted (hdrop.bind fun _ => hbroadcast.bind fun _ => trivial)
  exact ⟨R, hall b hist b' a hcounted he⟩

theorem register_uncounted (now : UnixTime) (addr : Registry.SocketAddr) (text : Option String) :
    (register crates hasDb t now addr text).Always Uncounted := by
  rcases register_cases crates hasDb t now addr text with
    ⟨text, pk, handle, addresses, kind, timestamp, signature, requestId, -, -, heq⟩ |
      ⟨msg, hmsg, heq, -⟩
  · rw [heq]
    have hrecord : (recordPeer crates hasDb t pk handle (kind.getD .user) requestId).Always
        Uncounted :=
      recordPeer_always crates hasDb t pk handle _ requestId trivial
        (fun _ => Prog.always_lift_of (fun _ => trivial) _) (fun _ => trivial) fun _ _ => trivial
    have hbroadcast : (broadcast pk true).Always Uncounted :=
      broadcast_always pk true trivial (fun _ => trivial) fun _ => trivial
    refine hrecord.bind fun claimed => (Prog.always_lift_of (fun _ => trivial) _).bind fun _ => ?_
    refine (always_metric trivial).bind fun _ => (always_metric trivial).bind fun _ => ?_
    exact (always_send trivial).bind fun _ => hbroadcast.bind fun _ => trivial
  · rw [heq]
    refine (reject_always t hmsg).mono fun o ho => ?_
    obtain ⟨code, message, requestId, rfl⟩ := ho
    trivial

end Programs

/-! ## Runs -/

section Runs

variable {crates : Crates} {hasDb : Bool} {tr : List BrokerEvent} {σ : BrokerConfig} {t : ℕ}

theorem start_tallied {i : Input} {c' : Phase} {p : Work Outcome}
    (hcounts : Counts crates σ (.input t i))
    (hs : start crates hasDb t (ctls σ t) i = some (c', p)) :
    Gauged crates hasDb t (fun v => v = (gaugeView crates hasDb).of σ.shared ∧ Tallied v) p
      fun _ => Tallied := by
  generalize hc : ctls σ t = c at hs
  cases start_cases hs with
  | connects addr => exact triple_done fun v hv => hv.2
  | registers addr f now =>
    exact (gauged_uncounted (register_uncounted now addr f.payload)).mono (fun _ hv => hv.2)
      fun _ _ hv => hv
  | handles pk text f now hf =>
    obtain ⟨-, hfits⟩ := hcounts pk hc
    refine (pump_tallied σ.shared.presence fun msg => hfits text msg hf).mono ?_ fun _ _ hv => hv
    rintro v ⟨rfl, hv⟩
    exact ⟨rfl, hv⟩
  | stays pk f now hf => exact triple_done fun v hv => hv.2
  | closes pk f now hf =>
    obtain ⟨hleaves, -⟩ := hcounts pk hc
    have hempty : σ.shared.presence.targets pk = ∅ := by
      rcases hf with rfl | rfl
      · simpa using hleaves rfl
      · simpa using hleaves rfl
    refine cleanup_tallied.mono ?_ fun _ _ hv => hv
    rintro v ⟨rfl, hv⟩
    exact ⟨hempty, hv⟩

/-- In every run of frames that are handled atomically and counted, the gauge is the number of pairs
the manager holds. -/
theorem gauge_counts_pairs {db₀ : Database.Db ℕ}
    (h : GuardedRun (broker crates hasDb) (CountedStep crates) (fresh db₀) tr σ) (hidle : Idle σ) :
    σ.shared.metrics.presenceSubscriptions = (heldPairs σ.shared.presence).card := by
  have htallied : Tallied ((gaugeView crates hasDb).of σ.shared) := by
    refine h.sequential_at (I := fun _ => Tallied) (gaugeView crates hasDb) (fun _ _ _ hC => hC.1)
      (fun _ _ _ _ _ _ => trivial) (fresh_idle db₀) ⟨∅, ⟨?_, fun _ => rfl⟩, rfl⟩ ?_ hidle
    · have hempty : relation [] = ↑(∅ : Finset (String × String)) := Finset.coe_empty.symm
      rw [← hempty]
      exact Called.none.holds.1
    · intro tr σ t i c' p hC hs
      exact start_tallied hC.2 hs
  obtain ⟨R, hholds, hgauge⟩ := htallied
  have hsame : heldPairs σ.shared.presence = R := by
    ext ⟨s, x⟩
    rw [mem_heldPairs]
    exact mem_of_holds hholds s x
  rw [hsame]
  change σ.shared.metrics.presenceSubscriptions = _ at hgauge
  rw [hgauge, sub_zero]

end Runs

/-! ## Two scripts -/

open Scripts Crates

def subscribes : List Cue :=
  joins 0 'a' ++ .say 0 'a' (.subscribePresence (keyText 'a') [keyText 'b'] 0 (signatureText 'a')
    none) :: steps 0 8 calm

/-- A frame comes while the first task waits, the only one, and holds no pair. -/
def freshFrames (_ : List BrokerEvent) (σ : BrokerConfig) : BrokerEvent → Bool
  | .input _ _ => idleBelow 1 σ && decide (heldPairs σ.shared.presence = ∅)
  | _ => true

theorem subscribes_played :
    (play false freshFrames subscribes [] (fresh DatabaseCalls.emptyDb)).map
      (fun x => (idleBelow 1 x.2, heldPairs x.2.shared.presence)) =
      some (true, {(keyText 'a', keyText 'b')}) := by
  decide +kernel

theorem subscribes_counts : ∀ x ∈ subscribes, ∀ tr σ e σ',
    (∀ t, 1 ≤ t → σ.tasks t = .waiting .absent) → cue false σ x = some (e, σ') →
      freshFrames tr σ e = true → CountedStep demo tr σ e := by
  intro x hx tr σ e σ' habsent hcue htest
  cases e with
  | input t i =>
    simp only [freshFrames, Bool.and_eq_true, decide_eq_true_eq] at htest
    refine ⟨idle_of_idleBelow htest.1 habsent, ?_⟩
    have hnone : ∀ s, σ.shared.presence.targets s = ∅ := by
      intro s
      ext y
      rw [← mem_heldPairs, htest.2]
      simp
    cases i with
    | connect addr => trivial
    | frame f now =>
      intro pk hpk
      refine ⟨fun _ => Or.inr (hnone pk), fun text msg htext hmsg => ?_⟩
      rcases frame_of_cue false hcue with rfl | ⟨d, m, rfl, rfl⟩
      · cases htext
      · cases htext
        obtain rfl := authenticate_wire hmsg
        simp only [subscribes, joins, steps, List.cons_append, List.nil_append, List.mem_cons,
          List.mem_append, List.mem_replicate, reduceCtorEq, and_false, false_or,
          Cue.say.injEq, or_false] at hx
        rcases hx with ⟨rfl, rfl, rfl⟩ | ⟨rfl, rfl, rfl⟩
        · trivial
        · exact ⟨List.nodup_singleton _, fun y _ => by simp [hnone]⟩
  | performed t o r => exact ⟨trivial, trivial⟩
  | disturbed x => exact ⟨trivial, trivial⟩

theorem gauge_counts_one_pair : ∃ tr σ,
    GuardedRun (broker demo false) (CountedStep demo) (fresh DatabaseCalls.emptyDb) tr σ ∧ Idle σ ∧
      σ.shared.metrics.presenceSubscriptions = 1 := by
  obtain ⟨⟨tr, σ⟩, hp, heq⟩ := Option.map_eq_some_iff.mp subscribes_played
  simp only [Prod.mk.injEq] at heq
  obtain ⟨hidle, hpairs⟩ := heq
  obtain ⟨hrun, habsent⟩ := guardedRun_of_cues false subscribes_counts (by decide) .start
    (fun _ _ => rfl) hp
  have hidle' := idle_of_idleBelow hidle habsent
  refine ⟨tr, σ, hrun, hidle', ?_⟩
  rw [gauge_counts_pairs hrun hidle', hpairs]
  rfl

/-- `a` registers and unsubscribes from `b`, to which it never subscribed. -/
def unsubscribes : List Cue :=
  joins 0 'a' ++ .say 0 'a' (.unsubscribePresence (keyText 'a') [keyText 'b'] 0 (signatureText 'a')
    none) :: steps 0 2 calm

/-- A frame comes while the first task waits, the only one. -/
def frameAlone (_ : List BrokerEvent) (σ : BrokerConfig) : BrokerEvent → Bool
  | .input _ _ => idleBelow 1 σ
  | _ => true

theorem unsubscribes_played :
    (play false frameAlone unsubscribes [] (fresh DatabaseCalls.emptyDb)).map
      (fun x => (idleBelow 1 x.2, heldPairs x.2.shared.presence,
        x.2.shared.metrics.presenceSubscriptions)) = some (true, ∅, -1) := by
  decide +kernel

theorem gauge_below_zero : ∃ tr σ,
    GuardedRun (broker demo false) Alone (fresh DatabaseCalls.emptyDb) tr σ ∧ Idle σ ∧
      σ.shared.metrics.presenceSubscriptions < 0 ∧
      σ.shared.metrics.presenceSubscriptions ≠ (heldPairs σ.shared.presence).card := by
  obtain ⟨⟨tr, σ⟩, hp, heq⟩ := Option.map_eq_some_iff.mp unsubscribes_played
  simp only [Prod.mk.injEq] at heq
  obtain ⟨hidle, hpairs, hgauge⟩ := heq
  have halone : ∀ (tr : List BrokerEvent) (σ : BrokerConfig) (e : BrokerEvent),
      (∀ t, 1 ≤ t → σ.tasks t = .waiting .absent) → frameAlone tr σ e = true → Alone tr σ e := by
    intro tr σ e habsent htest
    cases e with
    | input t i => exact idle_of_idleBelow htest habsent
    | _ => trivial
  obtain ⟨hrun, habsent⟩ := guardedRun_of_play_among false halone (by decide) .start
    (fun _ _ => rfl) hp
  refine ⟨tr, σ, hrun, idle_of_idleBelow hidle habsent, ?_, ?_⟩
  · rw [hgauge]
    decide
  · rw [hgauge, hpairs]
    decide

end HashedBroker.PresenceGauge
