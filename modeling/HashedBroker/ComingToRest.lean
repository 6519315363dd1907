import HashedBroker.FiniteContinuations
import HashedBroker.FollowingHandlers
import HashedBroker.HandlerFootprints
import HashedBroker.PresenceRelation
import HashedBroker.Scripts
import HashedBroker.SessionTransactions

/-!
# The broker comes to rest

What a session's task waits for in the middle of its work: an entry of `subscriptions` another task
holds, a full channel, a row another transaction has locked. A task that holds an entry never waits
before it releases it, a writer empties a channel, and a transaction waits for a row only where two
registrations of one key claim handles at the same time, which is the database's to resolve.
-/
namespace HashedBroker.ComingToRest
open KeyedTables AtomicPrograms ReactiveTasks Server Sessions Database Protocol

/-! ## Writers -/

def Drains (b' b : Broker) : Prop := ∃ c, b.writerStep (.drained c) = some b'

theorem drains_cases {b b' : Broker} {c : ℕ} (h : b.writerStep (.drained c) = some b') :
    0 < (b.channels c).queued ∧
      b' = b.withChannel c { b.channels c with queued := (b.channels c).queued - 1 } := by
  simp only [Broker.writerStep] at h
  split_ifs at h with hq
  cases h
  exact ⟨hq, rfl⟩

theorem acc_drains (F : Finset ℕ) {b : Broker} (hF : ∀ c, c ∉ F → (b.channels c).queued = 0) :
    Acc Drains b := by
  induction hn : ∑ c ∈ F, (b.channels c).queued using Nat.strong_induction_on generalizing b with
  | _ n ih =>
    constructor
    rintro b' ⟨c, hdrain⟩
    obtain ⟨hq, rfl⟩ := drains_cases hdrain
    have hc : c ∈ F := by
      by_contra hc
      have := hF c hc
      omega
    have hless : ∀ u, ((b.withChannel c { b.channels c with
        queued := (b.channels c).queued - 1 }).channels u).queued ≤ (b.channels u).queued := by
      intro u
      simp only [Broker.withChannel]
      by_cases hu : u = c
      · subst hu
        rw [Function.update_self]
        simp
      · rw [Function.update_of_ne hu]
    refine ih _ ?_ (fun u hu => ?_) rfl
    · rw [← hn]
      refine Finset.sum_lt_sum (fun u _ => hless u) ⟨c, hc, ?_⟩
      simp only [Broker.withChannel, Function.update_self]
      omega
    · have := hless u
      have := hF u hu
      omega

section Channels

variable {crates : Crates} {hasDb : Bool} {db₀ : Db ℕ} {tr : List BrokerEvent} {σ : BrokerConfig}

theorem finite_queued (h : Run (broker crates hasDb) (fresh db₀) tr σ) :
    ∃ F : Finset ℕ, ∀ c, c ∉ F → (σ.shared.channels c).queued = 0 := by
  have hset : ∀ {b : Broker} {F : Finset ℕ} c ch, (∀ c, c ∉ F → (b.channels c).queued = 0) →
      ∀ u, u ∉ insert c F → ((b.withChannel c ch).channels u).queued = 0 := by
    intro b F c ch hF u hu
    rw [Finset.mem_insert, not_or] at hu
    simp only [Broker.withChannel, Function.update_of_ne hu.1]
    exact hF u hu.2
  induction h with
  | start => exact ⟨∅, fun _ _ => rfl⟩
  | step prior next ih =>
    obtain ⟨F, hF⟩ := ih
    rcases next.cases with ⟨t, i, c, c', p, -, -, -, rfl⟩ |
      ⟨t, c, o, k, env, r, s', -, -, hx, rfl⟩ | ⟨x, s', -, hx, rfl⟩
    · exact ⟨F, hF⟩
    · have hx' : Broker.exec crates t o env _ = some (r, s') := hx
      by_cases hsend : ∃ c msg, o = .send c msg
      · obtain ⟨c, msg, rfl⟩ := hsend
        obtain ⟨ch, -, rfl⟩ := Broker.exec_send hx'
        exact ⟨insert c F, hset c ch hF⟩
      · refine ⟨F, fun c hc => ?_⟩
        simp only [(Broker.exec_frame hx').channels fun c msg he => hsend ⟨c, msg, he⟩]
        exact hF c hc
    · cases x with
      | drained c =>
        obtain ⟨-, rfl⟩ := drains_cases hx
        exact ⟨insert c F, hset c _ hF⟩
      | ended c =>
        cases hx
        exact ⟨insert c F, hset c _ hF⟩

end Channels

/-! ## Entries that are held -/

/-- An access a task may make while it holds an entry; none of them waits. -/
def Steady : Presence.Access → Prop
  | .insert _ _ | .remove _ _ | .watch _ _ | .unwatch _ _ | .dropWatchers _ | .release => True
  | _ => False

def held (l : Option String) : (a : Presence.Access) → a.Result → Option String
  | .entry subscriber, _ => some subscriber
  | .getMut subscriber, found => if found then some subscriber else l
  | .release, _ => none
  | _, _ => l

def heldAfter (l : Option String) : (o : Op) → Res o → Option String
  | .presence a, r => held l a r
  | _, _ => l

def HoldsSteadily (l : Option String) (o : Op) : Prop :=
  l = none ∨ ∃ a, o = .presence a ∧ Steady a

def LocksNothing : Op → Prop
  | .presence a => PresenceRelation.LocksNone a
  | _ => True

section Guards

variable {α : Type} {crates : Crates} {hasDb : Bool} {t : ℕ} {pk : String}

theorem heldAfter_of_locksNothing {o : Op} (ho : LocksNothing o) (l : Option String) (r : Res o) :
    heldAfter l o r = l := by
  cases o with
  | presence a =>
    cases a with
    | entry s => exact ho.elim
    | getMut s => exact ho.elim
    | release => exact ho.elim
    | _ => rfl
  | _ => rfl

theorem steady_of_always {p : Work α} (hp : p.Always LocksNothing) :
    p.Follows heldAfter HoldsSteadily (fun l _ => l = none) none :=
  hp.follows (fun _ ho => ⟨Or.inl rfl, heldAfter_of_locksNothing ho none⟩) fun _ => rfl

theorem presence_steady {p : Presence.Method α} {post : Option String → α → Prop}
    {l : Option String} (hp : p.Follows held (fun l a => l = none ∨ Steady a) post l) :
    (presence p).Follows heldAfter HoldsSteadily post l := by
  refine Prog.Follows.lift hp (fun _ _ _ => rfl) fun l a ha => ?_
  exact ha.imp id fun ha => ⟨a, rfl, ha⟩

theorem subscribe_steady (targets : List String) :
    (Presence.subscribe pk targets).Follows held (fun l a => l = none ∨ Steady a)
      (fun l _ => l = none) none := by
  refine ⟨Or.inl rfl, fun _ => ?_⟩
  have heach : (Presence.subscribeEach pk targets).Follows held (fun l a => l = none ∨ Steady a)
      (fun _ _ => True) (some pk) := by
    induction targets with
    | nil => trivial
    | cons t ts ih => exact ⟨Or.inr trivial, fun _ => ⟨Or.inr trivial, fun _ => ih⟩⟩
  change (Presence.subscribeEach pk targets >>= fun _ =>
    Presence.access .release).Follows held _ _ (some pk)
  exact heach.bind fun l _ _ => ⟨Or.inr trivial, fun _ => rfl⟩

theorem unsubscribe_steady (targets : List String) :
    (Presence.unsubscribe pk targets).Follows held (fun l a => l = none ∨ Steady a)
      (fun l _ => l = none) none := by
  refine ⟨Or.inl rfl, fun found => ?_⟩
  cases found with
  | false => exact rfl
  | true =>
    have heach : (Presence.unsubscribeEach pk targets).Follows held
        (fun l a => l = none ∨ Steady a) (fun _ _ => True) (some pk) := by
      induction targets with
      | nil => trivial
      | cons t ts ih =>
        refine ⟨Or.inr trivial, fun _ => ⟨Or.inr trivial, fun emptied => ?_⟩⟩
        cases emptied with
        | true => exact ⟨Or.inr trivial, fun _ => ih⟩
        | false => exact ih
    change (Presence.unsubscribeEach pk targets >>= fun _ =>
      Presence.access .release).Follows held _ _ (some pk)
    exact heach.bind fun l _ _ => ⟨Or.inr trivial, fun _ => rfl⟩

theorem steady_lift {p : Work α}
    (hp : p.Follows heldAfter HoldsSteadily (fun l _ => l = none) none) :
    (ExceptT.lift p : Handler α).run.Follows heldAfter HoldsSteadily (fun l _ => l = none) none :=
  hp.bind fun _ _ hl => hl

theorem onSubscribePresence_steady (peers : List String) (requestId : Option String) :
    (onSubscribePresence t pk peers requestId).Follows heldAfter HoldsSteadily
      (fun l _ => l = none) none := by
  refine (presence_steady (subscribe_steady peers)).bind ?_
  rintro l _ rfl
  refine steady_of_always ((always_metric trivial).bind fun _ => ?_)
  exact report_always (fun _ => trivial) trivial fun _ _ => trivial

/-- A handler holds an entry only while it makes steady accesses, and releases it. -/
theorem dispatch_steady (msg : ClientMessage) :
    (dispatch crates hasDb t pk msg).run.Follows heldAfter HoldsSteadily
      (fun l _ => l = none) none := by
  by_cases htag : msg.tag = "subscribe_presence" ∨ msg.tag = "unsubscribe_presence"
  · cases msg with
    | subscribePresence => exact steady_lift (onSubscribePresence_steady _ _)
    | unsubscribePresence pubkey peers timestamp signature requestId =>
      refine steady_lift ((presence_steady (unsubscribe_steady peers)).bind ?_)
      rintro l _ rfl
      exact steady_of_always (always_metric trivial)
    | _ => simp [ClientMessage.tag] at htag
  · refine steady_of_always ((dispatch_always crates hasDb t pk msg).mono fun o ho => ?_)
    cases o with
    | presence a => exact absurd ho.2 htag
    | _ => trivial

theorem pump_steady (now : UnixTime) (text : String) :
    (pump crates hasDb t now pk text).Follows heldAfter HoldsSteadily (fun l _ => l = none)
      none := by
  have hhandle : (handleClientMessage crates hasDb t now pk text).run.Follows heldAfter
      HoldsSteadily (fun l _ => l = none) none := by
    refine follows_require_bind (fun _ _ => rfl) fun msg _ => ?_
    exact dispatch_steady msg
  refine hhandle.bind ?_
  rintro l x rfl
  cases x with
  | ok u => exact rfl
  | error e => exact steady_of_always ((always_send trivial).bind fun _ => trivial)

theorem locksNothing_of_permitted {c : Phase} {o : Op} (ho : Permitted crates t c o)
    (hc : ∀ pk text now, c ≠ .handling pk text now) : LocksNothing o := by
  cases o with
  | presence a =>
    cases c with
    | registering addr text now =>
      rcases ho with ⟨s, msg, -, -, ho⟩ | ⟨-, code, message, requestId, he⟩
      · cases a <;> trivial
      · cases he
    | handling pk text now => exact absurd rfl (hc pk text now)
    | closing pk => cases a <;> trivial
    | _ => exact ho.elim
  | _ => trivial

/-- Every part of `serve_socket` starts and ends without an entry, and makes steady accesses only
while it holds one. -/
theorem start_steady {c c' : Phase} {i : Input} {p : Work Outcome}
    (hs : start crates hasDb t c i = some (c', p)) :
    p.Follows heldAfter HoldsSteadily (fun l _ => l = none) none := by
  by_cases hc : ∃ pk text now, c' = .handling pk text now
  · obtain ⟨pk, text, now, rfl⟩ := hc
    rw [start_handling hs]
    exact pump_steady now text
  · refine steady_of_always ((start_permitted hs).mono fun o ho => ?_)
    exact locksNothing_of_permitted ho fun pk text now he => hc ⟨pk, text, now, he⟩

end Guards

theorem held_exec {crates : Crates} {t : ℕ} {o : Op} {env : Env} {b b' : Broker} {r : Res o}
    (h : Broker.exec crates t o env b = some (r, b')) (u : ℕ) :
    b'.presence.held.lookup u =
      if u = t then heldAfter (b.presence.held.lookup t) o r else b.presence.held.lookup u := by
  by_cases ho : ∃ a, o = .presence a
  · obtain ⟨a, rfl⟩ := ho
    obtain ⟨pm, hpm, rfl⟩ := Broker.exec_presence h
    change pm.held.lookup u = if u = t then held (b.presence.held.lookup t) a r else _
    cases a with
    | entry s =>
      rw [Presence.PresenceManager.exec_entry hpm]
      exact lookup_insert_ite _ _ _ _
    | getMut s =>
      rcases Presence.PresenceManager.exec_getMut hpm with ⟨rfl, rfl⟩ | ⟨rfl, -, rfl⟩
      · exact lookup_insert_ite _ _ _ _
      · simp only [held, Bool.false_eq_true, if_false]
        split_ifs with hu
        · rw [hu]
        · rfl
    | release =>
      cases hpm
      exact lookup_erase_ite _ _ _
    | _ =>
      rw [PresenceRelation.held_of_locksNone hpm trivial]
      simp only [held]
      split_ifs with hu
      · rw [hu]
      · rfl
  · rw [(Broker.exec_frame h).presence fun a ha => ho ⟨a, ha⟩]
    have hsame : heldAfter (b.presence.held.lookup t) o r = b.presence.held.lookup t := by
      cases o with
      | presence a => exact absurd ⟨a, rfl⟩ ho
      | _ => rfl
    rw [hsame]
    split_ifs with hu
    · rw [hu]
    · rfl

section Runs

variable {crates : Crates} {hasDb : Bool} {db₀ : Db ℕ} {tr : List BrokerEvent} {σ : BrokerConfig}

theorem holder_steady (h : Run (broker crates hasDb) (fresh db₀) tr σ) {t : ℕ} {s : String}
    (hs : σ.shared.presence.held.lookup t = some s) :
    ∃ c a k, σ.tasks t = .running c (.call (.presence a) k) ∧ Steady a := by
  have hf := h.follows (fun t _ b => b.presence.held.lookup t) heldAfter
    (fun _ _ l o => HoldsSteadily l o) (fun _ _ l => l = none) ?_ ?_ ?_ ?_ ?_ ?_
  · cases ht : σ.tasks t with
    | waiting c =>
      have := hf.1 t c ht
      rw [hs] at this
      cases this
    | running c p =>
      obtain ⟨o, k, rfl⟩ := h.running_call (fresh_idle db₀) ht
      rcases (hf.2 t c _ ht).1 with hnone | ⟨a, rfl, ha⟩
      · rw [hs] at hnone
        cases hnone
      · exact ⟨c, a, k, rfl, ha⟩
  · intro t
    exact ⟨.absent, rfl, AList.lookup_empty t⟩
  · intro t c i c' p l hstart hl
    subst hl
    exact start_steady hstart
  · intro t u i tr s
    rfl
  · intro tr σ t c o env r s' _ hx _
    rw [held_exec hx, if_pos rfl]
  · intro t u o env tr b r b' hx hu
    rw [held_exec hx, if_neg hu]
  · intro x tr b b' hx t
    obtain ⟨channels, rfl⟩ := Broker.writerStep_frame hx
    rfl

end Runs

/-! ## Quotas that have been entered -/

def entered (l : Option String) : (o : Op) → Res o → Option String
  | .relay (.quotaEntry pk), _ => some pk
  | _, _ => l

def PaysEntered (l : Option String) (o : Op) : Prop :=
  ∀ pk bytes, o = .relay (.consume pk bytes) → l = some pk

def Unpaid : Op → Prop
  | .relay (.consume _ _) => False
  | _ => True

section Payments

variable {α : Type} {crates : Crates} {hasDb : Bool} {t : ℕ} {pk : String} {l : Option String}

theorem pays_of_unpaid {p : Work α} (hp : p.Always Unpaid) :
    p.Follows entered PaysEntered (fun _ _ => True) l :=
  hp.follows_any (fun _ _ ho pk bytes he => (he ▸ ho : Unpaid (.relay (.consume pk bytes))).elim)
    fun _ _ => trivial

theorem unpaid_of_footprint {msg : ClientMessage} {o : Op} (hmsg : msg.tag ≠ "relay")
    (ho : Footprint t msg o) : Unpaid o := by
  cases o with
  | relay a =>
    cases a with
    | consume pk' bytes => cases msg <;> first | exact absurd rfl hmsg | exact ho.elim
    | _ => trivial
  | _ => trivial

theorem forward_pays (id : Uuid) (data : String) :
    (forward crates pk id data).run.Follows entered PaysEntered (fun _ _ => True) l := by
  refine follows_lift_bind ⟨nofun, fun found => ?_⟩
  refine follows_orElse_bind (fun _ => trivial) fun session _ => ?_
  refine follows_require_bind (fun _ _ => trivial) fun other _ => ?_
  refine follows_require_bind (fun _ _ => trivial) fun len _ => ?_
  refine follows_require_bind (fun _ _ => trivial) fun _ _ => ?_
  refine follows_attempt_bind ⟨nofun, fun _ => ⟨?_, fun paid => ?_⟩⟩
  · rintro pk' bytes ⟨⟩
    rfl
  · cases paid with
    | error e => trivial
    | ok u =>
      refine pays_of_unpaid (always_lift_bind (get_always other trivial) fun peer => ?_)
      exact always_orElse_bind fun recipient _ => always_trySend_bind trivial fun _ => trivial

theorem dispatch_pays (msg : ClientMessage) :
    (dispatch crates hasDb t pk msg).run.Follows entered PaysEntered (fun _ _ => True) l := by
  by_cases hmsg : msg.tag = "relay"
  · cases msg with
    | relay pubkey sessionId data timestamp signature =>
      refine follows_require_bind (fun _ _ => trivial) fun id _ => ?_
      refine follows_bind ((forward_pays id data).mono fun l x _ => ?_)
      cases x with
      | ok len => exact pays_of_unpaid (always_lift (always_metric trivial))
      | error e => trivial
    | _ => simp [ClientMessage.tag] at hmsg
  · exact pays_of_unpaid ((dispatch_footprint msg).mono fun _ ho => unpaid_of_footprint hmsg ho)

theorem pump_pays (now : UnixTime) (text : String) :
    (pump crates hasDb t now pk text).Follows entered PaysEntered (fun _ _ => True) l := by
  have hhandle : (handleClientMessage crates hasDb t now pk text).run.Follows entered PaysEntered
      (fun _ _ => True) l :=
    follows_require_bind (fun _ _ => trivial) fun msg _ => dispatch_pays msg
  refine hhandle.bind fun l x _ => ?_
  cases x with
  | ok u => trivial
  | error e => exact pays_of_unpaid ((always_send trivial).bind fun _ => trivial)

theorem start_pays {c c' : Phase} {i : Input} {p : Work Outcome}
    (hs : start crates hasDb t c i = some (c', p)) :
    p.Follows entered PaysEntered (fun _ _ => True) l := by
  by_cases hc : ∃ pk text now, c' = .handling pk text now
  · obtain ⟨pk, text, now, rfl⟩ := hc
    rw [start_handling hs]
    exact pump_pays now text
  · refine pays_of_unpaid ((start_permitted hs).mono fun o ho => ?_)
    cases c' with
    | registering addr text now =>
      rcases ho with ⟨s, msg, -, -, ho⟩ | ⟨-, code, message, requestId, rfl⟩
      · cases o with
        | relay a => exact ho.elim
        | _ => trivial
      · trivial
    | handling pk text now => exact absurd ⟨pk, text, now, rfl⟩ hc
    | closing pk =>
      cases o with
      | relay a => cases a <;> trivial
      | _ => trivial
    | _ => exact ho.elim

end Payments

theorem quota_exec {crates : Crates} {t : ℕ} {o : Op} {env : Env} {b b' : Broker} {r : Res o}
    {pk : String} (h : Broker.exec crates t o env b = some (r, b'))
    (hq : (b.relay.quotas.lookup pk).isSome) : (b'.relay.quotas.lookup pk).isSome := by
  rcases Broker.relay_of_exec h with heq | ⟨a, x, rfl, hx⟩
  · rwa [heq]
  · rcases Relay.RelayManager.quotas_exec hx with heq | ⟨pk', q, -, heq⟩
    · rwa [heq]
    · rw [heq, lookup_insert_ite]
      split_ifs
      · rfl
      · exact hq

theorem quotaEntry_exec {crates : Crates} {t : ℕ} {env : Env} {b b' : Broker} {pk : String}
    {r : Unit} (h : Broker.exec crates t (.relay (.quotaEntry pk)) env b = some (r, b')) :
    (b'.relay.quotas.lookup pk).isSome := by
  obtain ⟨rm, hrm, rfl⟩ := Broker.exec_relay h
  change (rm.quotas.lookup pk).isSome
  simp only [Relay.RelayManager.exec] at hrm
  split at hrm
  · rename_i q hq
    cases hrm
    rw [hq]
    rfl
  · cases hrm
    rw [lookup_insert_ite, if_pos rfl]
    rfl

theorem quota_found {crates : Crates} {hasDb : Bool} {db₀ : Db ℕ} {tr : List BrokerEvent}
    {σ : BrokerConfig} (h : Run (broker crates hasDb) (fresh db₀) tr σ) {t : ℕ} {c : Phase}
    {pk : String} {bytes : ℕ} {k : Res (.relay (.consume pk bytes)) → Work Outcome}
    (ht : σ.tasks t = .running c (.call (.relay (.consume pk bytes)) k)) :
    (σ.shared.relay.quotas.lookup pk).isSome := by
  have hrely := h.guarded.relyGuarantee entered (fun _ l o => PaysEntered l o)
    (fun _ _ l b => ∀ pk, l = some pk → (b.relay.quotas.lookup pk).isSome) (fun _ => True)
    (fresh_idle db₀) trivial ?_ ?_ ?_ ?_
  · obtain ⟨l, hfollows, hfact⟩ := hrely.2 t c _ ht
    exact hfact pk (hfollows.1 pk bytes rfl)
  · intro t c i c' p b hs _
    exact ⟨none, start_pays hs, nofun⟩
  · intro tr σ t c l o k env r b' _ _ hx _ hfact _
    refine ⟨trivial, fun pk hpk => ?_⟩
    have hkeep : entered l o r = l → (b'.relay.quotas.lookup pk).isSome :=
      fun heq => quota_exec hx (hfact pk (heq ▸ hpk))
    cases o with
    | relay a =>
      cases a with
      | quotaEntry pk' =>
        cases hpk
        have hx' : Broker.exec crates t (.relay (.quotaEntry pk)) env σ.shared = some (r, b') := hx
        exact quotaEntry_exec hx'
      | _ => exact hkeep rfl
    | _ => exact hkeep rfl
  · intro t u o env b r b' c l hx _ hfact pk hpk
    exact quota_exec hx (hfact pk hpk)
  · intro x b b' hx
    obtain ⟨channels, rfl⟩ := Broker.writerStep_frame hx
    exact ⟨id, fun _ _ _ hfact => hfact⟩

/-! ## Transactions that have written -/

/-- The transaction, if there is one, has written nothing. -/
def Clean (l : Option Transaction) : Prop := l = none ∨ l = some ⟨[], []⟩

/-- The writes come in order, and once there is one only the writes and the commit follow. -/
def PromptStatement (l : Option Transaction) (s : Statement) : Prop :=
  HandleClaims.InOrder l s ∧
    (Clean l ∨ (∃ handle pubkey, s = .updatePeerHandle handle pubkey) ∨ s = .commit)

def Prompt (l : Option Transaction) : Op → Prop
  | .query s => PromptStatement l s
  | _ => Clean l

section Transactions

variable {α : Type} {crates : Crates} {hasDb : Bool} {t : ℕ} {pk : String}

theorem prompt_execute_bind {s : Statement} {f : s.Rows → Query α} {l : Option Transaction}
    (hs : PromptStatement l s)
    (hf : ∀ rows, (f rows).run.Follows HandleClaims.next PromptStatement (fun l _ => l = none)
      (HandleClaims.next l s (.ok rows))) :
    (execute s >>= f).run.Follows HandleClaims.next PromptStatement (fun l _ => l = none) l :=
  follows_execute_bind hs (fun e => HandleClaims.next_error l s e) hf

theorem claim_prompt (handle : String) :
    (Handles.claim crates pk handle).run.Follows HandleClaims.next PromptStatement
      (fun l _ => l = none) none := by
  have hnone : Clean none := Or.inl rfl
  have hempty : Clean (some ⟨[], []⟩) := Or.inr rfl
  simp only [Handles.claim, upsertPeer, claimHandle]
  refine follows_check_bind (fun _ => rfl) fun _ _ => ?_
  refine prompt_execute_bind ⟨trivial, Or.inl hnone⟩ fun _ => ?_
  refine prompt_execute_bind ⟨trivial, Or.inl hnone⟩ fun _ => ?_
  refine prompt_execute_bind ⟨trivial, Or.inl hempty⟩ fun existing => ?_
  cases existing with
  | some h =>
    refine prompt_execute_bind ⟨trivial, Or.inl hempty⟩ fun _ => ?_
    split_ifs
    · exact rfl
    · exact rfl
  | none =>
    refine prompt_execute_bind ⟨trivial, Or.inl hempty⟩ fun owner => ?_
    cases owner with
    | some pk => exact prompt_execute_bind ⟨trivial, Or.inl hempty⟩ fun _ => rfl
    | none =>
      refine prompt_execute_bind ⟨rfl, Or.inl hempty⟩ fun _ => ?_
      refine prompt_execute_bind ⟨rfl, Or.inr (Or.inl ⟨handle, pk, rfl⟩)⟩ fun _ => ?_
      refine ⟨⟨⟨handle, pk, rfl⟩, Or.inr (Or.inr rfl)⟩, fun r => ?_⟩
      cases r <;> rfl

theorem prompt_of_uncontrolled {o : Op} (ho : SessionTransactions.Uncontrolled o) :
    Prompt none o ∧ ∀ r, SessionTransactions.next none o r = none := by
  refine ⟨?_, (SessionTransactions.none_of_uncontrolled ho "").2⟩
  cases o with
  | query s =>
    refine ⟨?_, Or.inl (Or.inl rfl)⟩
    cases s <;> trivial
  | _ => exact Or.inl rfl

theorem prompt_of_always {p : Work α} (hp : p.Always SessionTransactions.Uncontrolled) :
    p.Follows SessionTransactions.next Prompt (fun l _ => l = none) none :=
  hp.follows (fun _ ho => prompt_of_uncontrolled ho) fun _ => rfl

theorem claimRequested_prompt (handle : String) :
    (claimRequested crates pk handle).Follows SessionTransactions.next Prompt
      (fun l _ => l = none) none := by
  have hclaim : (query (Handles.claim crates pk handle)).Follows SessionTransactions.next Prompt
      (fun l _ => l = none) none :=
    Prog.Follows.lift (claim_prompt handle) (fun _ _ _ => rfl) fun _ _ h => h
  refine hclaim.bind ?_
  rintro l x rfl
  apply prompt_of_always
  split <;> exact (always_metric trivial).bind fun _ => trivial

theorem recordPeer_prompt (handle : Option String) (kind : IdentityKind)
    (requestId : Option String) :
    (recordPeer crates hasDb t pk handle kind requestId).Follows SessionTransactions.next Prompt
      (fun l _ => l = none) none := by
  cases hasDb with
  | false =>
    apply prompt_of_always
    cases handle with
    | some h => exact (always_send trivial).bind fun _ => trivial
    | none => trivial
  | true =>
    have hupsert : (query (upsertPeerWithKind pk kind.asStr)).Always
        SessionTransactions.Uncontrolled := Prog.Always.lift ⟨rfl, fun _ => trivial⟩
    refine (prompt_of_always hupsert).bind ?_
    rintro l x rfl
    cases handle with
    | some h => exact claimRequested_prompt h
    | none => exact rfl

theorem enter_prompt (addr : Registry.SocketAddr) (handle : Option String)
    (addresses : PeerAddresses) (kind : Option IdentityKind) (requestId : Option String) :
    (enter crates hasDb t addr pk handle addresses kind requestId).Follows
      SessionTransactions.next Prompt (fun l _ => l = none) none := by
  refine (recordPeer_prompt handle _ requestId).bind ?_
  rintro l claimed rfl
  apply prompt_of_always
  refine (insert_always _ (fun _ => trivial) trivial).bind fun _ => ?_
  refine (always_metric trivial).bind fun _ => (always_metric trivial).bind fun _ => ?_
  refine (always_send trivial).bind fun _ => ?_
  exact (broadcast_always pk true trivial (fun _ => trivial) fun _ => trivial).bind fun _ => trivial

theorem start_prompt {c c' : Phase} {i : Input} {p : Work Outcome}
    (hs : start crates hasDb t c i = some (c', p)) :
    p.Follows SessionTransactions.next Prompt (fun l _ => l = none) none := by
  by_cases hc : ∃ addr text now, c' = .registering addr text now
  · obtain ⟨addr, text, now, rfl⟩ := hc
    rw [start_registering hs]
    rcases register_cases crates hasDb t now addr text with
      ⟨s, pk, handle, addresses, kind, timestamp, signature, requestId, -, -, heq⟩ |
        ⟨msg, hmsg, heq, -⟩
    · rw [heq]
      exact enter_prompt addr handle addresses kind requestId
    · rw [heq]
      refine prompt_of_always ((reject_always t hmsg).mono ?_)
      rintro o ⟨code, message, requestId, rfl⟩
      trivial
  · refine prompt_of_always ((start_permitted hs).mono fun o ho => ?_)
    exact SessionTransactions.uncontrolled_of_permitted ho
      fun addr text now he => hc ⟨addr, text, now, he⟩

end Transactions

section Writers

variable {crates : Crates} {hasDb : Bool} {db₀ : Db ℕ} {tr : List BrokerEvent} {σ : BrokerConfig}

theorem writer_prompt (h : Run (broker crates hasDb) (fresh db₀) tr σ) {t : ℕ} {txn : Transaction}
    (hl : σ.shared.db.transactions.lookup t = some txn) (hw : txn ≠ ⟨[], []⟩) :
    ∃ c s k, σ.tasks t = .running c (.call (.query s) k) ∧
      ((∃ handle pk, s = .updatePeerHandle handle pk ∧ txn = ⟨[⟨handle, pk⟩], []⟩) ∨
        s = .commit) := by
  have hf := SessionTransactions.follows_transactions h (fun _ => Prompt)
    (fun _ _ _ hok => hok.1) fun t c i c' p hs => start_prompt hs
  cases ht : σ.tasks t with
  | waiting c =>
    have hnone := hf.1 t c ht
    rw [hl] at hnone
    cases hnone
  | running c p =>
    obtain ⟨o, k, rfl⟩ := h.running_call (fresh_idle db₀) ht
    have hprompt := (hf.2 t c _ ht).1
    rw [hl] at hprompt
    have hdirty : ¬ Clean (some txn) := by
      rintro (he | he)
      · cases he
      · exact hw (Option.some.inj he)
    cases o with
    | query s =>
      refine ⟨c, s, k, rfl, ?_⟩
      rcases hprompt with ⟨hord, hclean | ⟨handle, pk, rfl⟩ | rfl⟩
      · exact absurd hclean hdirty
      · exact Or.inl ⟨handle, pk, rfl, Option.some.inj hord⟩
      · exact Or.inr rfl
    | _ => exact absurd hprompt hdirty

/-- Two open transactions have inserted no row of the same handle. -/
def Apart (db : Db ℕ) : Prop :=
  ∀ u v txn txn', u ≠ v → db.transactions.lookup u = some txn →
    db.transactions.lookup v = some txn' → ∀ row ∈ txn.handles, ∀ row' ∈ txn'.handles,
      row.handle ≠ row'.handle

theorem apart_of_own {db db' : Db ℕ} {t : ℕ} (h : Apart db)
    (hother : ∀ u, u ≠ t → db'.transactions.lookup u = db.transactions.lookup u)
    (hown : ∀ txn, db'.transactions.lookup t = some txn → ∀ row ∈ txn.handles,
      (∃ old, db.transactions.lookup t = some old ∧ row ∈ old.handles) ∨
        ∀ u txn', u ≠ t → db.transactions.lookup u = some txn' → ∀ row' ∈ txn'.handles,
          row'.handle ≠ row.handle) : Apart db' := by
  have hmine : ∀ u txn txn', u ≠ t → db'.transactions.lookup t = some txn →
      db'.transactions.lookup u = some txn' → ∀ row ∈ txn.handles, ∀ row' ∈ txn'.handles,
        row.handle ≠ row'.handle := by
    intro u txn txn' hu ht hlu row hrow row' hrow'
    rw [hother u hu] at hlu
    rcases hown txn ht row hrow with ⟨old, hold, hmem⟩ | hnew
    · exact h t u old txn' (Ne.symm hu) hold hlu row hmem row' hrow'
    · exact (hnew u txn' hu hlu row' hrow').symm
  intro u v txn txn' huv hu hv row hrow row' hrow'
  by_cases hut : u = t
  · subst hut
    exact hmine v txn txn' (Ne.symm huv) hu hv row hrow row' hrow'
  · by_cases hvt : v = t
    · subst hvt
      exact (hmine u txn' txn hut hv hu row' hrow' row hrow).symm
    · rw [hother u hut] at hu
      rw [hother v hvt] at hv
      exact h u v txn txn' huv hu hv row hrow row' hrow'

theorem apart_exec {db db' : Db ℕ} {t : ℕ} {s : Statement} {env : Database.Env} {r : Answer s}
    (h : Apart db) (hx : db.exec t s env = some (r, db')) : Apart db' := by
  refine apart_of_own h (fun u hu => HandleClaims.exec_other hx hu) fun txn ht row hrow => ?_
  -- the rows of the task are its old ones, but for the one just inserted
  have hown : ∀ row ∈ (db.ownWrites t).handles,
      ∃ old, db.transactions.lookup t = some old ∧ row ∈ old.handles := by
    intro row hrow
    unfold Db.ownWrites at hrow
    cases hl : db.transactions.lookup t with
    | none => simp [hl] at hrow
    | some old => exact ⟨old, rfl, by simpa [hl] using hrow⟩
  have hnone : ∀ {db : Db ℕ}, (db.abort t).transactions.lookup t ≠ some txn := by
    intro db habort
    rw [Db.abort, lookup_erase_ite, if_pos rfl] at habort
    cases habort
  have hset : ∀ {w : Transaction}, (db.setWrites t w).transactions.lookup t = some txn →
      txn = w := by
    intro w hw
    rw [Db.setWrites, lookup_insert_ite, if_pos rfl] at hw
    exact (Option.some.inj hw).symm
  rcases Db.exec_cases hx with ⟨e, -, rfl⟩ | ⟨rows, -, hwaits, hr⟩
  · exact absurd ht hnone
  · rcases Db.run_cases hr with ⟨-, pk, kind, rfl⟩ | ⟨-, teams, members, rfl⟩ | ⟨rfl, rfl⟩ |
      ⟨handle, pk, rfl, -, -, rfl⟩ | ⟨handle, pk, -, ⟨-, rfl⟩ | ⟨-, rfl⟩⟩ | ⟨rfl, rfl⟩ | ⟨rfl, rfl⟩
    · exact Or.inl ⟨txn, ht, hrow⟩
    · exact Or.inl ⟨txn, ht, hrow⟩
    · rw [hset ht] at hrow
      cases hrow
    · rw [hset ht] at hrow
      rcases List.mem_append.mp hrow with hrow | hrow
      · exact Or.inl (hown row hrow)
      · obtain rfl := List.mem_singleton.mp hrow
        refine Or.inr fun u txn' hu hl row' hrow' => ?_
        have htest := Db.heldByOther_eq_false.mp hwaits u txn' hu hl
        simp only [Bool.or_eq_false_iff, List.any_eq_false, decide_eq_true_eq] at htest
        exact htest.1 row' hrow'
    · rw [hset ht] at hrow
      exact Or.inl (hown row hrow)
    · exact Or.inl ⟨txn, ht, hrow⟩
    · exact absurd ht hnone
    · exact absurd ht hnone

theorem apart_of_run (h : Run (broker crates hasDb) (fresh db₀) tr σ) : Apart σ.shared.db := by
  refine SessionTransactions.database_of_run h ?_ fun hapart hx => apart_exec hapart hx
  intro u v txn txn' _ hu
  cases hu

end Writers

/-! ## What can be done -/

/-- An environment in which the database does not fail. -/
def calmEnv (order : List String) (sessionOrder : List Uuid) : Env :=
  ⟨none, 0, 0, order, sessionOrder, 0, 0, 0⟩

theorem steady_possible (pm : Presence.PresenceManager) (t : ℕ) {a : Presence.Access}
    (ha : Steady a) : ∃ r pm', pm.exec t [] a = some (r, pm') := by
  cases a with
  | unwatch x s =>
    cases hl : pm.watchers.lookup x <;> simp [Presence.PresenceManager.exec, hl]
  | insert s x => exact ⟨_, _, rfl⟩
  | remove s x => exact ⟨_, _, rfl⟩
  | watch x s => exact ⟨_, _, rfl⟩
  | dropWatchers x => exact ⟨_, _, rfl⟩
  | release => exact ⟨_, _, rfl⟩
  | _ => exact ha.elim

theorem relay_possible (rm : Relay.RelayManager) (a : Relay.Access)
    (hquota : ∀ pk bytes, a = .consume pk bytes → (rm.quotas.lookup pk).isSome) :
    ∃ order r rm', rm.exec (calmEnv [] order).relay a = some (r, rm') := by
  cases a with
  | promote id responder =>
    cases hs : rm.sessions.lookup id with
    | none => simp [Relay.RelayManager.exec, hs]
    | some s => cases ha : s.accept responder <;> simp [Relay.RelayManager.exec, hs, ha]
  | stale pk =>
    exact ⟨rm.sessionsOf pk, by simp [Relay.RelayManager.exec, calmEnv, Env.relay]⟩
  | quotaEntry pk =>
    cases hq : rm.quotas.lookup pk <;> simp [Relay.RelayManager.exec, hq]
  | consume pk bytes =>
    obtain ⟨q, hq⟩ := Option.isSome_iff_exists.mp (hquota pk bytes rfl)
    simp [Relay.RelayManager.exec, hq]
  | insertSession initiator responder => exact ⟨[], _, _, rfl⟩
  | getSession id => exact ⟨[], _, _, rfl⟩
  | removeSession id => exact ⟨[], _, _, rfl⟩

theorem statement_possible {db : Db ℕ} {t : ℕ} {s : Statement} (hwaits : db.waits t s = false) :
    ∃ r db', db.exec t s (calmEnv [] []).database = some (r, db') := by
  simp only [Db.exec, calmEnv, Env.database, hwaits, Bool.false_eq_true, if_false]
  split
  · exact ⟨_, _, rfl⟩
  · exact ⟨_, _, rfl⟩

/-- Where no entry is held, an operation waits for a transaction or a full channel at most. -/
theorem possible {crates : Crates} {b : Broker} {t : ℕ} {o : Op}
    (hheld : PresenceRelation.Unlocked b.presence.held)
    (hquota : ∀ pk bytes, o = .relay (.consume pk bytes) → (b.relay.quotas.lookup pk).isSome)
    (hwaits : ∀ s, o = .query s → b.db.waits t s = false)
    (hfull : ∀ c msg, o = .send c msg → (b.channels c).queued = 0) :
    ∃ env r b', env.fault = none ∧ Broker.exec crates t o env b = some (r, b') := by
  cases o with
  | query s =>
    obtain ⟨r, db, hdb⟩ := statement_possible (hwaits s rfl)
    exact ⟨calmEnv [] [], r, b.withDb db, rfl, by simp [Broker.exec, hdb]⟩
  | registry a => exact ⟨calmEnv [] [], _, _, rfl, rfl⟩
  | presence a =>
    obtain ⟨order, r, pm, hpm⟩ := PresenceRelation.exec_total (hheld.lockedOnlyBy (t := t)) a
    exact ⟨calmEnv order [], r, b.withPresence pm, rfl, by simp [Broker.exec, calmEnv, hpm]⟩
  | relay a =>
    obtain ⟨order, r, rm, hrm⟩ := relay_possible b.relay a fun pk bytes ha =>
      hquota pk bytes (congrArg Op.relay ha)
    exact ⟨calmEnv [] order, r, b.withRelay rm, rfl, by simp [Broker.exec, hrm]⟩
  | signaling a => exact ⟨calmEnv [] [], _, _, rfl, rfl⟩
  | clock => exact ⟨calmEnv [] [], _, _, rfl, rfl⟩
  | send c msg =>
    have hq := hfull c msg rfl
    refine ⟨calmEnv [] [], ?_⟩
    cases hclosed : (b.channels c).closed <;>
      simp [Broker.exec, Channel.send, hclosed, hq, Channel.capacity, calmEnv]
  | metric u => exact ⟨calmEnv [] [], _, _, rfl, rfl⟩

section Progress

variable {crates : Crates} {hasDb : Bool} {db₀ : Db ℕ} {tr : List BrokerEvent} {σ : BrokerConfig}

abbrev BrokerAction := Action ℕ Env Input Broker.WriterEvent

/-- What goes on without a new input, an ended writer or a failure of the database. -/
def Calm (_ : BrokerConfig) : BrokerAction → Prop
  | .perform _ env => env.fault = none
  | .disturb (.drained _) => True
  | _ => False

/-- The task's next statement waits for the transaction of another. -/
def WaitsForRow (σ : BrokerConfig) (t : ℕ) : Prop :=
  ∃ c s k, σ.tasks t = .running c (.call (.query s) k) ∧ σ.shared.db.waits t s = true

/-- As before, but the database may end a transaction that waits for another. -/
def Yielding (σ : BrokerConfig) : BrokerAction → Prop
  | .perform t env => env.fault = none ∨ WaitsForRow σ t
  | .disturb (.drained _) => True
  | _ => False

/-- Everything that goes on without a new input or an ended writer, whatever the database does. -/
def Internal (_ : BrokerConfig) : BrokerAction → Prop
  | .perform _ _ => True
  | .disturb (.drained _) => True
  | _ => False

/-- A registration of the key that has inserted the handle and is about to set it at the peer. -/
def Claims (crates : Crates) (σ : BrokerConfig) (t : ℕ) (pk handle : String) : Prop :=
  ∃ c k, σ.tasks t = .running c (.call (.query (.updatePeerHandle handle pk)) k) ∧
    SessionTransactions.Acting crates c pk ∧
    σ.shared.db.transactions.lookup t = some ⟨[⟨handle, pk⟩], []⟩

theorem act_drained {c : ℕ} (hq : 0 < (σ.shared.channels c).queued) :
    act (broker crates hasDb) σ (.disturb (.drained c)) =
      some (.disturbed (.drained c), ⟨σ.shared.withChannel c { σ.shared.channels c with
        queued := (σ.shared.channels c).queued - 1 }, σ.tasks⟩) := by
  have hx : (broker crates hasDb).disturb (.drained c) σ.shared =
      some (σ.shared.withChannel c { σ.shared.channels c with
        queued := (σ.shared.channels c).queued - 1 }) := if_pos hq
  simp only [act, hx, Option.map_some]

/-- Where nothing calm can be done, no entry is held, and every running task waits for a row. -/
theorem stuck_waits (h : Run (broker crates hasDb) (fresh db₀) tr σ)
    (hstuck : ∀ σ', ¬ Continues (broker crates hasDb) Calm σ' σ) {t : ℕ} (ht : t ∈ running σ) :
    WaitsForRow σ t := by
  have hno : ∀ {t c o k env r b}, σ.tasks t = .running c (.call o k) → env.fault = none →
      Broker.exec crates t o env σ.shared ≠ some (r, b) :=
    fun ht henv hx => hstuck _ ⟨.perform _ _, _, henv, act_perform ht hx⟩
  have hheld : PresenceRelation.Unlocked σ.shared.presence.held := by
    intro u
    cases hs : σ.shared.presence.held.lookup u with
    | none => rfl
    | some s =>
      obtain ⟨c, a, k, hu, ha⟩ := holder_steady h hs
      obtain ⟨r, pm, hpm⟩ := steady_possible σ.shared.presence u ha
      have hx : Broker.exec crates u (.presence a) (calmEnv [] []) σ.shared =
          some (r, σ.shared.withPresence pm) := by
        simp [Broker.exec, calmEnv, hpm]
      exact absurd hx (hno hu rfl)
  have hempty : ∀ c, (σ.shared.channels c).queued = 0 := by
    intro c
    by_contra hq
    exact hstuck _ ⟨.disturb (.drained c), _, trivial, act_drained (Nat.pos_of_ne_zero hq)⟩
  obtain ⟨c, p, ht⟩ := ht
  obtain ⟨o, k, rfl⟩ := h.running_call (fresh_idle db₀) ht
  by_contra hfree
  have hpossible : ∃ env r b, env.fault = none ∧
      Broker.exec crates t o env σ.shared = some (r, b) := by
    apply possible hheld
    · rintro pk bytes rfl
      exact quota_found h ht
    · rintro s rfl
      cases hw : σ.shared.db.waits t s with
      | false => rfl
      | true => exact absurd ⟨c, s, k, ht, hw⟩ hfree
    · exact fun c _ _ => hempty c
  obtain ⟨env, r, b, henv, hx⟩ := hpossible
  exact hno ht henv hx

/-- Who is waited for has written; an update waits for a row of its key, or for another update. -/
theorem blocker {db : Db ℕ} {t : ℕ} {s : Statement} (hw : db.waits t s = true) :
    ∃ u txn, u ≠ t ∧ db.transactions.lookup u = some txn ∧ txn ≠ ⟨[], []⟩ ∧
      ∀ handle pk, s = .updatePeerHandle handle pk →
        (∃ row ∈ txn.handles, row.pubkey = pk) ∨ txn.peers ≠ [] := by
  have hblock : ∀ {test : Transaction → Bool}, db.heldByOther t test = true →
      ∃ u txn, u ≠ t ∧ db.transactions.lookup u = some txn ∧ test txn = true := by
    intro test htest
    by_contra hno
    have hfree : db.heldByOther t test = false := by
      refine Db.heldByOther_eq_false.mpr fun u txn hu hl => ?_
      by_contra htxn
      exact hno ⟨u, txn, hu, hl, by simpa using htxn⟩
    rw [htest] at hfree
    cases hfree
  cases s with
  | updatePeerHandle handle pk =>
    obtain ⟨u, txn, hu, hl, htest⟩ := hblock hw
    simp only [Bool.or_eq_true, List.any_eq_true, decide_eq_true_eq] at htest
    refine ⟨u, txn, hu, hl, ?_, ?_⟩
    · rintro rfl
      simp at htest
    · rintro handle' pk' ⟨⟩
      rcases htest with hrow | ⟨p, hp, -⟩
      · exact Or.inl hrow
      · exact Or.inr (List.ne_nil_of_mem hp)
  | upsertPeer pk =>
    obtain ⟨u, txn, hu, hl, htest⟩ := hblock hw
    refine ⟨u, txn, hu, hl, ?_, nofun⟩
    rintro rfl
    simp at htest
  | upsertPeerWithKind pk kind =>
    obtain ⟨u, txn, hu, hl, htest⟩ := hblock hw
    refine ⟨u, txn, hu, hl, ?_, nofun⟩
    rintro rfl
    simp at htest
  | insertHandle handle pk =>
    obtain ⟨u, txn, hu, hl, htest⟩ := hblock hw
    refine ⟨u, txn, hu, hl, ?_, nofun⟩
    rintro rfl
    simp at htest
  | _ => cases hw

/-- A transaction that is waited for, and cannot go on, is one of a claim waiting at its update. -/
theorem stuck_writer (h : Run (broker crates hasDb) (fresh db₀) tr σ)
    (hstuck : ∀ σ', ¬ Continues (broker crates hasDb) Calm σ' σ) {t : ℕ} {txn : Transaction}
    (hl : σ.shared.db.transactions.lookup t = some txn) (hw : txn ≠ ⟨[], []⟩) :
    ∃ pk handle, Claims crates σ t pk handle ∧ txn = ⟨[⟨handle, pk⟩], []⟩ ∧
      σ.shared.db.waits t (.updatePeerHandle handle pk) = true := by
  obtain ⟨c, s, k, ht, hs⟩ := writer_prompt h hl hw
  obtain ⟨c', s', k', ht', hwaits⟩ := stuck_waits h hstuck ⟨c, _, ht⟩
  rw [ht] at ht'
  cases ht'
  rcases hs with ⟨handle, pk, rfl, rfl⟩ | rfl
  · obtain ⟨pk', hacting, hord⟩ := SessionTransactions.statement_in_order h ht
    exact ⟨pk, handle, ⟨c, k, ht, hord.1 ▸ hacting, hl⟩, rfl, hwaits⟩
  · cases hwaits

/-- Without a new input, the broker goes on until all tasks wait for their next frame, or until two
registrations of one key wait for each other, each having inserted a handle of its own. -/
theorem stuck_at_one_key (h : Run (broker crates hasDb) (fresh db₀) tr σ) :
    (∃ σ', Continues (broker crates hasDb) Calm σ' σ) ∨ Idle σ ∨
      ∃ t u pk handle handle', t ≠ u ∧ handle ≠ handle' ∧ Claims crates σ t pk handle ∧
        Claims crates σ u pk handle' := by
  by_cases hstuck : ∃ σ', Continues (broker crates hasDb) Calm σ' σ
  · exact Or.inl hstuck
  rw [not_exists] at hstuck
  by_cases hrunning : ∃ t, t ∈ running σ
  · obtain ⟨t, ht⟩ := hrunning
    obtain ⟨c, s, k, -, hwaits⟩ := stuck_waits h hstuck ht
    obtain ⟨u, txn, -, hl, hw, -⟩ := blocker hwaits
    obtain ⟨pk, handle, hclaims, rfl, hwaits⟩ := stuck_writer h hstuck hl hw
    obtain ⟨v, txn', hv, hl', hw', hrow⟩ := blocker hwaits
    obtain ⟨pk', handle', hclaims', rfl, -⟩ := stuck_writer h hstuck hl' hw'
    have hpk : pk' = pk := by simpa using hrow handle pk rfl
    subst hpk
    have happart := apart_of_run h u v _ _ (Ne.symm hv) hl hl'
    exact Or.inr (Or.inr ⟨u, v, pk', handle, handle', Ne.symm hv, by simpa using happart,
      hclaims, hclaims'⟩)
  · refine Or.inr (Or.inl fun t => ?_)
    cases ht : σ.tasks t with
    | waiting c => exact ⟨c, rfl⟩
    | running c p => exact absurd ⟨t, c, p, ht⟩ hrunning

theorem Yielding.internal {σ' : BrokerConfig} (h : Continues (broker crates hasDb) Yielding σ' σ) :
    Continues (broker crates hasDb) Internal σ' σ := by
  obtain ⟨a, e, ha, hact⟩ := h
  refine ⟨a, e, ?_, hact⟩
  cases a with
  | input t i => exact ha
  | perform t env => trivial
  | disturb x =>
    cases x with
    | drained c => trivial
    | ended c => exact ha.elim

/-- Without new inputs everything the broker does comes to an end, however often the database fails;
and it can end with all tasks at rest, when the database only ends a transaction that waits for
another. -/
theorem comes_to_rest (h : Run (broker crates hasDb) (fresh db₀) tr σ) :
    Acc (Continues (broker crates hasDb) Internal) σ ∧
      ∃ tr' σ', Run (broker crates hasDb) (fresh db₀) (tr' ++ tr) σ' ∧ Idle σ' ∧
        Relation.ReflTransGen (Function.swap (Continues (broker crates hasDb) Yielding)) σ σ' ∧
        ∀ e ∈ tr', ∀ t i, e ≠ .input t i := by
  have hacc : Acc (Continues (broker crates hasDb) Internal) σ := by
    refine h.acc_continues (D := Drains) (fresh_idle db₀) (fun _ _ _ => id) ?_ ?_
    · intro σ x b hx hdisturb
      cases x with
      | drained c => exact ⟨c, hdisturb⟩
      | ended c => exact hx.elim
    · intro tr σ hrun
      obtain ⟨F, hF⟩ := finite_queued hrun
      exact acc_drains F hF
  have hyielding : Acc (Continues (broker crates hasDb) Yielding) σ :=
    Subrelation.accessible Yielding.internal hacc
  refine ⟨hacc, ?_⟩
  obtain ⟨tr', σ', hrun, hreach, hend, hinputs⟩ := h.ends (fun _ _ _ => id) hyielding
  refine ⟨tr', σ', hrun, fun t => ?_, hreach, hinputs⟩
  have hstuck : ∀ σ'', ¬ Continues (broker crates hasDb) Calm σ'' σ' := by
    rintro σ'' ⟨a, e, ha, hact⟩
    refine hend σ'' ⟨a, e, ?_, hact⟩
    cases a with
    | input t i => exact ha
    | perform t env => exact Or.inl ha
    | disturb x =>
      cases x with
      | drained c => exact ha
      | ended c => exact ha.elim
  cases ht : σ'.tasks t with
  | waiting c => exact ⟨c, rfl⟩
  | running c p =>
    -- a task that waits for a row can still be refused it
    have hwaits := stuck_waits hrun hstuck ⟨c, p, ht⟩
    obtain ⟨c', s, k, ht', -⟩ := id hwaits
    have hx : (broker crates hasDb).exec t (.query s) { calmEnv [] [] with fault := some "" }
        σ'.shared = some (.error "", σ'.shared.withDb (σ'.shared.db.abort t)) := rfl
    exact absurd ⟨.perform t _, _, Or.inr hwaits, act_perform ht' hx⟩ (hend _)

end Progress

/-! ## Two registrations of one key -/

section Script
open Scripts Crates

/-- One key registers on two connections, each time with another handle; both have inserted their
row. -/
def claimsTwice : List Cue :=
  [.connect 0, .connect 1, .say 0 'a' (registerAs 'a' (some "alice")),
    .say 1 'a' (registerAs 'a' (some "bob"))] ++ steps 0 6 calm ++ steps 1 6 calm

def waitsForRow (σ : BrokerConfig) (t : ℕ) : Bool :=
  match σ.tasks t with
  | .running _ (.call (.query s) _) => σ.shared.db.waits t s
  | _ => false

theorem waitsForRow_sound {σ : BrokerConfig} {t : ℕ} (h : waitsForRow σ t = true) :
    WaitsForRow σ t := by
  unfold waitsForRow at h
  split at h
  · rename_i c s k ht
    exact ⟨c, s, k, ht, h⟩
  · cases h

theorem claims_wait : ∃ tr σ, Run (broker demo true) (fresh DatabaseCalls.emptyDb) tr σ ∧
    WaitsForRow σ 0 ∧ WaitsForRow σ 1 := by
  have hplayed : (play true (fun _ _ _ => true) claimsTwice []
      (fresh DatabaseCalls.emptyDb)).map (fun x => (waitsForRow x.2 0, waitsForRow x.2 1)) =
      some (true, true) := by
    decide +kernel
  obtain ⟨⟨tr, σ⟩, hp, heq⟩ := Option.map_eq_some_iff.mp hplayed
  simp only [Prod.mk.injEq] at heq
  exact ⟨tr, σ, run_of_play true hp, waitsForRow_sound heq.1, waitsForRow_sound heq.2⟩

theorem stuck_at_one_key_claimed : ∃ tr σ,
    Run (broker demo true) (fresh DatabaseCalls.emptyDb) tr σ ∧
    WaitsForRow σ 0 ∧ WaitsForRow σ 1 ∧
    ((∃ σ', Continues (broker demo true) Calm σ' σ) ∨ Idle σ ∨
      ∃ t u pk handle handle', t ≠ u ∧ handle ≠ handle' ∧ Claims demo σ t pk handle ∧
        Claims demo σ u pk handle') := by
  obtain ⟨tr, σ, hrun, h₀, h₁⟩ := claims_wait
  exact ⟨tr, σ, hrun, h₀, h₁, stuck_at_one_key hrun⟩

theorem comes_to_rest_claimed : ∃ tr σ,
    Run (broker demo true) (fresh DatabaseCalls.emptyDb) tr σ ∧
    WaitsForRow σ 0 ∧ WaitsForRow σ 1 ∧
    Acc (Continues (broker demo true) Internal) σ ∧
    ∃ tr' σ', Run (broker demo true) (fresh DatabaseCalls.emptyDb) (tr' ++ tr) σ' ∧ Idle σ' ∧
      Relation.ReflTransGen (Function.swap (Continues (broker demo true) Yielding)) σ σ' ∧
      ∀ e ∈ tr', ∀ t i, e ≠ .input t i := by
  obtain ⟨tr, σ, hrun, h₀, h₁⟩ := claims_wait
  exact ⟨tr, σ, hrun, h₀, h₁, comes_to_rest hrun⟩

end Script

end HashedBroker.ComingToRest
