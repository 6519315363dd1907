import HashedBroker.TaskAccounts
import HashedBroker.FollowingHandlers
import HashedBroker.HandlerFootprints
import HashedBroker.RegistryLiveness
import HashedBroker.Deliveries

/-!
# What the metrics count

The counters of signals, relay sessions and relayed bytes against the messages that were put on the
channels, and the gauge of connected peers against the sessions. A handler sends first and counts
afterwards, so a counter lags behind while a handler is at work and never runs ahead.
-/
namespace HashedBroker.MetricTotals
open AtomicPrograms ReactiveTasks Protocol Server Sessions Deliveries

inductive Counter
  | signalingMessages
  | relaySessions
  | relayBytes
  deriving DecidableEq

abbrev Tally := Counter → ℤ

def reading (m : Metrics) : Tally
  | .signalingMessages => m.signalingMessagesTotal
  | .relaySessions => m.relaySessionsTotal
  | .relayBytes => m.relayBytesTotal

def counted : MetricUpdate → Tally
  | .signalingMessagesTotal, .signalingMessages => 1
  | .relaySessionsTotal, .relaySessions => 1
  | .relayBytesTotal n, .relayBytes => n
  | _, _ => 0

/-- The bytes that a base64 text stands for. -/
def decodedBytes (crates : Crates) (data : String) : ℕ :=
  (crates.base64Decode data).toOption.elim 0 List.length

def delivered (crates : Crates) : ServerMessage → Tally
  | .signal .., .signalingMessages => 1
  | .relayOffer .., .relaySessions => 1
  | .relayData _ _ data, .relayBytes => decodedBytes crates data
  | _, _ => 0

def isCounted : ServerMessage → Bool
  | .signal .. | .relayOffer .. | .relayData .. => true
  | _ => false

noncomputable def deliveredOn (crates : Crates) (channels : ℕ → Channel) (k : Counter) : ℤ :=
  ∑ᶠ c, ((channels c).sent.map fun msg => delivered crates msg k).sum

/-- What is counted less what is delivered. -/
def entry (crates : Crates) : (o : Op) → Res o → Tally
  | .metric u, _ => counted u
  | .send _ msg, sent => if sent = true then -delivered crates msg else 0
  | _, _ => 0

/-- A handler may be in debt, everything else keeps its account even. -/
def Covered (c : Phase) (l : Tally) : Prop :=
  l ≤ 0 ∧ ((∀ pk text now, c ≠ .handling pk text now) → l = 0)

def Unbooked (crates : Crates) (o : Op) : Prop := ∀ r, entry crates o r = 0

section Programs

variable {crates : Crates} {hasDb : Bool} {t : ℕ} {pk : String} {c : Phase} {α : Type}

abbrev Books (crates : Crates) (c : Phase) (p : Work α) (post : Tally → α → Prop) (l : Tally) :
    Prop :=
  p.Follows (deposit (entry crates)) (fun l _ => Covered c l) post l

theorem covered_zero : Covered c 0 := ⟨le_rfl, fun _ => rfl⟩

theorem books_of_unbooked {p : Work α} {l : Tally} (hp : p.Always (Unbooked crates))
    (hl : Covered c l) : Books crates c p (fun l' _ => l' = l) l := by
  refine hp.follows (fun o ho => ⟨hl, fun r => ?_⟩) fun _ => rfl
  rw [deposit, ho r, add_zero]

theorem unbooked_send {c : ℕ} {msg : ServerMessage} (h : delivered crates msg = 0) :
    Unbooked crates (.send c msg) := by
  intro sent
  simp [entry, h]

theorem unbooked_metric {u : MetricUpdate} (h : counted u = 0) : Unbooked crates (.metric u) :=
  fun _ => h

theorem unbooked_send_of_uncounted {c : ℕ} {msg : ServerMessage} (h : isCounted msg = false) :
    Unbooked crates (.send c msg) := by
  refine unbooked_send (funext fun k => ?_)
  cases msg with
  | signal => cases h
  | relayData => cases h
  | relayOffer => cases h
  | _ => cases k <;> rfl

/-! ### Parts that move no account -/

theorem get_unbooked (target : String) :
    (registry (Registry.get target)).Always (Unbooked crates) :=
  Prog.always_lift_of (fun _ _ => rfl) _

theorem query_unbooked {β : Type} (q : Database.Query β) : (query q).Always (Unbooked crates) :=
  Prog.always_lift_of (fun _ _ => rfl) _

theorem broadcast_unbooked (online : Bool) : (broadcast pk online).Always (Unbooked crates) :=
  broadcast_always pk online (fun _ => rfl) (fun _ _ => rfl)
    fun _ => unbooked_send_of_uncounted rfl

theorem register_unbooked (now : UnixTime) (addr : Registry.SocketAddr) (text : Option String) :
    (register crates hasDb t now addr text).Always (Unbooked crates) := by
  rcases register_cases crates hasDb t now addr text with
    ⟨text, pk, handle, addresses, kind, timestamp, signature, requestId, -, -, heq⟩ |
      ⟨msg, hmsg, heq, -⟩
  · rw [heq]
    have hrecord : (recordPeer crates hasDb t pk handle (kind.getD .user) requestId).Always
        (Unbooked crates) :=
      recordPeer_always crates hasDb t pk handle _ requestId (fun _ => rfl)
        (fun _ => query_unbooked _) (fun _ => unbooked_metric rfl)
        fun _ _ => unbooked_send_of_uncounted rfl
    refine hrecord.bind fun claimed => (Prog.always_lift_of (fun _ _ => rfl) _).bind fun _ => ?_
    refine (always_metric (unbooked_metric rfl)).bind fun _ => ?_
    refine (always_metric (unbooked_metric rfl)).bind fun _ => ?_
    refine (always_send (unbooked_send_of_uncounted rfl)).bind fun _ => ?_
    exact (broadcast_unbooked true).bind fun _ => trivial
  · rw [heq]
    refine (reject_always t hmsg).mono fun o ho => ?_
    obtain ⟨code, message, requestId, rfl⟩ := ho
    exact unbooked_send_of_uncounted rfl

theorem cleanup_unbooked : (cleanup pk).Always (Unbooked crates) := by
  refine (Prog.always_lift_of (fun _ _ => rfl) _).bind fun _ => ?_
  refine (always_metric (unbooked_metric rfl)).bind fun _ => ?_
  refine (Prog.always_lift_of (fun _ _ => rfl) _).bind fun _ => ?_
  refine (Prog.always_lift_of (fun _ _ => rfl) _).bind fun _ => ?_
  exact (broadcast_unbooked false).bind fun _ => trivial

def Uncounted (msg : ClientMessage) : Prop :=
  msg.tag ≠ "signal" ∧ msg.tag ≠ "request_relay" ∧ msg.tag ≠ "relay"

theorem unbooked_of_footprint {msg : ClientMessage} {o : Op} (hmsg : Uncounted msg)
    (ho : Footprint t msg o) : Unbooked crates o := by
  obtain ⟨hsignal, hrequest, hrelay⟩ := hmsg
  cases o with
  | send c m =>
    cases m with
    | signal => cases msg <;> first | exact absurd rfl hsignal | exact ho.elim
    | relayOffer => cases msg <;> first | exact absurd rfl hrequest | exact ho.elim
    | relayData => cases msg <;> first | exact absurd rfl hrelay | exact ho.elim
    | _ => exact unbooked_send_of_uncounted rfl
  | metric u =>
    cases u with
    | signalingMessagesTotal => cases msg <;> first | exact absurd rfl hsignal | exact ho.elim
    | relaySessionsTotal => cases msg <;> first | exact absurd rfl hrequest | exact ho.elim
    | relayBytesTotal n => cases msg <;> first | exact absurd rfl hrelay | exact ho.elim
    | _ => exact unbooked_metric (funext fun k => by cases k <;> rfl)
  | _ => exact fun _ => rfl

theorem dispatch_unbooked {msg : ClientMessage} (hmsg : Uncounted msg) :
    (dispatch crates hasDb t pk msg).run.Always (Unbooked crates) :=
  (dispatch_footprint msg).mono fun _ ho => unbooked_of_footprint hmsg ho

/-! ### Handlers that deliver first and count afterwards -/

variable {text : String} {now : UnixTime}

/-- What a handler leaves to be counted: nothing when it fails. -/
def Owed (u : α → MetricUpdate) (l : Tally) (x : Except BrokerError α) : Prop :=
  match x with
  | .ok a => l = -counted (u a)
  | .error _ => l = 0

theorem counted_nonneg (u : MetricUpdate) : 0 ≤ counted u := by
  intro k
  cases u <;> cases k <;> simp [counted]

theorem covered_handling {l : Tally} (h : l ≤ 0) : Covered (.handling pk text now) l :=
  ⟨h, fun hno => absurd rfl (hno pk text now)⟩

theorem delivered_signal (sender payload : String) (timestamp : Int64) :
    delivered crates (.signal sender payload timestamp) = counted .signalingMessagesTotal := by
  funext k
  cases k <;> rfl

theorem delivered_relayOffer (id sender : String) :
    delivered crates (.relayOffer id sender) = counted .relaySessionsTotal := by
  funext k
  cases k <;> rfl

theorem delivered_relayData (id sender data : String) :
    delivered crates (.relayData id sender data) =
      counted (.relayBytesTotal (decodedBytes crates data)) := by
  funext k
  cases k <;> rfl

theorem decodedLen_eq {label data : String} {len : ℕ} (h : decodedLen crates label data = .ok len) :
    decodedBytes crates data = len := by
  cases hdecoded : crates.base64Decode data with
  | error e => simp [decodedLen, hdecoded] at h
  | ok bytes =>
    have hlen : bytes.length = len := by simpa [decodedLen, hdecoded] using h
    simp [decodedBytes, hdecoded, Except.toOption, hlen]

theorem owed_attempt_bind {β : Type} {p : Work (Except BrokerError β)} {f : β → Handler α}
    {u : α → MetricUpdate} (hp : p.Always (Unbooked crates))
    (hf : ∀ b, Books crates c (f b).run (Owed u) 0) :
    Books crates c (attempt p >>= f).run (Owed u) 0 := by
  refine follows_attempt_bind ((books_of_unbooked hp covered_zero).mono ?_)
  rintro l x rfl
  cases x with
  | ok b => exact hf b
  | error e => exact rfl

theorem owed_lift_bind {β : Type} {p : Work β} {f : β → Handler α} {u : α → MetricUpdate}
    (hp : p.Always (Unbooked crates)) (hf : ∀ b, Books crates c (f b).run (Owed u) 0) :
    Books crates c (ExceptT.lift p >>= f).run (Owed u) 0 := by
  refine follows_lift_bind ((books_of_unbooked hp covered_zero).mono ?_)
  rintro l b rfl
  exact hf b

/-- The delivery itself: what it puts on a channel is owed. -/
theorem owed_trySend_bind {ch : ℕ} {msg : ServerMessage} {a : α} {u : α → MetricUpdate}
    (h : delivered crates msg = counted (u a)) :
    Books crates c (trySend ch msg >>= fun _ => pure a).run (Owed u) 0 := by
  refine follows_trySend_bind covered_zero ?_ ?_
  · simp [deposit, entry, Owed]
  · change Owed u _ (.ok a)
    simp [deposit, entry, Owed, h]

theorem relaySignal_owes (recipient payload : String) :
    Books crates c (relaySignal crates pk recipient payload).run
      (Owed fun _ => .signalingMessagesTotal) 0 := by
  refine owed_attempt_bind (Prog.always_lift_of (fun _ _ => rfl) _) fun _ => ?_
  refine follows_require_bind (fun _ _ => rfl) fun len _ => ?_
  refine follows_require_bind (fun _ _ => rfl) fun _ _ => ?_
  refine owed_lift_bind (get_unbooked recipient) fun peer => ?_
  refine follows_orElse_bind (fun _ => rfl) fun found _ => ?_
  refine owed_lift_bind ((always_perform _).mpr fun _ => rfl) fun timestamp => ?_
  have hsend : Books crates c
      (trySend found.tx (.signal pk payload timestamp) >>= fun _ => pure ()).run
      (Owed fun _ => .signalingMessagesTotal) 0 :=
    owed_trySend_bind (delivered_signal pk payload timestamp)
  rwa [bind_pure] at hsend

theorem request_owes (responder : String) :
    Books crates c (request crates pk responder).run (Owed fun _ => .relaySessionsTotal) 0 := by
  refine owed_lift_bind (get_unbooked responder) fun peer => ?_
  refine follows_orElse_bind (fun _ => rfl) fun found _ => ?_
  refine owed_lift_bind ((always_perform _).mpr fun _ => rfl) fun id => ?_
  exact owed_trySend_bind (delivered_relayOffer _ _)

theorem forward_owes (id : Uuid) (data : String) :
    Books crates c (forward crates pk id data).run (Owed .relayBytesTotal) 0 := by
  refine owed_lift_bind ((always_perform _).mpr fun _ => rfl) fun found => ?_
  refine follows_orElse_bind (fun _ => rfl) fun session _ => ?_
  refine follows_require_bind (fun _ _ => rfl) fun other _ => ?_
  refine follows_require_bind (fun _ _ => rfl) fun len hlen => ?_
  refine follows_require_bind (fun _ _ => rfl) fun _ _ => ?_
  refine owed_attempt_bind (Prog.always_lift_of (fun _ _ => rfl) _) fun _ => ?_
  refine owed_lift_bind (get_unbooked other) fun peer => ?_
  refine follows_orElse_bind (fun _ => rfl) fun recipient _ => ?_
  refine owed_trySend_bind ?_
  rw [delivered_relayData, decodedLen_eq hlen]

theorem metric_evens (u : MetricUpdate) :
    Books crates (.handling pk text now) (metric u) (fun l _ => l = 0) (-counted u) := by
  refine ⟨covered_handling ?_, fun _ => ?_⟩
  · exact neg_nonpos.mpr (counted_nonneg u)
  · change deposit (entry crates) (-counted u) (.metric u) () = 0
    simp [deposit, entry]

theorem onSignal_even (recipient payload : String) :
    Books crates (.handling pk text now) (onSignal crates pk recipient payload).run
      (fun l _ => l = 0) 0 := by
  refine (relaySignal_owes recipient payload).bind fun l x hx => ?_
  cases x with
  | ok a =>
    obtain rfl : l = _ := hx
    exact (metric_evens _).bind fun l _ hl => hl
  | error e =>
    obtain rfl : l = 0 := hx
    exact books_of_unbooked ((always_metric (unbooked_metric rfl)).bind fun _ => trivial)
      covered_zero

theorem onRequestRelay_even (peer : String) (requestId : Option String) :
    Books crates (.handling pk text now) (onRequestRelay crates t pk peer requestId).run
      (fun l _ => l = 0) 0 := by
  refine follows_bind ((request_owes peer).mono fun l x hx => ?_)
  cases x with
  | ok id =>
    obtain rfl : l = _ := hx
    refine follows_lift_bind ((metric_evens _).mono ?_)
    rintro l - rfl
    exact books_of_unbooked (always_lift (always_send (unbooked_send_of_uncounted rfl)))
      covered_zero
  | error e => exact hx

theorem onRelay_even (sessionId data : String) :
    Books crates (.handling pk text now) (onRelay crates pk sessionId data).run
      (fun l _ => l = 0) 0 := by
  refine follows_require_bind (fun _ _ => rfl) fun id _ => ?_
  refine follows_bind ((forward_owes id data).mono fun l x hx => ?_)
  cases x with
  | ok len =>
    obtain rfl : l = _ := hx
    exact (metric_evens _).bind fun l _ hl => hl
  | error e => exact hx

theorem dispatch_even (msg : ClientMessage) :
    Books crates (.handling pk text now) (dispatch crates hasDb t pk msg).run
      (fun l _ => l = 0) 0 := by
  cases msg with
  | signal => exact onSignal_even _ _
  | requestRelay => exact onRequestRelay_even _ _
  | relay => exact onRelay_even _ _
  | _ =>
    refine books_of_unbooked (dispatch_unbooked ?_) covered_zero
    simp [Uncounted, ClientMessage.tag]

theorem pump_even : Books crates (.handling pk text now) (pump crates hasDb t now pk text)
    (fun l _ => l = 0) 0 := by
  have hhandled : Books crates (.handling pk text now)
      (handleClientMessage crates hasDb t now pk text).run (fun l _ => l = 0) 0 :=
    follows_require_bind (fun _ _ => rfl) fun msg _ => dispatch_even msg
  refine hhandled.bind ?_
  rintro l x rfl
  cases x with
  | ok u => exact rfl
  | error e =>
    exact books_of_unbooked ((always_send (unbooked_send_of_uncounted rfl)).bind fun _ => trivial)
      covered_zero

theorem start_even {c' : Phase} {i : Input} {p : Work Outcome}
    (hs : start crates hasDb t c i = some (c', p)) : Books crates c' p (fun l _ => l = 0) 0 := by
  cases start_cases hs with
  | connects addr => exact rfl
  | registers addr f now =>
    exact books_of_unbooked (register_unbooked now addr f.payload) covered_zero
  | handles pk text f now hf => exact pump_even
  | stays pk f now hf => exact rfl
  | closes pk f now hf => exact books_of_unbooked cleanup_unbooked covered_zero

end Programs

/-! ## The counters of a run -/

section Runs

variable {crates : Crates} {hasDb : Bool} {db₀ : Database.Db ℕ} {tr : List BrokerEvent}
  {σ : BrokerConfig}

def NoneHandling (σ : BrokerConfig) : Prop :=
  ∀ t pk text now, (σ.tasks t).ctl ≠ .handling pk text now

theorem balances (h : Run (broker crates hasDb) (fresh db₀) tr σ) (t : ℕ) :
    Covered (σ.tasks t).ctl (balance (entry crates) t tr) := by
  have hbooks := h.tracks (deposit (entry crates)) 0 (fun _ c l _ => Covered c l)
    (fun _ _ l => l = 0) (fun _ => ⟨.absent, rfl, rfl⟩) ?_
  · cases ht : σ.tasks t with
    | waiting c =>
      rw [balance, hbooks.1 t c ht]
      exact covered_zero
    | running c p =>
      obtain ⟨o, k, rfl⟩ := h.running_call (fresh_idle db₀) ht
      exact (hbooks.2 t c _ ht).1
  · rintro t c i c' p l hs rfl
    exact start_even hs

theorem total_covered (h : Run (broker crates hasDb) (fresh db₀) tr σ) :
    total (entry crates) tr ≤ 0 ∧ (NoneHandling σ → total (entry crates) tr = 0) := by
  rw [total_eq_sum (Finset.Subset.refl _)]
  constructor
  · exact Finset.sum_nonpos fun t _ => (balances h t).1
  · intro hnone
    exact Finset.sum_eq_zero fun t _ => (balances h t).2 (hnone t)

def updates : (o : Op) → Res o → Tally
  | .metric u, _ => counted u
  | _, _ => 0

def sends (crates : Crates) : (o : Op) → Res o → Tally
  | .send _ msg, sent => if sent = true then delivered crates msg else 0
  | _, _ => 0

theorem total_entry (tr : List BrokerEvent) :
    total (entry crates) tr = total updates tr - total (sends crates) tr := by
  induction tr with
  | nil => simp [total]
  | cons e tr ih =>
    cases e with
    | performed t o r =>
      have hstep : entry crates o r = updates o r - sends crates o r := by
        cases o with
        | send c msg =>
          simp only [entry, updates, sends]
          split_ifs <;> simp
        | _ => simp [entry, updates, sends]
      rw [total, total, total, ih, hstep]
      abel
    | _ => exact ih

theorem metrics_exec {t : ℕ} {o : Op} {env : Env} {b b' : Broker} {r : Res o}
    (h : Broker.exec crates t o env b = some (r, b')) :
    b'.metrics = match o with
      | .metric u => b.metrics.apply u
      | _ => b.metrics := by
  cases o with
  | query s =>
    obtain ⟨db, -, rfl⟩ := Broker.exec_query h
    rfl
  | presence a =>
    obtain ⟨pm, -, rfl⟩ := Broker.exec_presence h
    rfl
  | relay a =>
    obtain ⟨rm, -, rfl⟩ := Broker.exec_relay h
    rfl
  | send c msg =>
    obtain ⟨ch, -, rfl⟩ := Broker.exec_send h
    rfl
  | _ =>
    cases h
    rfl

theorem reading_apply (m : Metrics) (u : MetricUpdate) :
    reading (m.apply u) = counted u + reading m := by
  funext k
  cases u <;> cases k <;> simp [reading, counted, Metrics.apply, add_comm]

theorem reading_eq (h : Run (broker crates hasDb) (fresh db₀) tr σ) :
    reading σ.shared.metrics = total updates tr := by
  have hmoved := h.moved_by_total (w := updates) (fun b => reading b.metrics) ?_ ?_
  · rw [hmoved]
    have hnew : reading (Broker.initial db₀).metrics = 0 := by
      funext k
      cases k <;> rfl
    rw [show (fresh db₀).shared = Broker.initial db₀ from rfl, hnew, add_zero]
  · intro t o env s r s' hx
    have hx' : Broker.exec crates t o env s = some (r, s') := hx
    rw [metrics_exec hx']
    cases o with
    | metric u => exact reading_apply s.metrics u
    | _ => exact (zero_add _).symm
  · intro x s s' hx
    obtain ⟨channels, rfl⟩ := Broker.writerStep_frame hx
    rfl

def usedChannels : List BrokerEvent → Finset ℕ
  | [] => ∅
  | .performed _ (.send c _) _ :: tr => insert c (usedChannels tr)
  | _ :: tr => usedChannels tr

theorem enqueued_of_unused {c : ℕ} (hc : c ∉ usedChannels tr) : enqueued c tr = [] := by
  induction tr with
  | nil => rfl
  | cons e tr ih =>
    cases e with
    | performed t o r =>
      cases o with
      | send c' msg =>
        simp only [usedChannels, Finset.mem_insert, not_or] at hc
        rw [enqueued, if_neg fun hsend => hc.1 hsend.1.symm]
        exact ih hc.2
      | _ => exact ih hc
    | _ => exact ih hc

/-- What is sent in a run is spread over the channels. -/
theorem total_sends {S : Finset ℕ} (hS : usedChannels tr ⊆ S) (k : Counter) :
    total (sends crates) tr k =
      ∑ c ∈ S, ((enqueued c tr).map fun x => delivered crates x.2 k).sum := by
  induction tr with
  | nil => exact (Finset.sum_eq_zero fun _ _ => rfl).symm
  | cons e tr ih =>
    cases e with
    | performed t o r =>
      cases o with
      | send c msg =>
        obtain ⟨hc, htr⟩ := Finset.insert_subset_iff.mp hS
        have hstep : ∀ c', ((enqueued c' (.performed t (.send c msg) r :: tr)).map fun x =>
            delivered crates x.2 k).sum = (if c' = c then sends crates (.send c msg) r k else 0) +
              ((enqueued c' tr).map fun x => delivered crates x.2 k).sum := by
          intro c'
          simp only [enqueued, sends, eq_comm (a := c)]
          by_cases hsent : r = true
          · by_cases hcc : c' = c
            · simp [hcc, hsent]
            · simp [hcc]
          · simp [hsent]
        simp only [hstep, Finset.sum_add_distrib, Finset.sum_ite_eq', hc, if_true, total,
          Pi.add_apply, ih htr]
      | _ =>
        rw [total, Pi.add_apply, ih hS]
        exact zero_add _
    | _ => exact ih hS

theorem deliveredOn_eq (h : Run (broker crates hasDb) (fresh db₀) tr σ) (k : Counter) :
    {c | (σ.shared.channels c).sent ≠ []}.Finite ∧
      deliveredOn crates σ.shared.channels k = total (sends crates) tr k := by
  have hsent : ∀ c, (σ.shared.channels c).sent = (enqueued c tr).map Prod.snd := sent_eq_enqueued h
  have hused : {c | (σ.shared.channels c).sent ≠ []} ⊆ ↑(usedChannels tr) := by
    intro c hc
    by_contra hno
    refine hc ?_
    rw [hsent, enqueued_of_unused hno]
    rfl
  refine ⟨(usedChannels tr).finite_toSet.subset hused, ?_⟩
  rw [total_sends (Finset.Subset.refl _), deliveredOn, finsum_eq_sum_of_support_subset]
  · refine Finset.sum_congr rfl fun c _ => ?_
    rw [hsent, List.map_map]
    rfl
  · intro c hc
    refine hused fun hnil => hc ?_
    simp only [hnil, List.map_nil, List.sum_nil]

/-- In every run the counters never exceed what has been put on the channels, all of them together,
and equal it whenever no handler is at work: signals, relay offers, and the decoded bytes of relayed
data. -/
theorem counters_count_deliveries (h : Run (broker crates hasDb) (fresh db₀) tr σ) (k : Counter) :
    {c | (σ.shared.channels c).sent ≠ []}.Finite ∧
      reading σ.shared.metrics k ≤ deliveredOn crates σ.shared.channels k ∧
      (NoneHandling σ → reading σ.shared.metrics k = deliveredOn crates σ.shared.channels k) := by
  obtain ⟨hfinite, hdelivered⟩ := deliveredOn_eq h k
  obtain ⟨hle, heq⟩ := total_covered h
  have hk : total (entry crates) tr k = reading σ.shared.metrics k -
      deliveredOn crates σ.shared.channels k := by
    rw [total_entry, Pi.sub_apply, reading_eq h, hdelivered]
  refine ⟨hfinite, ?_, fun hnone => ?_⟩
  · have hk' : total (entry crates) tr k ≤ 0 := hle k
    omega
  · have hk' : total (entry crates) tr k = 0 := congrFun (heq hnone) k
    omega

end Runs

/-! ## Two signals, counted -/

open Scripts Crates

theorem twoSignals_counted :
    (play false (fun _ _ _ => true) twoSignals [] (fresh DatabaseCalls.emptyDb)).map
      (fun x => x.2.shared.metrics.signalingMessagesTotal) = some 2 := by
  decide +kernel

theorem two_signals_delivered : ∃ tr σ,
    Run (broker demo false) (fresh DatabaseCalls.emptyDb) tr σ ∧
      2 ≤ deliveredOn demo σ.shared.channels .signalingMessages := by
  obtain ⟨⟨tr, σ⟩, hp, htwo⟩ := Option.map_eq_some_iff.mp twoSignals_counted
  have hrun := run_of_play false hp
  refine ⟨tr, σ, hrun, ?_⟩
  have hcount := (counters_count_deliveries hrun .signalingMessages).2.1
  rw [reading, htwo] at hcount
  exact_mod_cast hcount

end HashedBroker.MetricTotals
