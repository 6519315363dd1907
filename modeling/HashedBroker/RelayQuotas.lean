import HashedBroker.ConcurrentCalls
import HashedBroker.PeerQuotas
import HashedBroker.SessionOps

/-!
# Quotas under interleaving

The map of quotas gives every peer one bucket, whatever calls run at the same time: a quota is made
on first use and never replaced, so it is the result of the peer's own calls in the order in which
they held its lock. A forwarded frame is charged before its recipient is looked up, so one that
cannot be delivered is paid for as well.
-/
namespace HashedBroker.RelayQuotas
open KeyedTables AtomicPrograms ReactiveTasks Protocol Server Relay

/-- A call of `try_consume`, with the task that makes it and the peer that pays. -/
structure Entry where
  task : ℕ
  pubkey : String
  charge : Charge

def chargesOf (pubkey : String) (entries : List Entry) : List Charge :=
  (entries.filter fun e => e.pubkey = pubkey).map Entry.charge

theorem chargesOf_cons_self {e : Entry} {entries : List Entry} {pubkey : String}
    (h : e.pubkey = pubkey) :
    chargesOf pubkey (e :: entries) = e.charge :: chargesOf pubkey entries := by
  rw [chargesOf, List.filter_cons_of_pos (by simpa using h), List.map_cons, chargesOf]

theorem chargesOf_cons_of_ne {e : Entry} {entries : List Entry} {pubkey : String}
    (h : e.pubkey ≠ pubkey) : chargesOf pubkey (e :: entries) = chargesOf pubkey entries := by
  rw [chargesOf, List.filter_cons_of_neg (by simpa using h), chargesOf]

/-- All calls of `try_consume`, the newest first, and the latest reading of the clock. -/
structure Ledger where
  clock : ℕ
  entries : List Entry

/-- The clock never goes back. -/
def Ledger.note (t : ℕ) : (a : Relay.Access) → Relay.Env → a.Result → Ledger → Option Ledger
  | .quotaEntry _, env, _, l =>
    if l.clock ≤ env.instant ∧ env.instant ≤ env.later then some { l with clock := env.later }
    else none
  | .consume pubkey bytes, env, r, l =>
    if l.clock ≤ env.instant then
      some ⟨env.instant, ⟨t, pubkey, ⟨env.instant, bytes, r⟩⟩ :: l.entries⟩
    else none
  | _, _, _, l => some l

def note (t : ℕ) : (o : Op) → Env → Res o → Ledger → Option Ledger
  | .relay a, env, r, l => l.note t a env.relay r
  | _, _, _, l => some l

/-- Whatever else the broker does meanwhile, it leaves the quotas alone. -/
def elsewhere (b' b : Broker) : Option Broker :=
  some (b'.withRelay { b'.relay with quotas := b.relay.quotas })

/-- Any number of calls of a method, on a broker that does other things as well. -/
def metered (crates : Crates) {Request Out : Type} (method : Request → Work Out) :
    Machine ℕ Op Res Env (Observed Broker Ledger) (CallState Request Out) Request Out Broker :=
  concurrentCalls (Broker.exec crates) note method elsewhere

def unmetered {Request Out : Type} (b : Broker) (clock : ℕ) :
    Config ℕ Op Res (Observed Broker Ledger) (CallState Request Out) Out :=
  .uncalled (b.withRelay { b.relay with quotas := ∅ }) ⟨clock, []⟩

/-! ## One quota for each peer -/

/-- The quotas are what the calls of each peer have made of it. -/
structure Tallied (l : Ledger) (quotas : Table String PeerQuota) : Prop where
  none_charged : ∀ pubkey, quotas.lookup pubkey = none → chargesOf pubkey l.entries = []
  quota_ran : ∀ pubkey q, quotas.lookup pubkey = some q →
    ∃ clock, clock ≤ l.clock ∧ Meter.Ran (chargesOf pubkey l.entries) ⟨clock, q⟩
  entry_called : ∀ newer e older, l.entries = newer ++ e :: older →
    ∃ s s', Meter.Ran (chargesOf e.pubkey older) s ∧ s.Call e.charge s'

section Tallied

variable {l l' : Ledger} {rm rm' : RelayManager} {env : Relay.Env} {t : ℕ}

theorem Tallied.quotaEntry {pubkey : String} (h : Tallied l rm.quotas)
    (hx : rm.exec env (.quotaEntry pubkey) = some ((), rm'))
    (hnote : l.note t (.quotaEntry pubkey) env () = some l') : Tallied l' rm'.quotas := by
  simp only [Ledger.note] at hnote
  split_ifs at hnote with hclock
  cases hnote
  have hran : ∀ {pk q}, rm.quotas.lookup pk = some q → ∃ clock, clock ≤ env.later ∧
      Meter.Ran (chargesOf pk l.entries) ⟨clock, q⟩ := by
    intro pk q hq
    obtain ⟨clock, hle, hran⟩ := h.quota_ran pk q hq
    exact ⟨clock, hle.trans (hclock.1.trans hclock.2), hran⟩
  simp only [RelayManager.exec] at hx
  split at hx
  · cases hx
    exact ⟨h.none_charged, fun pk q hq => hran hq, h.entry_called⟩
  · rename_i hnone
    cases hx
    constructor
    · intro pk hpk
      simp only [lookup_insert_ite] at hpk
      split_ifs at hpk
      exact h.none_charged pk hpk
    · intro pk q hq
      simp only [lookup_insert_ite] at hq
      split_ifs at hq with heq
      · cases hq
        subst heq
        rw [h.none_charged pk hnone]
        exact ⟨env.later, le_refl _, env.instant, env.later, hclock.2, .start⟩
      · exact hran hq
    · exact h.entry_called

theorem Tallied.consume {pubkey : String} {bytes : ℕ} {r : Except BrokerError Unit}
    (h : Tallied l rm.quotas) (hx : rm.exec env (.consume pubkey bytes) = some (r, rm'))
    (hnote : l.note t (.consume pubkey bytes) env r = some l') : Tallied l' rm'.quotas := by
  simp only [Ledger.note] at hnote
  split_ifs at hnote with hclock
  cases hnote
  obtain ⟨q, hq, heq⟩ := Option.map_eq_some_iff.mp hx
  cases heq
  obtain ⟨clock, hle, hran⟩ := h.quota_ran pubkey q hq
  let c : Charge := ⟨env.instant, bytes, (q.tryConsume env.instant bytes).1⟩
  have hself : chargesOf pubkey (⟨t, pubkey, c⟩ :: l.entries) = c :: chargesOf pubkey l.entries :=
    chargesOf_cons_self rfl
  have hother : ∀ {pk}, pk ≠ pubkey →
      chargesOf pk (⟨t, pubkey, c⟩ :: l.entries) = chargesOf pk l.entries :=
    fun hne => chargesOf_cons_of_ne (Ne.symm hne)
  have hcall : Meter.Call ⟨clock, q⟩ c ⟨env.instant, (q.tryConsume env.instant bytes).2⟩ :=
    ⟨hle.trans hclock, rfl, rfl⟩
  constructor
  · intro pk hpk
    simp only [lookup_insert_ite] at hpk
    split_ifs at hpk with heq
    exact (hother heq).trans (h.none_charged pk hpk)
  · intro pk q' hq'
    simp only [lookup_insert_ite] at hq'
    split_ifs at hq' with heq
    · cases hq'
      rw [heq]
      have hran' := hran.call hcall
      rw [← hself] at hran'
      exact ⟨env.instant, le_refl _, hran'⟩
    · obtain ⟨clock', hle', hran'⟩ := h.quota_ran pk q' hq'
      rw [← hother heq] at hran'
      exact ⟨clock', hle'.trans hclock, hran'⟩
  · intro newer e older hsplit
    cases newer with
    | nil =>
      cases hsplit
      exact ⟨_, _, hran, hcall⟩
    | cons e' newer =>
      obtain ⟨-, hrest⟩ := List.cons.inj hsplit
      exact h.entry_called newer e older hrest

theorem Tallied.access {a : Relay.Access} {r : a.Result} (h : Tallied l rm.quotas)
    (hx : rm.exec env a = some (r, rm')) (hnote : l.note t a env r = some l') :
    Tallied l' rm'.quotas := by
  have hsame : rm'.quotas = rm.quotas → l.note t a env r = some l → Tallied l' rm'.quotas := by
    intro hquotas hl
    rw [hl] at hnote
    cases hnote
    rw [hquotas]
    exact h
  cases a with
  | quotaEntry pubkey => exact h.quotaEntry hx hnote
  | consume pubkey bytes => exact h.consume hx hnote
  | insertSession A B =>
    cases hx
    exact hsame rfl rfl
  | promote id responder =>
    rcases RelayManager.exec_promote hx with ⟨s, -, -, -, -, rfl⟩ | ⟨-, -, rfl⟩
    · exact hsame rfl rfl
    · exact hsame rfl rfl
  | getSession id =>
    cases hx
    exact hsame rfl rfl
  | stale pubkey =>
    obtain ⟨-, rfl⟩ := RelayManager.exec_stale hx
    exact hsame rfl rfl
  | removeSession id =>
    cases hx
    exact hsame rfl rfl

end Tallied

section Runs

variable {crates : Crates} {Request Out : Type} {method : Request → Work Out} {b : Broker}
  {clock : ℕ} {tr : List (Event ℕ Op Res Request Broker)}
  {σ : Config ℕ Op Res (Observed Broker Ledger) (CallState Request Out) Out}

theorem tallied_exec {t : ℕ} {o : Op} {env : Env} {r : Res o} {s s' : Observed Broker Ledger}
    (hx : (metered crates method).exec t o env s = some (r, s'))
    (h : Tallied s.history s.state.relay.quotas) : Tallied s'.history s'.state.relay.quotas := by
  obtain ⟨hexec, hnote⟩ := Observed.exec_eq_some hx
  have hframe := (Broker.exec_frame hexec).relay
  cases o with
  | relay a =>
    obtain ⟨rm, hrm, hb⟩ := Broker.exec_relay hexec
    rw [hb]
    exact h.access hrm hnote
  | _ =>
    rw [← Option.some.inj hnote, hframe nofun]
    exact h

/-- The map gives every peer one quota, which only the peer's own calls change. -/
theorem tallied_run (h : Run (metered crates method) (unmetered b clock) tr σ) :
    Tallied σ.shared.history σ.shared.state.relay.quotas := by
  refine h.induct (I := fun _ σ => Tallied σ.shared.history σ.shared.state.relay.quotas) ?_ ?_
  · refine ⟨fun _ _ => rfl, fun pk q hq => ?_, fun newer e older hsplit => ?_⟩
    · cases hq
    · cases newer <;> cases hsplit
  · intro tr σ e σ' _ ih hstep
    rcases hstep.cases with ⟨t, i, c, c', p, -, -, -, rfl⟩ |
      ⟨t, c, o, k, env, r, s', -, -, hx, rfl⟩ | ⟨x, s', -, hx, rfl⟩
    · exact ih
    · exact tallied_exec hx ih
    · cases hx
      exact ih

/-! ## The entries of a call -/

abbrev Payment := String × ℕ × Except BrokerError Unit

def payments (t : ℕ) (entries : List Entry) : List Payment :=
  (entries.filter fun e => e.task = t).map fun e => (e.pubkey, e.charge.bytes, e.charge.outcome)

def pay (paid : List Payment) : (o : Op) → Res o → List Payment
  | .relay (.consume pubkey bytes), r => (pubkey, bytes, r) :: paid
  | _, _ => paid

theorem entries_exec {t : ℕ} {o : Op} {env : Env} {r : Res o} {s s' : Observed Broker Ledger}
    (hx : (metered crates method).exec t o env s = some (r, s')) :
    (s'.history.entries = s.history.entries ∧ ∀ paid, pay paid o r = paid) ∨
    ∃ pubkey bytes outcome time,
      (⟨o, r⟩ : Σ o : Op, Res o) = ⟨.relay (.consume pubkey bytes), outcome⟩ ∧
      s'.history.entries = ⟨t, pubkey, ⟨time, bytes, outcome⟩⟩ :: s.history.entries := by
  obtain ⟨-, hnote⟩ := Observed.exec_eq_some hx
  cases o with
  | relay a =>
    cases a with
    | consume pubkey bytes =>
      simp only [note, Ledger.note] at hnote
      split_ifs at hnote
      exact Or.inr ⟨pubkey, bytes, r, _, rfl, by rw [← Option.some.inj hnote]⟩
    | quotaEntry pubkey =>
      simp only [note, Ledger.note] at hnote
      split_ifs at hnote
      exact Or.inl ⟨by rw [← Option.some.inj hnote], fun _ => rfl⟩
    | _ => exact Or.inl ⟨by rw [← Option.some.inj hnote], fun _ => rfl⟩
  | _ => exact Or.inl ⟨by rw [← Option.some.inj hnote], fun _ => rfl⟩

theorem payments_exec {t : ℕ} {o : Op} {env : Env} {r : Res o} {s s' : Observed Broker Ledger}
    (hx : (metered crates method).exec t o env s = some (r, s')) (u : ℕ) :
    payments u s'.history.entries =
      if u = t then pay (payments u s.history.entries) o r else payments u s.history.entries := by
  rcases entries_exec hx with ⟨hsame, hpay⟩ | ⟨pubkey, bytes, outcome, time, heq, hentries⟩
  · rw [hpay, ite_self, hsame]
  · cases heq
    rw [hentries]
    by_cases hu : u = t
    · subst hu
      simp [payments, pay]
    · simp [payments, Ne.symm hu, hu]

theorem payments_returned {Post : Request → List Payment → Out → Prop}
    (hmethod : ∀ request,
      (method request).Follows pay (fun _ _ => True) (Post request) [])
    (h : Run (metered crates method) (unmetered b clock) tr σ) {n : ℕ} {request : Request} {a : Out}
    (hn : σ.tasks n = .waiting (.returned request a)) :
    Post request (payments n σ.shared.history.entries) a := by
  let rest : ℕ → CallState Request Out → List Payment → Prop := fun _ c paid =>
    match c with
    | .absent => paid = []
    | .active _ => True
    | .returned request a => Post request paid a
  refine (h.follows (fun t _ s => payments t s.history.entries) pay (fun _ _ _ _ => True) rest
    ?_ ?_ ?_ ?_ ?_ ?_).1 n _ hn
  · exact fun t => ⟨.absent, rfl, rfl⟩
  · intro t c i c' p paid hs hrest
    obtain ⟨rfl, rfl, rfl⟩ := concurrentCalls_start hs
    rw [show paid = [] from hrest]
    exact hmethod i
  · intro t u i tr s
    rfl
  · intro tr σ t c o env r s' _ hx _
    simpa using payments_exec hx t
  · intro t u o env tr s r s' hx hu
    simpa [hu] using payments_exec hx u
  · intro x tr s s' hx t
    cases hx
    rfl

theorem entries_paid {Pays : Request → String → ℕ → Prop}
    (hmethod : ∀ request, (method request).Always fun o =>
      ∀ pubkey bytes, o = .relay (.consume pubkey bytes) → Pays request pubkey bytes)
    (h : Run (metered crates method) (unmetered b clock) tr σ) {e : Entry}
    (he : e ∈ σ.shared.history.entries) :
    ∃ request, (σ.tasks e.task).serves request ∧ Pays request e.pubkey e.charge.bytes := by
  revert e
  refine h.induct (I := fun _ σ => ∀ {e : Entry}, e ∈ σ.shared.history.entries →
    ∃ request, (σ.tasks e.task).serves request ∧ Pays request e.pubkey e.charge.bytes) ?_ ?_
  · intro e he
    cases he
  · intro tr σ ev σ' hrun ih hstep e he
    -- an entry that was there keeps its request
    have hold : e ∈ σ.shared.history.entries →
        ∃ request, (σ'.tasks e.task).serves request ∧ Pays request e.pubkey e.charge.bytes := by
      intro he
      obtain ⟨request, hserves, hpays⟩ := ih he
      exact ⟨request, Task.serves_step hstep hserves, hpays⟩
    rcases hstep.cases with ⟨t, i, c, c', p, -, -, -, rfl⟩ |
      ⟨t, c, o, k, env, r, s', -, ht, hx, rfl⟩ | ⟨x, s', -, hx, rfl⟩
    · exact hold he
    · rcases entries_exec hx with ⟨hsame, -⟩ | ⟨pubkey, bytes, outcome, time, heq, hentries⟩
      · exact hold (hsame ▸ he)
      · cases heq
        rcases List.mem_cons.mp (hentries ▸ he) with rfl | he
        · obtain ⟨request, rfl⟩ := hrun.active ht
          have hserves : (σ.tasks t).serves request := by
            rw [ht]
            exact rfl
          have halways := hrun.always (Q := fun _ c o => ∀ request, c = .active request →
            ∀ pubkey bytes, o = .relay (.consume pubkey bytes) → Pays request pubkey bytes)
            (fun _ => ⟨.absent, rfl⟩) (fun t c i c' p hs => by
              obtain ⟨-, rfl, rfl⟩ := concurrentCalls_start hs
              refine (hmethod i).mono fun o ho request hrequest => ?_
              cases hrequest
              exact ho) ht
          exact ⟨request, Task.serves_step hstep hserves, halways.1 request rfl pubkey bytes rfl⟩
        · exact hold he
    · cases hx
      exact hold he

end Runs

/-! ## The token bucket -/

/-- `consume_quota`, for a peer and a number of bytes. -/
def consuming (request : String × ℕ) : Work (Except BrokerError Unit) :=
  relay (consumeQuota request.1 request.2)

/-- What the buckets do with the calls listed. -/
structure ExactBuckets
    (σ : Config ℕ Op Res (Observed Broker Ledger) (CallState (String × ℕ) (Except BrokerError Unit))
      (Except BrokerError Unit)) : Prop where
  /-- A call that has returned is listed, with its result. -/
  listed : ∀ n request a, σ.tasks n = .waiting (.returned request a) →
    ∃ e ∈ σ.shared.history.entries, e.task = n ∧ e.pubkey = request.1 ∧
      e.charge.bytes = request.2 ∧ e.charge.outcome = a
  /-- Other peers have no influence: a call goes as after the calls of its own peer alone. -/
  own : ∀ newer e older, σ.shared.history.entries = newer ++ e :: older →
    ∃ s s', Meter.Ran (chargesOf e.pubkey older) s ∧ s.Call e.charge s'
  /-- What passes the daily check is accepted exactly when it fits into every window. -/
  exact_windows : ∀ newer e older, σ.shared.history.entries = newer ++ e :: older →
    e.charge.outcome ≠ .error .relayQuotaExceeded →
      (e.charge.outcome = .ok () ↔ Meter.Fits (chargesOf e.pubkey older) e.charge)
  tokens_bounded : ∀ pubkey q, σ.shared.state.relay.quotas.lookup pubkey = some q →
    0 ≤ q.tokens ∧ q.tokens ≤ bytesPerSecond

theorem consuming_follows (request : String × ℕ) :
    (consuming request).Follows pay (fun _ _ => True)
      (fun paid a => paid = [(request.1, request.2, a)]) [] :=
  ⟨trivial, fun _ => ⟨trivial, fun _ => rfl⟩⟩

/-- The bucket of every peer is exact, however the calls interleave. -/
theorem token_bucket_exact (crates : Crates) (b : Broker) (clock : ℕ)
    {tr : List (Event ℕ Op Res (String × ℕ) Broker)}
    {σ : Config ℕ Op Res (Observed Broker Ledger)
      (CallState (String × ℕ) (Except BrokerError Unit)) (Except BrokerError Unit)}
    (h : Run (metered crates consuming) (unmetered b clock) tr σ) : ExactBuckets σ := by
  have htally := tallied_run h
  constructor
  · intro n request a hn
    have hpaid := payments_returned consuming_follows h hn
    have hmem : (request.1, request.2, a) ∈ payments n σ.shared.history.entries := by
      rw [hpaid]
      exact List.mem_singleton_self _
    obtain ⟨e, he, heq⟩ := List.mem_map.mp hmem
    obtain ⟨he, htask⟩ := List.mem_filter.mp he
    obtain ⟨hpubkey, hcharge⟩ := Prod.mk.inj heq
    obtain ⟨hbytes, houtcome⟩ := Prod.mk.inj hcharge
    exact ⟨e, he, by simpa using htask, hpubkey, hbytes, houtcome⟩
  · exact htally.entry_called
  · intro newer e older hsplit hday
    obtain ⟨s, s', hran, hcall⟩ := htally.entry_called newer e older hsplit
    exact Meter.ok_iff_fits hran hcall hday
  · intro pubkey q hq
    obtain ⟨_, -, hran⟩ := htally.quota_ran pubkey q hq
    exact ⟨hran.filled.nonneg, hran.filled.capped⟩

def atInstant (instant : ℕ) : Env := ⟨none, Vector.replicate 16 0, 0, [], [], instant, instant, 0⟩

/-- Two calls of one peer that both come before its quota exists; the first empties the bucket. -/
theorem token_bucket_exact_twice : ∃ tr σ,
    Run (metered Crates.demo consuming) (unmetered (.initial DatabaseCalls.emptyDb) 0) tr σ ∧
      σ.shared.history.entries.map (fun e => e.charge.outcome.isOk) = [false, true] ∧
      ExactBuckets σ := by
  have hrun : (runActions (metered Crates.demo consuming)
      [.input 0 ("a", bytesPerSecond), .input 1 ("a", 1), .perform 0 (atInstant 5),
        .perform 1 (atInstant 6), .perform 0 (atInstant 7), .perform 1 (atInstant 7)] []
      (unmetered (.initial DatabaseCalls.emptyDb) 0)).map
      (fun x => x.2.shared.history.entries.map fun e => e.charge.outcome.isOk) =
      some [false, true] := by decide +kernel
  obtain ⟨⟨tr, σ⟩, hactions, hentries⟩ := Option.map_eq_some_iff.mp hrun
  have hreached := run_of_runActions .start hactions
  exact ⟨tr, σ, hreached, hentries, token_bucket_exact _ _ _ hreached⟩

/-! ## What a forwarded frame costs -/

structure Frame where
  sender : String
  session : Uuid
  data : String

def forwarding (crates : Crates) (f : Frame) : Work (Except BrokerError ℕ) :=
  (forward crates f.sender f.session f.data).run

def Frame.length (crates : Crates) (f : Frame) : ℕ :=
  (decodedLen crates "relay base64" f.data).toOption.getD 0

theorem forwarding_eq (crates : Crates) (f : Frame) :
    forwarding crates f = .call (.relay (.getSession f.session)) fun entry =>
      match entry with
      | none => .done (.error .relaySessionNotFound)
      | some session =>
        match session.other f.sender with
        | .error e => .done (.error e)
        | .ok other =>
          match decodedLen crates "relay base64" f.data with
          | .error e => .done (.error e)
          | .ok len =>
            match checkSize len relayMaxFrame with
            | .error e => .done (.error e)
            | .ok () =>
              .call (.relay (.quotaEntry f.sender)) fun _ =>
                .call (.relay (.consume f.sender len)) fun outcome =>
                  match outcome with
                  | .error e => .done (.error e)
                  | .ok () =>
                    .call (.registry (.getPeer other)) fun peer =>
                      match peer with
                      | none => .done (.error .peerOffline)
                      | some recipient =>
                        .call (.send recipient.tx
                          (.relayData (crates.uuidText f.session) f.sender f.data)) fun sent =>
                          match sent with
                          | true => .done (.ok len)
                          | false => .done (.error .peerOffline) := by
  refine (run_lift_bind _ _).trans ?_
  refine Prog.call_congr fun entry => ?_
  cases entry with
  | none => rfl
  | some session =>
    refine (run_orElse_bind _ _ _).trans ?_
    refine (run_require_bind _ _).trans ?_
    dsimp only
    cases session.other f.sender with
    | error e => rfl
    | ok other =>
      refine (run_require_bind _ _).trans ?_
      dsimp only
      cases decodedLen crates "relay base64" f.data with
      | error e => rfl
      | ok len =>
        refine (run_require_bind _ _).trans ?_
        dsimp only
        cases checkSize len relayMaxFrame with
        | error e => rfl
        | ok _ =>
          refine Prog.call_congr fun _ => ?_
          refine Prog.call_congr fun outcome => ?_
          cases outcome with
          | error e => rfl
          | ok _ =>
            refine Prog.call_congr fun peer => ?_
            cases peer with
            | none => rfl
            | some recipient =>
              refine Prog.call_congr fun sent => ?_
              cases sent <;> rfl

/-- The frame was enqueued to its recipient. -/
def delivered : Except BrokerError ℕ → Bool
  | .ok _ => true
  | .error _ => false

/-- The frame passed the quota: it was enqueued, or its recipient could not be reached. -/
def admitted : Except BrokerError ℕ → Bool
  | .ok _ => true
  | .error .peerOffline => true
  | .error _ => false

/-- How a call of `forward` that has made these payments may return. -/
def Settles (crates : Crates) (f : Frame) (paid : List Payment) (a : Except BrokerError ℕ) : Prop :=
  paid = [] ∧ admitted a = false ∨
  ∃ r, paid = [(f.sender, f.length crates, r)] ∧
    (r = .ok () ∧ admitted a = true ∨ ∃ e, r = .error e ∧ a = .error e)

theorem other_refuses {session : Session} {sender : String} {e : BrokerError}
    (h : session.other sender = .error e) : e = .relayNotConsented := by
  simp only [Session.other] at h
  split_ifs at h <;> (cases h; rfl)

theorem decodedLen_refuses {crates : Crates} {label data : String} {e : BrokerError}
    (h : decodedLen crates label data = .error e) : ∃ text, e = .malformed text := by
  simp only [decodedLen] at h
  split at h
  · cases h
  · cases h
    exact ⟨_, rfl⟩

theorem checkSize_refuses {size max : ℕ} {e : BrokerError} (h : checkSize size max = .error e) :
    e = .payloadTooLarge size max := by
  simp only [checkSize] at h
  split_ifs at h
  cases h
  rfl

theorem forwarding_settles (crates : Crates) (f : Frame) :
    (forwarding crates f).Follows pay (fun _ _ => True) (Settles crates f) [] := by
  rw [forwarding_eq]
  refine ⟨trivial, fun entry => ?_⟩
  cases entry with
  | none => exact Or.inl ⟨rfl, rfl⟩
  | some session =>
    dsimp only
    cases hother : session.other f.sender with
    | error e =>
      cases other_refuses hother
      exact Or.inl ⟨rfl, rfl⟩
    | ok other =>
      dsimp only
      cases hlen : decodedLen crates "relay base64" f.data with
      | error e =>
        obtain ⟨text, rfl⟩ := decodedLen_refuses hlen
        exact Or.inl ⟨rfl, rfl⟩
      | ok len =>
        dsimp only
        cases hsize : checkSize len relayMaxFrame with
        | error e =>
          cases checkSize_refuses hsize
          exact Or.inl ⟨rfl, rfl⟩
        | ok _ =>
          have hlength : f.length crates = len := by
            simp only [Frame.length, hlen]
            rfl
          refine ⟨trivial, fun _ => ⟨trivial, fun outcome => ?_⟩⟩
          cases outcome with
          | error e => exact Or.inr ⟨.error e, by rw [hlength]; rfl, Or.inr ⟨e, rfl, rfl⟩⟩
          | ok _ =>
            have hpaid : ∀ a, admitted a = true →
                Settles crates f [(f.sender, len, .ok ())] a := by
              intro a ha
              exact Or.inr ⟨.ok (), by rw [hlength], Or.inl ⟨rfl, ha⟩⟩
            refine ⟨trivial, fun peer => ?_⟩
            cases peer with
            | none => exact hpaid _ rfl
            | some recipient =>
              refine ⟨trivial, fun sent => ?_⟩
              cases sent with
              | true => exact hpaid _ rfl
              | false => exact hpaid _ rfl

/-- Only the sender of a frame pays, and for its decoded length. -/
theorem forwarding_pays (crates : Crates) (f : Frame) :
    (forwarding crates f).Always fun o => ∀ pubkey bytes, o = .relay (.consume pubkey bytes) →
      pubkey = f.sender ∧ decodedLen crates "relay base64" f.data = .ok bytes := by
  rw [forwarding_eq]
  refine ⟨nofun, fun entry => ?_⟩
  cases entry with
  | none => trivial
  | some session =>
    dsimp only
    cases session.other f.sender with
    | error e => trivial
    | ok other =>
      dsimp only
      cases hlen : decodedLen crates "relay base64" f.data with
      | error e => trivial
      | ok len =>
        dsimp only
        cases checkSize len relayMaxFrame with
        | error e => trivial
        | ok _ =>
          refine ⟨nofun, fun _ => ⟨?_, fun outcome => ?_⟩⟩
          · intro pubkey bytes heq
            cases heq
            exact ⟨rfl, rfl⟩
          · cases outcome with
            | error e => trivial
            | ok _ =>
              refine ⟨nofun, fun peer => ?_⟩
              cases peer with
              | none => trivial
              | some recipient =>
                refine ⟨nofun, fun sent => ?_⟩
                cases sent <;> trivial

def charged (n : ℕ) (entries : List Entry) : ℕ :=
  Charge.total ((entries.filter fun e => e.task = n).map Entry.charge)

/-- The accounts, when the frames that count are those whose call has returned a result of this
kind. -/
structure Accounted (crates : Crates) (counts : Except BrokerError ℕ → Bool)
    (σ : Config ℕ Op Res (Observed Broker Ledger) (CallState Frame (Except BrokerError ℕ))
      (Except BrokerError ℕ)) : Prop where
  /-- Nobody but its sender pays for a frame, and for no more than its decoded length. -/
  sender_pays : ∀ e ∈ σ.shared.history.entries, ∃ f, (σ.tasks e.task).serves f ∧
    e.pubkey = f.sender ∧ decodedLen crates "relay base64" f.data = .ok e.charge.bytes
  /-- A quota changes, its tokens included, by the calls of its own peer alone. -/
  quota_ran : ∀ pubkey q, σ.shared.state.relay.quotas.lookup pubkey = some q →
    ∃ clock, Meter.Ran (chargesOf pubkey σ.shared.history.entries) ⟨clock, q⟩
  /-- A frame that counts is charged once, any other not at all. -/
  call_charged : ∀ n f a, σ.tasks n = .waiting (.returned f a) →
    charged n σ.shared.history.entries = if counts a then f.length crates else 0
  /-- The counter is the sum over the sender's frames that count, once all its calls have returned. -/
  day_used : ∀ pubkey q, σ.shared.state.relay.quotas.lookup pubkey = some q →
    (∀ n f p, σ.tasks n = .running (.active f) p → f.sender ≠ pubkey) →
    q.dayUsed = ((σ.shared.history.entries.filter fun e => e.pubkey = pubkey ∧
      q.dayWindowStart ≤ e.charge.time ∧ (σ.tasks e.task).returned counts).map
        fun e => e.charge.bytes).sum

/-- The accounts are kept in every run of any number of calls of `forward`, by any senders. -/
def Accounting (crates : Crates) (counts : Except BrokerError ℕ → Bool) : Prop :=
  ∀ b clock tr σ, Run (metered crates (forwarding crates)) (unmetered b clock) tr σ →
    Accounted crates counts σ

theorem since_chargesOf {entries : List Entry} {pubkey : String} {start : ℕ} {paid : Entry → Bool}
    (h : ∀ e ∈ entries, e.pubkey = pubkey →
      e.charge.accepted = if paid e then e.charge.bytes else 0) :
    Meter.since start (chargesOf pubkey entries) = ((entries.filter fun e =>
      e.pubkey = pubkey ∧ start ≤ e.charge.time ∧ paid e).map fun e => e.charge.bytes).sum := by
  induction entries with
  | nil => rfl
  | cons e entries ih =>
    have hrest := ih fun d hd => h d (List.mem_cons_of_mem _ hd)
    by_cases hpubkey : e.pubkey = pubkey
    · have he := h e List.mem_cons_self hpubkey
      rw [chargesOf_cons_self hpubkey]
      by_cases htime : start ≤ e.charge.time
      · rw [Meter.since_cons htime, hrest, he]
        cases hpaid : paid e with
        | true =>
          rw [List.filter_cons_of_pos (by simp [hpubkey, htime, hpaid])]
          simp
        | false =>
          rw [List.filter_cons_of_neg (by simp [hpaid])]
          simp
      · rw [List.filter_cons_of_neg (by simp [htime]), ← hrest, Meter.since,
          List.filter_cons_of_neg (by simpa using htime), Meter.since]
    · rw [chargesOf_cons_of_ne hpubkey, List.filter_cons_of_neg (by simp [hpubkey]), hrest]

section Forwarding

variable {crates : Crates} {b : Broker} {clock : ℕ} {tr : List (Event ℕ Op Res Frame Broker)}
  {σ : Config ℕ Op Res (Observed Broker Ledger) (CallState Frame (Except BrokerError ℕ))
    (Except BrokerError ℕ)}

theorem outcome_ne_offline {l : Ledger} {quotas : Table String PeerQuota} (h : Tallied l quotas)
    {e : Entry} (he : e ∈ l.entries) : e.charge.outcome ≠ .error .peerOffline := by
  obtain ⟨newer, older, hsplit⟩ := List.append_of_mem he
  obtain ⟨s, s', -, hcall⟩ := h.entry_called newer e older hsplit
  intro hoffline
  rw [hcall.2.1] at hoffline
  rcases PeerQuota.tryConsume_refuses hoffline with heq | heq <;> cases heq

theorem entry_settled (h : Run (metered crates (forwarding crates)) (unmetered b clock) tr σ)
    {n : ℕ} {f : Frame} {a : Except BrokerError ℕ} (hn : σ.tasks n = .waiting (.returned f a)) :
    (σ.shared.history.entries.filter (fun e => e.task = n) = [] ∧ admitted a = false) ∨
    ∃ e ∈ σ.shared.history.entries,
      σ.shared.history.entries.filter (fun e => e.task = n) = [e] ∧
      e.charge.bytes = f.length crates ∧
      e.charge.accepted = if admitted a then e.charge.bytes else 0 := by
  rcases payments_returned (forwarding_settles crates) h hn with ⟨hpaid, ha⟩ | ⟨r, hpaid, hr⟩
  · exact Or.inl ⟨List.map_eq_nil_iff.mp hpaid, ha⟩
  · obtain ⟨e, hfilter, heq⟩ := List.map_eq_singleton_iff.mp hpaid
    have he : e ∈ σ.shared.history.entries :=
      List.mem_of_mem_filter (hfilter ▸ List.mem_singleton_self e)
    obtain ⟨-, hcharge⟩ := Prod.mk.inj heq
    obtain ⟨hbytes, houtcome⟩ := Prod.mk.inj hcharge
    refine Or.inr ⟨e, he, hfilter, hbytes, ?_⟩
    rcases hr with ⟨rfl, ha⟩ | ⟨x, rfl, rfl⟩
    · rw [if_pos ha, Charge.accepted, houtcome]
    · have hx := outcome_ne_offline (tallied_run h) he
      rw [houtcome] at hx
      rw [Charge.accepted, houtcome]
      cases x with
      | peerOffline => exact absurd rfl hx
      | _ => rfl

theorem forward_accounted (crates : Crates) : Accounting crates admitted := by
  intro b clock tr σ h
  have htally := tallied_run h
  have hpays : ∀ e ∈ σ.shared.history.entries, ∃ f, (σ.tasks e.task).serves f ∧
      e.pubkey = f.sender ∧ decodedLen crates "relay base64" f.data = .ok e.charge.bytes :=
    fun e he => entries_paid (forwarding_pays crates) h he
  constructor
  · exact hpays
  · intro pubkey q hq
    obtain ⟨clock, -, hran⟩ := htally.quota_ran pubkey q hq
    exact ⟨clock, hran⟩
  · intro n f a hn
    rcases entry_settled h hn with ⟨hnone, ha⟩ | ⟨e, -, hone, hbytes, haccepted⟩
    · rw [charged, hnone, ha]
      rfl
    · rw [charged, hone]
      simpa [hbytes] using haccepted
  · intro pubkey q hq hreturned
    obtain ⟨clock, -, hran⟩ := htally.quota_ran pubkey q hq
    rw [hran.counted.used]
    refine since_chargesOf fun e he hpubkey => ?_
    obtain ⟨f, hserves, hsender, -⟩ := hpays e he
    cases ht : σ.tasks e.task with
    | running c p =>
      rw [ht] at hserves
      cases c with
      | active f' =>
        cases hserves
        exact absurd (hsender.symm.trans hpubkey) (hreturned e.task f p ht)
      | absent => exact hserves.elim
      | returned _ _ => exact hserves.elim
    | waiting c =>
      rw [ht] at hserves
      cases c with
      | returned f' a =>
        have hmem : e ∈ σ.shared.history.entries.filter fun d => d.task = e.task :=
          List.mem_filter.mpr ⟨he, decide_eq_true rfl⟩
        rcases entry_settled h ht with ⟨hnone, -⟩ | ⟨e', -, hone, -, haccepted⟩
        · rw [hnone] at hmem
          cases hmem
        · rw [hone] at hmem
          rw [List.mem_singleton.mp hmem]
          exact haccepted
      | absent => exact hserves.elim
      | active _ => exact hserves.elim

end Forwarding

/-- `a` sends a frame on its session with `b`, who has just left the registry. -/
theorem undelivered_frame_charged : ¬ Accounting Crates.demo delivered := by
  intro haccounting
  let id : Uuid := Vector.replicate 16 1
  let b : Broker := { Broker.initial DatabaseCalls.emptyDb with
    relay := ⟨AList.insert id ⟨"a", "b", .active⟩ ∅, ∅⟩ }
  have hrun : (runActions (metered Crates.demo (forwarding Crates.demo))
      [.input 0 ⟨"a", id, "AAAA"⟩, .perform 0 (atInstant 5), .perform 0 (atInstant 5),
        .perform 0 (atInstant 5), .perform 0 (atInstant 5)] [] (unmetered b 0)).map
      (fun x => (charged 0 x.2.shared.history.entries, (x.2.tasks 0).returned delivered,
        (x.2.tasks 0).returned admitted)) = some (3, false, true) := by decide +kernel
  obtain ⟨⟨tr, σ⟩, hactions, hends⟩ := Option.map_eq_some_iff.mp hrun
  obtain ⟨hcharged, hrest⟩ := Prod.mk.inj hends
  obtain ⟨hdelivered, hadmitted⟩ := Prod.mk.inj hrest
  have haccounted := haccounting b 0 tr σ (run_of_runActions .start hactions)
  cases ht : σ.tasks 0 with
  | running c p =>
    rw [ht] at hadmitted
    cases hadmitted
  | waiting c =>
    cases c with
    | returned f a =>
      have hzero := haccounted.call_charged 0 f a ht
      rw [ht] at hdelivered
      have ha : delivered a = false := hdelivered
      rw [hcharged, ha] at hzero
      cases hzero
    | absent =>
      rw [ht] at hadmitted
      cases hadmitted
    | active _ =>
      rw [ht] at hadmitted
      cases hadmitted

end HashedBroker.RelayQuotas
