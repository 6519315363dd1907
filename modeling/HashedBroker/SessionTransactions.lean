import HashedBroker.SessionOps
import HashedBroker.HandleClaims

/-!
# The transaction of a session

A registration that claims a handle is the only part of a session that opens a transaction, and it
leaves none open. Between two frames a session has no transaction, and what it commits are rows of
the key that is registering.
-/
namespace HashedBroker.SessionTransactions
open KeyedTables AtomicPrograms ReactiveTasks Database Server Sessions

def next (l : Option Transaction) : (o : Op) → Res o → Option Transaction
  | .query s, r => HandleClaims.next l s r
  | _, _ => l

/-- Statements come in the order of a claim of this key. -/
def InOrderFor (pk : String) (l : Option Transaction) : Op → Prop
  | .query s => HandleClaims.OwnOrder pk l s
  | _ => True

/-- The key in whose name a phase acts: one that has been authenticated. -/
def Acting (crates : Crates) : Phase → String → Prop
  | .registering _ text now, pk => ∃ s msg, text = some s ∧
    authenticateRegister crates now s = .ok msg ∧ msg.pubkey = pk
  | .handling pk' text now, pk => pk' = pk ∧ ∃ msg, authenticate crates now pk text = .ok msg
  | _, _ => False

/-- A statement is one of a phase that acts for a key, in the order of a claim of it. -/
def TxnOk (crates : Crates) (c : Phase) (l : Option Transaction) (o : Op) : Prop :=
  (∃ s, o = .query s) → ∃ pk, Acting crates c pk ∧ InOrderFor pk l o

def Uncontrolled : Op → Prop
  | .query s => s.controls = false
  | _ => True

section Programs

variable {crates : Crates} {hasDb : Bool} {t : ℕ} {α : Type} {pk : String}

theorem none_of_uncontrolled {o : Op} (ho : Uncontrolled o) (pk : String) :
    InOrderFor pk none o ∧ ∀ r, next none o r = none := by
  cases o with
  | query s =>
    constructor
    · cases s <;> trivial
    · intro r
      cases r with
      | error e => exact HandleClaims.next_error none s e
      | ok rows => exact HandleClaims.next_of_not_controls none ho rows
  | _ => exact ⟨trivial, fun _ => rfl⟩

theorem tidy_of_always {p : Work α} (hp : p.Always Uncontrolled) :
    p.Follows next (InOrderFor pk) (fun l _ => l = none) none :=
  hp.follows (fun _ ho => none_of_uncontrolled ho pk) fun _ => rfl

theorem query_tidy {q : Query α} (hq : HandleClaims.Tidy pk none q) :
    (query q).Follows next (InOrderFor pk) (fun l _ => l = none) none :=
  Prog.Follows.lift hq (fun _ _ _ => rfl) fun _ _ h => h

theorem claimRequested_tidy (handle : String) :
    (claimRequested crates pk handle).Follows next (InOrderFor pk) (fun l _ => l = none) none := by
  refine (query_tidy (HandleClaims.claim_tidy crates pk handle)).bind ?_
  rintro l x rfl
  refine tidy_of_always ?_
  split
  · exact (always_metric trivial).bind fun _ => trivial
  · exact (always_metric trivial).bind fun _ => trivial
  · exact (always_metric trivial).bind fun _ => trivial
  · exact (always_metric trivial).bind fun _ => trivial

theorem recordPeer_tidy (handle : Option String) (kind : Protocol.IdentityKind)
    (requestId : Option String) :
    (recordPeer crates hasDb t pk handle kind requestId).Follows next (InOrderFor pk)
      (fun l _ => l = none) none := by
  cases hasDb with
  | false =>
    refine tidy_of_always ?_
    cases handle with
    | some h => exact (always_send trivial).bind fun _ => trivial
    | none => trivial
  | true =>
    have hupsert : (query (upsertPeerWithKind pk kind.asStr)).Always Uncontrolled :=
      Prog.Always.lift ⟨rfl, fun _ => trivial⟩
    refine (tidy_of_always hupsert).bind ?_
    rintro l x rfl
    cases handle with
    | some h => exact claimRequested_tidy h
    | none => exact rfl

theorem enter_tidy (addr : Registry.SocketAddr) (handle : Option String)
    (addresses : Protocol.PeerAddresses) (kind : Option Protocol.IdentityKind)
    (requestId : Option String) :
    (enter crates hasDb t addr pk handle addresses kind requestId).Follows next (InOrderFor pk)
      (fun l _ => l = none) none := by
  refine (recordPeer_tidy handle _ requestId).bind ?_
  rintro l claimed rfl
  refine tidy_of_always ?_
  have hinsert : ∀ peer, (registry (Registry.insert peer)).Always Uncontrolled :=
    fun peer => insert_always peer (fun _ => trivial) trivial
  have hbroadcast : (broadcast pk true).Always Uncontrolled :=
    broadcast_always pk true trivial (fun _ => trivial) fun _ => trivial
  refine (hinsert _).bind fun _ => ?_
  refine (always_metric trivial).bind fun _ => ?_
  refine (always_metric trivial).bind fun _ => ?_
  refine (always_send trivial).bind fun _ => ?_
  exact hbroadcast.bind fun _ => trivial

theorem uncontrolled_of_permitted {c : Phase} {o : Op} (ho : Permitted crates t c o)
    (hc : ∀ addr text now, c ≠ .registering addr text now) : Uncontrolled o := by
  cases c with
  | registering addr text now => exact absurd rfl (hc addr text now)
  | handling pk text now =>
    rcases ho with ⟨msg, -, -, ho⟩ | ⟨-, code, message, requestId, rfl⟩
    · cases o with
      | query s => exact ho
      | _ => trivial
    · trivial
  | closing pk =>
    cases o with
    | query s => exact ho.elim
    | _ => trivial
  | _ => exact ho.elim

theorem txnOk_of_permitted {c : Phase} {l : Option Transaction} {o : Op}
    (ho : Permitted crates t c o) (hc : ∀ addr text now, c ≠ .registering addr text now)
    (hl : ∀ pk, InOrderFor pk l o) : TxnOk crates c l o := by
  rintro ⟨s, rfl⟩
  cases c with
  | registering addr text now => exact absurd rfl (hc addr text now)
  | handling pk text now =>
    rcases ho with ⟨msg, hmsg, -⟩ | ⟨-, code, message, requestId, he⟩
    · exact ⟨pk, ⟨rfl, msg, hmsg⟩, hl pk⟩
    · cases he
  | _ => exact ho.elim

theorem register_tidy (now : UnixTime) (addr : Registry.SocketAddr) (text : Option String) :
    (register crates hasDb t now addr text).Follows next
      (TxnOk crates (.registering addr text now)) (fun l _ => l = none) none := by
  rcases register_cases crates hasDb t now addr text with
    ⟨s, pk, handle, addresses, kind, timestamp, signature, requestId, rfl, hauth, heq⟩ |
      ⟨msg, hmsg, heq, -⟩
  · rw [heq]
    refine (enter_tidy addr handle addresses kind requestId).mono_ok ?_
    intro l o ho _
    exact ⟨pk, ⟨s, _, rfl, hauth, rfl⟩, ho⟩
  · rw [heq]
    refine (reject_always t hmsg).follows (fun o ho => ?_) fun _ => rfl
    obtain ⟨code, message, requestId, rfl⟩ := ho
    refine ⟨?_, fun _ => rfl⟩
    rintro ⟨s, he⟩
    cases he

theorem start_tidy {c c' : Phase} {i : Input} {p : Work Outcome}
    (hs : start crates hasDb t c i = some (c', p)) :
    p.Follows next (TxnOk crates c') (fun l _ => l = none) none := by
  by_cases hc : ∃ addr text now, c' = .registering addr text now
  · obtain ⟨addr, text, now, rfl⟩ := hc
    rw [start_registering hs]
    exact register_tidy now addr text
  · have hne : ∀ addr text now, c' ≠ .registering addr text now :=
      fun addr text now he => hc ⟨addr, text, now, he⟩
    refine (start_permitted hs).follows (fun o ho => ?_) fun _ => rfl
    have hfree := uncontrolled_of_permitted ho hne
    have hstep := none_of_uncontrolled hfree
    exact ⟨txnOk_of_permitted ho hne fun pk => (hstep pk).1, (hstep "").2⟩

end Programs

section Runs

variable {crates : Crates} {hasDb : Bool} {db₀ : Db ℕ} {tr : List BrokerEvent} {σ : BrokerConfig}

theorem exec_foreignKey {t : ℕ} {o : Op} {env : Env} {b b' : Broker} {r : Res o}
    (h : Broker.exec crates t o env b = some (r, b')) (hf : HandleClaims.ForeignKey b.db) :
    HandleClaims.ForeignKey b'.db := by
  cases o with
  | query s =>
    obtain ⟨db, hdb, rfl⟩ := Broker.exec_query h
    exact HandleClaims.exec_foreignKey hdb hf
  | _ =>
    rw [(Broker.exec_frame h).db nofun]
    exact hf

theorem database_of_run {P : Db ℕ → Prop} (h : Run (broker crates hasDb) (fresh db₀) tr σ)
    (h₀ : P (Broker.initial db₀).db)
    (hexec : ∀ {t : ℕ} {s : Statement} {env : Database.Env} {db db' : Db ℕ} {r : Answer s},
      P db → db.exec t s env = some (r, db') → P db') : P σ.shared.db := by
  induction h with
  | start => exact h₀
  | step _ next ih =>
    rcases next.cases with ⟨t, i, c, c', p, rfl, -, -, rfl⟩ |
      ⟨t, c, o, k, env, r, s', rfl, -, hx, rfl⟩ | ⟨x, s', rfl, hx, rfl⟩
    · exact ih
    · have hx' : Broker.exec crates t o env _ = some (r, s') := hx
      rcases Broker.db_of_exec hx' with hsame | ⟨s, x, rfl, hdb⟩
      · simp only [hsame]
        exact ih
      · exact hexec ih hdb
    · obtain ⟨channels, rfl⟩ := Broker.writerStep_frame hx
      exact ih

theorem foreignKey_of_run (h : Run (broker crates hasDb) (fresh db₀) tr σ) :
    HandleClaims.ForeignKey σ.shared.db := by
  refine database_of_run h ?_ fun hf hx => HandleClaims.exec_foreignKey hx hf
  intro u txn hu
  cases hu

theorem transaction_exec {t : ℕ} {o : Op} {env : Env} {b b' : Broker} {r : Res o}
    (hx : Broker.exec crates t o env b = some (r, b')) (hf : HandleClaims.ForeignKey b.db)
    (hord : ∀ s, o = .query s → HandleClaims.InOrder (b.db.transactions.lookup t) s) :
    b'.db.transactions.lookup t = next (b.db.transactions.lookup t) o r := by
  cases o with
  | query s =>
    obtain ⟨db, hdb, rfl⟩ := Broker.exec_query hx
    exact HandleClaims.exec_own hdb hf (hord s rfl)
  | _ =>
    rw [(Broker.exec_frame hx).db nofun]
    rfl

theorem transaction_other {t u : ℕ} {o : Op} {env : Env} {b b' : Broker} {r : Res o}
    (hx : Broker.exec crates t o env b = some (r, b')) (hu : u ≠ t) :
    b'.db.transactions.lookup u = b.db.transactions.lookup u := by
  rcases Broker.db_of_exec hx with hsame | ⟨s, x, rfl, hdb⟩
  · rw [hsame]
  · exact HandleClaims.exec_other hdb hu

/-- Programs that keep a discipline of transactions keep it in every run, from the transaction the
database has for their task. -/
theorem follows_transactions (h : Run (broker crates hasDb) (fresh db₀) tr σ)
    (ok : Phase → Option Transaction → Op → Prop)
    (hord : ∀ c l s, ok c l (.query s) → HandleClaims.InOrder l s)
    (hstart : ∀ t c i c' p, start crates hasDb t c i = some (c', p) →
      p.Follows next (ok c') (fun l _ => l = none) none) :
    (∀ t c, σ.tasks t = .waiting c → σ.shared.db.transactions.lookup t = none) ∧
      ∀ t c p, σ.tasks t = .running c p →
        p.Follows next (ok c) (fun l _ => l = none) (σ.shared.db.transactions.lookup t) := by
  refine h.follows (fun t _ b => b.db.transactions.lookup t) next (fun _ => ok)
    (fun _ _ l => l = none) ?_ ?_ ?_ ?_ ?_ ?_
  · intro t
    exact ⟨.absent, rfl, AList.lookup_empty t⟩
  · intro t c i c' p l hs hl
    subst hl
    exact hstart t c i c' p hs
  · intro t u i tr s
    rfl
  · intro tr σ t c o env r s' hrun hx hok
    refine transaction_exec hx (foreignKey_of_run hrun) fun s hs => ?_
    subst hs
    exact hord c _ s hok
  · intro t u o env tr b r b' hx hu
    exact transaction_other hx hu
  · intro x tr b b' hx t
    obtain ⟨channels, rfl⟩ := Broker.writerStep_frame hx
    rfl

/-- Statements are made for an authenticated key, in the order of a claim of it. -/
theorem statement_in_order (h : Run (broker crates hasDb) (fresh db₀) tr σ) {t : ℕ} {c : Phase}
    {s : Statement} {k : Res (.query s) → Work Outcome}
    (ht : σ.tasks t = .running c (.call (.query s) k)) :
    ∃ pk, Acting crates c pk ∧ HandleClaims.OwnOrder pk (σ.shared.db.transactions.lookup t) s := by
  have hf := follows_transactions h (TxnOk crates) (fun c l s hok => ?_)
    fun t c i c' p hs => start_tidy hs
  · exact (hf.2 t c _ ht).1 ⟨s, rfl⟩
  · obtain ⟨pk, -, hord⟩ := hok ⟨s, rfl⟩
    have hown : HandleClaims.OwnOrder pk l s := hord
    exact hown.inOrder

end Runs

end HashedBroker.SessionTransactions
