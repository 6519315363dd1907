import HashedBroker.Authentication
import HashedBroker.SequentialRuns
import HashedBroker.TaskLogs
import HashedBroker.Scripts

/-!
# What is reported of a handle

A session that claims a handle knows the row: it has found it committed, or has committed it. Rows
are never taken away, so what is known stays true, in the reply to a registration and in the entry
of the registry. The reply to a later register message looks at the entry only, whatever handle the
message asks for: it is right when the entry has that handle, or none.
-/
namespace HashedBroker.HandleRecords
open KeyedTables AtomicPrograms ReactiveTasks Protocol Database Server Sessions SessionTransactions

/-! ## What a session knows -/

/-- The open transaction of a session, and rows that it knows to be committed. -/
structure Known where
  txn : Option Transaction
  rows : List HandleRow

/-- The committed rows that an answer shows. What is found while there are writes of the session's own
may be one of them. -/
def shown (txn : Option Transaction) : (s : Statement) → Answer s → List HandleRow
  | .selectHandle pk, .ok (some h) => if (txn.getD ⟨[], []⟩).handles = [] then [⟨h, pk⟩] else []
  | .commit, .ok _ => (txn.getD ⟨[], []⟩).handles
  | _, _ => []

def learn (l : Known) (s : Statement) (r : Answer s) : Known :=
  ⟨HandleClaims.next l.txn s r, shown l.txn s r ++ l.rows⟩

def learnOp (l : Known) : (o : Op) → Res o → Known
  | .query s, r => learn l s r
  | _, _ => l

def Registers (pk h : String) (msg : ClientMessage) : Prop :=
  ∃ addresses kind timestamp signature requestId,
    msg = .register pk (some h) addresses kind timestamp signature requestId

/-- The phase answers such a message. -/
def AsksFor (crates : Crates) (pk h : String) : Phase → Prop
  | .registering _ text now => ∃ s msg, text = some s ∧
    authenticateRegister crates now s = .ok msg ∧ Registers pk h msg
  | .handling session text now => ∃ msg, authenticate crates now session text = .ok msg ∧
    Registers pk h msg
  | _ => False

/-- A `Registered` reply that reports a handle as claimed answers a message that asks for it, and the
table maps it to the key. -/
def Truthful (crates : Crates) (_ : List BrokerEvent) (σ : BrokerConfig) : BrokerEvent → Prop
  | .performed t (.send _ (.registered _ _ true _)) _ =>
    ∀ pk h, AsksFor crates pk h (ctls σ t) → ⟨h, pk⟩ ∈ σ.shared.db.handles
  | _ => True

/-- When the handler of a register message reads the registry for the second time, the entry of its
session has the handle the message asks for, or none. -/
def SameHandle (crates : Crates) (tr : List BrokerEvent) (σ : BrokerConfig) : BrokerEvent → Prop
  | .performed t (.registry (.getPeer session)) _ => ∀ text now pk h,
    ctls σ t = .handling session text now → AsksFor crates pk h (ctls σ t) → Resumed t tr →
      ∀ peer, σ.shared.registry.byPubkey.lookup session = some peer →
        ∀ h', peer.handle = some h' → h' = h
  | _ => True

/-! ## Programs that report what they know -/

section Programs

variable {crates : Crates} {hasDb : Bool} {t : ℕ} {pk : String}

theorem claim_knows (pubkey handle : String) (l : Known) :
    (Handles.claim crates pubkey handle).run.Follows learn
      (fun l s => HandleClaims.OwnOrder pubkey l.txn s)
      (fun l x => x = .ok () → ⟨handle, pubkey⟩ ∈ l.rows) l := by
  simp only [Handles.claim, upsertPeer, claimHandle]
  refine follows_check_bind (by simp) fun _ _ => ?_
  refine follows_execute_bind trivial (by simp) fun _ => ?_
  refine follows_execute_bind trivial (by simp) fun _ => ?_
  refine follows_execute_bind trivial (by simp) fun existing => ?_
  cases existing with
  | some h =>
    refine follows_execute_bind trivial (by simp) fun _ => ?_
    split_ifs with hsame
    · subst hsame
      exact fun _ => List.mem_cons_self
    · simp
  | none =>
    refine follows_execute_bind trivial (by simp) fun owner => ?_
    cases owner with
    | some pk => exact follows_execute_bind trivial (by simp) fun _ => by simp
    | none =>
      refine follows_execute_bind ⟨rfl, rfl⟩ (by simp) fun _ => ?_
      refine follows_execute_bind ⟨rfl, rfl⟩ (by simp) fun _ => ?_
      refine ⟨⟨handle, rfl⟩, fun r => ?_⟩
      cases r with
      | ok u => exact fun _ => List.mem_cons_self
      | error e => exact fun h => by cases h

/-- What a registration of a key may do with a handle it has asked for. -/
def Backed (pk : String) (handle : Option String) (l : Known) : Op → Prop
  | .query s => HandleClaims.OwnOrder pk l.txn s
  | .registry (.insertPeer peer) =>
    peer.pubkey = pk ∧ ∀ h, peer.handle = some h → ⟨h, pk⟩ ∈ l.rows
  | .send _ (.registered _ _ true _) => ∀ h, handle = some h → ⟨h, pk⟩ ∈ l.rows
  | _ => True

/-- The handle is claimed: it was asked for, and its row is known. -/
def ClaimKnown (pk : String) (handle : Option String) (l : Known) (claimed : Bool) : Prop :=
  claimed = true → ∀ h, handle = some h → ⟨h, pk⟩ ∈ l.rows

theorem claimRequested_knows (handle : String) (l : Known) :
    (claimRequested crates pk handle).Follows learnOp (Backed pk (some handle))
      (ClaimKnown pk (some handle)) l := by
  have hclaim : (query (Handles.claim crates pk handle)).Follows learnOp (Backed pk (some handle))
      (fun l x => x = .ok () → ⟨handle, pk⟩ ∈ l.rows) l :=
    Prog.Follows.lift (claim_knows pk handle l) (fun _ _ _ => rfl) fun _ _ h => h
  refine hclaim.bind fun l x hx => ?_
  have hno : ∀ outcome, (do
      metric (.handleClaimsTotal outcome)
      pure false : Work Bool).Follows learnOp (Backed pk (some handle))
      (ClaimKnown pk (some handle)) l := fun outcome => ⟨trivial, fun _ => nofun⟩
  split
  · refine ⟨trivial, fun _ _ h heq => ?_⟩
    cases heq
    exact hx rfl
  · exact hno _
  · exact hno _
  · exact hno _

theorem recordPeer_knows (handle : Option String) (kind : IdentityKind) (requestId : Option String)
    (l : Known) : (recordPeer crates hasDb t pk handle kind requestId).Follows learnOp
      (Backed pk handle) (ClaimKnown pk handle) l := by
  cases hasDb with
  | false =>
    cases handle with
    | some h => exact ⟨trivial, fun _ => nofun⟩
    | none => exact nofun
  | true =>
    have hupsert : (query (upsertPeerWithKind pk kind.asStr)).Follows learnOp (Backed pk handle)
        (fun _ _ => True) l := by
      have hcall : (upsertPeerWithKind pk kind.asStr).run.Follows learn
          (fun l s => HandleClaims.OwnOrder pk l.txn s) (fun _ _ => True) l :=
        ⟨trivial, fun _ => trivial⟩
      exact Prog.Follows.lift hcall (fun _ _ _ => rfl) fun _ _ h => h
    refine hupsert.bind fun l _ _ => ?_
    cases handle with
    | some h => exact claimRequested_knows h l
    | none => exact nofun

theorem enter_knows (addr : Registry.SocketAddr) (handle : Option String)
    (addresses : PeerAddresses) (kind : Option IdentityKind) (requestId : Option String)
    (l : Known) : (enter crates hasDb t addr pk handle addresses kind requestId).Follows learnOp
      (Backed pk handle) (fun _ _ => True) l := by
  refine (recordPeer_knows handle _ requestId l).bind fun l claimed hclaimed => ?_
  -- from here on nothing is asked of the database
  have hrest : (do
      registry (Registry.insert ⟨pk, if claimed then handle else none, addresses, addr, t⟩)
      metric (.connectedPeers 1)
      metric .registrationsTotal
      send t (.registered pk addr claimed requestId)
      broadcast pk true
      pure (.registered pk) : Work Outcome).Always
      fun o => Backed pk handle l o ∧ ∀ r, learnOp l o r = l := by
    have hhandle : ∀ h, (if claimed then handle else none) = some h → ⟨h, pk⟩ ∈ l.rows := by
      intro h heq
      split_ifs at heq with hc
      exact hclaimed hc h heq
    refine (insert_always _ (fun _ => ⟨trivial, fun _ => rfl⟩)
      ⟨⟨rfl, hhandle⟩, fun _ => rfl⟩).bind fun _ => ?_
    refine (always_metric ⟨trivial, fun _ => rfl⟩).bind fun _ => ?_
    refine (always_metric ⟨trivial, fun _ => rfl⟩).bind fun _ => ?_
    have hreply : Backed pk handle l (.send t (.registered pk addr claimed requestId)) := by
      cases claimed with
      | true => exact hclaimed rfl
      | false => trivial
    refine (always_send ⟨hreply, fun _ => rfl⟩).bind fun _ => ?_
    exact (broadcast_always pk true ⟨trivial, fun _ => rfl⟩ (fun _ => ⟨trivial, fun _ => rfl⟩)
      fun _ => ⟨trivial, fun _ => rfl⟩).bind fun _ => trivial
  exact hrest.follows (fun _ ho => ho) fun _ => trivial

/-- What a session may do, in its phase, with what it knows. -/
def BackedIn (crates : Crates) (c : Phase) (l : Known) : Op → Prop
  | .query s => ∃ pk, HandleClaims.OwnOrder pk l.txn s
  | .registry (.insertPeer peer) => ∀ h, peer.handle = some h → ⟨h, peer.pubkey⟩ ∈ l.rows
  | .send _ (.registered _ _ true _) => ∀ addr text now pk h, c = .registering addr text now →
    AsksFor crates pk h c → ⟨h, pk⟩ ∈ l.rows
  | _ => True

theorem register_knows (now : UnixTime) (addr : Registry.SocketAddr) (text : Option String)
    (l : Known) : (register crates hasDb t now addr text).Follows learnOp
      (BackedIn crates (.registering addr text now)) (fun _ _ => True) l := by
  rcases register_cases crates hasDb t now addr text with
    ⟨s, pk, handle, addresses, kind, timestamp, signature, requestId, rfl, hauth, heq⟩ |
      ⟨msg, hmsg, heq, -⟩
  · rw [heq]
    refine (enter_knows addr handle addresses kind requestId l).mono_ok fun l o ho => ?_
    unfold BackedIn
    split
    · exact ⟨pk, ho⟩
    · obtain ⟨rfl, hrow⟩ := ho
      exact hrow
    · rintro addr' text' now' pk' h - ⟨s', msg, hs, hauth', _, _, _, _, _, rfl⟩
      cases hs
      rw [hauth] at hauth'
      cases hauth'
      exact ho h rfl
    · trivial
  · rw [heq]
    refine (reject_always t hmsg).follows_any (fun l o ho => ?_) fun _ _ => trivial
    obtain ⟨code, message, requestId, rfl⟩ := ho
    trivial

theorem backedIn_of_permitted {c : Phase} {l : Known} {o : Op} (ho : Permitted crates t c o)
    (hc : ∀ addr text now, c ≠ .registering addr text now) : BackedIn crates c l o := by
  unfold BackedIn
  split
  · rename_i s
    have hs : s.controls = false := uncontrolled_of_permitted ho hc
    refine ⟨"", ?_⟩
    cases s <;> trivial
  · rename_i peer
    cases c with
    | registering addr text now => exact absurd rfl (hc addr text now)
    | handling pk text now =>
      rcases ho with ⟨msg, -, -, hled⟩ | ⟨-, code, message, requestId, he⟩
      · exact hled.elim
      · cases he
    | _ => exact ho.elim
  · exact fun addr text now _ _ heq => absurd heq (hc addr text now)
  · trivial

theorem start_knows {c c' : Phase} {i : Input} {p : Work Outcome}
    (hs : start crates hasDb t c i = some (c', p)) (l : Known) :
    p.Follows learnOp (BackedIn crates c') (fun _ _ => True) l := by
  by_cases hc : ∃ addr text now, c' = .registering addr text now
  · obtain ⟨addr, text, now, rfl⟩ := hc
    rw [start_registering hs]
    exact register_knows now addr text l
  · exact (start_permitted hs).follows_any (fun _ _ ho => backedIn_of_permitted ho
      fun addr text now he => hc ⟨addr, text, now, he⟩) fun _ _ => trivial

end Programs

/-! ## Rows stay -/

section Rows

variable {crates : Crates} {t : ℕ}

theorem exec_handles {db db' : Db ℕ} {s : Statement} {env : Database.Env} {r : Answer s}
    (h : db.exec t s env = some (r, db')) : ∀ row ∈ db.handles, row ∈ db'.handles := by
  intro row hrow
  rcases Db.exec_cases h with ⟨e, -, rfl⟩ | ⟨rows, -, -, hr⟩
  · exact hrow
  · rcases Db.run_cases hr with ⟨-, pk, kind, rfl⟩ | ⟨-, teams, members, rfl⟩ | ⟨-, rfl⟩ |
      ⟨handle, pk, -, -, -, rfl⟩ | ⟨handle, pk, -, ⟨-, rfl⟩ | ⟨-, rfl⟩⟩ | ⟨-, rfl⟩ | ⟨-, rfl⟩
    · exact hrow
    · exact hrow
    · exact hrow
    · exact hrow
    · exact hrow
    · exact hrow
    · exact List.mem_append_left _ hrow
    · exact hrow

theorem shown_committed {db db' : Db ℕ} {s : Statement} {env : Database.Env} {r : Answer s}
    (h : db.exec t s env = some (r, db')) :
    ∀ row ∈ shown (db.transactions.lookup t) s r, row ∈ db'.handles := by
  intro row hrow
  have hgrow := exec_handles h
  rcases Db.exec_cases h with ⟨e, rfl, rfl⟩ | ⟨rows, rfl, -, hr⟩
  · cases s <;> cases hrow
  · cases s with
    | selectHandle pk =>
      cases rows with
      | none => cases hrow
      | some found =>
        simp only [shown] at hrow
        split_ifs at hrow with hnone
        · obtain rfl := List.mem_singleton.mp hrow
          have hown : (db.ownWrites t).handles = [] := hnone
          have hfound : ((db.handles ++ (db.ownWrites t).handles).find? fun row =>
              row.pubkey = pk).map HandleRow.handle = some found := by
            simp only [Db.run, Except.ok.injEq, Prod.mk.injEq] at hr
            exact hr.1
          rw [hown, List.append_nil] at hfound
          obtain ⟨row, hfind, rfl⟩ := Option.map_eq_some_iff.mp hfound
          have hpk : row.pubkey = pk := by simpa using List.find?_some hfind
          obtain rfl := hpk
          exact hgrow _ (List.mem_of_find?_eq_some hfind)
        · cases hrow
    | commit =>
      cases hr
      exact List.mem_append_right _ hrow
    | _ => cases hrow

theorem handles_stay {o : Op} {env : Env} {b b' : Broker} {r : Res o}
    (h : Broker.exec crates t o env b = some (r, b')) : ∀ row ∈ b.db.handles, row ∈ b'.db.handles := by
  cases o with
  | query s =>
    obtain ⟨db, hdb, rfl⟩ := Broker.exec_query h
    exact exec_handles hdb
  | _ =>
    rw [(Broker.exec_frame h).db nofun]
    exact fun _ hrow => hrow

theorem handles_stay_of_run {hasDb : Bool} {tr : List BrokerEvent} {σ₀ σ : BrokerConfig}
    (h : Run (broker crates hasDb) σ₀ tr σ) :
    ∀ row ∈ σ₀.shared.db.handles, row ∈ σ.shared.db.handles := by
  induction h with
  | start => exact fun _ hrow => hrow
  | step _ next ih =>
    rcases next.cases with ⟨t, i, c, c', p, rfl, -, -, rfl⟩ |
      ⟨t, c, o, k, env, r, s', rfl, -, hx, rfl⟩ | ⟨x, s', rfl, hx, rfl⟩
    · exact ih
    · exact fun row hrow => handles_stay hx row (ih row hrow)
    · obtain ⟨channels, rfl⟩ := Broker.writerStep_frame hx
      exact ih

end Rows

/-! ## Entries and knowledge along a run -/

/-- An entry of the registry stands under its own key, and has a handle only if the table has it for
that key. -/
def Recorded (b : Broker) : Prop := ∀ pk peer, b.registry.byPubkey.lookup pk = some peer →
  peer.pubkey = pk ∧ ∀ h, peer.handle = some h → ⟨h, pk⟩ ∈ b.db.handles

structure Justly (t : ℕ) (l : Known) (b : Broker) : Prop where
  txn : l.txn = b.db.transactions.lookup t
  rows : ∀ row ∈ l.rows, row ∈ b.db.handles

section Runs

variable {crates : Crates} {hasDb : Bool} {db₀ : Db ℕ} {tr : List BrokerEvent} {σ : BrokerConfig}

theorem Recorded.exec {t : ℕ} {c : Phase} {l : Known} {o : Op} {env : Env} {b b' : Broker} {r : Res o}
    (hb : Recorded b) (hx : Broker.exec crates t o env b = some (r, b')) (hl : Justly t l b)
    (ho : BackedIn crates c l o) : Recorded b' := by
  have hgrow := handles_stay hx
  intro pk peer hpeer
  cases o with
  | registry a =>
    cases hx
    simp only [Registry.PeerRegistry.lookup_exec] at hpeer
    cases a with
    | insertPeer entered =>
      simp only at hpeer
      split_ifs at hpeer with hpk
      · cases hpeer
        subst hpk
        exact ⟨rfl, fun h hh => hl.rows _ (ho h hh)⟩
      · exact hb pk peer hpeer
    | removePeer pubkey =>
      simp only at hpeer
      split_ifs at hpeer
      exact hb pk peer hpeer
    | _ => exact hb pk peer hpeer
  | _ =>
    rw [(Broker.exec_frame hx).registry nofun] at hpeer
    obtain ⟨hkey, hhandle⟩ := hb pk peer hpeer
    exact ⟨hkey, fun h hh => hgrow _ (hhandle h hh)⟩

theorem Justly.exec {t : ℕ} {c : Phase} {l : Known} {o : Op} {env : Env} {b b' : Broker} {r : Res o}
    (hl : Justly t l b) (hx : Broker.exec crates t o env b = some (r, b'))
    (hf : HandleClaims.ForeignKey b.db) (ho : BackedIn crates c l o) :
    Justly t (learnOp l o r) b' := by
  cases o with
  | query s =>
    obtain ⟨db, hdb, rfl⟩ := Broker.exec_query hx
    obtain ⟨pk, hord⟩ := ho
    have hin : HandleClaims.InOrder (b.db.transactions.lookup t) s := by
      rw [← hl.txn]
      exact hord.inOrder
    refine ⟨?_, fun row hrow => ?_⟩
    · have hown := HandleClaims.exec_own hdb hf hin
      rw [← hl.txn] at hown
      exact hown.symm
    · rcases List.mem_append.mp hrow with hshown | hknown
      · rw [hl.txn] at hshown
        exact shown_committed hdb row hshown
      · exact exec_handles hdb row (hl.rows row hknown)
  | _ =>
    have hdb := (Broker.exec_frame hx).db nofun
    exact ⟨hl.txn.trans (by rw [hdb]), fun row hrow => hdb ▸ hl.rows row hrow⟩

theorem Justly.other {t u : ℕ} {l : Known} {o : Op} {env : Env} {b b' : Broker} {r : Res o}
    (hl : Justly u l b) (hx : Broker.exec crates t o env b = some (r, b')) (hu : u ≠ t) :
    Justly u l b' := by
  refine ⟨hl.txn.trans ?_, fun row hrow => handles_stay hx row (hl.rows row hrow)⟩
  exact (transaction_other hx hu).symm

/-- In every run the entries of the registry are recorded, and every session does what it may with
what it knows. -/
theorem records (h : Run (broker crates hasDb) (fresh db₀) tr σ) : Recorded σ.shared ∧
    ∀ t c p, σ.tasks t = .running c p → ∃ l,
      p.Follows learnOp (BackedIn crates c) (fun _ _ => True) l ∧ Justly t l σ.shared := by
  have hrule := h.guarded.relyGuarantee learnOp (BackedIn crates) (fun t _ l b => Justly t l b)
    (fun b => HandleClaims.ForeignKey b.db ∧ Recorded b) (fresh_idle db₀) ?_ ?_ ?_ ?_ ?_
  · exact ⟨hrule.1.2, hrule.2⟩
  · refine ⟨fun u txn hu => ?_, fun pk peer hpeer => ?_⟩
    · cases hu
    · cases hpeer
  · intro t c i c' p b hs _
    exact ⟨⟨b.db.transactions.lookup t, []⟩, start_knows hs _, rfl, nofun⟩
  · rintro tr σ t c l o k env r b' - - hx ⟨hf, hb⟩ hl ho
    exact ⟨⟨exec_foreignKey hx hf, hb.exec hx hl ho⟩, hl.exec hx hf ho⟩
  · intro t u o env b r b' c l hx hu hl
    exact hl.other hx hu
  · intro x b b' hx
    obtain ⟨channels, rfl⟩ := Broker.writerStep_frame hx
    exact ⟨id, fun t c l hl => ⟨hl.txn, hl.rows⟩⟩

theorem pump_register {t : ℕ} {session text : String} {now : UnixTime} {pk : String}
    {handle : Option String} {addresses : PeerAddresses} {kind : Option IdentityKind}
    {timestamp : Int64} {signature : String} {requestId : Option String}
    (h : authenticate crates now session text =
      .ok (.register pk handle addresses kind timestamp signature requestId)) :
    pump crates hasDb t now session text =
      .call (.registry (.getPeer session)) fun reflected =>
      .call (.registry (.getPeer session)) fun claimed =>
      .call (.send t (.registered session ((reflected.map (·.reflected)).getD "")
        (claimed.bind (·.handle)).isSome requestId)) fun _ => .done .finished := by
  rw [pump, handleClientMessage, run_require_bind, h]
  rfl

/-- The reply to a later register message reports the handle of the entry it has read. -/
theorem later_reply (h : GuardedRun (broker crates hasDb) (SameHandle crates) (fresh db₀) tr σ)
    {t c : ℕ} {session text pk pk' hd : String} {now : UnixTime} {addr : Registry.SocketAddr}
    {requestId : Option String} {k}
    (ht : σ.tasks t = .running (.handling session text now)
      (.call (.send c (.registered pk' addr true requestId)) k))
    (hasks : AsksFor crates pk hd (.handling session text now)) : ⟨hd, pk⟩ ∈ σ.shared.db.handles := by
  have hasks' := hasks
  obtain ⟨msg, hauth, addresses, kind, timestamp, signature, reqId, rfl⟩ := hasks'
  obtain rfl : pk = session := (Authentication.authentic_of_authenticate hauth).sender
  have hlogged : Logged (broker crates hasDb) t .absent (taskLog t tr) (σ.tasks t) :=
    h.run.logged rfl
  rw [ht] at hlogged
  obtain ⟨i, hist, older, c₁, p, hlog, -, hs, hafter⟩ := hlogged.running
  obtain rfl : p = pump crates hasDb t now pk text := start_handling hs
  rw [pump_register hauth] at hafter
  -- two reads have been answered, and the reply carries what the second has found
  rcases hafter.of_call with ⟨-, he⟩ | ⟨reflected, hist₁, rfl, hafter₁⟩
  · cases he
  rcases hafter₁.of_call with ⟨-, he⟩ | ⟨found, hist₂, rfl, hafter₂⟩
  · cases he
  rcases hafter₂.of_call with ⟨rfl, he⟩ | ⟨sent, hist₃, rfl, hafter₃⟩
  · have hflag : (found.bind (·.handle)).isSome = true := by
      injection he with hop _
      injection hop with _ hmsg
      injection hmsg with _ _ hflag _
      exact hflag.symm
    obtain ⟨tr₁, tr₂, rfl, hlog₁, hforeign⟩ := taskLog_cut hlog
    obtain ⟨σ₁, σ₂, h₁, hstep, hguard, h₂⟩ := h.cut
    have htask := (h₂.task_of_foreign hforeign).symm.trans ht
    rcases hstep.cases with ⟨u, i', c', c'', q, he', -⟩ |
      ⟨u, c', o, k', env, r, s', he', hu, hx, rfl⟩ | ⟨x, s', he', -⟩
    · cases he'
    · cases he'
      simp only [Function.update_self] at htask
      obtain ⟨rfl, -⟩ := settle_running htask
      have hx' : Broker.exec crates t (.registry (.getPeer pk)) env σ₁.shared = some (found, s') := hx
      cases hx'
      obtain ⟨h', hh'⟩ := Option.isSome_iff_exists.mp hflag
      obtain ⟨peer, hpeer, hhandle⟩ := Option.bind_eq_some_iff.mp hh'
      have hctl : ctls σ₁ t = .handling pk text now := by
        rw [ctls, hu]
        rfl
      obtain rfl := hguard text now pk hd hctl (hctl ▸ hasks) ⟨i, _, [], older, hlog₁⟩ peer hpeer h'
        hhandle
      have hrow := ((records h₁.run).1 pk peer hpeer).2 h' hhandle
      exact handles_stay_of_run h₂ _ hrow
    · cases he'
  · obtain ⟨-, he⟩ := hafter₃.of_done
    cases he

/-- In every run in which the handler of a later register message that asks for a handle finds an
entry with that handle or none, every `Registered` reply that reports a handle as claimed is right:
the table maps the handle the message asks for to the key. -/
theorem handle_claimed_truthful
    (h : GuardedRun (broker crates hasDb) (SameHandle crates) (fresh db₀) tr σ) :
    GuardedRun (broker crates hasDb) (Truthful crates) (fresh db₀) tr σ := by
  refine h.weaken fun {tr σ e σ'} hrun hstep _ => ?_
  unfold Truthful
  split
  · rename_i t c pk' addr requestId sent _
    intro pk hd hasks
    rcases hstep.cases with ⟨u, i, c', c'', p, he, -⟩ |
      ⟨u, phase, o, k, env, r, s', he, ht, -⟩ | ⟨x, s', he, -⟩
    · cases he
    · cases he
      rw [ctls, ht] at hasks
      cases phase with
      | registering addr' text now =>
        obtain ⟨l, hf, hl⟩ := (records hrun.run).2 t _ _ ht
        exact hl.rows _ (hf.1 addr' text now pk hd rfl hasks)
      | handling session text now => exact later_reply hrun ht hasks
      | _ => exact hasks.elim
    · cases he
  · trivial

end Runs

/-! ## Registering again -/

open Scripts Crates

def joinsAs (handle : String) : List Cue :=
  [.connect 0, .say 0 'a' (registerAs 'a' (some handle))] ++ steps 0 15 calm

/-- A peer claims one handle, and in the same session registers for another one. -/
def registersTwice (first second : String) : List Cue :=
  joinsAs first ++ [.say 0 'a' (registerAs 'a' (some second))] ++ steps 0 2 calm

def flags (tr : List BrokerEvent) : List Bool := tr.filterMap fun e =>
  match e with
  | .performed _ (.send _ (.registered _ _ claimed _)) _ => some claimed
  | _ => none

def repeatsHandle (handle : String) (_ : List BrokerEvent) (σ : BrokerConfig) : BrokerEvent → Bool
  | .performed t (.registry (.getPeer session)) _ =>
    match ctls σ t with
    | .handling _ text _ => text = wire (registerAs 'a' (some handle)) ∧
      (σ.shared.registry.byPubkey.lookup session).bind (·.handle) = some handle
    | _ => true
  | _ => true

theorem repeatsHandle_sound {handle : String} {tr : List BrokerEvent} {σ : BrokerConfig}
    {e : BrokerEvent} (h : repeatsHandle handle tr σ e = true) : SameHandle demo tr σ e := by
  unfold SameHandle
  split
  · rename_i t session found
    intro text now pk hd hctl hasks _ peer hpeer h' hhandle
    simp only [repeatsHandle, hctl, decide_eq_true_eq] at h
    obtain ⟨rfl, hentry⟩ := h
    rw [hpeer] at hentry
    have hsame : h' = handle := Option.some.inj (hhandle.symm.trans hentry)
    rw [hctl] at hasks
    obtain ⟨msg, hauth, addresses, kind, timestamp, signature, requestId, hmsg⟩ := hasks
    rw [authenticate_wire hauth] at hmsg
    cases hmsg
    exact hsame
  · trivial

theorem handle_claimed_truthful_again : ∃ tr σ,
    GuardedRun (broker demo true) (SameHandle demo) (fresh DatabaseCalls.emptyDb) tr σ ∧
    flags tr = [true, true] ∧
    GuardedRun (broker demo true) (Truthful demo) (fresh DatabaseCalls.emptyDb) tr σ := by
  have hplayed : (play true (repeatsHandle "alice") (registersTwice "alice" "alice" ++ steps 0 1 calm)
      [] (fresh DatabaseCalls.emptyDb)).map (fun x => flags x.1) = some [true, true] := by
    decide +kernel
  obtain ⟨⟨tr, σ⟩, hp, hflags⟩ := Option.map_eq_some_iff.mp hplayed
  have hrun : GuardedRun (broker demo true) (SameHandle demo) (fresh DatabaseCalls.emptyDb) tr σ :=
    guardedRun_of_play true (fun _ _ _ => repeatsHandle_sound) .start hp
  exact ⟨tr, σ, hrun, hflags, handle_claimed_truthful hrun⟩

/-- The session answers the second message, and reports its handle as claimed. -/
def reports (text : String) (σ : BrokerConfig) : Bool :=
  (match ctls σ 0 with
  | .handling pk text' now => pk = keyText 'a' ∧ text' = text ∧ now.secs = 0
  | _ => false) &&
  match cue true σ (.perform 0 calm) with
  | some (.performed 0 (.send _ (.registered _ _ true _)) _, _) => true
  | _ => false

theorem second_handle_outcome :
    (play true (fun _ _ _ => true) (registersTwice "alice" "bob") []
      (fresh DatabaseCalls.emptyDb)).map (fun x => (x.2.shared.db.handles,
        reports (wire (registerAs 'a' (some "bob"))) x.2)) =
      some ([⟨"alice", keyText 'a'⟩], true) := by
  decide +kernel

/-- The peer is told that it has claimed the second handle, which nobody owns. -/
theorem second_handle_reported : ∃ tr σ e σ',
    Run (broker demo true) (fresh DatabaseCalls.emptyDb) tr σ ∧ Step (broker demo true) σ e σ' ∧
    ¬ Truthful demo tr σ e := by
  obtain ⟨⟨tr, σ⟩, hp, heq⟩ := Option.map_eq_some_iff.mp second_handle_outcome
  simp only [Prod.mk.injEq] at heq
  obtain ⟨hhandles, hreports⟩ := heq
  obtain ⟨hctl, hcue⟩ := Bool.and_eq_true_iff.mp hreports
  split at hcue
  · rename_i c pk addr requestId sent σ' hstep
    refine ⟨tr, σ, _, σ', run_of_play true hp, step_of_cue true hstep, fun htrue => ?_⟩
    have hasks : AsksFor demo (keyText 'a') "bob" (ctls σ 0) := by
      split at hctl
      · rename_i session text now hphase
        obtain ⟨rfl, rfl, hnow⟩ := of_decide_eq_true hctl
        obtain rfl : now = .midnight := by
          cases now
          cases hnow
          rfl
        rw [hphase]
        have hspoken : SpokenBy 'a' (registerAs 'a' (some "bob")) := by decide +kernel
        exact ⟨_, hspoken.authenticated (fromStr_wire _ _) rfl, _, _, _, _, _, rfl⟩
      · cases hctl
    have hrow := htrue (keyText 'a') "bob" hasks
    rw [hhandles] at hrow
    exact absurd hrow (by decide)
  · cases hcue

end HashedBroker.HandleRecords
