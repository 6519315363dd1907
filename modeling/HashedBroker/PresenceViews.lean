import HashedBroker.PresenceReadings
import HashedBroker.RegistryLiveness

/-!
# What a subscriber is told last

A subscriber hears of a target from two sides: from its own session, which reports what it has read in
the registry when it subscribed, and from the sessions of the target, which broadcast what they have
done to the registry. Every change of the registry binds the session that made it to a broadcast, and
every subscription binds its session to a report, so nobody is forgotten. But what is reported was read
a while ago: a report that is put on the channel after one of a newer change can be the last one.
-/
namespace HashedBroker.PresenceViews
open AtomicPrograms ReactiveTasks Protocol Server Sessions RegistryLiveness PresenceReadings

/-- The channel was told last what the registry says. -/
def Current (b : Broker) (T : String) (r : ℕ) : Prop :=
  lastUpdate T (b.channels r).sent = some (b.registry.isOnline T)

/-! ## What the operations of a session bind it to -/

def Updates (r : ℕ) (T : String) (o : Op) : Prop := ∃ online, o = .send r (.presenceUpdate T online)

/-- The answers with which a broadcast about `T` comes to the session `r` of `S`. -/
def Reaches (S T : String) (r : ℕ) : (o : Op) → Res o → Prop
  | .presence (.watchers T'), ws => T' = T → ∃ l, ws = some l ∧ S ∈ l
  | .registry (.getPeer S'), peer => S' = S → ∃ p, peer = some p ∧ p.tx = r
  | _, _ => True

def Any (o : Op) (_ : Res o) : Prop := True

/-- What is due after an operation of the task `t`. -/
def Due (t : ℕ) : Op → ((o : Op) → Res o → Prop) → (Op → Prop) → Prop
  | .presence (.insert S T), A, G => A = Any ∧ G = fun o => o = .presence (.watch T S)
  | .presence (.watch T _), A, G => A = Any ∧ G = Updates t T
  | .registry (.insertPeer peer), A, G =>
    ∃ S r, A = Reaches S peer.pubkey r ∧ G = Updates r peer.pubkey
  | .registry (.removePeer T), A, G => ∃ S r, A = Reaches S T r ∧ G = Updates r T
  | _, _, _ => False

def OwesNothing (o : Op) : Prop := ∀ t A G, ¬ Due t o A G

section Programs

variable {crates : Crates} {hasDb : Bool} {t : ℕ} {S T pk : String} {r : ℕ} {α β : Type}

theorem owesNothing_send (c : ℕ) (msg : ServerMessage) : OwesNothing (.send c msg) := fun _ _ _ => id

theorem owesNothing_metric (u : MetricUpdate) : OwesNothing (.metric u) := fun _ _ _ => id

theorem owes_of_nothing {p : Work α} (hp : p.Always OwesNothing) : p.Owes (Due t) :=
  hp.owes fun _ ho => ho t

theorem broadcastEach_must (online : Bool) {ws : List String} (hS : S ∈ ws) :
    (broadcastEach (.presenceUpdate T online) ws).Must (Reaches S T r) (Updates r T) := by
  induction ws with
  | nil => cases hS
  | cons w ws ih =>
    refine Or.inr fun found hfound => ?_
    by_cases hw : w = S
    · obtain ⟨peer, rfl, rfl⟩ := hfound hw
      exact Or.inl ⟨online, rfl⟩
    · have hrest := ih ((List.mem_cons.mp hS).resolve_left (Ne.symm hw))
      cases found with
      | none => exact hrest
      | some peer => exact Or.inr fun _ _ => hrest

theorem broadcast_must (S T : String) (r : ℕ) (online : Bool) :
    (broadcast T online).Must (Reaches S T r) (Updates r T) := by
  refine Or.inr fun ws hws => ?_
  obtain ⟨l, rfl, hS⟩ := hws rfl
  exact broadcastEach_must online hS

theorem sendUpdates_must {online : List (String × Bool)} (hT : T ∈ online.map Prod.fst) :
    (sendUpdates t online).Must Any (Updates t T) := by
  induction online with
  | nil => cases hT
  | cons x online ih =>
    obtain ⟨pk, on⟩ := x
    by_cases hpk : pk = T
    · subst hpk
      exact Or.inl ⟨on, rfl⟩
    · refine Or.inr fun _ _ => ih ?_
      exact (List.mem_cons.mp hT).resolve_left (Ne.symm hpk)

theorem onlineSet_must {peers : List String} {f : List (String × Bool) → Work β}
    {A : (o : Op) → Res o → Prop} {G : Op → Prop}
    (hf : ∀ online, online.map Prod.fst = peers → (f online).Must A G) :
    (registry (Registry.onlineSet peers) >>= f).Must A G := by
  induction peers generalizing f with
  | nil => exact hf [] rfl
  | cons pk peers ih =>
    refine Or.inr fun on _ => ?_
    have hnext : (registry (Registry.onlineSet peers >>= fun rest => pure ((pk, on) :: rest)) >>= f) =
        registry (Registry.onlineSet peers) >>= fun rest => f ((pk, on) :: rest) := by
      rw [registry, Prog.lift_bind, bind_assoc]
      rfl
    have hmust :
        (registry (Registry.onlineSet peers) >>= fun rest => f ((pk, on) :: rest)).Must A G := by
      refine ih fun online honline => hf _ ?_
      rw [List.map_cons, honline]
    rw [← hnext] at hmust
    exact hmust

/-- Each subscription is entered in both indexes, and its report is left to what follows. -/
theorem subscribeEach_owes {peers : List String} {f : Unit → Work β}
    (hmust : ∀ T ∈ peers, (f ()).Must Any (Updates t T)) (howes : (f ()).Owes (Due t)) :
    (presence (Presence.subscribeEach S peers) >>= f).Owes (Due t) := by
  induction peers with
  | nil => exact howes
  | cons T peers ih =>
    have hrest := ih fun T' hT' => hmust T' (List.mem_cons_of_mem T hT')
    refine fun _ => ⟨?_, fun _ => ⟨?_, hrest⟩⟩
    · rintro A G ⟨rfl, rfl⟩
      exact Or.inl rfl
    · rintro A G ⟨rfl, rfl⟩
      exact Prog.Must.of_bind fun _ => hmust T List.mem_cons_self

theorem onSubscribePresence_owes (pk : String) (peers : List String) (requestId : Option String) :
    (onSubscribePresence t pk peers requestId).Owes (Due t) := by
  have hreport : ∀ T ∈ peers, (registry (Registry.onlineSet peers) >>= fun online => do
      send t (.subscribePresenceAck peers requestId)
      sendUpdates t online).Must Any (Updates t T) := by
    intro T hT
    refine onlineSet_must fun online honline => ?_
    refine Prog.Must.of_bind fun _ => sendUpdates_must ?_
    rw [honline]
    exact hT
  have hrest : (registry (Registry.onlineSet peers) >>= fun online => do
      send t (.subscribePresenceAck peers requestId)
      sendUpdates t online).Always OwesNothing :=
    report_always (fun _ _ _ _ => id) (owesNothing_send _ _) fun _ _ => owesNothing_send _ _
  have hcall : presence (Presence.subscribe pk peers) = (perform (.presence (.entry pk)) >>= fun _ =>
      presence (Presence.subscribeEach pk peers) >>= fun _ => perform (.presence .release)) := by
    simp only [presence, Presence.subscribe, Prog.lift_bind]
    rfl
  rw [onSubscribePresence, hcall, bind_assoc]
  refine fun _ => ⟨fun A G hD => hD.elim, ?_⟩
  show ((presence (Presence.subscribeEach pk peers) >>= fun _ => perform (.presence .release)) >>=
    _ : Work Unit).Owes (Due t)
  rw [bind_assoc]
  refine subscribeEach_owes (fun T hT => Prog.Must.of_bind fun _ => Prog.Must.of_bind fun _ =>
    hreport T hT) ?_
  refine fun _ => ⟨fun A G hD => hD.elim, fun _ => ⟨fun A G hD => hD.elim, owes_of_nothing hrest⟩⟩

theorem onUnsubscribePresence_owes (pk : String) (peers : List String) :
    (onUnsubscribePresence pk peers).Owes (Due t) := by
  refine owes_of_nothing (Prog.Always.bind (Prog.Always.lift ?_) fun _ =>
    always_metric (owesNothing_metric _))
  exact unsubscribe_always (fun _ _ _ => id) (fun _ _ _ _ => id) (fun _ _ _ _ => id)
    (fun _ _ _ _ => id) (fun _ _ _ => id) peers

theorem owesNothing_of_handlerOp {msg : ClientMessage} {o : Op} (ho : HandlerOp pk msg o)
    (hsub : msg.tag ≠ "subscribe_presence") (hunsub : msg.tag ≠ "unsubscribe_presence") :
    OwesNothing o := by
  obtain ⟨-, hled⟩ := ho
  intro t A G hdue
  cases o with
  | presence a =>
    rcases hled with htag | htag
    · exact hsub htag
    · exact hunsub htag
  | registry a =>
    cases a with
    | insertPeer peer => exact hled
    | removePeer pubkey => exact hled
    | _ => exact hdue
  | _ => exact hdue

theorem dispatch_owes (pk : String) (msg : ClientMessage) :
    (dispatch crates hasDb t pk msg).run.Owes (Due t) := by
  by_cases hsub : msg.tag = "subscribe_presence"
  · cases msg with
    | subscribePresence pubkey peers timestamp signature requestId =>
      exact (onSubscribePresence_owes pk peers requestId).bind fun _ => trivial
    | _ => simp [ClientMessage.tag] at hsub
  · by_cases hunsub : msg.tag = "unsubscribe_presence"
    · cases msg with
      | unsubscribePresence pubkey peers timestamp signature requestId =>
        exact (onUnsubscribePresence_owes pk peers).bind fun _ => trivial
      | _ => simp [ClientMessage.tag] at hunsub
    · exact owes_of_nothing ((dispatch_always crates hasDb t pk msg).mono
        fun o ho => owesNothing_of_handlerOp ho hsub hunsub)

theorem pump_owes (pk text : String) (now : UnixTime) :
    (pump crates hasDb t now pk text).Owes (Due t) := by
  have hhandler : (handleClientMessage crates hasDb t now pk text).run.Owes (Due t) := by
    rw [handleClientMessage, run_require_bind]
    cases authenticate crates now pk text with
    | error e => trivial
    | ok msg => exact dispatch_owes pk msg
  refine hhandler.bind fun x => ?_
  cases x with
  | ok u => trivial
  | error e => exact fun _ => ⟨fun A G hD => hD.elim, trivial⟩

theorem broadcast_owesNothing (pk : String) (online : Bool) :
    (broadcast pk online).Always OwesNothing :=
  broadcast_always pk online (fun _ _ _ => id) (fun _ _ _ _ => id) fun _ => owesNothing_send _ _

theorem enter_owes (addr : Registry.SocketAddr) (pk : String) (handle : Option String)
    (addresses : PeerAddresses) (kind : Option IdentityKind) (requestId : Option String) :
    (enter crates hasDb t addr pk handle addresses kind requestId).Owes (Due t) := by
  have hrecord : (recordPeer crates hasDb t pk handle (kind.getD .user) requestId).Always
      OwesNothing :=
    recordPeer_always crates hasDb t pk handle (kind.getD .user) requestId (fun _ _ _ => id)
      (fun _ => Prog.always_lift_of (fun _ _ _ _ => id) _) (fun _ => owesNothing_metric _)
      fun _ _ => owesNothing_send _ _
  have hrest : ∀ claimed, (do
      metric (.connectedPeers 1)
      metric .registrationsTotal
      send t (.registered pk addr claimed requestId)
      broadcast pk true
      pure (.registered pk) : Work Outcome).Always OwesNothing := fun claimed =>
    (always_metric (owesNothing_metric _)).bind fun _ =>
    (always_metric (owesNothing_metric _)).bind fun _ =>
    (always_send (owesNothing_send _ _)).bind fun _ =>
    (broadcast_owesNothing pk true).bind fun _ => trivial
  have hinsert : ∀ h, (registry (Registry.insert ⟨pk, h, addresses, addr, t⟩)).Always
      (EntryOp t pk) :=
    fun h => insert_always ⟨pk, h, addresses, addr, t⟩ (fun _ => rfl) ⟨rfl, rfl⟩
  refine (owes_of_nothing hrecord).bind fun claimed => ?_
  refine (hinsert _).owes_bind ?_ fun _ => owes_of_nothing (hrest claimed)
  intro o ho A G hdue _
  refine Prog.Must.of_bind fun _ => Prog.Must.of_bind fun _ => Prog.Must.of_bind fun _ => ?_
  cases o with
  | registry a =>
    cases a with
    | insertPeer peer =>
      obtain ⟨S, r, rfl, rfl⟩ := hdue
      obtain ⟨rfl, -⟩ := ho
      exact (broadcast_must S peer.pubkey r true).bind
    | removePeer pubkey => exact ho.elim
    | _ => exact hdue.elim
  | presence a =>
    cases a with
    | insert S T => exact ho.elim
    | watch T S => exact ho.elim
    | _ => exact hdue.elim
  | _ => exact hdue.elim

theorem cleanup_owes (pk : String) : (cleanup pk).Owes (Due t) := by
  have hremove : (registry (Registry.remove pk)).Always
      fun o => o = .registry (.removePeer pk) ∨ OwesNothing o :=
    Prog.Always.lift (remove_always pk (Or.inl rfl) (fun _ => Or.inr fun _ _ _ => id)
      fun _ => Or.inr fun _ _ _ => id)
  have hrest : (do
      presence (Presence.clearSubscriber pk)
      relay (Relay.dropSessionsFor pk)
      broadcast pk false
      pure .finished : Work Outcome).Always OwesNothing :=
    (Prog.Always.lift (clearSubscriber_always pk (fun _ _ _ => id) (fun _ _ _ _ => id)
      fun _ _ _ _ => id)).bind fun _ =>
    (Prog.always_lift_of (fun _ _ _ _ => id) _).bind fun _ =>
    (broadcast_owesNothing pk false).bind fun _ => trivial
  refine hremove.owes_bind ?_ fun _ => owes_of_nothing
    ((always_metric (owesNothing_metric _)).bind fun _ => hrest)
  intro o ho A G hdue _
  rcases ho with rfl | ho
  · obtain ⟨S, r, rfl, rfl⟩ := hdue
    exact Prog.Must.of_bind fun _ => Prog.Must.of_bind fun _ => Prog.Must.of_bind fun _ =>
      (broadcast_must S pk r false).bind
  · exact absurd hdue (ho t A G)

theorem start_owes {c c' : Phase} {i : Input} {p : Work Outcome}
    (hs : start crates hasDb t c i = some (c', p)) : p.Owes (Due t) := by
  cases start_cases hs with
  | connects addr => trivial
  | registers addr f now =>
    rcases register_cases crates hasDb t now addr f.payload with
      ⟨s, pk, handle, addresses, kind, timestamp, signature, requestId, -, -, heq⟩ |
        ⟨msg, hmsg, heq, -⟩
    · rw [heq]
      exact enter_owes addr pk handle addresses kind requestId
    · rw [heq]
      refine owes_of_nothing ((reject_always t hmsg).mono ?_)
      rintro o ⟨code, message, requestId, rfl⟩
      exact owesNothing_send _ _
  | handles pk text f now hf => exact pump_owes pk text now
  | stays pk f now hf => trivial
  | closes pk f now hf => exact cleanup_owes pk

theorem cleanup_must_take (pk : String) :
    (cleanup pk).Must Any (fun o => o = .presence (.take pk)) := by
  refine Prog.Must.of_bind fun _ => Prog.Must.of_bind fun _ => Prog.Must.bind ?_
  exact Or.inl rfl

theorem register_ne_done (now : UnixTime) (addr : Registry.SocketAddr) (text : Option String)
    (pk : String) : register crates hasDb t now addr text ≠ .done (.registered pk) := by
  rcases register_cases crates hasDb t now addr text with
    ⟨s, pk', handle, addresses, kind, timestamp, signature, requestId, -, -, heq⟩ | ⟨msg, -, heq, -⟩
  · have hmust : (enter crates hasDb t addr pk' handle addresses kind requestId).Must Any
        (fun o => ∃ u, o = .metric u) :=
      Prog.Must.of_bind fun _ => Prog.Must.of_bind fun _ => Prog.Must.bind (Or.inl ⟨_, rfl⟩)
    intro hdone
    rw [← heq, hdone] at hmust
    exact hmust
  · rw [heq]
    cases msg with
    | none => exact nofun
    | some m => exact nofun

end Programs

/-! ## Beginning and ceasing to pump -/

section Pumping

variable {crates : Crates} {hasDb : Bool} {σ σ' : BrokerConfig} {e : BrokerEvent} {r : ℕ} {S : String}

def Loops (S : String) (c : Phase) : Prop := c = .pumping S ∨ ∃ text now, c = .handling S text now

theorem Loops.finish {c : Phase} (h : Loops S c) (a : Outcome) : Loops S (finish c a) := by
  rcases h with rfl | ⟨text, now, rfl⟩
  · exact Or.inl rfl
  · exact Or.inl rfl

theorem loops_of_finish {c : Phase} {a : Outcome} (h : Loops S (finish c a)) :
    Loops S c ∨ (∃ addr text now, c = .registering addr text now) ∧ a = .registered S := by
  cases c with
  | registering addr text now =>
    cases a with
    | registered pk =>
      rcases h with h | ⟨text', now', h⟩
      · cases h
        exact Or.inr ⟨⟨addr, text, now, rfl⟩, rfl⟩
      · cases h
    | _ =>
      rcases h with h | ⟨text', now', h⟩
      · cases h
      · cases h
  | handling pk text now =>
    rcases h with h | ⟨text', now', h⟩
    · cases h
      exact Or.inl (Or.inr ⟨text, now, rfl⟩)
    · cases h
  | closing pk =>
    rcases h with h | ⟨text', now', h⟩
    · cases h
    · cases h
  | _ => exact Or.inl h

theorem Loops.settle {c : Phase} (h : Loops S c) (p : Work Outcome) :
    Loops S (settle (broker crates hasDb) c p).ctl := by
  cases p with
  | done a => exact h.finish a
  | call o k => exact h

theorem loops_of_settle {c : Phase} {p : Work Outcome}
    (h : Loops S (settle (broker crates hasDb) c p).ctl) :
    Loops S c ∨ (∃ addr text now, c = .registering addr text now) ∧ p = .done (.registered S) := by
  cases p with
  | done a =>
    rcases loops_of_finish h with hc | ⟨hc, rfl⟩
    · exact Or.inl hc
    · exact Or.inr ⟨hc, rfl⟩
  | call o k => exact Or.inl h

theorem loops_of_start {t : ℕ} {c c' : Phase} {i : Input} {p : Work Outcome}
    (hs : start crates hasDb t c i = some (c', p))
    (h : Loops S (settle (broker crates hasDb) c' p).ctl) : Loops S c := by
  rcases loops_of_settle h with hc | ⟨⟨addr, text, now, rfl⟩, rfl⟩
  · rcases hc with rfl | ⟨text, now, rfl⟩
    · cases start_cases hs with
      | stays pk f now hf => exact Or.inl rfl
    · cases start_cases hs with
      | handles pk text f now hf => exact Or.inl rfl
  · exact absurd (start_registering hs).symm (register_ne_done now addr text S)

theorem Loops.start {t : ℕ} {c c' : Phase} {i : Input} {p : Work Outcome} (h : Loops S c)
    (hs : start crates hasDb t c i = some (c', p)) :
    Loops S (ReactiveTasks.settle (broker crates hasDb) c' p).ctl ∨
      c' = .closing S ∧ p = cleanup S := by
  rcases h with rfl | ⟨text, now, rfl⟩
  · cases start_cases hs with
    | handles pk text f now hf => exact Or.inl (Loops.settle (Or.inr ⟨_, _, rfl⟩) _)
    | stays pk f now hf => exact Or.inl (Or.inl rfl)
    | closes pk f now hf => exact Or.inr ⟨rfl, rfl⟩
  · cases hs

theorem pumping_iff_loops : Pumping σ r S ↔ Loops S (σ.tasks r).ctl := Iff.rfl

theorem pumping_of_step (hs : Step (broker crates hasDb) σ e σ') (hp : Pumping σ' r S) :
    Pumping σ r S ∨ ∃ o a, e = .performed r o a := by
  rw [pumping_iff_loops] at hp ⊢
  rcases hs.cases with ⟨u, i, c, c', p, rfl, hw, hstart, rfl⟩ |
    ⟨u, c, o, k, env, a, s', rfl, hu, hx, rfl⟩ | ⟨x, s', rfl, hx, rfl⟩
  · by_cases hru : r = u
    · subst hru
      simp only [Function.update_self] at hp
      rw [hw]
      exact Or.inl (loops_of_start hstart hp)
    · simp only [Function.update_of_ne hru] at hp
      exact Or.inl hp
  · by_cases hru : r = u
    · subst hru
      exact Or.inr ⟨o, a, rfl⟩
    · simp only [Function.update_of_ne hru] at hp
      exact Or.inl hp
  · exact Or.inl hp

theorem pumping_step (hs : Step (broker crates hasDb) σ e σ') (hp : Pumping σ r S) :
    Pumping σ' r S ∨
      ((∃ i, e = .input r i) ∧ BoundTo σ' r (.closing S) Any (fun o => o = .presence (.take S))) := by
  rw [pumping_iff_loops] at hp ⊢
  rcases hs.cases with ⟨u, i, c, c', p, rfl, hw, hstart, rfl⟩ |
    ⟨u, c, o, k, env, a, s', rfl, hu, hx, rfl⟩ | ⟨x, s', rfl, hx, rfl⟩
  · by_cases hru : r = u
    · subst hru
      rw [hw] at hp
      simp only [Function.update_self]
      rcases hp.start hstart with hloops | ⟨rfl, rfl⟩
      · exact Or.inl hloops
      · refine Or.inr ⟨⟨i, rfl⟩, cleanup S, ?_, cleanup_must_take S⟩
        simp only [Function.update_self]
        exact settle_must (cleanup_must_take S)
    · simp only [Function.update_of_ne hru]
      exact Or.inl hp
  · by_cases hru : r = u
    · subst hru
      rw [hu] at hp
      simp only [Function.update_self]
      exact Or.inl (hp.settle _)
    · simp only [Function.update_of_ne hru]
      exact Or.inl hp
  · exact Or.inl hp

end Pumping

/-! ## What the steps do to a view -/

section Views

variable {crates : Crates} {hasDb : Bool} {b b' : Broker} {env : Env} {u r : ℕ} {S T : String}
  {o : Op}

theorem targets_step {a : Res o} (hx : Broker.exec crates u o env b = some (a, b'))
    (hT : T ∈ b'.presence.targets S) :
    (T ∈ b.presence.targets S ∧ o ≠ .presence (.take S)) ∨ o = .presence (.insert S T) := by
  cases o with
  | presence acc =>
    obtain ⟨pm, hpm, rfl⟩ := Broker.exec_presence hx
    rw [Broker.withPresence, Presence.PresenceManager.targets_exec hpm] at hT
    cases acc with
    | insert s t =>
      by_cases hs : S = s
      · subst hs
        simp only [if_true, Finset.mem_insert] at hT
        rcases hT with rfl | hT
        · exact Or.inr rfl
        · exact Or.inl ⟨hT, nofun⟩
      · simp only [if_neg hs] at hT
        exact Or.inl ⟨hT, nofun⟩
    | remove s t =>
      refine Or.inl ⟨?_, nofun⟩
      by_cases hs : S = s
      · subst hs
        simp only [if_true] at hT
        exact Finset.mem_of_mem_erase hT
      · simpa only [if_neg hs] using hT
    | take s =>
      by_cases hs : S = s
      · subst hs
        simp at hT
      · simp only [if_neg hs] at hT
        refine Or.inl ⟨hT, fun heq => ?_⟩
        cases heq
        exact hs rfl
    | _ => exact Or.inl ⟨hT, nofun⟩
  | _ =>
    rw [(Broker.exec_frame hx).presence nofun] at hT
    exact Or.inl ⟨hT, nofun⟩

theorem watching_step {a : Res o} (hx : Broker.exec crates u o env b = some (a, b'))
    (hS : S ∈ b.presence.watching T) (hun : o ≠ .presence (.unwatch T S))
    (hdrop : o ≠ .presence (.dropWatchers T)) : S ∈ b'.presence.watching T := by
  cases o with
  | presence acc =>
    obtain ⟨pm, hpm, rfl⟩ := Broker.exec_presence hx
    rw [Broker.withPresence, Presence.PresenceManager.watching_exec hpm]
    cases acc with
    | watch t s =>
      simp only
      split_ifs
      · exact Finset.mem_insert_of_mem hS
      · exact hS
    | unwatch t s =>
      simp only
      split_ifs with ht
      · subst ht
        refine Finset.mem_erase.mpr ⟨?_, hS⟩
        rintro rfl
        exact hun rfl
      · exact hS
    | dropWatchers t =>
      have ht : T ≠ t := by
        rintro rfl
        exact hdrop rfl
      simpa only [if_neg ht] using hS
    | _ => exact hS
  | _ =>
    rw [(Broker.exec_frame hx).presence nofun]
    exact hS

theorem watch_step {a : Unit}
    (hx : Broker.exec crates u (.presence (.watch T S)) env b = some (a, b')) :
    S ∈ b'.presence.watching T := by
  obtain ⟨pm, hpm, rfl⟩ := Broker.exec_presence hx
  rw [Broker.withPresence, Presence.PresenceManager.watching_exec hpm]
  simp

theorem listed_of_watching {ws : Option (List String)}
    (hx : Broker.exec crates u (.presence (.watchers T)) env b = some (ws, b'))
    (hS : S ∈ b.presence.watching T) : ∃ l, ws = some l ∧ S ∈ l := by
  obtain ⟨pm, hpm, rfl⟩ := Broker.exec_presence hx
  rw [Presence.PresenceManager.watching] at hS
  obtain ⟨-, ⟨w, hw, rfl, hlists⟩ | ⟨hnone, -⟩⟩ := Presence.PresenceManager.exec_watchers hpm
  · rw [hw, Option.getD_some, ← hlists.2] at hS
    exact ⟨_, rfl, List.mem_toFinset.mp hS⟩
  · rw [hnone] at hS
    simp at hS

end Views

/-! ## The invariant -/

/-- What a session in such a phase looks up is for its broadcast. -/
def Announcing (c : Phase) : Prop := ∀ pk text now, c ≠ .handling pk text now

def OnePumping (σ : BrokerConfig) : Prop := ∀ r r' S, Pumping σ r S → Pumping σ r' S → r = r'

/-- The conditions under which a step does not spoil a view. What is reported to a pumping session of
a target it is subscribed to is put on its channel, and not after a report that was read when the
target had come or gone once more. A broadcast finds the pumping session of a subscriber. And nobody
is taken out of the watchers who is subscribed. -/
structure Orderly (tr : List BrokerEvent) (σ : BrokerConfig) (e : BrokerEvent) : Prop where
  alone : OnePumping σ
  inOrder : ∀ u r T online sent, e = .performed u (.send r (.presenceUpdate T online)) sent →
    ∀ S, Pumping σ r S → T ∈ σ.shared.presence.targets S → (σ.shared.channels r).closed = false ∧
      ∀ old ∈ lastReport r T tr, ∀ now ∈ (unreported u T tr).head?, old.date ≤ now.date
  found : ∀ u S peer, e = .performed u (.registry (.getPeer S)) peer →
    Announcing (σ.tasks u).ctl → ∀ r T, Pumping σ r S → T ∈ σ.shared.presence.targets S →
      ∃ p, σ.shared.registry.byPubkey.lookup S = some p ∧ p.tx = r
  kept : ∀ u a ans, e = .performed u (.presence a) ans → ∀ r S T, Pumping σ r S →
    T ∈ σ.shared.presence.targets S → S ∈ σ.shared.presence.watching T →
    a ≠ .unwatch T S ∧ a ≠ .dropWatchers T

def Clearing (σ : BrokerConfig) (S : String) : Prop :=
  ∃ u c, BoundTo σ u c Any (fun o => o = .presence (.take S))

/-- The session `r` of `S` will be told how `T` is now, by itself or by a broadcast. -/
def Coming (tr : List BrokerEvent) (σ : BrokerConfig) (S T : String) (r : ℕ) : Prop :=
  (∃ c, BoundTo σ r c Any (Updates r T) ∧ Recent tr T r) ∨
    ∃ u c, Announcing c ∧ BoundTo σ u c (Reaches S T r) (Updates r T) ∧ Recent tr T u

/-- The channel was told last how `T` is now. -/
def UpToDate (tr : List BrokerEvent) (T : String) (r : ℕ) : Prop :=
  ∃ x ∈ lastReport r T tr, x.date = changes T tr

/-- How a subscription of a pumping session stands: its session is about to enter it among the
watchers, or it is there, and the last word is of the latest change or such a word is coming. -/
def Attended (tr : List BrokerEvent) (σ : BrokerConfig) (S T : String) (r : ℕ) : Prop :=
  (∃ c, BoundTo σ r c Any (fun o => o = .presence (.watch T S))) ∨
    S ∈ σ.shared.presence.watching T ∧ (UpToDate tr T r ∨ Coming tr σ S T r)

/-- Subscriptions belong to a pumping session, or to one that will take them away, and those of a
pumping session are attended to. -/
structure Inv (tr : List BrokerEvent) (σ : BrokerConfig) : Prop where
  owned : ∀ S T, T ∈ σ.shared.presence.targets S → Clearing σ S ∨ ∃ r, Pumping σ r S
  attended : ∀ r S T, Pumping σ r S → T ∈ σ.shared.presence.targets S →
    Clearing σ S ∨ Attended tr σ S T r

section Steps

variable {crates : Crates} {hasDb : Bool} {db₀ : Database.Db ℕ} {tr : List BrokerEvent}
  {σ σ' : BrokerConfig} {e : BrokerEvent}

/-- A step that is no operation and leaves the presence tables alone. -/
theorem Inv.quiet (h : Inv tr σ) (hs : Step (broker crates hasDb) σ e σ')
    (he : ∀ u o a, e ≠ .performed u o a) (hpresence : σ'.shared.presence = σ.shared.presence) :
    Inv (e :: tr) σ' := by
  have hback : ∀ {r S}, Pumping σ' r S → Pumping σ r S := by
    intro r S hp
    rcases pumping_of_step hs hp with hp | ⟨o, a, heq⟩
    · exact hp
    · exact absurd heq (he r o a)
  have hbound : ∀ {t c A G}, BoundTo σ t c A G → BoundTo σ' t c A G :=
    fun hb => hb.step hs fun o a heq => absurd heq (he _ o a)
  have hclearing : ∀ {S}, Clearing σ S → Clearing σ' S := by
    rintro S ⟨u, c, hb⟩
    exact ⟨u, c, hbound hb⟩
  have hview : ∀ {S T r}, UpToDate tr T r ∨ Coming tr σ S T r →
      UpToDate (e :: tr) T r ∨ Coming (e :: tr) σ' S T r := by
    intro S T r hview
    cases e with
    | performed u o a => exact absurd rfl (he u o a)
    | _ =>
      rcases hview with hdate | ⟨c, hb, hrecent⟩ | ⟨u, c, hc, hb, hrecent⟩
      · exact Or.inl hdate
      · exact Or.inr (Or.inl ⟨c, hbound hb, hrecent⟩)
      · exact Or.inr (Or.inr ⟨u, c, hc, hbound hb, hrecent⟩)
  refine ⟨?_, ?_⟩
  · intro S T hT
    rw [hpresence] at hT
    rcases h.owned S T hT with hc | ⟨r, hr⟩
    · exact Or.inl (hclearing hc)
    · rcases pumping_step hs hr with hr | ⟨-, hb⟩
      · exact Or.inr ⟨r, hr⟩
      · exact Or.inl ⟨r, _, hb⟩
  · intro r S T hr hT
    rw [hpresence] at hT
    rcases h.attended r S T (hback hr) hT with hc | ⟨c, hb⟩ | ⟨hS, hv⟩
    · exact Or.inl (hclearing hc)
    · exact Or.inr (Or.inl ⟨c, hbound hb⟩)
    · exact Or.inr (Or.inr ⟨hpresence ▸ hS, hview hv⟩)

theorem pumping_of_insert (hrun : Run (broker crates hasDb) (fresh db₀) tr σ) {u : ℕ} {c : Phase}
    {S T : String} {k : Unit → Work Outcome}
    (hu : σ.tasks u = .running c (.call (.presence (.insert S T)) k)) : Pumping σ u S := by
  have hpermitted := permitted hrun hu
  rw [pumping_iff_loops, hu]
  cases c with
  | registering addr text now =>
    rcases hpermitted with ⟨s, msg, -, -, ho⟩ | ⟨-, code, message, requestId, ho⟩
    · exact ho.elim
    · cases ho
  | handling pk text now =>
    rcases hpermitted with ⟨msg, -, ho, -⟩ | ⟨-, code, message, requestId, ho⟩
    · cases ho
      exact Or.inr ⟨text, now, rfl⟩
    · cases ho
  | closing pk => exact hpermitted.elim
  | _ => exact hpermitted.elim

theorem boundTo_due (hrun : Run (broker crates hasDb) (fresh db₀) tr σ) {u : ℕ} {c : Phase} {o : Op}
    {k : Res o → Work Outcome} {a : Res o} {s' : Broker} {A : (o : Op) → Res o → Prop} {G : Op → Prop}
    (hu : σ.tasks u = .running c (.call o k)) (hdue : Due u o A G) :
    BoundTo (⟨s', Function.update σ.tasks u (settle (broker crates hasDb) c (k a))⟩ : BrokerConfig)
      u c A G := by
  have howes := hrun.owes (D := Due) (fresh_idle db₀) (fun _ _ _ _ _ hs => start_owes hs) hu
  have hmust := (howes a).1 A G hdue
  refine ⟨k a, ?_, hmust⟩
  simp only [Function.update_self]
  exact settle_must hmust

section Performed

variable {u : ℕ} {c : Phase} {o : Op} {k : Res o → Work Outcome} {env : Env} {a : Res o} {s' : Broker}
  {S T : String}

theorem coming_of_change (hrun : Run (broker crates hasDb) (fresh db₀) tr σ)
    (hu : σ.tasks u = .running c (.call o k)) (ho : writes T o = true) (S : String) (r : ℕ) :
    Coming (.performed u o a :: tr)
      ⟨s', Function.update σ.tasks u (settle (broker crates hasDb) c (k a))⟩ S T r := by
  have hpermitted := permitted hrun hu
  refine Or.inr ⟨u, c, ?_, ?_, recent_of_writes a ho⟩
  · rintro pk text now rfl
    rcases hpermitted with ⟨msg, -, -, hled⟩ | ⟨-, code, message, requestId, rfl⟩
    · cases o with
      | registry acc =>
        cases acc with
        | insertPeer peer => exact hled
        | removePeer pk' => exact hled
        | _ => cases ho
      | _ => cases ho
    · cases ho
  · refine boundTo_due hrun hu ?_
    cases o with
    | registry acc =>
      cases acc with
      | insertPeer peer =>
        obtain rfl := of_decide_eq_true ho
        exact ⟨S, r, rfl, rfl⟩
      | removePeer pk' =>
        obtain rfl := of_decide_eq_true ho
        exact ⟨S, r, rfl, rfl⟩
      | _ => cases ho
    | _ => cases ho

/-- A report in its turn is of the latest change, when the one before it was, or when all its task
has to report is. -/
theorem upToDate_of_told (hrun : Run (broker crates hasDb) (fresh db₀) tr σ) {r : ℕ} {S : String}
    {online : Bool} {sent : Bool} {k : Bool → Work Outcome}
    (hu : σ.tasks u = .running c (.call (.send r (.presenceUpdate T online)) k))
    (hx : Broker.exec crates u (.send r (.presenceUpdate T online)) env σ.shared = some (sent, s'))
    (hguard : Orderly tr σ (.performed u (.send r (.presenceUpdate T online)) sent))
    (hr : Pumping σ r S) (hT : T ∈ σ.shared.presence.targets S)
    (h : UpToDate tr T r ∨ Recent tr T u) :
    UpToDate (.performed u (.send r (.presenceUpdate T online)) sent :: tr) T r := by
  obtain ⟨hopen, horder⟩ := hguard.inOrder u r T online sent rfl S hr hT
  have hsent : sent = true := by
    rw [Broker.exec_send_closed hx, hopen]
    rfl
  have hhead := reports_of_run hrun T hu rfl
  rw [List.head?_map, Option.map_eq_some_iff] at hhead
  obtain ⟨now, hnow, -⟩ := hhead
  have hmem := List.mem_of_mem_head? hnow
  subst hsent
  refine ⟨now, by rw [lastReport_told]; exact hnow, ?_⟩
  show now.date = changes T tr
  rcases h with ⟨old, hold, hdate⟩ | hrecent
  · have hle := horder old hold now hnow
    have hvalid := ((valid_of_run hrun T).1 u now hmem).dated
    omega
  · exact hrecent now hmem

theorem reaches_of_step (hu : σ.tasks u = .running c (.call o k))
    (hx : Broker.exec crates u o env σ.shared = some (a, s'))
    (hguard : Orderly tr σ (.performed u o a)) {r : ℕ} (hr : Pumping σ r S)
    (hT : T ∈ σ.shared.presence.targets S) (hc : Announcing c)
    (hS : S ∈ σ.shared.presence.watching T) : Reaches S T r o a := by
  cases o with
  | presence acc =>
    cases acc with
    | watchers T' =>
      rintro rfl
      exact listed_of_watching hx hS
    | _ => trivial
  | registry acc =>
    cases acc with
    | getPeer S' =>
      rintro rfl
      cases hx
      exact hguard.found u S' _ rfl (by rw [hu]; exact hc) r T hr hT
    | _ => trivial
  | _ => trivial

theorem Attended.performed (hrun : Run (broker crates hasDb) (fresh db₀) tr σ)
    (hu : σ.tasks u = .running c (.call o k))
    (hx : Broker.exec crates u o env σ.shared = some (a, s'))
    (hs : Step (broker crates hasDb) σ (.performed u o a)
      ⟨s', Function.update σ.tasks u (settle (broker crates hasDb) c (k a))⟩)
    (hguard : Orderly tr σ (.performed u o a)) {r : ℕ} (hr : Pumping σ r S)
    (hT : T ∈ σ.shared.presence.targets S) (h : Attended tr σ S T r) :
    Attended (.performed u o a :: tr)
      ⟨s', Function.update σ.tasks u (settle (broker crates hasDb) c (k a))⟩ S T r := by
  rcases h with ⟨c', hb⟩ | ⟨hS, hview⟩
  · by_cases ho : r = u ∧ o = .presence (.watch T S)
    · -- the subscriber has entered itself and goes on to read and report
      obtain ⟨rfl, rfl⟩ := ho
      have hnone := List.map_eq_nil_iff.mp (reports_of_run hrun T hu)
      refine Or.inr ⟨watch_step hx, Or.inr (Or.inl ⟨c, boundTo_due hrun hu ⟨rfl, rfl⟩, ?_⟩)⟩
      refine Recent.performed (fun x hmem => ?_) a rfl
      rw [hnone] at hmem
      cases hmem
    · refine Or.inl ⟨c', hb.step hs fun o' a' heq => ⟨?_, trivial⟩⟩
      rintro rfl
      cases heq
      exact ho ⟨rfl, rfl⟩
  · have hS' : S ∈ s'.presence.watching T := by
      cases o with
      | presence acc =>
        obtain ⟨hun, hdrop⟩ := hguard.kept u acc a rfl r S T hr hT hS
        exact watching_step hx hS (fun heq => hun (by cases heq; rfl))
          fun heq => hdrop (by cases heq; rfl)
      | _ => exact watching_step hx hS nofun nofun
    refine Or.inr ⟨hS', ?_⟩
    by_cases hw : writes T o = true
    · exact Or.inr (coming_of_change hrun hu hw S r)
    rw [Bool.not_eq_true] at hw
    by_cases ho : Updates r T o
    · obtain ⟨online, rfl⟩ := ho
      have htold := fun hold => upToDate_of_told hrun hu hx hguard hr hT hold
      rcases hview with hdate | ⟨c', hb, hrecent⟩ | ⟨v, c', hc', hb, hrecent⟩
      · exact Or.inl (htold (Or.inl hdate))
      · by_cases hru : r = u
        · exact Or.inl (htold (Or.inr (hru ▸ hrecent)))
        · refine Or.inr (Or.inl ⟨c', hb.step hs fun o' a' heq => ?_, hrecent.performed a hw⟩)
          cases heq
          exact absurd rfl hru
      · by_cases hvu : v = u
        · exact Or.inl (htold (Or.inr (hvu ▸ hrecent)))
        · refine Or.inr (Or.inr ⟨v, c', hc', hb.step hs fun o' a' heq => ?_,
            hrecent.performed a hw⟩)
          cases heq
          exact absurd rfl hvu
    · rcases hview with ⟨x, hlast, hdate⟩ | ⟨c', hb, hrecent⟩ | ⟨v, c', hc', hb, hrecent⟩
      · refine Or.inl ⟨x, ?_, ?_⟩
        · rw [lastReport_other a fun online heq => ho ⟨online, heq⟩]
          exact hlast
        · rw [changes_of_not_writes a hw]
          exact hdate
      · refine Or.inr (Or.inl ⟨c', hb.step hs fun o' a' heq => ?_, hrecent.performed a hw⟩)
        cases heq
        exact ⟨ho, trivial⟩
      · refine Or.inr (Or.inr ⟨v, c', hc', hb.step hs fun o' a' heq => ?_,
          hrecent.performed a hw⟩)
        cases heq
        obtain ⟨p, hp, -⟩ := hb
        rw [hu] at hp
        cases hp
        exact ⟨ho, reaches_of_step hu hx hguard hr hT hc' hS⟩

theorem Inv.performed (h : Inv tr σ) (hrun : Run (broker crates hasDb) (fresh db₀) tr σ)
    (hu : σ.tasks u = .running c (.call o k))
    (hx : Broker.exec crates u o env σ.shared = some (a, s'))
    (hs : Step (broker crates hasDb) σ (.performed u o a)
      ⟨s', Function.update σ.tasks u (settle (broker crates hasDb) c (k a))⟩)
    (hguard : Orderly tr σ (.performed u o a))
    (hone : OnePumping ⟨s', Function.update σ.tasks u (settle (broker crates hasDb) c (k a))⟩) :
    Inv (.performed u o a :: tr)
      ⟨s', Function.update σ.tasks u (settle (broker crates hasDb) c (k a))⟩ := by
  have hgoes : ∀ {r S}, Pumping σ r S →
      Pumping ⟨s', Function.update σ.tasks u (settle (broker crates hasDb) c (k a))⟩ r S := by
    intro r S hr
    rcases pumping_step hs hr with hr | ⟨⟨i, heq⟩, -⟩
    · exact hr
    · cases heq
  have hclearing : ∀ {S}, o ≠ .presence (.take S) → Clearing σ S →
      Clearing ⟨s', Function.update σ.tasks u (settle (broker crates hasDb) c (k a))⟩ S := by
    rintro S ho ⟨v, c', hb⟩
    refine ⟨v, c', hb.step hs fun o' a' heq => ?_⟩
    cases heq
    exact ⟨ho, trivial⟩
  refine ⟨?_, ?_⟩
  · intro S T hT
    rcases targets_step hx hT with ⟨hT, ho⟩ | rfl
    · rcases h.owned S T hT with hc | ⟨r, hr⟩
      · exact Or.inl (hclearing ho hc)
      · exact Or.inr ⟨r, hgoes hr⟩
    · exact Or.inr ⟨u, hgoes (pumping_of_insert hrun hu)⟩
  · intro r S T hr hT
    rcases targets_step hx hT with ⟨hT, ho⟩ | rfl
    · -- the subscriptions a new session finds are those of one that is closing
      rcases h.owned S T hT with hc | ⟨v, hv⟩
      · exact Or.inl (hclearing ho hc)
      · obtain rfl := hone v r S (hgoes hv) hr
        rcases h.attended v S T hv hT with hc | hattended
        · exact Or.inl (hclearing ho hc)
        · exact Or.inr (hattended.performed hrun hu hx hs hguard hv hT)
    · obtain rfl := hone u r S (hgoes (pumping_of_insert hrun hu)) hr
      exact Or.inr (Or.inl ⟨c, boundTo_due hrun hu ⟨rfl, rfl⟩⟩)

end Performed

theorem inv_of_run (h : GuardedRun (broker crates hasDb) Orderly (fresh db₀) tr σ)
    (hone : OnePumping σ) : Inv tr σ := by
  revert hone
  refine h.invariant (I := fun tr σ => OnePumping σ → Inv tr σ) ?_ ?_
  · intro _
    refine ⟨fun S T hT => ?_, fun r S T _ hT => ?_⟩
    · cases hT
    · cases hT
  · intro tr σ e σ' hrun ih hs hguard hone
    replace ih := ih hguard.alone
    rcases hs.cases with ⟨t, i, c, c', p, rfl, hw, hstart, rfl⟩ |
      ⟨t, c, o, k, env, a, s', rfl, ht, hx, rfl⟩ | ⟨x, s', rfl, hx, rfl⟩
    · exact ih.quiet hs nofun rfl
    · exact ih.performed hrun.run ht hx hs hguard hone
    · obtain ⟨channels, rfl⟩ := Broker.writerStep_frame hx
      exact ih.quiet hs nofun rfl

/-- Every subscriber has been told last what the registry says. -/
def Converged (σ : BrokerConfig) : Prop :=
  ∀ r S T, Pumping σ r S → T ∈ σ.shared.presence.targets S → Current σ.shared T r

/-- When every step is orderly, the views have converged whenever no session is in the middle of
anything. -/
theorem views_converge (h : GuardedRun (broker crates hasDb) Orderly (fresh db₀) tr σ)
    (hone : OnePumping σ) (hidle : Idle σ) : Converged σ := by
  intro r S T hr hT
  rcases (inv_of_run h hone).attended r S T hr hT with ⟨u, c, hb⟩ | ⟨c, hb⟩ | ⟨-, hview⟩
  · exact absurd hb hidle.not_boundTo
  · exact absurd hb hidle.not_boundTo
  · rcases hview with ⟨x, hlast, hdate⟩ | ⟨c, hb, -⟩ | ⟨u, c, -, hb, -⟩
    · have hvalid := (valid_of_run h.run T).2 r x hlast
      rw [Current, lastUpdate_of_run h.run r T, Option.mem_def.mp hlast, Option.map_some,
        hvalid.agrees hdate]
    · exact absurd hb hidle.not_boundTo
    · exact absurd hb hidle.not_boundTo

end Steps

/-! ## A subscriber that is told in time, and one that is told too late -/

open Scripts Crates

def loopKey : Phase → Option String
  | .pumping S => some S
  | .handling S _ _ => some S
  | _ => none

theorem loopKey_of_loops {S : String} {c : Phase} (h : Loops S c) : loopKey c = some S := by
  rcases h with rfl | ⟨text, now, rfl⟩
  · rfl
  · rfl

theorem pumping_of_loopKey {σ : BrokerConfig} {r : ℕ} {S : String}
    (h : loopKey (σ.tasks r).ctl = some S) : Pumping σ r S := by
  rw [pumping_iff_loops]
  cases hc : (σ.tasks r).ctl with
  | pumping pk =>
    rw [hc] at h
    cases h
    exact Or.inl rfl
  | handling pk text now =>
    rw [hc] at h
    cases h
    exact Or.inr ⟨text, now, rfl⟩
  | _ =>
    rw [hc] at h
    cases h

def onePumping (n : ℕ) (σ : BrokerConfig) : Bool :=
  (List.range n).all fun r => (List.range n).all fun r' =>
    r = r' || (loopKey (σ.tasks r).ctl).isNone ||
      decide (loopKey (σ.tasks r).ctl ≠ loopKey (σ.tasks r').ctl)

def orderly (n : ℕ) (tr : List BrokerEvent) (σ : BrokerConfig) (e : BrokerEvent) : Bool :=
  onePumping n σ &&
  match e with
  | .performed u (.send r (.presenceUpdate T _)) _ =>
    match loopKey (σ.tasks r).ctl with
    | none => true
    | some S => decide (T ∉ σ.shared.presence.targets S) || !(σ.shared.channels r).closed &&
      (lastReport r T tr).all fun old => (unreported u T tr).head?.all fun now => old.date ≤ now.date
  | .performed _ (.registry (.getPeer S)) _ => (List.range n).all fun r =>
    decide (loopKey (σ.tasks r).ctl ≠ some S) ||
      (σ.shared.registry.byPubkey.lookup S).map (fun p => p.tx) == some r
  | .performed _ (.presence (.unwatch T S)) _ => decide (T ∉ σ.shared.presence.targets S)
  | .performed _ (.presence (.dropWatchers T)) _ => decide (σ.shared.presence.watching T = ∅)
  | _ => true

section Tests

variable {n : ℕ} {tr : List BrokerEvent} {σ : BrokerConfig} {e : BrokerEvent}

theorem lt_of_pumping (habsent : ∀ t, n ≤ t → σ.tasks t = .waiting .absent) {r : ℕ} {S : String}
    (hr : Pumping σ r S) : r < n := by
  by_contra hn
  rw [pumping_iff_loops, habsent r (by omega)] at hr
  rcases hr with hr | ⟨text, now, hr⟩
  · cases hr
  · cases hr

theorem onePumping_sound (habsent : ∀ t, n ≤ t → σ.tasks t = .waiting .absent)
    (h : onePumping n σ = true) : OnePumping σ := by
  intro r r' S hr hr'
  have hlt := lt_of_pumping habsent hr
  have hlt' := lt_of_pumping habsent hr'
  have htest := List.all_eq_true.mp (List.all_eq_true.mp h r (List.mem_range.mpr hlt)) r'
    (List.mem_range.mpr hlt')
  simpa [loopKey_of_loops hr, loopKey_of_loops hr'] using htest

theorem orderly_sound (habsent : ∀ t, n ≤ t → σ.tasks t = .waiting .absent)
    (h : orderly n tr σ e = true) : Orderly tr σ e := by
  obtain ⟨hone, htest⟩ := Bool.and_eq_true_iff.mp h
  refine ⟨onePumping_sound habsent hone, ?_, ?_, ?_⟩
  · rintro u r T online sent rfl S hr hT
    simpa [loopKey_of_loops hr, hT, Option.all_eq_true] using htest
  · rintro u S peer rfl - r T hr -
    have htest' := List.all_eq_true.mp htest r (List.mem_range.mpr (lt_of_pumping habsent hr))
    have hmap : (σ.shared.registry.byPubkey.lookup S).map (fun p => p.tx) = some r := by
      simpa [loopKey_of_loops hr] using htest'
    obtain ⟨p, hp, hpr⟩ := Option.map_eq_some_iff.mp hmap
    exact ⟨p, hp, hpr⟩
  · rintro u a ans rfl r S T hr hT hS
    constructor
    · rintro rfl
      exact absurd hT (by simpa using htest)
    · rintro rfl
      have hempty : σ.shared.presence.watching T = ∅ := by simpa using htest
      rw [hempty] at hS
      cases hS

end Tests

def subscription : ClientMessage :=
  .subscribePresence (keyText 'a') [keyText 'b'] 0 (signatureText 'a') none

def listing : Env := { calm with order := [keyText 'a'] }

def joinsWatched : List Cue :=
  [.connect 1, .say 1 'b' (registerAs 'b' none)] ++ steps 1 7 listing

/-- The sessions wait, `a` pumps and is subscribed, was told `last`, and the registry has `b` or
not. -/
def ends (last : Option Bool) (online : Bool) (x : List BrokerEvent × BrokerConfig) : Bool :=
  idleBelow 2 x.2 && onePumping 2 x.2 && decide (x.2.shared.presence.targets (keyText 'a') =
    {keyText 'b'}) && loopKey (x.2.tasks 0).ctl == some (keyText 'a') &&
    lastUpdate (keyText 'b') (x.2.shared.channels 0).sent == last &&
    x.2.shared.registry.isOnline (keyText 'b') == online

/-- `a` has its report before `b` comes and goes. -/
def inTime : List Cue :=
  joins 0 'a' ++ .say 0 'a' subscription :: steps 0 8 calm ++ joinsWatched ++
    .leave 1 :: steps 1 7 listing

theorem inTime_played : (play false (orderly 2) inTime [] (fresh DatabaseCalls.emptyDb)).map
    (ends (some false) false) = some true := by decide +kernel

/-- `b` comes when `a` has read the registry and not yet made its report. -/
def tooLate : List Cue :=
  joins 0 'a' ++ .say 0 'a' subscription :: steps 0 7 calm ++ joinsWatched ++ steps 0 1 calm

theorem tooLate_played : (play false (fun _ σ _ => onePumping 2 σ) tooLate []
    (fresh DatabaseCalls.emptyDb)).map (ends (some false) true) = some true := by decide +kernel

theorem of_ends {last : Option Bool} {online : Bool} {tr : List BrokerEvent} {σ : BrokerConfig}
    (habsent : ∀ t, 2 ≤ t → σ.tasks t = .waiting .absent) (h : ends last online (tr, σ) = true) :
    Idle σ ∧ OnePumping σ ∧ loopKey (σ.tasks 0).ctl = some (keyText 'a') ∧
      keyText 'b' ∈ σ.shared.presence.targets (keyText 'a') ∧
      lastUpdate (keyText 'b') (σ.shared.channels 0).sent = last ∧
      σ.shared.registry.isOnline (keyText 'b') = online := by
  simp only [ends, Bool.and_eq_true, beq_iff_eq, decide_eq_true_eq] at h
  obtain ⟨⟨⟨⟨⟨hidle, hone⟩, htargets⟩, hkey⟩, hlast⟩, honline⟩ := h
  refine ⟨idle_of_idleBelow hidle habsent, onePumping_sound habsent hone, hkey, ?_, hlast, honline⟩
  rw [htargets]
  exact Finset.mem_singleton_self _

theorem views_converge_in_time : ∃ tr σ,
    GuardedRun (broker demo false) Orderly (fresh DatabaseCalls.emptyDb) tr σ ∧ OnePumping σ ∧
      Idle σ ∧ Pumping σ 0 (keyText 'a') ∧
      keyText 'b' ∈ σ.shared.presence.targets (keyText 'a') ∧ Converged σ := by
  obtain ⟨⟨tr, σ⟩, hp, hends⟩ := Option.map_eq_some_iff.mp inTime_played
  obtain ⟨hrun, habsent⟩ := guardedRun_of_play_among false (n := 2)
    (fun _ _ _ habsent => orderly_sound habsent) (by decide) .start (fun _ _ => rfl) hp
  obtain ⟨hidle, hone, hkey, htargets, -, -⟩ := of_ends habsent hends
  have hpumps : Pumping σ 0 (keyText 'a') := pumping_of_loopKey hkey
  exact ⟨tr, σ, hrun, hone, hidle, hpumps, htargets, views_converge hrun hone hidle⟩

/-- `a` is told last that `b` is offline, and it is not. -/
theorem stale_report_is_last : ∃ tr σ,
    GuardedRun (broker demo false) (fun _ σ _ => OnePumping σ) (fresh DatabaseCalls.emptyDb) tr σ ∧
      OnePumping σ ∧ Idle σ ∧ ¬ Converged σ := by
  obtain ⟨⟨tr, σ⟩, hp, hends⟩ := Option.map_eq_some_iff.mp tooLate_played
  obtain ⟨hrun, habsent⟩ := guardedRun_of_play_among false (n := 2)
    (C := fun _ σ _ => OnePumping σ) (fun _ _ _ habsent => onePumping_sound habsent) (by decide)
    .start (fun _ _ => rfl) hp
  obtain ⟨hidle, hone, hkey, htargets, hlast, honline⟩ := of_ends habsent hends
  refine ⟨tr, σ, hrun, hone, hidle, fun hconverged => ?_⟩
  have hcurrent := hconverged 0 _ _ (pumping_of_loopKey hkey) htargets
  rw [Current, hlast, honline] at hcurrent
  cases hcurrent

end HashedBroker.PresenceViews
