import HashedBroker.SessionOps

/-!
# What is reported of a peer, and when it was read

Whoever reports that a peer is online or not has read it before: a subscription reads all its
targets in the registry and reports them afterwards, and a session that enters or leaves the registry
reports what it has done itself. A reading is dated by the number of changes of the peer's entry that
came before it, and says what the registry says until the next change.
-/
namespace HashedBroker.PresenceReadings
open AtomicPrograms ReactiveTasks Protocol Server Sessions

/-- The last thing the messages of a channel, the newest first, say about a target. -/
def lastUpdate (T : String) : List ServerMessage → Option Bool
  | [] => none
  | .presenceUpdate pk online :: sent => if pk = T then some online else lastUpdate T sent
  | _ :: sent => lastUpdate T sent

/-! ## Readings -/

def writes (T : String) : Op → Bool
  | .registry (.insertPeer peer) => peer.pubkey = T
  | .registry (.removePeer pubkey) => pubkey = T
  | _ => false

/-- How often the entry of the peer has been changed. -/
def changes (T : String) : List BrokerEvent → ℕ
  | [] => 0
  | .performed _ o _ :: tr => if writes T o then changes T tr + 1 else changes T tr
  | _ :: tr => changes T tr

/-- What was read, after how many changes. -/
structure Reading where
  date : ℕ
  online : Bool

section Reads

variable {ρ : Type}

/-- A report takes the first reading, unless it is the only one: a broadcast reports the same to
every watcher. -/
def used : List ρ → List ρ
  | _ :: x :: l => x :: l
  | l => l

/-- What an operation makes of the readings of `T` its task has still to report. A subscription
begins with none, and a session that has changed the entry has seen what it has done. -/
def nextReads (T : String) (mk : Bool → ρ) (l : List ρ) : (o : Op) → Res o → List ρ
  | .presence (.entry _), _ => []
  | .registry (.containsPeer pubkey), online => if pubkey = T then l ++ [mk online] else l
  | .registry (.insertPeer peer), _ => if peer.pubkey = T then [mk true] else l
  | .registry (.removePeer pubkey), _ => if pubkey = T then [mk false] else l
  | .send _ (.presenceUpdate pubkey _), _ => if pubkey = T then used l else l
  | _, _ => l

theorem mem_of_mem_used {x : ρ} {l : List ρ} (h : x ∈ used l) : x ∈ l := by
  match l with
  | [] => exact h
  | [_] => exact h
  | _ :: _ :: _ => exact List.mem_cons_of_mem _ h

theorem map_used {ρ' : Type} (f : ρ → ρ') (l : List ρ) : (used l).map f = used (l.map f) := by
  match l with
  | [] => rfl
  | [_] => rfl
  | _ :: _ :: _ => rfl

theorem map_nextReads {ρ' : Type} (f : ρ → ρ') (T : String) (mk : Bool → ρ) (l : List ρ) (o : Op)
    (r : Res o) : (nextReads T mk l o r).map f = nextReads T (f ∘ mk) (l.map f) o r := by
  cases o with
  | presence a => cases a <;> rfl
  | registry a =>
    cases a with
    | containsPeer pk =>
      simp only [nextReads]
      split_ifs
      · exact List.map_append
      · rfl
    | insertPeer peer =>
      simp only [nextReads]
      split_ifs <;> rfl
    | removePeer pk =>
      simp only [nextReads]
      split_ifs <;> rfl
    | _ => rfl
  | send c msg =>
    cases msg with
    | presenceUpdate pk online =>
      simp only [nextReads]
      split_ifs
      · exact map_used f l
      · rfl
    | _ => rfl
  | _ => rfl

end Reads

theorem mem_nextReads {T : String} {n : ℕ} {l : List Reading} {o : Op} {r : Res o} {x : Reading}
    (h : x ∈ nextReads T (Reading.mk n) l o r) : x ∈ l ∨ x.date = n := by
  cases o with
  | presence a =>
    cases a with
    | entry s => cases h
    | _ => exact Or.inl h
  | registry a =>
    cases a with
    | containsPeer pk =>
      simp only [nextReads] at h
      split_ifs at h
      · rcases List.mem_append.mp h with h | h
        · exact Or.inl h
        · exact Or.inr (List.mem_singleton.mp h ▸ rfl)
      · exact Or.inl h
    | insertPeer peer =>
      simp only [nextReads] at h
      split_ifs at h
      · exact Or.inr (List.mem_singleton.mp h ▸ rfl)
      · exact Or.inl h
    | removePeer pk =>
      simp only [nextReads] at h
      split_ifs at h
      · exact Or.inr (List.mem_singleton.mp h ▸ rfl)
      · exact Or.inl h
    | _ => exact Or.inl h
  | send c msg =>
    cases msg with
    | presenceUpdate pk online =>
      simp only [nextReads] at h
      split_ifs at h
      · exact Or.inl (mem_of_mem_used h)
      · exact Or.inl h
    | _ => exact Or.inl h
  | _ => exact Or.inl h

/-- The readings of `T` that a task has still to report, the oldest first. -/
def unreported (u : ℕ) (T : String) : List BrokerEvent → List Reading
  | [] => []
  | .performed v o r :: tr =>
    if v = u then
      nextReads T (Reading.mk (changes T (.performed v o r :: tr))) (unreported u T tr) o r
    else unreported u T tr
  | _ :: tr => unreported u T tr

/-- What the channel was told last of `T`, as it was read. -/
def lastReport (r : ℕ) (T : String) : List BrokerEvent → Option Reading
  | [] => none
  | .performed u (.send c (.presenceUpdate pubkey _)) sent :: tr =>
    if c = r ∧ pubkey = T ∧ sent = true then (unreported u T tr).head? else lastReport r T tr
  | _ :: tr => lastReport r T tr

/-! ## Programs report what they have read -/

/-- A report is of the first reading that has not been reported, and nothing is read before all
subscriptions are entered. -/
def Reports (T : String) (l : List Bool) : Op → Prop
  | .send _ (.presenceUpdate pubkey online) => pubkey = T → l.head? = some online
  | .presence (.watch _ _) => l = []
  | _ => True

def ReportsNothing (o : Op) : Prop := ∀ T l, Reports T l o

/-- What has been read of `T`. -/
def answers (T : String) (online : List (String × Bool)) : List Bool :=
  online.filterMap fun x => if x.1 = T then some x.2 else none

section Programs

variable {crates : Crates} {hasDb : Bool} {t : ℕ} {T pk : String} {l : List Bool} {α : Type}

theorem answers_self (on : Bool) (online : List (String × Bool)) :
    answers T ((T, on) :: online) = on :: answers T online := by
  simp [answers]

theorem answers_of_ne (hpk : pk ≠ T) (on : Bool) (online : List (String × Bool)) :
    answers T ((pk, on) :: online) = answers T online := by
  simp [answers, hpk]

theorem reports_of_nothing {p : Work α} (hp : p.Always ReportsNothing) :
    p.Follows (nextReads T id) (Reports T) (fun _ _ => True) l :=
  hp.follows_any (fun l _ ho => ho T l) fun _ _ => trivial

theorem onlineSet_reports (peers : List String) (l : List Bool) :
    (registry (Registry.onlineSet peers)).Follows (nextReads T id) (Reports T)
      (fun l' online => l' = l ++ answers T online) l := by
  induction peers generalizing l with
  | nil => exact (List.append_nil l).symm
  | cons pk peers ih =>
    refine ⟨trivial, fun on => ?_⟩
    show (registry (Registry.onlineSet peers >>= fun rest => pure ((pk, on) :: rest)) :
      Work _).Follows _ _ _ _
    rw [registry, Prog.lift_bind]
    refine (ih _).bind fun l' rest hl' => ?_
    show l' = l ++ answers T ((pk, on) :: rest)
    by_cases hpk : pk = T
    · subst hpk
      rw [hl', answers_self]
      simp [nextReads]
    · rw [hl', answers_of_ne hpk]
      simp [nextReads, hpk]

theorem sendUpdates_reports {online : List (String × Bool)}
    (hl : answers T online ≠ [] → l = answers T online) :
    (sendUpdates t online).Follows (nextReads T id) (Reports T) (fun _ _ => True) l := by
  induction online generalizing l with
  | nil => trivial
  | cons x online ih =>
    obtain ⟨pk, on⟩ := x
    by_cases hpk : pk = T
    · subst hpk
      rw [answers_self] at hl
      obtain rfl := hl (List.cons_ne_nil _ _)
      refine ⟨fun _ => rfl, fun _ => ih fun hrest => ?_⟩
      obtain ⟨y, l', hl'⟩ := List.exists_cons_of_ne_nil hrest
      simp only [nextReads, if_true, hl', used]
    · rw [answers_of_ne hpk] at hl
      refine ⟨fun heq => absurd heq hpk, fun _ => ih fun hrest => ?_⟩
      simp only [nextReads, if_neg hpk]
      exact hl hrest

theorem onSubscribePresence_reports (pk : String) (peers : List String)
    (requestId : Option String) :
    (onSubscribePresence t pk peers requestId).Follows (nextReads T id) (Reports T)
      (fun _ _ => True) l := by
  have hentered : (presence (Presence.subscribe pk peers)).Always
      fun o => Reports T [] o ∧ ∀ r, nextReads T id [] o r = [] :=
    Prog.Always.lift (subscribe_always ⟨trivial, fun _ => rfl⟩ (fun _ => ⟨trivial, fun _ => rfl⟩)
      (fun _ => ⟨rfl, fun _ => rfl⟩) ⟨trivial, fun _ => rfl⟩ peers)
  have hsubscribe : (presence (Presence.subscribe pk peers)).Follows (nextReads T id) (Reports T)
      (fun l' _ => l' = []) l :=
    ⟨trivial, fun r => (hentered.2 r).follows (fun _ ho => ho) fun _ => rfl⟩
  refine hsubscribe.bind ?_
  rintro l - rfl
  refine ⟨trivial, fun _ => (onlineSet_reports peers []).bind ?_⟩
  rintro l online rfl
  exact ⟨trivial, fun _ => sendUpdates_reports fun _ => List.nil_append _⟩

theorem onUnsubscribePresence_nothing (pk : String) (peers : List String) :
    (onUnsubscribePresence pk peers).Always ReportsNothing := by
  refine Prog.Always.bind (Prog.Always.lift ?_) fun _ => always_metric fun _ _ => trivial
  exact unsubscribe_always (fun _ _ => trivial) (fun _ _ _ => trivial) (fun _ _ _ => trivial)
    (fun _ _ _ => trivial) (fun _ _ => trivial) peers

theorem nothing_of_handlerOp {msg : ClientMessage} {o : Op} (ho : HandlerOp pk msg o)
    (hsub : msg.tag ≠ "subscribe_presence") (hunsub : msg.tag ≠ "unsubscribe_presence") :
    ReportsNothing o := by
  obtain ⟨-, hled⟩ := ho
  intro T l
  cases o with
  | presence a =>
    rcases hled with htag | htag
    · exact absurd htag hsub
    · exact absurd htag hunsub
  | send c m =>
    cases m with
    | presenceUpdate pubkey online => exact absurd hled hsub
    | _ => trivial
  | _ => trivial

theorem dispatch_reports (pk : String) (msg : ClientMessage) :
    (dispatch crates hasDb t pk msg).run.Follows (nextReads T id) (Reports T) (fun _ _ => True)
      l := by
  by_cases hsub : msg.tag = "subscribe_presence"
  · cases msg with
    | subscribePresence pubkey peers timestamp signature requestId =>
      exact (onSubscribePresence_reports pk peers requestId).bind fun _ _ _ => trivial
    | _ => simp [ClientMessage.tag] at hsub
  · by_cases hunsub : msg.tag = "unsubscribe_presence"
    · cases msg with
      | unsubscribePresence pubkey peers timestamp signature requestId =>
        exact (reports_of_nothing (onUnsubscribePresence_nothing pk peers)).bind
          fun _ _ _ => trivial
      | _ => simp [ClientMessage.tag] at hunsub
    · exact reports_of_nothing ((dispatch_always crates hasDb t pk msg).mono
        fun o ho => nothing_of_handlerOp ho hsub hunsub)

theorem pump_reports (pk text : String) (now : UnixTime) :
    (pump crates hasDb t now pk text).Follows (nextReads T id) (Reports T) (fun _ _ => True) l := by
  have hhandler : (handleClientMessage crates hasDb t now pk text).run.Follows (nextReads T id)
      (Reports T) (fun _ _ => True) l := by
    rw [handleClientMessage, run_require_bind]
    cases authenticate crates now pk text with
    | error e => trivial
    | ok msg => exact dispatch_reports pk msg
  refine hhandler.bind fun l x _ => ?_
  cases x with
  | ok u => trivial
  | error e => exact ⟨trivial, fun _ => trivial⟩

/-- A session that announces what it has done has nothing else to report. -/
def Announces (T pk : String) (online : Bool) (l : List Bool) : Prop := pk = T → l = [online]

/-- The operation reports what is announced at most, and reads nothing. -/
def AnnouncesOnly (T : String) (l : List Bool) (o : Op) : Prop :=
  Reports T l o ∧ ∀ r, nextReads T id l o r = l

theorem follows_of_announces {p : Work α} (hp : p.Always (AnnouncesOnly T l)) :
    p.Follows (nextReads T id) (Reports T) (fun l' _ => l' = l) l :=
  hp.follows (fun _ ho => ho) fun _ => rfl

theorem broadcast_announces {online : Bool} (hl : Announces T pk online l) :
    (broadcast pk online).Always (AnnouncesOnly T l) := by
  refine broadcast_always pk online ⟨trivial, fun _ => rfl⟩ (fun _ => ⟨trivial, fun _ => rfl⟩)
    fun c => ⟨fun hpk => ?_, fun _ => ?_⟩
  · rw [hl hpk]
    rfl
  · simp only [nextReads]
    split_ifs with hpk
    · rw [hl hpk]
      rfl
    · rfl

theorem enter_reports (addr : Registry.SocketAddr) (pk : String) (handle : Option String)
    (addresses : PeerAddresses) (kind : Option IdentityKind) (requestId : Option String) :
    (enter crates hasDb t addr pk handle addresses kind requestId).Follows (nextReads T id)
      (Reports T) (fun _ _ => True) l := by
  have hrecord : (recordPeer crates hasDb t pk handle (kind.getD .user) requestId).Always
      ReportsNothing :=
    recordPeer_always crates hasDb t pk handle (kind.getD .user) requestId (fun _ _ => trivial)
      (fun _ => Prog.always_lift_of (fun _ _ _ => trivial) _) (fun _ _ _ => trivial)
      fun _ _ _ _ => trivial
  have hinsert : ∀ h (l : List Bool),
      (registry (Registry.insert ⟨pk, h, addresses, addr, t⟩)).Follows (nextReads T id) (Reports T)
        (fun l' _ => Announces T pk true l') l := by
    intro h l
    have hnext : ∀ l : List Bool, Announces T pk true
        (nextReads T id l (.registry (.insertPeer ⟨pk, h, addresses, addr, t⟩)) ()) :=
      fun l hpk => if_pos hpk
    cases h with
    | some handle => exact ⟨trivial, fun _ => ⟨trivial, fun _ => hnext _⟩⟩
    | none => exact ⟨trivial, fun _ => hnext _⟩
  refine (reports_of_nothing hrecord).bind fun l claimed _ => (hinsert _ l).bind fun l _ hl => ?_
  have hrest : (do
      metric (.connectedPeers 1)
      metric .registrationsTotal
      send t (.registered pk addr claimed requestId)
      broadcast pk true
      pure (.registered pk) : Work Outcome).Always (AnnouncesOnly T l) :=
    (always_metric ⟨trivial, fun _ => rfl⟩).bind fun _ =>
    (always_metric ⟨trivial, fun _ => rfl⟩).bind fun _ =>
    (always_send ⟨trivial, fun _ => rfl⟩).bind fun _ =>
    (broadcast_announces hl).bind fun _ => trivial
  exact (follows_of_announces hrest).mono fun _ _ _ => trivial

theorem cleanup_reports (pk : String) :
    (cleanup pk).Follows (nextReads T id) (Reports T) (fun _ _ => True) l := by
  obtain ⟨k, hk, hkeeps⟩ := remove_rest_always
    (Q := fun a => ∀ l, AnnouncesOnly T l (.registry a)) pk
    (fun _ _ => ⟨trivial, fun _ => rfl⟩) fun _ _ => ⟨trivial, fun _ => rfl⟩
  have hremove : (registry (Registry.remove pk)).Follows (nextReads T id) (Reports T)
      (fun l' _ => Announces T pk false l') l := by
    rw [registry, hk]
    refine ⟨trivial, fun removed => (follows_of_announces (Prog.Always.lift
      ((hkeeps removed).mono fun _ ho => ho _))).mono ?_⟩
    rintro l' - rfl hpk
    exact if_pos hpk
  refine hremove.bind fun l _ hl => ?_
  have hrest : (do
      metric (.connectedPeers (-1))
      presence (Presence.clearSubscriber pk)
      relay (Relay.dropSessionsFor pk)
      broadcast pk false
      pure .finished : Work Outcome).Always (AnnouncesOnly T l) :=
    (always_metric ⟨trivial, fun _ => rfl⟩).bind fun _ =>
    (Prog.Always.lift (clearSubscriber_always pk ⟨trivial, fun _ => rfl⟩
      (fun _ => ⟨trivial, fun _ => rfl⟩) fun _ => ⟨trivial, fun _ => rfl⟩)).bind fun _ =>
    (Prog.always_lift_of (fun _ => ⟨trivial, fun _ => rfl⟩) _).bind fun _ =>
    (broadcast_announces hl).bind fun _ => trivial
  exact (follows_of_announces hrest).mono fun _ _ _ => trivial

theorem start_reports {c c' : Phase} {i : Input} {p : Work Outcome}
    (hs : start crates hasDb t c i = some (c', p)) :
    p.Follows (nextReads T id) (Reports T) (fun _ _ => True) l := by
  cases start_cases hs with
  | connects addr => trivial
  | registers addr f now =>
    rcases register_cases crates hasDb t now addr f.payload with
      ⟨s, pk, handle, addresses, kind, timestamp, signature, requestId, -, -, heq⟩ |
        ⟨msg, hmsg, heq, -⟩
    · rw [heq]
      exact enter_reports addr pk handle addresses kind requestId
    · rw [heq]
      refine reports_of_nothing ((reject_always t hmsg).mono ?_)
      rintro o ⟨code, message, requestId, rfl⟩ T l
      trivial
  | handles pk text f now hf => exact pump_reports pk text now
  | stays pk f now hf => trivial
  | closes pk f now hf => exact cleanup_reports pk

end Programs

/-! ## What the steps do to readings and reports -/

section Steps

variable {crates : Crates} {b b' : Broker} {env : Env} {u r : ℕ} {T : String} {o : Op}
  {tr : List BrokerEvent}

theorem lastUpdate_cons {msg : ServerMessage} {sent : List ServerMessage}
    (h : ∀ online, msg ≠ .presenceUpdate T online) :
    lastUpdate T (msg :: sent) = lastUpdate T sent := by
  cases msg with
  | presenceUpdate pk online =>
    have hpk : pk ≠ T := by
      rintro rfl
      exact h online rfl
    simp only [lastUpdate, if_neg hpk]
  | _ => rfl

theorem isOnline_exec {a : Res o} (hx : Broker.exec crates u o env b = some (a, b'))
    (ho : writes T o = false) : b'.registry.isOnline T = b.registry.isOnline T := by
  cases o with
  | registry a =>
    cases hx
    simp only [Registry.PeerRegistry.isOnline, Registry.PeerRegistry.lookup_exec]
    cases a with
    | insertPeer peer =>
      simp only
      rw [if_neg (Ne.symm (of_decide_eq_false ho))]
    | removePeer pk =>
      simp only
      rw [if_neg (Ne.symm (of_decide_eq_false ho))]
    | _ => rfl
  | _ => rw [(Broker.exec_frame hx).registry (by simp)]

theorem changes_of_writes (a : Res o) (ho : writes T o = true) :
    changes T (.performed u o a :: tr) = changes T tr + 1 := by
  simp only [changes, ho, if_true]

theorem changes_of_not_writes (a : Res o) (ho : writes T o = false) :
    changes T (.performed u o a :: tr) = changes T tr := by
  simp only [changes, ho, Bool.false_eq_true, if_false]

theorem unreported_online (u : ℕ) (T : String) (tr : List BrokerEvent) :
    (unreported u T tr).map Reading.online = localState (nextReads T id) [] u tr := by
  induction tr with
  | nil => rfl
  | cons e tr ih =>
    cases e with
    | performed v o a =>
      by_cases hv : v = u
      · simp only [unreported, localState, if_pos hv]
        rw [map_nextReads, ih]
        rfl
      · simp only [unreported, localState, if_neg hv]
        exact ih
    | input v i => exact ih
    | disturbed x => exact ih

/-- The reading says what the registry says, unless the entry has been changed since. -/
structure Reading.Valid (x : Reading) (T : String) (tr : List BrokerEvent) (b : Broker) : Prop where
  dated : x.date ≤ changes T tr
  agrees : x.date = changes T tr → x.online = b.registry.isOnline T

theorem Reading.Valid.performed {x : Reading} {a : Res o} (h : x.Valid T tr b)
    (hx : Broker.exec crates u o env b = some (a, b')) :
    x.Valid T (.performed u o a :: tr) b' := by
  obtain ⟨hdated, hagrees⟩ := h
  cases ho : writes T o with
  | true =>
    have hmore : changes T (.performed u o a :: tr) = changes T tr + 1 := changes_of_writes a ho
    exact ⟨by omega, fun heq => by omega⟩
  | false =>
    have hsame : changes T (.performed u o a :: tr) = changes T tr := changes_of_not_writes a ho
    rw [← isOnline_exec hx ho] at hagrees
    exact ⟨hsame ▸ hdated, hsame ▸ hagrees⟩

theorem valid_next {a : Res o} (hx : Broker.exec crates u o env b = some (a, b'))
    {l : List Reading} (hl : ∀ x ∈ l, x.Valid T tr b) :
    ∀ x ∈ nextReads T (Reading.mk (changes T (.performed u o a :: tr))) l o a,
      x.Valid T (.performed u o a :: tr) b' := by
  have hold : ∀ x ∈ l, x.Valid T (.performed u o a :: tr) b' := fun x hmem =>
    (hl x hmem).performed hx
  cases o with
  | presence acc =>
    cases acc with
    | entry s => exact fun x hmem => absurd hmem List.not_mem_nil
    | _ => exact hold
  | registry acc =>
    cases hx
    cases acc with
    | containsPeer pk =>
      simp only [nextReads]
      split_ifs with hpk
      · subst hpk
        intro x hmem
        rcases List.mem_append.mp hmem with hmem | hmem
        · exact hold x hmem
        · obtain rfl := List.mem_singleton.mp hmem
          exact ⟨le_refl _, fun _ => rfl⟩
      · exact hold
    | insertPeer peer =>
      simp only [nextReads]
      split_ifs with hpk
      · subst hpk
        intro x hmem
        obtain rfl := List.mem_singleton.mp hmem
        exact ⟨le_refl _, fun _ => by simp [Registry.PeerRegistry.isOnline,
          Registry.PeerRegistry.lookup_exec]⟩
      · exact hold
    | removePeer pk =>
      simp only [nextReads]
      split_ifs with hpk
      · subst hpk
        intro x hmem
        obtain rfl := List.mem_singleton.mp hmem
        exact ⟨le_refl _, fun _ => by simp [Registry.PeerRegistry.isOnline,
          Registry.PeerRegistry.lookup_exec]⟩
      · exact hold
    | _ => exact hold
  | send c msg =>
    cases msg with
    | presenceUpdate pk online =>
      simp only [nextReads]
      split_ifs
      · exact fun x hmem => hold x (mem_of_mem_used hmem)
      · exact hold
    | _ => exact hold
  | _ => exact hold

theorem unreported_self (u : ℕ) (T : String) (o : Op) (a : Res o) (tr : List BrokerEvent) :
    unreported u T (.performed u o a :: tr) =
      nextReads T (Reading.mk (changes T (.performed u o a :: tr))) (unreported u T tr) o a := by
  simp only [unreported, if_true]

theorem unreported_of_ne {v : ℕ} (hvu : v ≠ u) (a : Res o) :
    unreported v T (.performed u o a :: tr) = unreported v T tr := by
  simp only [unreported, if_neg (Ne.symm hvu)]

/-- What a task has still to report is all as the registry is now. -/
def Recent (tr : List BrokerEvent) (T : String) (u : ℕ) : Prop :=
  ∀ x ∈ unreported u T tr, x.date = changes T tr

theorem Recent.performed {v : ℕ} (h : Recent tr T v) (a : Res o) (ho : writes T o = false) :
    Recent (.performed u o a :: tr) T v := by
  have hsame : changes T (.performed u o a :: tr) = changes T tr := changes_of_not_writes a ho
  intro x hx
  rw [hsame]
  by_cases hv : v = u
  · subst hv
    rw [unreported_self, hsame] at hx
    rcases mem_nextReads hx with hx | hx
    · exact h x hx
    · exact hx
  · rw [unreported_of_ne hv] at hx
    exact h x hx

theorem recent_of_writes (a : Res o) (ho : writes T o = true) :
    Recent (.performed u o a :: tr) T u := by
  intro x hx
  rw [unreported_self] at hx
  cases o with
  | registry acc =>
    cases acc with
    | insertPeer peer =>
      simp only [nextReads, if_pos (of_decide_eq_true ho)] at hx
      exact List.mem_singleton.mp hx ▸ rfl
    | removePeer pk =>
      simp only [nextReads, if_pos (of_decide_eq_true ho)] at hx
      exact List.mem_singleton.mp hx ▸ rfl
    | _ => cases ho
  | _ => cases ho

theorem lastReport_told (u r : ℕ) (T : String) (online : Bool) (tr : List BrokerEvent) :
    lastReport r T (.performed u (.send r (.presenceUpdate T online)) true :: tr) =
      (unreported u T tr).head? := by
  simp [lastReport]

theorem lastReport_refused (u c : ℕ) (msg : ServerMessage) :
    lastReport r T (.performed u (.send c msg) false :: tr) = lastReport r T tr := by
  cases msg <;> simp [lastReport]

theorem lastReport_other (a : Res o) (ho : ∀ online, o ≠ .send r (.presenceUpdate T online)) :
    lastReport r T (.performed u o a :: tr) = lastReport r T tr := by
  cases o with
  | send c msg =>
    cases msg with
    | presenceUpdate pk online =>
      refine if_neg ?_
      rintro ⟨rfl, rfl, -⟩
      exact ho online rfl
    | _ => rfl
  | _ => rfl

end Steps

/-! ## Runs -/

section Runs

variable {crates : Crates} {hasDb : Bool} {db₀ : Database.Db ℕ} {tr : List BrokerEvent}
  {σ : BrokerConfig} {T : String}

theorem reports_of_run (h : Run (broker crates hasDb) (fresh db₀) tr σ) (T : String) {u : ℕ}
    {c : Phase} {o : Op} {k : Res o → Work Outcome} (hu : σ.tasks u = .running c (.call o k)) :
    Reports T ((unreported u T tr).map Reading.online) o := by
  have htracks := h.tracks (nextReads T id) [] (fun _ _ => Reports T) (fun _ _ _ => True)
    (fun _ => ⟨.absent, rfl, trivial⟩) fun _ _ _ _ _ _ hs _ => start_reports hs
  rw [unreported_online]
  exact (htracks.2 u c _ hu).1

theorem valid_of_run (h : Run (broker crates hasDb) (fresh db₀) tr σ) (T : String) :
    (∀ u, ∀ x ∈ unreported u T tr, x.Valid T tr σ.shared) ∧
      ∀ r, ∀ x ∈ lastReport r T tr, x.Valid T tr σ.shared := by
  refine h.induct (I := fun tr σ => (∀ u, ∀ x ∈ unreported u T tr, x.Valid T tr σ.shared) ∧
    ∀ r, ∀ x ∈ lastReport r T tr, x.Valid T tr σ.shared) ?_ ?_
  · exact ⟨fun _ _ hx => absurd hx List.not_mem_nil, fun _ _ hx => absurd hx (by simp [lastReport])⟩
  · rintro tr σ e σ' - ⟨hread, htold⟩ hs
    rcases hs.cases with ⟨u, i, c, c', p, rfl, hw, hstart, rfl⟩ |
      ⟨u, c, o, k, env, a, b', rfl, hu, hx, rfl⟩ | ⟨w, b', rfl, hx, rfl⟩
    · exact ⟨fun v x hmem => ⟨(hread v x hmem).dated, (hread v x hmem).agrees⟩,
        fun r x hmem => ⟨(htold r x hmem).dated, (htold r x hmem).agrees⟩⟩
    · have hx' : Broker.exec crates u o env σ.shared = some (a, b') := hx
      refine ⟨fun v => ?_, fun r x hmem => ?_⟩
      · by_cases hv : v = u
        · subst hv
          rw [unreported_self]
          exact valid_next hx' (hread v)
        · rw [unreported_of_ne hv]
          exact fun x hmem => (hread v x hmem).performed hx'
      · by_cases ho : ∃ online, o = .send r (.presenceUpdate T online)
        · obtain ⟨online, rfl⟩ := ho
          cases a with
          | true =>
            rw [lastReport_told] at hmem
            exact (hread u x (List.mem_of_mem_head? hmem)).performed hx'
          | false =>
            rw [lastReport_refused] at hmem
            exact (htold r x hmem).performed hx'
        · rw [lastReport_other _ fun online heq => ho ⟨online, heq⟩] at hmem
          exact (htold r x hmem).performed hx'
    · obtain ⟨channels, rfl⟩ := Broker.writerStep_frame hx
      exact ⟨fun v x hmem => ⟨(hread v x hmem).dated, (hread v x hmem).agrees⟩,
        fun r x hmem => ⟨(htold r x hmem).dated, (htold r x hmem).agrees⟩⟩

/-- The channel was told last what was read for its last report. -/
theorem lastUpdate_of_run (h : Run (broker crates hasDb) (fresh db₀) tr σ) (r : ℕ) (T : String) :
    lastUpdate T (σ.shared.channels r).sent = (lastReport r T tr).map Reading.online := by
  refine h.induct (I := fun tr σ =>
    lastUpdate T (σ.shared.channels r).sent = (lastReport r T tr).map Reading.online) rfl ?_
  intro tr σ e σ' hrun ih hs
  rcases hs.cases with ⟨u, i, c, c', p, rfl, hw, hstart, rfl⟩ |
    ⟨u, c, o, k, env, a, b', rfl, hu, hx, rfl⟩ | ⟨w, b', rfl, hx, rfl⟩
  · exact ih
  · have hx' : Broker.exec crates u o env σ.shared = some (a, b') := hx
    by_cases ho : ∃ online, o = .send r (.presenceUpdate T online)
    · obtain ⟨online, rfl⟩ := ho
      rcases Broker.sent_of_send hx' with ⟨-, rfl, hsame⟩ | ⟨-, rfl, hsent, -⟩
      · rw [lastReport_refused, hsame]
        exact ih
      · have hread := reports_of_run hrun T hu rfl
        rw [List.head?_map] at hread
        rw [lastReport_told, hsent, hread]
        exact if_pos rfl
    · have hno : ∀ online, o ≠ .send r (.presenceUpdate T online) :=
        fun online heq => ho ⟨online, heq⟩
      rw [lastReport_other _ hno]
      rcases Broker.sent_of_exec hx' r with hsame | ⟨msg, rfl, hsent⟩
      · rw [hsame]
        exact ih
      · rw [hsent, lastUpdate_cons fun online heq => hno online (by rw [heq])]
        exact ih
  · rw [Broker.writerStep_sent hx]
    exact ih

end Runs

end HashedBroker.PresenceReadings
