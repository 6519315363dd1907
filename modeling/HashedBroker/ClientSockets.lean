import HashedBroker.BrokerClient
import HashedBroker.LabelledRuns

/-!
# The sockets of a client

The handlers of a socket stay attached when the client has gone on to another one, and they act on
what all connections share: the resolver of the last `connect()` and the table of pending requests.
An event of an old socket can therefore settle the promise of a newer `connect()`, and its closing
rejects requests sent on another socket. Events touch only their own connection in the runs in which
no such promise is waiting when they come.
-/
namespace HashedBroker.ClientSockets
open KeyedTables Protocol ClientSigning BrokerClient LabelledRuns

def Action.socket : Action → Option ℕ
  | .opened w => some w
  | .errored w => some w
  | .closed w => some w
  | .message w _ => some w
  | _ => none

/-- What the step does to promises concerns the connection of its socket only. -/
structure OwnEffects (c : Client) (a : Action) (c' : Client) : Prop where
  settles : ∀ w v, Action.socket a = some w → c.connections v = none → c'.connections v ≠ none →
    v = w
  resolves : ∀ v, c.connections v = none → c'.connections v = some .resolved → a = .opened v
  rejects : ∀ i, c.results i = none → c'.results i = some (.rejected .websocketClosed) →
    ∃ w, c.sentOn i = some w ∧ c'.readyState w = .closed

/-- No other `connect()` waits when a socket opens or fails, and no request that was sent on another
socket which is not closed is pending when a socket closes. -/
def NothingElseWaits (_ : List Action) (c : Client) : Action → Prop
  | .opened w => ∀ v, c.connectedResolver = some v → v = w
  | .errored w => ∀ v, c.connectedRejector = some v → v = w
  | .closed w => ∀ id p v, c.pending.lookup id = some p → c.sentOn p.call = some v →
    v = w ∨ c.readyState v = .closed
  | _ => True

/-- A pending request has been sent on a socket, or its promise is settled. -/
def PendingSent (c : Client) : Prop :=
  ∀ id p, c.pending.lookup id = some p → c.results p.call = none → ∃ w, c.sentOn p.call = some w

section Steps

variable {opts : Options} {c c' : Client} {a : Action}

theorem PendingSent.mono (h : PendingSent c)
    (hpending : ∀ id p, c'.pending.lookup id = some p → c.pending.lookup id = some p)
    (hresults : ∀ i, c'.results i = none → c.results i = none)
    (hsent : ∀ i w, c.sentOn i = some w → c'.sentOn i = some w) : PendingSent c' := by
  intro id p hp hnone
  obtain ⟨w, hw⟩ := h id p (hpending id p hp) (hresults _ hnone)
  exact ⟨w, hsent _ _ hw⟩

theorem results_of_settleCall {i j : ℕ} {x : Result} (h : (c.settleCall i x).results j = none) :
    c.results j = none := by
  rw [Client.results_settleCall] at h
  split_ifs at h
  exact h

theorem PendingSent.settleCall (h : PendingSent c) (i : ℕ) (x : Result) :
    PendingSent (c.settleCall i x) := by
  refine h.mono ?_ (fun j => results_of_settleCall) ?_
  · intro id p hp
    obtain ⟨results, heq⟩ := c.settleCall_eq i x
    rwa [heq] at hp
  · intro j w hw
    obtain ⟨results, heq⟩ := c.settleCall_eq i x
    rwa [heq]

theorem PendingSent.transmit (h : PendingSent c) (i : ℕ) (x : Call) (text : String) :
    PendingSent (c.transmit i x text) := by
  unfold Client.transmit
  split
  · split
    · rename_i c₁ hsend
      obtain ⟨w, outbox, rfl⟩ := Client.send_ok hsend
      refine PendingSent.settleCall ?_ i _
      intro id p hp hnone
      by_cases hi : p.call = i
      · exact ⟨w, by simp [hi]⟩
      · obtain ⟨v, hv⟩ := h id p hp hnone
        exact ⟨v, by simp [hi, hv]⟩
    · exact h.settleCall i _
  · simp only
    split
    · rename_i c₁ hsend
      obtain ⟨w, outbox, rfl⟩ := Client.send_ok hsend
      intro id p hp hnone
      simp only [lookup_insert_ite] at hp
      by_cases hi : p.call = i
      · exact ⟨w, by simp [hi]⟩
      · split_ifs at hp
        · cases hp
          exact absurd rfl hi
        · obtain ⟨v, hv⟩ := h id p hp hnone
          exact ⟨v, by simp [hi, hv]⟩
    · -- the promise of the call whose message could not be sent is settled
      intro id p hp hnone
      obtain ⟨results, heq⟩ := Client.settleCall_eq { c with
        pending := c.pending.insert (x.requestId.getD "") ⟨i, _⟩
        timers := Function.update c.timers i true } i (.rejected _)
      rw [heq] at hp
      simp only [lookup_insert_ite] at hp
      have hold := results_of_settleCall hnone
      rw [heq]
      split_ifs at hp
      · cases hp
        rw [Client.results_settleCall, if_pos ⟨rfl, hold⟩] at hnone
        cases hnone
      · exact h id p hp hold

theorem PendingSent.step (h : PendingSent c) (hs : c.step opts a = some c') : PendingSent c' := by
  have herased : ∀ {timers : ℕ → Bool} {id₀ : String},
      PendingSent { c with pending := c.pending.erase id₀, timers := timers } := by
    intro timers id₀
    refine h.mono ?_ (fun _ hr => hr) fun _ _ hw => hw
    intro id p hp
    simp only [lookup_erase_ite] at hp
    split_ifs at hp
    exact hp
  cases Client.effect_of_step hs with
  | sockets => exact h
  | started => exact h
  | refused =>
    refine PendingSent.settleCall ?_ _ _
    exact h
  | @transmitted i x text =>
    refine PendingSent.transmit ?_ i x text
    exact h
  | @notSigned i =>
    refine PendingSent.settleCall ?_ i _
    exact h
  | @timedOut i => exact herased.settleCall i _
  | closed =>
    intro id p hp
    cases hp
  | answered => exact herased.settleCall _ _
  | dispatched => exact h

theorem OwnEffects.of_quiet (hconnections : c'.connections = c.connections)
    (hresults : ∀ i, c.results i = none → c'.results i ≠ some (.rejected .websocketClosed)) :
    OwnEffects c a c' := by
  constructor
  · intro w v _ hnone hsome
    rw [hconnections] at hsome
    exact absurd hnone hsome
  · intro v hnone hsome
    rw [hconnections, hnone] at hsome
    cases hsome
  · intro i hnone hclosed
    exact absurd hclosed (hresults i hnone)

theorem OwnEffects.of_settleCall {c₁ : Client} {i : ℕ} {x : Result}
    (hconnections : c₁.connections = c.connections) (hresults : c₁.results = c.results)
    (hx : x ≠ .rejected .websocketClosed) : OwnEffects c a (c₁.settleCall i x) := by
  apply OwnEffects.of_quiet
  · obtain ⟨results, heq⟩ := c₁.settleCall_eq i x
    rw [heq]
    exact hconnections
  · intro j hnone hclosed
    rw [Client.results_settleCall, hresults] at hclosed
    split_ifs at hclosed
    · exact hx (Option.some.inj hclosed)
    · rw [hnone] at hclosed
      cases hclosed

theorem OwnEffects.transmit (i : ℕ) (x : Call) (text : String) {c₁ : Client}
    (hconnections : c₁.connections = c.connections) (hresults : c₁.results = c.results) :
    OwnEffects c a (c₁.transmit i x text) := by
  unfold Client.transmit
  split
  · split
    · rename_i c₂ hsend
      obtain ⟨w, outbox, rfl⟩ := Client.send_ok hsend
      exact OwnEffects.of_settleCall hconnections hresults nofun
    · rename_i e hsend
      rw [Client.send_error hsend]
      exact OwnEffects.of_settleCall hconnections hresults nofun
  · simp only
    split
    · rename_i c₂ hsend
      obtain ⟨w, outbox, rfl⟩ := Client.send_ok hsend
      apply OwnEffects.of_quiet
      · exact hconnections
      · intro j hnone hclosed
        simp only [hresults, hnone] at hclosed
        cases hclosed
    · rename_i e hsend
      rw [Client.send_error hsend]
      exact OwnEffects.of_settleCall hconnections hresults nofun

theorem verdict_ne_closed (expected : String) (msg : ServerMessage) :
    Client.verdict expected msg ≠ .rejected .websocketClosed := by
  unfold Client.verdict
  split_ifs
  · exact nofun
  · split <;> exact nofun

theorem OwnEffects.of_opened {w : ℕ}
    (hguard : ∀ v, c.connectedResolver = some v → v = w) :
    OwnEffects c (.opened w)
      { c with readyState := Function.update c.readyState w .opened }.onOpen := by
  obtain ⟨connections, heq, hconnections⟩ := Client.onOpen_eq
    { c with readyState := Function.update c.readyState w .opened }
  rw [heq]
  have hown : ∀ v, c.connections v = none → connections v ≠ none → v = w := by
    intro v hnone hsome
    rw [hconnections] at hsome
    split_ifs at hsome with hv
    · exact hguard v hv.1
    · exact absurd hnone hsome
  constructor
  · rintro w' v ⟨rfl⟩ hnone hsome
    exact hown v hnone hsome
  · intro v hnone hresolved
    have hsome : connections v ≠ none := by
      intro hnone'
      simp only [hnone'] at hresolved
      cases hresolved
    rw [hown v hnone hsome]
  · intro i hnone hclosed
    simp only [hnone] at hclosed
    cases hclosed

theorem OwnEffects.of_errored {w : ℕ}
    (hguard : ∀ v, c.connectedRejector = some v → v = w) :
    OwnEffects c (.errored w)
      { c with readyState := Function.update c.readyState w .closing }.onError := by
  obtain ⟨connections, heq, hconnections⟩ := Client.onError_eq
    { c with readyState := Function.update c.readyState w .closing }
  rw [heq]
  constructor
  · rintro w' v ⟨rfl⟩ hnone hsome
    simp only [hconnections] at hsome
    split_ifs at hsome with hv
    · exact hguard v hv.1
    · exact absurd hnone hsome
  · intro v hnone hresolved
    simp only [hconnections] at hresolved
    split_ifs at hresolved
    · cases hresolved
    · rw [hnone] at hresolved
      cases hresolved
  · intro i hnone hclosed
    simp only [hnone] at hclosed
    cases hclosed

theorem OwnEffects.of_closed (h : PendingSent c) {w : ℕ}
    (hguard : ∀ id p v, c.pending.lookup id = some p → c.sentOn p.call = some v →
      v = w ∨ c.readyState v = .closed) :
    OwnEffects c (.closed w)
      { c with readyState := Function.update c.readyState w .closed }.onClose := by
  constructor
  · intro w' v _ hnone hsome
    exact absurd hnone hsome
  · intro v hnone hresolved
    simp only [Client.onClose, hnone] at hresolved
    cases hresolved
  · intro i hnone hclosed
    simp only [Client.onClose] at hclosed
    split_ifs at hclosed with hpending
    · obtain ⟨id, p, hp, hcall⟩ := anyBinding_eq_true.mp hpending.1
      obtain rfl : p.call = i := of_decide_eq_true hcall
      obtain ⟨v, hv⟩ := h id p hp hnone
      refine ⟨v, hv, ?_⟩
      simp only [Client.onClose]
      by_cases hvw : v = w
      · rw [hvw, Function.update_self]
      · rw [Function.update_of_ne hvw]
        exact (hguard id p v hp hv).resolve_left hvw
    · rw [hnone] at hclosed
      cases hclosed

theorem OwnEffects.of_step (h : PendingSent c) (hs : c.step opts a = some c')
    (hguard : NothingElseWaits [] c a) : OwnEffects c a c' := by
  have hquiet : ∀ i, c.results i = none → c.results i ≠ some (.rejected .websocketClosed) := by
    intro i hnone hclosed
    rw [hnone] at hclosed
    cases hclosed
  cases a with
  | connect =>
    cases hs
    unfold Client.connect
    split_ifs
    · exact OwnEffects.of_quiet rfl hquiet
    · exact OwnEffects.of_quiet rfl hquiet
  | close =>
    cases hs
    unfold Client.close Client.closeSocket
    split
    · split <;> exact OwnEffects.of_quiet rfl hquiet
    · exact OwnEffects.of_quiet rfl hquiet
  | call request nowSecs now =>
    cases hs
    unfold Client.call
    split_ifs
    · exact OwnEffects.of_quiet rfl hquiet
    · exact OwnEffects.of_settleCall rfl rfl (by simp)
  | signed i =>
    simp only [Client.step, Option.bind_eq_bind, Option.bind_eq_some_iff] at hs
    obtain ⟨x, -, hs⟩ := hs
    split_ifs at hs
    obtain ⟨text, -, hs⟩ := Option.bind_eq_some_iff.mp hs
    cases hs
    exact OwnEffects.transmit i x text rfl rfl
  | notSigned i =>
    simp only [Client.step] at hs
    split_ifs at hs
    cases hs
    exact OwnEffects.of_settleCall rfl rfl (by simp)
  | timeout i =>
    simp only [Client.step, Option.bind_eq_bind, Option.bind_eq_some_iff] at hs
    obtain ⟨x, -, hs⟩ := hs
    split_ifs at hs
    cases hs
    exact OwnEffects.of_settleCall rfl rfl (by simp)
  | opened w =>
    simp only [Client.step] at hs
    split_ifs at hs
    cases hs
    exact OwnEffects.of_opened hguard
  | errored w =>
    simp only [Client.step] at hs
    split_ifs at hs
    cases hs
    exact OwnEffects.of_errored hguard
  | closed w =>
    simp only [Client.step] at hs
    split_ifs at hs
    cases hs
    exact OwnEffects.of_closed h hguard
  | message w msg =>
    simp only [Client.step] at hs
    split_ifs at hs
    cases hs
    unfold Client.handleIncoming
    split
    · exact OwnEffects.of_settleCall rfl rfl (verdict_ne_closed _ _)
    · exact OwnEffects.of_quiet rfl hquiet

end Steps

/-! ## Runs -/

def Moves (opts : Options) (c : Client) (a : Action) (c' : Client) : Prop :=
  c.step opts a = some c'

def TouchesOwn (opts : Options) (_ : List Action) (c : Client) (a : Action) : Prop :=
  ∀ c', Moves opts c a c' → OwnEffects c a c'

section Runs

variable {opts : Options} {c : Client} {tr : List Action}
  {C : List Action → Client → Action → Prop}

theorem pendingSent_of_reaches (h : Reaches (Moves opts) C .new tr c) : PendingSent c := by
  refine h.invariant (I := fun _ c => PendingSent c) ?_ fun _ hi hmove _ => hi.step hmove
  intro id p hp
  cases hp

/-- In every run in which nothing else waits when a socket opens, fails or closes, each step touches
only its own connection. -/
theorem events_touch_own_connection (h : Reaches (Moves opts) NothingElseWaits .new tr c) :
    Reaches (Moves opts) (TouchesOwn opts) .new tr c := by
  refine h.weaken fun hprior _ hguard c' hmove => ?_
  exact OwnEffects.of_step (pendingSent_of_reaches hprior) hmove hguard

end Runs

/-! ## A request and the sockets it is not sent on -/

def rehearse (opts : Options) (c : Client) : Action → Option Client
  | .signed i => do
    let x ← c.calls i
    if c.signing i then
      some ({ c with signing := Function.update c.signing i false }.transmit i x
        (String.ofList (JsonText.print (.obj (Client.signedMembers opts x)))))
    else none
  | a => c.step opts a

theorem moves_of_rehearse {opts : Options} (c : Client) (a : Action) (c' : Client)
    (h : rehearse opts c a = some c') : Moves opts c a c' := by
  cases a with
  | signed i =>
    simp only [rehearse, Option.bind_eq_bind, Option.bind_eq_some_iff] at h
    obtain ⟨x, hx, h⟩ := h
    simp only [Moves, Client.step, Option.bind_eq_bind, hx, Option.bind_some,
      Client.frameText_eq]
    exact h
  | _ => exact h

def nothingElseWaits (_ : List Action) (c : Client) : Action → Bool
  | .opened w => c.connectedResolver.all (· = w)
  | .errored w => c.connectedRejector.all (· = w)
  | .closed w => !anyBinding c.pending fun _ p =>
    !(c.sentOn p.call).all fun v => v = w || c.readyState v = .closed
  | _ => true

theorem nothingElseWaits_sound (tr : List Action) (c : Client) (a : Action)
    (h : nothingElseWaits tr c a = true) : NothingElseWaits tr c a := by
  cases a with
  | opened w =>
    intro v hv
    simpa [nothingElseWaits, hv] using h
  | errored w =>
    intro v hv
    simpa [nothingElseWaits, hv] using h
  | closed w =>
    intro id p v hp hv
    simp only [nothingElseWaits, Bool.not_eq_true', anyBinding_eq_false] at h
    have hclosed : v ≠ w → c.readyState v = .closed := by simpa [hv] using h id p hp
    by_cases hvw : v = w
    · exact Or.inl hvw
    · exact Or.inr (hclosed hvw)
  | _ => trivial

def epoch : TimeValue := ⟨0, by decide⟩

/-- A client of the key `a` whose signatures are all the same. -/
def anyone : Options := ⟨"a", fun _ => "s"⟩

def asks (i : ℕ) : List Action := [.call (.lookupPeer "b") epoch epoch, .signed i]

def reconnects : List Action := [.connect, .opened 0] ++ asks 0 ++ [.closed 0, .connect, .opened 1]

theorem reconnects_replayed :
    (replay (rehearse anyone) nothingElseWaits reconnects [] .new).map
      (fun x => (x.2.results 0, x.2.connections 0, x.2.connections 1)) =
      some (some (.rejected .websocketClosed), some .resolved, some .resolved) := by
  decide +kernel

theorem reconnects_touches_own : ∃ tr c,
    c.results 0 = some (.rejected .websocketClosed) ∧ c.connections 1 = some .resolved ∧
      Reaches (Moves anyone) (TouchesOwn anyone) .new tr c := by
  obtain ⟨⟨tr, c⟩, hr, heq⟩ := Option.map_eq_some_iff.mp reconnects_replayed
  simp only [Prod.mk.injEq] at heq
  have hreaches : Reaches (Moves anyone) NothingElseWaits .new tr c :=
    reaches_of_replay moves_of_rehearse nothingElseWaits_sound .start hr
  exact ⟨tr, c, heq.1, heq.2.2, events_touch_own_connection hreaches⟩

/-- The client has closed its first socket, and waits for a reply on the second. -/
def movedOn : List Action := [.connect, .opened 0, .close, .connect, .opened 1] ++ asks 0

def lateClose : Action := .closed 0

theorem movedOn_replayed :
    ((replay (rehearse anyone) (fun _ _ _ => true) movedOn [] .new).bind fun x =>
      (rehearse anyone x.2 lateClose).map fun c' =>
        (x.2.results 0, x.2.sentOn 0, c'.results 0, c'.readyState 1)) =
      some (none, some 1, some (.rejected .websocketClosed), .opened) := by
  decide +kernel

/-- The closing of the first socket rejects the request that waits on the second, which is open. -/
theorem late_close_rejects_new_request : ∃ tr c,
    Reaches (Moves anyone) (fun _ _ _ => True) .new tr c ∧ ¬ TouchesOwn anyone tr c lateClose := by
  obtain ⟨⟨tr, c⟩, hr, hlast⟩ := Option.bind_eq_some_iff.mp movedOn_replayed
  obtain ⟨c', hc', heq⟩ := Option.map_eq_some_iff.mp hlast
  simp only [Prod.mk.injEq] at heq
  obtain ⟨hwaiting, hsent, hrejected, hopen⟩ := heq
  refine ⟨tr, c, reaches_of_replay moves_of_rehearse (fun _ _ _ _ => trivial) .start hr,
    fun htouches => ?_⟩
  have hown := htouches c' (moves_of_rehearse c lateClose c' hc')
  obtain ⟨w, hw, hclosed⟩ := hown.rejects 0 hwaiting hrejected
  rw [hsent] at hw
  cases hw
  rw [hopen] at hclosed
  cases hclosed

end HashedBroker.ClientSockets
