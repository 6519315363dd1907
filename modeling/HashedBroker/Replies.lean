import HashedBroker.ReceivedObject
import HashedBroker.RegistryLiveness
import HashedBroker.TaskLogs

/-!
# Replies to a request

A frame with a `request_id` gets one reply with it, whichever way its handling ends: the handler
replies and returns, or it fails and the loop replies for it. The exception is a registration that
asks for a handle when there is no database: it is told that this is an error, and registered.
-/
namespace HashedBroker.Replies
open AtomicPrograms ReactiveTasks Protocol Database Server Sessions

def answered : List String :=
  ["register", "lookup_peer", "lookup_handle", "subscribe_presence", "request_relay",
    "team_announce", "team_lookup"]

/-! ## Counting replies in a program -/

/-- The replies sent on a channel so far, counted. -/
def tally (t : ℕ) (R : String) (n : ℕ) : (o : Op) → Res o → ℕ
  | .send c msg, _ => if c = t ∧ msg.requestId = some R then n + 1 else n
  | _, _ => n

def Silent : Op → Prop
  | .send _ msg => msg.requestId = none
  | _ => True

section Rules

variable {t : ℕ} {R : String} {n : ℕ} {α β : Type}

abbrev Sends (t : ℕ) (R : String) (n : ℕ) (p : Work α) (post : ℕ → α → Prop) : Prop :=
  p.Follows (tally t R) (fun _ _ => True) post n

theorem tally_of_silent {o : Op} (ho : Silent o) (r : Res o) : tally t R n o r = n := by
  cases o with
  | send c msg =>
    have hne : msg.requestId ≠ some R := by
      rw [show msg.requestId = none from ho]
      simp
    simp only [tally, hne, and_false, if_false]
  | _ => rfl

theorem sends_of_silent {p : Work α} (hp : p.Always Silent) :
    Sends t R n p (fun k _ => k = n) :=
  hp.follows (fun _ ho => ⟨trivial, tally_of_silent ho⟩) fun _ => rfl

theorem silent_bind {p : Work α} {f : α → Work β} {post : ℕ → β → Prop} (hp : p.Always Silent)
    (hf : ∀ a, Sends t R n (f a) post) : Sends t R n (p >>= f) post := by
  refine (sends_of_silent hp).bind ?_
  rintro k a rfl
  exact hf a

theorem sends_reply {msg : ServerMessage} (hmsg : msg.requestId = some R) :
    Sends t R n (send t msg) (fun k _ => k = n + 1) := by
  refine ⟨trivial, fun _ => ?_⟩
  change tally t R n (.send t msg) _ = n + 1
  simp only [tally, hmsg, and_self, if_true]

/-- The handler has replied when it succeeds, and not when it fails. -/
def Answers (t : ℕ) (R : String) (h : Handler α) : Prop :=
  Sends t R 0 h.run fun k x => k = x.toBool.toNat

theorem answers_of_silent_error {e : BrokerError} : Answers t R (throw e : Handler α) := rfl

theorem answers_lift_bind {p : Work α} {f : α → Handler β} (hp : p.Always Silent)
    (hf : ∀ a, Answers t R (f a)) : Answers t R (ExceptT.lift p >>= f) := by
  unfold Answers
  rw [run_lift_bind]
  exact silent_bind hp hf

theorem answers_attempt_bind {p : Work (Except BrokerError α)} {f : α → Handler β}
    (hp : p.Always Silent) (hf : ∀ a, Answers t R (f a)) : Answers t R (attempt p >>= f) := by
  unfold Answers
  rw [run_attempt_bind]
  refine silent_bind hp fun x => ?_
  cases x with
  | ok a => exact hf a
  | error e => exact rfl

theorem answers_bind {x : Handler α} {f : α → Handler β} (hx : x.run.Always Silent)
    (hf : ∀ a, Answers t R (f a)) : Answers t R (x >>= f) :=
  answers_attempt_bind hx hf

theorem answers_require_bind {x : Except BrokerError α} {f : α → Handler β}
    (hf : ∀ a, Answers t R (f a)) : Answers t R (require x >>= f) := by
  unfold Answers
  rw [run_require_bind]
  cases x with
  | ok a => exact hf a
  | error e => exact rfl

theorem answers_lift {p : Work α} (hp : Sends t R 0 p (fun k _ => k = 1)) :
    Answers t R (ExceptT.lift p : Handler α) := by
  refine hp.bind ?_
  rintro k a rfl
  exact rfl

theorem answers_reply {msg : ServerMessage} (hmsg : msg.requestId = some R) :
    Answers t R (ExceptT.lift (send t msg)) := answers_lift (sends_reply hmsg)

end Rules

/-! ## The handlers -/

section Handlers

variable {crates : Crates} {hasDb : Bool} {t : ℕ} {pk R : String}

theorem silent_get (target : String) : (registry (Registry.get target)).Always Silent :=
  get_always target trivial

theorem silent_kind (target : String) : (resolvedKind hasDb target).Always Silent :=
  resolvedKind_always hasDb target trivial

theorem onRegister_sends : Sends t R 0 (onRegister t pk (some R)) (fun k _ => k = 1) := by
  refine silent_bind (silent_get pk) fun reflected => ?_
  refine silent_bind (silent_get pk) fun claimed => ?_
  exact sends_reply rfl

theorem onLookupPeer_sends (target : String) :
    Sends t R 0 (onLookupPeer hasDb t target (some R)) (fun k _ => k = 1) := by
  refine silent_bind (silent_get target) fun peer => ?_
  refine silent_bind (silent_kind target) fun kind => ?_
  cases peer with
  | some p => exact sends_reply rfl
  | none => exact sends_reply rfl

theorem onLookupHandle_answers (target : String) :
    Answers t R (onLookupHandle hasDb t target (some R)) := by
  have hrest : ∀ owner : Option String, Answers t R (answerOwner hasDb t target (some R) owner) := by
    intro owner
    cases owner with
    | none => exact answers_reply rfl
    | some pk =>
      refine answers_lift_bind (silent_get pk) fun peer => ?_
      exact answers_lift_bind (silent_kind pk) fun kind => answers_reply rfl
  rw [onLookupHandle_bind]
  cases hasDb with
  | false =>
    have hresolve : (registry (Registry.resolveHandle target)).Always Silent :=
      Prog.Always.lift ((Prog.always_perform _).mpr trivial)
    exact answers_lift_bind hresolve hrest
  | true =>
    have hresolve : (query (Handles.resolve target)).Always Silent :=
      Prog.Always.lift ⟨trivial, fun _ => trivial⟩
    exact answers_attempt_bind hresolve hrest

theorem sendUpdates_silent (online : List (String × Bool)) :
    (sendUpdates t online).Always Silent := by
  have hsend : ∀ pk on, Silent (.send t (.presenceUpdate pk on)) := fun _ _ => rfl
  exact sendUpdates_always hsend online

theorem onSubscribePresence_sends (peers : List String) :
    Sends t R 0 (onSubscribePresence t pk peers (some R)) (fun k _ => k = 1) := by
  have hsub : (presence (Presence.subscribe pk peers)).Always Silent :=
    Prog.Always.lift (subscribe_always trivial (fun _ => trivial) (fun _ => trivial) trivial peers)
  have honline : (registry (Registry.onlineSet peers)).Always Silent :=
    Prog.Always.lift (onlineSet_always (fun _ => trivial) peers)
  refine silent_bind hsub fun _ => ?_
  refine silent_bind (always_metric trivial) fun _ => ?_
  refine silent_bind honline fun online => ?_
  refine (sends_reply rfl).bind ?_
  rintro k - rfl
  exact sends_of_silent (sendUpdates_silent online)

theorem request_silent (responder : String) : (request crates pk responder).run.Always Silent := by
  refine always_lift_bind (silent_get responder) fun peer => ?_
  refine always_orElse_bind fun recipient _ => ?_
  refine always_lift_bind ((always_perform _).mpr trivial) fun id => ?_
  exact always_trySend_bind rfl fun _ => trivial

theorem onRequestRelay_answers (peer : String) :
    Answers t R (onRequestRelay crates t pk peer (some R)) := by
  refine answers_bind (request_silent peer) fun id => ?_
  exact answers_lift_bind (always_metric trivial) fun _ => answers_reply rfl

theorem onTeamAnnounce_answers (teamId : Option String)
    (teamName adminPubkey adminSignature : String) :
    Answers t R (onTeamAnnounce crates hasDb t pk teamId teamName adminPubkey adminSignature
      (some R)) := by
  cases hasDb with
  | false => exact answers_of_silent_error
  | true =>
    refine answers_require_bind fun parsed => ?_
    have hannounce : (query (Teams.announce crates pk parsed teamName adminPubkey
        adminSignature)).Always Silent :=
      Prog.Always.lift ((Teams.announce_always crates pk parsed teamName adminPubkey
        adminSignature).mono fun _ _ => trivial)
    refine answers_attempt_bind hannounce fun id => ?_
    exact answers_lift_bind (always_metric trivial) fun _ => answers_reply rfl

theorem onlineMembers_silent (rows : List TeamMemberRow) : (onlineMembers rows).Always Silent := by
  induction rows with
  | nil => trivial
  | cons m ms ih =>
    refine Prog.Always.bind (Prog.Always.lift ?_) fun _ => ih.bind fun _ => trivial
    exact (Prog.always_perform _).mpr trivial

theorem onTeamLookup_answers (teamId : String) :
    Answers t R (onTeamLookup crates hasDb t teamId (some R)) := by
  cases hasDb with
  | false => exact answers_of_silent_error
  | true =>
    refine answers_require_bind fun id => ?_
    have hmembers : (query (Teams.members id)).Always Silent :=
      Prog.Always.lift ⟨trivial, fun _ => trivial⟩
    refine answers_attempt_bind hmembers fun rows => ?_
    exact answers_lift_bind (onlineMembers_silent rows) fun out => answers_reply rfl

theorem dispatch_answers {msg : ClientMessage} (htag : msg.tag ∈ answered)
    (hR : msg.requestId = some R) : Answers t R (dispatch crates hasDb t pk msg) := by
  cases msg with
  | register =>
    obtain rfl := hR
    exact answers_lift onRegister_sends
  | lookupPeer =>
    obtain rfl := hR
    exact answers_lift (onLookupPeer_sends _)
  | lookupHandle =>
    obtain rfl := hR
    exact onLookupHandle_answers _
  | subscribePresence =>
    obtain rfl := hR
    exact answers_lift (onSubscribePresence_sends _)
  | requestRelay =>
    obtain rfl := hR
    exact onRequestRelay_answers _
  | teamAnnounce =>
    obtain rfl := hR
    exact onTeamAnnounce_answers _ _ _ _
  | teamLookup =>
    obtain rfl := hR
    exact onTeamLookup_answers _
  | _ => simp [answered, ClientMessage.tag] at htag

/-! ## Registration and the loop -/

/-- The reply a registration without a database gives to the wish for a handle. -/
def extraReplies (hasDb : Bool) (handle : Option String) : ℕ :=
  if hasDb = false ∧ handle.isSome then 1 else 0

theorem recordPeer_sends (handle : Option String) (kind : IdentityKind) :
    Sends t R 0 (recordPeer crates hasDb t pk handle kind (some R))
      (fun k _ => k = extraReplies hasDb handle) := by
  cases hasDb with
  | true =>
    have hclaim : ∀ h, (query (Handles.claim crates pk h)).Always Silent := fun h =>
      Prog.Always.lift ((Handles.claim_always crates pk h).mono fun _ _ => trivial)
    have hupsert : (query (upsertPeerWithKind pk kind.asStr)).Always Silent :=
      Prog.Always.lift ⟨trivial, fun _ => trivial⟩
    refine silent_bind hupsert fun _ => ?_
    cases handle with
    | some h => exact sends_of_silent (claimRequested_always crates pk h (hclaim h) fun _ => trivial)
    | none => exact rfl
  | false =>
    cases handle with
    | some h =>
      refine (sends_reply rfl).bind ?_
      rintro k - rfl
      exact rfl
    | none => exact rfl

theorem enter_sends (addr : Registry.SocketAddr) (handle : Option String)
    (addresses : PeerAddresses) (kind : Option IdentityKind) :
    Sends t R 0 (enter crates hasDb t addr pk handle addresses kind (some R))
      (fun k _ => k = extraReplies hasDb handle + 1) := by
  have hinsert : ∀ peer, (registry (Registry.insert peer)).Always Silent :=
    fun peer => insert_always peer (fun _ => trivial) trivial
  have hbroadcast : (broadcast pk true).Always Silent :=
    broadcast_always pk true trivial (fun _ => trivial) fun _ => rfl
  refine (recordPeer_sends handle _).bind ?_
  rintro k claimed rfl
  refine silent_bind (hinsert _) fun _ => ?_
  refine silent_bind (always_metric trivial) fun _ => ?_
  refine silent_bind (always_metric trivial) fun _ => ?_
  refine (sends_reply rfl).bind ?_
  rintro k - rfl
  exact silent_bind hbroadcast fun _ => rfl

/-- The request id of a decoded object is the one the error path reads from its text. -/
theorem variantFrom_requestId {src : Source} {tag : String} {msg : ClientMessage}
    (h : ClientMessage.variantFrom src tag = some msg) (hR : msg.requestId = some R) :
    ∃ i, defaulted src "request_id" i (asOption asString) none = some msg.requestId := by
  unfold ClientMessage.variantFrom at h
  split at h
  rotate_right
  · cases h
  all_goals simp only [Option.bind_eq_bind, Option.bind_eq_some_iff, Option.some.injEq] at h
  · obtain ⟨_, -, _, -, _, -, _, -, _, -, _, -, _, h, rfl⟩ := h
    exact ⟨_, h⟩
  · obtain ⟨_, -, _, -, _, -, _, -, _, h, rfl⟩ := h
    exact ⟨_, h⟩
  · obtain ⟨_, -, _, -, _, -, _, -, _, h, rfl⟩ := h
    exact ⟨_, h⟩
  · obtain ⟨_, -, _, -, _, -, _, -, _, -, _, h, rfl⟩ := h
    exact ⟨_, h⟩
  · obtain ⟨_, -, _, -, _, -, _, -, _, h, rfl⟩ := h
    exact ⟨_, h⟩
  · obtain ⟨_, -, _, -, _, -, _, -, _, h, rfl⟩ := h
    exact ⟨_, h⟩
  · obtain ⟨_, -, _, -, _, -, _, -, _, h, rfl⟩ := h
    exact ⟨_, h⟩
  · obtain ⟨_, -, _, -, _, -, _, -, _, h, rfl⟩ := h
    exact ⟨_, h⟩
  · obtain ⟨_, -, _, -, _, -, _, -, _, -, rfl⟩ := h
    cases hR
  · obtain ⟨_, -, _, -, _, -, _, -, _, -, _, -, _, -, _, h, rfl⟩ := h
    exact ⟨_, h⟩
  · obtain ⟨_, -, _, -, _, -, _, -, _, h, rfl⟩ := h
    exact ⟨_, h⟩
  · obtain ⟨_, -, _, -, _, -, rfl⟩ := h
    cases hR

theorem parseRequestId_of_object {text : String} {ms : List (String × JsonText.Json)}
    {msg : ClientMessage} (hparse : JsonText.parse crates.finite text = some (.obj ms))
    (hmsg : ClientMessage.ofJson (.obj ms) = some msg) (hR : msg.requestId = some R) :
    parseRequestId crates text = some R := by
  rw [ClientMessage.ofJson, Option.bind_eq_bind] at hmsg
  obtain ⟨tag, -, hv⟩ := Option.bind_eq_some_iff.mp hmsg
  obtain ⟨i, hd⟩ := variantFrom_requestId hv hR
  rw [hR] at hd
  rcases defaulted_eq_some hd with ⟨-, hnone⟩ | ⟨v, hm, hv⟩
  · cases hnone
  · rw [member_without_type ms (by decide)] at hm
    rcases asOption_eq_some hv with ⟨-, hnone⟩ | ⟨-, s, hs, heq⟩
    · cases hnone
    · cases heq
      obtain rfl := asString_eq_some hs
      rw [parseRequestId, hparse]
      simp only [(member_eq_some hm).1, Option.bind_some]
      rfl

theorem pump_sends {text : String} {now : UnixTime} {ms : List (String × JsonText.Json)}
    {msg : ClientMessage} (hparse : JsonText.parse crates.finite text = some (.obj ms))
    (hmsg : ClientMessage.ofJson (.obj ms) = some msg) (htag : msg.tag ∈ answered)
    (hR : msg.requestId = some R) :
    Sends t R 0 (pump crates hasDb t now pk text) (fun k _ => k = 1) := by
  have hfrom : ClientMessage.fromStr crates.finite text = some msg := by
    rw [ClientMessage.fromStr, hparse]
    exact hmsg
  have hhandle : Answers t R (handleClientMessage crates hasDb t now pk text) := by
    unfold Answers
    rw [handleClientMessage, run_require_bind]
    cases hauth : authenticate crates now pk text with
    | error e => exact rfl
    | ok msg' =>
      obtain ⟨m, hm, hauth⟩ := Auth.except_bind_eq_ok hauth
      obtain ⟨key, -, hauth⟩ := Auth.except_bind_eq_ok hauth
      have hmm : m = msg := by
        simp only [decode, hfrom] at hm
        exact (Except.ok.inj hm).symm
      split_ifs at hauth
      cases hauth
      subst hmm
      exact dispatch_answers htag hR
  refine hhandle.bind ?_
  rintro k x rfl
  cases x with
  | ok u => exact rfl
  | error e =>
    have hreply : (errorMsg e (parseRequestId crates text)).requestId = some R :=
      parseRequestId_of_object hparse hmsg hR
    refine (sends_reply hreply).bind ?_
    rintro k - rfl
    exact rfl

end Handlers

/-! ## Runs -/

def replies (t : ℕ) (R : String) : Prog.History Op Res → ℕ
  | [] => 0
  | ⟨.send c msg, sent⟩ :: h =>
    if c = t ∧ msg.requestId = some R ∧ sent = true then replies t R h + 1 else replies t R h
  | _ :: h => replies t R h

/-- Nothing that was sent on the channel met its end. -/
def Open (t : ℕ) (h : Prog.History Op Res) : Prop :=
  ∀ msg, (⟨.send t msg, false⟩ : Σ o : Op, Res o) ∉ h

def NoFrame (older : List (Input × Prog.History Op Res)) : Prop :=
  ∀ x ∈ older, ∃ addr, x.1 = .connect addr

section Runs

variable {crates : Crates} {hasDb : Bool} {t : ℕ} {R : String}

theorem replies_eq_reached {h : Prog.History Op Res} (hopen : Open t h) :
    replies t R h = Prog.reached (tally t R) 0 h := by
  induction h with
  | nil => rfl
  | cons x h ih =>
    have htail : Open t h := fun msg hmem => hopen msg (List.mem_cons_of_mem x hmem)
    obtain ⟨o, r⟩ := x
    cases o with
    | send c msg =>
      simp only [replies, Prog.reached, tally, ih htail]
      by_cases hc : c = t
      · subst hc
        have hsent : r = true := by
          cases r with
          | true => rfl
          | false => exact absurd List.mem_cons_self (hopen msg)
        simp only [hsent, and_true, true_and]
      · simp only [hc, false_and, if_false]
    | _ => exact ih htail

theorem absent_log {older : List (Input × Prog.History Op Res)}
    (h : Logged (broker crates hasDb) t .absent older (.waiting .absent)) : older = [] := by
  cases older with
  | nil => rfl
  | cons x older =>
    obtain ⟨i, hist⟩ := x
    obtain ⟨c₁, c', p, a, -, hs, -, hc⟩ := h.returned
    have hs' : start crates hasDb t c₁ i = some (c', p) := hs
    have hc' : Phase.absent = finish c' a := hc
    cases start_cases hs' with
    | registers addr f now => cases a <;> cases hc'
    | _ => cases hc'

theorem connected_log {older : List (Input × Prog.History Op Res)} {addr : Registry.SocketAddr}
    (h : Logged (broker crates hasDb) t .absent older (.waiting (.connected addr))) :
    NoFrame older := by
  cases older with
  | nil => exact fun x hx => by cases hx
  | cons x older =>
    obtain ⟨i, hist⟩ := x
    obtain ⟨c₁, c', p, a, hprior, hs, -, hc⟩ := h.returned
    have hs' : start crates hasDb t c₁ i = some (c', p) := hs
    have hc' : Phase.connected addr = finish c' a := hc
    cases start_cases hs' with
    | connects addr' =>
      obtain rfl := absent_log hprior
      intro x hx
      obtain rfl := List.mem_singleton.mp hx
      exact ⟨addr', rfl⟩
    | registers addr' f now => cases a <;> cases hc'
    | _ => cases hc'

theorem pumping_log {older : List (Input × Prog.History Op Res)} {pk : String}
    (h : Logged (broker crates hasDb) t .absent older (.waiting (.pumping pk))) :
    ¬ NoFrame older := by
  intro hno
  cases older with
  | nil => cases h
  | cons x older =>
    obtain ⟨i, hist⟩ := x
    obtain ⟨c₁, c', p, a, -, hs, -, hc⟩ := h.returned
    have hs' : start crates hasDb t c₁ i = some (c', p) := hs
    have hc' : Phase.pumping pk = finish c' a := hc
    obtain ⟨addr, rfl⟩ := hno (i, hist) List.mem_cons_self
    cases start_cases hs' with
    | connects addr => cases hc'

/-- In every run, a well-formed signed request handled while its connection can be written to is
replied to exactly once, except for a first frame that asks for a handle without a database. -/
theorem one_reply_per_request {db₀ : Db ℕ} {tr : List BrokerEvent} {σ : BrokerConfig}
    (h : Run (broker crates hasDb) (fresh db₀) tr σ) {c : Phase} (ht : σ.tasks t = .waiting c)
    {f : Frame} {now : UnixTime} {hist : Prog.History Op Res}
    {older : List (Input × Prog.History Op Res)}
    (hlog : taskLog t tr = (.frame f now, hist) :: older) {text : String}
    (hf : f.payload = some text) {ms : List (String × JsonText.Json)}
    (hparse : JsonText.parse crates.finite text = some (.obj ms)) {msg : ClientMessage}
    (hmsg : ClientMessage.ofJson (.obj ms) = some msg) (htag : msg.tag ∈ answered)
    (hR : msg.requestId = some R) {key : VerifyingKey}
    (hsigned : Auth.verifySignedMessage crates now msg = .ok key) (hopen : Open t hist) :
    replies t R hist = 1 ↔ ¬ (hasDb = false ∧ NoFrame older ∧ msg.handle.isSome) := by
  have hlogged : Logged (broker crates hasDb) t .absent (taskLog t tr) (σ.tasks t) := h.logged rfl
  rw [hlog, ht] at hlogged
  obtain ⟨c₁, c', p, a, hprior, hs, hafter, -⟩ := hlogged.returned
  have hs' : start crates hasDb t c₁ (.frame f now) = some (c', p) := hs
  have hcount : ∀ {post : ℕ → Outcome → Prop}, Sends t R 0 p post → post (replies t R hist) a := by
    intro post hp
    rw [replies_eq_reached hopen]
    exact hp.after hafter
  have hfrom : ClientMessage.fromStr crates.finite text = some msg := by
    rw [ClientMessage.fromStr, hparse]
    exact hmsg
  cases c₁ with
  | connected addr =>
    cases hs'
    have hfirst := connected_log hprior
    rw [hf] at hcount
    have hdecode : decode crates "first message parse" text = .ok msg := by
      rw [decode, hfrom]
    cases msg with
    | register pubkey handle addresses kind timestamp signature requestId =>
      obtain rfl := hR
      have hregister : register crates hasDb t now addr (some text) =
          enter crates hasDb t addr pubkey handle addresses kind (some R) := by
        simp only [register, authenticateRegister, hdecode, hsigned]
      rw [hregister] at hcount
      rw [hcount (enter_sends addr handle addresses kind)]
      simp only [extraReplies, hfirst, true_and, ClientMessage.handle]
      split_ifs with hextra
      · simp [hextra]
      · simp only [hextra, not_false_eq_true]
    | _ =>
      have hreject : ∃ m : ServerMessage, m.requestId = some R ∧
          register crates hasDb t now addr (some text) = reject t (some m) := by
        simp only [register, authenticateRegister, hdecode]
        refine ⟨_, ?_, rfl⟩
        exact hR
      obtain ⟨m, hm, hreject⟩ := hreject
      have hsends : Sends t R 0 (reject t (some m)) (fun k _ => k = 1) := by
        refine (sends_reply hm).bind ?_
        rintro k - rfl
        exact rfl
      rw [hreject] at hcount
      simp [hcount hsends, ClientMessage.handle]
  | pumping pk =>
    have hlater := pumping_log hprior
    have hsends : Sends t R 0 p (fun k _ => k = 1) := by
      cases f with
      | text s =>
        cases hs'
        cases hf
        exact pump_sends hparse hmsg htag hR
      | binary bytes =>
        cases hs'
        cases hf
        exact pump_sends hparse hmsg htag hR
      | _ => cases hf
    simp [hcount hsends, hlater]
  | _ => cases hs'

end Runs

/-! ## A lookup, and a registration without a database -/

open Scripts Crates

def openTest (t : ℕ) (h : Prog.History Op Res) : Bool := h.all fun x =>
  match x with
  | ⟨.send c _, sent⟩ => decide (c ≠ t) || sent
  | _ => true

theorem open_of_test {t : ℕ} {h : Prog.History Op Res} (htest : openTest t h = true) :
    Open t h := by
  intro msg hmem
  have hall := List.all_eq_true.mp htest _ hmem
  simp at hall

/-- The last frame a task has handled: its text and clock, whether the channel was open, and the
replies. -/
def lastHandled (t : ℕ) (R : String) (x : List BrokerEvent × BrokerConfig) :
    Option (String × Int64 × Bool × ℕ) :=
  match taskLog t x.1, x.2.tasks t with
  | (.frame (.text s) now, hist) :: _, .waiting _ =>
    some (s, now.secs, openTest t hist, replies t R hist)
  | _, _ => none

theorem handled_of_last {t : ℕ} {R text : String} {n : ℕ} {tr : List BrokerEvent}
    {σ : BrokerConfig} (h : lastHandled t R (tr, σ) = some (text, 0, true, n)) :
    ∃ c hist older, σ.tasks t = .waiting c ∧
      taskLog t tr = (.frame (.text text) .midnight, hist) :: older ∧ Open t hist ∧
      replies t R hist = n := by
  unfold lastHandled at h
  split at h
  · rename_i s now hist older c hlog ht
    simp only [Option.some.injEq, Prod.mk.injEq] at h
    obtain ⟨rfl, hnow, hopen, rfl⟩ := h
    obtain rfl : now = .midnight := by
      cases now
      cases hnow
      rfl
    exact ⟨c, hist, older, ht, hlog, open_of_test hopen, rfl⟩
  · cases h

def selfLookup : ClientMessage :=
  .lookupPeer (keyText 'a') (keyText 'a') 0 (signatureText 'a') (some "r")

theorem selfLookup_handled :
    (play false (fun _ _ _ => true) (joins 0 'a' ++ .say 0 'a' selfLookup :: steps 0 2 calm) []
      (fresh DatabaseCalls.emptyDb)).bind (lastHandled 0 "r") =
      some (wire selfLookup, 0, true, 1) := by
  decide +kernel

theorem lookup_has_one_reply : ∃ hist, replies 0 "r" hist = 1 ∧ ∃ tr σ older,
    Run (broker demo false) (fresh DatabaseCalls.emptyDb) tr σ ∧
      taskLog 0 tr = (.frame (.text (wire selfLookup)) .midnight, hist) :: older := by
  obtain ⟨⟨tr, σ⟩, hp, hlast⟩ := Option.bind_eq_some_iff.mp selfLookup_handled
  obtain ⟨c, hist, older, ht, hlog, hopen, -⟩ := handled_of_last hlast
  have hspoken : SpokenBy 'a' selfLookup := by decide
  obtain ⟨key, hkey⟩ := hspoken.verified
  have hrun := run_of_play false hp
  have hone := one_reply_per_request hrun ht hlog rfl
    (JsonText.parse_print selfLookup.toValue_readable) selfLookup.ofJson_toValue
    (by decide) rfl hkey hopen
  exact ⟨hist, hone.mpr (by simp [selfLookup, ClientMessage.handle]), tr, σ, older, hrun, hlog⟩

def registerWithHandle : ClientMessage :=
  .register (keyText 'a') (some "alice") ⟨[], none⟩ none 0 (signatureText 'a') (some "r")

theorem registerWithHandle_handled :
    (play false (fun _ _ _ => true)
      ([.connect 0, .say 0 'a' registerWithHandle] ++ steps 0 6 calm) []
      (fresh DatabaseCalls.emptyDb)).bind (lastHandled 0 "r") =
      some (wire registerWithHandle, 0, true, 2) := by
  decide +kernel

/-- The registration is answered by an error and by `registered`, both under its request id. -/
theorem registration_has_two_replies : ∃ tr σ c hist older,
    Run (broker demo false) (fresh DatabaseCalls.emptyDb) tr σ ∧ σ.tasks 0 = .waiting c ∧
      taskLog 0 tr = (.frame (.text (wire registerWithHandle)) .midnight, hist) :: older ∧
      JsonText.parse demo.finite (wire registerWithHandle) =
        some (.obj registerWithHandle.toValue) ∧
      ClientMessage.ofJson (.obj registerWithHandle.toValue) = some registerWithHandle ∧
      (∃ key, Auth.verifySignedMessage demo .midnight registerWithHandle = .ok key) ∧
      Open 0 hist ∧ replies 0 "r" hist ≠ 1 := by
  obtain ⟨⟨tr, σ⟩, hp, hlast⟩ := Option.bind_eq_some_iff.mp registerWithHandle_handled
  obtain ⟨c, hist, older, ht, hlog, hopen, htwo⟩ := handled_of_last hlast
  have hspoken : SpokenBy 'a' registerWithHandle := by decide
  exact ⟨tr, σ, c, hist, older, run_of_play false hp, ht, hlog,
    JsonText.parse_print registerWithHandle.toValue_readable, registerWithHandle.ofJson_toValue,
    hspoken.verified, hopen, by rw [htwo]; decide⟩

end HashedBroker.Replies
