import HashedBroker.Authentication
import HashedBroker.Deliveries
import HashedBroker.Replies

/-!
# Where replies come from

Every message on a channel was enqueued by some task while it answered some input. A message that
carries a `request_id` was enqueued by the channel's own task, and the id is the one of the frame the
task was answering: what a session sends on another session's channel carries none.
-/
namespace HashedBroker.ReplyOrigins
open AtomicPrograms ReactiveTasks Protocol Database Server Sessions Replies Deliveries

/-- A message on a channel: who has enqueued it, and what input the sender was answering. -/
structure Origin where
  task : ℕ
  msg : ServerMessage
  input : Option Input

def origins (r : ℕ) : List BrokerEvent → List Origin
  | [] => []
  | .performed t (.send c msg) sent :: tr =>
    if c = r ∧ sent = true then ⟨t, msg, (taskLog t tr).head?.map Prod.fst⟩ :: origins r tr
    else origins r tr
  | _ :: tr => origins r tr

/-- The request id that the broker reads in a text, by decoding the message or on the error path. -/
def NamesRequest (crates : Crates) (text R : String) : Prop :=
  parseRequestId crates text = some R ∨
    ∃ msg, ClientMessage.fromStr crates.finite text = some msg ∧ msg.requestId = some R

/-- The operation replies to this request only, and on this channel. -/
def RepliesTo (tx : ℕ) (requestId : Option String) : Op → Prop
  | .send c msg => msg.requestId = none ∨ c = tx ∧ msg.requestId = requestId
  | _ => True

section Handlers

variable {crates : Crates} {hasDb : Bool} {tx : ℕ} {pk : String} {requestId : Option String}
  {α : Type}

theorem repliesTo_of_silent {p : Work α} (hp : p.Always Silent) :
    p.Always (RepliesTo tx requestId) := by
  refine hp.mono fun o ho => ?_
  cases o with
  | send c msg => exact Or.inl ho
  | _ => trivial

theorem always_reply {msg : ServerMessage} (hmsg : msg.requestId = requestId) :
    (send tx msg).Always (RepliesTo tx requestId) := always_send (Or.inr ⟨rfl, hmsg⟩)

theorem relaySignal_silent (recipient payload : String) :
    (relaySignal crates pk recipient payload).run.Always Silent := by
  have hcheck : (signaling (Signaling.check pk)).Always Silent :=
    Prog.Always.lift (check_always trivial trivial fun _ => trivial)
  refine always_attempt_bind hcheck fun _ => ?_
  refine always_require_bind fun len _ => ?_
  refine always_require_bind fun _ _ => ?_
  refine always_lift_bind (silent_get recipient) fun peer => ?_
  refine always_orElse_bind fun recipient _ => ?_
  refine always_lift_bind ((always_perform _).mpr trivial) fun timestamp => ?_
  exact always_trySend rfl

theorem onSignal_silent (recipient payload : String) :
    (onSignal crates pk recipient payload).run.Always Silent := by
  refine Prog.Always.bind (relaySignal_silent recipient payload) fun x => ?_
  cases x with
  | ok u => exact (always_metric trivial).bind fun _ => trivial
  | error e => exact (always_metric trivial).bind fun _ => trivial

theorem accept_silent (id : Uuid) : (accept crates pk id).run.Always Silent := by
  refine always_attempt_bind ((always_perform _).mpr trivial) fun initiator => ?_
  refine always_lift_bind (silent_get _) fun peer => ?_
  refine always_orElse_bind fun initPeer _ => ?_
  refine always_lift_bind (silent_get _) fun peer => ?_
  refine always_orElse_bind fun respPeer _ => ?_
  exact always_trySend_bind rfl fun _ => always_trySend rfl

theorem forward_silent (id : Uuid) (data : String) :
    (forward crates pk id data).run.Always Silent := by
  refine always_lift_bind ((always_perform _).mpr trivial) fun entry => ?_
  refine always_orElse_bind fun session _ => ?_
  refine always_require_bind fun other _ => ?_
  refine always_require_bind fun len _ => ?_
  refine always_require_bind fun _ _ => ?_
  refine always_attempt_bind (Prog.Always.lift ?_) fun _ => ?_
  · exact Prog.always_perform_bind trivial fun _ => (Prog.always_perform _).mpr trivial
  · refine always_lift_bind (silent_get _) fun peer => ?_
    refine always_orElse_bind fun recipient _ => ?_
    exact always_trySend_bind rfl fun _ => trivial

theorem onSubscribePresence_repliesTo (peers : List String) :
    (onSubscribePresence tx pk peers requestId).Always (RepliesTo tx requestId) := by
  have hsub : (presence (Presence.subscribe pk peers)).Always (RepliesTo tx requestId) :=
    Prog.Always.lift (subscribe_always trivial (fun _ => trivial) (fun _ => trivial) trivial peers)
  have honline : (registry (Registry.onlineSet peers)).Always (RepliesTo tx requestId) :=
    Prog.Always.lift (onlineSet_always (fun _ => trivial) peers)
  refine hsub.bind fun _ => ?_
  refine (always_metric trivial).bind fun _ => ?_
  refine honline.bind fun online => ?_
  refine (always_reply rfl).bind fun _ => ?_
  exact repliesTo_of_silent (sendUpdates_silent online)

theorem onUnsubscribePresence_silent (peers : List String) :
    (onUnsubscribePresence pk peers).Always Silent := by
  have hunsub : (presence (Presence.unsubscribe pk peers)).Always Silent :=
    Prog.Always.lift (unsubscribe_always trivial (fun _ => trivial) (fun _ => trivial)
      (fun _ => trivial) trivial peers)
  exact hunsub.bind fun _ => always_metric trivial

theorem onLookupHandle_repliesTo (target : String) :
    (onLookupHandle hasDb tx target requestId).run.Always (RepliesTo tx requestId) := by
  have hrest : ∀ owner : Option String, (answerOwner hasDb tx target requestId owner).run.Always
      (RepliesTo tx requestId) := by
    intro owner
    cases owner with
    | none => exact always_lift (always_reply rfl)
    | some pk =>
      refine always_lift_bind (get_always pk trivial) fun peer => ?_
      refine always_lift_bind (resolvedKind_always hasDb _ trivial) fun kind => ?_
      exact always_lift (always_reply rfl)
  rw [onLookupHandle_bind]
  cases hasDb with
  | false =>
    refine always_lift_bind (Prog.Always.lift ?_) hrest
    exact (Prog.always_perform _).mpr trivial
  | true =>
    refine always_attempt_bind (Prog.Always.lift ?_) hrest
    exact ⟨trivial, fun _ => trivial⟩

theorem dispatch_repliesTo (msg : ClientMessage) :
    (dispatch crates hasDb tx pk msg).run.Always (RepliesTo tx msg.requestId) := by
  cases msg with
  | register =>
    refine always_lift ((get_always _ trivial).bind fun _ => ?_)
    exact (get_always _ trivial).bind fun _ => always_reply rfl
  | lookupPeer pubkey target timestamp signature requestId =>
    refine always_lift ((get_always _ trivial).bind fun peer => ?_)
    refine (resolvedKind_always hasDb _ trivial).bind fun kind => ?_
    cases peer with
    | some p => exact always_reply rfl
    | none => exact always_reply rfl
  | lookupHandle => exact onLookupHandle_repliesTo _
  | signal => exact repliesTo_of_silent (onSignal_silent _ _)
  | subscribePresence => exact always_lift (onSubscribePresence_repliesTo _)
  | unsubscribePresence =>
    exact always_lift (repliesTo_of_silent (onUnsubscribePresence_silent _))
  | requestRelay =>
    refine Prog.Always.except_bind (repliesTo_of_silent (request_silent _)) fun id => ?_
    refine always_lift_bind (always_metric trivial) fun _ => ?_
    exact always_lift (always_reply rfl)
  | acceptRelay => exact always_require_bind fun id _ => repliesTo_of_silent (accept_silent id)
  | relay =>
    refine always_require_bind fun id _ => ?_
    refine Prog.Always.except_bind (repliesTo_of_silent (forward_silent id _)) fun bytes => ?_
    exact always_lift (always_metric trivial)
  | teamAnnounce =>
    cases hasDb with
    | false => trivial
    | true =>
      refine always_require_bind fun parsed _ => ?_
      refine always_attempt_bind (Prog.Always.lift ((Teams.announce_always crates pk _ _ _ _).mono
        fun _ _ => trivial)) fun id => ?_
      refine always_lift_bind (always_metric trivial) fun _ => ?_
      exact always_lift (always_reply rfl)
  | teamLookup =>
    cases hasDb with
    | false => trivial
    | true =>
      refine always_require_bind fun id _ => ?_
      refine always_attempt_bind (Prog.Always.lift ⟨trivial, fun _ => trivial⟩) fun rows => ?_
      refine always_lift_bind (repliesTo_of_silent (onlineMembers_silent rows)) fun out => ?_
      exact always_lift (always_reply rfl)
  | ping => exact always_lift (always_send (Or.inl rfl))

end Handlers

/-! ## Registration and the loop -/

/-- The operation replies to the request that the broker reads in the text, and on this channel. -/
def RepliesToText (crates : Crates) (t : ℕ) (text : Option String) : Op → Prop
  | .send c msg => ∀ R, msg.requestId = some R → c = t ∧ ∃ s, text = some s ∧
    NamesRequest crates s R
  | _ => True

def handledText (c : Phase) : Option String := (Authentication.frameOf c).bind Prod.fst

section Sessions

variable {crates : Crates} {hasDb : Bool} {t : ℕ} {pk text : String} {now : UnixTime} {α : Type}

theorem repliesToText_of_silent {frame : Option String} {p : Work α} (hp : p.Always Silent) :
    p.Always (RepliesToText crates t frame) := by
  refine hp.mono fun o ho => ?_
  cases o with
  | send c msg =>
    intro R hR
    rw [show msg.requestId = none from ho] at hR
    cases hR
  | _ => trivial

theorem repliesToText_of_repliesTo {requestId : Option String} {p : Work α}
    (hp : p.Always (RepliesTo t requestId))
    (hnames : ∀ R, requestId = some R → NamesRequest crates text R) :
    p.Always (RepliesToText crates t (some text)) := by
  refine hp.mono fun o ho => ?_
  cases o with
  | send c msg =>
    intro R hR
    rcases ho with hnone | ⟨hc, hid⟩
    · rw [hnone] at hR
      cases hR
    · exact ⟨hc, text, rfl, hnames R (hid.symm.trans hR)⟩
  | _ => trivial

theorem pump_repliesToText :
    (pump crates hasDb t now pk text).Always (RepliesToText crates t (some text)) := by
  have herror : ∀ e, (send t (errorMsg e (parseRequestId crates text))).Always
      (RepliesToText crates t (some text)) :=
    fun e => repliesToText_of_repliesTo (always_reply rfl) fun R hR => Or.inl hR
  have hhandle : (handleClientMessage crates hasDb t now pk text).run.Always
      (RepliesToText crates t (some text)) := by
    refine always_require_bind fun msg hmsg => ?_
    have hauth := Authentication.authentic_of_authenticate hmsg
    exact repliesToText_of_repliesTo (dispatch_repliesTo msg)
      fun R hR => Or.inr ⟨msg, hauth.parsed, hR⟩
  refine hhandle.bind fun x => ?_
  cases x with
  | ok u => trivial
  | error e => exact (herror e).bind fun _ => trivial

theorem enter_repliesTo (addr : Registry.SocketAddr) (handle : Option String)
    (addresses : PeerAddresses) (kind : Option IdentityKind) (requestId : Option String) :
    (enter crates hasDb t addr pk handle addresses kind requestId).Always
      (RepliesTo t requestId) := by
  have hclaim : ∀ h, (query (Handles.claim crates pk h)).Always (RepliesTo t requestId) := fun h =>
    Prog.Always.lift ((Handles.claim_always crates pk h).mono fun _ _ => trivial)
  have hrecord : (recordPeer crates hasDb t pk handle (kind.getD .user) requestId).Always
      (RepliesTo t requestId) :=
    recordPeer_always crates hasDb t pk handle _ requestId trivial hclaim (fun _ => trivial)
      fun _ _ => Or.inr ⟨rfl, rfl⟩
  have hbroadcast : (broadcast pk true).Always (RepliesTo t requestId) :=
    broadcast_always pk true trivial (fun _ => trivial) fun _ => Or.inl rfl
  refine hrecord.bind fun claimed => ?_
  refine (insert_always _ (fun _ => trivial) trivial).bind fun _ => ?_
  refine (always_metric trivial).bind fun _ => ?_
  refine (always_metric trivial).bind fun _ => ?_
  refine (always_reply rfl).bind fun _ => ?_
  exact hbroadcast.bind fun _ => trivial

theorem authenticateRegister_error {m : ServerMessage}
    (h : authenticateRegister crates now text = .error (some m)) :
    ∀ R, m.requestId = some R → NamesRequest crates text R := by
  unfold authenticateRegister at h
  split at h
  · cases h
  · rename_i msg hdecode
    have hparsed := Authentication.decode_ok hdecode
    intro R hR
    split at h
    · split at h
      · cases h
        exact Or.inr ⟨_, hparsed, hR⟩
      · cases h
    · cases h
      exact Or.inr ⟨_, hparsed, hR⟩

theorem register_repliesToText (addr : Registry.SocketAddr) (frame : Option String) :
    (register crates hasDb t now addr frame).Always (RepliesToText crates t frame) := by
  have hreject : ∀ {m : ServerMessage}, (∀ R, m.requestId = some R →
      ∃ s, frame = some s ∧ NamesRequest crates s R) →
      (reject t (some m)).Always (RepliesToText crates t frame) := by
    intro m hm
    have hsend : RepliesToText crates t frame (.send t m) := fun R hR => ⟨rfl, hm R hR⟩
    exact (always_send hsend).bind fun _ => trivial
  cases frame with
  | none => exact hreject nofun
  | some text =>
    cases hauth : authenticateRegister crates now text with
    | ok msg =>
      obtain ⟨hdecode, -, pubkey, handle, addresses, kind, timestamp, signature, requestId, rfl⟩ :=
        authenticateRegister_ok crates hauth
      simp only [register, hauth]
      exact repliesToText_of_repliesTo (enter_repliesTo addr handle addresses kind requestId)
        fun R hR => Or.inr ⟨_, Authentication.decode_ok hdecode, hR⟩
    | error msg =>
      simp only [register, hauth]
      cases msg with
      | none => trivial
      | some m => exact hreject fun R hR => ⟨text, rfl, authenticateRegister_error hauth R hR⟩

theorem cleanup_silent : (cleanup pk).Always Silent := by
  refine (cleanup_always pk).mono fun o ho => ?_
  cases o with
  | send c msg =>
    rw [show msg = .presenceUpdate pk false from ho]
    exact rfl
  | _ => trivial

theorem start_repliesToText {c c' : Phase} {i : Input} {p : Work Outcome}
    (hs : start crates hasDb t c i = some (c', p)) :
    p.Always (RepliesToText crates t (handledText c')) := by
  cases start_cases hs with
  | connects addr => trivial
  | registers addr f now => exact register_repliesToText addr f.payload
  | handles pk text f now hf => exact pump_repliesToText
  | stays pk f now hf => trivial
  | closes pk f now hf => exact repliesToText_of_silent cleanup_silent

end Sessions

/-! ## Runs -/

section Runs

variable {crates : Crates} {hasDb : Bool} {db₀ : Db ℕ} {tr : List BrokerEvent} {σ : BrokerConfig}

theorem origins_msg (r : ℕ) (tr : List BrokerEvent) :
    (origins r tr).map Origin.msg = (enqueued r tr).map Prod.snd := by
  induction tr with
  | nil => rfl
  | cons e tr ih =>
    cases e with
    | input t i => exact ih
    | disturbed x => exact ih
    | performed t o a =>
      cases o with
      | send c msg =>
        simp only [origins, enqueued]
        split_ifs
        · simp only [List.map_cons, ih]
        · exact ih
      | _ => exact ih

/-- The channels hold what the trace says, in its order. -/
theorem sent_eq_origins (h : Run (broker crates hasDb) (fresh db₀) tr σ) (r : ℕ) :
    (σ.shared.channels r).sent = (origins r tr).map Origin.msg := by
  rw [sent_eq_enqueued h, origins_msg]

theorem running_input (h : Run (broker crates hasDb) (fresh db₀) tr σ) {t : ℕ} {c : Phase}
    {p : Work Outcome} (ht : σ.tasks t = .running c p) :
    ∃ i c₀ p₀, (taskLog t tr).head?.map Prod.fst = some i ∧
      start crates hasDb t c₀ i = some (c, p₀) := by
  have hlogged : Logged (broker crates hasDb) t .absent (taskLog t tr) (σ.tasks t) := h.logged rfl
  rw [ht] at hlogged
  obtain ⟨i, hist, older, c₀, p₀, hlog, -, hs, -⟩ := hlogged.running
  exact ⟨i, c₀, p₀, by rw [hlog]; rfl, hs⟩

/-- Whatever holds of every successful send, given the phase and the input of its sender, and goes on
to hold, holds of what is on the channels. -/
theorem origins_induct {P : List BrokerEvent → ℕ → Origin → Prop}
    (h : Run (broker crates hasDb) (fresh db₀) tr σ)
    (hsend : ∀ {tr σ t c ch msg k i}, Run (broker crates hasDb) (fresh db₀) tr σ →
      σ.tasks t = .running c (.call (.send ch msg) k) → (taskLog t tr).head?.map Prod.fst = some i →
      (∃ c₀ p₀, start crates hasDb t c₀ i = some (c, p₀)) → P tr ch ⟨t, msg, some i⟩)
    (hlast : ∀ {e tr r x}, P tr r x → P (e :: tr) r x)
    {r : ℕ} {x : Origin} (hx : x ∈ origins r tr) : P tr r x := by
  induction h with
  | start => cases hx
  | @step tr σ σ' e prior next ih =>
    apply hlast
    rcases next.cases with ⟨t, i, c, c', p, rfl, hw, hs, rfl⟩ |
      ⟨t, c, o, k, env, a, s', rfl, ht, hexec, rfl⟩ | ⟨y, s', rfl, hexec, rfl⟩
    · exact ih hx
    · cases o with
      | send ch msg =>
        simp only [origins] at hx
        split_ifs at hx with hch
        · rcases List.mem_cons.mp hx with rfl | hx
          · obtain ⟨i, c₀, p₀, hi, hs⟩ := running_input prior ht
            rw [hi, ← hch.1]
            exact hsend prior ht hi ⟨c₀, p₀, hs⟩
          · exact ih hx
        · exact ih hx
      | _ => exact ih hx
    · exact ih hx

theorem input_of_origin {r : ℕ} {x : Origin} {i : Input} (hx : x ∈ origins r tr)
    (hi : x.input = some i) : Event.input x.task i ∈ tr := by
  induction tr with
  | nil => cases hx
  | cons e tr ih =>
    cases e with
    | input t j => exact List.mem_cons_of_mem _ (ih hx)
    | disturbed y => exact List.mem_cons_of_mem _ (ih hx)
    | performed t o a =>
      cases o with
      | send c msg =>
        simp only [origins] at hx
        split_ifs at hx
        · rcases List.mem_cons.mp hx with rfl | hx
          · obtain ⟨entry, hhead, rfl⟩ := Option.map_eq_some_iff.mp hi
            have hmem := List.mem_map_of_mem (f := Prod.fst) (List.mem_of_mem_head? hhead)
            exact List.mem_cons_of_mem _ (mem_inputs_taskLog.mp hmem)
          · exact List.mem_cons_of_mem _ (ih hx)
        · exact List.mem_cons_of_mem _ (ih hx)
      | _ => exact List.mem_cons_of_mem _ (ih hx)

theorem no_input_of_absent (h : Run (broker crates hasDb) (fresh db₀) tr σ) {t : ℕ} {i : Input}
    (ht : σ.tasks t = .waiting .absent) : Event.input t i ∉ tr := by
  intro hmem
  have hlogged : Logged (broker crates hasDb) t .absent (taskLog t tr) (σ.tasks t) := h.logged rfl
  have hin := mem_inputs_taskLog.mpr hmem
  rw [ht] at hlogged
  cases hlog : taskLog t tr with
  | nil =>
    rw [hlog] at hin
    cases hin
  | cons entry older =>
    rw [hlog] at hlogged
    obtain ⟨c₁, c', p, a, -, hs, -, hfinish⟩ := hlogged.returned
    have hs' : start crates hasDb t c₁ entry.1 = some (c', p) := hs
    have hfinish' : Phase.absent = finish c' a := hfinish
    have habsent : c' = .absent := by
      cases c' <;> cases a <;> first | rfl | cases hfinish'
    subst habsent
    generalize entry.1 = i₁ at hs'
    cases start_cases hs'

/-- A message with a request id was enqueued by the channel's own task, and the id is the one of the
frame the task was answering. -/
theorem origin_of_reply (h : Run (broker crates hasDb) (fresh db₀) tr σ) {r : ℕ} {x : Origin}
    (hx : x ∈ origins r tr) {R : String} (hR : x.msg.requestId = some R) :
    x.task = r ∧ ∃ f now s, x.input = some (.frame f now) ∧ f.payload = some s ∧
      NamesRequest crates s R := by
  revert R
  refine origins_induct h (P := fun _ r x => ∀ {R}, x.msg.requestId = some R → x.task = r ∧
    ∃ f now s, x.input = some (.frame f now) ∧ f.payload = some s ∧ NamesRequest crates s R) ?_
    (fun hP => hP) hx
  intro tr σ t c ch msg k i hrun ht hi hstart R hR
  have halways := (hrun.always (Q := fun t c => RepliesToText crates t (handledText c))
    (fresh_idle db₀) (fun _ _ _ _ _ hs => start_repliesToText hs) ht).1
  obtain ⟨rfl, s, hs, hnames⟩ := halways R hR
  obtain ⟨⟨text, now⟩, hframe, htext⟩ := Option.bind_eq_some_iff.mp hs
  obtain rfl : text = some s := htext
  obtain ⟨c₀, p₀, hstart⟩ := hstart
  obtain ⟨f, rfl, hpayload⟩ := Authentication.start_frame hstart hframe
  exact ⟨rfl, f, now, s, rfl, hpayload, hnames⟩

end Runs

end HashedBroker.ReplyOrigins
