import HashedBroker.ArrivalOrder
import HashedBroker.ConnectedPeers
import HashedBroker.KeyLimits

/-!
# What one session delivers to another

A session delivers at most one message for each frame, also for the frame it is handling, and one
that the frame asks for, to the channel that the registry has given for the addressee's key. Whoever
is found under a key has registered under it with a signed frame.
-/
namespace HashedBroker.SessionDeliveries
open AtomicPrograms ReactiveTasks Protocol Server Sessions ArrivalOrder Deliveries KeyLimits

/-! ## What a frame asks for -/

/-- The message is what the frame of the session's key asks for, and it goes to the channel that the
registry has given for the addressee. `Given` are the answers that the task has had. -/
def Addresses (crates : Crates) (Given : (o : Op) → Res o → Prop) (pk : String) (r : ℕ)
    (m : ServerMessage) : ClientMessage → Prop
  | .signal _ recipient payload _ _ _ => (∃ stamp, m = .signal pk payload stamp) ∧
    ∃ peer, Given (.registry (.getPeer recipient)) (some peer) ∧ peer.tx = r
  | .relay _ sessionId data _ _ => ∃ id s other peer,
    Relay.parseSessionId crates sessionId = .ok id ∧
      m = .relayData (crates.uuidText id) pk data ∧
      Given (.relay (.getSession id)) (some s) ∧ s.other pk = .ok other ∧
      Given (.registry (.getPeer other)) (some peer) ∧ peer.tx = r
  | _ => False

def Among (hist : Prog.History Op Res) (o : Op) (a : Res o) : Prop := ⟨o, a⟩ ∈ hist

def Had (t : ℕ) (tr : List BrokerEvent) (o : Op) (a : Res o) : Prop := Event.performed t o a ∈ tr

/-- The message is one the session's frame asks for. -/
def AsksFor (crates : Crates) (Given : (o : Op) → Res o → Prop) (r : ℕ) (m : ServerMessage)
    (text : String) : Prop :=
  ∃ pk now msg, authenticate crates now pk text = .ok msg ∧ Addresses crates Given pk r m msg

/-- A message is delivered for the first time, and as the frame asks for it. -/
def DeliveredFirst (crates : Crates) (c : Phase) (hist : Prog.History Op Res) (o : Op) : Prop :=
  ∀ r m, o = .send r m → isDelivery m = true → Unsent hist ∧ ∃ pk text now msg,
    c = .handling pk text now ∧ authenticate crates now pk text = .ok msg ∧
      Addresses crates (Among hist) pk r m msg

/-- Nothing, or one message that the frame asks for. -/
def DeliversOne (crates : Crates) (c : Phase) (r : ℕ) (hist : Prog.History Op Res) : Prop :=
  deliveries r hist = [] ∨ ∃ m pk text now msg, deliveries r hist = [m] ∧
    c = .handling pk text now ∧ authenticate crates now pk text = .ok msg ∧
    Addresses crates (Among hist) pk r m msg

/-- The program, started after the answers, delivers as the frame asks for it. -/
abbrev Keeps {α : Type} (crates : Crates) (c : Phase) (p : Work α)
    (post : Prog.History Op Res → α → Prop) (hist : Prog.History Op Res) : Prop :=
  p.Follows Prog.record (DeliveredFirst crates c) post hist

section Handlers

variable {crates : Crates} {hasDb : Bool} {t : ℕ} {c : Phase} {pk text : String} {now : UnixTime}
  {α β : Type} {hist : Prog.History Op Res} {o : Op}

theorem Addresses.mono {Given Given' : (o : Op) → Res o → Prop} {r : ℕ} {m : ServerMessage}
    {msg : ClientMessage} (h : Addresses crates Given pk r m msg)
    (hsub : ∀ o a, Given o a → Given' o a) : Addresses crates Given' pk r m msg := by
  cases msg with
  | signal sender recipient payload timestamp signature requestId =>
    obtain ⟨hm, peer, hpeer, htx⟩ := h
    exact ⟨hm, peer, hsub _ _ hpeer, htx⟩
  | relay sender sessionId data timestamp signature =>
    obtain ⟨id, s, other, peer, hid, hm, hs, hother, hpeer, htx⟩ := h
    exact ⟨id, s, other, peer, hid, hm, hsub _ _ hs, hother, hsub _ _ hpeer, htx⟩
  | _ => exact h

theorem deliveredFirst_of_noSend (ho : NoSend o) : DeliveredFirst crates c hist o :=
  fun r m heq => absurd heq (ho r m)

theorem keeps_of_noSend {p : Work α} (hp : p.Always NoSend) (hu : Unsent hist) :
    Keeps crates c p (fun l _ => Unsent l) hist := by
  induction p generalizing hist with
  | done a => exact hu
  | call o k ih => exact ⟨deliveredFirst_of_noSend hp.1, fun a => ih a (hp.2 a) (hu.cons hp.1)⟩

theorem deliveredFirst_send {msg : ClientMessage} {r : ℕ} {m : ServerMessage}
    (hauth : authenticate crates now pk text = .ok msg) (hu : Unsent hist)
    (hm : Addresses crates (Among hist) pk r m msg) :
    DeliveredFirst crates (.handling pk text now) hist (.send r m) := by
  intro r' m' heq _
  cases heq
  exact ⟨hu, pk, text, now, msg, rfl, hauth, hm⟩

theorem relaySignal_keeps {sender recipient payload signature : String} {timestamp : Int64}
    {requestId : Option String} (hauth : authenticate crates now pk text =
      .ok (.signal sender recipient payload timestamp signature requestId)) :
    Keeps crates (.handling pk text now) (relaySignal crates pk recipient payload).run
      (fun _ _ => True) [] := by
  have hcheck : (signaling (Signaling.check pk)).Always NoSend :=
    Prog.Always.lift (check_always (by simp [NoSend]) (by simp [NoSend]) (by simp [NoSend]))
  refine follows_attempt_bind ((keeps_of_noSend hcheck unsent_nil).mono fun l x hl => ?_)
  cases x with
  | error e => trivial
  | ok _ =>
    refine follows_require_bind (fun _ _ => trivial) fun len _ => ?_
    refine follows_require_bind (fun _ _ => trivial) fun _ _ => ?_
    refine follows_lift_bind ⟨deliveredFirst_of_noSend (by simp [NoSend]), fun found => ?_⟩
    refine follows_orElse_bind (fun _ => trivial) fun peer hpeer => ?_
    refine follows_lift_bind ⟨deliveredFirst_of_noSend (by simp [NoSend]), fun stamp => ?_⟩
    subst hpeer
    have hl₂ := (hl.cons (o := .registry (.getPeer recipient)) (a := some peer) (by simp)).cons
      (o := .clock) (a := stamp) (by simp)
    refine ⟨deliveredFirst_send hauth hl₂ ?_, fun sent => by cases sent <;> trivial⟩
    exact ⟨⟨stamp, rfl⟩, peer, List.mem_cons_of_mem _ List.mem_cons_self, rfl⟩

theorem forward_keeps {sender sessionId data signature : String} {timestamp : Int64} {id : Uuid}
    (hauth : authenticate crates now pk text =
      .ok (.relay sender sessionId data timestamp signature))
    (hid : Relay.parseSessionId crates sessionId = .ok id) :
    Keeps crates (.handling pk text now) (forward crates pk id data).run (fun _ _ => True) [] := by
  refine follows_lift_bind ⟨deliveredFirst_of_noSend (by simp [NoSend]), fun entry => ?_⟩
  refine follows_orElse_bind (fun _ => trivial) fun session hentry => ?_
  refine follows_require_bind (fun _ _ => trivial) fun other hother => ?_
  refine follows_require_bind (fun _ _ => trivial) fun len _ => ?_
  refine follows_require_bind (fun _ _ => trivial) fun _ _ => ?_
  subst hentry
  have hl₁ := unsent_nil.cons (o := .relay (.getSession id)) (a := some session) (by simp)
  refine follows_attempt_bind ⟨deliveredFirst_of_noSend (by simp [NoSend]), fun _ =>
    ⟨deliveredFirst_of_noSend (by simp [NoSend]), fun consumed => ?_⟩⟩
  cases consumed with
  | error e => trivial
  | ok _ =>
    refine follows_lift_bind ⟨deliveredFirst_of_noSend (by simp [NoSend]), fun found => ?_⟩
    refine follows_orElse_bind (fun _ => trivial) fun peer hpeer => ?_
    subst hpeer
    refine follows_trySend_bind (deliveredFirst_send hauth ?_ ?_) trivial trivial
    · exact ((hl₁.cons (by simp)).cons (by simp)).cons (by simp)
    · exact ⟨id, session, other, peer, hid, rfl, by simp [Among, Prog.record], hother,
        List.mem_cons_self, rfl⟩

theorem dispatch_first {msg : ClientMessage}
    (hauth : authenticate crates now pk text = .ok msg) :
    (dispatch crates hasDb t pk msg).run.Justified
      (DeliveredFirst crates (.handling pk text now)) [] := by
  by_cases hapart : msg.tag ≠ "signal" ∧ msg.tag ≠ "relay"
  · refine (dispatch_always crates hasDb t pk msg).justified fun hist o ho r m heq hm => ?_
    subst heq
    rw [isDelivery_of_tag hapart.1 hapart.2 ho] at hm
    cases hm
  · rw [Prog.justified_iff_follows]
    cases msg with
    | signal sender recipient payload timestamp signature requestId =>
      refine (relaySignal_keeps hauth).bind fun l x _ => ?_
      cases x with
      | ok u => exact ⟨deliveredFirst_of_noSend (by simp [NoSend]), fun _ => trivial⟩
      | error e => exact ⟨deliveredFirst_of_noSend (by simp [NoSend]), fun _ => trivial⟩
    | relay sender sessionId data timestamp signature =>
      refine follows_require_bind (fun _ _ => trivial) fun id hid => ?_
      refine follows_bind ((forward_keeps hauth hid).mono fun l x _ => ?_)
      cases x with
      | ok bytes => exact ⟨deliveredFirst_of_noSend (by simp [NoSend]), fun _ => trivial⟩
      | error e => trivial
    | _ => exact absurd (by simp [ClientMessage.tag]) hapart

theorem start_first {c' : Phase} {i : Input} {p : Work Outcome}
    (hs : start crates hasDb t c i = some (c', p)) : p.Justified (DeliveredFirst crates c') [] := by
  refine start_justified (fun _ _ _ _ => dispatch_first) ?_ ?_ hs
  · intro c hist o hc ho r m heq hm
    subst heq
    rw [undelivered_of_permitted hc ho] at hm
    cases hm
  · intro c hist e requestId r m heq hm
    cases heq
    cases hm

/-- The answers of an input deliver one message at most, and one that its frame asks for. -/
theorem delivered_once {c' : Phase} {i : Input} {p q : Work Outcome}
    (hs : start crates hasDb t c i = some (c', p)) (ha : Prog.After p hist q) (r : ℕ) :
    DeliversOne crates c' r hist := by
  have hkept := ((Prog.justified_iff_follows).mp (start_first hs)).reached ha
    (P := DeliversOne crates c' r) (Or.inl rfl) ?_
  · rw [Prog.reached_record] at hkept
    exact hkept
  · intro l o a hl hfirst
    have hsame : deliveries r (⟨o, a⟩ :: l) = deliveries r l →
        DeliversOne crates c' r (⟨o, a⟩ :: l) := by
      intro heq
      rcases hl with hnone | ⟨m, pk, text, now, msg, hone, hc, hauth, hm⟩
      · exact Or.inl (heq.trans hnone)
      · exact Or.inr ⟨m, pk, text, now, msg, heq.trans hone, hc, hauth,
          hm.mono fun _ _ hmem => List.mem_cons_of_mem _ hmem⟩
    cases o with
    | send ch m =>
      by_cases hd : ch = r ∧ a = true ∧ isDelivery m = true
      · obtain ⟨rfl, rfl, hm⟩ := hd
        obtain ⟨hu, pk, text, now, msg, hc, hauth, haddress⟩ := hfirst ch m rfl hm
        refine Or.inr ⟨m, pk, text, now, msg, ?_, hc, hauth,
          haddress.mono fun _ _ hmem => List.mem_cons_of_mem _ hmem⟩
        rw [Prog.record, deliveries, if_pos ⟨rfl, rfl, hm⟩, hu.deliveries]
      · exact hsame (by rw [deliveries, if_neg hd])
    | _ => exact hsame rfl

end Handlers

/-! ## The frames of a session -/

def frameText : Input × Prog.History Op Res → Option String
  | (.frame (.text s) _, _) => some s
  | _ => none

def texts (t : ℕ) (tr : List BrokerEvent) : List String := (taskLog t tr).filterMap frameText

section Sessions

variable {crates : Crates} {hasDb : Bool} {db₀ : Database.Db ℕ} {tr : List BrokerEvent}
  {σ : BrokerConfig} {t r : ℕ} {pk : String}

theorem texts_input (t u : ℕ) (i : Input) (tr : List BrokerEvent) : texts t (.input u i :: tr) =
    if u = t then (frameText (i, [])).toList ++ texts t tr else texts t tr := by
  simp only [texts, taskLog]
  split_ifs
  · rw [List.filterMap_cons]
    cases frameText (i, []) <;> rfl
  · rfl

theorem filterMap_logAnswer (o : Op) (a : Res o) (log : List (Input × Prog.History Op Res)) :
    (logAnswer o a log).filterMap frameText = log.filterMap frameText := by
  cases log with
  | nil => rfl
  | cons x log =>
    obtain ⟨i, hist⟩ := x
    cases i with
    | connect addr => rfl
    | frame f now => cases f <;> rfl

theorem texts_performed (t u : ℕ) (o : Op) (a : Res o) (tr : List BrokerEvent) :
    texts t (.performed u o a :: tr) = texts t tr := by
  simp only [texts, taskLog]
  split_ifs
  · exact filterMap_logAnswer o a _
  · rfl

theorem deliversOne_of_entry (h : Run (broker crates hasDb) (fresh db₀) tr σ) {i : Input}
    {hist : Prog.History Op Res} (hmem : (i, hist) ∈ taskLog t tr) (r : ℕ) :
    ∃ c c' p, start crates hasDb t c i = some (c', p) ∧ DeliversOne crates c' r hist := by
  have hlog : Logged (broker crates hasDb) t .absent (taskLog t tr) (σ.tasks t) := h.logged rfl
  obtain ⟨c, c', p, q, hs, ha⟩ := hlog.started hmem
  exact ⟨c, c', p, hs, delivered_once hs ha r⟩

/-- A session that is only given text delivers what its frames ask for, in their order. -/
theorem delivered_as_asked (h : Run (broker crates hasDb) (fresh db₀) tr σ) (t r : ℕ)
    (htext : ∀ f now s, Event.input t (.frame f now) ∈ tr → f.payload = some s → f = .text s) :
    List.SublistForall₂ (AsksFor crates (Had t tr) r) (deliveredBy t r tr) (texts t tr) := by
  rw [deliveredBy_eq_flatMap h]
  refine sublistForall₂_flatMap ?_
  rintro ⟨i, hist⟩ hmem
  obtain ⟨c, c', p, hs, hnone | ⟨m, pk, text, now, msg, hone, rfl, hauth, hm⟩⟩ :=
    deliversOne_of_entry h hmem r
  · exact Or.inl hnone
  · obtain ⟨f, rfl, hpayload⟩ := Authentication.start_frame hs rfl
    have hin := mem_inputs_taskLog.mp (List.mem_map_of_mem hmem)
    obtain rfl := htext f now text hin hpayload
    refine Or.inr ⟨m, text, hone, rfl, pk, now, msg, hauth, hm.mono fun o a hans => ?_⟩
    exact performed_of_taskLog hmem hans

theorem registersAs_of_found (h : Run (broker crates hasDb) (fresh db₀) tr σ)
    {peer : Registry.PeerHandle} (hfound : Had t tr (.registry (.getPeer pk)) (some peer)) :
    RegistersAs crates tr peer.tx pk := by
  obtain ⟨tr₂, tr₁, rfl⟩ := List.append_of_mem hfound
  obtain ⟨σ₁, c, k, env, s', h₁, ht, hx⟩ := performed_split h
  have hlookup : σ₁.shared.registry.byPubkey.lookup pk = some peer :=
    congrArg Prod.fst (Option.some.inj hx)
  obtain ⟨hpk, hlive⟩ := ConnectedPeers.entry_owned h₁ hlookup
  obtain ⟨peer', a, hpk', hinserted⟩ := RegistryLiveness.inserted_of_live hlive
  have hregisters := (registersAs_of_performed h₁ hinserted (s := pk) (congrArg some hpk')
    (by simp)).append (tr₂ ++ [.performed t (.registry (.getPeer pk)) (some peer)])
  simpa using hregisters

end Sessions

end HashedBroker.SessionDeliveries
