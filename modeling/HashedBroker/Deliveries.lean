import HashedBroker.RegistryLiveness
import HashedBroker.TaskLogs

/-!
# Delivery of signals and relayed data

A signal and a relay frame whose handling succeeds put one message on one channel, that of the peer
they resolve to, and a frame whose handling fails puts none there. What a session puts on a channel
is therefore read off its frames in their order, whatever the other sessions do in between.
-/
namespace HashedBroker.Deliveries
open AtomicPrograms ReactiveTasks Protocol Database Server Sessions

/-- The messages that carry what a peer sends to another. -/
def isDelivery : ServerMessage → Bool
  | .signal .. => true
  | .relayData .. => true
  | _ => false

/-- Who has enqueued what on a channel, the newest first. -/
def enqueued (r : ℕ) : List BrokerEvent → List (ℕ × ServerMessage)
  | [] => []
  | .performed t (.send c msg) sent :: tr =>
    if c = r ∧ sent = true then (t, msg) :: enqueued r tr else enqueued r tr
  | _ :: tr => enqueued r tr

/-- What a session has delivered on a channel, the newest first. -/
def deliveredBy (t r : ℕ) (tr : List BrokerEvent) : List ServerMessage :=
  ((enqueued r tr).filter fun x => x.1 = t ∧ isDelivery x.2).map Prod.snd

/-- What the answers of one frame's handling say was delivered on a channel, the newest first. -/
def deliveries (r : ℕ) : Prog.History Op Res → List ServerMessage
  | [] => []
  | ⟨.send c msg, sent⟩ :: h =>
    if c = r ∧ sent = true ∧ isDelivery msg then msg :: deliveries r h else deliveries r h
  | _ :: h => deliveries r h

def Unsent (h : Prog.History Op Res) : Prop :=
  ∀ c msg, (⟨.send c msg, true⟩ : Σ o : Op, Res o) ∉ h

/-! ## Answers and channels -/

section Answers

variable {r : ℕ} {h : Prog.History Op Res}

theorem deliveries_eq_nil (hno : ∀ c msg, (⟨.send c msg, true⟩ : Σ o : Op, Res o) ∈ h →
    isDelivery msg = false) : deliveries r h = [] := by
  induction h with
  | nil => rfl
  | cons x h ih =>
    have htail := ih fun c msg hmem => hno c msg (List.mem_cons_of_mem x hmem)
    obtain ⟨o, a⟩ := x
    cases o with
    | send c msg =>
      simp only [deliveries]
      split_ifs with hc
      · obtain ⟨-, rfl, hd⟩ := hc
        rw [hno c msg List.mem_cons_self] at hd
        cases hd
      · exact htail
    | _ => exact htail

theorem Unsent.deliveries (hu : Unsent h) : deliveries r h = [] :=
  deliveries_eq_nil fun c msg hmem => absurd hmem (hu c msg)

theorem Unsent.cons {o : Op} {a : Res o} (hu : Unsent h) (ho : ∀ c msg, o ≠ .send c msg) :
    Unsent (⟨o, a⟩ :: h) := by
  intro c msg hmem
  rcases List.mem_cons.mp hmem with heq | hmem
  · cases heq
    exact ho c msg rfl
  · exact hu c msg hmem

theorem Unsent.cons_unsent {c : ℕ} {msg : ServerMessage} (hu : Unsent h) :
    Unsent (⟨.send c msg, false⟩ :: h) := by
  intro c' msg' hmem
  rcases List.mem_cons.mp hmem with heq | hmem
  · cases heq
  · exact hu c' msg' hmem

end Answers

section Runs

variable {crates : Crates} {hasDb : Bool} {db₀ : Db ℕ} {tr : List BrokerEvent} {σ : BrokerConfig}

theorem enqueued_performed (r t : ℕ) (o : Op) (a : Res o) (tr : List BrokerEvent)
    (ho : ∀ c msg, o ≠ .send c msg) : enqueued r (.performed t o a :: tr) = enqueued r tr := by
  cases o with
  | send c msg => exact absurd rfl (ho c msg)
  | _ => rfl

theorem sent_eq_enqueued (h : Run (broker crates hasDb) (fresh db₀) tr σ) (r : ℕ) :
    (σ.shared.channels r).sent = (enqueued r tr).map Prod.snd := by
  induction h with
  | start => rfl
  | @step tr σ σ' e prior next ih =>
    rcases next.cases with ⟨t, i, c, c', p, rfl, hw, hs, rfl⟩ |
      ⟨t, c, o, k, env, a, s', rfl, ht, hx, rfl⟩ | ⟨x, s', rfl, hx, rfl⟩
    · exact ih
    · have hx' : Broker.exec crates t o env σ.shared = some (a, s') := hx
      cases o with
      | send ch msg =>
        simp only [enqueued]
        rcases Broker.sent_of_send hx' with ⟨-, rfl, hsame⟩ | ⟨-, rfl, hsent, hsame⟩
        · rw [hsame]
          simpa using ih
        · by_cases hc : r = ch
          · subst hc
            rw [hsent]
            simpa using ih
          · rw [hsame r hc]
            simpa [Ne.symm hc] using ih
      | _ =>
        have hframe := (Broker.exec_frame hx').channels (by simp)
        rw [enqueued_performed _ _ _ _ _ (by simp)]
        simpa [hframe] using ih
    · rw [Broker.writerStep_sent hx]
      exact ih

/-- What a session has delivered is what its frames' handlings say, in the order of the frames. -/
theorem deliveredBy_eq_flatMap (h : Run (broker crates hasDb) (fresh db₀) tr σ) (t r : ℕ) :
    deliveredBy t r tr = (taskLog t tr).flatMap fun x => deliveries r x.2 := by
  induction h with
  | start => rfl
  | @step tr σ σ' e prior next ih =>
    rcases next.cases with ⟨u, i, c, c', p, rfl, hw, hs, rfl⟩ |
      ⟨u, c, o, k, env, a, s', rfl, hu, hx, rfl⟩ | ⟨x, s', rfl, hx, rfl⟩
    · have hsame : deliveredBy t r (.input u i :: tr) = deliveredBy t r tr := rfl
      rw [hsame, ih, taskLog]
      split_ifs
      · rfl
      · rfl
    · by_cases hut : u = t
      · subst hut
        have hlogged : Logged (broker crates hasDb) u .absent (taskLog u tr) (σ.tasks u) :=
          prior.logged rfl
        rw [hu] at hlogged
        obtain ⟨i, hist, older, c₁, p, hlog, -⟩ := hlogged.running
        rw [hlog, List.flatMap_cons] at ih
        simp only [taskLog, if_true, hlog, logAnswer, List.flatMap_cons]
        cases o with
        | send ch msg =>
          simp only [deliveredBy, enqueued, deliveries] at ih ⊢
          by_cases hch : ch = r ∧ a = true
          · by_cases hd : isDelivery msg = true
            · simpa [hch, hd] using ih
            · simpa [hch, hd] using ih
          · rw [if_neg hch, if_neg fun hc => hch ⟨hc.1, hc.2.1⟩]
            exact ih
        | _ => exact ih
      · have hlog : taskLog t (.performed u o a :: tr) = taskLog t tr := by
          simp only [taskLog, if_neg hut]
        rw [hlog, ← ih]
        cases o with
        | send ch msg =>
          simp only [deliveredBy, enqueued]
          split_ifs
          · simp [hut]
          · rfl
        | _ => rfl
    · exact ih

end Runs

/-! ## The handlings that deliver -/

def NoSend (o : Op) : Prop := ∀ c msg, o ≠ .send c msg

/-- The peer that the registry gave for the target got this message, and nobody got another. -/
structure Forwarded (target : String) (msg : ServerMessage) (peer : Registry.PeerHandle)
    (h : Prog.History Op Res) : Prop where
  resolved : (⟨.registry (.getPeer target), some peer⟩ : Σ o : Op, Res o) ∈ h
  delivered : ∀ r, deliveries r h = if r = peer.tx then [msg] else []

def DecodesWithin (crates : Crates) (max : ℕ) (data : String) : Prop :=
  ∃ bytes, crates.base64Decode data = .ok bytes ∧ bytes.length ≤ max

/-- The program, started after the answers `l`, returns with answers and a value of `post`. -/
abbrev Leaves {α : Type} (p : Work α) (post : Prog.History Op Res → α → Prop)
    (l : Prog.History Op Res) : Prop :=
  p.Follows Prog.record (fun _ _ => True) post l

section Handlings

variable {crates : Crates} {hasDb : Bool} {t : ℕ} {pk : String} {α β : Type}
  {l : Prog.History Op Res}

theorem Forwarded.cons {target : String} {msg : ServerMessage} {peer : Registry.PeerHandle}
    {o : Op} {a : Res o} (h : Forwarded target msg peer l) (ho : NoSend o) :
    Forwarded target msg peer (⟨o, a⟩ :: l) := by
  refine ⟨List.mem_cons_of_mem _ h.resolved, fun r => ?_⟩
  rw [← h.delivered r]
  cases o with
  | send c msg => exact absurd rfl (ho c msg)
  | _ => rfl

theorem leaves_of_noSend {p : Work α} (hp : p.Always NoSend) (hl : Unsent l) :
    Leaves p (fun l' _ => Unsent l') l := by
  induction p generalizing l with
  | done a => exact hl
  | call o k ih => exact ⟨trivial, fun a => ih a (hp.2 a) (hl.cons hp.1)⟩

theorem leaves_perform_bind {o : Op} {f : Res o → Handler β}
    {post : Prog.History Op Res → Except BrokerError β → Prop}
    (hf : ∀ a, Leaves (f a).run post (⟨o, a⟩ :: l)) :
    Leaves (ExceptT.lift (perform o) >>= f).run post l := by
  rw [run_lift_bind, perform_bind]
  exact ⟨trivial, hf⟩

theorem leaves_require_bind {x : Except BrokerError α} {f : α → Handler β}
    {post : Prog.History Op Res → Except BrokerError β → Prop} (he : ∀ e, post l (.error e))
    (hf : ∀ a, x = .ok a → Leaves (f a).run post l) : Leaves (require x >>= f).run post l := by
  rw [run_require_bind]
  cases x with
  | ok a => exact hf a rfl
  | error e => exact he e

theorem leaves_orElse_bind {x : Option α} {e : BrokerError} {f : α → Handler β}
    {post : Prog.History Op Res → Except BrokerError β → Prop} (he : post l (.error e))
    (hf : ∀ a, x = some a → Leaves (f a).run post l) : Leaves (orElse x e >>= f).run post l := by
  rw [run_orElse_bind]
  cases x with
  | some a => exact hf a rfl
  | none => exact he

theorem leaves_attempt_bind {p : Work (Except BrokerError α)} {f : α → Handler β}
    {post : Prog.History Op Res → Except BrokerError β → Prop} (hp : p.Always NoSend)
    (hl : Unsent l) (he : ∀ l e, Unsent l → post l (.error e))
    (hf : ∀ l a, Unsent l → Leaves (f a).run post l) : Leaves (attempt p >>= f).run post l := by
  rw [run_attempt_bind]
  refine (leaves_of_noSend hp hl).bind fun l x hl => ?_
  cases x with
  | ok a => exact hf l a hl
  | error e => exact he l e hl

theorem decodedLen_ok {label data : String} {len max : ℕ}
    (h : decodedLen crates label data = .ok len) (hsize : checkSize len max = .ok ()) :
    DecodesWithin crates max data := by
  unfold decodedLen at h
  split at h
  · rename_i bytes hbytes
    cases h
    refine ⟨bytes, hbytes, ?_⟩
    simp only [checkSize] at hsize
    split_ifs at hsize with hlt
    omega
  · cases h

/-- The end of both handlings: the message is put on the peer's channel, or that is closed. -/
theorem leaves_trySend {c : ℕ} {msg : ServerMessage} (hl : Unsent l) :
    Leaves (trySend c msg).run (fun l' x =>
      match x with
      | .ok _ => l' = ⟨.send c msg, true⟩ :: l
      | .error _ => Unsent l') l := by
  refine ⟨trivial, fun sent => ?_⟩
  cases sent with
  | true => exact rfl
  | false => exact hl.cons_unsent

theorem leaves_trySend_bind {c : ℕ} {msg : ServerMessage} {f : Unit → Handler β}
    {post : Prog.History Op Res → Except BrokerError β → Prop}
    (he : post (⟨.send c msg, false⟩ :: l) (.error .peerOffline))
    (hf : Leaves (f ()).run post (⟨.send c msg, true⟩ :: l)) :
    Leaves (trySend c msg >>= f).run post l := by
  rw [trySend, run_attempt_bind]
  refine ⟨trivial, fun sent => ?_⟩
  cases sent with
  | true => exact hf
  | false => exact he

theorem forwarded_of_sent {target : String} {msg : ServerMessage} {peer : Registry.PeerHandle}
    (hmsg : isDelivery msg = true) (hl : Unsent l)
    (hpeer : (⟨.registry (.getPeer target), some peer⟩ : Σ o : Op, Res o) ∈ l) :
    Forwarded target msg peer (⟨.send peer.tx msg, true⟩ :: l) := by
  refine ⟨List.mem_cons_of_mem _ hpeer, fun r => ?_⟩
  simp only [deliveries, hmsg, hl.deliveries, and_true, eq_comm]

theorem relaySignal_leaves (recipient payload : String) (hl : Unsent l) :
    Leaves (relaySignal crates pk recipient payload).run (fun l' x =>
      match x with
      | .ok _ => DecodesWithin crates signalingMaxPayload payload ∧
        ∃ peer stamp, Forwarded recipient (.signal pk payload stamp) peer l'
      | .error _ => Unsent l') l := by
  have hcheck : (signaling (Signaling.check pk)).Always NoSend :=
    Prog.Always.lift (check_always (by simp [NoSend]) (by simp [NoSend]) (by simp [NoSend]))
  refine leaves_attempt_bind hcheck hl (fun _ _ hl => hl) fun l _ hl => ?_
  refine leaves_require_bind (fun _ => hl) fun len hlen => ?_
  refine leaves_require_bind (fun _ => hl) fun _ hsize => ?_
  refine leaves_perform_bind (o := .registry (.getPeer recipient)) fun found => ?_
  have hl₁ : Unsent (⟨.registry (.getPeer recipient), found⟩ :: l) := hl.cons (by simp)
  refine leaves_orElse_bind hl₁ fun peer hpeer => ?_
  refine leaves_perform_bind fun stamp => ?_
  have hl₂ : Unsent (⟨.clock, stamp⟩ :: ⟨.registry (.getPeer recipient), found⟩ :: l) :=
    hl₁.cons (by simp)
  subst hpeer
  have hmem := List.mem_cons_of_mem (⟨.clock, stamp⟩ : Σ o : Op, Res o)
    (List.mem_cons_self (a := ⟨.registry (.getPeer recipient), some peer⟩) (l := l))
  refine (leaves_trySend hl₂).mono fun l' x hx => ?_
  cases x with
  | ok u =>
    obtain rfl : l' = _ := hx
    exact ⟨decodedLen_ok hlen hsize, peer, stamp, forwarded_of_sent rfl hl₂ hmem⟩
  | error e => exact hx

theorem onSignal_leaves (recipient payload : String) (hl : Unsent l) :
    Leaves (onSignal crates pk recipient payload).run (fun l' x =>
      match x with
      | .ok _ => DecodesWithin crates signalingMaxPayload payload ∧
        ∃ peer stamp, Forwarded recipient (.signal pk payload stamp) peer l'
      | .error _ => Unsent l') l := by
  refine (relaySignal_leaves recipient payload hl).bind fun l x hx => ?_
  cases x with
  | ok u =>
    obtain ⟨hvalid, peer, stamp, hf⟩ := hx
    exact ⟨trivial, fun _ => ⟨hvalid, peer, stamp, hf.cons (by simp [NoSend])⟩⟩
  | error e => exact ⟨trivial, fun _ => hx.cons (by simp)⟩

/-- The data of a sender go to the other party of an active session. -/
def RelayedBy (crates : Crates) (pk : String) (id : Uuid) (data : String)
    (h : Prog.History Op Res) : Prop :=
  DecodesWithin crates relayMaxFrame data ∧ ∃ session other peer,
    (⟨.relay (.getSession id), some session⟩ : Σ o : Op, Res o) ∈ h ∧
      session.other pk = .ok other ∧
      Forwarded other (.relayData (crates.uuidText id) pk data) peer h

theorem forward_leaves (id : Uuid) (data : String) (hl : Unsent l) :
    Leaves (forward crates pk id data).run (fun l' x =>
      match x with
      | .ok _ => RelayedBy crates pk id data l'
      | .error _ => Unsent l') l := by
  refine leaves_perform_bind fun entry => ?_
  have hl₁ : Unsent (⟨.relay (.getSession id), entry⟩ :: l) := hl.cons (by simp)
  refine leaves_orElse_bind hl₁ fun session hentry => ?_
  refine leaves_require_bind (fun _ => hl₁) fun other hother => ?_
  refine leaves_require_bind (fun _ => hl₁) fun len hlen => ?_
  refine leaves_require_bind (fun _ => hl₁) fun _ hsize => ?_
  rw [run_attempt_bind]
  refine ⟨trivial, fun _ => ⟨trivial, fun consumed => ?_⟩⟩
  have hl₂ : Unsent (⟨.relay (.consume pk len), consumed⟩ :: ⟨.relay (.quotaEntry pk), ()⟩ ::
      ⟨.relay (.getSession id), entry⟩ :: l) := (hl₁.cons (by simp)).cons (by simp)
  cases consumed with
  | error e => exact hl₂
  | ok u =>
    refine leaves_perform_bind (o := .registry (.getPeer other)) fun found => ?_
    have hl₃ := hl₂.cons (o := .registry (.getPeer other)) (a := found) (by simp)
    refine leaves_orElse_bind hl₃ fun peer hpeer => ?_
    subst hentry hpeer
    refine (leaves_trySend hl₃).bind fun l' x hx => ?_
    cases x with
    | ok u =>
      obtain rfl : l' = _ := hx
      refine ⟨decodedLen_ok hlen hsize, session, other, peer, ?_, hother, ?_⟩
      · simp
      · exact forwarded_of_sent rfl hl₃ List.mem_cons_self
    | error e => exact hx

theorem onRelay_leaves (sessionId data : String) (hl : Unsent l) :
    Leaves (onRelay crates pk sessionId data).run (fun l' x =>
      match x with
      | .ok _ => ∃ id, Relay.parseSessionId crates sessionId = .ok id ∧
        RelayedBy crates pk id data l'
      | .error _ => Unsent l') l := by
  refine leaves_require_bind (fun _ => hl) fun id hid => ?_
  refine (forward_leaves id data hl).bind fun l' x hx => ?_
  cases x with
  | ok len =>
    obtain ⟨hvalid, session, other, peer, hsession, hother, hf⟩ := hx
    refine ⟨trivial, fun _ => ⟨id, hid, hvalid, session, other, peer, ?_, hother, ?_⟩⟩
    · exact List.mem_cons_of_mem _ hsession
    · exact hf.cons (by simp [NoSend])
  | error e => exact hx

end Handlings

/-! ## Every frame of a session -/

abbrev Returned (crates : Crates) (hasDb : Bool) (t : ℕ) (now : UnixTime) (pk text : String)
    (h : Prog.History Op Res) (x : Except BrokerError Unit) : Prop :=
  Prog.After (handleClientMessage crates hasDb t now pk text).run h (.done x)

/-- What becomes of an input of a session, and what it leaves on the channels. -/
inductive Settles (crates : Crates) (hasDb : Bool) (t : ℕ) :
    Phase → Input → Prog.History Op Res → Prop
  | signal {pk text sender recipient payload signature : String} {timestamp stamp : Int64}
      {requestId : Option String} {f : Frame} {now : UnixTime} {h : Prog.History Op Res}
      {peer : Registry.PeerHandle} (framed : f.payload = some text)
      (message : authenticate crates now pk text =
        .ok (.signal sender recipient payload timestamp signature requestId))
      (returned : Returned crates hasDb t now pk text h (.ok ()))
      (valid : DecodesWithin crates signalingMaxPayload payload)
      (forwarded : Forwarded recipient (.signal pk payload stamp) peer h) :
      Settles crates hasDb t (.pumping pk) (.frame f now) h
  | relay {pk text sender sessionId data signature : String} {timestamp : Int64} {f : Frame}
      {now : UnixTime} {h : Prog.History Op Res} {id : Uuid} (framed : f.payload = some text)
      (message : authenticate crates now pk text =
        .ok (.relay sender sessionId data timestamp signature))
      (returned : Returned crates hasDb t now pk text h (.ok ()))
      (session : Relay.parseSessionId crates sessionId = .ok id)
      (relayed : RelayedBy crates pk id data h) :
      Settles crates hasDb t (.pumping pk) (.frame f now) h
  | failed {pk text : String} {f : Frame} {now : UnixTime} {h : Prog.History Op Res}
      {e : BrokerError} {sent : Bool} (framed : f.payload = some text)
      (returned : Returned crates hasDb t now pk text h (.error e)) (unsent : Unsent h) :
      Settles crates hasDb t (.pumping pk) (.frame f now)
        (⟨.send t (errorMsg e (parseRequestId crates text)), sent⟩ :: h)
  | other {c : Phase} {i : Input} {h : Prog.History Op Res}
      (apart : ∀ pk f now text, c = .pumping pk → i = .frame f now → f.payload = some text →
        ∃ msg, authenticate crates now pk text = .ok msg ∧ msg.tag ≠ "signal" ∧ msg.tag ≠ "relay")
      (undelivered : ∀ r, deliveries r h = []) : Settles crates hasDb t c i h

section Frames

variable {crates : Crates} {hasDb : Bool} {t : ℕ} {pk text : String} {now : UnixTime}
  {h : Prog.History Op Res} {a : Outcome}

theorem pump_returned (ha : Prog.After (pump crates hasDb t now pk text) h (.done a)) :
    Returned crates hasDb t now pk text h (.ok ()) ∨
      ∃ h' e sent, Returned crates hasDb t now pk text h' (.error e) ∧
        h = ⟨.send t (errorMsg e (parseRequestId crates text)), sent⟩ :: h' := by
  obtain ⟨h₁, h₂, x, rfl, hx, hrest⟩ := Prog.After.of_bind ha
  cases x with
  | ok u =>
    obtain ⟨rfl, -⟩ := hrest.of_done
    exact Or.inl hx
  | error e =>
    have hsend : Leaves (do
        send t (errorMsg e (parseRequestId crates text))
        pure Outcome.finished) (fun l _ => ∃ sent, l =
          [⟨.send t (errorMsg e (parseRequestId crates text)), sent⟩]) [] :=
      ⟨trivial, fun sent => ⟨sent, rfl⟩⟩
    obtain ⟨sent, rfl⟩ := hsend.returned hrest
    exact Or.inr ⟨h₁, e, sent, hx, rfl⟩

theorem returned_dispatch {msg : ClientMessage} {x : Except BrokerError Unit}
    (hauth : authenticate crates now pk text = .ok msg)
    (hx : Returned crates hasDb t now pk text h x) :
    Prog.After (dispatch crates hasDb t pk msg).run h (.done x) := by
  have hrun : (handleClientMessage crates hasDb t now pk text).run =
      (dispatch crates hasDb t pk msg).run := by
    rw [handleClientMessage, run_require_bind, hauth]
  rw [← hrun]
  exact hx

theorem isDelivery_of_tag {msg : ClientMessage} (hsignal : msg.tag ≠ "signal")
    (hrelay : msg.tag ≠ "relay") {c : ℕ} {m : ServerMessage}
    (hop : HandlerOp pk msg (.send c m)) : isDelivery m = false := by
  cases m with
  | signal => exact absurd hop.2 hsignal
  | relayData => exact absurd hop.2 hrelay
  | _ => rfl

theorem unsent_nil : Unsent [] := fun _ _ => List.not_mem_nil

theorem pump_settles {f : Frame} (hf : f.payload = some text)
    (ha : Prog.After (pump crates hasDb t now pk text) h (.done a)) :
    Settles crates hasDb t (.pumping pk) (.frame f now) h := by
  cases hauth : authenticate crates now pk text with
  | error e =>
    have hrun : (handleClientMessage crates hasDb t now pk text).run = .done (.error e) := by
      rw [handleClientMessage, run_require_bind, hauth]
    rcases pump_returned ha with hx | ⟨h', e', sent, hx, rfl⟩
    · rw [Returned, hrun] at hx
      cases hx.of_done.2
    · have hx' := hx
      rw [Returned, hrun] at hx'
      obtain ⟨rfl, -⟩ := hx'.of_done
      exact .failed hf hx unsent_nil
  | ok msg =>
    by_cases hapart : msg.tag ≠ "signal" ∧ msg.tag ≠ "relay"
    · refine .other ?_ fun r => deliveries_eq_nil fun c m hmem => ?_
      · rintro pk' f' now' text' ⟨⟩ ⟨⟩ htext
        obtain rfl : text' = text := by
          rw [hf] at htext
          exact (Option.some.inj htext).symm
        exact ⟨msg, hauth, hapart⟩
      · exact isDelivery_of_tag hapart.1 hapart.2
          (((pump_always crates hasDb t pk hauth).of_after ha).2 _ hmem)
    · cases msg with
      | signal sender recipient payload timestamp signature requestId =>
        rcases pump_returned ha with hx | ⟨h', e', sent, hx, rfl⟩
        · obtain ⟨hvalid, peer, stamp, hforward⟩ :=
            (onSignal_leaves recipient payload unsent_nil).returned (returned_dispatch hauth hx)
          exact .signal hf hauth hx hvalid hforward
        · exact .failed hf hx
            ((onSignal_leaves recipient payload unsent_nil).returned (returned_dispatch hauth hx))
      | relay sender sessionId data timestamp signature =>
        rcases pump_returned ha with hx | ⟨h', e', sent, hx, rfl⟩
        · obtain ⟨id, hid, hrelayed⟩ :=
            (onRelay_leaves sessionId data unsent_nil).returned (returned_dispatch hauth hx)
          exact .relay hf hauth hx hid hrelayed
        · exact .failed hf hx
            ((onRelay_leaves sessionId data unsent_nil).returned (returned_dispatch hauth hx))
      | _ => exact absurd (by simp [ClientMessage.tag]) hapart

theorem undelivered_of_permitted {c : Phase} (hc : ∀ pk text now, c ≠ .handling pk text now)
    {ch : ℕ} {m : ServerMessage} (hop : Permitted crates t c (.send ch m)) :
    isDelivery m = false := by
  cases c with
  | registering addr text now =>
    rcases hop with ⟨s, msg, -, -, hop⟩ | ⟨-, code, message, requestId, heq⟩
    · cases m with
      | signal => cases hop
      | relayData => cases hop
      | _ => rfl
    · cases heq
      rfl
  | handling pk text now => exact absurd rfl (hc pk text now)
  | closing pk =>
    obtain rfl : m = .presenceUpdate pk false := hop
    rfl
  | _ => exact hop.elim

theorem start_settles {c c' : Phase} {i : Input} {p : Work Outcome}
    (hs : start crates hasDb t c i = some (c', p)) (ha : Prog.After p h (.done a)) :
    Settles crates hasDb t c i h := by
  have hquiet : (∀ pk text now, c' ≠ .handling pk text now) → ∀ r, deliveries r h = [] := by
    intro hc r
    refine deliveries_eq_nil fun ch m hmem => ?_
    exact undelivered_of_permitted hc (((start_permitted hs).of_after ha).2 _ hmem)
  cases start_cases hs with
  | connects addr => exact .other (fun _ _ _ _ hc => by cases hc) (hquiet (by simp))
  | registers addr f now => exact .other (fun _ _ _ _ hc => by cases hc) (hquiet (by simp))
  | handles pk text f now hf => exact pump_settles hf ha
  | stays pk f now hf =>
    refine .other ?_ (hquiet (by simp))
    rintro _ f' _ _ - ⟨⟩ hpayload
    rcases hf with rfl | rfl <;> cases hpayload
  | closes pk f now hf =>
    refine .other ?_ (hquiet (by simp))
    rintro _ f' _ _ - ⟨⟩ hpayload
    rcases hf with rfl | rfl <;> cases hpayload

/-- In every run: a channel holds what the trace says was enqueued on it; what one session has
delivered there is, in the order of its frames, what their handlings delivered; and a signal or
relay frame that has been handled delivered its own payload to the channel it resolved, once, or
failed and enqueued nothing but an error on the session's own channel. -/
theorem deliveries_in_order {db₀ : Db ℕ} {tr : List BrokerEvent} {σ : BrokerConfig}
    (h : Run (broker crates hasDb) (fresh db₀) tr σ) (t r : ℕ) :
    (σ.shared.channels r).sent = (enqueued r tr).map Prod.snd ∧
    deliveredBy t r tr = ((taskLog t tr).flatMap fun x => deliveries r x.2) ∧
    ∀ newer i hist older, taskLog t tr = newer ++ (i, hist) :: older →
      (newer = [] → ∃ c, σ.tasks t = .waiting c) →
      ∃ c, Logged (broker crates hasDb) t .absent older (.waiting c) ∧
        Settles crates hasDb t c i hist := by
  refine ⟨sent_eq_enqueued h r, deliveredBy_eq_flatMap h t r, ?_⟩
  intro newer i hist older hlog hdone
  have hlogged : Logged (broker crates hasDb) t .absent (taskLog t tr) (σ.tasks t) := h.logged rfl
  rw [hlog] at hlogged
  obtain ⟨c, c', p, a, hprior, hs, ha⟩ := hlogged.entry hdone
  exact ⟨c, hprior, start_settles hs ha⟩

end Frames

/-! ## Two signals -/

open Scripts Crates

def twoSignals : List Cue :=
  joins 0 'a' ++ joins 1 'b' ++
  .say 0 'a' (.signal (keyText 'a') (keyText 'b') "AAAA" 0 (signatureText 'a') none) ::
    steps 0 7 calm ++
  .say 0 'a' (.signal (keyText 'a') (keyText 'b') "AQID" 0 (signatureText 'a') none) ::
    steps 0 6 calm

theorem twoSignals_played :
    (play false (fun _ _ _ => true) twoSignals [] (fresh DatabaseCalls.emptyDb)).map
      (fun x => deliveredBy 0 1 x.1) =
      some [.signal (keyText 'a') "AQID" 0, .signal (keyText 'a') "AAAA" 0] := by
  decide +kernel

theorem twoSignals_in_order : ∃ tr σ,
    Run (broker demo false) (fresh DatabaseCalls.emptyDb) tr σ ∧
      deliveredBy 0 1 tr = [.signal (keyText 'a') "AQID" 0, .signal (keyText 'a') "AAAA" 0] ∧
      (taskLog 0 tr).flatMap (fun x => deliveries 1 x.2) =
        [.signal (keyText 'a') "AQID" 0, .signal (keyText 'a') "AAAA" 0] := by
  obtain ⟨⟨tr, σ⟩, hp, heq⟩ := Option.map_eq_some_iff.mp twoSignals_played
  have hrun := run_of_play false hp
  refine ⟨tr, σ, hrun, heq, ?_⟩
  rw [← (deliveries_in_order hrun 0 1).2.1]
  exact heq

end HashedBroker.Deliveries
