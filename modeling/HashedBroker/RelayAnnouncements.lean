import HashedBroker.ReplyOrigins
import HashedBroker.RelayConsent

/-!
# Who is told that a relay session is established

The same message is sent for two reasons: as the reply to a request, on the requester's own channel
and under the id of the request, and to both parties when the session has been promoted. The promoting
task need not wait for the requesting one: the offer is out before the reply is, and an acceptance
that comes in between overtakes the reply.
-/
namespace HashedBroker.RelayAnnouncements
open AtomicPrograms ReactiveTasks Protocol Server Sessions RelayConsent ReplyOrigins Deliveries

/-- A message that a session is established comes after its promotion, or it is the reply to the
request that the task is handling. -/
def Announced (crates : Crates) (t : ℕ) (c : Phase) (hist : Prog.History Op Res) (o : Op) : Prop :=
  ∀ ch sid peer rid, o = .send ch (.relaySessionEstablished sid peer rid) →
    (∃ i A B, sid = crates.uuidText i ∧
      (⟨.relay (.promote i B), .ok A⟩ : Σ o : Op, Res o) ∈ hist) ∨
    ch = t ∧ ∃ text msg, handledText c = some text ∧
      ClientMessage.fromStr crates.finite text = some msg ∧ msg.tag = "request_relay" ∧
      rid = msg.requestId

def AnnouncesNothing (o : Op) : Prop :=
  ∀ ch sid peer rid, o ≠ .send ch (.relaySessionEstablished sid peer rid)

section Handlers

variable {crates : Crates} {hasDb : Bool} {t : ℕ} {c : Phase}

theorem announced_of_nothing {hist : Prog.History Op Res} {o : Op} (ho : AnnouncesNothing o) :
    Announced crates t c hist o :=
  fun ch sid peer rid he => absurd he (ho ch sid peer rid)

theorem accept_announced (pk : String) (i : Uuid) :
    (accept crates pk i).run.Justified (Announced crates t c) [] := by
  have hget : ∀ {hist : Prog.History Op Res} {A : String},
      Announced crates t c hist (.registry (.getPeer A)) :=
    announced_of_nothing (by simp [AnnouncesNothing])
  rw [accept, run_attempt_bind]
  refine ⟨announced_of_nothing (by simp [AnnouncesNothing]), fun x => ?_⟩
  cases x with
  | error e => trivial
  | ok A =>
    -- whatever is sent from here on is sent after the promotion
    have hafter : ∀ {hist : Prog.History Op Res} {ch peer},
        (⟨.relay (.promote i pk), .ok A⟩ : Σ o : Op, Res o) ∈ hist →
        Announced crates t c hist
          (.send ch (.relaySessionEstablished (crates.uuidText i) peer none)) := by
      intro hist ch peer hmem ch' sid peer' rid he
      cases he
      exact Or.inl ⟨i, A, pk, rfl, hmem⟩
    refine ⟨hget, fun peer => ?_⟩
    show (orElse peer .peerOffline >>= _ : Handler Unit).run.Justified _ _
    rw [run_orElse_bind]
    cases peer with
    | none => trivial
    | some initPeer =>
      refine ⟨hget, fun peer => ?_⟩
      show (orElse peer .peerOffline >>= _ : Handler Unit).run.Justified _ _
      rw [run_orElse_bind]
      cases peer with
      | none => trivial
      | some respPeer =>
        refine ⟨hafter (by simp), fun sent => ?_⟩
        cases sent with
        | false => trivial
        | true => exact ⟨hafter (by simp), fun sent => by cases sent <;> trivial⟩

theorem request_announces_nothing (crates : Crates) (pk responder : String) :
    (request crates pk responder).run.Always AnnouncesNothing := by
  refine always_lift_bind (get_always responder (by simp [AnnouncesNothing])) fun peer => ?_
  refine always_orElse_bind fun recipient _ => ?_
  refine always_lift_bind ((always_perform _).mpr (by simp [AnnouncesNothing])) fun id => ?_
  exact always_trySend_bind (by simp [AnnouncesNothing]) fun _ => trivial

theorem dispatch_announced (pk text : String) (now : UnixTime) (msg : ClientMessage)
    (hparsed : ClientMessage.fromStr crates.finite text = some msg) :
    (dispatch crates hasDb t pk msg).run.Justified
      (Announced crates t (.handling pk text now)) [] := by
  by_cases haccept : msg.tag = "accept_relay"
  · cases msg with
    | acceptRelay pubkey sessionId timestamp signature =>
      simp only [dispatch, onAcceptRelay, run_require_bind]
      cases Relay.parseSessionId crates sessionId with
      | error e => trivial
      | ok i => exact accept_announced pk i
    | _ => simp [ClientMessage.tag] at haccept
  · by_cases hrequest : msg.tag = "request_relay"
    · cases msg with
      | requestRelay pubkey peer timestamp signature requestId =>
        have hsilent := (request_announces_nothing crates pk peer).justified (h := [])
          (J := Announced crates t (.handling pk text now)) fun _ _ ho => announced_of_nothing ho
        refine Prog.Justified.bind hsilent fun hist x => ?_
        cases x with
        | error e => trivial
        | ok id =>
          refine ⟨announced_of_nothing (by simp [AnnouncesNothing]), fun _ => ⟨?_, fun _ => trivial⟩⟩
          intro ch sid peer' rid he
          cases he
          exact Or.inr ⟨rfl, text, _, rfl, hparsed, rfl, rfl⟩
      | _ => simp [ClientMessage.tag] at hrequest
    · refine (dispatch_always crates hasDb t pk msg).justified fun hist o ho => ?_
      rintro ch sid peer rid rfl
      rcases ho.2 with htag | htag
      · exact absurd htag hrequest
      · exact absurd htag haccept

theorem announcesNothing_of_permitted {o : Op} (ho : Permitted crates t c o)
    (hc : ∀ pk text now, c ≠ .handling pk text now) : AnnouncesNothing o := by
  rintro ch sid peer rid rfl
  cases c with
  | registering addr text now =>
    rcases ho with ⟨s, msg, -, -, ho⟩ | ⟨-, code, message, requestId, ho⟩
    · cases ho
    · cases ho
  | handling pk text now => exact hc pk text now rfl
  | closing pk => cases ho
  | _ => exact ho

theorem start_announced {c' : Phase} {i : Input} {p : Work Outcome}
    (hs : start crates hasDb t c i = some (c', p)) : p.Justified (Announced crates t c') [] := by
  refine start_justified (J := Announced crates t) ?_ ?_ ?_ hs
  · intro pk text now msg hauth
    exact dispatch_announced pk text now msg (Authentication.authentic_of_authenticate hauth).parsed
  · intro c hist o hc ho
    exact announced_of_nothing (announcesNothing_of_permitted ho hc)
  · intro c hist e requestId
    exact announced_of_nothing (by simp [AnnouncesNothing, errorMsg])

end Handlers

section Runs

variable {crates : Crates} {hasDb : Bool} {db₀ : Database.Db ℕ} {tr : List BrokerEvent}
  {σ : BrokerConfig}

/-- What is behind the message that a session is established. -/
theorem announced_of_running (h : Run (broker crates hasDb) (fresh db₀) tr σ) {t ch : ℕ} {c : Phase}
    {sid peer : String} {rid : Option String} {k : Bool → Work Outcome}
    (ht : σ.tasks t = .running c (.call (.send ch (.relaySessionEstablished sid peer rid)) k)) :
    (∃ i A B, sid = crates.uuidText i ∧ Event.performed t (.relay (.promote i B)) (.ok A) ∈ tr) ∨
    ch = t ∧ ∃ text msg, handledText c = some text ∧
      ClientMessage.fromStr crates.finite text = some msg ∧ msg.tag = "request_relay" ∧
      rid = msg.requestId := by
  obtain ⟨hist, hJ, hsub⟩ := h.justified (J := Announced crates) (fresh_idle db₀)
    (fun _ _ _ _ _ hs => start_announced hs) ht
  rcases hJ ch sid peer rid rfl with ⟨i, A, B, hsid, hmem⟩ | hreply
  · refine Or.inl ⟨i, A, B, hsid, hsub.subset ?_⟩
    exact List.mem_map_of_mem (f := fun x => Event.performed t x.1 x.2) hmem
  · exact Or.inr hreply

end Runs

/-! ## The reply to a request, and the acceptance -/

/-- The answers to a request hold the reply on the session `i` it has drawn. -/
def Replied (crates : Crates) (t : ℕ) (i : Uuid) (peer : String) (rid : Option String) (sent : Bool)
    (hist : Prog.History Op Res) : Prop :=
  (⟨.send t (.relaySessionEstablished (crates.uuidText i) peer rid), sent⟩ : Σ o : Op, Res o) ∈ hist

/-- The offer could not be sent, and the request got an error. -/
def Refused (crates : Crates) (i : Uuid) (A : String) (hist : Prog.History Op Res) : Prop :=
  ∃ ch, (⟨.send ch (.relayOffer (crates.uuidText i) A), false⟩ : Σ o : Op, Res o) ∈ hist

def Draws (A B : String) (i : Uuid) (hist : Prog.History Op Res) : Prop :=
  (⟨.relay (.insertSession A B), i⟩ : Σ o : Op, Res o) ∈ hist

section Requests

variable {crates : Crates} {hasDb : Bool} {t : ℕ} {A B pk text : String} {i : Uuid}
  {hist : Prog.History Op Res}

theorem onRequestRelay_leaves (peer : String) (rid : Option String) :
    Leaves (onRequestRelay crates t pk peer rid).run (fun l _ => ∀ A B i, Draws A B i l →
      B = peer ∧ ((∃ sent, Replied crates t i B rid sent l) ∨ Refused crates i A l)) [] := by
  simp only [onRequestRelay, request, bind_assoc]
  refine leaves_perform_bind fun found => ?_
  refine leaves_orElse_bind ?_ fun recipient _ => ?_
  · intro A B i hdraws
    simp [Draws] at hdraws
  refine leaves_perform_bind fun id => ?_
  refine leaves_trySend_bind ?_ ?_
  · intro A B i hdraws
    obtain ⟨⟨rfl, rfl⟩, rfl⟩ : (A = pk ∧ B = peer) ∧ i = id := by simpa [Draws] using hdraws
    exact ⟨rfl, Or.inr ⟨recipient.tx, List.mem_cons_self⟩⟩
  · refine leaves_perform_bind fun _ => ⟨trivial, fun sent => ?_⟩
    intro A B i hdraws
    obtain ⟨⟨rfl, rfl⟩, rfl⟩ : (A = pk ∧ B = peer) ∧ i = id := by
      simpa [Draws, Prog.record] using hdraws
    exact ⟨rfl, Or.inl ⟨sent, List.mem_cons_self⟩⟩

/-- A returned handling that drew a session has replied, under the id of its request, unless the
offer could not be sent. -/
theorem replied_of_returned {c c' : Phase} {x : Input} {p : Work Outcome} {a : Outcome}
    (hs : start crates hasDb t c x = some (c', p)) (hafter : Prog.After p hist (.done a))
    (hdraws : Draws A B i hist) : ∃ text msg, handledText c' = some text ∧
      ClientMessage.fromStr crates.finite text = some msg ∧
      ((∃ sent, Replied crates t i B msg.requestId sent hist) ∨ Refused crates i A hist) := by
  have hpermitted := ((start_permitted hs).of_after hafter).2 _ hdraws
  obtain ⟨text, now, rfl⟩ := insertSession_phase t c' hpermitted
  rcases hpermitted with ⟨msg, hauth, -, htag⟩ | ⟨-, code, message, requestId, ho⟩
  · have hparsed := (Authentication.authentic_of_authenticate hauth).parsed
    refine ⟨text, msg, rfl, hparsed, ?_⟩
    cases msg with
    | requestRelay sender peer timestamp signature rid =>
      rw [start_handling hs] at hafter
      have hleaves : ∀ {h x}, Returned crates hasDb t now A text h x → Draws A B i h →
          (∃ sent, Replied crates t i B rid sent h) ∨ Refused crates i A h := by
        intro h x hret hdraws
        exact ((onRequestRelay_leaves peer rid).returned (returned_dispatch hauth hret) A B i
          hdraws).2
      rcases pump_returned hafter with hret | ⟨h', e, sent, hret, rfl⟩
      · exact hleaves hret hdraws
      · have hdraws' : Draws A B i h' := by simpa [Draws] using hdraws
        rcases hleaves hret hdraws' with ⟨sent, hreply⟩ | ⟨ch, hrefused⟩
        · exact Or.inl ⟨sent, List.mem_cons_of_mem _ hreply⟩
        · exact Or.inr ⟨ch, List.mem_cons_of_mem _ hrefused⟩
    | _ => simp [LedToBy, ClientMessage.tag] at htag
  · cases ho

end Requests

/-- When an acceptance of the session `i` puts its message on a channel, a request of the channel's
session that had drawn `i` before has its reply there, unless its offer could not be sent. -/
def RepliedFirst (crates : Crates) (tr : List BrokerEvent) : Prop :=
  ∀ newer mid before u t i A B peer,
    tr = newer ++ .performed u (.send t (.relaySessionEstablished (crates.uuidText i) peer none))
      true :: (mid ++ .performed u (.relay (.promote i B)) (.ok A) :: before) →
    (∀ x, Event.input u x ∉ mid) →
    ∀ x hist A' B', (x, hist) ∈ taskLog t before → Draws A' B' i hist →
      ∃ f now text msg, x = .frame f now ∧ f.payload = some text ∧
        ClientMessage.fromStr crates.finite text = some msg ∧
        (Event.performed t
            (.send t (.relaySessionEstablished (crates.uuidText i) B' msg.requestId)) true ∈
          mid ++ .performed u (.relay (.promote i B)) (.ok A) :: before ∨
        ∃ ch, Event.performed t (.send ch (.relayOffer (crates.uuidText i) A')) false ∈ before)

/-- No session is promoted while the task that requested it is still handling the request. -/
def PromotedAfter (tr : List BrokerEvent) (σ : BrokerConfig) (e : BrokerEvent) : Prop :=
  ∀ u i A B, e = .performed u (.relay (.promote i B)) (.ok A) →
    ∀ t x hist older A' B', taskLog t tr = (x, hist) :: older → Draws A' B' i hist →
      ∃ c, σ.tasks t = .waiting c

section Order

variable {crates : Crates} {hasDb : Bool} {db₀ : Database.Db ℕ} {tr : List BrokerEvent}
  {σ : BrokerConfig}

theorem closed_of_unsent (h : Run (broker crates hasDb) (fresh db₀) tr σ) {u c : ℕ}
    {msg : ServerMessage} (hmem : Event.performed u (.send c msg) false ∈ tr) :
    (σ.shared.channels c).closed = true := by
  induction h with
  | start => cases hmem
  | @step tr σ σ' e prior next ih =>
    rcases next.cases with ⟨t, x, c₀, c', p, rfl, -, -, rfl⟩ |
      ⟨t, c₀, o, k, env, r, s', rfl, -, hx, rfl⟩ | ⟨x, s', rfl, hx, rfl⟩
    · rcases List.mem_cons.mp hmem with heq | hmem
      · cases heq
      · exact ih hmem
    · have hx' : Broker.exec crates t o env σ.shared = some (r, s') := hx
      rcases List.mem_cons.mp hmem with heq | hmem
      · cases heq
        have hclosed := Broker.exec_send_closed hx'
        exact Broker.exec_closed hx' (by simpa using hclosed.symm)
      · exact Broker.exec_closed hx' (ih hmem)
    · rcases List.mem_cons.mp hmem with heq | hmem
      · cases heq
      · exact Broker.writerStep_closed hx (ih hmem)

/-- When no session is promoted while its request is being handled, the reply to the request comes
before the message of the acceptance. -/
theorem replied_first (h : GuardedRun (broker crates hasDb) PromotedAfter (fresh db₀) tr σ) :
    RepliedFirst crates tr := by
  rintro newer mid before u t i A B peer rfl - x hist A' B' hentry hdraws
  obtain ⟨σ₂, c₂, k₂, env₂, s₂, h₂, -, hx₂⟩ := performed_split h.run
  have hcut : newer ++ Event.performed u
        (.send t (.relaySessionEstablished (crates.uuidText i) peer none)) true ::
        (mid ++ .performed u (.relay (.promote i B)) (.ok A) :: before) =
      (newer ++ .performed u
        (.send t (.relaySessionEstablished (crates.uuidText i) peer none)) true :: mid) ++
        .performed u (.relay (.promote i B)) (.ok A) :: before := by simp
  rw [hcut] at h
  obtain ⟨σ₁, -, h₁, -, hguard⟩ := h.split
  obtain ⟨later, earlier, hlog⟩ := List.append_of_mem hentry
  -- the program that drew the session has returned
  have hlogged := h₁.run.logged (rfl : (fresh db₀).tasks t = .waiting .absent)
  rw [hlog] at hlogged
  obtain ⟨c, c', p, a, -, hs, hafter⟩ := hlogged.entry fun hnewest => by
    subst hnewest
    exact hguard u i A B rfl t x hist earlier A' B' hlog hdraws
  obtain ⟨text, msg, htext, hparsed, hreplied⟩ := replied_of_returned hs hafter hdraws
  obtain ⟨⟨text', now⟩, hframe, heq⟩ := Option.bind_eq_some_iff.mp htext
  obtain ⟨f, rfl, hpayload⟩ := Authentication.start_frame hs hframe
  refine ⟨f, now, text, msg, rfl, hpayload.trans heq, hparsed, ?_⟩
  rcases hreplied with ⟨sent, hreply⟩ | ⟨ch, hrefused⟩
  · have hbefore := performed_of_taskLog hentry hreply
    refine Or.inl (List.mem_append_right _ (List.mem_cons_of_mem _ ?_))
    cases sent with
    | true => exact hbefore
    | false =>
      -- the channel would have refused the message of the acceptance, too
      have hclosed := closed_of_unsent h₂ (List.mem_append_right _ (List.mem_cons_of_mem _ hbefore))
      have hopen := Broker.exec_send_closed hx₂
      rw [hclosed] at hopen
      cases hopen
  · exact Or.inr ⟨ch, performed_of_taskLog hentry hrefused⟩

end Order

/-! ## An acceptance after the reply, and one that overtakes it -/

open Scripts Crates

def isWaiting : Task Op Res Phase Outcome → Bool
  | .waiting _ => true
  | .running .. => false

/-- A test for `PromotedAfter`: whoever has drawn the session is waiting. -/
def promotedAfter (tr : List BrokerEvent) (σ : BrokerConfig) : BrokerEvent → Bool
  | .performed _ (.relay (.promote i _)) (.ok _) => tr.all fun e =>
    match e with
    | .performed t (.relay (.insertSession _ _)) j => i ≠ j || isWaiting (σ.tasks t)
    | _ => true
  | _ => true

theorem promotedAfter_sound {tr : List BrokerEvent} {σ : BrokerConfig} {e : BrokerEvent}
    (h : promotedAfter tr σ e = true) : PromotedAfter tr σ e := by
  rintro u i A B rfl t x hist older A' B' hlog hdraws
  have hmem : Event.performed t (.relay (.insertSession A' B')) i ∈ tr := by
    have hentry : (x, hist) ∈ taskLog t tr := by
      rw [hlog]
      exact List.mem_cons_self
    exact performed_of_taskLog hentry hdraws
  have htest := List.all_eq_true.mp h _ hmem
  cases ht : σ.tasks t with
  | waiting c => exact ⟨c, rfl⟩
  | running c p => simp [ht, isWaiting] at htest

def relayRequest : ClientMessage :=
  .requestRelay (keyText 'a') (keyText 'b') 0 (signatureText 'a') (some "r")

def relayAcceptance : ClientMessage :=
  .acceptRelay (keyText 'b') firstIdText 0 (signatureText 'b') none

/-- `b` accepts when `a` has its reply. -/
theorem replied_first_exchange : ∃ tr σ,
    GuardedRun (broker demo false) PromotedAfter (fresh DatabaseCalls.emptyDb) tr σ ∧
      (σ.shared.channels 0).sent.take 2 =
        [.relaySessionEstablished firstIdText (keyText 'b') none,
          .relaySessionEstablished firstIdText (keyText 'b') (some "r")] ∧
      RepliedFirst demo tr := by
  have hplayed : (play false promotedAfter (joins 0 'a' ++ joins 1 'b' ++
      .say 0 'a' relayRequest :: steps 0 5 calm ++ .say 1 'b' relayAcceptance :: steps 1 5 calm)
      [] (fresh DatabaseCalls.emptyDb)).map (fun x => (x.2.shared.channels 0).sent.take 2) =
      some [.relaySessionEstablished firstIdText (keyText 'b') none,
        .relaySessionEstablished firstIdText (keyText 'b') (some "r")] := by decide +kernel
  obtain ⟨⟨tr, σ⟩, hp, hsent⟩ := Option.map_eq_some_iff.mp hplayed
  have hrun := guardedRun_of_play false (fun _ _ _ => promotedAfter_sound) .start hp
  exact ⟨tr, σ, hrun, hsent, replied_first hrun⟩

/-- The newest event puts the message of an acceptance on the channel of a session whose request has
drawn the session. -/
def accepts : List BrokerEvent → Bool
  | .performed 1 (.send 0 (.relaySessionEstablished sid _ none)) true ::
      .performed 1 (.registry _) _ :: .performed 1 (.registry _) _ ::
      .performed 1 (.relay (.promote i _)) (.ok _) :: before =>
    sid = demo.uuidText i && (taskLog 0 before).any fun x => x.2.any fun y =>
      match y with
      | ⟨.relay (.insertSession _ _), j⟩ => i = j
      | _ => false
  | _ => false

def unanswering : BrokerEvent → Bool
  | .performed 0 (.send 0 (.relaySessionEstablished ..)) true => false
  | .performed 0 (.send _ (.relayOffer ..)) false => false
  | _ => true

/-- `b` accepts as soon as it has the offer, and is faster than `a`'s session. -/
theorem acceptance_overtakes_reply : ∃ tr σ,
    Run (broker demo false) (fresh DatabaseCalls.emptyDb) tr σ ∧
      (σ.shared.channels 0).sent.take 2 =
        [.relaySessionEstablished firstIdText (keyText 'b') (some "r"),
          .relaySessionEstablished firstIdText (keyText 'b') none] ∧
      ¬ RepliedFirst demo tr := by
  have hplayed : (play false (fun _ _ _ => true) (joins 0 'a' ++ joins 1 'b' ++
      .say 0 'a' relayRequest :: steps 0 3 calm ++ .say 1 'b' relayAcceptance :: steps 1 4 calm ++
      steps 0 2 calm) [] (fresh DatabaseCalls.emptyDb)).map (fun x =>
        ((x.2.shared.channels 0).sent.take 2, accepts (x.1.drop 2),
          (x.1.drop 2).all unanswering)) =
      some ([.relaySessionEstablished firstIdText (keyText 'b') (some "r"),
        .relaySessionEstablished firstIdText (keyText 'b') none], true, true) := by decide +kernel
  obtain ⟨⟨tr, σ⟩, hp, heq⟩ := Option.map_eq_some_iff.mp hplayed
  obtain ⟨hsent, heq⟩ := Prod.mk.inj heq
  obtain ⟨haccepts, hall⟩ := Prod.mk.inj heq
  refine ⟨tr, σ, run_of_play false hp, hsent, fun hfirst => ?_⟩
  obtain ⟨older, holder⟩ : ∃ older, tr.drop 2 = older := ⟨_, rfl⟩
  have hcut : tr = tr.take 2 ++ older := by rw [← holder, List.take_append_drop]
  simp only [holder] at haccepts hall
  have hnone := List.all_eq_true.mp hall
  unfold accepts at haccepts
  split at haccepts
  · rename_i sid peer a₁ r₁ a₂ r₂ i B A before
    obtain ⟨hsid, hany⟩ := Bool.and_eq_true_iff.mp haccepts
    obtain rfl := of_decide_eq_true hsid
    obtain ⟨⟨x, hist⟩, hentry, hdraws⟩ := List.any_eq_true.mp hany
    obtain ⟨y, hy, hyi⟩ := List.any_eq_true.mp hdraws
    split at hyi
    · rename_i A' B' j
      obtain rfl := of_decide_eq_true hyi
      obtain ⟨f, now, text, msg, -, -, -, hreply | ⟨ch, hrefused⟩⟩ := hfirst (tr.take 2)
        [.performed 1 (.registry a₁) r₁, .performed 1 (.registry a₂) r₂] before 1 0 i A B peer hcut
        (by simp) x hist A' B' hentry hy
      · exact absurd (hnone _ (List.mem_cons_of_mem _ hreply)) (by simp [unanswering])
      · have hmem : Event.performed 0 (.send ch (.relayOffer (demo.uuidText i) A')) false ∈
            .performed 1 (.registry a₁) r₁ :: .performed 1 (.registry a₂) r₂ ::
              .performed 1 (.relay (.promote i B)) (.ok A) :: before := by simp [hrefused]
        exact absurd (hnone _ (List.mem_cons_of_mem _ hmem)) (by simp [unanswering])
    · cases hyi
  · cases haccepts

end HashedBroker.RelayAnnouncements
