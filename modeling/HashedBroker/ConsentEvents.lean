import HashedBroker.Correlation
import HashedBroker.RelayAnnouncements

/-!
# The client's events and the responder's consent

A listener for established sessions is meant to hear of a session when its responder has accepted
it. The reply to the client's own request has the same type, and it is kept from the listeners only
by the entry of the pending request. When the entry is gone before the reply arrives, after a timeout
or the closing of a socket, the listeners hear of a session that nobody has accepted.
-/
namespace HashedBroker.ConsentEvents
open KeyedTables ReactiveTasks Protocol ClientSigning Server Sessions BrokerClient LabelledRuns
open RelayConsent ReplyOrigins RelayAnnouncements ClientNetwork Correlation

/-- The reply to a request for a relay session arrives while the request is pending. -/
def RepliesAwaited (_ : List Label) (n : Network) : Label → Prop
  | .deliver t => ∀ k w sid peer id, n.link t = some (k, w) →
    n.arriving t = some (.relaySessionEstablished sid peer (some id)) →
    ∃ p, (n.clients k).pending.lookup id = some p
  | _ => True

/-- When a step lets the listeners of a client hear of a session, the session has been promoted, by
a task that handled a frame of its responder. -/
def HeardAfterConsent (crates : Crates) (hasDb : Bool) (opts : ℕ → Options)
    (db₀ : Database.Db ℕ) (tr : List Label) (n : Network) (l : Label) : Prop :=
  ∀ n' k sid peer rid, Moves crates hasDb opts n l n' →
    (n'.clients k).dispatched =
      .relaySessionEstablished sid peer rid :: (n.clients k).dispatched →
    ∃ i A B, sid = crates.uuidText i ∧
      DoneBy crates hasDb db₀ (brokerTrace tr) B (.relay (.promote i B)) (.ok A)

section Frames

variable {opts : Options} {x : Call} {msg : ClientMessage}

theorem requestId_of_requestRelay
    (h : ClientMessage.ofJson (.obj (Client.signedMembers opts x)) = some msg)
    (htag : msg.tag = "request_relay") :
    (expectedType x.request).isSome = true ∧ msg.requestId = some (x.requestId.getD "") := by
  obtain ⟨request, timestamp, requestId⟩ := x
  have htype := (ofJson_kept h).1
  rw [htag, Client.signedMembers, Request.signed] at htype
  cases request with
  | requestRelay peer =>
    refine ⟨rfl, ?_⟩
    simp [Client.signedMembers, Request.signed, Request.members, ClientMessage.ofJson,
      ClientMessage.variantFrom, required, defaulted, fromMap, member, asString, asOption,
      Option.bind_eq_some_iff] at h
    obtain ⟨_, -, rfl⟩ := h
    rfl
  | register handle addresses =>
    cases handle <;> simp [Request.members, member] at htype
  | announceTeam teamId teamName adminPubkey adminSignature =>
    cases teamId <;> simp [Request.members, member] at htype
  | _ => simp [Request.members, member] at htype

end Frames

section Runs

variable {crates : Crates} {hasDb : Bool} {opts : ℕ → Options} {db₀ : Database.Db ℕ}

/-- A session has been promoted when its establishment is on a channel, or the message is the reply
to a request for the session. -/
theorem origin_of_established {tr : List BrokerEvent} {σ : BrokerConfig}
    (h : Run (broker crates hasDb) (fresh db₀) tr σ) {r : ℕ} {x : Origin} (hx : x ∈ origins r tr)
    {sid peer : String} {rid : Option String}
    (hmsg : x.msg = .relaySessionEstablished sid peer rid) :
    (∃ i A B, sid = crates.uuidText i ∧ Accepted tr i A B) ∨
    x.task = r ∧ ∃ f now s msg, x.input = some (.frame f now) ∧ f.payload = some s ∧
      ClientMessage.fromStr crates.finite s = some msg ∧ msg.tag = "request_relay" ∧
      rid = msg.requestId := by
  revert sid peer rid
  refine origins_induct h (P := fun tr r x => ∀ {sid peer rid},
    x.msg = .relaySessionEstablished sid peer rid →
    (∃ i A B, sid = crates.uuidText i ∧ Accepted tr i A B) ∨
    x.task = r ∧ ∃ f now s msg, x.input = some (.frame f now) ∧ f.payload = some s ∧
      ClientMessage.fromStr crates.finite s = some msg ∧ msg.tag = "request_relay" ∧
      rid = msg.requestId) ?_ ?_ hx
  · intro tr σ t c ch msg k i hrun ht hi hstart sid peer rid hmsg
    obtain rfl : msg = .relaySessionEstablished sid peer rid := hmsg
    rcases announced_of_running hrun ht with ⟨i, A, B, hsid, hmem⟩ |
      ⟨rfl, s, msg, hs, hparsed, htag, hrid⟩
    · exact Or.inl ⟨i, A, B, hsid, t, hmem⟩
    · obtain ⟨⟨text, now⟩, hframe, htext⟩ := Option.bind_eq_some_iff.mp hs
      obtain rfl : text = some s := htext
      obtain ⟨c₀, p₀, hstart⟩ := hstart
      obtain ⟨f, rfl, hpayload⟩ := Authentication.start_frame hstart hframe
      exact Or.inr ⟨rfl, f, now, s, msg, rfl, hpayload, hparsed, htag, hrid⟩
  · intro e tr r x hP sid peer rid hmsg
    rcases hP hmsg with ⟨i, A, B, hsid, haccepted⟩ | hreply
    · exact Or.inl ⟨i, A, B, hsid, haccepted.cons e⟩
    · exact Or.inr hreply

variable {C : List Label → Network → Label → Prop} {tr : List Label} {n : Network}

theorem accepted_of_arriving (h : Reaches (Moves crates hasDb opts) C (.start db₀) tr n)
    {t k w : ℕ} (hlink : n.link t = some (k, w)) {sid peer : String} {rid : Option String}
    (hmsg : n.arriving t = some (.relaySessionEstablished sid peer rid)) :
    (∃ i A B, sid = crates.uuidText i ∧ Accepted (brokerTrace tr) i A B) ∨
      ∃ id, rid = some id ∧ id ≠ "" := by
  obtain ⟨x, hx, hxmsg⟩ := origin_of_arriving h hmsg
  have hmem := List.mem_reverse.mp (List.mem_of_getElem? hx)
  rcases origin_of_established (broker_run h) hmem hxmsg with haccepted |
    ⟨htask, f, now, s, msg, hinput, hpayload, hparsed, htag, rfl⟩
  · exact Or.inl haccepted
  · -- the frame is one of the client's, and its request for a session has an id
    have hin := input_of_origin hmem hinput
    rw [htask] at hin
    obtain ⟨-, hsent⟩ := transmitted h t k w f now s hlink hin hpayload
    have hcalls := callsOk h k
    obtain ⟨j, call, hcall, -, htext⟩ := hcalls.outbox w s hsent
    rw [ClientMessage.fromStr, parse_frameText (hcalls.stamped j call hcall) htext] at hparsed
    obtain ⟨hwaits, hid⟩ := requestId_of_requestRelay hparsed htag
    rw [hcalls.waits j call hcall] at hwaits
    obtain ⟨id, hcid⟩ := Option.isSome_iff_exists.mp hwaits
    obtain ⟨now', m, hminted, -⟩ := hcalls.minted j call id hcall hcid
    refine Or.inr ⟨id, ?_, ?_⟩
    · rw [hid, hcid]
      rfl
    · rw [hminted]
      exact requestIdText_ne_empty now' m

theorem dispatched_of_step {opts : Options} {c c' : Client} {a : BrokerClient.Action}
    (hs : c.step opts a = some c') :
    c'.dispatched = c.dispatched ∨ ∃ w msg, a = .message w msg ∧ c.routed msg = none ∧
      c'.dispatched = msg :: c.dispatched := by
  have hsettle : ∀ (c₁ : Client) (i : ℕ) (x : Result),
      (c₁.settleCall i x).dispatched = c₁.dispatched := by
    intro c₁ i x
    obtain ⟨results, heq⟩ := c₁.settleCall_eq i x
    rw [heq]
  have hsend : ∀ {c₁ c₂ : Client} {i : ℕ} {text : String}, c₁.send i text = .ok c₂ →
      c₂.dispatched = c₁.dispatched := by
    intro c₁ c₂ i text hsend
    obtain ⟨w, outbox, rfl⟩ := Client.send_ok hsend
    rfl
  cases Client.effect_of_step hs with
  | sockets => exact Or.inl rfl
  | started => exact Or.inl rfl
  | refused => exact Or.inl (hsettle _ _ _)
  | transmitted =>
    apply Or.inl
    unfold Client.transmit
    split
    · split
      · rename_i c₁ hc₁
        rw [hsettle, hsend hc₁]
      · rw [hsettle]
    · simp only
      split
      · rename_i c₁ hc₁
        rw [hsend hc₁]
      · rw [hsettle]
  | notSigned => exact Or.inl (hsettle _ _ _)
  | timedOut => exact Or.inl (hsettle _ _ _)
  | closed => exact Or.inl rfl
  | answered => exact Or.inl (hsettle _ _ _)
  | @dispatched w msg unrouted => exact Or.inr ⟨w, msg, rfl, unrouted, rfl⟩

theorem heard_after_consent {l : Label}
    (h : Reaches (Moves crates hasDb opts) C (.start db₀) tr n) (hguard : RepliesAwaited tr n l) :
    HeardAfterConsent crates hasDb opts db₀ tr n l := by
  intro n' k sid peer rid hmove hheard
  -- a step that adds nothing to what the listeners have heard
  have hsilent : ∀ {xs : List ServerMessage} {x : ServerMessage}, xs ≠ x :: xs :=
    fun heq => absurd (congrArg List.length heq) (by simp)
  cases hmove with
  | @broker e σ next wired =>
    simp only [(afterEvent_eq n e).1] at hheard
    exact absurd hheard hsilent
  | accept => exact absurd hheard hsilent
  | @client k₀ a c unprompted next =>
    simp only [Network.withClient] at hheard
    by_cases hk : k = k₀
    · subst hk
      rw [Function.update_self] at hheard
      rcases dispatched_of_step next with hsame | ⟨w, msg, rfl, -, -⟩
      · rw [hsame] at hheard
        exact absurd hheard hsilent
      · exact unprompted.elim
    · rw [Function.update_of_ne hk] at hheard
      exact absurd hheard hsilent
  | @deliver t k₀ w msg c linked arrives next =>
    simp only [Network.withClient] at hheard
    by_cases hk : k = k₀
    · subst hk
      rw [Function.update_self] at hheard
      rcases dispatched_of_step next with hsame | ⟨w', msg', hmsg, hrouted, hnew⟩
      · rw [hsame] at hheard
        exact absurd hheard hsilent
      · cases hmsg
        rw [hnew] at hheard
        obtain rfl := (List.cons.inj hheard).1
        rcases accepted_of_arriving h linked arrives with ⟨i, A, B, hsid, u, hmem⟩ |
          ⟨id, rfl, hid⟩
        · exact ⟨i, A, B, hsid, doneBy_of_mem (broker_run h) hmem promote_phase⟩
        · obtain ⟨p, hp⟩ := hguard k w sid peer id linked arrives
          simp [Client.routed, ServerMessage.requestId, hid, hp] at hrouted
    · rw [Function.update_of_ne hk] at hheard
      exact absurd hheard hsilent

/-- In every run in which the replies to requests for a relay session arrive while the request is
pending, the listeners hear of a session only when it has been promoted. -/
theorem listeners_hear_after_consent
    (h : Reaches (Moves crates hasDb opts) RepliesAwaited (.start db₀) tr n) :
    Reaches (Moves crates hasDb opts) (HeardAfterConsent crates hasDb opts db₀) (.start db₀) tr n :=
  h.weaken fun hprior _ hguard => heard_after_consent hprior hguard

end Runs

/-! ## A session nobody has accepted -/

def repliesAwaited (_ : List Label) (n : Network) : Label → Bool
  | .deliver t =>
    match n.link t, n.arriving t with
    | some (k, _), some (.relaySessionEstablished _ _ (some id)) =>
      ((n.clients k).pending.lookup id).isSome
    | _, _ => true
  | _ => true

theorem repliesAwaited_sound (tr : List Label) (n : Network) (l : Label)
    (h : repliesAwaited tr n l = true) : RepliesAwaited tr n l := by
  cases l with
  | deliver t =>
    intro k w sid peer id hlink hmsg
    simp only [repliesAwaited, hlink, hmsg] at h
    exact Option.isSome_iff_exists.mp h
  | _ => trivial

/-- A client of the key `a` registers, a peer `b` joins, and the client requests a session with it;
the reply is on the wire. -/
def requested : List NetworkScripts.Cue :=
  NetworkScripts.registers 'a' 0 0 ++ [.deliver 0] ++ (Scripts.joins 1 'b').map .broker ++
    NetworkScripts.asks 'a' 0 0 1 (.requestRelay (Crates.keyText 'b')) ++
    NetworkScripts.performs 0 5 ++ [.drain 0]

/-- The peer accepts, and the message about it is on the wire. -/
def accepted : List NetworkScripts.Cue :=
  [.broker (.say 1 'b' (.acceptRelay (Crates.keyText 'b')
      (Crates.demo.uuidText Scripts.calm.uuid) 0 (Crates.signatureText 'b') none))] ++
    NetworkScripts.performs 1 5 ++ [.drain 0]

theorem accepted_played :
    (NetworkScripts.play false NetworkScripts.signers repliesAwaited
        (requested ++ [.deliver 0] ++ accepted ++ [.deliver 0]) []
        (.start DatabaseCalls.emptyDb)).map (fun x => (x.2.clients 0).dispatched) =
      some [.relaySessionEstablished (Crates.demo.uuidText Scripts.calm.uuid) (Crates.keyText 'b')
        none] := by
  decide +kernel

theorem accepted_heard_after_consent : ∃ tr n,
    (n.clients 0).dispatched = [.relaySessionEstablished (Crates.demo.uuidText Scripts.calm.uuid)
      (Crates.keyText 'b') none] ∧
    Reaches (Moves Crates.demo false NetworkScripts.signers)
      (HeardAfterConsent Crates.demo false NetworkScripts.signers DatabaseCalls.emptyDb)
      (.start DatabaseCalls.emptyDb) tr n := by
  obtain ⟨⟨tr, n⟩, hplay, hheard⟩ := Option.map_eq_some_iff.mp accepted_played
  have hreaches : Reaches (Moves Crates.demo false NetworkScripts.signers) RepliesAwaited
      (.start DatabaseCalls.emptyDb) tr n :=
    NetworkScripts.reaches_of_play false _ repliesAwaited_sound .start hplay
  exact ⟨tr, n, hheard, listeners_hear_after_consent hreaches⟩

def promotesNothing : BrokerEvent → Bool
  | .performed _ (.relay (.promote _ _)) (.ok _) => false
  | _ => true

/-- The request has timed out when its reply arrives. -/
theorem requested_played :
    ((NetworkScripts.play false NetworkScripts.signers (fun _ _ _ => true)
        (requested ++ [.client 0 (.timeout 1)]) [] (.start DatabaseCalls.emptyDb)).bind fun x =>
      (NetworkScripts.cue false NetworkScripts.signers x.2 (.deliver 0)).map fun y =>
        ((brokerTrace x.1).all promotesNothing, (x.2.clients 0).dispatched,
          (y.2.clients 0).dispatched)) =
      some (true, [], [.relaySessionEstablished (Crates.demo.uuidText Scripts.calm.uuid)
        (Crates.keyText 'b') (some (requestIdText ClientSockets.epoch 2))]) := by
  decide +kernel

/-- The listeners hear of a session that nobody has accepted. -/
theorem late_reply_heard : ∃ tr n,
    Reaches (Moves Crates.demo false NetworkScripts.signers) (fun _ _ _ => True)
      (.start DatabaseCalls.emptyDb) tr n ∧
    ¬ HeardAfterConsent Crates.demo false NetworkScripts.signers DatabaseCalls.emptyDb tr n
      (.deliver 0) := by
  obtain ⟨⟨tr, n⟩, hplay, hlast⟩ := Option.bind_eq_some_iff.mp requested_played
  obtain ⟨⟨l, n'⟩, hdeliver, heq⟩ := Option.map_eq_some_iff.mp hlast
  simp only [Prod.mk.injEq] at heq
  obtain ⟨hnone, hbefore, hafter⟩ := heq
  have hmove := NetworkScripts.moves_of_cue hdeliver
  obtain rfl : l = .deliver 0 := NetworkScripts.label_of_deliver hdeliver
  refine ⟨tr, n, NetworkScripts.reaches_of_play false _ (fun _ _ _ _ => trivial) .start hplay, ?_⟩
  intro hconsent
  obtain ⟨i, A, B, -, t, tr₁, tr₂, σ, text, now, htrace, -, -⟩ :=
    hconsent n' 0 _ _ _ hmove (by rw [hafter, hbefore])
  rw [htrace] at hnone
  simp [promotesNothing] at hnone

end HashedBroker.ConsentEvents
