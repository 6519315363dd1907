import HashedBroker.SessionDeliveries
import HashedBroker.ConsentEvents

/-!
# From client to client

A signal or a relay frame of a client goes through its socket, the session of its connection, the
channel of another session, the wire and the listeners of the client there. What those listeners
hear from a session are messages of distinct calls of its client, in the order in which the calls
were transmitted, with the payload of the call and the key of its client, and for the key of the
client that hears them.
-/
namespace HashedBroker.EndToEnd
open ReactiveTasks Protocol ClientSigning Server Sessions BrokerClient LabelledRuns ArrivalOrder
open Deliveries KeyLimits ReplyOrigins ClientNetwork Correlation SessionDeliveries

/-! ## What a client transmits -/

/-- The calls whose messages a socket has transmitted, the newest first, each of them once. -/
structure Transmits (opts : Options) (c : Client) (w : ℕ) (calls : List ℕ) : Prop where
  distinct : calls.Nodup
  frames : List.Forall₂ (fun s i => ∃ x, c.calls i = some x ∧ c.sentOn i = some w ∧
    Client.frameText opts x = some s) (c.outbox w) calls

section Transmissions

variable {opts : Options} {c c' : Client} {w : ℕ} {calls : List ℕ}

theorem Transmits.of_same (h : Transmits opts c w calls) (houtbox : c'.outbox w = c.outbox w)
    (hcalls : ∀ i x, c.calls i = some x → c'.calls i = some x)
    (hsent : ∀ i v, c.sentOn i = some v → c'.sentOn i = some v) : Transmits opts c' w calls := by
  refine ⟨h.distinct, ?_⟩
  rw [houtbox]
  refine h.frames.imp ?_
  rintro s i ⟨x, hx, hi, htext⟩
  exact ⟨x, hcalls i x hx, hsent i w hi, htext⟩

theorem Transmits.settleCall (h : Transmits opts c w calls) (i : ℕ) (x : Result) :
    Transmits opts (c.settleCall i x) w calls := by
  obtain ⟨results, heq⟩ := c.settleCall_eq i x
  rw [heq]
  exact h.of_same rfl (fun _ _ hx => hx) fun _ _ hi => hi

theorem Transmits.send (h : Transmits opts c w calls) {i : ℕ} {x : Call} {text : String}
    (hx : c.calls i = some x) (hunsent : c.sentOn i = none)
    (htext : Client.frameText opts x = some text) (hsend : c.send i text = .ok c') :
    ∃ calls', Transmits opts c' w calls' := by
  have hkept : ∀ v j u, c.sentOn j = some u → Function.update c.sentOn i (some v) j = some u := by
    intro v j u hj
    have hji : j ≠ i := by
      rintro rfl
      rw [hunsent] at hj
      cases hj
    rw [Function.update_of_ne hji, hj]
  unfold Client.send at hsend
  split at hsend
  · cases hsend
  · rename_i v hws
    split at hsend
    · cases hsend
    · cases hsend
      by_cases hw : w = v
      · subst hw
        refine ⟨i :: calls, ?_, ?_⟩
        · refine List.nodup_cons.mpr ⟨fun hmem => ?_, h.distinct⟩
          obtain ⟨s, -, y, -, hi, -⟩ := forall₂_right h.frames hmem
          rw [hunsent] at hi
          cases hi
        · simp only [Function.update_self]
          refine .cons ⟨x, hx, Function.update_self _ _ _, htext⟩ (h.frames.imp ?_)
          rintro s j ⟨y, hy, hj, hytext⟩
          exact ⟨y, hy, hkept w j w hj, hytext⟩
      · exact ⟨calls, h.of_same (Function.update_of_ne hw _ _) (fun _ _ hy => hy)
          fun j u hj => hkept v j u hj⟩
    · cases hsend
      exact ⟨calls, h.of_same rfl (fun _ _ hy => hy) fun j u hj => hkept v j u hj⟩

theorem Transmits.transmit (h : Transmits opts c w calls) {i : ℕ} {x : Call} {text : String}
    (hx : c.calls i = some x) (hunsent : c.sentOn i = none)
    (htext : Client.frameText opts x = some text) :
    ∃ calls', Transmits opts (c.transmit i x text) w calls' := by
  unfold Client.transmit
  split
  · split
    · rename_i c₁ hsend
      obtain ⟨calls', h'⟩ := h.send hx hunsent htext hsend
      exact ⟨calls', h'.settleCall i _⟩
    · exact ⟨calls, h.settleCall i _⟩
  · rename_i type _
    have hentry : Transmits opts { c with
        pending := c.pending.insert (x.requestId.getD "") ⟨i, type⟩
        timers := Function.update c.timers i true } w calls :=
      h.of_same rfl (fun _ _ hy => hy) fun _ _ hj => hj
    simp only
    split
    · rename_i c₁ hsend
      exact hentry.send hx hunsent htext hsend
    · exact ⟨calls, hentry.settleCall i _⟩

theorem Transmits.step (h : Transmits opts c w calls) (hok : CallsOk opts c)
    {a : BrokerClient.Action} (hs : c.step opts a = some c') :
    ∃ calls', Transmits opts c' w calls' := by
  have hbuild : ∀ request nowSecs now, Transmits opts (c.build request nowSecs now) w calls := by
    intro request nowSecs now
    refine h.of_same rfl (fun i x hx => ?_) fun _ _ hi => hi
    simp only [Client.build, Function.update_of_ne (hok.counted i x hx).ne, hx]
  have hsame : ∀ {c₁ : Client}, c₁.outbox = c.outbox → c₁.calls = c.calls →
      c₁.sentOn = c.sentOn → Transmits opts c₁ w calls := by
    intro c₁ houtbox hcalls hsent
    refine h.of_same (congrFun houtbox w) (fun i x hx => ?_) fun i v hi => ?_
    · rw [hcalls, hx]
    · rw [hsent, hi]
  cases Client.effect_of_step hs with
  | sockets => exact ⟨calls, hsame rfl rfl rfl⟩
  | started request nowSecs now =>
    exact ⟨calls, (hbuild request nowSecs now).of_same rfl (fun _ _ hx => hx) fun _ _ hi => hi⟩
  | refused request nowSecs now => exact ⟨calls, (hbuild request nowSecs now).settleCall _ _⟩
  | @transmitted i x text made signing signed =>
    have hunsent : c.sentOn i = none := by
      cases hsent : c.sentOn i with
      | none => rfl
      | some v =>
        rw [(hok.sent i v hsent).1] at signing
        cases signing
    have hsigned : Transmits opts { c with signing := Function.update c.signing i false } w calls :=
      hsame rfl rfl rfl
    exact hsigned.transmit made hunsent signed
  | notSigned =>
    refine ⟨calls, Transmits.settleCall ?_ _ _⟩
    exact hsame rfl rfl rfl
  | timedOut =>
    refine ⟨calls, Transmits.settleCall ?_ _ _⟩
    exact hsame rfl rfl rfl
  | closed => exact ⟨calls, hsame rfl rfl rfl⟩
  | answered =>
    refine ⟨calls, Transmits.settleCall ?_ _ _⟩
    exact hsame rfl rfl rfl
  | dispatched => exact ⟨calls, hsame rfl rfl rfl⟩

theorem transmits {crates : Crates} {hasDb : Bool} {opts : ℕ → Options} {db₀ : Database.Db ℕ}
    {C : List Label → Network → Label → Prop} {tr : List Label} {n : Network}
    (h : Reaches (Moves crates hasDb opts) C (.start db₀) tr n) (k w : ℕ) :
    ∃ calls, Transmits (opts k) (n.clients k) w calls := by
  refine (clients_invariant (I := fun k c => CallsOk (opts k) c ∧
    ∀ w, ∃ calls, Transmits (opts k) c w calls) h ?_ ?_ k).2 w
  · exact fun k => ⟨callsOk_new, fun w => ⟨[], List.nodup_nil, .nil⟩⟩
  · rintro k c a c' ⟨hok, htransmits⟩ hs
    refine ⟨hok.step hs, fun w => ?_⟩
    obtain ⟨calls, hcalls⟩ := htransmits w
    exact hcalls.step hok hs

end Transmissions

/-! ## The frames of a client -/

def typeOf : Request → String
  | .register .. => "register"
  | .lookupPeer .. => "lookup_peer"
  | .lookupHandle .. => "lookup_handle"
  | .sendSignal .. => "signal"
  | .subscribePresence .. => "subscribe_presence"
  | .unsubscribePresence .. => "unsubscribe_presence"
  | .requestRelay .. => "request_relay"
  | .acceptRelay .. => "accept_relay"
  | .sendRelayFrame .. => "relay"
  | .announceTeam .. => "team_announce"
  | .lookupTeam .. => "team_lookup"
  | .ping => "ping"

/-- The message that a call is for, between the keys of two clients. -/
def Conveys (crates : Crates) (tr : List BrokerEvent) (t : ℕ) (sender hearer : String)
    (m : ServerMessage) : Request → Prop
  | .sendSignal recipient payload => recipient = hearer ∧ ∃ stamp, m = .signal sender payload stamp
  | .sendRelayFrame sessionId data => ∃ id s, Relay.parseSessionId crates sessionId = .ok id ∧
    m = .relayData (crates.uuidText id) sender data ∧
    Had t tr (.relay (.getSession id)) (some s) ∧ s.other sender = .ok hearer
  | _ => False

section Frames

variable {crates : Crates} {opts : Options} {x : Call} {s : String} {msg : ClientMessage}
  {ms : List (String × JsonText.Json)} {tag name u v : String}

theorem string_of_kept (h : Kept ms tag name (some (.str v)))
    (hm : member ms name = some (some (.str u))) (ha : name ≠ "addresses") : v = u := by
  obtain ⟨o, ho, hiff⟩ := h
  rw [hm] at ho
  cases ho
  have hrestated : Restated tag name (some (.str u)) :=
    ⟨by simp, fun _ hname => absurd hname ha, fun _ _ w hw => ⟨u, (Option.some.inj hw).symm⟩⟩
  simpa [SortedMembers.sorted] using hiff.mpr hrestated

theorem ofJson_of_fromStr (hstamp : |x.timestamp| < 2 ^ 53)
    (htext : Client.frameText opts x = some s)
    (h : ClientMessage.fromStr crates.finite s = some msg) :
    ClientMessage.ofJson (.obj (Client.signedMembers opts x)) = some msg := by
  rwa [ClientMessage.fromStr, parse_frameText hstamp htext] at h

theorem member_pubkey : member (Client.signedMembers opts x) "pubkey" =
    some (some (.str opts.pubkeyHex)) := by
  obtain ⟨request, timestamp, requestId⟩ := x
  cases request with
  | register handle addresses =>
    cases handle <;> simp [Client.signedMembers, Request.signed, Request.members, member]
  | announceTeam teamId teamName adminPubkey adminSignature =>
    cases teamId <;> simp [Client.signedMembers, Request.signed, Request.members, member]
  | _ => simp [Client.signedMembers, Request.signed, Request.members, member]

theorem pubkey_of_frame (h : ClientMessage.ofJson (.obj (Client.signedMembers opts x)) = some msg) :
    msg.pubkey = opts.pubkeyHex := by
  refine string_of_kept ((ofJson_kept h).2 ("pubkey", some (.str msg.pubkey)) ?_ (by simp))
    member_pubkey (by simp)
  cases msg <;> simp [ClientMessage.fields, ClientMessage.pubkey]

theorem type_of_frame (h : ClientMessage.ofJson (.obj (Client.signedMembers opts x)) = some msg) :
    msg.tag = typeOf x.request := by
  have htype := (ofJson_kept h).1
  obtain ⟨request, timestamp, requestId⟩ := x
  cases request with
  | register handle addresses =>
    cases handle <;> simpa [Client.signedMembers, Request.signed, Request.members, member,
      typeOf, eq_comm] using htype
  | announceTeam teamId teamName adminPubkey adminSignature =>
    cases teamId <;> simpa [Client.signedMembers, Request.signed, Request.members, member,
      typeOf, eq_comm] using htype
  | _ =>
    simpa [Client.signedMembers, Request.signed, Request.members, member, typeOf,
      eq_comm] using htype

theorem conveys_of_addresses {tr : List BrokerEvent} {t r : ℕ} {pk hearer : String}
    {m : ServerMessage} (h : ClientMessage.ofJson (.obj (Client.signedMembers opts x)) = some msg)
    (hm : Addresses crates (Had t tr) pk r m msg) (hpk : msg.pubkey = pk)
    (hfound : ∀ target peer, Had t tr (.registry (.getPeer target)) (some peer) → peer.tx = r →
      target = hearer) : Conveys crates tr t opts.pubkeyHex hearer m x.request := by
  have htype := type_of_frame h
  have hfields := (ofJson_kept h).2
  obtain rfl : pk = opts.pubkeyHex := hpk.symm.trans (pubkey_of_frame h)
  obtain ⟨request, timestamp, requestId⟩ := x
  cases msg with
  | signal sender recipient payload stamp signature rid =>
    obtain ⟨⟨clock, rfl⟩, peer, hpeer, htx⟩ := hm
    have hto := hfields ("to", some (.str recipient)) (by simp [ClientMessage.fields]) (by simp)
    have hpayload := hfields ("payload", some (.str payload)) (by simp [ClientMessage.fields])
      (by simp)
    cases request with
    | sendSignal recipient' payload' =>
      obtain rfl := string_of_kept hto (u := recipient') (by
        simp [Client.signedMembers, Request.signed, Request.members, member]) (by simp)
      obtain rfl := string_of_kept hpayload (u := payload') (by
        simp [Client.signedMembers, Request.signed, Request.members, member]) (by simp)
      exact ⟨hfound _ peer hpeer htx, clock, rfl⟩
    | _ => simp [ClientMessage.tag, typeOf] at htype
  | relay sender sessionId data stamp signature =>
    obtain ⟨id, entry, other, peer, hid, rfl, hentry, hother, hpeer, htx⟩ := hm
    have hsession := hfields ("session_id", some (.str sessionId)) (by simp [ClientMessage.fields])
      (by simp)
    have hdata := hfields ("data", some (.str data)) (by simp [ClientMessage.fields]) (by simp)
    cases request with
    | sendRelayFrame sessionId' data' =>
      obtain rfl := string_of_kept hsession (u := sessionId') (by
        simp [Client.signedMembers, Request.signed, Request.members, member]) (by simp)
      obtain rfl := string_of_kept hdata (u := data') (by
        simp [Client.signedMembers, Request.signed, Request.members, member]) (by simp)
      obtain rfl := hfound _ peer hpeer htx
      exact ⟨id, entry, hid, rfl, hentry, hother⟩
    | _ => simp [ClientMessage.tag, typeOf] at htype
  | _ => exact hm.elim

end Frames

/-! ## The wires -/

section Outbox

variable {opts : Options} {c c' : Client} {w : ℕ}

theorem outbox_settleCall (c : Client) (i : ℕ) (x : Result) :
    (c.settleCall i x).outbox = c.outbox := by
  obtain ⟨results, heq⟩ := c.settleCall_eq i x
  rw [heq]

theorem outbox_send {i : ℕ} {text : String} (hsend : c.send i text = .ok c') :
    c.outbox w <:+ c'.outbox w := by
  unfold Client.send at hsend
  split at hsend
  · cases hsend
  · rename_i v hws
    split at hsend
    · cases hsend
    · cases hsend
      by_cases hw : w = v
      · subst hw
        simp only [Function.update_self]
        exact List.suffix_cons text _
      · simp only [Function.update_of_ne hw]
        exact List.suffix_rfl
    · cases hsend
      exact List.suffix_rfl

theorem outbox_transmit (c : Client) (i : ℕ) (x : Call) (text : String) :
    c.outbox w <:+ (c.transmit i x text).outbox w := by
  unfold Client.transmit
  split
  · split
    · rename_i c₁ hsend
      rw [outbox_settleCall]
      exact outbox_send hsend
    · rw [outbox_settleCall]
  · simp only
    split
    · rename_i c₁ hsend
      exact outbox_send (c := { c with
        pending := c.pending.insert (x.requestId.getD "") ⟨i, _⟩
        timers := Function.update c.timers i true }) hsend
    · rw [outbox_settleCall]

theorem outbox_step {a : BrokerClient.Action} (hs : c.step opts a = some c') :
    c.outbox w <:+ c'.outbox w := by
  cases Client.effect_of_step hs with
  | sockets => exact List.suffix_rfl
  | started => exact List.suffix_rfl
  | refused =>
    rw [outbox_settleCall]
    exact List.suffix_rfl
  | @transmitted i x text =>
    exact outbox_transmit { c with signing := Function.update c.signing i false } i x text
  | notSigned =>
    rw [outbox_settleCall]
  | timedOut =>
    rw [Client.timeout, outbox_settleCall]
  | closed => exact List.suffix_rfl
  | answered =>
    rw [outbox_settleCall]
  | dispatched => exact List.suffix_rfl

end Outbox

/-- What the connections have been given is what the sockets transmitted first. -/
structure Wires (tr : List Label) (n : Network) : Prop where
  counted : ∀ t, n.taken t = (texts t (brokerTrace tr)).length
  taken : ∀ t k w, n.link t = some (k, w) → texts t (brokerTrace tr) <:+ (n.clients k).outbox w

section Wires

variable {crates : Crates} {hasDb : Bool} {opts : ℕ → Options} {db₀ : Database.Db ℕ}
  {C : List Label → Network → Label → Prop} {tr : List Label} {n : Network}

theorem Wires.of_broker {e : BrokerEvent} {σ : BrokerConfig} (h : Wires tr n) (hwired : n.Wired e) :
    Wires (.broker e :: tr) { n.afterEvent e with broker := σ } := by
  have htrace : brokerTrace (.broker e :: tr) = e :: brokerTrace tr := rfl
  -- an event that gives no text
  have hsame : (n.afterEvent e).taken = n.taken → (∀ t, texts t (e :: brokerTrace tr) =
      texts t (brokerTrace tr)) → Wires (.broker e :: tr) { n.afterEvent e with broker := σ } := by
    intro htaken htexts
    obtain ⟨hclients, hlink, -⟩ := afterEvent_eq n e
    refine ⟨fun t => ?_, fun t k w ht => ?_⟩
    · rw [htrace, htexts]
      exact (congrFun htaken t).trans (h.counted t)
    · rw [htrace, htexts]
      simp only [hclients]
      exact h.taken t k w (by rw [← hlink]; exact ht)
  cases e with
  | input u i =>
    cases i with
    | connect addr => exact hsame rfl fun t => by simp [texts_input, frameText]
    | frame f now =>
      cases f with
      | text s =>
        refine ⟨fun t => ?_, fun t k w ht => ?_⟩
        · rw [htrace, texts_input]
          simp only [Network.afterEvent]
          by_cases htu : t = u
          · subst htu
            rw [Function.update_self, if_pos rfl, h.counted t]
            simp [frameText]
          · rw [Function.update_of_ne htu, if_neg (Ne.symm htu)]
            exact h.counted t
        · rw [htrace, texts_input]
          have hlink : n.link t = some (k, w) := ht
          have hold := h.taken t k w hlink
          split_ifs with htu
          · subst htu
            simp only [Network.Wired, hlink, h.counted] at hwired
            exact suffix_cons_of_next hold hwired
          · exact hold
      | _ => exact hsame rfl fun t => by simp [texts_input, frameText]
  | performed u o a => exact hsame rfl fun t => texts_performed t u o a _
  | disturbed x =>
    cases x <;> exact hsame rfl fun t => rfl

theorem Wires.of_client {l : Label} {k : ℕ} {a : BrokerClient.Action} {c : Client} (h : Wires tr n)
    (hl : l.brokerEvent = none) (hs : (n.clients k).step (opts k) a = some c) :
    Wires (l :: tr) (n.withClient k c) := by
  have htrace : brokerTrace (l :: tr) = brokerTrace tr := List.filterMap_cons_none hl
  refine ⟨fun t => by rw [htrace]; exact h.counted t, fun t j w ht => ?_⟩
  rw [htrace]
  have hold := h.taken t j w ht
  by_cases hj : j = k
  · subst hj
    simp only [Network.withClient, Function.update_self]
    exact hold.trans (outbox_step hs)
  · simp only [Network.withClient, Function.update_of_ne hj]
    exact hold

theorem wires (h : Reaches (Moves crates hasDb opts) C (.start db₀) tr n) : Wires tr n := by
  refine h.invariant (I := fun tr n => Wires tr n) ⟨fun _ => rfl, nofun⟩ ?_
  intro tr n l n' hprior hinv hmove _
  cases hmove with
  | broker _ wired => exact hinv.of_broker wired
  | @accept u k w new _ _ _ _ =>
    refine ⟨hinv.counted, fun t k' w' ht => ?_⟩
    by_cases htu : t = u
    · subst htu
      have hnone : texts t (brokerTrace tr) = [] := by
        have hlog : taskLog t (brokerTrace tr) = [] := by
          rw [List.eq_nil_iff_forall_not_mem]
          rintro ⟨i, hist⟩ hmem
          exact no_input_of_absent (broker_run hprior) new
            (mem_inputs_taskLog.mp (List.mem_map_of_mem hmem))
        rw [texts, hlog]
        rfl
      rw [show brokerTrace (.accept t k w :: tr) = brokerTrace tr from rfl, hnone]
      exact List.nil_suffix
    · simp only [Network.withLink, Function.update_of_ne htu] at ht
      exact hinv.taken t k' w' ht
  | client _ next => exact hinv.of_client rfl next
  | deliver _ _ next =>
    obtain ⟨hcounted, htaken⟩ := hinv.of_client (l := .deliver _) rfl next
    exact ⟨hcounted, htaken⟩

end Wires

/-! ## What the listeners hear -/

/-- The signals and the data that the listeners of a client have heard, the newest first, each with
the connection it came from and the session that had enqueued it there. -/
structure Heard (tr : List Label) (n : Network) (j : ℕ)
    (heard : List (ℕ × ℕ × ServerMessage)) : Prop where
  listened : heard.map (fun x => x.2.2) = (n.clients j).dispatched.filter isDelivery
  wired : ∀ x ∈ heard, ∃ v, n.link x.1 = some (j, v)
  arrived : ∀ r v, n.link r = some (j, v) → (heard.filter (fun x => x.1 = r)).map Prod.snd =
    ((enqueued r (brokerTrace tr)).rtake (n.received r)).filter (fun x => isDelivery x.2)

/-- What has arrived has been enqueued, at connections that have a client. -/
structure Arrivals (tr : List Label) (n : Network) : Prop where
  enqueued : ∀ r, n.received r ≤ (enqueued r (brokerTrace tr)).length
  unlinked : ∀ r, n.link r = none → n.received r = 0
  heard : ∀ j, ∃ heard, Heard tr n j heard

section Listeners

variable {crates : Crates} {hasDb : Bool} {opts : ℕ → Options} {db₀ : Database.Db ℕ}
  {C : List Label → Network → Label → Prop} {tr : List Label} {n : Network}

theorem enqueued_cons (r : ℕ) (e : BrokerEvent) (tr : List BrokerEvent) :
    ∃ new, enqueued r (e :: tr) = new ++ enqueued r tr := by
  cases e with
  | performed t o a =>
    cases o with
    | send c msg =>
      simp only [enqueued]
      split_ifs
      · exact ⟨[(t, msg)], rfl⟩
      · exact ⟨[], rfl⟩
    | _ => exact ⟨[], rfl⟩
  | _ => exact ⟨[], rfl⟩

theorem Arrivals.of_broker {e : BrokerEvent} {σ : BrokerConfig} (h : Arrivals tr n) :
    Arrivals (.broker e :: tr) { n.afterEvent e with broker := σ } := by
  obtain ⟨hclients, hlink, hreceived⟩ := afterEvent_eq n e
  have hsame : ∀ r, (Deliveries.enqueued r (brokerTrace (.broker e :: tr))).rtake (n.received r) =
      (Deliveries.enqueued r (brokerTrace tr)).rtake (n.received r) ∧
      n.received r ≤ (Deliveries.enqueued r (brokerTrace (.broker e :: tr))).length := by
    intro r
    obtain ⟨new, hnew⟩ := enqueued_cons r e (brokerTrace tr)
    rw [show brokerTrace (.broker e :: tr) = e :: brokerTrace tr from rfl, hnew]
    refine ⟨rtake_append new (h.enqueued r), ?_⟩
    rw [List.length_append]
    exact le_add_left (h.enqueued r)
  refine ⟨fun r => ?_, fun r hr => ?_, fun j => ?_⟩
  · simp only [hreceived]
    exact (hsame r).2
  · simp only [hreceived]
    exact h.unlinked r (hlink ▸ hr)
  · obtain ⟨heard, hheard⟩ := h.heard j
    refine ⟨heard, ?_, fun x hx => ?_, fun r v hr => ?_⟩
    · simp only [hclients]
      exact hheard.listened
    · simp only [hlink]
      exact hheard.wired x hx
    · simp only [hreceived]
      rw [(hsame r).1]
      exact hheard.arrived r v (hlink ▸ hr)

theorem Arrivals.of_client {k : ℕ} {a : BrokerClient.Action} {c : Client} (h : Arrivals tr n)
    (hunprompted : Unprompted n k a) (hs : (n.clients k).step (opts k) a = some c) :
    Arrivals (.client k a :: tr) (n.withClient k c) := by
  refine ⟨h.enqueued, h.unlinked, fun j => ?_⟩
  obtain ⟨heard, hheard⟩ := h.heard j
  refine ⟨heard, ?_, hheard.wired, hheard.arrived⟩
  by_cases hj : j = k
  · subst hj
    simp only [Network.withClient, Function.update_self]
    rcases ConsentEvents.dispatched_of_step hs with hsame | ⟨w, msg, rfl, -, -⟩
    · rw [hsame]
      exact hheard.listened
    · exact hunprompted.elim
  · simp only [Network.withClient, Function.update_of_ne hj]
    exact hheard.listened

/-- The next message from a connection was enqueued by some session. -/
theorem enqueued_of_arriving
    (hrun : Run (broker crates hasDb) (fresh db₀) (brokerTrace tr) n.broker) {t : ℕ}
    {msg : ServerMessage} (hmsg : n.arriving t = some msg) :
    ∃ u, (enqueued t (brokerTrace tr)).reverse[n.received t]? = some (u, msg) := by
  unfold Network.arriving at hmsg
  split_ifs at hmsg
  rw [sent_eq_enqueued hrun, ← List.map_reverse, List.getElem?_map] at hmsg
  obtain ⟨⟨u, m⟩, hx, rfl⟩ := Option.map_eq_some_iff.mp hmsg
  exact ⟨u, hx⟩

/-- A message is heard when it arrives, unless it is neither a signal nor data. -/
theorem dispatched_of_message {opts : Options} {c c' : Client} {w : ℕ} {msg : ServerMessage}
    (hs : c.step opts (.message w msg) = some c') : c'.dispatched.filter isDelivery =
      [msg].filter isDelivery ++ c.dispatched.filter isDelivery := by
  rcases ConsentEvents.dispatched_of_step hs with hsame | ⟨w', msg', hmsg, -, hnew⟩
  · -- a message that is not heard is the reply to a request, which a delivery never is
    have hreply : isDelivery msg = false := by
      simp only [Client.step] at hs
      split_ifs at hs
      cases hs
      unfold Client.handleIncoming at hsame
      cases msg with
      | signal =>
        simp only [Client.routed, ServerMessage.requestId] at hsame
        exact absurd (congrArg List.length hsame) (by simp)
      | relayData =>
        simp only [Client.routed, ServerMessage.requestId] at hsame
        exact absurd (congrArg List.length hsame) (by simp)
      | _ => rfl
    rw [hsame, List.filter_cons_of_neg (by simp [hreply]), List.filter_nil, List.nil_append]
  · cases hmsg
    rw [hnew, ← List.filter_append, List.singleton_append]

theorem Arrivals.of_deliver {t k w : ℕ} {msg : ServerMessage} {c : Client} (h : Arrivals tr n)
    (hrun : Run (broker crates hasDb) (fresh db₀) (brokerTrace tr) n.broker)
    (hlink : n.link t = some (k, w)) (hmsg : n.arriving t = some msg)
    (hs : (n.clients k).step (opts k) (.message w msg) = some c) :
    Arrivals (.deliver t :: tr)
      { n.withClient k c with received := Function.update n.received t (n.received t + 1) } := by
  obtain ⟨u, hu⟩ := enqueued_of_arriving hrun hmsg
  have hlt : n.received t < (Deliveries.enqueued t (brokerTrace tr)).length := by
    rw [← List.length_reverse]
    exact (List.getElem?_eq_some_iff.mp hu).1
  have htrace : brokerTrace (.deliver t :: tr) = brokerTrace tr := rfl
  refine ⟨fun r => ?_, fun r hr => ?_, fun j => ?_⟩
  · rw [htrace]
    by_cases hrt : r = t
    · subst hrt
      simp only [Function.update_self]
      exact hlt
    · simp only [Function.update_of_ne hrt]
      exact h.enqueued r
  · have hrt : r ≠ t := by
      rintro rfl
      have hnone : n.link r = none := hr
      rw [hnone] at hlink
      cases hlink
    simp only [Function.update_of_ne hrt]
    exact h.unlinked r hr
  · obtain ⟨heard, hheard⟩ := h.heard j
    by_cases hj : j = k
    · subst hj
      refine ⟨[(t, u, msg)].filter (fun x => isDelivery x.2.2) ++ heard, ?_, fun x hx => ?_,
        fun r v hr => ?_⟩
      · simp only [Network.withClient, Function.update_self]
        rw [dispatched_of_message hs, List.map_append, hheard.listened]
        cases hd : isDelivery msg <;> simp [hd]
      · rcases List.mem_append.mp hx with hx | hx
        · obtain rfl := List.mem_singleton.mp (List.mem_of_mem_filter hx)
          exact ⟨w, hlink⟩
        · exact hheard.wired x hx
      · have hold := hheard.arrived r v hr
        rw [htrace]
        by_cases hrt : r = t
        · subst hrt
          simp only [Function.update_self]
          rw [rtake_succ hlt.le hu, List.filter_append, List.map_append, hold]
          cases hd : isDelivery msg <;> simp [hd]
        · simp only [Function.update_of_ne hrt]
          rw [List.filter_append, List.map_append, hold]
          cases hd : isDelivery msg <;> simp [hd, Ne.symm hrt]
    · refine ⟨heard, ?_, hheard.wired, fun r v hr => ?_⟩
      · simp only [Network.withClient, Function.update_of_ne hj]
        exact hheard.listened
      · have hrt : r ≠ t := by
          rintro rfl
          have hboth : n.link r = some (j, v) := hr
          rw [hlink] at hboth
          cases hboth
          exact hj rfl
        simp only [Function.update_of_ne hrt]
        exact hheard.arrived r v hr

theorem arrivals (h : Reaches (Moves crates hasDb opts) C (.start db₀) tr n) : Arrivals tr n := by
  refine h.invariant (I := fun tr n => Arrivals tr n)
    ⟨fun _ => le_rfl, fun _ _ => rfl, fun j => ⟨[], rfl, nofun, nofun⟩⟩ ?_
  intro tr n l n' hprior hinv hmove _
  cases hmove with
  | broker _ _ => exact hinv.of_broker
  | @accept u k w new unlinked _ _ _ =>
    refine ⟨hinv.enqueued, fun r hr => ?_, fun j => ?_⟩
    · by_cases hru : r = u
      · subst hru
        exact hinv.unlinked r unlinked
      · simp only [Network.withLink, Function.update_of_ne hru] at hr
        exact hinv.unlinked r hr
    · obtain ⟨heard, hheard⟩ := hinv.heard j
      have hfree : ∀ x ∈ heard, x.1 ≠ u := by
        intro x hx hxu
        obtain ⟨v, hv⟩ := hheard.wired x hx
        rw [hxu, unlinked] at hv
        cases hv
      refine ⟨heard, hheard.listened, fun x hx => ?_, fun r v hr => ?_⟩
      · obtain ⟨v, hv⟩ := hheard.wired x hx
        refine ⟨v, ?_⟩
        simp only [Network.withLink, Function.update_of_ne (hfree x hx)]
        exact hv
      · by_cases hru : r = u
        · subst hru
          have hnone : heard.filter (fun x => x.1 = r) = [] :=
            List.filter_eq_nil_iff.mpr fun x hx => by simp [hfree x hx]
          have hzero : n.received r = 0 := hinv.unlinked r unlinked
          rw [hnone, show (n.withLink r k w).received r = 0 from hzero, List.rtake_zero]
          rfl
        · simp only [Network.withLink, Function.update_of_ne hru] at hr
          exact hheard.arrived r v hr
  | client unprompted next => exact hinv.of_client unprompted next
  | deliver linked arrives next => exact hinv.of_deliver (broker_run hprior) linked arrives next

/-- A connection of a client is only found under the client's key. -/
theorem key_of_registersAs (h : Reaches (Moves crates hasDb opts) C (.start db₀) tr n) {r j v : ℕ}
    {s : String} (hlink : n.link r = some (j, v))
    (hreg : RegistersAs crates (brokerTrace tr) r s) : s = (opts j).pubkeyHex := by
  obtain ⟨f, now, text, msg, hfirst, hpayload, hauth, rfl⟩ := hreg
  obtain ⟨-, hsent⟩ := transmitted h r j v f now text hlink (mem_of_firstFrame hfirst) hpayload
  obtain ⟨i, x, hx, -, htext⟩ := (callsOk h j).outbox v text hsent
  have hparsed := (Authentication.authentic_of_authenticateRegister hauth).1.parsed
  exact pubkey_of_frame (ofJson_of_fromStr ((callsOk h j).stamped i x hx) htext hparsed)

/-- What a session of a client delivers to a connection of another is what calls of the client are
for, in the order in which the calls were transmitted. -/
theorem delivered_as_called (h : Reaches (Moves crates hasDb opts) C (.start db₀) tr n)
    {t r k j w v : ℕ} (hsender : n.link t = some (k, w)) (hhearer : n.link r = some (j, v)) :
    ∃ calls, Transmits (opts k) (n.clients k) w calls ∧
      List.SublistForall₂ (fun m i => ∃ x, (n.clients k).calls i = some x ∧
        Conveys crates (brokerTrace tr) t (opts k).pubkeyHex (opts j).pubkeyHex m x.request)
        (deliveredBy t r (brokerTrace tr)) calls := by
  have hrun := broker_run h
  obtain ⟨calls, hcalls⟩ := transmits h k w
  have hasked := delivered_as_asked hrun t r fun f now s hin hpayload =>
    (transmitted h t k w f now s hsender hin hpayload).1
  refine ⟨calls, hcalls, sublistForall₂_imp (sublistForall₂_comp
    (sublistForall₂_append hasked ((wires h).taken t k w hsender)) hcalls.frames) ?_⟩
  rintro m i ⟨text, ⟨pk, now, msg, hauth, hm⟩, x, hx, -, htext⟩
  have hauthentic := Authentication.authentic_of_authenticate hauth
  have hjson := ofJson_of_fromStr ((callsOk h k).stamped i x hx) htext hauthentic.parsed
  refine ⟨x, hx, conveys_of_addresses hjson hm hauthentic.sender ?_⟩
  rintro target peer hfound rfl
  exact key_of_registersAs h hhearer (registersAs_of_found hrun hfound)

/-- In every run of the broker with its clients: the signals and data that the listeners of a client
have heard came over its connections, each from the session that had enqueued it; and what came from
a session of another client are messages of distinct calls of that client, in the order in which
their socket transmitted them, with the payload and the session id of the call, the key of the
client that called, and the key of the one that hears them as the recipient or as the other party of
the relay session. -/
theorem listeners_hear_what_was_called
    (h : Reaches (Moves crates hasDb opts) (fun _ _ _ => True) (.start db₀) tr n) (j : ℕ) :
    ∃ heard, Heard tr n j heard ∧ ∀ t r k w v, n.link t = some (k, w) → n.link r = some (j, v) →
      ∃ calls, Transmits (opts k) (n.clients k) w calls ∧
        List.SublistForall₂ (fun m i => ∃ x, (n.clients k).calls i = some x ∧
          Conveys crates (brokerTrace tr) t (opts k).pubkeyHex (opts j).pubkeyHex m x.request)
          ((heard.filter fun x => x.1 = r ∧ x.2.1 = t).map fun x => x.2.2) calls := by
  obtain ⟨heard, hheard⟩ := (arrivals h).heard j
  refine ⟨heard, hheard, fun t r k w v hsender hhearer => ?_⟩
  obtain ⟨calls, hcalls, hdelivered⟩ := delivered_as_called h hsender hhearer
  refine ⟨calls, hcalls, sublistForall₂_of_sublist hdelivered ?_⟩
  -- what has arrived is what was enqueued first
  have harrived := congrArg (List.filter fun x : ℕ × ServerMessage => x.1 = t)
    (hheard.arrived r v hhearer)
  have hsplit : (heard.filter fun x => x.1 = r ∧ x.2.1 = t).map Prod.snd =
      ((heard.filter fun x => x.1 = r).map Prod.snd).filter fun x => x.1 = t := by
    rw [List.filter_map, List.filter_filter]
    congr 1
    refine List.filter_congr fun x _ => ?_
    simp [Bool.and_comm]
  have hmap : (heard.filter fun x => x.1 = r ∧ x.2.1 = t).map (fun x => x.2.2) =
      ((heard.filter fun x => x.1 = r ∧ x.2.1 = t).map Prod.snd).map Prod.snd := by
    rw [List.map_map]
    rfl
  rw [hmap, hsplit, harrived, List.filter_filter, deliveredBy]
  refine ((rtake_suffix _ _).sublist.filter _).map Prod.snd |>.trans ?_
  refine List.Sublist.map _ ?_
  rw [List.filter_congr fun x _ => ?_]
  simp

end Listeners

/-! ## A signal to another client -/

open NetworkScripts Crates

/-- Two clients join; the first signals the key of the second, which hears the signal. -/
def signalsOther : List Cue :=
  registers 'a' 0 0 ++ [.deliver 0] ++ registers 'b' 1 1 ++ [.deliver 1] ++
    asks 'a' 0 0 1 (.sendSignal (keyText 'b') "AAAA") ++ performs 0 7 ++ [.drain 1, .deliver 1]

theorem signalsOther_played :
    (play false twoSigners (fun _ _ _ => true) signalsOther [] (.start DatabaseCalls.emptyDb)).map
      (fun x => ((x.2.clients 1).dispatched, x.2.link 0, x.2.link 1)) =
      some ([.signal (keyText 'a') "AAAA" 0], some (0, 0), some (1, 0)) := by
  decide +kernel

theorem signal_heard : ∃ tr n heard calls,
    (n.clients 1).dispatched = [.signal (keyText 'a') "AAAA" 0] ∧ Heard tr n 1 heard ∧
    Transmits (twoSigners 0) (n.clients 0) 0 calls ∧
      List.SublistForall₂ (fun m i => ∃ x, (n.clients 0).calls i = some x ∧
        Conveys demo (brokerTrace tr) 0 (keyText 'a') (keyText 'b') m x.request)
        ((heard.filter fun x => x.1 = 1 ∧ x.2.1 = 0).map fun x => x.2.2) calls := by
  obtain ⟨⟨tr, n⟩, hp, heq⟩ := Option.map_eq_some_iff.mp signalsOther_played
  simp only [Prod.mk.injEq] at heq
  obtain ⟨hheard, hsender, hhearer⟩ := heq
  have hreaches : Reaches (Moves demo false twoSigners) (fun _ _ _ => True)
      (.start DatabaseCalls.emptyDb) tr n :=
    reaches_of_play false _ (fun _ _ _ _ => trivial) .start hp
  obtain ⟨heard, hlistened, hcalled⟩ := listeners_hear_what_was_called hreaches 1
  obtain ⟨calls, htransmits, hsub⟩ := hcalled 0 1 0 0 0 hsender hhearer
  exact ⟨tr, n, heard, calls, hheard, hlistened, htransmits, hsub⟩

end HashedBroker.EndToEnd
