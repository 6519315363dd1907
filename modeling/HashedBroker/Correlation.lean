import HashedBroker.NetworkScripts
import HashedBroker.DatabaseCalls

/-!
# Replies reach their own request

A client finds the request that a message settles by the message's `request_id`. The ids of a client
are distinct, since a counter goes into each, whatever the clock says and however often the client
reconnects. On the broker's side a message with an id is enqueued on the channel of the very session
that handles the frame with that id. So a request is settled by what its own frame has led to.
-/
namespace HashedBroker.Correlation
open KeyedTables ReactiveTasks Protocol ClientSigning Server Sessions BrokerClient LabelledRuns
open ReplyOrigins ClientNetwork

/-! ## Request ids -/

/-- What follows the last separator of a text. -/
theorem suffix_eq_of_separated {α : Type} {sep : α} {xs ys ds es : List α} (hd : sep ∉ ds)
    (he : sep ∉ es) (h : xs ++ sep :: ds = ys ++ sep :: es) : ds = es := by
  rcases List.append_eq_append_iff.mp h with ⟨as, rfl, hrest⟩ | ⟨as, rfl, hrest⟩
  · cases as with
    | nil => exact (List.cons.inj hrest).2
    | cons a as =>
      obtain ⟨-, rfl⟩ := List.cons.inj hrest
      exact absurd (List.mem_append_right as List.mem_cons_self) hd
  · cases as with
    | nil => exact (List.cons.inj hrest).2.symm
    | cons a as =>
      obtain ⟨-, rfl⟩ := List.cons.inj hrest
      exact absurd (List.mem_append_right as List.mem_cons_self) he

theorem requestIdText_injective {now now' : TimeValue} {n n' : ℕ}
    (h : requestIdText now n = requestIdText now' n') : n = n' := by
  have hdigits : ∀ m : ℕ, '-' ∉ (toString m).toList := by
    intro m hmem
    have hdigit : ('-').isDigit = true := by
      refine Nat.isDigit_of_mem_toDigits (n := m) (by norm_num : 0 < 10) (by norm_num) ?_
      simpa [Nat.repr] using hmem
    exact absurd hdigit (by decide)
  have hlist := congrArg String.toList h
  simp only [requestIdText, String.toList_append, List.append_assoc] at hlist
  have hsplit : ∀ (x : String) (m : ℕ), "req-".toList ++ (x.toList ++ ("-".toList ++
      (toString m).toList)) = ("req-".toList ++ x.toList) ++ '-' :: (toString m).toList := by
    intro x m
    simp
  rw [hsplit, hsplit] at hlist
  have htail := suffix_eq_of_separated (hdigits n) (hdigits n') hlist
  exact Nat.repr_injective (String.toList_injective htail)

theorem requestIdText_ne_empty (now : TimeValue) (n : ℕ) : requestIdText now n ≠ "" := by
  intro h
  have hlist := congrArg String.toList h
  simp [requestIdText] at hlist

/-! ## The calls of a client -/

/-- What a client's calls have to do with its pending requests and the frames of its sockets. -/
structure CallsOk (opts : Options) (c : Client) : Prop where
  counted : ∀ i x, c.calls i = some x → i < c.callCount
  minted : ∀ i x id, c.calls i = some x → x.requestId = some id →
    ∃ now m, id = requestIdText now m ∧ m ≤ c.nextRequestId
  distinct : ∀ i j x y id, c.calls i = some x → c.calls j = some y → x.requestId = some id →
    y.requestId = some id → i = j
  waits : ∀ i x, c.calls i = some x → (expectedType x.request).isSome = x.requestId.isSome
  stamped : ∀ i x, c.calls i = some x → |x.timestamp| < 2 ^ 53
  pending : ∀ id p, c.pending.lookup id = some p →
    ∃ x, c.calls p.call = some x ∧ x.requestId = some id
  sent : ∀ i w, c.sentOn i = some w → c.signing i = false ∧ i < c.callCount
  outbox : ∀ w s, s ∈ c.outbox w →
    ∃ i x, c.calls i = some x ∧ c.sentOn i = some w ∧ Client.frameText opts x = some s

section Calls

variable {opts : Options} {c c' : Client}

theorem callsOk_new : CallsOk opts .new := by
  constructor <;> intros <;> simp_all [Client.new]

theorem CallsOk.of_same (h : CallsOk opts c) (hcalls : c'.calls = c.calls)
    (hcount : c'.callCount = c.callCount) (hnext : c'.nextRequestId = c.nextRequestId)
    (hpending : ∀ id p, c'.pending.lookup id = some p → c.pending.lookup id = some p)
    (hsigning : ∀ i, c.signing i = false → c'.signing i = false)
    (hsent : c'.sentOn = c.sentOn) (houtbox : c'.outbox = c.outbox) : CallsOk opts c' := by
  constructor
  · rw [hcalls, hcount]
    exact h.counted
  · rw [hcalls, hnext]
    exact h.minted
  · rw [hcalls]
    exact h.distinct
  · rw [hcalls]
    exact h.waits
  · rw [hcalls]
    exact h.stamped
  · intro id p hp
    rw [hcalls]
    exact h.pending id p (hpending id p hp)
  · intro i w hi
    rw [hsent] at hi
    obtain ⟨hs, hlt⟩ := h.sent i w hi
    exact ⟨hsigning i hs, hcount ▸ hlt⟩
  · rw [hcalls, hsent, houtbox]
    exact h.outbox

theorem CallsOk.settleCall (h : CallsOk opts c) (i : ℕ) (x : Result) :
    CallsOk opts (c.settleCall i x) := by
  obtain ⟨results, heq⟩ := c.settleCall_eq i x
  rw [heq]
  exact h.of_same rfl rfl rfl (fun _ _ hp => hp) (fun _ hs => hs) rfl rfl

theorem nowSecs_lt (now : TimeValue) : |now.nowSecs| < 2 ^ 53 := by
  have hrange := abs_le.mp now.range
  rw [TimeValue.nowSecs, abs_lt]
  constructor <;> omega

theorem CallsOk.build (h : CallsOk opts c) (request : Request) (nowSecs now : TimeValue) :
    CallsOk opts (c.build request nowSecs now) := by
  have hid : ∀ {x : Call} {id : String}, (⟨request, nowSecs.nowSecs,
      if (expectedType request).isSome then some (requestIdText now (c.nextRequestId + 1))
      else none⟩ : Call) = x → x.requestId = some id →
      id = requestIdText now (c.nextRequestId + 1) ∧ (expectedType request).isSome := by
    rintro x id rfl hx
    simp only at hx
    split_ifs at hx with hwaits
    exact ⟨(Option.some.inj hx).symm, hwaits⟩
  -- the new id differs from those minted so far by its counter
  have hfresh : ∀ {j y id}, c.calls j = some y → y.requestId = some id →
      id ≠ requestIdText now (c.nextRequestId + 1) := by
    intro j y id hy hyid heq
    obtain ⟨now', m, hm, hle⟩ := h.minted j y id hy hyid
    have := requestIdText_injective (hm.symm.trans heq)
    omega
  have hcases : ∀ {i x}, (c.build request nowSecs now).calls i = some x →
      c.calls i = some x ∧ i < c.callCount ∨ i = c.callCount ∧ (⟨request, nowSecs.nowSecs,
        if (expectedType request).isSome then some (requestIdText now (c.nextRequestId + 1))
        else none⟩ : Call) = x := by
    intro i x hx
    simp only [Client.build] at hx
    by_cases hi : i = c.callCount
    · subst hi
      rw [Function.update_self] at hx
      exact Or.inr ⟨rfl, Option.some.inj hx⟩
    · rw [Function.update_of_ne hi] at hx
      exact Or.inl ⟨hx, h.counted i x hx⟩
  have hold : ∀ {i x}, c.calls i = some x → (c.build request nowSecs now).calls i = some x := by
    intro i x hx
    have hi : i ≠ c.callCount := (h.counted i x hx).ne
    simp only [Client.build, Function.update_of_ne hi, hx]
  constructor
  · intro i x hx
    rcases hcases hx with ⟨-, hlt⟩ | ⟨rfl, -⟩
    · exact Nat.lt_succ_of_lt hlt
    · exact Nat.lt_succ_self _
  · intro i x id hx hxid
    rcases hcases hx with ⟨hx, -⟩ | ⟨-, heq⟩
    · obtain ⟨now', m, hm, hle⟩ := h.minted i x id hx hxid
      refine ⟨now', m, hm, ?_⟩
      simp only [Client.build]
      split_ifs <;> omega
    · obtain ⟨hnew, hwaits⟩ := hid heq hxid
      exact ⟨now, _, hnew, by simp [Client.build, hwaits]⟩
  · intro i j x y id hx hy hxid hyid
    rcases hcases hx with ⟨hx, -⟩ | ⟨rfl, hxnew⟩
    · rcases hcases hy with ⟨hy, -⟩ | ⟨rfl, hynew⟩
      · exact h.distinct i j x y id hx hy hxid hyid
      · exact absurd (hid hynew hyid).1 (hfresh hx hxid)
    · rcases hcases hy with ⟨hy, -⟩ | ⟨rfl, -⟩
      · exact absurd (hid hxnew hxid).1 (hfresh hy hyid)
      · rfl
  · intro i x hx
    rcases hcases hx with ⟨hx, -⟩ | ⟨-, rfl⟩
    · exact h.waits i x hx
    · simp only
      split_ifs with hwaits
      · simpa using hwaits
      · simpa using hwaits
  · intro i x hx
    rcases hcases hx with ⟨hx, -⟩ | ⟨-, rfl⟩
    · exact h.stamped i x hx
    · exact nowSecs_lt nowSecs
  · intro id p hp
    obtain ⟨x, hx, hxid⟩ := h.pending id p hp
    exact ⟨x, hold hx, hxid⟩
  · intro i w hi
    obtain ⟨hs, hlt⟩ := h.sent i w hi
    exact ⟨hs, Nat.lt_succ_of_lt hlt⟩
  · intro w s hs
    obtain ⟨i, x, hx, hi, htext⟩ := h.outbox w s hs
    exact ⟨i, x, hold hx, hi, htext⟩

theorem CallsOk.send (h : CallsOk opts c) {i : ℕ} {x : Call} {text : String}
    (hx : c.calls i = some x) (hunsent : c.sentOn i = none) (hsigned : c.signing i = false)
    (htext : Client.frameText opts x = some text) (hsend : c.send i text = .ok c') :
    CallsOk opts c' := by
  have hkept : ∀ {j w v}, c.sentOn j = some w →
      Function.update c.sentOn i (some v) j = some w := by
    intro j w v hj
    have hji : j ≠ i := by
      rintro rfl
      rw [hunsent] at hj
      cases hj
    rw [Function.update_of_ne hji, hj]
  have hsent : ∀ v j w, Function.update c.sentOn i (some v) j = some w →
      c.signing j = false ∧ j < c.callCount := by
    intro v j w hj
    by_cases hji : j = i
    · subst hji
      exact ⟨hsigned, h.counted j x hx⟩
    · rw [Function.update_of_ne hji] at hj
      exact h.sent j w hj
  unfold Client.send at hsend
  split at hsend
  · cases hsend
  · rename_i v hws
    split at hsend
    · cases hsend
    · cases hsend
      refine ⟨h.counted, h.minted, h.distinct, h.waits, h.stamped, h.pending, hsent v, ?_⟩
      intro w s hs
      by_cases hw : w = v
      · subst hw
        simp only [Function.update_self] at hs
        rcases List.mem_cons.mp hs with rfl | hs
        · exact ⟨i, x, hx, Function.update_self _ _ _, htext⟩
        · obtain ⟨j, y, hy, hj, hyt⟩ := h.outbox w s hs
          exact ⟨j, y, hy, hkept hj, hyt⟩
      · simp only [Function.update_of_ne hw] at hs
        obtain ⟨j, y, hy, hj, hyt⟩ := h.outbox w s hs
        exact ⟨j, y, hy, hkept hj, hyt⟩
    · cases hsend
      refine ⟨h.counted, h.minted, h.distinct, h.waits, h.stamped, h.pending, hsent v, ?_⟩
      intro w s hs
      obtain ⟨j, y, hy, hj, hyt⟩ := h.outbox w s hs
      exact ⟨j, y, hy, hkept hj, hyt⟩

theorem CallsOk.transmit (h : CallsOk opts c) {i : ℕ} {x : Call} {text : String}
    (hx : c.calls i = some x) (hunsent : c.sentOn i = none) (hsigned : c.signing i = false)
    (htext : Client.frameText opts x = some text) : CallsOk opts (c.transmit i x text) := by
  unfold Client.transmit
  split
  · split
    · rename_i c₁ hsend
      exact (h.send hx hunsent hsigned htext hsend).settleCall i _
    · exact h.settleCall i _
  · rename_i type htype
    have hentry : CallsOk opts { c with
        pending := c.pending.insert (x.requestId.getD "") ⟨i, type⟩
        timers := Function.update c.timers i true } := by
      refine ⟨h.counted, h.minted, h.distinct, h.waits, h.stamped, ?_, h.sent, h.outbox⟩
      intro id p hp
      simp only [lookup_insert_ite] at hp
      split_ifs at hp with hid
      · cases hp
        have hwaits := h.waits i x hx
        rw [htype] at hwaits
        obtain ⟨id', hid'⟩ := Option.isSome_iff_exists.mp hwaits.symm
        refine ⟨x, hx, ?_⟩
        rw [hid, hid']
        rfl
      · exact h.pending id p hp
    simp only
    split
    · rename_i c₁ hsend
      exact hentry.send hx hunsent hsigned htext hsend
    · exact hentry.settleCall i _

theorem CallsOk.step (h : CallsOk opts c) {a : Action} (hs : c.step opts a = some c') :
    CallsOk opts c' := by
  have herased : ∀ {timers : ℕ → Bool} {id₀ : String},
      CallsOk opts { c with pending := c.pending.erase id₀, timers := timers } := by
    intro timers id₀
    refine h.of_same rfl rfl rfl ?_ (fun _ hs => hs) rfl rfl
    intro id p hp
    simp only [lookup_erase_ite] at hp
    split_ifs at hp
    exact hp
  have hsigned : ∀ i, CallsOk opts { c with signing := Function.update c.signing i false } := by
    intro i
    refine h.of_same rfl rfl rfl (fun _ _ hp => hp) ?_ rfl rfl
    intro j hj
    by_cases hji : j = i
    · simp only [hji, Function.update_self]
    · simp only [Function.update_of_ne hji, hj]
  cases Client.effect_of_step hs with
  | sockets => exact h.of_same rfl rfl rfl (fun _ _ hp => hp) (fun _ hs => hs) rfl rfl
  | started request nowSecs now =>
    have hbuild := h.build request nowSecs now
    refine ⟨hbuild.counted, hbuild.minted, hbuild.distinct, hbuild.waits, hbuild.stamped,
      hbuild.pending, ?_, hbuild.outbox⟩
    intro i w hi
    obtain ⟨hsigning, hlt⟩ := h.sent i w hi
    refine ⟨?_, Nat.lt_succ_of_lt hlt⟩
    simp only [Function.update_of_ne hlt.ne]
    exact hsigning
  | refused request nowSecs now => exact (h.build request nowSecs now).settleCall _ _
  | @transmitted i x text made signing signed =>
    have hunsent : c.sentOn i = none := by
      cases hsent : c.sentOn i with
      | none => rfl
      | some w =>
        rw [(h.sent i w hsent).1] at signing
        cases signing
    exact (hsigned i).transmit made hunsent (Function.update_self _ _ _) signed
  | @notSigned i => exact (hsigned i).settleCall i _
  | @timedOut i => exact herased.settleCall i _
  | closed => exact h.of_same rfl rfl rfl nofun (fun _ hs => hs) rfl rfl
  | answered => exact herased.settleCall _ _
  | dispatched => exact h.of_same rfl rfl rfl (fun _ _ hp => hp) (fun _ hs => hs) rfl rfl

end Calls

/-! ## What the broker reads in a frame of a client -/

section Frames

variable {crates : Crates} {opts : Options} {x : Call} {s R : String}

theorem parse_frameText (hstamp : |x.timestamp| < 2 ^ 53)
    (htext : Client.frameText opts x = some s) :
    JsonText.parse crates.finite s = some (.obj (Client.signedMembers opts x)) := by
  rw [Client.frameText_eq] at htext
  cases htext
  exact Client.parse_signedMembers hstamp

/-- The request id the broker reads is the one the client has minted. -/
theorem requestId_of_namesRequest (hstamp : |x.timestamp| < 2 ^ 53)
    (hwaits : (expectedType x.request).isSome = x.requestId.isSome)
    (htext : Client.frameText opts x = some s) (hnames : NamesRequest crates s R) :
    x.requestId = some R := by
  have hparse : JsonText.parse crates.finite s = some (.obj (Client.signedMembers opts x)) :=
    parse_frameText hstamp htext
  have hread : parseRequestId crates s = some R := by
    rcases hnames with hread | ⟨msg, hmsg, hR⟩
    · exact hread
    · rw [ClientMessage.fromStr, hparse] at hmsg
      exact Replies.parseRequestId_of_object hparse hmsg hR
  simp only [parseRequestId, hparse] at hread
  obtain ⟨request, timestamp, requestId⟩ := x
  have hminted : ∀ {r : Option String}, r.isSome = true → r.getD "" = R → r = some R := by
    rintro (_ | id) hsome rfl
    · cases hsome
    · rfl
  cases request with
  | register handle addresses =>
    cases handle <;>
    · simp [Client.signedMembers, Request.signed, Request.members, asString,
        SortedMembers.lookup_cons_ite] at hread
      exact hminted hwaits.symm hread
  | announceTeam teamId teamName adminPubkey adminSignature =>
    cases teamId <;>
    · simp [Client.signedMembers, Request.signed, Request.members, asString,
        SortedMembers.lookup_cons_ite] at hread
      exact hminted hwaits.symm hread
  | lookupPeer _ | lookupHandle _ | subscribePresence _ | requestRelay _ | lookupTeam _ =>
    simp [Client.signedMembers, Request.signed, Request.members, asString,
        SortedMembers.lookup_cons_ite] at hread
    exact hminted hwaits.symm hread
  | _ =>
    simp [Client.signedMembers, Request.signed, Request.members,
      SortedMembers.lookup_cons_ite] at hread

end Frames

/-! ## The frames of a connection -/

section Outbox

variable {opts : Options} {c c' : Client} {w : ℕ} {s : String}

theorem mem_outbox_settleCall (hmem : s ∈ c.outbox w) (i : ℕ) (x : Result) :
    s ∈ (c.settleCall i x).outbox w := by
  obtain ⟨results, heq⟩ := c.settleCall_eq i x
  rw [heq]
  exact hmem

theorem mem_outbox_send (hmem : s ∈ c.outbox w) {i : ℕ} {text : String}
    (hsend : c.send i text = .ok c') : s ∈ c'.outbox w := by
  unfold Client.send at hsend
  split at hsend
  · cases hsend
  · rename_i v hws
    split at hsend
    · cases hsend
    · cases hsend
      by_cases hw : w = v
      · subst hw
        simp only [Function.update_self]
        exact List.mem_cons_of_mem text hmem
      · simp only [Function.update_of_ne hw]
        exact hmem
    · cases hsend
      exact hmem

theorem mem_outbox_transmit (hmem : s ∈ c.outbox w) (i : ℕ) (x : Call) (text : String) :
    s ∈ (c.transmit i x text).outbox w := by
  unfold Client.transmit
  split
  · split
    · rename_i c₁ hsend
      exact mem_outbox_settleCall (mem_outbox_send hmem hsend) i _
    · exact mem_outbox_settleCall hmem i _
  · simp only
    split
    · rename_i c₁ hsend
      refine mem_outbox_send ?_ hsend
      exact hmem
    · refine mem_outbox_settleCall ?_ i _
      exact hmem

theorem mem_outbox_step {a : Action} (hs : c.step opts a = some c') (hmem : s ∈ c.outbox w) :
    s ∈ c'.outbox w := by
  cases Client.effect_of_step hs with
  | sockets => exact hmem
  | started => exact hmem
  | refused =>
    refine mem_outbox_settleCall ?_ _ _
    exact hmem
  | @transmitted i x text =>
    refine mem_outbox_transmit ?_ i x text
    exact hmem
  | notSigned =>
    refine mem_outbox_settleCall ?_ _ _
    exact hmem
  | timedOut =>
    refine mem_outbox_settleCall ?_ _ _
    exact hmem
  | closed => exact hmem
  | answered =>
    refine mem_outbox_settleCall ?_ _ _
    exact hmem
  | dispatched => exact hmem

end Outbox

section Network

variable {crates : Crates} {hasDb : Bool} {opts : ℕ → Options} {db₀ : Database.Db ℕ}
  {C : List Label → Network → Label → Prop} {tr : List Label} {n n' : Network}

def Transmitted (n : Network) (tr : List Label) : Prop :=
  ∀ t k w f now s, n.link t = some (k, w) → Event.input t (.frame f now) ∈ brokerTrace tr →
    f.payload = some s → f = .text s ∧ s ∈ (n.clients k).outbox w

theorem transmitted_of_client {k : ℕ} {a : Action} {c : Client} (h : Transmitted n tr)
    (hs : (n.clients k).step (opts k) a = some c) : Transmitted (n.withClient k c) tr := by
  intro t j w f now s hlink hmem hpayload
  obtain ⟨hf, hs'⟩ := h t j w f now s hlink hmem hpayload
  refine ⟨hf, ?_⟩
  by_cases hj : j = k
  · subst hj
    simp only [Network.withClient, Function.update_self]
    exact mem_outbox_step hs hs'
  · simp only [Network.withClient, Function.update_of_ne hj]
    exact hs'

theorem transmitted (h : Reaches (Moves crates hasDb opts) C (.start db₀) tr n) :
    Transmitted n tr := by
  refine h.invariant (I := fun tr n => Transmitted n tr) nofun ?_
  intro tr n l n' hprior hinv hmove _
  cases hmove with
  | @broker e σ next wired =>
    intro t k w f now s hlink hmem hpayload
    simp only [(afterEvent_eq n e).2.1] at hlink
    simp only [(afterEvent_eq n e).1]
    rcases List.mem_cons.mp hmem with rfl | hmem
    · simp only [Network.Wired, hlink] at wired
      cases f with
      | text s' =>
        cases hpayload
        exact ⟨rfl, List.mem_reverse.mp (List.mem_of_getElem? wired)⟩
      | binary bytes => exact wired.elim
      | _ => cases hpayload
    · exact hinv t k w f now s hlink hmem hpayload
  | @accept u k' w' new unlinked waiting created alone =>
    intro t k w f now s hlink hmem hpayload
    by_cases htu : t = u
    · subst htu
      exact absurd hmem (no_input_of_absent (broker_run hprior) new)
    · simp only [Network.withLink, Function.update_of_ne htu] at hlink
      exact hinv t k w f now s hlink hmem hpayload
  | client _ next => exact transmitted_of_client hinv next
  | deliver _ _ next => exact transmitted_of_client hinv next

theorem callsOk (h : Reaches (Moves crates hasDb opts) C (.start db₀) tr n) (k : ℕ) :
    CallsOk (opts k) (n.clients k) :=
  clients_invariant h (fun _ => callsOk_new) (fun hc hs => hc.step hs) k

theorem origin_of_arriving (h : Reaches (Moves crates hasDb opts) C (.start db₀) tr n) {t : ℕ}
    {msg : ServerMessage} (hmsg : n.arriving t = some msg) :
    ∃ x, (origins t (brokerTrace tr)).reverse[n.received t]? = some x ∧ x.msg = msg := by
  unfold Network.arriving at hmsg
  split_ifs at hmsg
  rw [sent_eq_origins (broker_run h), ← List.map_reverse, List.getElem?_map] at hmsg
  exact Option.map_eq_some_iff.mp hmsg

theorem routed_eq_some {c : Client} {msg : ServerMessage} {id : String} {p : PendingRequest}
    (h : c.routed msg = some (id, p)) :
    msg.requestId = some id ∧ c.pending.lookup id = some p := by
  simp only [Client.routed, Option.bind_eq_bind, Option.bind_eq_some_iff] at h
  obtain ⟨id', hid, h⟩ := h
  split_ifs at h
  obtain ⟨p', hp, h⟩ := Option.bind_eq_some_iff.mp h
  cases h
  exact ⟨hid, hp⟩

theorem frame_of_reply (h : Reaches (Moves crates hasDb opts) C (.start db₀) tr n) {t k w : ℕ}
    (hlink : n.link t = some (k, w)) {x : Origin} (hx : x ∈ origins t (brokerTrace tr))
    {id : String} (hid : x.msg.requestId = some id) :
    x.task = t ∧ ∃ i call text now, x.input = some (.frame (.text text) now) ∧
      (n.clients k).calls i = some call ∧ (n.clients k).sentOn i = some w ∧
      Client.frameText (opts k) call = some text ∧ call.requestId = some id := by
  have hcalls := callsOk h k
  obtain ⟨htask, f, now, s, hinput, hpayload, hnames⟩ := origin_of_reply (broker_run h) hx hid
  have hin := input_of_origin hx hinput
  rw [htask] at hin
  obtain ⟨rfl, hmem⟩ := transmitted h t k w f now s hlink hin hpayload
  obtain ⟨i, call, hcall, hsent, htext⟩ := hcalls.outbox w s hmem
  exact ⟨htask, i, call, s, now, hinput, hcall, hsent, htext,
    requestId_of_namesRequest (hcalls.stamped i call hcall) (hcalls.waits i call hcall) htext hnames⟩

/-- The message that arrives next from a connection was enqueued by the connection's own task while
it answered the frame of this call, and the call was sent on the connection's socket. -/
def OwnReply (opts : ℕ → Options) (tr : List Label) (n : Network) (t k i : ℕ) : Prop :=
  ∃ w x call text now, n.link t = some (k, w) ∧
    (origins t (brokerTrace tr)).reverse[n.received t]? = some x ∧ x.task = t ∧
    x.input = some (.frame (.text text) now) ∧ (n.clients k).calls i = some call ∧
    (n.clients k).sentOn i = some w ∧ Client.frameText (opts k) call = some text

theorem ownReply_of_deliver (h : Reaches (Moves crates hasDb opts) C (.start db₀) tr n) {t k i : ℕ}
    (hmove : Moves crates hasDb opts n (.deliver t) n')
    (hwaiting : (n.clients k).results i = none) (hsettled : (n'.clients k).results i ≠ none) :
    OwnReply opts tr n t k i := by
  cases hmove with
  | @deliver _ k₀ w msg c linked arrives next =>
    simp only [Network.withClient] at hsettled
    by_cases hk : k = k₀
    · subst hk
      rw [Function.update_self] at hsettled
      simp only [Client.step] at next
      split_ifs at next
      cases next
      unfold Client.handleIncoming at hsettled
      split at hsettled
      · rename_i id p hrouted
        rw [Client.results_settleCall] at hsettled
        split_ifs at hsettled with hi
        · obtain ⟨rfl, -⟩ := hi
          obtain ⟨hid, hp⟩ := routed_eq_some hrouted
          obtain ⟨x, hx, rfl⟩ := origin_of_arriving h arrives
          have hmem := List.mem_reverse.mp (List.mem_of_getElem? hx)
          obtain ⟨htask, j, call, text, now, hinput, hcall, hsent, htext, hcid⟩ :=
            frame_of_reply h linked hmem hid
          obtain ⟨y, hy, hyid⟩ := (callsOk h k).pending id p hp
          obtain rfl := (callsOk h k).distinct j p.call call y id hcall hy hcid hyid
          exact ⟨w, x, call, text, now, linked, hx, htask, hinput, hcall, hsent, htext⟩
        · exact absurd hwaiting hsettled
      · exact absurd hwaiting hsettled
    · rw [Function.update_of_ne hk] at hsettled
      exact absurd hwaiting hsettled

/-- In every run of the broker with its clients, a promise that an incoming message settles is
settled by what the broker has enqueued while handling the request's own frame, and no two requests
of a client have the same id. -/
theorem replies_settle_their_request
    (h : Reaches (Moves crates hasDb opts) (fun _ _ _ => True) (.start db₀) tr n) :
    (∀ t k i n', Moves crates hasDb opts n (.deliver t) n' → (n.clients k).results i = none →
      (n'.clients k).results i ≠ none → OwnReply opts tr n t k i) ∧
    ∀ k i j x y id, (n.clients k).calls i = some x → (n.clients k).calls j = some y →
      x.requestId = some id → y.requestId = some id → i = j :=
  ⟨fun _ _ _ _ hmove hwaiting hsettled => ownReply_of_deliver h hmove hwaiting hsettled,
    fun k => (callsOk h k).distinct⟩

end Network

/-! ## A client registers -/

theorem registers_played :
    ((NetworkScripts.play false NetworkScripts.signers (fun _ _ _ => true)
        (NetworkScripts.registers 'a' 0 0) [] (.start DatabaseCalls.emptyDb)).bind fun x =>
      (NetworkScripts.cue false NetworkScripts.signers x.2 (.deliver 0)).map fun y =>
        ((x.2.clients 0).results 0, ((y.2.clients 0).results 0).isSome)) = some (none, true) := by
  decide +kernel

theorem registers_settled : ∃ tr n n',
    Reaches (Moves Crates.demo false NetworkScripts.signers) (fun _ _ _ => True)
      (.start DatabaseCalls.emptyDb) tr n ∧
    Moves Crates.demo false NetworkScripts.signers n (.deliver 0) n' ∧
    (n.clients 0).results 0 = none ∧ (n'.clients 0).results 0 ≠ none ∧
    OwnReply NetworkScripts.signers tr n 0 0 0 := by
  obtain ⟨⟨tr, n⟩, hplay, hlast⟩ := Option.bind_eq_some_iff.mp registers_played
  obtain ⟨⟨l, n'⟩, hdeliver, heq⟩ := Option.map_eq_some_iff.mp hlast
  simp only [Prod.mk.injEq] at heq
  obtain ⟨hwaiting, hsettled⟩ := heq
  have hreaches : Reaches (Moves Crates.demo false NetworkScripts.signers) (fun _ _ _ => True)
      (.start DatabaseCalls.emptyDb) tr n :=
    NetworkScripts.reaches_of_play false _ (fun _ _ _ _ => trivial) .start hplay
  have hmove := NetworkScripts.moves_of_cue hdeliver
  obtain rfl : l = .deliver 0 := NetworkScripts.label_of_deliver hdeliver
  have hsome : (n'.clients 0).results 0 ≠ none := by
    intro hnone
    rw [hnone] at hsettled
    cases hsettled
  exact ⟨tr, n, n', hreaches, hmove, hwaiting, hsome,
    (replies_settle_their_request hreaches).1 0 0 0 n' hmove hwaiting hsome⟩

end HashedBroker.Correlation
