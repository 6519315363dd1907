import HashedBroker.Correlation

/-!
# The table of pending requests

A request that waits for a reply enters the table, and starts its timer, just before its message is
handed to the socket. A reply, a timer and the closing of a socket take the entry away, stop the
timer and settle the promise in one callback. So the table lists the requests that are sent and not
settled, as long as each message can be handed over: when `send` throws, the promise is rejected and
the entry and the timer stay.
-/
namespace HashedBroker.PendingTable
open KeyedTables Protocol ClientSigning BrokerClient LabelledRuns ClientSockets Correlation

/-- The table lists the requests that are sent and not settled, and no timer of a settled request is
running. -/
structure Exact (c : Client) : Prop where
  entry : ∀ id, (c.pending.lookup id).isSome ↔ ∃ i x, c.calls i = some x ∧ x.requestId = some id ∧
    (∃ w, c.sentOn i = some w) ∧ c.results i = none
  timer : ∀ i, c.results i ≠ none → c.timers i = false

/-- The step leaves the table exact, and settled promises as they are settled. -/
def KeepsExact (opts : Options) (_ : List Action) (c : Client) (a : Action) : Prop :=
  ∀ c', Moves opts c a c' → Exact c' ∧ ∀ i r, c.results i = some r → c'.results i = some r

/-- When the message of a request that waits for a reply has been signed, the client has a socket,
and one that is not connecting. -/
def SendGoes (_ : List Action) (c : Client) : Action → Prop
  | .signed i => ∀ x, c.calls i = some x → (expectedType x.request).isSome →
    ∃ w, c.ws = some w ∧ c.readyState w ≠ .connecting
  | _ => True

/-! ## What the callbacks keep -/

structure Kept (c : Client) : Prop where
  signing : ∀ i, c.signing i = true → i < c.callCount ∧ c.results i = none ∧ c.timers i = false
  unmade : ∀ i, c.callCount ≤ i → c.results i = none ∧ c.timers i = false ∧ c.signing i = false
  held : ∀ id p, c.pending.lookup id = some p →
    c.results p.call = none ∧ ∃ w, c.sentOn p.call = some w
  entered : ∀ i x id, c.calls i = some x → x.requestId = some id → (∃ w, c.sentOn i = some w) →
    c.results i = none → (c.pending.lookup id).isSome
  timer : ∀ i, c.results i ≠ none → c.timers i = false

section Steps

variable {opts : Options} {c c' : Client}

theorem kept_new : Kept .new := by
  constructor <;> intros <;> simp_all [Client.new]

theorem Kept.exact (h : Kept c) (hcalls : CallsOk opts c) : Exact c := by
  refine ⟨fun id => ⟨fun hsome => ?_, ?_⟩, h.timer⟩
  · obtain ⟨p, hp⟩ := Option.isSome_iff_exists.mp hsome
    obtain ⟨x, hx, hid⟩ := hcalls.pending id p hp
    obtain ⟨hnone, hsent⟩ := h.held id p hp
    exact ⟨p.call, x, hx, hid, hsent, hnone⟩
  · rintro ⟨i, x, hx, hid, hsent, hnone⟩
    exact h.entered i x id hx hid hsent hnone

theorem call_of_entry (hcalls : CallsOk opts c) {id : String} {p : PendingRequest} {i : ℕ}
    {x : Call} (hp : c.pending.lookup id = some p) (hx : c.calls i = some x) :
    id = x.requestId.getD "" ↔ p.call = i := by
  obtain ⟨y, hy, hyid⟩ := hcalls.pending id p hp
  constructor
  · intro hid
    cases hxid : x.requestId with
    | none =>
      obtain ⟨now, m, hminted, -⟩ := hcalls.minted p.call y id hy hyid
      rw [hid, hxid] at hminted
      exact absurd hminted.symm (requestIdText_ne_empty now m)
    | some id' =>
      rw [hxid] at hid
      exact hcalls.distinct p.call i y x id hy hx hyid (hxid.trans (congrArg some hid.symm))
  · rintro rfl
    obtain rfl := Option.some.inj (hy.symm.trans hx)
    rw [hyid]
    rfl

theorem Kept.entry_of_sent (h : Kept c) (hok : CallsOk opts c) {i w : ℕ} {x : Call} {id : String}
    (hx : c.calls i = some x) (hid : x.requestId = some id) (hw : c.sentOn i = some w)
    (hnone : c.results i = none) : ∃ p, c.pending.lookup id = some p ∧ p.call = i := by
  have hsome := h.entered i x id hx hid ⟨w, hw⟩ hnone
  obtain ⟨p, hp⟩ := Option.isSome_iff_exists.mp hsome
  obtain ⟨y, hy, hyid⟩ := hok.pending id p hp
  exact ⟨p, hp, hok.distinct p.call i y x id hy hx hyid hid⟩

/-- A promise is settled when its call has no entry and no timer, and the rest is as it was. -/
theorem Kept.settle (h : Kept c) (hok : CallsOk opts c) {c₁ : Client} {i : ℕ} (r : Result)
    (hi : i < c₁.callCount) (hcount : c.callCount ≤ c₁.callCount)
    (hcalls : ∀ j, j ≠ i → c₁.calls j = c.calls j) (hsent : ∀ j, j ≠ i → c₁.sentOn j = c.sentOn j)
    (hresults : c₁.results = c.results)
    (hsigning : ∀ j, c₁.signing j = if j = i then false else c.signing j)
    (htimers : ∀ j, c₁.timers j = if j = i then false else c.timers j)
    (hpending : ∀ id p, c₁.pending.lookup id = some p ↔ c.pending.lookup id = some p ∧ p.call ≠ i) :
    Kept (c₁.settleCall i r) := by
  have hwaiting : ∀ j, (c₁.settleCall i r).results j = none ↔ j ≠ i ∧ c.results j = none := by
    intro j
    rw [Client.results_settleCall, hresults]
    by_cases hj : j = i
    · subst hj
      cases hr : c.results j <;> simp
    · simp [hj]
  obtain ⟨results, heq⟩ := c₁.settleCall_eq i r
  rw [heq] at hwaiting ⊢
  constructor
  · intro j hj
    simp only [hsigning] at hj
    split_ifs at hj with hji
    obtain ⟨hlt, hnone, htimer⟩ := h.signing j hj
    refine ⟨hlt.trans_le hcount, (hwaiting j).mpr ⟨hji, hnone⟩, ?_⟩
    simp only [htimers, if_neg hji, htimer]
  · intro j hj
    have hji : j ≠ i := (hi.trans_le hj).ne'
    obtain ⟨hnone, htimer, hsigned⟩ := h.unmade j (hcount.trans hj)
    refine ⟨(hwaiting j).mpr ⟨hji, hnone⟩, ?_, ?_⟩
    · simp only [htimers, if_neg hji, htimer]
    · simp only [hsigning, if_neg hji, hsigned]
  · intro id p hp
    obtain ⟨hp, hji⟩ := (hpending id p).mp hp
    obtain ⟨hnone, w, hw⟩ := h.held id p hp
    exact ⟨(hwaiting _).mpr ⟨hji, hnone⟩, w, (hsent _ hji).trans hw⟩
  · rintro j x id hx hid ⟨w, hw⟩ hnone
    obtain ⟨hji, hnone⟩ := (hwaiting j).mp hnone
    obtain ⟨p, hp, rfl⟩ := h.entry_of_sent hok ((hcalls j hji).symm.trans hx) hid
      ((hsent j hji).symm.trans hw) hnone
    exact Option.isSome_iff_exists.mpr ⟨p, (hpending id p).mpr ⟨hp, hji⟩⟩
  · intro j hj
    simp only [htimers]
    split_ifs with hji
    · rfl
    · refine h.timer j fun hnone => hj ((hwaiting j).mpr ⟨hji, hnone⟩)

theorem unentered (hok : CallsOk opts c) (h : Kept c) {i : ℕ} (hi : c.signing i = true)
    (id : String) (p : PendingRequest) :
    c.pending.lookup id = some p ↔ c.pending.lookup id = some p ∧ p.call ≠ i := by
  refine ⟨fun hp => ⟨hp, ?_⟩, And.left⟩
  rintro rfl
  obtain ⟨-, w, hw⟩ := h.held id p hp
  rw [(hok.sent p.call w hw).1] at hi
  cases hi

theorem send_of_ready {w : ℕ} (i : ℕ) (text : String) (hw : c.ws = some w)
    (hready : c.readyState w ≠ .connecting) : ∃ outbox, c.send i text = .ok { c with
      sentOn := Function.update c.sentOn i (some w), outbox := outbox } := by
  unfold Client.send
  rw [hw]
  cases hstate : c.readyState w with
  | connecting => exact absurd hstate hready
  | opened => exact ⟨Function.update c.outbox w (text :: c.outbox w), by simp only [hstate]⟩
  | closing => exact ⟨c.outbox, by simp only [hstate]⟩
  | closed => exact ⟨c.outbox, by simp only [hstate]⟩

theorem Kept.transmit (h : Kept c) (hok : CallsOk opts c) {i : ℕ} {x : Call} {text : String}
    (hx : c.calls i = some x) (hsigning : c.signing i = true)
    (hgoes : (expectedType x.request).isSome →
      ∃ w, c.ws = some w ∧ c.readyState w ≠ .connecting) :
    Kept ({ c with signing := Function.update c.signing i false }.transmit i x text) := by
  obtain ⟨hlt, hnone, htimer⟩ := h.signing i hsigning
  have hsigned : ∀ j, Function.update c.signing i false j = if j = i then false else c.signing j :=
    fun j => Function.update_apply _ _ _ _
  have htimers : ∀ j, c.timers j = if j = i then false else c.timers j := by
    intro j
    split_ifs with hj
    · rw [hj, htimer]
    · rfl
  unfold Client.transmit
  split
  · -- the request waits for no reply
    split
    · rename_i c₁ hsend
      obtain ⟨w, outbox, rfl⟩ := Client.send_ok hsend
      refine h.settle hok _ hlt le_rfl (fun _ _ => rfl) ?_ rfl hsigned htimers
        (unentered hok h hsigning)
      intro j hj
      exact Function.update_of_ne hj _ _
    · exact h.settle hok _ hlt le_rfl (fun _ _ => rfl) (fun _ _ => rfl) rfl hsigned htimers
        (unentered hok h hsigning)
  · rename_i type htype
    obtain ⟨w, hw, hready⟩ := hgoes (htype ▸ rfl)
    have hwaits := hok.waits i x hx
    rw [htype] at hwaits
    obtain ⟨id, hid⟩ := Option.isSome_iff_exists.mp hwaits.symm
    obtain ⟨outbox, hsend⟩ := send_of_ready (c := { c with
      signing := Function.update c.signing i false
      pending := c.pending.insert (x.requestId.getD "") ⟨i, type⟩
      timers := Function.update c.timers i true }) i text hw hready
    simp only [hsend]
    constructor
    · intro j hj
      simp only [hsigned] at hj
      split_ifs at hj with hji
      obtain ⟨hlt, hnone, htimer⟩ := h.signing j hj
      exact ⟨hlt, hnone, (Function.update_of_ne hji _ _).trans htimer⟩
    · intro j hj
      have hji : j ≠ i := (hlt.trans_le hj).ne'
      obtain ⟨hnone, htimer, hunsigned⟩ := h.unmade j hj
      refine ⟨hnone, (Function.update_of_ne hji _ _).trans htimer, ?_⟩
      exact (Function.update_of_ne hji _ _).trans hunsigned
    · intro id' p hp
      simp only [lookup_insert_ite] at hp
      by_cases hpi : p.call = i
      · exact ⟨hpi ▸ hnone, w, by simp only [hpi, Function.update_self]⟩
      · split_ifs at hp
        · cases hp
          exact absurd rfl hpi
        · obtain ⟨hpnone, v, hv⟩ := h.held id' p hp
          exact ⟨hpnone, v, (Function.update_of_ne hpi _ _).trans hv⟩
    · rintro j y id' hy hyid ⟨v, hv⟩ hynone
      simp only [lookup_insert_ite]
      split_ifs with hid'
      · rfl
      · have hji : j ≠ i := by
          rintro rfl
          obtain rfl := Option.some.inj (hx.symm.trans hy)
          rw [hyid] at hid'
          exact hid' rfl
        exact h.entered j y id' hy hyid ⟨v, (Function.update_of_ne hji _ _).symm.trans hv⟩ hynone
    · intro j hj
      have hji : j ≠ i := by
        rintro rfl
        exact hj hnone
      exact (Function.update_of_ne hji _ _).trans (h.timer j hj)

/-- A reply, or the timer, settles the call of an entry and takes the entry away. -/
theorem Kept.answer (h : Kept c) (hok : CallsOk opts c) {i : ℕ} {x : Call} (hx : c.calls i = some x)
    (hsigning : c.signing i = false) (r : Result) :
    Kept ({ c with
      pending := c.pending.erase (x.requestId.getD "")
      timers := Function.update c.timers i false }.settleCall i r) := by
  refine h.settle hok r (hok.counted i x hx) le_rfl (fun _ _ => rfl) (fun _ _ => rfl) rfl ?_ ?_ ?_
  · intro j
    split_ifs with hj
    · rw [← hsigning, hj]
    · rfl
  · intro j
    exact Function.update_apply _ _ _ _
  · intro id p
    simp only [lookup_erase_ite]
    split_ifs with hid
    · refine ⟨nofun, fun ⟨hp, hcall⟩ => absurd ((call_of_entry hok hp hx).mp hid) hcall⟩
    · refine ⟨fun hp => ⟨hp, ?_⟩, And.left⟩
      exact fun hcall => hid ((call_of_entry hok hp hx).mpr hcall)

theorem Kept.onClose (h : Kept c) (hok : CallsOk opts c) (readyState : ℕ → ReadyState) :
    Kept { c with readyState := readyState }.onClose := by
  have hpending : ∀ i, Client.isPending { c with readyState := readyState } i = true ↔
      ∃ id p, c.pending.lookup id = some p ∧ p.call = i := by
    intro i
    rw [Client.isPending, anyBinding_eq_true]
    simp only [decide_eq_true_eq]
  have hwaiting : ∀ i, (Client.onClose { c with readyState := readyState }).results i = none ↔
      c.results i = none ∧ ¬ ∃ id p, c.pending.lookup id = some p ∧ p.call = i := by
    intro i
    simp only [Client.onClose]
    split_ifs with hi
    · exact iff_of_false (by simp) fun hunheld => hunheld.2 ((hpending i).mp hi.1)
    · exact ⟨fun hnone => ⟨hnone, fun hheld => hi ⟨(hpending i).mpr hheld, hnone⟩⟩, And.left⟩
  constructor
  · intro i hi
    obtain ⟨hlt, hnone, htimer⟩ := h.signing i hi
    refine ⟨hlt, (hwaiting i).mpr ⟨hnone, ?_⟩, ?_⟩
    · rintro ⟨id, p, hp, hcall⟩
      exact ((unentered hok h hi id p).mp hp).2 hcall
    · simp only [Client.onClose, htimer, Bool.false_and]
  · intro i hi
    obtain ⟨hnone, htimer, hunsigned⟩ := h.unmade i hi
    refine ⟨(hwaiting i).mpr ⟨hnone, ?_⟩, ?_, hunsigned⟩
    · rintro ⟨id, p, hp, rfl⟩
      obtain ⟨x, hx, -⟩ := hok.pending id p hp
      exact absurd (hok.counted _ x hx) (not_lt.mpr hi)
    · simp only [Client.onClose, htimer, Bool.false_and]
  · intro id p hp
    cases hp
  · rintro i x id hx hid ⟨w, hw⟩ hnone
    obtain ⟨hnone, hunheld⟩ := (hwaiting i).mp hnone
    obtain ⟨p, hp, hcall⟩ := h.entry_of_sent hok hx hid hw hnone
    exact absurd ⟨id, p, hp, hcall⟩ hunheld
  · intro i hi
    by_cases hheld : ∃ id p, c.pending.lookup id = some p ∧ p.call = i
    · simp only [Client.onClose, (hpending i).mpr hheld, Bool.not_true, Bool.and_false]
    · have htimer := h.timer i fun hnone => hi ((hwaiting i).mpr ⟨hnone, hheld⟩)
      simp only [Client.onClose, htimer, Bool.false_and]

theorem Kept.start (h : Kept c) (request : Request) (nowSecs now : TimeValue)
    (hok : CallsOk opts c) : Kept { c.build request nowSecs now with
      signing := Function.update c.signing c.callCount true } := by
  obtain ⟨hnone, htimer, -⟩ := h.unmade c.callCount le_rfl
  constructor
  · intro i hi
    by_cases hic : i = c.callCount
    · subst hic
      exact ⟨Nat.lt_succ_self _, hnone, htimer⟩
    · obtain ⟨hlt, hrest⟩ := h.signing i ((Function.update_of_ne hic _ _).symm.trans hi)
      exact ⟨Nat.lt_succ_of_lt hlt, hrest⟩
  · intro i hi
    have hlt : c.callCount < i := Nat.lt_of_succ_le hi
    obtain ⟨hnone, htimer, hunsigned⟩ := h.unmade i hlt.le
    exact ⟨hnone, htimer, (Function.update_of_ne hlt.ne' _ _).trans hunsigned⟩
  · exact h.held
  · rintro i x id hx hid ⟨w, hw⟩ hnone
    have hne : i ≠ c.callCount := (hok.sent i w hw).2.ne
    exact h.entered i x id ((Function.update_of_ne hne _ _).symm.trans hx) hid ⟨w, hw⟩ hnone
  · exact h.timer

theorem Kept.step (h : Kept c) (hok : CallsOk opts c) {a : Action} (hs : c.step opts a = some c')
    (hgoes : SendGoes [] c a) : Kept c' := by
  have hclear : ∀ {f : ℕ → Bool} {i : ℕ}, f i = false →
      ∀ j, f j = if j = i then false else f j := by
    intro f i hi j
    split_ifs with hj
    · rw [hj, hi]
    · rfl
  cases Client.effect_of_step hs with
  | sockets => exact ⟨h.signing, h.unmade, h.held, h.entered, h.timer⟩
  | started request nowSecs now => exact h.start request nowSecs now hok
  | refused request nowSecs now =>
    obtain ⟨hnone, htimer, hunsigned⟩ := h.unmade c.callCount le_rfl
    refine h.settle hok _ (Nat.lt_succ_self _) (Nat.le_succ _) ?_ (fun _ _ => rfl) rfl
      (hclear hunsigned) (hclear htimer) fun id p => ⟨fun hp => ⟨hp, ?_⟩, And.left⟩
    · intro j hj
      exact Function.update_of_ne hj _ _
    · obtain ⟨x, hx, -⟩ := hok.pending id p hp
      exact (hok.counted _ x hx).ne
  | @transmitted i x text made signing signed => exact h.transmit hok made signing (hgoes x made)
  | @notSigned i signing =>
    obtain ⟨hlt, -, htimer⟩ := h.signing i signing
    refine h.settle hok _ hlt le_rfl (fun _ _ => rfl) (fun _ _ => rfl) rfl
      (fun _ => Function.update_apply _ _ _ _) (hclear htimer) (unentered hok h signing)
  | @timedOut i x made running =>
    refine h.answer hok made ?_ _
    by_contra hsigning
    obtain ⟨-, -, htimer⟩ := h.signing i (Bool.of_not_eq_false hsigning)
    rw [running] at htimer
    cases htimer
  | closed => exact h.onClose hok _
  | @answered w msg id p routed =>
    obtain ⟨-, hp⟩ := routed_eq_some routed
    obtain ⟨x, hx, hid⟩ := hok.pending id p hp
    obtain ⟨-, v, hv⟩ := h.held id p hp
    have hkept := h.answer hok hx (hok.sent _ v hv).1 (Client.verdict p.expectedType msg)
    rw [hid] at hkept
    exact hkept
  | dispatched => exact ⟨h.signing, h.unmade, h.held, h.entered, h.timer⟩

theorem results_step {a : Action} (hs : c.step opts a = some c') {i : ℕ} {r : Result}
    (hr : c.results i = some r) : c'.results i = some r := by
  have hsettle : ∀ {c₁ : Client} {j : ℕ} {r' : Result}, c₁.results i = some r →
      (c₁.settleCall j r').results i = some r := by
    intro c₁ j r' hr
    rw [Client.results_settleCall, if_neg, hr]
    rintro ⟨rfl, hnone⟩
    rw [hr] at hnone
    cases hnone
  cases Client.effect_of_step hs with
  | sockets => exact hr
  | started => exact hr
  | refused => exact hsettle hr
  | transmitted =>
    unfold Client.transmit
    split
    · split
      · rename_i c₁ hsend
        obtain ⟨w, outbox, rfl⟩ := Client.send_ok hsend
        exact hsettle hr
      · exact hsettle hr
    · simp only
      split
      · rename_i c₁ hsend
        obtain ⟨w, outbox, rfl⟩ := Client.send_ok hsend
        exact hr
      · exact hsettle hr
  | notSigned => exact hsettle hr
  | timedOut => exact hsettle hr
  | closed =>
    simp only [Client.onClose, hr, reduceCtorEq, and_false, if_false]
  | answered => exact hsettle hr
  | dispatched => exact hr

theorem transmit_of_thrown {i : ℕ} {x : Call} {type : String} (text : String)
    (htype : expectedType x.request = some type)
    (hready : ¬ ∃ w, c.ws = some w ∧ c.readyState w ≠ .connecting) :
    (c.transmit i x text).calls = c.calls ∧ (c.transmit i x text).results i ≠ none ∧
      ((c.transmit i x text).pending.lookup (x.requestId.getD "")).isSome := by
  have hthrown : ∀ c₁ : Client, c₁.ws = c.ws → c₁.readyState = c.readyState →
      c₁.send i text = .error .notSent := by
    intro c₁ hws hstate
    unfold Client.send
    rw [hws, hstate]
    cases hw : c.ws with
    | none => rfl
    | some w =>
      have hconnecting : c.readyState w = .connecting := by
        by_contra hne
        exact hready ⟨w, hw, hne⟩
      simp only [hconnecting]
  unfold Client.transmit
  simp only [htype, hthrown]
  refine ⟨?_, ?_, ?_⟩
  · obtain ⟨results, heq⟩ := Client.settleCall_eq { c with
      pending := c.pending.insert (x.requestId.getD "") ⟨i, type⟩
      timers := Function.update c.timers i true } i (.rejected .notSent)
    rw [heq]
  · intro hnone
    rw [Client.results_settleCall] at hnone
    split_ifs at hnone with hunsettled
    exact hunsettled ⟨rfl, hnone⟩
  · obtain ⟨results, heq⟩ := Client.settleCall_eq { c with
      pending := c.pending.insert (x.requestId.getD "") ⟨i, type⟩
      timers := Function.update c.timers i true } i (.rejected .notSent)
    rw [heq]
    simp only [lookup_insert_ite, if_true, Option.isSome_some]

/-- An entry of a call that is settled is one too many. -/
theorem not_exact_of_orphan (hok : CallsOk opts c) {i : ℕ} {x : Call} (hx : c.calls i = some x)
    (hsettled : c.results i ≠ none) (hentry : (c.pending.lookup (x.requestId.getD "")).isSome) :
    ¬ Exact c := by
  intro hexact
  obtain ⟨p, hp⟩ := Option.isSome_iff_exists.mp hentry
  have hcall : p.call = i := (call_of_entry hok hp hx).mp rfl
  obtain ⟨j, y, hy, hyid, -, hnone⟩ := (hexact.entry _).mp hentry
  have hcall' : p.call = j := (call_of_entry hok hp hy).mp (by rw [hyid]; rfl)
  rw [← hcall', hcall] at hnone
  exact hsettled hnone

end Steps

/-! ## Runs -/

section Runs

variable {opts : Options} {c : Client} {tr : List Action}
  {C : List Action → Client → Action → Prop}

theorem callsOk_of_reaches (h : Reaches (Moves opts) C .new tr c) : CallsOk opts c :=
  h.invariant (I := fun _ c => CallsOk opts c) callsOk_new fun _ hi hmove _ => hi.step hmove

theorem kept_of_reaches (h : Reaches (Moves opts) SendGoes .new tr c) : Kept c :=
  h.invariant (I := fun _ c => Kept c) kept_new fun hprior hi hmove hgoes =>
    hi.step (callsOk_of_reaches hprior) hmove hgoes

theorem keepsExact_of_sendGoes (h : Reaches (Moves opts) SendGoes .new tr c) {a : Action}
    (hgoes : SendGoes tr c a) : KeepsExact opts tr c a := by
  intro c' hmove
  have hok : CallsOk opts c := callsOk_of_reaches h
  have hkept : Kept c' := (kept_of_reaches h).step hok hmove hgoes
  exact ⟨hkept.exact (hok.step hmove), fun i r hr => results_step hmove hr⟩

theorem sendGoes_of_keepsExact (hok : CallsOk opts c) {a : Action} {c' : Client}
    (hmove : Moves opts c a c') (hkeeps : KeepsExact opts tr c a) : SendGoes tr c a := by
  cases a with
  | signed i =>
    intro x hx hwaits
    by_contra hready
    obtain ⟨type, htype⟩ := Option.isSome_iff_exists.mp hwaits
    have hexact : Exact c' := (hkeeps c' hmove).1
    have hok' : CallsOk opts c' := hok.step hmove
    cases Client.effect_of_step hmove with
    | sockets hsockets => cases hsockets
    | @transmitted _ y text made signing signed =>
      obtain rfl := Option.some.inj (made.symm.trans hx)
      obtain ⟨hcalls, hsettled, hentry⟩ := transmit_of_thrown (i := i) text htype
        (c := { c with signing := Function.update c.signing i false }) hready
      exact not_exact_of_orphan hok' ((congrFun hcalls i).trans made) hsettled hentry hexact
  | _ => trivial

/-- In a run from the start, the table is exact and stays so, and settled promises stay as they are,
exactly if each message that waits for a reply can be handed over once it is signed. -/
theorem table_exact_iff : Reaches (Moves opts) SendGoes .new tr c ↔
    Exact c ∧ Reaches (Moves opts) (KeepsExact opts) .new tr c := by
  constructor
  · intro h
    refine ⟨(kept_of_reaches h).exact (callsOk_of_reaches h), ?_⟩
    exact h.weaken fun hprior _ hgoes => keepsExact_of_sendGoes hprior hgoes
  · rintro ⟨-, h⟩
    exact h.weaken fun hprior hmove hkeeps =>
      sendGoes_of_keepsExact (callsOk_of_reaches hprior) hmove hkeeps

end Runs

/-! ## A request that is answered, and one that cannot be sent -/

def sendGoes (_ : List Action) (c : Client) : Action → Bool
  | .signed i => (c.calls i).all fun x => !(expectedType x.request).isSome ||
    c.ws.any fun w => c.readyState w ≠ .connecting
  | _ => true

theorem sendGoes_sound (tr : List Action) (c : Client) (a : Action)
    (h : sendGoes tr c a = true) : SendGoes tr c a := by
  cases a with
  | signed i =>
    intro x hx hwaits
    simpa [sendGoes, hx, Option.isSome_iff_ne_none.mp hwaits, Option.any_eq_true] using h
  | _ => trivial

/-- The first of two requests is answered by its timer. -/
def asksTwice : List Action := [.connect, .opened 0] ++ asks 0 ++ asks 1 ++ [.timeout 0]

theorem asksTwice_replayed :
    (replay (rehearse anyone) sendGoes asksTwice [] .new).map
      (fun x => (x.2.isPending 0, x.2.isPending 1, x.2.results 0)) =
      some (false, true, some (.rejected .timedOut)) := by
  decide +kernel

theorem asksTwice_keeps_exact : ∃ tr c, Reaches (Moves anyone) SendGoes .new tr c ∧
    c.isPending 1 = true ∧ c.results 0 = some (.rejected .timedOut) ∧ Exact c ∧
    Reaches (Moves anyone) (KeepsExact anyone) .new tr c := by
  obtain ⟨⟨tr, c⟩, hr, heq⟩ := Option.map_eq_some_iff.mp asksTwice_replayed
  simp only [Prod.mk.injEq] at heq
  obtain ⟨-, hpending, hresult⟩ := heq
  have h : Reaches (Moves anyone) SendGoes .new tr c :=
    reaches_of_replay moves_of_rehearse sendGoes_sound .start hr
  exact ⟨tr, c, h, hpending, hresult, table_exact_iff.mp h⟩

/-- The client closes while the message of its request is being signed. -/
def closesEarly : List Action :=
  [.connect, .opened 0, .call (.lookupPeer "b") epoch epoch, .close, .signed 0]

theorem closesEarly_replayed :
    (replay (rehearse anyone) (fun _ _ _ => true) closesEarly [] .new).map
      (fun x => (x.2.sentOn 0, x.2.results 0, x.2.isPending 0, x.2.timers 0)) =
      some (none, some (.rejected .notSent), true, true) := by
  decide +kernel

/-- The promise is rejected, nothing has been sent, and the entry and the timer are there. -/
theorem entry_of_unsent_request : ∃ tr c, Reaches (Moves anyone) (fun _ _ _ => True) .new tr c ∧
    c.sentOn 0 = none ∧ c.results 0 = some (.rejected .notSent) ∧ c.isPending 0 = true ∧
    c.timers 0 = true ∧ ¬ Exact c := by
  obtain ⟨⟨tr, c⟩, hr, heq⟩ := Option.map_eq_some_iff.mp closesEarly_replayed
  simp only [Prod.mk.injEq] at heq
  obtain ⟨hsent, hresult, hpending, htimer⟩ := heq
  refine ⟨tr, c, reaches_of_replay moves_of_rehearse (fun _ _ _ _ => trivial) .start hr, hsent,
    hresult, hpending, htimer, fun hexact => ?_⟩
  have hstopped := hexact.timer 0 (by rw [hresult]; exact nofun)
  rw [htimer] at hstopped
  cases hstopped

end HashedBroker.PendingTable
