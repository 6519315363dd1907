import HashedBroker.SessionOps

/-!
# Scripts of a run

A script is a run written down: who connects, which message is sent, whose operation comes next. To
evaluate one, the frame of a message need not be parsed again. The round trip of the serialisation
and one verification for each key used say what the broker makes of it.
-/
namespace HashedBroker.Scripts
open AtomicPrograms ReactiveTasks Protocol Server Sessions Crates

def wire (m : ClientMessage) : String := String.ofList (JsonText.print (.obj m.toValue))

theorem fromStr_wire (finite : List Char → Bool) (m : ClientMessage) :
    ClientMessage.fromStr finite (wire m) = some m := by
  rw [ClientMessage.fromStr, wire, JsonText.parse_print m.toValue_readable]
  exact m.ofJson_toValue

theorem authenticate_wire {crates : Crates} {now : UnixTime} {pk : String} {m msg : ClientMessage}
    (h : authenticate crates now pk (wire m) = .ok msg) : msg = m := by
  simp only [authenticate, decode, fromStr_wire, bind, Except.bind] at h
  cases hv : Auth.verifySignedMessage crates now m with
  | error e => rw [hv] at h; cases h
  | ok key =>
    rw [hv] at h
    simp only at h
    split_ifs at h
    cases h
    rfl

/-- The digits whose keys speak in scripts; the last is the first in upper case. -/
def speakers : List Char := ['a', 'b', 'c', 'A']

def spellsAlike (d d' : Char) : Bool :=
  match Auth.parsePubkey demo (keyText d), Auth.parsePubkey demo (keyText d') with
  | .ok key, .ok key' => decide (key = key')
  | _, _ => false

theorem spelled_alike : ∃ key, Auth.parsePubkey demo (keyText 'a') = .ok key ∧
    Auth.parsePubkey demo (keyText 'A') = .ok key := by
  have hsame : spellsAlike 'a' 'A' = true := by decide +kernel
  unfold spellsAlike at hsame
  split at hsame
  · rename_i key key' hkey hkey'
    obtain rfl : key = key' := of_decide_eq_true hsame
    exact ⟨key, hkey, hkey'⟩
  · cases hsame

/-- The key's own signature, verified. -/
def signs (d : Char) : Bool :=
  match Auth.parsePubkey demo (keyText d), Auth.parseSignature demo (signatureText d) with
  | .ok key, .ok sig => demo.verify key [] sig
  | _, _ => false

theorem speakers_sign {d : Char} (hd : d ∈ speakers) : signs d = true := by
  simp only [speakers, List.mem_cons, List.not_mem_nil, or_false] at hd
  rcases hd with rfl | rfl | rfl | rfl
  · decide +kernel
  · decide +kernel
  · decide +kernel
  · decide +kernel

/-- The message is signed by a speaker at midnight. -/
def SpokenBy (d : Char) (m : ClientMessage) : Prop :=
  d ∈ speakers ∧ m.pubkey = keyText d ∧ m.signature = signatureText d ∧ m.timestamp = 0

instance (d : Char) (m : ClientMessage) : Decidable (SpokenBy d m) :=
  inferInstanceAs (Decidable (_ ∧ _ ∧ _ ∧ _))

theorem SpokenBy.verified {d : Char} {m : ClientMessage} (h : SpokenBy d m) :
    ∃ key, Auth.verifySignedMessage demo .midnight m = .ok key := by
  obtain ⟨hd, hpk, hsig, hts⟩ := h
  have hsign := speakers_sign hd
  unfold signs at hsign
  split at hsign
  · rename_i key sig hkey hs
    refine ⟨key, ?_⟩
    have htime : Auth.checkTimestamp .midnight 0 = .ok () := by decide
    simp only [Auth.verifySignedMessage, hpk, hkey, hsig, hs, hts, htime, bind, Except.bind]
    exact if_pos hsign
  · cases hsign

theorem SpokenBy.authenticated {d : Char} {m : ClientMessage} {text pk : String} (h : SpokenBy d m)
    (htext : ClientMessage.fromStr demo.finite text = some m) (hpk : m.pubkey = pk) :
    authenticate demo .midnight pk text = .ok m := by
  obtain ⟨key, hkey⟩ := h.verified
  have hdecode : ∀ label, decode demo label text = .ok m := by
    intro label
    rw [decode, htext]
  simp only [authenticate, hdecode, hkey, bind, Except.bind]
  exact if_neg (not_not.mpr hpk)

inductive Cue
  | connect (t : ℕ)
  | say (t : ℕ) (speaker : Char) (m : ClientMessage)
  | leave (t : ℕ)
  | perform (t : ℕ) (env : Env)

section Evaluation

variable (hasDb : Bool)

/-- What the broker runs for a text that reads as a message known to be verified. -/
def answer (text : String) (t : ℕ) : Phase → ClientMessage → Option (Phase × Work Outcome)
  | .connected addr, m =>
    match m with
    | .register pubkey handle addresses kind _ _ requestId =>
      some (.registering addr (some text) .midnight,
        enter demo hasDb t addr pubkey handle addresses kind requestId)
    | _ => none
  | .pumping pk, m =>
    if m.pubkey = pk then
      some (.handling pk text .midnight, do
        match ← (dispatch demo hasDb t pk m).run with
        | .ok () => pure .finished
        | .error e =>
          send t (errorMsg e (parseRequestId demo text))
          pure .finished)
    else none
  | _, _ => none

theorem start_of_answer {d : Char} {t : ℕ} {c c' : Phase} {m : ClientMessage} {text : String}
    {p : Work Outcome} (hm : SpokenBy d m)
    (htext : ClientMessage.fromStr demo.finite text = some m)
    (h : answer hasDb text t c m = some (c', p)) :
    start demo hasDb t c (.frame (.text text) .midnight) = some (c', p) := by
  cases c with
  | connected addr =>
    cases m with
    | register pubkey handle addresses kind timestamp signature requestId =>
      cases h
      obtain ⟨key, hkey⟩ := hm.verified
      have hdecode : ∀ label, decode demo label text = .ok (.register pubkey handle addresses kind
          timestamp signature requestId) := by
        intro label
        rw [decode, htext]
      simp only [start, Frame.payload, register, authenticateRegister, hdecode, hkey]
    | _ => cases h
  | pumping pk =>
    simp only [answer] at h
    split_ifs at h with hpk
    cases h
    simp only [start, pump, handleClientMessage]
    rw [hm.authenticated htext hpk]
    rfl
  | _ => cases h

def cue (σ : BrokerConfig) : Cue → Option (BrokerEvent × BrokerConfig)
  | .connect t => act (broker demo hasDb) σ (.input t (.connect "host:1"))
  | .leave t => act (broker demo hasDb) σ (.input t (.frame .close .midnight))
  | .perform t env => act (broker demo hasDb) σ (.perform t env)
  | .say t d m =>
    if SpokenBy d m then
      match σ.tasks t with
      | .waiting c => (answer hasDb (wire m) t c m).map fun x =>
        (.input t (.frame (.text (wire m)) .midnight),
          ⟨σ.shared, Function.update σ.tasks t (settle (broker demo hasDb) x.1 x.2)⟩)
      | .running _ _ => none
    else none

theorem step_of_cue {σ σ' : BrokerConfig} {x : Cue} {e : BrokerEvent}
    (h : cue hasDb σ x = some (e, σ')) : Step (broker demo hasDb) σ e σ' := by
  cases x with
  | connect t => exact ⟨.input t (.connect "host:1"), h⟩
  | leave t => exact ⟨.input t (.frame .close .midnight), h⟩
  | perform t env => exact ⟨.perform t env, h⟩
  | say t d m =>
    simp only [cue] at h
    split_ifs at h with hm
    split at h
    · rename_i c ht
      obtain ⟨⟨c', p⟩, hp, heq⟩ := Option.map_eq_some_iff.mp h
      cases heq
      refine ⟨.input t (.frame (.text (wire m)) .midnight), ?_⟩
      have hstart :
          (broker demo hasDb).start t c (.frame (.text (wire m)) .midnight) = some (c', p) :=
        start_of_answer hasDb hm (fromStr_wire demo.finite m) hp
      simp only [act, ht, hstart, Option.map_some]
    · cases h

/-- A script, evaluated as long as a test of its steps succeeds. -/
def play (test : List BrokerEvent → BrokerConfig → BrokerEvent → Bool) :
    List Cue → List BrokerEvent → BrokerConfig → Option (List BrokerEvent × BrokerConfig)
  | [], tr, σ => some (tr, σ)
  | x :: xs, tr, σ => (cue hasDb σ x).bind fun y =>
    if test tr σ y.1 then play test xs (y.1 :: tr) y.2 else none

theorem guardedRun_of_play {C : Guard ℕ Op Res Broker Phase Input Outcome Broker.WriterEvent}
    {test : List BrokerEvent → BrokerConfig → BrokerEvent → Bool}
    (hC : ∀ tr σ e, test tr σ e = true → C tr σ e) {xs : List Cue}
    {tr tr' : List BrokerEvent} {σ₀ σ σ' : BrokerConfig}
    (h : GuardedRun (broker demo hasDb) C σ₀ tr σ)
    (hp : play hasDb test xs tr σ = some (tr', σ')) :
    GuardedRun (broker demo hasDb) C σ₀ tr' σ' := by
  induction xs generalizing tr σ with
  | nil => cases hp; exact h
  | cons x xs ih =>
    obtain ⟨⟨e, σ₁⟩, h₁, h₂⟩ := Option.bind_eq_some_iff.mp hp
    split_ifs at h₂ with ht
    exact ih (.step h (step_of_cue hasDb h₁) (hC _ _ _ ht)) h₂

theorem run_of_play {xs : List Cue} {tr : List BrokerEvent} {σ₀ σ : BrokerConfig}
    (hp : play hasDb (fun _ _ _ => true) xs [] σ₀ = some (tr, σ)) :
    Run (broker demo hasDb) σ₀ tr σ :=
  (guardedRun_of_play (C := fun _ _ _ => True) hasDb (fun _ _ _ _ => trivial) .start hp).run

def Cue.task : Cue → ℕ
  | connect t => t
  | say t _ _ => t
  | leave t => t
  | perform t _ => t

theorem cue_other {σ σ' : BrokerConfig} {x : Cue} {e : BrokerEvent}
    (h : cue hasDb σ x = some (e, σ')) {t : ℕ} (ht : t ≠ x.task) : σ'.tasks t = σ.tasks t := by
  have hinput : ∀ {u i}, act (broker demo hasDb) σ (.input u i) = some (e, σ') → t ≠ u →
      σ'.tasks t = σ.tasks t := by
    intro u i hact hu
    simp only [act] at hact
    split at hact
    · obtain ⟨y, -, heq⟩ := Option.map_eq_some_iff.mp hact
      cases heq
      exact Function.update_of_ne hu _ _
    · cases hact
  cases x with
  | connect u => exact hinput h ht
  | leave u => exact hinput h ht
  | perform u env =>
    simp only [cue, act] at h
    split at h
    · obtain ⟨y, -, heq⟩ := Option.map_eq_some_iff.mp h
      cases heq
      exact Function.update_of_ne ht _ _
    · cases h
  | say u d m =>
    simp only [cue] at h
    split_ifs at h
    split at h
    · obtain ⟨y, -, heq⟩ := Option.map_eq_some_iff.mp h
      cases heq
      exact Function.update_of_ne ht _ _
    · cases h

theorem play_other {test : List BrokerEvent → BrokerConfig → BrokerEvent → Bool} {xs : List Cue}
    {tr tr' : List BrokerEvent} {σ σ' : BrokerConfig}
    (hp : play hasDb test xs tr σ = some (tr', σ')) {t : ℕ} (ht : ∀ x ∈ xs, t ≠ x.task) :
    σ'.tasks t = σ.tasks t := by
  induction xs generalizing tr σ with
  | nil => cases hp; rfl
  | cons x xs ih =>
    obtain ⟨⟨e, σ₁⟩, h₁, h₂⟩ := Option.bind_eq_some_iff.mp hp
    split_ifs at h₂
    rw [ih h₂ fun y hy => ht y (List.mem_cons_of_mem x hy)]
    exact cue_other hasDb h₁ (ht x List.mem_cons_self)

theorem frame_of_cue {σ σ' : BrokerConfig} {x : Cue} {t : ℕ} {f : Frame} {now : UnixTime}
    (h : cue hasDb σ x = some (.input t (.frame f now), σ')) :
    f = .close ∨ ∃ d m, x = .say t d m ∧ f = .text (wire m) := by
  have hact : ∀ a, act (broker demo hasDb) σ a = some (.input t (.frame f now), σ') →
      a = .input t (.frame f now) := by
    intro a ha
    cases a with
    | input u i =>
      simp only [act] at ha
      split at ha
      · obtain ⟨y, -, heq⟩ := Option.map_eq_some_iff.mp ha
        cases heq
        rfl
      · cases ha
    | perform u env =>
      simp only [act] at ha
      split at ha
      · obtain ⟨y, -, heq⟩ := Option.map_eq_some_iff.mp ha
        cases heq
      · cases ha
    | disturb y =>
      obtain ⟨s', -, heq⟩ := Option.map_eq_some_iff.mp ha
      cases heq
  cases x with
  | connect u => cases hact (.input u (.connect "host:1")) h
  | leave u =>
    cases hact (.input u (.frame .close .midnight)) h
    exact Or.inl rfl
  | perform u env => cases hact (.perform u env) h
  | say u d m =>
    simp only [cue] at h
    split_ifs at h
    split at h
    · obtain ⟨y, -, heq⟩ := Option.map_eq_some_iff.mp h
      cases heq
      exact Or.inr ⟨d, m, rfl, rfl⟩
    · cases h

theorem frame_of_play {test : List BrokerEvent → BrokerConfig → BrokerEvent → Bool} {xs : List Cue}
    {tr tr' : List BrokerEvent} {σ σ' : BrokerConfig}
    (hp : play hasDb test xs tr σ = some (tr', σ')) {t : ℕ} {f : Frame} {now : UnixTime}
    (hf : Event.input t (.frame f now) ∈ tr') :
    Event.input t (.frame f now) ∈ tr ∨ f = .close ∨ ∃ d m, .say t d m ∈ xs ∧ f = .text (wire m) := by
  induction xs generalizing tr σ with
  | nil => cases hp; exact Or.inl hf
  | cons x xs ih =>
    obtain ⟨⟨e, σ₁⟩, h₁, h₂⟩ := Option.bind_eq_some_iff.mp hp
    split_ifs at h₂
    rcases ih h₂ with hmem | hclose | ⟨d, m, hsay, htext⟩
    · rcases List.mem_cons.mp hmem with rfl | hmem
      · rcases frame_of_cue hasDb h₁ with hclose | ⟨d, m, rfl, htext⟩
        · exact Or.inr (Or.inl hclose)
        · exact Or.inr (Or.inr ⟨d, m, List.mem_cons_self, htext⟩)
      · exact Or.inl hmem
    · exact Or.inr (Or.inl hclose)
    · exact Or.inr (Or.inr ⟨d, m, List.mem_cons_of_mem x hsay, htext⟩)

/-- A guard that speaks of the cues a script is made of, and of the tasks it does not name. -/
theorem guardedRun_of_cues {n : ℕ} {C : Guard ℕ Op Res Broker Phase Input Outcome Broker.WriterEvent}
    {test : List BrokerEvent → BrokerConfig → BrokerEvent → Bool} {xs : List Cue}
    (hC : ∀ x ∈ xs, ∀ tr σ e σ', (∀ t, n ≤ t → σ.tasks t = .waiting .absent) →
      cue hasDb σ x = some (e, σ') → test tr σ e = true → C tr σ e)
    (hxs : ∀ x ∈ xs, x.task < n) {tr tr' : List BrokerEvent}
    {σ₀ σ σ' : BrokerConfig} (h : GuardedRun (broker demo hasDb) C σ₀ tr σ)
    (habsent : ∀ t, n ≤ t → σ.tasks t = .waiting .absent)
    (hp : play hasDb test xs tr σ = some (tr', σ')) :
    GuardedRun (broker demo hasDb) C σ₀ tr' σ' ∧ ∀ t, n ≤ t → σ'.tasks t = .waiting .absent := by
  induction xs generalizing tr σ with
  | nil =>
    cases hp
    exact ⟨h, habsent⟩
  | cons x xs ih =>
    obtain ⟨⟨e, σ₁⟩, h₁, h₂⟩ := Option.bind_eq_some_iff.mp hp
    split_ifs at h₂ with ht
    have hx := hxs x List.mem_cons_self
    have habsent₁ : ∀ t, n ≤ t → σ₁.tasks t = .waiting .absent := by
      intro t hn
      rw [cue_other hasDb h₁ (by omega)]
      exact habsent t hn
    exact ih (fun y hy => hC y (List.mem_cons_of_mem x hy))
      (fun y hy => hxs y (List.mem_cons_of_mem x hy))
      (.step h (step_of_cue hasDb h₁) (hC x List.mem_cons_self _ _ _ _ habsent h₁ ht)) habsent₁ h₂

/-- Guards that look at all tasks, tested on those that a script names. -/
theorem guardedRun_of_play_among {n : ℕ}
    {C : Guard ℕ Op Res Broker Phase Input Outcome Broker.WriterEvent}
    {test : List BrokerEvent → BrokerConfig → BrokerEvent → Bool}
    (hC : ∀ tr σ e, (∀ t, n ≤ t → σ.tasks t = .waiting .absent) → test tr σ e = true → C tr σ e)
    {xs : List Cue} (hxs : ∀ x ∈ xs, x.task < n) {tr tr' : List BrokerEvent}
    {σ₀ σ σ' : BrokerConfig} (h : GuardedRun (broker demo hasDb) C σ₀ tr σ)
    (habsent : ∀ t, n ≤ t → σ.tasks t = .waiting .absent)
    (hp : play hasDb test xs tr σ = some (tr', σ')) :
    GuardedRun (broker demo hasDb) C σ₀ tr' σ' ∧ ∀ t, n ≤ t → σ'.tasks t = .waiting .absent :=
  guardedRun_of_cues hasDb (fun _ _ tr σ e _ habsent _ ht => hC tr σ e habsent ht) hxs h habsent hp

def idleBelow (n : ℕ) (σ : BrokerConfig) : Bool := (List.range n).all fun t =>
  match σ.tasks t with
  | .waiting _ => true
  | .running _ _ => false

theorem idle_of_idleBelow {n : ℕ} {σ : BrokerConfig} (h : idleBelow n σ = true)
    (habsent : ∀ t, n ≤ t → σ.tasks t = .waiting .absent) : Idle σ := by
  intro t
  by_cases ht : t < n
  · have htest := List.all_eq_true.mp h t (List.mem_range.mpr ht)
    cases hc : σ.tasks t with
    | waiting c => exact ⟨c, rfl⟩
    | running c p => simp [hc] at htest
  · exact ⟨.absent, habsent t (by omega)⟩

end Evaluation

/-- An environment in which nothing fails and no table is iterated. -/
def calm : Env := ⟨none, Vector.replicate 16 0, 0, [], [], 0, 0, 0⟩

def steps (t n : ℕ) (env : Env) : List Cue := List.replicate n (.perform t env)

def registerAs (d : Char) (handle : Option String) : ClientMessage :=
  .register (keyText d) handle ⟨[], none⟩ none 0 (signatureText d) none

def joins (t : ℕ) (d : Char) : List Cue :=
  [.connect t, .say t d (registerAs d none)] ++ steps t 5 calm

def leaves (t : ℕ) : List Cue := .leave t :: steps t 5 calm

end HashedBroker.Scripts
