import HashedBroker.ConcurrentCalls
import HashedBroker.Signaling

/-!
# Signaling limits under interleaving

`limiter_for` looks a limiter up and inserts one in a second access. Two first checks of a key can
both find none, and then the second insertion puts a fresh limiter in the place of one that is in
use.
-/
namespace HashedBroker.Signaling
open KeyedTables AtomicPrograms AtomicPrograms.Prog ReactiveTasks

structure Checked where
  pubkey : String
  limiter : ℕ
  time : ℕ
  allowed : Bool

def note (_ : ℕ) : (a : Access) → ℕ → a.Result → List Checked → Option (List Checked)
  | .check pubkey limiter, instant, allowed, history =>
    some (⟨pubkey, limiter, instant, allowed⟩ :: history)
  | _, _, _, history => some history

/-- Any number of calls of `check`, for any keys. Nothing else touches the limiters. -/
def checking (crates : Crates) :
    Machine ℕ Access Access.Result ℕ (Observed SignalingLimiter (List Checked))
      (CallState String (Except BrokerError Unit)) String (Except BrokerError Unit) Empty :=
  concurrentCalls (fun _ a instant sl => some (sl.exec crates instant a)) note check nofun

abbrev CheckConfig := Config ℕ Access Access.Result (Observed SignalingLimiter (List Checked))
  (CallState String (Except BrokerError Unit)) (Except BrokerError Unit)

abbrev CheckEvent := Event ℕ Access Access.Result String Empty

def unchecked : CheckConfig := .uncalled .empty []

def checksOf (pubkey : String) (history : List Checked) : List Checked :=
  history.filter fun c => c.pubkey = pubkey

/-- How many signals one limiter accepts at these times, the newest first. -/
def acceptedByOne (crates : Crates) : List ℕ → ℕ
  | [] => 0
  | t :: ts => (if crates.limiterAllows ts t then 1 else 0) + acceptedByOne crates ts

/-- The checks of a key are answered by one limiter, and accept no more than one limiter does. -/
def OneLimiter (crates : Crates) (history : List Checked) (pubkey : String) : Prop :=
  (∃ limiter, ∀ c ∈ checksOf pubkey history, c.limiter = limiter) ∧
    ((checksOf pubkey history).filter Checked.allowed).length ≤
      acceptedByOne crates ((checksOf pubkey history).map Checked.time)

def FirstInserted (_ : List CheckEvent) (σ : CheckConfig) (e : CheckEvent) : Prop :=
  ∀ t pubkey r, e = .performed t (.insert pubkey) r → σ.shared.state.map.lookup pubkey = none

theorem check_justified (pubkey : String) :
    (check pubkey).Justified (fun hist o => ∀ pk limiter, o = .check pk limiter →
      (⟨.get pk, some limiter⟩ : Σ a : Access, a.Result) ∈ hist ∨
        (⟨.insert pk, limiter⟩ : Σ a : Access, a.Result) ∈ hist) [] := by
  refine ⟨nofun, fun found => ?_⟩
  cases found with
  | some limiter =>
    refine ⟨fun pk limiter' heq => ?_, fun _ => trivial⟩
    cases heq
    exact Or.inl List.mem_cons_self
  | none =>
    refine ⟨nofun, fun limiter => ⟨fun pk limiter' heq => ?_, fun _ => trivial⟩⟩
    cases heq
    exact Or.inr List.mem_cons_self

/-! ## One limiter -/

/-- The key has had its first limiter only, and that limiter has answered all its checks. -/
structure Single (crates : Crates) (s : Observed SignalingLimiter (List Checked)) (pubkey : String) :
    Prop where
  current : ∀ limiter, s.state.map.lookup pubkey = some limiter → limiter = 0
  answered : ∀ c ∈ checksOf pubkey s.history, c.limiter = 0
  logged : s.state.log pubkey 0 = (checksOf pubkey s.history).map Checked.time
  accepted : ((checksOf pubkey s.history).filter Checked.allowed).length =
    acceptedByOne crates ((checksOf pubkey s.history).map Checked.time)

variable {crates : Crates}

theorem Single.oneLimiter {s : Observed SignalingLimiter (List Checked)} {pubkey : String}
    (h : Single crates s pubkey) : OneLimiter crates s.history pubkey :=
  ⟨⟨0, h.answered⟩, le_of_eq h.accepted⟩

theorem Single.check {s : Observed SignalingLimiter (List Checked)} {pubkey : String}
    (h : Single crates s pubkey) (pk : String) (instant : ℕ) :
    Single crates ⟨(s.state.exec crates instant (.check pk 0)).2,
      ⟨pk, 0, instant, crates.limiterAllows (s.state.log pk 0) instant⟩ :: s.history⟩ pubkey := by
  by_cases hpk : pk = pubkey
  · subst hpk
    have hchecks : ∀ c : Checked, c.pubkey = pk →
        checksOf pk (c :: s.history) = c :: checksOf pk s.history :=
      fun c hc => List.filter_cons_of_pos (by simpa using hc)
    constructor
    · exact h.current
    · intro c hc
      rw [hchecks _ rfl] at hc
      rcases List.mem_cons.mp hc with rfl | hc
      · rfl
      · exact h.answered c hc
    · rw [hchecks _ rfl, List.map_cons, ← h.logged]
      simp [SignalingLimiter.exec, SignalingLimiter.log]
    · rw [hchecks _ rfl, List.map_cons, acceptedByOne, ← h.accepted, ← h.logged]
      cases hallowed : crates.limiterAllows (s.state.log pk 0) instant with
      | true =>
        rw [List.filter_cons_of_pos rfl, List.length_cons]
        simp only [if_true]
        omega
      | false =>
        rw [List.filter_cons_of_neg (by simp)]
        simp
  · have hchecks : ∀ c : Checked, c.pubkey = pk →
        checksOf pubkey (c :: s.history) = checksOf pubkey s.history :=
      fun c hc => List.filter_cons_of_neg (by simpa [hc] using hpk)
    constructor
    · exact h.current
    · intro c hc
      rw [hchecks _ rfl] at hc
      exact h.answered c hc
    · rw [hchecks _ rfl, ← h.logged]
      simp [SignalingLimiter.exec, SignalingLimiter.log, Ne.symm hpk]
    · rw [hchecks _ rfl]
      exact h.accepted

theorem Single.insert {s : Observed SignalingLimiter (List Checked)} {pubkey pk : String}
    (h : Single crates s pubkey) (hfirst : s.state.map.lookup pk = none) (instant : ℕ) :
    Single crates ⟨(s.state.exec crates instant (.insert pk)).2, s.history⟩ pubkey := by
  refine ⟨fun limiter hlimiter => ?_, h.answered, h.logged, h.accepted⟩
  simp only [SignalingLimiter.exec, lookup_insert_ite, SignalingLimiter.fresh, hfirst] at hlimiter
  split_ifs at hlimiter
  · cases hlimiter
    rfl
  · exact h.current limiter hlimiter

/-- The calls have been told of first limiters only. -/
def ToldFirst (tr : List CheckEvent) : Prop :=
  ∀ t pubkey limiter, .performed t (.get pubkey) (some limiter) ∈ tr ∨
    .performed t (.insert pubkey) limiter ∈ tr → limiter = 0

theorem check_told {tr : List CheckEvent} {σ : CheckConfig}
    (h : Run (checking crates) unchecked tr σ) (htold : ToldFirst tr) {t : ℕ}
    {c : CallState String (Except BrokerError Unit)} {pk : String} {limiter : ℕ}
    {k : Bool → Prog Access Access.Result (Except BrokerError Unit)}
    (ht : σ.tasks t = .running c (.call (.check pk limiter) k)) : limiter = 0 := by
  obtain ⟨hist, hlearnt, hsub⟩ := h.justified (J := fun _ _ hist o => ∀ pk limiter,
    o = .check pk limiter → (⟨.get pk, some limiter⟩ : Σ a : Access, a.Result) ∈ hist ∨
      (⟨.insert pk, limiter⟩ : Σ a : Access, a.Result) ∈ hist)
    (fun _ => ⟨.absent, rfl⟩) (fun t c i c' p hs => by
      obtain ⟨-, -, rfl⟩ := concurrentCalls_start hs
      exact check_justified i) ht
  have hevent : ∀ x ∈ hist, (.performed t x.1 x.2 : CheckEvent) ∈ tr :=
    fun x hx => hsub.subset (List.mem_map.mpr ⟨x, hx, rfl⟩)
  rcases hlearnt pk limiter rfl with hmem | hmem
  · exact htold t pk limiter (Or.inl (hevent _ hmem))
  · exact htold t pk limiter (Or.inr (hevent _ hmem))

/-- All checks of a key are answered by one limiter, in every run in which a limiter is inserted only
for a key that has none. -/
theorem one_limiter {tr : List CheckEvent} {σ : CheckConfig}
    (h : GuardedRun (checking crates) FirstInserted unchecked tr σ) (pubkey : String) :
    OneLimiter crates σ.shared.history pubkey := by
  have hinv : (∀ pubkey, Single crates σ.shared pubkey) ∧ ToldFirst tr := by
    refine h.invariant (I := fun tr σ => (∀ pubkey, Single crates σ.shared pubkey) ∧ ToldFirst tr)
      ?_ ?_
    · refine ⟨fun pubkey => ⟨?_, ?_, rfl, rfl⟩, ?_⟩
      · intro limiter hlimiter
        cases hlimiter
      · intro c hc
        cases hc
      · rintro t pubkey limiter (hmem | hmem) <;> cases hmem
    · intro tr σ e σ' hrun ih hstep hguard
      obtain ⟨hsingle, htold⟩ := ih
      -- the newest event tells of a first limiter
      have htell : (∀ t pk limiter, e = .performed t (.get pk) (some limiter) → limiter = 0) →
          (∀ t pk limiter, e = .performed t (.insert pk) limiter → limiter = 0) →
          ToldFirst (e :: tr) := by
        rintro hget hinsert t pk limiter (hmem | hmem)
        · rcases List.mem_cons.mp hmem with heq | hmem
          · exact hget t pk limiter heq.symm
          · exact htold t pk limiter (Or.inl hmem)
        · rcases List.mem_cons.mp hmem with heq | hmem
          · exact hinsert t pk limiter heq.symm
          · exact htold t pk limiter (Or.inr hmem)
      rcases hstep.cases with ⟨t, i, c, c', p, rfl, -, -, rfl⟩ |
        ⟨t, c, o, k, env, r, s', rfl, ht, hx, rfl⟩ | ⟨x, s', rfl, hx, rfl⟩
      · exact ⟨hsingle, htell nofun nofun⟩
      · have hx' : Observed.exec (fun _ a instant sl => some (sl.exec crates instant a)) note t o env
            σ.shared = some (r, s') := hx
        obtain ⟨hexec, hnote⟩ := Observed.exec_eq_some hx'
        obtain ⟨state, history⟩ := s'
        cases o with
        | get pk =>
          have hfound : σ.shared.state.map.lookup pk = r ∧ σ.shared.state = state := by
            cases hexec
            exact ⟨rfl, rfl⟩
          obtain ⟨hfound, rfl⟩ := hfound
          cases hnote
          refine ⟨hsingle, htell (fun t' pk' limiter heq => ?_) nofun⟩
          cases heq
          exact (hsingle pk).current limiter hfound
        | insert pk =>
          cases hexec
          cases hnote
          have hfirst := hguard t pk _ rfl
          refine ⟨fun pubkey => (hsingle pubkey).insert hfirst env, htell nofun ?_⟩
          intro t' pk' limiter heq
          cases heq
          simp only [SignalingLimiter.fresh, hfirst, Option.elim_none]
        | check pk limiter =>
          obtain rfl := check_told hrun.run htold ht
          cases hexec
          cases hnote
          exact ⟨fun pubkey => (hsingle pubkey).check pk env, htell nofun nofun⟩
      · cases x
  exact (hinv.1 pubkey).oneLimiter

def firstInserted (_ : List CheckEvent) (σ : CheckConfig) : CheckEvent → Bool
  | .performed _ (.insert pubkey) _ => (σ.shared.state.map.lookup pubkey).isNone
  | _ => true

theorem firstInserted_sound {tr : List CheckEvent} {σ : CheckConfig} {e : CheckEvent}
    (h : firstInserted tr σ e = true) : FirstInserted tr σ e := by
  intro t pubkey r heq
  subst heq
  simpa [firstInserted] using h

/-- Two checks of `a` at the same time as one of `b`. -/
theorem one_limiter_checks : ∃ tr σ,
    GuardedRun (checking Crates.demo) FirstInserted unchecked tr σ ∧
      (checksOf "a" σ.shared.history).length = 2 ∧
      OneLimiter Crates.demo σ.shared.history "a" := by
  have hrun : (runGuarded (checking Crates.demo) firstInserted
      [.input 0 "a", .input 1 "b", .perform 0 0, .perform 1 0, .perform 1 0, .perform 0 0,
        .input 2 "a", .perform 2 0, .perform 2 0, .perform 0 1, .perform 1 1] [] unchecked).map
      (fun x => (checksOf "a" x.2.shared.history).length) = some 2 := by decide +kernel
  obtain ⟨⟨tr, σ⟩, hactions, hcount⟩ := Option.map_eq_some_iff.mp hrun
  have hreached := guardedRun_of_runGuarded (fun _ _ _ => firstInserted_sound) .start hactions
  exact ⟨tr, σ, hreached, hcount, one_limiter hreached "a"⟩

/-- Two first checks of `a` that both find no limiter, and 99 more, all at one instant. -/
def racing : List (Action ℕ ℕ String Empty) :=
  [.input 0 "a", .input 1 "a", .perform 0 0, .perform 1 0, .perform 0 0, .perform 0 0, .perform 1 0,
    .perform 1 0] ++
  (List.range 99).flatMap fun n => [.input (n + 2) "a", .perform (n + 2) 0, .perform (n + 2) 0]

/-- The second limiter accepts its whole quota after the first has accepted a signal. -/
theorem racing_limiters : ∃ tr σ, Run (checking Crates.demo) unchecked tr σ ∧
    ¬ OneLimiter Crates.demo σ.shared.history "a" := by
  have hrun : (runActions (checking Crates.demo) racing [] unchecked).map (fun x =>
      (((checksOf "a" x.2.shared.history).filter Checked.allowed).length,
        acceptedByOne Crates.demo ((checksOf "a" x.2.shared.history).map Checked.time))) =
      some (101, 100) := by decide +kernel
  obtain ⟨⟨tr, σ⟩, hactions, hcounts⟩ := Option.map_eq_some_iff.mp hrun
  obtain ⟨haccepted, hone⟩ := Prod.mk.inj hcounts
  refine ⟨tr, σ, run_of_runActions .start hactions, fun hlimiter => ?_⟩
  have hbound := hlimiter.2
  rw [haccepted, hone] at hbound
  omega

end HashedBroker.Signaling
