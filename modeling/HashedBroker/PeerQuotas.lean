import HashedBroker.LabelledRuns
import HashedBroker.Relay
import HashedBroker.TokenBuckets

/-!
# The quota of one peer

What `PeerQuota::try_consume` makes of a sequence of calls. The daily counter is the sum of the bytes
accepted since the window began, and the token bucket is exact over every window of the past. The
daily counter is not the rolling one of the module's documentation: a reset forgets bytes that are
less than a day old.
-/
namespace HashedBroker.Relay
open LabelledRuns TokenBuckets

/-- A call of `try_consume`: when it held the lock, for how many bytes, and how it went. -/
structure Charge where
  time : ℕ
  bytes : ℕ
  outcome : Except BrokerError Unit

namespace Charge

def accepted (c : Charge) : ℕ :=
  match c.outcome with
  | .ok _ => c.bytes
  | .error _ => 0

def total (calls : List Charge) : ℕ := (calls.map accepted).sum

@[simp] theorem total_nil : total [] = 0 := rfl

@[simp] theorem total_cons (c : Charge) (calls : List Charge) :
    total (c :: calls) = c.accepted + total calls := List.sum_cons

/-- The bytes accepted by the calls of a kind, when every call that counts is of another kind. -/
theorem total_filter_le {p p' : Charge → Bool} {calls : List Charge}
    (h : ∀ c ∈ calls, p c = true → c.accepted ≠ 0 → p' c = true) :
    total (calls.filter p) ≤ total (calls.filter p') := by
  induction calls with
  | nil => simp
  | cons c calls ih =>
    have hrest := ih fun d hd => h d (List.mem_cons_of_mem _ hd)
    have hc := h c List.mem_cons_self
    simp only [List.filter_cons]
    split_ifs with hp hp'
    · simp only [total_cons]
      omega
    · have hzero : c.accepted = 0 := by
        by_contra hne
        exact hp' (hc hp hne)
      simp only [total_cons]
      omega
    · simp only [total_cons]
      omega
    · exact hrest

end Charge

def dayNanos : ℕ := 86400 * nanosPerSecond

def seconds (nanos : ℕ) : ℚ := (nanos : ℚ) / nanosPerSecond

namespace PeerQuota

def filled (q : PeerQuota) (now : ℕ) : ℚ :=
  min (q.tokens + seconds (now - q.lastRefill) * bytesPerSecond) bytesPerSecond

/-- The bytes used in the window that an instant falls in, and its start. -/
def rolled (q : PeerQuota) (now : ℕ) : ℕ × ℕ :=
  if dayNanos ≤ now - q.dayWindowStart then (0, now) else (q.dayUsed, q.dayWindowStart)

theorem tryConsume_eq (q : PeerQuota) (now bytes : ℕ) :
    q.tryConsume now bytes =
      let found : PeerQuota := ⟨q.filled now, now, (q.rolled now).1, (q.rolled now).2⟩
      if bytesPerDay < found.dayUsed + bytes then (.error .relayQuotaExceeded, found)
      else if found.tokens < bytes then (.error .rateLimited, found)
      else (.ok (), { found with
        tokens := found.tokens - bytes, dayUsed := found.dayUsed + bytes }) := by
  by_cases hroll : dayNanos ≤ now - q.dayWindowStart
  · have hroll' : 86400 * nanosPerSecond ≤ now - q.dayWindowStart := hroll
    simp only [tryConsume, rolled, filled, seconds, if_pos hroll, if_pos hroll']
  · have hroll' : ¬ 86400 * nanosPerSecond ≤ now - q.dayWindowStart := hroll
    simp only [tryConsume, rolled, filled, seconds, if_neg hroll, if_neg hroll']

theorem tryConsume_fst (q : PeerQuota) (now bytes : ℕ) :
    (q.tryConsume now bytes).1 =
      if bytesPerDay < (q.rolled now).1 + bytes then .error .relayQuotaExceeded
      else if q.filled now < bytes then .error .rateLimited
      else .ok () := by
  rw [tryConsume_eq]
  dsimp only
  split_ifs <;> rfl

theorem tryConsume_snd (q : PeerQuota) (now bytes : ℕ) :
    (q.tryConsume now bytes).2 =
      let accepted := (Charge.mk now bytes (q.tryConsume now bytes).1).accepted
      ⟨q.filled now - accepted, now, (q.rolled now).1 + accepted, (q.rolled now).2⟩ := by
  rw [tryConsume_fst, tryConsume_eq]
  dsimp only [Charge.accepted]
  split_ifs <;> simp only [Nat.cast_zero, sub_zero, Nat.add_zero]

theorem tryConsume_exceeded_iff {q : PeerQuota} {now bytes : ℕ} :
    (q.tryConsume now bytes).1 = .error .relayQuotaExceeded ↔
      bytesPerDay < (q.rolled now).1 + bytes := by
  rw [tryConsume_fst]
  split_ifs with hday hbucket
  · exact iff_of_true rfl hday
  · exact iff_of_false nofun hday
  · exact iff_of_false nofun hday

theorem tryConsume_refuses {q : PeerQuota} {now bytes : ℕ} {e : BrokerError}
    (h : (q.tryConsume now bytes).1 = .error e) : e = .relayQuotaExceeded ∨ e = .rateLimited := by
  rw [tryConsume_fst] at h
  split_ifs at h
  · cases h
    exact Or.inl rfl
  · cases h
    exact Or.inr rfl

end PeerQuota

/-! ## Sequences of calls -/

/-- A quota, and the latest reading of a clock that never goes back. -/
structure Meter where
  clock : ℕ
  quota : PeerQuota

namespace Meter

def new (lastRefill dayWindowStart : ℕ) : Meter :=
  ⟨dayWindowStart, .new lastRefill dayWindowStart⟩

def Call (s : Meter) (c : Charge) (s' : Meter) : Prop :=
  s.clock ≤ c.time ∧ c.outcome = (s.quota.tryConsume c.time c.bytes).1 ∧
    s' = ⟨c.time, (s.quota.tryConsume c.time c.bytes).2⟩

theorem Call.of_tryConsume {s : Meter} {q : PeerQuota} {now bytes : ℕ}
    {outcome : Except BrokerError Unit} (hclock : s.clock ≤ now)
    (h : s.quota.tryConsume now bytes = (outcome, q)) : Call s ⟨now, bytes, outcome⟩ ⟨now, q⟩ := by
  refine ⟨hclock, ?_, ?_⟩
  · rw [h]
  · rw [h]

theorem Call.quota {s s' : Meter} {c : Charge} (h : Call s c s') :
    s'.quota = ⟨s.quota.filled c.time - c.accepted, c.time,
      (s.quota.rolled c.time).1 + c.accepted, (s.quota.rolled c.time).2⟩ := by
  obtain ⟨-, houtcome, rfl⟩ := h
  have hc : Charge.mk c.time c.bytes (s.quota.tryConsume c.time c.bytes).1 = c := by
    rw [← houtcome]
  simp only [PeerQuota.tryConsume_snd, hc]

theorem Call.accepted_le {s s' : Meter} {c : Charge} (h : Call s c s')
    (hused : s.quota.dayUsed ≤ bytesPerDay) :
    (s.quota.rolled c.time).1 + c.accepted ≤ bytesPerDay := by
  have hrolled : (s.quota.rolled c.time).1 ≤ bytesPerDay := by
    simp only [PeerQuota.rolled]
    split_ifs
    · exact Nat.zero_le _
    · exact hused
  obtain ⟨-, houtcome, -⟩ := h
  rw [PeerQuota.tryConsume_fst] at houtcome
  simp only [Charge.accepted, houtcome]
  split_ifs with hday hbucket
  · exact hrolled
  · exact hrolled
  · exact not_lt.mp hday

variable {C : List Charge → Meter → Charge → Prop} {lastRefill dayWindowStart : ℕ}
  {calls : List Charge} {s : Meter}

def since (start : ℕ) (calls : List Charge) : ℕ :=
  Charge.total (calls.filter fun d => start ≤ d.time)

/-- The counter of the day holds what has been accepted since the window began, which is less than
a day ago. -/
structure Counted (calls : List Charge) (s : Meter) : Prop where
  past : ∀ d ∈ calls, d.time ≤ s.clock
  begun : s.quota.dayWindowStart ≤ s.clock
  current : s.clock < s.quota.dayWindowStart + dayNanos
  used : s.quota.dayUsed = since s.quota.dayWindowStart calls
  bounded : s.quota.dayUsed ≤ bytesPerDay

theorem since_eq_zero {start : ℕ} (h : ∀ d ∈ calls, d.time < start) : since start calls = 0 := by
  have hnone : calls.filter (fun d => decide (start ≤ d.time)) = [] := by
    rw [List.filter_eq_nil_iff]
    intro d hd
    have htime := h d hd
    simp only [decide_eq_true_eq]
    omega
  rw [since, hnone, Charge.total_nil]

theorem since_cons {start : ℕ} {c : Charge} (h : start ≤ c.time) :
    since start (c :: calls) = c.accepted + since start calls := by
  rw [since, List.filter_cons_of_pos (by simpa using h), Charge.total_cons, since]

theorem Counted.call {s' : Meter} {c : Charge} (h : Counted calls s) (hcall : Call s c s') :
    Counted (c :: calls) s' := by
  have hquota := hcall.quota
  have hbounded := hcall.accepted_le h.bounded
  obtain ⟨hclock, -, rfl⟩ := hcall
  have hpast : ∀ d ∈ c :: calls, d.time ≤ c.time := by
    intro d hd
    rcases List.mem_cons.mp hd with rfl | hd
    · exact le_refl _
    · exact (h.past d hd).trans hclock
  have hbegun := h.begun
  have hcurrent := h.current
  by_cases hroll : dayNanos ≤ c.time - s.quota.dayWindowStart
  · -- no earlier call is as late as the one that resets the window
    have hearlier : ∀ d ∈ calls, d.time < c.time := by
      intro d hd
      have htime := h.past d hd
      omega
    simp only [PeerQuota.rolled, if_pos hroll] at hquota hbounded
    constructor
    · exact hpast
    · rw [hquota]
    · rw [hquota]
      simp only [dayNanos, nanosPerSecond]
      omega
    · rw [hquota]
      dsimp only
      rw [since_cons (le_refl _), since_eq_zero hearlier]
      omega
    · rw [hquota]
      exact hbounded
  · simp only [PeerQuota.rolled, if_neg hroll] at hquota hbounded
    constructor
    · exact hpast
    · rw [hquota]
      exact hbegun.trans hclock
    · rw [hquota]
      dsimp only
      omega
    · rw [hquota]
      dsimp only
      rw [since_cons (hbegun.trans hclock), ← h.used]
      omega
    · rw [hquota]
      exact hbounded

theorem counted (h : Reaches Call C (new lastRefill dayWindowStart) calls s) : Counted calls s := by
  refine h.invariant ?_ ?_
  · constructor
    · intro d hd
      cases hd
    · exact le_refl _
    · simp only [new, PeerQuota.new, dayNanos, nanosPerSecond]
      omega
    · rfl
    · exact Nat.zero_le _
  · intro calls s c s' _ ih hcall _
    exact ih.call hcall

/-- A sequence of calls on a quota, from its creation on. -/
def Ran (calls : List Charge) (s : Meter) : Prop :=
  ∃ lastRefill dayWindowStart, lastRefill ≤ dayWindowStart ∧
    Reaches Call (fun _ _ _ => True) (new lastRefill dayWindowStart) calls s

theorem Ran.counted (h : Ran calls s) : Counted calls s := by
  obtain ⟨_, _, -, hreaches⟩ := h
  exact Meter.counted hreaches

theorem Ran.call {s' : Meter} {c : Charge} (h : Ran calls s) (hcall : Call s c s') :
    Ran (c :: calls) s' := by
  obtain ⟨lastRefill, dayWindowStart, hnew, hreaches⟩ := h
  exact ⟨lastRefill, dayWindowStart, hnew, .next hreaches hcall trivial⟩

/-! ## The token bucket -/

def visit (c : Charge) : Visit ℚ := ⟨seconds c.time, c.accepted⟩

theorem taken_visits (calls : List Charge) : taken (calls.map visit) = Charge.total calls := by
  induction calls with
  | nil => rfl
  | cons c calls ih =>
    rw [List.map_cons, taken_cons, ih, Charge.total_cons, Nat.cast_add]
    rfl

theorem seconds_sub {a b : ℕ} (h : a ≤ b) : seconds (b - a) = seconds b - seconds a := by
  simp only [seconds]
  rw [Nat.cast_sub h]
  ring

theorem Call.accepted_le_filled {s s' : Meter} {c : Charge} (h : Call s c s')
    (hfilled : 0 ≤ s.quota.filled c.time) : (c.accepted : ℚ) ≤ s.quota.filled c.time := by
  obtain ⟨-, houtcome, -⟩ := h
  rw [PeerQuota.tryConsume_fst] at houtcome
  simp only [Charge.accepted, houtcome]
  split_ifs with hday hbucket
  · exact_mod_cast hfilled
  · exact_mod_cast hfilled
  · exact not_lt.mp hbucket

/-- The tokens are what the bucket holds. -/
structure Filled (calls : List Charge) (s : Meter) : Prop where
  refilled : s.quota.lastRefill ≤ s.clock
  nonneg : 0 ≤ s.quota.tokens
  capped : s.quota.tokens ≤ bytesPerSecond
  level : ∀ now, s.clock ≤ now → s.quota.filled now =
    level (bytesPerSecond : ℚ) bytesPerSecond (calls.map visit) (seconds now)

theorem Filled.filled_nonneg (h : Filled calls s) (now : ℕ) : 0 ≤ s.quota.filled now := by
  have hnonneg := h.nonneg
  have hcame : (0 : ℚ) ≤ seconds (now - s.quota.lastRefill) * bytesPerSecond := by
    simp only [seconds]
    positivity
  exact le_min (add_nonneg hnonneg hcame) (Nat.cast_nonneg _)

theorem Filled.call {s' : Meter} {c : Charge} (h : Filled calls s) (hcall : Call s c s') :
    Filled (c :: calls) s' := by
  have hquota := hcall.quota
  have htaken := hcall.accepted_le_filled (h.filled_nonneg _)
  obtain ⟨hclock, -, rfl⟩ := hcall
  have hcap : s.quota.filled c.time ≤ bytesPerSecond := min_le_right _ _
  have hnonneg : (0 : ℚ) ≤ c.accepted := Nat.cast_nonneg _
  constructor
  · rw [hquota]
  · rw [hquota]
    dsimp only
    linarith
  · rw [hquota]
    dsimp only
    linarith
  · intro now hnow
    rw [hquota]
    have hnew : PeerQuota.filled ⟨s.quota.filled c.time - c.accepted, c.time,
        (s.quota.rolled c.time).1 + c.accepted, (s.quota.rolled c.time).2⟩ now =
        min (s.quota.filled c.time - c.accepted + seconds (now - c.time) * bytesPerSecond)
          bytesPerSecond := rfl
    rw [hnew, h.level c.time hclock, seconds_sub hnow]
    rfl

theorem Ran.filled (h : Ran calls s) : Filled calls s := by
  obtain ⟨lastRefill, dayWindowStart, hnew, hreaches⟩ := h
  refine hreaches.invariant ?_ ?_
  · constructor
    · exact hnew
    · exact Nat.cast_nonneg _
    · exact le_refl _
    · intro now _
      have hcame : (0 : ℚ) ≤ seconds (now - lastRefill) * bytesPerSecond := by
        simp only [seconds]
        positivity
      exact min_eq_right (le_add_of_nonneg_right hcame)
  · intro calls s c s' _ ih hcall _
    exact ih.call hcall

/-- The bytes fit into every window that ends with the call: what has been accepted since any
earlier call, that call included, leaves room for them in a full bucket and what has come in
since. -/
def Fits (calls : List Charge) (c : Charge) : Prop :=
  c.bytes ≤ bytesPerSecond ∧ ∀ recent d older, calls = recent ++ d :: older →
    (Charge.total recent + d.accepted + c.bytes : ℚ) ≤
      bytesPerSecond * (1 + seconds (c.time - d.time))

/-- A call that passes the daily check is accepted exactly when its bytes fit. -/
theorem ok_iff_fits (h : Ran calls s) {s' : Meter} {c : Charge} (hcall : Call s c s')
    (hday : c.outcome ≠ .error .relayQuotaExceeded) : c.outcome = .ok () ↔ Fits calls c := by
  have hlevel := h.filled.level c.time hcall.1
  have hok : c.outcome = .ok () ↔ (c.bytes : ℚ) ≤ s.quota.filled c.time := by
    rw [hcall.2.1, Ne, PeerQuota.tryConsume_exceeded_iff] at hday
    rw [hcall.2.1, PeerQuota.tryConsume_fst, if_neg hday]
    split_ifs with hbucket
    · exact iff_of_false nofun (not_le.mpr hbucket)
    · exact iff_of_true rfl (not_lt.mp hbucket)
  rw [hok, hlevel, le_level_iff, Fits, Nat.cast_le]
  refine and_congr_right fun _ => ?_
  constructor
  · intro hwindows recent d older hsplit
    have hwindow := hwindows (recent.map visit) (visit d) (older.map visit) (by rw [hsplit]; simp)
    have hearlier : d.time ≤ c.time :=
      (h.counted.past d (by rw [hsplit]; simp)).trans hcall.1
    rw [taken_visits] at hwindow
    simp only [visit] at hwindow
    rw [seconds_sub hearlier]
    linarith
  · intro hfits recent v older hsplit
    obtain ⟨recent, d, older, rfl, rfl, rfl, hcalls⟩ :
        ∃ recent' d older', recent = List.map visit recent' ∧ v = visit d ∧
          older = List.map visit older' ∧ calls = recent' ++ d :: older' := by
      obtain ⟨recent', rest, hcalls, hrecent, hrest⟩ := List.map_eq_append_iff.mp hsplit
      obtain ⟨d, older', rfl, hd, holder⟩ := List.map_eq_cons_iff.mp hrest
      exact ⟨recent', d, older', hrecent.symm, hd.symm, holder.symm, hcalls⟩
    have hfit := hfits recent d older hcalls
    have hearlier : d.time ≤ c.time :=
      (h.counted.past d (by rw [hcalls]; simp)).trans hcall.1
    rw [taken_visits]
    simp only [visit]
    rw [seconds_sub hearlier] at hfit
    linarith

/-! ## The rolling day -/

/-- No stretch of a day, its start included and its end not, holds more accepted bytes than the daily
quota. -/
def Rolling (calls : List Charge) : Prop :=
  ∀ start, Charge.total (calls.filter fun d => start ≤ d.time ∧ d.time < start + dayNanos) ≤
    bytesPerDay

/-- The daily quota is a rolling one, in the sequences of calls that meet a condition. -/
def RollingQuota (C : List Charge → Meter → Charge → Prop) : Prop :=
  ∀ lastRefill dayWindowStart calls s,
    Reaches Call (fun calls s c => c.bytes ≤ Protocol.relayMaxFrame ∧ C calls s c)
      (new lastRefill dayWindowStart) calls s → Rolling calls

/-- A call that resets the window comes a day after the last bytes that were accepted before it. -/
def ForgetsNothing (calls : List Charge) (s : Meter) (c : Charge) : Prop :=
  dayNanos ≤ c.time - s.quota.dayWindowStart →
    ∀ d ∈ calls, d.accepted ≠ 0 → d.time + dayNanos ≤ c.time

/-- The calls before the window are a day before all those in it. -/
def Separated (calls : List Charge) (s : Meter) : Prop :=
  ∀ d ∈ calls, d.accepted ≠ 0 → d.time < s.quota.dayWindowStart →
    d.time + dayNanos ≤ s.quota.dayWindowStart

theorem Separated.call {s' : Meter} {c : Charge} (h : Separated calls s) (hs : Counted calls s)
    (hcall : Call s c s') (hforgets : ForgetsNothing calls s c) : Separated (c :: calls) s' := by
  have hbegun := (hs.call hcall).begun
  have hquota := hcall.quota
  obtain ⟨hclock, -, rfl⟩ := hcall
  intro d hd haccepted hbefore
  rcases List.mem_cons.mp hd with rfl | hd
  · exact absurd hbefore (not_lt.mpr hbegun)
  · rw [hquota] at hbefore ⊢
    by_cases hroll : dayNanos ≤ c.time - s.quota.dayWindowStart
    · simp only [PeerQuota.rolled, if_pos hroll]
      exact hforgets hroll d hd haccepted
    · simp only [PeerQuota.rolled, if_neg hroll] at hbefore ⊢
      exact h d hd haccepted hbefore

/-- A stretch of a day that reaches into the window holds nothing from before it. -/
theorem Rolling.call {s' : Meter} {c : Charge} (h : Rolling calls) (hs : Counted (c :: calls) s')
    (hseparated : Separated (c :: calls) s') (hclock : s'.clock = c.time) :
    Rolling (c :: calls) := by
  intro start
  by_cases hin : start ≤ c.time ∧ c.time < start + dayNanos
  · calc
      Charge.total ((c :: calls).filter fun d => start ≤ d.time ∧ d.time < start + dayNanos)
          ≤ since s'.quota.dayWindowStart (c :: calls) := by
        apply Charge.total_filter_le
        intro d hd hstretch haccepted
        have hfar := hseparated d hd haccepted
        have hbegun := hs.begun
        simp only [decide_eq_true_eq] at hstretch ⊢
        omega
      _ = s'.quota.dayUsed := hs.used.symm
      _ ≤ bytesPerDay := hs.bounded
  · rw [List.filter_cons_of_neg (by simpa using hin)]
    exact h start

/-- The counter bounds every stretch of a day as long as no reset forgets bytes that are less than a
day old. -/
theorem rollingQuota_of_forgetsNothing
    (h : Reaches Call (fun calls s c => c.bytes ≤ Protocol.relayMaxFrame ∧ ForgetsNothing calls s c)
      (new lastRefill dayWindowStart) calls s) : Rolling calls := by
  have hinv : Separated calls s ∧ Rolling calls := by
    refine h.invariant (I := fun calls s => Separated calls s ∧ Rolling calls) ?_ ?_
    · refine ⟨fun d hd => ?_, fun start => ?_⟩
      · cases hd
      · exact Nat.zero_le _
    · intro calls s c s' hprior ih hcall hguard
      obtain ⟨hseparated, hrolling⟩ := ih
      have hs := counted hprior
      have hs' := hs.call hcall
      have hseparated' := hseparated.call hs hcall hguard.2
      refine ⟨hseparated', hrolling.call hs' hseparated' ?_⟩
      obtain ⟨-, -, rfl⟩ := hcall
      rfl
  exact hinv.2

theorem tryConsume_full {q : PeerQuota} {now : ℕ} (hfull : q.filled now = bytesPerSecond)
    (hday : (q.rolled now).1 + Protocol.relayMaxFrame ≤ bytesPerDay) :
    q.tryConsume now Protocol.relayMaxFrame = (.ok (), ⟨bytesPerSecond - Protocol.relayMaxFrame, now,
      (q.rolled now).1 + Protocol.relayMaxFrame, (q.rolled now).2⟩) := by
  have hbucket : ¬ (bytesPerSecond : ℚ) < Protocol.relayMaxFrame := by
    norm_num [bytesPerSecond, Protocol.relayMaxFrame]
  rw [PeerQuota.tryConsume_eq]
  dsimp only
  rw [hfull, if_neg (not_lt.mpr hday), if_neg hbucket]

theorem filled_new (now : ℕ) : (PeerQuota.new 0 0).filled now = bytesPerSecond := by
  have hfilled : (0 : ℚ) ≤ seconds now * bytesPerSecond := by
    simp only [seconds]
    positivity
  simp only [PeerQuota.filled, PeerQuota.new, Nat.sub_zero]
  exact min_eq_right (le_add_of_nonneg_right hfilled)

/-- Two frames, the second a day after the first. -/
theorem rollingQuota_two_days : ∃ calls s,
    Reaches Call (fun calls s c => c.bytes ≤ Protocol.relayMaxFrame ∧ ForgetsNothing calls s c)
      (new 0 0) calls s ∧
      Charge.total calls = 2 * Protocol.relayMaxFrame ∧ s.quota.dayWindowStart = dayNanos ∧
      Rolling calls := by
  have hfirst := tryConsume_full (filled_new 0) (by decide)
  have hrolled : (PeerQuota.new 0 0).rolled 0 = (0, 0) := by decide
  rw [hrolled, Nat.zero_add] at hfirst
  have hfilled : (⟨bytesPerSecond - Protocol.relayMaxFrame, 0, Protocol.relayMaxFrame, 0⟩ :
      PeerQuota).filled dayNanos = bytesPerSecond := by
    norm_num [PeerQuota.filled, seconds, dayNanos, bytesPerSecond, Protocol.relayMaxFrame,
      nanosPerSecond]
  have hsecond := tryConsume_full hfilled (by decide)
  have hreset : (⟨bytesPerSecond - Protocol.relayMaxFrame, 0, Protocol.relayMaxFrame, 0⟩ :
      PeerQuota).rolled dayNanos = (0, dayNanos) := if_pos (le_refl _)
  rw [hreset] at hsecond
  have hreaches : Reaches Call
      (fun calls s c => c.bytes ≤ Protocol.relayMaxFrame ∧ ForgetsNothing calls s c) (new 0 0)
      [⟨dayNanos, Protocol.relayMaxFrame, .ok ()⟩, ⟨0, Protocol.relayMaxFrame, .ok ()⟩]
      ⟨dayNanos, ⟨bytesPerSecond - Protocol.relayMaxFrame, dayNanos, 0 + Protocol.relayMaxFrame,
        dayNanos⟩⟩ := by
    refine .next (.next .start (Call.of_tryConsume (le_refl 0) hfirst) ⟨le_refl _, ?_⟩)
      (Call.of_tryConsume (Nat.zero_le _) hsecond) ⟨le_refl _, ?_⟩
    · intro _ d hd _
      cases hd
    · intro _ d hd _
      obtain rfl := List.mem_singleton.mp hd
      exact le_of_eq (Nat.zero_add dayNanos)
  exact ⟨_, _, hreaches, rfl, rfl, rollingQuota_of_forgetsNothing hreaches⟩

/-- Frames of the largest size, sixteen a second, that fill the first day's last 1024 seconds and go
on; the newest first. -/
def burst : ℕ → List Charge
  | 0 => []
  | n + 1 =>
    ⟨85376 * nanosPerSecond + n * 62500000, Protocol.relayMaxFrame, .ok ()⟩ :: burst n

/-- The quota after a burst that has not left the first day. -/
def spent (n : ℕ) : PeerQuota :=
  ⟨bytesPerSecond - Protocol.relayMaxFrame, 85376 * nanosPerSecond + n * 62500000,
    (n + 1) * Protocol.relayMaxFrame, 0⟩

theorem total_burst (n : ℕ) : Charge.total (burst n) = n * Protocol.relayMaxFrame := by
  induction n with
  | zero => rfl
  | succ n ih =>
    rw [burst, Charge.total_cons, ih]
    simp only [Charge.accepted]
    ring

theorem burst_times {n : ℕ} (hn : n ≤ 16385) {d : Charge} (hd : d ∈ burst n) :
    85376 * nanosPerSecond ≤ d.time ∧ d.time < 85376 * nanosPerSecond + dayNanos := by
  induction n with
  | zero => cases hd
  | succ n ih =>
    rcases List.mem_cons.mp hd with rfl | hd
    · simp only [dayNanos, nanosPerSecond]
      omega
    · exact ih (by omega) hd

theorem filled_spent (n : ℕ) :
    (spent n).filled (85376 * nanosPerSecond + (n + 1) * 62500000) = bytesPerSecond := by
  have hnanos : 85376 * nanosPerSecond + (n + 1) * 62500000 - (spent n).lastRefill = 62500000 := by
    simp only [spent]
    omega
  rw [PeerQuota.filled, hnanos]
  norm_num [spent, seconds, bytesPerSecond, Protocol.relayMaxFrame, nanosPerSecond]

theorem reaches_burst (n : ℕ) (hn : n < 16384) :
    Reaches Call (fun _ _ c => c.bytes ≤ Protocol.relayMaxFrame ∧ True) (new 0 0) (burst (n + 1))
      ⟨85376 * nanosPerSecond + n * 62500000, spent n⟩ := by
  induction n with
  | zero =>
    have hrolled : (PeerQuota.new 0 0).rolled (85376 * nanosPerSecond + 0 * 62500000) = (0, 0) := by
      decide
    have hcall := tryConsume_full (filled_new _) (by rw [hrolled]; decide)
    rw [hrolled] at hcall
    refine .next .start ?_ ⟨le_refl _, trivial⟩
    exact Call.of_tryConsume (Nat.zero_le _) hcall
  | succ n ih =>
    have hrolled : (spent n).rolled (85376 * nanosPerSecond + (n + 1) * 62500000) =
        ((n + 1) * Protocol.relayMaxFrame, 0) := by
      refine if_neg ?_
      simp only [spent, dayNanos, nanosPerSecond]
      omega
    have hday : (n + 1) * Protocol.relayMaxFrame + Protocol.relayMaxFrame ≤ bytesPerDay := by
      simp only [Protocol.relayMaxFrame, bytesPerDay]
      omega
    have hcall := tryConsume_full (filled_spent n) (by rw [hrolled]; exact hday)
    rw [hrolled, ← Nat.succ_mul] at hcall
    refine .next (ih (by omega)) ?_ ⟨le_refl _, trivial⟩
    refine Call.of_tryConsume ?_ hcall
    dsimp only
    omega

/-- Just over a gigabyte in 1024 seconds, the last frame of it after a reset. -/
theorem burst_not_rolling : ¬ RollingQuota fun _ _ _ => True := by
  intro hquota
  have hrolled : (spent 16383).rolled (85376 * nanosPerSecond + (16383 + 1) * 62500000) =
      (0, 85376 * nanosPerSecond + (16383 + 1) * 62500000) := by
    refine if_pos ?_
    simp only [spent, dayNanos, nanosPerSecond]
    omega
  have hcall := tryConsume_full (filled_spent 16383) (by rw [hrolled]; decide)
  have hclock : 85376 * nanosPerSecond + 16383 * 62500000 ≤
      85376 * nanosPerSecond + (16383 + 1) * 62500000 := by omega
  have hreaches := Reaches.next (reaches_burst 16383 (by omega)) (Call.of_tryConsume hclock hcall)
    ⟨le_refl _, trivial⟩
  have hday := hquota 0 0 (burst 16385) _ hreaches (85376 * nanosPerSecond)
  rw [List.filter_eq_self.mpr fun d hd => decide_eq_true (burst_times (le_refl _) hd),
    total_burst] at hday
  revert hday
  decide

end Meter

end HashedBroker.Relay
