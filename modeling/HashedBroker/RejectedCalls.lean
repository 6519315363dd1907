import HashedBroker.PeerQuotas

/-!
# Calls that are refused

A refused call of `try_consume` still refills the bucket and moves the instant of the last refill.
Refilling in several capped steps is refilling in one, so while the daily window lasts the calls that
are accepted go the same way with the refused ones as without them.
-/
namespace HashedBroker.Relay
open TokenBuckets

namespace PeerQuota

/-- Calls of `try_consume`, each a time and a number of bytes: their results and what they leave. -/
def tryConsumeAll (q : PeerQuota) : List (ℕ × ℕ) → List (Except BrokerError Unit) × PeerQuota
  | [] => ([], q)
  | (now, bytes) :: calls =>
    let rest := tryConsumeAll (q.tryConsume now bytes).2 calls
    ((q.tryConsume now bytes).1 :: rest.1, rest.2)

def withoutRefused (q : PeerQuota) : List (ℕ × ℕ) → List (ℕ × ℕ)
  | [] => []
  | (now, bytes) :: calls =>
    let rest := withoutRefused (q.tryConsume now bytes).2 calls
    if (q.tryConsume now bytes).1.isOk then (now, bytes) :: rest else rest

/-- The clock never goes back: the calls come after the last refill, one after the other. -/
def InOrder (q : PeerQuota) (calls : List (ℕ × ℕ)) : Prop :=
  (q.lastRefill :: calls.map Prod.fst).Pairwise (· ≤ ·)

/-! ## Two quotas alike -/

/-- From an instant on, two quotas hold the same tokens and have used the same bytes. -/
structure Alike (clock : ℕ) (q q' : PeerQuota) : Prop where
  refilled : q.lastRefill ≤ clock
  tokens : ∀ now, clock ≤ now → q.filled now = q'.filled now
  used : q.dayUsed = q'.dayUsed
  window : q.dayWindowStart = q'.dayWindowStart

variable {q q' : PeerQuota} {clock now bytes : ℕ}

theorem filled_filled (hrefilled : q.lastRefill ≤ clock) (hnow : clock ≤ now) (used start : ℕ) :
    filled ⟨q.filled clock, clock, used, start⟩ now = q.filled now := by
  have hcame : (0 : ℚ) ≤ seconds (now - clock) * bytesPerSecond := by
    simp only [seconds]
    positivity
  have hsplit : seconds (now - q.lastRefill) =
      seconds (clock - q.lastRefill) + seconds (now - clock) := by
    rw [Meter.seconds_sub (hrefilled.trans hnow), Meter.seconds_sub hrefilled, Meter.seconds_sub hnow]
    ring
  simp only [filled]
  rw [hsplit, add_mul, ← add_assoc]
  exact refill_refill hcame

theorem rolled_of_lt (h : now < q.dayWindowStart + dayNanos) :
    q.rolled now = (q.dayUsed, q.dayWindowStart) := by
  refine if_neg ?_
  simp only [dayNanos, nanosPerSecond] at h ⊢
  omega

theorem Alike.result (h : Alike clock q q') (hnow : clock ≤ now)
    (hday : now < q.dayWindowStart + dayNanos) :
    (q'.tryConsume now bytes).1 = (q.tryConsume now bytes).1 := by
  have hday' : now < q'.dayWindowStart + dayNanos := h.window ▸ hday
  rw [tryConsume_fst, tryConsume_fst, rolled_of_lt hday, rolled_of_lt hday', h.used,
    h.tokens now hnow]

theorem Alike.refuse (h : Alike clock q q') (hnow : clock ≤ now)
    (hday : now < q.dayWindowStart + dayNanos) (hrefused : (q.tryConsume now bytes).1.isOk = false) :
    Alike now (q.tryConsume now bytes).2 q' := by
  have hnothing : (Charge.mk now bytes (q.tryConsume now bytes).1).accepted = 0 := by
    cases hresult : (q.tryConsume now bytes).1 with
    | ok a =>
      rw [hresult] at hrefused
      cases hrefused
    | error e => rfl
  rw [tryConsume_snd]
  simp only [hnothing, rolled_of_lt hday, Nat.cast_zero, sub_zero, Nat.add_zero]
  constructor
  · exact le_refl _
  · intro later hlater
    rw [filled_filled (h.refilled.trans hnow) hlater]
    exact h.tokens later (hnow.trans hlater)
  · exact h.used
  · exact h.window

theorem Alike.accept (h : Alike clock q q') (hnow : clock ≤ now)
    (hday : now < q.dayWindowStart + dayNanos) :
    Alike now (q.tryConsume now bytes).2 (q'.tryConsume now bytes).2 := by
  have hday' : now < q'.dayWindowStart + dayNanos := h.window ▸ hday
  have hsame : (q'.tryConsume now bytes).2 = (q.tryConsume now bytes).2 := by
    rw [tryConsume_snd, tryConsume_snd, h.result hnow hday, rolled_of_lt hday, rolled_of_lt hday',
      h.used, h.window, h.tokens now hnow]
  rw [hsame, tryConsume_snd]
  exact ⟨le_refl _, fun _ _ => rfl, rfl, rfl⟩

theorem tryConsume_window (hday : now < q.dayWindowStart + dayNanos) :
    (q.tryConsume now bytes).2.dayWindowStart = q.dayWindowStart := by
  rw [tryConsume_snd, rolled_of_lt hday]

/-! ## Sequences of calls -/

theorem Alike.without {calls : List (ℕ × ℕ)} (h : Alike clock q q')
    (horder : (clock :: calls.map Prod.fst).Pairwise (· ≤ ·))
    (hday : ∀ c ∈ calls, c.1 < q.dayWindowStart + dayNanos) :
    (q'.tryConsumeAll (q.withoutRefused calls)).1 = (q.tryConsumeAll calls).1.filter Except.isOk ∧
      ∀ now, (∀ time ∈ clock :: calls.map Prod.fst, time ≤ now) →
        Alike now (q.tryConsumeAll calls).2 (q'.tryConsumeAll (q.withoutRefused calls)).2 := by
  induction calls generalizing clock q q' with
  | nil =>
    refine ⟨rfl, fun now hlater => ?_⟩
    have hclock := hlater clock List.mem_cons_self
    exact ⟨h.refilled.trans hclock, fun later hnow => h.tokens later (hclock.trans hnow), h.used,
      h.window⟩
  | cons call calls ih =>
    obtain ⟨now, bytes⟩ := call
    obtain ⟨hfirst, hrest⟩ := List.pairwise_cons.mp horder
    have hnow : clock ≤ now := hfirst now List.mem_cons_self
    have hwindow := hday _ List.mem_cons_self
    have hday' : ∀ c ∈ calls, c.1 < (q.tryConsume now bytes).2.dayWindowStart + dayNanos := by
      intro c hc
      rw [tryConsume_window hwindow]
      exact hday c (List.mem_cons_of_mem _ hc)
    simp only [withoutRefused, tryConsumeAll]
    cases hok : (q.tryConsume now bytes).1.isOk with
    | true =>
      obtain ⟨hresults, hleft⟩ := ih (h.accept hnow hwindow) hrest hday'
      rw [if_pos rfl, tryConsumeAll, List.filter_cons_of_pos hok]
      refine ⟨?_, fun later hlater => ?_⟩
      · rw [hresults, h.result hnow hwindow]
      · exact hleft later fun time htime => hlater time (List.mem_cons_of_mem _ htime)
    | false =>
      obtain ⟨hresults, hleft⟩ := ih (h.refuse hnow hwindow hok) hrest hday'
      rw [if_neg Bool.false_ne_true, List.filter_cons_of_neg (by simp [hok])]
      refine ⟨hresults, fun later hlater => ?_⟩
      exact hleft later fun time htime => hlater time (List.mem_cons_of_mem _ htime)

/-- Within a daily window, the calls of a sequence that are accepted have the same results without
those that are refused, and at every later instant they leave the same tokens and the same bytes
used. -/
theorem refused_calls_cost_nothing (q : PeerQuota) (calls : List (ℕ × ℕ)) (horder : q.InOrder calls)
    (hday : ∀ c ∈ calls, c.1 < q.dayWindowStart + dayNanos) :
    (q.tryConsumeAll (q.withoutRefused calls)).1 = (q.tryConsumeAll calls).1.filter Except.isOk ∧
      ∀ now, (∀ time ∈ q.lastRefill :: calls.map Prod.fst, time ≤ now) →
        now < q.dayWindowStart + dayNanos →
        (q.tryConsumeAll (q.withoutRefused calls)).2.filled now =
            (q.tryConsumeAll calls).2.filled now ∧
          (q.tryConsumeAll (q.withoutRefused calls)).2.dayUsed =
            (q.tryConsumeAll calls).2.dayUsed := by
  have hself : Alike q.lastRefill q q := ⟨le_refl _, fun _ _ => rfl, rfl, rfl⟩
  obtain ⟨hresults, hleft⟩ := hself.without horder hday
  refine ⟨hresults, fun now hlater _ => ?_⟩
  have halike := hleft now hlater
  exact ⟨(halike.tokens now (le_refl _)).symm, halike.used.symm⟩

/-- A call that empties the bucket, one that is refused at the same instant and one a second later. -/
def spending : List (ℕ × ℕ) := [(0, bytesPerSecond), (0, 1), (nanosPerSecond, 1000)]

theorem refused_calls_cost_nothing_spending :
    ((new 0 0).tryConsumeAll spending).1.map Except.isOk = [true, false, true] ∧
      ((new 0 0).tryConsumeAll ((new 0 0).withoutRefused spending)).1 =
        ((new 0 0).tryConsumeAll spending).1.filter Except.isOk := by
  have horder : (new 0 0).InOrder spending := by
    simp [InOrder, spending, new, nanosPerSecond]
  have hday : ∀ c ∈ spending, c.1 < (new 0 0).dayWindowStart + dayNanos := by
    simp [spending, new, dayNanos, nanosPerSecond]
  exact ⟨by decide +kernel, (refused_calls_cost_nothing _ spending horder hday).1⟩

end PeerQuota

end HashedBroker.Relay
