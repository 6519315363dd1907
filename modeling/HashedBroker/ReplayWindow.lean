import HashedBroker.Auth

/-!
# The replay window

`check_timestamp` subtracts a timestamp anyone can choose from the clock. The difference of a
timestamp far in the past does not fit into 64 bits, and the check takes it for one in the future.
-/
namespace HashedBroker.Auth
open Protocol

/-- An operation of `check_timestamp` leaves the range of its type: the subtraction, or the negation
that is made for a message from the future. -/
def Overflows (now : UnixTime) (ts : Int64) : Prop :=
  BitVec.ssubOverflow now.secs.toBitVec ts.toBitVec = true ∨
    now.secs - ts < -maxDriftSecs ∧ BitVec.negOverflow (now.secs - ts).toBitVec = true

/-- The check computes with the true difference of the clock and the timestamp, and its verdict and
the drift it reports are those of that difference. -/
structure Exact (now : UnixTime) (ts : Int64) : Prop where
  inRange : ¬ Overflows now ts
  fresh : checkTimestamp now ts = .ok () ↔ |now.secs.toInt - ts.toInt| ≤ 60
  stale : ∀ drift, checkTimestamp now ts = .error (.staleMessage drift) ↔
    60 < now.secs.toInt - ts.toInt ∧ drift.toInt = now.secs.toInt - ts.toInt
  future : ∀ drift, checkTimestamp now ts = .error (.futureMessage drift) ↔
    60 < ts.toInt - now.secs.toInt ∧ drift.toInt = ts.toInt - now.secs.toInt

section Arithmetic

variable {now : UnixTime} {ts : Int64}

/-- The clock is not before 1970, so only a timestamp far in the past leaves the range. -/
theorem ssubOverflow_iff : BitVec.ssubOverflow now.secs.toBitVec ts.toBitVec = true ↔
    2 ^ 63 ≤ now.secs.toInt - ts.toInt := by
  have hnonneg := now.nonneg
  have hts := int64_range ts
  simp only [BitVec.ssubOverflow, Int64.toInt_toBitVec, Bool.or_eq_true, decide_eq_true_eq]
  omega

theorem toInt_sub_of_lt (h : now.secs.toInt - ts.toInt < 2 ^ 63) :
    (now.secs - ts).toInt = now.secs.toInt - ts.toInt := by
  have hnonneg := now.nonneg
  have hts := int64_range ts
  have hmod := Int.bmod_def (now.secs.toInt - ts.toInt) (2 ^ 64)
  rw [Int64.toInt_sub]
  omega

theorem toInt_neg_sub_of_lt (h : now.secs.toInt - ts.toInt < 2 ^ 63) :
    (-(now.secs - ts)).toInt = ts.toInt - now.secs.toInt := by
  have hnonneg := now.nonneg
  have hts := int64_range ts
  have hmod := Int.bmod_def (-(now.secs.toInt - ts.toInt)) (2 ^ 64)
  rw [Int64.toInt_neg, toInt_sub_of_lt h]
  omega

theorem not_overflows (h : now.secs.toInt - ts.toInt < 2 ^ 63) : ¬ Overflows now ts := by
  have hnonneg := now.nonneg
  have hts := int64_range ts
  rintro (hsub | ⟨-, hneg⟩)
  · rw [ssubOverflow_iff] at hsub
    omega
  · have hmin : (now.secs - ts).toInt = -2 ^ 63 := by
      simpa [BitVec.negOverflow] using hneg
    rw [toInt_sub_of_lt h] at hmin
    omega

theorem checkTimestamp_eq (h : now.secs.toInt - ts.toInt < 2 ^ 63) :
    checkTimestamp now ts =
      if 60 < now.secs.toInt - ts.toInt then .error (.staleMessage (now.secs - ts))
      else if 60 < ts.toInt - now.secs.toInt then .error (.futureMessage (-(now.secs - ts)))
      else .ok () := by
  have hstale : maxDriftSecs < now.secs - ts ↔ 60 < now.secs.toInt - ts.toInt := by
    rw [Int64.lt_iff_toInt_lt, toInt_sub_of_lt h]
    exact Iff.rfl
  have hfuture : now.secs - ts < -maxDriftSecs ↔ 60 < ts.toInt - now.secs.toInt := by
    have hdrift : (-maxDriftSecs).toInt = -60 := by decide
    rw [Int64.lt_iff_toInt_lt, toInt_sub_of_lt h, hdrift]
    omega
  simp only [checkTimestamp, hstale, hfuture]
  rfl

end Arithmetic

/-- The window is exact for every timestamp whose distance into the past fits into 64 bits, and for
no other. -/
theorem exact_iff (now : UnixTime) (ts : Int64) :
    Exact now ts ↔ now.secs.toInt - ts.toInt < 2 ^ 63 := by
  constructor
  · intro h
    by_contra hlate
    exact h.inRange (Or.inl (ssubOverflow_iff.mpr (by omega)))
  · intro h
    have heq := checkTimestamp_eq h
    have hsub := toInt_sub_of_lt h
    have hneg := toInt_neg_sub_of_lt h
    constructor
    · exact not_overflows h
    · rw [heq, abs_le]
      split_ifs with hstale hfuture
      · exact iff_of_false nofun (by omega)
      · exact iff_of_false nofun (by omega)
      · exact iff_of_true rfl (by omega)
    · intro drift
      rw [heq]
      split_ifs with hstale hfuture
      · simp only [Except.error.injEq, BrokerError.staleMessage.injEq, ← Int64.toInt_inj, hsub]
        exact ⟨fun hdrift => ⟨hstale, hdrift.symm⟩, fun hdrift => hdrift.2.symm⟩
      · exact iff_of_false nofun fun hdrift => hstale hdrift.1
      · exact iff_of_false nofun fun hdrift => hstale hdrift.1
    · intro drift
      rw [heq]
      split_ifs with hstale hfuture
      · refine iff_of_false nofun fun hdrift => ?_
        omega
      · simp only [Except.error.injEq, BrokerError.futureMessage.injEq, ← Int64.toInt_inj, hneg]
        exact ⟨fun hdrift => ⟨hfuture, hdrift.symm⟩, fun hdrift => hdrift.2.symm⟩
      · exact iff_of_false nofun fun hdrift => hfuture hdrift.1

def today : UnixTime := ⟨1760000000, by decide, by decide⟩

/-- The earliest timestamp of all overflows the subtraction; the wrapped difference is taken for a
message from the future. -/
theorem earliest_not_exact : ¬ Exact today Int64.minValue ∧ Overflows today Int64.minValue ∧
    ∃ drift, checkTimestamp today Int64.minValue = .error (.futureMessage drift) := by
  have hlate : ¬ today.secs.toInt - Int64.minValue.toInt < 2 ^ 63 := by decide
  refine ⟨fun h => hlate ((exact_iff _ _).mp h), Or.inl (by decide), ?_⟩
  exact ⟨-(today.secs - Int64.minValue), by decide⟩

end HashedBroker.Auth
