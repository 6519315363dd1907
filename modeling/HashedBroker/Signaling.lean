import HashedBroker.Auth
import HashedBroker.KeyedTables
import HashedBroker.AtomicPrograms

/-!
# The signaling limiter

`signaling.rs` looks a limiter up and inserts a new one in a second access when there is none. The
limiters made for a key are numbered, and each remembers the times it was asked.
-/
namespace HashedBroker.Signaling
open KeyedTables AtomicPrograms

/-- The current limiter of each key, and the checks each limiter has answered, the newest first. -/
structure SignalingLimiter where
  map : Table String ℕ
  checks : Table (String × ℕ) (List ℕ)

inductive Access
  | get (pubkey : String)
  | insert (pubkey : String)
  | check (pubkey : String) (limiter : ℕ)

abbrev Access.Result : Access → Type
  | get _ => Option ℕ
  | insert _ => ℕ
  | check .. => Bool

namespace SignalingLimiter

def empty : SignalingLimiter := ⟨∅, ∅⟩

/-- The number of the next limiter of a key. -/
def fresh (sl : SignalingLimiter) (pubkey : String) : ℕ := (sl.map.lookup pubkey).elim 0 (· + 1)

def log (sl : SignalingLimiter) (pubkey : String) (limiter : ℕ) : List ℕ :=
  (sl.checks.lookup (pubkey, limiter)).getD []

def exec (crates : Crates) (instant : ℕ) (sl : SignalingLimiter) :
    (a : Access) → a.Result × SignalingLimiter
  | .get pubkey => (sl.map.lookup pubkey, sl)
  | .insert pubkey =>
    (sl.fresh pubkey, { sl with map := sl.map.insert pubkey (sl.fresh pubkey) })
  | .check pubkey limiter =>
    (crates.limiterAllows (sl.log pubkey limiter) instant, { sl with
      checks := sl.checks.insert (pubkey, limiter) (instant :: sl.log pubkey limiter) })

end SignalingLimiter

/-! ## The methods -/

abbrev Method (α : Type) := Prog Access Access.Result α

def access (a : Access) : Method a.Result := Prog.perform a

def limiterFor (pubkey : String) : Method ℕ := do
  match ← access (.get pubkey) with
  | some limiter => pure limiter
  | none => access (.insert pubkey)

def check (pubkey : String) : Method (Except BrokerError Unit) := do
  let limiter ← limiterFor pubkey
  let allowed ← access (.check pubkey limiter)
  pure (if allowed then .ok () else .error .rateLimited)

end HashedBroker.Signaling
