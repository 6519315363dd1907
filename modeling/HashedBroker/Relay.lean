import HashedBroker.Auth
import HashedBroker.KeyedTables
import HashedBroker.AtomicPrograms

/-!
# Relay sessions and quotas

The tables of `relay.rs`, each access to them atomic, and the methods that use nothing else.
Instants are nanoseconds of the monotonic clock, a difference of them saturates at zero, and the
token bucket is exact where the code computes with doubles.
-/
namespace HashedBroker.Relay
open KeyedTables AtomicPrograms

inductive SessionState
  | pending
  | active
  deriving DecidableEq

structure Session where
  initiator : String
  responder : String
  state : SessionState
  deriving DecidableEq

def bytesPerSecond : ℕ := 1024 * 1024

def bytesPerDay : ℕ := 1024 * 1024 * 1024

def nanosPerSecond : ℕ := 10 ^ 9

/-- Token-bucket bandwidth limiter, plus daily quota. -/
structure PeerQuota where
  tokens : ℚ
  lastRefill : ℕ
  dayUsed : ℕ
  dayWindowStart : ℕ
  deriving DecidableEq

namespace PeerQuota

/-- The clock is read twice. -/
def new (lastRefill dayWindowStart : ℕ) : PeerQuota := ⟨bytesPerSecond, lastRefill, 0, dayWindowStart⟩

/-- The refill and the new window stay even when the bytes are refused. -/
def tryConsume (q : PeerQuota) (now bytes : ℕ) : Except BrokerError Unit × PeerQuota :=
  let elapsed : ℚ := (now - q.lastRefill : ℕ) / nanosPerSecond
  let q := { q with
    tokens := min (q.tokens + elapsed * bytesPerSecond) bytesPerSecond
    lastRefill := now }
  let q := if 86400 * nanosPerSecond ≤ now - q.dayWindowStart then
    { q with dayUsed := 0, dayWindowStart := now } else q
  if bytesPerDay < q.dayUsed + bytes then (.error .relayQuotaExceeded, q)
  else if q.tokens < bytes then (.error .rateLimited, q)
  else (.ok (), { q with tokens := q.tokens - bytes, dayUsed := q.dayUsed + bytes })

end PeerQuota

structure RelayManager where
  sessions : Table Uuid Session
  quotas : Table String PeerQuota

/-- `insertSession` draws a fresh identifier and inserts under it; `promote` holds the entry from
the lookup to the change of its state. -/
inductive Access
  | insertSession (initiator responder : String)
  | promote (id : Uuid) (responder : String)
  | getSession (id : Uuid)
  | stale (pubkey : String)
  | removeSession (id : Uuid)
  | quotaEntry (pubkey : String)
  | consume (pubkey : String) (bytes : ℕ)

abbrev Access.Result : Access → Type
  | insertSession .. => Uuid
  | promote .. => Except BrokerError String
  | getSession _ => Option Session
  | stale _ => List Uuid
  | consume .. => Except BrokerError Unit
  | _ => Unit

/-- The environment's part: the identifier drawn, the order of an iteration and two readings of the
clock. -/
structure Env where
  uuid : Uuid
  order : List Uuid
  instant : ℕ
  later : ℕ

def Session.accept (s : Session) (responder : String) : Except BrokerError Session :=
  if s.responder ≠ responder then .error .relayNotConsented
  else if s.state ≠ .pending then .error .relayNotConsented
  else .ok { s with state := .active }

def Session.other (s : Session) (sender : String) : Except BrokerError String :=
  if s.state ≠ .active then .error .relayNotConsented
  else if s.initiator = sender then .ok s.responder
  else if s.responder = sender then .ok s.initiator
  else .error .relayNotConsented

namespace RelayManager

def empty : RelayManager := ⟨∅, ∅⟩

def sessionsOf (rm : RelayManager) (pubkey : String) : List Uuid :=
  (rm.sessions.entries.filter fun e => e.2.initiator = pubkey ∨ e.2.responder = pubkey).map
    Sigma.fst

/-- One access; it is undefined for an iteration order that does not list the sessions, and for a
quota that has not been entered. -/
def exec (env : Env) (rm : RelayManager) : (a : Access) → Option (a.Result × RelayManager)
  | .insertSession initiator responder => some (env.uuid, { rm with
      sessions := rm.sessions.insert env.uuid ⟨initiator, responder, .pending⟩ })
  | .promote id responder =>
    match rm.sessions.lookup id with
    | none => some (.error .relaySessionNotFound, rm)
    | some s =>
      match s.accept responder with
      | .error e => some (.error e, rm)
      | .ok s' => some (.ok s.initiator, { rm with sessions := rm.sessions.insert id s' })
  | .getSession id => some (rm.sessions.lookup id, rm)
  | .stale pubkey =>
    if env.order.Perm (rm.sessionsOf pubkey) then some (env.order, rm) else none
  | .removeSession id => some ((), { rm with sessions := rm.sessions.erase id })
  | .quotaEntry pubkey =>
    match rm.quotas.lookup pubkey with
    | some _ => some ((), rm)
    | none => some ((), { rm with
        quotas := rm.quotas.insert pubkey (PeerQuota.new env.instant env.later) })
  | .consume pubkey bytes =>
    (rm.quotas.lookup pubkey).map fun q =>
      ((q.tryConsume env.instant bytes).1, { rm with
        quotas := rm.quotas.insert pubkey (q.tryConsume env.instant bytes).2 })

theorem exec_promote {env : Env} {rm rm' : RelayManager} {id : Uuid} {responder : String}
    {r : Except BrokerError String} (h : rm.exec env (.promote id responder) = some (r, rm')) :
    (∃ s, rm.sessions.lookup id = some s ∧ s.responder = responder ∧ s.state = .pending ∧
      r = .ok s.initiator ∧
      rm' = { rm with sessions := rm.sessions.insert id { s with state := .active } }) ∨
    (∀ s, rm.sessions.lookup id = some s → s.responder = responder → s.state ≠ .pending) ∧
      (∃ e, r = .error e) ∧ rm' = rm := by
  simp only [exec] at h
  split at h
  · rename_i hnone
    cases h
    refine Or.inr ⟨fun s hs => ?_, ⟨_, rfl⟩, rfl⟩
    rw [hnone] at hs
    cases hs
  · rename_i s hs
    simp only [Session.accept] at h
    split_ifs at h with hresponder hstate
    · cases h
      refine Or.inr ⟨fun s' hs' heq => ?_, ⟨_, rfl⟩, rfl⟩
      rw [hs] at hs'
      cases hs'
      exact absurd heq hresponder
    · cases h
      refine Or.inr ⟨fun s' hs' _ => ?_, ⟨_, rfl⟩, rfl⟩
      rw [hs] at hs'
      cases hs'
      exact hstate
    · cases h
      exact Or.inl ⟨s, hs, not_not.mp hresponder, not_not.mp hstate, rfl, rfl⟩

theorem mem_sessionsOf {rm : RelayManager} {pubkey : String} {id : Uuid} :
    id ∈ rm.sessionsOf pubkey ↔ ∃ s, rm.sessions.lookup id = some s ∧
      (s.initiator = pubkey ∨ s.responder = pubkey) := by
  simp only [sessionsOf, List.mem_map, List.mem_filter, decide_eq_true_eq]
  constructor
  · rintro ⟨⟨id', s⟩, ⟨hmem, hs⟩, rfl⟩
    exact ⟨s, AList.mem_lookup_iff.mpr hmem, hs⟩
  · rintro ⟨s, hl, hs⟩
    exact ⟨⟨id, s⟩, ⟨AList.mem_lookup_iff.mp hl, hs⟩, rfl⟩

section Effects

variable {env : Env} {rm rm' : RelayManager} {a : Access} {r : a.Result}

theorem exec_stale {pubkey : String} {ids : List Uuid}
    (h : rm.exec env (.stale pubkey) = some (ids, rm')) :
    ids.Perm (rm.sessionsOf pubkey) ∧ rm' = rm := by
  simp only [exec] at h
  split_ifs at h with hperm
  cases h
  exact ⟨hperm, rfl⟩

theorem sessions_exec (h : exec env rm a = some (r, rm')) :
    (∃ initiator responder, a = .insertSession initiator responder ∧
      rm'.sessions = rm.sessions.insert env.uuid ⟨initiator, responder, .pending⟩) ∨
    (∃ id s, a = .promote id s.responder ∧ rm.sessions.lookup id = some s ∧ s.state = .pending ∧
      rm'.sessions = rm.sessions.insert id { s with state := .active }) ∨
    (∃ id, a = .removeSession id ∧ rm'.sessions = rm.sessions.erase id) ∨
    rm'.sessions = rm.sessions := by
  cases a with
  | insertSession initiator responder =>
    cases h
    exact Or.inl ⟨initiator, responder, rfl, rfl⟩
  | promote id responder =>
    rcases exec_promote h with ⟨s, hs, rfl, hpending, -, rfl⟩ | ⟨-, -, rfl⟩
    · exact Or.inr (Or.inl ⟨id, s, rfl, hs, hpending, rfl⟩)
    · exact Or.inr (Or.inr (Or.inr rfl))
  | removeSession id =>
    cases h
    exact Or.inr (Or.inr (Or.inl ⟨id, rfl, rfl⟩))
  | getSession id =>
    cases h
    exact Or.inr (Or.inr (Or.inr rfl))
  | stale pubkey =>
    obtain ⟨-, rfl⟩ := exec_stale h
    exact Or.inr (Or.inr (Or.inr rfl))
  | quotaEntry pubkey =>
    simp only [exec] at h
    split at h <;> (cases h; exact Or.inr (Or.inr (Or.inr rfl)))
  | consume pubkey bytes =>
    obtain ⟨q, -, heq⟩ := Option.map_eq_some_iff.mp h
    cases heq
    exact Or.inr (Or.inr (Or.inr rfl))

theorem quotas_exec (h : exec env rm a = some (r, rm')) : rm'.quotas = rm.quotas ∨
    ∃ pubkey q, (a = .quotaEntry pubkey ∨ ∃ bytes, a = .consume pubkey bytes) ∧
      rm'.quotas = rm.quotas.insert pubkey q := by
  cases a with
  | quotaEntry pubkey =>
    simp only [exec] at h
    split at h
    · cases h
      exact Or.inl rfl
    · cases h
      exact Or.inr ⟨pubkey, _, Or.inl rfl, rfl⟩
  | consume pubkey bytes =>
    obtain ⟨q, -, heq⟩ := Option.map_eq_some_iff.mp h
    cases heq
    exact Or.inr ⟨pubkey, _, Or.inr ⟨bytes, rfl⟩, rfl⟩
  | promote id responder =>
    rcases exec_promote h with ⟨s, -, -, -, -, rfl⟩ | ⟨-, -, rfl⟩
    · exact Or.inl rfl
    · exact Or.inl rfl
  | stale pubkey =>
    obtain ⟨-, rfl⟩ := exec_stale h
    exact Or.inl rfl
  | _ =>
    cases h
    exact Or.inl rfl

theorem parties_exec (h : exec env rm a = some (r, rm')) {id : Uuid} {session : Session}
    (hl : rm'.sessions.lookup id = some session) :
    (∃ old, rm.sessions.lookup id = some old ∧ old.initiator = session.initiator ∧
      old.responder = session.responder) ∨
    ∃ initiator responder, a = .insertSession initiator responder ∧
      session = ⟨initiator, responder, .pending⟩ := by
  rcases sessions_exec h with ⟨initiator, responder, rfl, hs⟩ | ⟨id', s, rfl, hold, -, hs⟩ |
    ⟨id', rfl, hs⟩ | hs
  · rw [hs, lookup_insert_ite] at hl
    split_ifs at hl
    · cases hl
      exact Or.inr ⟨initiator, responder, rfl, rfl⟩
    · exact Or.inl ⟨session, hl, rfl, rfl⟩
  · rw [hs, lookup_insert_ite] at hl
    split_ifs at hl with hid
    · cases hl
      exact Or.inl ⟨s, hid ▸ hold, rfl, rfl⟩
    · exact Or.inl ⟨session, hl, rfl, rfl⟩
  · rw [hs, lookup_erase_ite] at hl
    split_ifs at hl
    exact Or.inl ⟨session, hl, rfl, rfl⟩
  · exact Or.inl ⟨session, hs ▸ hl, rfl, rfl⟩

end Effects

end RelayManager

/-! ## The methods that use these tables only -/

abbrev Method (α : Type) := Prog Access Access.Result α

def access (a : Access) : Method a.Result := Prog.perform a

/-- A quota is made on first use and never replaced. -/
def consumeQuota (pubkey : String) (bytes : ℕ) : Method (Except BrokerError Unit) := do
  access (.quotaEntry pubkey)
  access (.consume pubkey bytes)

def removeEach : List Uuid → Method Unit
  | [] => pure ()
  | id :: ids => do
    access (.removeSession id)
    removeEach ids

/-- The sessions are collected first and removed one by one. -/
def dropSessionsFor (pubkey : String) : Method Unit := do
  let stale ← access (.stale pubkey)
  removeEach stale

def parseSessionId (crates : Crates) (s : String) : Except BrokerError Uuid :=
  (crates.uuidParse s).mapError fun e => .malformed ("session_id: " ++ e)

end HashedBroker.Relay
