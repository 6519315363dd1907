import HashedBroker.Database

/-!
# Handles, teams and concurrent database calls

`handles.rs` and `teams.rs`, and the machine in which any number of their calls run against one
database, interleaved statement by statement. A task of the machine is one call.
-/
namespace HashedBroker

namespace Handles
open Database

variable (crates : Crates)

def allowedChar (ch : Char) : Bool :=
  ('a' ≤ ch && ch ≤ 'z') || ('0' ≤ ch && ch ≤ '9') || ch = '.' || ch = '-' || ch = '_'

/-- The loop over the characters, with the number of `@` seen so far. -/
def validateChars : ℕ → List Char → Except BrokerError Unit
  | _, [] => pure ()
  | atCount, ch :: rest =>
    if allowedChar ch then validateChars atCount rest
    else if ch = '@' then
      if 1 < atCount + 1 then throw (.malformed "handle has >1 '@'")
      else validateChars (atCount + 1) rest
    else throw (.malformed ("handle char " ++ crates.charDebug ch ++
      " not allowed (lowercase alnum, .-_ or single @)"))

/-- The length is that of the UTF-8 text. -/
def validateHandle (handle : String) : Except BrokerError Unit :=
  let len := handle.utf8ByteSize
  if 2 ≤ len ∧ len ≤ 64 then validateChars crates 0 handle.toList
  else throw (.malformed ("handle length " ++ toString len ++ " not in [2, 64]"))

def claim (pubkey handle : String) : Query Unit := do
  check (validateHandle crates handle)
  upsertPeer pubkey
  claimHandle pubkey handle

def resolve (handle : String) : Query (Option String) := resolveHandle handle

def claimStatements (pubkey handle : String) : List Statement :=
  [.upsertPeer pubkey, .begin, .selectHandle pubkey, .selectOwner handle,
    .insertHandle handle pubkey, .updatePeerHandle handle pubkey, .commit, .rollback]

theorem claim_always (pubkey handle : String) :
    (claim crates pubkey handle).run.Always (· ∈ claimStatements pubkey handle) := by
  simp only [claim, upsertPeer, claimHandle]
  refine always_check_bind fun _ _ => ?_
  refine always_execute_bind (by simp [claimStatements]) fun _ => ?_
  refine always_execute_bind (by simp [claimStatements]) fun _ => ?_
  refine always_execute_bind (by simp [claimStatements]) fun existing => ?_
  cases existing with
  | some h =>
    refine always_execute_bind (by simp [claimStatements]) fun _ => ?_
    split_ifs
    · exact trivial
    · exact trivial
  | none =>
    refine always_execute_bind (by simp [claimStatements]) fun owner => ?_
    cases owner with
    | some pk => exact always_execute_bind (by simp [claimStatements]) fun _ => trivial
    | none =>
      refine always_execute_bind (by simp [claimStatements]) fun _ => ?_
      refine always_execute_bind (by simp [claimStatements]) fun _ => ?_
      rw [run_execute]
      exact ⟨by simp [claimStatements], fun _ => trivial⟩

end Handles

namespace Teams
open Database

variable (crates : Crates)

/-- The 16 bytes of the team id followed by the 32 bytes of the member's key. -/
def adminSignedBytes (teamId : Uuid) (memberPubkeyHex : String) : Except BrokerError Bytes := do
  let memberBytes ← (crates.hexDecode (Auth.keyHex memberPubkeyHex)).mapError .invalidPubKey
  if memberBytes.length ≠ 32 then throw (.invalidPubKey "member pubkey must be 32 bytes")
  else pure (teamId.toList ++ memberBytes)

/-- The team is written before the admin's signature is checked, and the check is made under the
key the message claims. -/
def announce (announcingPubkey : String) (teamId : Option Uuid)
    (teamName adminPubkey adminSignature : String) : Query Uuid := do
  let id ← upsertTeam teamId teamName adminPubkey
  let signed ← check (adminSignedBytes crates id announcingPubkey)
  check (Auth.verifyDetached crates adminPubkey adminSignature signed)
  upsertPeer announcingPubkey
  addTeamMember id announcingPubkey adminSignature
  pure id

def AnnounceStatement (announcingPubkey : String) (teamId : Option Uuid)
    (teamName adminPubkey adminSignature : String) (s : Statement) : Prop :=
  (∃ id, teamId = some id ∧ s = .upsertTeam id teamName adminPubkey) ∨
  (teamId = none ∧ s = .insertTeam teamName adminPubkey) ∨
  s = .upsertPeer announcingPubkey ∨
  ∃ id, s = .insertTeamMember id announcingPubkey adminSignature

theorem announce_always (announcingPubkey : String) (teamId : Option Uuid)
    (teamName adminPubkey adminSignature : String) :
    (announce crates announcingPubkey teamId teamName adminPubkey adminSignature).run.Always
      (AnnounceStatement announcingPubkey teamId teamName adminPubkey adminSignature) := by
  have hrest : ∀ id, (do
      let signed ← check (adminSignedBytes crates id announcingPubkey)
      check (Auth.verifyDetached crates adminPubkey adminSignature signed)
      execute (.upsertPeer announcingPubkey)
      execute (.insertTeamMember id announcingPubkey adminSignature)
      pure id : Query Uuid).run.Always
      (AnnounceStatement announcingPubkey teamId teamName adminPubkey adminSignature) := by
    intro id
    refine always_check_bind fun _ _ => ?_
    refine always_check_bind fun _ _ => ?_
    refine always_execute_bind (Or.inr (Or.inr (Or.inl rfl))) fun _ => ?_
    exact always_execute_bind (Or.inr (Or.inr (Or.inr ⟨id, rfl⟩))) fun _ => trivial
  simp only [announce, upsertPeer, addTeamMember]
  cases teamId with
  | some id =>
    simp only [upsertTeam, bind_assoc, pure_bind]
    exact always_execute_bind (Or.inl ⟨id, rfl, rfl⟩) fun _ => hrest id
  | none => exact always_execute_bind (Or.inr (Or.inl ⟨rfl, rfl⟩)) fun id => hrest id

def members (teamId : Uuid) : Query (List TeamMemberRow) := teamMembers teamId

def parseTeamId (s : String) : Except BrokerError Uuid :=
  (crates.uuidParse s).mapError fun e => .malformed ("team_id: " ++ e)

end Teams

namespace DatabaseCalls
open Database AtomicPrograms ReactiveTasks

inductive Call
  | upsertPeerWithKind (pubkey kind : String)
  | claim (pubkey handle : String)
  | announce (announcingPubkey : String) (teamId : Option Uuid)
      (teamName adminPubkey adminSignature : String)

inductive CallState
  | idle
  | calling (c : Call)
  | returned (c : Call) (result : Except BrokerError (Option Uuid))

def Call.program (crates : Crates) : Call → Prog Statement Answer (Except BrokerError (Option Uuid))
  | upsertPeerWithKind pubkey kind =>
    (do let _ ← Database.upsertPeerWithKind pubkey kind; pure none : Query (Option Uuid)).run
  | claim pubkey handle =>
    (do let _ ← Handles.claim crates pubkey handle; pure none : Query (Option Uuid)).run
  | announce announcingPubkey teamId teamName adminPubkey adminSignature =>
    (do
      let id ← Teams.announce crates announcingPubkey teamId teamName adminPubkey adminSignature
      pure (some id) : Query (Option Uuid)).run

def CallState.finish : CallState → Except BrokerError (Option Uuid) → CallState
  | .calling c, result => .returned c result
  | state, _ => state

/-- Calls made by the tasks `ℕ`, one each. -/
def calls (crates : Crates) : Machine ℕ Statement Answer Database.Env (Db ℕ) CallState Call
    (Except BrokerError (Option Uuid)) Empty where
  exec t s env db := db.exec t s env
  start
    | _, .idle, c => some (.calling c, c.program crates)
    | _, _, _ => none
  finish := CallState.finish
  disturb x _ := x.elim

abbrev CallConfig := Config ℕ Statement Answer (Db ℕ) CallState (Except BrokerError (Option Uuid))

abbrev CallEvent := Event ℕ Statement Answer Call Empty

def started (db : Db ℕ) : CallConfig := ⟨db, fun _ => .waiting .idle⟩

/-- The tables as the migrations leave them. -/
def emptyDb : Db ℕ := ⟨[], [], [], [], ∅⟩

/-- An environment in which nothing fails. -/
def quiet : Database.Env := ⟨none, Vector.replicate 16 0, 0⟩

end DatabaseCalls

end HashedBroker
