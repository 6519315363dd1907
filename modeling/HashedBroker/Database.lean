import HashedBroker.Auth
import HashedBroker.KeyedTables
import HashedBroker.ReactiveTasks

/-!
# The database

The tables of `migrations/` and the statements of `db.rs`, one atomic step each, under READ
COMMITTED: a statement sees what is committed and what its own transaction wrote. A statement that
meets a row an open transaction of another task holds waits for it, a violated constraint is an
error, and an error ends the transaction. The columns no statement reads are left out: metadata,
`first_seen`, `last_seen`, `claimed_at` and the teams' `created_at`.
-/
namespace HashedBroker.Database
open KeyedTables AtomicPrograms

structure PeerRow where
  pubkey : String
  handle : Option String
  kind : String
  deriving DecidableEq

structure HandleRow where
  handle : String
  pubkey : String
  deriving DecidableEq

structure TeamRow where
  teamId : Uuid
  name : String
  adminPubkey : String
  deriving DecidableEq

structure TeamMemberRow where
  teamId : Uuid
  memberPubkey : String
  adminSignature : String
  joinedAt : ℕ
  deriving DecidableEq

/-- The writes of an open transaction: rows inserted into `handles`, and the pairs `(pubkey,
handle)` set in `peers`. -/
structure Transaction where
  handles : List HandleRow
  peers : List (String × String)
  deriving DecidableEq

/-- What is committed, and the open transaction of each task that has one. -/
structure Db (Tid : Type) where
  peers : List PeerRow
  handles : List HandleRow
  teams : List TeamRow
  teamMembers : List TeamMemberRow
  transactions : Table Tid Transaction

inductive Statement
  | upsertPeer (pubkey : String)
  | upsertPeerWithKind (pubkey kind : String)
  | peerKind (pubkey : String)
  | begin
  | selectHandle (pubkey : String)
  | selectOwner (handle : String)
  | insertHandle (handle pubkey : String)
  | updatePeerHandle (handle pubkey : String)
  | commit
  | rollback
  | resolveHandle (handle : String)
  | upsertTeam (teamId : Uuid) (name adminPubkey : String)
  | insertTeam (name adminPubkey : String)
  | insertTeamMember (teamId : Uuid) (memberPubkey adminSignature : String)
  | teamMembers (teamId : Uuid)
  deriving DecidableEq

abbrev Statement.Rows : Statement → Type
  | peerKind _ => Option String
  | selectHandle _ => Option String
  | selectOwner _ => Option String
  | resolveHandle _ => Option String
  | insertTeam .. => Uuid
  | teamMembers _ => List TeamMemberRow
  | _ => Unit

abbrev Answer (s : Statement) : Type := Except String s.Rows

/-- The statement belongs to its task's transaction and may change it. -/
def Statement.controls : Statement → Bool
  | begin | insertHandle .. | updatePeerHandle .. | commit | rollback => true
  | _ => false

/-- The environment's part in a statement: a failure for outside reasons, the identifier
`gen_random_uuid()` draws and the transaction time. -/
structure Env where
  fault : Option String
  uuid : Uuid
  now : ℕ

variable {Tid : Type} [DecidableEq Tid]

namespace Db

def ownWrites (db : Db Tid) (t : Tid) : Transaction := (db.transactions.lookup t).getD ⟨[], []⟩

def heldByOther (db : Db Tid) (t : Tid) (test : Transaction → Bool) : Bool :=
  anyBinding db.transactions fun u txn => decide (u ≠ t) && test txn

/-- The statement meets a lock of another transaction. An insertion into `handles` waits for an
uncommitted row of the same handle, and locks its peer's row against changes of its unique column;
an update of that column excludes every other lock of the row. -/
def waits (db : Db Tid) (t : Tid) : Statement → Bool
  | .upsertPeer pubkey => db.heldByOther t fun x => x.peers.any fun p => p.1 = pubkey
  | .upsertPeerWithKind pubkey _ => db.heldByOther t fun x => x.peers.any fun p => p.1 = pubkey
  | .insertHandle handle pubkey => db.heldByOther t fun x =>
    (x.handles.any fun r => r.handle = handle) || x.peers.any fun p => p.1 = pubkey
  | .updatePeerHandle handle pubkey => db.heldByOther t fun x =>
    (x.handles.any fun r => r.pubkey = pubkey) ||
      x.peers.any fun p => p.1 = pubkey || p.2 = handle
  | _ => false

theorem heldByOther_eq_false {db : Db Tid} {t : Tid} {test : Transaction → Bool} :
    db.heldByOther t test = false ↔
      ∀ u txn, u ≠ t → db.transactions.lookup u = some txn → test txn = false := by
  rw [heldByOther, anyBinding_eq_false]
  constructor
  · intro h u txn hut hu
    simpa [hut] using h u txn hu
  · intro h u txn hu
    by_cases hut : u = t
    · simp [hut]
    · simpa [hut] using h u txn hut hu

def abort (db : Db Tid) (t : Tid) : Db Tid :=
  { db with transactions := db.transactions.erase t }

/-- `INSERT INTO peers … ON CONFLICT (pubkey) DO UPDATE`; a new row has the default kind unless
one is given. -/
def upsertPeerRow (rows : List PeerRow) (pubkey : String) (kind : Option String) : List PeerRow :=
  if rows.any fun r => r.pubkey = pubkey then
    rows.map fun r => if r.pubkey = pubkey then { r with kind := kind.getD r.kind } else r
  else rows ++ [⟨pubkey, none, kind.getD "user"⟩]

def upsertTeamRow (rows : List TeamRow) (row : TeamRow) : List TeamRow :=
  if rows.any fun r => r.teamId = row.teamId then
    rows.map fun r => if r.teamId = row.teamId then { r with name := row.name } else r
  else rows ++ [row]

def upsertMemberRow (rows : List TeamMemberRow) (row : TeamMemberRow) : List TeamMemberRow :=
  if rows.any fun r => r.teamId = row.teamId && r.memberPubkey = row.memberPubkey then
    rows.map fun r =>
      if r.teamId = row.teamId ∧ r.memberPubkey = row.memberPubkey then
        { r with adminSignature := row.adminSignature }
      else r
  else rows ++ [row]

/-- The rows of `peers` with the updates of a transaction. -/
def setHandles (updates : List (String × String)) (rows : List PeerRow) : List PeerRow :=
  rows.map fun r => { r with handle := (updates.lookup r.pubkey).or r.handle }

def setWrites (db : Db Tid) (t : Tid) (txn : Transaction) : Db Tid :=
  { db with transactions := db.transactions.insert t txn }

/-- The effect of a statement that does not wait; an error is a violated constraint. -/
def run (db : Db Tid) (t : Tid) (env : Env) : (s : Statement) → Except String (s.Rows × Db Tid)
  | .upsertPeer pubkey => .ok ((), { db with peers := upsertPeerRow db.peers pubkey none })
  | .upsertPeerWithKind pubkey kind =>
    if kind = "user" ∨ kind = "machine" then
      .ok ((), { db with peers := upsertPeerRow db.peers pubkey (some kind) })
    else .error "peers_kind_check"
  | .peerKind pubkey => .ok ((db.peers.find? fun r => r.pubkey = pubkey).map PeerRow.kind, db)
  | .begin => .ok ((), db.setWrites t ⟨[], []⟩)
  | .selectHandle pubkey =>
    .ok (((db.handles ++ (db.ownWrites t).handles).find? fun r => r.pubkey = pubkey).map
      HandleRow.handle, db)
  | .selectOwner handle =>
    .ok (((db.handles ++ (db.ownWrites t).handles).find? fun r => r.handle = handle).map
      HandleRow.pubkey, db)
  | .insertHandle handle pubkey =>
    if (db.handles ++ (db.ownWrites t).handles).any fun r => r.handle = handle then
      .error "handles_pkey"
    else if db.peers.any fun r => r.pubkey = pubkey then
      .ok ((), db.setWrites t { db.ownWrites t with
        handles := (db.ownWrites t).handles ++ [⟨handle, pubkey⟩] })
    else .error "handles_pubkey_fkey"
  | .updatePeerHandle handle pubkey =>
    let rows := setHandles (db.ownWrites t).peers db.peers
    if rows.any fun r => r.pubkey ≠ pubkey && r.handle = some handle then
      .error "peers_handle_key"
    else if rows.any fun r => r.pubkey = pubkey then
      .ok ((), db.setWrites t { db.ownWrites t with
        peers := (pubkey, handle) :: (db.ownWrites t).peers })
    else .ok ((), db)
  | .commit =>
    .ok ((), { db.abort t with
      handles := db.handles ++ (db.ownWrites t).handles,
      peers := setHandles (db.ownWrites t).peers db.peers })
  | .rollback => .ok ((), db.abort t)
  | .resolveHandle handle =>
    .ok ((db.handles.find? fun r => r.handle = handle).map HandleRow.pubkey, db)
  | .upsertTeam teamId name adminPubkey =>
    .ok ((), { db with teams := upsertTeamRow db.teams ⟨teamId, name, adminPubkey⟩ })
  | .insertTeam name adminPubkey =>
    if db.teams.any fun r => r.teamId = env.uuid then .error "teams_pkey"
    else .ok (env.uuid, { db with teams := db.teams ++ [⟨env.uuid, name, adminPubkey⟩] })
  | .insertTeamMember teamId memberPubkey adminSignature =>
    if db.teams.any fun r => r.teamId = teamId then
      let row := ⟨teamId, memberPubkey, adminSignature, env.now⟩
      .ok ((), { db with teamMembers := upsertMemberRow db.teamMembers row })
    else .error "team_members_team_id_fkey"
  | .teamMembers teamId =>
    .ok ((db.teamMembers.filter fun r => r.teamId = teamId).mergeSort fun a b =>
      a.joinedAt ≤ b.joinedAt, db)

def exec (t : Tid) (s : Statement) (env : Env) (db : Db Tid) : Option (Answer s × Db Tid) :=
  match env.fault with
  | some e => some (.error e, db.abort t)
  | none =>
    if db.waits t s then none
    else
      match db.run t env s with
      | .ok (rows, db') => some (.ok rows, db')
      | .error e => some (.error e, db.abort t)

theorem upsertPeerRow_pubkeys (rows : List PeerRow) (pubkey : String) (kind : Option String) :
    (upsertPeerRow rows pubkey kind).map PeerRow.pubkey =
      if pubkey ∈ rows.map PeerRow.pubkey then rows.map PeerRow.pubkey
      else rows.map PeerRow.pubkey ++ [pubkey] := by
  have hany : (rows.any fun r => r.pubkey = pubkey) = true ↔ pubkey ∈ rows.map PeerRow.pubkey := by
    simp
  unfold upsertPeerRow
  simp only [hany]
  split_ifs with h
  · rw [List.map_map]
    refine List.map_congr_left fun r _ => ?_
    simp only [Function.comp_apply]
    split_ifs <;> rfl
  · simp

theorem upsertPeerRow_handle (rows : List PeerRow) (pubkey : String) (kind : Option String)
    (pk h : String) :
    (∃ r ∈ upsertPeerRow rows pubkey kind, r.pubkey = pk ∧ r.handle = some h) ↔
      ∃ r ∈ rows, r.pubkey = pk ∧ r.handle = some h := by
  unfold upsertPeerRow
  split_ifs with hany
  · constructor
    · rintro ⟨r, hr, hpk, hh⟩
      obtain ⟨r', hr', rfl⟩ := List.mem_map.mp hr
      split_ifs at hpk hh <;> exact ⟨r', hr', hpk, hh⟩
    · rintro ⟨r, hr, hpk, hh⟩
      refine ⟨_, List.mem_map_of_mem hr, ?_⟩
      split_ifs <;> exact ⟨hpk, hh⟩
  · simp

theorem setHandles_pubkeys (updates : List (String × String)) (rows : List PeerRow) :
    (setHandles updates rows).map PeerRow.pubkey = rows.map PeerRow.pubkey := by
  rw [setHandles, List.map_map]
  rfl

theorem mem_upsertPeerRow {rows : List PeerRow} {pubkey : String} {kind : Option String}
    {r : PeerRow} (h : r ∈ upsertPeerRow rows pubkey kind) : r ∈ rows ∨ r.pubkey = pubkey := by
  unfold upsertPeerRow at h
  split_ifs at h with hany
  · obtain ⟨r', hr', rfl⟩ := List.mem_map.mp h
    split_ifs with hpk
    · exact Or.inr hpk
    · exact Or.inl hr'
  · rcases List.mem_append.mp h with h | h
    · exact Or.inl h
    · obtain rfl := List.mem_singleton.mp h
      exact Or.inr rfl

theorem mem_upsertMemberRow {rows : List TeamMemberRow} {row r : TeamMemberRow}
    (h : r ∈ upsertMemberRow rows row) : r ∈ rows ∨ r.memberPubkey = row.memberPubkey := by
  unfold upsertMemberRow at h
  split_ifs at h with hany
  · obtain ⟨r', hr', rfl⟩ := List.mem_map.mp h
    split_ifs with hpk
    · exact Or.inr hpk.2
    · exact Or.inl hr'
  · rcases List.mem_append.mp h with h | h
    · exact Or.inl h
    · obtain rfl := List.mem_singleton.mp h
      exact Or.inr rfl

theorem mem_setHandles {updates : List (String × String)} {rows : List PeerRow} {r : PeerRow}
    (h : r ∈ setHandles updates rows) : r ∈ rows ∨ ∃ u ∈ updates, u.1 = r.pubkey := by
  obtain ⟨r', hr', rfl⟩ := List.mem_map.mp h
  cases hl : updates.lookup r'.pubkey with
  | none => exact Or.inl (by simpa [hl] using hr')
  | some handle =>
    obtain ⟨l₁, l₂, rfl, -⟩ := List.lookup_eq_some_iff.mp hl
    exact Or.inr ⟨(r'.pubkey, handle), by simp, rfl⟩

/-- Everything a statement can be: an error that ends the task's transaction, or its effect. -/
theorem exec_cases {t : Tid} {s : Statement} {env : Env} {db db' : Db Tid} {r : Answer s}
    (h : exec t s env db = some (r, db')) :
    (∃ e, r = .error e ∧ db' = db.abort t) ∨
      ∃ rows, r = .ok rows ∧ db.waits t s = false ∧ db.run t env s = .ok (rows, db') := by
  unfold exec at h
  split at h
  · rename_i e _
    cases h
    exact Or.inl ⟨e, rfl, rfl⟩
  · split_ifs at h with hw
    split at h
    · rename_i rows db'' hr
      cases h
      exact Or.inr ⟨rows, rfl, by simpa using hw, hr⟩
    · rename_i e _
      cases h
      exact Or.inl ⟨e, rfl, rfl⟩

theorem exec_tables {t : Tid} {s : Statement} {env : Env} {db db' : Db Tid} {r : Answer s}
    (h : exec t s env db = some (r, db')) :
    (db'.peers = db.peers ∧ db'.handles = db.handles ∧ db'.teams = db.teams ∧
      db'.teamMembers = db.teamMembers) ∨
    (∃ pk kind, (s = .upsertPeer pk ∨ ∃ k, s = .upsertPeerWithKind pk k) ∧
      db' = { db with peers := upsertPeerRow db.peers pk kind }) ∨
    (∃ id name admin, s = .upsertTeam id name admin ∧
      db' = { db with teams := upsertTeamRow db.teams ⟨id, name, admin⟩ }) ∨
    (∃ id name admin, s = .insertTeam name admin ∧
      db' = { db with teams := db.teams ++ [⟨id, name, admin⟩] }) ∨
    (∃ row, s = .insertTeamMember row.teamId row.memberPubkey row.adminSignature ∧
      db' = { db with teamMembers := upsertMemberRow db.teamMembers row }) ∨
    (s = .commit ∧ db' = { db.abort t with
      handles := db.handles ++ (db.ownWrites t).handles,
      peers := setHandles (db.ownWrites t).peers db.peers }) := by
  rcases exec_cases h with ⟨e, -, rfl⟩ | ⟨rows, -, -, hr⟩
  · exact Or.inl ⟨rfl, rfl, rfl, rfl⟩
  · cases s with
    | upsertPeer pk =>
      cases hr
      exact Or.inr (Or.inl ⟨pk, none, Or.inl rfl, rfl⟩)
    | upsertPeerWithKind pk kind =>
      simp only [run] at hr
      split_ifs at hr
      cases hr
      exact Or.inr (Or.inl ⟨pk, some kind, Or.inr ⟨kind, rfl⟩, rfl⟩)
    | upsertTeam id name admin =>
      cases hr
      exact Or.inr (Or.inr (Or.inl ⟨id, name, admin, rfl, rfl⟩))
    | insertTeam name admin =>
      simp only [run] at hr
      split_ifs at hr
      cases hr
      exact Or.inr (Or.inr (Or.inr (Or.inl ⟨env.uuid, name, admin, rfl, rfl⟩)))
    | insertTeamMember id pk sig =>
      simp only [run] at hr
      split_ifs at hr
      cases hr
      exact Or.inr (Or.inr (Or.inr (Or.inr (Or.inl ⟨⟨id, pk, sig, env.now⟩, rfl, rfl⟩))))
    | commit =>
      cases hr
      exact Or.inr (Or.inr (Or.inr (Or.inr (Or.inr ⟨rfl, rfl⟩))))
    | insertHandle handle pk =>
      simp only [run] at hr
      split_ifs at hr
      cases hr
      exact Or.inl ⟨rfl, rfl, rfl, rfl⟩
    | updatePeerHandle handle pk =>
      simp only [run] at hr
      split_ifs at hr
      · cases hr
        exact Or.inl ⟨rfl, rfl, rfl, rfl⟩
      · cases hr
        exact Or.inl ⟨rfl, rfl, rfl, rfl⟩
    | _ =>
      cases hr
      exact Or.inl ⟨rfl, rfl, rfl, rfl⟩

theorem run_cases {t : Tid} {s : Statement} {env : Env} {db db' : Db Tid} {rows : s.Rows}
    (h : db.run t env s = .ok (rows, db')) :
    (s.controls = false ∧ ∃ pk kind, db' = { db with peers := upsertPeerRow db.peers pk kind }) ∨
    (s.controls = false ∧ ∃ teams members,
      db' = { db with teams := teams, teamMembers := members }) ∨
    (s = .begin ∧ db' = db.setWrites t ⟨[], []⟩) ∨
    (∃ handle pk, s = .insertHandle handle pk ∧
      (∀ r ∈ db.handles ++ (db.ownWrites t).handles, r.handle ≠ handle) ∧
      pk ∈ db.peers.map PeerRow.pubkey ∧
      db' = db.setWrites t { db.ownWrites t with
        handles := (db.ownWrites t).handles ++ [⟨handle, pk⟩] }) ∨
    (∃ handle pk, s = .updatePeerHandle handle pk ∧
      (pk ∈ db.peers.map PeerRow.pubkey ∧
        db' = db.setWrites t { db.ownWrites t with
          peers := (pk, handle) :: (db.ownWrites t).peers } ∨
      pk ∉ db.peers.map PeerRow.pubkey ∧ db' = db)) ∨
    (s = .commit ∧ db' = { db.abort t with
      handles := db.handles ++ (db.ownWrites t).handles,
      peers := setHandles (db.ownWrites t).peers db.peers }) ∨
    (s = .rollback ∧ db' = db.abort t) := by
  cases s with
  | upsertPeer pk =>
    cases h
    exact Or.inl ⟨rfl, pk, none, rfl⟩
  | upsertPeerWithKind pk kind =>
    simp only [run] at h
    split_ifs at h
    cases h
    exact Or.inl ⟨rfl, pk, some kind, rfl⟩
  | begin =>
    cases h
    exact Or.inr (Or.inr (Or.inl ⟨rfl, rfl⟩))
  | insertHandle handle pk =>
    simp only [run] at h
    split_ifs at h with h1 h2
    cases h
    refine Or.inr (Or.inr (Or.inr (Or.inl ⟨handle, pk, rfl, ?_, ?_, rfl⟩)))
    · intro r hr he
      exact h1 (List.any_eq_true.mpr ⟨r, hr, by simpa using he⟩)
    · simpa using h2
  | updatePeerHandle handle pk =>
    have hkeys := setHandles_pubkeys (db.ownWrites t).peers db.peers
    simp only [run] at h
    split_ifs at h with h1 h2
    · cases h
      refine Or.inr (Or.inr (Or.inr (Or.inr (Or.inl ⟨handle, pk, rfl, Or.inl ⟨?_, rfl⟩⟩))))
      rw [← hkeys]
      simpa using h2
    · cases h
      refine Or.inr (Or.inr (Or.inr (Or.inr (Or.inl ⟨handle, pk, rfl, Or.inr ⟨?_, rfl⟩⟩))))
      rw [← hkeys]
      simpa using h2
  | commit =>
    cases h
    exact Or.inr (Or.inr (Or.inr (Or.inr (Or.inr (Or.inl ⟨rfl, rfl⟩)))))
  | rollback =>
    cases h
    exact Or.inr (Or.inr (Or.inr (Or.inr (Or.inr (Or.inr ⟨rfl, rfl⟩)))))
  | insertTeam name adminPubkey =>
    simp only [run] at h
    split_ifs at h
    cases h
    exact Or.inr (Or.inl ⟨rfl, _, _, rfl⟩)
  | insertTeamMember teamId memberPubkey adminSignature =>
    simp only [run] at h
    split_ifs at h
    cases h
    exact Or.inr (Or.inl ⟨rfl, _, _, rfl⟩)
  | _ =>
    cases h
    exact Or.inr (Or.inl ⟨rfl, _, _, rfl⟩)

end Db

/-! ## The functions of db.rs -/

/-- A computation that talks to the database and may fail. -/
abbrev Query (α : Type) := ExceptT BrokerError (Prog Statement Answer) α

def execute (s : Statement) : Query s.Rows :=
  ExceptT.mk do
    let r ← Prog.perform s
    pure (r.mapError .database)

def check {α : Type} (x : Except BrokerError α) : Query α := ExceptT.mk (pure x)

def upsertPeer (pubkey : String) : Query Unit := execute (.upsertPeer pubkey)

def upsertPeerWithKind (pubkey kind : String) : Query Unit :=
  execute (.upsertPeerWithKind pubkey kind)

def peerKind (pubkey : String) : Query (Option String) := execute (.peerKind pubkey)

/-- Claim a handle: the two checks and the two writes are separate statements of one
transaction. -/
def claimHandle (pubkey handle : String) : Query Unit := do
  let _ ← execute .begin
  match ← execute (.selectHandle pubkey) with
  | some existing =>
    let _ ← execute .rollback
    if existing = handle then pure () else throw .handleAlreadyOwned
  | none =>
    match ← execute (.selectOwner handle) with
    | some _ =>
      let _ ← execute .rollback
      throw .handleTaken
    | none =>
      let _ ← execute (.insertHandle handle pubkey)
      let _ ← execute (.updatePeerHandle handle pubkey)
      execute .commit

def resolveHandle (handle : String) : Query (Option String) := execute (.resolveHandle handle)

def upsertTeam (teamId : Option Uuid) (name adminPubkey : String) : Query Uuid :=
  match teamId with
  | some id => do
    let _ ← execute (.upsertTeam id name adminPubkey)
    pure id
  | none => execute (.insertTeam name adminPubkey)

def addTeamMember (teamId : Uuid) (memberPubkey adminSignature : String) : Query Unit :=
  execute (.insertTeamMember teamId memberPubkey adminSignature)

def teamMembers (teamId : Uuid) : Query (List TeamMemberRow) := execute (.teamMembers teamId)

section Run

variable {α β : Type}

@[simp] theorem run_execute_bind (s : Statement) (f : s.Rows → Query α) :
    (execute s >>= f).run = .call s fun r =>
      match r with
      | .ok rows => (f rows).run
      | .error e => .done (.error (.database e)) := by
  simp only [execute, ExceptT.run_bind, ExceptT.run_mk, Prog.perform_bind, Prog.call_bind]
  congr 1
  funext r
  cases r <;> rfl

@[simp] theorem run_execute (s : Statement) :
    (execute s).run = .call s fun r => .done (r.mapError .database) := rfl

@[simp] theorem run_check_bind (x : Except BrokerError α) (f : α → Query β) :
    (check x >>= f).run =
      match x with
      | .ok a => (f a).run
      | .error e => .done (.error e) := by
  simp only [check, ExceptT.run_bind, ExceptT.run_mk, Prog.pure_def, Prog.done_bind]
  cases x <;> rfl

@[simp] theorem run_pure (a : α) : (pure a : Query α).run = .done (.ok a) := rfl

@[simp] theorem run_throw (e : BrokerError) : (throw e : Query α).run = .done (.error e) := rfl

theorem always_execute_bind {Q : Statement → Prop} {s : Statement} {f : s.Rows → Query α}
    (hs : Q s) (hf : ∀ rows, (f rows).run.Always Q) : (execute s >>= f).run.Always Q := by
  rw [run_execute_bind]
  refine ⟨hs, fun r => ?_⟩
  cases r with
  | error e => trivial
  | ok rows => exact hf rows

theorem always_check_bind {Q : Statement → Prop} {x : Except BrokerError α} {f : α → Query β}
    (hf : ∀ a, x = .ok a → (f a).run.Always Q) : (check x >>= f).run.Always Q := by
  rw [run_check_bind]
  cases x with
  | error e => trivial
  | ok a => exact hf a rfl

variable {L : Type} {next : L → (s : Statement) → Answer s → L} {ok : L → Statement → Prop}
  {post : L → Except BrokerError α → Prop} {l : L}

/-- The rule for a statement: an error ends the query, so what it leaves must be acceptable. -/
theorem follows_execute_bind {s : Statement} {f : s.Rows → Query α} (hs : ok l s)
    (he : ∀ e, post (next l s (.error e)) (.error (.database e)))
    (hf : ∀ rows, (f rows).run.Follows next ok post (next l s (.ok rows))) :
    (execute s >>= f).run.Follows next ok post l := by
  rw [run_execute_bind]
  refine ⟨hs, fun r => ?_⟩
  cases r with
  | error e => exact he e
  | ok rows => exact hf rows

theorem follows_check_bind {x : Except BrokerError β} {f : β → Query α}
    (he : ∀ e, post l (.error e)) (hf : ∀ a, x = .ok a → (f a).run.Follows next ok post l) :
    (check x >>= f).run.Follows next ok post l := by
  rw [run_check_bind]
  cases x with
  | error e => exact he e
  | ok a => exact hf a rfl

end Run

end HashedBroker.Database
