import HashedBroker.SequentialRuns
import HashedBroker.TeamMembership

/-!
# What a refused announce leaves behind

An announce writes its team, and checks the keys and the signature afterwards. When the check fails,
the team has been created or renamed. And since the bytes the admin signs start with the team's id,
nobody can sign for a team whose id the database is still to draw.
-/
namespace HashedBroker.TeamAnnouncements
open Database DatabaseCalls AtomicPrograms ReactiveTasks TeamMembership
open Crates (keyText signatureText)

structure SameTables (db db' : Db ℕ) : Prop where
  teams : db'.teams = db.teams
  peers : db'.peers = db.peers
  teamMembers : db'.teamMembers = db.teamMembers

/-- A key or the signature is invalid. -/
def Refuses : BrokerError → Prop
  | .invalidPubKey _ | .invalidSignature _ | .signatureVerifyFailed => True
  | _ => False

variable (crates : Crates)

def checks (pubkey adminPubkey adminSignature : String) (id : Uuid) : Except BrokerError Unit := do
  let signed ← Teams.adminSignedBytes crates id pubkey
  Auth.verifyDetached crates adminPubkey adminSignature signed

/-- What an announce does once its checks are passed. -/
def enroll (pubkey adminSignature : String) (id : Uuid) : Query Uuid := do
  upsertPeer pubkey
  addTeamMember id pubkey adminSignature
  pure id

/-- What an announce does once its team is written. -/
def proceed (pubkey adminPubkey adminSignature : String) (id : Uuid) :
    Prog Statement Answer (Except BrokerError Uuid) :=
  match checks crates pubkey adminPubkey adminSignature id with
  | .ok () => (enroll pubkey adminSignature id).run
  | .error e => .done (.error e)

section Program

variable {crates} {pubkey name adminPubkey adminSignature : String}

theorem checks_ok {id : Uuid} : checks crates pubkey adminPubkey adminSignature id = .ok () ↔
    signedBy crates adminPubkey id pubkey adminSignature = true := by
  simp only [checks, signedBy]
  cases Teams.adminSignedBytes crates id pubkey with
  | error e => constructor <;> intro h <;> cases h
  | ok signed =>
    simp only [bind, Except.bind]
    cases Auth.verifyDetached crates adminPubkey adminSignature signed with
    | error e => constructor <;> intro h <;> cases h
    | ok u => exact iff_of_true rfl rfl

theorem parsePubkey_refuses {s : String} {e : BrokerError}
    (h : Auth.parsePubkey crates s = .error e) : Refuses e := by
  unfold Auth.parsePubkey at h
  cases hhex : crates.hexDecode (Auth.keyHex s) with
  | error x =>
    rw [hhex] at h
    cases h
    trivial
  | ok bytes =>
    rw [hhex] at h
    simp only [Except.mapError, bind, Except.bind] at h
    split_ifs at h with hlen
    · cases hkey : crates.keyFromBytes ⟨bytes.toArray, hlen⟩ with
      | error x =>
        rw [hkey] at h
        cases h
        trivial
      | ok u =>
        rw [hkey] at h
        cases h
    · cases h
      trivial

theorem parseSignature_refuses {s : String} {e : BrokerError}
    (h : Auth.parseSignature crates s = .error e) : Refuses e := by
  unfold Auth.parseSignature at h
  cases hhex : crates.hexDecode s with
  | error x =>
    rw [hhex] at h
    cases h
    trivial
  | ok bytes =>
    rw [hhex] at h
    simp only [Except.mapError, bind, Except.bind] at h
    split_ifs at h
    · cases h
    · cases h
      trivial

theorem adminSignedBytes_refuses {id : Uuid} {e : BrokerError}
    (h : Teams.adminSignedBytes crates id pubkey = .error e) : Refuses e := by
  unfold Teams.adminSignedBytes at h
  cases hhex : crates.hexDecode (Auth.keyHex pubkey) with
  | error x =>
    rw [hhex] at h
    cases h
    trivial
  | ok bytes =>
    rw [hhex] at h
    simp only [Except.mapError, bind, Except.bind] at h
    split_ifs at h
    · cases h
      trivial
    · cases h

theorem checks_refuses {id : Uuid} {e : BrokerError}
    (h : checks crates pubkey adminPubkey adminSignature id = .error e) : Refuses e := by
  unfold checks at h
  cases hbytes : Teams.adminSignedBytes crates id pubkey with
  | error x =>
    rw [hbytes] at h
    cases h
    exact adminSignedBytes_refuses hbytes
  | ok signed =>
    rw [hbytes] at h
    simp only [Auth.verifyDetached, bind, Except.bind] at h
    cases hkey : Auth.parsePubkey crates adminPubkey with
    | error x =>
      rw [hkey] at h
      cases h
      exact parsePubkey_refuses hkey
    | ok key =>
      rw [hkey] at h
      simp only at h
      cases hsig : Auth.parseSignature crates adminSignature with
      | error x =>
        rw [hsig] at h
        cases h
        exact parseSignature_refuses hsig
      | ok sig =>
        rw [hsig] at h
        simp only at h
        split_ifs at h
        · cases h
        · cases h
          trivial

theorem run_checks_bind (id : Uuid) :
    (do
      let signed ← check (Teams.adminSignedBytes crates id pubkey)
      check (Auth.verifyDetached crates adminPubkey adminSignature signed)
      enroll pubkey adminSignature id : Query Uuid).run =
      proceed crates pubkey adminPubkey adminSignature id := by
  simp only [proceed, checks, run_check_bind]
  cases Teams.adminSignedBytes crates id pubkey with
  | error e => rfl
  | ok signed =>
    simp only [bind, Except.bind]
    cases Auth.verifyDetached crates adminPubkey adminSignature signed with
    | error e => rfl
    | ok u => rfl

theorem announce_some (id : Uuid) :
    (Teams.announce crates pubkey (some id) name adminPubkey adminSignature).run =
      .call (.upsertTeam id name adminPubkey) fun r =>
        match r with
        | .ok _ => proceed crates pubkey adminPubkey adminSignature id
        | .error e => .done (.error (.database e)) := by
  simp only [Teams.announce, upsertTeam, bind_assoc, pure_bind]
  refine (run_execute_bind _ _).trans ?_
  congr 1
  funext r
  cases r with
  | error e => rfl
  | ok u => exact run_checks_bind id

theorem announce_none :
    (Teams.announce crates pubkey none name adminPubkey adminSignature).run =
      .call (.insertTeam name adminPubkey) fun r =>
        match r with
        | .ok id => proceed crates pubkey adminPubkey adminSignature id
        | .error e => .done (.error (.database e)) := by
  simp only [Teams.announce, upsertTeam]
  refine (run_execute_bind _ _).trans ?_
  congr 1
  funext r
  cases r with
  | error e => rfl
  | ok id => exact run_checks_bind id

end Program

/-! ## Announces that run alone -/

section Alone

variable {crates} {t : ℕ} {db db' : Db ℕ} {hist : Prog.History Statement Answer}
  {r : Except BrokerError Uuid} {pubkey name adminPubkey adminSignature : String}

/-- Nothing but calls changes the database. -/
def database (crates : Crates) : View (calls crates) (Db ℕ) := ⟨id, fun x => x.elim⟩

theorem returns_call {s : Statement} {k : Answer s → Prog Statement Answer (Except BrokerError Uuid)}
    (h : Returns (calls crates) t (.call s k) db hist db' r) : ∃ env x db₁ hist₁,
      db.exec t s env = some (x, db₁) ∧ Returns (calls crates) t (k x) db₁ hist₁ db' r := by
  obtain ⟨db₀, env, x, db₁, hist₁, hdb₀, hexec, hrest, -⟩ := h.of_call (database crates)
  obtain rfl : db₀ = db := hdb₀
  exact ⟨env, x, db₁, hist₁, hexec, hrest⟩

theorem returns_proceed {id : Uuid}
    (h : Returns (calls crates) t (proceed crates pubkey adminPubkey adminSignature id) db hist db' r) :
    (signedBy crates adminPubkey id pubkey adminSignature = false ∧ db' = db ∧
      ∃ e, r = .error e ∧ Refuses e) ∨
    (signedBy crates adminPubkey id pubkey adminSignature = true ∧
      Returns (calls crates) t (enroll pubkey adminSignature id).run db hist db' r) := by
  unfold proceed at h
  split at h
  · rename_i hchecks
    exact Or.inr ⟨checks_ok.mp hchecks, h⟩
  · rename_i e hchecks
    obtain ⟨rfl, rfl⟩ := h.of_done (database crates)
    refine Or.inl ⟨?_, rfl, e, rfl, checks_refuses hchecks⟩
    rw [← Bool.not_eq_true, ← checks_ok, hchecks]
    exact nofun

theorem returns_error {id : Uuid} {e : BrokerError}
    (h : checks crates pubkey adminPubkey adminSignature id = .error e) :
    Returns (calls crates) t (proceed crates pubkey adminPubkey adminSignature id) db [] db (.error e) := by
  simp only [proceed, h]
  exact .done _ _

theorem returns_enroll {id : Uuid}
    (h : Returns (calls crates) t (enroll pubkey adminSignature id).run db hist db' r) :
    (∃ e, r = .error (.database e)) ∨ r = .ok id ∧
      ∃ row ∈ db'.teamMembers, row.teamId = id ∧ row.memberPubkey = pubkey := by
  simp only [enroll, upsertPeer, addTeamMember] at h
  rw [run_execute_bind] at h
  obtain ⟨env, x, db₁, hist₁, -, h⟩ := returns_call h
  cases x with
  | error e =>
    obtain ⟨-, rfl⟩ := h.of_done (database crates)
    exact Or.inl ⟨e, rfl⟩
  | ok u =>
    simp only at h
    obtain ⟨env₂, y, db₂, hist₂, hexec, h⟩ := returns_call h
    cases y with
    | error e =>
      obtain ⟨-, rfl⟩ := h.of_done (database crates)
      exact Or.inl ⟨e, rfl⟩
    | ok v =>
      obtain ⟨rfl, rfl⟩ := h.of_done (database crates)
      rcases Db.exec_cases hexec with ⟨e, he, -⟩ | ⟨rows, -, -, hrun⟩
      · cases he
      · simp only [Db.run] at hrun
        split_ifs at hrun
        cases hrun
        refine Or.inr ⟨rfl, ?_⟩
        simp only [Db.upsertMemberRow]
        split_ifs with hany
        · obtain ⟨row, hrow, htest⟩ := List.any_eq_true.mp hany
          simp only [Bool.and_eq_true, decide_eq_true_eq] at htest
          refine ⟨_, List.mem_map_of_mem hrow, ?_⟩
          rw [if_pos htest]
          exact htest
        · exact ⟨_, List.mem_append_right _ List.mem_cons_self, rfl, rfl⟩

/-- The first statement of an announce: the database as it was but for an aborted transaction, or
with the team written. -/
theorem exec_upsertTeam {id : Uuid} {env : Database.Env} {x : Except String Unit}
    (h : db.exec t (.upsertTeam id name adminPubkey) env = some (x, db')) :
    (∃ e, x = .error e) ∨ x = .ok () ∧
      db' = { db with teams := Db.upsertTeamRow db.teams ⟨id, name, adminPubkey⟩ } := by
  rcases Db.exec_cases h with ⟨e, he, -⟩ | ⟨rows, rfl, -, hrun⟩
  · exact Or.inl ⟨e, he⟩
  · cases hrun
    exact Or.inr ⟨rfl, rfl⟩

theorem exec_insertTeam {env : Database.Env} {x : Except String Uuid}
    (h : db.exec t (.insertTeam name adminPubkey) env = some (x, db')) :
    (∃ e, x = .error e) ∨ ∃ id, x = .ok id ∧ (∀ row ∈ db.teams, row.teamId ≠ id) ∧
      db' = { db with teams := db.teams ++ [⟨id, name, adminPubkey⟩] } := by
  rcases Db.exec_cases h with ⟨e, he, -⟩ | ⟨rows, rfl, -, hrun⟩
  · exact Or.inl ⟨e, he⟩
  · simp only [Db.run] at hrun
    split_ifs at hrun with hany
    cases hrun
    refine Or.inr ⟨env.uuid, rfl, ?_, rfl⟩
    simpa using hany

/-- A team that the checks turn down has been written all the same. -/
theorem returns_refused_some (t : ℕ) (db : Db ℕ) (name : String) {id : Uuid}
    (hunsigned : signedBy crates adminPubkey id pubkey adminSignature = false) :
    ∃ hist e, Refuses e ∧ Returns (calls crates) t
      (Teams.announce crates pubkey (some id) name adminPubkey adminSignature).run db hist
      { db with teams := Db.upsertTeamRow db.teams ⟨id, name, adminPubkey⟩ } (.error e) := by
  cases hchecks : checks crates pubkey adminPubkey adminSignature id with
  | ok u =>
    rw [checks_ok.mp hchecks] at hunsigned
    cases hunsigned
  | error e =>
    rw [announce_some]
    have hexec : (calls crates).exec t (.upsertTeam id name adminPubkey) quiet db =
        some (.ok (), { db with teams := Db.upsertTeamRow db.teams ⟨id, name, adminPubkey⟩ }) := rfl
    exact ⟨_, e, checks_refuses hchecks, .call trivial hexec (returns_error hchecks)⟩

theorem returns_refused_none (t : ℕ) (name : String) {id : Uuid}
    (hfree : ∀ row ∈ db.teams, row.teamId ≠ id)
    (hunsigned : signedBy crates adminPubkey id pubkey adminSignature = false) :
    ∃ hist e, Refuses e ∧ Returns (calls crates) t
      (Teams.announce crates pubkey none name adminPubkey adminSignature).run db hist
      { db with teams := db.teams ++ [⟨id, name, adminPubkey⟩] } (.error e) := by
  cases hchecks : checks crates pubkey adminPubkey adminSignature id with
  | ok u =>
    rw [checks_ok.mp hchecks] at hunsigned
    cases hunsigned
  | error e =>
    rw [announce_none]
    have hany : (db.teams.any fun row => row.teamId = id) = false := by simpa using hfree
    have hexec : (calls crates).exec t (.insertTeam name adminPubkey) ⟨none, id, 0⟩ db =
        some (.ok id, { db with teams := db.teams ++ [⟨id, name, adminPubkey⟩] }) := by
      simp only [calls, Db.exec, Db.waits, Db.run, hany]
      rfl
    exact ⟨_, e, checks_refuses hchecks, .call trivial hexec (returns_error hchecks)⟩

end Alone

/-! ## Refused announces -/

section Refusals

variable (crates : Crates) (db : Db ℕ) (pubkey : String) (teamId : Option Uuid)
  (name adminPubkey adminSignature : String)

/-- Whenever the announce is refused for its keys or its signature, the tables are as they were. -/
def RefusalLeavesTables : Prop :=
  ∀ t hist db' e, Returns (calls crates) t
    (Teams.announce crates pubkey teamId name adminPubkey adminSignature).run db hist db'
    (.error e) → Refuses e → SameTables db db'

/-- The team is stored under the announced name already, or the signature is good for every team the
announce may be about. -/
def NothingToUndo : Prop :=
  match teamId with
  | some id => signedBy crates adminPubkey id pubkey adminSignature = true ∨
    (∃ row ∈ db.teams, row.teamId = id) ∧ ∀ row ∈ db.teams, row.teamId = id → row.name = name
  | none => ∀ id, (∀ row ∈ db.teams, row.teamId ≠ id) →
    signedBy crates adminPubkey id pubkey adminSignature = true

variable {crates db pubkey teamId name adminPubkey adminSignature}

theorem upsertTeamRow_eq_self {rows : List TeamRow} {id : Uuid} :
    Db.upsertTeamRow rows ⟨id, name, adminPubkey⟩ = rows ↔
      (∃ row ∈ rows, row.teamId = id) ∧ ∀ row ∈ rows, row.teamId = id → row.name = name := by
  have hany : (rows.any fun row => row.teamId = id) = true ↔ ∃ row ∈ rows, row.teamId = id := by
    simp
  have hmap : ∀ {f : TeamRow → TeamRow}, rows.map f = rows ↔ ∀ row ∈ rows, f row = row := by
    intro f
    rw [← List.map_inj_left, List.map_id']
  simp only [Db.upsertTeamRow, hany]
  split_ifs with hrow
  · simp only [hrow, true_and]
    constructor
    · intro heq row hmem hid
      have hself := hmap.mp heq row hmem
      rw [if_pos hid] at hself
      exact (congrArg TeamRow.name hself).symm
    · intro hname
      refine hmap.mpr fun row hmem => ?_
      split_ifs with hid
      · rw [← hname row hmem hid]
      · rfl
  · simp [hrow]

/-- A refused announce leaves the tables as they were exactly when there is nothing to undo. -/
theorem refusal_leaves_tables_iff :
    RefusalLeavesTables crates db pubkey teamId name adminPubkey adminSignature ↔
      NothingToUndo crates db pubkey teamId name adminPubkey adminSignature := by
  have hdatabase : ∀ {e e'}, Refuses e → (.error e : Except BrokerError Uuid) ≠
      .error (.database e') := by
    rintro e e' he heq
    cases heq
    exact he
  cases teamId with
  | some id =>
    constructor
    · intro hleaves
      by_cases hsigned : signedBy crates adminPubkey id pubkey adminSignature = true
      · exact Or.inl hsigned
      · rw [Bool.not_eq_true] at hsigned
        obtain ⟨hist, e, he, hreturns⟩ := returns_refused_some 0 db name hsigned
        exact Or.inr (upsertTeamRow_eq_self.mp (hleaves 0 hist _ e hreturns he).teams)
    · intro hnothing t hist db' e hreturns he
      rw [announce_some] at hreturns
      obtain ⟨env, x, db₁, hist₁, hexec, hreturns⟩ := returns_call hreturns
      rcases exec_upsertTeam hexec with ⟨e', rfl⟩ | ⟨rfl, rfl⟩
      · exact absurd (hreturns.of_done (database crates)).2 (hdatabase he)
      · rcases returns_proceed hreturns with ⟨hunsigned, rfl, -⟩ | ⟨-, henroll⟩
        · rcases hnothing with hsigned | hstored
          · rw [hunsigned] at hsigned
            cases hsigned
          · exact ⟨upsertTeamRow_eq_self.mpr hstored, rfl, rfl⟩
        · rcases returns_enroll henroll with ⟨e', heq⟩ | ⟨heq, -⟩
          · exact absurd heq (hdatabase he)
          · cases heq
  | none =>
    constructor
    · intro hleaves id hfree
      by_contra hsigned
      rw [Bool.not_eq_true] at hsigned
      obtain ⟨hist, e, he, hreturns⟩ := returns_refused_none 0 name hfree hsigned
      have hteams := (hleaves 0 hist _ e hreturns he).teams
      simp at hteams
    · intro hnothing t hist db' e hreturns he
      rw [announce_none] at hreturns
      obtain ⟨env, x, db₁, hist₁, hexec, hreturns⟩ := returns_call hreturns
      rcases exec_insertTeam hexec with ⟨e', rfl⟩ | ⟨id, rfl, hfree, rfl⟩
      · exact absurd (hreturns.of_done (database crates)).2 (hdatabase he)
      · rcases returns_proceed hreturns with ⟨hunsigned, -, -⟩ | ⟨-, henroll⟩
        · rw [hnothing id hfree] at hunsigned
          cases hunsigned
        · rcases returns_enroll henroll with ⟨e', heq⟩ | ⟨heq, -⟩
          · exact absurd heq (hdatabase he)
          · cases heq

/-- A stranger's announce of an unknown team is refused, and founds it. -/
theorem refused_announce_founds_team :
    ¬ RefusalLeavesTables Crates.demo emptyDb (keyText 'b') (some team) "core" (keyText 'a')
      (signatureText 'b') := by
  have hunsigned : signedBy Crates.demo (keyText 'a') team (keyText 'b') (signatureText 'b') =
      false := by decide +kernel
  obtain ⟨hist, e, he, hreturns⟩ := returns_refused_some 0 emptyDb "core" hunsigned
  intro hleaves
  have hteams := (hleaves 0 hist _ e hreturns he).teams
  simp [Db.upsertTeamRow, emptyDb] at hteams

end Refusals

/-! ## Announces without a team id -/

section Founding

variable (crates : Crates) (db : Db ℕ) (pubkey name adminPubkey adminSignature : String)

/-- Whichever unused id the database draws, the announce without an id returns it and adds the
member, unless the database fails. -/
def FoundsTeam : Prop :=
  ∀ t hist db' r, Returns (calls crates) t
    (Teams.announce crates pubkey none name adminPubkey adminSignature).run db hist db' r →
    (∀ e, r ≠ .error (.database e)) → ∃ id, r = .ok id ∧ (∀ row ∈ db.teams, row.teamId ≠ id) ∧
      ∃ row ∈ db'.teamMembers, row.teamId = id ∧ row.memberPubkey = pubkey

variable {crates db pubkey name adminPubkey adminSignature}

theorem foundsTeam_iff : FoundsTeam crates db pubkey name adminPubkey adminSignature ↔
    ∀ id, (∀ row ∈ db.teams, row.teamId ≠ id) →
      signedBy crates adminPubkey id pubkey adminSignature = true := by
  constructor
  · intro hfounds id hfree
    by_contra hsigned
    rw [Bool.not_eq_true] at hsigned
    obtain ⟨hist, e, he, hreturns⟩ := returns_refused_none 0 name hfree hsigned
    obtain ⟨id', heq, -⟩ := hfounds 0 hist _ _ hreturns (by rintro e' ⟨rfl⟩; exact he)
    cases heq
  · intro hsigned t hist db' r hreturns hfault
    rw [announce_none] at hreturns
    obtain ⟨env, x, db₁, hist₁, hexec, hreturns⟩ := returns_call hreturns
    rcases exec_insertTeam hexec with ⟨e, rfl⟩ | ⟨id, rfl, hfree, rfl⟩
    · exact absurd (hreturns.of_done (database crates)).2 (hfault e)
    · rcases returns_proceed hreturns with ⟨hunsigned, -, -⟩ | ⟨-, henroll⟩
      · rw [hsigned id hfree] at hunsigned
        cases hunsigned
      · rcases returns_enroll henroll with ⟨e, rfl⟩ | ⟨rfl, hrow⟩
        · exact absurd rfl (hfault e)
        · exact ⟨id, rfl, hfree, hrow⟩

theorem signedBy_inj (hbinding : Auth.Binding crates) {id id' : Uuid}
    (h : signedBy crates adminPubkey id pubkey adminSignature = true)
    (h' : signedBy crates adminPubkey id' pubkey adminSignature = true) : id = id' := by
  have hsigned : ∀ {id}, signedBy crates adminPubkey id pubkey adminSignature = true →
      ∃ member key sig, crates.hexDecode (Auth.keyHex pubkey) = .ok member ∧
        Auth.parsePubkey crates adminPubkey = .ok key ∧
        Auth.parseSignature crates adminSignature = .ok sig ∧
        crates.verify key (id.toList ++ member) sig = true := by
    intro id hid
    obtain ⟨signed, hbytes, hverify⟩ := Auth.except_bind_eq_ok (checks_ok.mpr hid)
    obtain ⟨member, hmember, hbytes⟩ := Auth.except_bind_eq_ok hbytes
    obtain ⟨key, hkey, hverify⟩ := Auth.except_bind_eq_ok hverify
    obtain ⟨sig, hsig, hverify⟩ := Auth.except_bind_eq_ok hverify
    split_ifs at hbytes hverify with hlen hv
    cases hbytes
    refine ⟨member, key, sig, ?_, hkey, hsig, hv⟩
    cases hdecode : crates.hexDecode (Auth.keyHex pubkey) with
    | error e =>
      rw [hdecode] at hmember
      cases hmember
    | ok bytes =>
      rw [hdecode] at hmember
      cases hmember
      rfl
  obtain ⟨member, key, sig, hmember, hkey, hsig, hv⟩ := hsigned h
  obtain ⟨member', key', sig', hmember', hkey', hsig', hv'⟩ := hsigned h'
  rw [hmember] at hmember'
  rw [hkey] at hkey'
  rw [hsig] at hsig'
  cases hmember'
  cases hkey'
  cases hsig'
  have hbytes := List.append_cancel_right (hbinding key sig _ _ hv hv')
  exact Vector.toList_inj.mp hbytes

/-- When a signature verifies for one text at most, there is an announce without an id that founds
a team exactly when one id at most is left, and the admin can sign for it. -/
theorem founding_announce_iff (hbinding : Auth.Binding crates) :
    (∃ adminSignature, FoundsTeam crates db pubkey name adminPubkey adminSignature) ↔
      (∀ id id', (∀ row ∈ db.teams, row.teamId ≠ id) → (∀ row ∈ db.teams, row.teamId ≠ id') →
        id = id') ∧
      ∃ adminSignature, ∀ id, (∀ row ∈ db.teams, row.teamId ≠ id) →
        signedBy crates adminPubkey id pubkey adminSignature = true := by
  constructor
  · rintro ⟨adminSignature, hfounds⟩
    have hsigned := foundsTeam_iff.mp hfounds
    refine ⟨fun id id' hfree hfree' => ?_, adminSignature, hsigned⟩
    exact signedBy_inj hbinding (hsigned id hfree) (hsigned id' hfree')
  · rintro ⟨-, adminSignature, hsigned⟩
    exact ⟨adminSignature, foundsTeam_iff.mpr hsigned⟩

/-- A scheme whose signatures carry the text they are for, after a part of the key. -/
def recovering : Crates :=
  { Crates.demo with verify := fun key bytes sig => sig.toList = key.toList.take 16 ++ bytes }

theorem recovering_binding : Auth.Binding recovering := by
  intro key sig bytes bytes' h h'
  have hbytes : sig.toList = key.toList.take 16 ++ bytes := of_decide_eq_true h
  have hbytes' : sig.toList = key.toList.take 16 ++ bytes' := of_decide_eq_true h'
  exact List.append_cancel_left (hbytes.symm.trans hbytes')

theorem recovering_founding_iff :
    Auth.Binding recovering ∧
    ((∃ adminSignature, FoundsTeam recovering emptyDb (keyText 'b') "core" (keyText 'a')
        adminSignature) ↔
      (∀ id id' : Uuid, (∀ row ∈ emptyDb.teams, row.teamId ≠ id) →
        (∀ row ∈ emptyDb.teams, row.teamId ≠ id') → id = id') ∧
      ∃ adminSignature, ∀ id, (∀ row ∈ emptyDb.teams, row.teamId ≠ id) →
        signedBy recovering (keyText 'a') id (keyText 'b') adminSignature = true) :=
  ⟨recovering_binding, founding_announce_iff recovering_binding⟩

/-- No signature is good for both of two ids the database may draw. -/
theorem no_founding_announce : Auth.Binding recovering ∧
    ¬ ∃ adminSignature, FoundsTeam recovering emptyDb (keyText 'b') "core" (keyText 'a')
      adminSignature := by
  refine ⟨recovering_binding, ?_⟩
  rintro ⟨adminSignature, hfounds⟩
  have hsigned := foundsTeam_iff.mp hfounds
  have heq : team = Vector.replicate 16 0 :=
    signedBy_inj recovering_binding (hsigned team nofun) (hsigned (Vector.replicate 16 0) nofun)
  exact absurd heq (by decide)

end Founding

end HashedBroker.TeamAnnouncements
