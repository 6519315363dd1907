import HashedBroker.DatabaseCalls

/-!
# Authenticity of team rosters

`announce` writes the team first, keeps the admin of a team that exists, and checks the signature
under the admin the message claims. For a new team the two are the same key. For one that exists
they need not be: a stranger renames it with any announce, and joins its roster by signing for
itself. In a run where every announce for an existing team is signed by the stored admin, or
changes no name and is refused, every roster row carries the stored admin's signature.
-/
namespace HashedBroker.TeamMembership
open Database DatabaseCalls AtomicPrograms ReactiveTasks
open Crates (keyText signatureText)

variable (crates : Crates)

def signedBy (adminPubkey : String) (teamId : Uuid) (memberPubkey adminSignature : String) : Bool :=
  match Teams.adminSignedBytes crates teamId memberPubkey with
  | .ok signed => (Auth.verifyDetached crates adminPubkey adminSignature signed).isOk
  | .error _ => false

/-- Each team is stored once, and each roster row is signed by the stored admin of its team. -/
structure Authentic (teams : List TeamRow) (teamMembers : List TeamMemberRow) : Prop where
  teamKey : (teams.map TeamRow.teamId).Nodup
  signed : ∀ row ∈ teamMembers, ∃ team ∈ teams, team.teamId = row.teamId ∧
    signedBy crates team.adminPubkey row.teamId row.memberPubkey row.adminSignature = true

/-- An announce that finds its team is signed by the stored admin, or it keeps the name and is
signed under the key it claims neither. -/
def AdminConsents (_ : List CallEvent) (σ : CallConfig) : CallEvent → Prop
  | .performed t (.upsertTeam teamId name _) (.ok _) =>
    ∀ pubkey id teamName adminPubkey adminSignature,
      (σ.tasks t).ctl = .calling (.announce pubkey id teamName adminPubkey adminSignature) →
      ∀ team ∈ σ.shared.teams, team.teamId = teamId →
        signedBy crates team.adminPubkey teamId pubkey adminSignature = true ∨
        team.name = name ∧ signedBy crates adminPubkey teamId pubkey adminSignature = false
  | _ => True

/-! ## What an announce does in which order -/

def next (l : Option Uuid) : (s : Statement) → Answer s → Option Uuid
  | .upsertTeam teamId _ _, .ok _ => some teamId
  | .insertTeam _ _, .ok teamId => some teamId
  | _, _ => l

/-- The team comes from the call, and a roster row is written for it and for the announcing key
once the signature has verified under the claimed admin. -/
def Ordered (c : CallState) (l : Option Uuid) : Statement → Prop
  | .upsertTeam teamId name adminPubkey => ∃ pubkey adminSignature,
    c = .calling (.announce pubkey (some teamId) name adminPubkey adminSignature)
  | .insertTeam name adminPubkey => ∃ pubkey adminSignature,
    c = .calling (.announce pubkey none name adminPubkey adminSignature)
  | .insertTeamMember teamId memberPubkey adminSignature => ∃ id name adminPubkey,
    c = .calling (.announce memberPubkey id name adminPubkey adminSignature) ∧ l = some teamId ∧
      signedBy crates adminPubkey teamId memberPubkey adminSignature = true
  | _ => True

/-- What a call knows once it has written its team: a signature that verifies under the claimed
admin verifies under the stored one. -/
def TeamFact (c : CallState) (l : Option Uuid) (db : Db ℕ) : Prop :=
  ∀ pubkey id name adminPubkey adminSignature teamId,
    c = .calling (.announce pubkey id name adminPubkey adminSignature) → l = some teamId →
    ∃ team ∈ db.teams, team.teamId = teamId ∧
      (signedBy crates team.adminPubkey teamId pubkey adminSignature = true ∨
        signedBy crates adminPubkey teamId pubkey adminSignature = false)

section Program

variable {crates}

theorem ordered_execute_bind {α : Type} {c : CallState} {l : Option Uuid} {s : Statement}
    {f : s.Rows → Query α} (hs : Ordered crates c l s)
    (hf : ∀ rows, (f rows).run.Follows next (Ordered crates c) (fun _ _ => True)
      (next l s (.ok rows))) :
    (execute s >>= f).run.Follows next (Ordered crates c) (fun _ _ => True) l :=
  follows_execute_bind hs (fun _ => trivial) hf

theorem announce_ordered (announcingPubkey : String) (teamId : Option Uuid)
    (teamName adminPubkey adminSignature : String) :
    (do
      let id ← Teams.announce crates announcingPubkey teamId teamName adminPubkey adminSignature
      pure (some id) : Query (Option Uuid)).run.Follows next
      (Ordered crates (.calling (.announce announcingPubkey teamId teamName adminPubkey
        adminSignature))) (fun _ _ => True) none := by
  have hrest : ∀ id, (do
      let signed ← check (Teams.adminSignedBytes crates id announcingPubkey)
      check (Auth.verifyDetached crates adminPubkey adminSignature signed)
      execute (.upsertPeer announcingPubkey)
      execute (.insertTeamMember id announcingPubkey adminSignature)
      pure (some id) : Query (Option Uuid)).run.Follows next
      (Ordered crates (.calling (.announce announcingPubkey teamId teamName adminPubkey
        adminSignature))) (fun _ _ => True) (some id) := by
    intro id
    refine follows_check_bind (fun _ => trivial) fun signed hs => ?_
    refine follows_check_bind (fun _ => trivial) fun _ hv => ?_
    refine ordered_execute_bind trivial fun _ => ?_
    refine ordered_execute_bind ⟨teamId, teamName, adminPubkey, rfl, rfl, ?_⟩ fun _ => trivial
    rw [signedBy, hs]
    simp only [hv]
    rfl
  simp only [Teams.announce, upsertPeer, addTeamMember, bind_assoc, pure_bind]
  cases teamId with
  | some id =>
    simp only [upsertTeam, bind_assoc, pure_bind]
    exact ordered_execute_bind ⟨_, _, rfl⟩ fun _ => hrest id
  | none => exact ordered_execute_bind ⟨_, _, rfl⟩ fun id => hrest id

theorem program_ordered (call : Call) :
    (call.program crates).Follows next (Ordered crates (.calling call)) (fun _ _ => True) none := by
  cases call with
  | upsertPeerWithKind pubkey kind => exact ordered_execute_bind trivial fun _ => trivial
  | claim pubkey handle =>
    have hall : (do
        let _ ← Handles.claim crates pubkey handle
        pure none : Query (Option Uuid)).run.Always _ :=
      Prog.Always.except_bind (Handles.claim_always crates pubkey handle) fun _ => trivial
    refine hall.follows (fun s hs => ?_) fun _ => trivial
    simp only [Handles.claimStatements, List.mem_cons, List.not_mem_nil, or_false] at hs
    rcases hs with rfl | rfl | rfl | rfl | rfl | rfl | rfl | rfl <;>
      exact ⟨trivial, fun _ => rfl⟩
  | announce announcingPubkey teamId teamName adminPubkey adminSignature =>
    exact announce_ordered announcingPubkey teamId teamName adminPubkey adminSignature

end Program

/-! ## What a statement does to teams and rosters -/

def writesTeams : Statement → Bool
  | .upsertTeam .. | .insertTeam .. | .insertTeamMember .. => true
  | _ => false

/-- Teams are never deleted and keep their admin. -/
def KeepsAdmins (teams teams' : List TeamRow) : Prop :=
  ∀ team ∈ teams, ∃ team' ∈ teams', team'.teamId = team.teamId ∧
    team'.adminPubkey = team.adminPubkey

section Statements

variable {crates} {db db' : Db ℕ} {t : ℕ} {env : Database.Env} {s : Statement} {r : Answer s}

theorem exec_teams_of_not_writes (h : db.exec t s env = some (r, db')) (hs : writesTeams s = false) :
    db'.teams = db.teams ∧ db'.teamMembers = db.teamMembers := by
  rcases Db.exec_tables h with ⟨-, -, hteams, hmembers⟩ | ⟨pk, kind, -, rfl⟩ |
    ⟨id, name, admin, rfl, -⟩ | ⟨id, name, admin, rfl, -⟩ | ⟨row, rfl, -⟩ | ⟨-, rfl⟩
  · exact ⟨hteams, hmembers⟩
  · exact ⟨rfl, rfl⟩
  · cases hs
  · cases hs
  · cases hs
  · exact ⟨rfl, rfl⟩

theorem upsertTeamRow_ids (rows : List TeamRow) (row : TeamRow) :
    (Db.upsertTeamRow rows row).map TeamRow.teamId =
      if row.teamId ∈ rows.map TeamRow.teamId then rows.map TeamRow.teamId
      else rows.map TeamRow.teamId ++ [row.teamId] := by
  have hany : (rows.any fun r => r.teamId = row.teamId) = true ↔
      row.teamId ∈ rows.map TeamRow.teamId := by
    simp
  unfold Db.upsertTeamRow
  simp only [hany]
  split_ifs with h
  · rw [List.map_map]
    refine List.map_congr_left fun r _ => ?_
    simp only [Function.comp_apply]
    split_ifs <;> rfl
  · simp

/-- The row of the team after an upsert: the old one renamed, or the given one. -/
theorem mem_upsertTeamRow {rows : List TeamRow} {row r : TeamRow}
    (h : r ∈ Db.upsertTeamRow rows row) :
    r ∈ rows ∧ r.teamId ≠ row.teamId ∨
    (∃ r' ∈ rows, r'.teamId = row.teamId ∧ r = { r' with name := row.name }) ∨
    (∀ r' ∈ rows, r'.teamId ≠ row.teamId) ∧ r = row := by
  unfold Db.upsertTeamRow at h
  split_ifs at h with hany
  · obtain ⟨r', hr', rfl⟩ := List.mem_map.mp h
    split_ifs with he
    · exact Or.inr (Or.inl ⟨r', hr', he, rfl⟩)
    · exact Or.inl ⟨hr', he⟩
  · have hnone : ∀ r' ∈ rows, r'.teamId ≠ row.teamId := by
      simpa using hany
    rcases List.mem_append.mp h with h | h
    · exact Or.inl ⟨h, hnone r h⟩
    · exact Or.inr (Or.inr ⟨hnone, List.mem_singleton.mp h⟩)

theorem upsertTeamRow_keepsAdmins (rows : List TeamRow) (row : TeamRow) :
    KeepsAdmins rows (Db.upsertTeamRow rows row) := by
  intro team hteam
  unfold Db.upsertTeamRow
  split_ifs with hany
  · refine ⟨_, List.mem_map_of_mem hteam, ?_⟩
    split_ifs <;> exact ⟨rfl, rfl⟩
  · exact ⟨team, List.mem_append_left _ hteam, rfl, rfl⟩

theorem exec_keepsAdmins (h : db.exec t s env = some (r, db')) : KeepsAdmins db.teams db'.teams := by
  have hsame : KeepsAdmins db.teams db.teams := fun team hteam => ⟨team, hteam, rfl, rfl⟩
  rcases Db.exec_tables h with ⟨-, -, hteams, -⟩ | ⟨pk, kind, -, rfl⟩ | ⟨id, name, admin, -, rfl⟩ |
    ⟨id, name, admin, -, rfl⟩ | ⟨row, -, rfl⟩ | ⟨-, rfl⟩
  · rw [hteams]
    exact hsame
  · exact hsame
  · exact upsertTeamRow_keepsAdmins _ _
  · exact fun team hteam => ⟨team, List.mem_append_left _ hteam, rfl, rfl⟩
  · exact hsame
  · exact hsame

theorem TeamFact.keepsAdmins {c : CallState} {l : Option Uuid} (h : TeamFact crates c l db)
    (hk : KeepsAdmins db.teams db'.teams) : TeamFact crates c l db' := by
  intro pubkey id name adminPubkey adminSignature teamId hc hl
  obtain ⟨team, hteam, hid, hs⟩ := h pubkey id name adminPubkey adminSignature teamId hc hl
  obtain ⟨team', hteam', hid', ha⟩ := hk team hteam
  exact ⟨team', hteam', hid'.trans hid, ha ▸ hs⟩

/-- Roster rows stay signed when teams keep their admins and each stays stored once. -/
theorem Authentic.keepsAdmins {teams teams' : List TeamRow} {members : List TeamMemberRow}
    (h : Authentic crates teams members) (hkey : (teams'.map TeamRow.teamId).Nodup)
    (hk : KeepsAdmins teams teams') : Authentic crates teams' members := by
  refine ⟨hkey, fun row hrow => ?_⟩
  obtain ⟨team, hteam, hid, hs⟩ := h.signed row hrow
  obtain ⟨team', hteam', hid', ha⟩ := hk team hteam
  exact ⟨team', hteam', hid'.trans hid, ha ▸ hs⟩

theorem Authentic.upsertMember {teams : List TeamRow} {members : List TeamMemberRow}
    {row : TeamMemberRow} (h : Authentic crates teams members)
    (hrow : ∃ team ∈ teams, team.teamId = row.teamId ∧
      signedBy crates team.adminPubkey row.teamId row.memberPubkey row.adminSignature = true) :
    Authentic crates teams (Db.upsertMemberRow members row) := by
  refine ⟨h.teamKey, fun r hr => ?_⟩
  unfold Db.upsertMemberRow at hr
  split_ifs at hr with hany
  · obtain ⟨r', hr', rfl⟩ := List.mem_map.mp hr
    split_ifs with he
    · simp only [he.1, he.2]
      exact hrow
    · exact h.signed r' hr'
  · rcases List.mem_append.mp hr with hr | hr
    · exact h.signed r hr
    · rw [List.mem_singleton.mp hr]
      exact hrow

end Statements

/-! ## Guarded runs -/

section Runs

variable {crates} {db₀ : Db ℕ} {tr : List CallEvent} {σ : CallConfig}

/-- One statement of a call that meets the condition keeps the rosters authentic and lets the call
know its team. -/
theorem exec_authentic {t : ℕ} {c : CallState} {l : Option Uuid} {s : Statement}
    {k : Answer s → Prog Statement Answer _} {env : Database.Env} {r : Answer s} {db' : Db ℕ}
    (hguard : AdminConsents crates tr σ (.performed t s r)) (ht : σ.tasks t = .running c (.call s k))
    (hx : σ.shared.exec t s env = some (r, db'))
    (hj : Authentic crates σ.shared.teams σ.shared.teamMembers)
    (hfact : TeamFact crates c l σ.shared) (hok : Ordered crates c l s) :
    Authentic crates db'.teams db'.teamMembers ∧ TeamFact crates c (next l s r) db' := by
  have hkeep := exec_keepsAdmins hx
  rcases Db.exec_cases hx with ⟨e, rfl, rfl⟩ | ⟨rows, rfl, -, hr⟩
  · have hnext : next l s (.error e) = l := by
      cases s <;> rfl
    rw [hnext]
    exact ⟨hj, hfact⟩
  · cases s with
    | upsertTeam id name admin =>
      cases hr
      refine ⟨hj.keepsAdmins ?_ hkeep, ?_⟩
      · rw [upsertTeamRow_ids]
        split_ifs with hmem
        · exact hj.teamKey
        · exact hj.teamKey.append (by simp) (by simpa using hmem)
      · intro pubkey id' name' admin' sig teamId hc hl
        obtain ⟨pubkey₀, sig₀, hc₀⟩ := hok
        rw [hc] at hc₀
        cases hc₀
        cases hl
        by_cases hmem : ∃ team ∈ σ.shared.teams, team.teamId = id
        · obtain ⟨team, hteam, hid⟩ := hmem
          obtain ⟨team', hteam', hid', ha⟩ := hkeep team hteam
          refine ⟨team', hteam', hid'.trans hid, ?_⟩
          rw [ha]
          have hctl : (σ.tasks t).ctl = .calling (.announce pubkey (some id) name admin sig) := by
            rw [ht]
            exact hc
          exact (hguard pubkey _ _ _ sig hctl team hteam hid).imp_right And.right
        · refine ⟨⟨id, name, admin⟩, ?_, rfl, ?_⟩
          · have hany : (σ.shared.teams.any fun r => r.teamId = id) = false := by
              simpa using hmem
            simp [Db.upsertTeamRow, hany]
          · cases signedBy crates admin id pubkey sig <;> simp
    | insertTeam name admin =>
      simp only [Db.run] at hr
      split_ifs at hr with hany
      cases hr
      refine ⟨hj.keepsAdmins ?_ hkeep, ?_⟩
      · rw [List.map_append]
        exact hj.teamKey.append (by simp) (by simpa using hany)
      · intro pubkey id' name' admin' sig teamId hc hl
        obtain ⟨pubkey₀, sig₀, hc₀⟩ := hok
        rw [hc] at hc₀
        cases hc₀
        cases hl
        refine ⟨⟨env.uuid, name, admin⟩, by simp, rfl, ?_⟩
        cases signedBy crates admin env.uuid pubkey sig <;> simp
    | insertTeamMember id member sig =>
      simp only [Db.run] at hr
      split_ifs at hr with hany
      cases hr
      refine ⟨hj.upsertMember ?_, hfact.keepsAdmins hkeep⟩
      obtain ⟨id', name, admin, hc, hl, hs⟩ := hok
      obtain ⟨team, hteam, hid, hor⟩ := hfact _ _ _ _ _ _ hc hl
      refine ⟨team, hteam, hid, hor.resolve_right ?_⟩
      rw [hs]
      simp
    | _ =>
      obtain ⟨hteams, hmembers⟩ := exec_teams_of_not_writes hx rfl
      rw [hteams, hmembers]
      exact ⟨hj, hfact.keepsAdmins hkeep⟩

theorem authentic_of_guardedRun (h₀ : Authentic crates db₀.teams db₀.teamMembers)
    (h : GuardedRun (calls crates) (AdminConsents crates) (started db₀) tr σ) :
    Authentic crates σ.shared.teams σ.shared.teamMembers ∧
      ∀ t c p, σ.tasks t = .running c p →
        ∃ l, p.Follows next (Ordered crates c) (fun _ _ => True) l ∧
          TeamFact crates c l σ.shared := by
  refine h.relyGuarantee next (Ordered crates) (fun _ => TeamFact crates)
    (fun db => Authentic crates db.teams db.teamMembers) (fun t => ⟨.idle, rfl⟩) h₀ ?_ ?_ ?_ ?_
  · intro t c i c' p s hs _
    cases c <;> cases hs
    refine ⟨none, program_ordered i, ?_⟩
    intro _ _ _ _ _ _ _ hl
    cases hl
  · intro tr σ t c l o k env r s' hguard ht hx hj hfact hok
    exact exec_authentic hguard ht hx hj hfact hok
  · intro t u o env s r s' c l hx _ hfact
    exact hfact.keepsAdmins (exec_keepsAdmins hx)
  · intro x
    exact x.elim

theorem upsertTeam_announced (h₀ : Authentic crates db₀.teams db₀.teamMembers)
    (h : GuardedRun (calls crates) (AdminConsents crates) (started db₀) tr σ) {t : ℕ}
    {c : CallState} {id : Uuid} {name admin : String} {k}
    (ht : σ.tasks t = .running c (.call (.upsertTeam id name admin) k)) :
    ∃ pubkey sig, c = .calling (.announce pubkey (some id) name admin sig) := by
  obtain ⟨l, hf, -⟩ := (authentic_of_guardedRun h₀ h).2 t c _ ht
  exact hf.1

theorem Authentic.unique {teams : List TeamRow} {members : List TeamMemberRow}
    (h : Authentic crates teams members) {a b : TeamRow} (ha : a ∈ teams) (hb : b ∈ teams)
    (hid : a.teamId = b.teamId) : a = b :=
  List.inj_on_of_nodup_map h.teamKey ha hb hid

/-- In every run whose announces have the stored admin's consent, each roster row is signed by the
stored admin of its team, and a step that renames a team is an announce signed by that admin. -/
theorem announces_keep_rosters_authentic (h₀ : Authentic crates db₀.teams db₀.teamMembers)
    (h : GuardedRun (calls crates) (AdminConsents crates) (started db₀) tr σ) :
    Authentic crates σ.shared.teams σ.shared.teamMembers ∧
    ∀ e σ', Step (calls crates) σ e σ' → AdminConsents crates tr σ e →
      ∀ team ∈ σ.shared.teams, ∀ team' ∈ σ'.shared.teams, team'.teamId = team.teamId →
        team'.name ≠ team.name →
        ∃ t pubkey admin sig, e = .performed t (.upsertTeam team.teamId team'.name admin) (.ok ()) ∧
          (σ.tasks t).ctl =
            .calling (.announce pubkey (some team.teamId) team'.name admin sig) ∧
          signedBy crates team.adminPubkey team.teamId pubkey sig = true := by
  have hj := (authentic_of_guardedRun h₀ h).1
  refine ⟨hj, ?_⟩
  intro e σ' hstep hguard team hteam team' hteam' hid hname
  -- a row that was there before is the row of its team, and its name has not changed
  have hold : team' ∉ σ.shared.teams :=
    fun hmem => hname (congrArg TeamRow.name (hj.unique hmem hteam hid))
  rcases hstep.cases with ⟨t, i, c, c', p, rfl, -, -, rfl⟩ |
    ⟨t, c, o, k, env, r, s', rfl, ht, hx, rfl⟩ | ⟨x, -⟩
  · exact absurd hteam' hold
  · rcases Db.exec_cases hx with ⟨err, -, rfl⟩ | ⟨rows, rfl, -, hr⟩
    · exact absurd hteam' hold
    · cases hs : writesTeams o with
      | false => exact absurd ((exec_teams_of_not_writes hx hs).1 ▸ hteam') hold
      | true =>
        cases o with
        | upsertTeam id name admin =>
          obtain ⟨pubkey, sig, rfl⟩ := upsertTeam_announced h₀ h ht
          cases hr
          rcases mem_upsertTeamRow hteam' with ⟨hmem, -⟩ | ⟨row, hrow, hrowid, rfl⟩ |
            ⟨hnone, rfl⟩
          · exact absurd hmem hold
          · obtain rfl := hj.unique hrow hteam hid
            simp only at hrowid hname
            subst hrowid
            have hctl : (σ.tasks t).ctl =
                .calling (.announce pubkey (some row.teamId) name admin sig) := by
              rw [ht]
              rfl
            refine ⟨t, pubkey, admin, sig, rfl, hctl, ?_⟩
            refine (hguard _ _ _ _ _ hctl row hrow rfl).resolve_right ?_
            exact fun hkeep => hname hkeep.1.symm
          · exact absurd hid.symm (hnone team hteam)
        | insertTeam name admin =>
          simp only [Db.run] at hr
          split_ifs at hr with hany
          cases hr
          rcases List.mem_append.mp hteam' with hmem | hmem
          · exact absurd hmem hold
          · have hnone : ∀ row ∈ σ.shared.teams, row.teamId ≠ env.uuid := by
              simpa using hany
            rw [List.mem_singleton.mp hmem] at hid
            exact absurd hid.symm (hnone team hteam)
        | insertTeamMember id member sig =>
          simp only [Db.run] at hr
          split_ifs at hr
          cases hr
          exact absurd hteam' hold
        | _ => cases hs
  · exact x.elim

end Runs

/-! ## A stranger announces -/

theorem emptyDb_authentic : Authentic Crates.demo emptyDb.teams emptyDb.teamMembers :=
  ⟨by simp [emptyDb], by simp [emptyDb]⟩

def team : Uuid := Vector.replicate 16 7

def announces (t : ℕ) (pubkey : Char) (name : String) (admin signer : Char) :
    List (Action ℕ Database.Env Call Empty) :=
  .input t (.announce (keyText pubkey) (some team) name (keyText admin) (signatureText signer)) ::
    List.replicate 3 (.perform t quiet)

def adminConsents (crates : Crates) (_ : List CallEvent) (σ : CallConfig) : CallEvent → Bool
  | .performed t (.upsertTeam teamId name _) (.ok _) =>
    match (σ.tasks t).ctl with
    | .calling (.announce pubkey _ _ adminPubkey adminSignature) =>
      σ.shared.teams.all fun team => decide (team.teamId ≠ teamId) ||
        signedBy crates team.adminPubkey teamId pubkey adminSignature ||
        (decide (team.name = name) && !signedBy crates adminPubkey teamId pubkey adminSignature)
    | _ => true
  | _ => true

theorem adminConsents_sound (crates : Crates) (tr : List CallEvent) (σ : CallConfig)
    (e : CallEvent) (h : adminConsents crates tr σ e = true) : AdminConsents crates tr σ e := by
  unfold AdminConsents
  split
  · rename_i t teamId name admin _
    intro pubkey id teamName adminPubkey adminSignature hctl row hrow hid
    simp only [adminConsents, hctl, List.all_eq_true] at h
    simpa [hid, or_assoc] using h row hrow
  · trivial

/-- The admin founds a team, adds a member and renames the team. -/
def consented : List (Action ℕ Database.Env Call Empty) :=
  announces 0 'a' "core" 'a' 'a' ++ announces 1 'b' "core" 'a' 'a' ++
    announces 2 'a' "kernel" 'a' 'a'

theorem consented_tables :
    (runGuarded (calls Crates.demo) (adminConsents Crates.demo) consented [] (started emptyDb)).map
      (fun x => (x.2.shared.teams, x.2.shared.teamMembers)) =
    some ([⟨team, "kernel", keyText 'a'⟩],
      [⟨team, keyText 'a', signatureText 'a', 0⟩, ⟨team, keyText 'b', signatureText 'a', 0⟩]) := by
  decide +kernel

theorem consented_announces_authentic : ∃ σ : CallConfig,
    σ.shared.teamMembers.length = 2 ∧
      Authentic Crates.demo σ.shared.teams σ.shared.teamMembers := by
  obtain ⟨⟨tr, σ⟩, hrun, hrows⟩ := Option.map_eq_some_iff.mp consented_tables
  simp only [Prod.mk.injEq] at hrows
  refine ⟨σ, by rw [hrows.2]; rfl, ?_⟩
  exact (announces_keep_rosters_authentic emptyDb_authentic
    (guardedRun_of_runGuarded (adminConsents_sound Crates.demo) .start hrun)).1

/-- After the founding, a stranger announces the team under another name, as its own admin and
with its own signature. -/
def usurped : List (Action ℕ Database.Env Call Empty) :=
  announces 0 'a' "core" 'a' 'a' ++ announces 1 'e' "taken" 'e' 'e'

theorem usurped_tables :
    (runActions (calls Crates.demo) usurped [] (started emptyDb)).map
      (fun x => (x.2.shared.teams, x.2.shared.teamMembers)) =
    some ([⟨team, "taken", keyText 'a'⟩],
      [⟨team, keyText 'a', signatureText 'a', 0⟩, ⟨team, keyText 'e', signatureText 'e', 0⟩]) := by
  decide +kernel

theorem usurper_not_signed :
    signedBy Crates.demo (keyText 'a') team (keyText 'e') (signatureText 'e') = false := by
  decide +kernel

/-- The stranger is on the roster, and the admin's key has signed nothing for it. -/
theorem stranger_joins_roster : ∃ tr σ,
    Run (calls Crates.demo) (started emptyDb) tr σ ∧
      ¬ Authentic Crates.demo σ.shared.teams σ.shared.teamMembers := by
  obtain ⟨⟨tr, σ⟩, hrun, hrows⟩ := Option.map_eq_some_iff.mp usurped_tables
  simp only [Prod.mk.injEq] at hrows
  refine ⟨tr, σ, run_of_runActions .start hrun, fun ha => ?_⟩
  obtain ⟨row, hrow, -, hs⟩ := ha.signed ⟨team, keyText 'e', signatureText 'e', 0⟩ (by
    rw [hrows.2]
    simp)
  rw [hrows.1] at hrow
  obtain rfl := List.mem_singleton.mp hrow
  rw [usurper_not_signed] at hs
  cases hs

end HashedBroker.TeamMembership
