import HashedBroker.ConcurrentCalls
import HashedBroker.HandleClaims
import HashedBroker.TerminatingRuns

/-!
# Contention for one handle

Any number of keys call `claim_handle` for one free handle, interleaved statement by statement, and no
statement fails for outside reasons. The first insertion holds the handle until its transaction is
committed, so one call wins and nobody else writes. A loser that looks for the owner after the commit
is told that the handle is taken. One that has looked before waits with its own insertion for the
commit, and is then told of a failure of the database.
-/
namespace HashedBroker.HandleContention
open KeyedTables AtomicPrograms ReactiveTasks Database
open HandleClaims (exec_other)

abbrev Outcome := Except BrokerError Unit

abbrev Contest := Config ℕ Statement Answer (Observed (Db ℕ) Unit) (CallState String Outcome) Outcome

abbrev ContestEvent := Event ℕ Statement Answer String Empty

/-- Calls of `claim_handle` for one handle, each by a task of its own, with the key as its request. -/
def contention (h : String) : Machine ℕ Statement Answer Database.Env (Observed (Db ℕ) Unit)
    (CallState String Outcome) String Outcome Empty :=
  concurrentCalls (fun t s env db => db.exec t s { env with fault := none })
    (fun _ _ _ _ _ => some ()) (fun pk => (claimHandle pk h).run) fun x _ => x.elim

/-- The handle is free, and nobody is at work. -/
structure Free (h : String) (db : Db ℕ) : Prop where
  unowned : ∀ row ∈ db.handles, row.handle ≠ h
  unlisted : ∀ row ∈ db.peers, row.handle ≠ some h
  quiet : db.transactions = ∅

/-- The key is known, and owns no handle. -/
def Contender (db : Db ℕ) (pk : String) : Prop :=
  pk ∈ db.peers.map PeerRow.pubkey ∧ ∀ row ∈ db.handles, row.pubkey ≠ pk

instance (db : Db ℕ) (pk : String) : Decidable (Contender db pk) :=
  inferInstanceAs (Decidable (_ ∧ _))

def Distinct (db₀ : Db ℕ) (_ : List ContestEvent) (σ : Contest) : ContestEvent → Prop
  | .input _ pk => Contender db₀ pk ∧ ∀ u, ¬ (σ.tasks u).serves pk
  | _ => True

/-- No insertion is sent while the handle stands in a committed row. -/
def Unclaimed (_ : List ContestEvent) (σ : Contest) : ContestEvent → Prop
  | .performed _ (.insertHandle handle _) _ => ∀ row ∈ σ.shared.state.handles, row.handle ≠ handle
  | _ => True

/-! ## Where a call stands -/

inductive Point
  | begin
  | ownHandle
  | owner
  | insert
  | update
  | commit
  | rollback

namespace Point

/-- What is left of `claim_handle`, for a key that owns nothing. -/
def program (pk h : String) : Point → Prog Statement Answer Outcome
  | .begin => (claimHandle pk h).run
  | .ownHandle => (do
      match ← execute (.selectHandle pk) with
      | some found =>
        let _ ← execute .rollback
        if found = h then pure () else throw .handleAlreadyOwned
      | none =>
        match ← execute (.selectOwner h) with
        | some _ =>
          let _ ← execute .rollback
          throw .handleTaken
        | none =>
          let _ ← execute (.insertHandle h pk)
          let _ ← execute (.updatePeerHandle h pk)
          execute .commit : Query Unit).run
  | .owner => (do
      match ← execute (.selectOwner h) with
      | some _ =>
        let _ ← execute .rollback
        throw .handleTaken
      | none =>
        let _ ← execute (.insertHandle h pk)
        let _ ← execute (.updatePeerHandle h pk)
        execute .commit : Query Unit).run
  | .insert => (do
      let _ ← execute (.insertHandle h pk)
      let _ ← execute (.updatePeerHandle h pk)
      execute .commit : Query Unit).run
  | .update => (do
      let _ ← execute (.updatePeerHandle h pk)
      execute .commit : Query Unit).run
  | .commit => (execute .commit).run
  | .rollback => (do
      let _ ← execute .rollback
      throw .handleTaken : Query Unit).run

def transaction (pk h : String) : Point → Option Transaction
  | .begin => none
  | .update => some ⟨[⟨h, pk⟩], []⟩
  | .commit => some ⟨[⟨h, pk⟩], [(pk, h)]⟩
  | _ => some ⟨[], []⟩

def Leads (pt : Point) : Prop := pt = .update ∨ pt = .commit

end Point

/-- Where the task `t` and its transaction stand when `won` has committed. A failure of the database
is a way to lose where `late` insertions are allowed. -/
inductive Position (db₀ : Db ℕ) (h : String) (late : Prop) (won : Option (ℕ × String)) (t : ℕ) :
    Task Statement Answer (CallState String Outcome) Outcome → Option Transaction → Prop
  | absent : Position db₀ h late won t (.waiting .absent) none
  | running (pk : String) (pt : Point) (known : Contender db₀ pk) (leads : pt.Leads → won = none)
      (decided : pt = .rollback → won ≠ none) :
      Position db₀ h late won t (.running (.active pk) (pt.program pk h)) (pt.transaction pk h)
  | won (pk : String) (first : won = some (t, pk)) :
      Position db₀ h late won t (.waiting (.returned pk (.ok ()))) none
  | lost (pk : String) (e : BrokerError) (decided : won ≠ none) (other : ∀ pk', won ≠ some (t, pk'))
      (why : e = .handleTaken ∨ late ∧ ∃ m, e = .database m) :
      Position db₀ h late won t (.waiting (.returned pk (.error e))) none

/-- Each call stands somewhere; the tables are those of the start but for what the winner has
written, and one call at most holds the handle. -/
structure Standing (db₀ : Db ℕ) (h : String) (late : Prop) (won : Option (ℕ × String)) (σ : Contest) :
    Prop where
  tasks : ∀ t, Position db₀ h late won t (σ.tasks t) (σ.shared.state.transactions.lookup t)
  peers : σ.shared.state.peers = won.elim db₀.peers fun w => Db.setHandles [(w.2, h)] db₀.peers
  handles : σ.shared.state.handles = db₀.handles ++ won.elim [] fun w => [⟨h, w.2⟩]
  winner : ∀ w pk, won = some (w, pk) → σ.tasks w = .waiting (.returned pk (.ok ()))
  leader : ∀ t u txn txn', σ.shared.state.transactions.lookup t = some txn →
    σ.shared.state.transactions.lookup u = some txn' → txn.handles ≠ [] → txn'.handles ≠ [] → t = u
  distinct : ∀ t u pk, (σ.tasks t).serves pk → (σ.tasks u).serves pk → t = u

section Steps

variable {db₀ : Db ℕ} {h : String} {late : Prop} {won : Option (ℕ × String)} {σ σ' : Contest}
  {t : ℕ} {pk : String} {env : Database.Env} {db' : Db ℕ}

theorem run_of_exec {db : Db ℕ} {s : Statement} {r : Answer s}
    (hx : db.exec t s { env with fault := none } = some (r, db')) : db.waits t s = false ∧
      ((∃ rows, r = .ok rows ∧ db.run t { env with fault := none } s = .ok (rows, db')) ∨
        ∃ e, r = .error e ∧ db' = db.abort t ∧ db.run t { env with fault := none } s = .error e) := by
  simp only [Db.exec] at hx
  split_ifs at hx with hw
  refine ⟨by simpa using hw, ?_⟩
  split at hx
  · rename_i rows db'' hr
    cases hx
    exact Or.inl ⟨rows, rfl, hr⟩
  · rename_i e hr
    cases hx
    exact Or.inr ⟨e, rfl, rfl, hr⟩

theorem ownWrites_eq {db : Db ℕ} {txn : Transaction} (hl : db.transactions.lookup t = some txn) :
    db.ownWrites t = txn := by
  rw [Db.ownWrites, hl, Option.getD_some]

theorem lookup_setWrites (db : Db ℕ) (t : ℕ) (txn : Transaction) :
    (db.setWrites t txn).transactions.lookup t = some txn := by
  rw [Db.setWrites, lookup_insert_ite, if_pos rfl]

theorem insert_refused {db : Db ℕ} {handle : String} {r : Answer (.insertHandle handle pk)}
    (hx : db.exec t (.insertHandle handle pk) { env with fault := none } = some (r, db'))
    (hclaimed : ∃ row ∈ db.handles, row.handle = handle) :
    ∃ e, r = .error e ∧ db' = db.abort t := by
  have hany : ((db.handles ++ (db.ownWrites t).handles).any fun row => row.handle = handle) =
      true := by
    obtain ⟨row, hrow, hh⟩ := hclaimed
    exact List.any_eq_true.mpr ⟨row, List.mem_append_left _ hrow, by simpa using hh⟩
  obtain ⟨-, ⟨rows, rfl, hr⟩ | ⟨e, hr, hdb, -⟩⟩ := run_of_exec hx
  · simp only [Db.run, hany, if_true] at hr
    cases hr
  · exact ⟨e, hr, hdb⟩

theorem serves_of_update {T : Task Statement Answer (CallState String Outcome) Outcome} {w : ℕ}
    (hserves : T.serves pk → (σ.tasks t).serves pk)
    (hw : (Function.update σ.tasks t T w).serves pk) : (σ.tasks w).serves pk := by
  by_cases hwt : w = t
  · subst hwt
    rw [Function.update_self] at hw
    exact hserves hw
  · rwa [Function.update_of_ne hwt] at hw

theorem Standing.winner_other {w : ℕ × String} (hi : Standing db₀ h late (some w) σ)
    (hserves : (σ.tasks t).serves pk) (hlost : σ.tasks t ≠ .waiting (.returned pk (.ok ()))) :
    w.2 ≠ pk := by
  rintro rfl
  have hret := hi.winner w.1 w.2 rfl
  have hserves' : (σ.tasks w.1).serves w.2 := by
    rw [hret]
    rfl
  rw [hi.distinct w.1 t w.2 hserves' hserves] at hret
  exact hlost hret

/-- A call has moved on, and the committed tables are as they were. -/
theorem Standing.move (hi : Standing db₀ h late won σ) {c : CallState String Outcome}
    {p : Prog Statement Answer Outcome} (ht : σ.tasks t = .running c p)
    {T : Task Statement Answer (CallState String Outcome) Outcome}
    (hserves : ∀ pk, T.serves pk → (σ.tasks t).serves pk)
    (hT : Position db₀ h late won t T (db'.transactions.lookup t))
    (hother : ∀ u, u ≠ t → db'.transactions.lookup u = σ.shared.state.transactions.lookup u)
    (hpeers : db'.peers = σ.shared.state.peers) (hhandles : db'.handles = σ.shared.state.handles)
    (hleads : ∀ txn, db'.transactions.lookup t = some txn → txn.handles ≠ [] → ∀ u, u ≠ t →
      ∀ txn', σ.shared.state.transactions.lookup u = some txn' → txn'.handles = []) :
    Standing db₀ h late won ⟨⟨db', ()⟩, Function.update σ.tasks t T⟩ where
  tasks u := by
    by_cases hu : u = t
    · subst hu
      simp only [Function.update_self]
      exact hT
    · simp only [Function.update_of_ne hu, hother u hu]
      exact hi.tasks u
  peers := hpeers.trans hi.peers
  handles := hhandles.trans hi.handles
  winner w pk hw := by
    have hret := hi.winner w pk hw
    have hwt : w ≠ t := by
      rintro rfl
      rw [ht] at hret
      cases hret
    simp only [Function.update_of_ne hwt]
    exact hret
  leader u v txn txn' hu hv hne hne' := by
    by_cases hut : u = t
    · by_cases hvt : v = t
      · exact hut.trans hvt.symm
      · subst hut
        rw [hother v hvt] at hv
        exact absurd (hleads txn hu hne v hvt txn' hv) hne'
    · rw [hother u hut] at hu
      by_cases hvt : v = t
      · subst hvt
        exact absurd (hleads txn' hv hne' u hut txn hu) hne
      · rw [hother v hvt] at hv
        exact hi.leader u v txn txn' hu hv hne hne'
  distinct u v pk hu hv :=
    hi.distinct u v pk (serves_of_update (hserves pk) hu) (serves_of_update (hserves pk) hv)

theorem Standing.claimed (hi : Standing db₀ h late won σ) (hfree : Free h db₀) :
    (∃ row ∈ σ.shared.state.handles, row.handle = h) ↔ won ≠ none := by
  rw [hi.handles]
  cases won with
  | none =>
    simp only [Option.elim_none, List.append_nil, ne_eq, not_true, iff_false]
    rintro ⟨row, hrow, hh⟩
    exact hfree.unowned row hrow hh
  | some w => simp

theorem Standing.owns_nothing (hi : Standing db₀ h late won σ)
    {p : Prog Statement Answer Outcome} (ht : σ.tasks t = .running (.active pk) p)
    (known : Contender db₀ pk) : ∀ row ∈ σ.shared.state.handles, row.pubkey ≠ pk := by
  intro row hrow
  rw [hi.handles] at hrow
  rcases List.mem_append.mp hrow with hrow | hrow
  · exact known.2 row hrow
  · cases won with
    | none => cases hrow
    | some w =>
      obtain rfl := List.mem_singleton.mp hrow
      have hserves : (σ.tasks t).serves pk := by
        rw [ht]
        rfl
      exact hi.winner_other hserves (by simp [ht])

theorem Standing.peer (hi : Standing db₀ h late won σ) (known : Contender db₀ pk) :
    (σ.shared.state.peers.any fun row => row.pubkey = pk) = true := by
  have hmem : pk ∈ σ.shared.state.peers.map PeerRow.pubkey := by
    rw [hi.peers]
    cases won with
    | none => exact known.1
    | some w =>
      rw [Option.elim_some, Db.setHandles_pubkeys]
      exact known.1
  obtain ⟨row, hrow, rfl⟩ := List.mem_map.mp hmem
  exact List.any_eq_true.mpr ⟨row, hrow, by simp⟩

theorem Standing.pending (hi : Standing db₀ h late won σ) {u : ℕ} {txn : Transaction}
    (hl : σ.shared.state.transactions.lookup u = some txn) : ∀ row ∈ txn.handles, row.handle = h := by
  have hpos := hi.tasks u
  rw [hl] at hpos
  generalize hsome : some txn = x at hpos
  generalize σ.tasks u = T at hpos
  cases hpos with
  | running pk pt known leads decided =>
    intro row hrow
    cases pt with
    | begin => cases hsome
    | update =>
      cases hsome
      rw [List.mem_singleton.mp hrow]
    | commit =>
      cases hsome
      rw [List.mem_singleton.mp hrow]
    | _ =>
      cases hsome
      cases hrow
  | _ => cases hsome

theorem Standing.goes (hi : Standing db₀ h late won σ) {p : Prog Statement Answer Outcome}
    (ht : σ.tasks t = .running (.active pk) p) (pt : Point) (known : Contender db₀ pk)
    (leads : pt.Leads → won = none) (decided : pt = .rollback → won ≠ none)
    (htxn : db'.transactions.lookup t = pt.transaction pk h)
    (hother : ∀ u, u ≠ t → db'.transactions.lookup u = σ.shared.state.transactions.lookup u)
    (hpeers : db'.peers = σ.shared.state.peers) (hhandles : db'.handles = σ.shared.state.handles)
    (hleads : pt.Leads → ∀ u, u ≠ t → ∀ txn, σ.shared.state.transactions.lookup u = some txn →
      txn.handles = []) :
    Standing db₀ h late won
      ⟨⟨db', ()⟩, Function.update σ.tasks t (.running (.active pk) (pt.program pk h))⟩ := by
  refine hi.move ht (fun pk' hs => ht ▸ hs) ?_ hother hpeers hhandles fun txn hl hne => ?_
  · rw [htxn]
    exact .running pk pt known leads decided
  · refine hleads ?_
    rw [htxn] at hl
    cases pt with
    | update => exact Or.inl rfl
    | commit => exact Or.inr rfl
    | begin => cases hl
    | _ =>
      cases hl
      exact absurd rfl hne

theorem Standing.goesOn (hi : Standing db₀ h late won σ) {p : Prog Statement Answer Outcome}
    (ht : σ.tasks t = .running (.active pk) p) (pt : Point) (known : Contender db₀ pk)
    (hleads : ¬ pt.Leads) (decided : pt = .rollback → won ≠ none)
    (htxn : db'.transactions.lookup t = pt.transaction pk h)
    (hother : ∀ u, u ≠ t → db'.transactions.lookup u = σ.shared.state.transactions.lookup u)
    (hpeers : db'.peers = σ.shared.state.peers) (hhandles : db'.handles = σ.shared.state.handles) :
    Standing db₀ h late won
      ⟨⟨db', ()⟩, Function.update σ.tasks t (.running (.active pk) (pt.program pk h))⟩ :=
  hi.goes ht pt known (fun hl => absurd hl hleads) decided htxn hother hpeers hhandles
    fun hl => absurd hl hleads

theorem Standing.loses (hi : Standing db₀ h late won σ) {p : Prog Statement Answer Outcome}
    (ht : σ.tasks t = .running (.active pk) p) {e : BrokerError} (decided : won ≠ none)
    (why : e = .handleTaken ∨ late ∧ ∃ m, e = .database m) :
    Standing db₀ h late won ⟨⟨σ.shared.state.abort t, ()⟩,
      Function.update σ.tasks t (.waiting (.returned pk (.error e)))⟩ := by
  have hnone : (σ.shared.state.abort t).transactions.lookup t = none := by
    rw [Db.abort, lookup_erase_ite, if_pos rfl]
  have hother : ∀ u, u ≠ t →
      (σ.shared.state.abort t).transactions.lookup u = σ.shared.state.transactions.lookup u := by
    intro u hu
    rw [Db.abort, lookup_erase_ite, if_neg hu]
  refine hi.move ht (fun pk' hs => ht ▸ hs) ?_ hother rfl rfl fun txn hl => ?_
  · rw [hnone]
    refine .lost pk e decided (fun pk' hw => ?_) why
    have hret := hi.winner t pk' hw
    rw [ht] at hret
    cases hret
  · rw [hnone] at hl
    cases hl

theorem Standing.commits (hi : Standing db₀ h late none σ) {p : Prog Statement Answer Outcome}
    (ht : σ.tasks t = .running (.active pk) p)
    (htxn : σ.shared.state.transactions.lookup t = Point.commit.transaction pk h) :
    Standing db₀ h late (some (t, pk)) ⟨⟨{ σ.shared.state.abort t with
      handles := σ.shared.state.handles ++ (σ.shared.state.ownWrites t).handles,
      peers := Db.setHandles (σ.shared.state.ownWrites t).peers σ.shared.state.peers }, ()⟩,
      Function.update σ.tasks t (.waiting (.returned pk (.ok ())))⟩ := by
  have hown : σ.shared.state.ownWrites t = ⟨[⟨h, pk⟩], [(pk, h)]⟩ := ownWrites_eq htxn
  have hl : ∀ u, (σ.shared.state.abort t).transactions.lookup u =
      if u = t then none else σ.shared.state.transactions.lookup u := by
    intro u
    rw [Db.abort, lookup_erase_ite]
  -- nobody else holds the handle, and nobody has lost yet
  have hothers : ∀ u, u ≠ t → Position db₀ h late (some (t, pk)) u (σ.tasks u)
      (σ.shared.state.transactions.lookup u) := by
    intro u hu
    have hpos := hi.tasks u
    have hempty : ∀ txn, σ.shared.state.transactions.lookup u = some txn → txn.handles = [] := by
      intro txn hlu
      by_contra hne
      exact hu (hi.leader u t txn _ hlu htxn hne (by simp))
    generalize σ.shared.state.transactions.lookup u = x at hpos hempty
    generalize σ.tasks u = T at hpos
    cases hpos with
    | absent => exact .absent
    | running pk' pt known leads decided =>
      refine .running pk' pt known (fun hleads => ?_) fun _ => Option.some_ne_none _
      rcases hleads with rfl | rfl
      · cases hempty _ rfl
      · cases hempty _ rfl
    | won pk' first => cases first
    | lost pk' e decided other why => exact absurd rfl decided
  refine ⟨fun u => ?_, ?_, ?_, ?_, ?_, ?_⟩
  · simp only [hl]
    by_cases hu : u = t
    · subst hu
      simp only [Function.update_self, if_true]
      exact .won pk rfl
    · simp only [Function.update_of_ne hu, if_neg hu]
      exact hothers u hu
  · simp only [hown, hi.peers]
    rfl
  · simp only [hown, hi.handles]
    simp
  · rintro w pk' ⟨⟩
    simp
  · intro u v txn txn' hu hv hne hne'
    rw [hl] at hu hv
    split_ifs at hu hv
    exact hi.leader u v txn txn' hu hv hne hne'
  · intro u v pk' hu hv
    have hserves : (Task.waiting (.returned pk (.ok ())) :
        Task Statement Answer (CallState String Outcome) Outcome).serves pk' →
        (σ.tasks t).serves pk' := by
      intro hpk
      rw [ht]
      exact hpk
    exact hi.distinct u v pk' (serves_of_update hserves hu) (serves_of_update hserves hv)

structure NextIs (σ : Contest) (t : ℕ) (pk h : String) (pt : Point) (o : Statement)
    (k : Answer o → Prog Statement Answer Outcome) : Prop where
  task : σ.tasks t = .running (.active pk) (.call o k)
  program : Prog.call o k = pt.program pk h
  transaction : σ.shared.state.transactions.lookup t = pt.transaction pk h

section Statements

variable {o : Statement} {k : Answer o → Prog Statement Answer Outcome} {r : Answer o}

theorem Standing.asks (hi : Standing db₀ h late won σ) (hfree : Free h db₀)
    (hnext : NextIs σ t pk h .owner o k) (known : Contender db₀ pk)
    (hx : σ.shared.state.exec t o { env with fault := none } = some (r, db')) :
    Standing db₀ h late won
      ⟨⟨db', ()⟩, Function.update σ.tasks t (settle (contention h) (.active pk) (k r))⟩ := by
  obtain ⟨ht, hp, htxn⟩ := hnext
  have hother : ∀ u, u ≠ t → db'.transactions.lookup u = σ.shared.state.transactions.lookup u :=
    fun u hu => exec_other hx hu
  have hown : σ.shared.state.ownWrites t = ⟨[], []⟩ := ownWrites_eq htxn
  obtain ⟨-, hrun⟩ := run_of_exec hx
  cases hp
  simp only [Db.run, hown, List.append_nil] at hrun
  rcases hrun with ⟨rows, rfl, hr⟩ | ⟨e, -, -, hr⟩
  · cases hfind : σ.shared.state.handles.find? (fun row => row.handle = h) with
    | none =>
      rw [hfind] at hr
      cases hr
      exact hi.goesOn ht .insert known (by simp [Point.Leads]) (by simp) htxn hother rfl rfl
    | some row =>
      have hclaimed : ∃ row ∈ σ.shared.state.handles, row.handle = h :=
        ⟨row, List.mem_of_find?_eq_some hfind, by simpa using List.find?_some hfind⟩
      rw [hfind] at hr
      cases hr
      have hwon : won ≠ none := (hi.claimed hfree).mp hclaimed
      exact hi.goesOn ht .rollback known (by simp [Point.Leads]) (fun _ => hwon) htxn hother rfl rfl
  · cases hr

/-- An insertion is refused when a call has won, and makes the call the holder of the handle when
none has. -/
theorem Standing.inserts (hi : Standing db₀ h late won σ) (hfree : Free h db₀)
    (hnext : NextIs σ t pk h .insert o k) (known : Contender db₀ pk)
    (hx : σ.shared.state.exec t o { env with fault := none } = some (r, db'))
    (hlate : ¬ late → Unclaimed [] σ (.performed t o r)) :
    Standing db₀ h late won
      ⟨⟨db', ()⟩, Function.update σ.tasks t (settle (contention h) (.active pk) (k r))⟩ := by
  obtain ⟨ht, hp, htxn⟩ := hnext
  have hother : ∀ u, u ≠ t → db'.transactions.lookup u = σ.shared.state.transactions.lookup u :=
    fun u hu => exec_other hx hu
  have hown : σ.shared.state.ownWrites t = ⟨[], []⟩ := ownWrites_eq htxn
  obtain ⟨hw, hrun⟩ := run_of_exec hx
  cases hp
  by_cases hclaimed : ∃ row ∈ σ.shared.state.handles, row.handle = h
  · obtain ⟨e, rfl, rfl⟩ := insert_refused hx hclaimed
    have hok : late := by
      by_contra hnot
      obtain ⟨row, hrow, hh⟩ := hclaimed
      exact hlate hnot row hrow hh
    exact hi.loses ht ((hi.claimed hfree).mp hclaimed) (Or.inr ⟨hok, e, rfl⟩)
  · have hany : (σ.shared.state.handles.any fun row => row.handle = h) = false := by
      simpa using hclaimed
    have hwon : won = none := not_not.mp (mt (hi.claimed hfree).mpr hclaimed)
    have hpeer := hi.peer known
    simp only [Db.run, hown, List.append_nil, List.nil_append, hany, Bool.false_eq_true, if_false,
      hpeer, if_true] at hrun
    rcases hrun with ⟨rows, rfl, hr⟩ | ⟨e, -, -, hr⟩
    · cases hr
      refine hi.goes ht .update known (fun _ => hwon) (by simp) (lookup_setWrites _ _ _) hother rfl
        rfl ?_
      -- a pending row of the handle would have made the insertion wait
      intro _ u hu txn hl
      have hno := Db.heldByOther_eq_false.mp hw u txn hu hl
      rw [Bool.or_eq_false_iff] at hno
      refine List.eq_nil_iff_forall_not_mem.mpr fun row hrow => ?_
      have hrow' := List.any_eq_false.mp hno.1 row hrow
      exact hrow' (by simpa using hi.pending hl row hrow)
    · cases hr

theorem Standing.updates (hi : Standing db₀ h late none σ) (hfree : Free h db₀)
    (hnext : NextIs σ t pk h .update o k) (known : Contender db₀ pk)
    (hx : σ.shared.state.exec t o { env with fault := none } = some (r, db')) :
    Standing db₀ h late none
      ⟨⟨db', ()⟩, Function.update σ.tasks t (settle (contention h) (.active pk) (k r))⟩ := by
  obtain ⟨ht, hp, htxn⟩ := hnext
  have hother : ∀ u, u ≠ t → db'.transactions.lookup u = σ.shared.state.transactions.lookup u :=
    fun u hu => exec_other hx hu
  have hown : σ.shared.state.ownWrites t = ⟨[⟨h, pk⟩], []⟩ := ownWrites_eq htxn
  have hrows : Db.setHandles [] σ.shared.state.peers = db₀.peers := by
    rw [hi.peers, Option.elim_none, Db.setHandles]
    simp
  have hothers : (db₀.peers.any fun row => row.pubkey ≠ pk && row.handle = some h) = false := by
    refine List.any_eq_false.mpr fun row hrow => ?_
    simp [hfree.unlisted row hrow]
  have hpeer : (db₀.peers.any fun row => row.pubkey = pk) = true := by
    obtain ⟨row, hrow, rfl⟩ := List.mem_map.mp known.1
    exact List.any_eq_true.mpr ⟨row, hrow, by simp⟩
  obtain ⟨-, hrun⟩ := run_of_exec hx
  cases hp
  simp only [Db.run, hown, hrows, hothers, Bool.false_eq_true, if_false, hpeer, if_true] at hrun
  rcases hrun with ⟨rows, rfl, hr⟩ | ⟨e, -, -, hr⟩
  · cases hr
    refine hi.goes ht .commit known (fun _ => rfl) (by simp) (lookup_setWrites _ _ _) hother rfl rfl
      ?_
    intro _ u hu txn hl
    by_contra hne
    exact hu (hi.leader u t txn _ hl htxn hne (by simp))
  · cases hr

theorem Standing.performed (hi : Standing db₀ h late won σ) (hfree : Free h db₀)
    {c : CallState String Outcome} (ht : σ.tasks t = .running c (.call o k))
    (hx : σ.shared.state.exec t o { env with fault := none } = some (r, db'))
    (hlate : ¬ late → Unclaimed [] σ (.performed t o r)) :
    ∃ won', Standing db₀ h late won'
      ⟨⟨db', ()⟩, Function.update σ.tasks t (settle (contention h) c (k r))⟩ := by
  have hpos := hi.tasks t
  have hother : ∀ u, u ≠ t → db'.transactions.lookup u = σ.shared.state.transactions.lookup u :=
    fun u hu => exec_other hx hu
  obtain ⟨-, hrun⟩ := run_of_exec hx
  rw [ht] at hpos
  generalize htxn : σ.shared.state.transactions.lookup t = txn at hpos
  generalize hp : Prog.call o k = p at hpos
  cases hpos with
  | running pk pt known leads decided =>
    cases pt with
    | begin =>
      cases hp
      rcases hrun with ⟨rows, rfl, hr⟩ | ⟨e, -, -, hr⟩
      · cases hr
        exact ⟨won, hi.goesOn ht .ownHandle known (by simp [Point.Leads]) (by simp)
          (lookup_setWrites _ _ _) hother rfl rfl⟩
      · cases hr
    | ownHandle =>
      cases hp
      have hown : σ.shared.state.ownWrites t = ⟨[], []⟩ := ownWrites_eq htxn
      have hnone : (σ.shared.state.handles ++ (σ.shared.state.ownWrites t).handles).find?
          (fun row => row.pubkey = pk) = none := by
        rw [hown, List.append_nil, List.find?_eq_none]
        simpa using hi.owns_nothing ht known
      simp only [Db.run, hnone, Option.map_none] at hrun
      rcases hrun with ⟨rows, rfl, hr⟩ | ⟨e, -, -, hr⟩
      · cases hr
        exact ⟨won, hi.goesOn ht .owner known (by simp [Point.Leads]) (by simp) htxn hother rfl rfl⟩
      · cases hr
    | owner => exact ⟨won, hi.asks hfree ⟨ht, hp, htxn⟩ known hx⟩
    | insert => exact ⟨won, hi.inserts hfree ⟨ht, hp, htxn⟩ known hx hlate⟩
    | update =>
      obtain rfl : won = none := leads (Or.inl rfl)
      exact ⟨none, hi.updates hfree ⟨ht, hp, htxn⟩ known hx⟩
    | commit =>
      cases hp
      obtain rfl : won = none := leads (Or.inr rfl)
      rcases hrun with ⟨rows, rfl, hr⟩ | ⟨e, -, -, hr⟩
      · cases hr
        exact ⟨some (t, pk), hi.commits ht htxn⟩
      · cases hr
    | rollback =>
      cases hp
      rcases hrun with ⟨rows, rfl, hr⟩ | ⟨e, -, -, hr⟩
      · cases hr
        exact ⟨won, hi.loses ht (decided rfl) (Or.inl rfl)⟩
      · cases hr

end Statements

end Steps

/-! ## Runs -/

section Runs

variable {db₀ : Db ℕ} {h : String} {late : Prop} {won : Option (ℕ × String)} {σ σ' : Contest}
  {tr : List ContestEvent} {t : ℕ} {pk : String}
  {C : Guard ℕ Statement Answer (Observed (Db ℕ) Unit) (CallState String Outcome) String Outcome
    Empty}

abbrev uncalled (db₀ : Db ℕ) : Contest := .uncalled db₀ ()

theorem standing_start (hfree : Free h db₀) : Standing db₀ h late none (uncalled db₀) where
  tasks t := by
    have hnone : db₀.transactions.lookup t = none := by
      rw [hfree.quiet]
      exact AList.lookup_empty t
    change Position db₀ h late none t _ (db₀.transactions.lookup t)
    rw [hnone]
    exact .absent
  peers := rfl
  handles := (List.append_nil _).symm
  winner := nofun
  leader t u txn txn' ht := by
    change db₀.transactions.lookup t = some txn at ht
    rw [hfree.quiet] at ht
    exact absurd ((AList.lookup_empty t).symm.trans ht) nofun
  distinct t u pk ht := ht.elim

theorem Standing.joins (hi : Standing db₀ h late won σ) (ht : σ.tasks t = .waiting .absent)
    (known : Contender db₀ pk) (hnew : ∀ u, ¬ (σ.tasks u).serves pk) :
    Standing db₀ h late won ⟨σ.shared,
      Function.update σ.tasks t (.running (.active pk) (Point.begin.program pk h))⟩ where
  tasks u := by
    by_cases hu : u = t
    · subst hu
      have hpos := hi.tasks u
      rw [ht] at hpos
      generalize σ.shared.state.transactions.lookup u = x at hpos ⊢
      simp only [Function.update_self]
      cases hpos
      exact .running pk .begin known nofun nofun
    · simp only [Function.update_of_ne hu]
      exact hi.tasks u
  peers := hi.peers
  handles := hi.handles
  winner w pk' hw := by
    have hret := hi.winner w pk' hw
    have hwt : w ≠ t := by
      rintro rfl
      rw [ht] at hret
      cases hret
    simp only [Function.update_of_ne hwt]
    exact hret
  leader := hi.leader
  distinct u v pk' hu hv := by
    have hback : ∀ w, (Function.update σ.tasks t
        (.running (.active pk) (Point.begin.program pk h)) w).serves pk' →
        (w = t ∧ pk' = pk) ∨ (w ≠ t ∧ (σ.tasks w).serves pk') := by
      intro w hw
      by_cases hwt : w = t
      · subst hwt
        rw [Function.update_self] at hw
        have hpk : pk = pk' := hw
        exact Or.inl ⟨rfl, hpk.symm⟩
      · rw [Function.update_of_ne hwt] at hw
        exact Or.inr ⟨hwt, hw⟩
    rcases hback u hu with ⟨hut, hpk⟩ | ⟨-, hu'⟩
    · rcases hback v hv with ⟨hvt, -⟩ | ⟨-, hv'⟩
      · exact hut.trans hvt.symm
      · exact absurd (hpk ▸ hv') (hnew v)
    · rcases hback v hv with ⟨-, hpk⟩ | ⟨-, hv'⟩
      · exact absurd (hpk ▸ hu') (hnew u)
      · exact hi.distinct u v pk' hu' hv'

theorem Standing.step (hi : Standing db₀ h late won σ) (hfree : Free h db₀) {e : ContestEvent}
    (hstep : Step (contention h) σ e σ') (hdistinct : Distinct db₀ tr σ e)
    (hlate : ¬ late → Unclaimed tr σ e) : ∃ won', Standing db₀ h late won' σ' := by
  rcases hstep.cases with ⟨t, pk, c, c', p, rfl, ht, hs, rfl⟩ |
    ⟨t, c, o, k, env, r, s', rfl, ht, hx, rfl⟩ | ⟨x, -⟩
  · obtain ⟨rfl, rfl, rfl⟩ := concurrentCalls_start hs
    exact ⟨won, hi.joins ht hdistinct.1 hdistinct.2⟩
  · have hx' : Observed.exec (fun t s env db => db.exec t s { env with fault := none })
        (fun _ _ _ _ _ => some ()) t o env σ.shared = some (r, s') := hx
    obtain ⟨hdb, -⟩ := Observed.exec_eq_some hx'
    exact hi.performed hfree ht hdb hlate
  · exact x.elim

theorem standing_of_run (hfree : Free h db₀)
    (hC : ∀ tr σ e, C tr σ e → Distinct db₀ tr σ e ∧ (¬ late → Unclaimed tr σ e))
    (hrun : GuardedRun (contention h) C (uncalled db₀) tr σ) : ∃ won, Standing db₀ h late won σ := by
  refine hrun.invariant (I := fun _ σ => ∃ won, Standing db₀ h late won σ)
    ⟨none, standing_start hfree⟩ ?_
  rintro tr σ e σ' - ⟨won, hi⟩ hstep hguard
  exact hi.step hfree hstep (hC tr σ e hguard).1 (hC tr σ e hguard).2

/-! ## No deadlock -/

theorem Standing.blank (hi : Standing db₀ h late won σ) {txn : Transaction}
    (hl : σ.shared.state.transactions.lookup t = some txn) (hempty : txn.handles = []) :
    txn = ⟨[], []⟩ := by
  have hpos := hi.tasks t
  rw [hl] at hpos
  generalize hsome : some txn = x at hpos
  generalize σ.tasks t = T at hpos
  cases hpos with
  | running pk pt known leads decided =>
    cases pt with
    | begin => cases hsome
    | update =>
      cases hsome
      cases hempty
    | commit =>
      cases hsome
      cases hempty
    | _ =>
      cases hsome
      rfl
  | _ => cases hsome

theorem exec_of_blank {db : Db ℕ} {o : Statement} (env : Database.Env)
    (hblank : ∀ u, u ≠ t → ∀ txn, db.transactions.lookup u = some txn → txn = ⟨[], []⟩) :
    ∃ r db', db.exec t o { env with fault := none } = some (r, db') := by
  have hfree : ∀ test : Transaction → Bool, test ⟨[], []⟩ = false →
      db.heldByOther t test = false := by
    intro test htest
    rw [Db.heldByOther_eq_false]
    intro u txn hu hl
    rw [hblank u hu txn hl]
    exact htest
  have hwaits : db.waits t o = false := by
    cases o <;> first | rfl | exact hfree _ rfl
  simp only [Db.exec, hwaits, Bool.false_eq_true, if_false]
  split
  · exact ⟨_, _, rfl⟩
  · exact ⟨_, _, rfl⟩

/-- While a call is running, some call can send its statement. -/
theorem Standing.progress (hi : Standing db₀ h late won σ)
    (hrunning : ∃ t c p, σ.tasks t = .running c p) :
    ∃ t c o k env r s', σ.tasks t = .running c (.call o k) ∧
      (contention h).exec t o env σ.shared = some (r, s') := by
  have hcall : ∀ t c p, σ.tasks t = .running c p → ∃ o k, p = .call o k := by
    intro t c p ht
    have hpos := hi.tasks t
    rw [ht] at hpos
    generalize σ.shared.state.transactions.lookup t = x at hpos
    cases hpos with
    | running pk pt known leads decided => cases pt <;> exact ⟨_, _, rfl⟩
  -- whoever holds the handle goes on, and otherwise anybody
  have hchosen : ∃ t c p, σ.tasks t = .running c p ∧ ∀ u, u ≠ t → ∀ txn,
      σ.shared.state.transactions.lookup u = some txn → txn.handles = [] := by
    by_cases hleader : ∃ t txn, σ.shared.state.transactions.lookup t = some txn ∧ txn.handles ≠ []
    · obtain ⟨t, txn, hl, hne⟩ := hleader
      have hpos := hi.tasks t
      rw [hl] at hpos
      generalize hsome : some txn = x at hpos
      generalize hT : σ.tasks t = T at hpos
      cases hpos with
      | running pk pt known leads decided =>
        refine ⟨t, _, _, hT, fun u hu txn' hl' => ?_⟩
        by_contra hne'
        exact hu (hi.leader u t txn' txn hl' hl hne' hne)
      | _ => cases hsome
    · obtain ⟨t, c, p, ht⟩ := hrunning
      refine ⟨t, c, p, ht, fun u _ txn hl => ?_⟩
      by_contra hne
      exact hleader ⟨u, txn, hl, hne⟩
  obtain ⟨t, c, p, ht, hothers⟩ := hchosen
  obtain ⟨o, k, rfl⟩ := hcall t c p ht
  obtain ⟨r, db', hx⟩ := exec_of_blank (t := t) (o := o) DatabaseCalls.quiet fun u hu txn hl =>
    hi.blank hl (hothers u hu txn hl)
  refine ⟨t, c, o, k, DatabaseCalls.quiet, r, ⟨db', ()⟩, ht, ?_⟩
  simp only [contention, concurrentCalls, Observed.exec, hx, Option.bind_some, Option.map_some]

theorem within_execute_bind {α : Type} {n : ℕ} {o : Statement} {f : o.Rows → Query α}
    (hf : ∀ rows, (f rows).run.Within n) : (execute o >>= f).run.Within (n + 1) := by
  intro r
  cases r with
  | error e => exact Prog.within_done _ _
  | ok rows => exact hf rows

theorem claimHandle_within (pk h : String) : (claimHandle pk h).run.Within 6 := by
  refine within_execute_bind fun _ => within_execute_bind fun found => ?_
  cases found with
  | some handle =>
    refine within_execute_bind fun _ => ?_
    split_ifs <;> exact Prog.within_done _ _
  | none =>
    refine within_execute_bind fun owner => ?_
    cases owner with
    | some pk' => exact within_execute_bind fun _ => Prog.within_done _ _
    | none =>
      refine within_execute_bind fun _ => within_execute_bind fun _ => fun r => ?_
      cases r <;> exact Prog.within_done _ _

theorem contest_completes (hfree : Free h db₀)
    (hrun : GuardedRun (contention h) (Distinct db₀) (uncalled db₀) tr σ) :
    ∃ tr' σ', GuardedRun (contention h) (Distinct db₀) (uncalled db₀) (tr' ++ tr) σ' ∧ Idle σ' ∧
      ∀ e ∈ tr', ∃ t o r, e = .performed t o r := by
  obtain ⟨S, b, hb⟩ := hrun.run.bounded (fun _ => ⟨.absent, rfl⟩) (by
    intro t c pk c' p hs
    obtain ⟨-, -, rfl⟩ := concurrentCalls_start hs
    exact ⟨6, claimHandle_within pk h⟩)
  refine hrun.completes (I := fun σ => ∃ won, Standing db₀ h True won σ) hb
    (standing_of_run hfree (fun _ _ _ hC => ⟨hC, fun hnot => absurd trivial hnot⟩) hrun) ?_ ?_
  · rintro σ ⟨won, hi⟩ hrunning
    exact hi.progress hrunning
  · rintro tr σ t o r σ' ⟨won, hi⟩ hstep
    have hdistinct : Distinct db₀ tr σ (.performed t o r) := trivial
    exact ⟨hi.step hfree hstep hdistinct fun hnot => absurd trivial hnot, hdistinct⟩

/-! ## One winner -/

def rowsOf (db : Db ℕ) (pk : String) : List PeerRow × List HandleRow :=
  (db.peers.filter fun row => row.pubkey = pk, db.handles.filter fun row => row.pubkey = pk)

/-- One call has returned with success and every other with `HandleTaken`, and the rows of the losers
are as they were. -/
structure OneWinner (db₀ : Db ℕ) (σ : Contest) : Prop where
  winner : ∃ w pk, σ.tasks w = .waiting (.returned pk (.ok ())) ∧ ∀ t pk' r, t ≠ w →
    σ.tasks t = .waiting (.returned pk' r) → r = .error .handleTaken
  losers : ∀ t pk e, σ.tasks t = .waiting (.returned pk (.error e)) →
    rowsOf σ.shared.state pk = rowsOf db₀ pk

theorem Standing.losers (hi : Standing db₀ h late won σ) {e : BrokerError}
    (ht : σ.tasks t = .waiting (.returned pk (.error e))) :
    rowsOf σ.shared.state pk = rowsOf db₀ pk := by
  rw [rowsOf, hi.peers, hi.handles]
  cases won with
  | none => simp [rowsOf]
  | some w =>
    have hserves : (σ.tasks t).serves pk := by
      rw [ht]
      rfl
    have hne : w.2 ≠ pk := hi.winner_other hserves (by simp [ht])
    have hsame : ∀ row ∈ db₀.peers.filter (fun row => row.pubkey = pk),
        ({ row with handle := (List.lookup row.pubkey [(w.2, h)]).or row.handle } : PeerRow) =
          row := by
      intro row hrow
      have hpk : row.pubkey = pk := by simpa using (List.mem_filter.mp hrow).2
      have hlookup : List.lookup row.pubkey [(w.2, h)] = none := by
        simp [List.lookup_cons, hpk, beq_eq_false_iff_ne.mpr hne.symm]
      rw [hlookup, Option.none_or]
    have hfilter : (Db.setHandles [(w.2, h)] db₀.peers).filter (fun row => row.pubkey = pk) =
        db₀.peers.filter fun row => row.pubkey = pk := by
      rw [Db.setHandles, List.filter_map]
      exact (List.map_congr_left hsame).trans (List.map_id _)
    simp only [Option.elim_some, hfilter, rowsOf, List.filter_append]
    simp [hne]

theorem Standing.decided (hi : Standing db₀ h late won σ) (hidle : Idle σ)
    (hcalled : ∃ t, σ.tasks t ≠ .waiting .absent) : won ≠ none := by
  obtain ⟨t, ht⟩ := hcalled
  obtain ⟨c, hc⟩ := hidle t
  have hpos := hi.tasks t
  rw [hc] at ht hpos
  generalize σ.shared.state.transactions.lookup t = x at hpos
  cases hpos with
  | absent => exact absurd rfl ht
  | won pk first => rw [first]; exact Option.some_ne_none _
  | lost pk e decided other why => exact decided

theorem Standing.oneWinner (hi : Standing db₀ h late won σ) (hlate : ¬ late) (hidle : Idle σ)
    (hcalled : ∃ t, σ.tasks t ≠ .waiting .absent) : OneWinner db₀ σ := by
  obtain ⟨⟨w, pk⟩, hw⟩ := Option.ne_none_iff_exists'.mp (hi.decided hidle hcalled)
  refine ⟨⟨w, pk, hi.winner w pk hw, fun t pk' r htw ht => ?_⟩, fun t pk' e ht => hi.losers ht⟩
  have hpos := hi.tasks t
  rw [ht] at hpos
  generalize σ.shared.state.transactions.lookup t = x at hpos
  cases hpos with
  | won pk' first =>
    rw [hw] at first
    cases first
    exact absurd rfl htw
  | lost pk' e decided other why =>
    rcases why with rfl | ⟨hl, -⟩
    · rfl
    · exact absurd hl hlate

theorem returned_stays {e : ContestEvent} (hstep : Step (contention h) σ e σ') {r : Outcome}
    (ht : σ.tasks t = .waiting (.returned pk r)) : σ'.tasks t = .waiting (.returned pk r) := by
  rcases hstep.cases with ⟨u, i, c, c', p, rfl, hu, hs, rfl⟩ |
    ⟨u, c, o, k, env, r', s', rfl, hu, -, rfl⟩ | ⟨x, -⟩
  · obtain ⟨rfl, -, -⟩ := concurrentCalls_start hs
    have hut : t ≠ u := by
      rintro rfl
      rw [ht] at hu
      cases hu
    simpa only [Function.update_of_ne hut] using ht
  · have hut : t ≠ u := by
      rintro rfl
      rw [ht] at hu
      cases hu
    simpa only [Function.update_of_ne hut] using ht
  · exact x.elim

/-- An insertion after the commit of another row of the handle returns a failure of the database. -/
theorem Standing.late_insertion (hi : Standing db₀ h late won σ) {e : ContestEvent}
    (hstep : Step (contention h) σ e σ') (hlate : ¬ Unclaimed tr σ e) :
    ∃ t pk m, σ'.tasks t = .waiting (.returned pk (.error (.database m))) := by
  rcases hstep.cases with ⟨t, i, c, c', p, rfl, -, -, -⟩ |
    ⟨t, c, o, k, env, r, s', rfl, ht, hx, rfl⟩ | ⟨x, -⟩
  · exact absurd trivial hlate
  · have hx' : Observed.exec (fun t s env db => db.exec t s { env with fault := none })
        (fun _ _ _ _ _ => some ()) t o env σ.shared = some (r, s') := hx
    obtain ⟨hdb, -⟩ := Observed.exec_eq_some hx'
    have hpos := hi.tasks t
    rw [ht] at hpos
    generalize σ.shared.state.transactions.lookup t = txn at hpos
    generalize hp : Prog.call o k = p at hpos
    cases hpos with
    | running pk pt known leads decided =>
      cases pt with
      | insert =>
        cases hp
        simp only [Unclaimed, not_forall, not_not, exists_prop] at hlate
        obtain ⟨m, rfl, -⟩ := insert_refused hdb hlate
        refine ⟨t, pk, m, ?_⟩
        simp only [Function.update_self]
        rfl
      | _ =>
        cases hp
        exact absurd trivial hlate
  · exact x.elim

theorem guarded_or_failed (hfree : Free h db₀)
    (hrun : GuardedRun (contention h) (Distinct db₀) (uncalled db₀) tr σ) :
    GuardedRun (contention h) (fun tr σ e => Distinct db₀ tr σ e ∧ Unclaimed tr σ e) (uncalled db₀)
      tr σ ∨ ∃ t pk m, σ.tasks t = .waiting (.returned pk (.error (.database m))) := by
  induction hrun with
  | start => exact Or.inl .start
  | @step tr σ σ' e prior next guard ih =>
    rcases ih with hguarded | ⟨t, pk, m, ht⟩
    · by_cases hunclaimed : Unclaimed tr σ e
      · exact Or.inl (.step hguarded next ⟨guard, hunclaimed⟩)
      · have hstanding : ∃ won, Standing db₀ h True won σ :=
          standing_of_run hfree (fun _ _ _ hC => ⟨hC, fun hnot => absurd trivial hnot⟩) prior
        obtain ⟨won, hi⟩ := hstanding
        exact Or.inr (hi.late_insertion next hunclaimed)
    · exact Or.inr ⟨t, pk, m, returned_stays next ht⟩

/-- Contenders that own nothing call for one free handle, interleaved in any way. Every run can be
continued until all calls have returned, and when they have, exactly one has won, the others have
returned `HandleTaken` and their rows are as they were, if and only if no insertion was sent while
the handle stood in a committed row. -/
theorem one_winner_iff_no_late_insertion (hfree : Free h db₀)
    (hrun : GuardedRun (contention h) (Distinct db₀) (uncalled db₀) tr σ) :
    (∃ tr' σ', GuardedRun (contention h) (Distinct db₀) (uncalled db₀) (tr' ++ tr) σ' ∧ Idle σ' ∧
      ∀ e ∈ tr', ∃ t o r, e = .performed t o r) ∧
    (Idle σ → (∃ t, σ.tasks t ≠ .waiting .absent) → (OneWinner db₀ σ ↔
      GuardedRun (contention h) (fun tr σ e => Distinct db₀ tr σ e ∧ Unclaimed tr σ e)
        (uncalled db₀) tr σ)) := by
  refine ⟨contest_completes hfree hrun, fun hidle hcalled => ⟨fun hone => ?_, fun hguarded => ?_⟩⟩
  · rcases guarded_or_failed hfree hrun with hguarded | ⟨t, pk, m, ht⟩
    · exact hguarded
    · obtain ⟨w, pk', hw, hothers⟩ := hone.winner
      have htw : t ≠ w := by
        rintro rfl
        rw [ht] at hw
        cases hw
      cases hothers t pk _ htw ht
  · have hstanding : ∃ won, Standing db₀ h False won σ :=
      standing_of_run hfree (fun _ _ _ hC => ⟨hC.1, fun _ => hC.2⟩) hguarded
    obtain ⟨won, hi⟩ := hstanding
    exact hi.oneWinner id hidle hcalled

end Runs

/-! ## Two contenders -/

def called : ContestEvent → Option (ℕ × String)
  | .input t pk => some (t, pk)
  | _ => none

section Calls

variable {db₀ : Db ℕ} {h : String} {σ : Contest} {tr : List ContestEvent}
  {C : Guard ℕ Statement Answer (Observed (Db ℕ) Unit) (CallState String Outcome) String Outcome
    Empty}

theorem called_of_run (hrun : Run (contention h) (uncalled db₀) tr σ) (t : ℕ) :
    σ.tasks t = .waiting .absent ∨
      ∃ pk, (t, pk) ∈ tr.filterMap called ∧ (σ.tasks t).serves pk := by
  induction hrun with
  | start => exact Or.inl rfl
  | @step tr σ σ' e prior next ih =>
    rcases ih with habsent | ⟨pk, hmem, hserves⟩
    · rcases next.cases with ⟨u, pk, c, c', p, rfl, -, hs, rfl⟩ |
        ⟨u, c, o, k, env, r, s', rfl, hu, -, rfl⟩ | ⟨x, -⟩
      · obtain ⟨-, rfl, rfl⟩ := concurrentCalls_start hs
        by_cases htu : t = u
        · subst htu
          refine Or.inr ⟨pk, by simp [called], ?_⟩
          simp only [Function.update_self]
          rfl
        · simp only [Function.update_of_ne htu]
          exact Or.inl habsent
      · have htu : t ≠ u := by
          rintro rfl
          rw [hu] at habsent
          cases habsent
        simp only [Function.update_of_ne htu]
        exact Or.inl habsent
      · exact x.elim
    · refine Or.inr ⟨pk, ?_, ?_⟩
      · obtain ⟨x, hx, hcall⟩ := List.mem_filterMap.mp hmem
        exact List.mem_filterMap.mpr ⟨x, List.mem_cons_of_mem e hx, hcall⟩
      · have hstep : Step (concurrentCalls (fun t s (env : Database.Env) db =>
            Db.exec t s { env with fault := none } db) (fun _ _ _ _ _ => some ())
            (fun pk => (claimHandle pk h).run) fun x _ => x.elim) σ e σ' := next
        exact Task.serves_step hstep hserves

theorem serves_unique {T : Task Statement Answer (CallState String Outcome) Outcome}
    {pk pk' : String} (hs : T.serves pk) (hs' : T.serves pk') : pk = pk' := by
  cases T with
  | waiting c =>
    cases c with
    | returned pk'' r => exact Eq.trans (Eq.symm hs) hs'
    | _ => exact hs.elim
  | running c p =>
    cases c with
    | active pk'' => exact Eq.trans (Eq.symm hs) hs'
    | _ => exact hs.elim

theorem distinct_of_called (hrun : GuardedRun (contention h) C (uncalled db₀) tr σ)
    (hnodup : ((tr.filterMap called).map Prod.snd).Nodup)
    (hknown : ∀ x ∈ tr.filterMap called, Contender db₀ x.2) :
    GuardedRun (contention h) (fun tr σ e => Distinct db₀ tr σ e ∧ C tr σ e) (uncalled db₀) tr σ := by
  induction hrun with
  | start => exact .start
  | @step tr σ σ' e prior next guard ih =>
    cases e with
    | input t pk =>
      simp only [List.filterMap_cons, called, List.map_cons, List.nodup_cons] at hnodup hknown
      refine .step (ih hnodup.2 fun x hx => hknown x (List.mem_cons_of_mem _ hx)) next
        ⟨⟨hknown (t, pk) List.mem_cons_self, fun u hserves => hnodup.1 ?_⟩, guard⟩
      rcases called_of_run prior.run u with habsent | ⟨pk', hmem, hserves'⟩
      · rw [habsent] at hserves
        exact hserves.elim
      · rw [serves_unique hserves hserves']
        exact List.mem_map_of_mem hmem
    | _ => exact .step (ih hnodup hknown) next ⟨trivial, guard⟩

end Calls

/-- Two peers without handles. -/
def twoPeers : Db ℕ := ⟨[⟨"pk", none, "user"⟩, ⟨"qk", none, "user"⟩], [], [], [], ∅⟩

theorem twoPeers_free : Free "alice" twoPeers :=
  ⟨fun row hrow => absurd hrow List.not_mem_nil, by simp [twoPeers], rfl⟩

def statements (t n : ℕ) : List (Action ℕ Database.Env String Empty) :=
  List.replicate n (.perform t DatabaseCalls.quiet)

def unclaimed (_ : List ContestEvent) (σ : Contest) : ContestEvent → Bool
  | .performed _ (.insertHandle handle _) _ =>
    σ.shared.state.handles.all fun row => decide (row.handle ≠ handle)
  | _ => true

theorem unclaimed_sound (tr : List ContestEvent) (σ : Contest) (e : ContestEvent)
    (h : unclaimed tr σ e = true) : Unclaimed tr σ e := by
  unfold Unclaimed
  split
  · intro row hrow
    simpa using List.all_eq_true.mp h row hrow
  · trivial

def hasReturned (x : Outcome → Bool) : Task Statement Answer (CallState String Outcome) Outcome → Bool
  | .waiting (.returned _ r) => x r
  | _ => false

/-- A run in which the first two tasks are called and have returned is complete. -/
theorem idle_of_two {db₀ : Db ℕ} {h : String} {σ : Contest} {tr : List ContestEvent}
    (hrun : Run (contention h) (uncalled db₀) tr σ)
    (hcalled : tr.filterMap called = [(1, "qk"), (0, "pk")])
    (h₀ : hasReturned (fun _ => true) (σ.tasks 0) = true)
    (h₁ : hasReturned (fun _ => true) (σ.tasks 1) = true) : Idle σ := by
  have hwaits : ∀ t, hasReturned (fun _ => true) (σ.tasks t) = true →
      ∃ c, σ.tasks t = .waiting c := by
    intro t ht
    cases hT : σ.tasks t with
    | waiting c => exact ⟨c, rfl⟩
    | running c p =>
      rw [hT] at ht
      cases ht
  intro t
  rcases called_of_run hrun t with habsent | ⟨pk, hmem, -⟩
  · exact ⟨.absent, habsent⟩
  · rw [hcalled] at hmem
    simp only [List.mem_cons, Prod.mk.injEq, List.not_mem_nil, or_false] at hmem
    rcases hmem with ⟨rfl, -⟩ | ⟨rfl, -⟩
    · exact hwaits 1 h₁
    · exact hwaits 0 h₀

/-- The second looks for the owner when the first has committed. -/
def inTurn : List (Action ℕ Database.Env String Empty) :=
  [.input 0 "pk", .input 1 "qk"] ++ statements 0 6 ++ statements 1 4

theorem inTurn_outcome :
    (runGuarded (contention "alice") unclaimed inTurn [] (uncalled twoPeers)).map
      (fun x => (x.1.filterMap called, hasReturned (fun _ => true) (x.2.tasks 0),
        hasReturned (fun _ => true) (x.2.tasks 1))) =
      some ([(1, "qk"), (0, "pk")], true, true) := by
  decide +kernel

theorem one_winner_in_turn : ∃ tr σ,
    GuardedRun (contention "alice") (Distinct twoPeers) (uncalled twoPeers) tr σ ∧
      OneWinner twoPeers σ := by
  obtain ⟨⟨tr, σ⟩, hrun, heq⟩ := Option.map_eq_some_iff.mp inTurn_outcome
  simp only [Prod.mk.injEq] at heq
  obtain ⟨hcalled, h₀, h₁⟩ := heq
  have hguarded := guardedRun_of_runGuarded unclaimed_sound .start hrun
  have hdistinct := distinct_of_called hguarded (by rw [hcalled]; decide) (by
    rw [hcalled]
    decide)
  have hrun' : GuardedRun (contention "alice") (Distinct twoPeers) (uncalled twoPeers) tr σ :=
    hdistinct.weaken fun _ _ hC => hC.1
  have hidle := idle_of_two hguarded.run hcalled h₀ h₁
  have hone := (one_winner_iff_no_late_insertion twoPeers_free hrun').2 hidle ⟨0, fun habsent => by
    rw [habsent] at h₀
    cases h₀⟩
  exact ⟨tr, σ, hrun', hone.mpr hdistinct⟩

/-- Both have found the handle free before the first inserts its row. -/
def together : List (Action ℕ Database.Env String Empty) :=
  [.input 0 "pk", .input 1 "qk"] ++ statements 0 3 ++ statements 1 3 ++ statements 0 3 ++
    statements 1 1

def failsInDatabase : Outcome → Bool
  | .error (.database _) => true
  | _ => false

theorem together_outcome :
    (runGuarded (contention "alice") (fun _ _ _ => true) together [] (uncalled twoPeers)).map
      (fun x => (x.1.filterMap called, hasReturned (fun _ => true) (x.2.tasks 0),
        hasReturned failsInDatabase (x.2.tasks 1))) =
      some ([(1, "qk"), (0, "pk")], true, true) := by
  decide +kernel

/-- The second is told of a failure of the database, and not that the handle is taken. -/
theorem loser_is_told_of_database : ∃ tr σ,
    Free "alice" twoPeers ∧
      GuardedRun (contention "alice") (Distinct twoPeers) (uncalled twoPeers) tr σ ∧ Idle σ ∧
      ¬ OneWinner twoPeers σ := by
  obtain ⟨⟨tr, σ⟩, hrun, heq⟩ := Option.map_eq_some_iff.mp together_outcome
  simp only [Prod.mk.injEq] at heq
  obtain ⟨hcalled, h₀, h₁⟩ := heq
  have hguarded := guardedRun_of_runGuarded (C := fun _ _ _ => True) (fun _ _ _ _ => trivial)
    .start hrun
  have hdistinct := distinct_of_called hguarded (by rw [hcalled]; decide) (by
    rw [hcalled]
    decide)
  have hfails : ∃ pk m, σ.tasks 1 = .waiting (.returned pk (.error (.database m))) := by
    unfold hasReturned at h₁
    split at h₁
    · rename_i pk r hT
      unfold failsInDatabase at h₁
      split at h₁
      · rename_i m
        exact ⟨pk, m, hT⟩
      · cases h₁
    · cases h₁
  obtain ⟨pk, m, hT⟩ := hfails
  have hidle := idle_of_two hguarded.run hcalled h₀ (by rw [hT]; rfl)
  refine ⟨tr, σ, twoPeers_free, hdistinct.weaken fun _ _ hC => hC.1, hidle, fun hone => ?_⟩
  obtain ⟨w, pk', hw, hothers⟩ := hone.winner
  have hne : 1 ≠ w := by
    rintro rfl
    rw [hT] at hw
    cases hw
  cases hothers 1 pk _ hne hT

end HashedBroker.HandleContention
