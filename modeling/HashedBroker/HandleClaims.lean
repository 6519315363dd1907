import HashedBroker.DatabaseCalls

/-!
# One handle per key, one key per handle

The handle is the primary key of its table, so it never has two owners. Nothing in the schema
bounds the rows of a key: `claim_handle` looks for one and inserts later, and a claim of the same
key that commits in between is not seen again. A run in which no insertion finds a row of its key,
committed or pending, keeps the two tables in step.
-/
namespace HashedBroker.HandleClaims
open Database DatabaseCalls KeyedTables AtomicPrograms ReactiveTasks

variable {Tid : Type} [DecidableEq Tid]

/-- What the two tables are to be for each other. -/
structure Consistent (peers : List PeerRow) (handles : List HandleRow) : Prop where
  onePerPubkey : (handles.map HandleRow.pubkey).Nodup
  onePerHandle : (handles.map HandleRow.handle).Nodup
  mirrored : ∀ h pk, ⟨h, pk⟩ ∈ handles ↔ ∃ r ∈ peers, r.pubkey = pk ∧ r.handle = some h

/-- No other call has a row of the key, committed or pending. -/
def KeyUnclaimed (db : Db ℕ) (t : ℕ) (pk : String) : Prop :=
  (∀ r ∈ db.handles, r.pubkey ≠ pk) ∧
    ∀ u txn, u ≠ t → db.transactions.lookup u = some txn → ∀ r ∈ txn.handles, r.pubkey ≠ pk

/-- An insertion into `handles` that succeeds finds no row of its key, committed or pending. -/
def NoRacingInsert (_ : List CallEvent) (σ : CallConfig) : CallEvent → Prop
  | .performed t (.insertHandle _ pk) (.ok _) => KeyUnclaimed σ.shared t pk
  | _ => True

/-! ## The transaction of a call -/

/-- How a statement moves the open transaction of its task. -/
def next (l : Option Transaction) : (s : Statement) → Answer s → Option Transaction
  | _, .error _ => none
  | .begin, .ok _ => some ⟨[], []⟩
  | .insertHandle h pk, .ok _ =>
    some { l.getD ⟨[], []⟩ with handles := (l.getD ⟨[], []⟩).handles ++ [⟨h, pk⟩] }
  | .updatePeerHandle h pk, .ok _ =>
    some { l.getD ⟨[], []⟩ with peers := (pk, h) :: (l.getD ⟨[], []⟩).peers }
  | .commit, .ok _ => none
  | .rollback, .ok _ => none
  | _, .ok _ => l

/-- The writes come in order: the row, then the peer's column, then the commit. -/
def InOrder (l : Option Transaction) : Statement → Prop
  | .insertHandle .. => l = some ⟨[], []⟩
  | .updatePeerHandle h pk => l = some ⟨[⟨h, pk⟩], []⟩
  | .commit => ∃ h pk, l = some ⟨[⟨h, pk⟩], [(pk, h)]⟩
  | _ => True

/-- The writes come in order, and they are for one key. -/
def OwnOrder (pk : String) (l : Option Transaction) : Statement → Prop
  | .insertHandle _ pubkey => pubkey = pk ∧ l = some ⟨[], []⟩
  | .updatePeerHandle h pubkey => pubkey = pk ∧ l = some ⟨[⟨h, pk⟩], []⟩
  | .commit => ∃ h, l = some ⟨[⟨h, pk⟩], [(pk, h)]⟩
  | _ => True

theorem OwnOrder.inOrder {pk : String} {l : Option Transaction} {s : Statement}
    (h : OwnOrder pk l s) : InOrder l s := by
  cases s with
  | insertHandle handle pubkey => exact h.2
  | updatePeerHandle handle pubkey =>
    obtain ⟨rfl, hl⟩ := h
    exact hl
  | commit =>
    obtain ⟨handle, hl⟩ := h
    exact ⟨handle, pk, hl⟩
  | _ => trivial

/-- The query writes for one key and ends without an open transaction, whatever it returns. -/
def Tidy {α : Type} (pk : String) (l : Option Transaction) (q : Query α) : Prop :=
  q.run.Follows next (OwnOrder pk) (fun l _ => l = none) l

theorem next_error (l : Option Transaction) (s : Statement) (e : String) :
    next l s (.error e) = none := by
  cases s <;> rfl

theorem tidy_execute_bind {α : Type} {pk : String} {l : Option Transaction} {s : Statement}
    {f : s.Rows → Query α} (hs : OwnOrder pk l s)
    (hf : ∀ rows, Tidy pk (next l s (.ok rows)) (f rows)) : Tidy pk l (execute s >>= f) :=
  follows_execute_bind hs (fun e => next_error l s e) hf

theorem claim_tidy (crates : Crates) (pubkey handle : String) :
    Tidy pubkey none (Handles.claim crates pubkey handle) := by
  simp only [Handles.claim, upsertPeer, claimHandle]
  refine follows_check_bind (fun _ => rfl) fun _ _ => ?_
  refine tidy_execute_bind trivial fun _ => ?_
  refine tidy_execute_bind trivial fun _ => ?_
  refine tidy_execute_bind trivial fun existing => ?_
  cases existing with
  | some h =>
    refine tidy_execute_bind trivial fun _ => ?_
    split_ifs
    · exact rfl
    · exact rfl
  | none =>
    refine tidy_execute_bind trivial fun owner => ?_
    cases owner with
    | some pk => exact tidy_execute_bind trivial fun _ => rfl
    | none =>
      refine tidy_execute_bind ⟨rfl, rfl⟩ fun _ => ?_
      refine tidy_execute_bind ⟨rfl, rfl⟩ fun _ => ?_
      refine ⟨⟨handle, rfl⟩, fun r => ?_⟩
      cases r <;> rfl

theorem announce_tidy (crates : Crates) (announcingPubkey : String) (teamId : Option Uuid)
    (teamName adminPubkey adminSignature : String) :
    Tidy announcingPubkey none (do
      let id ← Teams.announce crates announcingPubkey teamId teamName adminPubkey adminSignature
      pure (some id) : Query (Option Uuid)) := by
  have hall : (do
      let id ← Teams.announce crates announcingPubkey teamId teamName adminPubkey adminSignature
      pure (some id) : Query (Option Uuid)).run.Always _ :=
    Prog.Always.except_bind (Teams.announce_always crates announcingPubkey teamId teamName
      adminPubkey adminSignature) fun _ => trivial
  refine hall.follows (fun s hs => ?_) fun _ => rfl
  rcases hs with ⟨id, -, rfl⟩ | ⟨-, rfl⟩ | rfl | ⟨id, rfl⟩ <;>
    exact ⟨trivial, fun r => by cases r <;> rfl⟩

theorem program_tidy (crates : Crates) (c : Call) :
    (c.program crates).Follows next InOrder (fun l _ => l = none) none := by
  cases c with
  | upsertPeerWithKind pubkey kind =>
    have htidy : Tidy pubkey none
        (do let _ ← upsertPeerWithKind pubkey kind; pure none : Query (Option Uuid)) :=
      tidy_execute_bind trivial fun _ => rfl
    exact htidy.mono_ok fun _ _ => OwnOrder.inOrder
  | claim pubkey handle =>
    refine ((claim_tidy crates pubkey handle).mono_ok fun _ _ => OwnOrder.inOrder).bind ?_
    rintro l x rfl
    cases x <;> rfl
  | announce announcingPubkey teamId teamName adminPubkey adminSignature =>
    exact (announce_tidy crates announcingPubkey teamId teamName adminPubkey
      adminSignature).mono_ok fun _ _ => OwnOrder.inOrder

/-! ## What a statement does to the transactions -/

section Transactions

variable {db db' : Db Tid} {t : Tid} {env : Database.Env} {s : Statement} {r : Answer s}

theorem next_of_not_controls (l : Option Transaction) (hs : s.controls = false) (rows : s.Rows) :
    next l s (.ok rows) = l := by
  cases s <;> first | rfl | cases hs

theorem exec_other (h : db.exec t s env = some (r, db')) {u : Tid} (hu : u ≠ t) :
    db'.transactions.lookup u = db.transactions.lookup u := by
  have habort : (db.abort t).transactions.lookup u = db.transactions.lookup u := by
    rw [Db.abort, lookup_erase_ite, if_neg hu]
  have hset : ∀ txn, (db.setWrites t txn).transactions.lookup u = db.transactions.lookup u := by
    intro txn
    rw [Db.setWrites, lookup_insert_ite, if_neg hu]
  rcases Db.exec_cases h with ⟨e, -, rfl⟩ | ⟨rows, -, -, hr⟩
  · exact habort
  · rcases Db.run_cases hr with ⟨-, pk, kind, rfl⟩ | ⟨-, teams, members, rfl⟩ | ⟨-, rfl⟩ |
      ⟨handle, pk, -, -, -, rfl⟩ | ⟨handle, pk, -, ⟨-, rfl⟩ | ⟨-, rfl⟩⟩ | ⟨-, rfl⟩ | ⟨-, rfl⟩
    · rfl
    · rfl
    · exact hset _
    · exact hset _
    · exact hset _
    · rfl
    · exact habort
    · exact habort

theorem exec_peers (h : db.exec t s env = some (r, db')) :
    ∀ p ∈ db.peers.map PeerRow.pubkey, p ∈ db'.peers.map PeerRow.pubkey := by
  intro p hp
  rcases Db.exec_cases h with ⟨e, -, rfl⟩ | ⟨rows, -, -, hr⟩
  · exact hp
  · rcases Db.run_cases hr with ⟨-, pk, kind, rfl⟩ | ⟨-, teams, members, rfl⟩ | ⟨-, rfl⟩ |
      ⟨handle, pk, -, -, -, rfl⟩ | ⟨handle, pk, -, ⟨-, rfl⟩ | ⟨-, rfl⟩⟩ | ⟨-, rfl⟩ | ⟨-, rfl⟩
    · rw [Db.upsertPeerRow_pubkeys]
      split_ifs
      · exact hp
      · exact List.mem_append_left _ hp
    · exact hp
    · exact hp
    · exact hp
    · exact hp
    · exact hp
    · rw [Db.setHandles_pubkeys]
      exact hp
    · exact hp

/-- A pending row has its peer: insertion checks it and peers are never deleted. -/
def ForeignKey (db : Db Tid) : Prop :=
  ∀ u txn, db.transactions.lookup u = some txn →
    ∀ row ∈ txn.handles, row.pubkey ∈ db.peers.map PeerRow.pubkey

theorem ForeignKey.ownWrites (hf : ForeignKey db) (t : Tid) :
    ∀ row ∈ (db.ownWrites t).handles, row.pubkey ∈ db.peers.map PeerRow.pubkey := by
  intro row hrow
  unfold Db.ownWrites at hrow
  cases ht : db.transactions.lookup t with
  | none => simp [ht] at hrow
  | some txn => exact hf t txn ht row (by simpa [ht] using hrow)

theorem exec_foreignKey (h : db.exec t s env = some (r, db')) (hf : ForeignKey db) :
    ForeignKey db' := by
  intro u txn hu row hrow
  have hp := exec_peers h
  by_cases hut : u = t
  · subst hut
    have hown := hf.ownWrites u
    have habort : (db.abort u).transactions.lookup u = none := by
      rw [Db.abort, lookup_erase_ite, if_pos rfl]
    have hset : ∀ txn, (db.setWrites u txn).transactions.lookup u = some txn := by
      intro txn
      rw [Db.setWrites, lookup_insert_ite, if_pos rfl]
    rcases Db.exec_cases h with ⟨e, -, rfl⟩ | ⟨rows, -, -, hr⟩
    · rw [habort] at hu
      cases hu
    · rcases Db.run_cases hr with ⟨-, pk, kind, rfl⟩ | ⟨-, teams, members, rfl⟩ | ⟨-, rfl⟩ |
        ⟨handle, pk, -, -, hpk, rfl⟩ | ⟨handle, pk, -, ⟨-, rfl⟩ | ⟨-, rfl⟩⟩ | ⟨-, rfl⟩ | ⟨-, rfl⟩
      · exact hp _ (hf u txn hu row hrow)
      · exact hp _ (hf u txn hu row hrow)
      · rw [hset] at hu
        cases hu
        cases hrow
      · rw [hset] at hu
        cases hu
        rcases List.mem_append.mp hrow with hrow | hrow
        · exact hown row hrow
        · obtain rfl := List.mem_singleton.mp hrow
          exact hpk
      · rw [hset] at hu
        cases hu
        exact hown row hrow
      · exact hf u txn hu row hrow
      · exact absurd (habort.symm.trans hu) (by simp)
      · rw [habort] at hu
        cases hu
  · rw [exec_other h hut] at hu
    exact hp _ (hf u txn hu row hrow)

theorem exec_own (h : db.exec t s env = some (r, db')) (hf : ForeignKey db)
    (hs : InOrder (db.transactions.lookup t) s) :
    db'.transactions.lookup t = next (db.transactions.lookup t) s r := by
  have habort : (db.abort t).transactions.lookup t = none := by
    rw [Db.abort, lookup_erase_ite, if_pos rfl]
  have hset : ∀ txn, (db.setWrites t txn).transactions.lookup t = some txn := by
    intro txn
    rw [Db.setWrites, lookup_insert_ite, if_pos rfl]
  rcases Db.exec_cases h with ⟨e, rfl, rfl⟩ | ⟨rows, rfl, -, hr⟩
  · rw [habort]
    cases s <;> rfl
  · rcases Db.run_cases hr with ⟨hc, pk, kind, rfl⟩ | ⟨hc, teams, members, rfl⟩ | ⟨rfl, rfl⟩ |
      ⟨handle, pk, rfl, -, -, rfl⟩ | ⟨handle, pk, rfl, ⟨-, rfl⟩ | ⟨hno, rfl⟩⟩ | ⟨rfl, rfl⟩ |
      ⟨rfl, rfl⟩
    · exact (next_of_not_controls _ hc rows).symm
    · exact (next_of_not_controls _ hc rows).symm
    · exact hset _
    · exact hset _
    · exact hset _
    · exact absurd (hf t _ hs ⟨handle, pk⟩ (by simp)) hno
    · exact habort
    · exact habort

end Transactions

/-! ## The invariant of guarded runs -/

/-- The committed tables agree, and no pending row shares a handle or a key with a committed or
another pending one. -/
structure Inv (db : Db Tid) : Prop where
  consistent : Consistent db.peers db.handles
  peerKey : (db.peers.map PeerRow.pubkey).Nodup
  fresh : ∀ u txn, db.transactions.lookup u = some txn → ∀ row ∈ txn.handles,
    ∀ r ∈ db.handles, r.handle ≠ row.handle ∧ r.pubkey ≠ row.pubkey
  apart : ∀ u v txn txn', u ≠ v → db.transactions.lookup u = some txn →
    db.transactions.lookup v = some txn' → ∀ row ∈ txn.handles, ∀ row' ∈ txn'.handles,
      row.handle ≠ row'.handle ∧ row.pubkey ≠ row'.pubkey

namespace Inv

variable {db : Db Tid}

theorem abort (h : Inv db) (t : Tid) : Inv (db.abort t) := by
  have hl : ∀ u txn, (db.abort t).transactions.lookup u = some txn →
      db.transactions.lookup u = some txn := by
    intro u txn hu
    rw [Db.abort, lookup_erase_ite] at hu
    split_ifs at hu
    exact hu
  exact ⟨h.consistent, h.peerKey, fun u txn hu => h.fresh u txn (hl u txn hu),
    fun u v txn txn' huv hu hv => h.apart u v txn txn' huv (hl u txn hu) (hl v txn' hv)⟩

theorem setWrites (h : Inv db) {t : Tid} {txn : Transaction}
    (hfresh : ∀ row ∈ txn.handles, ∀ r ∈ db.handles, r.handle ≠ row.handle ∧ r.pubkey ≠ row.pubkey)
    (hapart : ∀ u txn', u ≠ t → db.transactions.lookup u = some txn' → ∀ row ∈ txn.handles,
      ∀ row' ∈ txn'.handles, row'.handle ≠ row.handle ∧ row'.pubkey ≠ row.pubkey) :
    Inv (db.setWrites t txn) := by
  have hl : ∀ u, (db.setWrites t txn).transactions.lookup u =
      if u = t then some txn else db.transactions.lookup u := by
    intro u
    rw [Db.setWrites, lookup_insert_ite]
  refine ⟨h.consistent, h.peerKey, ?_, ?_⟩
  · intro u txn' hu
    rw [hl] at hu
    split_ifs at hu with hut
    · cases hu
      exact hfresh
    · exact h.fresh u txn' hu
  · intro u v txn₁ txn₂ huv hu hv row hrow row' hrow'
    rw [hl] at hu hv
    split_ifs at hu hv with hut hvt hvt
    · exact absurd (hut.trans hvt.symm) huv
    · cases hu
      have ha := hapart v txn₂ hvt hv row hrow row' hrow'
      exact ⟨ha.1.symm, ha.2.symm⟩
    · cases hv
      exact hapart u txn₁ hut hu row' hrow' row hrow
    · exact h.apart u v txn₁ txn₂ huv hu hv row hrow row' hrow'

theorem upsertPeer (h : Inv db) (pk : String) (kind : Option String) :
    Inv { db with peers := Db.upsertPeerRow db.peers pk kind } := by
  refine ⟨⟨h.consistent.onePerPubkey, h.consistent.onePerHandle, fun hd k => ?_⟩, ?_, h.fresh,
    h.apart⟩
  · rw [Db.upsertPeerRow_handle]
    exact h.consistent.mirrored hd k
  · rw [Db.upsertPeerRow_pubkeys]
    split_ifs with hk
    · exact h.peerKey
    · refine List.nodup_append.mpr ⟨h.peerKey, by simp, fun a ha b hb => ?_⟩
      rintro rfl
      exact hk (List.mem_singleton.mp hb ▸ ha)

theorem commit (h : Inv db) {t : Tid} {handle pk : String} (hf : ForeignKey db)
    (ht : db.transactions.lookup t = some ⟨[⟨handle, pk⟩], [(pk, handle)]⟩) :
    Inv { db.abort t with
      handles := db.handles ++ [⟨handle, pk⟩],
      peers := Db.setHandles [(pk, handle)] db.peers } := by
  have hnew := h.fresh t _ ht ⟨handle, pk⟩ (by simp)
  have hl : ∀ u txn, (db.abort t).transactions.lookup u = some txn →
      u ≠ t ∧ db.transactions.lookup u = some txn := by
    intro u txn hu
    rw [Db.abort, lookup_erase_ite] at hu
    split_ifs at hu with hut
    exact ⟨hut, hu⟩
  have hcol : ∀ r : PeerRow, (List.lookup r.pubkey [(pk, handle)]).or r.handle =
      if r.pubkey = pk then some handle else r.handle := by
    intro r
    by_cases hr : r.pubkey = pk
    · simp [hr]
    · simp [List.lookup_cons, beq_eq_false_iff_ne.mpr hr, hr]
  refine ⟨⟨?_, ?_, ?_⟩, ?_, ?_, ?_⟩
  · rw [List.map_append]
    refine List.nodup_append.mpr ⟨h.consistent.onePerPubkey, by simp, fun a ha b hb => ?_⟩
    obtain ⟨r, hr, rfl⟩ := List.mem_map.mp ha
    simp only [List.map_cons, List.map_nil, List.mem_singleton] at hb
    exact hb ▸ (hnew r hr).2
  · rw [List.map_append]
    refine List.nodup_append.mpr ⟨h.consistent.onePerHandle, by simp, fun a ha b hb => ?_⟩
    obtain ⟨r, hr, rfl⟩ := List.mem_map.mp ha
    simp only [List.map_cons, List.map_nil, List.mem_singleton] at hb
    exact hb ▸ (hnew r hr).1
  · intro hd k
    constructor
    · intro hmem
      rcases List.mem_append.mp hmem with hmem | hmem
      · obtain ⟨r, hr, rfl, hh⟩ := (h.consistent.mirrored hd k).mp hmem
        refine ⟨_, List.mem_map_of_mem hr, rfl, ?_⟩
        rw [hcol, if_neg (hnew _ hmem).2, hh]
      · cases List.mem_singleton.mp hmem
        obtain ⟨r, hr, rfl⟩ := List.mem_map.mp (hf t _ ht ⟨handle, pk⟩ (by simp))
        exact ⟨_, List.mem_map_of_mem hr, rfl, by rw [hcol, if_pos rfl]⟩
    · rintro ⟨r', hr', rfl, hh⟩
      obtain ⟨r, hr, rfl⟩ := List.mem_map.mp hr'
      rw [hcol] at hh
      split_ifs at hh with hk
      · cases hh
        exact List.mem_append_right _ (by simp [hk])
      · exact List.mem_append_left _ ((h.consistent.mirrored hd r.pubkey).mpr ⟨r, hr, rfl, hh⟩)
  · rw [Db.setHandles_pubkeys]
    exact h.peerKey
  · intro u txn hu row hrow r hr
    obtain ⟨hut, hu⟩ := hl u txn hu
    rcases List.mem_append.mp hr with hr | hr
    · exact h.fresh u txn hu row hrow r hr
    · cases List.mem_singleton.mp hr
      exact h.apart t u _ txn (Ne.symm hut) ht hu _ (by simp) row hrow
  · intro u v txn txn' huv hu hv
    exact h.apart u v txn txn' huv (hl u txn hu).2 (hl v txn' hv).2

theorem ownWrites (h : Inv db) (t : Tid) : ∀ row ∈ (db.ownWrites t).handles,
    (∀ r ∈ db.handles, r.handle ≠ row.handle ∧ r.pubkey ≠ row.pubkey) ∧
    ∀ u txn, u ≠ t → db.transactions.lookup u = some txn → ∀ row' ∈ txn.handles,
      row'.handle ≠ row.handle ∧ row'.pubkey ≠ row.pubkey := by
  intro row hrow
  unfold Db.ownWrites at hrow
  cases ht : db.transactions.lookup t with
  | none => simp [ht] at hrow
  | some own =>
    have hmem : row ∈ own.handles := by simpa [ht] using hrow
    exact ⟨h.fresh t own ht row hmem,
      fun u txn hut hu row' hrow' => h.apart u t txn own hut hu ht row' hrow' row hmem⟩

/-- One statement keeps the invariant, unless it inserts beside a row of the same key. -/
theorem exec {db' : Db Tid} {t : Tid} {env : Database.Env} {s : Statement} {r : Answer s}
    (h : Inv db)
    (hx : db.exec t s env = some (r, db')) (hf : ForeignKey db)
    (hs : InOrder (db.transactions.lookup t) s)
    (hguard : ∀ handle pk, s = .insertHandle handle pk → (∃ rows, r = .ok rows) →
      (∀ row ∈ db.handles, row.pubkey ≠ pk) ∧
        ∀ u txn, u ≠ t → db.transactions.lookup u = some txn → ∀ row ∈ txn.handles,
          row.pubkey ≠ pk) : Inv db' := by
  rcases Db.exec_cases hx with ⟨e, -, rfl⟩ | ⟨rows, rfl, hw, hr⟩
  · exact h.abort t
  · rcases Db.run_cases hr with ⟨-, pk, kind, rfl⟩ | ⟨-, teams, members, rfl⟩ | ⟨rfl, rfl⟩ |
      ⟨handle, pk, rfl, hh, -, rfl⟩ | ⟨handle, pk, rfl, ⟨-, rfl⟩ | ⟨-, rfl⟩⟩ | ⟨rfl, rfl⟩ |
      ⟨rfl, rfl⟩
    · exact h.upsertPeer pk kind
    · exact ⟨h.consistent, h.peerKey, h.fresh, h.apart⟩
    · exact h.setWrites (by simp) (by simp)
    · obtain ⟨hg₁, hg₂⟩ := hguard handle pk rfl ⟨rows, rfl⟩
      have hown : (db.ownWrites t).handles = [] := by
        simp only [InOrder] at hs
        simp [Db.ownWrites, hs]
      -- the handle of another pending row would have made the insertion wait
      have hpending : ∀ u txn, u ≠ t → db.transactions.lookup u = some txn →
          ∀ row ∈ txn.handles, row.handle ≠ handle := by
        intro u txn hut hu row hrow he
        have hno := Db.heldByOther_eq_false.mp hw u txn hut hu
        rw [Bool.or_eq_false_iff] at hno
        exact absurd he (by simpa using List.any_eq_false.mp hno.1 row hrow)
      refine h.setWrites ?_ ?_
      · simp only [hown, List.nil_append, List.mem_singleton, forall_eq]
        exact fun row hrow => ⟨hh row (List.mem_append_left _ hrow), hg₁ row hrow⟩
      · simp only [hown, List.nil_append, List.mem_singleton, forall_eq]
        exact fun u txn hut hu row hrow =>
          ⟨hpending u txn hut hu row hrow, hg₂ u txn hut hu row hrow⟩
    · exact h.setWrites (fun row hrow => (h.ownWrites t row hrow).1)
        fun u txn hut hu row hrow => (h.ownWrites t row hrow).2 u txn hut hu
    · exact h
    · obtain ⟨handle, pk, ht⟩ := hs
      have hown : db.ownWrites t = ⟨[⟨handle, pk⟩], [(pk, handle)]⟩ := by
        simp [Db.ownWrites, ht]
      rw [hown]
      exact h.commit hf ht
    · exact h.abort t

end Inv

/-- The run starts with no transaction open on tables that agree. -/
structure Settled (db : Db ℕ) : Prop where
  consistent : Consistent db.peers db.handles
  peerKey : (db.peers.map PeerRow.pubkey).Nodup
  noneOpen : db.transactions = ∅

variable {crates : Crates} {db₀ : Db ℕ} {tr : List CallEvent} {σ : CallConfig}

theorem Settled.inv (h₀ : Settled db₀) : Inv db₀ ∧ ForeignKey db₀ := by
  have hl : ∀ u, db₀.transactions.lookup u = none := by
    intro u
    rw [h₀.noneOpen]
    exact AList.lookup_empty u
  refine ⟨⟨h₀.consistent, h₀.peerKey, ?_, ?_⟩, ?_⟩
  · intro u txn hu
    rw [hl] at hu
    cases hu
  · intro u v txn txn' _ hu
    rw [hl] at hu
    cases hu
  · intro u txn hu
    rw [hl] at hu
    cases hu

theorem foreignKey_of_run (h₀ : Settled db₀) (h : Run (calls crates) (started db₀) tr σ) :
    ForeignKey σ.shared := by
  induction h with
  | start => exact h₀.inv.2
  | step _ next ih =>
    rcases next.cases with ⟨t, i, c, c', p, rfl, -, -, rfl⟩ |
      ⟨t, c, o, k, env, r, s', rfl, -, hx, rfl⟩ | ⟨x, -⟩
    · exact ih
    · exact exec_foreignKey hx ih
    · exact x.elim

theorem calls_in_order (h₀ : Settled db₀) (h : Run (calls crates) (started db₀) tr σ) {t : ℕ}
    {c : CallState} {o : Statement} {k : Answer o → Prog Statement Answer _}
    (ht : σ.tasks t = .running c (.call o k)) : InOrder (σ.shared.transactions.lookup t) o := by
  have hf := h.follows (fun t _ db => db.transactions.lookup t) next (fun _ _ => InOrder)
    (fun _ _ l => l = none) ?_ ?_ ?_ ?_ ?_ ?_
  · exact (hf.2 t c _ ht).1
  · intro t
    refine ⟨.idle, rfl, ?_⟩
    simp only [started, h₀.noneOpen]
    exact AList.lookup_empty t
  · intro t c i c' p l hs hl
    subst hl
    cases c <;> cases hs
    exact program_tidy crates i
  · intro t u i tr s
    rfl
  · intro tr σ t c o env r s' hrun hx hok
    exact exec_own hx (foreignKey_of_run h₀ hrun) hok
  · intro t u o env tr s r s' hx hu
    exact exec_other hx hu
  · intro x
    exact x.elim

/-- In every run without a racing insertion, the committed tables agree: a key has one handle, a
handle has one key, and `peers` says the same as `handles`. -/
theorem claims_keep_tables_consistent (h₀ : Settled db₀)
    (h : GuardedRun (calls crates) NoRacingInsert (started db₀) tr σ) :
    Consistent σ.shared.peers σ.shared.handles := by
  refine (h.invariant (I := fun _ σ => Inv σ.shared) h₀.inv.1 ?_).consistent
  intro tr σ e σ' hrun hi hstep hguard
  replace hrun := hrun.run
  rcases hstep.cases with ⟨t, i, c, c', p, rfl, -, -, rfl⟩ |
    ⟨t, c, o, k, env, r, s', rfl, ht, hx, rfl⟩ | ⟨x, -⟩
  · exact hi
  · refine hi.exec hx (foreignKey_of_run h₀ hrun) (calls_in_order h₀ hrun ht) ?_
    rintro handle pk rfl ⟨rows, rfl⟩
    exact hguard
  · exact x.elim

/-! ## Two claims of one key -/

theorem emptyDb_settled : Settled emptyDb := by
  refine ⟨⟨by simp [emptyDb], by simp [emptyDb], by simp [emptyDb]⟩, by simp [emptyDb], rfl⟩

def steps (t n : ℕ) : List (Action ℕ Database.Env Call Empty) := List.replicate n (.perform t quiet)

def noRacingInsert (_ : List CallEvent) (σ : CallConfig) : CallEvent → Bool
  | .performed t (.insertHandle _ pk) _ =>
    !(σ.shared.handles.any fun r => r.pubkey = pk) &&
      !(σ.shared.heldByOther t fun x => x.handles.any fun r => r.pubkey = pk)
  | _ => true

theorem noRacingInsert_sound (tr : List CallEvent) (σ : CallConfig) (e : CallEvent)
    (h : noRacingInsert tr σ e = true) : NoRacingInsert tr σ e := by
  unfold NoRacingInsert
  split
  · rename_i t _ pk _
    simp only [noRacingInsert, Bool.and_eq_true, Bool.not_eq_true', List.any_eq_false,
      decide_eq_true_eq, Db.heldByOther_eq_false] at h
    exact h
  · trivial

/-- A claim, and after it a second one of the same key and one of another key. -/
def orderlyClaims : List (Action ℕ Database.Env Call Empty) :=
  [.input 0 (.claim "pk" "alice")] ++ steps 0 7 ++
    [.input 1 (.claim "pk" "bob"), .input 2 (.claim "qk" "carol")] ++
    steps 1 1 ++ steps 2 2 ++ steps 1 2 ++ steps 2 5 ++ steps 1 1

theorem orderlyClaims_rows :
    (runGuarded (calls Crates.demo) noRacingInsert orderlyClaims [] (started emptyDb)).map
      (fun x => x.2.shared.handles) = some [⟨"alice", "pk"⟩, ⟨"carol", "qk"⟩] := by
  decide +kernel

theorem orderly_claims_consistent : ∃ σ : CallConfig,
    σ.shared.handles = [⟨"alice", "pk"⟩, ⟨"carol", "qk"⟩] ∧
      Consistent σ.shared.peers σ.shared.handles := by
  obtain ⟨⟨tr, σ⟩, hrun, hrows⟩ := Option.map_eq_some_iff.mp orderlyClaims_rows
  exact ⟨σ, hrows, claims_keep_tables_consistent emptyDb_settled
    (guardedRun_of_runGuarded noRacingInsert_sound .start hrun)⟩

/-- Both calls upsert the peer, begin and look for a handle of `pk`; then the first runs to its
commit, and the second after it. -/
def racingClaims : List (Action ℕ Database.Env Call Empty) :=
  [.input 0 (.claim "pk" "alice"), .input 1 (.claim "pk" "bob")] ++
    steps 0 3 ++ steps 1 3 ++ steps 0 4 ++ steps 1 4

theorem racingClaims_rows :
    (runActions (calls Crates.demo) racingClaims [] (started emptyDb)).map
      (fun x => x.2.shared.handles) = some [⟨"alice", "pk"⟩, ⟨"bob", "pk"⟩] := by
  decide +kernel

/-- Both claims are committed, and `pk` owns two handles. -/
theorem racing_claims_leave_two_handles : ∃ tr σ,
    Run (calls Crates.demo) (started emptyDb) tr σ ∧
      ¬ Consistent σ.shared.peers σ.shared.handles := by
  obtain ⟨⟨tr, σ⟩, hrun, hrows⟩ := Option.map_eq_some_iff.mp racingClaims_rows
  refine ⟨tr, σ, run_of_runActions .start hrun, fun hc => ?_⟩
  have hnodup := hc.onePerPubkey
  rw [hrows] at hnodup
  simp at hnodup

end HashedBroker.HandleClaims
