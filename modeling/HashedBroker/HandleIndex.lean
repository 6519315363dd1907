import HashedBroker.Registry

/-!
# The handle index of the registry

Calls of the registry's methods, one after the other. The index is meant to invert the handles of
the entries. `insert` only adds to it: when a key that has a handle is inserted again with another
handle, or with none, the old handle is left behind in the index, and no removal of the key takes it
away.
-/
namespace HashedBroker.HandleIndex
open KeyedTables AtomicPrograms Registry

inductive Call
  | insert (peer : PeerHandle)
  | remove (pubkey : String)

namespace Call

def pubkey : Call → String
  | insert peer => peer.pubkey
  | remove pubkey => pubkey

def Gives (h : String) : Call → Prop
  | insert peer => peer.handle = some h
  | remove _ => False

def run (reg : PeerRegistry) : Call → PeerRegistry
  | insert peer => ((Registry.insert peer).eval PeerRegistry.exec reg).2
  | remove pubkey => ((Registry.remove pubkey).eval PeerRegistry.exec reg).2

end Call

/-- The registry after some calls, the newest first. -/
def called : List Call → PeerRegistry
  | [] => .empty
  | call :: calls => call.run (called calls)

/-- `resolve_handle` and `get` tell the same about every handle and every key. -/
def Mirrors (reg : PeerRegistry) : Prop :=
  ∀ h pk, ((resolveHandle h).eval PeerRegistry.exec reg).1 = some pk ↔
    ∃ peer, ((get pk).eval PeerRegistry.exec reg).1 = some peer ∧ peer.handle = some h

/-- No handle is used by two keys. -/
def OneOwner (calls : List Call) : Prop :=
  ∀ p q h, .insert p ∈ calls → .insert q ∈ calls → p.handle = some h → q.handle = some h →
    p.pubkey = q.pubkey

/-- The key was inserted with the handle, was inserted again while it was there, and since then the
handle has not been inserted. -/
def LeftBehind (h pk : String) (calls : List Call) : Prop :=
  ∃ newer again between peer older,
    calls = newer ++ .insert again :: (between ++ .insert peer :: older) ∧
    peer.pubkey = pk ∧ peer.handle = some h ∧ again.pubkey = pk ∧
    (∀ call ∈ between, call.pubkey ≠ pk) ∧ ∀ call ∈ newer ++ [.insert again], ¬ call.Gives h

/-! ## What each call leaves -/

section Calls

variable {reg : PeerRegistry} {peer : PeerHandle} {pk h : String}

theorem run_insert (reg : PeerRegistry) (peer : PeerHandle) : (Call.insert peer).run reg =
    ⟨reg.byPubkey.insert peer.pubkey peer,
      peer.handle.elim reg.handleToPubkey (reg.handleToPubkey.insert · peer.pubkey)⟩ := by
  obtain ⟨pubkey, handle, addresses, reflected, tx⟩ := peer
  cases handle <;> rfl

theorem entry_remove (reg : PeerRegistry) (pk : String) :
    ((Call.remove pk).run reg).byPubkey = reg.byPubkey.erase pk := by
  simp only [Call.run, Registry.remove, access, Prog.eval_bind, Prog.eval_perform]
  cases hpeer : reg.byPubkey.lookup pk with
  | none => simp [PeerRegistry.exec, hpeer]
  | some peer =>
    cases hhandle : peer.handle with
    | none => simp [PeerRegistry.exec, hpeer, hhandle]
    | some handle =>
      cases hindex : reg.handleToPubkey.lookup handle with
      | none => simp [PeerRegistry.exec, hpeer, hhandle, hindex]
      | some entry => by_cases he : entry = peer.pubkey <;>
          simp [PeerRegistry.exec, hpeer, hhandle, hindex, he]

/-- A removal takes the handle of the entry out of the index, if it points at the entry's key. -/
theorem index_remove (reg : PeerRegistry) (pk h pk' : String) :
    ((Call.remove pk).run reg).handleToPubkey.lookup h = some pk' ↔
      reg.handleToPubkey.lookup h = some pk' ∧
        ¬ ∃ peer, reg.byPubkey.lookup pk = some peer ∧ peer.handle = some h ∧
          peer.pubkey = pk' := by
  simp only [Call.run, Registry.remove, access, Prog.eval_bind, Prog.eval_perform]
  cases hpeer : reg.byPubkey.lookup pk with
  | none => simp [PeerRegistry.exec, hpeer]
  | some peer =>
    cases hhandle : peer.handle with
    | none => simp [PeerRegistry.exec, hpeer, hhandle]
    | some handle =>
      cases hindex : reg.handleToPubkey.lookup handle with
      | none =>
        have hother : reg.handleToPubkey.lookup h = some pk' → handle = h → peer.pubkey ≠ pk' := by
          rintro hl rfl
          rw [hindex] at hl
          cases hl
        simpa [PeerRegistry.exec, hpeer, hhandle, hindex] using hother
      | some entry =>
        by_cases he : entry = peer.pubkey
        · by_cases hh : h = handle
          · subst hh
            simp [PeerRegistry.exec, hpeer, hhandle, hindex, he]
          · simp [PeerRegistry.exec, hpeer, hhandle, hindex, he, hh, Ne.symm hh]
        · have hother : reg.handleToPubkey.lookup h = some pk' → handle = h →
              peer.pubkey ≠ pk' := by
            rintro hl rfl hpk
            rw [hindex, hpk.symm] at hl
            exact he (Option.some.inj hl)
          simpa [PeerRegistry.exec, hpeer, hhandle, hindex, he] using hother

end Calls

/-! ## What the calls say of the entries and of the index -/

def entry (pk : String) : List Call → Option PeerHandle
  | [] => none
  | .insert peer :: calls => if pk = peer.pubkey then some peer else entry pk calls
  | .remove pubkey :: calls => if pk = pubkey then none else entry pk calls

section Histories

variable {calls : List Call} {call : Call} {peer : PeerHandle} {pk h : String}

theorem lookup_called (calls : List Call) (pk : String) :
    (called calls).byPubkey.lookup pk = entry pk calls := by
  induction calls with
  | nil => rfl
  | cons call calls ih =>
    cases call with
    | insert peer => rw [called, run_insert, lookup_insert_ite, ih, entry]
    | remove pubkey => rw [called, entry_remove, lookup_erase_ite, ih, entry]

/-- The entry of a key is the peer inserted last, with no call of the key since. -/
theorem entry_eq_some : entry pk calls = some peer ↔ peer.pubkey = pk ∧
    ∃ between older, calls = between ++ .insert peer :: older ∧
      ∀ call ∈ between, call.pubkey ≠ pk := by
  induction calls with
  | nil => simp [entry]
  | cons call calls ih =>
    have hsplit : (∃ between older, call :: calls = between ++ .insert peer :: older ∧
        ∀ c ∈ between, c.pubkey ≠ pk) ↔ call = .insert peer ∨ call.pubkey ≠ pk ∧
        ∃ between older, calls = between ++ .insert peer :: older ∧
          ∀ c ∈ between, c.pubkey ≠ pk := by
      constructor
      · rintro ⟨between, older, heq, hother⟩
        cases between with
        | nil => exact Or.inl (List.cons.inj heq).1
        | cons c between =>
          obtain ⟨rfl, hcalls⟩ := List.cons.inj heq
          have hrest := fun c hc => hother c (List.mem_cons_of_mem _ hc)
          exact Or.inr ⟨hother _ List.mem_cons_self, between, older, hcalls, hrest⟩
      · rintro (rfl | ⟨hcall, between, older, rfl, hother⟩)
        · exact ⟨[], calls, rfl, by simp⟩
        · exact ⟨call :: between, older, rfl, by simpa using ⟨hcall, hother⟩⟩
    rw [hsplit]
    cases call with
    | insert p =>
      by_cases hpk : pk = p.pubkey
      · subst hpk
        rw [entry, if_pos rfl]
        constructor
        · rintro ⟨rfl⟩
          exact ⟨rfl, Or.inl rfl⟩
        · rintro ⟨-, heq | ⟨hne, -⟩⟩
          · cases heq
            rfl
          · exact absurd rfl hne
      · rw [entry, if_neg hpk, ih]
        constructor
        · rintro ⟨hkey, hrest⟩
          exact ⟨hkey, Or.inr ⟨Ne.symm hpk, hrest⟩⟩
        · rintro ⟨rfl, heq | ⟨-, hrest⟩⟩
          · cases heq
            exact absurd rfl hpk
          · exact ⟨rfl, hrest⟩
    | remove k =>
      by_cases hpk : pk = k
      · simp [entry, Call.pubkey, hpk]
      · simp [entry, Call.pubkey, hpk, Ne.symm hpk, ih]

theorem OneOwner.tail (h : OneOwner (call :: calls)) : OneOwner calls :=
  fun p q handle hp hq => h p q handle (List.mem_cons_of_mem _ hp) (List.mem_cons_of_mem _ hq)

theorem not_leftBehind_nil : ¬ LeftBehind h pk [] := by
  rintro ⟨newer, again, between, peer, older, heq, -⟩
  cases newer <;> cases heq

theorem leftBehind_insert : LeftBehind h pk (.insert peer :: calls) ↔ peer.handle ≠ some h ∧
    (LeftBehind h pk calls ∨ peer.pubkey = pk ∧
      ∃ old, entry pk calls = some old ∧ old.handle = some h) := by
  constructor
  · rintro ⟨newer, again, between, old, older, heq, hkey, hhandle, hagain, hbetween, hfresh⟩
    cases newer with
    | nil =>
      obtain ⟨⟨⟩, rfl⟩ := List.cons.inj heq
      refine ⟨hfresh (.insert peer) List.mem_cons_self, Or.inr ⟨hagain, old, ?_, hhandle⟩⟩
      exact entry_eq_some.mpr ⟨hkey, between, older, rfl, hbetween⟩
    | cons call newer =>
      obtain ⟨rfl, hcalls⟩ := List.cons.inj heq
      refine ⟨hfresh (.insert peer) List.mem_cons_self, Or.inl ?_⟩
      exact ⟨newer, again, between, old, older, hcalls, hkey, hhandle, hagain, hbetween,
        fun c hc => hfresh c (List.mem_cons_of_mem _ hc)⟩
  · rintro ⟨hpeer, ⟨newer, again, between, old, older, rfl, hrest, hhandle, hagain, hbetween,
      hfresh⟩ | ⟨hkey, old, hentry, hhandle⟩⟩
    · refine ⟨.insert peer :: newer, again, between, old, older, rfl, hrest, hhandle, hagain,
        hbetween, fun c hc => ?_⟩
      rcases List.mem_cons.mp hc with rfl | hc
      · exact hpeer
      · exact hfresh c hc
    · obtain ⟨hold, between, older, rfl, hbetween⟩ := entry_eq_some.mp hentry
      refine ⟨[], peer, between, old, older, rfl, hold, hhandle, hkey, hbetween, fun c hc => ?_⟩
      rw [List.nil_append, List.mem_singleton] at hc
      rw [hc]
      exact hpeer

theorem leftBehind_remove {pubkey : String} :
    LeftBehind h pk (.remove pubkey :: calls) ↔ LeftBehind h pk calls := by
  constructor
  · rintro ⟨newer, again, between, old, older, heq, hkey, hhandle, hagain, hbetween, hfresh⟩
    cases newer with
    | nil => cases (List.cons.inj heq).1
    | cons call newer =>
      exact ⟨newer, again, between, old, older, (List.cons.inj heq).2, hkey, hhandle, hagain,
        hbetween, fun c hc => hfresh c (List.mem_cons_of_mem _ hc)⟩
  · rintro ⟨newer, again, between, old, older, rfl, hkey, hhandle, hagain, hbetween, hfresh⟩
    refine ⟨.remove pubkey :: newer, again, between, old, older, rfl, hkey, hhandle, hagain,
      hbetween, fun c hc => ?_⟩
    rcases List.mem_cons.mp hc with rfl | hc
    · exact id
    · exact hfresh c hc

theorem LeftBehind.not_entry (hleft : LeftBehind h pk calls) {old : PeerHandle}
    (hentry : entry pk calls = some old) : old.handle ≠ some h := by
  induction calls with
  | nil => exact absurd hleft not_leftBehind_nil
  | cons call calls ih =>
    cases call with
    | insert peer =>
      obtain ⟨hpeer, hleft⟩ := leftBehind_insert.mp hleft
      rw [entry] at hentry
      split_ifs at hentry with hpk
      · cases hentry
        exact hpeer
      · rcases hleft with hleft | ⟨hkey, -⟩
        · exact ih hleft hentry
        · exact absurd hkey.symm hpk
    | remove pubkey =>
      rw [entry] at hentry
      split_ifs at hentry
      exact ih (leftBehind_remove.mp hleft) hentry

/-- The index lists the handles of the entries, and those left behind. -/
theorem index_called (hone : OneOwner calls) : (called calls).handleToPubkey.lookup h = some pk ↔
    (∃ peer, entry pk calls = some peer ∧ peer.handle = some h) ∨ LeftBehind h pk calls := by
  induction calls generalizing h pk with
  | nil => simp [called, PeerRegistry.empty, entry, not_leftBehind_nil]
  | cons call calls ih =>
    have hold : (called calls).handleToPubkey.lookup h = some pk ↔
        (∃ peer, entry pk calls = some peer ∧ peer.handle = some h) ∨ LeftBehind h pk calls :=
      ih hone.tail
    cases call with
    | insert peer =>
      rw [called, run_insert, leftBehind_insert, entry]
      by_cases hgives : peer.handle = some h
      · have howner : ∀ {old}, entry pk calls = some old → old.handle = some h →
            pk = peer.pubkey := by
          intro old hentry hh
          obtain ⟨rfl, between, older, rfl, -⟩ := entry_eq_some.mp hentry
          exact hone old peer h (by simp) List.mem_cons_self hh hgives
        simp only [hgives, Option.elim_some, lookup_insert_ite, if_true, ne_eq, not_true, false_and,
          or_false, Option.some.injEq]
        split_ifs with hpk
        · exact iff_of_true hpk.symm ⟨peer, rfl, hgives⟩
        · refine iff_of_false (Ne.symm hpk) ?_
          rintro ⟨old, hentry, hh⟩
          exact hpk (howner hentry hh)
      · have hindex : (peer.handle.elim (called calls).handleToPubkey
            ((called calls).handleToPubkey.insert · peer.pubkey)).lookup h =
            (called calls).handleToPubkey.lookup h := by
          cases hh : peer.handle with
          | none => rfl
          | some handle =>
            rw [Option.elim_some, lookup_insert_ite, if_neg]
            rintro rfl
            exact hgives hh
        simp only [hindex, hold]
        split_ifs with hpk
        · simp [hgives, hpk, or_comm]
        · simp [hgives, Ne.symm hpk]
    | remove pubkey =>
      rw [called, index_remove, leftBehind_remove, hold, lookup_called, entry]
      split_ifs with hpk
      · subst hpk
        constructor
        · rintro ⟨⟨peer, hentry, hh⟩ | hleft, hno⟩
          · exact absurd ⟨peer, hentry, hh, (entry_eq_some.mp hentry).1⟩ hno
          · exact Or.inr hleft
        · rintro (⟨peer, hentry, -⟩ | hleft)
          · cases hentry
          · refine ⟨Or.inr hleft, ?_⟩
            rintro ⟨peer, hentry, hh, -⟩
            exact hleft.not_entry hentry hh
      · refine and_iff_left ?_
        rintro ⟨peer, hentry, -, rfl⟩
        exact hpk (entry_eq_some.mp hentry).1

theorem mirrors_iff {reg : PeerRegistry} : Mirrors reg ↔ ∀ h pk,
    reg.handleToPubkey.lookup h = some pk ↔
      ∃ peer, reg.byPubkey.lookup pk = some peer ∧ peer.handle = some h :=
  Iff.rfl

/-- After calls in which no handle is used by two keys, the index mirrors the entries exactly if no
handle is left behind. -/
theorem mirrors_called_iff (hone : OneOwner calls) :
    Mirrors (called calls) ↔ ∀ h pk, ¬ LeftBehind h pk calls := by
  simp only [mirrors_iff, index_called hone, lookup_called]
  constructor
  · intro hmirrors h pk hleft
    obtain ⟨peer, hentry, hh⟩ := (hmirrors h pk).mp (Or.inr hleft)
    exact hleft.not_entry hentry hh
  · intro hno h pk
    exact or_iff_left (hno h pk)

end Histories

/-! ## A peer that comes back -/

def registered (handle : Option String) : PeerHandle := ⟨"a", handle, default, "127.0.0.1:9000", 0⟩

/-- It changes its handle while it is offline, and then registers twice. -/
def returns : List Call :=
  [.insert (registered (some "bob")), .insert (registered (some "bob")), .remove "a",
    .insert (registered (some "alice"))]

theorem returns_oneOwner : OneOwner returns := by
  intro p q h hp hq _ _
  simp only [returns, List.mem_cons, Call.insert.injEq, reduceCtorEq, List.not_mem_nil, or_false,
    false_or, or_self_left] at hp hq
  rcases hp with rfl | rfl <;> rcases hq with rfl | rfl <;> rfl

theorem returns_mirrored : Mirrors (called returns) := by
  refine (mirrors_called_iff returns_oneOwner).mpr fun h pk hleft => ?_
  obtain ⟨hbob, hleft | ⟨rfl, old, hentry, hh⟩⟩ := leftBehind_insert.mp hleft
  · obtain ⟨-, hleft | ⟨rfl, old, hentry, -⟩⟩ := leftBehind_insert.mp hleft
    · obtain ⟨-, hleft | ⟨-, old, hentry, -⟩⟩ := leftBehind_insert.mp (leftBehind_remove.mp hleft)
      · exact not_leftBehind_nil hleft
      · cases hentry
    · cases hentry
  · cases hentry
    exact hbob hh

/-- It changes its handle while it is online. -/
def renames : List Call :=
  [.insert (registered (some "bob")), .insert (registered (some "alice"))]

/-- The handle it has given up still resolves to it. -/
theorem renamed_not_mirrored : OneOwner renames ∧ ¬ Mirrors (called renames) := by
  constructor
  · intro p q h hp hq _ _
    simp only [renames, List.mem_cons, Call.insert.injEq, List.not_mem_nil, or_false] at hp hq
    rcases hp with rfl | rfl <;> rcases hq with rfl | rfl <;> rfl
  · intro hmirrors
    have hresolved : ((resolveHandle "alice").eval PeerRegistry.exec (called renames)).1 =
        some "a" := by
      decide
    obtain ⟨peer, hpeer, hhandle⟩ := (hmirrors "alice" "a").mp hresolved
    have hget : ((get "a").eval PeerRegistry.exec (called renames)).1 =
        some (registered (some "bob")) := by
      decide
    obtain rfl := Option.some.inj (hpeer.symm.trans hget)
    exact absurd hhandle (by decide)

end HashedBroker.HandleIndex
