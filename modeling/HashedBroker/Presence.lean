import HashedBroker.KeyedTables
import HashedBroker.AtomicPrograms

/-!
# Presence subscriptions

`presence.rs`: the two indexes of the subscriptions and the methods that keep them. Each access to
a map is atomic. The entry a method holds in `subscriptions` stays locked until the method returns,
so calls of one subscriber exclude each other there; the accesses to `watchers` are released one by
one.
-/
namespace HashedBroker.Presence
open KeyedTables AtomicPrograms

/-- The sets, and the subscriber whose entry of `subscriptions` a task holds. -/
structure PresenceManager where
  subscriptions : Table String (Finset String)
  watchers : Table String (Finset String)
  held : Table ℕ String

inductive Access
  | entry (subscriber : String)
  | getMut (subscriber : String)
  | insert (subscriber target : String)
  | remove (subscriber target : String)
  | release
  | take (subscriber : String)
  | watch (target subscriber : String)
  | unwatch (target subscriber : String)
  | dropWatchers (target : String)
  | watchers (target : String)

/-- `take` and `watchers` list a set; the order is that of a hash table. `unwatch` says whether
the entry is there and has become empty. -/
abbrev Access.Result : Access → Type
  | getMut _ => Bool
  | take _ => Option (List String)
  | unwatch .. => Bool
  | watchers _ => Option (List String)
  | _ => Unit

/-- The list is an iteration over the set. -/
def Lists (order : List String) (s : Finset String) : Prop := order.Nodup ∧ order.toFinset = s

instance (order : List String) (s : Finset String) : Decidable (Lists order s) :=
  inferInstanceAs (Decidable (_ ∧ _))

namespace PresenceManager

def empty : PresenceManager := ⟨∅, ∅, ∅⟩

def targets (pm : PresenceManager) (subscriber : String) : Finset String :=
  (pm.subscriptions.lookup subscriber).getD ∅

def watching (pm : PresenceManager) (target : String) : Finset String :=
  (pm.watchers.lookup target).getD ∅

def locked (pm : PresenceManager) (t : ℕ) (subscriber : String) : Bool :=
  anyBinding pm.held fun u s => decide (u ≠ t) && decide (s = subscriber)

/-- One access of a task; it is undefined while the entry is locked by another task, and for an
iteration order that does not list the set. -/
def exec (t : ℕ) (order : List String) (pm : PresenceManager) :
    (a : Access) → Option (a.Result × PresenceManager)
  | .entry subscriber =>
    if pm.locked t subscriber then none
    else some ((), { pm with
      subscriptions := pm.subscriptions.insert subscriber (pm.targets subscriber)
      held := pm.held.insert t subscriber })
  | .getMut subscriber =>
    if pm.locked t subscriber then none
    else
      match pm.subscriptions.lookup subscriber with
      | some _ => some (true, { pm with held := pm.held.insert t subscriber })
      | none => some (false, pm)
  | .insert subscriber target => some ((), { pm with
      subscriptions := pm.subscriptions.insert subscriber (insert target (pm.targets subscriber)) })
  | .remove subscriber target => some ((), { pm with
      subscriptions := pm.subscriptions.insert subscriber ((pm.targets subscriber).erase target) })
  | .release => some ((), { pm with held := pm.held.erase t })
  | .take subscriber =>
    if pm.locked t subscriber then none
    else
      match pm.subscriptions.lookup subscriber with
      | some s =>
        if Lists order s then
          some (some order, { pm with subscriptions := pm.subscriptions.erase subscriber })
        else none
      | none => some (none, pm)
  | .watch target subscriber => some ((), { pm with
      watchers := pm.watchers.insert target (insert subscriber (pm.watching target)) })
  | .unwatch target subscriber =>
    match pm.watchers.lookup target with
    | some w =>
      some (decide (w.erase subscriber = ∅), { pm with
        watchers := pm.watchers.insert target (w.erase subscriber) })
    | none => some (false, pm)
  | .dropWatchers target => some ((), { pm with watchers := pm.watchers.erase target })
  | .watchers target =>
    match pm.watchers.lookup target with
    | some w => if Lists order w then some (some order, pm) else none
    | none => some (none, pm)

section Exec

variable {t : ℕ} {order : List String} {pm pm' : PresenceManager} {a : Access} {r : a.Result}

theorem exec_entry {s : String} {r : Unit} (h : exec t order pm (.entry s) = some (r, pm')) :
    pm' = { pm with
      subscriptions := pm.subscriptions.insert s (pm.targets s)
      held := pm.held.insert t s } := by
  simp only [exec] at h
  split_ifs at h
  cases h
  rfl

theorem exec_getMut {s : String} {found : Bool}
    (h : exec t order pm (.getMut s) = some (found, pm')) :
    (found = true ∧ pm' = { pm with held := pm.held.insert t s }) ∨
      found = false ∧ pm.subscriptions.lookup s = none ∧ pm' = pm := by
  simp only [exec] at h
  split_ifs at h
  split at h
  · cases h
    exact Or.inl ⟨rfl, rfl⟩
  · rename_i hnone
    cases h
    exact Or.inr ⟨rfl, hnone, rfl⟩

theorem exec_take {s : String} {taken : Option (List String)}
    (h : exec t order pm (.take s) = some (taken, pm')) :
    (∃ ts, pm.subscriptions.lookup s = some ts ∧ taken = some order ∧ Lists order ts ∧
      pm' = { pm with subscriptions := pm.subscriptions.erase s }) ∨
    pm.subscriptions.lookup s = none ∧ taken = none ∧ pm' = pm := by
  simp only [exec] at h
  split_ifs at h
  split at h
  · rename_i ts hts
    split_ifs at h with hlists
    cases h
    exact Or.inl ⟨ts, hts, rfl, hlists, rfl⟩
  · rename_i hnone
    cases h
    exact Or.inr ⟨hnone, rfl, rfl⟩

theorem exec_unwatch {target s : String} {emptied : Bool}
    (h : exec t order pm (.unwatch target s) = some (emptied, pm')) :
    (∃ ws, pm.watchers.lookup target = some ws ∧ emptied = decide (ws.erase s = ∅) ∧
      pm' = { pm with watchers := pm.watchers.insert target (ws.erase s) }) ∨
    pm.watchers.lookup target = none ∧ emptied = false ∧ pm' = pm := by
  simp only [exec] at h
  split at h
  · rename_i ws hws
    cases h
    exact Or.inl ⟨ws, hws, rfl, rfl⟩
  · rename_i hnone
    cases h
    exact Or.inr ⟨hnone, rfl, rfl⟩

theorem exec_watchers {target : String} {listed : Option (List String)}
    (h : exec t order pm (.watchers target) = some (listed, pm')) : pm' = pm ∧
      ((∃ ws, pm.watchers.lookup target = some ws ∧ listed = some order ∧ Lists order ws) ∨
        pm.watchers.lookup target = none ∧ listed = none) := by
  simp only [exec] at h
  split at h
  · rename_i ws hws
    split_ifs at h with hlists
    cases h
    exact ⟨rfl, Or.inl ⟨ws, hws, rfl, hlists⟩⟩
  · rename_i hnone
    cases h
    exact ⟨rfl, Or.inr ⟨hnone, rfl⟩⟩

theorem targets_insert (pm : PresenceManager) (s s' : String) (ts : Finset String)
    (held : Table ℕ String) :
    targets ⟨pm.subscriptions.insert s ts, pm.watchers, held⟩ s' =
      if s' = s then ts else pm.targets s' := by
  simp only [targets, lookup_insert_ite]
  split_ifs <;> rfl

theorem targets_exec (h : exec t order pm a = some (r, pm')) (s : String) :
    pm'.targets s =
      match a with
      | .insert subscriber target =>
        if s = subscriber then insert target (pm.targets s) else pm.targets s
      | .remove subscriber target =>
        if s = subscriber then (pm.targets s).erase target else pm.targets s
      | .take subscriber => if s = subscriber then ∅ else pm.targets s
      | _ => pm.targets s := by
  cases a with
  | entry subscriber =>
    obtain rfl := exec_entry h
    rw [targets_insert]
    split_ifs with hs
    · rw [hs]
    · rfl
  | getMut subscriber =>
    rcases exec_getMut h with ⟨-, rfl⟩ | ⟨-, -, rfl⟩
    · rfl
    · rfl
  | insert subscriber target =>
    cases h
    simp only [targets_insert]
    split_ifs with hs
    · rw [hs]
    · rfl
  | remove subscriber target =>
    cases h
    simp only [targets_insert]
    split_ifs with hs
    · rw [hs]
    · rfl
  | take subscriber =>
    rcases exec_take h with ⟨ts, -, -, -, rfl⟩ | ⟨hnone, -, rfl⟩
    · simp only [targets, lookup_erase_ite]
      split_ifs <;> rfl
    · simp only
      split_ifs with hs
      · rw [hs, targets, hnone]
        rfl
      · rfl
  | unwatch target subscriber =>
    rcases exec_unwatch h with ⟨ws, -, -, rfl⟩ | ⟨-, -, rfl⟩
    · rfl
    · rfl
  | watchers target =>
    obtain ⟨rfl, -⟩ := exec_watchers h
    rfl
  | _ =>
    cases h
    rfl

theorem watching_insert (pm : PresenceManager) (target target' : String) (ws : Finset String) :
    watching ⟨pm.subscriptions, pm.watchers.insert target ws, pm.held⟩ target' =
      if target' = target then ws else pm.watching target' := by
  simp only [watching, lookup_insert_ite]
  split_ifs <;> rfl

theorem watching_exec (h : exec t order pm a = some (r, pm')) (w : String) :
    pm'.watching w =
      match a with
      | .watch target subscriber =>
        if w = target then insert subscriber (pm.watching w) else pm.watching w
      | .unwatch target subscriber =>
        if w = target then (pm.watching w).erase subscriber else pm.watching w
      | .dropWatchers target => if w = target then ∅ else pm.watching w
      | _ => pm.watching w := by
  cases a with
  | entry subscriber =>
    obtain rfl := exec_entry h
    rfl
  | getMut subscriber =>
    rcases exec_getMut h with ⟨-, rfl⟩ | ⟨-, -, rfl⟩
    · rfl
    · rfl
  | take subscriber =>
    rcases exec_take h with ⟨ts, -, -, -, rfl⟩ | ⟨-, -, rfl⟩
    · rfl
    · rfl
  | watch target subscriber =>
    cases h
    simp only [watching_insert]
    split_ifs with hw
    · rw [hw]
    · rfl
  | unwatch target subscriber =>
    rcases exec_unwatch h with ⟨ws, hws, -, rfl⟩ | ⟨hnone, -, rfl⟩
    · simp only [watching_insert]
      split_ifs with hw
      · rw [hw, watching, hws]
        rfl
      · rfl
    · simp only
      split_ifs with hw
      · rw [hw, watching, hnone]
        rfl
      · rfl
  | dropWatchers target =>
    cases h
    simp only [watching, lookup_erase_ite]
    split_ifs <;> rfl
  | watchers target =>
    obtain ⟨rfl, -⟩ := exec_watchers h
    rfl
  | _ =>
    cases h
    rfl

end Exec

end PresenceManager

/-! ## The methods -/

abbrev Method (α : Type) := Prog Access Access.Result α

def access (a : Access) : Method a.Result := Prog.perform a

def subscribeEach (subscriber : String) : List String → Method Unit
  | [] => pure ()
  | t :: ts => do
    access (.insert subscriber t)
    access (.watch t subscriber)
    subscribeEach subscriber ts

def subscribe (subscriber : String) (targets : List String) : Method Unit := do
  access (.entry subscriber)
  subscribeEach subscriber targets
  access .release

/-- Take the subscriber out of a set of watchers. An emptied set is removed in a second access. -/
def unwatch (subscriber target : String) : Method Unit := do
  if ← access (.unwatch target subscriber) then access (.dropWatchers target)
  else pure ()

def unsubscribeEach (subscriber : String) : List String → Method Unit
  | [] => pure ()
  | t :: ts => do
    access (.remove subscriber t)
    unwatch subscriber t
    unsubscribeEach subscriber ts

def unsubscribe (subscriber : String) (targets : List String) : Method Unit := do
  if ← access (.getMut subscriber) then
    unsubscribeEach subscriber targets
    access .release
  else pure ()

def unwatchEach (subscriber : String) : List String → Method Unit
  | [] => pure ()
  | t :: ts => do
    unwatch subscriber t
    unwatchEach subscriber ts

/-- Drop everything for a disconnecting peer. -/
def clearSubscriber (subscriber : String) : Method Unit := do
  match ← access (.take subscriber) with
  | none => pure ()
  | some targets => unwatchEach subscriber targets

def watchersOf (pubkey : String) : Method (List String) := do
  let watchers ← access (.watchers pubkey)
  pure (watchers.getD [])

end HashedBroker.Presence
