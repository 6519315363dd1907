import HashedBroker.ReactiveTasks

/-!
# Concurrent calls

Every call of a method is a task of its own, so the runs of this machine are all the interleavings of
any number of calls. A history variable records what the operations have done; it also bounds what
the environment may answer, such as a clock that never goes back.
-/
namespace HashedBroker.ReactiveTasks
open AtomicPrograms AtomicPrograms.Prog

variable {Tid Op : Type} {Res : Op → Type} {Env Shared H Request Out Ext : Type}

inductive CallState (Request Out : Type)
  | absent
  | active (request : Request)
  | returned (request : Request) (result : Out)

/-- A shared state and the history of what has happened to it. -/
structure Observed (Shared H : Type) where
  state : Shared
  history : H

namespace Observed

def exec (perform : Tid → (o : Op) → Env → Shared → Option (Res o × Shared))
    (note : Tid → (o : Op) → Env → Res o → H → Option H) (t : Tid) (o : Op) (env : Env)
    (s : Observed Shared H) : Option (Res o × Observed Shared H) :=
  (perform t o env s.state).bind fun x =>
    (note t o env x.1 s.history).map fun history => (x.1, ⟨x.2, history⟩)

theorem exec_eq_some {perform : Tid → (o : Op) → Env → Shared → Option (Res o × Shared)}
    {note : Tid → (o : Op) → Env → Res o → H → Option H} {t : Tid} {o : Op} {env : Env}
    {s s' : Observed Shared H} {r : Res o} (h : exec perform note t o env s = some (r, s')) :
    perform t o env s.state = some (r, s'.state) ∧
      note t o env r s.history = some s'.history := by
  obtain ⟨⟨r', state⟩, hstate, hnote⟩ := Option.bind_eq_some_iff.mp h
  obtain ⟨history, hhistory, heq⟩ := Option.map_eq_some_iff.mp hnote
  cases heq
  exact ⟨hstate, hhistory⟩

end Observed

/-- Any number of calls of a method. -/
def concurrentCalls (perform : Tid → (o : Op) → Env → Shared → Option (Res o × Shared))
    (note : Tid → (o : Op) → Env → Res o → H → Option H) (method : Request → Prog Op Res Out)
    (disturb : Ext → Shared → Option Shared) :
    Machine Tid Op Res Env (Observed Shared H) (CallState Request Out) Request Out Ext where
  exec := Observed.exec perform note
  start _ c request :=
    match c with
    | .absent => some (.active request, method request)
    | _ => none
  finish c result :=
    match c with
    | .active request => .returned request result
    | c => c
  disturb x s := (disturb x s.state).map fun state => ⟨state, s.history⟩

def Config.uncalled (state : Shared) (history : H) :
    Config Tid Op Res (Observed Shared H) (CallState Request Out) Out :=
  ⟨⟨state, history⟩, fun _ => .waiting .absent⟩

/-- The call has been made for a request, and may have returned. -/
def Task.serves (request : Request) :
    Task Op Res (CallState Request Out) Out → Prop
  | .running (.active request') _ => request' = request
  | .waiting (.returned request' _) => request' = request
  | _ => False

def Task.returned (kind : Out → Bool) : Task Op Res (CallState Request Out) Out → Bool
  | .waiting (.returned _ result) => kind result
  | _ => false

section Calls

variable {perform : Tid → (o : Op) → Env → Shared → Option (Res o × Shared)}
  {note : Tid → (o : Op) → Env → Res o → H → Option H} {method : Request → Prog Op Res Out}
  {disturb : Ext → Shared → Option Shared} {state : Shared} {history : H}
  {tr : List (Event Tid Op Res Request Ext)} {e : Event Tid Op Res Request Ext}
  {σ σ' : Config Tid Op Res (Observed Shared H) (CallState Request Out) Out}

theorem concurrentCalls_start {t : Tid} {c c' : CallState Request Out} {request : Request}
    {p : Prog Op Res Out}
    (h : (concurrentCalls perform note method disturb).start t c request = some (c', p)) :
    c = .absent ∧ c' = .active request ∧ p = method request := by
  cases c with
  | absent =>
    cases h
    exact ⟨rfl, rfl, rfl⟩
  | active _ => cases h
  | returned _ _ => cases h

variable [DecidableEq Tid]

theorem Run.active
    (h : Run (concurrentCalls perform note method disturb) (.uncalled state history) tr σ)
    {t : Tid} {c : CallState Request Out} {p : Prog Op Res Out}
    (ht : σ.tasks t = .running c p) : ∃ request, c = .active request := by
  obtain ⟨c₀, i, p₀, hist, hs, -, -⟩ := h.history (fun _ => ⟨.absent, rfl⟩) ht
  obtain ⟨-, rfl, -⟩ := concurrentCalls_start hs
  exact ⟨i, rfl⟩

theorem Task.serves_step (h : Step (concurrentCalls perform note method disturb) σ e σ')
    {t : Tid} {request : Request} (ht : (σ.tasks t).serves request) :
    (σ'.tasks t).serves request := by
  rcases h.cases with ⟨u, i, c, c', p, rfl, hw, hs, rfl⟩ |
    ⟨u, c, o, k, env, r, s', rfl, hu, hx, rfl⟩ | ⟨x, s', rfl, hx, rfl⟩
  · by_cases htu : t = u
    · subst htu
      obtain ⟨rfl, -, -⟩ := concurrentCalls_start hs
      rw [hw] at ht
      exact ht.elim
    · simp only [Function.update_of_ne htu]
      exact ht
  · by_cases htu : t = u
    · subst htu
      simp only [Function.update_self]
      rw [hu] at ht
      cases c with
      | active request' =>
        cases hk : k r with
        | done a => exact ht
        | call o' k' => exact ht
      | absent => exact ht.elim
      | returned _ _ => exact ht.elim
    · simp only [Function.update_of_ne htu]
      exact ht
  · exact ht

end Calls

end HashedBroker.ReactiveTasks
