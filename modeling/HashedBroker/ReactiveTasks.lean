import HashedBroker.AtomicPrograms

/-!
# Reactive tasks over a shared state

A machine runs any number of tasks. A task waits for an input, answers it with a program of atomic
operations, and waits again; its control state says what it waits for. One step of the machine
delivers an input to a waiting task, performs the next operation of a running task on the shared
state, or lets the outside world change the shared state. Runs are arbitrary interleavings of these
steps, and the trace of a run lists its events, the newest first.
-/
namespace HashedBroker.ReactiveTasks
open AtomicPrograms AtomicPrograms.Prog

/-- `exec` answers an operation of a task; it is undefined while the operation has to wait. The
environment's share in an answer (a clock, a fresh identifier, a failing device) is its third
argument. -/
structure Machine (Tid Op : Type) (Res : Op → Type) (Env Shared Ctl In Out Ext : Type) where
  exec : Tid → (o : Op) → Env → Shared → Option (Res o × Shared)
  start : Tid → Ctl → In → Option (Ctl × Prog Op Res Out)
  finish : Ctl → Out → Ctl
  disturb : Ext → Shared → Option Shared

inductive Task (Op : Type) (Res : Op → Type) (Ctl Out : Type)
  | waiting (ctl : Ctl)
  | running (ctl : Ctl) (prog : Prog Op Res Out)

def Task.ctl {Op : Type} {Res : Op → Type} {Ctl Out : Type} : Task Op Res Ctl Out → Ctl
  | .waiting c => c
  | .running c _ => c

structure Config (Tid Op : Type) (Res : Op → Type) (Shared Ctl Out : Type) where
  shared : Shared
  tasks : Tid → Task Op Res Ctl Out

inductive Event (Tid Op : Type) (Res : Op → Type) (In Ext : Type)
  | input (tid : Tid) (i : In)
  | performed (tid : Tid) (op : Op) (answer : Res op)
  | disturbed (x : Ext)

inductive Action (Tid Env In Ext : Type)
  | input (tid : Tid) (i : In)
  | perform (tid : Tid) (env : Env)
  | disturb (x : Ext)

variable {Tid Op : Type} {Res : Op → Type} {Env Shared Ctl In Out Ext : Type}

/-- A program that has returned leaves its task waiting. -/
def settle (m : Machine Tid Op Res Env Shared Ctl In Out Ext) (c : Ctl) :
    Prog Op Res Out → Task Op Res Ctl Out
  | .done a => .waiting (m.finish c a)
  | .call o k => .running c (.call o k)

theorem settle_running {m : Machine Tid Op Res Env Shared Ctl In Out Ext} {c c' : Ctl}
    {p q : Prog Op Res Out} (h : settle m c p = .running c' q) : c' = c ∧ q = p := by
  cases p with
  | done a => cases h
  | call o k => cases h; exact ⟨rfl, rfl⟩

theorem settle_waiting {m : Machine Tid Op Res Env Shared Ctl In Out Ext} {c c' : Ctl}
    {p : Prog Op Res Out} (h : settle m c p = .waiting c') :
    ∃ a, p = .done a ∧ c' = m.finish c a := by
  cases p with
  | done a => cases h; exact ⟨a, rfl, rfl⟩
  | call o k => cases h

variable [DecidableEq Tid]

def act (m : Machine Tid Op Res Env Shared Ctl In Out Ext) (σ : Config Tid Op Res Shared Ctl Out) :
    Action Tid Env In Ext → Option (Event Tid Op Res In Ext × Config Tid Op Res Shared Ctl Out)
  | .input t i =>
    match σ.tasks t with
    | .waiting c =>
      (m.start t c i).map fun x =>
        (.input t i, ⟨σ.shared, Function.update σ.tasks t (settle m x.1 x.2)⟩)
    | .running _ _ => none
  | .perform t env =>
    match σ.tasks t with
    | .running c (.call o k) =>
      (m.exec t o env σ.shared).map fun x =>
        (.performed t o x.1, ⟨x.2, Function.update σ.tasks t (settle m c (k x.1))⟩)
    | _ => none
  | .disturb x => (m.disturb x σ.shared).map fun s => (.disturbed x, ⟨s, σ.tasks⟩)

def Step (m : Machine Tid Op Res Env Shared Ctl In Out Ext) (σ : Config Tid Op Res Shared Ctl Out)
    (e : Event Tid Op Res In Ext) (σ' : Config Tid Op Res Shared Ctl Out) : Prop :=
  ∃ a, act m σ a = some (e, σ')

inductive Run (m : Machine Tid Op Res Env Shared Ctl In Out Ext)
    (σ₀ : Config Tid Op Res Shared Ctl Out) :
    List (Event Tid Op Res In Ext) → Config Tid Op Res Shared Ctl Out → Prop
  | start : Run m σ₀ [] σ₀
  | step {tr : List (Event Tid Op Res In Ext)} {σ σ' : Config Tid Op Res Shared Ctl Out}
      {e : Event Tid Op Res In Ext} (prior : Run m σ₀ tr σ) (next : Step m σ e σ') :
      Run m σ₀ (e :: tr) σ'

variable {m : Machine Tid Op Res Env Shared Ctl In Out Ext}
  {σ σ' σ₀ : Config Tid Op Res Shared Ctl Out} {e : Event Tid Op Res In Ext}
  {tr : List (Event Tid Op Res In Ext)}

theorem Step.cases (h : Step m σ e σ') :
    (∃ t i c c' p, e = .input t i ∧ σ.tasks t = .waiting c ∧ m.start t c i = some (c', p) ∧
      σ' = ⟨σ.shared, Function.update σ.tasks t (settle m c' p)⟩) ∨
    (∃ t c o k env r s', e = .performed t o r ∧ σ.tasks t = .running c (.call o k) ∧
      m.exec t o env σ.shared = some (r, s') ∧
      σ' = ⟨s', Function.update σ.tasks t (settle m c (k r))⟩) ∨
    (∃ x s', e = .disturbed x ∧ m.disturb x σ.shared = some s' ∧ σ' = ⟨s', σ.tasks⟩) := by
  obtain ⟨a, h⟩ := h
  cases a with
  | input t i =>
    simp only [act] at h
    split at h
    · rename_i c ht
      obtain ⟨⟨c', p⟩, hs, heq⟩ := Option.map_eq_some_iff.mp h
      cases heq
      exact Or.inl ⟨t, i, c, c', p, rfl, ht, hs, rfl⟩
    · cases h
  | perform t env =>
    simp only [act] at h
    split at h
    · rename_i c o k ht
      obtain ⟨⟨r, s'⟩, hx, heq⟩ := Option.map_eq_some_iff.mp h
      cases heq
      exact Or.inr (Or.inl ⟨t, c, o, k, env, r, s', rfl, ht, hx, rfl⟩)
    · cases h
  | disturb x =>
    obtain ⟨s', hx, heq⟩ := Option.map_eq_some_iff.mp h
    cases heq
    exact Or.inr (Or.inr ⟨x, s', rfl, hx, rfl⟩)

theorem act_perform {t : Tid} {c : Ctl} {o : Op} {k : Res o → Prog Op Res Out} {env : Env}
    {r : Res o} {s' : Shared} (ht : σ.tasks t = .running c (.call o k))
    (hx : m.exec t o env σ.shared = some (r, s')) :
    act m σ (.perform t env) =
      some (.performed t o r, ⟨s', Function.update σ.tasks t (settle m c (k r))⟩) := by
  simp only [act, ht, hx, Option.map_some]

def runActions (m : Machine Tid Op Res Env Shared Ctl In Out Ext) :
    List (Action Tid Env In Ext) → List (Event Tid Op Res In Ext) →
    Config Tid Op Res Shared Ctl Out →
    Option (List (Event Tid Op Res In Ext) × Config Tid Op Res Shared Ctl Out)
  | [], tr, σ => some (tr, σ)
  | a :: as, tr, σ => (act m σ a).bind fun x => runActions m as (x.1 :: tr) x.2

theorem run_of_runActions {as : List (Action Tid Env In Ext)}
    {tr tr' : List (Event Tid Op Res In Ext)} (h : Run m σ₀ tr σ)
    (ha : runActions m as tr σ = some (tr', σ')) : Run m σ₀ tr' σ' := by
  induction as generalizing tr σ with
  | nil => cases ha; exact h
  | cons a as ih =>
    obtain ⟨⟨e, σ₁⟩, h₁, h₂⟩ := Option.bind_eq_some_iff.mp ha
    exact ih (.step h ⟨a, h₁⟩) h₂

/-- A property of the trace and the configuration that every step keeps holds along every run. -/
theorem Run.induct {I : List (Event Tid Op Res In Ext) → Config Tid Op Res Shared Ctl Out → Prop}
    (h : Run m σ₀ tr σ) (start : I [] σ₀)
    (step : ∀ {tr σ e σ'}, Run m σ₀ tr σ → I tr σ → Step m σ e σ' → I (e :: tr) σ') : I tr σ := by
  induction h with
  | start => exact start
  | step prior next ih => exact step prior ih next

/-- A run can be cut before any of its events. -/
theorem Run.split {tr₁ tr₂ : List (Event Tid Op Res In Ext)}
    (h : Run m σ₀ (tr₂ ++ e :: tr₁) σ) :
    ∃ σ₁ σ₂, Run m σ₀ tr₁ σ₁ ∧ Step m σ₁ e σ₂ ∧ Run m σ₂ tr₂ σ := by
  induction tr₂ generalizing σ with
  | nil =>
    cases h with
    | step prior next => exact ⟨_, _, prior, next, .start⟩
  | cons e' tr₂ ih =>
    cases h with
    | step prior next =>
      obtain ⟨σ₁, σ₂, h₁, hs, h₂⟩ := ih prior
      exact ⟨σ₁, σ₂, h₁, hs, .step h₂ next⟩

/-- A condition on a step: on what has happened, the configuration it starts from and its event. -/
abbrev Guard (Tid Op : Type) (Res : Op → Type) (Shared Ctl In Out Ext : Type) :=
  List (Event Tid Op Res In Ext) → Config Tid Op Res Shared Ctl Out →
    Event Tid Op Res In Ext → Prop

/-- The runs each step of which meets a condition. -/
inductive GuardedRun (m : Machine Tid Op Res Env Shared Ctl In Out Ext)
    (C : Guard Tid Op Res Shared Ctl In Out Ext) (σ₀ : Config Tid Op Res Shared Ctl Out) :
    List (Event Tid Op Res In Ext) → Config Tid Op Res Shared Ctl Out → Prop
  | start : GuardedRun m C σ₀ [] σ₀
  | step {tr : List (Event Tid Op Res In Ext)} {σ σ' : Config Tid Op Res Shared Ctl Out}
      {e : Event Tid Op Res In Ext} (prior : GuardedRun m C σ₀ tr σ) (next : Step m σ e σ')
      (guard : C tr σ e) : GuardedRun m C σ₀ (e :: tr) σ'

variable {C : Guard Tid Op Res Shared Ctl In Out Ext}

theorem GuardedRun.run (h : GuardedRun m C σ₀ tr σ) : Run m σ₀ tr σ := by
  induction h with
  | start => exact .start
  | step _ next _ ih => exact .step ih next

theorem Run.guarded (h : Run m σ₀ tr σ) : GuardedRun m (fun _ _ _ => True) σ₀ tr σ := by
  induction h with
  | start => exact .start
  | step _ next ih => exact .step ih next trivial

theorem GuardedRun.cut {tr₁ tr₂ : List (Event Tid Op Res In Ext)}
    (h : GuardedRun m C σ₀ (tr₂ ++ e :: tr₁) σ) :
    ∃ σ₁ σ₂, GuardedRun m C σ₀ tr₁ σ₁ ∧ Step m σ₁ e σ₂ ∧ C tr₁ σ₁ e ∧ Run m σ₂ tr₂ σ := by
  induction tr₂ generalizing σ with
  | nil =>
    cases h with
    | step prior next guard => exact ⟨_, _, prior, next, guard, .start⟩
  | cons e' tr₂ ih =>
    cases h with
    | step prior next _ =>
      obtain ⟨σ₁, σ₂, h₁, hstep, hguard, h₂⟩ := ih prior
      exact ⟨σ₁, σ₂, h₁, hstep, hguard, .step h₂ next⟩

theorem GuardedRun.split {tr₁ tr₂ : List (Event Tid Op Res In Ext)}
    (h : GuardedRun m C σ₀ (tr₂ ++ e :: tr₁) σ) :
    ∃ σ₁ σ₂, GuardedRun m C σ₀ tr₁ σ₁ ∧ Step m σ₁ e σ₂ ∧ C tr₁ σ₁ e := by
  obtain ⟨σ₁, σ₂, h₁, hstep, hguard, -⟩ := h.cut
  exact ⟨σ₁, σ₂, h₁, hstep, hguard⟩

theorem GuardedRun.weaken {C' : Guard Tid Op Res Shared Ctl In Out Ext}
    (h : GuardedRun m C σ₀ tr σ)
    (hC : ∀ {tr σ e σ'}, GuardedRun m C σ₀ tr σ → Step m σ e σ' → C tr σ e → C' tr σ e) :
    GuardedRun m C' σ₀ tr σ := by
  induction h with
  | start => exact .start
  | step prior next guard ih => exact .step ih next (hC prior next guard)

def runGuarded (m : Machine Tid Op Res Env Shared Ctl In Out Ext)
    (test : List (Event Tid Op Res In Ext) → Config Tid Op Res Shared Ctl Out →
      Event Tid Op Res In Ext → Bool) :
    List (Action Tid Env In Ext) → List (Event Tid Op Res In Ext) →
    Config Tid Op Res Shared Ctl Out →
    Option (List (Event Tid Op Res In Ext) × Config Tid Op Res Shared Ctl Out)
  | [], tr, σ => some (tr, σ)
  | a :: as, tr, σ => (act m σ a).bind fun x =>
    if test tr σ x.1 then runGuarded m test as (x.1 :: tr) x.2 else none

theorem guardedRun_of_runGuarded
    {test : List (Event Tid Op Res In Ext) → Config Tid Op Res Shared Ctl Out →
      Event Tid Op Res In Ext → Bool}
    (hC : ∀ tr σ e, test tr σ e = true → C tr σ e) {as : List (Action Tid Env In Ext)}
    {tr tr' : List (Event Tid Op Res In Ext)} (h : GuardedRun m C σ₀ tr σ)
    (ha : runGuarded m test as tr σ = some (tr', σ')) : GuardedRun m C σ₀ tr' σ' := by
  induction as generalizing tr σ with
  | nil => cases ha; exact h
  | cons a as ih =>
    obtain ⟨⟨e, σ₁⟩, h₁, h₂⟩ := Option.bind_eq_some_iff.mp ha
    split_ifs at h₂ with ht
    exact ih (.step h ⟨a, h₁⟩ (hC _ _ _ ht)) h₂

theorem GuardedRun.invariant
    {I : List (Event Tid Op Res In Ext) → Config Tid Op Res Shared Ctl Out → Prop}
    (h : GuardedRun m C σ₀ tr σ) (start : I [] σ₀)
    (step : ∀ {tr σ e σ'}, GuardedRun m C σ₀ tr σ → I tr σ → Step m σ e σ' → C tr σ e →
      I (e :: tr) σ') : I tr σ := by
  induction h with
  | start => exact start
  | step prior next guard ih => exact step prior ih next guard

/-- The rule of local states: when a view of the trace and the shared state is driven by the
operations of one task alone, that task's program follows it. -/
theorem GuardedRun.follows {L : Type} (h : GuardedRun m C σ₀ tr σ)
    (view : Tid → List (Event Tid Op Res In Ext) → Shared → L)
    (next : L → (o : Op) → Res o → L) (ok : Tid → Ctl → L → Op → Prop) (rest : Tid → Ctl → L → Prop)
    (h₀ : ∀ t, ∃ c, σ₀.tasks t = .waiting c ∧ rest t c (view t [] σ₀.shared))
    (hstart : ∀ t c i c' p l, m.start t c i = some (c', p) → rest t c l →
      p.Follows next (ok t c') (fun l a => rest t (m.finish c' a) l) l)
    (hinput : ∀ t u i tr s, view t (.input u i :: tr) s = view t tr s)
    (hown : ∀ tr σ t c o env r s', GuardedRun m C σ₀ tr σ → C tr σ (.performed t o r) →
      m.exec t o env σ.shared = some (r, s') → ok t c (view t tr σ.shared) o →
      view t (.performed t o r :: tr) s' = next (view t tr σ.shared) o r)
    (hother : ∀ tr σ t u c o env r s', C tr σ (.performed t o r) →
      m.exec t o env σ.shared = some (r, s') → ok t c (view t tr σ.shared) o → u ≠ t →
      view u (.performed t o r :: tr) s' = view u tr σ.shared)
    (hdisturb : ∀ x tr s s', m.disturb x s = some s' → ∀ t,
      view t (.disturbed x :: tr) s' = view t tr s) :
    (∀ t c, σ.tasks t = .waiting c → rest t c (view t tr σ.shared)) ∧
      ∀ t c p, σ.tasks t = .running c p →
        p.Follows next (ok t c) (fun l a => rest t (m.finish c a) l) (view t tr σ.shared) := by
  -- a program that has returned leaves the task waiting with what it guarantees at the end
  have hsettle : ∀ {t c p l}, p.Follows next (ok t c) (fun l a => rest t (m.finish c a) l) l →
      (∀ c', settle m c p = .waiting c' → rest t c' l) ∧
        ∀ c' q, settle m c p = .running c' q →
          q.Follows next (ok t c') (fun l a => rest t (m.finish c' a) l) l := by
    intro t c p l hp
    constructor
    · intro c' hw
      obtain ⟨a, rfl, rfl⟩ := settle_waiting hw
      exact hp
    · intro c' q hr
      obtain ⟨rfl, rfl⟩ := settle_running hr
      exact hp
  induction h with
  | start =>
    constructor
    · intro t c ht
      obtain ⟨c', hc', hr⟩ := h₀ t
      rw [hc'] at ht
      cases ht
      exact hr
    · intro t c p ht
      obtain ⟨c', hc', -⟩ := h₀ t
      rw [hc'] at ht
      cases ht
  | step prior next' guard ih =>
    obtain ⟨ihw, ihr⟩ := ih
    rcases next'.cases with ⟨u, i, c₀, c', q, rfl, hw, hs, rfl⟩ |
      ⟨u, c', o, k, env, r, s', rfl, hu, hx, rfl⟩ | ⟨x, s', rfl, hx, rfl⟩
    · have hq := hsettle (hstart _ _ _ _ _ _ hs (ihw u c₀ hw))
      simp only [hinput]
      constructor
      · intro t c ht
        by_cases htu : t = u
        · subst htu
          exact hq.1 c (by simpa using ht)
        · exact ihw t c (by simpa [htu] using ht)
      · intro t c p ht
        by_cases htu : t = u
        · subst htu
          exact hq.2 c p (by simpa using ht)
        · exact ihr t c p (by simpa [htu] using ht)
    · have hf := ihr u c' _ hu
      have hq := hsettle (hf.2 r)
      rw [← hown _ _ _ _ _ _ _ _ prior guard hx hf.1] at hq
      constructor
      · intro t c ht
        by_cases htu : t = u
        · subst htu
          exact hq.1 c (by simpa using ht)
        · rw [hother _ _ u t c' o env r s' guard hx hf.1 htu]
          exact ihw t c (by simpa [htu] using ht)
      · intro t c p ht
        by_cases htu : t = u
        · subst htu
          exact hq.2 c p (by simpa using ht)
        · rw [hother _ _ u t c' o env r s' guard hx hf.1 htu]
          exact ihr t c p (by simpa [htu] using ht)
    · constructor
      · intro t c ht
        rw [hdisturb x _ _ s' hx]
        exact ihw t c ht
      · intro t c p ht
        rw [hdisturb x _ _ s' hx]
        exact ihr t c p ht

theorem Run.follows {L : Type} (h : Run m σ₀ tr σ)
    (view : Tid → List (Event Tid Op Res In Ext) → Shared → L)
    (next : L → (o : Op) → Res o → L) (ok : Tid → Ctl → L → Op → Prop) (rest : Tid → Ctl → L → Prop)
    (h₀ : ∀ t, ∃ c, σ₀.tasks t = .waiting c ∧ rest t c (view t [] σ₀.shared))
    (hstart : ∀ t c i c' p l, m.start t c i = some (c', p) → rest t c l →
      p.Follows next (ok t c') (fun l a => rest t (m.finish c' a) l) l)
    (hinput : ∀ t u i tr s, view t (.input u i :: tr) s = view t tr s)
    (hown : ∀ tr σ t c o env r s', Run m σ₀ tr σ → m.exec t o env σ.shared = some (r, s') →
      ok t c (view t tr σ.shared) o →
      view t (.performed t o r :: tr) s' = next (view t tr σ.shared) o r)
    (hother : ∀ t u o env tr s r s', m.exec t o env s = some (r, s') → u ≠ t →
      view u (.performed t o r :: tr) s' = view u tr s)
    (hdisturb : ∀ x tr s s', m.disturb x s = some s' → ∀ t,
      view t (.disturbed x :: tr) s' = view t tr s) :
    (∀ t c, σ.tasks t = .waiting c → rest t c (view t tr σ.shared)) ∧
      ∀ t c p, σ.tasks t = .running c p →
        p.Follows next (ok t c) (fun l a => rest t (m.finish c a) l) (view t tr σ.shared) :=
  h.guarded.follows view next ok rest h₀ hstart hinput
    (fun _ _ _ _ _ _ _ _ hrun _ hx hok => hown _ _ _ _ _ _ _ _ hrun.run hx hok)
    (fun _ _ _ _ _ _ _ _ _ _ hx _ hu => hother _ _ _ _ _ _ _ _ hx hu) hdisturb

/-- What the operations of a task in the trace make of a local state. -/
def localState {L : Type} (next : L → (o : Op) → Res o → L) (l₀ : L) (t : Tid) :
    List (Event Tid Op Res In Ext) → L
  | [] => l₀
  | .performed u o r :: tr =>
    if u = t then next (localState next l₀ t tr) o r else localState next l₀ t tr
  | _ :: tr => localState next l₀ t tr

theorem localState_performed_self {L : Type} (next : L → (o : Op) → Res o → L) (l₀ : L) (t : Tid)
    (o : Op) (r : Res o) (tr : List (Event Tid Op Res In Ext)) :
    localState next l₀ t (.performed t o r :: tr) = next (localState next l₀ t tr) o r := by
  simp only [localState, if_true]

theorem localState_performed_of_ne {L : Type} {next : L → (o : Op) → Res o → L} {l₀ : L}
    {t u : Tid} (hut : u ≠ t) (o : Op) (r : Res o) (tr : List (Event Tid Op Res In Ext)) :
    localState next l₀ u (.performed t o r :: tr) = localState next l₀ u tr := by
  simp only [localState, if_neg (Ne.symm hut)]

/-- Programs follow the local state that the trace records. -/
theorem Run.tracks {L : Type} (h : Run m σ₀ tr σ) (next : L → (o : Op) → Res o → L) (l₀ : L)
    (ok : Tid → Ctl → L → Op → Prop) (rest : Tid → Ctl → L → Prop)
    (h₀ : ∀ t, ∃ c, σ₀.tasks t = .waiting c ∧ rest t c l₀)
    (hstart : ∀ t c i c' p l, m.start t c i = some (c', p) → rest t c l →
      p.Follows next (ok t c') (fun l a => rest t (m.finish c' a) l) l) :
    (∀ t c, σ.tasks t = .waiting c → rest t c (localState next l₀ t tr)) ∧
      ∀ t c p, σ.tasks t = .running c p →
        p.Follows next (ok t c) (fun l a => rest t (m.finish c a) l) (localState next l₀ t tr) := by
  refine h.follows (fun t tr _ => localState next l₀ t tr) next ok rest h₀ hstart ?_ ?_ ?_ ?_
  · intro t u i tr s
    rfl
  · intro tr σ t c o env r s' _ _ _
    exact localState_performed_self next l₀ t o r tr
  · intro t u o env tr s r s' _ hu
    exact localState_performed_of_ne hu o r tr
  · intro x tr s s' _ t
    rfl

/-- No task is in the middle of a program. -/
def Idle (σ : Config Tid Op Res Shared Ctl Out) : Prop := ∀ t, ∃ c, σ.tasks t = .waiting c

/-- The rule of ghost states: each running task has a local state of its own that its operations
drive and that carries a fact about the shared state. The task's own steps establish the next fact
and keep `J`; the steps of the others must not break it. -/
theorem GuardedRun.relyGuarantee {L : Type}
    (next : L → (o : Op) → Res o → L) (ok : Ctl → L → Op → Prop)
    (Fact : Tid → Ctl → L → Shared → Prop) (J : Shared → Prop)
    (h : GuardedRun m C σ₀ tr σ) (h₀ : Idle σ₀) (hJ₀ : J σ₀.shared)
    (hstart : ∀ t c i c' p s, m.start t c i = some (c', p) → J s →
      ∃ l, p.Follows next (ok c') (fun _ _ => True) l ∧ Fact t c' l s)
    (hstep : ∀ tr σ t c l o k env r s', C tr σ (.performed t o r) →
      σ.tasks t = .running c (.call o k) → m.exec t o env σ.shared = some (r, s') → J σ.shared →
      Fact t c l σ.shared → ok c l o → J s' ∧ Fact t c (next l o r) s')
    (hrely : ∀ t u o env s r s' c l, m.exec t o env s = some (r, s') → u ≠ t → Fact u c l s →
      Fact u c l s')
    (hdisturb : ∀ x s s', m.disturb x s = some s' →
      (J s → J s') ∧ ∀ t c l, Fact t c l s → Fact t c l s') :
    J σ.shared ∧ ∀ t c p, σ.tasks t = .running c p →
      ∃ l, p.Follows next (ok c) (fun _ _ => True) l ∧ Fact t c l σ.shared := by
  induction h with
  | start =>
    refine ⟨hJ₀, fun t c p ht => ?_⟩
    obtain ⟨c', hc'⟩ := h₀ t
    rw [hc'] at ht
    cases ht
  | @step tr σ σ' e prior next' guard ih =>
    obtain ⟨hJ, ihr⟩ := ih
    rcases next'.cases with ⟨u, i, c₀, c', q, rfl, hw, hs, rfl⟩ |
      ⟨u, c', o, k, env, r, s', rfl, hu, hx, rfl⟩ | ⟨x, s', rfl, hx, rfl⟩
    · refine ⟨hJ, fun t c p ht => ?_⟩
      by_cases htu : t = u
      · subst htu
        simp only [Function.update_self] at ht
        obtain ⟨rfl, rfl⟩ := settle_running ht
        exact hstart _ _ _ _ _ _ hs hJ
      · exact ihr t c p (by simpa [htu] using ht)
    · obtain ⟨l, hf, hfact⟩ := ihr u c' _ hu
      obtain ⟨hJ', hfact'⟩ := hstep tr σ u c' l o k env r s' guard hu hx hJ hfact hf.1
      refine ⟨hJ', fun t c p ht => ?_⟩
      by_cases htu : t = u
      · subst htu
        simp only [Function.update_self] at ht
        obtain ⟨rfl, rfl⟩ := settle_running ht
        exact ⟨next l o r, hf.2 r, hfact'⟩
      · obtain ⟨l', hf', hl'⟩ := ihr t c p (by simpa [htu] using ht)
        exact ⟨l', hf', hrely u t o env _ r s' c l' hx htu hl'⟩
    · obtain ⟨hJx, hfx⟩ := hdisturb x _ s' hx
      refine ⟨hJx hJ, fun t c p ht => ?_⟩
      obtain ⟨l, hf, hl⟩ := ihr t c p ht
      exact ⟨l, hf, hfx t c l hl⟩

theorem Run.running_call (h : Run m σ₀ tr σ) (h₀ : Idle σ₀) {t : Tid} {c : Ctl}
    {p : Prog Op Res Out} (ht : σ.tasks t = .running c p) : ∃ o k, p = .call o k := by
  have hsettle : ∀ {c c' : Ctl} {p q : Prog Op Res Out}, settle m c p = .running c' q →
      ∃ o k, q = .call o k := by
    intro c c' p q hq
    obtain ⟨-, rfl⟩ := settle_running hq
    cases q with
    | done a => cases hq
    | call o k => exact ⟨o, k, rfl⟩
  induction h with
  | start =>
    obtain ⟨c', hc'⟩ := h₀ t
    rw [hc'] at ht
    cases ht
  | step prior next ih =>
    rcases next.cases with ⟨u, i, c₀, c', q, rfl, hw, hs, rfl⟩ |
      ⟨u, c', o, k, env, r, s', rfl, hu, hx, rfl⟩ | ⟨x, s', rfl, hx, rfl⟩
    · by_cases htu : t = u
      · subst htu
        exact hsettle (by simpa using ht)
      · exact ih (by simpa [htu] using ht)
    · by_cases htu : t = u
      · subst htu
        exact hsettle (by simpa using ht)
      · exact ih (by simpa [htu] using ht)
    · exact ih ht

def performedBy (t : Tid) (h : History Op Res) : List (Event Tid Op Res In Ext) :=
  h.map fun x => .performed t x.1 x.2

/-- What a running task has done since its input, and that it stands in the trace in this order. -/
theorem Run.history (h : Run m σ₀ tr σ) (h₀ : Idle σ₀) {t : Tid} {c : Ctl}
    {p : Prog Op Res Out} (ht : σ.tasks t = .running c p) :
    ∃ c₀ i p₀ hist, m.start t c₀ i = some (c, p₀) ∧ After p₀ hist p ∧
      (performedBy t hist ++ [Event.input t i]).Sublist tr := by
  induction h generalizing c p with
  | start =>
    obtain ⟨c', hc'⟩ := h₀ t
    rw [hc'] at ht
    cases ht
  | @step tr σ σ' e prior next ih =>
    -- a step of another task leaves this one where it was
    have hold : σ'.tasks t = σ.tasks t → ∃ c₀ i p₀ hist, m.start t c₀ i = some (c, p₀) ∧
        After p₀ hist p ∧
        (performedBy t hist ++ [Event.input t i]).Sublist (e :: tr) := by
      intro heq
      obtain ⟨c₀, i, p₀, hist, hs, ha, hsub⟩ := ih (heq ▸ ht)
      exact ⟨c₀, i, p₀, hist, hs, ha, hsub.cons e⟩
    rcases next.cases with ⟨u, i, c₀, c', q, rfl, hw, hs, rfl⟩ |
      ⟨u, c', o, k, env, r, s', rfl, hu, hx, rfl⟩ | ⟨x, s', rfl, hx, rfl⟩
    · by_cases hut : t = u
      · subst hut
        simp only [Function.update_self] at ht
        obtain ⟨rfl, rfl⟩ := settle_running ht
        exact ⟨c₀, i, p, [], hs, .start, by simp [performedBy]⟩
      · exact hold (Function.update_of_ne hut _ _)
    · by_cases hut : t = u
      · subst hut
        simp only [Function.update_self] at ht
        obtain ⟨rfl, rfl⟩ := settle_running ht
        obtain ⟨c₀, i, p₀, hist, hs, ha, hsub⟩ := ih hu
        exact ⟨c₀, i, p₀, ⟨o, r⟩ :: hist, hs, ha.answer r, hsub.cons_cons _⟩
      · exact hold (Function.update_of_ne hut _ _)
    · exact hold rfl

/-- What `start` guarantees of every program, a running task keeps to its end. -/
theorem Run.always {Q : Tid → Ctl → Op → Prop} (h : Run m σ₀ tr σ) (h₀ : Idle σ₀)
    (hQ : ∀ t c i c' p, m.start t c i = some (c', p) → p.Always (Q t c')) {t : Tid} {c : Ctl}
    {p : Prog Op Res Out} (ht : σ.tasks t = .running c p) : p.Always (Q t c) := by
  obtain ⟨c₀, i, p₀, hist, hs, ha, -⟩ := h.history h₀ ht
  exact ((hQ _ _ _ _ _ hs).of_after ha).1

/-- Each operation a task performs is justified by the answers it received since its input, and
those answers stand in the trace. -/
theorem Run.justified {J : Tid → Ctl → History Op Res → Op → Prop} (h : Run m σ₀ tr σ)
    (h₀ : Idle σ₀) (hJ : ∀ t c i c' p, m.start t c i = some (c', p) → p.Justified (J t c') [])
    {t : Tid} {c : Ctl} {o : Op} {k : Res o → Prog Op Res Out}
    (ht : σ.tasks t = .running c (.call o k)) :
    ∃ hist, J t c hist o ∧
      (performedBy t hist : List (Event Tid Op Res In Ext)).Sublist tr := by
  obtain ⟨c₀, i, p₀, hist, hs, ha, hsub⟩ := h.history h₀ ht
  exact ⟨hist, ((hJ _ _ _ _ _ hs).after ha).1, (List.sublist_append_left _ _).trans hsub⟩

/-- The rule of remembered answers: an answer establishes a fact about the shared state and the rest
of its program, and what is done afterwards keeps it. -/
theorem GuardedRun.remembers {F : (o : Op) → Res o → Prog Op Res Out → Shared → Prop}
    (h : GuardedRun m C σ₀ tr σ) (h₀ : Idle σ₀)
    (hlearn : ∀ {tr σ t c o k env r s'}, C tr σ (.performed t o r) →
      σ.tasks t = .running c (.call o k) → m.exec t o env σ.shared = some (r, s') →
      F o r (k r) s')
    (hnext : ∀ {o r o' k} r' {s}, F o r (.call o' k) s → F o r (k r') s)
    (hexec : ∀ {u o r p o' env r' s s'}, m.exec u o' env s = some (r', s') → F o r p s →
      F o r p s')
    (hdisturb : ∀ {o r p x s s'}, m.disturb x s = some s' → F o r p s → F o r p s')
    {t : Tid} {c : Ctl} {p : Prog Op Res Out} (ht : σ.tasks t = .running c p) :
    ∃ c₀ i p₀ hist, m.start t c₀ i = some (c, p₀) ∧ After p₀ hist p ∧
      ∀ x ∈ hist, F x.1 x.2 p σ.shared := by
  induction h generalizing t c p with
  | start =>
    obtain ⟨c', hc'⟩ := h₀ t
    rw [hc'] at ht
    cases ht
  | @step tr σ σ' e prior next guard ih =>
    rcases next.cases with ⟨u, i, c₀, c', q, rfl, hw, hs, rfl⟩ |
      ⟨u, c', o, k, env, r, s', rfl, hu, hx, rfl⟩ | ⟨x, s', rfl, hx, rfl⟩
    · by_cases hut : t = u
      · subst hut
        simp only [Function.update_self] at ht
        obtain ⟨rfl, rfl⟩ := settle_running ht
        exact ⟨c₀, i, p, [], hs, .start, fun x hx => absurd hx List.not_mem_nil⟩
      · exact ih ((Function.update_of_ne hut _ _).symm.trans ht)
    · by_cases hut : t = u
      · subst hut
        simp only [Function.update_self] at ht
        obtain ⟨rfl, rfl⟩ := settle_running ht
        obtain ⟨c₀, i, p₀, hist, hs, ha, hfacts⟩ := ih hu
        refine ⟨c₀, i, p₀, ⟨o, r⟩ :: hist, hs, ha.answer r, fun x hmem => ?_⟩
        rcases List.mem_cons.mp hmem with rfl | hmem
        · exact hlearn guard hu hx
        · exact hnext r (hexec hx (hfacts x hmem))
      · obtain ⟨c₀, i, p₀, hist, hs, ha, hfacts⟩ :=
          ih ((Function.update_of_ne hut _ _).symm.trans ht)
        exact ⟨c₀, i, p₀, hist, hs, ha, fun y hy => hexec hx (hfacts y hy)⟩
    · obtain ⟨c₀, i, p₀, hist, hs, ha, hfacts⟩ := ih ht
      exact ⟨c₀, i, p₀, hist, hs, ha, fun y hy => hdisturb hx (hfacts y hy)⟩

/-- What the programs of `start` owe, a running task's program owes. -/
theorem Run.owes {D : Tid → Op → ((o : Op) → Res o → Prop) → (Op → Prop) → Prop}
    (h : Run m σ₀ tr σ) (h₀ : Idle σ₀)
    (hD : ∀ t c i c' p, m.start t c i = some (c', p) → p.Owes (D t)) {t : Tid} {c : Ctl}
    {p : Prog Op Res Out} (ht : σ.tasks t = .running c p) : p.Owes (D t) := by
  obtain ⟨c₀, i, p₀, hist, hs, ha, -⟩ := h.history h₀ ht
  exact (hD _ _ _ _ _ hs).after ha

/-- The task is running and bound to come to an operation in `G`. -/
def BoundTo (σ : Config Tid Op Res Shared Ctl Out) (t : Tid) (c : Ctl)
    (A : (o : Op) → Res o → Prop) (G : Op → Prop) : Prop :=
  ∃ p, σ.tasks t = .running c p ∧ p.Must A G

section BoundTo

variable {t : Tid} {c : Ctl} {A : (o : Op) → Res o → Prop} {G : Op → Prop}

omit [DecidableEq Tid] in
theorem Idle.not_boundTo (h : Idle σ) : ¬ BoundTo σ t c A G := by
  rintro ⟨p, ht, -⟩
  obtain ⟨c', hc'⟩ := h t
  rw [hc'] at ht
  cases ht

omit [DecidableEq Tid] in
theorem settle_must {p : Prog Op Res Out} (hp : p.Must A G) : settle m c p = .running c p := by
  cases p with
  | done a => exact hp.elim
  | call o k => rfl

/-- A task stays bound, until it performs the operation or gets an answer that is not allowed. -/
theorem BoundTo.step (h : BoundTo σ t c A G) (hs : Step m σ e σ')
    (he : ∀ o r, e = .performed t o r → ¬ G o ∧ A o r) : BoundTo σ' t c A G := by
  obtain ⟨p, ht, hp⟩ := h
  rcases hs.cases with ⟨u, i, c₀, c', q, rfl, hw, hs, rfl⟩ |
    ⟨u, c', o, k, env, r, s', rfl, hu, hx, rfl⟩ | ⟨x, s', rfl, hx, rfl⟩
  · by_cases htu : t = u
    · subst htu
      rw [hw] at ht
      cases ht
    · exact ⟨p, (Function.update_of_ne htu _ _).trans ht, hp⟩
  · by_cases htu : t = u
    · subst htu
      rw [hu] at ht
      cases ht
      obtain ⟨hG, hA⟩ := he o r rfl
      have hnext := hp.next hG hA
      refine ⟨k r, ?_, hnext⟩
      simp only [Function.update_self]
      exact settle_must hnext
    · exact ⟨p, (Function.update_of_ne htu _ _).trans ht, hp⟩
  · exact ⟨p, ht, hp⟩

end BoundTo

end HashedBroker.ReactiveTasks
