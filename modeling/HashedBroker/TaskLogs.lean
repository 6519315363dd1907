import HashedBroker.ReactiveTasks

/-!
# The log of a task

The events of one task, grouped by the inputs it has been given: each input with the answers its
program has received, the newest first. In a run every entry but the last belongs to a program that
has returned, and each program was started in the control state the one before it left.
-/
namespace HashedBroker.ReactiveTasks
open AtomicPrograms AtomicPrograms.Prog

variable {Tid Op : Type} {Res : Op → Type} {Env Shared Ctl In Out Ext : Type}

def logAnswer (o : Op) (r : Res o) : List (In × History Op Res) → List (In × History Op Res)
  | [] => []
  | (i, h) :: log => (i, ⟨o, r⟩ :: h) :: log

/-- The inputs of a task with the answers each has led to, the newest first. -/
def taskLog [DecidableEq Tid] (t : Tid) : List (Event Tid Op Res In Ext) → List (In × History Op Res)
  | [] => []
  | .input u i :: tr => if u = t then (i, []) :: taskLog t tr else taskLog t tr
  | .performed u o r :: tr =>
    if u = t then logAnswer o r (taskLog t tr) else taskLog t tr
  | .disturbed _ :: tr => taskLog t tr

theorem map_fst_logAnswer (o : Op) (r : Res o) (log : List (In × History Op Res)) :
    (logAnswer o r log).map Prod.fst = log.map Prod.fst := by
  cases log <;> rfl

theorem mem_inputs_taskLog [DecidableEq Tid] {t : Tid} {i : In}
    {tr : List (Event Tid Op Res In Ext)} :
    i ∈ (taskLog t tr).map Prod.fst ↔ Event.input t i ∈ tr := by
  induction tr with
  | nil => simp [taskLog]
  | cons e tr ih =>
    cases e with
    | input u j =>
      simp only [taskLog]
      split_ifs with hu
      · simp [ih, hu]
      · simp [ih, Ne.symm hu]
    | performed u o r =>
      simp only [taskLog]
      split_ifs
      · simp [map_fst_logAnswer, ih]
      · simp [ih]
    | disturbed x => simp [taskLog, ih]

/-- A log that a task can have, and where it leaves the task. -/
inductive Logged (m : Machine Tid Op Res Env Shared Ctl In Out Ext) (t : Tid) (c₀ : Ctl) :
    List (In × History Op Res) → Task Op Res Ctl Out → Prop
  | nil : Logged m t c₀ [] (.waiting c₀)
  | cons {log : List (In × History Op Res)} {c c' : Ctl} {i : In} {p q : Prog Op Res Out}
      {h : History Op Res} (prior : Logged m t c₀ log (.waiting c))
      (started : m.start t c i = some (c', p)) (received : After p h q) :
      Logged m t c₀ ((i, h) :: log) (settle m c' q)

variable {m : Machine Tid Op Res Env Shared Ctl In Out Ext}
  {σ σ' σ₀ : Config Tid Op Res Shared Ctl Out} {e : Event Tid Op Res In Ext}
  {tr : List (Event Tid Op Res In Ext)} {t : Tid} {c c₀ : Ctl}

theorem Logged.running {log : List (In × History Op Res)} {q : Prog Op Res Out}
    (h : Logged m t c₀ log (.running c q)) :
    ∃ i hist older c₁ p, log = (i, hist) :: older ∧ Logged m t c₀ older (.waiting c₁) ∧
      m.start t c₁ i = some (c, p) ∧ After p hist q := by
  generalize hT : Task.running c q = T at h
  cases h with
  | nil => cases hT
  | cons prior started received =>
    obtain ⟨rfl, rfl⟩ := settle_running hT.symm
    exact ⟨_, _, _, _, _, rfl, prior, started, received⟩

/-- The newest entry of a waiting task belongs to a program that has returned. -/
theorem Logged.returned {log : List (In × History Op Res)} {i : In} {hist : History Op Res}
    (h : Logged m t c₀ ((i, hist) :: log) (.waiting c)) :
    ∃ c₁ c' p a, Logged m t c₀ log (.waiting c₁) ∧ m.start t c₁ i = some (c', p) ∧
      After p hist (.done a) ∧ c = m.finish c' a := by
  generalize hT : Task.waiting c = T at h
  cases h with
  | cons prior started received =>
    obtain ⟨a, rfl, rfl⟩ := settle_waiting hT.symm
    exact ⟨_, _, _, a, prior, started, received, rfl⟩

/-- Where an entry of a log comes from. Its program has returned, unless it is the newest. -/
theorem Logged.entry {newer older : List (In × History Op Res)} {i : In} {hist : History Op Res}
    {T : Task Op Res Ctl Out} (h : Logged m t c₀ (newer ++ (i, hist) :: older) T)
    (hdone : newer = [] → ∃ c, T = .waiting c) :
    ∃ c c' p a, Logged m t c₀ older (.waiting c) ∧ m.start t c i = some (c', p) ∧
      After p hist (.done a) := by
  induction newer generalizing T with
  | nil =>
    obtain ⟨c, rfl⟩ := hdone rfl
    obtain ⟨c₁, c', p, a, hprior, hs, hafter, -⟩ := h.returned
    exact ⟨c₁, c', p, a, hprior, hs, hafter⟩
  | cons x newer ih =>
    cases h with
    | cons prior _ _ => exact ih prior fun _ => ⟨_, rfl⟩

/-- Every entry of a log, the newest too, belongs to a program started with its input. -/
theorem Logged.started {log : List (In × History Op Res)} {i : In} {hist : History Op Res}
    {T : Task Op Res Ctl Out} (h : Logged m t c₀ log T) (hmem : (i, hist) ∈ log) :
    ∃ c c' p q, m.start t c i = some (c', p) ∧ After p hist q := by
  induction h with
  | nil => cases hmem
  | cons prior hs ha ih =>
    rcases List.mem_cons.mp hmem with heq | hmem
    · cases heq
      exact ⟨_, _, _, _, hs, ha⟩
    · exact ih hmem

theorem Run.logged [DecidableEq Tid] (h : Run m σ₀ tr σ) (h₀ : σ₀.tasks t = .waiting c₀) :
    Logged m t c₀ (taskLog t tr) (σ.tasks t) := by
  induction h with
  | start =>
    rw [h₀]
    exact .nil
  | step prior next ih =>
    rcases next.cases with ⟨u, i, c, c', p, rfl, hw, hs, rfl⟩ |
      ⟨u, c, o, k, env, r, s', rfl, hu, hx, rfl⟩ | ⟨x, s', rfl, hx, rfl⟩
    · by_cases hut : u = t
      · subst hut
        rw [hw] at ih
        simp only [taskLog, if_true, Function.update_self]
        exact .cons ih hs .start
      · simp only [taskLog, if_neg hut, Function.update_of_ne (Ne.symm hut)]
        exact ih
    · by_cases hut : u = t
      · subst hut
        rw [hu] at ih
        obtain ⟨i, hist, older, c₁, p, hlog, hprior, hs, hafter⟩ := ih.running
        simp only [taskLog, if_true, Function.update_self, hlog, logAnswer]
        exact .cons hprior hs (hafter.answer r)
      · simp only [taskLog, if_neg hut, Function.update_of_ne (Ne.symm hut)]
        exact ih
    · exact ih

theorem performed_of_taskLog [DecidableEq Tid] {i : In} {hist : History Op Res}
    {x : Σ o : Op, Res o} (hentry : (i, hist) ∈ taskLog t tr) (hx : x ∈ hist) :
    Event.performed t x.1 x.2 ∈ tr := by
  induction tr generalizing i hist with
  | nil => cases hentry
  | cons e tr ih =>
    have hold : ∀ {i hist}, (i, hist) ∈ taskLog t tr → x ∈ hist →
        Event.performed t x.1 x.2 ∈ e :: tr :=
      fun hentry hx => List.mem_cons_of_mem e (ih hentry hx)
    cases e with
    | input u j =>
      simp only [taskLog] at hentry
      split_ifs at hentry with hu
      · rcases List.mem_cons.mp hentry with heq | hentry
        · cases heq
          cases hx
        · exact hold hentry hx
      · exact hold hentry hx
    | performed u o r =>
      simp only [taskLog] at hentry
      split_ifs at hentry with hu
      · subst hu
        cases hlog : taskLog u tr with
        | nil =>
          rw [hlog] at hentry
          cases hentry
        | cons y log =>
          rw [hlog] at hentry hold
          rcases List.mem_cons.mp hentry with heq | hentry
          · cases heq
            rcases List.mem_cons.mp hx with rfl | hx
            · exact List.mem_cons_self
            · exact hold List.mem_cons_self hx
          · exact hold (List.mem_cons_of_mem y hentry) hx
      · exact hold hentry hx
    | disturbed y => exact hold hentry hx

def Resumed [DecidableEq Tid] (t : Tid) (tr : List (Event Tid Op Res In Ext)) : Prop :=
  ∃ i x hist older, taskLog t tr = (i, x :: hist) :: older

def Foreign (t : Tid) (e : Event Tid Op Res In Ext) : Prop :=
  (∀ i, e ≠ .input t i) ∧ ∀ o r, e ≠ .performed t o r

/-- A trace can be cut at the newest answer of a task: what comes after it is not the task's. -/
theorem taskLog_cut [DecidableEq Tid] {i : In} {o : Op} {r : Res o} {hist : History Op Res}
    {older : List (In × History Op Res)} (h : taskLog t tr = (i, ⟨o, r⟩ :: hist) :: older) :
    ∃ tr₁ tr₂, tr = tr₂ ++ .performed t o r :: tr₁ ∧ taskLog t tr₁ = (i, hist) :: older ∧
      ∀ e ∈ tr₂, Foreign t e := by
  induction tr with
  | nil => cases h
  | cons e tr ih =>
    have hold : Foreign t e → taskLog t tr = (i, ⟨o, r⟩ :: hist) :: older →
        ∃ tr₁ tr₂, e :: tr = tr₂ ++ .performed t o r :: tr₁ ∧
          taskLog t tr₁ = (i, hist) :: older ∧ ∀ e ∈ tr₂, Foreign t e := by
      intro he htail
      obtain ⟨tr₁, tr₂, rfl, hcut, hforeign⟩ := ih htail
      exact ⟨tr₁, e :: tr₂, rfl, hcut, List.forall_mem_cons.mpr ⟨he, hforeign⟩⟩
    cases e with
    | input u j =>
      simp only [taskLog] at h
      split_ifs at h with hu
      · cases h
      · refine hold ⟨fun i he => hu ?_, nofun⟩ h
        cases he
        rfl
    | performed u o' r' =>
      simp only [taskLog] at h
      split_ifs at h with hu
      · subst hu
        cases hlog : taskLog u tr with
        | nil =>
          rw [hlog] at h
          cases h
        | cons y log =>
          rw [hlog] at h
          cases h
          exact ⟨tr, [], rfl, hlog, fun e he => absurd he List.not_mem_nil⟩
      · refine hold ⟨nofun, fun o r he => hu ?_⟩ h
        cases he
        rfl
    | disturbed x => exact hold ⟨nofun, nofun⟩ h

theorem Run.task_of_foreign [DecidableEq Tid] (h : Run m σ₀ tr σ) (htr : ∀ e ∈ tr, Foreign t e) :
    σ.tasks t = σ₀.tasks t := by
  induction h with
  | start => rfl
  | @step tr σ σ' e prior next ih =>
    rw [← ih fun e he => htr e (List.mem_cons_of_mem _ he)]
    obtain ⟨hinput, hperformed⟩ := htr e List.mem_cons_self
    rcases next.cases with ⟨u, i, c, c', p, rfl, -, -, rfl⟩ |
      ⟨u, c, o, k, env, r, s', rfl, -, -, rfl⟩ | ⟨x, s', rfl, -, rfl⟩
    · have hut : t ≠ u := by
        rintro rfl
        exact hinput i rfl
      exact Function.update_of_ne hut _ _
    · have hut : t ≠ u := by
        rintro rfl
        exact hperformed o r rfl
      exact Function.update_of_ne hut _ _
    · rfl

end HashedBroker.ReactiveTasks
