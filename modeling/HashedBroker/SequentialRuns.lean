import HashedBroker.ReactiveTasks

/-!
# Tasks that run alone

A program evaluated from a shared state while no other task takes a step; the outside world may.
Pre- and postconditions speak of a view of the shared state that the outside world leaves as it is.
In a run whose inputs only come while every task waits, each program is evaluated alone, and what
every program keeps holds whenever the machine is idle.
-/
namespace HashedBroker.ReactiveTasks
open AtomicPrograms AtomicPrograms.Prog

variable {Tid Op : Type} {Res : Op → Type} {Env Shared Ctl In Out Ext V α β : Type}

/-- The program has answers and a result that the shared state allows, by operations in `ok`. -/
inductive Evaluates (m : Machine Tid Op Res Env Shared Ctl In Out Ext) (ok : Op → Prop) (t : Tid) :
    Prog Op Res α → Shared → History Op Res → Shared → α → Prop
  | done (a : α) (s : Shared) : Evaluates m ok t (.done a) s [] s a
  | call {o : Op} {k : Res o → Prog Op Res α} {env : Env} {s s₁ s' : Shared} {r : Res o}
      {h : History Op Res} {a : α} (allowed : ok o) (answered : m.exec t o env s = some (r, s₁))
      (rest : Evaluates m ok t (k r) s₁ h s' a) :
      Evaluates m ok t (.call o k) s (h ++ [⟨o, r⟩]) s' a
  | disturbed {p : Prog Op Res α} {x : Ext} {s s₁ s' : Shared} {h : History Op Res} {a : α}
      (outside : m.disturb x s = some s₁) (rest : Evaluates m ok t p s₁ h s' a) :
      Evaluates m ok t p s h s' a

/-- A part of the shared state that only operations change. -/
structure View (m : Machine Tid Op Res Env Shared Ctl In Out Ext) (V : Type) where
  of : Shared → V
  steady : ∀ x s s', m.disturb x s = some s' → of s' = of s

variable {m : Machine Tid Op Res Env Shared Ctl In Out Ext} {ok : Op → Prop} {t : Tid}

theorem Evaluates.of_bind {p : Prog Op Res α} {f : α → Prog Op Res β} {s s' : Shared}
    {h : History Op Res} {b : β} (he : Evaluates m ok t (p >>= f) s h s' b) :
    ∃ h₁ h₂ s₁ a, h = h₂ ++ h₁ ∧ Evaluates m ok t p s h₁ s₁ a ∧
      Evaluates m ok t (f a) s₁ h₂ s' b := by
  induction p generalizing s h with
  | done a => exact ⟨[], h, s, a, by simp, .done a s, he⟩
  | call o k ih =>
    generalize hq : (Prog.call o k >>= f) = q at he
    induction he with
    | done a s => cases hq
    | @call o' k' env s s₁ s' r h b allowed answered rest =>
      cases hq
      obtain ⟨h₁, h₂, s₂, a, rfl, hp, hf⟩ := ih r rest
      exact ⟨h₁ ++ [⟨o, r⟩], h₂, s₂, a, by simp, .call allowed answered hp, hf⟩
    | disturbed outside rest ihr =>
      obtain ⟨h₁, h₂, s₂, a, rfl, hp, hf⟩ := ihr ih hq
      exact ⟨h₁, h₂, s₂, a, rfl, .disturbed outside hp, hf⟩

/-- What a program that has returned has seen: nothing has changed but from outside. -/
theorem Evaluates.of_done (view : View m V) {a b : α} {s s' : Shared} {h : History Op Res}
    (he : Evaluates m ok t (.done a : Prog Op Res α) s h s' b) : view.of s' = view.of s ∧ b = a := by
  generalize hq : (Prog.done a : Prog Op Res α) = q at he
  induction he with
  | done b s =>
    cases hq
    exact ⟨rfl, rfl⟩
  | call => cases hq
  | disturbed outside rest ih =>
    obtain ⟨hview, hb⟩ := ih hq
    exact ⟨hview.trans (view.steady _ _ _ outside), hb⟩

theorem Evaluates.silent_of_done {a b : α} {s s' : Shared} {h : History Op Res}
    (he : Evaluates m ok t (.done a : Prog Op Res α) s h s' b) : h = [] := by
  generalize hq : (Prog.done a : Prog Op Res α) = q at he
  induction he with
  | done b s => rfl
  | call => cases hq
  | disturbed outside rest ih => exact ih hq

/-- The first operation of an evaluation is answered in the state at hand, as far as the view
goes. -/
theorem Evaluates.of_call (view : View m V) {o : Op} {k : Res o → Prog Op Res α} {s s' : Shared}
    {h : History Op Res} {a : α} (he : Evaluates m ok t (.call o k) s h s' a) :
    ∃ s₀ env r s₁ h₁, view.of s₀ = view.of s ∧ m.exec t o env s₀ = some (r, s₁) ∧
      Evaluates m ok t (k r) s₁ h₁ s' a ∧ h = h₁ ++ [⟨o, r⟩] := by
  generalize hq : Prog.call o k = q at he
  induction he with
  | done b s => cases hq
  | call allowed answered rest =>
    cases hq
    exact ⟨_, _, _, _, _, rfl, answered, rest, rfl⟩
  | disturbed outside rest ih =>
    obtain ⟨s₀, env, r, s₁, h₁, hview, hrest⟩ := ih hq
    exact ⟨s₀, env, r, s₁, h₁, hview.trans (view.steady _ _ _ outside), hrest⟩

abbrev Returns (m : Machine Tid Op Res Env Shared Ctl In Out Ext) (t : Tid) (p : Prog Op Res α)
    (s : Shared) (h : History Op Res) (s' : Shared) (a : α) : Prop :=
  Evaluates m (fun _ => True) t p s h s' a

section Returning

variable {v : V} {s s' : Shared} {h : History Op Res} {a b : α} {o : Op} {k : Res o → Prog Op Res α}

theorem Evaluates.done_in (view : View m V) (hv : view.of s = v)
    (he : Evaluates m ok t (.done a : Prog Op Res α) s h s' b) : view.of s' = v ∧ b = a := by
  obtain ⟨hs', hb⟩ := he.of_done view
  exact ⟨hs'.trans hv, hb⟩

theorem Evaluates.call_in (view : View m V) (hv : view.of s = v)
    (he : Evaluates m ok t (.call o k) s h s' a) (R : Res o → V → Prop)
    (hstep : ∀ env s₀ r s₁, view.of s₀ = v → m.exec t o env s₀ = some (r, s₁) →
      R r (view.of s₁)) :
    ∃ r s₁ h₁, R r (view.of s₁) ∧ Evaluates m ok t (k r) s₁ h₁ s' a ∧ h = h₁ ++ [⟨o, r⟩] := by
  obtain ⟨s₀, env, r, s₁, h₁, hs₀, hx, hrest, heq⟩ := he.of_call view
  exact ⟨r, s₁, h₁, hstep env s₀ r s₁ (hs₀.trans hv) hx, hrest, heq⟩

/-- An operation that is answered from the view and leaves it as it is. -/
theorem Evaluates.read_in (view : View m V) (hv : view.of s = v)
    (he : Evaluates m ok t (.call o k) s h s' a) (f : V → Res o)
    (hread : ∀ env s₀ r s₁, m.exec t o env s₀ = some (r, s₁) →
      r = f (view.of s₀) ∧ view.of s₁ = view.of s₀) :
    ∃ s₁ h₁, view.of s₁ = v ∧ Evaluates m ok t (k (f v)) s₁ h₁ s' a ∧ h = h₁ ++ [⟨o, f v⟩] := by
  obtain ⟨r, s₁, h₁, ⟨rfl, hs₁⟩, hrest, heq⟩ := he.call_in view hv
    (fun r v' => r = f v ∧ v' = v) fun env s₀ r s₁ hs₀ hx => by
      obtain ⟨hr, hs₁⟩ := hread env s₀ r s₁ hx
      rw [hs₀] at hr hs₁
      exact ⟨hr, hs₁⟩
  exact ⟨s₁, h₁, hs₁, hrest, heq⟩

theorem Evaluates.of_last (view : View m V) (he : Evaluates m ok t (.call o k) s h s' a)
    (hk : ∀ r, k r = .done b) : ∃ r, h = [⟨o, r⟩] := by
  obtain ⟨s₀, env, r, s₁, h₁, -, -, hrest, rfl⟩ := he.of_call view
  rw [hk] at hrest
  rw [hrest.silent_of_done]
  exact ⟨r, rfl⟩

end Returning

def Disturbed (m : Machine Tid Op Res Env Shared Ctl In Out Ext) : Shared → Shared → Prop :=
  Relation.ReflTransGen fun s s' => ∃ x, m.disturb x s = some s'

theorem Evaluates.of_disturbed {p : Prog Op Res α} {s s₀ s' : Shared} {h : History Op Res} {a : α}
    (hd : Disturbed m s s₀) (he : Evaluates m ok t p s₀ h s' a) : Evaluates m ok t p s h s' a := by
  induction hd using Relation.ReflTransGen.head_induction_on with
  | refl => exact he
  | head houtside _ ih =>
    obtain ⟨x, hx⟩ := houtside
    exact .disturbed hx ih

/-- A program whose operations can be answered in every state of `J`, or in one that the outside
world can make of it, and that keep `J`, has an evaluation. -/
theorem Evaluates.of_always {F : Op → Prop} {J : Shared → Prop} {p : Prog Op Res α}
    (hp : p.Always F)
    (hF : ∀ o s, F o → J s → ok o ∧ ∃ s₀ env r s', Disturbed m s s₀ ∧
      m.exec t o env s₀ = some (r, s') ∧ J s')
    {s : Shared} (hs : J s) : ∃ h s' a, Evaluates m ok t p s h s' a ∧ J s' := by
  induction p generalizing s with
  | done a => exact ⟨[], s, a, .done a s, hs⟩
  | call o k ih =>
    obtain ⟨hok, s₀, env, r, s₁, hd, hx, hs₁⟩ := hF o s hp.1 hs
    obtain ⟨h, s', a, he, hs'⟩ := ih r (hp.2 r) hs₁
    exact ⟨_, s', a, .of_disturbed hd (.call hok hx he), hs'⟩

theorem Evaluates.total {F : Op → Prop} {p : Prog Op Res α} (hp : p.Always F)
    (hF : ∀ o s, F o → ok o ∧ ∃ s₀ env r s', Disturbed m s s₀ ∧ m.exec t o env s₀ = some (r, s'))
    (s : Shared) : ∃ h s' a, Evaluates m ok t p s h s' a := by
  have hstep : ∀ o s, F o → True → ok o ∧ ∃ s₀ env r s', Disturbed m s s₀ ∧
      m.exec t o env s₀ = some (r, s') ∧ True := by
    intro o s ho _
    obtain ⟨hok, s₀, env, r, s', hd, hx⟩ := hF o s ho
    exact ⟨hok, s₀, env, r, s', hd, hx, trivial⟩
  obtain ⟨h, s', a, he, -⟩ := Evaluates.of_always hp hstep trivial
  exact ⟨h, s', a, he⟩

/-- Started in a view of `P`, the program returns in one of `Q`. -/
def Triple (ok : Op → Prop) (t : Tid) (view : View m V) (P : V → Prop) (p : Prog Op Res α)
    (Q : α → V → Prop) : Prop :=
  ∀ s h s' a, P (view.of s) → Evaluates m ok t p s h s' a → Q a (view.of s')

section Rules

variable {view : View m V} {P P' : V → Prop} {Q Q' : α → V → Prop}

theorem triple_done {a : α} (h : ∀ v, P v → Q a v) :
    Triple ok t view P (.done a : Prog Op Res α) Q := by
  intro s hist s' b hP he
  generalize hq : (Prog.done a : Prog Op Res α) = q at he
  induction he with
  | done b s => cases hq; exact h _ hP
  | call => cases hq
  | disturbed outside rest ih => exact ih (by rwa [view.steady _ _ _ outside]) hq

theorem triple_absurd {p : Prog Op Res α} (h : ∀ v, ¬ P v) : Triple ok t view P p Q :=
  fun _ _ _ _ hP _ => absurd hP (h _)

theorem triple_call {o : Op} {k : Res o → Prog Op Res α} (R : Res o → V → Prop)
    (hstep : ∀ env s r s', ok o → P (view.of s) → m.exec t o env s = some (r, s') →
      R r (view.of s')) (hk : ∀ r, Triple ok t view (R r) (k r) Q) :
    Triple ok t view P (.call o k) Q := by
  intro s hist s' b hP he
  generalize hq : Prog.call o k = q at he
  induction he with
  | done b s => cases hq
  | call allowed answered rest =>
    cases hq
    exact hk _ _ _ _ _ (hstep _ _ _ _ allowed hP answered) rest
  | disturbed outside rest ih => exact ih (by rwa [view.steady _ _ _ outside]) hq

theorem Triple.bind {p : Prog Op Res α} {f : α → Prog Op Res β} {R : β → V → Prop}
    (hp : Triple ok t view P p Q) (hf : ∀ a, Triple ok t view (Q a) (f a) R) :
    Triple ok t view P (p >>= f) R := by
  intro s hist s' b hP he
  obtain ⟨h₁, h₂, s₁, a, -, hpe, hfe⟩ := he.of_bind
  exact hf a _ _ _ _ (hp _ _ _ _ hP hpe) hfe

theorem Triple.mono {p : Prog Op Res α} (hp : Triple ok t view P p Q)
    (hP : ∀ v, P' v → P v) (hQ : ∀ a v, Q a v → Q' a v) : Triple ok t view P' p Q' :=
  fun s hist s' a hPs he => hQ _ _ (hp s hist s' a (hP _ hPs) he)

theorem Always.triple {F : Op → Prop} {p : Prog Op Res α} (hp : p.Always F)
    (hF : ∀ o env s r s', F o → P (view.of s) → m.exec t o env s = some (r, s') →
      P (view.of s')) : Triple ok t view P p fun _ => P := by
  induction p with
  | done a => exact triple_done fun _ hv => hv
  | call o k ih =>
    refine triple_call (fun _ => P) (fun env s r s' _ hPs hx => ?_) fun r => ih r (hp.2 r)
    exact hF o env s r s' hp.1 hPs hx

end Rules

/-! ## Runs in which every program runs alone -/

variable [DecidableEq Tid] {C : Guard Tid Op Res Shared Ctl In Out Ext}
  {σ σ₀ : Config Tid Op Res Shared Ctl Out} {tr : List (Event Tid Op Res In Ext)}

/-- An input comes while every task waits. -/
def Alone : Guard Tid Op Res Shared Ctl In Out Ext := fun _ σ e =>
  match e with
  | .input _ _ => Idle σ
  | _ => True

def ctls (σ : Config Tid Op Res Shared Ctl Out) (t : Tid) : Ctl := (σ.tasks t).ctl

/-- Nothing runs and the invariant holds, or one program will keep it when it returns. -/
def KeptAlone (ok : Op → Prop) (view : View m V) (I : (Tid → Ctl) → V → Prop)
    (σ : Config Tid Op Res Shared Ctl Out) : Prop :=
  (Idle σ ∧ I (ctls σ) (view.of σ.shared)) ∨
    ∃ t c p, σ.tasks t = .running c p ∧ (∀ u, u ≠ t → ∃ c, σ.tasks u = .waiting c) ∧
      ∀ hist s' a, Evaluates m ok t p σ.shared hist s' a →
        I (Function.update (ctls σ) t (m.finish c a)) (view.of s')

theorem ctls_update (s : Shared) (T : Task Op Res Ctl Out) :
    ctls ⟨s, Function.update σ.tasks t T⟩ = Function.update (ctls σ) t T.ctl := by
  funext u
  by_cases hu : u = t
  · subst hu
    simp [ctls]
  · simp [ctls, hu]

theorem keptAlone_settle {view : View m V} {I : (Tid → Ctl) → V → Prop} {s : Shared} {c : Ctl}
    {p : Prog Op Res Out} (hothers : ∀ u, u ≠ t → ∃ c, σ.tasks u = .waiting c)
    (hwill : ∀ hist s' a, Evaluates m ok t p s hist s' a →
      I (Function.update (ctls σ) t (m.finish c a)) (view.of s')) :
    KeptAlone ok view I ⟨s, Function.update σ.tasks t (settle m c p)⟩ := by
  have hothers' : ∀ T u, u ≠ t → ∃ c, Function.update σ.tasks t T u = .waiting c := by
    intro T u hu
    rw [Function.update_of_ne hu]
    exact hothers u hu
  cases p with
  | done a =>
    refine Or.inl ⟨fun u => ?_, ?_⟩
    · by_cases hu : u = t
      · subst hu
        exact ⟨m.finish c a, Function.update_self _ _ _⟩
      · exact hothers' _ u hu
    · rw [ctls_update]
      exact hwill _ _ _ (.done a s)
  | call o k =>
    refine Or.inr ⟨t, c, .call o k, Function.update_self _ _ _, hothers' _, ?_⟩
    intro hist s' a he
    rw [ctls_update, Function.update_idem]
    exact hwill _ _ _ he

/-- The rule of atomic programs: what every program keeps, evaluated alone from the state it is
started in, holds whenever no program is running. -/
theorem GuardedRun.sequential_at (view : View m V) {I : (Tid → Ctl) → V → Prop}
    (h : GuardedRun m C σ₀ tr σ) (halone : ∀ tr σ e, C tr σ e → Alone tr σ e)
    (hok : ∀ tr σ t o r, C tr σ (.performed t o r) → ok o) (h₀ : Idle σ₀)
    (hI₀ : I (ctls σ₀) (view.of σ₀.shared))
    (hstart : ∀ tr σ t i c' p, C tr σ (.input t i) → m.start t (ctls σ t) i = some (c', p) →
      Triple ok t view (fun v => v = view.of σ.shared ∧ I (ctls σ) v) p
        fun a => I (Function.update (ctls σ) t (m.finish c' a)))
    (hidle : Idle σ) : I (ctls σ) (view.of σ.shared) := by
  have hrunning : ∀ {σ : Config Tid Op Res Shared Ctl Out} {t c p},
      Idle σ → σ.tasks t ≠ .running c p := by
    intro σ t c p hwait ht
    obtain ⟨c', hc'⟩ := hwait t
    rw [ht] at hc'
    cases hc'
  have hkept : KeptAlone ok view I σ := by
    clear hidle
    induction h with
    | start => exact Or.inl ⟨h₀, hI₀⟩
    | @step tr σ σ' e prior next guard ih =>
      rcases next.cases with ⟨t, i, c, c', p, rfl, hw, hs, rfl⟩ |
        ⟨t, c, o, k, env, r, s', rfl, ht, hx, rfl⟩ | ⟨x, s', rfl, hx, rfl⟩
      · have hwait : Idle σ := halone _ _ _ guard
        have hs' : m.start t (ctls σ t) i = some (c', p) := by
          rw [ctls, hw]
          exact hs
        rcases ih with ⟨-, hI⟩ | ⟨u, cu, q, hu, -⟩
        · exact keptAlone_settle (fun u _ => hwait u) fun hist s' a he =>
            hstart _ _ _ _ _ _ guard hs' _ _ _ _ ⟨rfl, hI⟩ he
        · exact absurd hu (hrunning hwait)
      · rcases ih with ⟨hwait, -⟩ | ⟨u, cu, q, hu, hothers, hwill⟩
        · exact absurd ht (hrunning hwait)
        · obtain rfl : t = u := by
            by_contra hne
            obtain ⟨c', hc'⟩ := hothers t hne
            rw [ht] at hc'
            cases hc'
          rw [ht] at hu
          cases hu
          exact keptAlone_settle hothers fun hist s'' a he =>
            hwill _ _ _ (.call (hok _ _ _ _ _ guard) hx he)
      · rcases ih with ⟨hwait, hI⟩ | ⟨u, cu, q, hu, hothers, hwill⟩
        · refine Or.inl ⟨hwait, ?_⟩
          change I (ctls σ) (view.of s')
          rw [view.steady _ _ _ hx]
          exact hI
        · exact Or.inr ⟨u, cu, q, hu, hothers, fun hist s'' a he => hwill _ _ _ (.disturbed hx he)⟩
  rcases hkept with ⟨-, hI⟩ | ⟨t, c, p, ht, -⟩
  · exact hI
  · exact absurd ht (hrunning hidle)

/-- The rule where the state a program is started in does not matter. -/
theorem GuardedRun.sequential (view : View m V) {I : (Tid → Ctl) → V → Prop}
    (h : GuardedRun m C σ₀ tr σ) (halone : ∀ tr σ e, C tr σ e → Alone tr σ e)
    (hok : ∀ tr σ t o r, C tr σ (.performed t o r) → ok o) (h₀ : Idle σ₀)
    (hI₀ : I (ctls σ₀) (view.of σ₀.shared))
    (hstart : ∀ tr σ t i c' p, C tr σ (.input t i) → m.start t (ctls σ t) i = some (c', p) →
      Triple ok t view (I (ctls σ)) p fun a => I (Function.update (ctls σ) t (m.finish c' a)))
    (hidle : Idle σ) : I (ctls σ) (view.of σ.shared) :=
  h.sequential_at view halone hok h₀ hI₀ (fun tr σ t i c' p hC hs =>
    (hstart tr σ t i c' p hC hs).mono (fun _ hv => hv.2) fun _ _ hv => hv) hidle

end HashedBroker.ReactiveTasks
