import HashedBroker.ReactiveTasks

/-!
# Runs that come to an end

A program of bounded length ends after so many operations, whatever it is answered. When every program
is bounded and some operation is possible while programs are running, every run can be continued, with
no new input, until all have returned.
-/
namespace HashedBroker.AtomicPrograms.Prog

variable {Op : Type} {Res : Op → Type} {α β : Type}

/-- The program ends after `n` operations at most. -/
def Within : ℕ → Prog Op Res α → Prop
  | _, .done _ => True
  | 0, .call _ _ => False
  | n + 1, .call _ k => ∀ r, (k r).Within n

theorem within_done (n : ℕ) (a : α) : (Prog.done a : Prog Op Res α).Within n := by
  cases n <;> trivial

end HashedBroker.AtomicPrograms.Prog

namespace HashedBroker.ReactiveTasks
open AtomicPrograms AtomicPrograms.Prog

variable {Tid Op : Type} {Res : Op → Type} {Env Shared Ctl In Out Ext : Type} [DecidableEq Tid]
  {m : Machine Tid Op Res Env Shared Ctl In Out Ext} {C : Guard Tid Op Res Shared Ctl In Out Ext}
  {σ σ' σ₀ : Config Tid Op Res Shared Ctl Out} {tr : List (Event Tid Op Res In Ext)}
  {e : Event Tid Op Res In Ext}

/-- The tasks of `S` are the ones that may be running, the task `t` for `b t` operations at most. -/
def Bounded (S : Finset Tid) (b : Tid → ℕ) (σ : Config Tid Op Res Shared Ctl Out) : Prop :=
  ∀ t c p, σ.tasks t = .running c p → t ∈ S ∧ p.Within (b t)

theorem Bounded.update {S : Finset Tid} {b : Tid → ℕ} (h : Bounded S b σ) {s : Shared} {t : Tid}
    {c : Ctl} {p : Prog Op Res Out} {n : ℕ} (hp : p.Within n) :
    Bounded (insert t S) (Function.update b t n)
      ⟨s, Function.update σ.tasks t (settle m c p)⟩ := by
  intro u c' q hu
  by_cases hut : u = t
  · subst hut
    simp only [Function.update_self] at hu ⊢
    obtain ⟨-, rfl⟩ := settle_running hu
    exact ⟨Finset.mem_insert_self u S, hp⟩
  · simp only [Function.update_of_ne hut] at hu ⊢
    obtain ⟨hS, hq⟩ := h u c' q hu
    exact ⟨Finset.mem_insert_of_mem hS, hq⟩

theorem Run.bounded (h : Run m σ₀ tr σ) (h₀ : Idle σ₀)
    (hstart : ∀ t c i c' p, m.start t c i = some (c', p) → ∃ n, p.Within n) :
    ∃ S b, Bounded S b σ := by
  induction h with
  | start =>
    refine ⟨∅, fun _ => 0, fun t c p ht => ?_⟩
    obtain ⟨c', hc'⟩ := h₀ t
    rw [ht] at hc'
    cases hc'
  | step prior next ih =>
    obtain ⟨S, b, hb⟩ := ih
    rcases next.cases with ⟨t, i, c, c', p, -, -, hs, rfl⟩ | ⟨t, c, o, k, env, r, s', -, ht, -, rfl⟩ |
      ⟨x, s', -, -, rfl⟩
    · obtain ⟨n, hn⟩ := hstart t c i c' p hs
      exact ⟨_, _, hb.update hn⟩
    · have hk := (hb t c _ ht).2
      cases hbt : b t with
      | zero =>
        rw [hbt] at hk
        exact hk.elim
      | succ n =>
        rw [hbt] at hk
        exact ⟨_, _, hb.update (hk r)⟩
    · exact ⟨S, b, hb⟩

/-- Where some operation is possible while a program is running, a run can go on until none is. -/
theorem GuardedRun.completes {I : Config Tid Op Res Shared Ctl Out → Prop}
    (h : GuardedRun m C σ₀ tr σ) {S : Finset Tid} {b : Tid → ℕ} (hb : Bounded S b σ) (hI : I σ)
    (hgo : ∀ σ, I σ → (∃ t c p, σ.tasks t = .running c p) → ∃ t c o k env r s',
      σ.tasks t = .running c (.call o k) ∧ m.exec t o env σ.shared = some (r, s'))
    (hkeep : ∀ tr σ t o r σ', I σ → Step m σ (.performed t o r) σ' →
      I σ' ∧ C tr σ (.performed t o r)) :
    ∃ tr' σ', GuardedRun m C σ₀ (tr' ++ tr) σ' ∧ Idle σ' ∧
      ∀ e ∈ tr', ∃ t o r, e = .performed t o r := by
  induction hn : ∑ t ∈ S, b t using Nat.strong_induction_on generalizing tr σ b with
  | _ n ih =>
    by_cases hrunning : ∃ t c p, σ.tasks t = .running c p
    · obtain ⟨t, c, o, k, env, r, s', ht, hx⟩ := hgo σ hI hrunning
      obtain ⟨hS, hp⟩ := hb t c _ ht
      cases hbt : b t with
      | zero =>
        rw [hbt] at hp
        exact hp.elim
      | succ d =>
        rw [hbt] at hp
        have hstep : Step m σ (.performed t o r)
            ⟨s', Function.update σ.tasks t (settle m c (k r))⟩ := by
          refine ⟨.perform t env, ?_⟩
          simp only [act, ht, hx, Option.map_some]
        obtain ⟨hI', hC⟩ := hkeep tr σ t o r _ hI hstep
        have hb' : Bounded (insert t S) (Function.update b t d)
            ⟨s', Function.update σ.tasks t (settle m c (k r))⟩ := hb.update (hp r)
        rw [Finset.insert_eq_of_mem hS] at hb'
        have hless : ∑ u ∈ S, Function.update b t d u < n := by
          rw [← hn]
          refine Finset.sum_lt_sum (fun u _ => ?_) ⟨t, hS, ?_⟩
          · by_cases hut : u = t
            · subst hut
              rw [Function.update_self]
              omega
            · rw [Function.update_of_ne hut]
          · rw [Function.update_self]
            omega
        obtain ⟨tr', σ', hrun, hidle, hperformed⟩ := ih _ hless (.step h hstep hC) hb' hI' rfl
        refine ⟨tr' ++ [.performed t o r], σ', by simpa using hrun, hidle, fun e he => ?_⟩
        rcases List.mem_append.mp he with he | he
        · exact hperformed e he
        · exact ⟨t, o, r, List.mem_singleton.mp he⟩
    · refine ⟨[], σ, h, fun t => ?_, fun e he => absurd he List.not_mem_nil⟩
      cases ht : σ.tasks t with
      | waiting c => exact ⟨c, rfl⟩
      | running c p => exact absurd ⟨t, c, p, ht⟩ hrunning

end HashedBroker.ReactiveTasks
