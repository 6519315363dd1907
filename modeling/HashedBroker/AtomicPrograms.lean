import Mathlib

/-!
# Programs of atomic operations

A program is a tree: it either returns, or asks for one atomic operation and continues with the
answer. The tree fixes what one task does between two atomic operations and says nothing about
the state, so one text serves sequential runs and interleaved ones. The predicates on a tree are
the ones an interleaving proof needs: what every operation of a program satisfies (`Always`), what
it may do given a local state that its own operations drive (`Follows`), what each operation owes
to the answers before it (`Justified`), what a program is bound to do whatever else happens
(`Must`), and what its operations bind it to (`Owes`).
-/
namespace HashedBroker.AtomicPrograms

inductive Prog (Op : Type) (Res : Op → Type) (α : Type)
  | done (value : α)
  | call (op : Op) (next : Res op → Prog Op Res α)

variable {Op Op' : Type} {Res : Op → Type} {Res' : Op' → Type} {α β ε : Type}

namespace Prog

def bind : Prog Op Res α → (α → Prog Op Res β) → Prog Op Res β
  | .done a, f => f a
  | .call o k, f => .call o fun r => (k r).bind f

instance : Monad (Prog Op Res) where
  pure := .done
  bind := bind

def perform (o : Op) : Prog Op Res (Res o) := .call o .done

@[simp] theorem pure_def (a : α) : (pure a : Prog Op Res α) = .done a := rfl

@[simp] theorem done_bind (a : α) (f : α → Prog Op Res β) : (Prog.done a >>= f) = f a := rfl

@[simp] theorem call_bind (o : Op) (k : Res o → Prog Op Res α) (f : α → Prog Op Res β) :
    (Prog.call o k >>= f) = .call o fun r => k r >>= f := rfl

theorem call_congr {o : Op} {k k' : Res o → Prog Op Res α} (h : ∀ r, k r = k' r) :
    Prog.call o k = .call o k' := congrArg (Prog.call o) (funext h)

@[simp] theorem perform_bind (o : Op) (f : Res o → Prog Op Res β) :
    (perform o >>= f) = .call o f := rfl

theorem bind_assoc' {γ : Type} (p : Prog Op Res α) (f : α → Prog Op Res β)
    (g : β → Prog Op Res γ) : (p >>= f) >>= g = p >>= fun a => f a >>= g := by
  induction p with
  | done a => rfl
  | call o k ih =>
    simp only [call_bind]
    congr 1
    funext r
    exact ih r

theorem bind_done (p : Prog Op Res α) : (p >>= Prog.done) = p := by
  induction p with
  | done a => rfl
  | call o k ih =>
    simp only [call_bind]
    congr 1
    funext r
    exact ih r

instance : LawfulMonad (Prog Op Res) :=
  LawfulMonad.mk' _ bind_done (fun _ _ => rfl) bind_assoc'

/-- The value of a program and the state it leaves, when each operation is answered at once and
nothing comes between them. -/
def eval {S : Type} (exec : S → (o : Op) → Res o × S) : Prog Op Res α → S → α × S
  | .done a, s => (a, s)
  | .call o k, s => (k (exec s o).1).eval exec (exec s o).2

section Eval

variable {S : Type} (exec : S → (o : Op) → Res o × S) (s : S)

@[simp] theorem eval_done (a : α) : (.done a : Prog Op Res α).eval exec s = (a, s) := rfl

@[simp] theorem eval_call (o : Op) (k : Res o → Prog Op Res α) :
    (Prog.call o k).eval exec s = (k (exec s o).1).eval exec (exec s o).2 := rfl

@[simp] theorem eval_perform (o : Op) :
    (perform o : Prog Op Res (Res o)).eval exec s = exec s o := rfl

@[simp] theorem eval_bind (p : Prog Op Res α) (f : α → Prog Op Res β) :
    (p >>= f).eval exec s = (f (p.eval exec s).1).eval exec (p.eval exec s).2 := by
  induction p generalizing s with
  | done a => rfl
  | call o k ih => exact ih (exec s o).1 (exec s o).2

end Eval

/-- Run a program of a smaller signature inside a larger one. -/
def lift (f : Op' → Op) (g : (o : Op') → Res (f o) → Res' o) : Prog Op' Res' α → Prog Op Res α
  | .done a => .done a
  | .call o k => .call (f o) fun r => (k (g o r)).lift f g

@[simp] theorem lift_done (f : Op' → Op) (g : (o : Op') → Res (f o) → Res' o) (a : α) :
    (Prog.done a : Prog Op' Res' α).lift f g = .done a := rfl

@[simp] theorem lift_call (f : Op' → Op) (g : (o : Op') → Res (f o) → Res' o) (o : Op')
    (k : Res' o → Prog Op' Res' α) :
    (Prog.call o k).lift f g = .call (f o) fun r => (k (g o r)).lift f g := rfl

theorem lift_bind (f : Op' → Op) (g : (o : Op') → Res (f o) → Res' o) (p : Prog Op' Res' α)
    (q : α → Prog Op' Res' β) : (p >>= q).lift f g = p.lift f g >>= fun a => (q a).lift f g := by
  induction p with
  | done a => rfl
  | call o k ih =>
    simp only [call_bind, lift_call]
    congr 1
    funext r
    exact ih (g o r)

/-- Every operation the program can reach, whatever the answers, satisfies `Q`. -/
def Always (Q : Op → Prop) : Prog Op Res α → Prop
  | .done _ => True
  | .call o k => Q o ∧ ∀ r, (k r).Always Q

section Always

variable {Q : Op → Prop}

@[simp] theorem always_done (a : α) : (Prog.done a : Prog Op Res α).Always Q := trivial

@[simp] theorem always_call (o : Op) (k : Res o → Prog Op Res α) :
    (Prog.call o k).Always Q ↔ Q o ∧ ∀ r, (k r).Always Q := Iff.rfl

@[simp] theorem always_perform (o : Op) :
    (perform o : Prog Op Res (Res o)).Always Q ↔ Q o := by
  simp [perform]

theorem Always.bind {p : Prog Op Res α} {f : α → Prog Op Res β} (hp : p.Always Q)
    (hf : ∀ a, (f a).Always Q) : (p >>= f).Always Q := by
  induction p with
  | done a => exact hf a
  | call o k ih => exact ⟨hp.1, fun r => ih r (hp.2 r)⟩

theorem always_perform_bind {o : Op} {f : Res o → Prog Op Res β} (ho : Q o)
    (hf : ∀ r, (f r).Always Q) : (perform o >>= f).Always Q := ⟨ho, hf⟩

theorem Always.mono {Q' : Op → Prop} {p : Prog Op Res α} (hp : p.Always Q)
    (h : ∀ o, Q o → Q' o) : p.Always Q' := by
  induction p with
  | done a => trivial
  | call o k ih => exact ⟨h o hp.1, fun r => ih r (hp.2 r)⟩

theorem Always.lift {f : Op' → Op} {g : (o : Op') → Res (f o) → Res' o} {p : Prog Op' Res' α}
    (hp : p.Always fun o => Q (f o)) : (p.lift f g).Always Q := by
  induction p with
  | done a => trivial
  | call o k ih => exact ⟨hp.1, fun r => ih _ (hp.2 _)⟩

theorem always_of (h : ∀ o, Q o) (p : Prog Op Res α) : p.Always Q := by
  induction p with
  | done a => trivial
  | call o k ih => exact ⟨h o, fun r => ih r⟩

theorem always_lift_of {f : Op' → Op} {g : (o : Op') → Res (f o) → Res' o} (hf : ∀ o, Q (f o))
    (p : Prog Op' Res' α) : (p.lift f g).Always Q := (always_of hf p).lift

/-- The rule for a fallible program: an error stops it, so only the success needs a proof. -/
theorem Always.except_bind {x : ExceptT ε (Prog Op Res) α} {f : α → ExceptT ε (Prog Op Res) β}
    (hx : Always Q x.run) (hf : ∀ a, Always Q (f a).run) : Always Q (x >>= f).run := by
  rw [ExceptT.run_bind]
  refine Always.bind hx fun a => ?_
  cases a with
  | error e => exact always_done _
  | ok a => exact hf a

end Always

/-- Each operation is allowed in the local state the operations before it led to, and the program
returns in a local state of `post`. -/
def Follows {L : Type} (next : L → (o : Op) → Res o → L) (ok : L → Op → Prop)
    (post : L → α → Prop) : L → Prog Op Res α → Prop
  | l, .done a => post l a
  | l, .call o k => ok l o ∧ ∀ r, (k r).Follows next ok post (next l o r)

section Follows

variable {L : Type} {next : L → (o : Op) → Res o → L} {ok : L → Op → Prop} {post : L → α → Prop}
  {l : L}

@[simp] theorem follows_done (a : α) :
    (Prog.done a : Prog Op Res α).Follows next ok post l ↔ post l a := Iff.rfl

@[simp] theorem follows_call (o : Op) (k : Res o → Prog Op Res α) :
    (Prog.call o k).Follows next ok post l ↔
      ok l o ∧ ∀ r, (k r).Follows next ok post (next l o r) := Iff.rfl

theorem Follows.bind {post' : L → β → Prop} {p : Prog Op Res α} {f : α → Prog Op Res β}
    (hp : p.Follows next ok post l)
    (hf : ∀ l a, post l a → (f a).Follows next ok post' l) : (p >>= f).Follows next ok post' l := by
  induction p generalizing l with
  | done a => exact hf l a hp
  | call o k ih => exact ⟨hp.1, fun r => ih r (hp.2 r)⟩

theorem Follows.mono {post' : L → α → Prop} {p : Prog Op Res α} (hp : p.Follows next ok post l)
    (h : ∀ l a, post l a → post' l a) : p.Follows next ok post' l := by
  induction p generalizing l with
  | done a => exact h l a hp
  | call o k ih => exact ⟨hp.1, fun r => ih r (hp.2 r)⟩

theorem Follows.mono_ok {ok' : L → Op → Prop} {p : Prog Op Res α}
    (hp : p.Follows next ok post l) (h : ∀ l o, ok l o → ok' l o) :
    p.Follows next ok' post l := by
  induction p generalizing l with
  | done a => exact hp
  | call o k ih => exact ⟨h l o hp.1, fun r => ih r (hp.2 r)⟩

theorem Follows.lift {f : Op → Op'} {g : (o : Op) → Res' (f o) → Res o}
    {next' : L → (o : Op') → Res' o → L} {ok' : L → Op' → Prop} {p : Prog Op Res α}
    (hp : p.Follows next ok post l) (hnext : ∀ l o r, next' l (f o) r = next l o (g o r))
    (hok : ∀ l o, ok l o → ok' l (f o)) : (p.lift f g).Follows next' ok' post l := by
  induction p generalizing l with
  | done a => exact hp
  | call o k ih =>
    refine ⟨hok l o hp.1, fun r => ?_⟩
    rw [hnext]
    exact ih _ (hp.2 _)

theorem Always.follows {Q : Op → Prop} {p : Prog Op Res α} (hp : p.Always Q)
    (hQ : ∀ o, Q o → ok l o ∧ ∀ r, next l o r = l) (hpost : ∀ a, post l a) :
    p.Follows next ok post l := by
  induction p with
  | done a => exact hpost a
  | call o k ih =>
    obtain ⟨hok, hnext⟩ := hQ o hp.1
    refine ⟨hok, fun r => ?_⟩
    rw [hnext r]
    exact ih r (hp.2 r)

theorem Always.follows_any {Q : Op → Prop} {p : Prog Op Res α} (hp : p.Always Q)
    (hQ : ∀ l o, Q o → ok l o) (hpost : ∀ l a, post l a) : p.Follows next ok post l := by
  induction p generalizing l with
  | done a => exact hpost l a
  | call o k ih => exact ⟨hQ l o hp.1, fun r => ih r (hp.2 r)⟩

end Follows

/-- The answers a program has received so far, the newest first. -/
abbrev History (Op : Type) (Res : Op → Type) := List (Σ o : Op, Res o)

/-- `After p h q`: having received the answers of `h`, the program `p` stands at `q`. -/
inductive After (p : Prog Op Res α) : History Op Res → Prog Op Res α → Prop
  | start : After p [] p
  | answer {h : History Op Res} {o : Op} {k : Res o → Prog Op Res α}
      (prior : After p h (.call o k)) (r : Res o) : After p (⟨o, r⟩ :: h) (k r)

theorem After.of_done {a : α} {h : History Op Res} {q : Prog Op Res α}
    (ha : After (.done a) h q) : h = [] ∧ q = .done a := by
  induction ha with
  | start => exact ⟨rfl, rfl⟩
  | answer _ _ ih => cases ih.2

theorem After.of_call {o : Op} {k : Res o → Prog Op Res α} {h : History Op Res} {q : Prog Op Res α}
    (ha : After (.call o k) h q) :
    (h = [] ∧ q = .call o k) ∨ ∃ r h', h = h' ++ [⟨o, r⟩] ∧ After (k r) h' q := by
  induction ha with
  | start => exact Or.inl ⟨rfl, rfl⟩
  | @answer h o' k' _ r ih =>
    rcases ih with ⟨rfl, heq⟩ | ⟨r₀, h', rfl, hafter⟩
    · cases heq
      exact Or.inr ⟨r, [], rfl, .start⟩
    · exact Or.inr ⟨r₀, ⟨o', r⟩ :: h', rfl, hafter.answer r⟩

theorem After.of_bind {p : Prog Op Res α} {f : α → Prog Op Res β} {h : History Op Res} {b : β}
    (ha : After (p >>= f) h (.done b)) :
    ∃ h₁ h₂ a, h = h₂ ++ h₁ ∧ After p h₁ (.done a) ∧ After (f a) h₂ (.done b) := by
  have hsplit : ∀ {h q}, After (p >>= f) h q → (∃ p', After p h p' ∧ q = p' >>= f) ∨
      ∃ h₁ h₂ a, h = h₂ ++ h₁ ∧ After p h₁ (.done a) ∧ After (f a) h₂ q := by
    intro h q hq
    induction hq with
    | start => exact Or.inl ⟨p, .start, rfl⟩
    | @answer h o k _ r ih =>
      rcases ih with ⟨p', hp, hk⟩ | ⟨h₁, h₂, a, rfl, hp, hf⟩
      · cases p' with
        | done a =>
          refine Or.inr ⟨h, [⟨o, r⟩], a, rfl, hp, ?_⟩
          have hf : After (f a) [] (.call o k) := by
            rw [hk]
            exact .start
          exact hf.answer r
        | call o' k' =>
          cases hk
          exact Or.inl ⟨k' r, hp.answer r, rfl⟩
      · exact Or.inr ⟨h₁, ⟨o, r⟩ :: h₂, a, rfl, hp, hf.answer r⟩
  rcases hsplit ha with ⟨p', hp, hb⟩ | hdone
  · cases p' with
    | done a =>
      refine ⟨h, [], a, rfl, hp, ?_⟩
      have hf : f a = .done b := hb.symm
      rw [hf]
      exact .start
    | call o k => cases hb
  · exact hdone

theorem Always.of_after {Q : Op → Prop} {p q : Prog Op Res α} {h : History Op Res}
    (hp : p.Always Q) (ha : After p h q) : q.Always Q ∧ ∀ x ∈ h, Q x.1 := by
  induction ha with
  | start => exact ⟨hp, fun x hx => absurd hx List.not_mem_nil⟩
  | answer _ r ih =>
    refine ⟨ih.1.2 r, fun x hx => ?_⟩
    rcases List.mem_cons.mp hx with rfl | hx
    · exact ih.1.1
    · exact ih.2 x hx

/-- The local state a history of answers leads to. -/
def reached {L : Type} (next : L → (o : Op) → Res o → L) (l : L) : History Op Res → L
  | [] => l
  | x :: h => next (reached next l h) x.1 x.2

theorem Follows.after {L : Type} {next : L → (o : Op) → Res o → L} {ok : L → Op → Prop}
    {post : L → α → Prop} {l : L} {p q : Prog Op Res α} {h : History Op Res}
    (hp : p.Follows next ok post l) (ha : After p h q) :
    q.Follows next ok post (reached next l h) := by
  induction ha with
  | start => exact hp
  | answer _ r ih => exact ih.2 r

theorem Follows.reached {L : Type} {next : L → (o : Op) → Res o → L} {ok : L → Op → Prop}
    {post : L → α → Prop} {l : L} {p q : Prog Op Res α} {h : History Op Res} {P : L → Prop}
    (hp : p.Follows next ok post l) (ha : After p h q) (hl : P l)
    (hnext : ∀ l o r, P l → ok l o → P (next l o r)) : P (reached next l h) := by
  induction ha with
  | start => exact hl
  | answer prior r ih => exact hnext _ _ r ih (hp.after prior).1

def record (h : History Op Res) (o : Op) (r : Res o) : History Op Res := ⟨o, r⟩ :: h

theorem reached_record (h : History Op Res) : reached record [] h = h := by
  induction h with
  | nil => rfl
  | cons x h ih => rw [reached, ih, record]

theorem Follows.returned {ok : History Op Res → Op → Prop} {post : History Op Res → α → Prop}
    {p : Prog Op Res α} {h : History Op Res} {a : α} (hp : p.Follows record ok post [])
    (ha : After p h (.done a)) : post h a := by
  have hpost := hp.after ha
  rw [reached_record] at hpost
  exact hpost

/-- Every operation the program reaches is justified by the answers received before it. -/
def Justified (J : History Op Res → Op → Prop) : History Op Res → Prog Op Res α → Prop
  | _, .done _ => True
  | h, .call o k => J h o ∧ ∀ r, (k r).Justified J (⟨o, r⟩ :: h)

section Justified

variable {J : History Op Res → Op → Prop}

@[simp] theorem justified_done (h : History Op Res) (a : α) :
    (Prog.done a : Prog Op Res α).Justified J h := trivial

@[simp] theorem justified_call (h : History Op Res) (o : Op) (k : Res o → Prog Op Res α) :
    (Prog.call o k).Justified J h ↔ J h o ∧ ∀ r, (k r).Justified J (⟨o, r⟩ :: h) := Iff.rfl

theorem justified_iff_follows {p : Prog Op Res α} {h : History Op Res} :
    p.Justified J h ↔ p.Follows record J (fun _ _ => True) h := by
  induction p generalizing h with
  | done a => exact Iff.rfl
  | call o k ih => exact and_congr_right fun _ => forall_congr' fun r => ih r

theorem Justified.after {p q : Prog Op Res α} {h : History Op Res}
    (hp : p.Justified J []) (ha : After p h q) : q.Justified J h := by
  induction ha with
  | start => exact hp
  | answer _ r ih => exact ih.2 r

theorem Justified.bind {h : History Op Res} {p : Prog Op Res α} {f : α → Prog Op Res β}
    (hp : p.Justified J h) (hf : ∀ h a, (f a).Justified J h) : (p >>= f).Justified J h := by
  induction p generalizing h with
  | done a => exact hf h a
  | call o k ih => exact ⟨hp.1, fun r => ih r (hp.2 r)⟩

theorem Always.justified_bind {h : History Op Res} {Q : Op → Prop} {p : Prog Op Res α}
    {f : α → Prog Op Res β} (hQ : ∀ h o, Q o → J h o) (hp : p.Always Q)
    (hf : ∀ h a, (f a).Justified J h) : (p >>= f).Justified J h := by
  induction p generalizing h with
  | done a => exact hf h a
  | call o k ih => exact ⟨hQ _ _ hp.1, fun r => ih r (hp.2 r)⟩

theorem Always.justified {h : History Op Res} {Q : Op → Prop} {p : Prog Op Res α}
    (hQ : ∀ h o, Q o → J h o) (hp : p.Always Q) : p.Justified J h := by
  induction p generalizing h with
  | done a => trivial
  | call o k ih => exact ⟨hQ _ _ hp.1, fun r => ih r (hp.2 r)⟩

end Justified

/-- Whatever answers allowed by `A` the program receives, it comes to an operation in `G`. -/
def Must (A : (o : Op) → Res o → Prop) (G : Op → Prop) : Prog Op Res α → Prop
  | .done _ => False
  | .call o k => G o ∨ ∀ r, A o r → (k r).Must A G

section Must

variable {A : (o : Op) → Res o → Prop} {G : Op → Prop}

theorem Must.bind {p : Prog Op Res α} {f : α → Prog Op Res β} (hp : p.Must A G) :
    (p >>= f).Must A G := by
  induction p with
  | done a => exact hp.elim
  | call o k ih =>
    rcases hp with hg | hk
    · exact Or.inl hg
    · exact Or.inr fun r hr => ih r (hk r hr)

theorem Must.of_bind {p : Prog Op Res α} {f : α → Prog Op Res β} (hf : ∀ a, (f a).Must A G) :
    (p >>= f).Must A G := by
  induction p with
  | done a => exact hf a
  | call o k ih => exact Or.inr fun r _ => ih r

/-- One operation on: the goal was met by it, or it is still to come. -/
theorem Must.next {o : Op} {k : Res o → Prog Op Res α} {r : Res o}
    (h : (Prog.call o k).Must A G) (hg : ¬ G o) (hr : A o r) : (k r).Must A G :=
  h.elim (fun hG => absurd hG hg) fun hk => hk r hr

end Must

/-- After each operation the program is bound to what is due because of it. -/
def Owes (D : Op → ((o : Op) → Res o → Prop) → (Op → Prop) → Prop) : Prog Op Res α → Prop
  | .done _ => True
  | .call o k => ∀ r, (∀ A G, D o A G → (k r).Must A G) ∧ (k r).Owes D

section Owes

variable {D : Op → ((o : Op) → Res o → Prop) → (Op → Prop) → Prop}

theorem Owes.after {p q : Prog Op Res α} {h : History Op Res} (hp : p.Owes D) (ha : After p h q) :
    q.Owes D := by
  induction ha with
  | start => exact hp
  | answer _ r ih => exact (ih r).2

theorem Owes.bind {p : Prog Op Res α} {f : α → Prog Op Res β} (hp : p.Owes D)
    (hf : ∀ a, (f a).Owes D) : (p >>= f).Owes D := by
  induction p with
  | done a => exact hf a
  | call o k ih => exact fun r => ⟨fun A G hD => ((hp r).1 A G hD).bind, ih r (hp r).2⟩

theorem Always.owes_bind {Q : Op → Prop} {p : Prog Op Res α} {f : α → Prog Op Res β}
    (hp : p.Always Q) (hQ : ∀ o, Q o → ∀ A G, D o A G → ∀ a, (f a).Must A G)
    (hf : ∀ a, (f a).Owes D) : (p >>= f).Owes D := by
  induction p with
  | done a => exact hf a
  | call o k ih =>
    exact fun r => ⟨fun A G hD => Must.of_bind (hQ o hp.1 A G hD), ih r (hp.2 r)⟩

theorem Always.owes {Q : Op → Prop} {p : Prog Op Res α} (hp : p.Always Q)
    (hQ : ∀ o, Q o → ∀ A G, ¬ D o A G) : p.Owes D := by
  induction p with
  | done a => trivial
  | call o k ih => exact fun r => ⟨fun A G hD => absurd hD (hQ o hp.1 A G), ih r (hp.2 r)⟩

end Owes

end Prog

end HashedBroker.AtomicPrograms
