import HashedBroker.SessionOps

/-!
# Handlers that follow a local state

The rules for the parts a handler is made of. A part that fails ends the handler, so what it leaves
must be acceptable with its error.
-/
namespace HashedBroker.Server
open AtomicPrograms Protocol Database

section Rules

variable {L α β : Type} {next : L → (o : Op) → Res o → L} {ok : L → Op → Prop}
  {post : L → Except BrokerError β → Prop} {l : L}

theorem follows_lift_bind {p : Work α} {f : α → Handler β}
    (hp : p.Follows next ok (fun l a => (f a).run.Follows next ok post l) l) :
    (ExceptT.lift p >>= f).run.Follows next ok post l := by
  rw [run_lift_bind]
  exact hp.bind fun l a hf => hf

theorem follows_attempt_bind {p : Work (Except BrokerError α)} {f : α → Handler β}
    (hp : p.Follows next ok (fun l x =>
      match x with
      | .ok a => (f a).run.Follows next ok post l
      | .error e => post l (.error e)) l) :
    (attempt p >>= f).run.Follows next ok post l := by
  rw [run_attempt_bind]
  refine hp.bind fun l x hx => ?_
  cases x with
  | ok a => exact hx
  | error e => exact hx

theorem follows_require_bind {x : Except BrokerError α} {f : α → Handler β}
    (he : ∀ e, x = .error e → post l (.error e))
    (hf : ∀ a, x = .ok a → (f a).run.Follows next ok post l) :
    (require x >>= f).run.Follows next ok post l := by
  rw [run_require_bind]
  cases x with
  | ok a => exact hf a rfl
  | error e => exact he e rfl

theorem follows_orElse_bind {x : Option α} {e : BrokerError} {f : α → Handler β}
    (he : x = none → post l (.error e))
    (hf : ∀ a, x = some a → (f a).run.Follows next ok post l) :
    (orElse x e >>= f).run.Follows next ok post l := by
  rw [run_orElse_bind]
  cases x with
  | some a => exact hf a rfl
  | none => exact he rfl

theorem follows_trySend_bind {c : ℕ} {msg : ServerMessage} {f : Unit → Handler β}
    (hok : ok l (.send c msg)) (he : post (next l (.send c msg) false) (.error .peerOffline))
    (hf : (f ()).run.Follows next ok post (next l (.send c msg) true)) :
    (trySend c msg >>= f).run.Follows next ok post l := by
  rw [trySend, run_attempt_bind]
  refine ⟨hok, fun sent => ?_⟩
  cases sent with
  | true => exact hf
  | false => exact he

theorem follows_bind {x : Handler α} {f : α → Handler β}
    (hx : x.run.Follows next ok (fun l a =>
      match a with
      | .ok a => (f a).run.Follows next ok post l
      | .error e => post l (.error e)) l) :
    (x >>= f).run.Follows next ok post l := by
  rw [ExceptT.run_bind]
  refine hx.bind fun l a ha => ?_
  cases a with
  | ok a => exact ha
  | error e => exact ha

end Rules

end HashedBroker.Server
