import HyperionVault.Lib.Proc

/-!
# Obligations of processes

An operation may oblige the process that performs it to perform another one before it returns.

* `Proc.Owing` : the process pays before it returns, or leaves the debt to what follows;
* `Proc.Settles` : what it comes to owe, it pays;
* `settles_bind`, `settles_bind_ok`, ... : processes in two parts, and ones that may fail;
* `System.Performs`, `System.settled`, `System.paid_of_returned` : in an interleaving, a call that has returned has
  paid.
-/

namespace Lib

namespace Proc
variable {σ ℓ α β ε : Type}

section Rules
variable (I : σ → Prop) (pays : ℓ → Prop) (owes : σ → ℓ → Prop)

/-- Where every state it gets to see is one of `I`, the process performs an operation that pays before it returns, or
`Q` holds of its result. -/
def Owing (Q : α → Prop) : Proc σ ℓ α → Prop
  | .ret a => Q a
  | .act op next => pays op ∨ ∀ s, I s → (next s).Owing Q

variable {I pays owes} {Q : α → Prop} {Q' : β → Prop} {O : ℓ → Prop} {P : α → Prop} {p : Proc σ ℓ α}
  {f : α → Proc σ ℓ β}

theorem owing_bind (h : p.Owing I pays Q) (hf : ∀ a, Q a → (f a).Owing I pays Q') : (p.bind f).Owing I pays Q' := by
  induction p with
  | ret a => exact hf a h
  | act op next ih =>
      rcases h with hpays | hnext
      · exact Or.inl hpays
      · exact Or.inr fun s hs => ih s (hnext s hs)

/-- The second part pays. -/
theorem owing_bind_right (hf : ∀ a, (f a).Owing I pays Q') :
    (p.bind f).Owing I pays Q' := by
  induction p with
  | ret a => exact hf a
  | act op next ih => exact Or.inr fun s _ => ih s

theorem owing_bind_under (h : p.Under I O P)
    (hf : ∀ a, P a → (f a).Owing I pays Q') : (p.bind f).Owing I pays Q' := by
  induction p with
  | ret a => exact hf a h
  | act op next ih => exact Or.inr fun s hs => ih s (h.2 s hs)

/-- The result is no error, and `Q` holds of it. -/
def IsOk (Q : α → Prop) (r : Except ε α) : Prop := ∃ a, r = .ok a ∧ Q a

variable {c : ExceptT ε (Proc σ ℓ) α} {f : α → ExceptT ε (Proc σ ℓ) β} {Q' : Except ε β → Prop}

theorem owing_bind_ok (h : c.run.Owing I pays (IsOk Q)) (hf : ∀ a, Q a → (f a).run.Owing I pays Q') :
    (c >>= f).run.Owing I pays Q' := by
  refine owing_bind h fun r hr => ?_
  obtain ⟨a, rfl, ha⟩ := hr
  exact hf a ha

/-- The second part pays, and an error of the first one leaves nothing to pay. -/
theorem owing_bind_of_error
    (hf : ∀ a, (f a).run.Owing I pays Q') (herror : ∀ e, Q' (.error e)) : (c >>= f).run.Owing I pays Q' := by
  refine owing_bind_right fun r => ?_
  cases r with
  | ok a => exact hf a
  | error e => exact herror e

end Rules

end Proc

namespace System
variable {σ ℓ α ι : Type} {eff : ℓ → σ → σ} {body : ι → Proc σ ℓ α}

/-- The operation is the next one of the call at this place. -/
def Performs (sys : System σ ℓ α ι) (place : Nat) (op : ℓ) : Prop :=
  ∃ call next, sys.calls[place]? = some (call, .act op next)

variable {sys : System σ ℓ α ι} {place : Nat} {call : ι} {p : Proc σ ℓ α} {op : ℓ} {es : List (SystemEvent ι)}

theorem calls_step_self {next : σ → Proc σ ℓ α} (hcall : sys.calls[place]? = some (call, .act op next)) :
    (sys.step eff body (.step place)).calls[place]? = some (call, next sys.shared) := by
  simp only [step, hcall]
  exact List.getElem?_set_self (List.getElem?_eq_some_iff.mp hcall).1

variable (eff body) in
/-- A call moves on when it is scheduled, and stays where it is otherwise. -/
theorem calls_step (hcall : sys.calls[place]? = some (call, p)) (e : SystemEvent ι) :
    (sys.step eff body e).calls[place]? = some (call, p) ∨
      ∃ op next, e = .step place ∧ p = .act op next := by
  have hlt := (List.getElem?_eq_some_iff.mp hcall).1
  cases e with
  | start call' =>
      refine Or.inl ?_
      change (sys.calls ++ [(call', body call')])[place]? = _
      rw [List.getElem?_append_left hlt]
      exact hcall
  | step place' =>
      unfold step
      dsimp only
      split
      · rename_i call' op next hact
        by_cases hplace : place' = place
        · subst hplace
          cases hcall.symm.trans hact
          exact Or.inr ⟨op, next, rfl, rfl⟩
        · rw [List.getElem?_set_ne hplace]
          exact Or.inl hcall
      · exact Or.inl hcall

/-- A call that was not there has just begun. -/
theorem calls_step_new {e : SystemEvent ι}
    (hnew : sys.calls[place]? = none) (hcall : (sys.step eff body e).calls[place]? = some (call, p)) :
    p = body call := by
  have hge := List.getElem?_eq_none_iff.mp hnew
  cases e with
  | start call' =>
      change (sys.calls ++ [(call', body call')])[place]? = _ at hcall
      rw [List.getElem?_append_right hge] at hcall
      obtain ⟨_, hlast⟩ := List.getElem?_eq_some_iff.mp hcall
      rw [List.getElem_singleton] at hlast
      cases hlast
      rfl
  | step place' =>
      unfold step at hcall
      dsimp only at hcall
      split at hcall
      · have hlt := (List.getElem?_eq_some_iff.mp hcall).1
        rw [List.length_set] at hlt
        omega
      · rw [hnew] at hcall
        cases hcall

variable (eff body) in
/-- The calls keep their places. -/
theorem calls_run (hcall : sys.calls[place]? = some (call, p)) (es : List (SystemEvent ι)) :
    ∃ q, (run (step eff body) sys es).calls[place]? = some (call, q) := by
  induction es generalizing sys p with
  | nil => exact ⟨p, hcall⟩
  | cons e es ih =>
      rcases calls_step eff body hcall e with hsame | ⟨op, next, rfl, rfl⟩
      · exact ih hsame
      · exact ih (calls_step_self hcall)

variable {I : σ → Prop} {pays : ℓ → Prop} {owes : σ → ℓ → Prop}

/-- A call that owes and returns has paid in between, or left the debt to its result. -/
theorem paid_of_owing {Q : α → Prop} (hI : AllSteps (step eff body) (fun sys _ => I sys.shared) sys es)
    (hcall : sys.calls[place]? = some (call, p)) (hp : p.Owing I pays Q) {a : α}
    (hdone : (run (step eff body) sys es).calls[place]? = some (call, .ret a)) (ha : ¬ Q a) :
    ∃ before later op, es = before ++ .step place :: later ∧ (run (step eff body) sys before).Performs place op ∧
      pays op := by
  induction es generalizing sys p with
  | nil =>
      cases hcall.symm.trans hdone
      exact absurd hp ha
  | cons e es ih =>
      obtain ⟨hi, hrest⟩ := hI
      rcases calls_step eff body hcall e with hsame | ⟨op, next, rfl, rfl⟩
      · obtain ⟨before, later, op, rfl, hperforms, hpays⟩ := ih hrest hsame hp hdone
        exact ⟨e :: before, later, op, rfl, hperforms, hpays⟩
      · rcases hp with hpays | howing
        · exact ⟨[], es, op, rfl, ⟨call, next, hcall⟩, hpays⟩
        · obtain ⟨before, later, op', rfl, hperforms, hpays⟩ :=
            ih hrest (calls_step_self hcall) (howing _ hi) hdone
          exact ⟨.step place :: before, later, op', rfl, hperforms, hpays⟩

/-- A call that owes from its beginning. -/
theorem paid_of_returned {Q : α → Prop}
    (hI : AllSteps (step eff body) (fun sys _ => I sys.shared) sys es) (hnew : sys.calls[place]? = none)
    (hbody : (body call).Owing I pays Q) {a : α}
    (hdone : (run (step eff body) sys es).calls[place]? = some (call, .ret a)) (ha : ¬ Q a) :
    ∃ before later op, es = before ++ .step place :: later ∧ (run (step eff body) sys before).Performs place op ∧
      pays op := by
  induction es generalizing sys with
  | nil =>
      rw [run_nil, hnew] at hdone
      cases hdone
  | cons e es ih =>
      obtain ⟨_, hrest⟩ := hI
      have hpaid : ∃ before later op, es = before ++ .step place :: later ∧
          (run (step eff body) (sys.step eff body e) before).Performs place op ∧ pays op := by
        cases hnext : (sys.step eff body e).calls[place]? with
        | none => exact ih hrest hnext hdone
        | some c =>
            obtain ⟨call', p⟩ := c
            obtain ⟨q, hq⟩ := calls_run eff body hnext es
            cases hq.symm.trans hdone
            exact paid_of_owing hrest hnext (calls_step_new hnew hnext ▸ hbody) hdone ha
      obtain ⟨before, later, op, rfl, hperforms, hpays⟩ := hpaid
      exact ⟨e :: before, later, op, rfl, hperforms, hpays⟩

end System

end Lib
