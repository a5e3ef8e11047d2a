import HyperionVault.Lib.Run
import Mathlib.Order.Defs.Unbundled

/-!
# Processes over a shared state

A process computes by itself between atomic operations on a state that it shares with others. What an
operation does to the state is a function `eff : ℓ → σ → σ`; what the process then does may depend on the
state in which the operation was performed.

* `Proc σ ℓ α` : processes with operations `ℓ`, a monad in the result `α`;
* `Proc.exec` : a process that runs alone;
* `System`, `System.step` : any number of calls of `body : ι → Proc σ ℓ α`, interleaved by operations;
* `Proc.Guards` : what a process promises about the operations it performs when the others keep an
  invariant `I` and a preorder `R`, with a rule for each way to build a process (`guards_bind`, ...);
* `run_guards` : what all calls promise, every interleaving of them keeps;
* `OpenEvent`, `System.stepOpen`, `run_guards_open` : the same where the state also changes from outside;
* `Proc.Only` : the operations of a process, whatever it gets to see; `Proc.Under` : its operations and its
  result, where it gets to see states of an invariant;
* `Proc.Relies` : what a process promises where the others keep a preorder that it does not keep itself.
-/

namespace Lib

theorem bind_eq_ok {ε α β : Type} {x : Except ε α} {f : α → Except ε β} {b : β} :
    (x >>= f) = .ok b ↔ ∃ a, x = .ok a ∧ f a = .ok b := by
  cases x with
  | ok a => exact ⟨fun h => ⟨a, rfl, h⟩, fun ⟨_, ha, h⟩ => by cases ha; exact h⟩
  | error e => exact ⟨fun h => (nomatch h), fun ⟨_, ha, _⟩ => (nomatch ha)⟩

/-- A process is a result, or an operation on the shared state and the process that follows it. -/
inductive Proc (σ ℓ α : Type) where
  | ret (result : α)
  | act (op : ℓ) (next : σ → Proc σ ℓ α)

namespace Proc
variable {σ ℓ α β : Type}

def bind : Proc σ ℓ α → (α → Proc σ ℓ β) → Proc σ ℓ β
  | .ret a, f => f a
  | .act op next, f => .act op fun s => (next s).bind f

instance : Monad (Proc σ ℓ) where
  pure := .ret
  bind := bind

/-- One operation, and a value read off the state in which it is performed. -/
def perform (op : ℓ) (value : σ → α) : Proc σ ℓ α := .act op fun s => .ret (value s)

/-- The result and the final state of a process that runs alone. -/
def exec (eff : ℓ → σ → σ) : Proc σ ℓ α → σ → α × σ
  | .ret a, s => (a, s)
  | .act op next, s => (next s).exec eff (eff op s)

theorem exec_bind (eff : ℓ → σ → σ) (p : Proc σ ℓ α) (f : α → Proc σ ℓ β) (s : σ) :
    (p.bind f).exec eff s = (f (p.exec eff s).1).exec eff (p.exec eff s).2 := by
  induction p generalizing s with
  | ret a => rfl
  | act op next ih => exact ih s (eff op s)

/-! ## A process that is scheduled several times in a row -/

section Reaches
variable (eff : ℓ → σ → σ) (K : σ → ℓ → Prop)

/-- The process performs `n` operations, all allowed by `K`, and is then left with the process `q`. -/
def Reaches : Nat → Proc σ ℓ α → σ → Proc σ ℓ α → σ → Prop
  | 0, p, s, q, t => p = q ∧ s = t
  | _ + 1, .ret _, _, _, _ => False
  | n + 1, .act op next, s, q, t => K s op ∧ Reaches n (next s) (eff op s) q t

/-- After `n` operations the process is about to perform `op`. -/
def NextOp (n : Nat) (p : Proc σ ℓ α) (s : σ) (op : ℓ) (t : σ) : Prop :=
  ∃ next, Reaches eff K n p s (.act op next) t

variable {eff K} {n m : Nat} {p : Proc σ ℓ α} {f : α → Proc σ ℓ β} {a : α} {op : ℓ} {value : σ → α} {s t u : σ}

theorem reaches_trans {p q r : Proc σ ℓ α} (h : Reaches eff K n p s q t)
    (h' : Reaches eff K m q t r u) : Reaches eff K (n + m) p s r u := by
  induction n generalizing p s with
  | zero =>
      obtain ⟨rfl, rfl⟩ := h
      rw [Nat.zero_add]
      exact h'
  | succ n ih =>
      cases p with
      | ret a => exact h.elim
      | act op next =>
          rw [Nat.succ_add]
          exact ⟨h.1, ih h.2⟩

theorem reaches_bind {p q : Proc σ ℓ α} (h : Reaches eff K n p s q t)
    (f : α → Proc σ ℓ β) : Reaches eff K n (p.bind f) s (q.bind f) t := by
  induction n generalizing p s with
  | zero =>
      obtain ⟨rfl, rfl⟩ := h
      exact ⟨rfl, rfl⟩
  | succ n ih =>
      cases p with
      | ret a => exact h.elim
      | act op next => exact ⟨h.1, ih h.2⟩

theorem reaches_bind_ret {r : Proc σ ℓ β} (h : Reaches eff K n p s (.ret a) t) (h' : Reaches eff K m (f a) t r u) :
    Reaches eff K (n + m) (p.bind f) s r u :=
  reaches_trans (reaches_bind h f) h'

theorem nextOp_bind (h : NextOp eff K n p s op t) (f : α → Proc σ ℓ β) : NextOp eff K n (p.bind f) s op t := by
  obtain ⟨next, hnext⟩ := h
  exact ⟨fun s => (next s).bind f, reaches_bind hnext f⟩

theorem nextOp_bind_ret (h : Reaches eff K n p s (.ret a) t) (h' : NextOp eff K m (f a) t op u) :
    NextOp eff K (n + m) (p.bind f) s op u := by
  obtain ⟨next, hnext⟩ := h'
  exact ⟨next, reaches_bind_ret h hnext⟩

theorem reaches_perform (h : K s op) :
    Reaches eff K 1 (perform op value) s (.ret (value s)) (eff op s) := ⟨h, rfl, rfl⟩

theorem nextOp_perform : NextOp eff K 0 (perform op value) s op s :=
  ⟨_, rfl, rfl⟩

end Reaches

/-! ## Promises of one process -/

section Guards
variable (eff : ℓ → σ → σ) (I : σ → Prop) (R : σ → σ → Prop) (G : σ → ℓ → Prop)

/-- Between its operations the state may change along `R` to any state that `I` allows; each operation is
then one that `G` allows in the state where it is performed, and `Q` holds of the result from then on. -/
def Guards : Proc σ ℓ α → σ → (σ → α → Prop) → Prop
  | .ret a, s, Q => ∀ s', R s s' → I s' → Q s' a
  | .act op next, s, Q => ∀ s', R s s' → I s' →
      G s' op ∧ (I (eff op s') → R s' (eff op s') → Guards (next s') (eff op s') Q)

variable {eff I R G} {p : Proc σ ℓ α} {f : α → Proc σ ℓ β} {s : σ} {Q : σ → α → Prop}

theorem guards_mono [IsPreorder σ R] {s s' : σ} (h : Guards eff I R G p s Q)
    (hs : R s s') : Guards eff I R G p s' Q := by
  cases p with
  | ret a => exact fun t ht => h t (trans_of R hs ht)
  | act op next => exact fun t ht => h t (trans_of R hs ht)

theorem guards_perform {op : ℓ} {value : σ → α} (h : ∀ s', R s s' → I s' → G s' op ∧
      (I (eff op s') → R s' (eff op s') → ∀ t, R (eff op s') t → I t → Q t (value s'))) :
    Guards eff I R G (perform op value) s Q :=
  fun s' hs hi => ⟨(h s' hs hi).1, fun hinv hr => (h s' hs hi).2 hinv hr⟩

/-- Fewer changes between the operations, more operations that are allowed, and a weaker promise. -/
theorem guards_imp {I' : σ → Prop} {G' : σ → ℓ → Prop} {Q' : σ → α → Prop} (h : Guards eff I R G p s Q)
    (hI : ∀ s, I' s → I s) (hG : ∀ s op, I' s → G s op → G' s op) (hQ : ∀ s a, Q s a → Q' s a) :
    Guards eff I' R G' p s Q' := by
  induction p generalizing s with
  | ret a => exact fun s' hs hi => hQ s' a (h s' hs (hI s' hi))
  | act op next ih =>
      intro s' hs hi
      obtain ⟨hop, hnext⟩ := h s' hs (hI s' hi)
      exact ⟨hG s' op hi hop, fun hinv hrel => ih s' (hnext (hI _ hinv) hrel)⟩

theorem guards_conseq {Q' : σ → α → Prop} (h : Guards eff I R G p s Q) (hQ : ∀ s a, Q s a → Q' s a) :
    Guards eff I R G p s Q' := guards_imp h (fun _ hi => hi) (fun _ _ _ hop => hop) hQ

theorem guards_weaken {G' : σ → ℓ → Prop} (h : Guards eff I R G p s Q) (hG : ∀ s op, I s → G s op → G' s op) :
    Guards eff I R G' p s Q := guards_imp h (fun _ hi => hi) hG fun _ _ hq => hq

theorem guards_restrict {I' : σ → Prop} (h : Guards eff I R G p s Q) (hI : ∀ s, I' s → I s) :
    Guards eff I' R G p s Q := guards_imp h hI (fun _ _ _ hop => hop) fun _ _ hq => hq

/-- The result is looked at in states of the invariant that follow the first one. -/
theorem guards_rel [IsPreorder σ R] (h : Guards eff I R G p s Q) :
    Guards eff I R G p s fun s' a => R s s' ∧ I s' ∧ Q s' a := by
  suffices hfrom : ∀ t, R s t → Guards eff I R G p t Q → Guards eff I R G p t fun s' a => R s s' ∧ I s' ∧ Q s' a from
    hfrom s (refl_of R s) h
  clear h
  induction p with
  | ret a => exact fun t ht h s' hs hi => ⟨trans_of R ht hs, hi, h s' hs hi⟩
  | act op next ih =>
      intro t ht h s' hs hi
      obtain ⟨hop, hnext⟩ := h s' hs hi
      exact ⟨hop, fun hinv hrel => ih s' _ (trans_of R ht (trans_of R hs hrel)) (hnext hinv hrel)⟩

theorem guards_bind [IsPreorder σ R] {Q' : σ → β → Prop} (hi : I s) (h : Guards eff I R G p s Q)
    (hf : ∀ t a, R s t → I t → (∀ t', R t t' → I t' → Q t' a) → Guards eff I R G (f a) t Q') :
    Guards eff I R G (p.bind f) s Q' := by
  induction p generalizing s with
  | ret a => exact hf s a (refl_of R s) hi h
  | act op next ih =>
      intro s' hs hi'
      obtain ⟨hop, hnext⟩ := h s' hs hi'
      refine ⟨hop, fun hinv hrel => ih s' hinv (hnext hinv hrel) fun t a ht => ?_⟩
      exact hf t a (trans_of R hs (trans_of R hrel ht))

/-! Processes that may fail promise something about the results they return without an error. -/

variable {ε : Type}

def OnOk (Q : σ → α → Prop) (s : σ) (r : Except ε α) : Prop := ∀ a, r = .ok a → Q s a

theorem guards_pure {a : α} (h : ∀ s', R s s' → I s' → Q s' a) :
    Guards eff I R G (pure a : ExceptT ε (Proc σ ℓ) α).run s (OnOk Q) := by
  intro s' hs hi b hb
  cases hb
  exact h s' hs hi

theorem guards_throw {e : ε} :
    Guards eff I R G (throw e : ExceptT ε (Proc σ ℓ) α).run s (OnOk Q) := by
  intro s' hs hi b hb
  cases hb

theorem guards_conseq_ok {p : ExceptT ε (Proc σ ℓ) α} {Q Q' : σ → α → Prop}
    (h : Guards eff I R G p.run s (OnOk Q)) (hQ : ∀ s a, Q s a → Q' s a) :
    Guards eff I R G p.run s (OnOk Q') :=
  guards_conseq h fun s _ hr a ha => hQ s a (hr a ha)

variable [IsPreorder σ R]

theorem guards_lift (hi : I s) (h : Guards eff I R G p s Q) :
    Guards eff I R G (ExceptT.lift p : ExceptT ε (Proc σ ℓ) α).run s (OnOk Q) :=
  guards_bind hi h fun _ _ _ _ hQ => guards_pure hQ

/-- What follows a step has to be considered only where the step succeeds. -/
theorem guards_bind_ok {p : ExceptT ε (Proc σ ℓ) α} {f : α → ExceptT ε (Proc σ ℓ) β}
    {Q' : σ → β → Prop} (hi : I s) (h : Guards eff I R G p.run s (OnOk Q))
    (hf : ∀ t a, R s t → I t → (∀ t', R t t' → I t' → Q t' a) → Guards eff I R G (f a).run t (OnOk Q')) :
    Guards eff I R G (p >>= f).run s (OnOk Q') := by
  refine guards_bind hi h fun t r ht hit hr => ?_
  cases r with
  | ok a => exact hf t a ht hit fun t' ht' hi' => hr t' ht' hi' a rfl
  | error e => exact guards_throw

end Guards

/-! ## The operations of a process -/

section Only
variable {eff : ℓ → σ → σ} {I : σ → Prop} {R : σ → σ → Prop} {G : σ → ℓ → Prop} {P : ℓ → Prop} {ε : Type}
  {p : Proc σ ℓ α} {f : α → Proc σ ℓ β} {Q : α → Prop} {op : ℓ} {value : σ → α}

/-- Whatever the process gets to see, it performs operations of this kind only. -/
def Only (P : ℓ → Prop) : Proc σ ℓ α → Prop
  | .ret _ => True
  | .act op next => P op ∧ ∀ s, (next s).Only P

theorem only_of_forall (h : ∀ op, P op) (p : Proc σ ℓ α) : p.Only P := by
  induction p with
  | ret a => exact trivial
  | act op next ih => exact ⟨h op, ih⟩

theorem only_perform (h : P op) : (perform op value).Only P := ⟨h, fun _ => trivial⟩

theorem only_bind (h : p.Only P) (hf : ∀ a, (f a).Only P) :
    (p.bind f).Only P := by
  induction p with
  | ret a => exact hf a
  | act op next ih => exact ⟨h.1, fun s => ih s (h.2 s)⟩

theorem only_lift (h : p.Only P) : (ExceptT.lift p : ExceptT ε (Proc σ ℓ) α).run.Only P :=
  only_bind h fun _ => trivial

theorem only_bind_ok {c : ExceptT ε (Proc σ ℓ) α} {f : α → ExceptT ε (Proc σ ℓ) β} (h : c.run.Only P)
    (hf : ∀ a, (f a).run.Only P) : (c >>= f).run.Only P := by
  refine only_bind h fun r => ?_
  cases r with
  | ok a => exact hf a
  | error e => exact trivial

theorem only_mono {P' : ℓ → Prop} (hP : ∀ op, P op → P' op) (h : p.Only P) : p.Only P' := by
  induction p with
  | ret a => exact trivial
  | act op next ih => exact ⟨hP op h.1, fun s => ih s (h.2 s)⟩

/-- What these operations keep, a process that performs no others keeps when it runs alone. -/
theorem exec_of_only {J : σ → Prop} (h : p.Only P) (hJ : ∀ s op, P op → J s → J (eff op s)) {s : σ}
    (hs : J s) : J (p.exec eff s).2 := by
  induction p generalizing s with
  | ret a => exact hs
  | act op next ih => exact ih s (h.2 s) (hJ s op h.1 hs)

/-- Where every state it gets to see is one of `I`, the process performs operations of the kind `P` only, and
`Q` holds of its result. -/
def Under (I : σ → Prop) (P : ℓ → Prop) (Q : α → Prop) : Proc σ ℓ α → Prop
  | .ret a => Q a
  | .act op next => P op ∧ ∀ s, I s → (next s).Under I P Q

theorem under_of_only (h : p.Only P) (hQ : ∀ a, Q a) : p.Under I P Q := by
  induction p with
  | ret a => exact hQ a
  | act op next ih => exact ⟨h.1, fun s _ => ih s (h.2 s)⟩

theorem under_perform (h : P op) (hQ : ∀ s, I s → Q (value s)) :
    (perform op value).Under I P Q := ⟨h, hQ⟩

theorem under_bind {Q' : β → Prop} (h : p.Under I P Q)
    (hf : ∀ a, Q a → (f a).Under I P Q') : (p.bind f).Under I P Q' := by
  induction p with
  | ret a => exact hf a h
  | act op next ih => exact ⟨h.1, fun s hs => ih s (h.2 s hs)⟩

/-- `Q` holds of a result that is no error. -/
def IfOk (Q : α → Prop) (r : Except ε α) : Prop := ∀ a, r = .ok a → Q a

theorem under_bind_ok {c : ExceptT ε (Proc σ ℓ) α} {f : α → ExceptT ε (Proc σ ℓ) β} {Q' : β → Prop}
    (h : c.run.Under I P (IfOk Q)) (hf : ∀ a, Q a → (f a).run.Under I P (IfOk Q')) :
    (c >>= f).run.Under I P (IfOk Q') := by
  refine under_bind h fun r hr => ?_
  cases r with
  | ok a => exact hf a (hr a rfl)
  | error e => exact fun b hb => nomatch hb

theorem under_mono {P' : ℓ → Prop} (hP : ∀ op, P op → P' op) (h : p.Under I P Q) :
    p.Under I P' Q := by
  induction p with
  | ret a => exact h
  | act op next ih => exact ⟨hP op h.1, fun s hs => ih s (h.2 s hs)⟩

theorem under_ok_mono {c : ExceptT ε (Proc σ ℓ) α} {Q Q' : α → Prop} (h : c.run.Under I P (IfOk Q))
    (hQ : ∀ a, Q a → Q' a) : c.run.Under I P (IfOk Q') := by
  generalize c.run = p at h
  induction p with
  | ret r => exact fun a ha => hQ a (h a ha)
  | act op next ih => exact ⟨h.1, fun s hs => ih s (h.2 s hs)⟩

theorem under_ok_of_only {c : ExceptT ε (Proc σ ℓ) α} (h : c.run.Only P) : c.run.Under I P (IfOk fun _ => True) :=
  under_of_only h fun _ _ _ => trivial

theorem guards_of_under (h : p.Under I P Q) (hG : ∀ s op, I s → P op → G s op)
    (s : σ) : Guards eff I R G p s fun _ a => Q a := by
  induction p generalizing s with
  | ret a => exact fun _ _ _ => h
  | act op next ih => exact fun s' _ hi => ⟨hG s' op hi h.1, fun _ _ => ih s' (h.2 s' hi) _⟩

end Only

/-! ## Promises that rest on the others alone -/

section Relies
variable (eff : ℓ → σ → σ) (R : σ → σ → Prop) (G : σ → ℓ → Prop)

/-- Between its operations the state changes along `R`, which the process itself need not keep; each operation is
then one that `G` allows, and `Q` holds of the result. -/
def Relies : Proc σ ℓ α → σ → (σ → α → Prop) → Prop
  | .ret a, s, Q => ∀ s', R s s' → Q s' a
  | .act op next, s, Q => ∀ s', R s s' → G s' op ∧ (next s').Relies (eff op s') Q

variable {eff R G} {p : Proc σ ℓ α} {f : α → Proc σ ℓ β} {s : σ} {Q : σ → α → Prop}

/-- Where `J` is stable, the operations of the process keep it and `G` allows them. -/
theorem relies_of_only {P : ℓ → Prop} {J : σ → Prop} (hp : p.Only P)
    (hR : ∀ s s', R s s' → J s → J s') (hP : ∀ s op, P op → J s → G s op ∧ J (eff op s)) (hs : J s) :
    p.Relies eff R G s fun t _ => J t := by
  induction p generalizing s with
  | ret a => exact fun s' hss' => hR s s' hss' hs
  | act op next ih =>
      intro s' hss'
      obtain ⟨hop, hJ⟩ := hP s' op hp.1 (hR s s' hss' hs)
      exact ⟨hop, ih s' (hp.2 s') hJ⟩

variable [IsPreorder σ R]

theorem relies_mono {s s' : σ} (h : p.Relies eff R G s Q) (hs : R s s') :
    p.Relies eff R G s' Q := by
  cases p with
  | ret a => exact fun t ht => h t (trans_of R hs ht)
  | act op next => exact fun t ht => h t (trans_of R hs ht)

theorem relies_bind {Q' : σ → β → Prop}
    (h : p.Relies eff R G s Q) (hf : ∀ t a, Q t a → (f a).Relies eff R G t Q') : (p.bind f).Relies eff R G s Q' := by
  induction p generalizing s with
  | ret a => exact hf s a (h s (refl_of R s))
  | act op next ih => exact fun s' hs => ⟨(h s' hs).1, ih s' (h s' hs).2⟩

theorem relies_lift {ε : Type} {J : σ → Prop} (h : p.Relies eff R G s fun t _ => J t)
    (hR : ∀ t t', R t t' → J t → J t') :
    (ExceptT.lift p : ExceptT ε (Proc σ ℓ) α).run.Relies eff R G s fun t _ => J t :=
  relies_bind h fun t _ ht t' htt' => hR t t' htt' ht

/-- What a failed part leaves, the whole leaves. -/
theorem relies_bind_ok {ε : Type} {c : ExceptT ε (Proc σ ℓ) α} {f : α → ExceptT ε (Proc σ ℓ) β}
    {J J' : σ → Prop} (h : c.run.Relies eff R G s fun t _ => J t)
    (hf : ∀ t a, J t → (f a).run.Relies eff R G t fun t' _ => J' t') (hJ : ∀ t, J t → J' t)
    (hR : ∀ t t', R t t' → J' t → J' t') : (c >>= f).run.Relies eff R G s fun t _ => J' t := by
  refine relies_bind h fun t r ht => ?_
  cases r with
  | ok a => exact hf t a ht
  | error e => exact fun t' htt' => hR t t' htt' (hJ t ht)

end Relies
end Proc

/-! ## Interleavings -/

/-- The shared state and the calls made so far, each with the process that is left of it. -/
structure System (σ ℓ α ι : Type) where
  shared : σ
  calls : List (ι × Proc σ ℓ α)

inductive SystemEvent (ι : Type) where
  /-- A call begins. -/
  | start (call : ι)
  /-- The call at this place in the list performs its next operation. -/
  | step (place : Nat)

namespace System
variable {σ ℓ α ι : Type} (eff : ℓ → σ → σ) (body : ι → Proc σ ℓ α)

def step (sys : System σ ℓ α ι) : SystemEvent ι → System σ ℓ α ι
  | .start call => { sys with calls := sys.calls ++ [(call, body call)] }
  | .step place =>
      match sys.calls[place]? with
      | some (call, .act op next) =>
          { shared := eff op sys.shared, calls := sys.calls.set place (call, next sys.shared) }
      | _ => sys

/-- Calls are of the kind `P`, and operations are performed where `K` allows them. -/
def Allows (P : ι → Prop) (K : σ → ℓ → Prop) (sys : System σ ℓ α ι) : SystemEvent ι → Prop
  | .start call => P call
  | .step place =>
      match sys.calls[place]? with
      | some (_, .act op _) => K sys.shared op
      | _ => True

/-- A call that is scheduled `n` times in a row. -/
theorem run_reaches {K : σ → ℓ → Prop} {P : ι → Prop} {n : Nat} {s t : σ} {calls : List (ι × Proc σ ℓ α)}
    {place : Nat} {call : ι} {p q : Proc σ ℓ α} (hcall : calls[place]? = some (call, p))
    (h : Proc.Reaches eff K n p s q t) :
    RunsTo (step eff body) (Allows P K) ⟨s, calls⟩ (List.replicate n (.step place))
      ⟨t, calls.set place (call, q)⟩ := by
  induction n generalizing s p calls with
  | zero =>
      obtain ⟨rfl, rfl⟩ := h
      obtain ⟨hlt, hget⟩ := List.getElem?_eq_some_iff.mp hcall
      refine ⟨?_, trivial⟩
      rw [List.replicate_zero, run_nil, ← hget, List.set_getElem_self]
  | succ n ih =>
      cases p with
      | ret a => exact h.elim
      | act op next =>
          have hlt := (List.getElem?_eq_some_iff.mp hcall).1
          have hstep : step eff body ⟨s, calls⟩ (.step place) = ⟨eff op s, calls.set place (call, next s)⟩ := by
            simp only [step, hcall]
          have hallows : Allows P K ⟨s, calls⟩ (.step place) := by
            simp only [Allows, hcall]
            exact h.1
          have hrest := ih (List.getElem?_set_self hlt) h.2
          rw [List.set_set, ← hstep] at hrest
          exact (runsTo_singleton hallows).append hrest

/-- A call that begins and is scheduled `n` times in a row. -/
theorem run_call {K : σ → ℓ → Prop} {P : ι → Prop} {n : Nat} {s t : σ} (calls : List (ι × Proc σ ℓ α)) (call : ι)
    {q : Proc σ ℓ α} (hP : P call) (h : Proc.Reaches eff K n (body call) s q t) :
    RunsTo (step eff body) (Allows P K) ⟨s, calls⟩ (.start call :: List.replicate n (.step calls.length))
      ⟨t, calls ++ [(call, q)]⟩ := by
  have hcall : (calls ++ [(call, body call)])[calls.length]? = some (call, body call) := by simp
  have hrun := run_reaches eff body (P := P) hcall h
  rw [List.set_append_right _ _ (Nat.le_refl _), Nat.sub_self, List.set_cons_zero] at hrun
  have hstart : Allows P K (⟨s, calls⟩ : System σ ℓ α ι) (.start call) := hP
  exact (runsTo_singleton hstart).append hrun

/-- A call that is about to perform an operation performs it. -/
theorem run_act {K : σ → ℓ → Prop} {P : ι → Prop} {s : σ} {calls : List (ι × Proc σ ℓ α)} {place : Nat} {call : ι}
    {op : ℓ} {next : σ → Proc σ ℓ α} (hcall : calls[place]? = some (call, .act op next)) (hK : K s op) :
    RunsTo (step eff body) (Allows P K) ⟨s, calls⟩ [.step place] ⟨eff op s, calls.set place (call, next s)⟩ :=
  run_reaches eff body (n := 1) hcall ⟨hK, rfl, rfl⟩

variable {eff body} {I : σ → Prop} {R : σ → σ → Prop} {G : ι → σ → ℓ → Prop} {K : σ → ℓ → Prop} {P : ι → Prop}
  {first s : σ} {sys : System σ ℓ α ι} {es : List (SystemEvent ι)} {place : Nat} {call : ι} {op : ℓ}
  {next : σ → Proc σ ℓ α}
  {Q : ι → σ → α → Prop}

/-- What holds between the events of a run: the invariant, the preorder from the first state on, and the
promise of every call that is left. -/
structure Guarded (eff : ℓ → σ → σ) (I : σ → Prop) (R : σ → σ → Prop) (G : ι → σ → ℓ → Prop) (P : ι → Prop)
    (Q : ι → σ → α → Prop) (first : σ) (sys : System σ ℓ α ι) : Prop where
  inv : I sys.shared
  rel : R first sys.shared
  calls : ∀ c ∈ sys.calls, P c.1 ∧ c.2.Guards eff I R (G c.1) sys.shared (Q c.1)

theorem guarded_step [IsPreorder σ R]
    (hbody : ∀ call s, P call → I s → (body call).Guards eff I R (G call) s (Q call))
    (hstep : ∀ call s op, P call → I s → G call s op → K s op → I (eff op s) ∧ R s (eff op s))
    {e : SystemEvent ι} (h : Guarded eff I R G P Q first sys) (he : sys.Allows P K e) :
    Guarded eff I R G P Q first (sys.step eff body e) := by
  cases e with
  | start call =>
      refine ⟨h.inv, h.rel, fun c hc => ?_⟩
      rcases List.mem_append.mp hc with hc | hc
      · exact h.calls c hc
      · rw [List.mem_singleton.mp hc]
        exact ⟨he, hbody call _ he h.inv⟩
  | step place =>
      unfold step
      unfold Allows at he
      dsimp only at he ⊢
      cases hcall : sys.calls[place]? with
      | none => exact h
      | some c =>
          obtain ⟨call, p⟩ := c
          cases p with
          | ret a => exact h
          | act op next =>
              rw [hcall] at he
              obtain ⟨hP, hguards⟩ := h.calls _ (List.mem_of_getElem? hcall)
              obtain ⟨hop, hnext⟩ := hguards _ (refl_of R _) h.inv
              obtain ⟨hinv, hrel⟩ := hstep call _ op hP h.inv hop he
              refine ⟨hinv, trans_of R h.rel hrel, fun c hc => ?_⟩
              -- the others keep their promise because the step is one along `R`
              rcases List.mem_or_eq_of_mem_set hc with hc | rfl
              · exact ⟨(h.calls c hc).1, Proc.guards_mono (h.calls c hc).2 hrel⟩
              · exact ⟨hP, hnext hinv hrel⟩

/-- Every interleaving of guarded calls keeps what they promise. -/
theorem run_guards [IsPreorder σ R]
    (hbody : ∀ call s, P call → I s → (body call).Guards eff I R (G call) s (Q call))
    (hstep : ∀ call s op, P call → I s → G call s op → K s op → I (eff op s) ∧ R s (eff op s)) (hs : I s)
    (hes : AllSteps (step eff body) (Allows P K) ⟨s, []⟩ es) :
    Guarded eff I R G P Q s (run (step eff body) ⟨s, []⟩ es) := by
  refine run_inv_of_allSteps (I := Guarded eff I R G P Q s)
    (fun _ _ h he => guarded_step hbody hstep h he) ?_ hes
  exact ⟨hs, refl_of R s, fun c hc => absurd hc List.not_mem_nil⟩

theorem allSteps_allows (h : ∀ call, .start call ∈ es → P call) :
    AllSteps (step eff body) (Allows P fun _ _ => True) sys es := by
  induction es generalizing sys with
  | nil => exact trivial
  | cons e es ih =>
      refine ⟨?_, ih fun call hcall => h call (List.mem_cons_of_mem _ hcall)⟩
      cases e with
      | start call => exact h call List.mem_cons_self
      | step place =>
          unfold Allows
          dsimp only
          split <;> exact trivial

/-- What calls do that see states of the invariant only, every interleaving of them keeps. -/
theorem run_under [IsPreorder σ R] {O : ι → ℓ → Prop} {Q : ι → α → Prop}
    (hbody : ∀ call, P call → (body call).Under I (O call) (Q call))
    (hstep : ∀ call s op, I s → O call op → I (eff op s) ∧ R s (eff op s)) (hs : I s)
    (hes : ∀ call, .start call ∈ es → P call) :
    Guarded eff I R (fun call _ op => O call op) P (fun call _ a => Q call a) s (run (step eff body) ⟨s, []⟩ es) :=
  run_guards (K := fun _ _ => True) (fun call s hP _ => Proc.guards_of_under (hbody call hP) (fun _ _ _ h => h) s)
    (fun call s op _ hi hop _ => hstep call s op hi hop) hs (allSteps_allows hes)

/-- The operation a call is about to perform is one that it promised. -/
theorem Guarded.next_op [IsPreorder σ R] (h : Guarded eff I R G P Q first sys)
    (hcall : sys.calls[place]? = some (call, .act op next)) :
    G call sys.shared op :=
  ((h.calls _ (List.mem_of_getElem? hcall)).2 _ (refl_of R _) h.inv).1

/-- Without an invariant: every call is about to perform one of its own operations. -/
theorem next_op_of_under {O : ι → ℓ → Prop} {Q : ι → α → Prop}
    (hbody : ∀ call, (body call).Under (fun _ => True) (O call) (Q call)) {call : ι} {op : ℓ}
    (hcall : (run (step eff body) ⟨s, []⟩ es).calls[place]? = some (call, .act op next)) : O call op := by
  have hpre : IsPreorder σ fun _ _ => True := { refl := fun _ => trivial, trans := fun _ _ _ _ _ => trivial }
  have hrun : Guarded eff (fun _ => True) (fun _ _ => True) (fun call _ op => O call op) (fun _ => True)
      (fun call _ a => Q call a) s (run (step eff body) ⟨s, []⟩ es) :=
    run_under (fun call _ => hbody call) (fun _ _ _ _ _ => ⟨trivial, trivial⟩) trivial fun _ _ => trivial
  exact hrun.next_op hcall

/-- A scheduled call performs its next operation, if it has one left. -/
theorem shared_step (eff : ℓ → σ → σ) (body : ι → Proc σ ℓ α) (sys : System σ ℓ α ι) (place : Nat) :
    (sys.step eff body (.step place)).shared = sys.shared ∨ ∃ call op next,
      sys.calls[place]? = some (call, .act op next) ∧
        (sys.step eff body (.step place)).shared = eff op sys.shared := by
  unfold step
  dsimp only
  split
  · rename_i call op next hcall
    exact Or.inr ⟨call, op, next, hcall, rfl⟩
  · exact Or.inl rfl

/-- What every operation keeps where it is allowed, every run keeps, whatever the calls are. -/
theorem run_shared {J : σ → Prop} (hJ : ∀ s op, K s op → J s → J (eff op s))
    (hes : AllSteps (step eff body) (Allows P K) sys es) (hs : J sys.shared) :
    J (run (step eff body) sys es).shared := by
  refine run_inv_of_allSteps (I := fun sys => J sys.shared) (fun sys e h he => ?_) hs hes
  cases e with
  | start call => exact h
  | step place =>
      rcases shared_step eff body sys place with hsame | ⟨call, op, next, hcall, hshared⟩
      · rw [hsame]
        exact h
      · unfold Allows at he
        dsimp only at he
        rw [hcall] at he
        rw [hshared]
        exact hJ _ _ he h

/-! ## Changes from outside -/

/-- An event of the calls, or a change of the shared state that no call makes. -/
inductive OpenEvent (ι η : Type) where
  | inside (event : SystemEvent ι)
  | outside (event : η)

section Open
variable {η : Type} {env : η → σ → σ} {E : σ → η → Prop}

def stepOpen (eff : ℓ → σ → σ) (body : ι → Proc σ ℓ α) (env : η → σ → σ) (sys : System σ ℓ α ι) :
    OpenEvent ι η → System σ ℓ α ι
  | .inside e => sys.step eff body e
  | .outside e => { sys with shared := env e sys.shared }

/-- The calls are as for `Allows`, and the state changes from outside where `E` allows it. -/
def AllowsOpen (P : ι → Prop) (K : σ → ℓ → Prop) (E : σ → η → Prop) (sys : System σ ℓ α ι) : OpenEvent ι η → Prop
  | .inside e => sys.Allows P K e
  | .outside e => E sys.shared e

theorem AllowsOpen.imp {K' : σ → ℓ → Prop} (hK : ∀ s op, K s op → K' s op) {e : OpenEvent ι η}
    (h : AllowsOpen P K E sys e) : AllowsOpen P K' E sys e := by
  cases e with
  | outside e => exact h
  | inside e =>
      cases e with
      | start call => exact h
      | step place =>
          change sys.Allows P K (.step place) at h
          change sys.Allows P K' (.step place)
          unfold Allows at h ⊢
          dsimp only at h ⊢
          split
          · next hcall =>
              rw [hcall] at h
              exact hK _ _ h
          · exact trivial

theorem allSteps_allowsOpen {E : η → Prop} {es : List (OpenEvent ι η)} (hP : ∀ call, P call)
    (hE : ∀ e, .outside e ∈ es → E e) :
    AllSteps (stepOpen eff body env) (AllowsOpen P (fun _ _ => True) fun _ e => E e) sys es := by
  induction es generalizing sys with
  | nil => exact trivial
  | cons e es ih =>
      refine ⟨?_, ih fun e' he' => hE e' (List.mem_cons_of_mem _ he')⟩
      cases e with
      | outside e => exact hE e List.mem_cons_self
      | inside e =>
          have hallows : AllSteps (step eff body) (Allows P fun _ _ => True) sys [e] := allSteps_allows fun call _ => hP call
          exact hallows.1

/-- Calls keep their promises while the state changes from outside, along the preorder. -/
theorem run_guards_open [IsPreorder σ R]
    (hbody : ∀ call s, P call → I s → (body call).Guards eff I R (G call) s (Q call))
    (hstep : ∀ call s op, P call → I s → G call s op → K s op → I (eff op s) ∧ R s (eff op s))
    (henv : ∀ s e, I s → E s e → I (env e s) ∧ R s (env e s)) (hs : I s) {es : List (OpenEvent ι η)}
    (hes : AllSteps (stepOpen eff body env) (AllowsOpen P K E) ⟨s, []⟩ es) :
    Guarded eff I R G P Q s (run (stepOpen eff body env) ⟨s, []⟩ es) := by
  refine run_inv_of_allSteps (I := Guarded eff I R G P Q s) (fun sys e h he => ?_) ?_ hes
  · cases e with
    | inside e => exact guarded_step hbody hstep h he
    | outside e =>
        obtain ⟨hinv, hrel⟩ := henv sys.shared e h.inv he
        exact ⟨hinv, trans_of R h.rel hrel, fun c hc => ⟨(h.calls c hc).1, Proc.guards_mono (h.calls c hc).2 hrel⟩⟩
  · exact ⟨hs, refl_of R s, fun c hc => absurd hc List.not_mem_nil⟩

/-- What holds of a result when its call returns holds of it from then on. -/
theorem Guarded.result [IsPreorder σ R] (h : Guarded eff I R G P Q first sys)
    {a : α} (hc : (call, .ret a) ∈ sys.calls) : Q call sys.shared a :=
  (h.calls _ hc).2 _ (refl_of R _) h.inv

/-- A run of the calls alone. -/
theorem runsTo_inside {sys sys' : System σ ℓ α ι} (h : RunsTo (step eff body) (Allows P K) sys es sys') :
    RunsTo (stepOpen eff body env) (AllowsOpen P K E) sys (es.map .inside) sys' := by
  induction es generalizing sys with
  | nil => exact h
  | cons e es ih =>
      obtain ⟨hrun, hallowed, hrest⟩ := h
      obtain ⟨hrun', hrest'⟩ := ih ⟨hrun, hrest⟩
      exact ⟨hrun', hallowed, hrest'⟩

end Open

/-! ## Calls of one kind of operations -/

section Only
variable {O : ℓ → Prop} {J : σ → Prop}

theorem only_step (hbody : ∀ call, (body call).Only O) (h : ∀ c ∈ sys.calls, c.2.Only O)
    (e : SystemEvent ι) : ∀ c ∈ (sys.step eff body e).calls, c.2.Only O := by
  intro c hc
  cases e with
  | start call =>
      rcases List.mem_append.mp hc with hc | hc
      · exact h c hc
      · rw [List.mem_singleton.mp hc]
        exact hbody call
  | step place =>
      unfold step at hc
      dsimp only at hc
      split at hc
      · rename_i call op next hcall
        have hnext : (next sys.shared).Only O := (h _ (List.mem_of_getElem? hcall)).2 sys.shared
        rcases List.mem_or_eq_of_mem_set hc with hc | rfl
        · exact h c hc
        · exact hnext
      · exact h c hc

/-- Where an operation of this kind keeps `J` exactly when `K` allows it, so does a step of the calls. -/
theorem step_iff (hJ : ∀ s op, O op → J s → (J (eff op s) ↔ K s op))
    (h : ∀ c ∈ sys.calls, c.2.Only O) (hs : J sys.shared) (e : SystemEvent ι) :
    J (sys.step eff body e).shared ↔ sys.Allows (fun _ => True) K e := by
  cases e with
  | start call => exact ⟨fun _ => trivial, fun _ => hs⟩
  | step place =>
      unfold step Allows
      dsimp only
      cases hcall : sys.calls[place]? with
      | none => exact ⟨fun _ => trivial, fun _ => hs⟩
      | some c =>
          obtain ⟨call, p⟩ := c
          cases p with
          | ret a => exact ⟨fun _ => trivial, fun _ => hs⟩
          | act op next => exact hJ sys.shared op (h _ (List.mem_of_getElem? hcall)).1 hs

/-- Then `J` holds in every state that an interleaving of the calls reaches, exactly when `K` allows every
operation. -/
theorem reached_iff (hbody : ∀ call, (body call).Only O) (hJ : ∀ s op, O op → J s → (J (eff op s) ↔ K s op))
    (hs : J s) (es : List (SystemEvent ι)) :
    (∀ before after, es = before ++ after → J (run (step eff body) ⟨s, []⟩ before).shared) ↔
      AllSteps (step eff body) (Allows (fun _ => True) K) ⟨s, []⟩ es := by
  refine forall_reached_iff (I := fun sys : System σ ℓ α ι => ∀ c ∈ sys.calls, c.2.Only O)
    (J := fun sys => J sys.shared) (P := fun _ _ => True) ?_ ?_ ?_ hs (allSteps_of_forall fun _ _ => trivial)
  · exact fun sys e h _ => only_step hbody h e
  · exact fun sys e h _ hJs => step_iff hJ h hJs e
  · exact fun c hc => absurd hc List.not_mem_nil

end Only

end System

end Lib
