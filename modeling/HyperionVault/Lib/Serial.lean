import HyperionVault.Lib.Proc
import Mathlib.Data.List.Perm.Basic

/-!
# Calls that take effect at once

A call that only reads up to its last operation, and whose last operation does what the whole call would do
if it ran alone from there, can be taken out of an interleaving and put where that operation stands. What such
calls do together is then what they do one after the other.

* `Proc.Repeats` : a process that only reads, and would read the same later;
* `Proc.Commits` : a process that takes effect with its last operation or not at all;
* `System.serial` : calls that run one after the other, `System.succeeded` : the calls that have taken effect;
* `run_commits` : every interleaving of such calls is serial.
-/

namespace Lib

namespace Proc
variable {σ ℓ α β ε : Type}

section Exec
variable {eff : ℓ → σ → σ} {I : σ → Prop} {R : σ → σ → Prop} {G : σ → ℓ → Prop} {p : Proc σ ℓ α}
  {c : ExceptT ε (Proc σ ℓ) α} {f : α → ExceptT ε (Proc σ ℓ) β}

/-- A promise about results may use that the state has changed along `R`. -/
theorem guards_conseq_rel [IsPreorder σ R] {s : σ} {Q Q' : σ → α → Prop} (h : Guards eff I R G p s Q)
    (hQ : ∀ t a, R s t → I t → Q t a → Q' t a) : Guards eff I R G p s Q' := by
  induction p generalizing s with
  | ret a => exact fun t ht hi => hQ t a ht hi (h t ht hi)
  | act op next ih =>
      intro t ht hi
      obtain ⟨hop, hnext⟩ := h t ht hi
      refine ⟨hop, fun hinv hrel => ih t (hnext hinv hrel) fun u a hu => ?_⟩
      exact hQ u a (trans_of R ht (trans_of R hrel hu))

/-- A process that runs alone keeps what it promises. -/
theorem exec_guards [IsPreorder σ R] {s : σ} {Q : σ → α → Prop} (h : Guards eff I R G p s Q) (hi : I s)
    (hstep : ∀ s op, I s → G s op → I (eff op s) ∧ R s (eff op s)) :
    I (p.exec eff s).2 ∧ R s (p.exec eff s).2 := by
  induction p generalizing s with
  | ret a => exact ⟨hi, refl_of R s⟩
  | act op next ih =>
      obtain ⟨hop, hnext⟩ := h s (refl_of R s) hi
      obtain ⟨hinv, hrel⟩ := hstep s op hi hop
      obtain ⟨hlast, hrest⟩ := ih s (hnext hinv hrel) hinv
      exact ⟨hlast, trans_of R hrel hrest⟩

theorem exec_of_reaches {K : σ → ℓ → Prop} {n : Nat} {s t : σ} {a : α}
    (h : Reaches eff K n p s (.ret a) t) : p.exec eff s = (a, t) := by
  induction n generalizing p s with
  | zero =>
      obtain ⟨rfl, rfl⟩ := h
      rfl
  | succ n ih =>
      cases p with
      | ret b => exact h.elim
      | act op next =>
          rw [exec]
          exact ih h.2

theorem exec_bind_ok {s t : σ} {a : α} (h : c.run.exec eff s = (.ok a, t)) (f : α → ExceptT ε (Proc σ ℓ) β) :
    (c >>= f).run.exec eff s = (f a).run.exec eff t := by
  refine (exec_bind eff c.run _ s).trans ?_
  rw [h]
  rfl

theorem exec_bind_eq_ok {s u : σ} {b : β} (h : (c >>= f).run.exec eff s = (.ok b, u)) :
    ∃ a t, c.run.exec eff s = (.ok a, t) ∧ (f a).run.exec eff t = (.ok b, u) := by
  have hbind := (exec_bind eff c.run _ s).symm.trans h
  cases hc : c.run.exec eff s with
  | mk r t =>
      rw [hc] at hbind
      cases r with
      | ok a => exact ⟨a, t, rfl, hbind⟩
      | error e => cases hbind

end Exec

/-! ## Reading the same again -/

section Repeats
variable (eff : ℓ → σ → σ) (I : σ → Prop) (R : σ → σ → Prop)

/-- The operation leaves the state as it is. -/
def Silent (s : σ) (op : ℓ) : Prop := eff op s = s

/-- The process changes nothing, and from any later state it would come to the same result. -/
def Repeats (p : Proc σ ℓ α) (s : σ) : Prop :=
  Guards eff I R (Silent eff) p s fun t a => p.exec eff t = (a, t)

variable {eff I R} {p : Proc σ ℓ α} {c : ExceptT ε (Proc σ ℓ) α} {s : σ}

theorem repeats_ret (a : α) (s : σ) : Repeats eff I R (.ret a : Proc σ ℓ α) s := fun _ _ _ => rfl

theorem repeats_perform [IsPreorder σ R] {op : ℓ} {value : σ → α} (hop : ∀ t, eff op t = t)
    (hvalue : ∀ t t', R s t → I t → R t t' → I t' → value t' = value t) :
    Repeats eff I R (perform op value) s := by
  refine guards_perform fun t ht hi => ⟨hop t, fun _ _ u hu hiu => ?_⟩
  rw [hop t] at hu
  show (value u, eff op u) = (value t, u)
  rw [hop u, hvalue t u ht hi hu hiu]

theorem repeats_bind [IsPreorder σ R] {f : α → Proc σ ℓ β} (hi : I s) (h : Repeats eff I R p s)
    (hf : ∀ t a, R s t → I t → (∀ u, R t u → I u → p.exec eff u = (a, u)) → Repeats eff I R (f a) t) :
    Repeats eff I R (p.bind f) s := by
  refine guards_bind hi h fun t a ht hit ha => ?_
  refine guards_conseq_rel (hf t a ht hit ha) fun u b hu hiu hb => ?_
  rw [exec_bind, ha u hu hiu]
  exact hb

theorem repeats_bind_ok [IsPreorder σ R] {f : α → ExceptT ε (Proc σ ℓ) β} (hi : I s) (h : Repeats eff I R c.run s)
    (hf : ∀ t a, R s t → I t → (∀ u, R t u → I u → c.run.exec eff u = (.ok a, u)) → Repeats eff I R (f a).run t) :
    Repeats eff I R (c >>= f).run s := by
  refine repeats_bind hi h fun t r ht hit hr => ?_
  cases r with
  | ok a => exact hf t a ht hit hr
  | error e => exact repeats_ret _ _

end Repeats

/-! ## Taking effect with the last operation -/

section Commits
variable (eff : ℓ → σ → σ) (I : σ → Prop) (R : σ → σ → Prop) (K : σ → ℓ → Prop) (success : α → Bool)
  (whole : σ → σ)

/-- Every operation changes nothing, or it is the last one, the process has succeeded, and what the operation
does is `whole`. -/
def Commits : Proc σ ℓ α → σ → Prop
  | .ret a, _ => success a = false
  | .act op next, s => ∀ t, R s t → I t → K t op →
      (eff op t = t ∧ Commits (next t) t) ∨
        (∃ a, next t = .ret a ∧ success a = true) ∧ eff op t = whole t ∧ I (eff op t) ∧ R t (eff op t)

variable {eff I R K success whole} {p : Proc σ ℓ α} {c : ExceptT ε (Proc σ ℓ) α} {s : σ}

theorem commits_mono [IsPreorder σ R] {s t : σ} (h : Commits eff I R K success whole p s)
    (hs : R s t) : Commits eff I R K success whole p t := by
  cases p with
  | ret a => exact h
  | act op next => exact fun u hu => h u (trans_of R hs hu)

theorem commits_bind [IsPreorder σ R] {success : β → Bool} {f : α → Proc σ ℓ β}
    {Q : σ → α → Prop} (hi : I s) (h : Guards eff I R (Silent eff) p s Q)
    (hf : ∀ t a, R s t → I t → (∀ u, R t u → I u → Q u a) → Commits eff I R K success whole (f a) t) :
    Commits eff I R K success whole (p.bind f) s := by
  induction p generalizing s with
  | ret a => exact hf s a (refl_of R s) hi h
  | act op next ih =>
      intro t ht hit _
      obtain ⟨hop, hnext⟩ := h t ht hit
      rw [show eff op t = t from hop] at hnext
      refine Or.inl ⟨hop, ih t hit (hnext hit (refl_of R t)) fun u a hu => ?_⟩
      exact hf u a (trans_of R ht hu)

/-- What follows a step has to be considered only where the step succeeds. -/
theorem commits_bind_ok [IsPreorder σ R] {f : α → ExceptT ε (Proc σ ℓ) β}
    {Q : σ → α → Prop} (hi : I s) (h : Guards eff I R (Silent eff) c.run s (OnOk Q))
    (hf : ∀ t a, R s t → I t → (∀ u, R t u → I u → Q u a) → Commits eff I R K Except.isOk whole (f a).run t) :
    Commits eff I R K Except.isOk whole (c >>= f).run s := by
  refine commits_bind hi h fun t r ht hit hr => ?_
  cases r with
  | ok a => exact hf t a ht hit fun u hu hiu => hr u hu hiu a rfl
  | error e => rfl

/-- Before it takes effect, a call may read what it would read again. -/
theorem commits_bind_repeats [IsPreorder σ R] {f : α → ExceptT ε (Proc σ ℓ) β}
    (hi : I s) (h : Repeats eff I R c.run s)
    (hf : ∀ t a, R s t → I t → (∀ u, R t u → I u → c.run.exec eff u = (.ok a, u)) →
      Commits eff I R K Except.isOk whole (f a).run t) :
    Commits eff I R K Except.isOk whole (c >>= f).run s := by
  refine commits_bind_ok (Q := fun u a => c.run.exec eff u = (.ok a, u)) hi ?_ hf
  refine guards_conseq h fun u r hr a ha => ?_
  subst ha
  exact hr

theorem commits_bind_ret {success' : β → Bool} {f : α → Proc σ ℓ β}
    (hf : ∀ a, ∃ b, f a = .ret b ∧ success' b = success a) (h : Commits eff I R K success whole p s) :
    Commits eff I R K success' whole (p.bind f) s := by
  induction p generalizing s with
  | ret a =>
      obtain ⟨b, hb, hsuccess⟩ := hf a
      rw [bind, hb]
      exact hsuccess.trans h
  | act op next ih =>
      intro t ht hi hK
      rcases h t ht hi hK with ⟨hsilent, hnext⟩ | ⟨⟨a, ha, hsuccess⟩, hrest⟩
      · exact Or.inl ⟨hsilent, ih t hnext⟩
      · obtain ⟨b, hb, hsame⟩ := hf a
        refine Or.inr ⟨⟨b, ?_, hsame.trans hsuccess⟩, hrest⟩
        show (next t).bind f = .ret b
        rw [ha]
        exact hb

/-- What a call makes of its result does not matter. -/
theorem commits_bind_pure (g : α → β) (h : Commits eff I R K Except.isOk whole c.run s) :
    Commits eff I R K Except.isOk whole (c >>= fun a => pure (g a)).run s := by
  refine commits_bind_ret (fun r => ?_) h
  cases r with
  | ok a => exact ⟨_, rfl, rfl⟩
  | error e => exact ⟨_, rfl, rfl⟩

end Commits
end Proc

/-! ## Serial runs -/

namespace System
variable {σ ℓ α ι : Type} (eff : ℓ → σ → σ) (body : ι → Proc σ ℓ α) (success : α → Bool)

/-- The calls run one after the other. -/
def serial (s : σ) (order : List ι) : σ := order.foldl (fun s call => ((body call).exec eff s).2) s

/-- The call has returned, and successfully. -/
def returned : Proc σ ℓ α → Bool
  | .ret a => success a
  | .act _ _ => false

/-- The calls that have returned successfully, in the order in which they began. -/
def succeeded (sys : System σ ℓ α ι) : List ι := (sys.calls.filter fun c => returned success c.2).map Prod.fst

variable {eff body success}

theorem serial_append (s : σ) (order more : List ι) :
    serial eff body s (order ++ more) = serial eff body (serial eff body s order) more := List.foldl_append

theorem serial_concat (s : σ) (order : List ι) (call : ι) :
    serial eff body s (order ++ [call]) = ((body call).exec eff (serial eff body s order)).2 :=
  serial_append s order [call]

/-- One element of a list that did not count is replaced. -/
theorem perm_filter_set {τ : Type} (p : τ → Bool) {l : List τ} {i : Nat} {a : τ} (b : τ) (h : l[i]? = some a)
    (ha : p a = false) : ((l.set i b).filter p).Perm (if p b then b :: l.filter p else l.filter p) := by
  induction l generalizing i with
  | nil => cases h
  | cons x l ih =>
      cases i with
      | zero =>
          cases h
          rw [List.set_cons_zero, List.filter_cons, List.filter_cons_of_neg (by simp [ha])]
      | succ i =>
          have hperm := ih (i := i) h
          rw [List.set_cons_succ]
          cases hx : p x with
          | false =>
              rw [List.filter_cons_of_neg (by simp [hx]), List.filter_cons_of_neg (by simp [hx])]
              exact hperm
          | true =>
              rw [List.filter_cons_of_pos hx, List.filter_cons_of_pos hx]
              split_ifs at hperm ⊢ with hb
              · exact (hperm.cons x).trans (List.Perm.swap _ _ _)
              · exact hperm.cons x

variable {I : σ → Prop} {R : σ → σ → Prop} {K : σ → ℓ → Prop} {P : ι → Prop}

/-- What holds between the events of a run: the calls that have succeeded lead to this state one after the
other, in some order, and the others have no effect yet. -/
structure Serial (eff : ℓ → σ → σ) (body : ι → Proc σ ℓ α) (success : α → Bool) (I : σ → Prop) (R : σ → σ → Prop)
    (K : σ → ℓ → Prop) (first : σ) (sys : System σ ℓ α ι) : Prop where
  inv : I sys.shared
  order : ∃ order, order.Perm (succeeded success sys) ∧ serial eff body first order = sys.shared
  calls : ∀ c ∈ sys.calls, returned success c.2 = true ∨
    c.2.Commits eff I R K success (fun s => ((body c.1).exec eff s).2) sys.shared

theorem returned_of_commits {whole : σ → σ} {p : Proc σ ℓ α} {s : σ} (h : p.Commits eff I R K success whole s) :
    returned success p = false := by
  cases p with
  | ret a => exact h
  | act op next => rfl

theorem serial_start {first : σ} {sys : System σ ℓ α ι} (h : Serial eff body success I R K first sys) (call : ι)
    (hcall : (body call).Commits eff I R K success (fun s => ((body call).exec eff s).2) sys.shared) :
    Serial eff body success I R K first (sys.step eff body (.start call)) := by
  obtain ⟨order, hperm, hserial⟩ := h.order
  refine ⟨h.inv, ⟨order, ?_, hserial⟩, fun c hc => ?_⟩
  · rw [succeeded, step, List.filter_append, List.filter_singleton, returned_of_commits hcall, Bool.cond_false,
      List.append_nil]
    exact hperm
  · rcases List.mem_append.mp hc with hc | hc
    · exact h.calls c hc
    · rw [List.mem_singleton.mp hc]
      exact Or.inr hcall

theorem serial_step [IsPreorder σ R]
    (hbody : ∀ call s, P call → I s → (body call).Commits eff I R K success (fun s => ((body call).exec eff s).2) s)
    {first : σ} {sys : System σ ℓ α ι} {e : SystemEvent ι} (h : Serial eff body success I R K first sys)
    (he : sys.Allows P K e) : Serial eff body success I R K first (sys.step eff body e) := by
  cases e with
  | start call => exact serial_start h call (hbody call _ he h.inv)
  | step place =>
      unfold step
      unfold Allows at he
      dsimp only at he ⊢
      cases hcall : sys.calls[place]? with
      | none => exact h
      | some c =>
          obtain ⟨call, p⟩ := c
          cases p with
          | ret a => exact h
          | act op next =>
              rw [hcall] at he
              obtain ⟨order, hperm, hserial⟩ := h.order
              have hset := perm_filter_set (fun c => returned success c.2) (call, next sys.shared) hcall rfl
              have hcommits : (Proc.act op next).Commits eff I R K success
                  (fun s => ((body call).exec eff s).2) sys.shared := by
                rcases h.calls _ (List.mem_of_getElem? hcall) with hret | hcommits
                · cases hret
                · exact hcommits
              rcases hcommits sys.shared (refl_of R _) h.inv he with
                ⟨hsilent, hnext⟩ | ⟨⟨a, ha, hsuccess⟩, heffect, hinv, hrel⟩
              · -- an operation without an effect: the same order
                dsimp only
                rw [hsilent]
                refine ⟨h.inv, ⟨order, ?_, hserial⟩, fun c hc => ?_⟩
                · rw [returned_of_commits hnext, if_neg Bool.false_ne_true] at hset
                  exact hperm.trans (hset.map _).symm
                · rcases List.mem_or_eq_of_mem_set hc with hc | rfl
                  · exact h.calls c hc
                  · exact Or.inr hnext
              · -- the call takes effect: it comes last
                refine ⟨hinv, ⟨order ++ [call], ?_, ?_⟩, fun c hc => ?_⟩
                · rw [ha, if_pos (show returned success (.ret a : Proc σ ℓ α) = true from hsuccess), ← ha] at hset
                  exact ((List.perm_append_singleton call order).trans (hperm.cons call)).trans (hset.map Prod.fst).symm
                · rw [serial_concat, hserial]
                  exact heffect.symm
                · rcases List.mem_or_eq_of_mem_set hc with hc | rfl
                  · exact (h.calls c hc).imp id fun hcommits => Proc.commits_mono hcommits hrel
                  · refine Or.inl ?_
                    dsimp only
                    rw [ha]
                    exact hsuccess

/-- Every interleaving of calls that take effect at once leads where the calls that have succeeded lead one
after the other. -/
theorem run_commits (success : α → Bool) [IsPreorder σ R]
    (hbody : ∀ call s, P call → I s → (body call).Commits eff I R K success (fun s => ((body call).exec eff s).2) s)
    {s : σ} (hs : I s) {es : List (SystemEvent ι)} (hes : AllSteps (step eff body) (Allows P K) ⟨s, []⟩ es) :
    ∃ order, order.Perm (succeeded success (run (step eff body) ⟨s, []⟩ es)) ∧
      serial eff body s order = (run (step eff body) ⟨s, []⟩ es).shared := by
  have hstart : Serial eff body success I R K s (⟨s, []⟩ : System σ ℓ α ι) :=
    ⟨hs, ⟨[], List.Perm.refl _, rfl⟩, fun c hc => absurd hc List.not_mem_nil⟩
  exact (run_inv_of_allSteps (I := Serial eff body success I R K s)
    (fun _ _ h he => serial_step hbody h he) hstart hes).order

end System

end Lib
