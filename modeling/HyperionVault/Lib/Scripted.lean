import HyperionVault.Lib.Proc
import Mathlib.Data.List.Induction

/-!
# Processes in given states

What a process does depends on the states in which its operations are performed, whoever has made them.

* `Proc.ops`, `Proc.result` : the operations and the result of a process that gets to see these states, one after the
  other;
* `Proc.advance`, `Proc.after` : what is left of it then, `under_after` : what its operations are;
* `result_bind`, `result_bind_ok` : a process in two parts;
* `only_of_ops` : all operations of the process are among those;
* `System.UnderWay`, `exists_script` : every call of an interleaving has seen states of the run in which it was under
  way; `UnderWay.later` : for a call that begins later, these are later states;
* `takeThrough P l` : the elements up to the first one with the property, which is the last of them.
-/

namespace Lib

namespace Proc
variable {σ ℓ α : Type}

/-- The operations that are performed in these states. -/
def ops : Proc σ ℓ α → List σ → List ℓ
  | .ret _, _ => []
  | .act _ _, [] => []
  | .act op next, s :: seen => op :: (next s).ops seen

/-- The result, unless the process has operations left. -/
def result : Proc σ ℓ α → List σ → Option α
  | .ret a, _ => some a
  | .act _ _, [] => none
  | .act _ next, s :: seen => (next s).result seen

/-- What is left of the process after its next operation in this state. -/
def advance : Proc σ ℓ α → σ → Proc σ ℓ α
  | .ret a, _ => .ret a
  | .act _ next, s => next s

/-- What is left of the process after its operations in these states. -/
def after (p : Proc σ ℓ α) (seen : List σ) : Proc σ ℓ α := seen.foldl advance p

theorem result_of_after {p : Proc σ ℓ α} {seen : List σ} {a : α} (h : p.after seen = .ret a) :
    p.result seen = some a := by
  induction seen generalizing p with
  | nil =>
      cases h
      rfl
  | cons s seen ih =>
      cases p with
      | ret b => exact ih h
      | act op next => exact ih h

theorem after_concat {p : Proc σ ℓ α} {seen : List σ} {op : ℓ} {next : σ → Proc σ ℓ α}
    (h : p.after seen = .act op next) (s : σ) : p.after (seen ++ [s]) = next s := by
  rw [after] at h ⊢
  rw [List.foldl_append, h]
  rfl

/-- A process in two parts sees the states of the first part first. -/
theorem result_bind {β : Type} {p : Proc σ ℓ α} {f : α → Proc σ ℓ β} {seen : List σ} {b : β}
    (h : (p.bind f).result seen = some b) :
    ∃ a first rest, seen = first ++ rest ∧ p.result first = some a ∧ (f a).result rest = some b := by
  induction p generalizing seen with
  | ret a => exact ⟨a, [], seen, rfl, rfl, h⟩
  | act op next ih =>
      cases seen with
      | nil => cases h
      | cons s seen =>
          obtain ⟨a, first, rest, hsplit, hfirst, hrest⟩ := ih s h
          exact ⟨a, s :: first, rest, by rw [hsplit, List.cons_append], hfirst, hrest⟩

/-- A process that may fail ends with the error of its first part, or goes on with the result of it. -/
theorem result_bind_ok {β ε : Type} {c : ExceptT ε (Proc σ ℓ) α} {f : α → ExceptT ε (Proc σ ℓ) β} {seen : List σ}
    {r : Except ε β} (h : (c >>= f).run.result seen = some r) :
    (∃ e first rest, seen = first ++ rest ∧ c.run.result first = some (.error e) ∧ r = .error e) ∨
      ∃ a first rest, seen = first ++ rest ∧ c.run.result first = some (.ok a) ∧ (f a).run.result rest = some r := by
  obtain ⟨outcome, first, rest, hsplit, hfirst, hrest⟩ := result_bind h
  cases outcome with
  | error e =>
      cases hrest
      exact Or.inl ⟨e, first, rest, hsplit, hfirst, rfl⟩
  | ok a => exact Or.inr ⟨a, first, rest, hsplit, hfirst, hrest⟩

/-- What holds of the operations in all states that a process may get to see holds of its operations. -/
theorem only_of_ops [Nonempty σ] {P : ℓ → Prop} {p : Proc σ ℓ α} (h : ∀ seen, ∀ op ∈ p.ops seen, P op) : p.Only P := by
  induction p with
  | ret a => exact trivial
  | act op next ih =>
      refine ⟨?_, fun s => ih s fun seen op' hop => h (s :: seen) op' (List.mem_cons_of_mem _ hop)⟩
      obtain ⟨s⟩ := ‹Nonempty σ›
      exact h [s] op List.mem_cons_self

end Proc

namespace System
variable {σ ℓ α ι : Type} {eff : ℓ → σ → σ} {body : ι → Proc σ ℓ α}

/-- The call at this place has begun and has an operation left. -/
def UnderWay (sys : System σ ℓ α ι) (place : Nat) : Prop :=
  ∃ call op next, sys.calls[place]? = some (call, .act op next)

/-- A call of an interleaving is where the states bring it that it has seen, each of them a state of the run while the
call was under way. -/
theorem exists_script (s : σ) (es : List (SystemEvent ι)) {place : Nat} {call : ι} {p : Proc σ ℓ α}
    (h : (run (step eff body) ⟨s, []⟩ es).calls[place]? = some (call, p)) :
    ∃ seen, p = (body call).after seen ∧ ∀ t ∈ seen, ∃ before later, es = before ++ later ∧
      (run (step eff body) ⟨s, []⟩ before).shared = t ∧ (run (step eff body) ⟨s, []⟩ before).UnderWay place := by
  -- on the events from the last one backwards
  induction es using List.reverseRecOn generalizing p with
  | nil => cases h
  | append_singleton es e ih =>
      have hkeep : ∀ {q : Proc σ ℓ α}, (run (step eff body) ⟨s, []⟩ es).calls[place]? = some (call, q) →
          ∃ seen, q = (body call).after seen ∧ ∀ t ∈ seen, ∃ before later, es ++ [e] = before ++ later ∧
            (run (step eff body) ⟨s, []⟩ before).shared = t ∧
            (run (step eff body) ⟨s, []⟩ before).UnderWay place := by
        intro q hq
        obtain ⟨seen, hafter, hseen⟩ := ih hq
        refine ⟨seen, hafter, fun t ht => ?_⟩
        obtain ⟨before, later, hsplit, hmoment⟩ := hseen t ht
        exact ⟨before, later ++ [e], by rw [hsplit, List.append_assoc], hmoment⟩
      rw [run_append] at h
      cases e with
      | start call' =>
          change ((run (step eff body) ⟨s, []⟩ es).calls ++ [(call', body call')])[place]? = some (call, p) at h
          rcases Nat.lt_or_ge place (run (step eff body) ⟨s, []⟩ es).calls.length with hlt | hge
          · rw [List.getElem?_append_left hlt] at h
            exact hkeep h
          · rw [List.getElem?_append_right hge] at h
            obtain ⟨hlast, hcall⟩ := List.getElem?_eq_some_iff.mp h
            rw [List.getElem_singleton] at hcall
            cases hcall
            exact ⟨[], rfl, fun t ht => absurd ht List.not_mem_nil⟩
      | step place' =>
          rw [run_cons, run_nil, step] at h
          split at h
          · rename_i call' op next hact
            rw [List.getElem?_set] at h
            split_ifs at h with hplace hlt
            · -- the call performs its next operation in the present state
              subst hplace
              cases h
              obtain ⟨seen, hafter, hseen⟩ := hkeep hact
              refine ⟨seen ++ [(run (step eff body) ⟨s, []⟩ es).shared], (Proc.after_concat hafter.symm _).symm,
                fun t ht => ?_⟩
              rcases List.mem_append.mp ht with ht | ht
              · exact hseen t ht
              · exact ⟨es, [.step place'], rfl, (List.mem_singleton.mp ht).symm, call, op, next, hact⟩
            · exact hkeep h
          · exact hkeep h

variable (eff body) in
theorem length_calls_run (sys : System σ ℓ α ι) (es : List (SystemEvent ι)) :
    sys.calls.length ≤ (run (step eff body) sys es).calls.length := by
  induction es generalizing sys with
  | nil => exact Nat.le_refl _
  | cons e es ih =>
      refine Nat.le_trans ?_ (ih (sys.step eff body e))
      cases e with
      | start call =>
          change sys.calls.length ≤ (sys.calls ++ [(call, body call)]).length
          rw [List.length_append]
          exact Nat.le_add_right _ _
      | step place =>
          unfold step
          dsimp only
          split
          · rw [List.length_set]
          · exact Nat.le_refl _

/-- A call that has not begun is under way in later states only. -/
theorem UnderWay.later {s : σ} {es fs before later : List (SystemEvent ι)} {place : Nat}
    (h : (run (step eff body) ⟨s, []⟩ before).UnderWay place) (hsplit : es ++ fs = before ++ later)
    (hplace : (run (step eff body) ⟨s, []⟩ es).calls.length ≤ place) :
    ∃ between, before = es ++ between ∧ fs = between ++ later := by
  rcases List.append_eq_append_iff.mp hsplit with ⟨between, hbefore, hfs⟩ | ⟨between, hes, hlater⟩
  · exact ⟨between, hbefore, hfs⟩
  · -- otherwise it has begun by then
    obtain ⟨call, op, next, hcall⟩ := h
    have hlt := (List.getElem?_eq_some_iff.mp hcall).1
    have hle := length_calls_run eff body (run (step eff body) ⟨s, []⟩ before) between
    rw [← run_append, ← hes] at hle
    omega

end System

section TakeThrough
variable {α : Type} {P : α → Bool}

def takeThrough (P : α → Bool) : List α → List α
  | [] => []
  | a :: l => if P a then [a] else a :: takeThrough P l

theorem mem_of_mem_takeThrough {a : α} {l : List α} (h : a ∈ takeThrough P l) : a ∈ l := by
  induction l with
  | nil => exact h
  | cons b l ih =>
      rw [takeThrough] at h
      split_ifs at h
      · rw [List.mem_singleton.mp h]
        exact List.mem_cons_self
      · rcases List.mem_cons.mp h with rfl | h
        · exact List.mem_cons_self
        · exact List.mem_cons_of_mem _ (ih h)

/-- The first element with the property is among them. -/
theorem exists_mem_takeThrough {l : List α} : (∃ a ∈ takeThrough P l, P a = true) ↔ ∃ a ∈ l, P a = true := by
  refine ⟨fun h => ?_, fun h => ?_⟩
  · obtain ⟨a, ha, hP⟩ := h
    exact ⟨a, mem_of_mem_takeThrough ha, hP⟩
  · induction l with
    | nil => exact h
    | cons b l ih =>
        rw [takeThrough]
        split_ifs with hb
        · exact ⟨b, List.mem_singleton_self b, hb⟩
        · obtain ⟨a, ha, hP⟩ := h
          rcases List.mem_cons.mp ha with rfl | ha
          · exact absurd hP hb
          · obtain ⟨a', ha', hP'⟩ := ih ⟨a, ha, hP⟩
            exact ⟨a', List.mem_cons_of_mem _ ha', hP'⟩

end TakeThrough

end Lib
