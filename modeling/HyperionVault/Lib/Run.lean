import Mathlib.Algebra.Group.Int.Defs
import Mathlib.Algebra.Group.Nat.Defs
import Mathlib.Data.List.Basic
import Mathlib.Order.Lattice

/-!
# Runs of a step function

A system is a step function `step : σ → ε → σ`; a run is a list of events, and the states it reaches
are the results of its initial parts.

* `run step s es` : the state after the events `es`;
* `AllSteps step P s es` : every event of the run is taken in a state where `P` allows it;
* `RunsTo step P s es t` : such a run that ends in `t`;
* `run_inv`, `run_inv_of_allSteps` : what every step keeps, every run keeps;
* `run_sim` : the same for two systems that take the same events;
* `forall_reached_iff` : what holds in every state of a run, as a condition on its steps.
-/

namespace Lib

variable {σ ε : Type} (step : σ → ε → σ)

def run (s : σ) (es : List ε) : σ := es.foldl step s

@[simp] theorem run_nil (s : σ) : run step s [] = s := rfl

@[simp] theorem run_cons (s : σ) (e : ε) (es : List ε) : run step s (e :: es) = run step (step s e) es := rfl

theorem run_append (s : σ) (es fs : List ε) : run step s (es ++ fs) = run step (run step s es) fs :=
  List.foldl_append

/-- Every event is taken in a state where `P` allows it. -/
def AllSteps (P : σ → ε → Prop) : σ → List ε → Prop
  | _, [] => True
  | s, e :: es => P s e ∧ AllSteps P (step s e) es

variable {step} {P : σ → ε → Prop} {s : σ} {es : List ε}

theorem allSteps_append {es fs : List ε} :
    AllSteps step P s (es ++ fs) ↔ AllSteps step P s es ∧ AllSteps step P (run step s es) fs := by
  induction es generalizing s with
  | nil => exact ⟨fun h => ⟨trivial, h⟩, fun h => h.2⟩
  | cons e es ih =>
      rw [List.cons_append, AllSteps, AllSteps, ih, run_cons, and_assoc]

theorem AllSteps.imp {P Q : σ → ε → Prop} (h : AllSteps step P s es)
    (hPQ : ∀ s e, P s e → Q s e) : AllSteps step Q s es := by
  induction es generalizing s with
  | nil => trivial
  | cons e es ih => exact ⟨hPQ s e h.1, ih h.2⟩

theorem allSteps_iff_getElem :
    AllSteps step P s es ↔ ∀ n (hn : n < es.length), P (run step s (es.take n)) es[n] := by
  induction es generalizing s with
  | nil => exact ⟨nofun, fun _ => trivial⟩
  | cons e es ih =>
      rw [AllSteps, ih]
      constructor
      · rintro ⟨he, hes⟩ n hn
        cases n with
        | zero => exact he
        | succ n => exact hes n (Nat.lt_of_succ_lt_succ hn)
      · intro h
        exact ⟨h 0 (Nat.zero_lt_succ _), fun n hn => h (n + 1) (Nat.succ_lt_succ hn)⟩

theorem allSteps_of_forall {P : ε → Prop} (h : ∀ e ∈ es, P e) :
    AllSteps step (fun _ e => P e) s es := by
  induction es generalizing s with
  | nil => trivial
  | cons e es ih => exact ⟨h e List.mem_cons_self, ih fun e' he' => h e' (List.mem_cons_of_mem _ he')⟩

/-- The events lead from `s` to `t`, and `P` allows each of them. -/
def RunsTo (step : σ → ε → σ) (P : σ → ε → Prop) (s : σ) (es : List ε) (t : σ) : Prop :=
  run step s es = t ∧ AllSteps step P s es

theorem RunsTo.append {s t u : σ} {es fs : List ε} (h : RunsTo step P s es t)
    (h' : RunsTo step P t fs u) : RunsTo step P s (es ++ fs) u := by
  obtain ⟨rfl, hes⟩ := h
  exact ⟨(run_append step s es fs).trans h'.1, allSteps_append.mpr ⟨hes, h'.2⟩⟩

theorem runsTo_singleton {e : ε} (h : P s e) : RunsTo step P s [e] (step s e) :=
  ⟨rfl, h, trivial⟩

theorem run_inv {I : σ → Prop} (hstep : ∀ s e, I s → I (step s e)) (h : I s) (es : List ε) :
    I (run step s es) := by
  induction es generalizing s with
  | nil => exact h
  | cons e es ih => exact ih (hstep s e h)

theorem run_inv_of_allSteps {I : σ → Prop} (hstep : ∀ s e, I s → P s e → I (step s e))
    (h : I s) (hes : AllSteps step P s es) : I (run step s es) := by
  induction es generalizing s with
  | nil => exact h
  | cons e es ih => exact ih (hstep s e h hes.1) hes.2

/-- Two systems that take the same events: what each event keeps between them, every run keeps. -/
theorem run_sim {τ : Type} {step' : τ → ε → τ} {S : σ → τ → Prop} {P : τ → ε → Prop}
    (hstep : ∀ s t e, S s t → P t e → S (step s e) (step' t e)) {t : τ} (h : S s t)
    (hes : AllSteps step' P t es) : S (run step s es) (run step' t es) := by
  induction es generalizing s t with
  | nil => exact h
  | cons e es ih => exact ih (hstep s t e h hes.1) hes.2

/-- Where, in good states, a step keeps `J` exactly when `K` allows it, `J` holds in every state of a run
exactly when `K` allows every step. -/
theorem forall_reached_iff {I J : σ → Prop} {P K : σ → ε → Prop} (hI : ∀ s e, I s → P s e → I (step s e))
    (hJ : ∀ s e, I s → P s e → J s → (J (step s e) ↔ K s e)) (hs : I s) (hJs : J s)
    (hes : AllSteps step P s es) :
    (∀ before after, es = before ++ after → J (run step s before)) ↔ AllSteps step K s es := by
  induction es generalizing s with
  | nil =>
      refine ⟨fun _ => trivial, fun _ before after hsplit => ?_⟩
      rw [(List.append_eq_nil_iff.mp hsplit.symm).1]
      exact hJs
  | cons e es ih =>
      have hnext := hI s e hs hes.1
      constructor
      · intro h
        have hJnext : J (step s e) := h [e] es rfl
        refine ⟨(hJ s e hs hes.1 hJs).mp hJnext, (ih hnext hJnext hes.2).mp fun before after hsplit => ?_⟩
        exact h (e :: before) after (by rw [hsplit, List.cons_append])
      · rintro ⟨hK, hrest⟩ before after hsplit
        have hJnext : J (step s e) := (hJ s e hs hes.1 hJs).mpr hK
        cases before with
        | nil => exact hJs
        | cons e' before =>
            rw [List.cons_append, List.cons.injEq] at hsplit
            obtain ⟨rfl, hsplit⟩ := hsplit
            exact (ih hnext hJnext hes.2).mpr hrest before after hsplit

end Lib
