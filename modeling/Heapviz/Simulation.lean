import Heapviz.Run

/-!
# Forward simulation of partial step functions

A concrete system `step` follows an abstract one `step'` along an
abstraction of its states when every concrete step is either one abstract
step, named by `label`, or invisible. The concrete steps looked at are
those taken under an invariant `I` and meeting a condition `G`; a system
that loses something under load is followed only while it loses nothing,
and that is what the condition is for.

`Simulation.run` turns a concrete run into an abstract one, and
`Simulation.guarded` carries a condition on the steps along. A condition on where a run ends becomes a condition on all of its steps when
the bad thing cannot be undone (`guarded_of_end`).
-/

namespace Run

variable {σ τ α β : Type*}

/-- The concrete system follows the abstract one along `abs`. -/
structure Simulation (step : σ → α → Option σ) (step' : τ → β → Option τ)
    (I : σ → Prop) (G : σ → α → Prop) where
  abs : σ → τ
  label : σ → α → Option β
  keeps : ∀ s a s', I s → G s a → step s a = some s' → I s'
  follows : ∀ s a s', I s → G s a → step s a = some s' →
    match label s a with
    | some b => step' (abs s) b = some (abs s')
    | none => abs s' = abs s

namespace Simulation

variable {step : σ → α → Option σ} {step' : τ → β → Option τ} {I : σ → Prop}
  {G : σ → α → Prop}

/-- The abstract actions a concrete run performs. -/
def trace (S : Simulation step step' I G) : σ → List α → List β
  | _, [] => []
  | s, a :: as =>
      (S.label s a).toList ++ match step s a with
        | some s' => S.trace s' as
        | none => []

theorem trace_cons (S : Simulation step step' I G) {s s' : σ} {a : α} {as : List α}
    (h : step s a = some s') : S.trace s (a :: as) = (S.label s a).toList ++ S.trace s' as := by
  rw [trace, h]

/-- One step, as a run of at most one abstract action. -/
theorem step_run (S : Simulation step step' I G) {s s' : σ} {a : α} (hI : I s) (hG : G s a)
    (h : step s a = some s') :
    Run.run step' (S.abs s) (S.label s a).toList = some (S.abs s') := by
  have hfollows := S.follows s a s' hI hG h
  cases hlabel : S.label s a with
  | some b =>
      rw [hlabel] at hfollows
      exact run_cons.mpr ⟨S.abs s', hfollows, rfl⟩
  | none =>
      rw [hlabel] at hfollows
      exact congrArg some hfollows.symm

/-- **The simulation rule.** A run that meets the condition is an abstract
run, between the abstractions of its ends. -/
theorem run (S : Simulation step step' I G) {s s' : σ} {as : List α} (h0 : I s)
    (hG : Guarded step G s as) (hrun : Run.run step s as = some s') :
    Run.run step' (S.abs s) (S.trace s as) = some (S.abs s') := by
  induction as generalizing s with
  | nil =>
      obtain rfl := Option.some.inj hrun
      rfl
  | cons a as ih =>
      obtain ⟨m, hm, hrest⟩ := run_cons.mp hrun
      rw [S.trace_cons hm]
      exact run_append.mpr ⟨S.abs m, S.step_run h0 hG.1 hm,
        ih (S.keeps s a m h0 hG.1 hm) (hG.2 m hm) hrest⟩

/-- The invariant at the end of such a run. -/
theorem invariant (S : Simulation step step' I G) {s s' : σ} {as : List α} (h0 : I s)
    (hG : Guarded step G s as) (hrun : Run.run step s as = some s') : I s' :=
  guarded_invariant S.keeps h0 hG hrun

/-- A condition the concrete steps meet comes down with the run when each
abstract action inherits it. -/
theorem guarded (S : Simulation step step' I G) {H : σ → α → Prop} {G' : τ → β → Prop}
    (h : ∀ s a b, I s → H s a → S.label s a = some b → G' (S.abs s) b) {s s' : σ}
    {as : List α} (h0 : I s) (hG : Guarded step G s as) (hH : Guarded step H s as)
    (hrun : Run.run step s as = some s') : Guarded step' G' (S.abs s) (S.trace s as) := by
  induction as generalizing s with
  | nil => trivial
  | cons a as ih =>
      obtain ⟨m, hm, hrest⟩ := run_cons.mp hrun
      rw [S.trace_cons hm]
      refine Guarded.extend ?_ (S.step_run h0 hG.1 hm)
        (ih (S.keeps s a m h0 hG.1 hm) (hG.2 m hm) (hH.2 m hm) hrest)
      cases hlabel : S.label s a with
      | some b => exact ⟨h s a b h0 hH.1 hlabel, fun _ _ => trivial⟩
      | none => trivial

end Simulation

/-- A step leads to a state of `Q`. -/
def Into (step : σ → α → Option σ) (Q : σ → Prop) (s : σ) (a : α) : Prop :=
  ∀ s', step s a = some s' → Q s'

/-- A run that ends in `Q`, where no step enters `Q` from outside, was in
`Q` all along. -/
theorem guarded_of_end {step : σ → α → Option σ} {I Q : σ → Prop}
    (hstep : ∀ s a s', I s → step s a = some s' → I s')
    (hback : ∀ s a s', I s → step s a = some s' → Q s' → Q s) {s s' : σ} {as : List α}
    (h0 : I s) (hrun : run step s as = some s') (hend : Q s') :
    Q s ∧ Guarded step (Into step Q) s as := by
  induction as generalizing s with
  | nil =>
      obtain rfl := Option.some.inj hrun
      exact ⟨hend, trivial⟩
  | cons a as ih =>
      obtain ⟨m, hm, hrest⟩ := run_cons.mp hrun
      obtain ⟨hmid, hguard⟩ := ih (hstep s a m h0 hm) hrest
      refine ⟨hback s a m h0 hm hmid, ?_, ?_⟩
      · intro m' hm'
        rw [← Option.some.inj (hm.symm.trans hm')]
        exact hmid
      · intro m' hm'
        rw [← Option.some.inj (hm.symm.trans hm')]
        exact hguard

end Run
