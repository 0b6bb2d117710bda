import Mathlib.Data.List.Basic

/-!
# Runs of a partial step function

A system is a step function `σ → α → Option σ`: in a given state an
action either leads to one next state or cannot be taken. A run performs
a list of actions. Everything a development needs about runs is here -
how they compose, which states they pass through, the invariant rule,
and its variant for runs each of whose steps meets a condition.
-/

namespace Run

variable {σ α : Type*} {step : σ → α → Option σ}

/-- Perform a list of actions; `none` as soon as one cannot be taken. -/
def run (step : σ → α → Option σ) : σ → List α → Option σ
  | s, [] => some s
  | s, a :: as =>
      match step s a with
      | some s' => run step s' as
      | none => none

theorem run_cons {s s' : σ} {a : α} {as : List α} :
    run step s (a :: as) = some s' ↔ ∃ m, step s a = some m ∧ run step m as = some s' := by
  rw [run]
  cases step s a with
  | none => simp
  | some m => simp

theorem run_append {s s' : σ} : ∀ {as bs : List α},
    run step s (as ++ bs) = some s' ↔
      ∃ m, run step s as = some m ∧ run step m bs = some s' := by
  intro as
  induction as generalizing s with
  | nil => intro bs; simp [run]
  | cons a as ih =>
      intro bs
      rw [List.cons_append, run_cons]
      constructor
      · rintro ⟨m, hm, hr⟩
        obtain ⟨m', hm', hr'⟩ := ih.mp hr
        exact ⟨m', run_cons.mpr ⟨m, hm, hm'⟩, hr'⟩
      · rintro ⟨m', hm', hr'⟩
        obtain ⟨m, hm, hr⟩ := run_cons.mp hm'
        exact ⟨m, hm, ih.mpr ⟨m', hr, hr'⟩⟩

theorem run_concat {s s' : σ} {as : List α} {a : α} :
    run step s (as ++ [a]) = some s' ↔
      ∃ m, run step s as = some m ∧ step m a = some s' := by
  rw [run_append]
  refine exists_congr fun m => and_congr_right ?_
  intro _
  rw [run_cons]
  simp [run]

/-- **The invariant rule.** What holds at the start and is kept by every
step holds at the end of every run. -/
theorem run_invariant {I : σ → Prop}
    (hstep : ∀ s a s', I s → step s a = some s' → I s') {s s' : σ} {as : List α}
    (h0 : I s) (hrun : run step s as = some s') : I s' := by
  induction as generalizing s with
  | nil => obtain rfl := Option.some.inj hrun; exact h0
  | cons a as ih =>
      obtain ⟨m, hm, hr⟩ := run_cons.mp hrun
      exact ih (hstep s a m h0 hm) hr

/-! ## Runs under a condition on each step -/

/-- Every action of the run is taken in a state that meets the condition
`G` on state and action. -/
def Guarded (step : σ → α → Option σ) (G : σ → α → Prop) : σ → List α → Prop
  | _, [] => True
  | s, a :: as => G s a ∧ ∀ s', step s a = some s' → Guarded step G s' as

instance Guarded.decidable (G : σ → α → Prop) [∀ s a, Decidable (G s a)] :
    ∀ s as, Decidable (Guarded step G s as)
  | _, [] => .isTrue trivial
  | s, a :: as =>
      match h : step s a with
      | none => decidable_of_iff (G s a)
          ⟨fun hg => ⟨hg, fun _ hs' => absurd (h.symm.trans hs') (by simp)⟩, And.left⟩
      | some m =>
          have := Guarded.decidable G m as
          decidable_of_iff (G s a ∧ Guarded step G m as)
            ⟨fun ⟨hg, hrest⟩ => ⟨hg, fun _ hs' => Option.some.inj (h.symm.trans hs') ▸ hrest⟩,
              fun hg => ⟨hg.1, hg.2 m h⟩⟩

theorem Guarded.append {G : σ → α → Prop} {s m : σ} : ∀ {as bs : List α},
    Guarded step G s (as ++ bs) → run step s as = some m →
      Guarded step G s as ∧ Guarded step G m bs := by
  intro as
  induction as generalizing s with
  | nil =>
      intro bs hg hrun
      obtain rfl := Option.some.inj hrun
      exact ⟨trivial, hg⟩
  | cons a as ih =>
      intro bs hg hrun
      obtain ⟨m', hm', hr⟩ := run_cons.mp hrun
      obtain ⟨h1, h2⟩ := ih (hg.2 m' hm') hr
      refine ⟨⟨hg.1, fun s' hs' => ?_⟩, h2⟩
      obtain rfl := Option.some.inj (hm'.symm.trans hs')
      exact h1

theorem Guarded.extend {G : σ → α → Prop} {s m : σ} : ∀ {as bs : List α},
    Guarded step G s as → run step s as = some m → Guarded step G m bs →
      Guarded step G s (as ++ bs) := by
  intro as
  induction as generalizing s with
  | nil =>
      intro bs _ hrun hbs
      obtain rfl := Option.some.inj hrun
      exact hbs
  | cons a as ih =>
      intro bs hg hrun hbs
      obtain ⟨m', hm', hr⟩ := run_cons.mp hrun
      refine ⟨hg.1, fun s' hs' => ?_⟩
      obtain rfl := Option.some.inj (hm'.symm.trans hs')
      exact ih (hg.2 m' hm') hr hbs

/-- A run is guarded when every action meets the condition in the state the
actions before it lead to. -/
theorem guarded_iff {G : σ → α → Prop} {s : σ} : ∀ {as : List α},
    Guarded step G s as ↔
      ∀ bs a cs m, as = bs ++ a :: cs → run step s bs = some m → G m a := by
  intro as
  induction as generalizing s with
  | nil => simp [Guarded]
  | cons b as ih =>
      constructor
      · rintro ⟨hb, hrest⟩ bs a cs m heq hrun
        cases bs with
        | nil =>
            obtain rfl := Option.some.inj hrun
            obtain ⟨rfl, -⟩ := List.cons.inj heq
            exact hb
        | cons b' bs =>
            obtain ⟨rfl, rfl⟩ := List.cons.inj heq
            obtain ⟨m', hm', hr⟩ := run_cons.mp hrun
            exact ih.mp (hrest m' hm') bs a cs m rfl hr
      · intro h
        refine ⟨h [] b as s rfl rfl, fun s' hs' => ih.mpr fun bs a cs m heq hrun => ?_⟩
        exact h (b :: bs) a cs m (by rw [heq, List.cons_append]) (run_cons.mpr ⟨s', hs', hrun⟩)

/-- Two conditions that mean the same wherever the invariant holds guard the
same runs. -/
theorem guarded_congr {G G' : σ → α → Prop} {I : σ → Prop}
    (hstep : ∀ s a s', I s → step s a = some s' → I s')
    (h : ∀ s a, I s → (G s a ↔ G' s a)) {s : σ} (h0 : I s) {as : List α} :
    Guarded step G s as ↔ Guarded step G' s as := by
  induction as generalizing s with
  | nil => exact Iff.rfl
  | cons a as ih =>
      exact and_congr (h s a h0)
        (forall_congr' fun s' => forall_congr' fun hs' => ih (hstep s a s' h0 hs'))

/-- The invariant rule for runs whose steps meet the condition. -/
theorem guarded_invariant {G : σ → α → Prop} {I : σ → Prop}
    (hstep : ∀ s a s', I s → G s a → step s a = some s' → I s') {s s' : σ}
    {as : List α} (h0 : I s) (hg : Guarded step G s as)
    (hrun : run step s as = some s') : I s' := by
  induction as generalizing s with
  | nil => obtain rfl := Option.some.inj hrun; exact h0
  | cons a as ih =>
      obtain ⟨m, hm, hr⟩ := run_cons.mp hrun
      exact ih (hstep s a m h0 hg.1 hm) (hg.2 m hm) hr

/-- What the condition gives wherever the invariant holds, it gives at every
step of a guarded run. -/
theorem Guarded.imp {G H : σ → α → Prop} {I : σ → Prop}
    (hstep : ∀ s a s', I s → G s a → step s a = some s' → I s')
    (h : ∀ s a, I s → G s a → H s a) {s : σ} (h0 : I s) {as : List α}
    (hg : Guarded step G s as) : Guarded step H s as := by
  induction as generalizing s with
  | nil => trivial
  | cons a as ih =>
      refine ⟨h s a h0 hg.1, ?_⟩
      intro s' hs'
      exact ih (hstep s a s' h0 hg.1 hs') (hg.2 s' hs')

end Run
