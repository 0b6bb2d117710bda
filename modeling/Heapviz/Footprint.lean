import Mathlib.Data.List.Nodup

/-!
# Footprints

A store is seen location by location, and some operations on it keep to a part
of the locations: outside of the part they change nothing, and what they leave
in the part depends on nothing but what the part held before (`Local`).

Operations with one part compose to an operation with that part. Of a sequence
of operations with parts of their own, one whose part no other touches leaves
in it what it would leave there alone, whatever the others are and in whatever
order they come (`perform_part`).
-/

namespace Footprint

variable {σ L V : Type*} {view : σ → L → V} {ok : σ → Prop}

/-- In the part the two stores look alike. -/
def Agree (view : σ → L → V) (part : L → Prop) (s s' : σ) : Prop :=
  ∀ l, part l → view s l = view s' l

/-- The operation keeps to the part, on stores that are `ok`. -/
structure Local (view : σ → L → V) (ok : σ → Prop) (f : σ → σ) (part : L → Prop) : Prop where
  keeps : ∀ s, ok s → ok (f s)
  frame : ∀ s, ok s → ∀ l, ¬ part l → view (f s) l = view s l
  reads : ∀ s s', ok s → ok s' → Agree view part s s' → Agree view part (f s) (f s')

namespace Local

variable {f g : σ → σ} {part part' : L → Prop}

theorem skip (part : L → Prop) : Local view ok (fun s => s) part :=
  ⟨fun _ h => h, fun _ _ _ _ => rfl, fun _ _ _ _ h => h⟩

/-- One after the other. -/
theorem comp (hf : Local view ok f part) (hg : Local view ok g part) :
    Local view ok (fun s => g (f s)) part := by
  refine ⟨fun s hs => hg.keeps _ (hf.keeps s hs), fun s hs l hl => ?_, fun s s' hs hs' hagree => ?_⟩
  · rw [hg.frame _ (hf.keeps s hs) l hl, hf.frame s hs l hl]
  · exact hg.reads _ _ (hf.keeps s hs) (hf.keeps s' hs') (hf.reads s s' hs hs' hagree)

/-- A part may be taken larger: what is added to it is left as it is. -/
theorem mono (hf : Local view ok f part) (h : ∀ l, part l → part' l) :
    Local view ok f part' := by
  refine ⟨hf.keeps, fun s hs l hl => hf.frame s hs l fun hin => hl (h l hin), ?_⟩
  intro s s' hs hs' hagree l hl
  by_cases hin : part l
  · exact hf.reads s s' hs hs' (fun k hk => hagree k (h k hk)) l hin
  · rw [hf.frame s hs l hin, hf.frame s' hs' l hin, hagree l hl]

/-- A choice that does not look at the store. -/
theorem ite {p : Prop} [Decidable p] (hf : p → Local view ok f part)
    (hg : ¬ p → Local view ok g part) : Local view ok (fun s => if p then f s else g s) part := by
  by_cases hp : p
  · simpa only [if_pos hp] using hf hp
  · simpa only [if_neg hp] using hg hp

/-- A choice that looks at the part alone. -/
theorem branch {p : σ → Prop} [DecidablePred p]
    (hp : ∀ s s', ok s → ok s' → Agree view part s s' → (p s ↔ p s'))
    (hf : Local view ok f part) (hg : Local view ok g part) :
    Local view ok (fun s => if p s then f s else g s) part := by
  refine ⟨fun s hs => ?_, fun s hs l hl => ?_, fun s s' hs hs' hagree => ?_⟩
  · split
    · exact hf.keeps s hs
    · exact hg.keeps s hs
  · split
    · exact hf.frame s hs l hl
    · exact hg.frame s hs l hl
  · have hchoice := hp s s' hs hs' hagree
    by_cases h : p s
    · simp only [if_pos h, if_pos (hchoice.mp h)]
      exact hf.reads s s' hs hs' hagree
    · simp only [if_neg h, if_neg (mt hchoice.mpr h)]
      exact hg.reads s s' hs hs' hagree

/-- Only what it does to stores that are `ok` counts. -/
theorem congr (hf : Local view ok f part) (h : ∀ s, ok s → g s = f s) :
    Local view ok g part := by
  refine ⟨fun s hs => ?_, fun s hs => ?_, fun s s' hs hs' => ?_⟩
  · rw [h s hs]
    exact hf.keeps s hs
  · rw [h s hs]
    exact hf.frame s hs
  · rw [h s hs, h s' hs']
    exact hf.reads s s' hs hs'

/-- A loop over operations with the one part. -/
theorem foldl {ι : Type*} {step : σ → ι → σ} (is : List ι)
    (h : ∀ i ∈ is, Local view ok (fun s => step s i) part) :
    Local view ok (fun s => is.foldl step s) part := by
  induction is with
  | nil => exact skip part
  | cons i is ih =>
      exact (h i List.mem_cons_self).comp (ih fun j hj => h j (List.mem_cons_of_mem _ hj))

end Local

/-! ## Operations with parts of their own -/

/-- An operation with the part it keeps to. -/
structure Op (view : σ → L → V) (ok : σ → Prop) where
  run : σ → σ
  part : L → Prop
  isLocal : Local view ok run part

/-- The operations in order. -/
def perform (ops : List (Op view ok)) (s : σ) : σ := ops.foldl (fun s op => op.run s) s

section Perform

variable {s : σ} {l : L}

theorem perform_ok (ops : List (Op view ok)) (hs : ok s) : ok (perform ops s) := by
  induction ops generalizing s with
  | nil => exact hs
  | cons op ops ih => exact ih (op.isLocal.keeps s hs)

/-- What lies in no part stays. -/
theorem perform_frame {ops : List (Op view ok)} (hs : ok s) (h : ∀ op ∈ ops, ¬ op.part l) :
    view (perform ops s) l = view s l := by
  induction ops generalizing s with
  | nil => rfl
  | cons op ops ih =>
      have hrest := ih (op.isLocal.keeps s hs) fun op' h' => h op' (List.mem_cons_of_mem _ h')
      exact hrest.trans (op.isLocal.frame s hs l (h op List.mem_cons_self))

/-- **An operation whose part no other touches** leaves in it what it would leave
there alone. -/
theorem perform_part {before after : List (Op view ok)} {op : Op view ok} (hs : ok s)
    (hbefore : ∀ op' ∈ before, ∀ k, op.part k → ¬ op'.part k)
    (hafter : ∀ op' ∈ after, ∀ k, op.part k → ¬ op'.part k) (hl : op.part l) :
    view (perform (before ++ op :: after) s) l = view (op.run s) l := by
  have hreached := perform_ok before hs
  have hsplit : perform (before ++ op :: after) s = perform after (op.run (perform before s)) := by
    rw [perform, List.foldl_append]
    rfl
  have hin : view (op.run (perform before s)) l = view (op.run s) l :=
    op.isLocal.reads _ _ hreached hs
      (fun k hk => perform_frame hs fun op' h' => hbefore op' h' k hk) l hl
  rw [hsplit, perform_frame (op.isLocal.keeps _ hreached) fun op' h' => hafter op' h' l hl, hin]

/-- The same of operations that go by names, of which one stands for each. -/
theorem perform_named {ι : Type*} {op : ι → Op view ok} {is : List ι} {i : ι} (hs : ok s)
    (hnodup : is.Nodup) (hi : i ∈ is)
    (hapart : ∀ j ∈ is, j ≠ i → ∀ k, (op i).part k → ¬ (op j).part k) (hl : (op i).part l) :
    view (perform (is.map op) s) l = view ((op i).run s) l := by
  obtain ⟨before, after, rfl⟩ := List.append_of_mem hi
  rw [List.nodup_middle, List.nodup_cons] at hnodup
  have hother : ∀ js : List ι, (∀ j ∈ js, j ∈ before ++ after) → ∀ op' ∈ js.map op, ∀ k, (op i).part k →
      ¬ op'.part k := by
    intro js hjs op' hop' k hk
    obtain ⟨j, hj, rfl⟩ := List.mem_map.mp hop'
    have hin := hjs j hj
    refine hapart j ?_ (fun heq => hnodup.1 (heq ▸ hin)) k hk
    rcases List.mem_append.mp hin with hbefore | hafter
    · exact List.mem_append_left _ hbefore
    · exact List.mem_append_right _ (List.mem_cons_of_mem _ hafter)
  rw [List.map_append, List.map_cons]
  exact perform_part hs (hother before fun j hj => List.mem_append_left _ hj)
    (hother after fun j hj => List.mem_append_right _ hj) hl

end Perform

end Footprint
