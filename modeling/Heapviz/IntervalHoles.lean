import Mathlib.Data.Set.Finite.Basic
import Mathlib.Data.Set.Finite.Lemmas
import Mathlib.Order.Bounds.Basic
import Heapviz.Intervals

/-!
# Holes between intervals that may overlap

A finite set of intervals, in no order and with no promise that they are
disjoint. `FreeRun` is a run of points between the first interval and the last
that none of them holds.

The obvious way to the longest run looks at neighbours in the order of their
lower ends (`NextTo`) and takes the distance from one's upper end to the next
one's lower end. It never misses a run (`exists_nextTo`). But the distance is a
run only if no interval from further left reaches past the first of the two
(`Bridged`, `freeRun_of_nextTo`), so the two lengths agree exactly when no
bridged pair is further apart than every pair that is not
(`isGreatest_freeRun_iff`).
-/

namespace Intervals

variable {α : Type*} {lo hi : α → Nat}

/-- Neighbours in the order of lower ends. -/
def NextTo (lo : α → Nat) (F : Set α) (a b : α) : Prop :=
  a ∈ F ∧ b ∈ F ∧ lo a < lo b ∧ ∀ e ∈ F, lo e ≤ lo a ∨ lo b ≤ lo e

/-- An interval that begins no later than this one reaches past it. -/
def Bridged (lo hi : α → Nat) (F : Set α) (a : α) : Prop :=
  ∃ e ∈ F, lo e ≤ lo a ∧ hi a < hi e

/-- The points `[x, x + w)` lie between the lowest end and the highest, and in
none of the intervals. -/
def FreeRun (lo hi : α → Nat) (F : Set α) (x w : Nat) : Prop :=
  ∀ y, x ≤ y → y < x + w →
    (∃ e ∈ F, lo e ≤ y) ∧ (∃ e ∈ F, y < hi e) ∧ ∀ e ∈ F, ¬ Holds lo hi y e

section Runs

variable {F : Set α} {a b : α} {x w : Nat}

theorem FreeRun.zero (lo hi : α → Nat) (F : Set α) (x : Nat) : FreeRun lo hi F x 0 := by
  intro y hy hlt
  omega

theorem FreeRun.mono {w' : Nat} (h : FreeRun lo hi F x w) (hle : w' ≤ w) :
    FreeRun lo hi F x w' :=
  fun y hy hlt => h y hy (by omega)

/-- Every run lies between two neighbours, past everything that begins before
it. -/
theorem FreeRun.exists_nextTo (hF : F.Finite) (hlt : ∀ e ∈ F, lo e < hi e)
    (h : FreeRun lo hi F x w) (hw : 0 < w) :
    ∃ a b, NextTo lo F a b ∧ ∀ e ∈ F, lo e ≤ lo a → hi e + w ≤ lo b := by
  obtain ⟨⟨l, hl, hlx⟩, ⟨r, hr, hxr⟩, hfree⟩ := h x (Nat.le_refl x) (by omega)
  have hrx : x < lo r := by
    by_contra hle
    exact hfree r hr ⟨by omega, hxr⟩
  -- the neighbours are the last interval to begin by `x` and the first one after
  obtain ⟨a, ⟨ha, hax⟩, hmax⟩ := Set.exists_max_image {e | e ∈ F ∧ lo e ≤ x} lo
    (hF.subset fun e he => he.1) ⟨l, hl, hlx⟩
  obtain ⟨b, ⟨hb, hxb⟩, hmin⟩ := Set.exists_min_image {e | e ∈ F ∧ x < lo e} lo
    (hF.subset fun e he => he.1) ⟨r, hr, hrx⟩
  refine ⟨a, b, ⟨ha, hb, by omega, ?_⟩, ?_⟩
  · intro e he
    rcases Nat.lt_or_ge x (lo e) with hgt | hle
    · exact Or.inr (hmin e ⟨he, hgt⟩)
    · exact Or.inl (hmax e ⟨he, hle⟩)
  · intro e he hea
    have hends : hi e ≤ x := by
      by_contra hgt
      exact hfree e he ⟨by omega, by omega⟩
    have hbegins : x + w ≤ lo b := by
      by_contra hgt
      exact (h (lo b) (by omega) (by omega)).2.2 b hb ⟨Nat.le_refl _, hlt b hb⟩
    omega

/-- Between neighbours of which the first is not bridged, all is free. -/
theorem freeRun_of_nextTo (hlt : ∀ e ∈ F, lo e < hi e) (h : NextTo lo F a b)
    (hbridged : ¬ Bridged lo hi F a) : FreeRun lo hi F (hi a) (lo b - hi a) := by
  obtain ⟨ha, hb, -, hnone⟩ := h
  intro y hy hyb
  have hafirst := hlt a ha
  have hblast := hlt b hb
  refine ⟨⟨a, ha, by omega⟩, ⟨b, hb, by omega⟩, ?_⟩
  rintro e he ⟨hey, hye⟩
  rcases hnone e he with hle | hge
  · exact hbridged ⟨e, he, hle, by omega⟩
  · omega

/-- The neighbours in a list in strict order are the ones next to each other. -/
theorem nextTo_cons_cons {l : List α} {x y : α}
    (h : (a :: b :: l).Pairwise fun e e' => lo e < lo e') :
    NextTo lo {e | e ∈ a :: b :: l} x y ↔
      x = a ∧ y = b ∨ NextTo lo {e | e ∈ b :: l} x y := by
  obtain ⟨hhead, htail⟩ := List.pairwise_cons.mp h
  have hab : lo a < lo b := hhead b List.mem_cons_self
  have hbl : ∀ e ∈ b :: l, lo b ≤ lo e := by
    intro e he
    rcases List.mem_cons.mp he with rfl | he
    · exact Nat.le_refl _
    · exact ((List.pairwise_cons.mp htail).1 e he).le
  constructor
  · rintro ⟨hx, hy, hxy, hnone⟩
    have hy' : y ∈ b :: l := by
      rcases List.mem_cons.mp hy with rfl | hy
      · rcases List.mem_cons.mp hx with rfl | hx
        · omega
        · have := hhead x hx
          omega
      · exact hy
    rcases List.mem_cons.mp hx with rfl | hx
    · refine Or.inl ⟨rfl, ?_⟩
      rcases List.mem_cons.mp hy' with rfl | hyl
      · rfl
      · have := (List.pairwise_cons.mp htail).1 y hyl
        have := hnone b (List.mem_cons_of_mem _ List.mem_cons_self)
        omega
    · exact Or.inr ⟨hx, hy', hxy, fun e he => hnone e (List.mem_cons_of_mem _ he)⟩
  · rintro (⟨rfl, rfl⟩ | ⟨hx, hy, hxy, hnone⟩)
    · refine ⟨List.mem_cons_self, List.mem_cons_of_mem _ List.mem_cons_self, hab, ?_⟩
      intro e he
      rcases List.mem_cons.mp he with rfl | he
      · exact Or.inl (Nat.le_refl _)
      · exact Or.inr (hbl e he)
    · refine ⟨List.mem_cons_of_mem _ hx, List.mem_cons_of_mem _ hy, hxy, ?_⟩
      intro e he
      rcases List.mem_cons.mp he with rfl | he
      · have := hbl x hx
        exact Or.inl (by omega)
      · exact hnone e he

end Runs

/-- **Neighbours measure the longest run** of a family of sets exactly when
every bridged pair is no further apart than some pair that is not bridged. -/
theorem isGreatest_freeRun_iff {ι : Type*} {I : Set ι} {F : ι → Set α} {d : Nat}
    (hI : I.Nonempty) (hF : ∀ i ∈ I, (F i).Finite) (hlt : ∀ i ∈ I, ∀ e ∈ F i, lo e < hi e)
    (hd : ∀ w, 0 < w → (w ≤ d ↔ ∃ i ∈ I, ∃ a b, NextTo lo (F i) a b ∧ w ≤ lo b - hi a)) :
    IsGreatest {w | ∃ i ∈ I, ∃ x, FreeRun lo hi (F i) x w} d ↔
      ∀ i ∈ I, ∀ a b, NextTo lo (F i) a b → Bridged lo hi (F i) a → hi a < lo b →
        ∃ j ∈ I, ∃ a' b', NextTo lo (F j) a' b' ∧ ¬ Bridged lo hi (F j) a' ∧
          lo b - hi a ≤ lo b' - hi a' := by
  constructor
  · rintro ⟨⟨j, hj, x, hrun⟩, -⟩ i hi' a b hnext - hapart
    have hle : lo b - hi a ≤ d := (hd _ (by omega)).mpr ⟨i, hi', a, b, hnext, Nat.le_refl _⟩
    obtain ⟨a', b', hnext', hpast⟩ := hrun.exists_nextTo (hF j hj) (hlt j hj) (by omega)
    have hself := hpast a' hnext'.1 (Nat.le_refl _)
    refine ⟨j, hj, a', b', hnext', ?_, by omega⟩
    -- a bridge would make this pair further apart than the greatest distance
    rintro ⟨e, he, hea, hlong⟩
    have hpasse := hpast e he hea
    have hmost : lo b' - hi a' ≤ d :=
      (hd _ (by omega)).mpr ⟨j, hj, a', b', hnext', Nat.le_refl _⟩
    omega
  · intro hbridge
    refine ⟨?_, ?_⟩
    · rcases Nat.eq_zero_or_pos d with rfl | hpos
      · obtain ⟨i, hi'⟩ := hI
        exact ⟨i, hi', 0, FreeRun.zero lo hi (F i) 0⟩
      · obtain ⟨i, hi', a, b, hnext, hle⟩ := (hd d hpos).mp (Nat.le_refl d)
        by_cases hbridged : Bridged lo hi (F i) a
        · obtain ⟨j, hj, a', b', hnext', hfree, hle'⟩ :=
            hbridge i hi' a b hnext hbridged (by omega)
          exact ⟨j, hj, _, (freeRun_of_nextTo (hlt j hj) hnext' hfree).mono (by omega)⟩
        · exact ⟨i, hi', _, (freeRun_of_nextTo (hlt i hi') hnext hbridged).mono hle⟩
    · rintro w ⟨i, hi', x, hrun⟩
      rcases Nat.eq_zero_or_pos w with rfl | hpos
      · exact Nat.zero_le d
      · obtain ⟨a, b, hnext, hpast⟩ := hrun.exists_nextTo (hF i hi') (hlt i hi') hpos
        have hself := hpast a hnext.1 (Nat.le_refl _)
        exact (hd w hpos).mpr ⟨i, hi', a, b, hnext, by omega⟩

end Intervals
