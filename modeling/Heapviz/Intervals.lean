import Mathlib.Data.List.Pairwise
import Mathlib.Order.Basic

/-!
# Lists of intervals in ascending order

A list of records, each with a half-open interval `[lo, hi)` of its own,
every one at or before the next. `search` is the binary search that returns
the record itself: it goes left of an interval that begins past the point,
right of one that ends at or before it, and stops anywhere else.

`search_eq_some` is all a user of the search needs. The search window shrinks
around the point (`Window`), so what it returns holds the point and what it
leaves out does not; and no two records of an ascending list hold one point
(`Ascending.eq_of_holds`).

`gaps` adds up what lies between the intervals of an ascending list.
-/

namespace Intervals

variable {α : Type*} {lo hi : α → Nat}

/-- The point lies in the record's interval. -/
def Holds (lo hi : α → Nat) (x : Nat) (a : α) : Prop := lo a ≤ x ∧ x < hi a

/-- Intervals in order, none ending before it begins. -/
structure Ascending (lo hi : α → Nat) (l : List α) : Prop where
  ordered : ∀ a ∈ l, lo a ≤ hi a
  before : l.Pairwise fun a b => hi a ≤ lo b

def search (lo hi : α → Nat) (l : List α) (x : Nat) : Nat → Nat → Nat → Option α
  | 0, _, _ => none
  | fuel + 1, i, j =>
      if i < j then
        let mid := i + (j - i) / 2
        match l[mid]? with
        | none => none
        | some a =>
            if x < lo a then search lo hi l x fuel i mid
            else if x ≥ hi a then search lo hi l x fuel (mid + 1) j
            else some a
      else none

/-- What the intervals leave free, from the point `x` on to the last of them. -/
def gapsFrom (lo hi : α → Nat) : Nat → List α → Nat
  | _, [] => 0
  | x, a :: l => (lo a - x) + gapsFrom lo hi (hi a) l

/-- What lies between one interval and the next, summed up. -/
def gaps (lo hi : α → Nat) : List α → Nat
  | [] => 0
  | a :: l => gapsFrom lo hi (hi a) l

/-! ## One record for each point -/

/-- Two members of an ordered list are one, or one comes before the other. -/
theorem pairwise_compare {R : α → α → Prop} {l : List α} (h : l.Pairwise R) {a b : α}
    (ha : a ∈ l) (hb : b ∈ l) : a = b ∨ R a b ∨ R b a := by
  induction l with
  | nil => cases ha
  | cons c l ih =>
      obtain ⟨hhead, htail⟩ := List.pairwise_cons.mp h
      rcases List.mem_cons.mp ha with rfl | ha'
      · rcases List.mem_cons.mp hb with rfl | hb'
        · exact Or.inl rfl
        · exact Or.inr (Or.inl (hhead b hb'))
      · rcases List.mem_cons.mp hb with rfl | hb'
        · exact Or.inr (Or.inr (hhead a ha'))
        · exact ih htail ha' hb'

namespace Ascending

variable {l : List α}

theorem tail {a : α} (h : Ascending lo hi (a :: l)) : Ascending lo hi l :=
  ⟨fun b hb => h.ordered b (List.mem_cons_of_mem _ hb), (List.pairwise_cons.mp h.before).2⟩

theorem sublist {l' : List α} (h : Ascending lo hi l) (hsub : l'.Sublist l) :
    Ascending lo hi l' :=
  ⟨fun a ha => h.ordered a (hsub.subset ha), h.before.sublist hsub⟩

theorem eq_of_holds (h : Ascending lo hi l) {x : Nat} {a b : α} (ha : a ∈ l) (hb : b ∈ l)
    (hxa : Holds lo hi x a) (hxb : Holds lo hi x b) : a = b := by
  unfold Holds at hxa hxb
  rcases pairwise_compare h.before ha hb with heq | hab | hba
  · exact heq
  · omega
  · omega

/-- Positions in the list are in the order of the intervals. -/
theorem getElem_le (h : Ascending lo hi l) {i j : Nat} {a b : α} (ha : l[i]? = some a)
    (hb : l[j]? = some b) (hij : i < j) : hi a ≤ lo b := by
  obtain ⟨hi', rfl⟩ := List.getElem?_eq_some_iff.mp ha
  obtain ⟨hj', rfl⟩ := List.getElem?_eq_some_iff.mp hb
  exact List.pairwise_iff_getElem.mp h.before i j hi' hj' hij

end Ascending

/-! ## The search -/

/-- What is known of the records outside the window `[i, j)`. -/
structure Window (lo hi : α → Nat) (l : List α) (x i j : Nat) : Prop where
  left : ∀ k < i, ∀ a, l[k]? = some a → hi a ≤ x
  right : ∀ k, j ≤ k → ∀ a, l[k]? = some a → x < lo a

theorem Window.whole (x : Nat) (l : List α) : Window lo hi l x 0 l.length where
  left := fun k hk => absurd hk (Nat.not_lt_zero k)
  right := fun k hk a ha => by
    rw [List.getElem?_eq_none hk] at ha
    cases ha

theorem Window.goLeft {l : List α} {x i j mid : Nat} {a : α} (h : Ascending lo hi l)
    (hw : Window lo hi l x i j) (ha : l[mid]? = some a) (hx : x < lo a) :
    Window lo hi l x i mid where
  left := hw.left
  right := fun k hk b hb => by
    rcases Nat.eq_or_lt_of_le hk with rfl | hlt
    · rw [ha] at hb
      cases hb
      exact hx
    · have hab := h.getElem_le ha hb hlt
      have hself := h.ordered a (List.mem_of_getElem? ha)
      omega

theorem Window.goRight {l : List α} {x i j mid : Nat} {a : α} (h : Ascending lo hi l)
    (hw : Window lo hi l x i j) (ha : l[mid]? = some a) (hx : hi a ≤ x) :
    Window lo hi l x (mid + 1) j where
  left := fun k hk b hb => by
    rcases Nat.eq_or_lt_of_le (Nat.le_of_lt_succ hk) with rfl | hlt
    · rw [ha] at hb
      cases hb
      exact hx
    · have hba := h.getElem_le hb ha hlt
      have hself := h.ordered a (List.mem_of_getElem? ha)
      omega
  right := hw.right

/-- An empty window leaves no record that holds the point. -/
theorem Window.closed {l : List α} {x i j : Nat} (hw : Window lo hi l x i j) (hji : j ≤ i) :
    ∀ a ∈ l, ¬ Holds lo hi x a := by
  intro a ha hx
  obtain ⟨k, hk⟩ := List.getElem?_of_mem ha
  unfold Holds at hx
  rcases Nat.lt_or_ge k i with hlt | hge
  · have := hw.left k hlt a hk
    omega
  · have := hw.right k (by omega) a hk
    omega

theorem search_holds {l : List α} {x : Nat} {a : α} (fuel : Nat) {i j : Nat}
    (h : search lo hi l x fuel i j = some a) : a ∈ l ∧ Holds lo hi x a := by
  induction fuel generalizing i j with
  | zero => cases h
  | succ fuel ih =>
      unfold search at h
      split at h
      · dsimp only at h
        split at h
        · cases h
        · rename_i b hb
          split at h
          · exact ih h
          · split at h
            · exact ih h
            · cases h
              exact ⟨List.mem_of_getElem? hb, by unfold Holds; omega⟩
      · cases h

theorem search_none {l : List α} {x : Nat} (hl : Ascending lo hi l) (fuel : Nat) {i j : Nat}
    (hw : Window lo hi l x i j) (hj : j ≤ l.length) (hfuel : j < i + fuel)
    (h : search lo hi l x fuel i j = none) : ∀ a ∈ l, ¬ Holds lo hi x a := by
  induction fuel generalizing i j with
  | zero => exact hw.closed (by omega)
  | succ fuel ih =>
      unfold search at h
      split at h
      · dsimp only at h
        split at h
        · rename_i hnone
          have := List.getElem?_eq_none_iff.mp hnone
          omega
        · rename_i b hb
          split at h
          · rename_i hlt
            exact ih (hw.goLeft hl hb hlt) (by omega) (by omega) h
          · split at h
            · rename_i hge
              exact ih (hw.goRight hl hb hge) hj (by omega) h
            · cases h
      · exact hw.closed (by omega)

/-- **The search is exact**: it returns the one record that holds the point. -/
theorem search_eq_some {l : List α} (hl : Ascending lo hi l) {x : Nat} {a : α} :
    search lo hi l x (l.length + 1) 0 l.length = some a ↔ a ∈ l ∧ Holds lo hi x a := by
  constructor
  · exact search_holds _
  · rintro ⟨ha, hx⟩
    cases hsearch : search lo hi l x (l.length + 1) 0 l.length with
    | none =>
        exact absurd hx (search_none hl _ (.whole x l) (Nat.le_refl _) (by omega) hsearch a ha)
    | some b =>
        obtain ⟨hb, hxb⟩ := search_holds _ hsearch
        rw [hl.eq_of_holds hb ha hxb hx]

end Intervals
