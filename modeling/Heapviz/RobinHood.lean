import Mathlib.Algebra.Order.Group.Multiset
import Mathlib.Data.Multiset.Filter
import Mathlib.Data.Multiset.Range
import Mathlib.Logic.Function.Basic
import Mathlib.Tactic.SplitIfs

/-!
# Robin Hood tables

The theory of an open-addressing table with linear probing in which a
record never sits behind one that is closer to its home. The table is a
function from slot numbers below `n` to records; `full` says which of
them count and `home` where a record would like to be.

`Ordered` is the whole invariant: a record away from home has a record
right before it that is at most one step closer to its own home. It is
about distances only, so it survives the moments in which an operation
holds a record twice or not at all. From it come

- **the early exit** (`Ordered.run`): on the way from its home to a
  stored record every slot is full and at least as far displaced as the
  walk is long;
- **insertion** (`Carry`): the record in hand may always be put down,
  passed over a farther record, or exchanged with a nearer one;
- **deletion** (`Ordered.pull`, `Ordered.vacate`): a displaced record may
  move back one slot, and a slot may be emptied when nothing after it is
  displaced.

What a table holds is the multiset `contents`, so that nothing is lost or
duplicated is one equation for each write (`contents_update`).
-/

namespace RobinHood

/-! ## Distances around the table -/

/-- The slot after `i`. -/
def next (n i : Nat) : Nat := (i + 1) % n

/-- How far slot `i` lies past slot `h`, walking forward. -/
def dist (n h i : Nat) : Nat := (i + n - h) % n

theorem next_eq {n i : Nat} (hi : i < n) : next n i = if i + 1 = n then 0 else i + 1 := by
  unfold next
  split_ifs with h
  · rw [h, Nat.mod_self]
  · exact Nat.mod_eq_of_lt (by omega)

theorem dist_eq {n h i : Nat} (hh : h < n) (hi : i < n) :
    dist n h i = if h ≤ i then i - h else i + n - h := by
  unfold dist
  split_ifs with hle
  · rw [show i + n - h = i - h + n by omega, Nat.add_mod_right, Nat.mod_eq_of_lt (by omega)]
  · exact Nat.mod_eq_of_lt (by omega)

theorem next_lt {n i : Nat} (hi : i < n) : next n i < n := Nat.mod_lt _ (by omega)

theorem dist_lt {n h i : Nat} (hi : i < n) : dist n h i < n := Nat.mod_lt _ (by omega)

theorem dist_self {n h : Nat} (hh : h < n) : dist n h h = 0 := by
  rw [dist_eq hh hh, if_pos le_rfl, Nat.sub_self]

theorem next_ne {n i : Nat} (hn : 1 < n) (hi : i < n) : next n i ≠ i := by
  rw [next_eq hi]
  split_ifs <;> omega

theorem next_inj {n i j : Nat} (hi : i < n) (hj : j < n) (h : next n i = next n j) : i = j := by
  rw [next_eq hi, next_eq hj] at h
  split_ifs at h <;> omega

theorem dist_next {n h i : Nat} (hh : h < n) (hi : i < n) (hlt : dist n h i + 1 < n) :
    dist n h (next n i) = dist n h i + 1 := by
  rw [dist_eq hh (next_lt hi), next_eq hi]
  rw [dist_eq hh hi] at hlt ⊢
  split_ifs at hlt ⊢ <;> omega

/-- One step back is one step closer. -/
theorem dist_of_next_pos {n h i : Nat} (hh : h < n) (hi : i < n)
    (hpos : 0 < dist n h (next n i)) : dist n h (next n i) = dist n h i + 1 := by
  refine dist_next hh hi ?_
  rw [dist_eq hh (next_lt hi), next_eq hi] at hpos
  rw [dist_eq hh hi]
  split_ifs at hpos ⊢ <;> omega

/-- The slot `j` steps after `h`. -/
def walk (n h j : Nat) : Nat := (h + j) % n

theorem walk_lt {n h j : Nat} (hh : h < n) : walk n h j < n := Nat.mod_lt _ (by omega)

theorem walk_zero {n h : Nat} (hh : h < n) : walk n h 0 = h := Nat.mod_eq_of_lt hh

theorem walk_succ (n h j : Nat) : walk n h (j + 1) = next n (walk n h j) := by
  simp [walk, next, Nat.add_assoc]

theorem next_walk (n i j : Nat) : walk n (next n i) j = walk n i (j + 1) := by
  simp [walk, next, Nat.add_assoc, Nat.add_comm 1 j]

theorem walk_dist {n h i : Nat} (hh : h < n) (hi : i < n) : walk n h (dist n h i) = i := by
  rw [dist_eq hh hi, walk]
  split_ifs with hle
  · rw [Nat.add_sub_cancel' hle, Nat.mod_eq_of_lt hi]
  · rw [show h + (i + n - h) = i + n by omega, Nat.add_mod_right, Nat.mod_eq_of_lt hi]

/-! ## The order on displacements -/

section Table

variable {α : Type*} {n : Nat} {home : α → Nat} {full : α → Bool} {slots : Nat → α}

/-- How far the record in slot `i` is from home. -/
def disp (n : Nat) (home : α → Nat) (slots : Nat → α) (i : Nat) : Nat :=
  dist n (home (slots i)) i

/-- A displaced record has a record right before it, displaced by at most
one less. -/
def Ordered (n : Nat) (home : α → Nat) (full : α → Bool) (slots : Nat → α) : Prop :=
  ∀ i < n, full (slots (next n i)) = true → 0 < disp n home slots (next n i) →
    full (slots i) = true ∧ disp n home slots (next n i) ≤ disp n home slots i + 1

/-- Some slot is empty. -/
def Hole (n : Nat) (full : α → Bool) (slots : Nat → α) : Prop :=
  ∃ e < n, full (slots e) = false

theorem disp_update_self {i : Nat} {r : α} :
    disp n home (Function.update slots i r) i = dist n (home r) i := by
  simp [disp]

theorem disp_update_ne {i j : Nat} {r : α} (h : j ≠ i) :
    disp n home (Function.update slots i r) j = disp n home slots j := by
  simp [disp, h]

/-- **The early exit is sound.** Between its home and a stored record every
slot is full, and `j` steps in displaced by at least `j`. -/
theorem Ordered.run (hord : Ordered n home full slots) {i : Nat} (hi : i < n)
    (hhome : home (slots i) < n) (hfull : full (slots i) = true) {j : Nat}
    (hj : j ≤ disp n home slots i) :
    full (slots (walk n (home (slots i)) j)) = true ∧
      j ≤ disp n home slots (walk n (home (slots i)) j) := by
  induction hj using Nat.decreasingInduction with
  | self =>
      unfold disp
      rw [walk_dist hhome hi]
      exact ⟨hfull, le_rfl⟩
  | of_succ j hj ih =>
      rw [walk_succ] at ih
      obtain ⟨hnext, hle⟩ := ih
      obtain ⟨hf, hd⟩ := hord _ (walk_lt hhome) hnext (by omega)
      exact ⟨hf, by omega⟩

/-- With an empty slot somewhere nothing is a whole round from home. -/
theorem Ordered.disp_lt (hord : Ordered n home full slots) (hhole : Hole n full slots) {i : Nat}
    (hi : i < n) (hhome : home (slots i) < n) (hfull : full (slots i) = true) :
    disp n home slots i + 1 < n := by
  obtain ⟨e, he, hempty⟩ := hhole
  have hfar : disp n home slots i < dist n (home (slots i)) e := by
    by_contra hle
    have := (hord.run hi hhome hfull (not_lt.mp hle)).1
    rw [walk_dist hhome he, hempty] at this
    cases this
  have := dist_lt (h := home (slots i)) he
  omega

/-- What has to be checked when one slot is written. -/
theorem Ordered.update (hn : 1 < n) (hord : Ordered n home full slots) {s : Nat} {r : α}
    (hprev : ∀ p < n, next n p = s → full r = true → 0 < dist n (home r) s →
      full (slots p) = true ∧ dist n (home r) s ≤ disp n home slots p + 1)
    (hnext : full (slots (next n s)) = true → 0 < disp n home slots (next n s) →
      full r = true ∧ disp n home slots (next n s) ≤ dist n (home r) s + 1) :
    Ordered n home full (Function.update slots s r) := by
  intro i hi hf hd
  have hne := next_ne hn hi
  by_cases hs : next n i = s
  · subst hs
    rw [Function.update_self] at hf
    rw [disp_update_self] at hd ⊢
    rw [Function.update_of_ne (Ne.symm hne), disp_update_ne (Ne.symm hne)]
    exact hprev i hi rfl hf hd
  · rw [Function.update_of_ne hs] at hf
    rw [disp_update_ne hs] at hd ⊢
    by_cases his : i = s
    · subst his
      rw [Function.update_self, disp_update_self]
      exact hnext hf hd
    · rw [Function.update_of_ne his, disp_update_ne his]
      exact hord i hi hf hd

/-- From any slot an empty one comes within a round. -/
theorem Hole.ahead (h : Hole n full slots) {s : Nat} (hs : s < n) :
    ∃ k < n, full (slots (walk n s k)) = false := by
  obtain ⟨e, he, hempty⟩ := h
  exact ⟨dist n s e, dist_lt he, by rw [walk_dist hs he]; exact hempty⟩

/-! ## Insertion: a record in hand -/

/-- The record `r` is in hand at slot `s`, `d` steps from its home, and the
slot before could precede it. -/
structure Carry (n : Nat) (home : α → Nat) (full : α → Bool) (slots : Nat → α) (r : α)
    (s d : Nat) : Prop where
  slot_lt : s < n
  home_lt : home r < n
  dist_eq : dist n (home r) s = d
  prev : 0 < d → ∀ p < n, next n p = s →
    full (slots p) = true ∧ d ≤ disp n home slots p + 1

theorem Carry.start {r : α} (hr : home r < n) : Carry n home full slots r (home r) 0 where
  slot_lt := hr
  home_lt := hr
  dist_eq := dist_self hr
  prev := fun h => absurd h (lt_irrefl 0)

/-- Put down in an empty slot. -/
theorem Carry.put {r : α} {s d : Nat} (hc : Carry n home full slots r s d) (hn : 1 < n)
    (hord : Ordered n home full slots) (hempty : full (slots s) = false) :
    Ordered n home full (Function.update slots s r) := by
  refine hord.update hn ?_ ?_
  · intro p hp hps _ hd
    rw [hc.dist_eq] at hd ⊢
    exact hc.prev hd p hp hps
  · intro hf hd
    have := (hord s hc.slot_lt hf hd).1
    rw [hempty] at this
    cases this

/-- Walk past a record at least as far from home. -/
theorem Carry.pass {r : α} {s d : Nat} (hc : Carry n home full slots r s d)
    (hord : Ordered n home full slots) (hhole : Hole n full slots)
    (hhome : ∀ a, home a < n) (hfull : full (slots s) = true) (hle : d ≤ disp n home slots s) :
    Carry n home full slots r (next n s) (d + 1) where
  slot_lt := next_lt hc.slot_lt
  home_lt := hc.home_lt
  dist_eq := by
    have := hord.disp_lt hhole hc.slot_lt (hhome _) hfull
    rw [dist_next hc.home_lt hc.slot_lt (by rw [hc.dist_eq]; omega), hc.dist_eq]
  prev := fun _ p hp hps => by
    obtain rfl := next_inj hp hc.slot_lt hps
    exact ⟨hfull, Nat.succ_le_succ hle⟩

/-- Take the slot of a record nearer to home, and carry that one on. -/
theorem Carry.steal {r : α} {s d : Nat} (hc : Carry n home full slots r s d) (hn : 1 < n)
    (hord : Ordered n home full slots) (hhole : Hole n full slots)
    (hhome : ∀ a, home a < n) (hr : full r = true) (hfull : full (slots s) = true)
    (hlt : disp n home slots s < d) :
    Ordered n home full (Function.update slots s r) ∧
      Carry n home full (Function.update slots s r) (slots s) (next n s)
        (disp n home slots s + 1) := by
  constructor
  · refine hord.update hn ?_ (fun hf hd => ⟨hr, ?_⟩)
    · intro p hp hps _ hd
      rw [hc.dist_eq] at hd ⊢
      exact hc.prev hd p hp hps
    · have := (hord s hc.slot_lt hf hd).2
      rw [hc.dist_eq]
      omega
  · refine ⟨next_lt hc.slot_lt, hhome _, ?_, ?_⟩
    · exact dist_next (hhome _) hc.slot_lt (hord.disp_lt hhole hc.slot_lt (hhome _) hfull)
    · intro _ p hp hps
      obtain rfl := next_inj hp hc.slot_lt hps
      rw [Function.update_self, disp_update_self, hc.dist_eq]
      exact ⟨hr, by omega⟩

/-! ## Deletion: closing a gap -/

/-- A displaced record may be copied one slot back over whatever is there. -/
theorem Ordered.pull (hn : 1 < n) (hord : Ordered n home full slots) (hhome : ∀ a, home a < n)
    {i : Nat} (hi : i < n) (hfull : full (slots (next n i)) = true)
    (hd : 0 < disp n home slots (next n i)) :
    Ordered n home full (Function.update slots i (slots (next n i))) := by
  obtain ⟨hfi, hle⟩ := hord i hi hfull hd
  have hback : disp n home slots (next n i) = dist n (home (slots (next n i))) i + 1 :=
    dist_of_next_pos (hhome _) hi hd
  refine hord.update hn (fun p hp hps _ hpos => ?_) (fun _ _ => ⟨hfull, hback.le⟩)
  subst hps
  obtain ⟨hfp, hlep⟩ := hord p hp hfi (by omega)
  exact ⟨hfp, by omega⟩

/-- A slot may be emptied if the record after it is not displaced. -/
theorem Ordered.vacate (hn : 1 < n) (hord : Ordered n home full slots) {i : Nat} {r : α}
    (hr : full r = false)
    (hnext : full (slots (next n i)) = true → disp n home slots (next n i) = 0) :
    Ordered n home full (Function.update slots i r) := by
  refine hord.update hn ?_ ?_
  · intro p hp hps hf _
    rw [hr] at hf
    cases hf
  · intro hf hd
    rw [hnext hf] at hd
    exact absurd hd (lt_irrefl 0)

/-! ## Contents -/

/-- The records a table holds. -/
def contents (n : Nat) (full : α → Bool) (slots : Nat → α) : Multiset α :=
  ((Multiset.range n).map slots).filter fun a => full a = true

/-- The contents are read off the slots. -/
theorem mem_contents {r : α} :
    r ∈ contents n full slots ↔ full r = true ∧ ∃ i < n, slots i = r := by
  simp [contents, and_comm]

theorem mem_contents_of_full {i : Nat} (hi : i < n) (hfull : full (slots i) = true) :
    slots i ∈ contents n full slots :=
  mem_contents.mpr ⟨hfull, i, hi, rfl⟩

/-- **One write.** What was in the slot goes, what is written comes, and
nothing else changes. -/
theorem contents_update {i : Nat} (hi : i < n) (r : α) :
    (if full (slots i) = true then {slots i} else 0) +
        contents n full (Function.update slots i r) =
      (if full r = true then {r} else 0) + contents n full slots := by
  have hsplit : Multiset.range n = i ::ₘ (Multiset.range n).erase i :=
    (Multiset.cons_erase (Multiset.mem_range.mpr hi)).symm
  have hrest : ((Multiset.range n).erase i).map (Function.update slots i r) =
      ((Multiset.range n).erase i).map slots := by
    refine Multiset.map_congr rfl fun j hj => Function.update_of_ne ?_ _ _
    rintro rfl
    exact (Multiset.nodup_range n).notMem_erase hj
  unfold contents
  rw [hsplit, Multiset.map_cons, Multiset.map_cons, hrest, Function.update_self,
    Multiset.filter_cons, Multiset.filter_cons, add_left_comm]

/-- Rewriting every record where it is. -/
theorem contents_map {f : α → α} (hf : ∀ a, full (f a) = full a) :
    contents n full (fun i => f (slots i)) = (contents n full slots).map f := by
  unfold contents
  rw [Multiset.filter_map, Multiset.filter_map, Multiset.map_map]
  refine Multiset.map_congr ?_ fun _ _ => rfl
  exact Multiset.filter_congr fun i _ => by simp [hf]

theorem Ordered.map {f : α → α} (hord : Ordered n home full slots)
    (hfull : ∀ a, full (f a) = full a) (hhome : ∀ a, home (f a) = home a) :
    Ordered n home full (fun i => f (slots i)) := by
  intro i hi hf hd
  simp only [disp, hfull, hhome] at hf hd ⊢
  exact hord i hi hf hd

/-- A longer prefix of the slots adds the record of the next one. -/
theorem contents_succ :
    contents (n + 1) full slots =
      (if full (slots n) = true then {slots n} else 0) + contents n full slots := by
  unfold contents
  rw [Multiset.range_succ, Multiset.map_cons, Multiset.filter_cons]

theorem contents_mono {m : Nat} (h : m ≤ n) : contents m full slots ≤ contents n full slots := by
  induction h with
  | refl => exact le_rfl
  | step _ ih =>
      rw [contents_succ]
      exact ih.trans (Multiset.le_add_left _ _)

/-- Fewer records than slots leave a slot empty. -/
theorem hole_of_card_lt (h : Multiset.card (contents n full slots) < n) :
    Hole n full slots := by
  by_contra hno
  have hall : ∀ a ∈ (Multiset.range n).map slots, full a = true := by
    intro a ha
    obtain ⟨i, hi, rfl⟩ := Multiset.mem_map.mp ha
    by_contra hf
    exact hno ⟨i, Multiset.mem_range.mp hi, Bool.eq_false_iff.mpr hf⟩
  have hcard : contents n full slots = (Multiset.range n).map slots :=
    Multiset.filter_eq_self.mpr hall
  rw [hcard, Multiset.card_map, Multiset.card_range] at h
  exact lt_irrefl _ h

/-- When no key occurs twice among the records, none occupies two slots. -/
theorem slot_unique {κ : Type*} {key : α → κ}
    (hnd : ((contents n full slots).map key).Nodup) {i j : Nat} (hi : i < n) (hj : j < n)
    (hfi : full (slots i) = true) (hfj : full (slots j) = true)
    (hkey : key (slots i) = key (slots j)) : i = j := by
  by_contra hne
  have hi' : i ∈ Multiset.range n := Multiset.mem_range.mpr hi
  have hj' : j ∈ (Multiset.range n).erase i :=
    (Multiset.mem_erase_of_ne (Ne.symm hne)).mpr (Multiset.mem_range.mpr hj)
  unfold contents at hnd
  rw [← Multiset.cons_erase hi', ← Multiset.cons_erase hj', Multiset.map_cons, Multiset.map_cons,
    Multiset.filter_cons_of_pos (p := fun a => full a = true) _ hfi,
    Multiset.filter_cons_of_pos (p := fun a => full a = true) _ hfj,
    Multiset.map_cons, Multiset.map_cons, Multiset.nodup_cons, hkey] at hnd
  exact hnd.1 (Multiset.mem_cons_self _ _)

end Table

end RobinHood
