import Mathlib.Data.List.Sort
import Mathlib.Data.Multiset.Filter

/-!
# The largest few of a stream

`consider` keeps at most `k` of the elements it is given: while there is room each
one is appended, and after that one takes the place of the first smallest
(`minElement`) if it is larger.

What comes out depends on the order of the stream. `Selected` says what does
not: nothing left out is larger than anything kept. Where some size separates
exactly `k` elements from the others (`Untied`), that settles which they are
(`Selected.eq_filter`). Otherwise two elements of one size stand on either side
of the cut (`exists_tie`), and an order that brings the wrong one first keeps it
(`foldl_consider_tie`).
-/

namespace Ranking

variable {α : Type*}

/-! ## Sorting -/

section Sorting

variable {le : α → α → Bool} {l l' : List α}

/-- A comparison that can be sorted by. -/
structure Sortable (le : α → α → Bool) : Prop where
  trans : ∀ a b c, le a b = true → le b c = true → le a c = true
  total : ∀ a b, (le a b || le b a) = true

theorem Sortable.comap {β : Type*} (h : Sortable le) (f : β → α) :
    Sortable fun a b => le (f a) (f b) :=
  ⟨fun a b c => h.trans (f a) (f b) (f c), fun a b => h.total (f a) (f b)⟩

theorem Sortable.pairwise (h : Sortable le) (l : List α) :
    (l.mergeSort le).Pairwise fun a b => le a b = true :=
  List.pairwise_mergeSort h.trans h.total l

/-- Where the comparison tells the elements apart there is one order. -/
theorem Sortable.mergeSort_eq (h : Sortable le) (hperm : l.Perm l')
    (hsorted : l'.Pairwise fun a b => le a b = true)
    (hanti : ∀ a ∈ l, ∀ b ∈ l, le a b = true → le b a = true → a = b) : l.mergeSort le = l' := by
  refine List.Perm.eq_of_pairwise ?_ (h.pairwise l) hsorted ((List.mergeSort_perm l le).trans hperm)
  intro a b ha hb hab hba
  exact hanti a ((List.mergeSort_perm l le).mem_iff.mp ha) b (hperm.mem_iff.mpr hb) hab hba

theorem Sortable.mergeSort_congr (h : Sortable le) (hperm : l.Perm l')
    (hanti : ∀ a ∈ l, ∀ b ∈ l, le a b = true → le b a = true → a = b) :
    l.mergeSort le = l'.mergeSort le :=
  h.mergeSort_eq (hperm.trans (List.mergeSort_perm l' le).symm) (h.pairwise l') hanti

end Sorting

/-! ## The selection -/

/-- The loop of `std::min_element`, over what is left of the range: the position
looked at, and the smallest element before it with its position. -/
def minLoop (size : α → Nat) : List α → Nat → Nat → α → Nat
  | [], _, pos, _ => pos
  | d :: ds, i, pos, least =>
      if size d < size least then minLoop size ds (i + 1) i d else minLoop size ds (i + 1) pos least

/-- `std::min_element`: the position of the first smallest element, or the end. -/
def minElement (size : α → Nat) : List α → Nat
  | [] => 0
  | d :: ds => minLoop size ds 1 0 d

def consider (size : α → Nat) (k : Nat) (found : List α) (d : α) : List α :=
  if found.length < k then found ++ [d]
  else
    match found[minElement size found]? with
    | none => found
    | some least => if size least < size d then found.set (minElement size found) d else found

/-- What is kept of the elements seen: `k` of them if there are as many, and
none smaller than one that is left out. -/
structure Selected (size : α → Nat) (k : Nat) (l : List α) (seen : Multiset α) : Prop where
  length_le : l.length ≤ k
  split : ∃ out : Multiset α, (l : Multiset α) + out = seen ∧ (out = 0 ∨ l.length = k) ∧
    ∀ x ∈ out, ∀ y ∈ l, size x ≤ size y

/-- Some size separates the `k` largest elements from the others. -/
def Untied (size : α → Nat) (k : Nat) (M : Multiset α) : Prop :=
  M.card ≤ k ∨ ∃ v, (M.filter fun a => v ≤ size a).card = k

section Selection

variable {size : α → Nat} {k : Nat}

theorem minLoop_spec {l : List α} {pos : Nat} {least : α} (pre ds : List α)
    (hl : pre ++ ds = l) (hpos : l[pos]? = some least) (hleast : ∀ x ∈ pre, size least ≤ size x) :
    ∃ m, l[minLoop size ds pre.length pos least]? = some m ∧ ∀ x ∈ l, size m ≤ size x := by
  induction ds generalizing pre pos least with
  | nil =>
      rw [List.append_nil] at hl
      subst hl
      exact ⟨least, hpos, hleast⟩
  | cons d ds ih =>
      have hsplit : (pre ++ [d]) ++ ds = l := by rw [← hl, List.append_assoc, List.singleton_append]
      have hnext : (pre ++ [d]).length = pre.length + 1 := List.length_append
      have hd : l[pre.length]? = some d := by
        rw [← hl, List.getElem?_append_right (Nat.le_refl _), Nat.sub_self]
        rfl
      unfold minLoop
      rw [← hnext]
      split
      · rename_i hlt
        refine ih (pre ++ [d]) hsplit hd ?_
        intro x hx
        rcases List.mem_append.mp hx with hx | hx
        · exact hlt.le.trans (hleast x hx)
        · rw [List.mem_singleton.mp hx]
      · rename_i hge
        refine ih (pre ++ [d]) hsplit hpos ?_
        intro x hx
        rcases List.mem_append.mp hx with hx | hx
        · exact hleast x hx
        · rw [List.mem_singleton.mp hx]
          omega

theorem minElement_spec {l : List α} (hl : l ≠ []) :
    ∃ m, l[minElement size l]? = some m ∧ ∀ x ∈ l, size m ≤ size x := by
  cases l with
  | nil => exact absurd rfl hl
  | cons d ds =>
      refine minLoop_spec [d] ds rfl rfl ?_
      intro x hx
      rw [List.mem_singleton.mp hx]

/-- One in the place of another, as multisets. -/
theorem coe_set {l : List α} {i : Nat} {m : α} (h : l[i]? = some m) (d : α) :
    m ::ₘ (l.set i d : Multiset α) = d ::ₘ (l : Multiset α) := by
  obtain ⟨hi, rfl⟩ := List.getElem?_eq_some_iff.mp h
  have hset := List.set_perm_cons_eraseIdx hi d
  have hget := List.getElem_cons_eraseIdx_perm hi
  rw [Multiset.cons_coe, Multiset.cons_coe, Multiset.coe_eq_coe]
  exact (hset.cons _).trans ((List.Perm.swap _ _ _).trans (hget.cons d))

theorem Selected.nil (size : α → Nat) (k : Nat) : Selected size k [] 0 :=
  ⟨Nat.zero_le k, 0, rfl, Or.inl rfl, by simp⟩

theorem Selected.consider {l : List α} {seen : Multiset α} (h : Selected size k l seen) (d : α) :
    Selected size k (Ranking.consider size k l d) (d ::ₘ seen) := by
  obtain ⟨hle, out, rfl, hout, hsmall⟩ := h
  unfold Ranking.consider
  split
  · rename_i hroom
    have hnone : out = 0 := hout.resolve_right (by omega)
    subst hnone
    refine ⟨by rw [List.length_append, List.length_singleton]; omega, 0, ?_, Or.inl rfl, by simp⟩
    rw [Multiset.add_zero, Multiset.add_zero, ← Multiset.coe_add, Multiset.coe_singleton,
      Multiset.add_comm]
    rfl
  · rename_i hfull
    have hk : l.length = k := by omega
    split
    · rename_i hmin
      -- nothing is ever kept if `k` is zero
      have hl : l = [] := by
        by_contra hne
        obtain ⟨m, hm, -⟩ := @minElement_spec α size l hne
        rw [hmin] at hm
        cases hm
      subst hl
      exact ⟨hle, d ::ₘ out, by simp, Or.inr hk, by simp⟩
    · rename_i least hmin
      have hne : l ≠ [] := by
        rintro rfl
        cases hmin
      have hmem := List.mem_of_getElem? hmin
      obtain ⟨m, hm, hleast⟩ := @minElement_spec α size l hne
      obtain rfl := Option.some.inj (hmin.symm.trans hm)
      split
      · rename_i hlt
        refine ⟨by rw [List.length_set]; exact hle, least ::ₘ out, ?_,
          Or.inr (by rw [List.length_set]; exact hk), ?_⟩
        · rw [Multiset.add_cons, ← Multiset.cons_add, coe_set hmin d, Multiset.cons_add]
        · intro x hx y hy
          have hxm : size x ≤ size least := by
            rcases Multiset.mem_cons.mp hx with rfl | hx
            · exact Nat.le_refl _
            · exact hsmall x hx least hmem
          rcases List.mem_or_eq_of_mem_set hy with hy | rfl
          · exact hxm.trans (hleast y hy)
          · omega
      · rename_i hge
        refine ⟨hle, d ::ₘ out, Multiset.add_cons _ _ _, Or.inr hk, ?_⟩
        intro x hx y hy
        rcases Multiset.mem_cons.mp hx with rfl | hx
        · have := hleast y hy
          omega
        · exact hsmall x hx y hy

/-- What a whole stream leaves. -/
theorem foldl_consider_selected (ds : List α) :
    Selected size k (ds.foldl (consider size k) []) (ds : Multiset α) := by
  have hrun : ∀ (ds l : List α) (seen : Multiset α), Selected size k l seen →
      Selected size k (ds.foldl (consider size k) l) ((ds : Multiset α) + seen) := by
    intro ds
    induction ds with
    | nil =>
        intro l seen h
        rw [Multiset.coe_nil, Multiset.zero_add]
        exact h
    | cons d ds ih =>
        intro l seen h
        have hrest := ih _ _ (h.consider d)
        rw [Multiset.add_cons, ← Multiset.cons_add] at hrest
        exact hrest
  have h := hrun ds [] 0 (.nil size k)
  rw [Multiset.add_zero] at h
  exact h

/-- With room for all, all are kept. -/
theorem Selected.eq_all {l : List α} {M : Multiset α} (h : Selected size k l M)
    (hcard : M.card ≤ k) : (l : Multiset α) = M := by
  obtain ⟨-, out, rfl, hout, -⟩ := h
  rw [Multiset.card_add, Multiset.coe_card] at hcard
  have hnone : out = 0 := by
    rcases hout with hnone | hk
    · exact hnone
    · exact Multiset.card_eq_zero.mp (by omega)
  rw [hnone, Multiset.add_zero]

/-- A size with exactly `k` elements above it tells what is kept. -/
theorem Selected.eq_filter {l : List α} {M : Multiset α} (h : Selected size k l M) {v : Nat}
    (hv : (M.filter fun a => v ≤ size a).card = k) :
    (l : Multiset α) = M.filter fun a => v ≤ size a := by
  obtain ⟨hle, out, rfl, hout, hsmall⟩ := h
  rw [Multiset.filter_add] at hv ⊢
  by_cases hall : ∀ y ∈ l, v ≤ size y
  · have hl : (l : Multiset α).filter (fun a => v ≤ size a) = l :=
      Multiset.filter_eq_self.mpr hall
    rw [hl] at hv ⊢
    have hnone : out.filter (fun a => v ≤ size a) = 0 := by
      rcases hout with rfl | hk
      · rfl
      · rw [Multiset.card_add, Multiset.coe_card] at hv
        exact Multiset.card_eq_zero.mp (by omega)
    rw [hnone, Multiset.add_zero]
  · -- one kept below `v` leaves none out above it, so fewer than `k` are above
    exfalso
    push Not at hall
    obtain ⟨y, hy, hlow⟩ := hall
    have hnone : out.filter (fun a => v ≤ size a) = 0 := by
      refine Multiset.filter_eq_nil.mpr ?_
      intro x hx
      have := hsmall x hx y hy
      omega
    rw [hnone, Multiset.add_zero] at hv
    have hless : ((l : Multiset α).filter fun a => v ≤ size a).card < (l : Multiset α).card := by
      refine Multiset.card_lt_card (lt_of_le_of_ne (Multiset.filter_le _ _) ?_)
      intro heq
      have := Multiset.filter_eq_self.mp heq y hy
      omega
    rw [Multiset.coe_card] at hless
    omega

end Selection

/-! ## The cut in a list by descending size -/

section Cut

variable {size : α → Nat} {k v : Nat} {l : List α}

theorem take_eq_filter (hl : l.Pairwise fun a b => size b ≤ size a)
    (hv : (l.filter fun a => v ≤ size a).length = k) :
    l.take k = l.filter fun a => v ≤ size a := by
  induction l generalizing k with
  | nil => simp
  | cons a l ih =>
      obtain ⟨hhead, htail⟩ := List.pairwise_cons.mp hl
      by_cases ha : v ≤ size a
      · rw [List.filter_cons_of_pos (by simp [ha])] at hv ⊢
        subst hv
        rw [List.length_cons, List.take_succ_cons, ih htail rfl]
      · have hnone : l.filter (fun b => v ≤ size b) = [] := by
          refine List.filter_eq_nil_iff.mpr ?_
          intro b hb
          have := hhead b hb
          simp only [decide_eq_true_eq]
          omega
        rw [List.filter_cons_of_neg (by simp [ha]), hnone] at hv ⊢
        subst hv
        rfl

/-- Without a size that separates the first `k`, two of one size stand on either
side of the cut. -/
theorem exists_tie (hl : l.Pairwise fun a b => size b ≤ size a) (hk : 0 < k)
    (htied : ¬ Untied size k (l : Multiset α)) :
    ∃ A a b B, l = A ++ a :: b :: B ∧ A.length + 1 = k ∧ size a = size b := by
  unfold Untied at htied
  rw [not_or, Multiset.coe_card] at htied
  obtain ⟨hmany, hnone⟩ := htied
  have hlast : k - 1 < l.length := by omega
  have hnext : k < l.length := by omega
  have hsplit : l = l.take (k - 1) ++ l[k - 1] :: l[k] :: l.drop (k + 1) := by
    have htwo : l[k] :: l.drop (k + 1) = l.drop k := (List.drop_eq_getElem_cons hnext).symm
    have hone : l[k - 1] :: l.drop (k - 1 + 1) = l.drop (k - 1) :=
      (List.drop_eq_getElem_cons hlast).symm
    rw [Nat.sub_add_cancel hk] at hone
    rw [htwo, hone, List.take_append_drop]
  have hlen : (l.take (k - 1)).length + 1 = k := by
    rw [List.length_take]
    omega
  refine ⟨_, _, _, _, hsplit, hlen, ?_⟩
  generalize l.take (k - 1) = A, l[k - 1] = a, l[k] = b, l.drop (k + 1) = B at hsplit hlen
  subst hsplit
  obtain ⟨-, htail, hcross⟩ := List.pairwise_append.mp hl
  obtain ⟨ha, htail'⟩ := List.pairwise_cons.mp htail
  have hab := ha b List.mem_cons_self
  by_contra hne
  refine hnone ⟨size a, ?_⟩
  have hbefore : A.filter (fun x => size a ≤ size x) = A := by
    refine List.filter_eq_self.mpr ?_
    intro x hx
    exact decide_eq_true (hcross x hx a List.mem_cons_self)
  have hafter : (b :: B).filter (fun x => size a ≤ size x) = [] := by
    refine List.filter_eq_nil_iff.mpr ?_
    intro x hx
    simp only [decide_eq_true_eq]
    rcases List.mem_cons.mp hx with rfl | hx
    · omega
    · have := (List.pairwise_cons.mp htail').1 x hx
      omega
  rw [Multiset.filter_coe, Multiset.coe_card, List.filter_append, hbefore,
    List.filter_cons_of_pos (by simp), hafter, List.length_append]
  exact hlen

end Cut

/-! ## An order that keeps the wrong one -/

section Tie

variable {size : α → Nat} {k : Nat} {l : List α}

theorem foldl_consider_fill {ds : List α} (h : l.length + ds.length ≤ k) :
    ds.foldl (consider size k) l = l ++ ds := by
  induction ds generalizing l with
  | nil => rw [List.append_nil, List.foldl_nil]
  | cons d ds ih =>
      rw [List.length_cons] at h
      have hstep : consider size k l d = l ++ [d] := if_pos (by omega)
      rw [List.foldl_cons, hstep, ih, List.append_assoc, List.singleton_append]
      rw [List.length_append, List.length_singleton]
      omega

theorem foldl_consider_full {ds : List α} (hk : k ≤ l.length)
    (hsmall : ∀ x ∈ ds, ∀ y ∈ l, size x ≤ size y) : ds.foldl (consider size k) l = l := by
  induction ds with
  | nil => rfl
  | cons d ds ih =>
      have hstep : consider size k l d = l := by
        unfold consider
        rw [if_neg (by omega)]
        split
        · rfl
        · rename_i least hmin
          have := hsmall d List.mem_cons_self least (List.mem_of_getElem? hmin)
          rw [if_neg (by omega)]
      rw [List.foldl_cons, hstep]
      exact ih fun x hx => hsmall x (List.mem_cons_of_mem _ hx)

/-- The element after the cut, given first, is kept instead of the one before. -/
theorem foldl_consider_tie {A B : List α} {a b : α}
    (hl : (A ++ a :: b :: B).Pairwise fun a b => size b ≤ size a) (hk : A.length + 1 = k)
    (htie : size a = size b) :
    ((b :: A) ++ (a :: B)).foldl (consider size k) [] = b :: A := by
  obtain ⟨-, htail, hcross⟩ := List.pairwise_append.mp hl
  obtain ⟨ha, htail'⟩ := List.pairwise_cons.mp htail
  have hb := (List.pairwise_cons.mp htail').1
  have hfill : (b :: A).foldl (consider size k) [] = b :: A :=
    foldl_consider_fill (by rw [List.length_cons, List.length_nil]; omega)
  rw [List.foldl_append, hfill]
  refine foldl_consider_full (by rw [List.length_cons]; omega) ?_
  have hlow : ∀ x ∈ a :: B, size x ≤ size b := by
    intro x hx
    rcases List.mem_cons.mp hx with rfl | hx
    · exact htie.le
    · exact hb x hx
  intro x hx y hy
  rcases List.mem_cons.mp hy with rfl | hy
  · exact hlow x hx
  · have := hcross y hy b (List.mem_cons_of_mem _ List.mem_cons_self)
    exact (hlow x hx).trans this

end Tie

end Ranking
