import Mathlib.Algebra.BigOperators.Group.Finset.Piecewise
import Mathlib.Algebra.Order.BigOperators.Group.Finset
import Heapviz.Ring

/-!
# The ring invariant

What ties `head`, `tail`, the flag bits of every slot and the program
counter of every producer together, over any number of laps.

The sequence numbers in play are the window `[tail, head)`, never longer
than the capacity, so two of them share a slot only if they are equal. A
claimed sequence number is in one of two conditions. Either a producer is
*in flight* on it - the slot still carries the `op` byte of the previous
lap (or the zero of a fresh slot), which the consumer refuses - or it is
*done*: every field and the published `op` byte are in place, and they
stay until the consumer has moved past it, because the slot's next lap
needs `head` a full capacity further on.
-/

namespace Heapviz

/-! ## Flag bits -/

theorem publishedOp_commit (shift seq opcode : Nat) :
    publishedOp shift seq opcode &&& hvOpCommitBit ≠ 0 := by
  have h : (publishedOp shift seq opcode).testBit 7 = true := by
    simp only [publishedOp, Nat.testBit_or, show hvOpCommitBit.testBit 7 = true from rfl,
      Bool.or_true, Bool.true_or]
  intro h0
  have := congrArg (fun n => n.testBit 7) h0
  simp only [Nat.testBit_and, h, hvOpCommitBit, Nat.zero_testBit] at this
  exact absurd this (by decide)

theorem publishedOp_mask (shift seq opcode : Nat) :
    publishedOp shift seq opcode &&& hvOpMask = opcode &&& hvOpMask := by
  have hpar : lapParity shift seq &&& hvOpMask = 0 := by
    unfold lapParity; split <;> rfl
  simp only [publishedOp, Nat.and_or_distrib_right, hpar]
  rw [Nat.and_assoc, show hvOpMask &&& hvOpMask = hvOpMask from rfl,
    show hvOpCommitBit &&& hvOpMask = 0 from rfl, Nat.or_zero, Nat.or_zero]

theorem publishedOp_parity (shift seq opcode : Nat) :
    publishedOp shift seq opcode &&& hvOpParityBit = lapParity shift seq := by
  have hop : opcode &&& hvOpMask &&& hvOpParityBit = 0 := by
    rw [Nat.and_assoc, show hvOpMask &&& hvOpParityBit = 0 from rfl, Nat.and_zero]
  have hpar : lapParity shift seq &&& hvOpParityBit = lapParity shift seq := by
    unfold lapParity; split <;> rfl
  rw [publishedOp, Nat.and_or_distrib_right, Nat.and_or_distrib_right, hop, hpar,
    show hvOpCommitBit &&& hvOpParityBit = 0 from rfl, Nat.zero_or, Nat.zero_or]

/-- One lap earlier the parity flag has the other value. -/
theorem lapParity_prev {k seq : Nat} (h : 2 ^ k ≤ seq) :
    lapParity k (seq - 2 ^ k) ≠ lapParity k seq := by
  have hdiv : (seq - 2 ^ k) / 2 ^ k = seq / 2 ^ k - 1 := by
    simpa using Nat.sub_mul_div seq (2 ^ k) 1
  have hpos : 1 ≤ seq / 2 ^ k := (Nat.one_le_div_iff (Nat.two_pow_pos k)).mpr h
  simp only [lapParity, Nat.shiftRight_eq_div_pow, Nat.and_one_is_mod, hdiv, hvOpParityBit]
  split <;> split <;> omega

theorem HvRing.slotIndex_eq {r : HvRing} {k : Nat} (hcap : r.capacity = 2 ^ k)
    (seq : Nat) : r.slotIndex seq = seq % 2 ^ k := by
  rw [HvRing.slotIndex, hcap, Nat.and_two_pow_sub_one_eq_mod]

/-- Within one window of `C` sequence numbers the slots are distinct. -/
theorem mod_inj_of_window {C i j : Nat} (h : i % C = j % C) (hij : i < j + C)
    (hji : j < i + C) : i = j := by
  rcases Nat.eq_zero_or_pos C with rfl | hC
  · omega
  have hi := Nat.div_add_mod i C
  have hj := Nat.div_add_mod j C
  rw [h] at hi
  rcases Nat.lt_trichotomy (i / C) (j / C) with hlt | heq | hgt
  · have := Nat.mul_le_mul_left C (Nat.succ_le_of_lt hlt)
    rw [Nat.mul_succ] at this
    omega
  · rw [heq] at hi; omega
  · have := Nat.mul_le_mul_left C (Nat.succ_le_of_lt hgt)
    rw [Nat.mul_succ] at this
    omega

/-! ## Fields -/

theorem HvEvent.get_set (e : HvEvent) (v : Nat) (f g : HvField) :
    (e.set v f).get g = if f = g then v else e.get g := by
  cases f <;> cases g <;> rfl

@[simp] theorem HvEvent.set_op (e : HvEvent) (v : Nat) (f : HvField) :
    (e.set v f).op = e.op := by
  cases f <;> rfl

theorem HvEvent.eq_of_get {e e' : HvEvent} (h : ∀ f, e.get f = e'.get f)
    (hop : e.op = e'.op) : e = e' := by
  obtain ⟨ts, p, sz, us, t0, t1, t2, op⟩ := e
  obtain ⟨ts', p', sz', us', t0', t1', t2', op'⟩ := e'
  have h1 : ts = ts' := h .timestamp
  have h2 : p = p' := h .ptr
  have h3 : sz = sz' := h .size
  have h4 : us = us' := h .usable
  have h5 : t0 = t0' := h .tid0
  have h6 : t1 = t1' := h .tid1
  have h7 : t2 = t2' := h .tid2
  have h8 : op = op' := hop
  subst h1 h2 h3 h4 h5 h6 h7 h8
  rfl

/-- The first `next` fields in program order have reached `e`. -/
def FieldsWritten (a : HvPush) (next : Nat) (e : HvEvent) : Prop :=
  ∀ j f, j < next → fieldOrder[j]? = some f → e.get f = a.event.get f

theorem FieldsWritten.zero (a : HvPush) (e : HvEvent) : FieldsWritten a 0 e :=
  fun _ _ h => absurd h (Nat.not_lt_zero _)

/-- Writing the next field keeps the earlier ones: program order has no
repetitions. -/
theorem FieldsWritten.succ {a : HvPush} {next : Nat} {e : HvEvent} {f : HvField}
    (h : FieldsWritten a next e) (hf : fieldOrder[next]? = some f) :
    FieldsWritten a (next + 1) (e.set (a.event.get f) f) := by
  intro j g hj hg
  rw [HvEvent.get_set]
  split
  · next hfg => rw [hfg]
  · next hfg =>
      refine h j g (Nat.lt_of_le_of_ne (Nat.le_of_lt_succ hj) ?_) hg
      rintro rfl
      exact hfg (Option.some.inj (hf.symm.trans hg))

theorem FieldsWritten.all {a : HvPush} {next : Nat} {e : HvEvent}
    (h : FieldsWritten a next e) (hnone : fieldOrder[next]? = none) (f : HvField) :
    e.get f = a.event.get f := by
  have hlen : fieldOrder.length ≤ next := List.getElem?_eq_none_iff.mp hnone
  have hmem : f ∈ fieldOrder := by cases f <;> decide
  obtain ⟨j, hj, rfl⟩ := List.mem_iff_getElem.mp hmem
  exact h j _ (Nat.lt_of_lt_of_le hj hlen) (List.getElem?_eq_getElem hj)

/-! ## Program counters -/

/-- The sequence number a producer has claimed and not yet committed, with
its arguments and the number of fields written. -/
def PushPc.flight : PushPc → Option (HvPush × Nat × Nat)
  | .write a seq next => some (a, seq, next)
  | _ => none

/-- A call is in progress. -/
def PushPc.busy : PushPc → Nat
  | .idle => 0
  | _ => 1

/-- A sequence number has been won and not yet counted. -/
def PushPc.won : PushPc → Nat
  | .write .. => 1
  | .bumpTotal .. => 1
  | _ => 0

theorem PushPc.won_le_busy (pc : PushPc) : pc.won ≤ pc.busy := by
  cases pc <;> simp [won, busy]

/-- Moving one producer changes a total over all of them by that producer's
share. -/
theorem sum_pc_update {P : Type} [DecidableEq P] [Fintype P] (w : PushPc → Nat)
    (pc : P → PushPc) (p : P) (x : PushPc) :
    (∑ q, w (Function.update pc p x q)) + w (pc p) = (∑ q, w (pc q)) + w x := by
  have hother : ∑ q ∈ {p}ᶜ, w (Function.update pc p x q) = ∑ q ∈ {p}ᶜ, w (pc q) := by
    refine Finset.sum_congr rfl ?_
    intro q hq
    rw [Function.update_of_ne (by simpa using hq)]
  rw [Fintype.sum_eq_add_sum_compl p, Fintype.sum_eq_add_sum_compl p (fun q => w (pc q)),
    hother, Function.update_self]
  omega

theorem sum_won_le_busy {P : Type} [Fintype P] (pc : P → PushPc) :
    ∑ q, (pc q).won ≤ ∑ q, (pc q).busy :=
  Finset.sum_le_sum fun q _ => (pc q).won_le_busy

theorem sum_won_lt_busy {P : Type} [Fintype P] (pc : P → PushPc) (p : P)
    (h : (pc p).won < (pc p).busy) : ∑ q, (pc q).won < ∑ q, (pc q).busy :=
  Finset.sum_lt_sum (fun q _ => (pc q).won_le_busy) ⟨p, Finset.mem_univ p, h⟩

theorem busy_le_sum {P : Type} [Fintype P] (pc : P → PushPc) (p : P) :
    (pc p).busy ≤ ∑ q, (pc q).busy :=
  Finset.single_le_sum (fun q _ => Nat.zero_le (pc q).busy) (Finset.mem_univ p)

/-! ## The invariant -/

/-- Every field of the slot of `seq` and its published `op` byte are those
of the push `a`. -/
def SlotDone (r : HvRing) (seq : Nat) (a : HvPush) : Prop :=
  (∀ f, (r.slot seq).get f = a.event.get f)
    ∧ (r.slot seq).op = publishedOp r.capacityLog2 seq a.opcode

/-- What the slot of `seq` carries in its `op` byte until `seq` is
committed: the zero of a fresh slot, or the previous lap's byte. -/
def staleOp (k : Nat) (claimed : List HvPush) (seq : Nat) : Nat :=
  if seq < 2 ^ k then 0
  else (claimed[seq - 2 ^ k]?.map
    fun a => publishedOp k (seq - 2 ^ k) a.opcode).getD 0

/-- What the model is handed for a push. -/
def HvPush.view (a : HvPush) : HvEvent :=
  { a.event with op := a.opcode &&& hvOpMask }

section Inv

variable {P : Type}

/-- The events up to `t` have been copied into `out`; those not yet
released by the tail store are still done. -/
structure Collected (s : RingSys P) (t h : Nat) (out : List HvEvent) : Prop where
  pos : t = s.ring.tail + out.length
  le_head : t ≤ h
  head_le : h ≤ s.ring.head
  events : s.drained ++ out = (s.claimed.take t).map HvPush.view
  done : ∀ i, s.ring.tail ≤ i → i < t →
    ∃ a, s.claimed[i]? = some a ∧ SlotDone s.ring i a

/-- What the consumer knows at each point of a drain. -/
def DrainInv (s : RingSys P) : DrainPc → Prop
  | .idle => True
  | .loadTail _ => True
  | .loadHead _ t => t = s.ring.tail
  | .scan _ t h out => Collected s t h out
  | .copy _ t h out op next e =>
      Collected s t h out ∧ t < h ∧ ∃ a, s.claimed[t]? = some a
        ∧ SlotDone s.ring t a ∧ op &&& hvOpMask = a.opcode &&& hvOpMask
        ∧ FieldsWritten a next e
  | .finish t out => ∃ h, Collected s t h out

/-- The part of the invariant about the two cursors and the slots. -/
structure SlotInv (k : Nat) (s : RingSys P) : Prop where
  cap : s.ring.capacity = 2 ^ k
  log : s.ring.capacityLog2 = k
  head_eq : s.ring.head = s.claimed.length
  tail_le : s.ring.tail ≤ s.ring.head
  room : s.ring.head ≤ s.ring.tail + 2 ^ k
  loaded : ∀ p a h, s.pc p = .loadTail a h → h ≤ s.ring.head
  cas : ∀ p a h, s.pc p = .casHead a h → h ≤ s.ring.head
    ∧ (h = s.ring.head → s.ring.head < s.ring.tail + 2 ^ k)
  flight : ∀ p a i n, (s.pc p).flight = some (a, i, n) → s.ring.tail ≤ i
    ∧ s.claimed[i]? = some a ∧ (s.ring.slot i).op = staleOp k s.claimed i
    ∧ FieldsWritten a n (s.ring.slot i)
  unique : ∀ p q a b i n m, (s.pc p).flight = some (a, i, n) →
    (s.pc q).flight = some (b, i, m) → p = q
  slots : ∀ i a, s.claimed[i]? = some a → s.ring.head ≤ i + 2 ^ k →
    SlotDone s.ring i a ∨ ∃ p n, (s.pc p).flight = some (a, i, n)
  fresh : ∀ j, s.ring.head ≤ j → j < 2 ^ k → (s.ring.slots j).op = 0
  drained : s.drained = (s.claimed.take s.ring.tail).map HvPush.view
  cons : DrainInv s s.cons

/-- The part of the invariant about the counters. -/
structure CountInv [Fintype P] (s : RingSys P) : Prop where
  calls : s.started = s.completed + ∑ p, (s.pc p).busy
  wins : s.claimed.length = s.ring.totalEvents + ∑ p, (s.pc p).won
  returns : s.completed = s.ring.totalEvents + s.ring.dropped

theorem CountInv.claimed_le [Fintype P] {s : RingSys P} (h : CountInv s) :
    s.claimed.length ≤ s.started := by
  have := sum_won_le_busy s.pc
  have := h.calls; have := h.wins; have := h.returns
  omega

end Inv

/-! ## What the consumer refuses -/

theorem staleOp_refused (k : Nat) (claimed : List HvPush) (seq : Nat) :
    staleOp k claimed seq &&& hvOpCommitBit = 0
      ∨ staleOp k claimed seq &&& hvOpParityBit ≠ lapParity k seq := by
  unfold staleOp
  split
  · exact Or.inl (Nat.zero_and _)
  · next hge =>
      cases claimed[seq - 2 ^ k]? with
      | none => exact Or.inl (Nat.zero_and _)
      | some a =>
          refine Or.inr ?_
          simp only [Option.map_some, Option.getD_some, publishedOp_parity]
          exact lapParity_prev (Nat.le_of_not_lt hge)

theorem staleOp_ne_publishedOp (k : Nat) (claimed : List HvPush) (seq opcode : Nat) :
    staleOp k claimed seq ≠ publishedOp k seq opcode := by
  intro heq
  rcases staleOp_refused k claimed seq with h | h
  · rw [heq] at h; exact publishedOp_commit _ _ _ h
  · rw [heq] at h; exact h (publishedOp_parity _ _ _)

/-- Claiming one more sequence number leaves the bytes of those already
claimed alone. -/
theorem staleOp_append {k seq : Nat} {claimed : List HvPush} (h : seq ≤ claimed.length)
    (more : List HvPush) : staleOp k (claimed ++ more) seq = staleOp k claimed seq := by
  unfold staleOp
  split
  · rfl
  · next hge =>
      have hpos := Nat.two_pow_pos k
      rw [List.getElem?_append_left (by omega)]

/-! ## Frame lemmas -/

theorem HvRing.setSlot_slot (r : HvRing) (seq i : Nat) (e : HvEvent) :
    (r.setSlot seq e).slot i
      = if r.slotIndex i = r.slotIndex seq then e else r.slot i := by
  show Function.update r.slots (r.slotIndex seq) e (r.slotIndex i) = _
  rw [Function.update_apply]
  rfl

section Frame

variable {P : Type} {k : Nat} {s s' : RingSys P}

theorem Collected.frame {t h : Nat} {out : List HvEvent} (hc : Collected s t h out)
    (hlen : s.ring.head = s.claimed.length)
    (htail : s'.ring.tail = s.ring.tail) (hhead : s.ring.head ≤ s'.ring.head)
    (hdrained : s'.drained = s.drained) {more : List HvPush}
    (hclaimed : s'.claimed = s.claimed ++ more)
    (hdone : ∀ i a, s.ring.tail ≤ i → s.claimed[i]? = some a →
      SlotDone s.ring i a → SlotDone s'.ring i a) : Collected s' t h out where
  pos := htail ▸ hc.pos
  le_head := hc.le_head
  head_le := Nat.le_trans hc.head_le hhead
  events := by
    have ht : t ≤ s.claimed.length := hlen ▸ Nat.le_trans hc.le_head hc.head_le
    rw [hdrained, hclaimed, List.take_append_of_le_length ht]
    exact hc.events
  done := by
    intro i hi hit
    rw [htail] at hi
    obtain ⟨a, ha, hd⟩ := hc.done i hi hit
    refine ⟨a, ?_, hdone i a hi ha hd⟩
    rw [hclaimed, List.getElem?_append_left (List.getElem?_eq_some_iff.mp ha).1]
    exact ha

/-- A producer step cannot disturb the consumer: it moves `head` up, claims
at the end, and keeps what is done in front of the tail. -/
theorem DrainInv.frame {c : DrainPc} (hc : DrainInv s c)
    (hlen : s.ring.head = s.claimed.length)
    (htail : s'.ring.tail = s.ring.tail) (hhead : s.ring.head ≤ s'.ring.head)
    (hdrained : s'.drained = s.drained) {more : List HvPush}
    (hclaimed : s'.claimed = s.claimed ++ more)
    (hdone : ∀ i a, s.ring.tail ≤ i → s.claimed[i]? = some a →
      SlotDone s.ring i a → SlotDone s'.ring i a) : DrainInv s' c := by
  cases c with
  | idle => trivial
  | loadTail max => trivial
  | loadHead max t => exact Eq.trans hc htail.symm
  | scan max t h out => exact Collected.frame hc hlen htail hhead hdrained hclaimed hdone
  | copy max t h out op next e =>
      obtain ⟨hcol, hth, a, ha, hd, hop, hw⟩ := hc
      have htl : s.ring.tail ≤ t := by have := hcol.pos; omega
      refine ⟨hcol.frame hlen htail hhead hdrained hclaimed hdone, hth, a, ?_,
        hdone t a htl ha hd, hop, hw⟩
      rw [hclaimed, List.getElem?_append_left (List.getElem?_eq_some_iff.mp ha).1]
      exact ha
  | finish t out =>
      obtain ⟨h, hcol⟩ := hc
      exact ⟨h, hcol.frame hlen htail hhead hdrained hclaimed hdone⟩

theorem SlotInv.claimed_lt (h : SlotInv k s) {i : Nat} {a : HvPush}
    (ha : s.claimed[i]? = some a) : i < s.ring.head := by
  rw [h.head_eq]; exact (List.getElem?_eq_some_iff.mp ha).1

/-- A sequence number that is done has no producer in flight on it. -/
theorem SlotInv.not_flight (h : SlotInv k s) {i : Nat} {a : HvPush}
    (hd : SlotDone s.ring i a) {p : P} {b : HvPush} {n : Nat} :
    (s.pc p).flight ≠ some (b, i, n) := by
  intro hp
  obtain ⟨-, -, hop, -⟩ := h.flight p b i n hp
  rw [hd.2, h.log] at hop
  exact staleOp_ne_publishedOp k s.claimed i a.opcode hop.symm

/-- Two sequence numbers of the window that share a slot are the same. -/
theorem SlotInv.slot_inj (h : SlotInv k s) {i j : Nat}
    (hi : i < s.ring.head) (hi' : s.ring.head ≤ i + 2 ^ k)
    (hj : j < s.ring.head) (hj' : s.ring.head ≤ j + 2 ^ k)
    (heq : s.ring.slotIndex i = s.ring.slotIndex j) : i = j := by
  rw [HvRing.slotIndex_eq h.cap, HvRing.slotIndex_eq h.cap] at heq
  exact mod_inj_of_window heq (by omega) (by omega)

/-- The slot of a freshly won sequence number: never written, or last
written one lap ago and drained since. -/
theorem SlotInv.next_slot_op (h : SlotInv k s)
    (hroom : s.ring.head < s.ring.tail + 2 ^ k) :
    (s.ring.slot s.ring.head).op = staleOp k s.claimed s.ring.head := by
  unfold staleOp
  split
  · next hlt =>
      rw [HvRing.slot, HvRing.slotIndex_eq h.cap, Nat.mod_eq_of_lt hlt]
      exact h.fresh _ (Nat.le_refl _) hlt
  · next hge =>
      have hpos := Nat.two_pow_pos k
      have hlt : s.ring.head - 2 ^ k < s.claimed.length := by rw [← h.head_eq]; omega
      have ha : s.claimed[s.ring.head - 2 ^ k]? = some s.claimed[s.ring.head - 2 ^ k] :=
        List.getElem?_eq_getElem hlt
      have hidx : s.ring.slotIndex s.ring.head
          = s.ring.slotIndex (s.ring.head - 2 ^ k) := by
        rw [HvRing.slotIndex_eq h.cap, HvRing.slotIndex_eq h.cap,
          Nat.mod_eq_sub_mod (Nat.le_of_not_lt hge)]
      rcases h.slots _ _ ha (by omega) with hd | ⟨q, n, hq⟩
      · rw [ha, HvRing.slot, hidx]
        exact h.log ▸ hd.2
      · have := (h.flight q _ _ n hq).1
        omega

end Frame

end Heapviz
