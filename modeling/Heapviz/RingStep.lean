import Heapviz.RingInv

/-!
# The ring invariant is kept by every step

One lemma per kind of producer step - moving the program counter,
winning a sequence number, writing into the claimed slot - and one for
the consumer; `RingInv.step` assembles them and `RingInv.run` is
the run lemma. The hypothesis that fewer than `2 ^ 64` pushes have been
started is what keeps the free-running counters from coming round.
-/

namespace Heapviz

section Producer

variable {P : Type} [DecidableEq P] {k : Nat} {s : RingSys P}

/-- A step that only moves a program counter, between points with the same
slot in hand, and perhaps bumps a diagnostic counter. -/
theorem SlotInv.movePc (h : SlotInv k s) (p : P) (x : PushPc) (d t n m : Nat)
    (hx : x.flight = (s.pc p).flight)
    (hl : ∀ a hd, x = .loadTail a hd → hd ≤ s.ring.head)
    (hc : ∀ a hd, x = .casHead a hd → hd ≤ s.ring.head
      ∧ (hd = s.ring.head → s.ring.head < s.ring.tail + 2 ^ k)) :
    SlotInv k { s with
      ring := { s.ring with dropped := d, totalEvents := t }
      pc := Function.update s.pc p x
      started := n
      completed := m } := by
  have hfl : ∀ q, (Function.update s.pc p x q).flight = (s.pc q).flight := by
    intro q
    by_cases hq : q = p
    · subst hq; rw [Function.update_self, hx]
    · rw [Function.update_of_ne hq]
  refine ⟨h.cap, h.log, h.head_eq, h.tail_le, h.room, ?_, ?_, ?_, ?_, ?_, h.fresh,
    h.drained, ?_⟩
  · intro q a hd hq
    by_cases hqp : q = p
    · subst hqp; exact hl a hd (by simpa using hq)
    · exact h.loaded q a hd (by simpa [Function.update_of_ne hqp] using hq)
  · intro q a hd hq
    by_cases hqp : q = p
    · subst hqp; exact hc a hd (by simpa using hq)
    · exact h.cas q a hd (by simpa [Function.update_of_ne hqp] using hq)
  · intro q a i n' hq
    exact h.flight q a i n' ((hfl q).symm.trans hq)
  · intro q q' a b i n' m' hq hq'
    exact h.unique q q' a b i n' m' ((hfl q).symm.trans hq) ((hfl q').symm.trans hq')
  · intro i a ha hi
    rcases h.slots i a ha hi with hd | ⟨q, n', hq⟩
    · exact Or.inl hd
    · exact Or.inr ⟨q, n', (hfl q).trans hq⟩
  · exact h.cons.frame h.head_eq rfl (Nat.le_refl _) rfl
      (List.append_nil _).symm (fun _ _ _ _ hd => hd)

/-- Winning sequence number `head`. -/
theorem SlotInv.claim (h : SlotInv k s) (p : P) (a : HvPush)
    (hp : (s.pc p).flight = none) (hroom : s.ring.head < s.ring.tail + 2 ^ k) :
    SlotInv k { s with
      ring := { s.ring with head := s.ring.head + 1 }
      pc := Function.update s.pc p (.write a s.ring.head 0)
      claimed := s.claimed ++ [a] } := by
  have hsame : ∀ {i b}, s.claimed[i]? = some b → (s.claimed ++ [a])[i]? = some b :=
    fun hb => by rw [List.getElem?_append_left (List.getElem?_eq_some_iff.mp hb).1, hb]
  have hfl : ∀ {q b i n}, (s.pc q).flight = some (b, i, n) →
      (Function.update s.pc p (.write a s.ring.head 0) q).flight = some (b, i, n) := by
    intro q b i n hq
    rw [Function.update_of_ne (fun hqp => by rw [hqp, hp] at hq; cases hq), hq]
  have hnew : ∀ q b i n,
      (Function.update s.pc p (.write a s.ring.head 0) q).flight = some (b, i, n) →
      (q = p ∧ b = a ∧ i = s.ring.head ∧ n = 0) ∨ (s.pc q).flight = some (b, i, n) := by
    intro q b i n hq
    by_cases hqp : q = p
    · subst hqp
      rw [Function.update_self] at hq
      obtain ⟨rfl, rfl, rfl⟩ := by simpa [PushPc.flight] using hq
      exact Or.inl ⟨rfl, rfl, rfl, rfl⟩
    · rw [Function.update_of_ne hqp] at hq; exact Or.inr hq
  refine ⟨h.cap, h.log, ?_, Nat.le_succ_of_le h.tail_le, hroom, ?_, ?_, ?_, ?_, ?_, ?_, ?_, ?_⟩
  · simp [h.head_eq]
  · intro q b hd hq
    by_cases hqp : q = p
    · subst hqp; simp at hq
    · exact Nat.le_succ_of_le
        (h.loaded q b hd (by simpa [Function.update_of_ne hqp] using hq))
  · intro q b hd hq
    by_cases hqp : q = p
    · subst hqp; simp at hq
    · have := (h.cas q b hd (by simpa [Function.update_of_ne hqp] using hq)).1
      exact ⟨Nat.le_succ_of_le this, fun heq => by simp only at heq; omega⟩
  · intro q b i n hq
    rcases hnew q b i n hq with ⟨rfl, rfl, rfl, rfl⟩ | hq'
    · refine ⟨h.tail_le, ?_, ?_, FieldsWritten.zero _ _⟩
      · simp [h.head_eq]
      · refine (h.next_slot_op hroom).trans ?_
        exact (staleOp_append (Nat.le_of_eq h.head_eq) _).symm
    · obtain ⟨hti, hci, hop, hw⟩ := h.flight q b i n hq'
      refine ⟨hti, hsame hci, ?_, hw⟩
      exact hop.trans
        (staleOp_append (Nat.le_of_lt (List.getElem?_eq_some_iff.mp hci).1) [a]).symm
  · intro q q' b c i n m hq hq'
    have hfresh : ∀ q b n, (s.pc q).flight ≠ some (b, s.ring.head, n) := fun q b n hq =>
      Nat.lt_irrefl _ (h.claimed_lt (h.flight q b _ n hq).2.1)
    rcases hnew q b i n hq with ⟨rfl, rfl, rfl, rfl⟩ | h1 <;>
      rcases hnew q' c _ m hq' with ⟨rfl, rfl, hi', rfl⟩ | h2
    · rfl
    · exact absurd h2 (hfresh _ _ _)
    · exact absurd (hi' ▸ h1) (hfresh _ _ _)
    · exact h.unique q q' b c i n m h1 h2
  · intro i b hb hi
    by_cases hih : i = s.ring.head
    · subst hih
      have hba : b = a := by simpa [h.head_eq] using hb.symm
      subst hba
      exact Or.inr ⟨p, 0, by simp [PushPc.flight]⟩
    · have hlt : i < s.claimed.length := by
        have := (List.getElem?_eq_some_iff.mp hb).1
        rw [h.head_eq] at hih
        simp at this; omega
      rw [List.getElem?_append_left hlt] at hb
      simp only at hi
      rcases h.slots i b hb (by omega) with hd | ⟨q, n, hq⟩
      · exact Or.inl hd
      · exact Or.inr ⟨q, n, hfl hq⟩
  · intro j hj hj'
    exact h.fresh j (Nat.le_of_succ_le hj) hj'
  · simp only
    rw [List.take_append_of_le_length (h.head_eq ▸ h.tail_le)]
    exact h.drained
  · exact h.cons.frame h.head_eq rfl (Nat.le_succ _) rfl rfl (fun _ _ _ _ hd => hd)

/-- A producer writing into the slot it has claimed: either it stays in
flight with the `op` byte untouched, or this is the store that commits. -/
theorem SlotInv.writeSlot (h : SlotInv k s) {p : P} {a : HvPush} {seq n : Nat}
    (hp : (s.pc p).flight = some (a, seq, n)) (e : HvEvent) (x : PushPc)
    (hxl : ∀ b hd, x ≠ .loadTail b hd) (hxc : ∀ b hd, x ≠ .casHead b hd)
    (hx : (∃ n', x.flight = some (a, seq, n') ∧ e.op = (s.ring.slot seq).op
        ∧ FieldsWritten a n' e)
      ∨ (x.flight = none ∧ (∀ f, e.get f = a.event.get f)
        ∧ e.op = publishedOp k seq a.opcode)) :
    SlotInv k { s with
      ring := s.ring.setSlot seq e
      pc := Function.update s.pc p x } := by
  obtain ⟨hts, hcs, hops, -⟩ := h.flight p a seq n hp
  have hseq : seq < s.ring.head := h.claimed_lt hcs
  have hroom := h.room
  -- every other sequence number of the window has a slot of its own
  have hother : ∀ {i}, i ≠ seq → i < s.ring.head → s.ring.head ≤ i + 2 ^ k →
      (s.ring.setSlot seq e).slot i = s.ring.slot i := by
    intro i hne hi hi'
    rw [HvRing.setSlot_slot, if_neg fun heq =>
      hne (h.slot_inj hi hi' hseq (by omega) heq)]
  have hself : (s.ring.setSlot seq e).slot seq = e := by
    rw [HvRing.setSlot_slot, if_pos rfl]
  have hdone : ∀ {i b}, i < s.ring.head → s.ring.head ≤ i + 2 ^ k →
      SlotDone s.ring i b → SlotDone (s.ring.setSlot seq e) i b := by
    intro i b hi hi' hd
    have hne : i ≠ seq := fun heq => h.not_flight hd (heq ▸ hp)
    rw [SlotDone, hother hne hi hi']
    exact hd
  have hnew : ∀ q b i m, (Function.update s.pc p x q).flight = some (b, i, m) →
      (q = p ∧ x.flight = some (b, i, m)) ∨ (i ≠ seq ∧ (s.pc q).flight = some (b, i, m)) := by
    intro q b i m hq
    by_cases hqp : q = p
    · subst hqp; rw [Function.update_self] at hq; exact Or.inl ⟨rfl, hq⟩
    · rw [Function.update_of_ne hqp] at hq
      exact Or.inr ⟨fun heq => hqp (h.unique q p b a i m n hq (heq ▸ hp)), hq⟩
  have hpx : ∀ {b i m}, x.flight = some (b, i, m) → b = a ∧ i = seq
      ∧ e.op = (s.ring.slot seq).op ∧ FieldsWritten a m e := by
    intro b i m hxf
    rcases hx with ⟨n', hxf', hop, hw⟩ | ⟨hxf', -⟩
    · obtain ⟨rfl, rfl, rfl⟩ : a = b ∧ seq = i ∧ n' = m := by
        simpa using hxf'.symm.trans hxf
      exact ⟨rfl, rfl, hop, hw⟩
    · rw [hxf'] at hxf; cases hxf
  refine ⟨h.cap, h.log, h.head_eq, h.tail_le, h.room, ?_, ?_, ?_, ?_, ?_, ?_,
    h.drained, ?_⟩
  · intro q b hd hq
    by_cases hqp : q = p
    · subst hqp; exact absurd (by simpa using hq) (hxl b hd)
    · exact h.loaded q b hd (by simpa [Function.update_of_ne hqp] using hq)
  · intro q b hd hq
    by_cases hqp : q = p
    · subst hqp; exact absurd (by simpa using hq) (hxc b hd)
    · exact h.cas q b hd (by simpa [Function.update_of_ne hqp] using hq)
  · intro q b i m hq
    rcases hnew q b i m hq with ⟨rfl, hxf⟩ | ⟨hne, hq'⟩
    · obtain ⟨rfl, rfl, hop, hw⟩ := hpx hxf
      refine ⟨hts, hcs, ?_, ?_⟩
      · rw [hself, hop]; exact hops
      · rw [hself]; exact hw
    · obtain ⟨hti, hci, hop, hw⟩ := h.flight q b i m hq'
      refine ⟨hti, hci, ?_, ?_⟩ <;>
        rw [hother hne (h.claimed_lt hci) (by omega)]
      · exact hop
      · exact hw
  · intro q q' b c i m m' hq hq'
    rcases hnew q b i m hq with ⟨rfl, hxf⟩ | ⟨hne, h1⟩ <;>
      rcases hnew q' c i m' hq' with ⟨rfl, hxf'⟩ | ⟨hne', h2⟩
    · rfl
    · exact absurd (hpx hxf).2.1 hne'
    · exact absurd (hpx hxf').2.1 hne
    · exact h.unique q q' b c i m m' h1 h2
  · intro i b hb hi
    by_cases his : i = seq
    · subst his
      obtain rfl : a = b := Option.some.inj (hcs.symm.trans hb)
      rcases hx with ⟨n', hxf, -, -⟩ | ⟨-, hget, hop⟩
      · exact Or.inr ⟨p, n', by simpa using hxf⟩
      · refine Or.inl ⟨?_, ?_⟩ <;> rw [hself]
        · exact hget
        · rw [hop]; exact congrArg (publishedOp · _ _) h.log.symm
    · rcases h.slots i b hb hi with hd | ⟨q, m, hq⟩
      · exact Or.inl (hdone (h.claimed_lt hb) hi hd)
      · have hqp : q ≠ p := by
          rintro rfl
          exact his (congrArg (·.2.1) (Option.some.inj (hq.symm.trans hp)))
        exact Or.inr ⟨q, m, by simpa [Function.update_of_ne hqp] using hq⟩
  · intro j hj hj'
    have hne : j ≠ s.ring.slotIndex seq := by
      simp only [HvRing.setSlot] at hj
      rw [HvRing.slotIndex_eq h.cap, Nat.mod_eq_of_lt (by omega)]
      omega
    simp only [HvRing.setSlot]
    rw [Function.update_of_ne hne]
    exact h.fresh j hj hj'
  · refine h.cons.frame h.head_eq rfl (Nat.le_refl _) rfl
      (List.append_nil _).symm (fun i b hti hb hd => ?_)
    exact hdone (h.claimed_lt hb) (by omega) hd

end Producer

section Consumer

variable {P : Type} {k : Nat} {s : RingSys P}

theorem SlotInv.setCons (h : SlotInv k s) {c : DrainPc} (hc : DrainInv s c) :
    SlotInv k { s with cons := c } :=
  { h with
    cons := hc.frame h.head_eq rfl (Nat.le_refl _) rfl
      (List.append_nil _).symm (fun _ _ _ _ hd => hd) }

/-- A slot whose `op` byte passes both tests of the drain loop is done. -/
theorem SlotInv.accepted (h : SlotInv k s) {t : Nat} (htail : s.ring.tail ≤ t)
    (ht : t < s.ring.head) (hcommit : (s.ring.slot t).op &&& hvOpCommitBit ≠ 0)
    (hparity : (s.ring.slot t).op &&& hvOpParityBit = lapParity s.ring.capacityLog2 t) :
    ∃ a, s.claimed[t]? = some a ∧ SlotDone s.ring t a := by
  have hlt : t < s.claimed.length := h.head_eq ▸ ht
  have ha : s.claimed[t]? = some s.claimed[t] := List.getElem?_eq_getElem hlt
  have hroom := h.room
  rcases h.slots t _ ha (by omega) with hd | ⟨p, n, hp⟩
  · exact ⟨_, ha, hd⟩
  · obtain ⟨-, -, hop, -⟩ := h.flight p _ t n hp
    rw [hop] at hcommit hparity
    rw [h.log] at hparity
    rcases staleOp_refused k s.claimed t with hr | hr
    · exact absurd hr hcommit
    · exact absurd hparity hr

/-- The tail store releases exactly what was copied out. -/
theorem SlotInv.release (h : SlotInv k s) {t hd : Nat} {out : List HvEvent}
    (hc : Collected s t hd out) :
    SlotInv k { s with
      ring := { s.ring with tail := t }
      cons := .idle
      drained := s.drained ++ out } := by
  have hle : s.ring.tail ≤ t := by have := hc.pos; omega
  have hth : t ≤ s.ring.head := Nat.le_trans hc.le_head hc.head_le
  refine ⟨h.cap, h.log, h.head_eq, hth, Nat.le_trans h.room (by simp only; omega),
    h.loaded, ?_, ?_, h.unique, h.slots, h.fresh, hc.events, trivial⟩
  · intro p a hd hp
    obtain ⟨h1, h2⟩ := h.cas p a hd hp
    exact ⟨h1, fun heq => Nat.lt_of_lt_of_le (h2 heq) (by simp only; omega)⟩
  · intro p a i n hp
    obtain ⟨hti, hci, hop, hw⟩ := h.flight p a i n hp
    refine ⟨Nat.le_of_not_lt fun hit => ?_, hci, hop, hw⟩
    obtain ⟨b, -, hdone⟩ := hc.done i hti hit
    exact h.not_flight hdone hp

theorem SlotInv.drainAct (h : SlotInv k s) (hlt : s.ring.head < 2 ^ 64) :
    SlotInv k s.drainAct := by
  have hcons := h.cons
  unfold RingSys.drainAct
  cases hc : s.cons with
  | idle => exact h.setCons trivial
  | loadTail max => exact h.setCons (c := .loadHead max s.ring.tail) rfl
  | loadHead max t =>
      rw [hc] at hcons
      obtain rfl : t = s.ring.tail := hcons
      refine h.setCons (c := .scan max _ s.ring.head []) ⟨?_, h.tail_le, Nat.le_refl _, ?_, ?_⟩
      · simp
      · rw [List.append_nil]; exact h.drained
      · intro i hi hi'; omega
  | scan max t hd out =>
      rw [hc] at hcons
      have hcol : Collected s t hd out := hcons
      have hstop := h.setCons (c := .finish t out) ⟨hd, hcol⟩
      simp only [drainStep]
      by_cases hguard : out.length < max ∧ t ≠ hd
      · rw [if_pos hguard]
        by_cases hcommit : (s.ring.slot t).op &&& hvOpCommitBit = 0
        · rw [if_pos hcommit]; exact hstop
        · rw [if_neg hcommit]
          by_cases hparity :
              (s.ring.slot t).op &&& hvOpParityBit ≠ lapParity s.ring.capacityLog2 t
          · rw [if_pos hparity]; exact hstop
          · rw [if_neg hparity]
            have hthd : t < hd := Nat.lt_of_le_of_ne hcol.le_head hguard.2
            obtain ⟨a, ha, hdone⟩ := h.accepted (t := t)
              (by have := hcol.pos; omega) (Nat.lt_of_lt_of_le hthd hcol.head_le)
              hcommit (not_ne_iff.mp hparity)
            refine h.setCons ⟨hcol, hthd, a, ha, hdone, ?_, FieldsWritten.zero _ _⟩
            rw [hdone.2, publishedOp_mask]
      · rw [if_neg hguard]; exact hstop
  | copy max t hd out op next e =>
      rw [hc] at hcons
      obtain ⟨hcol, hthd, a, ha, hdone, hop, hw⟩ := hcons
      simp only [drainStep]
      cases hf : fieldOrder[next]? with
      | some f =>
          refine h.setCons ⟨hcol, hthd, a, ha, hdone, hop, ?_⟩
          rw [hdone.1 f]
          exact hw.succ hf
      | none =>
          have hview : ({ e with op := op &&& hvOpMask } : HvEvent) = a.view :=
            HvEvent.eq_of_get (fun f => (by cases f <;> rfl : _ = e.get f).trans
              ((hw.all hf f).trans (by cases f <;> rfl))) hop
          have hadd : add64 t 1 = t + 1 := add64_of_lt (by
            have := hcol.head_le; omega)
          simp only [hadd, hview]
          refine h.setCons (c := .scan max (t + 1) hd (out ++ [a.view]))
            ⟨?_, hthd, hcol.head_le, ?_, ?_⟩
          · rw [List.length_append, List.length_singleton, hcol.pos]; rfl
          · rw [← List.append_assoc, hcol.events, List.take_add_one, ha]
            simp
          · intro i hi hi'
            by_cases hit : i < t
            · exact hcol.done i hi hit
            · obtain rfl : i = t := by omega
              exact ⟨a, ha, hdone⟩
  | finish t out =>
      rw [hc] at hcons
      obtain ⟨hd, hcol⟩ := hcons
      simp only [drainStep]
      by_cases hn : out.length ≠ 0
      · rw [if_pos hn]; exact h.release hcol
      · rw [if_neg hn]
        obtain rfl : out = [] := List.length_eq_zero_iff.mp (not_ne_iff.mp hn)
        have ht : t = s.ring.tail := by simpa using hcol.pos
        have := h.release hcol
        rw [ht] at this
        exact this

end Consumer

/-! ## The whole system -/

/-- Cursors and slots on the one hand, counters on the other. -/
structure RingInv {P : Type} [Fintype P] (k : Nat) (s : RingSys P) : Prop where
  slot : SlotInv k s
  count : CountInv s

theorem RingInv.init {P : Type} [Fintype P] {k : Nat} (hk : k < 64) :
    RingInv k (RingSys.init P (2 ^ k)) where
  slot :=
    { cap := rfl
      log := hvLog2Pow2_two_pow hk
      head_eq := rfl
      tail_le := Nat.le_refl _
      room := Nat.zero_le _
      loaded := fun _ _ _ hp => by cases hp
      cas := fun _ _ _ hp => by cases hp
      flight := fun _ _ _ _ hp => by cases hp
      unique := fun _ _ _ _ _ _ _ hp => by cases hp
      slots := fun _ _ ha => by cases ha
      fresh := fun _ _ _ => rfl
      drained := rfl
      cons := trivial }
  count :=
    { calls := by simp [RingSys.init, PushPc.busy]
      wins := by simp [RingSys.init, HvRing.init, PushPc.won]
      returns := rfl }

theorem RingInv.head_lt {P : Type} [Fintype P] {k : Nat} {s : RingSys P}
    (h : RingInv k s) (hlt : s.started < 2 ^ 64) : s.ring.head < 2 ^ 64 := by
  have := h.count.claimed_le
  rw [h.slot.head_eq]
  omega

section System

variable {P : Type} [DecidableEq P] [Fintype P] {k : Nat} {s : RingSys P}

/-- The counters after a producer moved to `x`: each total changes by what
that producer contributes to it. -/
theorem CountInv.move (h : CountInv s) (p : P) (x : PushPc) (r : HvRing)
    (claimed : List HvPush) (n m : Nat)
    (hcalls : n + (s.pc p).busy + s.completed = s.started + x.busy + m)
    (hwins : claimed.length + (s.pc p).won + s.ring.totalEvents
      = s.claimed.length + x.won + r.totalEvents)
    (hreturns : m + s.ring.totalEvents + s.ring.dropped
      = s.completed + r.totalEvents + r.dropped) :
    CountInv { s with
      ring := r
      pc := Function.update s.pc p x
      claimed := claimed
      started := n
      completed := m } := by
  have hb := sum_pc_update PushPc.busy s.pc p x
  have hw := sum_pc_update PushPc.won s.pc p x
  have h1 := h.calls
  have h2 := h.wins
  have h3 := h.returns
  refine ⟨?_, ?_, ?_⟩ <;> simp only <;> omega

theorem RingInv.callPush (h : RingInv k s) {p : P} (hp : s.pc p = .idle) (a : HvPush) :
    RingInv k { s with
      pc := Function.update s.pc p (.loadHead a)
      started := s.started + 1 } :=
  ⟨h.slot.movePc p (.loadHead a) _ _ _ _ (by rw [hp]; rfl) (by simp) (by simp),
    h.count.move p (.loadHead a) s.ring s.claimed _ _ (by simp [hp, PushPc.busy])
      (by simp [hp, PushPc.won]) (by omega)⟩

theorem RingInv.pushAct (h : RingInv k s) (hlt : s.started < 2 ^ 64) (p : P)
    (spurious : Bool) : RingInv k (s.pushAct p spurious) := by
  have hcalls := h.count.calls
  have hwins := h.count.wins
  have hreturns := h.count.returns
  have hhead := h.slot.head_eq
  unfold RingSys.pushAct
  cases hp : s.pc p with
  | idle =>
      exact ⟨h.slot.movePc p .idle _ _ _ _ (by rw [hp]) (by simp) (by simp),
        h.count.move p .idle s.ring s.claimed _ _ (by simp [hp]) (by simp [hp])
          (by omega)⟩
  | loadHead a =>
      refine ⟨h.slot.movePc p (.loadTail a s.ring.head) _ _ _ _ (by rw [hp]; rfl) ?_
        (by simp), h.count.move p _ s.ring s.claimed _ _ (by simp [hp, PushPc.busy])
          (by simp [hp, PushPc.won]) (by omega)⟩
      rintro b hd heq
      cases heq
      exact Nat.le_refl _
  | loadTail a hd =>
      simp only [pushStep]
      by_cases hfull : sub64 hd s.ring.tail ≥ s.ring.capacity
      · rw [if_pos hfull]
        exact ⟨h.slot.movePc p (.bumpDropped a) _ _ _ _ (by rw [hp]; rfl) (by simp)
          (by simp), h.count.move p _ s.ring s.claimed _ _
            (by simp [hp, PushPc.busy]) (by simp [hp, PushPc.won]) (by omega)⟩
      · rw [if_neg hfull]
        refine ⟨h.slot.movePc p (.casHead a hd) _ _ _ _ (by rw [hp]; rfl) (by simp) ?_,
          h.count.move p _ s.ring s.claimed _ _ (by simp [hp, PushPc.busy])
            (by simp [hp, PushPc.won]) (by omega)⟩
        rintro b hd' heq
        cases heq
        refine ⟨h.slot.loaded p a hd hp, fun heq => ?_⟩
        subst heq
        rw [h.slot.cap, sub64_of_le h.slot.tail_le (h.head_lt hlt)] at hfull
        omega
  | casHead a hd =>
      simp only [pushStep]
      by_cases hcas : s.ring.head = hd ∧ spurious = false
      · rw [if_pos hcas]
        obtain ⟨rfl, -⟩ := hcas
        have hroom := (h.slot.cas p a _ hp).2 rfl
        have hslot := h.slot.claim p a (by rw [hp]; rfl) hroom
        -- the winner is a started call not yet counted, so `head` cannot wrap
        have hmore := sum_won_lt_busy s.pc p (by simp [hp, PushPc.won, PushPc.busy])
        have hadd : add64 s.ring.head 1 = s.ring.head + 1 := add64_of_lt (by omega)
        simp only [hadd]
        exact ⟨hslot, h.count.move p _ _ _ _ _ (by simp [hp, PushPc.busy])
          (by simp [hp, PushPc.won]) rfl⟩
      · rw [if_neg hcas]
        exact ⟨h.slot.movePc p (.loadHead a) _ _ _ _ (by rw [hp]; rfl) (by simp) (by simp),
          h.count.move p _ s.ring s.claimed _ _ (by simp [hp, PushPc.busy])
            (by simp [hp, PushPc.won]) (by omega)⟩
  | bumpDropped a =>
      have hone : 1 ≤ ∑ q, (s.pc q).busy :=
        Nat.le_trans (by rw [hp]; rfl) (busy_le_sum s.pc p)
      have hadd : add64 s.ring.dropped 1 = s.ring.dropped + 1 := add64_of_lt (by omega)
      simp only [pushStep, hadd]
      exact ⟨h.slot.movePc p .idle _ _ _ _ (by rw [hp]; rfl) (by simp) (by simp),
        h.count.move p .idle _ s.claimed _ _ (by simp [hp, PushPc.busy]; omega)
          (by simp [hp, PushPc.won]) (by simp only; omega)⟩
  | write a seq next =>
      have hfl : (s.pc p).flight = some (a, seq, next) := by rw [hp]; rfl
      have hw := (h.slot.flight p a seq next hfl).2.2.2
      simp only [pushStep]
      cases hf : fieldOrder[next]? with
      | some f =>
          exact ⟨h.slot.writeSlot hfl _ (.write a seq (next + 1)) (by simp) (by simp)
            (Or.inl ⟨next + 1, rfl, HvEvent.set_op _ _ _, hw.succ hf⟩),
            h.count.move p _ _ s.claimed _ _ (by simp [hp, PushPc.busy])
              (by simp [hp, PushPc.won, HvRing.setSlot]) (by simp [HvRing.setSlot])⟩
      | none =>
          refine ⟨h.slot.writeSlot hfl _ (.bumpTotal a seq) (by simp) (by simp)
            (Or.inr ⟨rfl, fun f => ?_, ?_⟩),
            h.count.move p _ _ s.claimed _ _ (by simp [hp, PushPc.busy])
              (by simp [hp, PushPc.won, HvRing.setSlot]) (by simp [HvRing.setSlot])⟩
          · exact (by cases f <;> rfl : _ = (s.ring.slot seq).get f).trans (hw.all hf f)
          · simp only [h.slot.log]
  | bumpTotal a seq =>
      have hone : 1 ≤ ∑ q, (s.pc q).busy :=
        Nat.le_trans (by rw [hp]; rfl) (busy_le_sum s.pc p)
      have hadd : add64 s.ring.totalEvents 1 = s.ring.totalEvents + 1 :=
        add64_of_lt (by omega)
      simp only [pushStep, hadd]
      exact ⟨h.slot.movePc p .idle _ _ _ _ (by rw [hp]; rfl) (by simp) (by simp),
        h.count.move p .idle _ s.claimed _ _ (by simp [hp, PushPc.busy]; omega)
          (by simp [hp, PushPc.won]; omega) (by simp only; omega)⟩

omit [DecidableEq P] in
theorem RingInv.callDrain (h : RingInv k s) (max : Nat) :
    RingInv k { s with cons := .loadTail max } :=
  ⟨h.slot.setCons trivial, h.count.calls, h.count.wins, h.count.returns⟩

omit [DecidableEq P] in
theorem RingInv.drainAct (h : RingInv k s) (hlt : s.started < 2 ^ 64) :
    RingInv k s.drainAct := by
  refine ⟨h.slot.drainAct (h.head_lt hlt), ?_⟩
  obtain ⟨h1, h2, h3⟩ := h.count
  unfold RingSys.drainAct
  cases s.cons with
  | idle => exact ⟨h1, h2, h3⟩
  | loadTail max => exact ⟨h1, h2, h3⟩
  | loadHead max t => exact ⟨h1, h2, h3⟩
  | scan max t hd out => simp only [drainStep]; split_ifs <;> exact ⟨h1, h2, h3⟩
  | copy max t hd out op next e =>
      simp only [drainStep]
      cases fieldOrder[next]? with
      | some f => exact ⟨h1, h2, h3⟩
      | none => exact ⟨h1, h2, h3⟩
  | finish t out => simp only [drainStep]; split_ifs <;> exact ⟨h1, h2, h3⟩

omit [Fintype P] in
/-- The number of calls made only grows. -/
theorem RingSys.step_started {s s' : RingSys P} {act : RingAct P}
    (hstep : s.step act = some s') : s.started ≤ s'.started := by
  cases act with
  | callPush p a =>
      simp only [RingSys.step] at hstep
      split at hstep
      · cases hstep; exact Nat.le_succ _
      · cases hstep
  | push p spurious =>
      simp only [RingSys.step] at hstep
      split at hstep
      · cases hstep
      · cases hstep
        unfold RingSys.pushAct
        split <;> exact Nat.le_refl _
  | callDrain max =>
      simp only [RingSys.step] at hstep
      split at hstep
      · cases hstep; exact Nat.le_refl _
      · cases hstep
  | drain =>
      simp only [RingSys.step] at hstep
      split at hstep
      · cases hstep
      · cases hstep
        unfold RingSys.drainAct
        split <;> exact Nat.le_refl _

theorem RingInv.step (h : RingInv k s) (hlt : s.started < 2 ^ 64) {act : RingAct P}
    {s' : RingSys P} (hstep : s.step act = some s') : RingInv k s' := by
  cases act with
  | callPush p a =>
      simp only [RingSys.step] at hstep
      split at hstep
      · next hp => cases hstep; exact h.callPush hp a
      · cases hstep
  | push p spurious =>
      simp only [RingSys.step] at hstep
      split at hstep
      · cases hstep
      · cases hstep; exact h.pushAct hlt p spurious
  | callDrain max =>
      simp only [RingSys.step] at hstep
      split at hstep
      · cases hstep; exact h.callDrain max
      · cases hstep
  | drain =>
      simp only [RingSys.step] at hstep
      split at hstep
      · cases hstep
      · cases hstep; exact h.drainAct hlt

/-- The invariant along any run that has made fewer than `2 ^ 64` calls. -/
theorem RingInv.run (hk : k < 64) {acts : List (RingAct P)}
    (hrun : Run.run RingSys.step (RingSys.init P (2 ^ k)) acts = some s)
    (hlt : s.started < 2 ^ 64) : RingInv k s := by
  refine Run.run_invariant (I := fun s => s.started < 2 ^ 64 → RingInv k s) ?_
    (fun _ => RingInv.init hk) hrun hlt
  intro s act s' ih hstep hlt'
  have hle := RingSys.step_started hstep
  exact (ih (by omega)).step (by omega) hstep

end System

end Heapviz
