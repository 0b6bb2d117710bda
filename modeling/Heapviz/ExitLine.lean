import Mathlib.Data.List.Induction
import Mathlib.Data.List.Nodup
import Heapviz.Misread

/-!
# The line quoted at exit

`last_output_line` quotes the last line a target wrote. The text goes into the
display and into the shell, so its header promises that no control byte is
left, and that it is the last line with anything in it.

A complete sequence of the log leaves something in the result if the tail is
cut inside it, or if the scan, inside another sequence, takes its ESC for a
selector or a parameter. What the result should be is said without the scan:
`textOf` is what is left of a line when escape sequences, of every kind, and
control bytes are gone. The scan misses it where it misreads a piece
(`Misread`), and where the last line of the tail has no text and another has.

- `noResidue_iff`, `noDelete_iff`, `quotesLast_iff`: when each promise holds.
- `exit_line_clean_iff`: when all do.
-/

namespace Heapviz

/-! ## A marked log -/

/-- A log with a stretch of it marked. -/
def marked (before stretch after : List Nat) : List (Nat × Bool) :=
  before.map (·, false) ++ (stretch.map (·, true) ++ after.map (·, false))

/-- No byte of a complete sequence of the log is left in the result. -/
def NoResidue (log : List Nat) : Prop :=
  ∀ before csi after, log = before ++ (csi ++ after) → IsCsi csi →
    ∀ c ∈ lastOutputLineOf Prod.fst (marked before csi after), c.2 = false

theorem map_marked (before stretch after : List Nat) :
    (marked before stretch after).map Prod.fst = before ++ (stretch ++ after) := by
  simp [marked, Function.comp_def]

/-- A stretch of a text without line ends, and a line of it between a line end and line
ends: they are apart, or the stretch is in the line, or the text is cut inside the
stretch and the line begins there. -/
theorem stretch_cases {α : Type*} {isEnd : α → Prop}
    {cut pre line ends before stretch after : List α}
    (h : cut ++ (pre ++ (line ++ ends)) = before ++ (stretch ++ after))
    (hpre : pre = [] ∨ ∃ p c, pre = p ++ [c] ∧ isEnd c) (hends : ∀ c ∈ ends, isEnd c)
    (hstretch : ∀ c ∈ stretch, ¬ isEnd c) :
    (∀ c ∈ line, c ∈ before ∨ c ∈ after) ∨
      (∃ u v, line = u ++ (stretch ++ v) ∧ u ⊆ before ∧ v ⊆ after) ∨
      (pre = [] ∧ ∃ x y, x ≠ [] ∧ y ≠ [] ∧ stretch = x ++ y ∧ cut = before ++ x) := by
  -- a line that begins before the stretch
  have hbehind : ∀ before', line ++ ends = before' ++ (stretch ++ after) → before' ⊆ before →
      (∀ c ∈ line, c ∈ before ∨ c ∈ after) ∨
        ∃ u v, line = u ++ (stretch ++ v) ∧ u ⊆ before ∧ v ⊆ after := by
    intro before' h hsub
    rcases List.append_eq_append_iff.mp h with ⟨rest, rfl, -⟩ | ⟨rest, hline, hrest⟩
    · exact .inl fun c hc => .inl (hsub (List.mem_append_left _ hc))
    · refine .inr ?_
      rw [hline]
      rcases List.append_eq_append_iff.mp hrest with ⟨v, rfl, rfl⟩ | ⟨tail, rfl, rfl⟩
      · exact ⟨before', v, rfl, hsub, List.subset_append_left _ _⟩
      · have htail : tail = [] := List.eq_nil_iff_forall_not_mem.mpr fun c hc =>
          hstretch c (List.mem_append_right _ hc) (hends c (List.mem_append_left _ hc))
        refine ⟨before', [], ?_, hsub, List.nil_subset _⟩
        rw [htail, List.append_nil, List.append_nil]
  rw [← List.append_assoc] at h
  rcases List.append_eq_append_iff.mp h with ⟨before', hbefore, h⟩ | ⟨x, hx, h⟩
  · exact (hbehind before' h (hbefore ▸ List.subset_append_right _ _)).imp_right .inl
  · rcases List.append_eq_append_iff.mp h with ⟨rest, -, rfl⟩ | ⟨y, hy, h⟩
    · exact .inl fun c hc => .inr (List.mem_append_right _ (List.mem_append_left _ hc))
    · by_cases hxnil : x = []
      · rw [hxnil, List.nil_append] at hy
        rw [← hy] at h
        exact (hbehind [] h (List.nil_subset _)).imp_right .inl
      · by_cases hynil : y = []
        · rw [hynil, List.nil_append] at h
          refine .inl fun c hc => .inr ?_
          rw [← h]
          exact List.mem_append_left _ hc
        · rcases hpre with rfl | ⟨p, c, rfl, hc⟩
          · rw [List.append_nil] at hx
            exact .inr (.inr ⟨rfl, x, y, hxnil, hynil, hy, hx⟩)
          · have hmem : c ∈ x := by
              rw [← List.append_assoc] at hx
              have hlast := congrArg List.getLast? hx
              rw [List.getLast?_concat, List.getLast?_append_of_ne_nil _ hxnil] at hlast
              exact List.mem_of_getLast? hlast.symm
            exact absurd hc (hstretch c (hy ▸ List.mem_append_left _ hmem))

/-! ## Residue -/

/-- The tail is cut inside a complete sequence of the log, and the quoted line begins
there. -/
def CutSequence (log : List Nat) : Prop :=
  ∃ before csi after, log = before ++ (csi ++ after) ∧ IsCsi csi ∧
    before.length < log.length - kTail ∧ log.length - kTail < before.length + csi.length ∧
      ∀ c ∈ trimmedTail id log, c ≠ 0x0A

/-- A complete sequence begins inside another piece of the line, its ESC taken for the
selector of an escape or for a parameter, with room in the result behind what is kept
before. -/
def SwallowedSequence (line : List Nat) : Prop :=
  ∃ ps p qs front csi after, pieces id line = ps ++ p :: qs ∧
    p.bytes ++ bytesOf qs = front ++ (csi ++ after) ∧ IsCsi csi ∧ 0 < front.length ∧
      front.length < p.bytes.length ∧ (keptOf ps).length < kMaxOutputLine

section Marked

variable {before csi after : List Nat}

theorem parts_marked (hcsi : IsCsi csi) :
    ∃ esc bracket params final,
      CsiParts Prod.fst (csi.map (·, true)) esc bracket params final := by
  refine IsCsi.parts ?_
  rwa [List.map_map, show (Prod.fst ∘ fun c : Nat => (c, true)) = id from rfl, List.map_id]

theorem outputLine_marked :
    outputLine id (before ++ (csi ++ after)) =
      (outputLine Prod.fst (marked before csi after)).map Prod.fst := by
  rw [← map_marked]
  exact outputLine_map Prod.fst _

theorem length_marked :
    (marked before csi after).length = (before ++ (csi ++ after)).length := by
  rw [← map_marked, List.length_map]

theorem mark_false {text : List Nat} {c : Nat × Bool} (h : c ∈ text.map (·, false)) :
    c.2 = false := by
  obtain ⟨b, -, rfl⟩ := List.mem_map.mp h
  rfl

theorem mark_true {text : List Nat} {c : Nat × Bool} (h : c ∈ text.map (·, true)) :
    c.2 = true := by
  obtain ⟨b, -, rfl⟩ := List.mem_map.mp h
  rfl

end Marked

/-- A sequence in the line that the scan does not swallow leaves nothing. -/
theorem kept_unmarked {csi : List Nat} (hcsi : IsCsi csi) {u v : List (Nat × Bool)}
    (hu : ∀ c ∈ u, c.2 = false) (hv : ∀ c ∈ v, c.2 = false)
    (hswallow : ¬ SwallowedSequence ((u ++ (csi.map (·, true) ++ v)).map Prod.fst)) :
    ∀ c ∈ (outputLoop Prod.fst (u ++ (csi.map (·, true) ++ v))).take kMaxOutputLine,
      c.2 = false := by
  intro c hc
  obtain ⟨esc, bracket, params, final, hparts⟩ := parts_marked hcsi
  have hne : csi.map (·, true) ++ v ≠ [] := by
    rw [hparts.text_eq]
    exact List.cons_ne_nil _ _
  obtain ⟨ps, p, qs, front, hpieces, hfront, hlt⟩ :=
    pieces_cover Prod.fst (rfl : u ++ (csi.map (·, true) ++ v) = _) hne
  have hps {x : Nat × Bool} (hx : x ∈ keptOf ps) : x.2 = false :=
    hu x (hfront.symm ▸ List.mem_append_left _ (keptOf_subset _ hx))
  have hbytes : p.bytes ++ bytesOf qs = front ++ (csi.map (·, true) ++ v) := by
    have hall := bytesOf_pieces Prod.fst (u ++ (csi.map (·, true) ++ v))
    rw [hpieces, bytesOf_append, bytesOf_cons, hfront, List.append_assoc] at hall
    exact List.append_cancel_left hall
  rw [outputLoop_eq, hpieces, keptOf_append] at hc
  by_cases hnil : front = []
  · -- the sequence is met at its ESC
    rw [← bytesOf_cons, hnil, List.nil_append] at hbytes
    have hsuffix := pieces_suffix hpieces
    rw [hbytes, hparts.pieces] at hsuffix
    rw [← hsuffix, keptOf_cons] at hc
    rcases List.mem_append.mp (List.mem_of_mem_take hc) with hc | hc
    · exact hps hc
    · refine hv c (outputLoop_subset Prod.fst v ?_)
      rw [outputLoop_eq]
      exact hc
  · -- it is swallowed, too late to leave anything
    have hlate : kMaxOutputLine ≤ (keptOf ps).length := by
      by_contra hroom
      refine hswallow ⟨ps.map (ScanPiece.map Prod.fst), p.map Prod.fst,
        qs.map (ScanPiece.map Prod.fst), front.map Prod.fst, csi, v.map Prod.fst, ?_, ?_, hcsi, ?_,
        ?_, ?_⟩
      · rw [pieces_map, ← List.map_cons, ← List.map_append, ← hpieces]
        rfl
      · rw [ScanPiece.bytes_map, bytesOf_map, ← List.map_append, hbytes]
        simp [Function.comp_def]
      · rw [List.length_map]
        exact List.length_pos_of_ne_nil hnil
      · rw [ScanPiece.bytes_map, List.length_map, List.length_map]
        exact hlt
      · rw [keptOf_map, List.length_map]
        exact not_le.mp hroom
    rw [List.take_append_of_le_length hlate] at hc
    exact hps (List.mem_of_mem_take hc)

/-- Otherwise nothing is left of any sequence: one the quoted line holds is a piece, or
comes too late in it. -/
theorem noResidue_of {log : List Nat} (hcut : ¬ CutSequence log)
    (hswallow : ¬ SwallowedSequence (outputLine id log)) : NoResidue log := by
  rintro before csi after rfl hcsi c hc
  obtain ⟨esc, bracket, params, final, hparts⟩ := parts_marked hcsi
  have hline : c ∈ outputLine Prod.fst (marked before csi after) :=
    outputLoop_subset _ _ (List.mem_of_mem_take hc)
  have hplace := (log_eq Prod.fst (marked before csi after)).symm
  have hstretch : ∀ c ∈ csi.map (·, true), ¬ isLineEnd Prod.fst c = true := fun c hc => by
    rw [hparts.not_lineEnd hc]
    exact Bool.false_ne_true
  have hends : ∀ c, c ∈ lineEnds Prod.fst (marked before csi after) →
      isLineEnd Prod.fst c = true := fun c => lineEnds_lineEnd
  have hnewline : beforeLine Prod.fst (marked before csi after) = [] ∨
      ∃ p c, beforeLine Prod.fst (marked before csi after) = p ++ [c] ∧
        isLineEnd Prod.fst c = true := by
    refine (beforeLine_cases Prod.fst _).imp_right fun ⟨p, c, heq, hc⟩ => ⟨p, c, heq, ?_⟩
    rw [isLineEnd, hc]
    rfl
  rcases stretch_cases hplace hnewline hends hstretch with
    hapart | ⟨u, v, hu, hubefore, hvafter⟩ | ⟨hnil, x, y, hx, hy, hxy, hbefore⟩
  · rcases hapart c hline with hc | hc
    · exact mark_false hc
    · exact mark_false hc
  · rw [lastOutputLineOf, hu] at hc
    rw [outputLine_marked, hu] at hswallow
    exact kept_unmarked hcsi (fun x hx => mark_false (hubefore hx))
      (fun x hx => mark_false (hvafter hx)) hswallow c hc
  · refine absurd ⟨before, csi, after, rfl, hcsi, ?_⟩ hcut
    have hxpos := List.length_pos_of_ne_nil hx
    have hypos := List.length_pos_of_ne_nil hy
    have hlen := congrArg List.length hbefore
    simp only [beforeTail, List.length_take, length_marked, List.length_append,
      List.length_map] at hlen
    have hsplit := congrArg List.length hxy
    rw [List.length_map, List.length_append] at hsplit
    simp only [List.length_append]
    refine ⟨by omega, by omega, fun b hb => ?_⟩
    rw [← map_marked, trimmedTail_map] at hb
    obtain ⟨c, hc, rfl⟩ := List.mem_map.mp hb
    exact beforeLine_eq_nil_iff.mp hnil c hc

/-- A sequence cut by the tail shows in the result. -/
theorem CutSequence.residue {log : List Nat} (h : CutSequence log) : ¬ NoResidue log := by
  obtain ⟨before, csi, after, rfl, hcsi, hbefore, hcsilen, hnl⟩ := h
  intro hres
  obtain ⟨esc, bracket, params, final, hparts⟩ := parts_marked hcsi
  have hres := hres before csi after rfl hcsi
  -- the tail begins with a byte of the sequence that is not its ESC
  obtain ⟨x, rest, htail, hx⟩ : ∃ x rest, outputTail (marked before csi after) = x :: rest ∧
      x ∈ bracket :: (params ++ [final]) := by
    have hlen := congrArg List.length hparts.text_eq
    rw [List.length_map, List.length_cons] at hlen
    obtain ⟨i, hi⟩ := Nat.exists_eq_add_of_lt hbefore
    have hlt : i < (bracket :: (params ++ [final])).length := by omega
    have htail : outputTail (marked before csi after) = (bracket :: (params ++ [final]))[i] ::
        ((bracket :: (params ++ [final])).drop (i + 1) ++ after.map (·, false)) := by
      rw [outputTail, length_marked, hi, marked, hparts.text_eq, List.drop_append, List.length_map,
        List.drop_of_length_le (by rw [List.length_map]; omega), List.nil_append, Nat.add_assoc,
        Nat.add_sub_cancel_left, List.cons_append, List.drop_succ_cons,
        List.drop_append_of_le_length hlt.le, List.drop_eq_getElem_cons hlt, List.cons_append]
    exact ⟨_, _, htail, List.getElem_mem hlt⟩
  have hmem : x ∈ csi.map (·, true) := by
    rw [hparts.text_eq]
    exact List.mem_cons_of_mem _ hx
  have hnil : beforeLine Prod.fst (marked before csi after) = [] := by
    refine beforeLine_eq_nil_iff.mpr fun c hc => hnl c.1 ?_
    rw [← map_marked, trimmedTail_map]
    exact List.mem_map_of_mem hc
  have hsplit := outputTail_eq Prod.fst (marked before csi after)
  rw [hnil, List.nil_append, htail] at hsplit
  cases hline : outputLine Prod.fst (marked before csi after) with
  | nil =>
      rw [hline, List.nil_append] at hsplit
      have hend : isLineEnd Prod.fst x = true :=
        lineEnds_lineEnd (hsplit ▸ List.mem_cons_self)
      rw [hparts.not_lineEnd hmem] at hend
      cases hend
  | cons y line =>
      rw [hline] at hsplit
      obtain ⟨rfl, -⟩ := List.cons.inj hsplit
      have hkept : x ∈ lastOutputLineOf Prod.fst (marked before csi after) := by
        rw [lastOutputLineOf, hline, outputLoop_eq, pieces_text (hparts.inside hx).1]
        exact List.mem_cons_self
      exact absurd ((hres x hkept).symm.trans (mark_true hmem)) Bool.false_ne_true

/-- The quoted line of a marked log, where the stretch lies in it. -/
theorem outputLine_marked_eq {log u csi v : List Nat} (h : outputLine id log = u ++ (csi ++ v)) :
    ∃ before after, log = before ++ (csi ++ after) ∧
      outputLine Prod.fst (marked before csi after) = marked u csi v := by
  have hlog := log_eq id log
  rw [h] at hlog
  have hsplit : log = beforeTail log ++ (beforeLine id log ++ u) ++
      (csi ++ (v ++ lineEnds id log)) := hlog.trans (by simp only [List.append_assoc])
  generalize hbefore : beforeTail log ++ (beforeLine id log ++ u) = before at hsplit
  generalize hafter : v ++ lineEnds id log = after at hsplit
  refine ⟨before, after, hsplit, ?_⟩
  have hline : (outputLine Prod.fst (marked before csi after)).length =
      (marked u csi v).length := by
    have hlen := congrArg List.length (h.symm.trans ((congrArg _ hsplit).trans outputLine_marked))
    rw [List.length_map] at hlen
    rw [← hlen, length_marked]
  have hends : (lineEnds Prod.fst (marked before csi after)).length =
      ((lineEnds id log).map (·, false)).length := by
    have hmap := @lineEnds_map _ _ id Prod.fst (marked before csi after)
    rw [map_marked, ← hsplit] at hmap
    rw [List.length_map, hmap, List.length_map]
    rfl
  have hmarked : marked before csi after =
      (beforeTail log ++ beforeLine id log).map (·, false) ++
        (marked u csi v ++ (lineEnds id log).map (·, false)) := by
    rw [← hbefore, ← hafter]
    simp [marked]
  have hplace := (log_eq Prod.fst (marked before csi after)).symm
  rw [← List.append_assoc] at hplace
  have hright := List.append_inj_right' (hplace.trans hmarked)
    (by rw [List.length_append, List.length_append, hline, hends])
  exact List.append_inj_left' hright hends

/-- A sequence swallowed by another shows in the result. -/
theorem SwallowedSequence.residue {log : List Nat}
    (h : SwallowedSequence (outputLine id log)) : ¬ NoResidue log := by
  obtain ⟨ps, p, qs, front, csi, after, hpieces, hbytes, hcsi, hpos, hlt, hroom⟩ := h
  intro hres
  obtain ⟨esc, bracket, params, final, hparts⟩ := parts_marked hcsi
  have hline : outputLine id log = (bytesOf ps ++ front) ++ (csi ++ after) := by
    rw [← bytesOf_pieces id (outputLine id log), hpieces, bytesOf_append, bytesOf_cons, hbytes,
      List.append_assoc]
  obtain ⟨before, after', hlog, hmarked⟩ := outputLine_marked_eq hline
  have hres := hres before csi after' hlog hcsi
  -- the pieces of the marked line are the pieces of the line, marked
  have hmap : (pieces Prod.fst (marked (bytesOf ps ++ front) csi after)).map
      (ScanPiece.map Prod.fst) = ps ++ p :: qs := by
    rw [← hpieces, hline, ← map_marked, pieces_map]
    rfl
  obtain ⟨ps', rest, hsplit, rfl, hrest⟩ := List.map_eq_append_iff.mp hmap
  obtain ⟨p', qs', rfl, rfl, rfl⟩ := List.map_eq_cons_iff.mp hrest
  have hbytes' : p'.bytes ++ bytesOf qs' =
      front.map (·, false) ++ (csi.map (·, true) ++ after.map (·, false)) := by
    have hall := bytesOf_pieces Prod.fst
      (marked (bytesOf (ps'.map (ScanPiece.map Prod.fst)) ++ front) csi after)
    rw [hsplit, bytesOf_append, bytesOf_cons, marked, List.map_append, List.append_assoc] at hall
    refine (List.append_inj hall ?_).2
    rw [bytesOf_map, List.length_map, List.length_map]
  rw [ScanPiece.bytes_map, List.length_map] at hlt
  rw [keptOf_map, List.length_map] at hroom
  obtain ⟨hkept, x, hx, qs'', rfl⟩ := hparts.residue hsplit hbytes' (by rwa [List.length_map])
    (by rwa [List.length_map])
  have hmem : x ∈ lastOutputLineOf Prod.fst (marked before csi after') := by
    rw [lastOutputLineOf, hmarked, outputLoop_eq, hsplit]
    refine mem_take_keptOf.mpr ⟨ps' ++ [p'], qs'', by rw [List.append_assoc]; rfl, ?_⟩
    rwa [keptOf_append, keptOf_cons, hkept, List.length_append, Option.toList_none,
      List.nil_append]
  exact absurd ((hres x hmem).symm.trans (mark_true hx)) Bool.false_ne_true

/-- When nothing is left of any sequence. -/
theorem noResidue_iff {log : List Nat} :
    NoResidue log ↔ ¬ CutSequence log ∧ ¬ SwallowedSequence (outputLine id log) :=
  ⟨fun h => ⟨fun hcut => hcut.residue h, fun hswallow => hswallow.residue h⟩,
    fun h => noResidue_of h.1 h.2⟩

/-! ## Control bytes -/

/-- A DEL of the line is text, with room in the result behind what is kept before. -/
def DeleteShown (line : List Nat) : Prop :=
  ∃ ps qs, pieces id line = ps ++ .text 0x7F :: qs ∧ (keptOf ps).length < kMaxOutputLine

theorem lastOutputLine_eq (log : List Nat) :
    lastOutputLine (some log) = (keptOf (pieces id (outputLine id log))).take kMaxOutputLine := by
  rw [lastOutputLine, lastOutputLineOf, outputLoop_eq]

theorem noDelete_iff {log : List Nat} :
    (∀ c ∈ lastOutputLine (some log), 0x20 ≤ c ∧ c ≠ 0x7F) ↔
      ¬ DeleteShown (outputLine id log) := by
  rw [lastOutputLine_eq]
  constructor
  · intro h hdel
    exact (h _ (mem_take_keptOf.mpr hdel)).2 rfl
  · intro h c hc
    obtain ⟨ps, qs, hsplit, hlen⟩ := mem_take_keptOf.mp hc
    refine ⟨?_, fun hdel => h ⟨ps, qs, by rw [hsplit, hdel], hlen⟩⟩
    refine @text_of_mem_pieces Nat id (outputLine id log) c ?_
    rw [hsplit]
    exact List.mem_append_right _ List.mem_cons_self

/-! ## The last line that has text -/

section Lines

variable {α : Type*} (byte : α → Nat)

def isNewline (c : α) : Bool := byte c == 0x0A

def isReturn (c : α) : Bool := byte c == 0x0D

/-- The lines of what is read of the log, without the returns at their ends. -/
def tailLines (log : List α) : List (List α) :=
  ((outputTail log).splitOnP (isNewline byte)).map (·.rdropWhile (isReturn byte))

/-- The result is the text of the last line that has any, cut at its limit. -/
def QuotesLast (log : List α) : Prop :=
  ∀ before line after, tailLines byte log = before ++ line :: after → textOf byte line ≠ [] →
    (∀ l ∈ after, textOf byte l = []) →
      lastOutputLineOf byte log = (textOf byte line).take kMaxOutputLine

variable {byte}

/-- The bytes of a line are bytes of the text. -/
theorem subset_of_mem_splitOnP {p : α → Bool} {text l : List α} (h : l ∈ text.splitOnP p) :
    l ⊆ text := by
  induction text generalizing l with
  | nil =>
      rw [List.splitOnP_nil, List.mem_singleton] at h
      rw [h]
      exact List.nil_subset _
  | cons c text ih =>
      rw [List.splitOnP_cons_eq_if_modifyHead] at h
      split at h
      · rcases List.mem_cons.mp h with rfl | h
        · exact List.nil_subset _
        · exact List.Subset.trans (ih h) (List.subset_cons_self c text)
      · cases hsplit : text.splitOnP p with
        | nil => exact absurd hsplit (List.splitOnP_ne_nil p text)
        | cons first rest =>
            rw [hsplit] at h ih
            rcases List.mem_cons.mp h with rfl | h
            · exact List.cons_subset_cons c (ih List.mem_cons_self)
            · exact List.Subset.trans (ih (List.mem_cons_of_mem _ h)) (List.subset_cons_self c text)

theorem rdropWhile_append_of_forall {p : α → Bool} (l : List α) {ends : List α}
    (h : ∀ c ∈ ends, p c = true) : (l ++ ends).rdropWhile p = l.rdropWhile p := by
  rw [List.rdropWhile, List.reverse_append, List.dropWhile_append_of_pos, List.rdropWhile]
  exact fun c hc => h c (List.mem_reverse.mp hc)

/-- The line with the line ends behind it: returns may follow it, and lines of nothing
else. -/
theorem splitOnP_lineEnds (ends : List α) (hends : ∀ c ∈ ends, isLineEnd byte c = true)
    {line : List α} (hline : ∀ c ∈ line, isNewline byte c = false) :
    ∃ returns rest, (line ++ ends).splitOnP (isNewline byte) = (line ++ returns) :: rest ∧
      (∀ c ∈ returns, isReturn byte c = true) ∧
        ∀ l ∈ rest, ∀ c ∈ l, isReturn byte c = true := by
  induction ends generalizing line with
  | nil =>
      rw [List.append_nil, List.splitOnP_eq_singleton hline]
      exact ⟨[], [], by rw [List.append_nil], nofun, nofun⟩
  | cons c ends ih =>
      have htail : ∀ d ∈ ends, isLineEnd byte d = true :=
        fun d hd => hends d (List.mem_cons_of_mem _ hd)
      by_cases hnewline : isNewline byte c = true
      · obtain ⟨returns, rest, hsplit, hreturns, hrest⟩ := @ih htail [] nofun
        rw [List.nil_append, List.nil_append] at hsplit
        refine ⟨[], returns :: rest, ?_, nofun, ?_⟩
        · rw [List.splitOnP_append_cons_of_forall_mem hline c hnewline, hsplit, List.append_nil]
        · intro l hl
          rcases List.mem_cons.mp hl with rfl | hl
          · exact hreturns
          · exact hrest l hl
      · have hreturn : isReturn byte c = true :=
          (Bool.or_eq_true _ _ |>.mp (hends c List.mem_cons_self)).resolve_left hnewline
        have hline' : ∀ d ∈ line ++ [c], isNewline byte d = false := by
          intro d hd
          rcases List.mem_append.mp hd with hd | hd
          · exact hline d hd
          · rw [List.mem_singleton.mp hd]
            exact Bool.eq_false_iff.mpr hnewline
        obtain ⟨returns, rest, hsplit, hreturns, hrest⟩ := ih htail hline'
        refine ⟨c :: returns, rest, ?_, List.forall_mem_cons.mpr ⟨hreturn, hreturns⟩, hrest⟩
        rw [List.append_cons, hsplit, ← List.append_cons]

variable (byte) in
/-- The quoted line does not end in a return. -/
theorem rdropWhile_outputLine (log : List α) :
    (outputLine byte log).rdropWhile (isReturn byte) = outputLine byte log := by
  refine List.rdropWhile_eq_self_iff.mpr fun hne hlast => ?_
  have hsplit : beforeLine byte log ++ outputLine byte log = trimmedTail byte log :=
    List.rdropWhile_append_rtakeWhile
  have htrimmed : trimmedTail byte log ≠ [] := by
    rw [← hsplit]
    exact List.append_ne_nil_of_right_ne_nil _ hne
  have hend := List.rdropWhile_last_not (isLineEnd byte) (outputTail log) htrimmed
  refine hend ?_
  have heq : (trimmedTail byte log).getLast htrimmed = (outputLine byte log).getLast hne := by
    simp only [← hsplit, List.getLast_append_of_ne_nil _ hne]
  show isLineEnd byte ((trimmedTail byte log).getLast htrimmed) = true
  rw [heq, isLineEnd, Bool.or_eq_true]
  exact .inr hlast

variable (byte) in
/-- The quoted line among the lines of the tail: those behind it are empty. -/
theorem tailLines_eq (log : List α) :
    ∃ before after, tailLines byte log = before ++ outputLine byte log :: after ∧
      (∀ l ∈ before, l ⊆ beforeLine byte log) ∧ ∀ l ∈ after, l = [] := by
  have hline : ∀ c ∈ outputLine byte log, isNewline byte c = false := by
    intro c hc
    have hne := List.mem_rtakeWhile_imp hc
    exact beq_false_of_ne (bne_iff_ne.mp hne)
  obtain ⟨returns, after, hsplit, hreturns, hafter⟩ :=
    splitOnP_lineEnds (lineEnds byte log) (fun c hc => lineEnds_lineEnd hc) hline
  have hquoted : (outputLine byte log ++ returns).rdropWhile (isReturn byte) =
      outputLine byte log := by
    rw [rdropWhile_append_of_forall _ hreturns, rdropWhile_outputLine]
  have hempty : ∀ l ∈ after.map (·.rdropWhile (isReturn byte)), l = [] := by
    intro l hl
    obtain ⟨l, hmem, rfl⟩ := List.mem_map.mp hl
    exact List.rdropWhile_eq_nil_iff.mpr (hafter l hmem)
  rw [tailLines, outputTail_eq byte]
  rcases beforeLine_cases byte log with hnil | ⟨pre, c, hpre, hc⟩
  · rw [hnil, List.nil_append, hsplit, List.map_cons, hquoted]
    exact ⟨[], _, rfl, nofun, hempty⟩
  · have hnewline : isNewline byte c = true := beq_iff_eq.mpr hc
    rw [hpre, List.append_assoc, List.singleton_append, List.splitOnP_append_cons _ _ hnewline,
      hsplit, List.map_append, List.map_cons, hquoted]
    refine ⟨_, _, rfl, ?_, hempty⟩
    intro l hl
    obtain ⟨l, hmem, rfl⟩ := List.mem_map.mp hl
    exact List.Subset.trans (List.rdropWhile_prefix _ l).subset
      (List.Subset.trans (subset_of_mem_splitOnP hmem) (List.subset_append_left pre [c]))

end Lines

section Last

variable {α : Type*} {p : α → Prop}

theorem exists_last {l : List α} (h : ∃ c ∈ l, p c) :
    ∃ before c after, l = before ++ c :: after ∧ p c ∧ ∀ d ∈ after, ¬ p d := by
  induction l using List.reverseRecOn with
  | nil =>
      obtain ⟨c, hc, -⟩ := h
      cases hc
  | append_singleton l d ih =>
      by_cases hd : p d
      · exact ⟨l, d, [], rfl, hd, nofun⟩
      · obtain ⟨c, hc, hpc⟩ := h
        have hmem : c ∈ l := by
          rcases List.mem_append.mp hc with hc | hc
          · exact hc
          · rw [List.mem_singleton.mp hc] at hpc
            exact absurd hpc hd
        obtain ⟨before, e, after, rfl, he, hafter⟩ := ih ⟨c, hmem, hpc⟩
        refine ⟨before, e, after ++ [d], by rw [List.append_assoc, List.cons_append], he, ?_⟩
        intro f hf
        rcases List.mem_append.mp hf with hf | hf
        · exact hafter f hf
        · rw [List.mem_singleton.mp hf]
          exact hd

theorem last_unique {before before' after after' : List α} {c c' : α}
    (h : before ++ c :: after = before' ++ c' :: after') (hc : p c) (hc' : p c')
    (hafter : ∀ d ∈ after, ¬ p d) (hafter' : ∀ d ∈ after', ¬ p d) : c = c' := by
  rcases List.append_eq_append_iff.mp h with ⟨mid, -, hmid⟩ | ⟨mid, -, hmid⟩
  · cases mid with
    | nil => exact (List.cons.inj hmid).1
    | cons d mid =>
        obtain ⟨-, rfl⟩ := List.cons.inj hmid
        exact absurd hc' (hafter c' (List.mem_append_right _ List.mem_cons_self))
  · cases mid with
    | nil => exact (List.cons.inj hmid).1.symm
    | cons d mid =>
        obtain ⟨-, rfl⟩ := List.cons.inj hmid
        exact absurd hc (hafter' c (List.mem_append_right _ List.mem_cons_self))

end Last

/-- When the bytes of a log are told apart, the result is the text of the last line that has
any exactly when the quoted line has some and is not misread, or no line has any. -/
theorem quotesLast_iff {α : Type*} {byte : α → Nat} {log : List α} (hnodup : log.Nodup) :
    QuotesLast byte log ↔
      (textOf byte (outputLine byte log) ≠ [] ∧
          ¬ Misread byte kMaxOutputLine (outputLine byte log)) ∨
        ∀ l ∈ tailLines byte log, textOf byte l = [] := by
  obtain ⟨before', after', hlines, hbefore, hempty⟩ := tailLines_eq byte log
  have hnone : ∀ l ∈ after', textOf byte l = [] := fun l hl => by rw [hempty l hl, textOf_nil]
  rw [log_eq byte log] at hnodup
  have hplace := (List.nodup_append.mp hnodup).2.1
  have hline : (outputLine byte log).Nodup :=
    (List.nodup_append.mp (List.nodup_append.mp hplace).2.1).1
  have hright : lastOutputLineOf byte log =
      (textOf byte (outputLine byte log)).take kMaxOutputLine ↔
        ¬ Misread byte kMaxOutputLine (outputLine byte log) := take_outputLoop_eq_iff hline _
  constructor
  · intro h
    by_cases hshown : textOf byte (outputLine byte log) = []
    · refine .inr ?_
      by_contra hsome
      have hsome : ∃ l ∈ tailLines byte log, textOf byte l ≠ [] := by
        simpa only [not_forall, exists_prop] using hsome
      obtain ⟨before, l, after, hsplit, hl, hafter⟩ := exists_last hsome
      have hresult := h before l after hsplit hl fun m hm => not_not.mp (hafter m hm)
      -- the text of an earlier line is none of the quoted one
      have hmem : l ∈ before' := by
        have hl' : l ∈ before' ++ outputLine byte log :: after' := by
          rw [← hlines, hsplit]
          exact List.mem_append_right _ List.mem_cons_self
        rcases List.mem_append.mp hl' with hl' | hl'
        · exact hl'
        · rcases List.mem_cons.mp hl' with heq | hl'
          · rw [heq] at hl
            exact absurd hshown hl
          · exact absurd (hnone l hl') hl
      obtain ⟨c, text, htext⟩ := List.exists_cons_of_ne_nil hl
      have hc : c ∈ lastOutputLineOf byte log := by
        rw [hresult, htext, kMaxOutputLine, List.take_succ_cons]
        exact List.mem_cons_self
      have hcline : c ∈ outputLine byte log := outputLoop_subset byte _ (List.mem_of_mem_take hc)
      have hcbefore : c ∈ beforeLine byte log :=
        hbefore l hmem ((textOf_sublist byte l).subset (htext ▸ List.mem_cons_self))
      exact (List.nodup_append.mp hplace).2.2 c hcbefore c (List.mem_append_left _ hcline) rfl
    · exact .inl ⟨hshown, hright.mp (h before' _ after' hlines hshown hnone)⟩
  · rintro (⟨hshown, hread⟩ | hnothing) before l after hsplit hl hafter
    · have heq : l = outputLine byte log := by
        have hsame := hsplit.symm.trans hlines
        exact @last_unique _ (fun l => textOf byte l ≠ []) _ _ _ _ _ _ hsame hl hshown
          (fun m hm => not_not.mpr (hafter m hm)) fun m hm => not_not.mpr (hnone m hm)
      rw [heq]
      exact hright.mpr hread
    · refine absurd (hnothing l ?_) hl
      rw [hsplit]
      exact List.mem_append_right _ List.mem_cons_self

section Places

variable {α β : Type*} {byte : β → Nat} (f : α → β)

theorem splitOnP_map (p : β → Bool) (text : List α) :
    (text.map f).splitOnP p = (text.splitOnP (p ∘ f)).map (List.map f) := by
  induction text with
  | nil => rfl
  | cons c text ih =>
      rw [List.map_cons, List.splitOnP_cons_eq_if_modifyHead, List.splitOnP_cons_eq_if_modifyHead,
        ih, Function.comp_apply]
      split
      · rfl
      · cases text.splitOnP (p ∘ f) <;> rfl

theorem tailLines_map (log : List α) :
    tailLines byte (log.map f) = (tailLines (byte ∘ f) log).map (List.map f) := by
  rw [tailLines, outputTail_map, splitOnP_map, tailLines, List.map_map, List.map_map]
  refine List.map_congr_left fun l _ => ?_
  rw [Function.comp_apply, Function.comp_apply, List.rdropWhile, ← List.map_reverse,
    List.dropWhile_map, ← List.map_reverse]
  rfl

/-- What holds of the places holds of the bytes. -/
theorem QuotesLast.map {log : List α} (h : QuotesLast (byte ∘ f) log) :
    QuotesLast byte (log.map f) := by
  intro before line after hsplit hline hafter
  rw [tailLines_map] at hsplit
  obtain ⟨before, rest, heq, rfl, hrest⟩ := List.map_eq_append_iff.mp hsplit
  obtain ⟨line, after, rfl, rfl, rfl⟩ := List.map_eq_cons_iff.mp hrest
  rw [textOf_map] at hline ⊢
  rw [lastOutputLineOf_map, ← List.map_take, h before line after heq ?_ ?_]
  · exact fun hnil => hline (by rw [hnil, List.map_nil])
  · intro l hl
    have hempty := hafter (l.map f) (List.mem_map_of_mem hl)
    rw [textOf_map] at hempty
    exact List.map_eq_nil_iff.mp hempty

end Places

/-! ## The promises of the header -/

/-- What the header promises of the quoted line. -/
structure ExitLineClean (log : List Nat) : Prop where
  short : (lastOutputLine (some log)).length ≤ kMaxOutputLine
  noControl : ∀ c ∈ lastOutputLine (some log), 0x20 ≤ c ∧ c ≠ 0x7F
  noResidue : NoResidue log
  quotesLast : QuotesLast id log

/-- The quoted text is that of the last line that has any in the log itself, where each
byte has its place, and not only one that reads the same. -/
def QuotesInPlace (log : List Nat) : Prop := QuotesLast Prod.fst log.zipIdx

theorem nodup_zipIdx (log : List Nat) : log.zipIdx.Nodup := by
  refine List.Nodup.of_map Prod.snd ?_
  rw [List.zipIdx_map_snd]
  exact List.nodup_range'

theorem quotesInPlace_iff {log : List Nat} :
    QuotesInPlace log ↔
      (textOf id (outputLine id log) ≠ [] ∧ ¬ Misread id kMaxOutputLine (outputLine id log)) ∨
        ∀ l ∈ tailLines id log, textOf id l = [] := by
  have hmap : log.zipIdx.map Prod.fst = log := List.zipIdx_map_fst 0 log
  have hline := @outputLine_map _ _ id Prod.fst log.zipIdx
  have hlines := @tailLines_map _ _ id Prod.fst log.zipIdx
  rw [hmap, Function.id_comp] at hline hlines
  rw [QuotesInPlace, quotesLast_iff (nodup_zipIdx log), hline, hlines, misread_map, textOf_map,
    Function.id_comp, List.forall_mem_map]
  simp only [textOf_map, Function.id_comp, ne_eq, List.map_eq_nil_iff]

/-- **When the quoted line is clean.** Exactly when the tail is not cut inside a sequence
that the line then begins in, no sequence of the line is swallowed by another, no DEL of
it is shown, and either the line has text and nothing before its end in the result is
misread, or no line of the tail has any. -/
theorem exit_line_clean_iff (log : List Nat) :
    ExitLineClean log ∧ QuotesInPlace log ↔
      ¬ CutSequence log ∧ ¬ SwallowedSequence (outputLine id log) ∧
        ¬ DeleteShown (outputLine id log) ∧
        ((textOf id (outputLine id log) ≠ [] ∧
            ¬ Misread id kMaxOutputLine (outputLine id log)) ∨
          ∀ l ∈ tailLines id log, textOf id l = []) := by
  rw [← quotesInPlace_iff]
  constructor
  · rintro ⟨h, hplaces⟩
    obtain ⟨hcut, hswallow⟩ := noResidue_iff.mp h.noResidue
    exact ⟨hcut, hswallow, noDelete_iff.mp h.noControl, hplaces⟩
  · rintro ⟨hcut, hswallow, hdel, hplaces⟩
    refine ⟨⟨?_, noDelete_iff.mpr hdel, noResidue_iff.mpr ⟨hcut, hswallow⟩, ?_⟩, hplaces⟩
    · rw [lastOutputLine_eq]
      exact List.length_take_le _ _
    · have hquotes := @QuotesLast.map _ _ id Prod.fst _ hplaces
      rwa [List.zipIdx_map_fst] at hquotes

/-- "hello", a newline, and a reset of the colours on the line behind it: the reset is
quoted, as nothing. -/
theorem exit_line_reset :
    ¬ ExitLineClean
      [0x68, 0x65, 0x6C, 0x6C, 0x6F, 0x0A, 0x1B, 0x5B, 0x30, 0x6D, 0x0A] := by
  intro h
  have hresult := h.quotesLast [] [0x68, 0x65, 0x6C, 0x6C, 0x6F] [[0x1B, 0x5B, 0x30, 0x6D], []]
    (by decide) (by decide +kernel) (by decide +kernel)
  revert hresult
  decide +kernel

/-- The same with the charset and the colours restored: the final byte of the one is quoted. -/
example : lastOutputLine (some
    [0x68, 0x65, 0x6C, 0x6C, 0x6F, 0x0A, 0x1B, 0x28, 0x42, 0x1B, 0x5B, 0x6D, 0x0A]) = [0x42] ∧
    textOf id [0x1B, 0x28, 0x42, 0x1B, 0x5B, 0x6D] = [] := by decide +kernel

end Heapviz
