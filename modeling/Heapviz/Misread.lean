import Heapviz.Escapes
import Heapviz.OutputScan

/-!
# Where the scan misreads a line

The scan of `last_output_line` knows two kinds of escapes: a CSI, and ESC with
one byte. `ScanPiece.ReadRight` says of a piece that it is no other kind taken
for one of these: then what a terminal takes for text behind it is text to both
(`textOf_of_readRight`). At the first piece that is not, one of the two has a
byte next that the other never shows (`differs_of_misread`). So the scan has the
first `n` text bytes of a line right exactly if no piece before them is misread
(`take_outputLoop_eq_iff`), where bytes are told apart by their places.
-/

namespace Heapviz

section Pieces

variable {α : Type*} (byte : α → Nat)

/-- ESC and the byte `d` make up a sequence, or no sequence, in front of `rest`. -/
def SelectorRight (d : α) (rest : List α) : Prop :=
  if beginsString byte d then ∀ c ∈ rest.takeWhile (isStringByte byte), byte c < 0x20
  else if isIntermediate byte d then rest = []
  else if byte d = 0x1B then rest = [] ∨ behindEscape byte rest = none
  else byte d < 0x80

/-- The scan takes the piece for what it is, in front of `rest`. -/
def ScanPiece.ReadRight : ScanPiece α → List α → Prop
  | .text c, _ => byte c ≠ 0x7F
  | .control _, _ => True
  | .escape _ none, _ => True
  | .escape _ (some d), rest => SelectorRight byte d rest
  | .csi _ _ body final, _ => (∀ c ∈ body, 0x20 ≤ byte c) ∧ ∀ c ∈ final, byte c ≤ 0x7E

/-- A piece of the text is misread, with fewer than `n` bytes kept before it. -/
def Misread (n : Nat) (text : List α) : Prop :=
  ∃ ps p qs, pieces byte text = ps ++ p :: qs ∧ (keptOf ps).length < n ∧
    ¬ p.ReadRight byte (bytesOf qs)

variable {byte}

/-! ## One piece -/

/-- A CSI piece is a complete or cut off CSI exactly if it is made up like one. -/
theorem behindEnd_csi (rest : List α) :
    ((∀ c ∈ rest.takeWhile (isCsiBody byte), 0x20 ≤ byte c) ∧
        (∀ c ∈ (rest.dropWhile (isCsiBody byte)).head?, byte c ≤ 0x7E) →
      behindEnd byte (isParameter byte) 0x40 rest = some (behindFinal byte rest)) ∧
    (¬ ((∀ c ∈ rest.takeWhile (isCsiBody byte), 0x20 ≤ byte c) ∧
        ∀ c ∈ (rest.dropWhile (isCsiBody byte)).head?, byte c ≤ 0x7E) →
      behindEnd byte (isParameter byte) 0x40 rest = none) := by
  induction rest with
  | nil => exact ⟨fun _ => rfl, fun h => absurd ⟨nofun, nofun⟩ h⟩
  | cons c rest ih =>
      by_cases hbody : byte c < 0x40
      · have hin : isCsiBody byte c = true := decide_eq_true hbody
        simp only [behindFinal, behindEnd] at ih ⊢
        rw [List.takeWhile_cons_of_pos hin, List.dropWhile_cons_of_pos hin]
        by_cases hlow : 0x20 ≤ byte c
        · have hparam : isParameter byte c = true := decide_eq_true (by omega)
          rw [List.dropWhile_cons_of_pos hparam, List.forall_mem_cons]
          simpa only [hlow, true_and] using ih
        · have hparam : ¬ isParameter byte c = true := by
            simpa [isParameter] using fun h => absurd h hlow
          rw [List.dropWhile_cons_of_neg hparam, List.forall_mem_cons]
          refine ⟨fun h => absurd h.1.1 hlow, fun _ => if_neg ?_⟩
          omega
      · have hin : ¬ isCsiBody byte c = true := by simpa [isCsiBody] using hbody
        have hparam : ¬ isParameter byte c = true := by
          simp only [isParameter, decide_eq_true_eq]
          omega
        simp only [behindFinal, behindEnd]
        rw [List.takeWhile_cons_of_neg hin, List.dropWhile_cons_of_neg hin,
          List.dropWhile_cons_of_neg hparam]
        refine ⟨fun h => if_pos ⟨by omega, h.2 c rfl⟩, fun h => if_neg fun hfinal => h ⟨nofun, ?_⟩⟩
        rintro d hd
        cases hd
        exact hfinal.2

theorem behindEscape_bracket {d : α} (hd : byte d = 0x5B) (rest : List α) :
    behindEscape byte (d :: rest) = behindEnd byte (isParameter byte) 0x40 rest := by
  rw [behindEscape, if_pos hd]

theorem behindEscape_string {d : α} (hd : beginsString byte d = true) (rest : List α) :
    behindEscape byte (d :: rest) = some (rest.dropWhile (isStringByte byte)) := by
  have hne := (beginsString_range hd).2.2
  rw [behindEscape, if_neg hne, if_pos hd]

theorem behindEscape_other {d : α} (hd : byte d ≠ 0x5B) (hstring : ¬ beginsString byte d = true)
    (rest : List α) :
    behindEscape byte (d :: rest) = behindEnd byte (isIntermediate byte) 0x30 (d :: rest) := by
  rw [behindEscape, if_neg hd, if_neg hstring]

/-- No intermediate: the byte ends the sequence or there is none. -/
theorem behindEnd_of_not_intermediate {d : α} (hd : ¬ isIntermediate byte d = true)
    (rest : List α) :
    behindEnd byte (isIntermediate byte) 0x30 (d :: rest) =
      if 0x30 ≤ byte d ∧ byte d ≤ 0x7E then some rest else none := by
  rw [behindEnd, List.dropWhile_cons_of_neg hd]

theorem isControl_eq_false {c : α} (h : 0x20 ≤ byte c) (hne : byte c ≠ 0x7F) :
    isControl byte c = false := decide_eq_false (by omega)

theorem not_intermediate {c : α} (h : ¬ isIntermediate byte c = true) :
    ¬ (0x20 ≤ byte c ∧ byte c ≤ 0x2F) := fun hrange => h (decide_eq_true hrange)

/-- A byte of a string is no ESC. -/
theorem ne_escape_of_mem {rest : List α} {c : α} (h : c ∈ rest.takeWhile (isStringByte byte)) :
    byte c ≠ 0x1B := by
  have hinside := List.mem_takeWhile_imp h
  exact (of_decide_eq_true hinside).2

theorem textOf_of_selectorRight {d : α} {rest : List α} (hd : byte d ≠ 0x5B)
    (h : SelectorRight byte d rest) :
    textOf byte ((behindEscape byte (d :: rest)).getD (d :: rest)) = textOf byte rest := by
  unfold SelectorRight at h
  split at h
  · -- a string of nothing but control bytes
    rename_i hstring
    rw [behindEscape_string hstring, Option.getD_some]
    conv_rhs => rw [← List.takeWhile_append_dropWhile (p := isStringByte byte) (l := rest)]
    refine (textOf_controls_append ?_ _).symm
    exact fun c hc => ⟨decide_eq_true (.inl (h c hc)), ne_escape_of_mem hc⟩
  · rename_i hstring
    rw [behindEscape_other hd hstring]
    split at h
    · -- an intermediate the text ends behind
      rename_i hinter
      rw [h, behindEnd, List.dropWhile_cons_of_pos hinter]
      rfl
    · rename_i hinter
      have hrange := not_intermediate hinter
      rw [behindEnd_of_not_intermediate hinter]
      by_cases hfinal : 0x30 ≤ byte d ∧ byte d ≤ 0x7E
      · rw [if_pos hfinal]
        rfl
      · rw [if_neg hfinal, Option.getD_none]
        split at h
        · -- two ESCs that begin no sequence
          rename_i hesc
          rw [textOf_escape hesc]
          rcases h with rfl | hnone
          · rfl
          · rw [hnone]
            rfl
        · rename_i hesc
          exact textOf_control (decide_eq_true (by omega)) hesc rest

/-- Behind a piece the scan has right, text is text to both. -/
theorem textOf_of_readRight (c : α) (rest : List α)
    (h : (nextPiece byte c rest).1.ReadRight byte (nextPiece byte c rest).2) :
    textOf byte (c :: rest) =
      (nextPiece byte c rest).1.kept.toList ++ textOf byte (nextPiece byte c rest).2 := by
  by_cases hesc : byte c = 0x1B
  · rw [textOf_escape hesc]
    cases rest with
    | nil =>
        rw [nextPiece_alone hesc]
        rfl
    | cons d rest =>
        by_cases hd : byte d = 0x5B
        · rw [nextPiece_csi hesc hd] at h ⊢
          rw [behindEscape_bracket hd, (behindEnd_csi rest).1 h]
          rfl
        · rw [nextPiece_escape hesc hd] at h ⊢
          exact textOf_of_selectorRight hd h
  · by_cases hc : 0x20 ≤ byte c
    · rw [nextPiece_text hc] at h ⊢
      exact textOf_text (isControl_eq_false hc h) rest
    · rw [nextPiece_control (not_le.mp hc) hesc]
      exact textOf_control (decide_eq_true (.inl (not_le.mp hc))) hesc rest

/-- The loop over bytes none of which is ESC. -/
theorem outputLoop_append {front : List α} (h : ∀ c ∈ front, byte c ≠ 0x1B) (rest : List α) :
    outputLoop byte (front ++ rest) =
      front.filter (fun c => decide (0x20 ≤ byte c)) ++ outputLoop byte rest := by
  induction front with
  | nil => rfl
  | cons c front ih =>
      have ih := ih fun d hd => h d (List.mem_cons_of_mem _ hd)
      have hesc := h c List.mem_cons_self
      rw [List.cons_append, outputLoop_cons]
      by_cases hc : 0x20 ≤ byte c
      · rw [nextPiece_text hc, List.filter_cons, if_pos (decide_eq_true hc), ih]
        rfl
      · rw [nextPiece_control (not_le.mp hc) hesc, List.filter_cons, if_neg (by simpa using hc), ih]
        rfl

/-- One of two texts begins with a byte that is not in the other. -/
def Differs (l m : List α) : Prop :=
  (∃ x l', l = x :: l' ∧ x ∉ m) ∨ ∃ x m', m = x :: m' ∧ x ∉ l

theorem Differs.take_ne {l m : List α} (h : Differs l m) {n : Nat} (hn : 0 < n) :
    l.take n ≠ m.take n := by
  obtain ⟨n, rfl⟩ := Nat.exists_eq_succ_of_ne_zero hn.ne'
  intro heq
  rcases h with ⟨x, l', rfl, hx⟩ | ⟨x, m', rfl, hx⟩
  · have hmem : x ∈ (x :: l').take (n + 1) := List.mem_cons_self
    rw [heq] at hmem
    exact hx (List.mem_of_mem_take hmem)
  · have hmem : x ∈ (x :: m').take (n + 1) := List.mem_cons_self
    rw [← heq] at hmem
    exact hx (List.mem_of_mem_take hmem)

/-- A byte that the loop keeps first, and that is consumed by a sequence. -/
theorem differs_of_kept {c : α} {rest behind text : List α} (hc : 0x20 ≤ byte c)
    (hnodup : (c :: rest).Nodup) (hbehind : behind <:+ rest)
    (htext : text = textOf byte behind) : Differs (outputLoop byte (c :: rest)) text := by
  refine .inl ⟨c, outputLoop byte rest, ?_, ?_⟩
  · rw [outputLoop_cons, nextPiece_text hc]
    rfl
  · intro hmem
    rw [htext] at hmem
    exact (List.nodup_cons.mp hnodup).1 (hbehind.subset ((textOf_sublist byte behind).subset hmem))

/-- A byte that is text, and that the loop drops. -/
theorem differs_of_dropped {d : α} {rest rest' : List α} (hd : isControl byte d = false)
    (hnodup : (d :: rest).Nodup) (hrest : rest' ⊆ rest) :
    Differs (outputLoop byte rest') (textOf byte (d :: rest)) := by
  refine .inr ⟨d, textOf byte rest, textOf_text hd rest, ?_⟩
  intro hmem
  exact (List.nodup_cons.mp hnodup).1 (hrest (outputLoop_subset byte rest' hmem))

theorem differs_of_selector {d : α} {rest : List α} (hd : byte d ≠ 0x5B)
    (hnodup : (d :: rest).Nodup) (h : ¬ SelectorRight byte d rest) :
    Differs (outputLoop byte rest)
      (textOf byte ((behindEscape byte (d :: rest)).getD (d :: rest))) := by
  have hrest : rest.Nodup := (List.nodup_cons.mp hnodup).2
  unfold SelectorRight at h
  split at h
  · -- a byte of a string
    rename_i hstring
    rw [behindEscape_string hstring, Option.getD_some]
    have hsplit := List.takeWhile_append_dropWhile (p := isStringByte byte) (l := rest)
    generalize hbody : rest.takeWhile (isStringByte byte) = body at h hsplit
    have hesc : ∀ c ∈ body, byte c ≠ 0x1B := fun c hc => ne_escape_of_mem (hbody.symm ▸ hc)
    cases hkept : body.filter (fun c => decide (0x20 ≤ byte c)) with
    | nil =>
        refine absurd (fun c hc => not_le.mp fun hle => ?_) h
        exact List.filter_eq_nil_iff.mp hkept c hc (decide_eq_true hle)
    | cons x kept =>
        have hx : x ∈ body := List.mem_of_mem_filter (hkept ▸ List.mem_cons_self)
        refine .inl ⟨x, kept ++ outputLoop byte (rest.dropWhile (isStringByte byte)), ?_, ?_⟩
        · conv_lhs => rw [← hsplit]
          rw [outputLoop_append hesc, hkept, List.cons_append]
        · intro hmem
          rw [← hsplit] at hrest
          exact (List.nodup_append.mp hrest).2.2 x hx x ((textOf_sublist byte _).subset hmem) rfl
  · rename_i hstring
    rw [behindEscape_other hd hstring]
    split at h
    · -- an intermediate that is taken for a final byte
      rename_i hinter
      have hrange : 0x20 ≤ byte d ∧ byte d ≤ 0x2F := of_decide_eq_true hinter
      cases hbehind : behindEnd byte (isIntermediate byte) 0x30 (d :: rest) with
      | none =>
          exact differs_of_dropped (isControl_eq_false hrange.1 (by omega)) hnodup
            (List.Subset.refl rest)
      | some behind =>
          cases rest with
          | nil => exact absurd rfl h
          | cons f rest =>
              rw [behindEnd, List.dropWhile_cons_of_pos hinter, ← behindEnd] at hbehind
              obtain ⟨hsuffix, hf, -⟩ := behindEnd_intermediates hbehind
              exact differs_of_kept hf hrest hsuffix rfl
    · rename_i hinter
      rw [behindEnd_of_not_intermediate hinter]
      split at h
      · -- the ESC of a sequence that is taken for a final byte
        rename_i hesc
        rw [if_neg (by omega), Option.getD_none, textOf_escape hesc]
        obtain ⟨hne, hsome⟩ := not_or.mp h
        obtain ⟨behind, hbehind⟩ := Option.ne_none_iff_exists'.mp hsome
        cases rest with
        | nil => exact absurd rfl hne
        | cons f rest =>
            obtain ⟨hsuffix, hf, -⟩ := behindEscape_cons hbehind
            rw [hbehind]
            exact differs_of_kept hf hrest hsuffix rfl
      · -- a byte of a character beyond ASCII
        rw [if_neg (by omega), Option.getD_none]
        exact differs_of_dropped (isControl_eq_false (by omega) (by omega)) hnodup
          (List.Subset.refl rest)

/-- At a piece that is misread the scan and the text part. -/
theorem differs_of_misread (c : α) (rest : List α) (hnodup : (c :: rest).Nodup)
    (h : ¬ (nextPiece byte c rest).1.ReadRight byte (nextPiece byte c rest).2) :
    Differs (outputLoop byte (c :: rest)) (textOf byte (c :: rest)) := by
  have hrest : rest.Nodup := (List.nodup_cons.mp hnodup).2
  by_cases hesc : byte c = 0x1B
  · rw [textOf_escape hesc]
    cases rest with
    | nil =>
        rw [nextPiece_alone hesc] at h
        exact absurd trivial h
    | cons d rest =>
        by_cases hd : byte d = 0x5B
        · rw [nextPiece_csi hesc hd] at h
          rw [behindEscape_bracket hd, (behindEnd_csi rest).2 h, Option.getD_none, outputLoop_cons,
            nextPiece_csi hesc hd]
          refine differs_of_dropped (isControl_eq_false (by omega) (by omega)) hrest ?_
          exact List.Subset.trans (List.drop_subset _ _) (List.dropWhile_subset _)
        · rw [outputLoop_cons, nextPiece_escape hesc hd]
          rw [nextPiece_escape hesc hd] at h
          exact differs_of_selector hd hrest h
  · by_cases hc : 0x20 ≤ byte c
    · rw [nextPiece_text hc] at h
      have hdel : byte c = 0x7F := not_not.mp h
      exact differs_of_kept hc hnodup (List.suffix_refl rest)
        (textOf_control (decide_eq_true (.inr hdel)) hesc rest)
    · rw [nextPiece_control (not_le.mp hc) hesc] at h
      exact absurd trivial h

/-! ## A text -/

theorem misread_cons {n : Nat} (c : α) (rest : List α) :
    Misread byte n (c :: rest) ↔
      0 < n ∧ ¬ (nextPiece byte c rest).1.ReadRight byte (nextPiece byte c rest).2 ∨
        Misread byte (n - (nextPiece byte c rest).1.kept.toList.length)
          (nextPiece byte c rest).2 := by
  unfold Misread
  rw [pieces_cons]
  generalize nextPiece byte c rest = next
  constructor
  · rintro ⟨ps, p, qs, hsplit, hlen, hwrong⟩
    cases ps with
    | nil =>
        obtain ⟨rfl, rfl⟩ := List.cons.inj hsplit
        rw [bytesOf_pieces] at hwrong
        exact .inl ⟨hlen, hwrong⟩
    | cons q ps =>
        obtain ⟨rfl, hrest⟩ := List.cons.inj hsplit
        rw [keptOf_cons, List.length_append] at hlen
        exact .inr ⟨ps, p, qs, hrest, by omega, hwrong⟩
  · rintro (⟨hn, hwrong⟩ | ⟨ps, p, qs, hsplit, hlen, hwrong⟩)
    · exact ⟨[], next.1, pieces byte next.2, rfl, hn, by rwa [bytesOf_pieces]⟩
    · refine ⟨next.1 :: ps, p, qs, by rw [hsplit, List.cons_append], ?_, hwrong⟩
      rw [keptOf_cons, List.length_append]
      omega

/-- **What the scan has right.** The first `n` bytes it keeps are the first `n` of the text
exactly if no piece before them is misread. -/
theorem take_outputLoop_eq_iff {text : List α} (hnodup : text.Nodup) (n : Nat) :
    (outputLoop byte text).take n = (textOf byte text).take n ↔ ¬ Misread byte n text := by
  induction text using pieces_induction byte generalizing n with
  | hnil =>
      refine iff_of_true (by rw [outputLoop, textOf_nil]) ?_
      rintro ⟨ps, p, qs, hsplit, -⟩
      rw [pieces_nil] at hsplit
      cases ps <;> cases hsplit
  | hcons c rest ih =>
      have hbehind : (nextPiece byte c rest).2.Nodup := by
        rw [← nextPiece_bytes byte c rest] at hnodup
        exact (List.nodup_append.mp hnodup).2.1
      rw [misread_cons]
      by_cases hright : (nextPiece byte c rest).1.ReadRight byte (nextPiece byte c rest).2
      · rw [outputLoop_cons, textOf_of_readRight c rest hright, List.take_append, List.take_append,
          List.append_right_inj, ih hbehind]
        simp [hright]
      · by_cases hn : 0 < n
        · exact iff_of_false ((differs_of_misread c rest hnodup hright).take_ne hn)
            (not_not.mpr (.inl ⟨hn, hright⟩))
        · obtain rfl : n = 0 := by omega
          refine iff_of_true (by rw [List.take_zero, List.take_zero]) ?_
          rintro (⟨h, -⟩ | ⟨ps, p, qs, -, hlen, -⟩)
          · exact hn h
          · omega

end Pieces

/-! ## Marks change nothing -/

section Map

variable {α β : Type*} {byte : β → Nat} (f : α → β)

theorem selectorRight_map (d : α) (rest : List α) :
    SelectorRight byte (f d) (rest.map f) ↔ SelectorRight (byte ∘ f) d rest := by
  have hstring : isStringByte byte ∘ f = isStringByte (byte ∘ f) := rfl
  have hbegins : beginsString byte (f d) = beginsString (byte ∘ f) d := rfl
  have hinter : isIntermediate byte (f d) = isIntermediate (byte ∘ f) d := rfl
  simp only [SelectorRight, hbegins, hinter, List.takeWhile_map, hstring, List.forall_mem_map,
    List.map_eq_nil_iff, behindEscape_map, Option.map_eq_none_iff, Function.comp_apply]

theorem ScanPiece.readRight_map (p : ScanPiece α) (rest : List α) :
    (p.map f).ReadRight byte (rest.map f) ↔ p.ReadRight (byte ∘ f) rest := by
  cases p with
  | text c => exact Iff.rfl
  | control c => exact Iff.rfl
  | escape esc selector =>
      cases selector with
      | none => exact Iff.rfl
      | some d => exact selectorRight_map f d rest
  | csi esc bracket body final =>
      cases final <;> simp [ScanPiece.map, ScanPiece.ReadRight]

theorem misread_map (n : Nat) (text : List α) :
    Misread byte n (text.map f) ↔ Misread (byte ∘ f) n text := by
  unfold Misread
  rw [pieces_map]
  constructor
  · rintro ⟨ps, p, qs, hsplit, hlen, hwrong⟩
    obtain ⟨ps, rest, heq, rfl, hrest⟩ := List.map_eq_append_iff.mp hsplit
    obtain ⟨p, qs, rfl, rfl, rfl⟩ := List.map_eq_cons_iff.mp hrest
    rw [keptOf_map, List.length_map] at hlen
    rw [bytesOf_map, p.readRight_map] at hwrong
    exact ⟨ps, p, qs, heq, hlen, hwrong⟩
  · rintro ⟨ps, p, qs, heq, hlen, hwrong⟩
    refine ⟨ps.map (ScanPiece.map f), p.map f, qs.map (ScanPiece.map f), ?_, ?_, ?_⟩
    · rw [heq, List.map_append, List.map_cons]
    · rwa [keptOf_map, List.length_map]
    · rwa [bytesOf_map, p.readRight_map]

end Map

end Heapviz
