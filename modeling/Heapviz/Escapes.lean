import Mathlib.Data.List.Basic

/-!
# Escape sequences in a text

What a terminal takes for a sequence and not for text, as ECMA-48 has it:

- a CSI: ESC, a bracket, parameters and intermediates, a final byte;
- a string: ESC, one of `] P X ^ _`, and all up to BEL or the next ESC, which
  begins the terminator;
- any other: ESC, intermediates, a final byte.

A sequence the text ends in the middle of is cut off there. ESC with anything
else behind it begins none and is a control byte. `textOf` is what is left when
sequences and control bytes are gone. It reads records that carry a byte.
-/

namespace Heapviz

section Escapes

variable {α : Type*} (byte : α → Nat)

def isControl (c : α) : Bool := decide (byte c < 0x20 ∨ byte c = 0x7F)

/-- A parameter or intermediate of a CSI. -/
def isParameter (c : α) : Bool := decide (0x20 ≤ byte c ∧ byte c ≤ 0x3F)

def isIntermediate (c : α) : Bool := decide (0x20 ≤ byte c ∧ byte c ≤ 0x2F)

/-- The byte behind ESC that begins a string: OSC, DCS, SOS, PM or APC. -/
def beginsString (c : α) : Bool := decide (byte c ∈ [0x5D, 0x50, 0x58, 0x5E, 0x5F])

/-- A byte of a string, not the BEL or ESC that ends it. -/
def isStringByte (c : α) : Bool := decide (byte c ≠ 0x07 ∧ byte c ≠ 0x1B)

/-- Behind what is `inside` a sequence and the final byte, from `low` on, that ends it; none
if another byte stands there. -/
def behindEnd (inside : α → Bool) (low : Nat) (text : List α) : Option (List α) :=
  match text.dropWhile inside with
  | [] => some []
  | final :: rest => if low ≤ byte final ∧ byte final ≤ 0x7E then some rest else none

/-- Behind the sequence whose ESC stands before the text; none if that begins none. -/
def behindEscape : List α → Option (List α)
  | [] => some []
  | c :: rest =>
      if byte c = 0x5B then behindEnd byte (isParameter byte) 0x40 rest
      else if beginsString byte c then some (rest.dropWhile (isStringByte byte))
      else behindEnd byte (isIntermediate byte) 0x30 (c :: rest)

variable {byte}

theorem behindEnd_suffix {inside : α → Bool} {low : Nat} {text behind : List α}
    (h : behindEnd byte inside low text = some behind) : behind <:+ text := by
  unfold behindEnd at h
  have hdrop := List.dropWhile_suffix (l := text) inside
  split at h
  · cases h
    exact List.nil_suffix
  · rename_i final rest heq
    rw [heq] at hdrop
    split at h
    · cases h
      exact (List.suffix_cons final _).trans hdrop
    · cases h

theorem behindEscape_suffix {text behind : List α} (h : behindEscape byte text = some behind) :
    behind <:+ text := by
  cases text with
  | nil =>
      cases h
      exact List.nil_suffix
  | cons c rest =>
      simp only [behindEscape] at h
      split at h
      · exact (behindEnd_suffix h).trans (List.suffix_cons c rest)
      · split at h
        · cases h
          exact (List.dropWhile_suffix _).trans (List.suffix_cons c _)
        · exact behindEnd_suffix h

theorem behindEnd_intermediates {c : α} {rest behind : List α}
    (h : behindEnd byte (isIntermediate byte) 0x30 (c :: rest) = some behind) :
    behind <:+ rest ∧ 0x20 ≤ byte c ∧ byte c ≤ 0x7E := by
  unfold behindEnd at h
  by_cases hinside : isIntermediate byte c = true
  · have hrange : 0x20 ≤ byte c ∧ byte c ≤ 0x2F := of_decide_eq_true hinside
    rw [List.dropWhile_cons_of_pos hinside] at h
    exact ⟨@behindEnd_suffix _ byte (isIntermediate byte) 0x30 rest behind h, hrange.1, by omega⟩
  · rw [List.dropWhile_cons_of_neg hinside] at h
    dsimp only at h
    split at h
    · rename_i hfinal
      cases h
      exact ⟨List.suffix_refl _, by omega, hfinal.2⟩
    · cases h

theorem beginsString_range {c : α} (h : beginsString byte c = true) :
    0x50 ≤ byte c ∧ byte c ≤ 0x5F ∧ byte c ≠ 0x5B := by
  have hmem : byte c ∈ [0x5D, 0x50, 0x58, 0x5E, 0x5F] := of_decide_eq_true h
  simp only [List.mem_cons, List.not_mem_nil, or_false] at hmem
  omega

/-- A sequence takes the byte behind its ESC, and this is no control byte. -/
theorem behindEscape_cons {c : α} {rest behind : List α}
    (h : behindEscape byte (c :: rest) = some behind) :
    behind <:+ rest ∧ 0x20 ≤ byte c ∧ byte c ≤ 0x7E := by
  simp only [behindEscape] at h
  split at h
  · rename_i hbracket
    exact ⟨behindEnd_suffix h, by omega, by omega⟩
  · split at h
    · rename_i hstring
      have hrange := beginsString_range hstring
      cases h
      exact ⟨List.dropWhile_suffix _, by omega, by omega⟩
    · exact behindEnd_intermediates h

variable (byte)

/-- A text without escape sequences and control bytes. -/
def textOf : List α → List α
  | [] => []
  | c :: rest =>
      if byte c = 0x1B then
        match _h : behindEscape byte rest with
        | some behind => textOf behind
        | none => textOf rest
      else if isControl byte c then textOf rest
      else c :: textOf rest
termination_by text => text.length
decreasing_by
  · have hle := (behindEscape_suffix _h).length_le
    rw [List.length_cons]
    omega
  all_goals exact Nat.lt_succ_self _

variable {byte}

@[simp]
theorem textOf_nil : textOf byte [] = [] := by rw [textOf]

theorem textOf_escape {c : α} (hc : byte c = 0x1B) (rest : List α) :
    textOf byte (c :: rest) = textOf byte ((behindEscape byte rest).getD rest) := by
  rw [textOf, if_pos hc]
  split <;> rename_i h <;> rw [h] <;> rfl

theorem textOf_control {c : α} (hc : isControl byte c = true) (hne : byte c ≠ 0x1B)
    (rest : List α) : textOf byte (c :: rest) = textOf byte rest := by
  rw [textOf, if_neg hne, if_pos hc]

theorem textOf_text {c : α} (hc : isControl byte c = false) (rest : List α) :
    textOf byte (c :: rest) = c :: textOf byte rest := by
  have hne : byte c ≠ 0x1B := by
    intro hesc
    rw [isControl, hesc] at hc
    cases hc
  rw [textOf, if_neg hne, if_neg (by rw [hc]; exact Bool.false_ne_true)]

variable (byte) in
theorem textOf_sublist (text : List α) : (textOf byte text).Sublist text := by
  induction text using textOf.induct byte with
  | case1 => rw [textOf_nil]
  | case2 c rest hesc behind hbehind ih =>
      rw [textOf_escape hesc, hbehind]
      exact (ih.trans (behindEscape_suffix hbehind).sublist).cons c
  | case3 c rest hesc hnone ih =>
      rw [textOf_escape hesc, hnone]
      exact ih.cons c
  | case4 c rest hesc hc ih =>
      rw [textOf_control hc hesc]
      exact ih.cons c
  | case5 c rest hesc hc ih =>
      rw [textOf_text (Bool.eq_false_iff.mpr hc)]
      exact ih.cons_cons c

/-- Control bytes before a text show nothing. -/
theorem textOf_controls_append {controls : List α}
    (h : ∀ c ∈ controls, isControl byte c = true ∧ byte c ≠ 0x1B) (text : List α) :
    textOf byte (controls ++ text) = textOf byte text := by
  induction controls with
  | nil => rfl
  | cons c controls ih =>
      obtain ⟨hc, hne⟩ := h c List.mem_cons_self
      rw [List.cons_append, textOf_control hc hne]
      exact ih fun d hd => h d (List.mem_cons_of_mem _ hd)

end Escapes

/-! ## Reading marks no text -/

section Map

variable {α β : Type*} {byte : β → Nat} (f : α → β)

theorem behindEnd_map (inside : β → Bool) (low : Nat) (text : List α) :
    behindEnd byte inside low (text.map f) =
      (behindEnd (byte ∘ f) (inside ∘ f) low text).map (List.map f) := by
  unfold behindEnd
  rw [List.dropWhile_map]
  cases text.dropWhile (inside ∘ f) with
  | nil => rfl
  | cons final rest =>
      rw [List.map_cons]
      dsimp only [Function.comp_apply]
      by_cases hfinal : low ≤ byte (f final) ∧ byte (f final) ≤ 0x7E
      · rw [if_pos hfinal, if_pos hfinal]
        rfl
      · rw [if_neg hfinal, if_neg hfinal]
        rfl

theorem behindEscape_map (text : List α) :
    behindEscape byte (text.map f) = (behindEscape (byte ∘ f) text).map (List.map f) := by
  cases text with
  | nil => rfl
  | cons c rest =>
      simp only [behindEscape, List.map_cons, Function.comp_apply]
      split
      · exact behindEnd_map f (isParameter byte) 0x40 rest
      · split
        · rename_i hstring
          rw [if_pos (show beginsString (byte ∘ f) c = true from hstring), List.dropWhile_map]
          rfl
        · rename_i hstring
          rw [if_neg (show ¬ beginsString (byte ∘ f) c = true from hstring)]
          exact behindEnd_map f (isIntermediate byte) 0x30 (c :: rest)

theorem textOf_map (text : List α) :
    textOf byte (text.map f) = (textOf (byte ∘ f) text).map f := by
  induction text using textOf.induct (byte ∘ f) with
  | case1 => rw [List.map_nil, textOf_nil, textOf_nil, List.map_nil]
  | case2 c rest hesc behind hbehind ih =>
      rw [List.map_cons, @textOf_escape β byte _ hesc, textOf_escape hesc, behindEscape_map,
        hbehind]
      exact ih
  | case3 c rest hesc hnone ih =>
      rw [List.map_cons, @textOf_escape β byte _ hesc, textOf_escape hesc, behindEscape_map,
        hnone]
      exact ih
  | case4 c rest hesc hc ih =>
      rw [List.map_cons, @textOf_control β byte _ hc hesc, textOf_control hc hesc, ih]
  | case5 c rest hesc hc ih =>
      have hc' : isControl (byte ∘ f) c = false := Bool.eq_false_iff.mpr hc
      rw [List.map_cons, @textOf_text β byte _ hc', textOf_text hc', ih, List.map_cons]

end Map

end Heapviz
