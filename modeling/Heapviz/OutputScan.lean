import Mathlib.Data.List.DropRight
import Mathlib.Data.List.Flatten

/-!
# Escape sequences out of a line

The scan of `last_output_line` (`tui/session.cpp`): the tail of a log, cut at
4096 bytes, without the line ends behind it, from the last newline on, with
escape sequences and control bytes taken out and the rest cut at 200 bytes.

The functions read records that carry a byte, so that a log can be read with
a mark on some of its bytes, and what is left of these can be asked of the
result. `ScanPiece` is what the scan consumes in one go, and `pieces` the way it
cuts a line.

- `outputLoop_eq`: what is kept are the text pieces.
- `pieces_cover`, `pieces_suffix`: every place of a line lies in one piece,
  and the pieces behind it are those of the rest.
- `pieces_map`: marks change nothing.
- `CsiParts.pieces`, `CsiParts.residue`: what becomes of a complete CSI
  sequence, met at its ESC or inside another piece.
-/

namespace Heapviz

/-! ## The function -/

def kMaxOutputLine : Nat := 200

/-- `kTail`. -/
def kTail : Nat := 4096

section Source

variable {α : Type*} (byte : α → Nat)

/-- What is read of the log. -/
def outputTail (log : List α) : List α := log.drop (log.length - kTail)

/-- A line end, as it is taken off the tail. -/
def isLineEnd (c : α) : Bool := byte c == 0x0A || byte c == 0x0D

def isNotNewline (c : α) : Bool := byte c != 0x0A

/-- The tail without the line ends behind it. -/
def trimmedTail (log : List α) : List α := (outputTail log).rdropWhile (isLineEnd byte)

/-- The last line of the trimmed tail. -/
def outputLine (log : List α) : List α := (trimmedTail byte log).rtakeWhile (isNotNewline byte)

/-- What the log holds before the tail. -/
def beforeTail (log : List α) : List α := log.take (log.length - kTail)

/-- The lines of the tail before the quoted one. -/
def beforeLine (log : List α) : List α := (trimmedTail byte log).rdropWhile (isNotNewline byte)

/-- The line ends taken off the tail. -/
def lineEnds (log : List α) : List α := (outputTail log).rtakeWhile (isLineEnd byte)

def isCsiBody (c : α) : Bool := decide (byte c < 0x40)

/-- What stands behind the first byte of a CSI that ends it. -/
def behindFinal (body : List α) : List α := (body.dropWhile (isCsiBody byte)).drop 1

/-- The loop that takes out escape sequences and control bytes. -/
def outputLoop : List α → List α
  | [] => []
  | c :: rest =>
      if byte c = 0x1B then
        match rest with
        | [] => []
        | d :: rest' =>
            if byte d = 0x5B then outputLoop (behindFinal byte rest') else outputLoop rest'
      else if 0x20 ≤ byte c then c :: outputLoop rest
      else outputLoop rest
termination_by text => text.length
decreasing_by
  · have hle := (rest'.dropWhile_sublist (isCsiBody byte)).length_le
    simp only [behindFinal, List.length_drop, List.length_cons]
    omega
  all_goals
    simp only [List.length_cons]
    omega

def lastOutputLineOf (log : List α) : List α :=
  (outputLoop byte (outputLine byte log)).take kMaxOutputLine

end Source

/-- `last_output_line`; none where the path is empty or the file does not open. -/
def lastOutputLine : Option (List Nat) → List Nat
  | none => []
  | some log => lastOutputLineOf id log

/-! ## Pieces -/

/-- What the scan takes in one go: a byte it keeps, a control byte, ESC with the byte
behind it, or a CSI up to the byte that ends it. -/
inductive ScanPiece (α : Type*) where
  | text (c : α)
  | control (c : α)
  | escape (esc : α) (selector : Option α)
  | csi (esc bracket : α) (body : List α) (final : Option α)
deriving Repr, DecidableEq

section Pieces

variable {α : Type*} (byte : α → Nat)

def ScanPiece.bytes : ScanPiece α → List α
  | .text c => [c]
  | .control c => [c]
  | .escape esc selector => esc :: selector.toList
  | .csi esc bracket body final => esc :: bracket :: (body ++ final.toList)

def ScanPiece.kept : ScanPiece α → Option α
  | .text c => some c
  | .control _ | .escape _ _ | .csi _ _ _ _ => none

def bytesOf (ps : List (ScanPiece α)) : List α := ps.flatMap ScanPiece.bytes

def keptOf (ps : List (ScanPiece α)) : List α := ps.filterMap ScanPiece.kept

/-- The piece a text begins with, and the text behind it. -/
def nextPiece (c : α) (rest : List α) : ScanPiece α × List α :=
  if byte c = 0x1B then
    match rest with
    | [] => (.escape c none, [])
    | d :: rest' =>
        if byte d = 0x5B then
          (.csi c d (rest'.takeWhile (isCsiBody byte)) (rest'.dropWhile (isCsiBody byte)).head?,
            behindFinal byte rest')
        else (.escape c (some d), rest')
  else if 0x20 ≤ byte c then (.text c, rest)
  else (.control c, rest)

variable {byte}

theorem nextPiece_alone {c : α} (hc : byte c = 0x1B) :
    nextPiece byte c [] = (.escape c none, []) := by rw [nextPiece.eq_def, if_pos hc]

theorem nextPiece_csi {c d : α} (hc : byte c = 0x1B) (hd : byte d = 0x5B) (rest : List α) :
    nextPiece byte c (d :: rest) =
      (.csi c d (rest.takeWhile (isCsiBody byte)) (rest.dropWhile (isCsiBody byte)).head?,
        behindFinal byte rest) := by
  rw [nextPiece.eq_def, if_pos hc]
  dsimp only
  rw [if_pos hd]

theorem nextPiece_escape {c d : α} (hc : byte c = 0x1B) (hd : byte d ≠ 0x5B) (rest : List α) :
    nextPiece byte c (d :: rest) = (.escape c (some d), rest) := by
  rw [nextPiece.eq_def, if_pos hc]
  dsimp only
  rw [if_neg hd]

theorem nextPiece_text {c : α} (hc : 0x20 ≤ byte c) (rest : List α) :
    nextPiece byte c rest = (.text c, rest) := by
  rw [nextPiece.eq_def, if_neg (by omega), if_pos hc]

theorem nextPiece_control {c : α} (hc : byte c < 0x20) (hne : byte c ≠ 0x1B) (rest : List α) :
    nextPiece byte c rest = (.control c, rest) := by
  rw [nextPiece.eq_def, if_neg hne, if_neg (by omega)]

theorem ScanPiece.bytes_pos (p : ScanPiece α) : 0 < p.bytes.length := by
  cases p <;> exact Nat.succ_pos _

variable (byte) in
theorem body_append_final (text : List α) :
    text.takeWhile (isCsiBody byte) ++ (text.dropWhile (isCsiBody byte)).head?.toList ++
      behindFinal byte text = text := by
  conv_rhs => rw [← List.takeWhile_append_dropWhile (p := isCsiBody byte) (l := text)]
  rw [List.append_assoc, behindFinal]
  cases text.dropWhile (isCsiBody byte) <;> rfl

variable (byte) in
theorem nextPiece_bytes (c : α) (rest : List α) :
    (nextPiece byte c rest).1.bytes ++ (nextPiece byte c rest).2 = c :: rest := by
  unfold nextPiece
  split
  · cases rest with
    | nil => rfl
    | cons d rest' =>
        dsimp only
        split
        · exact congrArg (c :: d :: ·) (body_append_final byte rest')
        · rfl
  · split <;> rfl

variable (byte) in
theorem length_nextPiece_lt (c : α) (rest : List α) :
    (nextPiece byte c rest).2.length < (c :: rest).length := by
  have hlen := congrArg List.length (nextPiece_bytes byte c rest)
  have hpos := (nextPiece byte c rest).1.bytes_pos
  rw [List.length_append] at hlen
  omega

variable (byte)

/-- How the scan cuts a text. -/
def pieces : List α → List (ScanPiece α)
  | [] => []
  | c :: rest => (nextPiece byte c rest).1 :: pieces (nextPiece byte c rest).2
termination_by text => text.length
decreasing_by exact length_nextPiece_lt byte c rest

variable {byte}

@[simp]
theorem pieces_nil : pieces byte [] = [] := by rw [pieces]

theorem pieces_cons (c : α) (rest : List α) :
    pieces byte (c :: rest) =
      (nextPiece byte c rest).1 :: pieces byte (nextPiece byte c rest).2 := by rw [pieces]

variable (byte) in
/-- The induction behind what is said of the scan: a text is its first piece and the rest. -/
theorem pieces_induction {motive : List α → Prop} (hnil : motive [])
    (hcons : ∀ c rest, motive (nextPiece byte c rest).2 → motive (c :: rest)) (text : List α) :
    motive text := by
  induction hlen : text.length using Nat.strong_induction_on generalizing text with
  | _ n ih =>
      cases text with
      | nil => exact hnil
      | cons c rest => exact hcons c rest (ih _ (hlen ▸ length_nextPiece_lt byte c rest) _ rfl)

theorem outputLoop_cons (c : α) (rest : List α) :
    outputLoop byte (c :: rest) =
      (nextPiece byte c rest).1.kept.toList ++ outputLoop byte (nextPiece byte c rest).2 := by
  rw [outputLoop.eq_def, nextPiece.eq_def]
  dsimp only
  split
  · cases rest with
    | nil => simp [ScanPiece.kept, outputLoop]
    | cons d rest' =>
        dsimp only
        split <;> rfl
  · split <;> rfl

theorem keptOf_cons (p : ScanPiece α) (ps : List (ScanPiece α)) :
    keptOf (p :: ps) = p.kept.toList ++ keptOf ps := by
  rw [keptOf, keptOf, List.filterMap_cons]
  cases p.kept <;> rfl

/-- What the loop keeps are the text pieces. -/
theorem outputLoop_eq (text : List α) : outputLoop byte text = keptOf (pieces byte text) := by
  induction text using pieces_induction byte with
  | hnil => rw [outputLoop, pieces_nil]; rfl
  | hcons c rest ih => rw [outputLoop_cons, pieces_cons, keptOf_cons, ih]

variable (byte) in
theorem bytesOf_pieces (text : List α) : bytesOf (pieces byte text) = text := by
  induction text using pieces_induction byte with
  | hnil => rw [pieces_nil]; rfl
  | hcons c rest ih =>
      rw [pieces_cons, bytesOf, List.flatMap_cons]
      exact (congrArg _ ih).trans (nextPiece_bytes byte c rest)

theorem bytesOf_append (ps qs : List (ScanPiece α)) :
    bytesOf (ps ++ qs) = bytesOf ps ++ bytesOf qs :=
  List.flatMap_append

theorem bytesOf_cons (p : ScanPiece α) (ps : List (ScanPiece α)) :
    bytesOf (p :: ps) = p.bytes ++ bytesOf ps := List.flatMap_cons

theorem keptOf_append (ps qs : List (ScanPiece α)) : keptOf (ps ++ qs) = keptOf ps ++ keptOf qs :=
  List.filterMap_append

/-- Behind some of the pieces the scan goes on as if it began there. -/
theorem pieces_suffix {text : List α} {ps qs : List (ScanPiece α)}
    (h : pieces byte text = ps ++ qs) : pieces byte (bytesOf qs) = qs := by
  induction ps generalizing text with
  | nil => rw [← show pieces byte text = qs from h, bytesOf_pieces]
  | cons p ps ih =>
      cases text with
      | nil =>
          rw [pieces_nil] at h
          cases h
      | cons c rest =>
          rw [pieces_cons] at h
          exact ih (List.cons.inj h).2

variable (byte) in
/-- A place in a text lies in one piece: `front` is what this has before it. -/
theorem pieces_cover {text u v : List α} (h : text = u ++ v) (hv : v ≠ []) :
    ∃ ps p qs front, pieces byte text = ps ++ p :: qs ∧ u = bytesOf ps ++ front ∧
      front.length < p.bytes.length := by
  induction text using pieces_induction byte generalizing u with
  | hnil => exact absurd (List.append_eq_nil_iff.mp h.symm).2 hv
  | hcons c rest ih =>
      have hbytes := nextPiece_bytes byte c rest
      rw [pieces_cons]
      by_cases hlt : u.length < (nextPiece byte c rest).1.bytes.length
      · exact ⟨[], _, _, u, rfl, rfl, hlt⟩
      · obtain ⟨u', hu⟩ : (nextPiece byte c rest).1.bytes <+: u :=
          List.prefix_of_prefix_length_le ⟨_, hbytes⟩ ⟨v, h.symm⟩ (not_lt.mp hlt)
        rw [← hu, List.append_assoc, ← hbytes] at h
        obtain ⟨ps, p, qs, front, hps, hu', hfront⟩ := ih (List.append_cancel_left h)
        refine ⟨_ :: ps, p, qs, front, by rw [hps, List.cons_append], ?_, hfront⟩
        rw [← hu, hu', bytesOf_cons, List.append_assoc]

/-- What is among the first `n` bytes kept. -/
theorem mem_take_keptOf {ps : List (ScanPiece α)} {c : α} {n : Nat} :
    c ∈ (keptOf ps).take n ↔
      ∃ pre post, ps = pre ++ .text c :: post ∧ (keptOf pre).length < n := by
  constructor
  · intro h
    induction ps generalizing n with
    | nil =>
        rw [keptOf, List.filterMap_nil, List.take_nil] at h
        cases h
    | cons p ps ih =>
        rw [keptOf_cons, List.take_append] at h
        rcases List.mem_append.mp h with h | h
        · cases p with
          | text d =>
              obtain rfl : c = d := List.mem_singleton.mp (List.mem_of_mem_take h)
              refine ⟨[], ps, rfl, Nat.pos_of_ne_zero fun h0 => ?_⟩
              rw [h0, List.take_zero] at h
              cases h
          | control d => exact absurd (List.mem_of_mem_take h) List.not_mem_nil
          | escape esc selector => exact absurd (List.mem_of_mem_take h) List.not_mem_nil
          | csi esc bracket body final => exact absurd (List.mem_of_mem_take h) List.not_mem_nil
        · obtain ⟨pre, post, rfl, hlen⟩ := ih h
          refine ⟨p :: pre, post, rfl, ?_⟩
          rw [keptOf_cons, List.length_append]
          omega
  · rintro ⟨pre, post, rfl, hlen⟩
    obtain ⟨k, hk⟩ := Nat.exists_eq_add_of_lt hlen
    rw [keptOf_append, List.take_append, hk, Nat.add_assoc, Nat.add_sub_cancel_left, keptOf_cons]
    exact List.mem_append_right _ List.mem_cons_self

/-- A text piece is no control byte. -/
theorem text_of_mem_pieces {text : List α} {c : α} (h : .text c ∈ pieces byte text) :
    0x20 ≤ byte c := by
  induction text using pieces_induction byte with
  | hnil =>
      rw [pieces_nil] at h
      cases h
  | hcons d rest ih =>
      rw [pieces_cons] at h
      rcases List.mem_cons.mp h with h | h
      · rw [nextPiece.eq_def] at h
        split at h
        · cases rest with
          | nil => cases h
          | cons e rest =>
              dsimp only at h
              split at h <;> cases h
        · split at h
          · rename_i hd
            cases h
            exact hd
          · cases h
      · exact ih h

end Pieces

/-! ## The scan does not look at marks -/

section Map

variable {α β : Type*} {byte : β → Nat} (f : α → β)

def ScanPiece.map : ScanPiece α → ScanPiece β
  | .text c => .text (f c)
  | .control c => .control (f c)
  | .escape esc selector => .escape (f esc) (selector.map f)
  | .csi esc bracket body final => .csi (f esc) (f bracket) (body.map f) (final.map f)

theorem ScanPiece.bytes_map (p : ScanPiece α) : (p.map f).bytes = p.bytes.map f := by
  cases p with
  | text c => rfl
  | control c => rfl
  | escape esc selector => cases selector <;> rfl
  | csi esc bracket body final => cases final <;> simp [ScanPiece.map, ScanPiece.bytes]

theorem ScanPiece.kept_map (p : ScanPiece α) : (p.map f).kept = p.kept.map f := by
  cases p <;> rfl

theorem bytesOf_map (ps : List (ScanPiece α)) :
    bytesOf (ps.map (ScanPiece.map f)) = (bytesOf ps).map f := by
  induction ps with
  | nil => rfl
  | cons p ps ih =>
      rw [List.map_cons, bytesOf_cons, bytesOf_cons, ih, p.bytes_map, List.map_append]

theorem keptOf_map (ps : List (ScanPiece α)) :
    keptOf (ps.map (ScanPiece.map f)) = (keptOf ps).map f := by
  rw [keptOf, keptOf, List.filterMap_map, List.map_filterMap]
  exact List.filterMap_congr fun p _ => p.kept_map f

theorem nextPiece_map (c : α) (rest : List α) :
    nextPiece byte (f c) (rest.map f) =
      ((nextPiece (byte ∘ f) c rest).1.map f, (nextPiece (byte ∘ f) c rest).2.map f) := by
  have hbody : isCsiBody byte ∘ f = isCsiBody (byte ∘ f) := rfl
  simp only [nextPiece, Function.comp_apply]
  by_cases hesc : byte (f c) = 0x1B
  · rw [if_pos hesc, if_pos hesc]
    cases rest with
    | nil => rfl
    | cons d rest' =>
        rw [List.map_cons]
        dsimp only
        split
        · simp only [ScanPiece.map, behindFinal, List.takeWhile_map, List.dropWhile_map, hbody,
            List.head?_map, List.map_drop]
        · rfl
  · rw [if_neg hesc, if_neg hesc]
    split <;> rfl

theorem pieces_map (text : List α) :
    pieces byte (text.map f) = (pieces (byte ∘ f) text).map (ScanPiece.map f) := by
  induction text using pieces_induction (byte ∘ f) with
  | hnil => rw [List.map_nil, pieces_nil, pieces_nil]; rfl
  | hcons c rest ih =>
      rw [List.map_cons, pieces_cons, pieces_cons, nextPiece_map, List.map_cons, ih]

theorem outputTail_map (log : List α) : outputTail (log.map f) = (outputTail log).map f := by
  rw [outputTail, List.length_map, ← List.map_drop]
  rfl

theorem trimmedTail_map (log : List α) :
    trimmedTail byte (log.map f) = (trimmedTail (byte ∘ f) log).map f := by
  rw [trimmedTail, outputTail_map, List.rdropWhile, ← List.map_reverse, List.dropWhile_map,
    ← List.map_reverse]
  rfl

theorem outputLine_map (log : List α) :
    outputLine byte (log.map f) = (outputLine (byte ∘ f) log).map f := by
  rw [outputLine, trimmedTail_map, List.rtakeWhile, ← List.map_reverse, List.takeWhile_map,
    ← List.map_reverse]
  rfl

theorem lineEnds_map (log : List α) :
    lineEnds byte (log.map f) = (lineEnds (byte ∘ f) log).map f := by
  rw [lineEnds, outputTail_map, List.rtakeWhile, ← List.map_reverse, List.takeWhile_map,
    ← List.map_reverse]
  rfl

theorem lastOutputLineOf_map (log : List α) :
    lastOutputLineOf byte (log.map f) = (lastOutputLineOf (byte ∘ f) log).map f := by
  rw [lastOutputLineOf, outputLine_map, outputLoop_eq, pieces_map, keptOf_map, ← outputLoop_eq,
    ← List.map_take]
  rfl

end Map

/-! ## Complete sequences -/

/-- A complete CSI sequence: ESC, a bracket, parameters and the byte that ends it. -/
def IsCsi (text : List Nat) : Prop :=
  ∃ params final, text = 0x1B :: 0x5B :: (params ++ [final]) ∧
    (∀ c ∈ params, 0x20 ≤ c ∧ c ≤ 0x3F) ∧ 0x40 ≤ final ∧ final ≤ 0x7E

section Csi

variable {α : Type*} {byte : α → Nat}

/-- A complete sequence, over records. -/
structure CsiParts (byte : α → Nat) (text : List α) (esc bracket : α) (params : List α)
    (final : α) : Prop where
  text_eq : text = esc :: bracket :: (params ++ [final])
  esc : byte esc = 0x1B
  bracket : byte bracket = 0x5B
  params : ∀ c ∈ params, 0x20 ≤ byte c ∧ byte c ≤ 0x3F
  final : 0x40 ≤ byte final ∧ byte final ≤ 0x7E

theorem IsCsi.parts {text : List α} (h : IsCsi (text.map byte)) :
    ∃ esc bracket params final, CsiParts byte text esc bracket params final := by
  obtain ⟨params, final, heq, hparams, hfinal⟩ := h
  obtain ⟨esc, rest, rfl, hesc, hrest⟩ := List.map_eq_cons_iff.mp heq
  obtain ⟨bracket, body, rfl, hbracket, hbody⟩ := List.map_eq_cons_iff.mp hrest
  obtain ⟨ps, fs, rfl, rfl, hfs⟩ := List.map_eq_append_iff.mp hbody
  obtain ⟨f, rfl, rfl⟩ := List.map_eq_singleton_iff.mp hfs
  exact ⟨esc, bracket, ps, f, rfl, hesc, hbracket,
    fun c hc => hparams _ (List.mem_map_of_mem hc), hfinal⟩

/-- What stands inside a sequence, behind its ESC. -/
theorem CsiParts.inside {text : List α} {esc bracket final : α} {params : List α}
    (h : CsiParts byte text esc bracket params final) {c : α}
    (hc : c ∈ bracket :: (params ++ [final])) : 0x20 ≤ byte c ∧ byte c ≤ 0x7E := by
  rcases List.mem_cons.mp hc with rfl | hc
  · rw [h.bracket]
    decide
  · rcases List.mem_append.mp hc with hc | hc
    · have hrange := h.params c hc
      omega
    · rw [List.mem_singleton.mp hc]
      have hrange := h.final
      omega

theorem CsiParts.not_lineEnd {text : List α} {esc bracket final : α} {params : List α}
    (h : CsiParts byte text esc bracket params final) {c : α} (hc : c ∈ text) :
    isLineEnd byte c = false := by
  have hrange : byte c = 0x1B ∨ 0x20 ≤ byte c := by
    rw [h.text_eq] at hc
    rcases List.mem_cons.mp hc with rfl | hc
    · exact .inl h.esc
    · exact .inr (h.inside hc).1
  simp only [isLineEnd, Bool.or_eq_false_iff, beq_eq_false_iff_ne]
  omega

/-- A byte that is neither control nor ESC is a piece of its own. -/
theorem pieces_text {c : α} (h : 0x20 ≤ byte c) (rest : List α) :
    pieces byte (c :: rest) = .text c :: pieces byte rest := by
  rw [pieces_cons, nextPiece_text h]

/-- Body bytes up to the one that ends them. -/
theorem takeWhile_body {body : List α} {final : α} (hbody : ∀ c ∈ body, byte c < 0x40)
    (hfinal : 0x40 ≤ byte final) (rest : List α) :
    (body ++ final :: rest).takeWhile (isCsiBody byte) = body ∧
      (body ++ final :: rest).dropWhile (isCsiBody byte) = final :: rest := by
  have hall : ∀ c ∈ body, isCsiBody byte c = true := fun c hc => decide_eq_true (hbody c hc)
  have hstop : isCsiBody byte final = false := decide_eq_false (by omega)
  rw [List.takeWhile_append_of_pos hall, List.dropWhile_append_of_pos hall,
    List.takeWhile_cons_of_neg (by rw [hstop]; decide), List.append_nil,
    List.dropWhile_cons_of_neg (by rw [hstop]; decide)]
  exact ⟨rfl, rfl⟩

/-- A CSI piece that reaches past some bytes takes them all for its body. -/
theorem body_of_reach {front rest : List α}
    (h : front.length < ((front ++ rest).takeWhile (isCsiBody byte)).length +
      ((front ++ rest).dropWhile (isCsiBody byte)).head?.toList.length) :
    ∀ c ∈ front, byte c < 0x40 := by
  have hall : front.takeWhile (isCsiBody byte) = front := by
    by_contra hne
    have hpart := List.takeWhile_prefix (l := front) (isCsiBody byte)
    have hless : (front.takeWhile (isCsiBody byte)).length < front.length :=
      lt_of_le_of_ne hpart.length_le fun hlen => hne (hpart.eq_of_length hlen)
    have hone : ((front ++ rest).dropWhile (isCsiBody byte)).head?.toList.length ≤ 1 := by
      cases ((front ++ rest).dropWhile (isCsiBody byte)).head? <;> simp
    rw [List.takeWhile_append, if_neg hless.ne] at h
    omega
  intro c hc
  rw [← hall] at hc
  have hbody := List.mem_takeWhile_imp hc
  exact of_decide_eq_true hbody

/-- A sequence the scan meets at its ESC is one piece. -/
theorem CsiParts.pieces {text : List α} {esc bracket final : α} {params : List α}
    (h : CsiParts byte text esc bracket params final) (rest : List α) :
    pieces byte (text ++ rest) = .csi esc bracket params (some final) :: pieces byte rest := by
  have hbody : ∀ c ∈ params, byte c < 0x40 := fun c hc => by
    have hrange := h.params c hc
    omega
  obtain ⟨htake, hdrop⟩ := takeWhile_body hbody h.final.1 rest
  have hnext : nextPiece byte esc (bracket :: (params ++ final :: rest)) =
      (.csi esc bracket params (some final), rest) := by
    rw [nextPiece_csi h.esc h.bracket, htake, behindFinal, hdrop]
    rfl
  rw [h.text_eq, List.cons_append, List.cons_append, List.append_assoc, List.singleton_append,
    pieces_cons, hnext]

/-- A sequence whose ESC is inside a piece: the piece shows nothing, and the first byte
behind it is one of the sequence and is kept. -/
theorem CsiParts.residue {csi : List α} {esc bracket final : α} {params : List α}
    (h : CsiParts byte csi esc bracket params final) {text : List α} {ps qs : List (ScanPiece α)}
    {p : ScanPiece α} (hpieces : Heapviz.pieces byte text = ps ++ p :: qs) {front after : List α}
    (hbytes : p.bytes ++ bytesOf qs = front ++ (csi ++ after)) (hpos : 0 < front.length)
    (hlt : front.length < p.bytes.length) :
    p.kept = none ∧ ∃ c ∈ csi, ∃ qs', qs = .text c :: qs' := by
  obtain ⟨c, front, rfl⟩ := List.exists_cons_of_length_pos hpos
  have hsuffix := pieces_suffix hpieces
  rw [bytesOf_cons, hbytes, h.text_eq, List.cons_append, pieces_cons] at hsuffix
  obtain ⟨rfl, rfl⟩ := List.cons.inj hsuffix
  -- a byte of the sequence that stands first behind the piece is a text piece
  have hfirst {x : α} (hx : x ∈ bracket :: (params ++ [final])) (rest : List α) :
      ∃ y ∈ csi, ∃ qs', Heapviz.pieces byte (x :: rest) = .text y :: qs' := by
    refine ⟨x, ?_, _, pieces_text (h.inside hx).1 rest⟩
    rw [h.text_eq]
    exact List.mem_cons_of_mem _ hx
  rw [nextPiece.eq_def] at hlt ⊢
  by_cases hesc : byte c = 0x1B
  · rw [if_pos hesc] at hlt ⊢
    cases front with
    | nil =>
        -- the ESC is taken for a selector
        have hsel : byte esc ≠ 0x5B := by
          rw [h.esc]
          decide
        dsimp only [List.nil_append, List.cons_append]
        rw [if_neg hsel]
        exact ⟨rfl, hfirst List.mem_cons_self _⟩
    | cons d front =>
        dsimp only [List.cons_append] at hlt ⊢
        by_cases hd : byte d = 0x5B
        · -- the ESC is taken for a parameter, and the bracket ends the piece
          rw [if_pos hd] at hlt ⊢
          have hfront : ∀ x ∈ front ++ [esc], byte x < 0x40 := by
            intro x hx
            rcases List.mem_append.mp hx with hx | hx
            · refine @body_of_reach α byte front (esc :: bracket :: (params ++ [final] ++ after)) ?_
                x hx
              simp only [ScanPiece.bytes, List.length_cons, List.length_append] at hlt ⊢
              omega
            · rw [List.mem_singleton.mp hx, h.esc]
              decide
          obtain ⟨-, hdrop⟩ := takeWhile_body hfront (h.bracket.ge.trans' (by decide))
            (params ++ [final] ++ after)
          have htext : front ++ esc :: bracket :: (params ++ [final] ++ after) =
              front ++ [esc] ++ bracket :: (params ++ [final] ++ after) := by simp
          rw [htext, behindFinal, hdrop]
          refine ⟨rfl, ?_⟩
          cases params with
          | nil => exact hfirst (List.mem_cons_of_mem _ List.mem_cons_self) _
          | cons x params => exact hfirst (List.mem_cons_of_mem _ List.mem_cons_self) _
        · rw [if_neg hd] at hlt
          simp only [List.length_cons, ScanPiece.bytes, Option.toList_some, List.length_nil] at hlt
          omega
  · rw [if_neg hesc] at hlt
    split at hlt <;> exact absurd hlt (by simp [ScanPiece.bytes])

end Csi

/-! ## Where the line stands in the log -/

section Place

variable {α : Type*} (byte : α → Nat) (log : List α)

theorem outputTail_eq :
    outputTail log = beforeLine byte log ++ (outputLine byte log ++ lineEnds byte log) := by
  rw [← List.append_assoc, beforeLine, outputLine, List.rdropWhile_append_rtakeWhile, trimmedTail,
    lineEnds, List.rdropWhile_append_rtakeWhile]

theorem log_eq :
    log = beforeTail log ++
      (beforeLine byte log ++ (outputLine byte log ++ lineEnds byte log)) := by
  rw [← outputTail_eq]
  exact (List.take_append_drop _ log).symm

theorem beforeLine_cases :
    beforeLine byte log = [] ∨ ∃ pre c, beforeLine byte log = pre ++ [c] ∧ byte c = 0x0A := by
  by_cases hnil : beforeLine byte log = []
  · exact .inl hnil
  · have hlast := List.rdropWhile_last_not (isNotNewline byte) (trimmedTail byte log) hnil
    refine .inr ⟨_, _, (List.dropLast_append_getLast hnil).symm, ?_⟩
    exact not_not.mp fun hne => hlast (bne_iff_ne.mpr hne)

variable {byte} {log}

theorem beforeLine_eq_nil_iff :
    beforeLine byte log = [] ↔ ∀ c ∈ trimmedTail byte log, byte c ≠ 0x0A := by
  rw [beforeLine, List.rdropWhile_eq_nil_iff]
  simp [isNotNewline]

theorem lineEnds_lineEnd {c : α} (hc : c ∈ lineEnds byte log) : isLineEnd byte c = true :=
  List.mem_rtakeWhile_imp hc

theorem keptOf_subset (ps : List (ScanPiece α)) : keptOf ps ⊆ bytesOf ps := by
  intro c hc
  obtain ⟨p, hp, hkept⟩ := List.mem_filterMap.mp hc
  refine List.mem_flatMap.mpr ⟨p, hp, ?_⟩
  cases p with
  | text d => exact List.mem_singleton.mpr (Option.some.inj hkept).symm
  | control d => cases hkept
  | escape esc selector => cases hkept
  | csi esc bracket body final => cases hkept

variable (byte) in
theorem outputLoop_subset (text : List α) : outputLoop byte text ⊆ text := by
  intro c hc
  rw [outputLoop_eq] at hc
  have hmem := keptOf_subset _ hc
  rwa [bytesOf_pieces] at hmem

end Place

end Heapviz
