import Mathlib.Data.List.Basic
import Heapviz.RenderShows
import Heapviz.TextCells

/-!
# Control codes in a frame

What `Renderer::render` writes is cut into pieces: for every cell it emits,
the bytes of the cursor move, those of the pen change, and the glyph. The
first two are control sequences of the renderer's own. The third is whatever
the cell holds, and `put_utf8` encodes it as it stands, only a zero as a
space. So a control code that a string put in a cell is in the frame, and
apart from the cells there are none but the renderer's.

The pieces are read off the run of the renderer itself: what a call appended
is the difference of the output before it and after it.
-/

/-! ## What a position of a concatenation is from

A list that was put together from segments, each of which something stands
for. Every position of the whole is from one of the segments, and
`Segments.ownerAt` says from which. -/

namespace Segments

variable {α β : Type} (f : α → List β)

/-- Whose segment position `i` of the whole lies in. -/
def ownerAt : List α → Nat → Option α
  | [], _ => none
  | a :: as, i => if i < (f a).length then some a else ownerAt as (i - (f a).length)

/-- Position `k` of a segment, counted in the whole. -/
theorem ownerAt_append (before : List α) {a : α} (after : List α) {k : Nat}
    (hk : k < (f a).length) :
    ownerAt f (before ++ a :: after) ((before.flatMap f).length + k) = some a := by
  induction before with
  | nil =>
      rw [List.nil_append, List.flatMap_nil, List.length_nil, Nat.zero_add, ownerAt, if_pos hk]
  | cons b before ih =>
      have hbeyond : ¬ (f b).length + (before.flatMap f).length + k < (f b).length := by omega
      have hrest : (f b).length + (before.flatMap f).length + k - (f b).length =
          (before.flatMap f).length + k := by omega
      rw [List.cons_append, List.flatMap_cons, List.length_append, ownerAt, if_neg hbeyond, hrest]
      exact ih

/-- Every position of the whole is a position of a segment. -/
theorem exists_split : ∀ (as : List α) (i : Nat), i < (as.flatMap f).length →
    ∃ before a after k, as = before ++ a :: after ∧ i = (before.flatMap f).length + k ∧
      k < (f a).length
  | [], i, hi => absurd hi (Nat.not_lt_zero i)
  | a :: as, i, hi => by
      by_cases hhere : i < (f a).length
      · exact ⟨[], a, as, i, rfl, (Nat.zero_add i).symm, hhere⟩
      · rw [List.flatMap_cons, List.length_append] at hi
        obtain ⟨before, b, after, k, rfl, hk, hlt⟩ :=
          exists_split as (i - (f a).length) (by omega)
        refine ⟨a :: before, b, after, k, rfl, ?_, hlt⟩
        rw [List.flatMap_cons, List.length_append]
        omega

end Segments

namespace Heapviz

/-! ## Control codes -/

/-- A C0 control code or DEL stands at the position, or the encoding of one of
U+0080 to U+009F begins there: of these the first byte is 0xC2, which begins
two-byte sequences only. -/
def ControlAt (out : List Nat) (i : Nat) : Prop :=
  ∃ b, out[i]? = some b ∧
    (b < 0x20 ∨ b = 0x7F ∨ b = 0xC2 ∧ ∃ c, out[i + 1]? = some c ∧ 0x80 ≤ c ∧ c ≤ 0x9F)

/-- Zero is not one: it is drawn as a space. -/
def ControlGlyph (cp : Nat) : Prop := 1 ≤ cp ∧ cp < 0x20 ∨ 0x7F ≤ cp ∧ cp ≤ 0x9F

/-- A control sequence with numeric parameters that moves the cursor (`H`) or
changes the pen (`m`). -/
def Csi (bytes : List Nat) : Prop :=
  ∃ params final, bytes = 0x1B :: 0x5B :: (params ++ [final]) ∧
    (∀ b ∈ params, 0x30 ≤ b ∧ b ≤ 0x3B) ∧ (final = 0x48 ∨ final = 0x6D)

/-- Control sequences, one after the other. -/
def CsiRun (bytes : List Nat) : Prop :=
  ∃ seqs : List (List Nat), bytes = seqs.flatten ∧ ∀ s ∈ seqs, Csi s

/-! ## The pieces of a frame -/

inductive Piece where
  | generated (bytes : List Nat)
  | glyph (cp : Nat)
deriving Repr, DecidableEq

/-- A piece in the output; a glyph is there as `put_utf8` writes it. -/
def Piece.bytes : Piece → List Nat
  | .generated bytes => bytes
  | .glyph cp => utf8Encode (if cp = 0 then 0x20 else cp)

namespace Renderer

/-- What was appended between the two. -/
def added (r r' : Renderer) : List Nat := r'.out.drop r.out.length

/-- The pieces `renderCell` appends. -/
def cellPieces (fb : Framebuffer) (fullRepaint : Bool) (y : Nat) (r : Renderer) (x : Nat) :
    List Piece :=
  let now := fb.atBack x y
  if fullRepaint = false ∧ now = fb.atFront x y then []
  else
    let moved := { r with examined := r.examined + 1 }.moveTo x y
    let penned := moved.emitPen now
    [.generated (r.added moved), .generated (moved.added penned), .glyph now.glyph]

/-- `renderCell` beside its pieces. -/
def tracedCell (fb : Framebuffer) (fullRepaint : Bool) (y : Nat) (s : Renderer × List Piece)
    (x : Nat) : Renderer × List Piece :=
  (renderCell fb fullRepaint y s.1 x, s.2 ++ cellPieces fb fullRepaint y s.1 x)

def tracedRow (fb : Framebuffer) (fullRepaint : Bool) (s : Renderer × List Piece) (y : Nat) :
    Renderer × List Piece :=
  (List.range fb.w).foldl (tracedCell fb fullRepaint y) s

/-- The pieces of what `render` puts out. -/
def pieces (r : Renderer) (fb : Framebuffer) (fullRepaint : Bool) : List Piece :=
  let r := { r with out := [], penValid := false, curValid := false, emitted := 0, examined := 0 }
  if fb.isEmpty then []
  else
    let s := (List.range fb.h).foldl (tracedRow fb fullRepaint) (r, [])
    if s.1.out ≠ [] then s.2 ++ [.generated (lit ['\x1b', '[', '0', 'm'])] else s.2

end Renderer

/-! ## What the renderer generates -/

theorem CsiRun.nil : CsiRun [] := ⟨[], rfl, nofun⟩

theorem CsiRun.append {a b : List Nat} (ha : CsiRun a) (hb : CsiRun b) : CsiRun (a ++ b) := by
  obtain ⟨as, rfl, has⟩ := ha
  obtain ⟨bs, rfl, hbs⟩ := hb
  refine ⟨as ++ bs, List.flatten_append.symm, fun s hs => ?_⟩
  rcases List.mem_append.mp hs with hs | hs
  · exact has s hs
  · exact hbs s hs

/-- Digits and semicolons. -/
def IsParams (bytes : List Nat) : Prop := ∀ b ∈ bytes, 0x30 ≤ b ∧ b ≤ 0x3B

theorem IsParams.append {a b : List Nat} (ha : IsParams a) (hb : IsParams b) :
    IsParams (a ++ b) := by
  intro c hc
  rcases List.mem_append.mp hc with hc | hc
  · exact ha c hc
  · exact hb c hc

theorem putUintLoop_isParams : ∀ n v, IsParams (putUintLoop n v)
  | 0, _ => nofun
  | n + 1, v => by
      intro b hb
      rw [putUintLoop] at hb
      rcases List.mem_cons.mp hb with rfl | hb
      · omega
      · split at hb
        · exact putUintLoop_isParams n _ b hb
        · cases hb

theorem uintBytes_isParams (v : Nat) : IsParams (uintBytes v) := fun b hb =>
  putUintLoop_isParams 10 v b (List.mem_reverse.mp hb)

/-- One sequence, from its parameters. -/
theorem csiRun_of_params {params : List Nat} (h : IsParams params) {final : Nat}
    (hfinal : final = 0x48 ∨ final = 0x6D) : CsiRun (0x1B :: 0x5B :: (params ++ [final])) := by
  refine ⟨[_], (List.append_nil _).symm, fun seq hseq => ?_⟩
  rw [List.mem_singleton.mp hseq]
  exact ⟨params, final, rfl, h, hfinal⟩

/-- The second renderer has the output of the first, and control sequences
after it. -/
def Renderer.Adds (r r' : Renderer) : Prop := ∃ bytes, r'.out = r.out ++ bytes ∧ CsiRun bytes

namespace Renderer

variable {r r' r'' : Renderer}

theorem Adds.refl (r : Renderer) : r.Adds r := ⟨[], (List.append_nil _).symm, .nil⟩

theorem Adds.trans (h : r.Adds r') (h' : r'.Adds r'') : r.Adds r'' := by
  obtain ⟨a, ha, hrun⟩ := h
  obtain ⟨b, hb, hrun'⟩ := h'
  exact ⟨a ++ b, by rw [hb, ha, List.append_assoc], hrun.append hrun'⟩

theorem Adds.added (h : r.Adds r') : r'.out = r.out ++ r.added r' ∧ CsiRun (r.added r') := by
  obtain ⟨bytes, hout, hrun⟩ := h
  have hadded : r.added r' = bytes := by
    rw [Renderer.added, hout, List.drop_left]
  rw [hadded]
  exact ⟨hout, hrun⟩

theorem adds_moveTo (r : Renderer) (x y : Nat) : r.Adds (r.moveTo x y) := by
  unfold moveTo
  split
  · exact .refl r
  · refine ⟨0x1B :: 0x5B :: ((uintBytes (add32 y 1) ++ [0x3B] ++ uintBytes (add32 x 1)) ++ [0x48]),
      by simp [append, putUint, lit], csiRun_of_params ?_ (.inl rfl)⟩
    exact ((uintBytes_isParams _).append (by simp [IsParams])).append (uintBytes_isParams _)

theorem adds_emitColor (r : Renderer) (foreground : Bool) (code : Nat) :
    r.Adds (r.emitColor foreground code) := by
  unfold emitColor
  cases r.mode with
  | trueColor =>
      refine ⟨0x1B :: 0x5B :: ((lit [if foreground then '3' else '4', '8', ';', '2', ';'] ++
        uintBytes (red code) ++ [0x3B] ++ uintBytes (green code) ++ [0x3B] ++
        uintBytes (blue code)) ++ [0x6D]), ?_, csiRun_of_params ?_ (.inr rfl)⟩
      · cases foreground <;> simp [append, putUint, lit]
      · refine ((((IsParams.append ?_ (uintBytes_isParams _)).append ?_).append
          (uintBytes_isParams _)).append ?_).append (uintBytes_isParams _)
        · cases foreground <;> simp [IsParams, lit]
        · simp [IsParams]
        · simp [IsParams]
  | cube256 =>
      refine ⟨0x1B :: 0x5B :: ((lit [if foreground then '3' else '4', '8', ';', '5', ';'] ++
        uintBytes code) ++ [0x6D]), ?_, csiRun_of_params ?_ (.inr rfl)⟩
      · cases foreground <;> simp [append, putUint, lit]
      · refine IsParams.append ?_ (uintBytes_isParams _)
        cases foreground <;> simp [IsParams, lit]
  | ansi16 =>
      refine ⟨0x1B :: 0x5B :: (uintBytes (if code < 8 then (if foreground then 30 else 40) + code
        else (if foreground then 90 else 100) + (code - 8)) ++ [0x6D]), ?_,
        csiRun_of_params (uintBytes_isParams _) (.inr rfl)⟩
      by_cases hlow : code < 8 <;> simp [hlow, append, putUint, lit]

theorem csiRun_reset : CsiRun (lit ['\x1b', '[', '0', 'm']) :=
  csiRun_of_params (show IsParams [0x30] by simp [IsParams]) (.inr rfl)

theorem csiRun_attrBytes (bold dim underline reverse : Bool) :
    CsiRun (attrBytes bold dim underline reverse) := by
  have hparams : IsParams (lit (['1', '2', '4', '7'].zip [bold, dim, underline, reverse]
      |>.filterMap (fun p => if p.2 then some p.1 else none) |>.intersperse ';')) := by
    cases bold <;> cases dim <;> cases underline <;> cases reverse <;> simp [IsParams, lit]
  exact csiRun_reset.append (csiRun_of_params hparams (.inr rfl))

theorem adds_emitAttrs (r : Renderer) (attrs : Nat) : r.Adds (r.emitAttrs attrs) := by
  unfold emitAttrs
  split
  · by_cases hzero : attrs = 0
    · subst hzero
      exact ⟨_, rfl, csiRun_reset⟩
    · have hcodes := Renderer.attrCodes_eq { r with penValid := false } attrs
      simp only [ne_eq, hzero, not_false_eq_true, if_true]
      exact ⟨_, congrArg Renderer.out hcodes, csiRun_attrBytes ..⟩
  · exact .refl r

theorem adds_emitPen (r : Renderer) (c : Cell) : r.Adds (r.emitPen c) := by
  have hfg : ∀ (r : Renderer) (fg : Nat), r.Adds (r.emitFg fg) := fun r fg => by
    unfold emitFg
    split
    · exact adds_emitColor r true fg
    · exact .refl r
  have hbg : ∀ (r : Renderer) (bg : Nat), r.Adds (r.emitBg bg) := fun r bg => by
    unfold emitBg
    split
    · exact adds_emitColor r false bg
    · exact .refl r
  exact ((adds_emitAttrs r c.attrs).trans (hfg _ _)).trans (hbg _ _)

/-! ## The pieces make up the output -/

/-- What a run of the renderer put out so far, and its pieces. -/
structure Traced (s : Renderer × List Piece) : Prop where
  whole : s.1.out = s.2.flatMap Piece.bytes
  csi : ∀ bytes, .generated bytes ∈ s.2 → CsiRun bytes

variable {fb : Framebuffer} {fullRepaint : Bool}

theorem renderCell_out (r : Renderer) {x y : Nat}
    (h : ¬ (fullRepaint = false ∧ fb.atBack x y = fb.atFront x y)) :
    (renderCell fb fullRepaint y r x).out =
      (({ r with examined := r.examined + 1 }.moveTo x y).emitPen (fb.atBack x y)).out ++
        (Piece.glyph (fb.atBack x y).glyph).bytes := by
  unfold renderCell
  rw [if_neg h]
  dsimp only
  split <;> rfl

theorem Traced.tracedCell {s : Renderer × List Piece} (h : Traced s) (x y : Nat) :
    Traced (tracedCell fb fullRepaint y s x) := by
  obtain ⟨r, ps⟩ := s
  obtain ⟨hwhole, hcsi⟩ := h
  by_cases hsame : fullRepaint = false ∧ fb.atBack x y = fb.atFront x y
  · unfold Renderer.tracedCell renderCell cellPieces
    dsimp only
    rw [if_pos hsame, if_pos hsame, List.append_nil]
    exact ⟨hwhole, hcsi⟩
  · obtain ⟨hmove, hmoveCsi⟩ := (adds_moveTo { r with examined := r.examined + 1 } x y).added
    obtain ⟨hpen, hpenCsi⟩ := (adds_emitPen
      ({ r with examined := r.examined + 1 }.moveTo x y) (fb.atBack x y)).added
    have hpieces : cellPieces fb fullRepaint y r x = [
        .generated (r.added ({ r with examined := r.examined + 1 }.moveTo x y)),
        .generated (({ r with examined := r.examined + 1 }.moveTo x y).added
          (({ r with examined := r.examined + 1 }.moveTo x y).emitPen (fb.atBack x y))),
        .glyph (fb.atBack x y).glyph] := if_neg hsame
    constructor
    · show (renderCell fb fullRepaint y r x).out = (ps ++ _).flatMap Piece.bytes
      rw [renderCell_out r hsame, hpen, hmove, hpieces, List.flatMap_append, ← hwhole]
      simp [Piece.bytes, Renderer.added]
    · intro bytes hmem
      rcases List.mem_append.mp hmem with hmem | hmem
      · exact hcsi bytes hmem
      · rw [hpieces] at hmem
        simp only [List.mem_cons, Piece.generated.injEq, List.not_mem_nil, or_false,
          reduceCtorEq] at hmem
        rcases hmem with rfl | rfl
        · exact hmoveCsi
        · exact hpenCsi

theorem traced_foldl {α : Type} {step : Renderer × List Piece → α → Renderer × List Piece}
    (hstep : ∀ s a, Traced s → Traced (step s a)) (as : List α) {s : Renderer × List Piece}
    (h : Traced s) : Traced (as.foldl step s) := by
  induction as generalizing s with
  | nil => exact h
  | cons a as ih => exact ih (hstep s a h)

theorem tracedRow_fst (s : Renderer × List Piece) (y : Nat) :
    (tracedRow fb fullRepaint s y).1 = renderRow fb fullRepaint s.1 y :=
  (List.foldl_hom Prod.fst fun _ _ => rfl).symm

theorem tracedRows_fst (s : Renderer × List Piece) (rows : List Nat) :
    (rows.foldl (tracedRow fb fullRepaint) s).1 = rows.foldl (renderRow fb fullRepaint) s.1 :=
  (List.foldl_hom Prod.fst fun s y => (tracedRow_fst s y).symm).symm

/-- The output is its pieces, and the generated ones are control sequences. -/
theorem render_pieces (r : Renderer) (fb : Framebuffer) (fullRepaint : Bool) :
    (r.render fb fullRepaint).1.out = (r.pieces fb fullRepaint).flatMap Piece.bytes ∧
      ∀ bytes, .generated bytes ∈ r.pieces fb fullRepaint → CsiRun bytes := by
  unfold render pieces
  dsimp only
  split
  · exact ⟨rfl, nofun⟩
  · have htraced : Traced ((List.range fb.h).foldl (tracedRow fb fullRepaint)
        ({ r with
          out := [], penValid := false, curValid := false, emitted := 0, examined := 0 }, [])) :=
      traced_foldl (fun s y hs => traced_foldl (fun s x hs => hs.tracedCell x y) _ hs) _
        ⟨rfl, nofun⟩
    rw [← tracedRows_fst (_, [])]
    generalize (List.range fb.h).foldl (tracedRow fb fullRepaint) _ = s at htraced ⊢
    obtain ⟨hwhole, hcsi⟩ := htraced
    by_cases hnone : s.1.out = []
    · rw [if_neg (not_not.mpr hnone), if_neg (not_not.mpr hnone)]
      exact ⟨hwhole, hcsi⟩
    · rw [if_pos hnone, if_pos hnone]
      constructor
      · show s.1.out ++ _ = (s.2 ++ _).flatMap Piece.bytes
        rw [hwhole, List.flatMap_append]
        rfl
      · intro bytes hmem
        rcases List.mem_append.mp hmem with hmem | hmem
        · exact hcsi bytes hmem
        · obtain rfl := Piece.generated.inj (List.mem_singleton.mp hmem)
          exact csiRun_reset

/-! ## The glyphs among the pieces -/

/-- The cell is emitted, and holds this glyph. -/
def Emits (fb : Framebuffer) (fullRepaint : Bool) (cp x y : Nat) : Prop :=
  (fullRepaint = true ∨ fb.atBack x y ≠ fb.atFront x y) ∧ (fb.atBack x y).glyph = cp

theorem mem_foldl_iff {α : Type} {step : Renderer × List Piece → α → Renderer × List Piece}
    {p : Piece} {Q : α → Prop} (h : ∀ s a, p ∈ (step s a).2 ↔ p ∈ s.2 ∨ Q a) (as : List α)
    (s : Renderer × List Piece) : p ∈ (as.foldl step s).2 ↔ p ∈ s.2 ∨ ∃ a ∈ as, Q a := by
  induction as generalizing s with
  | nil => simp
  | cons a as ih => rw [List.foldl_cons, ih, h, or_assoc, List.exists_mem_cons_iff]

theorem glyph_mem_tracedCell (s : Renderer × List Piece) (cp x y : Nat) :
    .glyph cp ∈ (tracedCell fb fullRepaint y s x).2 ↔
      .glyph cp ∈ s.2 ∨ Emits fb fullRepaint cp x y := by
  unfold tracedCell cellPieces Emits
  dsimp only
  rw [List.mem_append]
  refine or_congr_right ?_
  split_ifs with hsame
  · rw [iff_of_false List.not_mem_nil]
    rintro ⟨hfull | hne, -⟩
    · rw [hsame.1] at hfull
      cases hfull
    · exact hne hsame.2
  · have hchanged : fullRepaint = true ∨ fb.atBack x y ≠ fb.atFront x y := by
      rw [not_and_or, Bool.not_eq_false] at hsame
      exact hsame
    simp [hchanged, eq_comm]

/-- The glyphs are those of the cells the frame emits. -/
theorem glyph_mem_pieces (r : Renderer) (fb : Framebuffer) (fullRepaint : Bool) (cp : Nat) :
    .glyph cp ∈ r.pieces fb fullRepaint ↔
      ∃ x y, x < fb.w ∧ y < fb.h ∧ Emits fb fullRepaint cp x y := by
  have hrow : ∀ (s : Renderer × List Piece) (y : Nat),
      .glyph cp ∈ (tracedRow fb fullRepaint s y).2 ↔
        .glyph cp ∈ s.2 ∨ ∃ x ∈ List.range fb.w, Emits fb fullRepaint cp x y := fun s y =>
    mem_foldl_iff (fun s x => glyph_mem_tracedCell s cp x y) _ s
  unfold pieces
  dsimp only
  split
  · rename_i hempty
    rw [iff_of_false List.not_mem_nil]
    rintro ⟨x, y, hx, hy, -⟩
    rw [Framebuffer.isEmpty_of_inside hx hy] at hempty
    cases hempty
  · have hepilogue : ∀ s : Renderer × List Piece,
        (.glyph cp ∈ if s.1.out ≠ [] then s.2 ++ [.generated (lit ['\x1b', '[', '0', 'm'])]
          else s.2) ↔ .glyph cp ∈ s.2 := by
      intro s
      split <;> simp
    rw [hepilogue, mem_foldl_iff hrow, or_iff_right List.not_mem_nil]
    simp only [List.mem_range]
    constructor
    · rintro ⟨y, hy, x, hx, h⟩
      exact ⟨x, y, hx, hy, h⟩
    · rintro ⟨x, y, hx, hy, h⟩
      exact ⟨y, hy, x, hx, h⟩

end Renderer

/-! ## Which glyphs are control codes -/

theorem controlAt_cons_succ {b : Nat} {out : List Nat} {k : Nat} :
    ControlAt (b :: out) (k + 1) ↔ ControlAt out k := Iff.rfl

theorem controlAt_append {before out : List Nat} {k : Nat} :
    ControlAt (before ++ out) (before.length + k) ↔ ControlAt out k := by
  unfold ControlAt
  rw [List.getElem?_append_right (by omega), List.getElem?_append_right (by omega),
    Nat.add_sub_cancel_left, Nat.add_assoc, Nat.add_sub_cancel_left]

theorem controlAt_cons_zero {b : Nat} {out : List Nat} :
    ControlAt (b :: out) 0 ↔
      b < 0x20 ∨ b = 0x7F ∨ b = 0xC2 ∧ ∃ c, out[0]? = some c ∧ 0x80 ≤ c ∧ c ≤ 0x9F := by
  simp [ControlAt]

/-- Bytes above ASCII, but for the one lead byte. -/
theorem not_controlAt_high : ∀ {bytes : List Nat} {k : Nat} (rest : List Nat),
    (∀ b ∈ bytes, 0x80 ≤ b ∧ b ≠ 0xC2) → k < bytes.length → ¬ ControlAt (bytes ++ rest) k
  | b :: bytes, 0, rest, h, _ => by
      have hb := h b List.mem_cons_self
      rw [List.cons_append, controlAt_cons_zero]
      omega
  | b :: bytes, k + 1, rest, h, hk => by
      rw [List.cons_append, controlAt_cons_succ]
      exact not_controlAt_high rest (fun c hc => h c (List.mem_cons_of_mem b hc))
        (Nat.lt_of_succ_lt_succ hk)

theorem encode_controlAt {g : Nat} (rest : List Nat) {k : Nat} (hk : k < (utf8Encode g).length) :
    ControlAt (utf8Encode g ++ rest) k ↔ k = 0 ∧ (g < 0x20 ∨ 0x7F ≤ g ∧ g ≤ 0x9F) := by
  by_cases hscalar : g > 0x10FFFF ∨ (g ≥ 0xD800 ∧ g ≤ 0xDFFF)
  · have hbytes : utf8Encode g = [0xEF, 0xBF, 0xBD] := by
      unfold utf8Encode
      rw [if_pos hscalar]
      rfl
    rw [hbytes] at hk ⊢
    exact iff_of_false (not_controlAt_high rest (by decide) hk) (by omega)
  rw [utf8Encode_eq hscalar] at hk ⊢
  by_cases h1 : g < 0x80
  · rw [if_pos h1] at hk ⊢
    obtain rfl : k = 0 := Nat.lt_one_iff.mp hk
    rw [List.singleton_append, controlAt_cons_zero]
    have hlead : ¬ (g = 0xC2 ∧ ∃ c, rest[0]? = some c ∧ 0x80 ≤ c ∧ c ≤ 0x9F) := by omega
    simp only [hlead, or_false, true_and]
    omega
  by_cases h2 : g < 0x800
  · rw [if_neg h1, if_pos h2] at hk ⊢
    cases k with
    | zero =>
        have hnext : ([0x80 + g % 64] ++ rest)[0]? = some (0x80 + g % 64) := rfl
        rw [List.cons_append, controlAt_cons_zero, hnext]
        simp only [Option.some.injEq, exists_eq_left', true_and]
        omega
    | succ k =>
        rw [List.cons_append, controlAt_cons_succ]
        refine iff_of_false (not_controlAt_high rest (fun b hb => ?_) (Nat.lt_of_succ_lt_succ hk))
          (by omega)
        rw [List.mem_singleton.mp hb]
        omega
  · rw [if_neg h1, if_neg h2] at hk ⊢
    refine iff_of_false (not_controlAt_high rest (fun b hb => ?_) hk) (by omega)
    split at hb
    · simp only [List.mem_cons, List.not_mem_nil, or_false] at hb
      omega
    · simp only [List.mem_cons, List.not_mem_nil, or_false] at hb
      omega

/-- The bytes of a glyph: a control code, if it is one, and then at the first of
them. -/
theorem glyph_controlAt (cp : Nat) (rest : List Nat) {k : Nat}
    (hk : k < (Piece.glyph cp).bytes.length) :
    ControlAt ((Piece.glyph cp).bytes ++ rest) k ↔ k = 0 ∧ ControlGlyph cp := by
  rw [Piece.bytes, encode_controlAt rest hk]
  unfold ControlGlyph
  split <;> omega

theorem glyph_bytes_pos (cp : Nat) : 0 < (Piece.glyph cp).bytes.length := by
  unfold Piece.bytes utf8Encode
  dsimp only
  split_ifs <;> exact Nat.succ_pos _

/-! ## Frames -/

/-- Every control code in the frame is in a control sequence that the renderer
made for a cursor move or a pen change. -/
structure ControlsGenerated (r : Renderer) (fb : Framebuffer) (fullRepaint : Bool) : Prop where
  whole : (r.render fb fullRepaint).1.out = (r.pieces fb fullRepaint).flatMap Piece.bytes
  generated : ∀ i, ControlAt (r.render fb fullRepaint).1.out i →
    ∃ bytes, Segments.ownerAt Piece.bytes (r.pieces fb fullRepaint) i = some (.generated bytes) ∧
      CsiRun bytes

/-- After any calls of `text` and `put`, the control codes in the frame are the
renderer's own if and only if no call that a cell to be emitted was last
written by put one there. -/
theorem controlsGenerated_iff (r : Renderer) (fb : Framebuffer) (calls : List DrawCall)
    (fullRepaint : Bool) :
    ControlsGenerated r (fb.drawn calls) fullRepaint ↔
      ∀ x y, x < fb.w → y < fb.h →
        (fullRepaint = true ∨ fb.shown calls x y ≠ fb.atFront x y) →
          ¬ ControlGlyph (fb.shown calls x y).glyph := by
  obtain ⟨hwhole, hcsi⟩ := r.render_pieces (fb.drawn calls) fullRepaint
  have hsame := fb.drawn_sameFront calls
  constructor
  · intro hgen x y hx hy hchanged hcontrol
    have hmem := (r.glyph_mem_pieces (fb.drawn calls) fullRepaint (fb.shown calls x y).glyph).mpr
      ⟨x, y, hsame.w ▸ hx, hsame.h ▸ hy, by
        rwa [Renderer.Emits, fb.drawn_atBack calls hx hy, hsame.front, and_iff_left rfl]⟩
    obtain ⟨before, after, hsplit⟩ := List.append_of_mem hmem
    have hpos := glyph_bytes_pos (fb.shown calls x y).glyph
    have hat : ControlAt (r.render (fb.drawn calls) fullRepaint).1.out
        ((before.flatMap Piece.bytes).length + 0) := by
      rw [hwhole, hsplit, List.flatMap_append, List.flatMap_cons, controlAt_append]
      exact (glyph_controlAt _ _ hpos).mpr ⟨rfl, hcontrol⟩
    obtain ⟨bytes, howner, -⟩ := hgen.generated _ hat
    rw [hsplit, Segments.ownerAt_append Piece.bytes before after hpos] at howner
    cases howner
  · intro hplain
    refine ⟨hwhole, fun i hi => ?_⟩
    have hlt : i < ((r.pieces (fb.drawn calls) fullRepaint).flatMap Piece.bytes).length := by
      obtain ⟨b, hb, -⟩ := hi
      rw [hwhole] at hb
      exact (List.getElem?_eq_some_iff.mp hb).1
    obtain ⟨before, p, after, k, hsplit, rfl, hk⟩ := Segments.exists_split Piece.bytes _ i hlt
    have hmem : p ∈ r.pieces (fb.drawn calls) fullRepaint := by
      rw [hsplit]
      exact List.mem_append_right _ List.mem_cons_self
    cases p with
    | generated bytes =>
        refine ⟨bytes, ?_, hcsi bytes hmem⟩
        rw [hsplit, Segments.ownerAt_append Piece.bytes before after hk]
    | glyph cp =>
        rw [hwhole, hsplit, List.flatMap_append, List.flatMap_cons, controlAt_append,
          glyph_controlAt cp _ hk] at hi
        obtain ⟨x, y, hx, hy, hchanged, hglyph⟩ :=
          (r.glyph_mem_pieces (fb.drawn calls) fullRepaint cp).mp hmem
        rw [hsame.w] at hx
        rw [hsame.h] at hy
        rw [fb.drawn_atBack calls hx hy] at hchanged hglyph
        rw [hsame.front] at hchanged
        exact absurd (hglyph ▸ hi.2) (hplain x y hx hy hchanged)

/-- A name of four bytes, of which the first begins a control sequence: it is in
the frame as a glyph. -/
theorem controlsGenerated_escape :
    ¬ ∀ r fb calls fullRepaint, ControlsGenerated r (Framebuffer.drawn fb calls) fullRepaint := by
  intro hall
  have hgen := hall .init (Framebuffer.init.resize 8 1).1
    [.text 0 0 [0x1B, 0x5B, 0x32, 0x4A] kDefaultFg kDefaultBg 0] false
  obtain ⟨bytes, howner, -⟩ := hgen.generated 42 (by
    refine ⟨0x1B, ?_, .inl (by decide)⟩
    decide +kernel)
  have hglyph : Segments.ownerAt Piece.bytes (Renderer.init.pieces
      ((Framebuffer.init.resize 8 1).1.drawn
        [.text 0 0 [0x1B, 0x5B, 0x32, 0x4A] kDefaultFg kDefaultBg 0]) false) 42 =
      some (.glyph 0x1B) := by decide +kernel
  rw [hglyph] at howner
  cases howner

end Heapviz
