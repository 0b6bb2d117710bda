import Heapviz.Inspector
import Heapviz.MapSeams
import Heapviz.Panels

/-!
# The inspector's panel

`ChunkInspector::draw` (`tui/inspector.cpp`): the address under the cursor, and
beside it what is known of the chunk that is selected there.

A count of the chunks in the cell shares a row with the address, and the comment
asks that it give way where the two would meet: it is left out where it would
reach past column `kAddressEndCol`. But the address is not where the constant
has it. It is drawn with the other figures, against the right border, and the
count is drawn over it there.

- `draw_keeps`: the panel keeps to its area.
- `address_shown`: how much of the address is left to read.

The seconds of a lifetime are printed from a `double`; how, is a parameter.
-/

namespace Heapviz

/-- `InspectorStyle`. -/
structure InspectorStyle where
  ink : Nat
  dim : Nat
  accent : Nat
  frame : Nat
  live : Nat
  freed : Nat
  bg : Nat
deriving Repr, DecidableEq

/-- The defaults, tokens of the dark theme. -/
def InspectorStyle.default : InspectorStyle :=
  ⟨0xD8D8D8, 0x7A7A7A, 0xF5A623, 0xC87828, 0x3584E4, 0xF36A72, 0x0C0C0C⟩

/-- `chunk_status_str`. -/
def chunkStatusStr : ChunkStatus → List Nat
  | .unallocated => lit "UNALLOCATED".toList
  | .active => lit "ACTIVE (ptmalloc)".toList
  | .mmapped => lit "MMAPPED".toList
  | .freed => lit "FREED".toList

/-- `chunk_bytes`. -/
def ChunkDetail.chunkBytes (d : ChunkDetail) : Nat := add64 d.size d.overhead

/-- `ChunkInspector` with the members that only drawing needs; `seconds` is what
`%.1f` makes of a thousandth of a number. -/
structure InspectorPanel extends ChunkInspector where
  style : InspectorStyle
  firstSeen : Bool
  seconds : Nat → List Nat

namespace InspectorPanel

/-- Where the values start that stand beside their label. -/
def kValueCol : Int := 12

def kAddressEndCol : Int := kValueCol + 18

/-! ## Drawing -/

/-- A row of the panel. -/
def field (v : InspectorPanel) : Rect → Int → List Nat → List Nat → Nat → Bool → Framebuffer →
    Framebuffer :=
  panelField v.style.dim v.style.bg kValueCol

/-- There is a chunk to show. -/
def haveChunk (v : InspectorPanel) : Bool := v.current.status ≠ .unallocated

/-- The address of the cursor, in the target if the regions know it. -/
def cursorAddr (cur : MapCursor) (regions : Option RegionMap) : Nat :=
  match regions with
  | none => cur.coord
  | some regions => (regions.toAddr cur.coord).getD cur.coord

def addressText (addr : Nat) : List Nat := lit "0x".toList ++ formatHex 16 addr

/-- The rows of an empty cell below the address. -/
def drawNothing (v : InspectorPanel) (area : Rect) (fb : Framebuffer) : Framebuffer :=
  let fb := v.field area 2 (lit "Status".toList) (chunkStatusStr .unallocated) v.style.dim false fb
  let fb := (panelText fb area 2 3 (lit "address space the target has not used".toList) v.style.dim
    v.style.bg 0).1
  (panelText fb area 2 4 (lit "n / N find the next occupied cell".toList) v.style.dim
    v.style.bg 0).1

def drawUserSize (v : InspectorPanel) (area : Rect) : Framebuffer → Framebuffer :=
  let d := v.current
  v.field area 2 (lit "User Size".toList)
    (snprintf 192 (formatCount 48 d.size ++ lit " bytes (".toList ++ formatByteSize d.size ++
      lit ")".toList)) v.style.ink true

/-- The real size; an overhead that was not measured is marked. -/
def drawRealSize (v : InspectorPanel) (area : Rect) : Framebuffer → Framebuffer :=
  let d := v.current
  v.field area 3 (lit "Real Size".toList)
    (snprintf 192 (formatCount 48 d.chunkBytes ++ lit " bytes (".toList ++
      (if d.exact then [] else lit "~".toList) ++ formatDec d.overhead ++ lit " B overhead".toList ++
      lit (if d.exact then ", measured" else ", inferred").toList ++ lit ")".toList))
    v.style.ink true

def drawStatus (v : InspectorPanel) (area : Rect) : Framebuffer → Framebuffer :=
  let d := v.current
  v.field area 4 (lit "Status".toList) (chunkStatusStr d.status)
    (if d.status = .freed then v.style.freed else v.style.live) false

/-- For how long the chunk has been alive, or was. -/
def lifetimeMs (v : InspectorPanel) (nowMs : Nat) : Nat :=
  let d := v.current
  let endMs := if d.status = .freed then d.freeMs else nowMs
  if endMs > d.allocMs then endMs - d.allocMs else 0

def drawLifetime (v : InspectorPanel) (area : Rect) (nowMs : Nat) : Framebuffer → Framebuffer :=
  let qualifier :=
    if v.current.status = .freed then "(lived)"
    else if v.firstSeen then "(since seen)" else "(so far)"
  v.field area 5 (lit "Lifetime".toList)
    (snprintf 192 (v.seconds (v.lifetimeMs nowMs) ++ lit " s ".toList ++ lit qualifier.toList))
    v.style.ink true

/-- The count of the chunks in the cell, in full. -/
def crowdText (v : InspectorPanel) : List Nat :=
  snprintf 192 <|
    lit " ".toList ++ formatDec (v.pos + 1) ++ lit " of ".toList ++ formatDec v.total ++
      if v.found.length < v.total then
        lit " here (".toList ++ formatDec v.found.length ++ lit " reachable) - Tab ".toList
      else lit " in this cell - Tab ".toList

/-- Its short form. -/
def crowdShort (v : InspectorPanel) : List Nat :=
  snprintf 192 (lit " ".toList ++ formatDec (v.pos + 1) ++ lit "/".toList ++ formatDec v.total ++
    lit " Tab ".toList)

/-- The count as it is drawn on a panel `w` columns wide, if it is: the first of the
two that ends up to the right of `kAddressEndCol`. -/
def crowd (v : InspectorPanel) (w : Int) : Option (List Nat) :=
  if v.total > 1 then
    if w - v.crowdText.length ≤ kAddressEndCol then
      if w - v.crowdShort.length ≤ kAddressEndCol then none else some v.crowdShort
    else some v.crowdText
  else none

def drawCrowd (v : InspectorPanel) (area : Rect) (fb : Framebuffer) : Framebuffer :=
  match v.crowd area.w with
  | none => fb
  | some line => (panelTextRight fb area 1 line v.style.accent v.style.bg 0).1

/-- The rows of a chunk below its address. -/
def drawDetail (v : InspectorPanel) (area : Rect) (nowMs : Nat) (fb : Framebuffer) : Framebuffer :=
  v.drawLifetime area nowMs (v.drawStatus area (v.drawRealSize area (v.drawUserSize area fb)))

/-- `ChunkInspector::draw`. -/
def draw (v : InspectorPanel) (area : Rect) (g : Grid) (cur : MapCursor)
    (regions : Option RegionMap) (nowMs : Nat) (fb : Framebuffer) : Framebuffer :=
  if area.w ≤ 0 ∨ area.h ≤ 0 then fb
  else
    let fb := panelRule fb area (lit " CHUNK INSPECTOR ".toList) v.style.frame v.style.accent
      v.style.bg
    if g.valid = false then
      (panelText fb area 2 1 (lit "waiting for the target's memory map".toList) v.style.dim
        v.style.bg 0).1
    else if v.haveChunk = false then
      v.drawNothing area (v.field area 1 (lit "Address".toList)
        (snprintf 192 (addressText (cursorAddr cur regions))) v.style.dim true fb)
    else
      v.drawCrowd area (v.drawDetail area nowMs (v.field area 1 (lit "Address".toList)
        (snprintf 192 (addressText v.current.addr)) v.style.ink true fb))

/-! ## The panel keeps to its area -/

section Keeps

variable {base : Framebuffer} {area : Rect} (v : InspectorPanel)

theorem drawNothing_keeps : base.Keeps (v.drawNothing area) area.Has :=
  .comp (g := fun fb => (panelText (panelText fb area 2 3 _ _ _ 0).1 area 2 4 _ _ _ 0).1)
    (panelField_keeps _ _ _ _ _ _ _ _)
    (.comp (g := fun fb => (panelText fb area 2 4 _ _ _ 0).1) (panelText_keeps _ _ _ _ _ _)
      (panelText_keeps _ _ _ _ _ _))

theorem drawDetail_keeps (nowMs : Nat) : base.Keeps (v.drawDetail area nowMs) area.Has := by
  have huser : base.Keeps (v.drawUserSize area) area.Has := by
    unfold drawUserSize
    exact panelField_keeps _ _ _ _ _ _ _ _
  have hreal : base.Keeps (v.drawRealSize area) area.Has := by
    unfold drawRealSize
    exact panelField_keeps _ _ _ _ _ _ _ _
  have hstatus : base.Keeps (v.drawStatus area) area.Has := by
    unfold drawStatus
    exact panelField_keeps _ _ _ _ _ _ _ _
  have hlifetime : base.Keeps (v.drawLifetime area nowMs) area.Has := by
    unfold drawLifetime
    exact panelField_keeps _ _ _ _ _ _ _ _
  exact ((huser.comp hreal).comp hstatus).comp hlifetime

theorem drawCrowd_keeps : base.Keeps (v.drawCrowd area) area.Has := by
  unfold drawCrowd
  cases v.crowd area.w with
  | none => exact .skip
  | some line => exact panelTextRight_keeps _ _ _ _ _

theorem draw_keeps (hr : area.Fits) (g : Grid) (cur : MapCursor) (regions : Option RegionMap)
    (nowMs : Nat) : base.Keeps (v.draw area g cur regions nowMs) area.Has :=
  .ite (fun _ => .skip) fun _ => .comp (panelRule_keeps hr _ _ _ _) <|
    .ite (fun _ => panelText_keeps _ _ _ _ _ _) fun _ =>
      .ite (fun _ => .comp (panelField_keeps _ _ _ _ _ _ _ _) v.drawNothing_keeps) fun _ =>
        .comp (panelField_keeps _ _ _ _ _ _ _ _) <| .comp (v.drawDetail_keeps nowMs) v.drawCrowd_keeps

end Keeps

end InspectorPanel

/-! ## What a row reads -/

/-- The area lies on the screen. -/
structure Rect.Within (r : Rect) (fb : Framebuffer) : Prop where
  left : 0 ≤ r.x
  top : 0 ≤ r.y
  right : r.x + r.w ≤ fb.w
  bottom : r.y + r.h ≤ fb.h

section Within

variable {r : Rect} {fb fb' : Framebuffer}

theorem Rect.Within.sameFront (h : r.Within fb) (hsame : fb.SameFront fb') : r.Within fb' :=
  ⟨h.left, h.top, hsame.w ▸ h.right, hsame.h ▸ h.bottom⟩

theorem Rect.Within.fits (h : r.Within fb) (hw : 0 < r.w) (hh : 0 < r.h) : r.Fits := by
  obtain ⟨hleft, htop, hright, hbottom⟩ := h
  have hopen : fb.isEmpty = false :=
    Framebuffer.isEmpty_of_inside (x := 0) (y := 0) (by omega) (by omega)
  obtain ⟨hfw, hfh⟩ := Framebuffer.sides_lt hopen
  exact ⟨by omega, by omega, by omega, by omega⟩

end Within

/-- From the column on, the row has these glyphs. -/
def Framebuffer.Reads (fb : Framebuffer) (x y : Int) (s : List Nat) : Prop :=
  ∀ k (hk : k < s.length), (fb.atBack (x + k).toNat y.toNat).glyph = s[k]

section Reads

variable {fb fb' : Framebuffer} {x y : Int} {s : List Nat}

theorem Framebuffer.text_atBack (tx ty : Int) (s : List Nat) (fg bg attrs : Nat) {px py : Nat}
    (hx : px < fb.w) (hy : py < fb.h) :
    (fb.text tx ty s fg bg attrs).1.atBack px py =
      ((DrawCall.text tx ty s fg bg attrs).cellAt px py).getD (fb.atBack px py) :=
  DrawCall.apply_atBack fb (.text tx ty s fg bg attrs) hx hy

theorem Framebuffer.text_reads (hs : ∀ b ∈ s, b < 0x80) (hx : 0 ≤ x) (hxw : x + s.length ≤ fb.w)
    (hy : 0 ≤ y) (hyh : y < fb.h) (fg bg attrs : Nat) :
    (fb.text x y s fg bg attrs).1.Reads x y s := by
  intro k hk
  have hcol : ((x + k).toNat - x : Int).toNat = k := by omega
  rw [Framebuffer.text_atBack x y s fg bg attrs (by omega) (by omega), DrawCall.cellAt,
    if_pos ⟨by omega, by omega⟩, decodeText_ascii hs, hcol, List.getElem?_eq_getElem hk]
  rfl

/-- What a drawing does not touch reads as before. -/
theorem Framebuffer.Reads.confined {part : Nat → Nat → Prop} (h : fb.Reads x y s)
    (hc : fb.Confined fb' part) (hx : 0 ≤ x) (hxw : x + s.length ≤ fb.w) (hy : 0 ≤ y)
    (hyh : y < fb.h) (hpart : ∀ i j : Nat, j = y → ¬ part i j) : fb'.Reads x y s := by
  intro k hk
  rw [hc.rest _ _ (by omega) (by omega) (hpart _ _ (by omega))]
  exact h k hk

/-- The characters that are coloured afterwards stay what they are. -/
theorem Framebuffer.Reads.recolour (h : fb.Reads x y s) (number bg : Nat) (coloured : Nat → Bool)
    (ps : List (Nat × Nat)) (hps : ∀ p ∈ ps, s[p.2]? = some p.1) (hx : 0 ≤ x)
    (hxw : x + s.length ≤ fb.w) (hy : 0 ≤ y) (hyh : y < fb.h) :
    (ps.foldl (fun fb p =>
      if coloured p.1 then fb.put (x + p.2) y ⟨p.1, number, bg, 0⟩ else fb) fb).Reads x y s := by
  induction ps generalizing fb with
  | nil => exact h
  | cons p ps ih =>
      rw [List.foldl_cons]
      have hrest : ∀ q ∈ ps, s[q.2]? = some q.1 := fun q hq => hps q (List.mem_cons_of_mem _ hq)
      split
      · have hsame := fb.put_sameFront (x + p.2) y ⟨p.1, number, bg, 0⟩
        refine ih (fun k hk => ?_) hrest (hsame.w ▸ hxw) (hsame.h ▸ hyh)
        rw [Framebuffer.put_atBack fb _ _ _ (by omega) (by omega)]
        split
        · rename_i hhere
          have hp := hps p List.mem_cons_self
          have hcol : p.2 = k := by omega
          rw [hcol, List.getElem?_eq_getElem hk] at hp
          exact (Option.some.inj hp).symm
        · exact h k hk
      · exact ih h hrest hxw hyh

theorem panelNumericRight_reads {area : Rect} (harea : area.Within fb) {dy : Int}
    (hdy : 0 ≤ dy ∧ dy < area.h) (hs : ∀ b ∈ s, b < 0x80) (hw : (s.length : Int) + 4 ≤ area.w)
    (hpos : 0 < s.length) (number dim bg : Nat) :
    (panelNumericRight fb area dy s number dim bg).1.Reads (area.x + area.w - 2 - s.length)
      (area.y + dy) s := by
  obtain ⟨hleft, htop, hright, hbottom⟩ := harea
  unfold panelNumericRight
  rw [if_neg (by omega), if_neg (by omega)]
  have hsame : fb.SameFront
      (fb.text (area.x + area.w - 2 - s.length) (area.y + dy) s dim bg 0).1 :=
    DrawCall.apply_sameFront fb (.text _ _ s dim bg 0)
  have htext : (fb.text (area.x + area.w - 2 - s.length) (area.y + dy) s dim bg 0).1.Reads
      (area.x + area.w - 2 - s.length) (area.y + dy) s :=
    Framebuffer.text_reads hs (by omega) (by omega) (by omega) (by omega) dim bg 0
  refine htext.recolour number bg (numericChar (isHexadecimal s)) _ (fun p hp => ?_) (by omega)
    (by rw [hsame.w]; omega) (by omega) (by rw [hsame.h]; omega)
  exact List.mem_zipIdx_iff_getElem?.mp hp

end Reads

/-! ## The row of the address -/

namespace InspectorPanel

section Address

variable {fb : Framebuffer} {area : Rect}

theorem addressText_length {addr : Nat} (h : addr < 2 ^ 64) : (addressText addr).length = 18 := by
  have hlen := Numerals.length_digits_le (by decide : 1 < 16) (by decide : 0 < 16)
    (lt_of_lt_of_eq h (by norm_num))
  have hprefix : (lit "0x".toList).length = 2 := rfl
  rw [addressText, formatHex, List.length_append, List.length_append, List.length_replicate,
    List.length_map, hprefix]
  omega

theorem addressText_ascii (addr : Nat) : ∀ b ∈ addressText addr, b < 0x80 := by
  intro b hb
  rcases List.mem_append.mp hb with hx | hb
  · have hprefix : ∀ b ∈ lit "0x".toList, b < 0x80 := by decide
    exact hprefix b hx
  rcases List.mem_append.mp hb with hzero | hdigit
  · rw [List.eq_of_mem_replicate hzero]
    decide
  · obtain ⟨d, hd, rfl⟩ := List.mem_map.mp hdigit
    have hlt : d < 16 := Numerals.digits_lt (by decide) hd
    unfold hexChar
    split <;> omega

/-- Either form of the count takes up columns, the full one more. -/
theorem crowd_length (v : InspectorPanel) :
    9 ≤ v.crowdShort.length ∧ 27 ≤ v.crowdText.length ∧
      v.crowdShort.length ≤ v.crowdText.length := by
  have hpos := formatDec_length_pos (v.pos + 1)
  have htotal := formatDec_length_pos v.total
  have hlits : (lit " ".toList).length = 1 ∧ (lit "/".toList).length = 1 ∧
      (lit " Tab ".toList).length = 5 ∧ (lit " of ".toList).length = 4 ∧
      (lit " here (".toList).length = 7 ∧ (lit " reachable) - Tab ".toList).length = 18 ∧
      (lit " in this cell - Tab ".toList).length = 20 := ⟨rfl, rfl, rfl, rfl, rfl, rfl, rfl⟩
  unfold crowdText crowdShort
  split
  · simp only [snprintf, List.length_take, List.length_append, hlits]
    omega
  · simp only [snprintf, List.length_take, List.length_append, hlits]
    omega

theorem crowdText_ascii (v : InspectorPanel) : ∀ b ∈ v.crowdText, b < 0x80 := by
  intro b hb
  have hb := List.mem_of_mem_take hb
  simp only [List.mem_append] at hb
  rcases hb with ((((hb | hb) | hb) | hb) | hb)
  · exact (by decide : ∀ b ∈ lit " ".toList, b < 0x80) b hb
  · exact formatDec_ascii _ b hb
  · exact (by decide : ∀ b ∈ lit " of ".toList, b < 0x80) b hb
  · exact formatDec_ascii _ b hb
  · split at hb
    · simp only [List.mem_append] at hb
      rcases hb with ((hb | hb) | hb)
      · exact (by decide : ∀ b ∈ lit " here (".toList, b < 0x80) b hb
      · exact formatDec_ascii _ b hb
      · exact (by decide : ∀ b ∈ lit " reachable) - Tab ".toList, b < 0x80) b hb
    · exact (by decide : ∀ b ∈ lit " in this cell - Tab ".toList, b < 0x80) b hb

theorem crowdShort_ascii (v : InspectorPanel) : ∀ b ∈ v.crowdShort, b < 0x80 := by
  intro b hb
  have hb := List.mem_of_mem_take hb
  simp only [List.mem_append] at hb
  rcases hb with ((((hb | hb) | hb) | hb) | hb)
  · exact (by decide : ∀ b ∈ lit " ".toList, b < 0x80) b hb
  · exact formatDec_ascii _ b hb
  · exact (by decide : ∀ b ∈ lit "/".toList, b < 0x80) b hb
  · exact formatDec_ascii _ b hb
  · exact (by decide : ∀ b ∈ lit " Tab ".toList, b < 0x80) b hb

/-- A count that is drawn ends up to the right of `kAddressEndCol`. -/
theorem crowd_eq_some {v : InspectorPanel} {w : Int} {line : List Nat}
    (h : v.crowd w = some line) :
    9 ≤ line.length ∧ (line.length : Int) < w ∧ ∀ b ∈ line, b < 0x80 := by
  obtain ⟨hshort, hfull, -⟩ := v.crowd_length
  have hend : 0 ≤ kAddressEndCol := by decide
  unfold crowd at h
  split_ifs at h with hmany hnarrow hshorter
  · obtain rfl := Option.some.inj h
    exact ⟨hshort, by omega, v.crowdShort_ascii⟩
  · obtain rfl := Option.some.inj h
    exact ⟨by omega, by omega, v.crowdText_ascii⟩

theorem panelText_confined (fb : Framebuffer) (area : Rect) (dx dy : Int) (s : List Nat) (fg bg attrs : Nat) :
    fb.Confined (panelText fb area dx dy s fg bg attrs).1 fun _ y => area.y + dy = y := by
  unfold panelText
  split_ifs
  · exact .refl fb
  · exact .refl fb
  · exact .text _ _ _ _ _ _ _

theorem panelNumericRight_confined (fb : Framebuffer) (area : Rect) (dy : Int) (s : List Nat)
    (number dim bg : Nat) :
    fb.Confined (panelNumericRight fb area dy s number dim bg).1 fun _ y => area.y + dy = y := by
  unfold panelNumericRight
  split_ifs
  · exact .refl fb
  · exact .refl fb
  · refine .trans (.text _ _ _ _ _ _ _) (.foldl _ (fun fb' p => ?_) _)
    split
    · exact .put (fun _ _ _ hy => hy) _
    · exact .refl fb'

/-- A row of the panel is drawn in that row. -/
theorem field_confined (v : InspectorPanel) (area : Rect) (dy : Int) (label value : List Nat)
    (colour : Nat) (numeric : Bool) (fb : Framebuffer) :
    fb.Confined (v.field area dy label value colour numeric fb) fun _ y => area.y + dy = y := by
  unfold field panelField
  dsimp only
  split
  · exact (panelText_confined _ _ _ _ _ _ _ _).trans (panelNumericRight_confined _ _ _ _ _ _ _)
  · exact (panelText_confined _ _ _ _ _ _ _ _).trans (panelText_confined _ _ _ _ _ _ _ _)

/-- What is below the address is not in its row. -/
theorem drawDetail_confined (v : InspectorPanel) (nowMs : Nat) (fb : Framebuffer) :
    fb.Confined (v.drawDetail area nowMs fb) fun _ y => area.y + 1 ≠ y := by
  have hrow : ∀ (dy : Int) label value colour numeric (fb : Framebuffer), dy ≠ 1 →
      fb.Confined (v.field area dy label value colour numeric fb) fun _ y => area.y + 1 ≠ y :=
    fun dy label value colour numeric fb hdy =>
      (v.field_confined area dy label value colour numeric fb).mono fun _ y hy => by omega
  unfold drawDetail drawLifetime drawStatus drawRealSize drawUserSize
  exact (((hrow 2 _ _ _ _ fb (by decide)).trans (hrow 3 _ _ _ _ _ (by decide))).trans
    (hrow 4 _ _ _ _ _ (by decide))).trans (hrow 5 _ _ _ _ _ (by decide))

/-- The row of the address, before the count is drawn. -/
theorem drawDetail_reads (v : InspectorPanel) (nowMs : Nat) (harea : area.Within fb)
    (hw : 22 ≤ area.w) (hh : 2 ≤ area.h) {addr : Nat} (haddr : addr < 2 ^ 64) (colour : Nat) :
    (v.drawDetail area nowMs (v.field area 1 (lit "Address".toList)
      (snprintf 192 (addressText addr)) colour true fb)).Reads (area.x + area.w - 20)
        (area.y + 1) (addressText addr) := by
  have hlen := addressText_length haddr
  have hcut : snprintf 192 (addressText addr) = addressText addr := by
    rw [snprintf, List.take_of_length_le (by omega)]
  have hlabel := panelText_confined fb area 2 1 (lit "Address".toList) v.style.dim
    v.style.bg 0
  have harea' : area.Within (panelText fb area 2 1 (lit "Address".toList) v.style.dim
      v.style.bg 0).1 :=
    ⟨harea.left, harea.top, hlabel.w ▸ harea.right, hlabel.h ▸ harea.bottom⟩
  have hrow : 0 ≤ (1 : Int) ∧ 1 < area.h := by omega
  have hvalue := panelNumericRight_reads harea' hrow (addressText_ascii addr) (by omega)
    (by omega) colour v.style.dim v.style.bg
  have hcol : area.x + area.w - 2 - ((addressText addr).length : Int) = area.x + area.w - 20 := by
    omega
  have hsame := (v.field_confined area 1 (lit "Address".toList) (addressText addr) colour
    true fb).toSameFront
  obtain ⟨hleft, htop, hright, hbottom⟩ := harea
  rw [hcol] at hvalue
  rw [hcut]
  refine Framebuffer.Reads.confined hvalue (v.drawDetail_confined nowMs _) (by omega) ?_ (by omega)
    ?_ fun i j hj hne => hne hj.symm
  · show area.x + area.w - 20 + ((addressText addr).length : Int) ≤
      (v.field area 1 (lit "Address".toList) (addressText addr) colour true fb).w
    rw [hsame.w]
    omega
  · show area.y + 1 < (v.field area 1 (lit "Address".toList) (addressText addr) colour true fb).h
    rw [hsame.h]
    omega

/-- The count is drawn over what is there. -/
theorem drawCrowd_reads (v : InspectorPanel) (harea : area.Within fb) (hh : 2 ≤ area.h)
    {addr line : List Nat} (hw : 20 ≤ area.w)
    (haddr : fb.Reads (area.x + area.w - 20) (area.y + 1) addr) (hlen : addr.length = 18)
    (hcrowd : v.crowd area.w = some line) :
    (v.drawCrowd area fb).Reads (area.x + area.w - line.length) (area.y + 1) line ∧
      (v.drawCrowd area fb).Reads (area.x + area.w - 20) (area.y + 1)
        (addr.take (20 - line.length)) := by
  obtain ⟨hlong, hfits, hascii⟩ := crowd_eq_some hcrowd
  obtain ⟨hleft, htop, hright, hbottom⟩ := harea
  have hdraw : v.drawCrowd area fb = (fb.text (area.x + (area.w - line.length)) (area.y + 1) line
      v.style.accent v.style.bg 0).1 := by
    unfold drawCrowd panelTextRight
    simp only [hcrowd]
    rw [if_neg (by omega), if_neg (by omega), if_neg (by omega)]
  have hcol : area.x + area.w - (line.length : Int) = area.x + (area.w - line.length) := by omega
  rw [hdraw, hcol]
  refine ⟨Framebuffer.text_reads hascii (by omega) (by omega) (by omega) (by omega) _ _ _,
    fun k hk => ?_⟩
  rw [List.length_take] at hk
  -- what is left of the address ends before the count begins
  have hbefore : ((area.x + area.w - 20 + k).toNat : Int) < area.x + (area.w - line.length) := by
    omega
  rw [Framebuffer.text_atBack _ _ _ _ _ _ (by omega) (by omega),
    DrawCall.cellAt_text_left hbefore, List.getElem_take]
  exact haddr k (by omega)

theorem crowd_eq_none {v : InspectorPanel} {w : Int}
    (h : v.total ≤ 1 ∨ w ≤ kAddressEndCol + v.crowdShort.length) : v.crowd w = none := by
  have hle := v.crowd_length.2.2
  unfold crowd
  by_cases hmany : v.total > 1
  · have hw : w ≤ kAddressEndCol + v.crowdShort.length := h.resolve_left (by omega)
    rw [if_pos hmany, if_pos (by omega), if_pos (by omega)]
  · rw [if_neg hmany]

/-- A panel of a chunk, with its count still to be drawn. -/
theorem draw_reads (v : InspectorPanel) (g : Grid) (cur : MapCursor) (regions : Option RegionMap)
    (nowMs : Nat) (harea : area.Within fb) (hw : 22 ≤ area.w) (hh : 2 ≤ area.h)
    (hg : g.valid = true) (hchunk : v.haveChunk = true) (haddr : v.current.addr < 2 ^ 64) :
    ∃ fb', v.draw area g cur regions nowMs fb = v.drawCrowd area fb' ∧ area.Within fb' ∧
      fb'.Reads (area.x + area.w - 20) (area.y + 1) (addressText v.current.addr) := by
  have hrule : fb.Keeps (fun fb => panelRule fb area (lit " CHUNK INSPECTOR ".toList) v.style.frame
      v.style.accent v.style.bg) area.Has :=
    panelRule_keeps (harea.fits (by omega) (by omega)) _ _ _ _
  have hruled := harea.sameFront (hrule.keeps fb (.refl fb))
  have hfield := (v.field_confined area 1 (lit "Address".toList)
    (snprintf 192 (addressText v.current.addr)) v.style.ink true
    (panelRule fb area (lit " CHUNK INSPECTOR ".toList) v.style.frame v.style.accent
      v.style.bg)).toSameFront
  refine ⟨_, ?_, (hruled.sameFront hfield).sameFront (v.drawDetail_confined nowMs _).toSameFront,
    v.drawDetail_reads nowMs hruled hw hh haddr v.style.ink⟩
  unfold draw
  rw [if_neg (by omega), if_neg (by simp [hg]), if_neg (by simp [hchunk])]

end Address

/-- **How much of the address is left.** The panel of a chunk shows its address in
full while no count is drawn: the chunk is alone in its cell, or the panel narrower
than the short form and thirty columns. On a wider one the count is drawn over the
address, of which no more than its first eleven characters are left to read; and
where there is room for the count in full, none. -/
theorem address_shown (v : InspectorPanel) (g : Grid) (cur : MapCursor)
    (regions : Option RegionMap) (nowMs : Nat) (fb : Framebuffer) (area : Rect)
    (harea : area.Within fb) (hw : 22 ≤ area.w) (hh : 2 ≤ area.h) (hg : g.valid = true)
    (hchunk : v.haveChunk = true) (haddr : v.current.addr < 2 ^ 64) :
    (v.total ≤ 1 ∨ area.w ≤ kAddressEndCol + v.crowdShort.length →
      (v.draw area g cur regions nowMs fb).Reads (area.x + area.w - 20) (area.y + 1)
        (addressText v.current.addr)) ∧
    (1 < v.total → kAddressEndCol + v.crowdShort.length < area.w →
      ∃ line, (line = v.crowdShort ∨ line = v.crowdText) ∧ 9 ≤ line.length ∧
        (v.draw area g cur regions nowMs fb).Reads (area.x + area.w - line.length) (area.y + 1)
          line ∧
        (v.draw area g cur regions nowMs fb).Reads (area.x + area.w - 20) (area.y + 1)
          ((addressText v.current.addr).take (20 - line.length))) ∧
    (1 < v.total → kAddressEndCol + v.crowdText.length < area.w →
      27 ≤ v.crowdText.length ∧
      (v.draw area g cur regions nowMs fb).Reads (area.x + area.w - v.crowdText.length)
        (area.y + 1) v.crowdText) := by
  obtain ⟨fb', hdraw, harea', hreads⟩ :=
    draw_reads v g cur regions nowMs harea hw hh hg hchunk haddr
  have hlen := addressText_length haddr
  obtain ⟨-, hfull, hle⟩ := v.crowd_length
  rw [hdraw]
  refine ⟨fun hnone => ?_, fun hmany hwide => ?_, fun hmany hwide => ?_⟩
  · have hcrowd := crowd_eq_none hnone
    unfold drawCrowd
    rw [hcrowd]
    exact hreads
  · have hcrowd : ∃ line, v.crowd area.w = some line ∧
        (line = v.crowdShort ∨ line = v.crowdText) := by
      unfold crowd
      rw [if_pos hmany]
      split_ifs with hnarrow hshort
      · omega
      · exact ⟨_, rfl, .inl rfl⟩
      · exact ⟨_, rfl, .inr rfl⟩
    obtain ⟨line, hcrowd, hline⟩ := hcrowd
    have hover := v.drawCrowd_reads harea' hh (by omega) hreads hlen hcrowd
    exact ⟨line, hline, (crowd_eq_some hcrowd).1, hover⟩
  · have hcrowd : v.crowd area.w = some v.crowdText := by
      unfold crowd
      rw [if_pos hmany, if_neg (by omega)]
    exact ⟨hfull, (v.drawCrowd_reads harea' hh (by omega) hreads hlen hcrowd).1⟩

/-- A cell with two chunks, the first of them selected. -/
def twoInCell : InspectorPanel where
  found := [⟨0x1000, 24, 24, 0, 0, 0, 1, .active, false⟩,
    ⟨0x1020, 16, 24, 8, 0, 0, 1, .active, false⟩]
  total := 2
  pos := 0
  cell := 0
  lastMs := 0
  selected := 0x1000
  scans := 1
  style := .default
  firstSeen := false
  seconds := formatDec

theorem address_shown_two :
    (twoInCell.draw ⟨0, 0, 100, 7⟩ ⟨0x1000, 0x2000, 64, 6, 8, 8, true⟩ ⟨0⟩ none 0
      (Framebuffer.init.resize 100 7).1).Reads 73 1 (lit " 1 of 2 in this cell - Tab ".toList) := by
  have hcount : twoInCell.crowdText = lit " 1 of 2 in this cell - Tab ".toList := by rfl
  have hover := (address_shown twoInCell ⟨0x1000, 0x2000, 64, 6, 8, 8, true⟩ ⟨0⟩ none 0
    (Framebuffer.init.resize 100 7).1 ⟨0, 0, 100, 7⟩ ⟨by decide, by decide, by decide, by decide⟩
    (by decide) (by decide) rfl rfl (by decide)).2.2 (by decide) (by rw [hcount]; decide)
  rw [hcount] at hover
  exact hover.2

end InspectorPanel

end Heapviz
