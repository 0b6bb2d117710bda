import Heapviz.Abi
import Heapviz.Framebuffer

/-!
# The differential ANSI streamer

`Renderer::render` (`tui/renderer.cpp`) turns the difference between the
two buffers into bytes, and the quantisers of `tui/capabilities.cpp` say
which colour a cell gets when the terminal has fewer than 24 bits of it.

The renderer is its output and what it believes of the terminal: where the
cursor is and which pen is held, colours held as the codes that were
emitted. Every method takes it to the renderer after the call. Bytes are
numbers below 256.
-/

namespace Heapviz

/-! ## Quantisers -/

inductive ColorMode where
  | trueColor
  | cube256
  | ansi16
deriving Repr, DecidableEq

def red (c : Nat) : Nat := (c >>> 16) &&& 0xFF
def green (c : Nat) : Nat := (c >>> 8) &&& 0xFF
def blue (c : Nat) : Nat := c &&& 0xFF

/-- The cube's steps per channel. -/
def kCubeLevels : List Int := [0, 95, 135, 175, 215, 255]

def cubeLevel (i : Nat) : Int := kCubeLevels[i]?.getD 0

def levelDistance (v : Int) (i : Nat) : Int :=
  if cubeLevel i > v then cubeLevel i - v else v - cubeLevel i

def nearestCubeLevel (v : Int) : Nat :=
  ((List.range' 1 5).foldl (fun best i =>
    let d := levelDistance v i
    if d < best.2 then (i, d) else best) (0, levelDistance v 0)).1

def dist2 (r1 g1 b1 r2 g2 b2 : Int) : Int :=
  let dr := r1 - r2
  let dg := g1 - g2
  let db := b1 - b2
  dr * dr + dg * dg + db * db

/-- The xterm palette for indices 0 to 15. -/
def kAnsi16 : List Nat :=
  [0x00000000, 0x00800000, 0x00008000, 0x00808000,
   0x00000080, 0x00800080, 0x00008080, 0x00C0C0C0,
   0x00808080, 0x00FF0000, 0x0000FF00, 0x00FFFF00,
   0x000000FF, 0x00FF00FF, 0x0000FFFF, 0x00FFFFFF]

def rgbToCube256 (c : Nat) : Nat :=
  let ri := nearestCubeLevel (red c)
  let gi := nearestCubeLevel (green c)
  let bi := nearestCubeLevel (blue c)
  let cubeErr := dist2 (red c) (green c) (blue c) (cubeLevel ri) (cubeLevel gi) (cubeLevel bi)
  let avg := (red c + green c + blue c) / 3
  let grayI := if avg ≤ 8 then 0 else if avg ≥ 238 then 23 else (avg - 3) / 10
  let grayV : Int := 8 + 10 * grayI
  let grayErr := dist2 (red c) (green c) (blue c) grayV grayV grayV
  if grayErr < cubeErr then 232 + grayI else 16 + 36 * ri + 6 * gi + bi

def rgbToAnsi16 (c : Nat) : Nat :=
  ((List.range 16).foldl (fun best i =>
    let p := kAnsi16[i]?.getD 0
    let d := dist2 (red c) (green c) (blue c) (red p) (green p) (blue p)
    if best.2 < 0 ∨ d < best.2 then (i, d) else best) ((0 : Nat), (-1 : Int))).1

/-- What a colour is on the wire, in each mode. -/
def ColorMode.code : ColorMode → Nat → Nat
  | .trueColor, c => c
  | .cube256, c => rgbToCube256 c
  | .ansi16, c => rgbToAnsi16 c

/-! ## Bytes -/

def lit (cs : List Char) : List Nat := cs.map Char.toNat

def kReplacement : Nat := 0xFFFD

/-- What `utf8_encode` appends. -/
def utf8Encode (cp : Nat) : List Nat :=
  let cp := if cp > 0x10FFFF ∨ (cp ≥ 0xD800 ∧ cp ≤ 0xDFFF) then kReplacement else cp
  if cp < 0x80 then [cp]
  else if cp < 0x800 then [0xC0 ||| (cp >>> 6), 0x80 ||| (cp &&& 0x3F)]
  else if cp < 0x10000 then
    [0xE0 ||| (cp >>> 12), 0x80 ||| ((cp >>> 6) &&& 0x3F), 0x80 ||| (cp &&& 0x3F)]
  else
    [0xF0 ||| (cp >>> 18), 0x80 ||| ((cp >>> 12) &&& 0x3F), 0x80 ||| ((cp >>> 6) &&& 0x3F),
     0x80 ||| (cp &&& 0x3F)]

/-- The loop of `put_uint`: the digits from the last one on, as many as its
buffer holds. -/
def putUintLoop : Nat → Nat → List Nat
  | 0, _ => []
  | n + 1, v => (0x30 + v % 10) :: if v / 10 ≠ 0 then putUintLoop n (v / 10) else []

/-- What `put_uint` appends. -/
def uintBytes (v : Nat) : List Nat := (putUintLoop 10 v).reverse

/-! ## The renderer -/

structure Renderer where
  out : List Nat
  mode : ColorMode
  penFg : Nat
  penBg : Nat
  penAttrs : Nat
  penValid : Bool
  curX : Nat
  curY : Nat
  curValid : Bool
  emitted : Nat
  examined : Nat
deriving Repr, DecidableEq

namespace Renderer

def init : Renderer := ⟨[], .trueColor, 0, 0, 0, false, 0, 0, false, 0, 0⟩

def setColorMode (r : Renderer) (m : ColorMode) : Renderer :=
  { r with mode := m, penValid := false }

def append (r : Renderer) (bytes : List Nat) : Renderer := { r with out := r.out ++ bytes }

def putUint (r : Renderer) (v : Nat) : Renderer := r.append (uintBytes v)

/-- A zeroed cell is drawn as a space. -/
def putUtf8 (r : Renderer) (cp : Nat) : Renderer :=
  r.append (utf8Encode (if cp = 0 then 0x20 else cp))

def moveTo (r : Renderer) (x y : Nat) : Renderer :=
  if r.curValid = true ∧ r.curX = x ∧ r.curY = y then r
  else
    let r := r.append (lit ['\x1b', '['])
    let r := r.putUint (add32 y 1)
    let r := r.append (lit [';'])
    let r := r.putUint (add32 x 1)
    let r := r.append (lit ['H'])
    { r with curX := x, curY := y, curValid := true }

def resolve (r : Renderer) (c : Nat) : Nat := r.mode.code c

def emitColor (r : Renderer) (foreground : Bool) (code : Nat) : Renderer :=
  match r.mode with
  | .trueColor =>
      let r := r.append (if foreground then lit ['\x1b', '[', '3', '8', ';', '2', ';']
        else lit ['\x1b', '[', '4', '8', ';', '2', ';'])
      let r := r.putUint (red code)
      let r := r.append (lit [';'])
      let r := r.putUint (green code)
      let r := r.append (lit [';'])
      let r := r.putUint (blue code)
      r.append (lit ['m'])
  | .cube256 =>
      let r := r.append (if foreground then lit ['\x1b', '[', '3', '8', ';', '5', ';']
        else lit ['\x1b', '[', '4', '8', ';', '5', ';'])
      let r := r.putUint code
      r.append (lit ['m'])
  | .ansi16 =>
      let r := r.append (lit ['\x1b', '['])
      let r := if code < 8 then r.putUint ((if foreground then 30 else 40) + code)
        else r.putUint ((if foreground then 90 else 100) + (code - 8))
      r.append (lit ['m'])

/-- The lambda of `emit_pen`: one attribute's code, with a separator unless
it is the first. -/
def attrCode (attrs bit : Nat) (sgr : Char) (s : Renderer × Bool) : Renderer × Bool :=
  if attrs &&& bit = 0 then s
  else
    let r := if s.2 = false then s.1.append (lit [';']) else s.1
    (r.append (lit [sgr]), false)

/-- The attributes of the pen: any change goes through a reset. -/
def emitAttrs (r : Renderer) (attrs : Nat) : Renderer :=
  if r.penValid = false ∨ attrs ≠ r.penAttrs then
    let r := { r.append (lit ['\x1b', '[', '0', 'm']) with penValid := false }
    let r :=
      if attrs ≠ 0 then
        let s := (r.append (lit ['\x1b', '[']), true)
        let s := attrCode attrs kAttrBold '1' s
        let s := attrCode attrs kAttrDim '2' s
        let s := attrCode attrs kAttrUnderline '4' s
        let s := attrCode attrs kAttrReverse '7' s
        s.1.append (lit ['m'])
      else r
    { r with penAttrs := attrs }
  else r

/-- The foreground of the pen, unless it is held. -/
def emitFg (r : Renderer) (fg : Nat) : Renderer :=
  if r.penValid = false ∨ fg ≠ r.penFg then { r.emitColor true fg with penFg := fg } else r

def emitBg (r : Renderer) (bg : Nat) : Renderer :=
  if r.penValid = false ∨ bg ≠ r.penBg then { r.emitColor false bg with penBg := bg } else r

def emitPen (r : Renderer) (c : Cell) : Renderer :=
  let r := r.emitAttrs c.attrs
  -- resolved before the comparison: what counts is the code that would be emitted
  let fg := r.resolve c.fg
  let bg := r.resolve c.bg
  let r := r.emitFg fg
  let r := r.emitBg bg
  { r with penValid := true }

/-- The body of the inner loop. -/
def renderCell (fb : Framebuffer) (fullRepaint : Bool) (y : Nat) (r : Renderer) (x : Nat) :
    Renderer :=
  let r := { r with examined := r.examined + 1 }
  let now := fb.atBack x y
  let before := fb.atFront x y
  if fullRepaint = false ∧ now = before then r
  else
    let r := r.moveTo x y
    let r := r.emitPen now
    let r := r.putUtf8 now.glyph
    let r := { r with emitted := r.emitted + 1, curX := r.curX + 1 }
    if r.curX ≥ fb.w then { r with curValid := false } else r

def renderRow (fb : Framebuffer) (fullRepaint : Bool) (r : Renderer) (y : Nat) : Renderer :=
  (List.range fb.w).foldl (renderCell fb fullRepaint y) r

/-- `render`, with the size it returns. -/
def render (r : Renderer) (fb : Framebuffer) (fullRepaint : Bool) : Renderer × Nat :=
  let r := { r with out := [], penValid := false, curValid := false, emitted := 0, examined := 0 }
  if fb.isEmpty then (r, 0)
  else
    let r := (List.range fb.h).foldl (renderRow fb fullRepaint) r
    let r := if r.out ≠ [] then r.append (lit ['\x1b', '[', '0', 'm']) else r
    (r, r.out.length)

end Renderer

end Heapviz
