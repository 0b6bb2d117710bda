import Heapviz.Renderer

/-!
# Text in cells

`Framebuffer::text` (`tui/framebuffer.cpp`) decodes a string and writes one
code point a cell. Whatever the bytes are, the decoder gives a code point and
goes on, and every byte below 0x80 is one, so a string decides freely what the
cells hold.

What a sequence of `text` and `put` calls leaves in a cell is said apart from
the buffer: it is what the last call that reaches the cell writes there
(`Framebuffer.shown`).
-/

namespace Heapviz

/-! ## The decoder -/

/-- `cont`: the byte is there, and continues a sequence. -/
def isCont (s : List Nat) (k : Nat) : Bool :=
  match s[k]? with
  | some b => b &&& 0xC0 == 0x80
  | none => false

def contBits (s : List Nat) (k : Nat) : Nat := s[k]?.getD 0 &&& 0x3F

/-- `utf8_decode` at the head of what is left of the string: the code point, and
how many bytes it took. -/
def utf8Decode (s : List Nat) : Nat × Nat :=
  match s with
  | [] => (kReplacement, 1)
  | b0 :: _ =>
      if b0 < 0x80 then (b0, 1)
      else if b0 < 0xC2 ∨ b0 > 0xF4 then (kReplacement, 1)
      else if b0 < 0xE0 then
        if isCont s 1 then (((b0 &&& 0x1F) <<< 6) ||| contBits s 1, 2) else (kReplacement, 1)
      else if b0 < 0xF0 then
        if isCont s 1 && isCont s 2 then
          let v := ((b0 &&& 0x0F) <<< 12) ||| (contBits s 1 <<< 6) ||| contBits s 2
          if v < 0x800 ∨ (v ≥ 0xD800 ∧ v ≤ 0xDFFF) then (kReplacement, 1) else (v, 3)
        else (kReplacement, 1)
      else if isCont s 1 && isCont s 2 && isCont s 3 then
        let v := ((b0 &&& 0x07) <<< 18) ||| (contBits s 1 <<< 12) ||| (contBits s 2 <<< 6) |||
          contBits s 3
        if v < 0x10000 ∨ v > 0x10FFFF then (kReplacement, 1) else (v, 4)
      else (kReplacement, 1)

theorem utf8Decode_pos (s : List Nat) : 0 < (utf8Decode s).2 := by
  unfold utf8Decode
  cases s with
  | nil => exact Nat.one_pos
  | cons b0 s =>
      dsimp only
      split_ifs <;> exact Nat.succ_pos _

theorem length_drop_utf8Decode (b : Nat) (s : List Nat) :
    ((b :: s).drop (utf8Decode (b :: s)).2).length < (b :: s).length := by
  have hpos := utf8Decode_pos (b :: s)
  rw [List.length_drop, List.length_cons]
  omega

/-- The code points of a string, in order. -/
def decodeText : List Nat → List Nat
  | [] => []
  | b :: s => (utf8Decode (b :: s)).1 :: decodeText ((b :: s).drop (utf8Decode (b :: s)).2)
termination_by s => s.length
decreasing_by exact length_drop_utf8Decode b s

/-- Bytes below 0x80 are their own code points. -/
theorem decodeText_ascii {s : List Nat} (h : ∀ b ∈ s, b < 0x80) : decodeText s = s := by
  induction s with
  | nil => rw [decodeText]
  | cons b s ih =>
      have hhead : utf8Decode (b :: s) = (b, 1) := if_pos (h b List.mem_cons_self)
      rw [decodeText, hhead]
      exact congrArg (b :: ·) (ih fun b' hb' => h b' (List.mem_cons_of_mem _ hb'))

/-! ## Drawing -/

def Framebuffer.setBack (fb : Framebuffer) (x y : Nat) (c : Cell) : Framebuffer :=
  { fb with back := fb.back.setIfInBounds (fb.index x y) c }

/-- The loop of `text`, with the count it returns. -/
def Framebuffer.textLoop (y : Int) (fg bg attrs : Nat) :
    List Nat → Int → Framebuffer → Nat → Framebuffer × Nat
  | [], _, fb, written => (fb, written)
  | b :: s, col, fb, written =>
      if col < fb.w then
        let rest := (b :: s).drop (utf8Decode (b :: s)).2
        if 0 ≤ col then
          textLoop y fg bg attrs rest (col + 1)
            (fb.setBack col.toNat y.toNat ⟨(utf8Decode (b :: s)).1, fg, bg, attrs⟩) (written + 1)
        else textLoop y fg bg attrs rest (col + 1) fb written
      else (fb, written)
termination_by s => s.length
decreasing_by
  all_goals exact length_drop_utf8Decode b s

def Framebuffer.text (fb : Framebuffer) (x y : Int) (utf8 : List Nat) (fg bg attrs : Nat) :
    Framebuffer × Nat :=
  if y < 0 ∨ y ≥ fb.h ∨ fb.w ≤ 0 then (fb, 0)
  else Framebuffer.textLoop y fg bg attrs utf8 x fb 0

inductive DrawCall where
  | put (x y : Int) (c : Cell)
  | text (x y : Int) (utf8 : List Nat) (fg bg attrs : Nat)
deriving Repr, DecidableEq

def DrawCall.apply (fb : Framebuffer) : DrawCall → Framebuffer
  | .put x y c => fb.put x y c
  | .text x y utf8 fg bg attrs => (fb.text x y utf8 fg bg attrs).1

/-- The buffer after these calls. -/
def Framebuffer.drawn (fb : Framebuffer) (calls : List DrawCall) : Framebuffer :=
  calls.foldl DrawCall.apply fb

/-! ## What a cell holds -/

/-- What the call writes in a cell of the grid, if it reaches it. -/
def DrawCall.cellAt (x y : Nat) : DrawCall → Option Cell
  | .put px py c => if px = x ∧ py = y then some c else none
  | .text tx ty utf8 fg bg attrs =>
      if ty = y ∧ tx ≤ x then
        (decodeText utf8)[(x - tx : Int).toNat]?.map fun cp => ⟨cp, fg, bg, attrs⟩
      else none

/-- What the last call that reaches the cell writes there. -/
def Framebuffer.shown (fb : Framebuffer) (calls : List DrawCall) (x y : Nat) : Cell :=
  calls.foldl (fun cell call => (call.cellAt x y).getD cell) (fb.atBack x y)

variable {fb : Framebuffer} {x y : Nat}

theorem Framebuffer.setBack_eq_put {px py : Nat} (hx : px < fb.w) (hy : py < fb.h) (c : Cell) :
    fb.setBack px py c = fb.put px py c := by
  have hin : fb.contains px py = true := Framebuffer.contains_iff.mpr (by omega)
  rw [Framebuffer.put, if_neg (by rw [hin]; decide)]
  rfl

/-- The two buffers have the same size and the same front. -/
structure Framebuffer.SameFront (fb fb' : Framebuffer) : Prop where
  w : fb'.w = fb.w
  h : fb'.h = fb.h
  front : fb'.atFront = fb.atFront

theorem Framebuffer.SameFront.refl (fb : Framebuffer) : fb.SameFront fb := ⟨rfl, rfl, rfl⟩

theorem Framebuffer.SameFront.trans {fb' fb'' : Framebuffer} (h : fb.SameFront fb')
    (h' : fb'.SameFront fb'') : fb.SameFront fb'' :=
  ⟨h'.w.trans h.w, h'.h.trans h.h, h'.front.trans h.front⟩

theorem Framebuffer.put_sameFront (fb : Framebuffer) (px py : Int) (c : Cell) :
    fb.SameFront (fb.put px py c) := by
  refine ⟨?_, ?_, fb.put_atFront px py c⟩
  · unfold Framebuffer.put
    split <;> rfl
  · unfold Framebuffer.put
    split <;> rfl

theorem Framebuffer.setBack_sameFront (fb : Framebuffer) (px py : Nat) (c : Cell) :
    fb.SameFront (fb.setBack px py c) := ⟨rfl, rfl, rfl⟩

theorem Framebuffer.textLoop_sameFront {ty : Int} {fg bg attrs : Nat} (s : List Nat) (col : Int)
    (fb : Framebuffer) (n : Nat) :
    fb.SameFront (Framebuffer.textLoop ty fg bg attrs s col fb n).1 := by
  fun_induction Framebuffer.textLoop ty fg bg attrs s col fb n with
  | case1 col fb n => exact .refl fb
  | case2 b s col fb n hcol rest hvisible ih => exact (setBack_sameFront fb ..).trans ih
  | case3 b s col fb n hcol rest hvisible ih => exact ih
  | case4 b s col fb n hcol => exact .refl fb

theorem DrawCall.apply_sameFront (fb : Framebuffer) (call : DrawCall) :
    fb.SameFront (call.apply fb) := by
  cases call with
  | put px py c => exact fb.put_sameFront px py c
  | text tx ty utf8 fg bg attrs =>
      show fb.SameFront (fb.text tx ty utf8 fg bg attrs).1
      unfold Framebuffer.text
      split
      · exact .refl fb
      · exact Framebuffer.textLoop_sameFront ..

theorem Framebuffer.drawn_sameFront (calls : List DrawCall) (fb : Framebuffer) :
    fb.SameFront (fb.drawn calls) := by
  induction calls generalizing fb with
  | nil => exact .refl fb
  | cons call calls ih => exact (call.apply_sameFront fb).trans (ih _)

theorem Framebuffer.setBack_atBack {px py : Nat} (hpx : px < fb.w) (hpy : py < fb.h) (c : Cell)
    (hx : x < fb.w) (hy : y < fb.h) :
    (fb.setBack px py c).atBack x y = if px = x ∧ py = y then c else fb.atBack x y := by
  rw [Framebuffer.setBack_eq_put hpx hpy, Framebuffer.put_atBack fb _ _ c hx hy]
  simp only [Int.natCast_inj]

section Text

variable {fg bg attrs : Nat} {ty : Int}

/-- The first code point is written in the first column, the others from the
next one on. -/
theorem DrawCall.cellAt_text_cons (col : Int) (b : Nat) (s : List Nat) :
    (DrawCall.text col ty (b :: s) fg bg attrs).cellAt x y =
      if col = x ∧ ty = y then some ⟨(utf8Decode (b :: s)).1, fg, bg, attrs⟩
      else (DrawCall.text (col + 1) ty ((b :: s).drop (utf8Decode (b :: s)).2) fg bg
        attrs).cellAt x y := by
  by_cases hrow : ty = y
  · rcases lt_trichotomy col x with hlt | heq | hgt
    · have hnext : (x - col : Int).toNat = (x - (col + 1) : Int).toNat + 1 := by omega
      rw [if_neg (fun h => hlt.ne h.1), DrawCall.cellAt, DrawCall.cellAt, if_pos ⟨hrow, hlt.le⟩,
        if_pos ⟨hrow, hlt⟩, hnext, decodeText, List.getElem?_cons_succ]
    · rw [if_pos ⟨heq, hrow⟩, DrawCall.cellAt, if_pos ⟨hrow, heq.le⟩, heq, sub_self, decodeText]
      rfl
    · rw [if_neg (fun h => hgt.ne' h.1), DrawCall.cellAt, DrawCall.cellAt,
        if_neg (fun h => absurd h.2 (by omega)), if_neg (fun h => absurd h.2 (by omega))]
  · rw [if_neg (fun h => hrow h.2), DrawCall.cellAt, DrawCall.cellAt,
      if_neg (fun h => hrow h.1), if_neg (fun h => hrow h.1)]

theorem DrawCall.cellAt_text_left {col : Int} (h : x < col) (s : List Nat) :
    (DrawCall.text col ty s fg bg attrs).cellAt x y = none :=
  if_neg fun hin => absurd hin.2 (by omega)

/-- From column `col` on, the cells of row `ty` hold the code points in order,
as far as the string and the row go. -/
theorem Framebuffer.textLoop_atBack (s : List Nat) (col : Int) (fb : Framebuffer) (n : Nat)
    (hty0 : 0 ≤ ty) (hty : ty < fb.h) (hx : x < fb.w) (hy : y < fb.h) :
    (Framebuffer.textLoop ty fg bg attrs s col fb n).1.atBack x y =
      ((DrawCall.text col ty s fg bg attrs).cellAt x y).getD (fb.atBack x y) := by
  fun_induction Framebuffer.textLoop ty fg bg attrs s col fb n with
  | case1 col fb n => simp [DrawCall.cellAt, decodeText]
  | case2 b s col fb n hcol rest hvisible ih =>
      rw [ih hty hx hy, DrawCall.cellAt_text_cons,
        Framebuffer.setBack_atBack (by omega) (by omega) _ hx hy]
      by_cases hhere : col = x ∧ ty = y
      · rw [if_pos hhere, if_pos (by omega), DrawCall.cellAt_text_left (by omega)]
        rfl
      · rw [if_neg hhere, if_neg (by omega)]
  | case3 b s col fb n hcol rest hhidden ih =>
      rw [ih hty hx hy, DrawCall.cellAt_text_cons, if_neg (by omega)]
  | case4 b s col fb n hcol =>
      rw [DrawCall.cellAt_text_left (by omega)]
      rfl

end Text

theorem DrawCall.apply_atBack (fb : Framebuffer) (call : DrawCall) (hx : x < fb.w)
    (hy : y < fb.h) : (call.apply fb).atBack x y = (call.cellAt x y).getD (fb.atBack x y) := by
  cases call with
  | put px py c =>
      rw [DrawCall.apply, Framebuffer.put_atBack fb px py c hx hy, DrawCall.cellAt]
      split <;> rfl
  | text tx ty utf8 fg bg attrs =>
      rw [DrawCall.apply, Framebuffer.text]
      split_ifs with hout
      · rw [DrawCall.cellAt, if_neg (by omega)]
        rfl
      · exact Framebuffer.textLoop_atBack utf8 tx fb 0 (by omega) (by omega) hx hy

/-- After the calls a cell holds what the last call that reaches it writes. -/
theorem Framebuffer.drawn_atBack (calls : List DrawCall) (fb : Framebuffer) (hx : x < fb.w)
    (hy : y < fb.h) : (fb.drawn calls).atBack x y = fb.shown calls x y := by
  induction calls generalizing fb with
  | nil => rfl
  | cons call calls ih =>
      have hsame := call.apply_sameFront fb
      rw [Framebuffer.shown, List.foldl_cons, ← call.apply_atBack fb hx hy]
      exact ih (call.apply fb) (hsame.w ▸ hx) (hsame.h ▸ hy)

end Heapviz
