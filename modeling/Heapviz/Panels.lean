import Heapviz.Footprint
import Heapviz.MapDraw

/-!
# Panels

The drawing calls the two lower panels are made of, and the counts they print
(`tui/panel.cpp`).

`Framebuffer::text` clips to the screen; the calls here clip to the panel. What
that comes to is said with footprints (`Framebuffer.Keeps`): a drawing changes
no cell outside of its part, and what it leaves there does not depend on what
is drawn elsewhere. Text is bytes, and a panel cuts by bytes, which never leaves
more columns than it has room for, since no byte makes more than one code point.

A count is printed with separators (`count_grouped`). The loop decides by the
distance from the last digit, so three digits more at the end move no separator
(`withCommas_shift`), and the groups can be read off the number three digits at a
time.
-/

namespace Heapviz

/-! ## Drawings and their parts -/

/-- What a grid of this size shows. -/
def Framebuffer.cellView (w h : Nat) (fb : Framebuffer) (l : Fin w × Fin h) : Cell :=
  fb.atBack l.1 l.2

/-- Drawn on a buffer of the size of `base`, the drawing keeps to the part and
leaves the front alone. -/
def Framebuffer.Keeps (base : Framebuffer) (draw : Framebuffer → Framebuffer)
    (part : Int → Int → Prop) : Prop :=
  Footprint.Local (Framebuffer.cellView base.w base.h) base.SameFront draw
    fun l => part l.1 l.2

namespace Framebuffer.Keeps

variable {base : Framebuffer} {f g : Framebuffer → Framebuffer}
  {part part' : Int → Int → Prop}

theorem skip : base.Keeps (fun fb => fb) part := Footprint.Local.skip _

theorem comp (h : base.Keeps f part) (h' : base.Keeps g part) :
    base.Keeps (fun fb => g (f fb)) part := Footprint.Local.comp h h'

theorem mono (h : base.Keeps f part) (hpart : ∀ x y, part x y → part' x y) :
    base.Keeps f part' := Footprint.Local.mono h fun _ hl => hpart _ _ hl

theorem ite {p : Prop} [Decidable p] (h : p → base.Keeps f part)
    (h' : ¬ p → base.Keeps g part) :
    base.Keeps (fun fb => if p then f fb else g fb) part := Footprint.Local.ite h h'

theorem when {p : Prop} [Decidable p] (h : p → base.Keeps f part) :
    base.Keeps (fun fb => if p then f fb else fb) part := ite h fun _ => skip

theorem foldl {ι : Type} {step : Framebuffer → ι → Framebuffer} (is : List ι)
    (h : ∀ i ∈ is, base.Keeps (fun fb => step fb i) part) :
    base.Keeps (fun fb => is.foldl step fb) part := Footprint.Local.foldl is h

theorem congr (h : base.Keeps f part) (heq : ∀ fb, base.SameFront fb → g fb = f fb) :
    base.Keeps g part := Footprint.Local.congr h heq

/-- A drawing that paints the same whatever is there keeps to where it paints. -/
theorem of_paints {new : Nat → Nat → Option Cell}
    (h : ∀ fb, base.SameFront fb → fb.Paints (f fb) new)
    (hnew : ∀ x y : Nat, x < base.w → y < base.h → ¬ part x y → new x y = none) :
    base.Keeps f part := by
  have hcell : ∀ fb, base.SameFront fb → ∀ l : Fin base.w × Fin base.h,
      (f fb).atBack l.1 l.2 = (new l.1 l.2).getD (fb.atBack l.1 l.2) := fun fb hfb l =>
    (h fb hfb).back l.1 l.2 (l.1.isLt.trans_eq hfb.w.symm) (l.2.isLt.trans_eq hfb.h.symm)
  refine ⟨fun fb hfb => hfb.trans (h fb hfb).toSameFront, fun fb hfb l hl => ?_,
    fun fb fb' hfb hfb' hagree l hl => ?_⟩
  · show (f fb).atBack l.1 l.2 = fb.atBack l.1 l.2
    rw [hcell fb hfb l, hnew l.1 l.2 l.1.isLt l.2.isLt hl]
    rfl
  · show (f fb).atBack l.1 l.2 = (f fb').atBack l.1 l.2
    have hbefore : fb.atBack l.1 l.2 = fb'.atBack l.1 l.2 := hagree l hl
    rw [hcell fb hfb l, hcell fb' hfb' l, hbefore]

theorem put (x y : Int) (c : Cell) (h : part x y) : base.Keeps (fun fb => fb.put x y c) part := by
  refine of_paints (fun fb _ => .put fb x y c) fun i j _ _ hout => if_neg ?_
  rintro ⟨rfl, rfl⟩
  exact hout h

/-- A cell that is changed by what it holds. -/
theorem modify {x y : Int} (change : Cell → Cell) (h : part x y) (hon : base.contains x y = true) :
    base.Keeps (fun fb => fb.put x y (change (fb.atBack x.toNat y.toNat))) part := by
  obtain ⟨hx, hy, hxw, hyh⟩ := Framebuffer.contains_iff.mp hon
  have hcell : ∀ fb, base.SameFront fb → ∀ l : Fin base.w × Fin base.h,
      (fb.put x y (change (fb.atBack x.toNat y.toNat))).atBack l.1 l.2 =
        if x = (l.1 : Nat) ∧ y = (l.2 : Nat) then change (fb.atBack l.1 l.2)
        else fb.atBack l.1 l.2 := by
    intro fb hfb l
    rw [Framebuffer.put_atBack fb x y _ (l.1.isLt.trans_eq hfb.w.symm)
      (l.2.isLt.trans_eq hfb.h.symm)]
    split_ifs with hhere
    · rw [hhere.1, hhere.2]
      rfl
    · rfl
  refine ⟨fun fb hfb => hfb.trans (fb.put_sameFront ..), fun fb hfb l hl => ?_,
    fun fb fb' hfb hfb' hagree l hl => ?_⟩
  · refine (hcell fb hfb l).trans (if_neg ?_)
    rintro ⟨rfl, rfl⟩
    exact hl h
  · have hbefore : fb.atBack l.1 l.2 = fb'.atBack l.1 l.2 := hagree l hl
    show Framebuffer.atBack _ _ _ = Framebuffer.atBack _ _ _
    rw [hcell fb hfb l, hcell fb' hfb' l, hbefore]

/-- Text takes up as many columns as it has code points, and no more of them than
bytes. -/
theorem text (x y : Int) (s : List Nat) (fg bg attrs : Nat)
    (h : ∀ k : Nat, k < (decodeText s).length → part (x + k) y) :
    base.Keeps (fun fb => (fb.text x y s fg bg attrs).1) part := by
  refine of_paints (fun fb _ => .call fb (.text x y s fg bg attrs)) fun i j _ _ hout => ?_
  rw [DrawCall.cellAt]
  split_ifs with hrow
  · rw [List.getElem?_eq_none, Option.map_none]
    by_contra hlt
    have hin := h (i - x : Int).toNat (not_le.mp hlt)
    have hcol : x + ((i - x : Int).toNat : Int) = i := by omega
    rw [hcol, hrow.1] at hin
    exact hout hin
  · rfl

theorem fill {r : Rect} (hr : r.Fits) (c : Cell) : base.Keeps (fun fb => fb.fill r c) r.Has :=
  of_paints (fun _ _ => Framebuffer.fill_paints hr c) fun _ _ _ _ hout => if_neg hout

theorem box {r : Rect} (hr : r.Fits) (style : BoxStyle) (fg bg attrs : Nat) :
    base.Keeps (fun fb => fb.box r style fg bg attrs) r.Has := by
  refine of_paints (fun _ _ => Framebuffer.box_paints hr style fg bg attrs) fun x y _ _ hout => ?_
  split_ifs with hflat
  · rfl
  · rw [not_or, not_le, not_le] at hflat
    cases hglyph : (glyphsFor style).at r.x r.y (r.x + r.w - 1) (r.y + r.h - 1) x y with
    | none => rfl
    | some glyph =>
        have hsome := (BoxGlyphs.at_isSome hflat.1 hflat.2 (glyphsFor style) x y).mp
          (by rw [hglyph]; rfl)
        exact absurd hsome.1 hout

end Framebuffer.Keeps

namespace Framebuffer.Confined

variable {fb fb' : Framebuffer} {part part' : Nat → Nat → Prop}

theorem mono (h : fb.Confined fb' part) (hpart : ∀ x y, part x y → part' x y) :
    fb.Confined fb' part' :=
  ⟨h.toSameFront, fun x y hx hy hout => h.rest x y hx hy fun hin => hout (hpart x y hin)⟩

/-- A loop whose turns keep to the part. -/
theorem foldl {ι : Type} {step : Framebuffer → ι → Framebuffer} (is : List ι)
    (h : ∀ (fb : Framebuffer) i, fb.Confined (step fb i) part) (fb : Framebuffer) :
    fb.Confined (is.foldl step fb) part := by
  induction is generalizing fb with
  | nil => exact .refl fb
  | cons i is ih => exact (h fb i).trans (ih _)

end Framebuffer.Confined

/-- No byte makes more than one code point. -/
theorem decodeText_length_le (s : List Nat) : (decodeText s).length ≤ s.length := by
  fun_induction decodeText s with
  | case1 => exact le_rfl
  | case2 b s ih =>
      have hdrop := length_drop_utf8Decode b s
      rw [List.length_cons]
      omega

/-! ## The calls of a panel -/

/-- `panel_text`, with the columns it has written. -/
def panelText (fb : Framebuffer) (area : Rect) (dx dy : Int) (s : List Nat) (fg bg attrs : Nat) :
    Framebuffer × Nat :=
  if area.w ≤ 0 ∨ area.h ≤ 0 then (fb, 0)
  else if dx < 0 ∨ dy < 0 ∨ dx ≥ area.w ∨ dy ≥ area.h then (fb, 0)
  else fb.text (area.x + dx) (area.y + dy) (s.take (area.w - dx).toNat) fg bg attrs

/-- `panel_text_right`: a string that does not fit is not drawn. -/
def panelTextRight (fb : Framebuffer) (area : Rect) (dy : Int) (s : List Nat) (fg bg attrs : Nat) :
    Framebuffer × Nat :=
  if area.w ≤ 0 ∨ area.h ≤ 0 then (fb, 0)
  else if dy < 0 ∨ dy ≥ area.h then (fb, 0)
  else if (s.length : Int) > area.w then (fb, 0)
  else fb.text (area.x + (area.w - s.length)) (area.y + dy) s fg bg attrs

/-- A character of a number, of a hexadecimal one where the string is one. -/
def numericChar (hexadecimal : Bool) (c : Nat) : Bool :=
  isDec c || c == 0x2C || c == 0x2E || c == 0x7E ||
    (hexadecimal && (c == 0x78 || (0x61 ≤ c && c ≤ 0x66) || (0x41 ≤ c && c ≤ 0x46)))

/-- The string begins with `0x` and goes on. -/
def isHexadecimal (s : List Nat) : Bool :=
  s.length > 2 && s[0]? == some 0x30 && s[1]? == some 0x78

/-- `panel_numeric_right`: words and units in one colour, then the characters of the
number over them in another. -/
def panelNumericRight (fb : Framebuffer) (area : Rect) (dy : Int) (s : List Nat)
    (number dim bg : Nat) : Framebuffer × Nat :=
  if area.w ≤ 4 ∨ dy < 0 ∨ dy ≥ area.h then (fb, 0)
  else if (s.length : Int) > area.w - 4 then (fb, 0)
  else
    let x := area.x + area.w - 2 - s.length
    let (fb, written) := fb.text x (area.y + dy) s dim bg 0
    let fb := s.zipIdx.foldl (fun fb p =>
      if numericChar (isHexadecimal s) p.1 then
        fb.put (x + p.2) (area.y + dy) ⟨p.1, number, bg, 0⟩
      else fb) fb
    (fb, written)

/-- `snprintf` into a buffer of `n` bytes. -/
def snprintf (n : Nat) (s : List Nat) : List Nat := s.take (n - 1)

/-- The name in the rule of a panel, where there is room for all of it. -/
def panelLabel (fb : Framebuffer) (area : Rect) (label : List Nat) (accent bg : Nat) :
    Framebuffer :=
  if label = [] then fb
  else if (label.length : Int) + 6 > area.w then fb
  else (panelText fb area 2 0 (snprintf 96 ([0x5B] ++ label ++ [0x5D])) accent bg kAttrBold).1

/-- `panel_rule`. -/
def panelRule (fb : Framebuffer) (area : Rect) (label : List Nat) (frame accent bg : Nat) :
    Framebuffer :=
  if area.w ≤ 0 ∨ area.h ≤ 0 then fb
  else panelLabel (fb.box area .light frame bg 0) area label accent bg

/-- The `field` of the panels: a row with a label, and a number on the right or a text
from the panel's `valueCol` on. -/
def panelField (dim bg : Nat) (valueCol : Int) (area : Rect) (dy : Int) (label value : List Nat)
    (colour : Nat) (numeric : Bool) (fb : Framebuffer) : Framebuffer :=
  let fb := (panelText fb area 2 dy label dim bg 0).1
  if numeric = true then (panelNumericRight fb area dy value colour dim bg).1
  else (panelText fb area valueCol dy value colour bg 0).1

section Calls

variable {base : Framebuffer} {area : Rect}

theorem panelText_keeps (dx dy : Int) (s : List Nat) (fg bg attrs : Nat) :
    base.Keeps (fun fb => (panelText fb area dx dy s fg bg attrs).1) area.Has := by
  unfold panelText
  simp only [apply_ite Prod.fst]
  refine .ite (fun _ => .skip) fun hopen => .ite (fun _ => .skip) fun hin => ?_
  refine .text _ _ _ _ _ _ fun k hk => ?_
  have hlen := (decodeText_length_le (s.take (area.w - dx).toNat)).trans (List.length_take_le _ _)
  simp only [Rect.Has]
  omega

theorem panelTextRight_keeps (dy : Int) (s : List Nat) (fg bg attrs : Nat) :
    base.Keeps (fun fb => (panelTextRight fb area dy s fg bg attrs).1) area.Has := by
  unfold panelTextRight
  simp only [apply_ite Prod.fst]
  refine .ite (fun _ => .skip) fun hopen => .ite (fun _ => .skip) fun hrow =>
    .ite (fun _ => .skip) fun hfits => .text _ _ _ _ _ _ fun k hk => ?_
  have hlen := decodeText_length_le s
  simp only [Rect.Has]
  omega

theorem panelNumericRight_keeps (dy : Int) (s : List Nat) (number dim bg : Nat) :
    base.Keeps (fun fb => (panelNumericRight fb area dy s number dim bg).1) area.Has := by
  unfold panelNumericRight
  simp only [apply_ite Prod.fst]
  refine .ite (fun _ => .skip) fun hopen => .ite (fun _ => .skip) fun hfits => ?_
  refine .comp (.text _ _ _ _ _ _ fun k hk => ?_) (.foldl _ fun p hp => ?_)
  · have hlen := decodeText_length_le s
    simp only [Rect.Has]
    omega
  · have hidx := List.mem_zipIdx hp
    refine .when fun _ => .put _ _ _ ?_
    simp only [Rect.Has]
    omega

theorem panelLabel_keeps (label : List Nat) (accent bg : Nat) :
    base.Keeps (fun fb => panelLabel fb area label accent bg) area.Has :=
  .ite (fun _ => .skip) fun _ => .ite (fun _ => .skip) fun _ => panelText_keeps _ _ _ _ _ _

theorem panelField_keeps (dim bg : Nat) (valueCol dy : Int) (label value : List Nat) (colour : Nat)
    (numeric : Bool) :
    base.Keeps (panelField dim bg valueCol area dy label value colour numeric) area.Has :=
  .comp
    (g := fun fb =>
      if numeric = true then (panelNumericRight fb area dy value colour dim bg).1
      else (panelText fb area valueCol dy value colour bg 0).1)
    (panelText_keeps _ _ _ _ _ _)
    (.ite (fun _ => panelNumericRight_keeps _ _ _ _ _) fun _ => panelText_keeps _ _ _ _ _ _)

theorem panelRule_keeps (hr : area.Fits) (label : List Nat) (frame accent bg : Nat) :
    base.Keeps (fun fb => panelRule fb area label frame accent bg) area.Has :=
  .ite (fun _ => .skip) fun _ => .comp (.box hr _ _ _ _) (panelLabel_keeps label accent bg)

end Calls

/-! ## Counts -/

/-- The loop of `format_count` from the `i`-th of `d` digits on; `out` is what the
buffer of `n` bytes holds so far. -/
def formatCountLoop (n d : Nat) : Nat → List Nat → List Nat → List Nat
  | _, [], out => out
  | i, c :: rest, out =>
      if i ≠ 0 ∧ (d - i) % 3 = 0 then
        if out.length + 1 ≥ n then out
        else if out.length + 2 ≥ n then out ++ [0x2C]
        else formatCountLoop n d (i + 1) rest (out ++ [0x2C, c])
      else if out.length + 1 ≥ n then out
      else formatCountLoop n d (i + 1) rest (out ++ [c])

/-- `format_count`: the string in the buffer. Its length is what the function
returns. -/
def formatCount (n v : Nat) : List Nat :=
  if n = 0 then [] else formatCountLoop n (formatDec v).length 0 (formatDec v) []

/-- The number in groups of three digits. -/
def grouped (v : Nat) : List Nat :=
  if v < 1000 then formatDec v
  else grouped (v / 1000) ++
    [0x2C, decChar (v / 100 % 10), decChar (v / 10 % 10), decChar (v % 10)]

/-- What the loop writes where there is room. -/
def withCommas (d : Nat) : Nat → List Nat → List Nat
  | _, [] => []
  | i, c :: rest => (if i ≠ 0 ∧ (d - i) % 3 = 0 then [0x2C, c] else [c]) ++ withCommas d (i + 1) rest

theorem formatCountLoop_eq {n d : Nat} (ds : List Nat) (i : Nat) (out : List Nat)
    (hout : out.length < n) :
    formatCountLoop n d i ds out = (out ++ withCommas d i ds).take (n - 1) := by
  induction ds generalizing i out with
  | nil => rw [formatCountLoop, withCommas, List.append_nil, List.take_of_length_le (by omega)]
  | cons c rest ih =>
      rw [formatCountLoop, withCommas]
      by_cases hcomma : i ≠ 0 ∧ (d - i) % 3 = 0
      · simp only [if_pos hcomma]
        by_cases hfull : out.length + 1 ≥ n
        · rw [if_pos hfull, List.take_append_of_le_length (by omega),
            List.take_of_length_le (by omega)]
        · rw [if_neg hfull]
          by_cases hone : out.length + 2 ≥ n
          · have hroom : n - 1 = (out ++ [0x2C]).length := by
              rw [List.length_append, List.length_singleton]
              omega
            have hsplit : out ++ ([0x2C, c] ++ withCommas d (i + 1) rest) =
                (out ++ [0x2C]) ++ (c :: withCommas d (i + 1) rest) := by simp
            rw [if_pos hone, hsplit, hroom, List.take_left]
          · have hnext : (out ++ [0x2C, c]).length < n := by
              rw [List.length_append]
              exact not_le.mp hone
            rw [if_neg hone, ih _ _ hnext, List.append_assoc]
      · simp only [if_neg hcomma]
        by_cases hfull : out.length + 1 ≥ n
        · rw [if_pos hfull, List.take_append_of_le_length (by omega),
            List.take_of_length_le (by omega)]
        · have hnext : (out ++ [c]).length < n := by
            rw [List.length_append]
            exact not_le.mp hfull
          rw [if_neg hfull, ih _ _ hnext, List.append_assoc]

theorem withCommas_append (d i : Nat) (as bs : List Nat) :
    withCommas d i (as ++ bs) = withCommas d i as ++ withCommas d (i + as.length) bs := by
  induction as generalizing i with
  | nil => rfl
  | cons a as ih =>
      have hnext : i + (a :: as).length = i + 1 + as.length := by
        rw [List.length_cons]
        omega
      rw [List.cons_append, withCommas, ih, withCommas, hnext, List.append_assoc]

/-- Three digits more at the end move no comma. -/
theorem withCommas_shift {d : Nat} (as : List Nat) (i : Nat) (h : i + as.length ≤ d) :
    withCommas (d + 3) i as = withCommas d i as := by
  induction as generalizing i with
  | nil => rfl
  | cons a as ih =>
      rw [List.length_cons] at h
      have hmod : (d + 3 - i) % 3 = (d - i) % 3 := by omega
      rw [withCommas, withCommas, hmod, ih (i + 1) (by omega)]

/-- Up to three digits there is none. -/
theorem withCommas_short {ds : List Nat} (h : ds.length ≤ 3) :
    withCommas ds.length 0 ds = ds := by
  match ds, h with
  | [], _ => rfl
  | [_], _ => rfl
  | [_, _], _ => rfl
  | [_, _, _], _ => rfl

theorem formatDec_of_ge {v : Nat} (h : 1000 ≤ v) :
    formatDec v =
      formatDec (v / 1000) ++ [decChar (v / 100 % 10), decChar (v / 10 % 10), decChar (v % 10)] := by
  have hdigits : Numerals.digits 10 v =
      Numerals.digits 10 (v / 1000) ++ [v / 100 % 10, v / 10 % 10, v % 10] := by
    rw [Numerals.digits_of_le (by decide) (show 10 ≤ v by omega),
      Numerals.digits_of_le (by decide) (show 10 ≤ v / 10 by omega),
      Numerals.digits_of_le (by decide) (show 10 ≤ v / 10 / 10 by omega), List.append_assoc,
      List.append_assoc, show v / 10 / 10 / 10 = v / 1000 by omega,
      show v / 10 / 10 = v / 100 by omega]
    rfl
  rw [formatDec, hdigits, List.map_append]
  rfl

theorem formatDec_length_pos (v : Nat) : 0 < (formatDec v).length := by
  rw [formatDec, List.length_map]
  exact List.length_pos_iff.mpr (Numerals.digits_ne_nil 10 v)

/-- The loop puts the commas where the groups end. -/
theorem withCommas_formatDec (v : Nat) :
    withCommas (formatDec v).length 0 (formatDec v) = grouped v := by
  fun_induction grouped v with
  | case1 v hv =>
      have hlen : (formatDec v).length ≤ 3 := by
        rw [formatDec, List.length_map]
        exact Numerals.length_digits_le (by decide) (by decide) hv
      exact withCommas_short hlen
  | case2 v hv ih =>
      have hpos := formatDec_length_pos (v / 1000)
      have hlast (k a b c : Nat) (hk : 0 < k) :
          withCommas (k + 3) (0 + k) [a, b, c] = [0x2C, a, b, c] := by
        have h0 : k + 3 - (0 + k) = 3 := by omega
        have h1 : k + 3 - (0 + k + 1) = 2 := by omega
        have h2 : k + 3 - (0 + k + 1 + 1) = 1 := by omega
        simp only [withCommas, h0, h1, h2]
        simp only [ne_eq, Nat.add_eq_zero_iff, hk.ne', and_false, not_false_eq_true, true_and]
        rfl
      have hlen (a b c : Nat) : (formatDec (v / 1000) ++ [a, b, c]).length =
          (formatDec (v / 1000)).length + 3 := List.length_append
      rw [formatDec_of_ge (by omega), hlen, withCommas_append,
        withCommas_shift _ _ (by omega), ih, hlast _ _ _ _ hpos]

theorem decChar_ne_comma {d : Nat} (h : d < 10) : (decChar d != 0x2C) = true := by
  rw [bne_iff_ne]
  unfold decChar
  omega

/-- Without the commas it is the decimal. -/
theorem filter_grouped (v : Nat) : (grouped v).filter (· != 0x2C) = formatDec v := by
  fun_induction grouped v with
  | case1 v hv =>
      refine List.filter_eq_self.mpr fun c hc => ?_
      obtain ⟨d, hd, rfl⟩ := List.mem_map.mp hc
      exact decChar_ne_comma (Numerals.digits_lt (by decide) hd)
  | case2 v hv ih =>
      have hdigit (k : Nat) : (decChar (k % 10) != 0x2C) = true :=
        decChar_ne_comma (Nat.mod_lt _ (by decide))
      have hgroup : [decChar (v / 100 % 10), decChar (v / 10 % 10), decChar (v % 10)].filter
          (· != 0x2C) = [decChar (v / 100 % 10), decChar (v / 10 % 10), decChar (v % 10)] := by
        simp only [List.filter, hdigit]
      rw [List.filter_append, ih, formatDec_of_ge (v := v) (by omega),
        List.filter_cons_of_neg (by decide), hgroup]

theorem length_grouped (v k : Nat) (h : v < 1000 ^ (k + 1)) :
    (grouped v).length ≤ 4 * k + 3 := by
  induction k generalizing v with
  | zero =>
      have hv : v < 1000 := h
      rw [grouped, if_pos hv, formatDec, List.length_map]
      exact Numerals.length_digits_le (by decide) (by decide) hv
  | succ k ih =>
      rw [grouped]
      split
      · rename_i hv
        have hshort : (formatDec v).length ≤ 3 := by
          rw [formatDec, List.length_map]
          exact Numerals.length_digits_le (by decide) (by decide) hv
        omega
      · have hrest := ih (v / 1000) (Nat.div_lt_of_lt_mul (by rwa [pow_succ, mul_comm] at h))
        rw [List.length_append]
        simp only [List.length_cons, List.length_nil]
        omega

/-- **A count is printed in groups of three**, cut where the buffer is too small;
one of `4 * k + 4` bytes is not for a number below `1000 ^ (k + 1)`. What is
printed reads back as the number once the commas are taken out. -/
theorem count_grouped (n v : Nat) :
    formatCount n v = (grouped v).take (n - 1) ∧
    (∀ k, v < 1000 ^ (k + 1) → 4 * k + 4 ≤ n → formatCount n v = grouped v) ∧
    Numerals.value 10 (((grouped v).filter (· != 0x2C)).map decValue) = v := by
  have hcut : formatCount n v = (grouped v).take (n - 1) := by
    unfold formatCount
    split
    · rename_i hn
      rw [hn]
      rfl
    · rw [formatCountLoop_eq _ _ _ (Nat.pos_of_ne_zero ‹_›), List.nil_append,
        withCommas_formatDec]
  refine ⟨hcut, fun k hv hn => ?_, ?_⟩
  · have hlen := length_grouped v k hv
    rw [hcut, List.take_of_length_le (by omega)]
  · rw [filter_grouped]
    exact (formatDec_isDec v).value

end Heapviz
