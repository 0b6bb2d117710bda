import Mathlib.Data.Nat.Digits.Defs
import Mathlib.Tactic.IntervalCases
import Heapviz.Run

/-!
# A terminal

A grid of slots, a cursor, a pen, and the parser that turns bytes into
changes of these. It knows the cursor position sequence (`CSI row ; col H`),
the SGR forms for the four attributes and for palette and direct colours,
and UTF-8 text; any other input leads nowhere, so whatever a run of `feed`
accepts is within this language.

What terminals do not agree on is left open. A glyph in the last column
leaves the cursor nowhere (`none`), and nothing can be printed from there
until a sequence has put it back: what holds of such runs holds whether or
not the terminal wraps.
-/

namespace Vt

inductive Color where
  | default
  | palette (n : Nat)
  | rgb (r g b : Nat)
deriving Repr, DecidableEq

structure Pen where
  fg : Color
  bg : Color
  bold : Bool
  dim : Bool
  underline : Bool
  reverse : Bool
deriving Repr, DecidableEq

/-- The pen after a reset. -/
def Pen.plain : Pen := ⟨.default, .default, false, false, false, false⟩

structure Slot where
  glyph : Nat
  pen : Pen
deriving Repr, DecidableEq

/-- Where the parser stands: between sequences, after `ESC`, inside a control
sequence (the parameters before the current one, and the current one), or
inside a UTF-8 sequence (how many bytes follow the next one, the value so
far, and the least value this length may encode). -/
inductive Mode where
  | ground
  | esc
  | csi (params : List Nat) (n : Nat)
  | utf8 (more acc least : Nat)
deriving Repr, DecidableEq

structure Term where
  cols : Nat
  rows : Nat
  cells : Nat → Nat → Slot
  cursor : Option (Nat × Nat)
  pen : Pen
  mode : Mode

/-- A scalar value that is not a control code. Every one is taken to fill one
column. -/
def Printable (cp : Nat) : Prop :=
  0x20 ≤ cp ∧ ¬ (0x7F ≤ cp ∧ cp ≤ 0x9F) ∧ ¬ (0xD800 ≤ cp ∧ cp ≤ 0xDFFF) ∧ cp ≤ 0x10FFFF

instance (cp : Nat) : Decidable (Printable cp) := by
  unfold Printable
  infer_instance

namespace Term

def setSlot (t : Term) (x y : Nat) (s : Slot) : Term :=
  { t with cells := fun x' y' => if x' = x ∧ y' = y then s else t.cells x' y' }

/-- Print one glyph at the cursor. -/
def print (t : Term) (cp : Nat) : Option Term :=
  match t.cursor with
  | none => none
  | some (x, y) =>
      if Printable cp then
        some { t.setSlot x y ⟨cp, t.pen⟩ with
          cursor := if x + 1 < t.cols then some (x + 1, y) else none
          mode := .ground }
      else none

/-- `CSI row ; col H`, both counted from one. -/
def position (t : Term) : List Nat → Option Term
  | [row, col] =>
      if 1 ≤ row ∧ row ≤ t.rows ∧ 1 ≤ col ∧ col ≤ t.cols then
        some { t with cursor := some (col - 1, row - 1), mode := .ground }
      else none
  | _ => none

end Term

/-- The parameters of `CSI ... m`. -/
def sgr : List Nat → Pen → Option Pen
  | [], p => some p
  | 0 :: ps, _ => sgr ps .plain
  | 1 :: ps, p => sgr ps { p with bold := true }
  | 2 :: ps, p => sgr ps { p with dim := true }
  | 4 :: ps, p => sgr ps { p with underline := true }
  | 7 :: ps, p => sgr ps { p with reverse := true }
  | 38 :: 2 :: r :: g :: b :: ps, p =>
      if r < 256 ∧ g < 256 ∧ b < 256 then sgr ps { p with fg := .rgb r g b } else none
  | 48 :: 2 :: r :: g :: b :: ps, p =>
      if r < 256 ∧ g < 256 ∧ b < 256 then sgr ps { p with bg := .rgb r g b } else none
  | 38 :: 5 :: n :: ps, p => if n < 256 then sgr ps { p with fg := .palette n } else none
  | 48 :: 5 :: n :: ps, p => if n < 256 then sgr ps { p with bg := .palette n } else none
  | n :: ps, p =>
      if 30 ≤ n ∧ n < 38 then sgr ps { p with fg := .palette (n - 30) }
      else if 40 ≤ n ∧ n < 48 then sgr ps { p with bg := .palette (n - 40) }
      else if 90 ≤ n ∧ n < 98 then sgr ps { p with fg := .palette (n - 90 + 8) }
      else if 100 ≤ n ∧ n < 108 then sgr ps { p with bg := .palette (n - 100 + 8) }
      else none

/-- The first byte of a glyph, or of a sequence. -/
def Term.feedGround (t : Term) (b : Nat) : Option Term :=
  if b = 0x1B then some { t with mode := .esc }
  else if b < 0x80 then t.print b
  else if 0xC0 ≤ b ∧ b < 0xE0 then some { t with mode := .utf8 0 (b - 0xC0) 0x80 }
  else if 0xE0 ≤ b ∧ b < 0xF0 then some { t with mode := .utf8 1 (b - 0xE0) 0x800 }
  else if 0xF0 ≤ b ∧ b < 0xF8 then some { t with mode := .utf8 2 (b - 0xF0) 0x10000 }
  else none

def Term.feedCsi (t : Term) (params : List Nat) (n b : Nat) : Option Term :=
  if 0x30 ≤ b ∧ b < 0x3A then some { t with mode := .csi params (n * 10 + (b - 0x30)) }
  else if b = 0x3B then some { t with mode := .csi (params ++ [n]) 0 }
  else if b = 0x48 then t.position (params ++ [n])
  else if b = 0x6D then
    (sgr (params ++ [n]) t.pen).map fun pen => { t with pen := pen, mode := .ground }
  else none

def Term.feedUtf8 (t : Term) (more acc least b : Nat) : Option Term :=
  if 0x80 ≤ b ∧ b < 0xC0 then
    let cp := acc * 64 + (b - 0x80)
    match more with
    | 0 => if least ≤ cp then t.print cp else none
    | more + 1 => some { t with mode := .utf8 more cp least }
  else none

/-- One byte. -/
def Term.feed (t : Term) (b : Nat) : Option Term :=
  match t.mode with
  | .ground => t.feedGround b
  | .esc => if b = 0x5B then some { t with mode := .csi [] 0 } else none
  | .csi params n => t.feedCsi params n b
  | .utf8 more acc least => t.feedUtf8 more acc least b

/-! ## Control sequences -/

/-- The terminal with its parser at `m`. -/
def Term.at (t : Term) (m : Mode) : Term := { t with mode := m }

theorem Term.at_ground {t : Term} (h : t.mode = .ground) : t.at .ground = t := by
  unfold Term.at
  rw [← h]

section Rules

variable {t : Term} {ps : List Nat} {n : Nat}

/-- A number, its digits given from the last one on. -/
theorem run_number (t : Term) (ps : List Nat) :
    ∀ {ds : List Nat}, (∀ d ∈ ds, d < 10) →
      Run.run Term.feed (t.at (.csi ps 0)) (ds.map (0x30 + ·)).reverse =
        some (t.at (.csi ps (Nat.ofDigits 10 ds))) := by
  intro ds
  induction ds with
  | nil => intro _; rfl
  | cons d ds ih =>
      intro h
      have hd : d < 10 := h d (List.mem_cons_self ..)
      rw [List.map_cons, List.reverse_cons]
      refine Run.run_concat.mpr ⟨_, ih fun d hd => h d (List.mem_cons_of_mem _ hd), ?_⟩
      have hdigit : 0x30 ≤ 0x30 + d ∧ 0x30 + d < 0x3A := ⟨by omega, by omega⟩
      have hvalue : Nat.ofDigits 10 ds * 10 + d = Nat.ofDigits 10 (d :: ds) := by
        rw [Nat.ofDigits_cons]
        omega
      simp only [Term.feed, Term.at, Term.feedCsi, if_pos hdigit, Nat.add_sub_cancel_left, hvalue]

theorem run_semicolon (t : Term) (ps : List Nat) (n : Nat) :
    Run.run Term.feed (t.at (.csi ps n)) [0x3B] = some (t.at (.csi (ps ++ [n]) 0)) := rfl

theorem run_sgr {p : Pen} (h : sgr (ps ++ [n]) t.pen = some p) :
    Run.run Term.feed (t.at (.csi ps n)) [0x6D] =
      some { t.at .ground with pen := p } := by
  refine Run.run_cons.mpr ⟨{ t.at .ground with pen := p }, ?_, rfl⟩
  show (sgr (ps ++ [n]) t.pen).map _ = _
  rw [h]
  rfl

theorem run_position {row col : Nat} (hrow : 1 ≤ row ∧ row ≤ t.rows)
    (hcol : 1 ≤ col ∧ col ≤ t.cols) :
    Run.run Term.feed (t.at (.csi [row] col)) [0x48] =
      some { t.at .ground with cursor := some (col - 1, row - 1) } :=
  Run.run_cons.mpr ⟨_, if_pos ⟨hrow.1, hrow.2, hcol.1, hcol.2⟩, rfl⟩

end Rules

/-! ## Colours -/

/-- The pen with one of its colours changed. -/
def Pen.setColor (p : Pen) (foreground : Bool) (c : Color) : Pen :=
  if foreground then { p with fg := c } else { p with bg := c }

section Colours

variable (p : Pen) (foreground : Bool) {code r g b : Nat}

theorem sgr_rgb (hr : r < 256) (hg : g < 256) (hb : b < 256) :
    sgr [if foreground then 38 else 48, 2, r, g, b] p =
      some (p.setColor foreground (.rgb r g b)) := by
  cases foreground with
  | false => exact if_pos ⟨hr, hg, hb⟩
  | true => exact if_pos ⟨hr, hg, hb⟩

theorem sgr_palette (h : code < 256) :
    sgr [if foreground then 38 else 48, 5, code] p =
      some (p.setColor foreground (.palette code)) := by
  cases foreground with
  | false => exact if_pos h
  | true => exact if_pos h

/-- The first eight, and the bright ones that were added in a range of their
own. -/
theorem sgr_sixteen (h : code < 16) :
    sgr [if code < 8 then (if foreground then 30 else 40) + code
      else (if foreground then 90 else 100) + (code - 8)] p =
        some (p.setColor foreground (.palette code)) := by
  cases foreground with
  | false => interval_cases code <;> rfl
  | true => interval_cases code <;> rfl

end Colours

/-! ## Text -/

section Text

variable {t : Term} {cp : Nat}

theorem Term.print_at (t : Term) (m : Mode) (cp : Nat) : (t.at m).print cp = t.print cp := rfl

theorem run_utf8_one (t : Term) (hlow : cp < 0x80) (hcp : Printable cp) :
    Run.run Term.feed (t.at .ground) [cp] = t.print cp := by
  have hesc : cp ≠ 0x1B := by
    unfold Printable at hcp
    omega
  have hfeed : (t.at .ground).feed cp = t.print cp := by
    show (t.at .ground).feedGround cp = _
    rw [Term.feedGround, if_neg hesc, if_pos hlow, Term.print_at]
  rw [Run.run, hfeed]
  cases t.print cp with
  | none => rfl
  | some t' => rfl

/-- The last byte of a longer encoding. -/
theorem run_utf8_last (t : Term) {acc least low : Nat} (hlow : low < 64)
    (hleast : least ≤ acc * 64 + low) :
    Run.run Term.feed (t.at (.utf8 0 acc least)) [0x80 + low] = t.print (acc * 64 + low) := by
  have hbyte : 0x80 ≤ 0x80 + low ∧ 0x80 + low < 0xC0 := ⟨by omega, by omega⟩
  have hfeed : (t.at (.utf8 0 acc least)).feed (0x80 + low) = t.print (acc * 64 + low) := by
    show (t.at (.utf8 0 acc least)).feedUtf8 0 acc least (0x80 + low) = _
    simp only [Term.feedUtf8, if_pos hbyte, Nat.add_sub_cancel_left, if_pos hleast, Term.print_at]
  rw [Run.run, hfeed]
  cases t.print (acc * 64 + low) with
  | none => rfl
  | some t' => rfl

theorem run_utf8_next (t : Term) (more : Nat) {acc least low : Nat} (hlow : low < 64)
    (bs : List Nat) :
    Run.run Term.feed (t.at (.utf8 (more + 1) acc least)) ((0x80 + low) :: bs) =
      Run.run Term.feed (t.at (.utf8 more (acc * 64 + low) least)) bs := by
  have hbyte : 0x80 ≤ 0x80 + low ∧ 0x80 + low < 0xC0 := ⟨by omega, by omega⟩
  have hfeed : (t.at (.utf8 (more + 1) acc least)).feed (0x80 + low) =
      some (t.at (.utf8 more (acc * 64 + low) least)) := by
    show (t.at (.utf8 (more + 1) acc least)).feedUtf8 (more + 1) acc least (0x80 + low) = _
    simp only [Term.feedUtf8, if_pos hbyte, Nat.add_sub_cancel_left]
    rfl
  rw [Run.run, hfeed]

/-- The first byte of a longer encoding says how many follow. -/
theorem run_utf8_lead (t : Term) {base size more least high : Nat}
    (hlead : (base = 0xC0 ∧ size = 0x20 ∧ more = 0 ∧ least = 0x80) ∨
      (base = 0xE0 ∧ size = 0x10 ∧ more = 1 ∧ least = 0x800) ∨
      (base = 0xF0 ∧ size = 0x08 ∧ more = 2 ∧ least = 0x10000))
    (hhigh : high < size) (bs : List Nat) :
    Run.run Term.feed (t.at .ground) ((base + high) :: bs) =
      Run.run Term.feed (t.at (.utf8 more high least)) bs := by
  have hfeed : (t.at .ground).feed (base + high) = some (t.at (.utf8 more high least)) := by
    show (t.at .ground).feedGround (base + high) = _
    unfold Term.feedGround
    rcases hlead with ⟨rfl, rfl, rfl, rfl⟩ | ⟨rfl, rfl, rfl, rfl⟩ | ⟨rfl, rfl, rfl, rfl⟩
    · rw [if_neg (by omega), if_neg (by omega), if_pos (by omega), Nat.add_sub_cancel_left]
      rfl
    · rw [if_neg (by omega), if_neg (by omega), if_neg (by omega), if_pos (by omega),
        Nat.add_sub_cancel_left]
      rfl
    · rw [if_neg (by omega), if_neg (by omega), if_neg (by omega), if_neg (by omega),
        if_pos (by omega), Nat.add_sub_cancel_left]
      rfl
  rw [Run.run, hfeed]

theorem run_utf8_two (t : Term) (hlow : 0x80 ≤ cp) (hhigh : cp < 0x800) :
    Run.run Term.feed (t.at .ground) [0xC0 + cp / 64, 0x80 + cp % 64] = t.print cp := by
  have hvalue : cp / 64 * 64 + cp % 64 = cp := by omega
  rw [run_utf8_lead t (.inl ⟨rfl, rfl, rfl, rfl⟩) (by omega),
    run_utf8_last t (by omega) (by omega), hvalue]

theorem run_utf8_three (t : Term) (hlow : 0x800 ≤ cp) (hhigh : cp < 0x10000) :
    Run.run Term.feed (t.at .ground)
      [0xE0 + cp / 4096, 0x80 + cp / 64 % 64, 0x80 + cp % 64] = t.print cp := by
  have hvalue : (cp / 4096 * 64 + cp / 64 % 64) * 64 + cp % 64 = cp := by omega
  rw [run_utf8_lead t (.inr (.inl ⟨rfl, rfl, rfl, rfl⟩)) (by omega),
    run_utf8_next t 0 (by omega), run_utf8_last t (by omega) (by omega), hvalue]

theorem run_utf8_four (t : Term) (hlow : 0x10000 ≤ cp) (hhigh : cp < 0x200000) :
    Run.run Term.feed (t.at .ground)
      [0xF0 + cp / 262144, 0x80 + cp / 4096 % 64, 0x80 + cp / 64 % 64, 0x80 + cp % 64] =
        t.print cp := by
  have hvalue : ((cp / 262144 * 64 + cp / 4096 % 64) * 64 + cp / 64 % 64) * 64 + cp % 64 = cp := by
    omega
  rw [run_utf8_lead t (.inr (.inr ⟨rfl, rfl, rfl, rfl⟩)) (by omega),
    run_utf8_next t 1 (by omega), run_utf8_next t 0 (by omega),
    run_utf8_last t (by omega) (by omega), hvalue]

end Text

/-! ## Input of any kind

A terminal whose size changes in the middle of a frame goes on reading, and
what it then reads may name positions that it no longer has. `take` is `feed`
made total: input that leads nowhere leaves a screen of which nothing is
known, of the same size, with the parser between sequences. -/

/-- Where a byte leaves the parser, which does not depend on the screen. -/
def Mode.next : Mode → Nat → Mode
  | .ground, b =>
      if b = 0x1B then .esc
      else if b < 0x80 then .ground
      else if 0xC0 ≤ b ∧ b < 0xE0 then .utf8 0 (b - 0xC0) 0x80
      else if 0xE0 ≤ b ∧ b < 0xF0 then .utf8 1 (b - 0xE0) 0x800
      else if 0xF0 ≤ b ∧ b < 0xF8 then .utf8 2 (b - 0xF0) 0x10000
      else .ground
  | .esc, b => if b = 0x5B then .csi [] 0 else .ground
  | .csi params n, b =>
      if 0x30 ≤ b ∧ b < 0x3A then .csi params (n * 10 + (b - 0x30))
      else if b = 0x3B then .csi (params ++ [n]) 0
      else .ground
  | .utf8 0 _ _, _ => .ground
  | .utf8 (more + 1) acc least, b =>
      if 0x80 ≤ b ∧ b < 0xC0 then .utf8 more (acc * 64 + (b - 0x80)) least else .ground

/-- One byte, whatever it is; `other` is what the screen becomes where `feed`
says nothing. -/
def Term.take (other : Term → Nat → Term) (t : Term) (b : Nat) : Term :=
  match t.feed b with
  | some t' => t'
  | none => { other t b with cols := t.cols, rows := t.rows, mode := .ground }

def Term.takeAll (other : Term → Nat → Term) (t : Term) (bs : List Nat) : Term :=
  bs.foldl (Term.take other) t

section Any

variable {other : Term → Nat → Term} {t t' : Term} {b : Nat} {bs : List Nat}

/-- The parser after a step, if there was one. -/
def modeAfter (t : Option Term) : Mode := t.elim .ground Term.mode

theorem Term.print_modeAfter (t : Term) (cp : Nat) : modeAfter (t.print cp) = .ground := by
  unfold Term.print
  split
  · rfl
  · split_ifs <;> rfl

theorem Term.position_modeAfter (t : Term) (ps : List Nat) :
    modeAfter (t.position ps) = .ground := by
  unfold Term.position
  split
  · split_ifs <;> rfl
  · rfl

theorem Term.feedCsi_modeAfter (t : Term) (ps : List Nat) (n b : Nat) :
    modeAfter (t.feedCsi ps n b) = Mode.next (.csi ps n) b := by
  unfold Term.feedCsi
  simp only [Mode.next]
  by_cases hdigit : 0x30 ≤ b ∧ b < 0x3A
  · rw [if_pos hdigit, if_pos hdigit]
    rfl
  rw [if_neg hdigit, if_neg hdigit]
  by_cases hsemi : b = 0x3B
  · rw [if_pos hsemi, if_pos hsemi]
    rfl
  rw [if_neg hsemi, if_neg hsemi]
  split_ifs
  · exact t.position_modeAfter _
  · cases sgr (ps ++ [n]) t.pen with
    | none => rfl
    | some p => rfl
  · rfl

theorem Term.feedUtf8_modeAfter (t : Term) (more acc least b : Nat) :
    modeAfter (t.feedUtf8 more acc least b) = Mode.next (.utf8 more acc least) b := by
  unfold Term.feedUtf8
  cases more with
  | zero =>
      simp only [Mode.next]
      split_ifs
      · exact t.print_modeAfter _
      · rfl
      · rfl
  | succ more =>
      simp only [Mode.next]
      split_ifs <;> rfl

theorem Term.feed_modeAfter (t : Term) (b : Nat) : modeAfter (t.feed b) = t.mode.next b := by
  unfold Term.feed
  cases hmode : t.mode with
  | ground =>
      show modeAfter (t.feedGround b) = _
      unfold Term.feedGround
      simp only [Mode.next]
      split_ifs
      · rfl
      · exact t.print_modeAfter b
      all_goals rfl
  | esc =>
      simp only [Mode.next]
      split_ifs <;> rfl
  | csi ps n => exact t.feedCsi_modeAfter ps n b
  | utf8 more acc least => exact t.feedUtf8_modeAfter more acc least b

/-- So it is along all input that `feed` accepts. -/
theorem Term.run_mode (h : Run.run Term.feed t bs = some t') :
    t'.mode = bs.foldl Mode.next t.mode := by
  induction bs generalizing t with
  | nil => exact congrArg Term.mode (Option.some.inj h).symm
  | cons b bs ih =>
      obtain ⟨m, hm, hrun⟩ := Run.run_cons.mp h
      have hmode : m.mode = t.mode.next b := by
        rw [← t.feed_modeAfter b, hm]
        rfl
      rw [ih hrun, hmode]
      rfl

/-- No input changes the size. -/
structure SameSize (t t' : Term) : Prop where
  cols : t'.cols = t.cols
  rows : t'.rows = t.rows

theorem Term.print_size {cp : Nat} (h : t.print cp = some t') : SameSize t t' := by
  unfold Term.print at h
  split at h
  · cases h
  · by_cases hcp : Printable cp
    · rw [if_pos hcp] at h
      obtain rfl := Option.some.inj h
      exact ⟨rfl, rfl⟩
    · rw [if_neg hcp] at h
      cases h

theorem Term.feedGround_size (h : t.feedGround b = some t') : SameSize t t' := by
  unfold Term.feedGround at h
  by_cases hesc : b = 0x1B
  · rw [if_pos hesc] at h
    obtain rfl := Option.some.inj h
    exact ⟨rfl, rfl⟩
  rw [if_neg hesc] at h
  by_cases hascii : b < 0x80
  · rw [if_pos hascii] at h
    exact Term.print_size h
  rw [if_neg hascii] at h
  split_ifs at h
  · obtain rfl := Option.some.inj h
    exact ⟨rfl, rfl⟩
  · obtain rfl := Option.some.inj h
    exact ⟨rfl, rfl⟩
  · obtain rfl := Option.some.inj h
    exact ⟨rfl, rfl⟩

theorem Term.feedCsi_size {ps : List Nat} {n : Nat} (h : t.feedCsi ps n b = some t') :
    SameSize t t' := by
  unfold Term.feedCsi Term.position at h
  split_ifs at h
  · obtain rfl := Option.some.inj h
    exact ⟨rfl, rfl⟩
  · obtain rfl := Option.some.inj h
    exact ⟨rfl, rfl⟩
  · split at h
    · split_ifs at h
      obtain rfl := Option.some.inj h
      exact ⟨rfl, rfl⟩
    · cases h
  · obtain ⟨p, -, rfl⟩ := Option.map_eq_some_iff.mp h
    exact ⟨rfl, rfl⟩

theorem Term.feedUtf8_size {more acc least : Nat} (h : t.feedUtf8 more acc least b = some t') :
    SameSize t t' := by
  unfold Term.feedUtf8 at h
  split_ifs at h
  cases more with
  | zero =>
      simp only at h
      split_ifs at h
      exact Term.print_size h
  | succ more =>
      obtain rfl := Option.some.inj h
      exact ⟨rfl, rfl⟩

theorem Term.feed_size (h : t.feed b = some t') : SameSize t t' := by
  unfold Term.feed at h
  cases hmode : t.mode with
  | ground =>
      rw [hmode] at h
      exact Term.feedGround_size h
  | esc =>
      rw [hmode] at h
      simp only at h
      split_ifs at h
      obtain rfl := Option.some.inj h
      exact ⟨rfl, rfl⟩
  | csi ps n =>
      rw [hmode] at h
      exact Term.feedCsi_size h
  | utf8 more acc least =>
      rw [hmode] at h
      exact Term.feedUtf8_size h

theorem Term.take_size (t : Term) (b : Nat) : SameSize t (t.take other b) := by
  unfold Term.take
  cases hfeed : t.feed b with
  | none => exact ⟨rfl, rfl⟩
  | some t' => exact Term.feed_size hfeed

theorem Term.takeAll_size (t : Term) (bs : List Nat) : SameSize t (t.takeAll other bs) := by
  induction bs generalizing t with
  | nil => exact ⟨rfl, rfl⟩
  | cons b bs ih =>
      obtain ⟨hc, hr⟩ : SameSize t (t.take other b) := t.take_size b
      obtain ⟨hc', hr'⟩ := ih (t.take other b)
      exact ⟨hc'.trans hc, hr'.trans hr⟩

theorem Term.take_of_feed (h : t.feed b = some t') : t.take other b = t' := by
  unfold Term.take
  rw [h]

theorem Term.take_mode (t : Term) (b : Nat) : (t.take other b).mode = t.mode.next b := by
  rw [← t.feed_modeAfter b]
  unfold Term.take
  cases t.feed b with
  | none => rfl
  | some t' => rfl

theorem Term.takeAll_mode (t : Term) (bs : List Nat) :
    (t.takeAll other bs).mode = bs.foldl Mode.next t.mode := by
  induction bs generalizing t with
  | nil => rfl
  | cons b bs ih =>
      show ((t.take other b).takeAll other bs).mode = bs.foldl Mode.next (t.mode.next b)
      rw [ih, Term.take_mode]

theorem Term.takeAll_append (t : Term) (bs cs : List Nat) :
    t.takeAll other (bs ++ cs) = (t.takeAll other bs).takeAll other cs := List.foldl_append

/-- Input that `feed` accepts to its end is read by `feed` alone. -/
theorem Term.takeAll_of_run (h : Run.run Term.feed t bs = some t') : t.takeAll other bs = t' := by
  induction bs generalizing t with
  | nil => exact Option.some.inj h
  | cons b bs ih =>
      obtain ⟨m, hm, hrun⟩ := Run.run_cons.mp h
      show (t.take other b).takeAll other bs = t'
      rw [Term.take_of_feed hm]
      exact ih hrun

end Any

end Vt
