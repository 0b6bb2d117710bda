import Heapviz.RenderShows
import Heapviz.EventLoop

/-!
# The screen across size changes

The loop of `Heapviz.EventLoop` on a terminal that may change its size
between any two of its steps. A size change discards what the screen shows
and raises the resize request; the loop takes the request at its next look,
measures, and repaints in full if the size measured is not the one it has.

Whether the screen shows the frame that was drawn comes down to the front
buffer. A frame is sent as the difference to it, so before every such frame
the screen has to show it: that is the clause `front` of `Settled`, with the
two ways out of it, that the next frame is a full one or that the size has
changed since the loop last measured. A look gets rid of the second one
unless the size it measures is the size it has: then the contents are gone
and nothing is repainted (`Refreshes` says that this is not so).
-/

namespace Heapviz

open Vt

/-! ## The loop on its terminal -/

/-- A loop, its terminal and the request flag; beside these the history that
the statements are about: whether the size has changed since the last
measurement and since this iteration began, and the buffer of the last frame
drawn, unless the size has changed during or since it. -/
structure ScreenRun where
  loop : EventLoop
  winch : Bool
  term : Term
  changed : Bool
  calm : Bool
  kept : Option Framebuffer

inductive ScreenAct where
  /-- The terminal takes another size. What it then shows, and where it leaves
  cursor and pen, is its own affair. -/
  | size (cols rows : Nat) (cells : Nat → Nat → Slot) (cursor : Option (Nat × Nat)) (pen : Pen)
  | begin (quit reset : Bool)
  | look
  | measure
  | frame (n : Nat) (updated animating : Bool) (puts : List Put)
  | write (k : Nat)
  | fail
  | drawn
  | wait (quit key : Bool)

/-- A size the loop goes on with and the terminal can report. -/
def Accepted (cfg : LoopConfig) (cols rows : Nat) : Prop :=
  0 < cols ∧ 0 < rows ∧ cfg.minWidth ≤ cols ∧ cfg.minHeight ≤ rows

instance (cfg : LoopConfig) (cols rows : Nat) : Decidable (Accepted cfg cols rows) :=
  inferInstanceAs (Decidable (_ ∧ _ ∧ _ ∧ _))

/-- `terminal_size`; a side of length zero is no measurement. -/
def terminalSize (t : Term) : Option (Int × Int) :=
  if t.cols = 0 ∨ t.rows = 0 then none else some (t.cols, t.rows)

namespace ScreenRun

def start (cfg : LoopConfig) (fb : Framebuffer) (t : Term) : ScreenRun :=
  ⟨EventLoop.start cfg fb, true, t, true, false, none⟩

/-- Each action but `size` is the loop's next one, possible where the loop
stands there. The frames painted are of glyphs that the terminal has a column
for. -/
def step (cfg : LoopConfig) (other : Term → Nat → Term) (s : ScreenRun) :
    ScreenAct → Option ScreenRun
  | .size cols rows cells cursor pen =>
      if Accepted cfg cols rows ∧ (cols ≠ s.term.cols ∨ rows ≠ s.term.rows) then
        some { s with
          term := ⟨cols, rows, cells, cursor, pen, s.term.mode⟩
          winch := true
          changed := true
          calm := false
          kept := none }
      else none
  | .begin quit reset =>
      if s.loop.phase = .top then
        some { s with loop := s.loop.begin cfg quit reset, calm := true }
      else none
  | .look =>
      if s.loop.phase = .look then
        some { s with
          loop := { s.loop with phase := if s.winch then .measure else .work }
          winch := false }
      else none
  | .measure =>
      if s.loop.phase = .measure then
        some { s with loop := s.loop.sized cfg (terminalSize s.term), changed := false }
      else none
  | .frame n updated animating puts =>
      if s.loop.phase = .work ∧ (s.loop.fb.paint puts).Plain then
        let loop := (s.loop.mark n updated animating).draw puts
        some { s with loop := loop, kept := if loop.phase = .wait then s.kept else none }
      else none
  | .write k =>
      match s.loop.phase with
      | .flush rest =>
          if 0 < k ∧ k ≤ rest.length then
            some { s with
              loop := { s.loop with phase := .flush (rest.drop k) }
              term := s.term.takeAll other (rest.take k) }
          else none
      | _ => none
  | .fail =>
      match s.loop.phase with
      | .flush (_ :: _) => some { s with loop := { s.loop with phase := .exited .writeFailed } }
      | _ => none
  | .drawn =>
      if s.loop.phase = .flush [] then
        some { s with
          loop := s.loop.drawn
          kept := if s.calm then some s.loop.fb else none }
      else none
  | .wait quit key =>
      if s.loop.phase = .wait then some { s with loop := s.loop.waited quit key } else none

end ScreenRun

/-- At every measurement: the next frame is a full one anyway, or nothing was
discarded since the measurement before, or the size measured is not the one
the loop has. -/
def Refreshes (s : ScreenRun) : ScreenAct → Prop
  | .measure => s.loop.fullRepaint = true ∨ s.changed = false ∨
      s.term.cols ≠ s.loop.fb.w ∨ s.term.rows ≠ s.loop.fb.h
  | _ => True

instance (s : ScreenRun) : ∀ a, Decidable (Refreshes s a)
  | .measure => inferInstanceAs (Decidable (_ ∨ _ ∨ _ ∨ _))
  | .size .. | .begin .. | .look | .frame .. | .write _ | .fail | .drawn | .wait .. =>
      .isTrue trivial

/-! ## The invariant -/

section Invariant

variable {cfg : LoopConfig} {other : Term → Nat → Term} {s : ScreenRun}

/-- The loop has the terminal's size. -/
structure Sized (s : ScreenRun) : Prop where
  cols : s.term.cols = s.loop.fb.w
  rows : s.term.rows = s.loop.fb.h
  nonempty : s.loop.fb.isEmpty = false

/-- The next frame may be sent: the screen shows the front buffer, or the
frame is a full one. -/
structure Fronted (cfg : LoopConfig) (s : ScreenRun) : Prop where
  fits : Sized s
  front : s.loop.fullRepaint = false →
    Shows cfg.color s.term s.loop.fb.w s.loop.fb.h s.loop.fb.atFront

/-- The bytes to be written lead to the back buffer. -/
structure Writing (cfg : LoopConfig) (other : Term → Nat → Term) (s : ScreenRun)
    (rest : List Nat) : Prop where
  fits : Sized s
  back : Shows cfg.color (s.term.takeAll other rest) s.loop.fb.w s.loop.fb.h s.loop.fb.atBack

/-- What holds where the loop stands. Unless the size has changed since the
last measurement, the screen is what the loop takes it for; an iteration
without a size change in it draws only after a measurement that still holds. -/
def Standing (cfg : LoopConfig) (other : Term → Nat → Term) (s : ScreenRun) : Phase → Prop
  | .exited _ => True
  | .flush rest => rest.foldl Mode.next s.term.mode = .ground ∧
      (s.changed = false → Writing cfg other s rest) ∧ (s.calm = true → s.changed = false) ∧
      s.kept = none
  | .work => s.term.mode = .ground ∧
      (s.changed = false → Fronted cfg s) ∧ (s.calm = true → s.changed = false)
  | _ => s.term.mode = .ground ∧ (s.changed = false → Fronted cfg s)

structure Settled (cfg : LoopConfig) (other : Term → Nat → Term) (s : ScreenRun) : Prop where
  accepted : Accepted cfg s.term.cols s.term.rows
  color : s.loop.r.mode = cfg.color
  /-- A size change that the loop has not measured is still requested. -/
  request : s.changed = true → s.winch = true ∨ s.loop.phase = .measure
  standing : Standing cfg other s s.loop.phase
  kept : ∀ d, s.kept = some d → Shows cfg.color s.term d.w d.h d.atBack

theorem Fronted.congr {s' : ScreenRun} (h : Fronted cfg s) (hfb : s'.loop.fb = s.loop.fb)
    (hfull : s'.loop.fullRepaint = s.loop.fullRepaint) (hterm : s'.term = s.term) :
    Fronted cfg s' := by
  obtain ⟨⟨hcols, hrows, hne⟩, hfront⟩ := h
  rw [← hfb, ← hterm] at hcols hrows hfront
  rw [← hfb] at hne
  rw [← hfull] at hfront
  exact ⟨⟨hcols, hrows, hne⟩, hfront⟩

theorem Settled.start (fb : Framebuffer) {t : Term} (hacc : Accepted cfg t.cols t.rows)
    (hmode : t.mode = .ground) : Settled cfg other (ScreenRun.start cfg fb t) :=
  ⟨hacc, rfl, fun _ => .inl rfl, ⟨hmode, fun hfalse => (by cases hfalse)⟩,
    fun _ hkept => (by cases hkept)⟩

/-! ## Steps of the loop -/

/-- A terminal of an accepted size is measured. -/
theorem Accepted.terminalSize {t : Term} (h : Accepted cfg t.cols t.rows) :
    terminalSize t = some ((t.cols : Int), (t.rows : Int)) := by
  obtain ⟨hc, hr, -, -⟩ := h
  unfold Heapviz.terminalSize
  rw [if_neg]
  omega

/-- What the loop does with a measurement. -/
theorem EventLoop.sized_cases (l : EventLoop) {cols rows : Nat} (h : Accepted cfg cols rows) :
    l.sized cfg (some ((cols : Int), (rows : Int))) =
        { l with phase := .exited .resizeFailed } ∨
      (∃ fb, fb.w = cols ∧ fb.h = rows ∧ fb.isEmpty = false ∧
        l.sized cfg (some ((cols : Int), (rows : Int))) =
          { l with fb := fb, fullRepaint := true, dirty := true, phase := .work }) ∨
      (cols = l.fb.w ∧ rows = l.fb.h ∧
        l.sized cfg (some ((cols : Int), (rows : Int))) = { l with phase := .work }) := by
  obtain ⟨-, -, hw, hh⟩ := h
  unfold EventLoop.sized
  simp only [Option.getD_some]
  rw [if_neg (by omega)]
  by_cases hsame : (cols : Int) ≠ l.fb.w ∨ (rows : Int) ≠ l.fb.h
  · rw [if_pos hsame]
    rcases hresize : l.fb.resize cols rows with ⟨fb, ok⟩
    cases ok with
    | false => exact .inl rfl
    | true =>
        obtain ⟨hfw, hfh, hne⟩ := Framebuffer.resize_size hresize
        exact .inr (.inl ⟨fb, hfw, hfh, hne, rfl⟩)
  · rw [if_neg hsame]
    exact .inr (.inr ⟨by omega, by omega, rfl⟩)

/-- A frame's bytes leave the parser between sequences, on a terminal of any
size. -/
theorem Renderer.render_ground (r : Renderer) {fb : Framebuffer} (full : Bool)
    (hplain : fb.Plain) :
    (r.render fb full).1.out.foldl Mode.next .ground = .ground ∧
      (r.render fb full).1.mode = r.mode := by
  cases hne : fb.isEmpty with
  | true =>
      unfold Renderer.render
      rw [if_pos hne]
      exact ⟨rfl, rfl⟩
  | false =>
      -- the parser does not look at the screen: let the terminal be one that fits
      obtain ⟨t, hrun, hground, -, -, hmode⟩ := @Renderer.render_run r fb full
        (screenOf r.mode fb) hne hplain rfl rfl rfl fun _ => ⟨rfl, rfl, fun _ _ _ _ => rfl⟩
      exact ⟨(Term.run_mode hrun).symm.trans hground, hmode⟩

/-! ## The invariant along the loop -/

variable (h : Settled cfg other s)
include h

theorem Settled.requested (hphase : s.loop.phase ≠ .measure) (hc : s.changed = true) :
    s.winch = true := (h.request hc).resolve_right hphase

theorem Settled.size {cols rows : Nat} (hacc : Accepted cfg cols rows) (cells : Nat → Nat → Slot)
    (cursor : Option (Nat × Nat)) (pen : Pen) :
    Settled cfg other { s with
      term := ⟨cols, rows, cells, cursor, pen, s.term.mode⟩
      winch := true
      changed := true
      calm := false
      kept := none } := by
  refine ⟨hacc, h.color, fun _ => .inl rfl, ?_, fun _ hkept => (by cases hkept)⟩
  have hstanding := h.standing
  show Standing cfg other _ s.loop.phase
  cases hphase : s.loop.phase with
  | exited why => trivial
  | flush rest =>
      rw [hphase] at hstanding
      exact ⟨hstanding.1, fun hfalse => (by cases hfalse), fun hfalse => (by cases hfalse), rfl⟩
  | work =>
      rw [hphase] at hstanding
      exact ⟨hstanding.1, fun hfalse => (by cases hfalse), fun hfalse => (by cases hfalse)⟩
  | top | look | measure | wait =>
      rw [hphase] at hstanding
      exact ⟨hstanding.1, fun hfalse => (by cases hfalse)⟩

theorem Settled.begin (quit reset : Bool) (hphase : s.loop.phase = .top) :
    Settled cfg other { s with loop := s.loop.begin cfg quit reset, calm := true } := by
  have hstanding := h.standing
  rw [hphase] at hstanding
  obtain ⟨hmode, hfront⟩ := hstanding
  have hrequest := h.requested (by rw [hphase]; simp)
  obtain ⟨frames, dirty, phase, hbegin, hlook | ⟨why, hexit⟩⟩ :=
    EventLoop.begin_cases cfg quit reset s.loop
  · subst hlook
    rw [hbegin]
    exact ⟨h.accepted, h.color, fun hc => .inl (hrequest hc),
      ⟨hmode, fun hc => (hfront hc).congr rfl rfl rfl⟩, h.kept⟩
  · subst hexit
    rw [hbegin]
    exact ⟨h.accepted, h.color, fun hc => .inl (hrequest hc), trivial, h.kept⟩

/-- Where no request is found, nothing has changed since the last measurement. -/
theorem Settled.look (hphase : s.loop.phase = .look) :
    Settled cfg other { s with
      loop := { s.loop with phase := if s.winch then .measure else .work }
      winch := false } := by
  have hstanding := h.standing
  rw [hphase] at hstanding
  obtain ⟨hmode, hfront⟩ := hstanding
  cases hwinch : s.winch with
  | true =>
      exact ⟨h.accepted, h.color, fun _ => .inr rfl,
        ⟨hmode, fun hc => (hfront hc).congr rfl rfl rfl⟩, h.kept⟩
  | false =>
      have hsame : s.changed = false := by
        cases hchanged : s.changed with
        | false => rfl
        | true =>
            have hw := h.requested (by rw [hphase]; simp) hchanged
            rw [hwinch] at hw
            cases hw
      refine ⟨h.accepted, h.color, fun hc => ?_,
        ⟨hmode, fun hc => (hfront hc).congr rfl rfl rfl, fun _ => hsame⟩, h.kept⟩
      rw [hsame] at hc
      cases hc

/-- After a measurement that refreshes, the loop has the terminal's size and
either nothing was discarded or everything is repainted. -/
theorem Settled.measure (hphase : s.loop.phase = .measure) (hg : Refreshes s .measure) :
    Settled cfg other { s with
      loop := s.loop.sized cfg (terminalSize s.term)
      changed := false } := by
  have hstanding := h.standing
  rw [hphase] at hstanding
  obtain ⟨hmode, hfront⟩ := hstanding
  rw [h.accepted.terminalSize]
  rcases s.loop.sized_cases h.accepted with hfail | ⟨fb, hw, hh, hne, hsized⟩ | ⟨hw, hh, hsized⟩
  · rw [hfail]
    exact ⟨h.accepted, h.color, fun hfalse => (by cases hfalse), trivial, h.kept⟩
  · rw [hsized]
    exact ⟨h.accepted, h.color, fun hfalse => (by cases hfalse),
      ⟨hmode, fun _ => ⟨⟨hw.symm, hh.symm, hne⟩, fun hfalse => (by cases hfalse)⟩, fun _ => rfl⟩,
      h.kept⟩
  · rw [hsized]
    refine ⟨h.accepted, h.color, fun hfalse => (by cases hfalse),
      ⟨hmode, fun _ => ?_, fun _ => rfl⟩, h.kept⟩
    obtain ⟨hcols, hrows, -, -⟩ := h.accepted
    have hfits : Sized { s with loop := { s.loop with phase := .work }, changed := false } :=
      ⟨hw, hh, Framebuffer.isEmpty_eq_false.mpr ⟨hw ▸ hcols, hh ▸ hrows⟩⟩
    rcases hg with hfull | hsame | hcols | hrows
    · refine ⟨hfits, fun hfalse => ?_⟩
      rw [hfull] at hfalse
      cases hfalse
    · exact (hfront hsame).congr rfl rfl rfl
    · exact absurd hw hcols
    · exact absurd hh hrows

/-- A frame that is drawn puts out bytes that lead to what it drew. -/
theorem Settled.frame (n : Nat) (updated animating : Bool) {puts : List Put}
    (hphase : s.loop.phase = .work) (hplain : (s.loop.fb.paint puts).Plain) :
    Settled cfg other { s with
      loop := (s.loop.mark n updated animating).draw puts
      kept := if ((s.loop.mark n updated animating).draw puts).phase = .wait then s.kept
        else none } := by
  have hstanding := h.standing
  rw [hphase] at hstanding
  obtain ⟨hmode, hfront, hcalm⟩ := hstanding
  have hrequest := h.requested (by rw [hphase]; simp)
  rcases EventLoop.draw_cases (s.loop.mark n updated animating) puts with hskip | hdraw
  · rw [hskip, if_pos rfl]
    exact ⟨h.accepted, h.color, fun hc => .inl (hrequest hc),
      ⟨hmode, fun hc => (hfront hc).congr rfl rfl rfl⟩, h.kept⟩
  · rw [hdraw, if_neg (by simp)]
    obtain ⟨hground, hcolor⟩ := s.loop.r.render_ground s.loop.fullRepaint hplain
    refine ⟨h.accepted, hcolor.trans h.color, fun hc => .inl (hrequest hc),
      ⟨?_, fun hc => ?_, hcalm, rfl⟩, fun _ hkept => (by cases hkept)⟩
    · rw [hmode]
      exact hground
    · obtain ⟨⟨hcols, hrows, hne⟩, hshows⟩ := hfront hc
      obtain ⟨hpw, hph⟩ := s.loop.fb.paint_size puts
      have hcols' : s.term.cols = (s.loop.fb.paint puts).w := hcols.trans hpw.symm
      have hrows' : s.term.rows = (s.loop.fb.paint puts).h := hrows.trans hph.symm
      have hne' := (Framebuffer.isEmpty_congr hpw hph).trans hne
      obtain ⟨t, hrun, -, hback, -, -⟩ := s.loop.r.render_run hne' hplain hmode hcols' hrows'
        fun hfull => by
          rw [h.color, hpw, hph, s.loop.fb.paint_atFront]
          exact hshows hfull
      refine ⟨⟨hcols', hrows', hne'⟩, ?_⟩
      rw [h.color] at hback
      have htake : s.term.takeAll other _ = t := Term.takeAll_of_run hrun
      rw [← htake] at hback
      exact hback

theorem Settled.write {rest : List Nat} (k : Nat) (hphase : s.loop.phase = .flush rest) :
    Settled cfg other { s with
      loop := { s.loop with phase := .flush (rest.drop k) }
      term := s.term.takeAll other (rest.take k) } := by
  have hstanding := h.standing
  rw [hphase] at hstanding
  obtain ⟨hmode, hback, hcalm, hkept⟩ := hstanding
  have hrequest := h.requested (by rw [hphase]; simp)
  obtain ⟨hcols, hrows⟩ : SameSize s.term (s.term.takeAll other (rest.take k)) :=
    s.term.takeAll_size (rest.take k)
  refine ⟨?_, h.color, fun hc => .inl (hrequest hc), ⟨?_, ?_, hcalm, hkept⟩, ?_⟩
  · show Accepted cfg (s.term.takeAll other (rest.take k)).cols _
    rw [hcols, hrows]
    exact h.accepted
  · show (rest.drop k).foldl Mode.next (s.term.takeAll other (rest.take k)).mode = .ground
    rw [Term.takeAll_mode, ← List.foldl_append, List.take_append_drop]
    exact hmode
  · intro hc
    obtain ⟨⟨hfw, hfh, hne⟩, hshows⟩ := hback hc
    refine ⟨⟨hcols.trans hfw, hrows.trans hfh, hne⟩, ?_⟩
    show Shows cfg.color ((s.term.takeAll other (rest.take k)).takeAll other (rest.drop k)) _ _ _
    rw [← Term.takeAll_append, List.take_append_drop]
    exact hshows
  · intro d hd
    rw [show s.kept = some d from hd] at hkept
    cases hkept

theorem Settled.fail {b : Nat} {rest : List Nat} (hphase : s.loop.phase = .flush (b :: rest)) :
    Settled cfg other { s with loop := { s.loop with phase := .exited .writeFailed } } :=
  ⟨h.accepted, h.color, fun hc => .inl (h.requested (by rw [hphase]; simp) hc), trivial, h.kept⟩

/-- Once every byte is out, the screen shows the frame, and the frame is the
new front. -/
theorem Settled.drawn (hphase : s.loop.phase = .flush []) :
    Settled cfg other { s with
      loop := s.loop.drawn
      kept := if s.calm then some s.loop.fb else none } := by
  have hstanding := h.standing
  rw [hphase] at hstanding
  obtain ⟨hmode, hback, hcalm, -⟩ := hstanding
  refine ⟨h.accepted, h.color, fun hc => .inl (h.requested (by rw [hphase]; simp) hc),
    ⟨hmode, fun hc => ?_⟩, fun d hd => ?_⟩
  · obtain ⟨⟨hcols, hrows, hne⟩, hshows⟩ := hback hc
    refine ⟨⟨hcols, hrows, hne⟩, fun _ => ?_⟩
    show Shows cfg.color s.term _ _ (s.loop.fb.swap emptyCell).atFront
    rw [Framebuffer.swap_atFront]
    exact hshows
  · cases hquiet : s.calm with
    | false =>
        rw [hquiet] at hd
        cases hd
    | true =>
        rw [hquiet] at hd
        obtain rfl := Option.some.inj hd
        exact (hback (hcalm hquiet)).back

theorem Settled.wait (quit key : Bool) (hphase : s.loop.phase = .wait) :
    Settled cfg other { s with loop := s.loop.waited quit key } := by
  have hstanding := h.standing
  rw [hphase] at hstanding
  obtain ⟨hmode, hfront⟩ := hstanding
  have hrequest := h.requested (by rw [hphase]; simp)
  cases quit with
  | true => exact ⟨h.accepted, h.color, fun hc => .inl (hrequest hc), trivial, h.kept⟩
  | false =>
      exact ⟨h.accepted, h.color, fun hc => .inl (hrequest hc),
        ⟨hmode, fun hc => (hfront hc).congr rfl rfl rfl⟩, h.kept⟩

/-- **One step.** Every step that refreshes the screen where it has to keeps
the invariant. -/
theorem Settled.step {a : ScreenAct} {s' : ScreenRun} (hg : Refreshes s a)
    (hstep : s.step cfg other a = some s') : Settled cfg other s' := by
  cases a with
  | size cols rows cells cursor pen =>
      obtain ⟨⟨hacc, -⟩, hs'⟩ := Option.ite_none_right_eq_some.mp hstep
      obtain rfl := Option.some.inj hs'
      exact h.size hacc cells cursor pen
  | begin quit reset =>
      obtain ⟨hphase, hs'⟩ := Option.ite_none_right_eq_some.mp hstep
      obtain rfl := Option.some.inj hs'
      exact h.begin quit reset hphase
  | look =>
      obtain ⟨hphase, hs'⟩ := Option.ite_none_right_eq_some.mp hstep
      obtain rfl := Option.some.inj hs'
      exact h.look hphase
  | measure =>
      obtain ⟨hphase, hs'⟩ := Option.ite_none_right_eq_some.mp hstep
      obtain rfl := Option.some.inj hs'
      exact h.measure hphase hg
  | frame n updated animating puts =>
      obtain ⟨⟨hphase, hplain⟩, hs'⟩ := Option.ite_none_right_eq_some.mp hstep
      obtain rfl := Option.some.inj hs'
      exact h.frame n updated animating hphase hplain
  | write k =>
      cases hphase : s.loop.phase with
      | flush rest =>
          simp only [ScreenRun.step, hphase] at hstep
          obtain ⟨-, hs'⟩ := Option.ite_none_right_eq_some.mp hstep
          obtain rfl := Option.some.inj hs'
          exact h.write k hphase
      | _ =>
          simp only [ScreenRun.step, hphase] at hstep
          cases hstep
  | fail =>
      simp only [ScreenRun.step] at hstep
      split at hstep
      case h_1 b rest hphase =>
        obtain rfl := Option.some.inj hstep
        exact h.fail hphase
      case h_2 => cases hstep
  | drawn =>
      obtain ⟨hphase, hs'⟩ := Option.ite_none_right_eq_some.mp hstep
      obtain rfl := Option.some.inj hs'
      exact h.drawn hphase
  | wait quit key =>
      obtain ⟨hphase, hs'⟩ := Option.ite_none_right_eq_some.mp hstep
      obtain rfl := Option.some.inj hs'
      exact h.wait quit key hphase

end Invariant

/-! ## Whole runs -/

/-- **The screen is coherent.** For every configuration, every buffer the loop
starts with and every terminal, whatever that makes of input it cannot
place: in every run of frames and size changes in which no measurement finds
the size the loop already has after the contents were discarded, the screen
shows the buffer of the last frame drawn for as long as the size has not
changed during or since that frame. -/
theorem screen_shows_drawn (cfg : LoopConfig) (other : Term → Nat → Term) (fb : Framebuffer)
    (t : Term) (hacc : Accepted cfg t.cols t.rows) (hmode : t.mode = .ground)
    (as : List ScreenAct) (s : ScreenRun)
    (hg : Run.Guarded (ScreenRun.step cfg other) Refreshes (ScreenRun.start cfg fb t) as)
    (hrun : Run.run (ScreenRun.step cfg other) (ScreenRun.start cfg fb t) as = some s)
    (d : Framebuffer) (hkept : s.kept = some d) : Shows cfg.color s.term d.w d.h d.atBack := by
  have hstart : Settled cfg other (ScreenRun.start cfg fb t) := Settled.start fb hacc hmode
  have hend : Settled cfg other s :=
    Run.guarded_invariant (fun _ _ _ h hg hstep => h.step hg hstep) hstart hg hrun
  exact hend.kept d hkept

/-- A terminal that shows nothing yet. -/
def blankTerm (cols rows : Nat) : Term :=
  ⟨cols, rows, fun _ _ => ⟨0x20, .plain⟩, none, .plain, .ground⟩

/-- A terminal that ignores what it cannot place. -/
def ignores : Term → Nat → Term := fun t _ => t

def blankSize (cols rows : Nat) : ScreenAct :=
  .size cols rows (fun _ _ => ⟨0x20, .plain⟩) none .plain

/-- An iteration that finds a request and draws one glyph in the corner. -/
def drawsGlyph (glyph bytes : Nat) : List ScreenAct :=
  [.begin false false, .look, .measure,
    .frame 1 false false [⟨0, 0, ⟨glyph, 0xFFFFFF, 0, 0⟩⟩], .write bytes, .drawn]

/-- A loop that draws on anything. -/
def tinyLoop : LoopConfig := ⟨.trueColor, 1, 1, 0⟩

/-- The terminal grows by a column between two frames. -/
def grown : List ScreenAct :=
  drawsGlyph 0x41 67 ++ [.wait false false, blankSize 3 1] ++ drawsGlyph 0x42 68

theorem screen_shows_drawn_grown : ∃ s d,
    Run.run (ScreenRun.step tinyLoop ignores) (ScreenRun.start tinyLoop .init (blankTerm 2 1))
        grown = some s ∧ s.kept = some d ∧ d.w = 3 ∧
      Shows .trueColor s.term d.w d.h d.atBack := by
  have hkept : (Run.run (ScreenRun.step tinyLoop ignores)
      (ScreenRun.start tinyLoop .init (blankTerm 2 1)) grown).map
        (fun s => s.kept.map Framebuffer.w) = some (some 3) := by decide +kernel
  obtain ⟨s, hs, hw⟩ := Option.map_eq_some_iff.mp hkept
  obtain ⟨d, hd, hw⟩ := Option.map_eq_some_iff.mp hw
  exact ⟨s, d, hs, hd, hw, screen_shows_drawn tinyLoop ignores .init (blankTerm 2 1) (by decide)
    rfl grown s (by decide +kernel) hs d hd⟩

/-- The terminal takes another size and its own again before the loop looks.
The second frame is sent as the difference to the first, of which nothing
is left: beside the glyph, the screen stays blank. -/
def returned : List ScreenAct :=
  drawsGlyph 0x41 215 ++ [.wait false false, blankSize 21 6, blankSize 20 6] ++
    drawsGlyph 0x42 47

theorem returned_not_shown : ∃ s d,
    Run.run (ScreenRun.step .default ignores) (ScreenRun.start .default .init (blankTerm 20 6))
        returned = some s ∧ s.kept = some d ∧
      ¬ Shows .trueColor s.term d.w d.h d.atBack := by
  have hcell : (Run.run (ScreenRun.step .default ignores)
      (ScreenRun.start .default .init (blankTerm 20 6)) returned).map
        (fun s => (s.kept.map fun d => (d.w, d.h, d.atBack 1 0), s.term.cells 1 0)) =
      some (some (20, 6, emptyCell), ⟨0x20, .plain⟩) := by decide +kernel
  obtain ⟨s, hs, hcell⟩ := Option.map_eq_some_iff.mp hcell
  obtain ⟨hkept, hterm⟩ := Prod.mk.inj hcell
  obtain ⟨d, hd, hbuffer⟩ := Option.map_eq_some_iff.mp hkept
  obtain ⟨hw, hbuffer⟩ := Prod.mk.inj hbuffer
  obtain ⟨hh, hback⟩ := Prod.mk.inj hbuffer
  refine ⟨s, d, hs, hd, fun hshows => ?_⟩
  have hshown := hshows.cells 1 0 (by omega) (by omega)
  rw [hterm, hback] at hshown
  exact absurd hshown (by decide)

end Heapviz
