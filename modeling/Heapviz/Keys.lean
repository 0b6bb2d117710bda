import Heapviz.Frame
import Heapviz.MetricsRuns

/-!
# The keys

`HeapApp::key` and `cursor_move_for_key` (`tui/heap_app.cpp`, `tui/cursor.cpp`), and
what the loop makes of all the keys of one read.

A key answers whether the screen is to be drawn again, and the loop skips the frame
where none does. `keys_contained`: keys that answer no have changed nothing that is
drawn; no key reaches the heap's model, whatever mode it is pressed in; and while
the help or the pause is up, the keys that are not in its footer do nothing at all.
-/

namespace Heapviz

/-- `cursor_move_for_key`. -/
def cursorMoveForKey : Char → Option CursorMove
  | 'h' => some .left
  | 'l' => some .right
  | 'k' => some .up
  | 'j' => some .down
  | 'H' => some .leftFar
  | 'L' => some .rightFar
  | 'K' => some .upFar
  | 'J' => some .downFar
  | 'g' => some .start
  | 'G' => some .last
  | 'n' => some .nextLive
  | 'N' => some .prevLive
  | _ => none

def kTab : Char := Char.ofNat 9

/-- What a key reads from outside: the ring, and the wall clock. -/
structure KeyEnv where
  ring : RingFigures
  clock : Option (Nat × Nat × Nat)

/-- The session, and the two flags a key sets for the loop. -/
structure KeyedApp (Lab : Type) where
  drawn : DrawnApp Lab
  resetLoopStats : Bool
  quit : Bool

variable {Lab : Type}

namespace DrawnApp

def modal (a : DrawnApp Lab) : Bool := a.app.helpVisible || a.app.paused

/-- `reset_stats`, but for the flag. -/
def resetStats (ring : RingFigures) (a : DrawnApp Lab) : DrawnApp Lab :=
  { a with
    app := { a.app with events := 0, freesUnknown := 0 }
    droppedAtAttach := ring.dropped
    metrics := a.metrics.reset
      ⟨a.app.live, a.app.liveBytes, ring.queued, ring.capacity, 0, a.app.nowMs⟩ }

/-- A movement, and the panel brought to where it went. -/
def moveCursor (m : CursorMove) (a : DrawnApp Lab) : DrawnApp Lab × Bool :=
  let (cursor, moved) := a.cursor.move a.app.map m
  let a := { a with cursor := cursor }
  if moved then
    let (shown, _) := a.inspect.toChunkInspector.refresh a.app.table a.app.map
      a.app.translation kDefaultTimings cursor a.app.nowMs true
    ({ a with inspect := { a.inspect with toChunkInspector := shown } }, true)
  else (a, false)

def cycleChunk (a : DrawnApp Lab) : DrawnApp Lab × Bool :=
  let (shown, changed) := a.inspect.toChunkInspector.cycle
  ({ a with inspect := { a.inspect with toChunkInspector := shown } }, changed)

/-- The mark: set, dropped, compared with. -/
def markKey (clock : Option (Nat × Nat × Nat)) (byte : Char) (a : DrawnApp Lab) :
    DrawnApp Lab × Bool :=
  if byte = 's' then ({ a with snap := a.snap.take a.app.nowMs clock }, true)
  else if byte = 'S' then ({ a with snap := a.snap.clear }, true)
  else if byte = 'd' then ({ a with snap := a.snap.toggle.1 }, a.snap.toggle.1.taken)
  else (a, false)

/-- The keys of no mode. -/
def plainKey (clock : Option (Nat × Nat × Nat)) (byte : Char) (a : DrawnApp Lab) :
    DrawnApp Lab × Bool :=
  match cursorMoveForKey byte with
  | some m => a.moveCursor m
  | none =>
      if byte = kTab then a.cycleChunk
      else if a.app.state = .live then a.markKey clock byte
      else (a, false)

end DrawnApp

namespace KeyedApp

def key (env : KeyEnv) (byte : Char) (k : KeyedApp Lab) : KeyedApp Lab × Bool :=
  let a := k.drawn
  if byte = 'q' then ({ k with quit := true }, false)
  else if byte = '?' then
    ({ k with drawn := { a with app := { a.app with helpVisible := !a.app.helpVisible } } }, true)
  else if byte = ' ' ∧ (a.app.state = .live ∨ a.app.paused = true) then
    ({ k with drawn := { a with app := a.app.keySpace } }, true)
  else if byte = 'r' ∧ a.app.state ≠ .detached then
    ({ k with drawn := a.resetStats env.ring, resetLoopStats := true }, true)
  else if a.modal = true then (k, false)
  else ({ k with drawn := (a.plainKey env.clock byte).1 }, (a.plainKey env.clock byte).2)

/-- The keys of one read, and whether any of them asks for a frame. -/
def keys : List (Char × KeyEnv) → KeyedApp Lab → KeyedApp Lab × Bool
  | [], k => (k, false)
  | (byte, env) :: typed, k =>
      let (k, changed) := k.key env byte
      let (k, more) := keys typed k
      (k, changed || more)

end KeyedApp

/-! ## What a key may do -/

/-- The two differ in what keys are for, and in nothing else. -/
def DrawnApp.SameHeap (a b : DrawnApp Lab) : Prop :=
  ∃ paused helpVisible events freesUnknown cursor inspect metrics snap droppedAtAttach,
    b = { a with
      app := { a.app with
        paused := paused
        helpVisible := helpVisible
        events := events
        freesUnknown := freesUnknown }
      cursor := cursor
      inspect := { a.inspect with toChunkInspector := inspect }
      metrics := metrics
      snap := snap
      droppedAtAttach := droppedAtAttach }

namespace DrawnApp

variable {a b c : DrawnApp Lab}

theorem SameHeap.refl (a : DrawnApp Lab) : a.SameHeap a :=
  ⟨_, _, _, _, _, _, _, _, _, rfl⟩

theorem SameHeap.trans (hab : a.SameHeap b) (hbc : b.SameHeap c) : a.SameHeap c := by
  obtain ⟨_, _, _, _, _, _, _, _, _, rfl⟩ := hab
  obtain ⟨_, _, _, _, _, _, _, _, _, rfl⟩ := hbc
  exact ⟨_, _, _, _, _, _, _, _, _, rfl⟩

theorem SameHeap.space (a : DrawnApp Lab) :
    a.SameHeap { a with app := a.app.keySpace } := by
  unfold HeapApp.keySpace
  split_ifs
  · exact ⟨_, _, _, _, _, _, _, _, _, rfl⟩
  · exact SameHeap.refl a

/-- A cursor that does not move is where it was. -/
theorem move_still (cur : MapCursor) (map : HeatMap) (m : CursorMove)
    (h : (cur.move map m).2 = false) : (cur.move map m).1 = cur := by
  unfold MapCursor.move at h ⊢
  split_ifs at h ⊢
  · rfl
  · rfl

theorem cycle_still (ins : ChunkInspector) (h : ins.cycle.2 = false) : ins.cycle.1 = ins := by
  unfold ChunkInspector.cycle at h ⊢
  split_ifs at h ⊢
  rfl

/-- Comparing with a mark needs one. -/
theorem toggle_still (d : SnapshotDiff) (h : d.toggle.1.taken = false) : d.toggle.1 = d := by
  by_cases htaken : d.taken = false
  · exact congrArg Prod.fst (if_pos htaken)
  · unfold SnapshotDiff.toggle at h
    rw [if_neg htaken] at h
    dsimp only at h
    split at h
    · exact absurd h htaken
    · exact absurd h htaken

/-- What a step of the session keeps that asks for a frame where anything shows. -/
structure Answers (a : DrawnApp Lab) (r : DrawnApp Lab × Bool) : Prop where
  frame : a.SameHeap r.1
  still : r.2 = false → r.1 = a

theorem moveCursor_answers (m : CursorMove) (a : DrawnApp Lab) : a.Answers (a.moveCursor m) := by
  have hstill := move_still a.cursor a.app.map m
  unfold moveCursor
  rcases hmove : a.cursor.move a.app.map m with ⟨cursor, moved⟩
  rw [hmove] at hstill
  cases moved with
  | true => exact ⟨⟨_, _, _, _, _, _, _, _, _, rfl⟩, fun h => nomatch h⟩
  | false =>
      obtain rfl := hstill rfl
      exact ⟨SameHeap.refl a, fun _ => rfl⟩

theorem cycleChunk_answers (a : DrawnApp Lab) : a.Answers a.cycleChunk := by
  have hstill := cycle_still a.inspect.toChunkInspector
  unfold cycleChunk
  rcases hcycle : a.inspect.toChunkInspector.cycle with ⟨shown, changed⟩
  rw [hcycle] at hstill
  refine ⟨⟨_, _, _, _, _, _, _, _, _, rfl⟩, fun h => ?_⟩
  obtain rfl := hstill h
  rfl

theorem markKey_answers (clock : Option (Nat × Nat × Nat)) (byte : Char) (a : DrawnApp Lab) :
    a.Answers (a.markKey clock byte) := by
  unfold markKey
  split_ifs
  · exact ⟨⟨_, _, _, _, _, _, _, _, _, rfl⟩, fun h => nomatch h⟩
  · exact ⟨⟨_, _, _, _, _, _, _, _, _, rfl⟩, fun h => nomatch h⟩
  · refine ⟨⟨_, _, _, _, _, _, _, _, _, rfl⟩, fun h => ?_⟩
    dsimp only
    rw [toggle_still a.snap h]
  · exact ⟨SameHeap.refl a, fun _ => rfl⟩

theorem plainKey_answers (clock : Option (Nat × Nat × Nat)) (byte : Char) (a : DrawnApp Lab) :
    a.Answers (a.plainKey clock byte) := by
  unfold plainKey
  split
  · exact a.moveCursor_answers _
  · split_ifs
    · exact a.cycleChunk_answers
    · exact a.markKey_answers clock byte
    · exact ⟨SameHeap.refl a, fun _ => rfl⟩

end DrawnApp

namespace KeyedApp

/-- What one key comes to. -/
structure Keyed (byte : Char) (k : KeyedApp Lab) (r : KeyedApp Lab × Bool) : Prop where
  quit : r.1.quit = (k.quit || byte = 'q')
  frame : k.drawn.SameHeap r.1.drawn
  still : r.2 = false → r.1.drawn = k.drawn ∧ r.1.resetLoopStats = k.resetLoopStats
  modal : k.drawn.modal = true → byte ≠ '?' ∧ byte ≠ ' ' ∧ byte ≠ 'r' → r.2 = false

theorem key_keyed (env : KeyEnv) (byte : Char) (k : KeyedApp Lab) :
    Keyed byte k (k.key env byte) := by
  unfold key
  by_cases hq : byte = 'q'
  · rw [if_pos hq]
    exact ⟨by simp [hq], .refl _, fun _ => ⟨rfl, rfl⟩, fun _ _ => rfl⟩
  have hquit : k.quit = (k.quit || decide (byte = 'q')) := by simp [hq]
  rw [if_neg hq]
  by_cases hhelp : byte = '?'
  · rw [if_pos hhelp]
    exact ⟨hquit, ⟨_, _, _, _, _, _, _, _, _, rfl⟩, (fun h => nomatch h),
      fun _ hother => absurd hhelp hother.1⟩
  rw [if_neg hhelp]
  by_cases hspace : byte = ' ' ∧ (k.drawn.app.state = .live ∨ k.drawn.app.paused = true)
  · rw [if_pos hspace]
    exact ⟨hquit, .space _, (fun h => nomatch h), fun _ hother => absurd hspace.1 hother.2.1⟩
  rw [if_neg hspace]
  by_cases hreset : byte = 'r' ∧ k.drawn.app.state ≠ .detached
  · rw [if_pos hreset]
    exact ⟨hquit, ⟨_, _, _, _, _, _, _, _, _, rfl⟩, (fun h => nomatch h),
      fun _ hother => absurd hreset.1 hother.2.2⟩
  rw [if_neg hreset]
  by_cases hmodal : k.drawn.modal = true
  · rw [if_pos hmodal]
    exact ⟨hquit, .refl _, fun _ => ⟨rfl, rfl⟩, fun _ _ => rfl⟩
  · rw [if_neg hmodal]
    obtain ⟨hframe, hstill⟩ := k.drawn.plainKey_answers env.clock byte
    exact ⟨hquit, hframe, fun h => ⟨hstill h, rfl⟩, fun h => absurd h hmodal⟩

/-- What a key is to the model alone. -/
def kindOf (byte : Char) (changed : Bool) : HeapApp.Key :=
  if byte = '?' then .help
  else if byte = ' ' then .space
  else if byte = 'r' then .reset
  else .other changed

/-- Space with nothing to stop and `r` with nothing attached do nothing. -/
theorem key_idle (env : KeyEnv) {byte : Char} {k : KeyedApp Lab} (hbyte : byte = ' ' ∨ byte = 'r')
    (hspace : ¬(byte = ' ' ∧ (k.drawn.app.state = .live ∨ k.drawn.app.paused = true)))
    (hreset : ¬(byte = 'r' ∧ k.drawn.app.state ≠ .detached))
    (hstate : k.drawn.app.state ≠ .live) : k.key env byte = (k, false) := by
  have hplain : k.drawn.plainKey env.clock byte = (k.drawn, false) := by
    unfold DrawnApp.plainKey
    rcases hbyte with rfl | rfl <;> exact if_neg hstate
  have hq : byte ≠ 'q' ∧ byte ≠ '?' := by
    rcases hbyte with rfl | rfl <;> decide
  unfold key
  rw [if_neg hq.1, if_neg hq.2, if_neg hspace, if_neg hreset, hplain]
  split <;> rfl

theorem plainKey_app (clock : Option (Nat × Nat × Nat)) (byte : Char) (a : DrawnApp Lab) :
    (a.plainKey clock byte).1.app = a.app := by
  unfold DrawnApp.plainKey
  split
  · unfold DrawnApp.moveCursor
    dsimp only
    split <;> rfl
  · split_ifs
    · rfl
    · unfold DrawnApp.markKey
      split_ifs <;> rfl
    · rfl

/-- On the model and in its answer a key is the one the frames go by. -/
theorem key_app (env : KeyEnv) (byte : Char) (k : KeyedApp Lab) :
    ((k.key env byte).1.drawn.app, (k.key env byte).2) =
      k.drawn.app.key (kindOf byte (k.key env byte).2) := by
  by_cases hhelp : byte = '?'
  · subst hhelp
    rfl
  by_cases hspace : byte = ' '
  · subst hspace
    by_cases hlive : k.drawn.app.state = .live ∨ k.drawn.app.paused = true
    · have hkey : k.key env ' ' =
          ({ k with drawn := { k.drawn with app := k.drawn.app.keySpace } }, true) :=
        if_pos ⟨rfl, hlive⟩
      have hanswer : (k.drawn.app.state == .live || k.drawn.app.paused) = true := by
        simpa using hlive
      rw [hkey]
      exact congrArg _ hanswer.symm
    · have hkey := key_idle env (.inl rfl) (fun h => hlive h.2)
        (fun h => absurd h.1 (by decide)) fun h => hlive (.inl h)
      have hanswer : (k.drawn.app.state == .live || k.drawn.app.paused) = false := by
        simpa using hlive
      have hstill : k.drawn.app.keySpace = k.drawn.app := if_neg hlive
      rw [hkey]
      exact Prod.ext hstill.symm hanswer.symm
  by_cases hreset : byte = 'r'
  · subst hreset
    by_cases hdetached : k.drawn.app.state = .detached
    · have hkey := key_idle env (.inr rfl) (fun h => hspace h.1)
        (fun h => h.2 hdetached) (by rw [hdetached]; decide)
      rw [hkey]
      exact (if_neg (not_not.mpr hdetached)).symm
    · have hkey : k.key env 'r' =
          ({ k with drawn := k.drawn.resetStats env.ring, resetLoopStats := true }, true) :=
        if_pos ⟨rfl, hdetached⟩
      rw [hkey]
      exact (if_pos hdetached).symm
  have hkind : ∀ changed, kindOf byte changed = .other changed := by
    intro changed
    unfold kindOf
    rw [if_neg hhelp, if_neg hspace, if_neg hreset]
  have happ : (k.key env byte).1.drawn.app = k.drawn.app := by
    unfold key
    dsimp only
    split_ifs with hq hspace' hreset' hmodal
    · rfl
    · exact absurd hspace'.1 hspace
    · exact absurd hreset'.1 hreset
    · rfl
    · exact plainKey_app _ _ _
  rw [hkind]
  exact Prod.ext happ rfl

/-- **Keys keep to what they are for.** After any keys of a read: the loop is told to
quit if `q` was among them; the heap's model is as it was; if none asked for a frame,
all that is drawn is as it was; and none did while the help or the pause was up, if
they were none of its own. -/
theorem keys_contained (typed : List (Char × KeyEnv)) (k : KeyedApp Lab) :
    (keys typed k).1.quit = (k.quit || typed.any (·.1 = 'q')) ∧
      k.drawn.SameHeap (keys typed k).1.drawn ∧
      ((keys typed k).2 = false → (keys typed k).1.drawn = k.drawn ∧
        (keys typed k).1.resetLoopStats = k.resetLoopStats) ∧
      (k.drawn.modal = true → (∀ x ∈ typed, x.1 ≠ '?' ∧ x.1 ≠ ' ' ∧ x.1 ≠ 'r') →
        (keys typed k).2 = false) := by
  induction typed generalizing k with
  | nil => exact ⟨(Bool.or_false _).symm, .refl _, fun _ => ⟨rfl, rfl⟩, fun _ _ => rfl⟩
  | cons x typed ih =>
      obtain ⟨byte, env⟩ := x
      have hkey := k.key_keyed env byte
      obtain ⟨hquit, hframe, hstill, hmodal⟩ := ih (k.key env byte).1
      refine ⟨?_, hkey.frame.trans hframe, fun h => ?_, fun hup hother => ?_⟩
      · show (keys typed (k.key env byte).1).1.quit = _
        rw [hquit, hkey.quit, List.any_cons, Bool.or_assoc]
      · obtain ⟨hfirst, hrest⟩ := Bool.or_eq_false_iff.mp h
        obtain ⟨hdrawn, hflag⟩ := hkey.still hfirst
        obtain ⟨hdrawn', hflag'⟩ := hstill hrest
        exact ⟨hdrawn'.trans hdrawn, hflag'.trans hflag⟩
      · have hfirst := hkey.modal hup (hother _ List.mem_cons_self)
        have hdrawn := (hkey.still hfirst).1
        refine Bool.or_eq_false_iff.mpr ⟨hfirst, hmodal (hdrawn ▸ hup) fun x hx => ?_⟩
        exact hother x (List.mem_cons_of_mem _ hx)

end KeyedApp

end Heapviz
