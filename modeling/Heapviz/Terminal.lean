import Heapviz.Checked
import Heapviz.Vt

/-!
# The terminal is put back

`tui/terminal.cpp`. Entering raw mode saves the attributes, installs the
handlers and only then touches the terminal; every way out - the guard's
destructor, `atexit`, an uncaught exception, a fatal signal - goes through
`restore_now`, which `g_active` makes idempotent.

A signal can come between any two steps. A fatal one runs `restore_now` on
top of whatever was running and never returns to it, so what is below it on
the stack, another `restore_now` included, stays where it is. The handlers
of the other signals store a flag. The program dies through the end of one of
these paths, or at once by a signal that nothing handles.

`terminal_restored` says when a process that dies leaves the terminal as it
found it, and `terminal_stranded` that the conditions are needed: `g_active`
is cleared before anything is restored, so a fatal signal that lands in the
rest of `restore_now` finds nothing to do and kills the process there.
-/

namespace Vt

/-! ## Modes -/

/-- What outlives the text on a screen. -/
structure Modes where
  altScreen : Bool
  cursorShown : Bool
  pen : Pen
deriving Repr, DecidableEq

/-- How a shell is left with its terminal. -/
def Modes.shell : Modes := ⟨false, true, .plain⟩

/-- DEC private mode `n`. -/
def Modes.set (on : Bool) (m : Modes) (n : Nat) : Modes :=
  if n = 25 then { m with cursorShown := on }
  else if n = 1049 then { m with altScreen := on }
  else m

/-- The control sequence with these parameters and this final byte. -/
def Modes.apply (m : Modes) (dec : Bool) (params : List Nat) (b : Nat) : Modes :=
  if dec ∧ b = 0x68 then params.foldl (Modes.set true) m
  else if dec ∧ b = 0x6C then params.foldl (Modes.set false) m
  else if dec = false ∧ b = 0x6D then { m with pen := (sgr params m.pen).getD m.pen }
  else m

/-- Between sequences, after `ESC`, or inside a control sequence. -/
inductive Scan where
  | ground
  | esc
  | csi (dec : Bool) (params : List Nat) (n : Nat)
deriving Repr, DecidableEq

/-- A terminal that takes any bytes: text and sequences it does not know
leave its modes alone, and `ESC` begins a sequence wherever it comes. -/
structure Screen where
  modes : Modes
  scan : Scan
deriving Repr, DecidableEq

def Screen.feed (s : Screen) (b : Nat) : Screen :=
  if b = 0x1B then { s with scan := .esc }
  else match s.scan with
    | .ground => s
    | .esc => { s with scan := if b = 0x5B then .csi false [] 0 else .ground }
    | .csi dec params n =>
        if 0x30 ≤ b ∧ b ≤ 0x39 then { s with scan := .csi dec params (n * 10 + (b - 0x30)) }
        else if b = 0x3B then { s with scan := .csi dec (params ++ [n]) 0 }
        else if b = 0x3F then { s with scan := .csi true params n }
        else if b < 0x40 then s
        else ⟨s.modes.apply dec (params ++ [n]) b, .ground⟩

def Screen.feedAll (s : Screen) (bs : List Nat) : Screen := bs.foldl Screen.feed s

theorem Screen.feedAll_append (s : Screen) (as bs : List Nat) :
    s.feedAll (as ++ bs) = (s.feedAll as).feedAll bs := List.foldl_append ..

end Vt

namespace Heapviz

open Checked

/-! ## What the file holds -/

structure Termios where
  iflag : Nat
  oflag : Nat
  cflag : Nat
  lflag : Nat
  cc : List Nat
deriving Repr, DecidableEq

/-- The attributes `enter` sets: `ICANON`, `ECHO` and `IEXTEN` go, `ISIG`
stays; `IXON`, `ICRNL`, `INLCR`, `IGNCR`, `ISTRIP`, `INPCK` and `BRKINT` go;
`OPOST` goes; `VMIN` and `VTIME` are zero. -/
def Termios.raw (t : Termios) : Termios where
  iflag := t.iflag &&& complement 32 (0x400 ||| 0x100 ||| 0x40 ||| 0x80 ||| 0x20 ||| 0x10 ||| 0x2)
  oflag := t.oflag &&& complement 32 0x1
  cflag := t.cflag
  lflag := t.lflag &&& complement 32 (0x2 ||| 0x8 ||| 0x8000)
  cc := (t.cc.set 6 0).set 5 0

def kEnter : List Nat :=
  [0x1B, 0x5B, 0x3F, 0x31, 0x30, 0x34, 0x39, 0x68, 0x1B, 0x5B, 0x3F, 0x32, 0x35, 0x6C,
    0x1B, 0x5B, 0x32, 0x4A, 0x1B, 0x5B, 0x48]

def kRestore : List Nat :=
  [0x1B, 0x5B, 0x30, 0x6D, 0x1B, 0x5B, 0x3F, 0x32, 0x35, 0x68,
    0x1B, 0x5B, 0x3F, 0x31, 0x30, 0x34, 0x39, 0x6C]

inductive TermStatus where
  | ok
  | notATty
  | tcGetAttrFailed
  | tcSetAttrFailed
  | alreadyActive
deriving Repr, DecidableEq

/-- The signals with a handler, and the others, which kill: `SIGQUIT`, which
the terminal still sends, or `SIGKILL`. -/
inductive TermSignal where
  | int
  | term
  | hup
  | winch
  | segv
  | abrt
  | bus
  | fpe
  | ill
  | other
deriving Repr, DecidableEq

/-- Handled by `hv_fatal_handler`. -/
def TermSignal.fatal : TermSignal → Bool
  | .segv | .abrt | .bus | .fpe | .ill => true
  | _ => false

/-- What `install_handlers` puts in place. -/
inductive TermHook where
  | on (sig : TermSignal)
  | atexit
  | terminate
deriving Repr, DecidableEq

def installOrder : List TermHook :=
  [.on .int, .on .term, .on .hup, .on .winch, .on .segv, .on .abrt, .on .bus, .on .fpe, .on .ill,
    .atexit, .terminate]

/-! ## Steps -/

/-- Where `restore_now` is. -/
inductive RestorePc where
  | check
  | clear
  | write (rest : List Nat)
  | tcsetattr
  | done
deriving Repr, DecidableEq

/-- Where `TerminalGuard::enter` is. -/
inductive EnterPc where
  | check
  | isatty
  | tcgetattr
  | install
  | setActive
  | tcsetattr
  | undo
  | write (rest : List Nat)
deriving Repr, DecidableEq

/-- Where the program is: in its own code, in `enter`, or in `restore_now`
called by the guard, by `exit` or by `std::terminate`. -/
inductive MainPc where
  | outside
  | enter (pc : EnterPc)
  | restore (pc : RestorePc)
  | exiting (pc : RestorePc)
  | terminating (pc : RestorePc)
deriving Repr, DecidableEq

structure TermSys where
  /-- The attributes of the terminal. -/
  termios : Termios
  screen : Vt.Screen
  saved : Termios
  active : Bool
  quit : Bool
  winch : Bool
  /-- How many of `installOrder` are in place. -/
  installed : Nat
  /-- What the last `enter` returned. -/
  status : Option TermStatus
  main : MainPc
  /-- The fatal signals being handled, the running handler first. -/
  fatal : List (TermSignal × RestorePc)
  dead : Bool

def TermSys.init (before : Termios) (screen : Vt.Screen) : TermSys where
  termios := before
  screen := screen
  saved := ⟨0, 0, 0, 0, []⟩
  active := false
  quit := false
  winch := false
  installed := 0
  status := none
  main := .outside
  fatal := []
  dead := false

/-- How the kernel answers the call the running code makes: it does it, for
`n` bytes of a `write`, or it fails, be it for a signal. -/
structure TermAnswer where
  ok : Bool
  n : Nat
  eintr : Bool
deriving Repr, DecidableEq

inductive TermAct where
  | signal (sig : TermSignal)
  | go (k : TermAnswer)
  | enter
  | restore
  | draw (bytes : List Nat)
  | exit
  | throw
deriving Repr, DecidableEq

namespace TermSys

/-- One `write` of the loop of `raw_write`, and what is left to write. -/
def rawWrite (s : TermSys) (k : TermAnswer) (rest : List Nat) : TermSys × List Nat :=
  if k.ok then ({ s with screen := s.screen.feedAll (rest.take k.n) }, rest.drop k.n)
  else if k.eintr then (s, rest)
  else (s, [])

/-- One step of `restore_now`. -/
def restoreStep (s : TermSys) (k : TermAnswer) : RestorePc → TermSys × RestorePc
  | .check => (s, if s.active then .clear else .done)
  | .clear => ({ s with active := false }, .write kRestore)
  | .write [] => (s, .tcsetattr)
  | .write (b :: rest) =>
      ((s.rawWrite k (b :: rest)).1, .write (s.rawWrite k (b :: rest)).2)
  | .tcsetattr => (if k.ok then { s with termios := s.saved } else s, .done)
  | .done => (s, .done)

/-- `enter` returns. -/
def returns (s : TermSys) (status : TermStatus) : TermSys :=
  { s with main := .outside, status := some status }

/-- One step of `enter`. -/
def enterStep (s : TermSys) (k : TermAnswer) : EnterPc → TermSys
  | .check => if s.active then s.returns .alreadyActive else { s with main := .enter .isatty }
  | .isatty => if k.ok then { s with main := .enter .tcgetattr } else s.returns .notATty
  | .tcgetattr =>
      if k.ok then { s with saved := s.termios, main := .enter .install }
      else s.returns .tcGetAttrFailed
  | .install =>
      if s.installed < installOrder.length then { s with installed := s.installed + 1 }
      else { s with main := .enter .setActive }
  | .setActive => { s with active := true, main := .enter .tcsetattr }
  | .tcsetattr =>
      if k.ok then { s with termios := s.saved.raw, main := .enter (.write kEnter) }
      else { s with main := .enter .undo }
  | .undo => { s with active := false }.returns .tcSetAttrFailed
  | .write [] => s.returns .ok
  | .write (b :: rest) =>
      { (s.rawWrite k (b :: rest)).1 with main := .enter (.write (s.rawWrite k (b :: rest)).2) }

def installs (s : TermSys) (hook : TermHook) : Bool :=
  (installOrder.take s.installed).contains hook

/-- A signal arrives. One that is being handled waits, and its handler does
not return. -/
def deliver (s : TermSys) (sig : TermSignal) : Option TermSys :=
  if s.installs (.on sig) then
    if sig.fatal then
      if (s.fatal.map Prod.fst).contains sig then none
      else some { s with fatal := (sig, .check) :: s.fatal }
    else if sig = .winch then some { s with winch := true }
    else some { s with quit := true }
  else if sig = .winch then some s
  else some { s with dead := true }

/-- `abort`. -/
def abort (s : TermSys) : TermSys :=
  if s.installs (.on .abrt) then { s with fatal := (.abrt, .check) :: s.fatal }
  else { s with dead := true }

/-- The running code goes on. A fatal handler ends with `raise`. -/
def go (s : TermSys) (k : TermAnswer) : Option TermSys :=
  match s.fatal with
  | (_, .done) :: _ => some { s with dead := true }
  | (sig, pc) :: below =>
      some { (s.restoreStep k pc).1 with fatal := (sig, (s.restoreStep k pc).2) :: below }
  | [] =>
      match s.main with
      | .outside => none
      | .enter pc => some (s.enterStep k pc)
      | .restore .done => some { s with main := .outside }
      | .exiting .done => some { s with dead := true }
      | .terminating .done => some s.abort
      | .restore pc =>
          some { (s.restoreStep k pc).1 with main := .restore (s.restoreStep k pc).2 }
      | .exiting pc =>
          some { (s.restoreStep k pc).1 with main := .exiting (s.restoreStep k pc).2 }
      | .terminating pc =>
          some { (s.restoreStep k pc).1 with main := .terminating (s.restoreStep k pc).2 }

/-- The program is in its own code. -/
def idle (s : TermSys) : Bool := s.fatal = [] ∧ s.main = .outside

/-- One step. The program draws only while the guard is active. -/
def step (s : TermSys) (a : TermAct) : Option TermSys :=
  if s.dead then none
  else match a with
    | .signal sig => s.deliver sig
    | .go k => s.go k
    | .enter => if s.idle then some { s with main := .enter .check } else none
    | .restore => if s.idle then some { s with main := .restore .check } else none
    | .draw bytes =>
        if s.idle ∧ s.active then some { s with screen := s.screen.feedAll bytes } else none
    | .exit =>
        if s.idle then
          some (if s.installs .atexit then { s with main := .exiting .check }
            else { s with dead := true })
        else none
    | .throw =>
        if s.idle then
          some (if s.installs .terminate then { s with main := .terminating .check } else s.abort)
        else none

end TermSys

/-! ## What holds where -/

/-- Which code is running: the topmost handler's, or the program's. -/
inductive TermControl where
  | outside
  | enter (pc : EnterPc)
  | restore (pc : RestorePc)
deriving Repr, DecidableEq

def MainPc.control : MainPc → TermControl
  | .outside => .outside
  | .enter pc => .enter pc
  | .restore pc | .exiting pc | .terminating pc => .restore pc

def TermSys.control (s : TermSys) : TermControl :=
  match s.fatal with
  | (_, pc) :: _ => .restore pc
  | [] => s.main.control

theorem TermSys.control_main {s : TermSys} (hfatal : s.fatal = []) :
    s.control = s.main.control := by
  unfold TermSys.control
  rw [hfatal]

theorem TermSys.control_fatal {s : TermSys} {sig : TermSignal} {pc : RestorePc}
    {below : List (TermSignal × RestorePc)} (hfatal : s.fatal = (sig, pc) :: below) :
    s.control = .restore pc := by
  unfold TermSys.control
  rw [hfatal]

theorem TermSys.control_idle {s : TermSys} (hidle : s.idle = true) : s.control = .outside := by
  obtain ⟨hfatal, houtside⟩ := of_decide_eq_true hidle
  rw [control_main hfatal, houtside]
  rfl

/-- `g_active` is cleared, and something is left to restore. -/
def TermControl.window : TermControl → Bool
  | .restore (.write _) | .restore .tcsetattr => true
  | _ => false

/-- The terminal is as the program found it. -/
def TermSys.Clean (before : Termios) (s : TermSys) : Prop :=
  s.termios = before ∧ s.screen.modes = .shell

/-- What was saved is what there was, and the terminal has that or the raw
form of it. -/
def TermSys.Saved (before : Termios) (s : TermSys) : Prop :=
  s.saved = before ∧ (s.termios = before ∨ s.termios = before.raw)

/-- The guard has what it takes to restore, or there is nothing to do. -/
def TermSys.Settled (before : Termios) (s : TermSys) : Prop :=
  (s.active = true ∧ s.Saved before) ∨ (s.active = false ∧ s.Clean before)

/-- What holds of the terminal and the guard, by what is running. -/
def TermControl.Holds (before : Termios) (s : TermSys) : TermControl → Prop
  | .outside | .enter .check => s.Settled before ∧ (s.active = true → s.termios = before.raw)
  | .enter .isatty | .enter .tcgetattr => s.active = false ∧ s.Clean before
  | .enter .install | .enter .setActive =>
      s.active = false ∧ s.Clean before ∧ s.saved = before
  | .enter .tcsetattr | .enter .undo => s.active = true ∧ s.Clean before ∧ s.saved = before
  | .enter (.write _) => s.active = true ∧ s.saved = before ∧ s.termios = before.raw
  | .restore .check => s.Settled before
  | .restore .clear => s.active = true ∧ s.Saved before
  | .restore (.write rest) => s.active = false ∧ s.Saved before ∧
      ∃ (screen : Vt.Screen) (written : List Nat),
        written ++ rest = kRestore ∧ s.screen = screen.feedAll written
  | .restore .tcsetattr => s.active = false ∧ s.Saved before ∧ s.screen.modes = .shell
  | .restore .done => s.active = false ∧ s.Clean before

structure TermInv (before : Termios) (s : TermSys) : Prop where
  hooks : s.active = true ∨ s.main = .enter .setActive → installOrder.length ≤ s.installed
  dead : s.dead = true → s.Clean before
  running : s.dead = false → s.control.Holds before s

/-- Whatever was shown before, and wherever the last frame broke off. -/
theorem feedAll_kRestore (screen : Vt.Screen) : (screen.feedAll kRestore).modes = .shell := rfl

/-- A run in which nothing happens that no handler could make good: no fatal
signal lands in the window, no signal without a handler while the terminal is
taken, and the kernel takes what `restore_now` gives it. -/
def TermSpared (s : TermSys) : TermAct → Prop
  | .signal sig =>
      if s.installs (.on sig) then sig.fatal = true → s.control.window = false
      else sig ≠ .winch → s.active = false ∧ s.control.window = false
  | .go k =>
      match s.control with
      | .restore (.write _) => k.ok = true ∨ k.eintr = true
      | .restore .tcsetattr => k.ok = true
      | _ => True
  | _ => True

instance (s : TermSys) (a : TermAct) : Decidable (TermSpared s a) := by
  unfold TermSpared
  cases a with
  | go k =>
      dsimp only
      split <;> infer_instance
  | _ => infer_instance

section Step

variable {before : Termios} {s s' : TermSys}

theorem TermControl.Holds.settled {c : TermControl} (h : c.Holds before s)
    (hc : c.window = false) : s.Settled before := by
  cases c with
  | outside => exact h.1
  | enter pc =>
      cases pc with
      | check => exact h.1
      | isatty => exact .inr h
      | tcgetattr => exact .inr h
      | install => exact .inr ⟨h.1, h.2.1⟩
      | setActive => exact .inr ⟨h.1, h.2.1⟩
      | tcsetattr => exact .inl ⟨h.1, h.2.2, .inl h.2.1.1⟩
      | undo => exact .inl ⟨h.1, h.2.2, .inl h.2.1.1⟩
      | write rest => exact .inl ⟨h.1, h.2.1, .inr h.2.2⟩
  | restore pc =>
      cases pc with
      | check => exact h
      | clear => exact .inl h
      | write rest => cases hc
      | tcsetattr => cases hc
      | done => exact .inr h

theorem TermSys.Settled.clean (h : s.Settled before) (hactive : s.active = false) :
    s.Clean before := by
  rcases h with ⟨hon, -⟩ | ⟨-, hclean⟩
  · rw [hactive] at hon
    cases hon
  · exact hclean

theorem TermControl.Holds.window {c : TermControl} (h : c.Holds before s)
    (hc : c.window = true) : s.active = false ∧ s.Saved before := by
  cases c with
  | outside => cases hc
  | enter pc => cases hc
  | restore pc =>
      cases pc with
      | write rest => exact ⟨h.1, h.2.1⟩
      | tcsetattr => exact ⟨h.1, h.2.1⟩
      | _ => cases hc

/-- `restore_now` touches nothing of the program's own state. -/
theorem restoreStep_frame (s : TermSys) (k : TermAnswer) (pc : RestorePc) :
    (s.restoreStep k pc).1.installed = s.installed ∧ (s.restoreStep k pc).1.main = s.main ∧
      (s.restoreStep k pc).1.fatal = s.fatal ∧ (s.restoreStep k pc).1.dead = s.dead ∧
      ((s.restoreStep k pc).1.active = true → s.active = true) := by
  cases pc with
  | clear => exact ⟨rfl, rfl, rfl, rfl, fun h => (nomatch h)⟩
  | write rest =>
      cases rest with
      | nil => exact ⟨rfl, rfl, rfl, rfl, id⟩
      | cons b rest =>
          simp only [TermSys.restoreStep, TermSys.rawWrite]
          split_ifs
          · exact ⟨rfl, rfl, rfl, rfl, id⟩
          · exact ⟨rfl, rfl, rfl, rfl, id⟩
          · exact ⟨rfl, rfl, rfl, rfl, id⟩
  | tcsetattr =>
      simp only [TermSys.restoreStep]
      split_ifs
      · exact ⟨rfl, rfl, rfl, rfl, id⟩
      · exact ⟨rfl, rfl, rfl, rfl, id⟩
  | check => exact ⟨rfl, rfl, rfl, rfl, id⟩
  | done => exact ⟨rfl, rfl, rfl, rfl, id⟩

/-- The program moves on with `restore_now`, and is what runs. -/
theorem restoreStep_control (hfatal : s.fatal = []) {k : TermAnswer} {pc : RestorePc}
    (main : MainPc) : { (s.restoreStep k pc).1 with main := main }.control = main.control :=
  TermSys.control_main ((restoreStep_frame s k pc).2.2.1.trans hfatal)

/-- One step of `restore_now`, of the program's call or a handler's. -/
theorem restoreStep_holds {pc : RestorePc} {k : TermAnswer}
    (h : (TermControl.restore pc).Holds before s)
    (hwrite : ∀ rest, pc = .write rest → k.ok = true ∨ k.eintr = true)
    (hset : pc = .tcsetattr → k.ok = true) :
    (TermControl.restore (s.restoreStep k pc).2).Holds before (s.restoreStep k pc).1 := by
  cases pc with
  | check =>
      rcases h with ⟨hactive, hsaved⟩ | ⟨hactive, hclean⟩
      · simp only [TermSys.restoreStep, hactive, if_true]
        exact ⟨hactive, hsaved⟩
      · simp only [TermSys.restoreStep, hactive, Bool.false_eq_true, if_false]
        exact ⟨hactive, hclean⟩
  | clear => exact ⟨rfl, h.2, s.screen, [], rfl, rfl⟩
  | write rest =>
      obtain ⟨hactive, hsaved, screen, written, hbytes, hscreen⟩ := h
      cases rest with
      | nil =>
          rw [List.append_nil] at hbytes
          rw [hbytes] at hscreen
          have hmodes : s.screen.modes = .shell := by
            rw [hscreen]
            exact feedAll_kRestore screen
          exact ⟨hactive, hsaved, hmodes⟩
      | cons b rest =>
          cases hok : k.ok with
          | true =>
              have hstep : s.restoreStep k (.write (b :: rest)) =
                  ({ s with screen := s.screen.feedAll ((b :: rest).take k.n) },
                    .write ((b :: rest).drop k.n)) := by
                simp only [TermSys.restoreStep, TermSys.rawWrite, hok, if_true]
              rw [hstep]
              refine ⟨hactive, hsaved, screen, written ++ (b :: rest).take k.n, ?_, ?_⟩
              · rw [List.append_assoc, List.take_append_drop, hbytes]
              · rw [Vt.Screen.feedAll_append, ← hscreen]
          | false =>
              have heintr : k.eintr = true := (hwrite _ rfl).resolve_left (by simp [hok])
              have hstep : s.restoreStep k (.write (b :: rest)) = (s, .write (b :: rest)) := by
                simp only [TermSys.restoreStep, TermSys.rawWrite, hok, heintr,
                  Bool.false_eq_true, if_false, if_true]
              rw [hstep]
              exact ⟨hactive, hsaved, screen, written, hbytes, hscreen⟩
  | tcsetattr =>
      obtain ⟨hactive, ⟨hsaved, -⟩, hmodes⟩ := h
      simp only [TermSys.restoreStep, hset rfl, if_true]
      exact ⟨hactive, hsaved, hmodes⟩
  | done => exact h

theorem enterStep_dead (s : TermSys) (k : TermAnswer) (pc : EnterPc) :
    (s.enterStep k pc).dead = s.dead := by
  cases pc with
  | write rest =>
      cases rest with
      | nil => rfl
      | cons b rest =>
          simp only [TermSys.enterStep, TermSys.rawWrite]
          split_ifs <;> rfl
  | setActive => rfl
  | undo => rfl
  | _ =>
      simp only [TermSys.enterStep]
      split_ifs <;> rfl

theorem holds_main {m : TermSys} (hfatal : m.fatal = [])
    (h : m.main.control.Holds before m) : m.control.Holds before m := by
  rw [TermSys.control_main hfatal]
  exact h

/-- One step of `enter`. -/
theorem enterStep_holds {pc : EnterPc} {k : TermAnswer} (hfatal : s.fatal = [])
    (hmain : s.main = .enter pc) (h : (TermControl.enter pc).Holds before s) :
    (s.enterStep k pc).control.Holds before (s.enterStep k pc) := by
  have hoff : s.active = false → s.Clean before → ∀ status,
      (s.returns status).control.Holds before (s.returns status) := by
    intro hactive hclean status
    refine holds_main hfatal ⟨.inr ⟨hactive, hclean⟩, fun hon => ?_⟩
    exact absurd (hon : s.active = true) (Bool.eq_false_iff.mp hactive)
  cases pc with
  | check =>
      simp only [TermSys.enterStep]
      split_ifs with hactive
      · exact holds_main hfatal h
      · have hactive' := Bool.eq_false_iff.mpr hactive
        exact holds_main hfatal ⟨hactive', h.1.clean hactive'⟩
  | isatty =>
      simp only [TermSys.enterStep]
      split_ifs
      · exact holds_main hfatal h
      · exact hoff h.1 h.2 _
  | tcgetattr =>
      simp only [TermSys.enterStep]
      split_ifs
      · exact holds_main hfatal ⟨h.1, h.2, h.2.1⟩
      · exact hoff h.1 h.2 _
  | install =>
      simp only [TermSys.enterStep]
      split_ifs
      · refine holds_main hfatal ?_
        simp only [hmain]
        exact h
      · exact holds_main hfatal h
  | setActive => exact holds_main hfatal ⟨rfl, h.2⟩
  | tcsetattr =>
      simp only [TermSys.enterStep]
      split_ifs
      · exact holds_main hfatal ⟨h.1, h.2.2, congrArg Termios.raw h.2.2⟩
      · exact holds_main hfatal h
  | undo => exact holds_main hfatal ⟨.inr ⟨rfl, h.2.1⟩, fun hactive => (nomatch hactive)⟩
  | write rest =>
      cases rest with
      | nil => exact holds_main hfatal ⟨.inl ⟨h.1, h.2.1, .inr h.2.2⟩, fun _ => h.2.2⟩
      | cons b rest =>
          simp only [TermSys.enterStep, TermSys.rawWrite]
          split_ifs
          · exact holds_main hfatal h
          · exact holds_main hfatal h
          · exact holds_main hfatal h

/-- All hooks are in place when the terminal is taken. -/
theorem enterStep_hooks {pc : EnterPc} {k : TermAnswer} (hmain : s.main = .enter pc)
    (h : s.active = true ∨ s.main = .enter .setActive → installOrder.length ≤ s.installed)
    (hnext : (s.enterStep k pc).active = true ∨ (s.enterStep k pc).main = .enter .setActive) :
    installOrder.length ≤ (s.enterStep k pc).installed := by
  cases pc with
  | install =>
      simp only [TermSys.enterStep] at hnext ⊢
      split_ifs at hnext ⊢ with hless
      · rcases hnext with hactive | hset
        · exact (h (.inl hactive)).trans (Nat.le_succ _)
        · rw [hmain] at hset
          cases hset
      · exact Nat.not_lt.mp hless
  | setActive => exact h (.inr hmain)
  | undo =>
      rcases hnext with hactive | hset
      · cases hactive
      · cases hset
  | write rest =>
      cases rest with
      | nil =>
          rcases hnext with hactive | hset
          · exact h (.inl hactive)
          · cases hset
      | cons b rest =>
          simp only [TermSys.enterStep, TermSys.rawWrite] at hnext ⊢
          split_ifs at hnext ⊢
          all_goals
            rcases hnext with hactive | hset
            · exact h (.inl hactive)
            · cases hset
  | _ =>
      simp only [TermSys.enterStep] at hnext ⊢
      split_ifs at hnext ⊢
      all_goals
        rcases hnext with hactive | hset
        · exact h (.inl hactive)
        · cases hset

/-- A new handler starts over what was running. -/
theorem TermInv.push (h : TermInv before s) (hdead : s.dead = false)
    (hwindow : s.control.window = false) (sig : TermSignal) :
    TermInv before { s with fatal := (sig, .check) :: s.fatal } :=
  ⟨h.hooks, fun hd => absurd (hd : s.dead = true) (Bool.eq_false_iff.mp hdead),
    fun _ => (h.running hdead).settled hwindow⟩

/-- The process dies where there is nothing to restore. -/
theorem TermInv.die (h : TermInv before s) (hdead : s.dead = false)
    (hactive : s.active = false) (hwindow : s.control.window = false) :
    TermInv before { s with dead := true } :=
  ⟨h.hooks, fun _ => ((h.running hdead).settled hwindow).clean hactive,
    fun hd => (nomatch hd)⟩

theorem TermInv.deliver (h : TermInv before s) (hdead : s.dead = false) {sig : TermSignal}
    (hspared : TermSpared s (.signal sig)) (hstep : s.deliver sig = some s') :
    TermInv before s' := by
  unfold TermSys.deliver at hstep
  simp only [TermSpared] at hspared
  split at hstep
  · rename_i hinstalled
    rw [if_pos hinstalled] at hspared
    split at hstep
    · rename_i hfatal
      split at hstep
      · cases hstep
      · obtain rfl := Option.some.inj hstep
        exact h.push hdead (hspared hfatal) sig
    · split at hstep
      · obtain rfl := Option.some.inj hstep
        exact ⟨h.hooks, h.dead, h.running⟩
      · obtain rfl := Option.some.inj hstep
        exact ⟨h.hooks, h.dead, h.running⟩
  · rename_i hinstalled
    rw [if_neg hinstalled] at hspared
    split at hstep
    · obtain rfl := Option.some.inj hstep
      exact h
    · rename_i hwinch
      obtain rfl := Option.some.inj hstep
      exact h.die hdead (hspared hwinch).1 (hspared hwinch).2

theorem installs_of_active (h : TermInv before s) (hactive : s.active = true) {hook : TermHook}
    (hhook : hook ∈ installOrder) : s.installs hook = true := by
  unfold TermSys.installs
  rw [List.take_of_length_le (h.hooks (.inl hactive)), List.contains_iff_mem]
  exact hhook

theorem TermInv.abort (h : TermInv before s) (hdead : s.dead = false)
    (hwindow : s.control.window = false) : TermInv before s.abort := by
  unfold TermSys.abort
  split
  · exact h.push hdead hwindow .abrt
  · rename_i hinstalled
    refine h.die hdead ?_ hwindow
    cases hactive : s.active with
    | false => rfl
    | true => exact absurd (installs_of_active h hactive (by decide)) hinstalled

/-- A step of `restore_now`, in the program or in a handler: `m` is the state
after it, with the one place of the two moved on. -/
theorem TermInv.restoring (h : TermInv before s) (hdead : s.dead = false) {pc : RestorePc}
    {k : TermAnswer} (hcontrol : s.control = .restore pc) (hspared : TermSpared s (.go k))
    (main : MainPc) (fatal : List (TermSignal × RestorePc))
    (hmain : main = .enter .setActive → s.main = .enter .setActive)
    (hnext : { (s.restoreStep k pc).1 with main := main, fatal := fatal }.control =
      .restore (s.restoreStep k pc).2) :
    TermInv before { (s.restoreStep k pc).1 with main := main, fatal := fatal } := by
  obtain ⟨hinstalled, -, -, hdead', hactive⟩ := restoreStep_frame s k pc
  simp only [TermSpared, hcontrol] at hspared
  refine ⟨fun hhooks => ?_, fun hd => ?_, fun _ => ?_⟩
  · refine (h.hooks ?_).trans_eq hinstalled.symm
    rcases hhooks with hon | hset
    · exact .inl (hactive hon)
    · exact .inr (hmain hset)
  · exact absurd (hd : (s.restoreStep k pc).1.dead = true)
      (Bool.eq_false_iff.mp (hdead'.trans hdead))
  · have hholds := h.running hdead
    rw [hcontrol] at hholds
    rw [hnext]
    refine restoreStep_holds hholds (fun rest hrest => ?_) fun hset => ?_
    · subst hrest
      exact hspared
    · subst hset
      exact hspared

theorem TermInv.go (h : TermInv before s) (hdead : s.dead = false) {k : TermAnswer}
    (hspared : TermSpared s (.go k)) (hstep : s.go k = some s') : TermInv before s' := by
  have hrunning := h.running hdead
  unfold TermSys.go at hstep
  split at hstep
  · -- a handler raises its signal again
    rename_i hfatal
    have hcontrol := TermSys.control_fatal hfatal
    rw [hcontrol] at hrunning
    obtain rfl := Option.some.inj hstep
    exact h.die hdead hrunning.1 (by rw [hcontrol]; rfl)
  · rename_i sig pc below hdone hfatal
    have hcontrol := TermSys.control_fatal hfatal
    obtain rfl := Option.some.inj hstep
    have hmain := (restoreStep_frame s k pc).2.1
    exact h.restoring hdead hcontrol hspared (s.restoreStep k pc).1.main _
      (fun hset => hmain.symm.trans hset) rfl
  · rename_i hfatal
    have hcontrol := TermSys.control_main hfatal
    split at hstep
    · cases hstep
    · rename_i pc hmain
      rw [hcontrol, hmain] at hrunning
      obtain rfl := Option.some.inj hstep
      refine ⟨enterStep_hooks hmain h.hooks, fun hd => ?_,
        fun _ => enterStep_holds hfatal hmain hrunning⟩
      rw [enterStep_dead] at hd
      exact absurd hd (Bool.eq_false_iff.mp hdead)
    · rename_i hmain
      rw [hcontrol, hmain] at hrunning
      obtain rfl := Option.some.inj hstep
      have hoff : s.active ≠ true := Bool.eq_false_iff.mp hrunning.1
      refine ⟨fun hhooks => ?_, h.dead, fun _ => holds_main hfatal ?_⟩
      · rcases hhooks with hon | hset
        · exact absurd hon hoff
        · cases hset
      · exact ⟨.inr hrunning, fun hon => absurd hon hoff⟩
    · rename_i hmain
      have hdone : s.control = .restore .done := by
        rw [hcontrol, hmain]
        rfl
      rw [hdone] at hrunning
      obtain rfl := Option.some.inj hstep
      exact h.die hdead hrunning.1 (by rw [hdone]; rfl)
    · rename_i hmain
      have hdone : s.control = .restore .done := by
        rw [hcontrol, hmain]
        rfl
      obtain rfl := Option.some.inj hstep
      exact h.abort hdead (by rw [hdone]; rfl)
    · rename_i pc hdone hmain
      obtain rfl := Option.some.inj hstep
      exact h.restoring hdead (hcontrol.trans (congrArg MainPc.control hmain)) hspared
        (.restore (s.restoreStep k pc).2) (s.restoreStep k pc).1.fatal
        (fun hset => (nomatch hset)) (restoreStep_control hfatal _)
    · rename_i pc hdone hmain
      obtain rfl := Option.some.inj hstep
      exact h.restoring hdead (hcontrol.trans (congrArg MainPc.control hmain)) hspared
        (.exiting (s.restoreStep k pc).2) (s.restoreStep k pc).1.fatal
        (fun hset => (nomatch hset)) (restoreStep_control hfatal _)
    · rename_i pc hdone hmain
      obtain rfl := Option.some.inj hstep
      exact h.restoring hdead (hcontrol.trans (congrArg MainPc.control hmain)) hspared
        (.terminating (s.restoreStep k pc).2) (s.restoreStep k pc).1.fatal
        (fun hset => (nomatch hset)) (restoreStep_control hfatal _)

/-- The program calls something from its own code. -/
theorem TermInv.calls (h : TermInv before s) (hdead : s.dead = false) (hidle : s.idle = true)
    {main : MainPc} (hmain : main ≠ .enter .setActive)
    (hholds : s.Settled before → (s.active = true → s.termios = before.raw) →
      main.control.Holds before s) : TermInv before { s with main := main } := by
  obtain ⟨hfatal, -⟩ := of_decide_eq_true hidle
  have hrunning := h.running hdead
  rw [TermSys.control_idle hidle] at hrunning
  refine ⟨fun hhooks => ?_, h.dead, fun _ => holds_main hfatal (hholds hrunning.1 hrunning.2)⟩
  rcases hhooks with hon | hset
  · exact h.hooks (.inl hon)
  · exact absurd hset hmain

theorem TermInv.step (h : TermInv before s) {a : TermAct} (hspared : TermSpared s a)
    (hstep : s.step a = some s') : TermInv before s' := by
  unfold TermSys.step at hstep
  split at hstep
  · cases hstep
  rename_i hdead
  have hdead : s.dead = false := Bool.eq_false_iff.mpr hdead
  have hquiet : s.idle = true → s.control.window = false := by
    intro hidle
    rw [TermSys.control_idle hidle]
    rfl
  cases a with
  | signal sig => exact h.deliver hdead hspared hstep
  | go k => exact h.go hdead hspared hstep
  | enter =>
      obtain ⟨hidle, hcall⟩ := Option.ite_none_right_eq_some.mp hstep
      obtain rfl := Option.some.inj hcall
      exact h.calls hdead hidle (by simp) fun hsettled hraw => ⟨hsettled, hraw⟩
  | restore =>
      obtain ⟨hidle, hcall⟩ := Option.ite_none_right_eq_some.mp hstep
      obtain rfl := Option.some.inj hcall
      exact h.calls hdead hidle (by simp) fun hsettled _ => hsettled
  | draw bytes =>
      obtain ⟨⟨hidle, hactive⟩, hdraw⟩ := Option.ite_none_right_eq_some.mp hstep
      obtain rfl := Option.some.inj hdraw
      obtain ⟨hfatal, houtside⟩ := of_decide_eq_true hidle
      have hrunning := h.running hdead
      rw [TermSys.control_idle hidle] at hrunning
      obtain ⟨⟨-, hsaved⟩ | ⟨hoff, -⟩, hraw⟩ := hrunning
      · refine ⟨h.hooks, fun hd => absurd (hd : s.dead = true) (by simp [hdead]), fun _ => ?_⟩
        refine holds_main hfatal ?_
        simp only [houtside]
        exact ⟨.inl ⟨hactive, hsaved⟩, hraw⟩
      · rw [hactive] at hoff
        cases hoff
  | exit =>
      obtain ⟨hidle, hcall⟩ := Option.ite_none_right_eq_some.mp hstep
      obtain rfl := Option.some.inj hcall
      split
      · exact h.calls hdead hidle (by simp) fun hsettled _ => hsettled
      · rename_i hinstalled
        refine h.die hdead (Bool.eq_false_iff.mpr fun hactive => ?_) (hquiet hidle)
        exact hinstalled (installs_of_active h hactive (by decide))
  | throw =>
      obtain ⟨hidle, hcall⟩ := Option.ite_none_right_eq_some.mp hstep
      obtain rfl := Option.some.inj hcall
      split
      · exact h.calls hdead hidle (by simp) fun hsettled _ => hsettled
      · exact h.abort hdead (hquiet hidle)

theorem TermInv.init {screen : Vt.Screen} (hscreen : screen.modes = .shell) :
    TermInv before (TermSys.init before screen) where
  hooks := by
    rintro (hactive | hset)
    · cases hactive
    · cases hset
  dead hd := nomatch hd
  running _ := ⟨.inr ⟨rfl, rfl, hscreen⟩, fun hactive => nomatch hactive⟩

theorem TermInv.run {screen : Vt.Screen} (hscreen : screen.modes = .shell) {as : List TermAct}
    (hspared : Run.Guarded TermSys.step TermSpared (TermSys.init before screen) as)
    (hrun : Run.run TermSys.step (TermSys.init before screen) as = some s) : TermInv before s :=
  Run.guarded_invariant (I := TermInv before) (fun _ _ _ h hg hs => h.step hg hs)
    (TermInv.init hscreen) hspared hrun

/-! ### The window, however the signals fall

That `g_active` is off there needs no condition on the run: `restore_now`
clears it on the way in, and only `enter` sets it again, which nothing can
call from inside `restore_now`. -/

def TermSys.WindowOff (s : TermSys) : Prop := s.control.window = true → s.active = false

theorem restoreStep_windowOff {pc : RestorePc} (k : TermAnswer)
    (h : (TermControl.restore pc).window = true → s.active = false)
    (hwindow : (TermControl.restore (s.restoreStep k pc).2).window = true) :
    (s.restoreStep k pc).1.active = false := by
  cases pc with
  | check =>
      simp only [TermSys.restoreStep] at hwindow
      split_ifs at hwindow <;> cases hwindow
  | clear => rfl
  | write rest =>
      exact Bool.eq_false_iff.mpr fun hactive =>
        absurd ((restoreStep_frame s k _).2.2.2.2 hactive) (Bool.eq_false_iff.mp (h rfl))
  | tcsetattr => cases hwindow
  | done => cases hwindow

theorem enterStep_window (hfatal : s.fatal = []) {pc : EnterPc} (k : TermAnswer)
    (hmain : s.main = .enter pc) : (s.enterStep k pc).control.window = false := by
  have hcontrol : ∀ m : TermSys, m.fatal = [] →
      (m.main = .outside ∨ ∃ pc, m.main = .enter pc) → m.control.window = false := by
    rintro m hm (hout | ⟨pc, hpc⟩)
    · rw [TermSys.control_main hm, hout]
      rfl
    · rw [TermSys.control_main hm, hpc]
      rfl
  cases pc with
  | write rest =>
      cases rest with
      | nil => exact hcontrol _ hfatal (.inl rfl)
      | cons b rest =>
          simp only [TermSys.enterStep, TermSys.rawWrite]
          split_ifs
          all_goals exact hcontrol _ hfatal (.inr ⟨_, rfl⟩)
  | setActive => exact hcontrol _ hfatal (.inr ⟨_, rfl⟩)
  | undo => exact hcontrol _ hfatal (.inl rfl)
  | install =>
      simp only [TermSys.enterStep]
      split_ifs
      · exact hcontrol _ hfatal (.inr ⟨_, hmain⟩)
      · exact hcontrol _ hfatal (.inr ⟨_, rfl⟩)
  | tcsetattr =>
      simp only [TermSys.enterStep]
      split_ifs
      all_goals exact hcontrol _ hfatal (.inr ⟨_, rfl⟩)
  | check =>
      simp only [TermSys.enterStep]
      split_ifs
      · exact hcontrol _ hfatal (.inl rfl)
      · exact hcontrol _ hfatal (.inr ⟨_, rfl⟩)
  | _ =>
      simp only [TermSys.enterStep]
      split_ifs
      · exact hcontrol _ hfatal (.inr ⟨_, rfl⟩)
      · exact hcontrol _ hfatal (.inl rfl)

theorem TermSys.WindowOff.of_window (hwindow : s.control.window = false) : s.WindowOff :=
  fun hc => absurd hc (Bool.eq_false_iff.mp hwindow)

/-- The program itself goes on, outside the window. -/
theorem TermSys.WindowOff.moves (hfatal : s.fatal = []) {main : MainPc}
    (hmain : main.control.window = false) : TermSys.WindowOff { s with main := main } := by
  refine .of_window ?_
  have hcontrol : { s with main := main }.control = main.control := TermSys.control_main hfatal
  rw [hcontrol]
  exact hmain

theorem TermSys.WindowOff.abort (h : s.WindowOff) : s.abort.WindowOff := by
  unfold TermSys.abort
  split
  · exact .of_window rfl
  · exact h

theorem TermSys.WindowOff.deliver (h : s.WindowOff) {sig : TermSignal}
    (hstep : s.deliver sig = some s') : s'.WindowOff := by
  unfold TermSys.deliver at hstep
  split_ifs at hstep
  · obtain rfl := Option.some.inj hstep
    exact .of_window rfl
  all_goals
    obtain rfl := Option.some.inj hstep
    exact h

theorem TermSys.WindowOff.go (h : s.WindowOff) {k : TermAnswer} (hstep : s.go k = some s') :
    s'.WindowOff := by
  unfold TermSys.go at hstep
  split at hstep
  · obtain rfl := Option.some.inj hstep
    exact h
  · rename_i sig pc below hdone hfatal
    have hcontrol := TermSys.control_fatal hfatal
    obtain rfl := Option.some.inj hstep
    exact restoreStep_windowOff k (hcontrol ▸ h)
  · rename_i hfatal
    have hcontrol := TermSys.control_main hfatal
    -- the three callers of `restore_now` go on alike
    have hrestore : ∀ (pc : RestorePc) (main : MainPc), s.main.control = .restore pc →
        main.control = .restore (s.restoreStep k pc).2 →
        TermSys.WindowOff { (s.restoreStep k pc).1 with main := main } := by
      intro pc main hmain hnext hwindow
      refine restoreStep_windowOff k (hmain ▸ hcontrol ▸ h) ?_
      rw [← hnext, ← hwindow, restoreStep_control hfatal]
    split at hstep
    · cases hstep
    · rename_i pc hmain
      obtain rfl := Option.some.inj hstep
      exact .of_window (enterStep_window hfatal k hmain)
    · obtain rfl := Option.some.inj hstep
      exact moves hfatal rfl
    · obtain rfl := Option.some.inj hstep
      exact h
    · obtain rfl := Option.some.inj hstep
      exact h.abort
    all_goals
      rename_i pc hdone hmain
      obtain rfl := Option.some.inj hstep
      exact hrestore pc _ (congrArg MainPc.control hmain) rfl

theorem TermSys.WindowOff.step (h : s.WindowOff) {a : TermAct} (hstep : s.step a = some s') :
    s'.WindowOff := by
  unfold TermSys.step at hstep
  split at hstep
  · cases hstep
  cases a with
  | signal sig => exact h.deliver hstep
  | go k => exact h.go hstep
  | enter =>
      obtain ⟨hidle, hcall⟩ := Option.ite_none_right_eq_some.mp hstep
      obtain rfl := Option.some.inj hcall
      exact moves (of_decide_eq_true hidle).1 rfl
  | restore =>
      obtain ⟨hidle, hcall⟩ := Option.ite_none_right_eq_some.mp hstep
      obtain rfl := Option.some.inj hcall
      exact moves (of_decide_eq_true hidle).1 rfl
  | draw bytes =>
      obtain ⟨-, hdraw⟩ := Option.ite_none_right_eq_some.mp hstep
      obtain rfl := Option.some.inj hdraw
      exact h
  | exit =>
      obtain ⟨hidle, hcall⟩ := Option.ite_none_right_eq_some.mp hstep
      obtain rfl := Option.some.inj hcall
      split
      · exact moves (of_decide_eq_true hidle).1 rfl
      · exact h
  | throw =>
      obtain ⟨hidle, hcall⟩ := Option.ite_none_right_eq_some.mp hstep
      obtain rfl := Option.some.inj hcall
      split
      · exact moves (of_decide_eq_true hidle).1 rfl
      · exact h.abort

theorem TermSys.WindowOff.run {screen : Vt.Screen} {as : List TermAct}
    (hrun : Run.run TermSys.step (TermSys.init before screen) as = some s) : s.WindowOff :=
  Run.run_invariant (I := TermSys.WindowOff) (fun _ _ _ h hs => h.step hs)
    (fun _ => rfl) hrun

end Step

/-! ## How a process leaves the terminal -/

section Leave

variable {before : Termios} {screen : Vt.Screen} {as : List TermAct} {s : TermSys}

/-- **The terminal is put back.** However the signals fall, a process that
is spared ends with the attributes it found and the screen of a shell, on
every way out; so does an `enter` that fails, and every `restore`. In between
the attributes are the ones found or their raw form. -/
theorem terminal_restored (hscreen : screen.modes = .shell)
    (hspared : Run.Guarded TermSys.step TermSpared (TermSys.init before screen) as)
    (hrun : Run.run TermSys.step (TermSys.init before screen) as = some s) :
    (s.dead = true → s.Clean before) ∧
    (s.active = false → s.control.window = false → s.Clean before) ∧
    (s.termios = before ∨ s.termios = before.raw) ∧
    (s.dead = false → s.idle = true → s.active = true → s.termios = before.raw) := by
  have hinv := TermInv.run hscreen hspared hrun
  cases hdead : s.dead with
  | true =>
      have hclean := hinv.dead hdead
      exact ⟨fun _ => hclean, fun _ _ => hclean, .inl hclean.1, fun hd => (nomatch hd)⟩
  | false =>
      have hholds := hinv.running hdead
      refine ⟨fun hd => (nomatch hd), fun hactive hwindow => ?_, ?_, fun _ hidle hactive => ?_⟩
      · exact (hholds.settled hwindow).clean hactive
      · cases hwindow : s.control.window with
        | false =>
            rcases hholds.settled hwindow with ⟨-, hsaved⟩ | ⟨-, hclean⟩
            · exact hsaved.2
            · exact .inl hclean.1
        | true => exact (hholds.window hwindow).2.2
      · rw [TermSys.control_idle hidle] at hholds
        exact hholds.2 hactive

/-- A terminal with line editing on. -/
def cooked : Termios := ⟨0x500, 0x5, 0xBF, 0x8A3B, List.replicate 19 1⟩

/-- A system call that succeeds, for all the bytes there are. -/
def answered : TermAct := .go ⟨true, 64, false⟩

/-- `enter`, all the way. -/
def entering : List TermAct := .enter :: List.replicate 19 answered

/-- `SIGSEGV` in the middle of a colour, and `SIGBUS` in its handler. -/
def crashing : List TermAct :=
  entering ++ [.draw [0x1B, 0x5B, 0x34, 0x38, 0x3B, 0x32], .signal .winch, .signal .segv,
    answered, .signal .bus] ++ List.replicate 6 answered

theorem terminal_restored_crashing : ∃ s,
    Run.run TermSys.step (TermSys.init cooked ⟨.shell, .ground⟩) crashing = some s ∧
      s.dead = true ∧ s.Clean cooked := by
  have hrun : Run.run TermSys.step (TermSys.init cooked ⟨.shell, .ground⟩) crashing =
      some _ := rfl
  exact ⟨_, hrun, rfl, (terminal_restored rfl (by decide +kernel) hrun).1 rfl⟩

/-- **What strands it.** In any run, a fatal signal in the window of
`restore_now` kills the process in two steps, and a signal without a handler
kills it anywhere in one; both leave the terminal as it stands there. -/
theorem terminal_stranded
    (hrun : Run.run TermSys.step (TermSys.init before screen) as = some s)
    (halive : s.dead = false) (sig : TermSignal) :
    (s.control.window = true → sig.fatal = true → s.installs (.on sig) = true →
      sig ∉ s.fatal.map Prod.fst → ∀ k k', ∃ s',
        Run.run TermSys.step s [.signal sig, .go k, .go k'] = some s' ∧ s'.dead = true ∧
          s'.termios = s.termios ∧ s'.screen = s.screen) ∧
    (s.installs (.on sig) = false → sig ≠ .winch → ∃ s',
      s.step (.signal sig) = some s' ∧ s'.dead = true ∧
        s'.termios = s.termios ∧ s'.screen = s.screen) := by
  constructor
  · intro hwindow hfatal hinstalled hfree k k'
    have hactive := TermSys.WindowOff.run hrun hwindow
    have hdeliver : s.step (.signal sig) =
        some { s with fatal := (sig, .check) :: s.fatal } := by
      have hfree' : (s.fatal.map Prod.fst).contains sig = false := by
        rw [← Bool.not_eq_true, List.contains_iff_mem]
        exact hfree
      simp only [TermSys.step, halive, TermSys.deliver, hinstalled, hfatal, hfree',
        Bool.false_eq_true, if_false, if_true]
    have hcheck : TermSys.step { s with fatal := (sig, .check) :: s.fatal } (.go k) =
        some { s with fatal := (sig, .done) :: s.fatal } := by
      simp only [TermSys.step, halive, TermSys.go, TermSys.restoreStep, hactive,
        Bool.false_eq_true, if_false]
    have hraise : TermSys.step { s with fatal := (sig, .done) :: s.fatal } (.go k') =
        some { s with fatal := (sig, .done) :: s.fatal, dead := true } := by
      simp only [TermSys.step, halive, TermSys.go, Bool.false_eq_true, if_false]
    exact ⟨_, Run.run_cons.mpr ⟨_, hdeliver, Run.run_cons.mpr ⟨_, hcheck, Run.run_cons.mpr
      ⟨_, hraise, rfl⟩⟩⟩, rfl, rfl, rfl⟩
  · intro hinstalled hwinch
    refine ⟨{ s with dead := true }, ?_, rfl, rfl, rfl⟩
    simp only [TermSys.step, halive, TermSys.deliver, hinstalled, hwinch, Bool.false_eq_true,
      if_false]

/-- `SIGTERM` is only noted; `SIGSEGV` after the store of `g_active` is the
end of it, with the terminal raw. -/
def strandedActs : List TermAct :=
  entering ++ [.signal .term, .restore, answered, answered]

theorem terminal_stranded_raw : ∃ s s',
    Run.run TermSys.step (TermSys.init cooked ⟨.shell, .ground⟩) strandedActs = some s ∧
    Run.run TermSys.step s [.signal .segv, answered, answered] = some s' ∧
    s'.dead = true ∧ s'.termios = cooked.raw ∧ s'.termios ≠ cooked := by
  have hrun : Run.run TermSys.step (TermSys.init cooked ⟨.shell, .ground⟩) strandedActs =
      some _ := rfl
  obtain ⟨s', hkill, hdead, htermios, -⟩ :=
    (terminal_stranded hrun rfl .segv).1 rfl rfl rfl
      List.not_mem_nil ⟨true, 64, false⟩ ⟨true, 64, false⟩
  refine ⟨_, s', hrun, hkill, hdead, htermios, ?_⟩
  rw [htermios]
  decide

end Leave

end Heapviz
