import Heapviz.RingMapping
import Heapviz.Run

/-!
# Launching a target

`launch_target` (`tui/session.cpp`) forks, and the two processes it leaves
behind talk once: the child writes the `errno` of what failed before its
program runs into a pipe, and a program that does run closes the pipe by
being executed. The parent reads until one or the other.

A state has the descriptor tables of both, the pipe, and the log in `/tmp`.
One system call of one process is a step, the kernel answers it either way,
and the child may be killed anywhere; only `close` and `fcntl`, which are
asked about open descriptors, do what they say. The last section is about
tables that are another one with some descriptors opened on top.
-/

namespace Heapviz

/-! ## Descriptors -/

inductive FdFile where
  | ambient (n : Nat)
  | log
  | null
  | pipeRead
  | pipeWrite
deriving Repr, DecidableEq

structure FdEntry where
  file : FdFile
  cloexec : Bool
deriving Repr, DecidableEq

/-- The open descriptors of a process. -/
abbrev FdTable := Nat → Option FdEntry

namespace FdTable

def empty : FdTable := fun _ => none

def close (t : FdTable) (fd : Nat) : FdTable := Function.update t fd none

/-- `fcntl` with `F_SETFD` and `FD_CLOEXEC`. -/
def setCloexec (t : FdTable) (fd : Nat) : FdTable :=
  Function.update t fd ((t fd).map fun e => { e with cloexec := true })

def dup2 (t : FdTable) (source target : Nat) : FdTable :=
  if source = target then t
  else Function.update t target ((t source).map fun e => { e with cloexec := false })

/-- What a program is executed with. -/
def exec (t : FdTable) : FdTable := fun fd => (t fd).filter fun e => e.cloexec = false

/-- Some descriptor below `limit` can write the pipe. -/
def writes (t : FdTable) (limit : Nat) : Bool :=
  (List.range limit).any fun fd => (t fd).any fun e => e.file = .pipeWrite

end FdTable

/-! ## The two processes -/

inductive LaunchStatus where
  | ok
  | noPreload
  | ioFailed
  | forkFailed
  | execFailed
deriving Repr, DecidableEq

/-- The log under the name `mkstemp` gave it, or under the child's pid. -/
inductive LogName where
  | template
  | named
deriving Repr, DecidableEq

/-- `Launch`; `pid` where it holds the child's. -/
structure Launch where
  status : LaunchStatus
  pid : Bool
  err : Nat
  outputPath : Option LogName
deriving Repr, DecidableEq

structure LaunchEnv where
  ldPreload : Option (List Nat)
  waitMs : Option (List Nat)
deriving Repr, DecidableEq

/-- The arguments, the environment, and how many descriptors there can be. -/
structure LaunchCfg where
  argv0 : Bool
  preload : List Nat
  waitMs : Int
  isolate : Bool
  env : LaunchEnv
  limit : Nat

/-- What is prepended stays in front of what the user had. -/
def LaunchCfg.preloadValue (cfg : LaunchCfg) : List Nat :=
  match cfg.env.ldPreload with
  | none | some [] => cfg.preload
  | some existing => cfg.preload ++ [0x3A] ++ existing

def LaunchCfg.setWait (cfg : LaunchCfg) : Bool := 0 < cfg.waitMs ∧ cfg.env.waitMs = none

/-- A clean-up after a failed call. -/
inductive LaunchOp where
  | close (fd : Nat)
  | unlink
deriving Repr, DecidableEq

/-- Where the parent is: before the named call, with what it has of the pipe. -/
inductive LaunchPc where
  | check
  | mkstemp
  | openNull
  | pipe
  | cloexecRead (r w : Nat)
  | cloexecWrite (r w : Nat)
  | fork (r w : Nat)
  | closeWrite (r w : Nat)
  | closeInput (r : Nat)
  | closeLog (r : Nat)
  | rename (r : Nat)
  | read (r : Nat)
  | closeRead (r : Nat) (got : Option Nat)
  | waitpid (err : Nat)
  | unlink (err : Nat)
  | undo (ops : List LaunchOp) (out : Launch)
  | returned (out : Launch)
deriving Repr, DecidableEq

/-- How the child ended: a call before its program failed, and the pipe was
told or not; the program ran; or it was killed before. -/
inductive KidFate where
  | failed (err : Nat) (told : Bool)
  | ran
  | killed
deriving Repr, DecidableEq

inductive KidPc where
  | unborn
  | closeRead (r w : Nat)
  | dupStdin (w : Nat)
  | dupStdout (w : Nat)
  | dupStderr (w : Nat)
  | closeInput (w : Nat)
  | closeLog (w : Nat)
  | setPreload (w : Nat)
  | setWait (w : Nat)
  | exec (w : Nat)
  | report (w err : Nat)
  | exit (w err : Nat) (told : Bool)
  | running
  | zombie (fate : KidFate)
  | reaped (fate : KidFate)
deriving Repr, DecidableEq

structure LaunchSys where
  pc : LaunchPc
  parent : FdTable
  targetLog : Option Nat
  targetInput : Option Nat
  /-- Which names this launch has put into `/tmp`. -/
  logs : LogName → Bool
  outputPath : Option LogName
  pipe : List Nat
  kid : KidPc
  child : FdTable
  env : LaunchEnv

def LaunchSys.init (cfg : LaunchCfg) (table : FdTable) : LaunchSys where
  pc := .check
  parent := table
  targetLog := none
  targetInput := none
  logs := fun _ => false
  outputPath := none
  pipe := []
  kid := .unborn
  child := FdTable.empty
  env := cfg.env

/-- How the kernel answers a call: it does it, with the descriptors it
hands out, or it fails with an `errno`. -/
structure LaunchAnswer where
  ok : Bool
  err : Nat
  fd : Nat
  fd2 : Nat
deriving Repr, DecidableEq

inductive LaunchAct where
  | parent (k : LaunchAnswer)
  | child (k : LaunchAnswer)
  | kill
deriving Repr, DecidableEq

namespace LaunchSys

/-- The clean-up of the two descriptors for isolation. -/
def undoIo (s : LaunchSys) : List LaunchOp :=
  (match s.targetLog with
    | some fd => [.close fd, .unlink]
    | none => []) ++
  (match s.targetInput with
    | some fd => [.close fd]
    | none => [])

def closeOpt (t : FdTable) : Option Nat → FdTable
  | some fd => t.close fd
  | none => t

def setLog (s : LaunchSys) (n : LogName) (there : Bool) : LogName → Bool :=
  Function.update s.logs n there

def unlinkLog (s : LaunchSys) (k : LaunchAnswer) (n : LogName) : LogName → Bool :=
  if k.ok then s.setLog n false else s.logs

/-- A descriptor the kernel may hand out. -/
def free (cfg : LaunchCfg) (s : LaunchSys) (fd : Nat) : Bool := s.parent fd = none ∧ fd < cfg.limit

/-- Someone can still write the pipe. -/
def writers (cfg : LaunchCfg) (s : LaunchSys) : Bool :=
  s.parent.writes cfg.limit || s.child.writes cfg.limit

/-- One step of the parent. -/
def parentStep (cfg : LaunchCfg) (s : LaunchSys) (k : LaunchAnswer) : Option LaunchSys :=
  match s.pc with
  | .check =>
      if cfg.argv0 = false ∨ cfg.preload = [] then
        some { s with pc := .returned ⟨.noPreload, false, 0, none⟩ }
      else some { s with pc := if cfg.isolate then .mkstemp else .pipe }
  | .mkstemp =>
      if k.ok = false then some { s with pc := .returned ⟨.ioFailed, false, k.err, none⟩ }
      else if s.free cfg k.fd then
        some { s with
          parent := Function.update s.parent k.fd (some ⟨.log, false⟩)
          targetLog := some k.fd
          logs := s.setLog .template true
          pc := .openNull }
      else none
  | .openNull =>
      if k.ok = false then
        some { s with pc := .undo s.undoIo ⟨.ioFailed, false, k.err, none⟩ }
      else if s.free cfg k.fd then
        some { s with
          parent := Function.update s.parent k.fd (some ⟨.null, false⟩)
          targetInput := some k.fd
          outputPath := some .template
          pc := .pipe }
      else none
  | .pipe =>
      if k.ok = false then
        some { s with pc := .undo s.undoIo ⟨.forkFailed, false, k.err, s.outputPath⟩ }
      else if s.free cfg k.fd ∧ s.free cfg k.fd2 ∧ k.fd ≠ k.fd2 then
        some { s with
          parent := Function.update (Function.update s.parent k.fd (some ⟨.pipeRead, false⟩))
            k.fd2 (some ⟨.pipeWrite, false⟩)
          pc := .cloexecRead k.fd k.fd2 }
      else none
  | .cloexecRead r w => some { s with parent := s.parent.setCloexec r, pc := .cloexecWrite r w }
  | .cloexecWrite r w => some { s with parent := s.parent.setCloexec w, pc := .fork r w }
  | .fork r w =>
      if k.ok = false then
        let ops := .close r :: .close w :: s.undoIo
        some { s with pc := .undo ops ⟨.forkFailed, false, k.err, s.outputPath⟩ }
      else some { s with kid := .closeRead r w, child := s.parent, pc := .closeWrite r w }
  | .closeWrite r w => some { s with parent := s.parent.close w, pc := .closeInput r }
  | .closeInput r => some { s with parent := closeOpt s.parent s.targetInput, pc := .closeLog r }
  | .closeLog r => some { s with parent := closeOpt s.parent s.targetLog, pc := .rename r }
  | .rename r =>
      if cfg.isolate ∧ k.ok then
        some { s with
          logs := Function.update (s.setLog .template false) .named true
          outputPath := some .named
          pc := .read r }
      else some { s with pc := .read r }
  | .read r =>
      if k.ok = false then some { s with pc := .closeRead r none }
      else match s.pipe with
        | err :: rest => some { s with pipe := rest, pc := .closeRead r (some err) }
        | [] => if s.writers cfg then none else some { s with pc := .closeRead r none }
  | .closeRead r got =>
      some { s with
        parent := s.parent.close r
        pc := match got with
          | some err => .waitpid err
          | none => .returned ⟨.ok, true, 0, s.outputPath⟩ }
  | .waitpid err =>
      if k.ok = false then some { s with pc := .unlink err }
      else match s.kid with
        | .zombie fate => some { s with kid := .reaped fate, pc := .unlink err }
        | _ => none
  | .unlink err =>
      some { s with
        logs := match s.outputPath with
          | some n => s.unlinkLog k n
          | none => s.logs
        outputPath := none
        pc := .returned ⟨.execFailed, false, err, none⟩ }
  | .undo [] out => some { s with pc := .returned out }
  | .undo (.close fd :: ops) out => some { s with parent := s.parent.close fd, pc := .undo ops out }
  | .undo (.unlink :: ops) out =>
      some { s with logs := s.unlinkLog k .template, pc := .undo ops out }
  | .returned _ => none

/-- One of the child's `dup2`s; it reports a failure. -/
def dupStep (s : LaunchSys) (k : LaunchAnswer) (w : Nat) (source : Option Nat) (target : Nat)
    (next : KidPc) : LaunchSys :=
  match source with
  | some fd =>
      if k.ok then { s with child := s.child.dup2 fd target, kid := next }
      else { s with kid := .report w k.err }
  | none => { s with kid := .report w k.err }

/-- One step of the child. -/
def childStep (cfg : LaunchCfg) (s : LaunchSys) (k : LaunchAnswer) : Option LaunchSys :=
  match s.kid with
  | .closeRead r w =>
      some { s with
        child := s.child.close r
        kid := if cfg.isolate then .dupStdin w else .setPreload w }
  | .dupStdin w => some (s.dupStep k w s.targetInput 0 (.dupStdout w))
  | .dupStdout w => some (s.dupStep k w s.targetLog 1 (.dupStderr w))
  | .dupStderr w => some (s.dupStep k w s.targetLog 2 (.closeInput w))
  | .closeInput w => some { s with child := closeOpt s.child s.targetInput, kid := .closeLog w }
  | .closeLog w => some { s with child := closeOpt s.child s.targetLog, kid := .setPreload w }
  | .setPreload w =>
      some { s with
        env := if k.ok then { s.env with ldPreload := some cfg.preloadValue } else s.env
        kid := .setWait w }
  | .setWait w =>
      some { s with
        env := if cfg.setWait ∧ k.ok then
            { s.env with waitMs := some (decimalText cfg.waitMs.toNat) }
          else s.env
        kid := .exec w }
  | .exec w =>
      if k.ok then some { s with child := s.child.exec, kid := .running }
      else some { s with kid := .report w k.err }
  | .report w err =>
      some { s with
        pipe := if k.ok then s.pipe ++ [err] else s.pipe
        kid := .exit w err k.ok }
  | .exit _ err told => some { s with child := FdTable.empty, kid := .zombie (.failed err told) }
  | .unborn | .running | .zombie _ | .reaped _ => none

/-- The child dies of a signal, or its program ends. -/
def kill (s : LaunchSys) : Option LaunchSys :=
  match s.kid with
  | .unborn | .zombie _ | .reaped _ => none
  | .running => some { s with child := FdTable.empty, kid := .zombie .ran }
  | .exit _ err told => some { s with child := FdTable.empty, kid := .zombie (.failed err told) }
  | _ => some { s with child := FdTable.empty, kid := .zombie .killed }

def step (cfg : LaunchCfg) (s : LaunchSys) : LaunchAct → Option LaunchSys
  | .parent k => s.parentStep cfg k
  | .child k => s.childStep cfg k
  | .kill => s.kill

/-- The calls whose failure goes unnoticed, or is taken for the end of the
pipe, do not fail: `waitpid`, `unlink`, `setenv`, and the `read`. -/
def Answered (s : LaunchSys) : LaunchAct → Prop
  | .parent k =>
      match s.pc with
      | .read _ | .waitpid _ | .unlink _ | .undo (.unlink :: _) _ => k.ok = true
      | _ => True
  | .child k =>
      match s.kid with
      | .setPreload _ | .setWait _ => k.ok = true
      | _ => True
  | .kill => True

instance (s : LaunchSys) (a : LaunchAct) : Decidable (s.Answered a) := by
  unfold Answered
  cases a with
  | parent k =>
      dsimp only
      split <;> infer_instance
  | child k =>
      dsimp only
      split <;> infer_instance
  | kill => exact .isTrue trivial

end LaunchSys

/-! ## A table over another -/

/-- Table `t` is `base` with the entries `l` on top, under numbers that are
free in `base`. -/
structure FdTable.Over (limit : Nat) (base t : FdTable) (l : List (Nat × FdEntry)) : Prop where
  has : ∀ p ∈ l, t p.1 = some p.2
  fresh : ∀ p ∈ l, base p.1 = none ∧ p.1 < limit
  nodup : (l.map Prod.fst).Nodup
  rest : ∀ fd, fd ∉ l.map Prod.fst → t fd = base fd

namespace FdTable.Over

variable {limit : Nat} {base t : FdTable} {l l' : List (Nat × FdEntry)} {fd : Nat} {e : FdEntry}

theorem nil (limit : Nat) (t : FdTable) : Over limit t t [] :=
  ⟨fun _ h => absurd h List.not_mem_nil, fun _ h => absurd h List.not_mem_nil, List.nodup_nil,
    fun _ _ => rfl⟩

theorem eq_base (h : Over limit base t []) : t = base :=
  funext fun fd => h.rest fd List.not_mem_nil

theorem perm (h : Over limit base t l) (hp : l.Perm l') : Over limit base t l' where
  has p hm := h.has p (hp.mem_iff.mpr hm)
  fresh p hm := h.fresh p (hp.mem_iff.mpr hm)
  nodup := (hp.map Prod.fst).nodup_iff.mp h.nodup
  rest fd hm := h.rest fd fun hmem => hm ((hp.map Prod.fst).mem_iff.mp hmem)

theorem opened (h : Over limit base t l) (hfree : t fd = none) (hlimit : fd < limit) (e : FdEntry) :
    Over limit base (Function.update t fd (some e)) ((fd, e) :: l) := by
  have hnot : fd ∉ l.map Prod.fst := by
    intro hmem
    obtain ⟨p, hp, rfl⟩ := List.mem_map.mp hmem
    rw [h.has p hp] at hfree
    cases hfree
  refine ⟨fun p hp => ?_, fun p hp => ?_, List.nodup_cons.mpr ⟨hnot, h.nodup⟩, fun x hx => ?_⟩
  · rcases List.mem_cons.mp hp with rfl | hl
    · exact Function.update_self ..
    · have hne : p.1 ≠ fd := by
        rintro rfl
        exact hnot (List.mem_map_of_mem hl)
      rw [Function.update_of_ne hne]
      exact h.has p hl
  · rcases List.mem_cons.mp hp with rfl | hp
    · exact ⟨(h.rest fd hnot).symm.trans hfree, hlimit⟩
    · exact h.fresh p hp
  · rw [List.map_cons, List.mem_cons, not_or] at hx
    rw [Function.update_of_ne hx.1]
    exact h.rest x hx.2

theorem close (h : Over limit base t ((fd, e) :: l)) : Over limit base (t.close fd) l := by
  have hnot : fd ∉ l.map Prod.fst := (List.nodup_cons.mp h.nodup).1
  have hne : ∀ {x}, x ∈ l.map Prod.fst → x ≠ fd := by
    rintro x hx rfl
    exact hnot hx
  refine ⟨fun p hp => ?_, fun p hp => h.fresh p (List.mem_cons_of_mem _ hp),
    (List.nodup_cons.mp h.nodup).2, fun x hx => ?_⟩
  · rw [FdTable.close, Function.update_of_ne (hne (List.mem_map_of_mem hp))]
    exact h.has p (List.mem_cons_of_mem _ hp)
  · by_cases hxfd : x = fd
    · subst hxfd
      rw [FdTable.close, Function.update_self]
      exact (h.fresh _ List.mem_cons_self).1.symm
    · rw [FdTable.close, Function.update_of_ne hxfd]
      refine h.rest x fun hmem => ?_
      rcases List.mem_cons.mp hmem with hmem | hmem
      · exact hxfd hmem
      · exact hx hmem

theorem setCloexec (h : Over limit base t ((fd, e) :: l)) :
    Over limit base (t.setCloexec fd) ((fd, { e with cloexec := true }) :: l) := by
  have hnot : fd ∉ l.map Prod.fst := (List.nodup_cons.mp h.nodup).1
  refine ⟨fun p hp => ?_, fun p hp => ?_, h.nodup, fun x hx => ?_⟩
  · rcases List.mem_cons.mp hp with rfl | hl
    · rw [FdTable.setCloexec, Function.update_self, h.has _ List.mem_cons_self]
      rfl
    · have hne : p.1 ≠ fd := by
        rintro rfl
        exact hnot (List.mem_map_of_mem hl)
      rw [FdTable.setCloexec, Function.update_of_ne hne]
      exact h.has p (List.mem_cons_of_mem _ hl)
  · rcases List.mem_cons.mp hp with rfl | hp
    · exact h.fresh (fd, e) List.mem_cons_self
    · exact h.fresh p (List.mem_cons_of_mem _ hp)
  · have hne : x ≠ fd := by
      rintro rfl
      exact hx List.mem_cons_self
    rw [FdTable.setCloexec, Function.update_of_ne hne]
    exact h.rest x hx

/-- A `dup2` onto a number that is taken in the base changes the base. -/
theorem dup2 (h : Over limit base t l) {target : Nat} (htarget : base target ≠ none)
    (hp : (fd, e) ∈ l) : Over limit
      (Function.update base target (some { e with cloexec := false })) (t.dup2 fd target) l := by
  have hne : ∀ p ∈ l, p.1 ≠ target := by
    rintro p hp rfl
    exact htarget (h.fresh p hp).1
  have hsource := h.has _ hp
  rw [FdTable.dup2, if_neg (hne _ hp), hsource]
  refine ⟨fun p hp => ?_, fun p hp => ?_, h.nodup, fun x hx => ?_⟩
  · rw [Function.update_of_ne (hne p hp)]
    exact h.has p hp
  · rw [Function.update_of_ne (hne p hp)]
    exact h.fresh p hp
  · by_cases hxt : x = target
    · subst hxt
      rw [Function.update_self, Function.update_self]
      rfl
    · rw [Function.update_of_ne hxt, Function.update_of_ne hxt]
      exact h.rest x hx

/-- Who can write the pipe, read off the entries on top. -/
theorem writes_iff (h : Over limit base t l)
    (hbase : ∀ fd e, base fd = some e → e.file ≠ .pipeWrite) :
    t.writes limit = true ↔ ∃ p ∈ l, p.2.file = .pipeWrite := by
  simp only [FdTable.writes, List.any_eq_true, List.mem_range, Option.any_eq_true,
    decide_eq_true_eq]
  constructor
  · rintro ⟨fd, -, e, he, hfile⟩
    by_cases hmem : fd ∈ l.map Prod.fst
    · obtain ⟨p, hp, rfl⟩ := List.mem_map.mp hmem
      have heq := Option.some.inj ((h.has p hp).symm.trans he)
      exact ⟨p, hp, heq ▸ hfile⟩
    · exact absurd hfile (hbase fd e ((h.rest fd hmem).symm.trans he))
  · rintro ⟨p, hp, hfile⟩
    exact ⟨p.1, (h.fresh p hp).2, p.2, h.has p hp, hfile⟩

end FdTable.Over

end Heapviz
