import Heapviz.Launch

/-!
# What a launch leaves behind

Every place of the parent and every place of the child has what the process
holds there: which descriptors on top of the ones it was started with, what
has been told through the pipe, which log there is. A step of one keeps what
the other has. What rests on a call whose failure nothing looks at is only
there if all of those were `answered`.

- Whatever comes back, the parent's descriptors are those it had, no child
  is left unreaped that reported, and a log is left exactly where the launch
  succeeded in isolation. The program starts with the null device and the log
  as its standard streams and without the pipe (`launch_sound`).
- No interleaving blocks: the read ends because the child's write end does
  (`launch_returns`).
-/

namespace Heapviz

/-! ## What holds where -/

def logFds (log : Option Nat) : List (Nat × FdEntry) :=
  (log.map fun fd => (fd, ⟨.log, false⟩)).toList

/-- What isolation has open. -/
def ioFds (input log : Option Nat) : List (Nat × FdEntry) :=
  (input.map fun fd => (fd, ⟨.null, false⟩)).toList ++ logFds log

/-- The standard streams the program is to have. -/
def LaunchCfg.stdio (cfg : LaunchCfg) (table : FdTable) : FdTable :=
  if cfg.isolate then
    Function.update (Function.update (Function.update table 0 (some ⟨.null, false⟩))
      1 (some ⟨.log, false⟩)) 2 (some ⟨.log, false⟩)
  else table

/-- The environment the program is to have. -/
def LaunchCfg.childEnv (cfg : LaunchCfg) : LaunchEnv where
  ldPreload := some cfg.preloadValue
  waitMs := if cfg.setWait then some (decimalText cfg.waitMs.toNat) else cfg.env.waitMs

/-- What the child has told through the pipe. -/
def KidPc.told : KidPc → Option Nat
  | .exit _ err true | .zombie (.failed err true) | .reaped (.failed err true) => some err
  | _ => none

/-- What the child has, by where it is. -/
def KidPc.Holds (cfg : LaunchCfg) (table : FdTable) (answered : Prop) (input log : Option Nat)
    (child : FdTable) (env : LaunchEnv) : KidPc → Prop
  | .unborn => child = FdTable.empty ∧ env = cfg.env
  | .closeRead r w => input.isSome = cfg.isolate ∧ log.isSome = cfg.isolate ∧ env = cfg.env ∧
      FdTable.Over cfg.limit table child
        ((r, ⟨.pipeRead, true⟩) :: (w, ⟨.pipeWrite, true⟩) :: ioFds input log)
  | .dupStdin w => cfg.isolate = true ∧ input.isSome = true ∧ log.isSome = true ∧ env = cfg.env ∧
      FdTable.Over cfg.limit table child ((w, ⟨.pipeWrite, true⟩) :: ioFds input log)
  | .dupStdout w => cfg.isolate = true ∧ log.isSome = true ∧ env = cfg.env ∧
      FdTable.Over cfg.limit (Function.update table 0 (some ⟨.null, false⟩)) child
        ((w, ⟨.pipeWrite, true⟩) :: ioFds input log)
  | .dupStderr w => cfg.isolate = true ∧ log.isSome = true ∧ env = cfg.env ∧
      FdTable.Over cfg.limit (Function.update (Function.update table 0 (some ⟨.null, false⟩))
        1 (some ⟨.log, false⟩)) child ((w, ⟨.pipeWrite, true⟩) :: ioFds input log)
  | .closeInput w => env = cfg.env ∧ FdTable.Over cfg.limit (cfg.stdio table) child
      ((w, ⟨.pipeWrite, true⟩) :: ioFds input log)
  | .closeLog w => env = cfg.env ∧ FdTable.Over cfg.limit (cfg.stdio table) child
      ((w, ⟨.pipeWrite, true⟩) :: logFds log)
  | .setPreload w => env = cfg.env ∧
      FdTable.Over cfg.limit (cfg.stdio table) child [(w, ⟨.pipeWrite, true⟩)]
  | .setWait w => (answered → env = { cfg.env with ldPreload := some cfg.preloadValue }) ∧
      FdTable.Over cfg.limit (cfg.stdio table) child [(w, ⟨.pipeWrite, true⟩)]
  | .exec w => (answered → env = cfg.childEnv) ∧
      FdTable.Over cfg.limit (cfg.stdio table) child [(w, ⟨.pipeWrite, true⟩)]
  | .report _ _ | .exit _ _ _ => child.writes cfg.limit = true
  | .running => child = (cfg.stdio table).exec ∧ (answered → env = cfg.childEnv)
  | .zombie _ | .reaped _ => child = FdTable.empty

/-- The names in `/tmp` are these. -/
def LaunchSys.OnlyLog (s : LaunchSys) (name : Option LogName) : Prop :=
  ∀ n, s.logs n = true ↔ name = some n

/-- Isolation is set up as asked for, and the log is where the result will
say. -/
structure LaunchSys.Ready (cfg : LaunchCfg) (s : LaunchSys) : Prop where
  log : s.targetLog.isSome = cfg.isolate
  input : s.targetInput.isSome = cfg.isolate
  path : s.outputPath.isSome = cfg.isolate
  only : s.OnlyLog s.outputPath

/-- No child yet, and nothing in the pipe. -/
def LaunchSys.Unforked (s : LaunchSys) : Prop := s.kid = .unborn ∧ s.pipe = []

/-- There is a child, and what it told is in the pipe. -/
def LaunchSys.Forked (s : LaunchSys) : Prop :=
  s.kid ≠ .unborn ∧ (∀ fate, s.kid ≠ .reaped fate) ∧ s.pipe = s.kid.told.toList

/-- The child's program runs, or the child is gone and has told nothing. -/
def KidPc.Silent (kid : KidPc) : Prop :=
  kid = .running ∨ ∃ fate, kid = .zombie fate ∧ ∀ err, fate ≠ .failed err true

/-- What a launch comes back to. -/
def LaunchSys.Outcome (cfg : LaunchCfg) (table : FdTable) (answered : Prop) (s : LaunchSys)
    (out : Launch) : Prop :=
  s.parent = table ∧
    match out.status with
    | .ok => out.pid = true ∧ (answered → s.kid.Silent) ∧ out.outputPath.isSome = cfg.isolate ∧
        s.OnlyLog out.outputPath
    | .execFailed => s.kid.told = some out.err ∧ out.outputPath = none ∧
        (answered → s.kid = .reaped (.failed out.err true) ∧ s.OnlyLog none)
    | _ => s.kid = .unborn ∧ (answered → s.OnlyLog none)

/-- What the parent has, by where it is. -/
def LaunchPc.Holds (cfg : LaunchCfg) (table : FdTable) (answered : Prop) (s : LaunchSys) :
    LaunchPc → Prop
  | .check => s.parent = table ∧ s.Unforked ∧ s.targetLog = none ∧ s.targetInput = none ∧
      s.outputPath = none ∧ s.OnlyLog none
  | .mkstemp => cfg.isolate = true ∧ s.parent = table ∧ s.Unforked ∧ s.targetInput = none ∧
      s.outputPath = none ∧ s.OnlyLog none
  | .openNull => cfg.isolate = true ∧ s.targetLog.isSome = true ∧ s.targetInput = none ∧
      s.Unforked ∧ s.OnlyLog (some .template) ∧
      FdTable.Over cfg.limit table s.parent (ioFds s.targetInput s.targetLog)
  | .pipe => s.Ready cfg ∧ s.Unforked ∧ (∀ n, s.logs n = true → n = .template) ∧
      FdTable.Over cfg.limit table s.parent (ioFds s.targetInput s.targetLog)
  | .cloexecRead r w => s.Ready cfg ∧ s.Unforked ∧ (∀ n, s.logs n = true → n = .template) ∧
      FdTable.Over cfg.limit table s.parent ((r, ⟨.pipeRead, false⟩) ::
        (w, ⟨.pipeWrite, false⟩) :: ioFds s.targetInput s.targetLog)
  | .cloexecWrite r w => s.Ready cfg ∧ s.Unforked ∧ (∀ n, s.logs n = true → n = .template) ∧
      FdTable.Over cfg.limit table s.parent ((r, ⟨.pipeRead, true⟩) ::
        (w, ⟨.pipeWrite, false⟩) :: ioFds s.targetInput s.targetLog)
  | .fork r w => s.Ready cfg ∧ s.Unforked ∧ (∀ n, s.logs n = true → n = .template) ∧
      FdTable.Over cfg.limit table s.parent ((r, ⟨.pipeRead, true⟩) ::
        (w, ⟨.pipeWrite, true⟩) :: ioFds s.targetInput s.targetLog)
  | .closeWrite r w => s.Ready cfg ∧ s.Forked ∧ FdTable.Over cfg.limit table s.parent
      ((r, ⟨.pipeRead, true⟩) :: (w, ⟨.pipeWrite, true⟩) :: ioFds s.targetInput s.targetLog)
  | .closeInput r => s.Ready cfg ∧ s.Forked ∧ FdTable.Over cfg.limit table s.parent
      ((r, ⟨.pipeRead, true⟩) :: ioFds s.targetInput s.targetLog)
  | .closeLog r => s.Ready cfg ∧ s.Forked ∧ FdTable.Over cfg.limit table s.parent
      ((r, ⟨.pipeRead, true⟩) :: logFds s.targetLog)
  | .rename r | .read r => s.Ready cfg ∧ s.Forked ∧
      FdTable.Over cfg.limit table s.parent [(r, ⟨.pipeRead, true⟩)]
  | .closeRead r got => s.Ready cfg ∧ (∀ fate, s.kid ≠ .reaped fate) ∧
      (∀ err, got = some err → s.kid.told = some err) ∧
      (answered → got = none → s.kid.Silent) ∧
      FdTable.Over cfg.limit table s.parent [(r, ⟨.pipeRead, true⟩)]
  | .waitpid err => s.Ready cfg ∧ (∀ fate, s.kid ≠ .reaped fate) ∧ s.kid.told = some err ∧
      s.parent = table
  | .unlink err => s.Ready cfg ∧ s.kid.told = some err ∧
      (answered → s.kid = .reaped (.failed err true)) ∧ s.parent = table
  | .undo ops out => s.Unforked ∧ (out.status = .ioFailed ∨ out.status = .forkFailed) ∧
      (∀ fd, .close fd ∈ ops → table fd = none) ∧
      (∀ fd, .close fd ∉ ops → s.parent fd = table fd) ∧
      (answered → ∀ n, s.logs n = true → n = .template ∧ .unlink ∈ ops)
  | .returned out => s.Outcome cfg table answered out

structure LaunchInv (cfg : LaunchCfg) (table : FdTable) (answered : Prop) (s : LaunchSys) :
    Prop where
  pc : s.pc.Holds cfg table answered s
  kid : s.kid.Holds cfg table answered s.targetInput s.targetLog s.child s.env

/-- What a launch starts from: its own files only, with standard streams. -/
structure LaunchTable (table : FdTable) : Prop where
  stdio : ∀ fd ≤ 2, table fd ≠ none
  ambient : ∀ fd e, table fd = some e → ∃ n, e.file = .ambient n

section Step

variable {cfg : LaunchCfg} {table : FdTable} {answered : Prop} {s s' : LaunchSys}

theorem FdTable.Over.closeInput {limit : Nat} {base t : FdTable} {p : Nat × FdEntry}
    {input log : Option Nat} (h : Over limit base t (p :: ioFds input log)) :
    Over limit base (LaunchSys.closeOpt t input) (p :: logFds log) := by
  cases input with
  | none => exact h
  | some fd => exact (h.perm (.swap (fd, _) p _)).close

theorem FdTable.Over.closeLog {limit : Nat} {base t : FdTable} {p : Nat × FdEntry}
    {log : Option Nat} (h : Over limit base t (p :: logFds log)) :
    Over limit base (LaunchSys.closeOpt t log) [p] := by
  cases log with
  | none => exact h
  | some fd => exact (h.perm (.swap (fd, _) p _)).close

/-- The clean-up of isolation closes what isolation has open. -/
theorem mem_undoIo {fd : Nat} :
    .close fd ∈ s.undoIo ↔ fd ∈ (ioFds s.targetInput s.targetLog).map Prod.fst := by
  unfold LaunchSys.undoIo ioFds logFds
  cases s.targetLog with
  | none =>
      cases s.targetInput with
      | none => simp
      | some input => simp
  | some log =>
      cases s.targetInput with
      | none => simp
      | some input =>
          simp
          exact or_comm

theorem unlink_mem_undoIo (h : s.targetLog.isSome = true) : .unlink ∈ s.undoIo := by
  unfold LaunchSys.undoIo
  obtain ⟨log, hlog⟩ := Option.isSome_iff_exists.mp h
  rw [hlog]
  exact List.mem_append_left _ (List.mem_cons_of_mem _ List.mem_cons_self)

/-! ## The child's steps -/

/-- What a step of the child does to what the parent can see. -/
structure KidMove (s s' : LaunchSys) : Prop where
  born : s.kid ≠ .unborn
  born' : s'.kid ≠ .unborn
  there : ∀ fate, s.kid ≠ .reaped fate
  there' : ∀ fate, s'.kid ≠ .reaped fate
  told : s.pipe = s.kid.told.toList → s'.pipe = s'.kid.told.toList
  keeps : ∀ err, s.kid.told = some err → s'.kid.told = some err
  silent : s.kid.Silent → s'.kid.Silent ∧ s'.kid.told = none
  pc : s'.pc = s.pc
  parent : s'.parent = s.parent
  io : s'.targetInput = s.targetInput ∧ s'.targetLog = s.targetLog
  logs : s'.logs = s.logs ∧ s'.outputPath = s.outputPath

theorem KidPc.Silent.told {kid : KidPc} (h : kid.Silent) : kid.told = none := by
  rcases h with rfl | ⟨fate, rfl, hfate⟩
  · rfl
  · cases fate with
    | failed err told =>
        cases told with
        | true => exact absurd rfl (hfate err)
        | false => rfl
    | ran => rfl
    | killed => rfl

/-- On its way to its program. -/
def KidPc.busy : KidPc → Bool
  | .unborn | .running | .exit _ _ _ | .zombie _ | .reaped _ => false
  | _ => true

theorem KidPc.busy_told {kid : KidPc} (h : kid.busy = true) : kid.told = none := by
  cases kid <;> first | rfl | cases h

/-- A step on the way tells nothing. -/
theorem KidMove.quiet (hbusy : s.kid.busy = true) {kid : KidPc} {child : FdTable}
    {env : LaunchEnv} (htold : kid.told = none)
    (hkid : kid ≠ .unborn ∧ ∀ fate, kid ≠ .reaped fate) :
    KidMove s { s with kid := kid, child := child, env := env } where
  born h := by
    rw [h] at hbusy
    cases hbusy
  born' := hkid.1
  there fate h := by
    rw [h] at hbusy
    cases hbusy
  there' := hkid.2
  told h := by
    rw [KidPc.busy_told hbusy] at h
    rw [htold]
    exact h
  keeps err h := by
    rw [KidPc.busy_told hbusy] at h
    cases h
  silent h := by
    rcases h with h | ⟨fate, h, -⟩
    · rw [h] at hbusy
      cases hbusy
    · rw [h] at hbusy
      cases hbusy
  pc := rfl
  parent := rfl
  io := ⟨rfl, rfl⟩
  logs := ⟨rfl, rfl⟩

theorem dupStep_move {k : LaunchAnswer} {w target : Nat} {source : Option Nat} {next : KidPc}
    (hbusy : s.kid.busy = true) (hnext : next.told = none)
    (hkid : next ≠ .unborn ∧ ∀ fate, next ≠ .reaped fate) :
    KidMove s (s.dupStep k w source target next) := by
  unfold LaunchSys.dupStep
  split
  · split
    · exact .quiet hbusy hnext hkid
    · exact .quiet hbusy rfl (by simp)
  · exact .quiet hbusy rfl (by simp)

theorem childStep_move {k : LaunchAnswer} (h : s.childStep cfg k = some s') : KidMove s s' := by
  have hbusy : ∀ {kid : KidPc}, s.kid = kid → kid.busy = true → s.kid.busy = true :=
    fun hkid hb => by rw [hkid]; exact hb
  unfold LaunchSys.childStep at h
  cases hkid : s.kid with
  | closeRead r w =>
      simp only [hkid] at h
      obtain rfl := Option.some.inj h
      split
      · exact .quiet (hbusy hkid rfl) rfl (by simp)
      · exact .quiet (hbusy hkid rfl) rfl (by simp)
  | dupStdin w =>
      simp only [hkid] at h
      obtain rfl := Option.some.inj h
      exact dupStep_move (hbusy hkid rfl) rfl (by simp)
  | dupStdout w =>
      simp only [hkid] at h
      obtain rfl := Option.some.inj h
      exact dupStep_move (hbusy hkid rfl) rfl (by simp)
  | dupStderr w =>
      simp only [hkid] at h
      obtain rfl := Option.some.inj h
      exact dupStep_move (hbusy hkid rfl) rfl (by simp)
  | closeInput w =>
      simp only [hkid] at h
      obtain rfl := Option.some.inj h
      exact .quiet (hbusy hkid rfl) rfl (by simp)
  | closeLog w =>
      simp only [hkid] at h
      obtain rfl := Option.some.inj h
      exact .quiet (hbusy hkid rfl) rfl (by simp)
  | setPreload w =>
      simp only [hkid] at h
      obtain rfl := Option.some.inj h
      exact .quiet (hbusy hkid rfl) rfl (by simp)
  | setWait w =>
      simp only [hkid] at h
      obtain rfl := Option.some.inj h
      exact .quiet (hbusy hkid rfl) rfl (by simp)
  | exec w =>
      simp only [hkid] at h
      split at h
      · obtain rfl := Option.some.inj h
        exact .quiet (hbusy hkid rfl) rfl (by simp)
      · obtain rfl := Option.some.inj h
        exact .quiet (hbusy hkid rfl) rfl (by simp)
  | report w err =>
      simp only [hkid] at h
      obtain rfl := Option.some.inj h
      cases hok : k.ok with
      | false => exact .quiet (hbusy hkid rfl) rfl (by simp)
      | true =>
          refine ⟨by simp [hkid], by simp, by simp [hkid], by simp, fun hpipe => ?_, fun e he => ?_,
            fun hs => ?_, rfl, rfl, ⟨rfl, rfl⟩, ⟨rfl, rfl⟩⟩
          · rw [hkid] at hpipe
            simp only [if_true, hpipe]
            rfl
          · rw [hkid] at he
            cases he
          · rw [hkid] at hs
            rcases hs with hs | ⟨fate, hs, -⟩
            · cases hs
            · cases hs
  | exit w err told =>
      simp only [hkid] at h
      obtain rfl := Option.some.inj h
      have htold : KidPc.told (.zombie (.failed err told)) = KidPc.told (.exit w err told) := by
        cases told <;> rfl
      refine ⟨by simp [hkid], by simp, by simp [hkid], by simp, fun hpipe => ?_, fun e he => ?_,
        fun hs => ?_, rfl, rfl, ⟨rfl, rfl⟩, ⟨rfl, rfl⟩⟩
      · rw [hkid] at hpipe
        exact hpipe.trans (by rw [htold])
      · rw [hkid] at he
        exact htold.trans he
      · rw [hkid] at hs
        rcases hs with hs | ⟨fate, hs, -⟩
        · cases hs
        · cases hs
  | unborn => simp [hkid] at h
  | running => simp [hkid] at h
  | zombie fate => simp [hkid] at h
  | reaped fate => simp [hkid] at h

theorem kill_move (cfg : LaunchCfg) (h : s.kill = some s') : KidMove s s' := by
  unfold LaunchSys.kill at h
  cases hkid : s.kid with
  | unborn => simp [hkid] at h
  | zombie fate => simp [hkid] at h
  | reaped fate => simp [hkid] at h
  | running =>
      simp only [hkid] at h
      obtain rfl := Option.some.inj h
      refine ⟨by simp [hkid], by simp, by simp [hkid], by simp, fun hpipe => ?_, fun e he => ?_,
        fun _ => ⟨.inr ⟨.ran, rfl, by simp⟩, rfl⟩, rfl, rfl, ⟨rfl, rfl⟩, ⟨rfl, rfl⟩⟩
      · rw [hkid] at hpipe
        exact hpipe
      · rw [hkid] at he
        cases he
  | exit w err told =>
      simp only [hkid] at h
      obtain rfl := Option.some.inj h
      have hexit : s.childStep cfg ⟨true, 0, 0, 0⟩ = some
          { s with child := FdTable.empty, kid := .zombie (.failed err told) } := by
        simp only [LaunchSys.childStep, hkid]
      exact childStep_move hexit
  | _ =>
      simp only [hkid] at h
      obtain rfl := Option.some.inj h
      exact .quiet (by rw [hkid]; rfl) rfl (by simp)

theorem LaunchSys.Ready.of_eq (h : s.Ready cfg) (hlog : s'.targetLog = s.targetLog)
    (hinput : s'.targetInput = s.targetInput) (hpath : s'.outputPath = s.outputPath)
    (hlogs : s'.logs = s.logs) : s'.Ready cfg where
  log := by rw [hlog]; exact h.log
  input := by rw [hinput]; exact h.input
  path := by rw [hpath]; exact h.path
  only := by
    rw [hpath]
    unfold LaunchSys.OnlyLog
    rw [hlogs]
    exact h.only

/-- What the parent has stands while the child moves. -/
theorem LaunchPc.Holds.move (h : s.pc.Holds cfg table answered s) (hmove : KidMove s s') :
    s'.pc.Holds cfg table answered s' := by
  obtain ⟨hborn, hborn', hthere, hthere', htold, hkeeps, hsilent, hpc, hparent, ⟨hinput, hlog⟩,
    ⟨hlogs, hpath⟩⟩ := hmove
  have hready : s.Ready cfg → s'.Ready cfg := fun hr => hr.of_eq hlog hinput hpath hlogs
  have hforked : s.Forked → s'.Forked := fun hf => ⟨hborn', hthere', htold hf.2.2⟩
  rw [hpc]
  cases hat : s.pc with
  | check =>
      rw [hat] at h
      exact absurd h.2.1.1 hborn
  | mkstemp =>
      rw [hat] at h
      exact absurd h.2.2.1.1 hborn
  | openNull =>
      rw [hat] at h
      exact absurd h.2.2.2.1.1 hborn
  | pipe =>
      rw [hat] at h
      exact absurd h.2.1.1 hborn
  | cloexecRead r w =>
      rw [hat] at h
      exact absurd h.2.1.1 hborn
  | cloexecWrite r w =>
      rw [hat] at h
      exact absurd h.2.1.1 hborn
  | fork r w =>
      rw [hat] at h
      exact absurd h.2.1.1 hborn
  | closeWrite r w =>
      rw [hat] at h
      refine ⟨hready h.1, hforked h.2.1, ?_⟩
      rw [hparent, hinput, hlog]
      exact h.2.2
  | closeInput r =>
      rw [hat] at h
      refine ⟨hready h.1, hforked h.2.1, ?_⟩
      rw [hparent, hinput, hlog]
      exact h.2.2
  | closeLog r =>
      rw [hat] at h
      refine ⟨hready h.1, hforked h.2.1, ?_⟩
      rw [hparent, hlog]
      exact h.2.2
  | rename r =>
      rw [hat] at h
      refine ⟨hready h.1, hforked h.2.1, ?_⟩
      rw [hparent]
      exact h.2.2
  | read r =>
      rw [hat] at h
      refine ⟨hready h.1, hforked h.2.1, ?_⟩
      rw [hparent]
      exact h.2.2
  | closeRead r got =>
      rw [hat] at h
      obtain ⟨hr, -, hgot, hs, hover⟩ := h
      refine ⟨hready hr, hthere', fun err herr => hkeeps err (hgot err herr),
        fun ha hnone => (hsilent (hs ha hnone)).1, ?_⟩
      rw [hparent]
      exact hover
  | waitpid err =>
      rw [hat] at h
      exact ⟨hready h.1, hthere', hkeeps err h.2.2.1, hparent.trans h.2.2.2⟩
  | unlink err =>
      rw [hat] at h
      obtain ⟨hr, hgot, hreaped, htable⟩ := h
      exact ⟨hready hr, hkeeps err hgot, fun ha => absurd (hreaped ha) (hthere _),
        hparent.trans htable⟩
  | undo ops out =>
      rw [hat] at h
      exact absurd h.1.1 hborn
  | returned out =>
      rw [hat] at h
      obtain ⟨htable, hout⟩ := h
      refine ⟨hparent.trans htable, ?_⟩
      unfold LaunchSys.OnlyLog at hout ⊢
      rw [hlogs]
      split
      · rename_i hstatus
        rw [hstatus] at hout
        exact ⟨hout.1, fun ha => (hsilent (hout.2.1 ha)).1, hout.2.2⟩
      · rename_i hstatus
        rw [hstatus] at hout
        exact ⟨hkeeps _ hout.1, hout.2.1, fun ha => absurd (hout.2.2 ha).1 (hthere _)⟩
      · rename_i hnok hnexec
        split at hout
        · exact absurd ‹_› hnok
        · exact absurd ‹_› hnexec
        · exact absurd hout.1 hborn

/-- The write end keeps a child's table able to write. -/
theorem writes_of_over {base t : FdTable} {w : Nat} {l : List (Nat × FdEntry)}
    (h : FdTable.Over cfg.limit base t ((w, ⟨.pipeWrite, true⟩) :: l)) :
    t.writes cfg.limit = true := by
  have hw := h.has _ List.mem_cons_self
  simp only [FdTable.writes, List.any_eq_true, List.mem_range]
  refine ⟨w, (h.fresh _ List.mem_cons_self).2, ?_⟩
  rw [hw]
  rfl

theorem exec_of_over {base t : FdTable} {w : Nat}
    (h : FdTable.Over cfg.limit base t [(w, ⟨.pipeWrite, true⟩)]) : t.exec = base.exec := by
  funext fd
  by_cases hfd : fd = w
  · subst hfd
    have ht := h.has _ List.mem_cons_self
    have hbase := (h.fresh _ List.mem_cons_self).1
    simp only [FdTable.exec] at *
    rw [ht, hbase]
    rfl
  · have hrest := h.rest fd (by simpa using hfd)
    simp only [FdTable.exec, hrest]

theorem dupStep_kid {base : FdTable} {k : LaunchAnswer} {w fd target : Nat} {e : FdEntry}
    {next : KidPc} {source : Option Nat} (hsource : source = some fd)
    (hmem : (fd, e) ∈ ioFds s.targetInput s.targetLog) (htarget : base target ≠ none)
    (hover : FdTable.Over cfg.limit base s.child
      ((w, ⟨.pipeWrite, true⟩) :: ioFds s.targetInput s.targetLog))
    (hnext : ∀ child, FdTable.Over cfg.limit
      (Function.update base target (some { e with cloexec := false })) child
      ((w, ⟨.pipeWrite, true⟩) :: ioFds s.targetInput s.targetLog) →
      next.Holds cfg table answered s.targetInput s.targetLog child s.env) :
    (s.dupStep k w source target next).kid.Holds cfg table answered
      (s.dupStep k w source target next).targetInput (s.dupStep k w source target next).targetLog
      (s.dupStep k w source target next).child (s.dupStep k w source target next).env := by
  rw [hsource]
  unfold LaunchSys.dupStep
  cases k.ok with
  | true => exact hnext _ (hover.dup2 htarget (List.mem_cons_of_mem _ hmem))
  | false => exact writes_of_over hover

theorem childStep_kid (hstart : LaunchTable table)
    (h : s.kid.Holds cfg table answered s.targetInput s.targetLog s.child s.env) {k : LaunchAnswer}
    (hanswered : answered → s.Answered (.child k)) (hstep : s.childStep cfg k = some s') :
    s'.kid.Holds cfg table answered s'.targetInput s'.targetLog s'.child s'.env := by
  unfold LaunchSys.childStep at hstep
  cases hkid : s.kid with
  | closeRead r w =>
      rw [hkid] at h
      simp only [hkid] at hstep
      obtain ⟨hinput, hlog, henv, hover⟩ := h
      obtain rfl := Option.some.inj hstep
      cases hiso : cfg.isolate with
      | true =>
          rw [hiso] at hinput hlog
          exact ⟨hiso, hinput, hlog, henv, hover.close⟩
      | false =>
          rw [hiso] at hinput hlog
          have hclosed := hover.close
          rw [Option.isSome_eq_false_iff.mp hinput |> Option.isNone_iff_eq_none.mp,
            Option.isSome_eq_false_iff.mp hlog |> Option.isNone_iff_eq_none.mp] at hclosed
          refine ⟨henv, ?_⟩
          rw [LaunchCfg.stdio, hiso]
          exact hclosed
  | dupStdin w =>
      rw [hkid] at h
      simp only [hkid] at hstep
      obtain ⟨hiso, hinput, hlog, henv, hover⟩ := h
      obtain rfl := Option.some.inj hstep
      obtain ⟨fd, hfd⟩ := Option.isSome_iff_exists.mp hinput
      refine dupStep_kid (e := ⟨.null, false⟩) hfd ?_ (hstart.stdio 0 (by decide)) hover
        fun child hchild => ⟨hiso, hlog, henv, hchild⟩
      simp [ioFds, hfd]
  | dupStdout w =>
      rw [hkid] at h
      simp only [hkid] at hstep
      obtain ⟨hiso, hlog, henv, hover⟩ := h
      obtain rfl := Option.some.inj hstep
      obtain ⟨fd, hfd⟩ := Option.isSome_iff_exists.mp hlog
      refine dupStep_kid (e := ⟨.log, false⟩) hfd ?_ ?_ hover
        fun child hchild => ⟨hiso, hlog, henv, hchild⟩
      · simp [ioFds, logFds, hfd]
      · exact hstart.stdio 1 (by decide)
  | dupStderr w =>
      rw [hkid] at h
      simp only [hkid] at hstep
      obtain ⟨hiso, hlog, henv, hover⟩ := h
      obtain rfl := Option.some.inj hstep
      obtain ⟨fd, hfd⟩ := Option.isSome_iff_exists.mp hlog
      refine dupStep_kid (e := ⟨.log, false⟩) hfd ?_ ?_ hover fun child hchild => ⟨henv, ?_⟩
      · simp [ioFds, logFds, hfd]
      · exact hstart.stdio 2 (by decide)
      · rw [LaunchCfg.stdio, hiso]
        exact hchild
  | closeInput w =>
      rw [hkid] at h
      simp only [hkid] at hstep
      obtain rfl := Option.some.inj hstep
      exact ⟨h.1, h.2.closeInput⟩
  | closeLog w =>
      rw [hkid] at h
      simp only [hkid] at hstep
      obtain rfl := Option.some.inj hstep
      exact ⟨h.1, h.2.closeLog⟩
  | setPreload w =>
      rw [hkid] at h
      simp only [hkid] at hstep
      simp only [LaunchSys.Answered, hkid] at hanswered
      obtain rfl := Option.some.inj hstep
      refine ⟨fun ha => ?_, h.2⟩
      simp only [hanswered ha, if_true, h.1]
  | setWait w =>
      rw [hkid] at h
      simp only [hkid] at hstep
      simp only [LaunchSys.Answered, hkid] at hanswered
      obtain rfl := Option.some.inj hstep
      refine ⟨fun ha => ?_, h.2⟩
      simp only [hanswered ha, and_true, h.1 ha, LaunchCfg.childEnv]
      split_ifs
      · rfl
      · rfl
  | exec w =>
      rw [hkid] at h
      simp only [hkid] at hstep
      split at hstep
      · obtain rfl := Option.some.inj hstep
        exact ⟨exec_of_over h.2, h.1⟩
      · obtain rfl := Option.some.inj hstep
        exact writes_of_over h.2
  | report w err =>
      rw [hkid] at h
      simp only [hkid] at hstep
      obtain rfl := Option.some.inj hstep
      exact h
  | exit w err told =>
      simp only [hkid] at hstep
      obtain rfl := Option.some.inj hstep
      exact rfl
  | unborn => simp [hkid] at hstep
  | running => simp [hkid] at hstep
  | zombie fate => simp [hkid] at hstep
  | reaped fate => simp [hkid] at hstep

theorem kill_kid (hstep : s.kill = some s') :
    s'.kid.Holds cfg table answered s'.targetInput s'.targetLog s'.child s'.env := by
  unfold LaunchSys.kill at hstep
  split at hstep
  · cases hstep
  · cases hstep
  · cases hstep
  · obtain rfl := Option.some.inj hstep
    exact rfl
  · obtain rfl := Option.some.inj hstep
    exact rfl
  · obtain rfl := Option.some.inj hstep
    exact rfl

/-! ## The parent's steps -/

/-- What the parent has before it. -/
def LaunchPc.left : LaunchPc → Nat
  | .check => 16
  | .mkstemp => 15
  | .openNull => 14
  | .pipe => 13
  | .cloexecRead _ _ => 12
  | .cloexecWrite _ _ => 11
  | .fork _ _ => 10
  | .closeWrite _ _ => 9
  | .closeInput _ => 8
  | .closeLog _ => 7
  | .rename _ => 6
  | .read _ => 5
  | .closeRead _ _ => 4
  | .waitpid _ => 3
  | .unlink _ => 2
  | .undo ops _ => 1 + ops.length
  | .returned _ => 0

/-- What the child has before it. -/
def KidPc.left : KidPc → Nat
  | .unborn => 13
  | .closeRead _ _ => 12
  | .dupStdin _ => 11
  | .dupStdout _ => 10
  | .dupStderr _ => 9
  | .closeInput _ => 8
  | .closeLog _ => 7
  | .setPreload _ => 6
  | .setWait _ => 5
  | .exec _ => 4
  | .report _ _ => 3
  | .exit _ _ _ => 2
  | .running => 1
  | .zombie _ | .reaped _ => 0

theorem undoIo_length : s.undoIo.length ≤ 3 := by
  unfold LaunchSys.undoIo
  cases s.targetLog <;> cases s.targetInput <;> simp

theorem free_iff {fd : Nat} : s.free cfg fd = true ↔ s.parent fd = none ∧ fd < cfg.limit := by
  unfold LaunchSys.free
  exact decide_eq_true_iff

/-- A pipe nobody can write: the program runs, or the child is gone. -/
theorem silent_of_writers (hborn : s.kid ≠ .unborn)
    (hkid : s.kid.Holds cfg table answered s.targetInput s.targetLog s.child s.env)
    (hwriters : s.writers cfg = false) (htold : s.kid.told = none)
    (hthere : ∀ fate, s.kid ≠ .reaped fate) : s.kid.Silent := by
  have hchild : s.child.writes cfg.limit ≠ true := by
    unfold LaunchSys.writers at hwriters
    exact Bool.eq_false_iff.mp (Bool.or_eq_false_iff.mp hwriters).2
  cases hat : s.kid with
  | running => exact .inl rfl
  | zombie fate =>
      refine .inr ⟨fate, rfl, ?_⟩
      rintro err rfl
      rw [hat] at htold
      cases htold
  | unborn => exact absurd hat hborn
  | reaped fate => exact absurd hat (hthere fate)
  | closeRead r w =>
      rw [hat] at hkid
      exact absurd (writes_of_over (hkid.2.2.2.perm (.swap _ _ _))) hchild
  | dupStdin w =>
      rw [hat] at hkid
      exact absurd (writes_of_over hkid.2.2.2.2) hchild
  | dupStdout w =>
      rw [hat] at hkid
      exact absurd (writes_of_over hkid.2.2.2) hchild
  | dupStderr w =>
      rw [hat] at hkid
      exact absurd (writes_of_over hkid.2.2.2) hchild
  | closeInput w =>
      rw [hat] at hkid
      exact absurd (writes_of_over hkid.2) hchild
  | closeLog w =>
      rw [hat] at hkid
      exact absurd (writes_of_over hkid.2) hchild
  | setPreload w =>
      rw [hat] at hkid
      exact absurd (writes_of_over hkid.2) hchild
  | setWait w =>
      rw [hat] at hkid
      exact absurd (writes_of_over hkid.2) hchild
  | exec w =>
      rw [hat] at hkid
      exact absurd (writes_of_over hkid.2) hchild
  | report w err =>
      rw [hat] at hkid
      exact absurd hkid hchild
  | exit w err told =>
      rw [hat] at hkid
      exact absurd hkid hchild

/-- The clean-up that is left to do covers what is open. -/
theorem undo_holds {l : List (Nat × FdEntry)} {ops : List LaunchOp} {out : Launch}
    (hunforked : s.Unforked) (hstatus : out.status = .ioFailed ∨ out.status = .forkFailed)
    (hover : FdTable.Over cfg.limit table s.parent l)
    (hops : ∀ fd, .close fd ∈ ops ↔ fd ∈ l.map Prod.fst)
    (hlogs : ∀ n, s.logs n = true → n = .template ∧ .unlink ∈ ops) :
    (LaunchPc.undo ops out).Holds cfg table answered s := by
  refine ⟨hunforked, hstatus, fun fd hfd => ?_, fun fd hfd => ?_, fun _ => hlogs⟩
  · obtain ⟨p, hp, rfl⟩ := List.mem_map.mp ((hops fd).mp hfd)
    exact (hover.fresh p hp).1
  · exact hover.rest fd fun hmem => hfd ((hops fd).mpr hmem)

theorem LaunchSys.Ready.logs (h : s.Ready cfg) (honly : ∀ n, s.logs n = true → n = .template) :
    ∀ n, s.logs n = true → n = .template ∧ .unlink ∈ s.undoIo := by
  intro n hn
  refine ⟨honly n hn, unlink_mem_undoIo ?_⟩
  rw [h.log, ← h.path, (h.only n).mp hn]
  rfl

/-- A step of the parent keeps what holds, and is one step less to do. -/
structure ParentMove (cfg : LaunchCfg) (table : FdTable) (answered : Prop) (s s' : LaunchSys) :
    Prop where
  inv : LaunchInv cfg table answered s'
  pc : s'.pc.left < s.pc.left
  kid : s'.kid.left ≤ s.kid.left

/-- Most steps leave the child's side alone. -/
theorem ParentMove.same (h : LaunchInv cfg table answered s) (hleft : s'.pc.left < s.pc.left)
    (hpc : s'.pc.Holds cfg table answered s') (hkid : s'.kid = s.kid) (hchild : s'.child = s.child)
    (henv : s'.env = s.env) (hinput : s'.targetInput = s.targetInput)
    (hlog : s'.targetLog = s.targetLog) : ParentMove cfg table answered s s' := by
  refine ⟨⟨hpc, ?_⟩, hleft, by rw [hkid]⟩
  rw [hkid, hchild, henv, hinput, hlog]
  exact h.kid

/-- Before there is a child, the descriptors of isolation may come. -/
theorem ParentMove.early (h : LaunchInv cfg table answered s) (hleft : s'.pc.left < s.pc.left)
    (hpc : s'.pc.Holds cfg table answered s') (hunborn : s.kid = .unborn) (hkid : s'.kid = s.kid)
    (hchild : s'.child = s.child) (henv : s'.env = s.env) : ParentMove cfg table answered s s' := by
  have hholds := h.kid
  rw [hunborn] at hholds
  refine ⟨⟨hpc, ?_⟩, hleft, by rw [hkid]⟩
  rw [hkid, hunborn, hchild, henv]
  exact hholds

theorem KidFate.told_inj {fate : KidFate} {err : Nat}
    (h : KidPc.told (.zombie fate) = some err) : fate = .failed err true := by
  cases fate with
  | failed e told =>
      cases told with
      | true => rw [Option.some.inj h]
      | false => cases h
  | ran => cases h
  | killed => cases h

theorem check_move (h : LaunchInv cfg table answered s) (hat : s.pc = .check)
    {k : LaunchAnswer} (hstep : s.parentStep cfg k = some s') :
    ParentMove cfg table answered s s' := by
  have hpc := h.pc
  unfold LaunchSys.parentStep at hstep
  rw [hat] at hpc
  simp only [hat] at hstep
  obtain ⟨hparent, hunforked, hlog, hinput, hpath, honly⟩ := hpc
  split at hstep
  · obtain rfl := Option.some.inj hstep
    refine .same h (by simp [hat, LaunchPc.left]) ?_ rfl rfl rfl rfl rfl
    exact ⟨hparent, hunforked.1, fun _ => honly⟩
  · obtain rfl := Option.some.inj hstep
    refine .same h ?_ ?_ rfl rfl rfl rfl rfl
    · rw [hat]
      cases hiso : cfg.isolate with
      | true => simp [LaunchPc.left]
      | false => simp [LaunchPc.left]
    cases hiso : cfg.isolate with
    | true => exact ⟨hiso, hparent, hunforked, hinput, hpath, honly⟩
    | false =>
        refine ⟨⟨?_, ?_, ?_, ?_⟩, hunforked, fun n hn => ?_, ?_⟩
        · rw [hlog, hiso]
          rfl
        · rw [hinput, hiso]
          rfl
        · rw [hpath, hiso]
          rfl
        · rw [hpath]
          exact honly
        · exact absurd ((honly n).mp hn) (by simp)
        · rw [hlog, hinput, hparent]
          exact .nil cfg.limit table

theorem mkstemp_move (h : LaunchInv cfg table answered s) (hat : s.pc = .mkstemp)
    {k : LaunchAnswer} (hstep : s.parentStep cfg k = some s') :
    ParentMove cfg table answered s s' := by
  have hpc := h.pc
  unfold LaunchSys.parentStep at hstep
  rw [hat] at hpc
  simp only [hat] at hstep
  obtain ⟨hiso, hparent, hunforked, hinput, hpath, honly⟩ := hpc
  split at hstep
  · obtain rfl := Option.some.inj hstep
    refine .same h (by simp [hat, LaunchPc.left]) ?_ rfl rfl rfl rfl rfl
    exact ⟨hparent, hunforked.1, fun _ => honly⟩
  · split at hstep
    · rename_i hfree
      obtain ⟨hnone, hlimit⟩ := free_iff.mp hfree
      obtain rfl := Option.some.inj hstep
      refine .early h (by simp [hat, LaunchPc.left]) ?_ hunforked.1 rfl rfl rfl
      refine ⟨hiso, rfl, hinput, hunforked, fun n => ?_, ?_⟩
      · cases n with
        | template => simp [LaunchSys.setLog]
        | named =>
            have hold := honly .named
            simp only [reduceCtorEq, iff_false, Bool.not_eq_true] at hold
            simp [LaunchSys.setLog, hold]
      · rw [hinput, hparent]
        exact (FdTable.Over.nil cfg.limit table).opened (hparent ▸ hnone) hlimit _
    · cases hstep

theorem openNull_move (h : LaunchInv cfg table answered s) (hat : s.pc = .openNull)
    {k : LaunchAnswer} (hstep : s.parentStep cfg k = some s') :
    ParentMove cfg table answered s s' := by
  have hpc := h.pc
  have hundo := undoIo_length (s := s)
  unfold LaunchSys.parentStep at hstep
  rw [hat] at hpc
  simp only [hat] at hstep
  obtain ⟨hiso, hlog, hinput, hunforked, honly, hover⟩ := hpc
  have htemplate : ∀ n, s.logs n = true → n = .template := fun n hn =>
    (Option.some.inj ((honly n).mp hn)).symm
  split at hstep
  · obtain rfl := Option.some.inj hstep
    refine .same h (by simp only [hat, LaunchPc.left]; omega) ?_ rfl rfl rfl rfl rfl
    refine undo_holds (s := { s with pc := _ }) hunforked (.inl rfl) hover
      (fun fd => mem_undoIo) fun n hn => ⟨htemplate n hn, unlink_mem_undoIo hlog⟩
  · split at hstep
    · rename_i hfree
      obtain ⟨hnone, hlimit⟩ := free_iff.mp hfree
      obtain rfl := Option.some.inj hstep
      refine .early h (by simp [hat, LaunchPc.left]) ?_ hunforked.1 rfl rfl rfl
      refine ⟨⟨hlog.trans hiso.symm, hiso.symm, hiso.symm, honly⟩, hunforked, htemplate, ?_⟩
      rw [hinput] at hover
      exact hover.opened hnone hlimit _
    · cases hstep

theorem pipe_move (h : LaunchInv cfg table answered s) (hat : s.pc = .pipe)
    {k : LaunchAnswer} (hstep : s.parentStep cfg k = some s') :
    ParentMove cfg table answered s s' := by
  have hpc := h.pc
  have hundo := undoIo_length (s := s)
  unfold LaunchSys.parentStep at hstep
  rw [hat] at hpc
  simp only [hat] at hstep
  obtain ⟨hready, hunforked, htemplate, hover⟩ := hpc
  split at hstep
  · obtain rfl := Option.some.inj hstep
    refine .same h (by simp only [hat, LaunchPc.left]; omega) ?_ rfl rfl rfl rfl rfl
    exact undo_holds (s := { s with pc := _ }) hunforked (.inr rfl) hover
      (fun fd => mem_undoIo) (hready.logs htemplate)
  · split at hstep
    · rename_i hfree
      obtain ⟨hfree, hfree2, hne⟩ := hfree
      obtain ⟨hnone, hlimit⟩ := free_iff.mp hfree
      obtain ⟨hnone2, hlimit2⟩ := free_iff.mp hfree2
      obtain rfl := Option.some.inj hstep
      refine .same h (by simp [hat, LaunchPc.left]) ?_ rfl rfl rfl rfl rfl
      refine ⟨hready.of_eq rfl rfl rfl rfl, hunforked, htemplate, ?_⟩
      have hread := hover.opened hnone hlimit ⟨.pipeRead, false⟩
      refine (hread.opened ?_ hlimit2 ⟨.pipeWrite, false⟩).perm (.swap _ _ _)
      exact (Function.update_of_ne hne.symm _ _).trans hnone2
    · cases hstep

theorem cloexecRead_move (h : LaunchInv cfg table answered s) {r w : Nat}
    (hat : s.pc = .cloexecRead r w)
    {k : LaunchAnswer} (hstep : s.parentStep cfg k = some s') :
    ParentMove cfg table answered s s' := by
  have hpc := h.pc
  unfold LaunchSys.parentStep at hstep
  rw [hat] at hpc
  simp only [hat] at hstep
  obtain ⟨hready, hunforked, htemplate, hover⟩ := hpc
  obtain rfl := Option.some.inj hstep
  refine .same h (by simp [hat, LaunchPc.left]) ?_ rfl rfl rfl rfl rfl
  exact ⟨hready.of_eq rfl rfl rfl rfl, hunforked, htemplate,
    hover.setCloexec⟩

theorem cloexecWrite_move (h : LaunchInv cfg table answered s) {r w : Nat}
    (hat : s.pc = .cloexecWrite r w)
    {k : LaunchAnswer} (hstep : s.parentStep cfg k = some s') :
    ParentMove cfg table answered s s' := by
  have hpc := h.pc
  unfold LaunchSys.parentStep at hstep
  rw [hat] at hpc
  simp only [hat] at hstep
  obtain ⟨hready, hunforked, htemplate, hover⟩ := hpc
  obtain rfl := Option.some.inj hstep
  refine .same h (by simp [hat, LaunchPc.left]) ?_ rfl rfl rfl rfl rfl
  exact ⟨hready.of_eq rfl rfl rfl rfl, hunforked, htemplate,
    ((hover.perm (.swap _ _ _)).setCloexec).perm (.swap _ _ _)⟩

theorem fork_move (h : LaunchInv cfg table answered s) {r w : Nat}
    (hat : s.pc = .fork r w)
    {k : LaunchAnswer} (hstep : s.parentStep cfg k = some s') :
    ParentMove cfg table answered s s' := by
  have hpc := h.pc
  have hkid := h.kid
  have hundo := undoIo_length (s := s)
  unfold LaunchSys.parentStep at hstep
  rw [hat] at hpc
  simp only [hat] at hstep
  obtain ⟨hready, hunforked, htemplate, hover⟩ := hpc
  split at hstep
  · obtain rfl := Option.some.inj hstep
    refine .same h ?_ ?_ rfl rfl rfl rfl rfl
    · simp only [hat, LaunchPc.left, List.length_cons]
      omega
    refine undo_holds (s := { s with pc := _ }) hunforked (.inr rfl) hover
      (fun fd => ?_) fun n hn => ?_
    · simp only [List.mem_cons, LaunchOp.close.injEq, List.map_cons, mem_undoIo]
    · obtain ⟨htmpl, hmem⟩ := hready.logs htemplate n hn
      exact ⟨htmpl, List.mem_cons_of_mem _ (List.mem_cons_of_mem _ hmem)⟩
  · obtain rfl := Option.some.inj hstep
    rw [hunforked.1] at hkid
    refine ⟨⟨⟨hready.of_eq rfl rfl rfl rfl, ⟨?_, ?_, hunforked.2⟩, hover⟩, ?_⟩, ?_, ?_⟩
    · simp
    · simp
    · exact ⟨hready.input, hready.log, hkid.2, hover⟩
    · simp [hat, LaunchPc.left]
    · simp [hunforked.1, KidPc.left]

theorem closeWrite_move (h : LaunchInv cfg table answered s) {r w : Nat}
    (hat : s.pc = .closeWrite r w)
    {k : LaunchAnswer} (hstep : s.parentStep cfg k = some s') :
    ParentMove cfg table answered s s' := by
  have hpc := h.pc
  unfold LaunchSys.parentStep at hstep
  rw [hat] at hpc
  simp only [hat] at hstep
  obtain ⟨hready, hforked, hover⟩ := hpc
  obtain rfl := Option.some.inj hstep
  refine .same h (by simp [hat, LaunchPc.left]) ?_ rfl rfl rfl rfl rfl
  exact ⟨hready.of_eq rfl rfl rfl rfl, hforked,
    (hover.perm (.swap _ _ _)).close⟩

theorem closeInput_move (h : LaunchInv cfg table answered s) {r : Nat} (hat : s.pc = .closeInput r)
    {k : LaunchAnswer} (hstep : s.parentStep cfg k = some s') :
    ParentMove cfg table answered s s' := by
  have hpc := h.pc
  unfold LaunchSys.parentStep at hstep
  rw [hat] at hpc
  simp only [hat] at hstep
  obtain ⟨hready, hforked, hover⟩ := hpc
  obtain rfl := Option.some.inj hstep
  refine .same h (by simp [hat, LaunchPc.left]) ?_ rfl rfl rfl rfl rfl
  exact ⟨hready.of_eq rfl rfl rfl rfl, hforked, hover.closeInput⟩

theorem closeLog_move (h : LaunchInv cfg table answered s) {r : Nat} (hat : s.pc = .closeLog r)
    {k : LaunchAnswer} (hstep : s.parentStep cfg k = some s') :
    ParentMove cfg table answered s s' := by
  have hpc := h.pc
  unfold LaunchSys.parentStep at hstep
  rw [hat] at hpc
  simp only [hat] at hstep
  obtain ⟨hready, hforked, hover⟩ := hpc
  obtain rfl := Option.some.inj hstep
  refine .same h (by simp [hat, LaunchPc.left]) ?_ rfl rfl rfl rfl rfl
  exact ⟨hready.of_eq rfl rfl rfl rfl, hforked, hover.closeLog⟩

theorem rename_move (h : LaunchInv cfg table answered s) {r : Nat} (hat : s.pc = .rename r)
    {k : LaunchAnswer} (hstep : s.parentStep cfg k = some s') :
    ParentMove cfg table answered s s' := by
  have hpc := h.pc
  unfold LaunchSys.parentStep at hstep
  rw [hat] at hpc
  simp only [hat] at hstep
  obtain ⟨hready, hforked, hover⟩ := hpc
  split at hstep
  · rename_i hrenamed
    obtain rfl := Option.some.inj hstep
    refine .same h (by simp [hat, LaunchPc.left]) ?_ rfl rfl rfl rfl rfl
    refine ⟨⟨hready.log, hready.input, hrenamed.1.symm, fun n => ?_⟩, hforked, hover⟩
    cases n with
    | template => simp [LaunchSys.setLog]
    | named => simp
  · obtain rfl := Option.some.inj hstep
    refine .same h (by simp [hat, LaunchPc.left]) ?_ rfl rfl rfl rfl rfl
    exact ⟨hready.of_eq rfl rfl rfl rfl, hforked, hover⟩

theorem read_move (h : LaunchInv cfg table answered s) {r : Nat} (hat : s.pc = .read r)
    {k : LaunchAnswer} (hanswered : answered → s.Answered (.parent k))
    (hstep : s.parentStep cfg k = some s') : ParentMove cfg table answered s s' := by
  have hpc := h.pc
  unfold LaunchSys.parentStep at hstep
  rw [hat] at hpc
  simp only [hat] at hstep
  simp only [LaunchSys.Answered, hat] at hanswered
  obtain ⟨hready, ⟨hborn, hthere, htold⟩, hover⟩ := hpc
  split at hstep
  · -- a failed read is taken for the end of the pipe
    rename_i hfailed
    obtain rfl := Option.some.inj hstep
    refine .same h (by simp [hat, LaunchPc.left]) ?_ rfl rfl rfl rfl rfl
    refine ⟨hready.of_eq rfl rfl rfl rfl, hthere, fun err herr => (nomatch herr),
      fun ha => ?_, hover⟩
    rw [hanswered ha] at hfailed
    cases hfailed
  · split at hstep
    · rename_i err rest hpipe
      obtain rfl := Option.some.inj hstep
      refine .same h (by simp [hat, LaunchPc.left]) ?_ rfl rfl rfl rfl rfl
      rw [hpipe] at htold
      have hsome : s.kid.told = some err := by
        cases hk : s.kid.told with
        | none =>
            rw [hk] at htold
            cases htold
        | some e =>
            rw [hk] at htold
            rw [(List.cons.inj htold).1]
      refine ⟨hready.of_eq rfl rfl rfl rfl, hthere, fun e he => ?_,
        fun _ hnone => (nomatch hnone), hover⟩
      rw [← Option.some.inj he]
      exact hsome
    · rename_i hpipe
      split at hstep
      · cases hstep
      · rename_i hwriters
        obtain rfl := Option.some.inj hstep
        refine .same h (by simp [hat, LaunchPc.left]) ?_ rfl rfl rfl rfl rfl
        rw [hpipe] at htold
        have hnone : s.kid.told = none := Option.toList_eq_nil_iff.mp htold.symm
        exact ⟨hready.of_eq rfl rfl rfl rfl, hthere, fun err herr => (nomatch herr),
          fun _ _ => silent_of_writers hborn h.kid (Bool.eq_false_iff.mpr hwriters) hnone hthere,
          hover⟩

theorem closeRead_move (h : LaunchInv cfg table answered s) {r : Nat} {got : Option Nat}
    (hat : s.pc = .closeRead r got)
    {k : LaunchAnswer} (hstep : s.parentStep cfg k = some s') :
    ParentMove cfg table answered s s' := by
  have hpc := h.pc
  unfold LaunchSys.parentStep at hstep
  rw [hat] at hpc
  simp only [hat] at hstep
  obtain ⟨hready, hthere, hgot, hsilent, hover⟩ := hpc
  obtain rfl := Option.some.inj hstep
  refine .same h (by cases got <;> simp [hat, LaunchPc.left]) ?_ rfl rfl rfl rfl rfl
  cases got with
  | some err =>
      exact ⟨hready.of_eq rfl rfl rfl rfl, hthere, hgot err rfl, hover.close.eq_base⟩
  | none =>
      exact ⟨hover.close.eq_base, rfl, fun ha => hsilent ha rfl, hready.path, hready.only⟩

theorem waitpid_move (h : LaunchInv cfg table answered s) {err : Nat} (hat : s.pc = .waitpid err)
    {k : LaunchAnswer} (hanswered : answered → s.Answered (.parent k))
    (hstep : s.parentStep cfg k = some s') : ParentMove cfg table answered s s' := by
  have hpc := h.pc
  have hkid := h.kid
  unfold LaunchSys.parentStep at hstep
  rw [hat] at hpc
  simp only [hat] at hstep
  simp only [LaunchSys.Answered, hat] at hanswered
  obtain ⟨hready, -, htold, hparent⟩ := hpc
  split at hstep
  · rename_i hfailed
    obtain rfl := Option.some.inj hstep
    refine .same h (by simp [hat, LaunchPc.left]) ?_ rfl rfl rfl rfl rfl
    refine ⟨hready.of_eq rfl rfl rfl rfl, htold, fun ha => ?_, hparent⟩
    rw [hanswered ha] at hfailed
    cases hfailed
  · split at hstep
    · rename_i fate hzombie
      obtain rfl := Option.some.inj hstep
      rw [hzombie] at htold hkid
      obtain rfl := KidFate.told_inj htold
      refine ⟨⟨⟨hready.of_eq rfl rfl rfl rfl, rfl, fun _ => rfl, hparent⟩, hkid⟩, ?_, ?_⟩
      · simp [hat, LaunchPc.left]
      · simp [hzombie, KidPc.left]
    · cases hstep

theorem unlink_move (h : LaunchInv cfg table answered s) {err : Nat} (hat : s.pc = .unlink err)
    {k : LaunchAnswer} (hanswered : answered → s.Answered (.parent k))
    (hstep : s.parentStep cfg k = some s') : ParentMove cfg table answered s s' := by
  have hpc := h.pc
  unfold LaunchSys.parentStep at hstep
  rw [hat] at hpc
  simp only [hat] at hstep
  simp only [LaunchSys.Answered, hat] at hanswered
  obtain ⟨hready, htold, hkid, hparent⟩ := hpc
  obtain rfl := Option.some.inj hstep
  refine .same h (by simp [hat, LaunchPc.left]) ?_ rfl rfl rfl rfl rfl
  refine ⟨hparent, htold, rfl, fun ha => ⟨hkid ha, fun m => ?_⟩⟩
  have hm := hready.only m
  cases hpath : s.outputPath with
  | none =>
      rw [hpath] at hm
      exact hm
  | some n =>
      rw [hpath] at hm
      simp only [LaunchSys.unlinkLog, hanswered ha, if_true]
      by_cases hmn : m = n
      · subst hmn
        simp [LaunchSys.setLog]
      · simp only [LaunchSys.setLog, Function.update_of_ne hmn]
        rw [hm]
        simpa using Ne.symm hmn

theorem undo_move (h : LaunchInv cfg table answered s) {ops : List LaunchOp} {out : Launch}
    (hat : s.pc = .undo ops out)
    {k : LaunchAnswer} (hanswered : answered → s.Answered (.parent k))
    (hstep : s.parentStep cfg k = some s') : ParentMove cfg table answered s s' := by
  have hpc := h.pc
  unfold LaunchSys.parentStep at hstep
  rw [hat] at hpc
  obtain ⟨hunforked, hstatus, hfree, hrest, hlogs⟩ := hpc
  cases ops with
  | nil =>
      simp only [hat] at hstep
      obtain rfl := Option.some.inj hstep
      refine .same h (by simp [hat, LaunchPc.left]) ?_ rfl rfl rfl rfl rfl
      have hnone : answered → s.OnlyLog none := by
        intro ha n
        refine ⟨fun hn => absurd (hlogs ha n hn).2 List.not_mem_nil, fun hn => nomatch hn⟩
      refine ⟨funext fun fd => hrest fd List.not_mem_nil, ?_⟩
      rcases hstatus with hst | hst
      · rw [hst]
        exact ⟨hunforked.1, hnone⟩
      · rw [hst]
        exact ⟨hunforked.1, hnone⟩
  | cons op ops =>
      cases op with
      | close fd =>
          simp only [hat] at hstep
          obtain rfl := Option.some.inj hstep
          refine .same h (by simp [hat, LaunchPc.left]) ?_ rfl rfl rfl rfl rfl
          refine ⟨hunforked, hstatus, fun x hx => hfree x (List.mem_cons_of_mem _ hx),
            fun x hx => ?_, fun ha n hn => ?_⟩
          · by_cases hxfd : x = fd
            · subst hxfd
              exact (Function.update_self ..).trans (hfree x List.mem_cons_self).symm
            · refine (Function.update_of_ne hxfd _ _).trans (hrest x fun hmem => ?_)
              rcases List.mem_cons.mp hmem with heq | hmem
              · exact hxfd (LaunchOp.close.inj heq)
              · exact hx hmem
          · obtain ⟨htmpl, hmem⟩ := hlogs ha n hn
            exact ⟨htmpl, (List.mem_cons.mp hmem).resolve_left (by simp)⟩
      | unlink =>
          simp only [hat] at hstep
          simp only [LaunchSys.Answered, hat] at hanswered
          obtain rfl := Option.some.inj hstep
          refine .same h (by simp [hat, LaunchPc.left]) ?_ rfl rfl rfl rfl rfl
          refine ⟨hunforked, hstatus, fun x hx => hfree x (List.mem_cons_of_mem _ hx),
            fun x hx => hrest x fun hmem => ?_, fun ha n hn => ?_⟩
          · exact hx ((List.mem_cons.mp hmem).resolve_left (by simp))
          · simp only [LaunchSys.unlinkLog, hanswered ha, if_true] at hn
            cases n with
            | template => simp [LaunchSys.setLog] at hn
            | named =>
                simp only [LaunchSys.setLog, ne_eq, reduceCtorEq, not_false_eq_true,
                  Function.update_of_ne] at hn
                exact absurd (hlogs ha .named hn).1 (by simp)

/-- One case for each place of the parent. -/
theorem parentStep_move (h : LaunchInv cfg table answered s) {k : LaunchAnswer}
    (hanswered : answered → s.Answered (.parent k)) (hstep : s.parentStep cfg k = some s') :
    ParentMove cfg table answered s s' := by
  cases hat : s.pc with
  | check => exact check_move h hat hstep
  | mkstemp => exact mkstemp_move h hat hstep
  | openNull => exact openNull_move h hat hstep
  | pipe => exact pipe_move h hat hstep
  | cloexecRead r w => exact cloexecRead_move h hat hstep
  | cloexecWrite r w => exact cloexecWrite_move h hat hstep
  | fork r w => exact fork_move h hat hstep
  | closeWrite r w => exact closeWrite_move h hat hstep
  | closeInput r => exact closeInput_move h hat hstep
  | closeLog r => exact closeLog_move h hat hstep
  | rename r => exact rename_move h hat hstep
  | read r => exact read_move h hat hanswered hstep
  | closeRead r got => exact closeRead_move h hat hstep
  | waitpid err => exact waitpid_move h hat hanswered hstep
  | unlink err => exact unlink_move h hat hanswered hstep
  | undo ops out => exact undo_move h hat hanswered hstep
  | returned out => simp [LaunchSys.parentStep, hat] at hstep

theorem LaunchInv.init : LaunchInv cfg table answered (LaunchSys.init cfg table) where
  pc := ⟨rfl, ⟨rfl, rfl⟩, rfl, rfl, rfl, fun _ => ⟨fun h => (nomatch h), fun h => (nomatch h)⟩⟩
  kid := ⟨rfl, rfl⟩

theorem LaunchInv.step (hstart : LaunchTable table) (h : LaunchInv cfg table answered s)
    {a : LaunchAct} (hanswered : answered → s.Answered a) (hstep : s.step cfg a = some s') :
    LaunchInv cfg table answered s' := by
  cases a with
  | parent k => exact (parentStep_move h hanswered hstep).inv
  | child k =>
      exact ⟨h.pc.move (childStep_move hstep), childStep_kid hstart h.kid hanswered hstep⟩
  | kill => exact ⟨h.pc.move (kill_move cfg hstep), kill_kid hstep⟩

/-! ## Runs -/

theorem dupStep_left {k : LaunchAnswer} {w target : Nat} {source : Option Nat} {next : KidPc}
    {n : Nat} (hnext : next.left < n) (hn : 3 < n) :
    (s.dupStep k w source target next).kid.left < n := by
  unfold LaunchSys.dupStep
  split
  · split
    · exact hnext
    · exact hn
  · exact hn

theorem childStep_left {k : LaunchAnswer} (h : s.childStep cfg k = some s') :
    s'.kid.left < s.kid.left := by
  unfold LaunchSys.childStep at h
  cases hkid : s.kid with
  | closeRead r w =>
      simp only [hkid] at h
      obtain rfl := Option.some.inj h
      cases hiso : cfg.isolate with
      | true => simp [KidPc.left]
      | false => simp [KidPc.left]
  | exec w =>
      simp only [hkid] at h
      split at h
      · obtain rfl := Option.some.inj h
        simp [KidPc.left]
      · obtain rfl := Option.some.inj h
        simp [KidPc.left]
  | dupStdin w =>
      simp only [hkid] at h
      obtain rfl := Option.some.inj h
      exact dupStep_left (by simp [KidPc.left]) (by simp [KidPc.left])
  | dupStdout w =>
      simp only [hkid] at h
      obtain rfl := Option.some.inj h
      exact dupStep_left (by simp [KidPc.left]) (by simp [KidPc.left])
  | dupStderr w =>
      simp only [hkid] at h
      obtain rfl := Option.some.inj h
      exact dupStep_left (by simp [KidPc.left]) (by simp [KidPc.left])
  | unborn => simp [hkid] at h
  | running => simp [hkid] at h
  | zombie fate => simp [hkid] at h
  | reaped fate => simp [hkid] at h
  | _ =>
      simp only [hkid] at h
      obtain rfl := Option.some.inj h
      simp [KidPc.left]

theorem kill_left (h : s.kill = some s') : s'.kid.left < s.kid.left := by
  unfold LaunchSys.kill at h
  cases hkid : s.kid with
  | unborn => simp [hkid] at h
  | zombie fate => simp [hkid] at h
  | reaped fate => simp [hkid] at h
  | _ =>
      simp only [hkid] at h
      obtain rfl := Option.some.inj h
      simp [KidPc.left]

theorem step_left (h : LaunchInv cfg table False s) {a : LaunchAct}
    (hstep : s.step cfg a = some s') :
    s'.pc.left + s'.kid.left < s.pc.left + s.kid.left := by
  cases a with
  | parent k =>
      obtain ⟨-, hpc, hkid⟩ := parentStep_move h False.elim hstep
      omega
  | child k =>
      have hpc := (childStep_move hstep).pc
      have hkid := childStep_left hstep
      rw [hpc]
      omega
  | kill =>
      have hpc := (kill_move cfg hstep).pc
      have hkid := kill_left hstep
      rw [hpc]
      omega

theorem answered_parent {k : LaunchAnswer} (hk : k.ok = true) : s.Answered (.parent k) := by
  unfold LaunchSys.Answered
  dsimp only
  split
  · exact hk
  · exact hk
  · exact hk
  · exact hk
  · trivial

theorem answered_child {k : LaunchAnswer} (hk : k.ok = true) : s.Answered (.child k) := by
  unfold LaunchSys.Answered
  dsimp only
  split
  · exact hk
  · exact hk
  · trivial

/-- A busy child can go on. -/
theorem child_goes_on (cfg : LaunchCfg)
    (hbusy : s.kid.busy = true ∨ ∃ w err told, s.kid = .exit w err told) :
    ∃ s', s.step cfg (.child ⟨true, 0, 0, 0⟩) = some s' := by
  simp only [LaunchSys.step, LaunchSys.childStep]
  cases hkid : s.kid with
  | unborn => simp [hkid, KidPc.busy] at hbusy
  | running => simp [hkid, KidPc.busy] at hbusy
  | zombie fate => simp [hkid, KidPc.busy] at hbusy
  | reaped fate => simp [hkid, KidPc.busy] at hbusy
  | _ => exact ⟨_, rfl⟩

theorem stdio_ambient (hstart : LaunchTable table) {fd : Nat} {e : FdEntry}
    (h : cfg.stdio table fd = some e) : e.file ≠ .pipeWrite := by
  have htable : ∀ {x : FdEntry}, table fd = some x → x.file ≠ .pipeWrite := by
    intro x hx
    obtain ⟨n, hn⟩ := hstart.ambient fd x hx
    rw [hn]
    simp
  unfold LaunchCfg.stdio at h
  split at h
  · simp only [Function.update_apply] at h
    split at h
    · obtain rfl := Option.some.inj h
      simp
    · split at h
      · obtain rfl := Option.some.inj h
        simp
      · split at h
        · obtain rfl := Option.some.inj h
          simp
        · exact htable h
  · exact htable h

/-- Who holds the write end has something left to do. -/
theorem busy_of_writes (hstart : LaunchTable table)
    (h : s.kid.Holds cfg table answered s.targetInput s.targetLog s.child s.env)
    (hwrites : s.child.writes cfg.limit = true) :
    s.kid.busy = true ∨ ∃ w err told, s.kid = .exit w err told := by
  have hempty : s.child ≠ FdTable.empty := by
    intro hempty
    rw [hempty] at hwrites
    simp [FdTable.writes, FdTable.empty] at hwrites
  cases hkid : s.kid with
  | unborn =>
      rw [hkid] at h
      exact absurd h.1 hempty
  | running =>
      rw [hkid] at h
      simp only [FdTable.writes, List.any_eq_true, Option.any_eq_true, decide_eq_true_eq]
        at hwrites
      obtain ⟨fd, -, e, he, hfile⟩ := hwrites
      rw [h.1] at he
      exact absurd hfile (stdio_ambient hstart (Option.filter_eq_some_iff.mp he).1)
  | exit w err told => exact .inr ⟨w, err, told, rfl⟩
  | zombie fate =>
      rw [hkid] at h
      exact absurd h hempty
  | reaped fate =>
      rw [hkid] at h
      exact absurd h hempty
  | _ => exact .inl rfl

/-- Until the parent has returned, somebody can go on. -/
theorem LaunchInv.goes_on (hstart : LaunchTable table) (h : LaunchInv cfg table answered s) :
    (∃ out, s.pc = .returned out) ∨
      ∃ a s', a ≠ .kill ∧ s.Answered a ∧ s.step cfg a = some s' := by
  have hpc := h.pc
  have hparent : ∀ {k : LaunchAnswer} {s' : LaunchSys}, s.Answered (.parent k) →
      s.parentStep cfg k = some s' → ∃ a s', a ≠ .kill ∧ s.Answered a ∧ s.step cfg a = some s' :=
    fun hk hstep => ⟨.parent _, _, by simp, hk, hstep⟩
  have hchild : (s.kid.busy = true ∨ ∃ w err told, s.kid = .exit w err told) →
      ∃ a s', a ≠ .kill ∧ s.Answered a ∧ s.step cfg a = some s' := by
    intro hbusy
    obtain ⟨s', hs'⟩ := child_goes_on cfg hbusy
    exact ⟨.child _, s', by simp, answered_child rfl, hs'⟩
  -- a call that fails is a step as well, and one that may fail unnoticed succeeds
  let fails : LaunchAnswer := ⟨false, 0, 0, 0⟩
  let goes : LaunchAnswer := ⟨true, 0, 0, 0⟩
  have hgoes : s.Answered (.parent goes) := answered_parent rfl
  cases hat : s.pc with
  | read r =>
      rw [hat] at hpc
      refine .inr ?_
      cases hpipe : s.pipe with
      | cons err rest =>
          exact hparent hgoes (by simp only [LaunchSys.parentStep, hat, hpipe]; rfl)
      | nil =>
          cases hwriters : s.writers cfg with
          | false =>
              exact hparent hgoes
                (by simp only [LaunchSys.parentStep, hat, hpipe, hwriters]; rfl)
          | true =>
              refine hchild (busy_of_writes hstart h.kid ?_)
              refine (Bool.or_eq_true_iff.mp hwriters).resolve_left fun hw => ?_
              obtain ⟨p, hp, hfile⟩ := (hpc.2.2.writes_iff fun fd e he => by
                obtain ⟨n, hn⟩ := hstart.ambient fd e he
                rw [hn]
                simp).mp hw
              rw [List.mem_singleton.mp hp] at hfile
              cases hfile
  | waitpid err =>
      rw [hat] at hpc
      obtain ⟨-, hthere, htold, -⟩ := hpc
      refine .inr ?_
      cases hkid : s.kid with
      | zombie fate => exact hparent hgoes (by simp only [LaunchSys.parentStep, hat, hkid]; rfl)
      | exit w e told => exact hchild (.inr ⟨w, e, told, hkid⟩)
      | reaped fate => exact absurd hkid (hthere fate)
      | _ =>
          rw [hkid] at htold
          cases htold
  | unlink err =>
      exact .inr (hparent hgoes (by simp only [LaunchSys.parentStep, hat]; rfl))
  | undo ops out =>
      refine .inr ?_
      cases ops with
      | nil => exact hparent hgoes (by simp only [LaunchSys.parentStep, hat]; rfl)
      | cons op ops =>
          cases op with
          | close fd => exact hparent hgoes (by simp only [LaunchSys.parentStep, hat]; rfl)
          | unlink => exact hparent hgoes (by simp only [LaunchSys.parentStep, hat]; rfl)
  | returned out => exact .inl ⟨out, rfl⟩
  | check =>
      refine .inr ?_
      have hfails : s.Answered (.parent fails) := by simp only [LaunchSys.Answered, hat]
      by_cases hargs : cfg.argv0 = false ∨ cfg.preload = []
      · exact hparent hfails (by simp only [LaunchSys.parentStep, hat, if_pos hargs]; rfl)
      · exact hparent hfails (by simp only [LaunchSys.parentStep, hat, if_neg hargs]; rfl)
  | rename r =>
      have hfails : s.Answered (.parent fails) := by simp only [LaunchSys.Answered, hat]
      exact .inr (hparent hfails (by
        simp only [fails, LaunchSys.parentStep, hat, Bool.false_eq_true, and_false, if_false]
        rfl))
  | _ =>
      have hfails : s.Answered (.parent fails) := by simp only [LaunchSys.Answered, hat]
      exact .inr (hparent hfails (by simp only [LaunchSys.parentStep, hat]; rfl))

theorem LaunchInv.run (hstart : LaunchTable table) {as : List LaunchAct}
    (hanswered : answered → Run.Guarded (LaunchSys.step cfg) LaunchSys.Answered
      (LaunchSys.init cfg table) as)
    (hrun : Run.run (LaunchSys.step cfg) (LaunchSys.init cfg table) as = some s) :
    LaunchInv cfg table answered s := by
  by_cases ha : answered
  · exact Run.guarded_invariant (I := LaunchInv cfg table answered)
      (fun _ _ _ h hg hs => h.step hstart (fun _ => hg) hs) .init (hanswered ha) hrun
  · exact Run.run_invariant (I := LaunchInv cfg table answered)
      (fun _ _ _ h hs => h.step hstart (fun ha' => absurd ha' ha) hs) .init hrun

/-- A run takes of what is left, one for each action. -/
theorem run_left (hstart : LaunchTable table) {as : List LaunchAct} :
    ∀ {s s' : LaunchSys}, LaunchInv cfg table False s →
      Run.run (LaunchSys.step cfg) s as = some s' →
      as.length + (s'.pc.left + s'.kid.left) ≤ s.pc.left + s.kid.left := by
  induction as with
  | nil =>
      intro s s' _ hrun
      obtain rfl := Option.some.inj hrun
      exact Nat.le_of_eq (Nat.zero_add _)
  | cons a as ih =>
      intro s s' h hrun
      obtain ⟨m, hm, hrest⟩ := Run.run_cons.mp hrun
      have hless := step_left h hm
      have hrest' := ih (h.step hstart False.elim hm) hrest
      rw [List.length_cons]
      omega

end Step

/-! ## What comes back -/

section Launch

variable {cfg : LaunchCfg} {table : FdTable} {as : List LaunchAct} {s : LaunchSys}

/-- **What a launch leaves.** When it returns, the parent has exactly the
descriptors it had. After a failure before there was a child there is none. A
program that runs has the standard streams it is to have, and no pipe; the log
of a launch that succeeded is there if one was asked for, under the name in the
result; and the `errno` of one that did not is what the child told. And if
`read`, `waitpid`, `unlink` and `setenv` did what they were asked: the child of
a launch that succeeded runs its program, or is gone without having told of a
failure; that of one that did not is reaped; after no other is a log left; and
a program that runs has the environment it is to have. -/
theorem launch_sound (hstart : LaunchTable table)
    (hrun : Run.run (LaunchSys.step cfg) (LaunchSys.init cfg table) as = some s) :
    let answered :=
      Run.Guarded (LaunchSys.step cfg) LaunchSys.Answered (LaunchSys.init cfg table) as
    (∀ out, s.pc = .returned out → s.Outcome cfg table answered out) ∧
    (s.kid = .running → s.child = (cfg.stdio table).exec ∧ (answered → s.env = cfg.childEnv)) := by
  have hinv := LaunchInv.run hstart id hrun
  refine ⟨fun out hout => ?_, fun hrunning => ?_⟩
  · have hpc := hinv.pc
    rw [hout] at hpc
    exact hpc
  · have hkid := hinv.kid
    rw [hrunning] at hkid
    exact hkid

/-- Standard streams and nothing else. -/
def terminalTable : FdTable := fun fd => if fd ≤ 2 then some ⟨.ambient fd, false⟩ else none

theorem terminalTable_start : LaunchTable terminalTable := by
  refine ⟨fun fd hfd => ?_, fun fd e he => ?_⟩
  · rw [terminalTable, if_pos hfd]
    simp
  · obtain ⟨-, he⟩ := Option.ite_none_right_eq_some.mp he
    obtain rfl := Option.some.inj he
    exact ⟨fd, rfl⟩

/-- In isolation, with a `LD_PRELOAD` of the user's. -/
def isolatedCfg : LaunchCfg := ⟨true, [0x70], 250, true, ⟨some [0x71], none⟩, 16⟩

/-- The program does not exist. -/
def missingProgram : List LaunchAct :=
  let goes : LaunchAnswer := ⟨true, 0, 0, 0⟩
  [.parent goes, .parent ⟨true, 0, 3, 0⟩, .parent ⟨true, 0, 4, 0⟩, .parent ⟨true, 0, 5, 6⟩,
    .parent goes, .parent goes, .parent goes] ++
  List.replicate 8 (.child goes) ++ [.child ⟨false, 2, 0, 0⟩, .child goes] ++
  List.replicate 6 (.parent goes) ++ [.child goes, .parent goes, .parent goes]

theorem launch_sound_missing : ∃ s out,
    Run.run (LaunchSys.step isolatedCfg) (LaunchSys.init isolatedCfg terminalTable)
      missingProgram = some s ∧
    s.pc = .returned out ∧ out.status = .execFailed ∧ s.parent = terminalTable ∧
    s.kid = .reaped (.failed 2 true) := by
  have hrun : Run.run (LaunchSys.step isolatedCfg) (LaunchSys.init isolatedCfg terminalTable)
      missingProgram = some _ := rfl
  obtain ⟨hout, -⟩ := launch_sound terminalTable_start hrun
  obtain ⟨hparent, -, -, hreaped⟩ := hout ⟨.execFailed, false, 2, none⟩ rfl
  exact ⟨_, _, hrun, rfl, rfl, hparent, (hreaped (by decide +kernel)).1⟩

/-- **A launch returns.** Nothing the two processes can do to each other
blocks: until the parent has returned, one of them can go on without a call
that fails, be the child killed or not, and no run is longer than 29 steps. -/
theorem launch_returns (hstart : LaunchTable table)
    (hrun : Run.run (LaunchSys.step cfg) (LaunchSys.init cfg table) as = some s) :
    as.length ≤ 29 ∧
      ((∃ out, s.pc = .returned out) ∨
        ∃ a s', a ≠ .kill ∧ s.Answered a ∧ s.step cfg a = some s') := by
  have hinv : LaunchInv cfg table False s := .run hstart False.elim hrun
  refine ⟨?_, hinv.goes_on hstart⟩
  have hleft := run_left hstart LaunchInv.init hrun
  simp only [LaunchSys.init, LaunchPc.left, KidPc.left] at hleft
  omega

/-- The parent waits at its `read` with the child still on its way. -/
theorem launch_returns_waiting : ∃ s,
    Run.run (LaunchSys.step isolatedCfg) (LaunchSys.init isolatedCfg terminalTable)
      (missingProgram.take 7 ++ List.replicate 4 (.parent ⟨true, 0, 0, 0⟩)) = some s ∧
    s.step isolatedCfg (.parent ⟨true, 0, 0, 0⟩) = none ∧
    ∃ a s', a ≠ .kill ∧ s.Answered a ∧ s.step isolatedCfg a = some s' := by
  have hrun : Run.run (LaunchSys.step isolatedCfg) (LaunchSys.init isolatedCfg terminalTable)
      (missingProgram.take 7 ++ List.replicate 4 (.parent ⟨true, 0, 0, 0⟩)) = some _ := rfl
  refine ⟨_, hrun, rfl, ?_⟩
  exact (launch_returns terminalTable_start hrun).2.resolve_left
    (by rintro ⟨out, hout⟩; cases hout)

end Launch

end Heapviz
