import Heapviz.FramePace

/-!
# What the loop's clock comes to

`loop_paced`: between two tops of an iteration as many periods have gone by as
frames have begun, a wait that a signal cut short apart; and the loop has not
gone to sleep or polled more often than once a frame, once for each read and
once for the input's end. An idle session wakes up once a frame.

The first goes by what is due (`OnPace`): while the loop is in an iteration its
deadline accounts for all frames so far, and a wait ends before the deadline only
by a signal. The second counts the waits that are still to come (`Wakes`): an
iteration has one, and a `poll` that does not end it gives another only where it
brought something or was the last.
-/

namespace Heapviz

/-! ## The pace -/

/-- Periods and waits, counted from a state at the top of an iteration. -/
structure OnPace (cfg : PaceConfig) (s₀ s : PaceSys) : Prop where
  /-- All periods but the last are over. -/
  late : s₀.clock + s.begun * cfg.periodNs + s₀.cut * cfg.periodNs ≤
    s.clock + s.cut * cfg.periodNs + s₀.begun * cfg.periodNs + cfg.periodNs
  top : s.paced.loop.phase = .top →
    s₀.clock + s.begun * cfg.periodNs + s₀.cut * cfg.periodNs ≤
      s.clock + s.cut * cfg.periodNs + s₀.begun * cfg.periodNs
  due : s.paced.loop.phase.busy = true →
    s₀.clock + s.begun * cfg.periodNs + s₀.cut * cfg.periodNs ≤
      s.paced.deadline + s.cut * cfg.periodNs + s₀.begun * cfg.periodNs
  asleep : s.paced.loop.phase.busy = true →
    ∀ wake, s.paced.place = .asleep wake → s.paced.deadline ≤ wake
  polling : s.paced.loop.phase.busy = true →
    ∀ wake, s.paced.place = .polling wake → s.paced.deadline ≤ wake
  begun : s₀.begun ≤ s.begun
  cut : s₀.cut ≤ s.cut

theorem OnPace.refl (cfg : PaceConfig) {s : PaceSys} (htop : s.paced.loop.phase = .top) :
    OnPace cfg s s := by
  have hidle : s.paced.loop.phase.busy ≠ true := by
    rw [htop]
    exact Bool.false_ne_true
  exact ⟨by omega, fun _ => by omega, fun h => absurd h hidle, fun h => absurd h hidle,
    fun h => absurd h hidle, le_rfl, le_rfl⟩

section Pace

variable {cfg : PaceConfig} {s₀ s s' : PaceSys}

/-- The clock goes on, in whatever the loop does within an iteration. -/
theorem OnPace.tick (h : OnPace cfg s₀ s) (hbegun : s'.begun = s.begun) (hcut : s'.cut = s.cut)
    (hclock : s.clock ≤ s'.clock) (hdeadline : s'.paced.deadline = s.paced.deadline)
    (hbusy : s.paced.loop.phase.busy = true) (htop : s'.paced.loop.phase ≠ .top)
    (hasleep : ∀ wake, s'.paced.place = .asleep wake → s.paced.deadline ≤ wake)
    (hpolling : ∀ wake, s'.paced.place = .polling wake → s.paced.deadline ≤ wake) :
    OnPace cfg s₀ s' := by
  have hlate := h.late
  have hdue := h.due hbusy
  refine ⟨?_, fun h' => absurd h' htop, fun _ => ?_, fun _ wake hw => ?_, fun _ wake hw => ?_,
    hbegun ▸ h.begun, hcut ▸ h.cut⟩
  · rw [hbegun, hcut]
    omega
  · rw [hbegun, hcut, hdeadline]
    exact hdue
  · rw [hdeadline]
    exact hasleep wake hw
  · rw [hdeadline]
    exact hpolling wake hw

/-- The wait is over: its time has come, or a signal has, or the loop ends. -/
theorem OnPace.leave (h : OnPace cfg s₀ s) (hbegun : s'.begun = s.begun)
    (hclock : s.clock ≤ s'.clock) (hphase : s'.paced.loop.phase.busy = false)
    (hbusy : s.paced.loop.phase.busy = true)
    (hcut : s'.cut = s.cut ∧ (s'.paced.loop.phase = .top → s.paced.deadline ≤ s'.clock) ∨
      s'.cut = s.cut + 1) : OnPace cfg s₀ s' := by
  have hlate := h.late
  have hdue := h.due hbusy
  have hmore := h.cut
  have hidle : s'.paced.loop.phase.busy ≠ true := by
    rw [hphase]
    exact Bool.false_ne_true
  refine ⟨?_, fun htop => ?_, fun h' => absurd h' hidle, fun h' => absurd h' hidle,
    fun h' => absurd h' hidle, hbegun ▸ h.begun, ?_⟩
  · rcases hcut with ⟨hcut, -⟩ | hcut
    · rw [hbegun, hcut]
      omega
    · rw [hbegun, hcut, Nat.succ_mul]
      omega
  · rcases hcut with ⟨hcut, hover⟩ | hcut
    · have hover := hover htop
      rw [hbegun, hcut]
      omega
    · rw [hbegun, hcut, Nat.succ_mul]
      omega
  · rcases hcut with ⟨hcut, -⟩ | hcut <;> omega

/-- A frame begins where the one before it was due to end. -/
theorem OnPace.begin (h : OnPace cfg s₀ s) (htop : s.paced.loop.phase = .top) {now : Nat}
    (hnow : s.clock ≤ now) (quit reset : Bool) (finished : List FrameRecord)
    (current : FrameRecord) :
    OnPace cfg s₀ { s with
      paced := s.paced.begin cfg now quit reset
      clock := now
      begun := if (s.paced.begin cfg now quit reset).loop.phase = .look then s.begun + 1
        else s.begun
      finished := finished
      current := current } := by
  have hpace := h.top htop
  have hdeadline : (s.paced.begin cfg now quit reset).deadline = now + cfg.periodNs := rfl
  have hphase : (s.paced.begin cfg now quit reset).loop.phase = .look ∨
      ∃ why, (s.paced.begin cfg now quit reset).loop.phase = .exited why :=
    (s.paced.loop.begin_phase cfg.toLoopConfig quit reset).imp And.left id
  rcases hphase with hlook | ⟨why, hexit⟩
  · rw [if_pos hlook]
    refine ⟨?_, fun h' => ?_, fun _ => ?_, (fun _ _ hw => nomatch hw),
      (fun _ _ hw => nomatch hw), h.begun.trans (Nat.le_succ _), h.cut⟩
    · dsimp only
      rw [Nat.succ_mul]
      omega
    · exact absurd (hlook.symm.trans h') (by simp)
    · dsimp only
      rw [Nat.succ_mul, hdeadline]
      omega
  · rw [if_neg (by rw [hexit]; simp)]
    refine ⟨?_, fun h' => ?_, fun hbusy => ?_, (fun _ _ hw => nomatch hw),
      (fun _ _ hw => nomatch hw), h.begun, h.cut⟩
    · dsimp only
      omega
    · exact absurd (hexit.symm.trans h') (by simp)
    · dsimp only at hbusy
      rw [hexit] at hbusy
      cases hbusy

theorem OnPace.step {a : PaceAct} (h : OnPace cfg s₀ s) (hstep : s.step cfg a = some s') :
    OnPace cfg s₀ s' := by
  cases a with
  | begin now quit reset =>
      obtain ⟨⟨htop, hnow⟩, hs⟩ := Option.ite_none_right_eq_some.mp hstep
      obtain rfl := Option.some.inj hs
      exact h.begin htop hnow quit reset _ _
  | look requested =>
      obtain ⟨hphase, hs⟩ := Option.ite_none_right_eq_some.mp hstep
      obtain rfl := Option.some.inj hs
      have hbusy := Phase.busy_of hphase rfl
      refine h.tick rfl rfl le_rfl rfl hbusy ?_ (h.asleep hbusy) (h.polling hbusy)
      cases requested <;> exact Phase.noConfusion
  | measure size =>
      obtain ⟨hphase, hs⟩ := Option.ite_none_right_eq_some.mp hstep
      obtain rfl := Option.some.inj hs
      have hbusy := Phase.busy_of hphase rfl
      refine h.tick rfl rfl le_rfl rfl hbusy (fun htop => ?_) (h.asleep hbusy)
        (h.polling hbusy)
      have hsized : (s.paced.loop.sized cfg.toLoopConfig size).phase = .top := htop
      rcases (s.paced.loop.sized_phase cfg.toLoopConfig size).1 with hwork | ⟨_, hexit⟩
      · exact absurd (hwork.symm.trans hsized) (by simp)
      · exact absurd (hexit.symm.trans hsized) (by simp)
  | work now n updated animating drainedAt =>
      obtain ⟨⟨hphase, -, hclock, hdrained⟩, hs⟩ := Option.ite_none_right_eq_some.mp hstep
      obtain rfl := Option.some.inj hs
      have hbusy := Phase.busy_of hphase rfl
      refine h.tick rfl rfl (hclock.trans hdrained) rfl hbusy (fun htop => ?_)
        (fun _ hw => nomatch hw) (fun _ hw => nomatch hw)
      exact absurd (hphase.symm.trans htop) (by simp)
  | draw now puts drawnAt =>
      obtain ⟨⟨hphase, -, hdirty, hclock, hdrawn⟩, hs⟩ := Option.ite_none_right_eq_some.mp hstep
      obtain rfl := Option.some.inj hs
      have hbusy := Phase.busy_of hphase rfl
      refine h.tick rfl rfl (hclock.trans hdrawn) rfl hbusy (fun htop => ?_)
        (h.asleep hbusy) (h.polling hbusy)
      obtain ⟨rest, hflush⟩ := s.paced.loop.draw_dirty hdirty puts
      exact absurd (hflush.symm.trans htop) (by simp)
  | skip =>
      obtain ⟨⟨hphase, -, hclean⟩, hs⟩ := Option.ite_none_right_eq_some.mp hstep
      obtain rfl := Option.some.inj hs
      have hbusy := Phase.busy_of hphase rfl
      refine h.tick rfl rfl le_rfl rfl hbusy (fun htop => ?_)
        (fun _ hw => nomatch hw) (fun _ hw => nomatch hw)
      have hwait : (s.paced.loop.draw []).phase = .wait := by
        rw [s.paced.loop.draw_clean hclean]
      exact absurd (hwait.symm.trans htop) (by simp)
  | flush now ok =>
      simp only [PaceSys.step] at hstep
      split at hstep
      · next rest hphase =>
        obtain ⟨hclock, hs⟩ := Option.ite_none_right_eq_some.mp hstep
        obtain rfl := Option.some.inj hs
        have hbusy := Phase.busy_of hphase rfl
        rcases s.paced.flush_cases rest ok now with hfailed | hdone
        · rw [hfailed]
          exact h.tick rfl rfl hclock rfl hbusy Phase.noConfusion (h.asleep hbusy)
            (h.polling hbusy)
        · rw [hdone]
          exact h.tick rfl rfl hclock rfl hbusy Phase.noConfusion (fun _ hw => nomatch hw)
            (fun _ hw => nomatch hw)
      · cases hstep
  | finish now =>
      obtain ⟨⟨hphase, -, hclock⟩, hs⟩ := Option.ite_none_right_eq_some.mp hstep
      obtain rfl := Option.some.inj hs
      have hbusy := Phase.busy_of hphase rfl
      refine h.tick rfl rfl hclock rfl hbusy (fun htop => ?_)
        (fun _ hw => nomatch hw) (fun _ hw => nomatch hw)
      exact absurd (hphase.symm.trans htop) (by simp)
  | check now quit =>
      obtain ⟨⟨hphase, -, hclock⟩, hs⟩ := Option.ite_none_right_eq_some.mp hstep
      obtain rfl := Option.some.inj hs
      have hbusy := Phase.busy_of hphase rfl
      rcases s.paced.check_cases now quit with ⟨hleave, hover⟩ | ⟨wake, place, heq, hwake, hplace⟩
      · rw [hleave]
        have hidle := s.paced.leave_idle quit false
        exact h.leave rfl hclock hidle.1 hbusy (.inl ⟨rfl, fun htop => hover (hidle.2 htop)⟩)
      · rw [heq]
        refine h.tick rfl rfl hclock rfl hbusy (fun htop => ?_) (fun w hw => ?_) (fun w hw => ?_)
        · exact absurd (hphase.symm.trans htop) (by simp)
        · rcases hplace with rfl | ⟨rfl, -⟩
          · cases hw
            exact hwake
          · cases hw
        · rcases hplace with rfl | ⟨rfl, -⟩
          · cases hw
          · cases hw
            exact hwake
  | woken now signal =>
      simp only [PaceSys.step] at hstep
      split at hstep
      · next wake hplace =>
        obtain ⟨⟨hphase, hclock, hwoken⟩, hs⟩ := Option.ite_none_right_eq_some.mp hstep
        obtain rfl := Option.some.inj hs
        have hbusy := Phase.busy_of hphase rfl
        have hidle := s.paced.leave_idle false false
        refine h.leave rfl hclock hidle.1 hbusy ?_
        cases signal with
        | true => exact .inr rfl
        | false =>
            refine .inl ⟨rfl, fun _ => ?_⟩
            exact (h.asleep hbusy wake hplace).trans (hwoken.resolve_left Bool.false_ne_true)
      · cases hstep
  | polled now r =>
      simp only [PaceSys.step] at hstep
      split at hstep
      · next wake hplace =>
        obtain ⟨⟨hphase, hclock, hover⟩, hs⟩ := Option.ite_none_right_eq_some.mp hstep
        obtain rfl := Option.some.inj hs
        have hbusy := Phase.busy_of hphase rfl
        rcases s.paced.polled_cases r with
          ⟨quit, key, hleave, hwhy⟩ | ⟨dirty, inputOpen, heq, hagain⟩
        · rw [hleave]
          have hidle := s.paced.leave_idle quit key
          refine h.leave rfl hclock hidle.1 hbusy ?_
          by_cases hsignal : r = .signal
          · exact .inr (if_pos hsignal)
          · refine .inl ⟨if_neg hsignal, fun htop => ?_⟩
            have htimeout := (hwhy (hidle.2 htop)).resolve_right hsignal
            exact (h.polling hbusy wake hplace).trans (hover htimeout)
        · rw [heq]
          have hcut : (if r = .signal then s.cut + 1 else s.cut) = s.cut := by
            refine if_neg ?_
            rintro rfl
            exact absurd heq (by simp [PacedLoop.polled, PacedLoop.leave])
          refine h.tick rfl hcut hclock rfl hbusy (fun htop => ?_) (fun _ hw => nomatch hw)
            (fun _ hw => nomatch hw)
          exact absurd (hphase.symm.trans htop) (by simp)
      · cases hstep

end Pace

/-! ## Waking up -/

def Place.resting : Place → Bool
  | .asleep _ | .polling _ => true
  | _ => false

/-- The waits the iteration is sure to have room for, of those not begun. -/
def PacedLoop.owed (p : PacedLoop) : Nat :=
  match p.loop.phase with
  | .top | .exited _ => 0
  | .wait => if p.place.resting then 0 else 1
  | _ => 1

theorem PacedLoop.owed_le_one (p : PacedLoop) : p.owed ≤ 1 := by
  unfold PacedLoop.owed
  split
  · exact Nat.zero_le 1
  · exact Nat.zero_le 1
  · split <;> omega
  · exact le_rfl

theorem PacedLoop.owed_leave (quit key : Bool) (p : PacedLoop) : (p.leave quit key).owed = 0 := by
  cases quit <;> rfl

/-- Sleeps and polls, counted from a state at the top of an iteration: at most
one for each frame, for input, for a read that brought nothing, and one in all
for the end of the input. -/
structure Wakes (s₀ s : PaceSys) : Prop where
  count : s.waits + s.paced.owed + s₀.begun + s₀.fed + s₀.again ≤
    s₀.waits + s.begun + s.fed + s.again + (if s.paced.inputOpen then 0 else 1)
  polling : s.paced.loop.phase = .wait →
    ∀ wake, s.paced.place = .polling wake → s.paced.inputOpen = true
  begun : s₀.begun ≤ s.begun
  fed : s₀.fed ≤ s.fed
  again : s₀.again ≤ s.again

theorem Wakes.refl {s : PaceSys} (htop : s.paced.loop.phase = .top) : Wakes s s := by
  have howed : s.paced.owed = 0 := by
    unfold PacedLoop.owed
    rw [htop]
  refine ⟨by omega, fun hwait => ?_, le_rfl, le_rfl, le_rfl⟩
  exact absurd (htop.symm.trans hwait) (by simp)

section Wakes

variable {cfg : PaceConfig} {s₀ s s' : PaceSys}

/-- No wait begins, and the loop goes on or ends. -/
theorem Wakes.keep (h : Wakes s₀ s) (hwaits : s'.waits = s.waits) (hbegun : s'.begun = s.begun)
    (hfed : s'.fed = s.fed) (hagain : s'.again = s.again)
    (hopen : s'.paced.inputOpen = s.paced.inputOpen) (howed : s'.paced.owed ≤ s.paced.owed)
    (hplace : s'.paced.loop.phase = .wait → s'.paced.place.resting = false) : Wakes s₀ s' := by
  have hcount := h.count
  refine ⟨?_, fun hwait wake hw => ?_, hbegun ▸ h.begun, hfed ▸ h.fed, hagain ▸ h.again⟩
  · rw [hwaits, hbegun, hfed, hagain, hopen]
    omega
  · have hrest := hplace hwait
    rw [hw] at hrest
    cases hrest

/-- The frame is being made, and has its wait before it. -/
theorem PacedLoop.owed_of {p : PacedLoop} (hbusy : p.loop.phase.busy = true)
    (hrest : p.loop.phase = .wait → p.place.resting = false) : p.owed = 1 := by
  unfold PacedLoop.owed
  split
  · next h =>
    rw [h] at hbusy
    cases hbusy
  · next h =>
    rw [h] at hbusy
    cases hbusy
  · next h => rw [if_neg (by rw [hrest h]; exact Bool.false_ne_true)]
  · rfl

/-- A step within the frame, before its wait. -/
theorem Wakes.work (h : Wakes s₀ s) (hwaits : s'.waits = s.waits) (hbegun : s'.begun = s.begun)
    (hfed : s'.fed = s.fed) (hagain : s'.again = s.again)
    (hopen : s'.paced.inputOpen = s.paced.inputOpen) (hbusy : s.paced.loop.phase.busy = true)
    (hrest : s.paced.loop.phase = .wait → s.paced.place.resting = false)
    (hplace : s'.paced.loop.phase = .wait → s'.paced.place.resting = false) : Wakes s₀ s' := by
  refine h.keep hwaits hbegun hfed hagain hopen ?_ hplace
  rw [PacedLoop.owed_of hbusy hrest]
  exact s'.paced.owed_le_one

/-- A `poll` ends. It has found something, or the loop goes on, or the input is at its
end. -/
theorem Wakes.polled (h : Wakes s₀ s) (hphase : s.paced.loop.phase = .wait) {wake : Nat}
    (hplace : s.paced.place = .polling wake) {r : PollResult} (now cut : Nat) {fed again : Nat}
    (hfed : s.fed ≤ fed) (hagain : s.again ≤ again)
    (hfound : (r = .again ∨ ∃ changed quit, r = .data changed quit) →
      s.fed + s.again + 1 ≤ fed + again) :
    Wakes s₀ { s with
      paced := s.paced.polled r, clock := now, cut := cut, fed := fed, again := again } := by
  have hcount := h.count
  rw [h.polling hphase wake hplace, if_pos rfl] at hcount
  rcases s.paced.polled_cases r with ⟨quit, key, hleave, -⟩ | ⟨dirty, inputOpen, heq, hend⟩
  · rw [hleave]
    have hidle : (s.paced.leave quit key).loop.phase ≠ .wait := by
      cases quit <;> exact Phase.noConfusion
    have howed := s.paced.owed_leave quit key
    refine ⟨?_, fun hwait => absurd hwait hidle, h.begun, h.fed.trans hfed, h.again.trans hagain⟩
    dsimp only
    omega
  · rw [heq]
    have howed := PacedLoop.owed_le_one { s.paced with
      loop := { s.paced.loop with dirty := dirty }, inputOpen := inputOpen, place := .check }
    refine ⟨?_, (fun _ _ hw => nomatch hw), h.begun, h.fed.trans hfed, h.again.trans hagain⟩
    dsimp only at howed ⊢
    rcases hend with rfl | ⟨-, hr⟩
    · rw [if_neg Bool.false_ne_true]
      omega
    · have hmore := hfound hr
      omega

theorem Wakes.step {a : PaceAct} (h : Wakes s₀ s) (hstep : s.step cfg a = some s') :
    Wakes s₀ s' := by
  cases a with
  | begin now quit reset =>
      obtain ⟨⟨htop, hnow⟩, hs⟩ := Option.ite_none_right_eq_some.mp hstep
      obtain rfl := Option.some.inj hs
      have hcount := h.count
      have hidle : s.paced.owed = 0 := by
        unfold PacedLoop.owed
        rw [htop]
      have hopen : (s.paced.begin cfg now quit reset).inputOpen = s.paced.inputOpen := rfl
      have hphase : (s.paced.begin cfg now quit reset).loop.phase = .look ∨
          ∃ why, (s.paced.begin cfg now quit reset).loop.phase = .exited why :=
        (s.paced.loop.begin_phase cfg.toLoopConfig quit reset).imp And.left id
      rcases hphase with hlook | ⟨why, hexit⟩
      · rw [if_pos hlook]
        have howed := (s.paced.begin cfg now quit reset).owed_le_one
        refine ⟨?_, fun hwait => ?_, h.begun.trans (Nat.le_succ _), h.fed, h.again⟩
        · dsimp only
          rw [hopen]
          omega
        · exact absurd (hlook.symm.trans hwait) (by simp)
      · rw [if_neg (by rw [hexit]; simp)]
        have howed : (s.paced.begin cfg now quit reset).owed = 0 := by
          unfold PacedLoop.owed
          rw [hexit]
        refine ⟨?_, fun hwait => ?_, h.begun, h.fed, h.again⟩
        · dsimp only
          rw [hopen, howed]
          omega
        · exact absurd (hexit.symm.trans hwait) (by simp)
  | look requested =>
      obtain ⟨hphase, hs⟩ := Option.ite_none_right_eq_some.mp hstep
      obtain rfl := Option.some.inj hs
      refine h.work rfl rfl rfl rfl rfl (Phase.busy_of hphase rfl) (fun hwait => ?_) ?_
      · exact absurd (hphase.symm.trans hwait) (by simp)
      · cases requested <;> exact Phase.noConfusion
  | measure size =>
      obtain ⟨hphase, hs⟩ := Option.ite_none_right_eq_some.mp hstep
      obtain rfl := Option.some.inj hs
      refine h.work rfl rfl rfl rfl rfl (Phase.busy_of hphase rfl) (fun hwait => ?_)
        (fun hwait => ?_)
      · exact absurd (hphase.symm.trans hwait) (by simp)
      · have hsized : (s.paced.loop.sized cfg.toLoopConfig size).phase = .wait := hwait
        rcases (s.paced.loop.sized_phase cfg.toLoopConfig size).1 with hwork | ⟨_, hexit⟩
        · exact absurd (hwork.symm.trans hsized) (by simp)
        · exact absurd (hexit.symm.trans hsized) (by simp)
  | work now n updated animating drainedAt =>
      obtain ⟨⟨hphase, -, -, -⟩, hs⟩ := Option.ite_none_right_eq_some.mp hstep
      obtain rfl := Option.some.inj hs
      refine h.work rfl rfl rfl rfl rfl (Phase.busy_of hphase rfl) (fun hwait => ?_)
        (fun _ => rfl)
      exact absurd (hphase.symm.trans hwait) (by simp)
  | draw now puts drawnAt =>
      obtain ⟨⟨hphase, -, hdirty, -, -⟩, hs⟩ := Option.ite_none_right_eq_some.mp hstep
      obtain rfl := Option.some.inj hs
      refine h.work rfl rfl rfl rfl rfl (Phase.busy_of hphase rfl) (fun hwait => ?_)
        (fun hwait => ?_)
      · exact absurd (hphase.symm.trans hwait) (by simp)
      · obtain ⟨rest, hflush⟩ := s.paced.loop.draw_dirty hdirty puts
        exact absurd (hflush.symm.trans hwait) (by simp)
  | skip =>
      obtain ⟨⟨hphase, -, -⟩, hs⟩ := Option.ite_none_right_eq_some.mp hstep
      obtain rfl := Option.some.inj hs
      refine h.work rfl rfl rfl rfl rfl (Phase.busy_of hphase rfl) (fun hwait => ?_)
        (fun _ => rfl)
      exact absurd (hphase.symm.trans hwait) (by simp)
  | flush now ok =>
      simp only [PaceSys.step] at hstep
      split at hstep
      · next rest hphase =>
        obtain ⟨-, hs⟩ := Option.ite_none_right_eq_some.mp hstep
        obtain rfl := Option.some.inj hs
        have hbusy := Phase.busy_of hphase rfl
        have hrest : s.paced.loop.phase = .wait → s.paced.place.resting = false :=
          fun hwait => absurd (hphase.symm.trans hwait) (by simp)
        rcases s.paced.flush_cases rest ok now with hfailed | hdone
        · rw [hfailed]
          exact h.work rfl rfl rfl rfl rfl hbusy hrest Phase.noConfusion
        · rw [hdone]
          exact h.work rfl rfl rfl rfl rfl hbusy hrest fun _ => rfl
      · cases hstep
  | finish now =>
      obtain ⟨⟨hphase, hplace, -⟩, hs⟩ := Option.ite_none_right_eq_some.mp hstep
      obtain rfl := Option.some.inj hs
      refine h.work rfl rfl rfl rfl rfl (Phase.busy_of hphase rfl) (fun _ => ?_) (fun _ => rfl)
      rw [hplace]
      rfl
  | check now quit =>
      obtain ⟨⟨hphase, hplace, -⟩, hs⟩ := Option.ite_none_right_eq_some.mp hstep
      obtain rfl := Option.some.inj hs
      rcases s.paced.check_cases now quit with ⟨hleave, -⟩ | ⟨wake, place, heq, -, hrests⟩
      · have hidle : (s.paced.leave quit false).loop.phase ≠ .wait := by
          cases quit <;> exact Phase.noConfusion
        rw [hleave, if_neg hidle]
        refine h.keep rfl rfl rfl rfl rfl ?_ fun hwait => absurd hwait hidle
        rw [PacedLoop.owed_leave]
        exact Nat.zero_le _
      · have hcount := h.count
        have howed : s.paced.owed = 1 := by
          refine PacedLoop.owed_of (Phase.busy_of hphase rfl) fun _ => ?_
          rw [hplace]
          rfl
        rw [heq, if_pos hphase]
        have hnone : ({ s.paced with place := place } : PacedLoop).owed = 0 := by
          unfold PacedLoop.owed
          rw [hphase]
          rcases hrests with rfl | ⟨rfl, -⟩ <;> rfl
        refine ⟨?_, fun _ w hw => ?_, h.begun, h.fed, h.again⟩
        · dsimp only
          rw [hnone]
          omega
        · rcases hrests with rfl | ⟨-, hopen⟩
          · cases hw
          · exact hopen
  | woken now signal =>
      simp only [PaceSys.step] at hstep
      split at hstep
      · next wake hplace =>
        obtain ⟨-, hs⟩ := Option.ite_none_right_eq_some.mp hstep
        obtain rfl := Option.some.inj hs
        refine h.keep rfl rfl rfl rfl rfl ?_ Phase.noConfusion
        rw [PacedLoop.owed_leave]
        exact Nat.zero_le _
      · cases hstep
  | polled now r =>
      simp only [PaceSys.step] at hstep
      split at hstep
      · next wake hplace =>
        obtain ⟨⟨hphase, -, -⟩, hs⟩ := Option.ite_none_right_eq_some.mp hstep
        obtain rfl := Option.some.inj hs
        refine h.polled hphase hplace now _ ?_ ?_ ?_
        · split <;> omega
        · split <;> omega
        · rintro (rfl | ⟨changed, quit, rfl⟩)
          · exact le_rfl
          · exact (Nat.add_right_comm _ _ _).le
      · cases hstep

/-- **The loop keeps its pace.** From one top of an iteration to another there is a
period for each frame begun, but for the waits that signals ended; and at any point
since, sleeps and polls are no more than the frames, the reads and one. -/
theorem loop_paced {acts : List PaceAct} (htop : s₀.paced.loop.phase = .top)
    (hrun : Run.run (PaceSys.step cfg) s₀ acts = some s) :
    (s.paced.loop.phase = .top →
      s₀.clock + (s.begun - s₀.begun) * cfg.periodNs ≤
        s.clock + (s.cut - s₀.cut) * cfg.periodNs) ∧
      s.waits - s₀.waits ≤ (s.begun - s₀.begun) + (s.fed - s₀.fed) + (s.again - s₀.again) + 1 := by
  have hpace : OnPace cfg s₀ s :=
    Run.run_invariant (fun _ _ _ h hstep => h.step hstep) (OnPace.refl cfg htop) hrun
  have hwakes : Wakes s₀ s :=
    Run.run_invariant (fun _ _ _ h hstep => h.step hstep) (Wakes.refl htop) hrun
  constructor
  · intro hend
    have hperiods := hpace.top hend
    rw [Nat.sub_mul, Nat.sub_mul]
    have hbegun := Nat.mul_le_mul_right cfg.periodNs hpace.begun
    have hcut := Nat.mul_le_mul_right cfg.periodNs hpace.cut
    omega
  · have hcount := hwakes.count
    have hbegun := hwakes.begun
    have hfed := hwakes.fed
    have hagain := hwakes.again
    split at hcount <;> omega

/-- Twenty frames a second on a screen of no size: one frame, a key on the way, and the
end of the period. -/
def keyedFrame : List PaceAct :=
  [.begin 0 false false, .look false, .work 30 0 false false 10, .draw 70 [] 50, .flush 90 true,
    .finish 100, .check 200 false, .polled 300 (.data false false), .check 400 false,
    .polled 50000400 .timeout]

theorem loop_paced_keyed :
    ∃ s, Run.run (PaceSys.step ⟨.default, 20⟩) (.start ⟨.default, 20⟩ .init 0) keyedFrame = some s ∧
      s.begun = 1 ∧ 50000000 ≤ s.clock ∧ s.waits ≤ 3 := by
  have hrun : ∃ s, Run.run (PaceSys.step ⟨.default, 20⟩) (.start ⟨.default, 20⟩ .init 0)
      keyedFrame = some s ∧ s.paced.loop.phase = .top ∧ s.begun = 1 ∧ s.cut = 0 ∧ s.fed = 1 ∧
        s.again = 0 :=
    ⟨_, rfl, rfl, rfl, rfl, rfl, rfl⟩
  obtain ⟨s, hrun, htop, hbegun, hcut, hfed, hagain⟩ := hrun
  obtain ⟨hpace, hwaits⟩ := loop_paced rfl hrun
  refine ⟨s, hrun, hbegun, ?_, ?_⟩
  · have hperiods := hpace htop
    rw [hbegun, hcut] at hperiods
    exact hperiods
  · rw [hbegun, hfed, hagain] at hwaits
    exact hwaits

end Wakes

end Heapviz
