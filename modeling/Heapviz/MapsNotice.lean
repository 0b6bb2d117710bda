import Mathlib.Data.List.Induction
import Heapviz.MapsText

/-!
# When an address forces a rescan

`note_address` (`tui/proc_maps.cpp`) sees the pointer of every event, so that
a heap that grew is looked at again at once and not at the end of the
interval. What it compares with is the hull of the allocatable regions: the
range from the lowest start to the highest end. Memory between two regions
lies in the hull too, and an address there is passed over in silence.

A run is a list of calls, and what is known after it is read off the list:
whether the maps were scanned at all, and what was noted since they last
were (`Tracks`).
-/

namespace Heapviz

/-! ## Scanning a text -/

/-- The loop of `scan_text`: the non-empty lines, each parsed to a region or
malformed. -/
def scanLines : List Nat → List (Option Region)
  | [] => []
  | c :: text =>
      let line := (c :: text).takeWhile (· != 0x0A)
      let rest := ((c :: text).dropWhile (· != 0x0A)).drop 1
      if line = [] then scanLines rest
      else
        match parseMapsLine line ⟨⟨⟨0, 0, .other, false⟩, 0⟩, 0, 0⟩ with
        | (true, r) => some r.toRegion :: scanLines rest
        | (false, _) => none :: scanLines rest
termination_by text => text.length
decreasing_by
  all_goals
    have hle := ((c :: text).dropWhile_sublist (· != 0x0A)).length_le
    rw [List.length_drop, List.length_cons] at *
    omega

def MapsScanner.scanText (s : MapsScanner) (text : List Nat) (nowMs : Nat) : MapsScanner :=
  s.scan nowMs (.lines (scanLines text))

/-- A call on the scanner: `scan` where the file cannot be read, `scan_text`,
which `scan` calls on the text it has read, and `note_address`. -/
inductive ScanOp where
  | scanFailed (status : ScanStatus) (nowMs : Nat)
  | scanText (text : List Nat) (nowMs : Nat)
  | noteAddress (addr : Nat)
deriving Repr, DecidableEq

def MapsScanner.step (s : MapsScanner) : ScanOp → MapsScanner
  | .scanFailed status nowMs => s.scan nowMs (.failed status)
  | .scanText text nowMs => s.scanText text nowMs
  | .noteAddress addr => s.noteAddress addr

/-- The scanner after these calls. -/
def MapsScanner.after (ops : List ScanOp) : MapsScanner := ops.foldl MapsScanner.step .init

/-! ## The hull -/

/-- The regions the hull is made of. -/
def Region.Counts (r : Region) : Prop := r.allocatable = true ∧ r.size ≠ 0

/-- Between the lowest start and the highest end. -/
def InHull (regions : List Region) (addr : Nat) : Prop :=
  (∃ r ∈ regions, r.Counts ∧ r.start ≤ addr) ∧ ∃ r ∈ regions, r.Counts ∧ addr < r.limit

structure HullOf (regions : List Region) (b : AddrRange) : Prop where
  covers : ∀ r ∈ regions, r.Counts → b.base ≤ r.start ∧ r.limit ≤ b.limit
  base : b.isEmpty = false → ∃ r ∈ regions, r.Counts ∧ r.start = b.base
  limit : b.isEmpty = false → ∃ r ∈ regions, r.Counts ∧ r.limit = b.limit

theorem Region.Counts.start_lt {r : Region} (h : r.Counts) : r.start < r.limit := by
  have hsize := h.2
  unfold Region.size at hsize
  omega

theorem HullOf.concat {regions : List Region} {b : AddrRange} (h : HullOf regions b) (r : Region) :
    HullOf (regions ++ [r]) (b.hull r) := by
  unfold AddrRange.hull
  split_ifs with hskip hempty
  · have hr : ¬ r.Counts := by
      rintro ⟨halloc, hsize⟩
      rcases hskip with hskip | hskip
      · rw [halloc] at hskip
        cases hskip
      · exact hsize hskip
    refine ⟨fun q hq hcounts => ?_, fun hne => ?_, fun hne => ?_⟩
    · rcases List.mem_append.mp hq with hq | hq
      · exact h.covers q hq hcounts
      · rw [List.mem_singleton.mp hq] at hcounts
        exact absurd hcounts hr
    · obtain ⟨q, hq, hcounts⟩ := h.base hne
      exact ⟨q, List.mem_append_left _ hq, hcounts⟩
    · obtain ⟨q, hq, hcounts⟩ := h.limit hne
      exact ⟨q, List.mem_append_left _ hq, hcounts⟩
  · have hr : r.Counts := ⟨by simpa using (not_or.mp hskip).1, (not_or.mp hskip).2⟩
    refine ⟨fun q hq hcounts => ?_, fun _ => ⟨r, List.mem_concat_self, hr, rfl⟩,
      fun _ => ⟨r, List.mem_concat_self, hr, rfl⟩⟩
    rcases List.mem_append.mp hq with hq | hq
    · have hcov := h.covers q hq hcounts
      have hlt := hcounts.start_lt
      rw [AddrRange.isEmpty, decide_eq_true_eq] at hempty
      omega
    · rw [List.mem_singleton.mp hq]
      exact ⟨le_rfl, le_rfl⟩
  · have hr : r.Counts := ⟨by simpa using (not_or.mp hskip).1, (not_or.mp hskip).2⟩
    have hne := Bool.eq_false_iff.mpr hempty
    refine ⟨fun q hq hcounts => ?_, fun _ => ?_, fun _ => ?_⟩
    · rcases List.mem_append.mp hq with hq | hq
      · have hcov := h.covers q hq hcounts
        exact ⟨(min_le_left _ _).trans hcov.1, hcov.2.trans (le_max_left _ _)⟩
      · rw [List.mem_singleton.mp hq]
        exact ⟨min_le_right _ _, le_max_right _ _⟩
    · obtain ⟨q, hq, hcounts, hbase⟩ := h.base hne
      rcases min_choice b.base r.start with hmin | hmin
      · exact ⟨q, List.mem_append_left _ hq, hcounts, hbase.trans hmin.symm⟩
      · exact ⟨r, List.mem_concat_self, hr, hmin.symm⟩
    · obtain ⟨q, hq, hcounts, hlimit⟩ := h.limit hne
      rcases max_choice b.limit r.limit with hmax | hmax
      · exact ⟨q, List.mem_append_left _ hq, hcounts, hlimit.trans hmax.symm⟩
      · exact ⟨r, List.mem_concat_self, hr, hmax.symm⟩

theorem hullOf_foldl (regions : List Region) :
    HullOf regions (regions.foldl AddrRange.hull ⟨0, 0⟩) := by
  induction regions using List.reverseRecOn with
  | nil => exact ⟨nofun, nofun, nofun⟩
  | append_singleton regions r ih =>
      rw [List.foldl_append]
      exact ih.concat r

/-- The comparison of `note_address` is with the hull. -/
theorem HullOf.outside_iff {regions : List Region} {b : AddrRange} (h : HullOf regions b)
    (addr : Nat) :
    (b.isEmpty = true ∨ addr < b.base ∨ addr ≥ b.limit) ↔ ¬ InHull regions addr := by
  constructor
  · rintro hout ⟨⟨r, hr, hcounts, hstart⟩, q, hq, hqcounts, hlimit⟩
    have hrcov := h.covers r hr hcounts
    have hqcov := h.covers q hq hqcounts
    rcases hout with hempty | hbelow | habove
    · have hlt := hcounts.start_lt
      rw [AddrRange.isEmpty, decide_eq_true_eq] at hempty
      omega
    · omega
    · omega
  · intro hout
    by_contra hin
    obtain ⟨hne, hbounds⟩ := not_or.mp hin
    obtain ⟨hbase, hlimit⟩ := not_or.mp hbounds
    obtain ⟨r, hr, hcounts, hstart⟩ := h.base (Bool.eq_false_iff.mpr hne)
    obtain ⟨q, hq, hqcounts, hend⟩ := h.limit (Bool.eq_false_iff.mpr hne)
    exact hout ⟨⟨r, hr, hcounts, by omega⟩, q, hq, hqcounts, by omega⟩

/-! ## What is known after a run -/

/-- No call was a scan. -/
def NoScan (ops : List ScanOp) : Prop := ∀ op ∈ ops, ∃ addr, op = .noteAddress addr

/-- The addresses noted after the last scan. -/
def notesSince (ops : List ScanOp) : List Nat :=
  ops.foldl (fun noted op =>
    match op with
    | .noteAddress addr => addr :: noted
    | _ => []) []

/-- Something was noted since the last scan that lies outside the hull, or no
scan was made. -/
def Owed (ops : List ScanOp) : Prop :=
  NoScan ops ∨ ∃ addr ∈ notesSince ops, ¬ InHull (MapsScanner.after ops).regions addr

theorem after_concat (ops : List ScanOp) (op : ScanOp) :
    MapsScanner.after (ops ++ [op]) = (MapsScanner.after ops).step op := by
  rw [MapsScanner.after, List.foldl_append]
  rfl

theorem notesSince_concat_note (ops : List ScanOp) (addr : Nat) :
    notesSince (ops ++ [.noteAddress addr]) = addr :: notesSince ops := by
  rw [notesSince, List.foldl_append]
  rfl

theorem noScan_concat {ops : List ScanOp} {op : ScanOp} :
    NoScan (ops ++ [op]) ↔ NoScan ops ∧ ∃ addr, op = .noteAddress addr := by
  unfold NoScan
  simp only [List.mem_append, List.mem_singleton, or_imp, forall_and, forall_eq]

/-- Only the flag changes. -/
theorem noteAddress_keeps (s : MapsScanner) (addr : Nat) :
    (s.noteAddress addr).regions = s.regions ∧ (s.noteAddress addr).bounds = s.bounds ∧
      (s.noteAddress addr).status = s.status := by
  unfold MapsScanner.noteAddress
  split_ifs <;> exact ⟨rfl, rfl, rfl⟩

theorem noteAddress_forced {s : MapsScanner} (h : HullOf s.regions s.bounds)
    (hlive : s.status ≠ .targetGone) (addr : Nat) :
    (s.noteAddress addr).forced = true ↔ s.forced = true ∨ ¬ InHull s.regions addr := by
  unfold MapsScanner.noteAddress
  rw [if_neg hlive]
  split_ifs with hforced hout
  · exact ⟨.inl, fun _ => hforced⟩
  · exact ⟨fun _ => .inr ((h.outside_iff addr).mp hout), fun _ => rfl⟩
  · exact ⟨.inl, fun hor => hor.resolve_right fun hnot => hout ((h.outside_iff addr).mpr hnot)⟩

/-- The scanner after a run, told by the run. -/
structure Tracks (ops : List ScanOp) : Prop where
  hull : HullOf (MapsScanner.after ops).regions (MapsScanner.after ops).bounds
  forced : (MapsScanner.after ops).status ≠ .targetGone →
    ((MapsScanner.after ops).forced = true ↔ Owed ops)

theorem owed_concat_note (ops : List ScanOp) (addr : Nat) :
    Owed (ops ++ [.noteAddress addr]) ↔ NoScan ops ∨
      ∃ noted ∈ addr :: notesSince ops, ¬ InHull (MapsScanner.after ops).regions noted := by
  unfold Owed
  rw [noScan_concat, notesSince_concat_note, after_concat, MapsScanner.step, (noteAddress_keeps _ _).1,
    and_iff_left ⟨addr, rfl⟩]

theorem owed_concat_note_iff (ops : List ScanOp) (addr : Nat) :
    Owed (ops ++ [.noteAddress addr]) ↔
      Owed ops ∨ ¬ InHull (MapsScanner.after ops).regions addr := by
  rw [owed_concat_note, Owed, or_assoc]
  refine or_congr_right ?_
  simp only [List.mem_cons, or_and_right, exists_or, exists_eq_left]
  exact or_comm

theorem not_owed_concat_scan {ops : List ScanOp} {op : ScanOp}
    (h : ∀ addr, op ≠ .noteAddress addr) : ¬ Owed (ops ++ [op]) := by
  have hnotes : notesSince (ops ++ [op]) = [] := by
    rw [notesSince, List.foldl_append]
    cases op with
    | scanFailed status nowMs => rfl
    | scanText text nowMs => rfl
    | noteAddress addr => exact absurd rfl (h addr)
  unfold Owed
  rw [noScan_concat, hnotes]
  rintro (⟨-, addr, hop⟩ | ⟨addr, hmem, -⟩)
  · exact h addr hop
  · cases hmem

theorem tracks (ops : List ScanOp) : Tracks ops := by
  induction ops using List.reverseRecOn with
  | nil => exact ⟨hullOf_foldl [], fun _ => ⟨fun _ => .inl nofun, fun _ => rfl⟩⟩
  | append_singleton ops op ih =>
      refine ⟨?_, fun hlive => ?_⟩
      · rw [after_concat]
        cases op with
        | scanFailed status nowMs => exact ih.hull
        | scanText text nowMs => exact hullOf_foldl _
        | noteAddress addr =>
            rw [MapsScanner.step, (noteAddress_keeps _ _).1, (noteAddress_keeps _ _).2.1]
            exact ih.hull
      · cases op with
        | scanFailed status nowMs =>
            have hnot : ¬ Owed (ops ++ [.scanFailed status nowMs]) := not_owed_concat_scan nofun
            rw [after_concat, iff_false_right hnot]
            exact Bool.false_ne_true
        | scanText text nowMs =>
            have hnot : ¬ Owed (ops ++ [.scanText text nowMs]) := not_owed_concat_scan nofun
            rw [after_concat, iff_false_right hnot]
            exact Bool.false_ne_true
        | noteAddress addr =>
            rw [after_concat, MapsScanner.step, (noteAddress_keeps _ _).2.2] at hlive
            rw [after_concat, MapsScanner.step, noteAddress_forced ih.hull hlive,
              owed_concat_note_iff, ih.forced hlive]

/-- Once owed, a scan is owed whatever else is noted. -/
theorem forced_after_notes {ops : List ScanOp} (h : (MapsScanner.after ops).forced = true)
    (notes : List Nat) :
    (MapsScanner.after (ops ++ notes.map .noteAddress)).forced = true := by
  induction notes using List.reverseRecOn with
  | nil => rwa [List.map_nil, List.append_nil]
  | append_singleton notes addr ih =>
      rw [List.map_append, ← List.append_assoc, List.map_singleton, after_concat,
        MapsScanner.step, MapsScanner.noteAddress, if_pos ih]
      exact ih

theorem due_lastScanMs (s : MapsScanner) : s.due s.lastScanMs = s.forced := by
  have hzero : sub32 s.lastScanMs s.lastScanMs = 0 := by
    rw [sub32, Nat.add_sub_cancel_left, Nat.mod_self]
  rw [MapsScanner.due, hzero]
  exact Bool.or_false _

/-! ## Growth into a hole -/

/-- No allocatable region of the last scan has the address. -/
def MapsScanner.Unknown (s : MapsScanner) (addr : Nat) : Prop :=
  ∀ r ∈ s.regions, r.allocatable = true → ¬ (r.start ≤ addr ∧ addr < r.limit)

instance (s : MapsScanner) (addr : Nat) : Decidable (s.Unknown addr) :=
  inferInstanceAs (Decidable (∀ r ∈ s.regions, _))

/-- In this run, from the noting of an address in unknown memory on, a scan is
due at any time until one is made. -/
def ForcesRescan (ops : List ScanOp) : Prop :=
  ∀ (before : List ScanOp) (addr : Nat) (notes : List Nat) (rest : List ScanOp),
    ops = before ++ .noteAddress addr :: (notes.map .noteAddress ++ rest) →
    (MapsScanner.after before).status ≠ .targetGone → (MapsScanner.after before).Unknown addr →
    ∀ t, (MapsScanner.after (before ++ .noteAddress addr :: notes.map .noteAddress)).due t = true

/-- A run does so where every address in unknown memory, or one noted before it
since the last scan, lies outside the hull, or there was no scan yet. -/
theorem forcesRescan_iff (ops : List ScanOp) :
    ForcesRescan ops ↔ ∀ (before : List ScanOp) (addr : Nat) (rest : List ScanOp),
      ops = before ++ .noteAddress addr :: rest →
      (MapsScanner.after before).status ≠ .targetGone → (MapsScanner.after before).Unknown addr →
      NoScan before ∨ ∃ noted ∈ addr :: notesSince before,
        ¬ InHull (MapsScanner.after before).regions noted := by
  have hstatus : ∀ (before : List ScanOp) (addr : Nat),
      (MapsScanner.after before).status ≠ .targetGone →
      (MapsScanner.after (before ++ [.noteAddress addr])).status ≠ .targetGone := by
    intro before addr hlive
    rw [after_concat, MapsScanner.step, (noteAddress_keeps _ _).2.2]
    exact hlive
  constructor
  · intro hforces before addr rest hops hlive hunknown
    have hdue := hforces before addr [] rest hops hlive hunknown
      (MapsScanner.after (before ++ [.noteAddress addr])).lastScanMs
    rw [List.map_nil, due_lastScanMs, (tracks _).forced (hstatus before addr hlive)] at hdue
    exact (owed_concat_note before addr).mp hdue
  · intro hnoted before addr notes rest hops hlive hunknown t
    have howed := (owed_concat_note before addr).mpr
      (hnoted before addr (notes.map .noteAddress ++ rest) hops hlive hunknown)
    have hforced := ((tracks _).forced (hstatus before addr hlive)).mpr howed
    have hstill := forced_after_notes hforced notes
    rw [List.append_assoc, List.singleton_append] at hstill
    rw [MapsScanner.due, hstill, Bool.true_or]

/-- The heap at the bottom, an arena above it, and an address the heap grew to:
it lies between the two, and is passed over. -/
theorem forcesRescan_hole : ¬ ∀ ops, ForcesRescan ops := by
  intro hall
  have hdue := hall
    [.scanText ("1000-2000 rw-p 0 0:0 0 [heap]\n9000-a000 rw-p 0 0:0 0\n".toList.map Char.toNat) 7,
      .noteAddress 0x2010] [.scanText
      ("1000-2000 rw-p 0 0:0 0 [heap]\n9000-a000 rw-p 0 0:0 0\n".toList.map Char.toNat) 7]
    0x2010 [] [] rfl (by decide +kernel) (by decide +kernel) 7
  exact absurd hdue (by decide +kernel)

end Heapviz
