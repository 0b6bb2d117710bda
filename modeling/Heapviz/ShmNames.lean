import Heapviz.RingMapping

/-!
# Segment names

A target names its segment after its process id; a reaper reads the ids
back from the entries under /dev/shm and unlinks what belongs to a process
that is gone. The formatter runs inside the target and may not allocate;
the parser is another hand, in another program, and reads whatever a
directory holds.

- `hvShmName_eq`: the name is the prefix and the shortest decimal numeral.
- `parsePid_iff`: the parser takes the prefix and any numeral of a value
  that fits, with leading zeros or not.
- `parsePid_eq_name_iff`: so the two are inverse but on `Padded` entries.
-/

namespace Heapviz

/-! ## The two sides -/

/-- `HV_SHM_NAME_PREFIX`: "/heapviz_shm_". -/
def hvShmNamePrefix : List Nat :=
  [0x2F, 0x68, 0x65, 0x61, 0x70, 0x76, 0x69, 0x7A, 0x5F, 0x73, 0x68, 0x6D, 0x5F]

def hvShmNameMax : Nat := 32

/-- The digits `hv_shm_name` leaves in its scratch array, lowest first; `room` is
what the array still holds. -/
def hvShmDigits : Nat → Nat → List Nat
  | 0, _ => []
  | room + 1, v => (0x30 + v % 10) :: if v / 10 = 0 then [] else hvShmDigits room (v / 10)

/-- `hv_shm_name`: the string in the buffer. Its length is what the function returns. -/
def hvShmName (buflen : Nat) (pid : Int) : List Nat :=
  if buflen < hvShmNameMax then []
  else hvShmNamePrefix ++ (hvShmDigits 16 (pid.toNat % 2 ^ 32)).reverse

def parsePidLoop : List Nat → Nat → Option Nat
  | [], v => some v
  | c :: rest, v =>
      if isDigit c = false then none
      else if v * 10 + (c - 0x30) > 0x7FFFFFFF then none
      else parsePidLoop rest (v * 10 + (c - 0x30))

/-- `parse_pid`. The directory entry lacks the slash of the prefix. -/
def parsePid (entry : List Nat) : Option Int :=
  if hvShmNamePrefix.tail.isPrefixOf entry = false then none
  else
    let digits := entry.drop hvShmNamePrefix.tail.length
    if digits = [] then none else (parsePidLoop digits 0).map Int.ofNat

/-! ## The reaper -/

inductive KillAnswer where
  | ok
  | esrch
  | other
deriving Repr, DecidableEq

/-- What the kernel answers the reaper: `kill(pid, 0)`, the size `stat` gives, and
whether `shm_unlink` succeeds. -/
structure ShmAnswers where
  kill : Int → KillAnswer
  stat : List Nat → Option Nat
  unlink : List Nat → Bool

def ShmAnswers.pidAlive (sys : ShmAnswers) (pid : Int) : Bool :=
  if pid ≤ 0 then false else sys.kill pid != .esrch

structure StaleSegment where
  name : List Nat
  pid : Int
  bytes : Nat
  ownerAlive : Bool
deriving Repr, DecidableEq

def ShmAnswers.segmentAt (sys : ShmAnswers) (entry : List Nat) : Option StaleSegment :=
  (parsePid entry).map fun pid =>
    ⟨entry, pid, (sys.stat entry).getD 0, sys.pidAlive pid⟩

/-- `list_segments`, over what `opendir` and `readdir` find. -/
def ShmAnswers.listSegments (sys : ShmAnswers) (dir : Option (List (List Nat))) :
    List StaleSegment :=
  (dir.getD []).filterMap sys.segmentAt

/-- What a reaping has done: the names given to `shm_unlink`, the segments counted
as removed and their bytes. -/
structure Reaped where
  unlinked : List (List Nat)
  removed : Nat
  freed : Nat
deriving Repr, DecidableEq

def ShmAnswers.reapOne (sys : ShmAnswers) (dryRun : Bool) (done : Reaped) (s : StaleSegment) :
    Reaped :=
  if s.ownerAlive then done
  else if dryRun then { done with removed := done.removed + 1, freed := add64 done.freed s.bytes }
  else
    let tried := { done with unlinked := done.unlinked ++ [0x2F :: s.name] }
    if sys.unlink (0x2F :: s.name) = false then tried
    else { tried with removed := tried.removed + 1, freed := add64 tried.freed s.bytes }

/-- `reap_stale_segments`. -/
def ShmAnswers.reapStaleSegments (sys : ShmAnswers) (dryRun : Bool)
    (dir : Option (List (List Nat))) : Reaped :=
  (sys.listSegments dir).foldl (sys.reapOne dryRun) ⟨[], 0, 0⟩

/-! ## What the formatter writes -/

theorem decimalText_of_lt {v : Nat} (h : v < 10) : decimalText v = [0x30 + v] := by
  rw [decimalText, Numerals.digits_of_lt h, Nat.add_comm]
  rfl

theorem decimalText_of_le {v : Nat} (h : 10 ≤ v) :
    decimalText v = decimalText (v / 10) ++ [0x30 + v % 10] := by
  rw [decimalText, Numerals.digits_of_le (by decide) h, List.map_append, Nat.add_comm 0x30]
  rfl

theorem hvShmDigits_eq {room v : Nat} (hroom : 0 < room) (h : v < 10 ^ room) :
    (hvShmDigits room v).reverse = decimalText v := by
  induction room generalizing v with
  | zero => omega
  | succ room ih =>
      rw [hvShmDigits, List.reverse_cons]
      by_cases hv : v < 10
      · rw [if_pos (by omega), decimalText_of_lt hv, Nat.mod_eq_of_lt hv]
        rfl
      · have hq : v / 10 < 10 ^ room := by
          rw [Nat.pow_succ] at h
          omega
        have hroom : 0 < room := Nat.pos_of_ne_zero fun h0 => by
          rw [h0] at hq
          omega
        rw [if_neg (by omega), ih hroom hq, decimalText_of_le (Nat.le_of_not_lt hv)]

/-- The scratch array is long enough for every id. -/
theorem hvShmName_eq (pid : Int) :
    hvShmName hvShmNameMax pid = hvShmNamePrefix ++ decimalText (pid.toNat % 2 ^ 32) := by
  rw [hvShmName, if_neg (Nat.lt_irrefl _), hvShmDigits_eq (by decide) (by omega)]

theorem hvShmName_ofNat {n : Nat} (h : n < 2 ^ 32) :
    hvShmName hvShmNameMax (n : Int) = hvShmNamePrefix ++ decimalText n := by
  rw [hvShmName_eq, Int.toNat_natCast, Nat.mod_eq_of_lt h]

/-- Every name and the zero behind it fit the buffer. -/
theorem length_hvShmName (pid : Int) : (hvShmName hvShmNameMax pid).length < hvShmNameMax := by
  have hdigits : (decimalText (pid.toNat % 2 ^ 32)).length ≤ 10 := by
    rw [decimalText, List.length_map]
    exact Numerals.length_digits_le (by decide) (by decide) (by omega)
  rw [hvShmName_eq, List.length_append]
  exact Nat.lt_of_le_of_lt (Nat.add_le_add_left hdigits _) (by decide)

theorem decimalText_injective {m n : Nat} (h : decimalText m = decimalText n) : m = n := by
  rw [← decimal_decimalText m, h, decimal_decimalText]

/-! ## What the parser takes -/

theorem decimal_concat (pre : List Nat) (c : Nat) :
    decimal (pre ++ [c]) = decimal pre * 10 + (c - 0x30) := by
  rw [decimal, List.map_append]
  exact Numerals.value_concat _ _

theorem decimal_le_append (s t : List Nat) : decimal s ≤ decimal (s ++ t) := by
  rw [decimal, decimal, List.map_append]
  exact Numerals.value_le_append (by decide) _ _

theorem parsePidLoop_iff {s pre : List Nat} {n : Nat} (hpre : decimal pre ≤ 0x7FFFFFFF) :
    parsePidLoop s (decimal pre) = some n ↔
      (∀ c ∈ s, isDigit c = true) ∧ decimal (pre ++ s) ≤ 0x7FFFFFFF ∧ n = decimal (pre ++ s) := by
  induction s generalizing pre with
  | nil =>
      rw [parsePidLoop, List.append_nil, Option.some_inj]
      exact ⟨fun h => ⟨fun _ h' => absurd h' List.not_mem_nil, hpre, h.symm⟩, fun h => h.2.2.symm⟩
  | cons c s ih =>
      have hstep : pre ++ c :: s = (pre ++ [c]) ++ s := by simp
      rw [parsePidLoop, ← decimal_concat]
      cases hc : isDigit c with
      | false => simp [hc]
      | true =>
          by_cases hfit : decimal (pre ++ [c]) ≤ 0x7FFFFFFF
          · rw [if_neg (by decide), if_neg (by omega), ih hfit, hstep]
            simp [hc]
          · have hmore := decimal_le_append (pre ++ [c]) s
            rw [if_neg (by decide), if_pos (by omega), hstep]
            simp only [reduceCtorEq, false_iff, not_and]
            intro _ hle
            omega

theorem parsePid_iff {e : List Nat} {pid : Int} :
    parsePid e = some pid ↔
      ∃ ds, e = hvShmNamePrefix.tail ++ ds ∧ ds ≠ [] ∧ (∀ c ∈ ds, isDigit c = true) ∧
        decimal ds ≤ 0x7FFFFFFF ∧ pid = decimal ds := by
  have hloop (ds : List Nat) (n : Nat) :=
    @parsePidLoop_iff ds [] n (by decide)
  unfold parsePid
  by_cases hpre : hvShmNamePrefix.tail <+: e
  · obtain ⟨ds, rfl⟩ := hpre
    have hpre' : hvShmNamePrefix.tail.isPrefixOf (hvShmNamePrefix.tail ++ ds) = true :=
      List.isPrefixOf_iff_prefix.mpr (List.prefix_append _ _)
    rw [hpre', if_neg (by decide), List.drop_left]
    by_cases hds : ds = []
    · rw [if_pos hds]
      refine ⟨(nomatch ·), fun ⟨ds', heq, hne, _⟩ => absurd ?_ hne⟩
      rw [← List.append_cancel_left heq, hds]
    · rw [if_neg hds, Option.map_eq_some_iff]
      constructor
      · rintro ⟨n, hn, rfl⟩
        obtain ⟨hall, hfit, rfl⟩ := (hloop ds n).mp hn
        exact ⟨ds, rfl, hds, hall, hfit, rfl⟩
      · rintro ⟨ds', heq, _, hall, hfit, rfl⟩
        rw [List.append_cancel_left heq]
        exact ⟨decimal ds', (hloop ds' _).mpr ⟨hall, hfit, rfl⟩, rfl⟩
  · have hpre' : hvShmNamePrefix.tail.isPrefixOf e = false := by
      rw [← Bool.not_eq_true, List.isPrefixOf_iff_prefix]
      exact hpre
    rw [if_pos hpre']
    refine ⟨(nomatch ·), fun ⟨ds, heq, _⟩ => absurd ?_ hpre⟩
    rw [heq]
    exact List.prefix_append _ _

/-! ## Where the two agree -/

/-- An entry the parser takes and no target can have made: a numeral of more than one
digit that begins with zero, behind the prefix. -/
def Padded (e : List Nat) : Prop :=
  ∃ ds, e = hvShmNamePrefix.tail ++ 0x30 :: ds ∧ ds ≠ [] ∧ (∀ c ∈ ds, isDigit c = true) ∧
    decimal ds ≤ 0x7FFFFFFF

/-- The entry is the segment of a process id. -/
def SegmentOf (e : List Nat) (pid : Int) : Prop :=
  0 ≤ pid ∧ pid ≤ 2 ^ 31 - 1 ∧ 0x2F :: e = hvShmName hvShmNameMax pid

theorem segmentOf_iff {e : List Nat} {pid : Int} :
    SegmentOf e pid ↔
      ∃ n : Nat, pid = n ∧ n ≤ 0x7FFFFFFF ∧ e = hvShmNamePrefix.tail ++ decimalText n := by
  have hname {n : Nat} (hn : n ≤ 0x7FFFFFFF) :
      hvShmName hvShmNameMax (n : Int) = 0x2F :: (hvShmNamePrefix.tail ++ decimalText n) :=
    hvShmName_ofNat (by omega)
  constructor
  · rintro ⟨hpos, hle, he⟩
    obtain ⟨n, rfl⟩ := Int.eq_ofNat_of_zero_le hpos
    have hn : n ≤ 0x7FFFFFFF := by omega
    rw [hname hn] at he
    exact ⟨n, rfl, hn, (List.cons.inj he).2⟩
  · rintro ⟨n, rfl, hn, rfl⟩
    exact ⟨by omega, by omega, (hname hn).symm⟩

theorem decimal_zero_cons (ds : List Nat) : decimal (0x30 :: ds) = decimal ds :=
  Numerals.value_zeros_append 1 _

/-- A decimal numeral without leading zeros is the one written for its value. -/
theorem decimalText_decimal {c : Nat} {cs : List Nat} (h : ∀ b ∈ c :: cs, isDigit b = true)
    (hlead : c = 0x30 → cs = []) : decimalText (decimal (c :: cs)) = c :: cs := by
  have hrange {b : Nat} (hb : b ∈ c :: cs) : 0x30 ≤ b ∧ b ≤ 0x39 := by
    simpa [isDigit] using h b hb
  have hdigit : ∀ d ∈ (c - 0x30) :: cs.map (· - 0x30), d < 10 := by
    rw [← List.map_cons (f := (· - 0x30))]
    intro d hd
    obtain ⟨b, hb, rfl⟩ := List.mem_map.mp hd
    have hb := hrange hb
    omega
  have hzero : c - 0x30 = 0 → cs.map (· - 0x30) = [] := fun h0 => by
    have hc := hrange List.mem_cons_self
    rw [hlead (by omega), List.map_nil]
  rw [decimalText, decimal, List.map_cons, Numerals.digits_value (by decide) hdigit hzero,
    ← List.map_cons (f := (· - 0x30)), List.map_map]
  refine (List.map_congr_left fun b hb => ?_).trans (List.map_id _)
  exact Nat.sub_add_cancel (hrange hb).1

theorem parsePid_decimalText {n : Nat} (hn : n ≤ 0x7FFFFFFF) :
    parsePid (hvShmNamePrefix.tail ++ decimalText n) = some n := by
  refine parsePid_iff.mpr ⟨_, rfl, ?_, fun c => isDigit_of_mem_decimalText, ?_, ?_⟩
  · rw [decimalText, ne_eq, List.map_eq_nil_iff]
    exact Numerals.digits_ne_nil 10 n
  · rw [decimal_decimalText]
    exact hn
  · rw [decimal_decimalText]

/-- The parser gives the id back of every name the formatter writes, and takes no other
entry but the padded ones. -/
theorem parsePid_eq_some_iff {e : List Nat} (he : ¬ Padded e) {pid : Int} :
    parsePid e = some pid ↔ SegmentOf e pid := by
  rw [segmentOf_iff]
  constructor
  · intro h
    obtain ⟨ds, rfl, hne, hall, hfit, rfl⟩ := parsePid_iff.mp h
    obtain ⟨c, cs, rfl⟩ := List.exists_cons_of_ne_nil hne
    refine ⟨decimal (c :: cs), rfl, hfit, ?_⟩
    rw [decimalText_decimal hall]
    rintro rfl
    by_contra hcs
    rw [decimal_zero_cons] at hfit
    exact he ⟨cs, rfl, hcs, fun b hb => hall b (List.mem_cons_of_mem _ hb), hfit⟩
  · rintro ⟨n, rfl, hn, rfl⟩
    exact parsePid_decimalText hn

/-- A padded entry is taken for the segment of a process, and is no process's. -/
theorem Padded.parsePid {e : List Nat} (he : Padded e) :
    ∃ pid, parsePid e = some pid ∧ ∀ pid', ¬ SegmentOf e pid' := by
  obtain ⟨ds, rfl, hne, hall, hfit⟩ := he
  refine ⟨(decimal ds : Int), parsePid_iff.mpr ⟨_, rfl, List.cons_ne_nil _ _, ?_, ?_, ?_⟩, ?_⟩
  · intro c hc
    rcases List.mem_cons.mp hc with rfl | hc
    · rfl
    · exact hall c hc
  · rwa [decimal_zero_cons]
  · rw [decimal_zero_cons]
  · intro pid' h
    obtain ⟨n, -, -, heq⟩ := segmentOf_iff.mp h
    have htext : decimalText n = 0x30 :: ds := (List.append_cancel_left heq).symm
    obtain ⟨d, rest, hdigits, hd, rfl⟩ := List.map_eq_cons_iff.mp htext
    have hlead := Numerals.digits_head_ne_zero hdigits fun h0 => hne (by rw [h0, List.map_nil])
    omega

/-! ## What is reaped -/

/-- The entries a segment may be reaped for. -/
theorem mem_listSegments {sys : ShmAnswers} {dir : List (List Nat)} {s : StaleSegment} :
    s ∈ sys.listSegments (some dir) ↔ s.name ∈ dir ∧ sys.segmentAt s.name = some s := by
  rw [ShmAnswers.listSegments, List.mem_filterMap]
  constructor
  · rintro ⟨e, he, hs⟩
    have hname : s.name = e := by
      obtain ⟨pid, -, rfl⟩ := Option.map_eq_some_iff.mp hs
      rfl
    rw [hname]
    exact ⟨he, hs⟩
  · rintro ⟨he, hs⟩
    exact ⟨_, he, hs⟩

theorem ShmAnswers.reapOne_unlinked {sys : ShmAnswers} {dryRun : Bool} {done : Reaped}
    {s : StaleSegment} {name : List Nat} (h : name ∈ (sys.reapOne dryRun done s).unlinked) :
    name ∈ done.unlinked ∨ name = 0x2F :: s.name ∧ s.ownerAlive = false := by
  unfold reapOne at h
  split at h
  · exact .inl h
  · rename_i halive
    split at h
    · exact .inl h
    · have htried : name ∈ done.unlinked ++ [0x2F :: s.name] := by
        dsimp only at h
        split at h <;> exact h
      refine (List.mem_append.mp htried).imp_right fun hs => ⟨List.mem_singleton.mp hs, ?_⟩
      exact Bool.eq_false_iff.mpr halive

theorem ShmAnswers.foldl_reapOne_unlinked {sys : ShmAnswers} {dryRun : Bool} {name : List Nat}
    (segs : List StaleSegment) {done : Reaped}
    (h : name ∈ (segs.foldl (sys.reapOne dryRun) done).unlinked) :
    name ∈ done.unlinked ∨ ∃ s ∈ segs, name = 0x2F :: s.name ∧ s.ownerAlive = false := by
  induction segs generalizing done with
  | nil => exact .inl h
  | cons s segs ih =>
      rcases ih h with h | ⟨s', hs', h⟩
      · exact (reapOne_unlinked h).imp_right fun hs => ⟨s, List.mem_cons_self, hs⟩
      · exact .inr ⟨s', List.mem_cons_of_mem _ hs', h⟩

/-- What is unlinked is in the list, and its owner is gone. -/
theorem ShmAnswers.unlinked_listed {sys : ShmAnswers} {dryRun : Bool}
    {dir : Option (List (List Nat))} {name : List Nat}
    (h : name ∈ (sys.reapStaleSegments dryRun dir).unlinked) :
    ∃ s ∈ sys.listSegments dir, name = 0x2F :: s.name ∧ s.ownerAlive = false :=
  (foldl_reapOne_unlinked _ h).resolve_left List.not_mem_nil

/-- Every segment of the list is some process's exactly when no entry is padded. -/
theorem listSegments_named_iff {sys : ShmAnswers} {dir : List (List Nat)} :
    (∀ s ∈ sys.listSegments (some dir), ∃ pid, SegmentOf s.name pid) ↔
      ∀ e ∈ dir, ¬ Padded e := by
  constructor
  · intro h e he hpad
    obtain ⟨pid, hpid, hnone⟩ := hpad.parsePid
    have hlisted : (⟨e, pid, (sys.stat e).getD 0, sys.pidAlive pid⟩ : StaleSegment) ∈
        sys.listSegments (some dir) := by
      refine mem_listSegments.mpr ⟨he, ?_⟩
      rw [ShmAnswers.segmentAt, hpid]
      rfl
    obtain ⟨pid', hseg⟩ := h _ hlisted
    exact hnone pid' hseg
  · intro h s hs
    obtain ⟨hmem, hat⟩ := mem_listSegments.mp hs
    obtain ⟨pid, hpid, hs⟩ := Option.map_eq_some_iff.mp hat
    exact ⟨pid, (parsePid_eq_some_iff (h _ hmem)).mp hpid⟩

theorem hvShmName_injective {m n : Int} (hm : 0 ≤ m ∧ m ≤ 2 ^ 31 - 1) (hn : 0 ≤ n ∧ n ≤ 2 ^ 31 - 1)
    (h : hvShmName hvShmNameMax m = hvShmName hvShmNameMax n) : m = n := by
  rw [hvShmName_eq, hvShmName_eq] at h
  have htext := decimalText_injective (List.append_cancel_left h)
  omega

/-- An entry is read back as the process it names, and as no other, exactly when it is
not padded; a list of segments holds only what targets made exactly when the directory
holds no padded entry, and the reaper unlinks nothing else. Names of two processes differ
and fit the buffer. -/
theorem segment_names (e : List Nat) (sys : ShmAnswers) (dryRun : Bool) (dir : List (List Nat)) :
    ((∀ pid, parsePid e = some pid ↔
        0 ≤ pid ∧ pid ≤ 2 ^ 31 - 1 ∧ 0x2F :: e = hvShmName hvShmNameMax pid) ↔ ¬ Padded e) ∧
      ((∀ s ∈ sys.listSegments (some dir), ∃ pid, SegmentOf s.name pid) ↔
        ∀ e ∈ dir, ¬ Padded e) ∧
      (∀ listing : Option (List (List Nat)),
        ∀ name ∈ (sys.reapStaleSegments dryRun listing).unlinked,
          ∃ s ∈ sys.listSegments listing, name = 0x2F :: s.name ∧ s.ownerAlive = false) ∧
      (∀ m n : Int, 0 ≤ m ∧ m ≤ 2 ^ 31 - 1 → 0 ≤ n ∧ n ≤ 2 ^ 31 - 1 →
        hvShmName hvShmNameMax m = hvShmName hvShmNameMax n → m = n) ∧
      ∀ pid : Int, (hvShmName hvShmNameMax pid).length < hvShmNameMax := by
  refine ⟨⟨fun h hpad => ?_, fun he pid => parsePid_eq_some_iff he⟩, listSegments_named_iff,
    fun listing name => sys.unlinked_listed, fun m n => hvShmName_injective, length_hvShmName⟩
  obtain ⟨pid, hpid, hnone⟩ := hpad.parsePid
  exact hnone pid ((h pid).mp hpid)

/-- "heapviz_shm_007" is read as process 7, and goes when process 7 is gone. -/
theorem padded_segment_reaped :
    let e := hvShmNamePrefix.tail ++ [0x30, 0x30, 0x37]
    ¬ (parsePid e = some 7 ↔
        (0 : Int) ≤ 7 ∧ (7 : Int) ≤ 2 ^ 31 - 1 ∧ 0x2F :: e = hvShmName hvShmNameMax 7) ∧
      ((ShmAnswers.mk (fun _ => .esrch) (fun _ => none) (fun _ => true)).reapStaleSegments
        false (some [e])).unlinked = [0x2F :: e] := by
  exact ⟨fun h => absurd (h.mp rfl).2.2 (by decide), rfl⟩

end Heapviz
