import Heapviz.Intervals
import Heapviz.MapsNotice

/-!
# What a scan keeps of its text

`scan_text` (`tui/proc_maps.cpp`) cuts the text at newlines, in one pass and
without a final newline to rely on, and what it makes of the lines is the
list of regions, a count of lines it could not read, the hull of what is
allocatable and the arena counts. `find` then searches the list as it came:
nothing sorts it, and regions of no size stand in the searched range.

- `scanLines_eq`: the lines are those between the newlines, less the empty
  ones, each parsed once and in order.
- `find_eq_some`: in an ascending list the search is exact.
- `scan_text_keeps`: both, with the hull and the counts.
-/

namespace Heapviz

open Intervals

/-! ## The lines -/

/-- What `scan_text` makes of one line: a region, or none where it counts the line
as malformed. -/
def parsedLine (line : List Nat) : Option Region :=
  match parseMapsLine line ⟨⟨⟨0, 0, .other, false⟩, 0⟩, 0, 0⟩ with
  | (true, r) => some r.toRegion
  | (false, _) => none

/-- The non-empty lines of a text. -/
def textLines (text : List Nat) : List (List Nat) :=
  (text.splitOn 0x0A).filter fun line => line ≠ []

theorem textLines_append_cons {line : List Nat} (h : 0x0A ∉ line) (rest : List Nat) :
    textLines (line ++ 0x0A :: rest) =
      if line = [] then textLines rest else line :: textLines rest := by
  rw [textLines, List.splitOn_append_cons_self_of_not_mem h, List.filter_cons]
  by_cases hline : line = [] <;> simp [textLines, hline]

theorem textLines_of_not_mem {line : List Nat} (h : 0x0A ∉ line) :
    textLines line = if line = [] then [] else [line] := by
  rw [textLines, List.splitOn_eq_singleton h, List.filter_singleton]
  by_cases hline : line = [] <;> simp [hline]

/-- The text up to its first newline. -/
def firstLine (text : List Nat) : List Nat := text.takeWhile (· != 0x0A)

/-- The text behind its first newline. -/
def behindLine (text : List Nat) : List Nat := (text.dropWhile (· != 0x0A)).drop 1

theorem textLines_eq (text : List Nat) :
    textLines text =
      if firstLine text = [] then textLines (behindLine text)
      else firstLine text :: textLines (behindLine text) := by
  have hline : 0x0A ∉ firstLine text := fun h => nomatch List.mem_takeWhile_imp h
  have htext : firstLine text ++ text.dropWhile (· != 0x0A) = text :=
    List.takeWhile_append_dropWhile
  unfold behindLine
  cases hrest : text.dropWhile (· != 0x0A) with
  | nil =>
      rw [hrest, List.append_nil] at htext
      rw [List.drop_nil, htext]
      exact textLines_of_not_mem (htext ▸ hline)
  | cons c rest =>
      have hc : c = 0x0A := by
        have hhead := List.head?_dropWhile_not (· != 0x0A) text
        rw [hrest] at hhead
        simpa using hhead
      rw [hrest, hc] at htext
      nth_rewrite 1 [← htext]
      exact textLines_append_cons hline rest

/-- One turn of the loop. -/
theorem scanLines_cons (c : Nat) (text : List Nat) :
    scanLines (c :: text) =
      if firstLine (c :: text) = [] then scanLines (behindLine (c :: text))
      else parsedLine (firstLine (c :: text)) :: scanLines (behindLine (c :: text)) := by
  rw [scanLines]
  unfold parsedLine
  split
  · rename_i hline
    exact (if_pos hline).symm
  · rename_i hline
    refine Eq.trans ?_ (if_neg hline).symm
    split <;> rename_i hparse <;> rw [firstLine, hparse] <;> rfl

/-- The loop visits each line once, in order. -/
theorem scanLines_eq (text : List Nat) : scanLines text = (textLines text).map parsedLine := by
  induction hlen : text.length using Nat.strong_induction_on generalizing text with
  | _ n ih =>
      cases text with
      | nil =>
          rw [scanLines]
          rfl
      | cons c text =>
          have hless : (behindLine (c :: text)).length < n := by
            have hle := ((c :: text).dropWhile_sublist (· != 0x0A)).length_le
            rw [behindLine, List.length_drop]
            rw [List.length_cons] at hlen hle
            omega
          rw [scanLines_cons, textLines_eq, ih _ hless _ rfl]
          split <;> rfl

/-- A line whose range is inverted is malformed. -/
theorem parsedLine_ordered {line : List Nat} {r : Region} (h : parsedLine line = some r) :
    r.start ≤ r.limit := by
  unfold parsedLine parseMapsLine at h
  cases hfields : parseFields (line.rdropWhile isEol) with
  | none =>
      rw [hfields] at h
      cases h
  | some m =>
      rw [hfields] at h
      cases h
      obtain ⟨p, f, -, hp, -, rfl⟩ := parseFields_iff.mp hfields
      exact hp.ordered

/-! ## The hull -/

/-- The emptiness of the hull is that of the regions it is made of. -/
theorem HullOf.isEmpty_iff {regions : List Region} {b : AddrRange} (h : HullOf regions b) :
    b.isEmpty = true ↔ ∀ r ∈ regions, ¬ r.Counts := by
  constructor
  · intro hempty r hr hcounts
    have hcov := h.covers r hr hcounts
    have hlt := hcounts.start_lt
    rw [AddrRange.isEmpty, decide_eq_true_eq] at hempty
    omega
  · intro hnone
    by_contra hne
    obtain ⟨r, hr, hcounts, -⟩ := h.base (Bool.eq_false_iff.mpr hne)
    exact hnone r hr hcounts

/-! ## The search -/

def MapsScanner.findLoop (s : MapsScanner) (addr : Nat) : Nat → Nat → Nat → Option Region
  | 0, _, _ => none
  | fuel + 1, lo, hi =>
      if lo < hi then
        let mid := lo + (hi - lo) / 2
        match s.regions[mid]? with
        | none => none
        | some r =>
            if addr < r.start then s.findLoop addr fuel lo mid
            else if addr ≥ r.limit then s.findLoop addr fuel (mid + 1) hi
            else some r
      else none

/-- `MapsScanner::find`; the range shrinks every round. -/
def MapsScanner.find (s : MapsScanner) (addr : Nat) : Option Region :=
  s.findLoop addr (s.regions.length + 1) 0 s.regions.length

theorem findLoop_eq_search (s : MapsScanner) (addr fuel i j : Nat) :
    s.findLoop addr fuel i j = search Region.start Region.limit s.regions addr fuel i j := by
  induction fuel generalizing i j with
  | zero => rfl
  | succ fuel ih =>
      unfold MapsScanner.findLoop search
      simp only [ih]
      cases s.regions[i + (j - i) / 2]? <;> rfl

theorem find_eq_some {s : MapsScanner} (hs : Ascending Region.start Region.limit s.regions)
    {addr : Nat} {r : Region} :
    s.find addr = some r ↔ r ∈ s.regions ∧ r.start ≤ addr ∧ addr < r.limit := by
  unfold MapsScanner.find
  rw [findLoop_eq_search, search_eq_some hs]
  rfl

/-! ## A scan -/

theorem scanText_regions (s : MapsScanner) (text : List Nat) (nowMs : Nat) :
    (s.scanText text nowMs).regions = (textLines text).filterMap parsedLine := by
  rw [MapsScanner.scanText, scanLines_eq]
  exact List.filterMap_map ..

/-- The regions a text can give are in order each for itself. -/
theorem scanText_ascending {s : MapsScanner} {text : List Nat} {nowMs : Nat}
    (h : (s.scanText text nowMs).regions.Pairwise fun a b => a.limit ≤ b.start) :
    Ascending Region.start Region.limit (s.scanText text nowMs).regions := by
  refine ⟨fun r hr => ?_, h⟩
  rw [scanText_regions] at hr
  obtain ⟨line, -, hline⟩ := List.mem_filterMap.mp hr
  exact parsedLine_ordered hline

/-- Every non-empty line gives its region, in order, or is counted as malformed; the
bounds are the hull of what is allocatable, empty if nothing is; the arenas are those
of the list, while their number fits the counter; and in an ascending list the search
finds the region an address is in. -/
theorem scan_text_keeps (s : MapsScanner) (text : List Nat) (nowMs : Nat) :
    (s.scanText text nowMs).regions = (textLines text).filterMap parsedLine ∧
      (s.scanText text nowMs).malformed =
        s.malformed + (textLines text).countP (fun line => (parsedLine line).isNone) ∧
      HullOf (s.scanText text nowMs).regions (s.scanText text nowMs).bounds ∧
      ((s.scanText text nowMs).bounds.isEmpty = true ↔
        ∀ r ∈ (s.scanText text nowMs).regions, ¬ r.Counts) ∧
      ((s.scanText text nowMs).mainArena = true ↔
        ∃ r ∈ (s.scanText text nowMs).regions, r.kind = .heap) ∧
      ((s.scanText text nowMs).regions.countP (·.threadArena) < 2 ^ 32 →
        (s.scanText text nowMs).threadArenas =
          (s.scanText text nowMs).regions.countP (·.threadArena)) ∧
      ((s.scanText text nowMs).regions.Pairwise (fun a b => a.limit ≤ b.start) →
        ∀ addr r, (s.scanText text nowMs).find addr = some r ↔
          r ∈ (s.scanText text nowMs).regions ∧ r.start ≤ addr ∧ addr < r.limit) := by
  have hhull : HullOf (s.scanText text nowMs).regions (s.scanText text nowMs).bounds :=
    hullOf_foldl _
  refine ⟨scanText_regions s text nowMs, ?_, hhull, hhull.isEmpty_iff, ?_,
    fun hfits => Nat.mod_eq_of_lt hfits,
    fun hasc addr r => find_eq_some (scanText_ascending hasc)⟩
  · rw [MapsScanner.scanText, scanLines_eq]
    exact congrArg (s.malformed + ·) (List.countP_map ..)
  · refine List.any_eq_true.trans ?_
    simp only [beq_iff_eq]
    rfl

/-! ## More arenas than the counter holds -/

/-- A page at address zero, readable, writable and private. -/
def arenaLine : List Nat := "0-1 rw-p 0 0:0 0".toList.map Char.toNat

/-- A text of `n` such lines. -/
def arenaText (n : Nat) : List Nat := (List.replicate n (arenaLine ++ [0x0A])).flatten

theorem textLines_arenaText (n : Nat) : textLines (arenaText n) = List.replicate n arenaLine := by
  induction n with
  | zero => rfl
  | succ n ih =>
      rw [arenaText, List.replicate_succ, List.flatten_cons, List.append_assoc,
        List.singleton_append, textLines_append_cons (by decide), if_neg (by decide),
        List.replicate_succ]
      exact congrArg (arenaLine :: ·) ih

theorem countP_arenaText (s : MapsScanner) (n nowMs : Nat) :
    (s.scanText (arenaText n) nowMs).regions.countP (·.threadArena) = n := by
  have hparse : parsedLine arenaLine = some ⟨0, 1, .anon, true⟩ := by decide
  rw [scanText_regions, textLines_arenaText, List.filterMap_replicate_of_some hparse,
    List.countP_replicate]
  rfl

theorem threadArenas_arenaText (s : MapsScanner) (n nowMs : Nat) :
    (s.scanText (arenaText n) nowMs).threadArenas = n % 2 ^ 32 :=
  congrArg (· % 2 ^ 32) (countP_arenaText s n nowMs)

/-- A text of 2^32 thread arenas: the count comes back to zero. -/
theorem scan_text_wraps :
    ¬ ∀ (s : MapsScanner) (text : List Nat) (nowMs : Nat),
      (s.scanText text nowMs).threadArenas =
        (s.scanText text nowMs).regions.countP (·.threadArena) := by
  intro h
  have hmod : ∀ n, n % 2 ^ 32 = n := fun n => by
    have hn := h .init (arenaText n) 0
    rwa [threadArenas_arenaText, countP_arenaText] at hn
  exact absurd (hmod (2 ^ 32)) (by decide)

end Heapviz
