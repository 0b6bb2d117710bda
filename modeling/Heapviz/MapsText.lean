import Mathlib.Data.List.DropRight
import Mathlib.Data.List.TakeWhile
import Heapviz.HeapWalker
import Heapviz.Numerals

/-!
# One line of the maps file

`parse_maps_line` (`tui/proc_maps.cpp`) reads

    start-end perms offset major:minor inode    path

with a loop for each field. A loop takes as many characters of its kind as
there are, so a field ends where its characters do; `parseHex_iff` and
`parseDec_iff` say so. What a line means is said apart from that: it is cut
into pieces, and the pieces denote fields (`MapsPieces.Denotes`). The two
meet in `parseFields_iff`.

The decimal loop refuses to go on from a value above `(UINT64_MAX - 9) / 10`,
so that the next digit cannot overflow. That is one too careful: from
1844674407370955161, six digits would still fit.
-/

namespace Heapviz

/-! ## The loops -/

/-- The digit a character is in `parse_hex`. -/
def hexDigit (c : Nat) : Option Nat :=
  if 0x30 ≤ c ∧ c ≤ 0x39 then some (c - 0x30)
  else if 0x61 ≤ c ∧ c ≤ 0x66 then some (c - 0x61 + 10)
  else if 0x41 ≤ c ∧ c ≤ 0x46 then some (c - 0x41 + 10)
  else none

/-- The loop of `parse_hex`: how many digits there were, their value and what
is left; none at the seventeenth. -/
def parseHexLoop : List Nat → Nat → Nat → Option (Nat × Nat × List Nat)
  | [], count, v => some (count, v, [])
  | c :: s, count, v =>
      match hexDigit c with
      | none => some (count, v, c :: s)
      | some d => if count ≥ 16 then none else parseHexLoop s (count + 1) ((v <<< 4) % 2 ^ 64 ||| d)

/-- `parse_hex`, with what is left of the line. -/
def parseHex (s : List Nat) : Option (Nat × List Nat) :=
  match parseHexLoop s 0 0 with
  | none => none
  | some (count, v, rest) => if count = 0 then none else some (v, rest)

/-- The decimal digit a character is. -/
def decDigit (c : Nat) : Option Nat := if 0x30 ≤ c ∧ c ≤ 0x39 then some (c - 0x30) else none

/-- The loop of `parse_dec`. -/
def parseDecLoop : List Nat → Nat → Nat → Option (Nat × Nat × List Nat)
  | [], count, v => some (count, v, [])
  | c :: s, count, v =>
      match decDigit c with
      | none => some (count, v, c :: s)
      | some d =>
          if v > (2 ^ 64 - 1 - 9) / 10 then none
          else parseDecLoop s (count + 1) ((v * 10 + d) % 2 ^ 64)

/-- `parse_dec`. -/
def parseDec (s : List Nat) : Option (Nat × List Nat) :=
  match parseDecLoop s 0 0 with
  | none => none
  | some (count, v, rest) => if count = 0 then none else some (v, rest)

/-- `skip_spaces`; none where there is none. -/
def skipSpaces (s : List Nat) : Option (List Nat) :=
  if s.head? = some 0x20 then some (s.dropWhile (· == 0x20)) else none

/-- One given character. -/
def expect (c : Nat) : List Nat → Option (List Nat)
  | [] => none
  | c' :: s => if c' = c then some s else none

/-! ## The line -/

def kPermWrite : Nat := 2

def kPermExec : Nat := 4

def kPermPrivate : Nat := 8

/-- One of the four permission characters: its letter, a dash, or in the last
place `s`. -/
def permChar (letter bit : Nat) (last : Bool) (c : Nat) : Option Nat :=
  if c = letter then some bit
  else if c = 0x2D then some 0
  else if last ∧ c = 0x73 then some 0
  else none

def parsePerms : List Nat → Option (Nat × List Nat)
  | c0 :: c1 :: c2 :: c3 :: s => do
      let r ← permChar 0x72 kPermRead false c0
      let w ← permChar 0x77 kPermWrite false c1
      let x ← permChar 0x78 kPermExec false c2
      let p ← permChar 0x70 kPermPrivate true c3
      some (r ||| w ||| x ||| p, s)
  | _ => none

def heapPath : List Nat := "[heap]".toList.map Char.toNat

def stackPath : List Nat := "[stack]".toList.map Char.toNat

/-- `classify`. -/
def classify (path : List Nat) (inode perms : Nat) : RegionKind :=
  if path = heapPath then .heap
  else if path = stackPath then .stack
  else if path.head? = some 0x5B then .other
  else if path ≠ [] ∨ inode ≠ 0 then .file
  else
    let kWant := kPermRead ||| kPermWrite ||| kPermPrivate
    if perms &&& kWant = kWant then .anon else .other

def kThreadArenaAlign : Nat := 64 <<< 20

/-- A region with all its columns. -/
structure MapsRegion extends Mapping where
  fileOffset : Nat
  inode : Nat
deriving Repr, DecidableEq

/-- `parse_maps_line` on a line without its end. -/
def parseFields (line : List Nat) : Option MapsRegion := do
  let (start, s) ← parseHex line
  let s ← expect 0x2D s
  let (limit, s) ← parseHex s
  guard (start ≤ limit)
  let s ← skipSpaces s
  let (perms, s) ← parsePerms s
  let s ← skipSpaces s
  let (fileOffset, s) ← parseHex s
  let s ← skipSpaces s
  let (_, s) ← parseHex s
  let s ← expect 0x3A s
  let (_, s) ← parseHex s
  let s ← skipSpaces s
  let (inode, s) ← parseDec s
  let path := s.dropWhile (· == 0x20)
  let kind := classify path inode perms
  let threadArena := kind == .anon && start &&& (kThreadArenaAlign - 1) == 0 &&
    decide (limit - start ≤ kThreadArenaAlign)
  some ⟨⟨⟨start, limit, kind, threadArena⟩, perms⟩, fileOffset, inode⟩

def isEol (c : Nat) : Bool := c == 0x0A || c == 0x0D

/-- `parse_maps_line`: the flag, and `out` after it. -/
def parseMapsLine (line : List Nat) (out : MapsRegion) : Bool × MapsRegion :=
  match parseFields (line.rdropWhile isEol) with
  | some r => (true, r)
  | none => (false, out)

/-! ## What the loops read -/

def isHex (c : Nat) : Bool := (hexDigit c).isSome

def hexValue (c : Nat) : Nat := (hexDigit c).getD 0

def isDec (c : Nat) : Bool := (decDigit c).isSome

def decValue (c : Nat) : Nat := (decDigit c).getD 0

theorem hexDigit_lt {c d : Nat} (h : hexDigit c = some d) : d < 16 := by
  unfold hexDigit at h
  split_ifs at h <;> simp only [Option.some.injEq] at h <;> omega

theorem decDigit_lt {c d : Nat} (h : decDigit c = some d) : d < 10 := by
  unfold decDigit at h
  split_ifs at h
  simp only [Option.some.injEq] at h
  omega

/-- Shifting a digit in, while there is room for it. -/
theorem shift_or_digit {v d : Nat} (hv : v < 2 ^ 60) (hd : d < 16) :
    (v <<< 4) % 2 ^ 64 ||| d = v * 16 + d := by
  rw [Nat.shiftLeft_eq, Nat.mod_eq_of_lt (by omega), Nat.mul_comm]
  exact (Nat.two_pow_add_eq_or_of_lt (i := 4) hd v).symm.trans (by omega)

/-- The hexadecimal loop, after the digits `pre`, takes all digits there are, if
they are not too many. -/
theorem parseHexLoop_eq : ∀ (s pre : List Nat), pre.length ≤ 16 → (∀ d ∈ pre, d < 16) →
    parseHexLoop s pre.length (Numerals.value 16 pre) =
      if pre.length + (s.takeWhile isHex).length ≤ 16 then
        some (pre.length + (s.takeWhile isHex).length,
          Numerals.value 16 (pre ++ (s.takeWhile isHex).map hexValue), s.dropWhile isHex)
      else none
  | [], pre, hlen, _ => by simp [parseHexLoop, hlen]
  | c :: s, pre, hlen, hpre => by
      cases hc : hexDigit c with
      | none =>
          have hnot : isHex c = false := by rw [isHex, hc]; rfl
          simp [parseHexLoop, hc, hnot, hlen]
      | some d =>
          have his : isHex c = true := by rw [isHex, hc]; rfl
          have hval : hexValue c = d := by rw [hexValue, hc]; rfl
          have hd := hexDigit_lt hc
          rw [parseHexLoop, hc, List.takeWhile_cons_of_pos his, List.dropWhile_cons_of_pos his,
            List.map_cons, List.length_cons]
          dsimp only
          by_cases hfull : pre.length ≥ 16
          · rw [if_pos hfull, if_neg (by omega)]
          · have hlt : Numerals.value 16 pre < 2 ^ 60 := by
              refine lt_of_lt_of_le (Numerals.value_lt (by decide) hpre) ?_
              calc 16 ^ pre.length ≤ 16 ^ 15 := Nat.pow_le_pow_right (by decide) (by omega)
                _ = 2 ^ 60 := by norm_num
            have hrest := parseHexLoop_eq s (pre ++ [d]) (by simp; omega) (by
              intro e he
              rcases List.mem_append.mp he with he | he
              · exact hpre e he
              · rw [List.mem_singleton.mp he]
                exact hd)
            rw [List.length_append, List.length_singleton, Numerals.value_concat,
              List.append_assoc, List.singleton_append] at hrest
            rw [if_neg hfull, shift_or_digit hlt hd, hrest, hval, Nat.add_right_comm,
              Nat.add_assoc]

/-- The largest inode the decimal loop reads. -/
def maxDec : Nat := 18446744073709551609

theorem parseDecLoop_eq : ∀ (s pre : List Nat), Numerals.value 10 pre ≤ maxDec →
    parseDecLoop s pre.length (Numerals.value 10 pre) =
      if Numerals.value 10 (pre ++ (s.takeWhile isDec).map decValue) ≤ maxDec then
        some (pre.length + (s.takeWhile isDec).length,
          Numerals.value 10 (pre ++ (s.takeWhile isDec).map decValue), s.dropWhile isDec)
      else none
  | [], pre, hpre => by simp [parseDecLoop, hpre]
  | c :: s, pre, hpre => by
      cases hc : decDigit c with
      | none =>
          have hnot : isDec c = false := by rw [isDec, hc]; rfl
          simp [parseDecLoop, hc, hnot, hpre]
      | some d =>
          have his : isDec c = true := by rw [isDec, hc]; rfl
          have hval : decValue c = d := by rw [decValue, hc]; rfl
          have hd := decDigit_lt hc
          rw [parseDecLoop, hc, List.takeWhile_cons_of_pos his, List.dropWhile_cons_of_pos his,
            List.map_cons, List.length_cons, hval]
          dsimp only
          by_cases hfull : Numerals.value 10 pre > (2 ^ 64 - 1 - 9) / 10
          · have hmore : Numerals.value 10 (pre ++ [d]) ≤
                Numerals.value 10 (pre ++ [d] ++ (s.takeWhile isDec).map decValue) :=
              Numerals.value_le_append (by decide) _ _
            rw [Numerals.value_concat, List.append_assoc, List.singleton_append] at hmore
            rw [if_pos hfull, if_neg]
            unfold maxDec
            omega
          · have hfits : Numerals.value 10 pre * 10 + d ≤ maxDec := by
              unfold maxDec
              omega
            have hrest := parseDecLoop_eq s (pre ++ [d]) (by rwa [Numerals.value_concat])
            rw [List.length_append, List.length_singleton, Numerals.value_concat,
              List.append_assoc, List.singleton_append] at hrest
            rw [if_neg hfull, Nat.mod_eq_of_lt (by unfold maxDec at hfits; omega), hrest,
              Nat.add_right_comm, Nat.add_assoc]

/-! ## Fields -/

/-- One to sixteen hexadecimal digits, and what they denote. -/
structure IsHex (text : List Nat) (v : Nat) : Prop where
  nonempty : text ≠ []
  short : text.length ≤ 16
  digits : ∀ c ∈ text, isHex c = true
  value : Numerals.value 16 (text.map hexValue) = v

/-- Decimal digits, and what they denote. -/
structure IsDec (text : List Nat) (v : Nat) : Prop where
  nonempty : text ≠ []
  digits : ∀ c ∈ text, isDec c = true
  value : Numerals.value 10 (text.map decValue) = v

structure IsSpaces (text : List Nat) : Prop where
  nonempty : text ≠ []
  spaces : ∀ c ∈ text, c = 0x20

/-- The next character, if there is one, is not of the kind. -/
def Ends (p : Nat → Bool) (rest : List Nat) : Prop := ∀ c, rest.head? = some c → p c = false

theorem ends_nil {p : Nat → Bool} : Ends p [] := nofun

theorem ends_cons {p : Nat → Bool} {c : Nat} {rest : List Nat} (h : p c = false) :
    Ends p (c :: rest) := by
  rintro c' hc'
  rwa [← Option.some.inj hc']

theorem Ends.append {p : Nat → Bool} {text : List Nat} (hne : text ≠ [])
    (h : ∀ c ∈ text, p c = false) (rest : List Nat) : Ends p (text ++ rest) := by
  obtain ⟨c, text, rfl⟩ := List.exists_cons_of_ne_nil hne
  exact ends_cons (h c List.mem_cons_self)

/-- A loop over one kind of character cuts where the kind ends. -/
theorem takeWhile_iff {p : Nat → Bool} {s text rest : List Nat} :
    s.takeWhile p = text ∧ s.dropWhile p = rest ↔
      s = text ++ rest ∧ (∀ c ∈ text, p c = true) ∧ Ends p rest := by
  constructor
  · rintro ⟨rfl, rfl⟩
    refine ⟨List.takeWhile_append_dropWhile.symm, fun c => List.mem_takeWhile_imp, ?_⟩
    intro c hc
    have hnot := List.head?_dropWhile_not p s
    rw [hc] at hnot
    exact hnot
  · rintro ⟨rfl, htext, hrest⟩
    rw [List.takeWhile_append_of_pos htext, List.dropWhile_append_of_pos htext]
    cases rest with
    | nil => simp
    | cons c rest =>
        have hc : p c = false := hrest c rfl
        simp [hc]

/-- What `parse_hex` and `parse_dec` make of their loop, where the loop takes
all characters of its kind there are, if it has room for them. -/
theorem digits_iff {p : Nat → Bool} (room : List Nat → Prop) [DecidablePred room]
    (value : List Nat → Nat) {s rest : List Nat} {v : Nat} :
    ((if room (s.takeWhile p) then
        some ((s.takeWhile p).length, value (s.takeWhile p), s.dropWhile p) else none).bind
      fun r => if r.1 = 0 then none else some r.2) = some (v, rest) ↔
      ∃ text, s = text ++ rest ∧ text ≠ [] ∧ (∀ c ∈ text, p c = true) ∧ room text ∧
        value text = v ∧ Ends p rest := by
  constructor
  · intro h
    obtain ⟨r, heq, hresult⟩ := Option.bind_eq_some_iff.mp h
    obtain ⟨hroom, hsome⟩ := Option.ite_none_right_eq_some.mp heq
    obtain rfl := Option.some.inj hsome
    obtain ⟨hcount, hpair⟩ := Option.ite_none_left_eq_some.mp hresult
    cases hpair
    obtain ⟨happend, hdigits, hends⟩ := takeWhile_iff.mp ⟨rfl, rfl⟩
    refine ⟨_, happend, ?_, hdigits, hroom, rfl, hends⟩
    rwa [ne_eq, ← List.length_eq_zero_iff]
  · rintro ⟨text, happend, hne, hdigits, hroom, rfl, hends⟩
    obtain ⟨htake, hdrop⟩ := takeWhile_iff.mpr ⟨happend, hdigits, hends⟩
    rw [htake, hdrop, if_pos hroom]
    exact if_neg fun h => hne (List.length_eq_zero_iff.mp h)

theorem parseHex_eq (s : List Nat) :
    parseHex s = (parseHexLoop s 0 0).bind fun r => if r.1 = 0 then none else some r.2 := by
  unfold parseHex
  cases parseHexLoop s 0 0 <;> rfl

theorem parseDec_eq (s : List Nat) :
    parseDec s = (parseDecLoop s 0 0).bind fun r => if r.1 = 0 then none else some r.2 := by
  unfold parseDec
  cases parseDecLoop s 0 0 <;> rfl

theorem parseHex_iff {s rest : List Nat} {v : Nat} :
    parseHex s = some (v, rest) ↔ ∃ text, s = text ++ rest ∧ IsHex text v ∧ Ends isHex rest := by
  have hloop := parseHexLoop_eq s [] (by decide) nofun
  simp only [List.length_nil, Nat.zero_add, List.nil_append, Numerals.value_nil] at hloop
  rw [parseHex_eq, hloop]
  refine (digits_iff (fun text => text.length ≤ 16)
    fun text => Numerals.value 16 (text.map hexValue)).trans
      (exists_congr fun text => and_congr_right fun _ => ?_)
  constructor
  · rintro ⟨hne, hdigits, hroom, hvalue, hends⟩
    exact ⟨⟨hne, hroom, hdigits, hvalue⟩, hends⟩
  · rintro ⟨hhex, hends⟩
    exact ⟨hhex.nonempty, hhex.digits, hhex.short, hhex.value, hends⟩

theorem parseDec_iff {s rest : List Nat} {v : Nat} :
    parseDec s = some (v, rest) ↔
      ∃ text, s = text ++ rest ∧ IsDec text v ∧ v ≤ maxDec ∧ Ends isDec rest := by
  have hloop := parseDecLoop_eq s [] (by decide)
  simp only [List.length_nil, Nat.zero_add, List.nil_append, Numerals.value_nil] at hloop
  rw [parseDec_eq, hloop]
  refine (digits_iff (fun text => Numerals.value 10 (text.map decValue) ≤ maxDec)
    fun text => Numerals.value 10 (text.map decValue)).trans
      (exists_congr fun text => and_congr_right fun _ => ?_)
  constructor
  · rintro ⟨hne, hdigits, hroom, rfl, hends⟩
    exact ⟨⟨hne, hdigits, rfl⟩, hroom, hends⟩
  · rintro ⟨hdec, hmax, hends⟩
    exact ⟨hdec.nonempty, hdec.digits, hdec.value ▸ hmax, hdec.value, hends⟩

theorem skipSpaces_iff {s rest : List Nat} :
    skipSpaces s = some rest ↔
      ∃ text, s = text ++ rest ∧ IsSpaces text ∧ Ends (· == 0x20) rest := by
  unfold skipSpaces
  rw [Option.ite_none_right_eq_some]
  constructor
  · rintro ⟨hhead, hrest⟩
    obtain ⟨happend, hspaces, hends⟩ :=
      takeWhile_iff.mp ⟨rfl, Option.some.inj hrest⟩
    refine ⟨_, happend, ⟨?_, fun c hc => beq_iff_eq.mp (hspaces c hc)⟩, hends⟩
    cases s with
    | nil => cases hhead
    | cons c s =>
        rw [Option.some.inj hhead]
        simp
  · rintro ⟨text, happend, hspaces, hends⟩
    obtain ⟨c, text, rfl⟩ := List.exists_cons_of_ne_nil hspaces.nonempty
    have hdrop := (takeWhile_iff.mpr ⟨happend,
      fun c hc => beq_iff_eq.mpr (hspaces.spaces c hc), hends⟩).2
    rw [hdrop, happend]
    exact ⟨congrArg some (hspaces.spaces c List.mem_cons_self), rfl⟩

theorem expect_iff {c : Nat} {s rest : List Nat} : expect c s = some rest ↔ s = c :: rest := by
  cases s with
  | nil => simp [expect]
  | cons c' s =>
      unfold expect
      rw [Option.ite_none_right_eq_some]
      simp

/-! ## What a line denotes -/

/-- Four permission characters; the last is `p` for a private mapping, and a
dash or `s` for another. -/
def IsPerms (text : List Nat) (read write exec priv : Bool) : Prop :=
  ∃ last, text = [if read then 0x72 else 0x2D, if write then 0x77 else 0x2D,
      if exec then 0x78 else 0x2D, last] ∧
    if priv then last = 0x70 else last = 0x2D ∨ last = 0x73

def permBits (read write exec priv : Bool) : Nat :=
  (if read then kPermRead else 0) ||| (if write then kPermWrite else 0) |||
    (if exec then kPermExec else 0) ||| (if priv then kPermPrivate else 0)

/-- The columns of a line that a region is made of. -/
structure MapsFields where
  start : Nat
  limit : Nat
  read : Bool
  write : Bool
  exec : Bool
  priv : Bool
  fileOffset : Nat
  inode : Nat
  path : List Nat
deriving Repr, DecidableEq

/-- The kind of mapping the path names, or, without one, the inode and the
permissions. -/
def MapsFields.kind (f : MapsFields) : RegionKind :=
  if f.path = heapPath then .heap
  else if f.path = stackPath then .stack
  else if f.path.head? = some 0x5B then .other
  else if f.path ≠ [] ∨ f.inode ≠ 0 then .file
  else if f.read ∧ f.write ∧ f.priv then .anon
  else .other

/-- The region a line with these columns stands for. -/
def MapsFields.region (f : MapsFields) : MapsRegion where
  start := f.start
  limit := f.limit
  kind := f.kind
  threadArena := f.kind == .anon && decide (2 ^ 26 ∣ f.start ∧ f.limit - f.start ≤ 2 ^ 26)
  perms := permBits f.read f.write f.exec f.priv
  fileOffset := f.fileOffset
  inode := f.inode

/-- The pieces of a line, less the three separators between them. -/
structure MapsPieces where
  start : List Nat
  limit : List Nat
  gap1 : List Nat
  perms : List Nat
  gap2 : List Nat
  offset : List Nat
  gap3 : List Nat
  major : List Nat
  minor : List Nat
  gap4 : List Nat
  inode : List Nat
  rest : List Nat

def MapsPieces.text (p : MapsPieces) : List Nat :=
  p.start ++ 0x2D :: (p.limit ++ (p.gap1 ++ (p.perms ++ (p.gap2 ++ (p.offset ++ (p.gap3 ++
    (p.major ++ 0x3A :: (p.minor ++ (p.gap4 ++ (p.inode ++ p.rest))))))))))

structure MapsPieces.Denotes (p : MapsPieces) (f : MapsFields) : Prop where
  start : IsHex p.start f.start
  limit : IsHex p.limit f.limit
  ordered : f.start ≤ f.limit
  gap1 : IsSpaces p.gap1
  perms : IsPerms p.perms f.read f.write f.exec f.priv
  gap2 : IsSpaces p.gap2
  offset : IsHex p.offset f.fileOffset
  gap3 : IsSpaces p.gap3
  major : ∃ v, IsHex p.major v
  minor : ∃ v, IsHex p.minor v
  gap4 : IsSpaces p.gap4
  inode : IsDec p.inode f.inode
  word : f.inode < 2 ^ 64
  rest : Ends isDec p.rest
  path : f.path = p.rest.dropWhile (· == 0x20)

/-- The line, without its end, is of the kernel's format with these columns. -/
def LineDenotes (line : List Nat) (f : MapsFields) : Prop :=
  ∃ p : MapsPieces, line.rdropWhile isEol = p.text ∧ p.Denotes f

/-! ## Reading a line -/

theorem permChar_iff {letter bit c b : Nat} (hletter : letter ≠ 0x2D) :
    permChar letter bit false c = some b ↔
      ∃ on : Bool, c = (if on then letter else 0x2D) ∧ b = if on then bit else 0 := by
  unfold permChar
  constructor
  · intro h
    split_ifs at h with hc hdash hlast
    · exact ⟨true, hc, (Option.some.inj h).symm⟩
    · exact ⟨false, hdash, (Option.some.inj h).symm⟩
    · cases hlast.1
  · rintro ⟨on, rfl, rfl⟩
    cases on with
    | true => simp
    | false => simp [hletter.symm]

theorem permChar_last_iff {c b : Nat} :
    permChar 0x70 kPermPrivate true c = some b ↔
      ∃ on : Bool, (if on then c = 0x70 else c = 0x2D ∨ c = 0x73) ∧
        b = if on then kPermPrivate else 0 := by
  unfold permChar
  constructor
  · intro h
    split_ifs at h with hc hdash hlast
    · exact ⟨true, hc, (Option.some.inj h).symm⟩
    · exact ⟨false, .inl hdash, (Option.some.inj h).symm⟩
    · exact ⟨false, .inr hlast.2, (Option.some.inj h).symm⟩
  · rintro ⟨on, hc, rfl⟩
    cases on with
    | true =>
        obtain rfl : c = 0x70 := hc
        rfl
    | false =>
        rcases (show c = 0x2D ∨ c = 0x73 from hc) with rfl | rfl
        · rfl
        · rfl

theorem parsePerms_iff {s rest : List Nat} {perms : Nat} :
    parsePerms s = some (perms, rest) ↔ ∃ read write exec priv text, s = text ++ rest ∧
      IsPerms text read write exec priv ∧ perms = permBits read write exec priv := by
  constructor
  · intro h
    unfold parsePerms at h
    split at h
    · rename_i c0 c1 c2 c3 s'
      simp only [Option.bind_eq_bind, Option.bind_eq_some_iff, Option.some.injEq,
        Prod.mk.injEq] at h
      obtain ⟨r, hr, w, hw, x, hx, p, hp, rfl, rfl⟩ := h
      obtain ⟨read, rfl, rfl⟩ := (permChar_iff (by decide)).mp hr
      obtain ⟨write, rfl, rfl⟩ := (permChar_iff (by decide)).mp hw
      obtain ⟨exec, rfl, rfl⟩ := (permChar_iff (by decide)).mp hx
      obtain ⟨priv, hlast, rfl⟩ := permChar_last_iff.mp hp
      exact ⟨read, write, exec, priv, _, rfl, ⟨c3, rfl, hlast⟩, rfl⟩
    · cases h
  · rintro ⟨read, write, exec, priv, text, rfl, ⟨last, rfl, hlast⟩, rfl⟩
    simp only [List.cons_append, List.nil_append, parsePerms, Option.bind_eq_bind,
      Option.bind_eq_some_iff, Option.some.injEq, Prod.mk.injEq]
    exact ⟨_, (permChar_iff (by decide)).mpr ⟨read, rfl, rfl⟩,
      _, (permChar_iff (by decide)).mpr ⟨write, rfl, rfl⟩,
      _, (permChar_iff (by decide)).mpr ⟨exec, rfl, rfl⟩,
      _, permChar_last_iff.mpr ⟨priv, hlast, rfl⟩, rfl, trivial⟩

theorem classify_eq (f : MapsFields) :
    classify f.path f.inode (permBits f.read f.write f.exec f.priv) = f.kind := by
  have hwant : (permBits f.read f.write f.exec f.priv &&&
      (kPermRead ||| kPermWrite ||| kPermPrivate) = kPermRead ||| kPermWrite ||| kPermPrivate) ↔
      (f.read ∧ f.write ∧ f.priv) := by
    cases f.read <;> cases f.write <;> cases f.exec <;> cases f.priv <;> decide
  unfold classify MapsFields.kind
  simp only [hwant]

theorem threadArena_eq (start limit : Nat) :
    (start &&& (kThreadArenaAlign - 1) == 0 && decide (limit - start ≤ kThreadArenaAlign)) =
      decide (2 ^ 26 ∣ start ∧ limit - start ≤ 2 ^ 26) := by
  have hmask : start &&& (kThreadArenaAlign - 1) = start % 2 ^ 26 :=
    Nat.and_two_pow_sub_one_eq_mod start 26
  rw [Bool.eq_iff_iff, Bool.and_eq_true, beq_iff_eq, decide_eq_true_eq, decide_eq_true_eq, hmask,
    ← Nat.dvd_iff_mod_eq_zero]
  rfl

/-- A gap ends a number, and a field ends a gap. -/
theorem IsSpaces.ends_hex {text : List Nat} (h : IsSpaces text) (rest : List Nat) :
    Ends isHex (text ++ rest) :=
  Ends.append h.nonempty (fun c hc => by rw [h.spaces c hc]; rfl) rest

theorem Ends.spaces {p : Nat → Bool} (hp : p 0x20 = false) {text : List Nat} (hne : text ≠ [])
    (h : ∀ c ∈ text, p c = true) (rest : List Nat) : Ends (· == 0x20) (text ++ rest) := by
  refine Ends.append hne (fun c hc => ?_) rest
  rw [beq_eq_false_iff_ne]
  rintro rfl
  exact absurd ((h 0x20 hc).symm.trans hp) (by decide)

theorem IsHex.ends_spaces {text : List Nat} {v : Nat} (h : IsHex text v) (rest : List Nat) :
    Ends (· == 0x20) (text ++ rest) := Ends.spaces rfl h.nonempty h.digits rest

theorem IsDec.ends_spaces {text : List Nat} {v : Nat} (h : IsDec text v) (rest : List Nat) :
    Ends (· == 0x20) (text ++ rest) := Ends.spaces rfl h.nonempty h.digits rest

theorem IsPerms.ends_spaces {text : List Nat} {read write exec priv : Bool}
    (h : IsPerms text read write exec priv) (rest : List Nat) :
    Ends (· == 0x20) (text ++ rest) := by
  obtain ⟨last, rfl, -⟩ := h
  refine ends_cons ?_
  cases read <;> rfl

/-- The region as the code assembles it. -/
theorem MapsFields.region_eq (f : MapsFields) :
    f.region = ⟨⟨⟨f.start, f.limit,
      classify f.path f.inode (permBits f.read f.write f.exec f.priv),
      classify f.path f.inode (permBits f.read f.write f.exec f.priv) == .anon &&
        f.start &&& (kThreadArenaAlign - 1) == 0 &&
        decide (f.limit - f.start ≤ kThreadArenaAlign)⟩,
      permBits f.read f.write f.exec f.priv⟩, f.fileOffset, f.inode⟩ := by
  rw [classify_eq, Bool.and_assoc, threadArena_eq]
  rfl

theorem guard_iff {p : Prop} [Decidable p] {u : Unit} :
    (guard p : Option Unit) = some u ↔ p := by
  by_cases h : p <;> simp [guard, h, failure]

/-- The reading is what the pieces denote, up to the largest inode it reads. -/
theorem parseFields_iff {line : List Nat} {r : MapsRegion} :
    parseFields line = some r ↔
      ∃ (p : MapsPieces) (f : MapsFields), line = p.text ∧ p.Denotes f ∧ f.inode ≤ maxDec ∧
        r = f.region := by
  simp only [parseFields, Option.bind_eq_bind, Option.bind_eq_some_iff, Prod.exists,
    parseHex_iff, parseDec_iff, skipSpaces_iff, expect_iff, parsePerms_iff, guard_iff,
    Option.some.injEq]
  constructor
  · rintro ⟨start, _, ⟨tStart, e1, hstart, -⟩, _, e2, limit, _, ⟨tLimit, e3, hlimit, -⟩,
      _, hordered, _, ⟨gap1, e4, hgap1, -⟩, _, _,
      ⟨read, write, exec, priv, tPerms, e5, hperms, e6⟩, _, ⟨gap2, e7, hgap2, -⟩,
      offset, _, ⟨tOffset, e8, hoffset, -⟩, _, ⟨gap3, e9, hgap3, -⟩,
      major, _, ⟨tMajor, e10, hmajor, -⟩, _, e11, minor, _, ⟨tMinor, e12, hminor, -⟩,
      _, ⟨gap4, e13, hgap4, -⟩, inode, rest, ⟨tInode, e14, hinode, hmax, hrest⟩, hregion⟩
    refine ⟨⟨tStart, tLimit, gap1, tPerms, gap2, tOffset, gap3, tMajor, tMinor, gap4, tInode,
      rest⟩, ⟨start, limit, read, write, exec, priv, offset, inode,
      rest.dropWhile (· == 0x20)⟩, ?_, ?_, hmax, ?_⟩
    · rw [e1, e2, e3, e4, e5, e7, e8, e9, e10, e11, e12, e13, e14]
      rfl
    · exact {
        start := hstart
        limit := hlimit
        ordered := hordered
        gap1 := hgap1
        perms := hperms
        gap2 := hgap2
        offset := hoffset
        gap3 := hgap3
        major := ⟨major, hmajor⟩
        minor := ⟨minor, hminor⟩
        gap4 := hgap4
        inode := hinode
        word := lt_of_le_of_lt hmax (by decide)
        rest := hrest
        path := rfl }
    · rw [← hregion, MapsFields.region_eq, e6]
  · rintro ⟨p, f, rfl, h, hmax, rfl⟩
    obtain ⟨major, hmajor⟩ := h.major
    obtain ⟨minor, hminor⟩ := h.minor
    refine ⟨f.start, _, ⟨p.start, rfl, h.start, ends_cons rfl⟩, _, rfl,
      f.limit, _, ⟨p.limit, rfl, h.limit, h.gap1.ends_hex _⟩, (), h.ordered,
      _, ⟨p.gap1, rfl, h.gap1, h.perms.ends_spaces _⟩,
      _, _, ⟨f.read, f.write, f.exec, f.priv, p.perms, rfl, h.perms, rfl⟩,
      _, ⟨p.gap2, rfl, h.gap2, h.offset.ends_spaces _⟩,
      f.fileOffset, _, ⟨p.offset, rfl, h.offset, h.gap3.ends_hex _⟩,
      _, ⟨p.gap3, rfl, h.gap3, hmajor.ends_spaces _⟩,
      major, _, ⟨p.major, rfl, hmajor, ends_cons rfl⟩, _, rfl,
      minor, _, ⟨p.minor, rfl, hminor, h.gap4.ends_hex _⟩,
      _, ⟨p.gap4, rfl, h.gap4, h.inode.ends_spaces _⟩,
      f.inode, p.rest, ⟨p.inode, rfl, h.inode, hmax, h.rest⟩, ?_⟩
    rw [MapsFields.region_eq, h.path]

/-! ## One meaning

A line of the format is cut in one way only, as every piece ends where its
kind of character does.
-/

theorem append_unique {p : Nat → Bool} {a b r s : List Nat} (h : a ++ r = b ++ s)
    (ha : ∀ c ∈ a, p c = true) (hr : Ends p r) (hb : ∀ c ∈ b, p c = true) (hs : Ends p s) :
    a = b ∧ r = s := by
  have hleft := takeWhile_iff.mpr ⟨rfl, ha, hr⟩
  have hright := takeWhile_iff.mpr ⟨h, hb, hs⟩
  exact ⟨hleft.1.symm.trans hright.1, hleft.2.symm.trans hright.2⟩

theorem IsSpaces.unique {a b r s : List Nat} (ha : IsSpaces a) (hb : IsSpaces b)
    (hr : Ends (· == 0x20) r) (hs : Ends (· == 0x20) s) (h : a ++ r = b ++ s) : a = b ∧ r = s :=
  append_unique h (fun c hc => beq_iff_eq.mpr (ha.spaces c hc)) hr
    (fun c hc => beq_iff_eq.mpr (hb.spaces c hc)) hs

theorem IsHex.unique {a b r s : List Nat} {v w : Nat} (ha : IsHex a v) (hb : IsHex b w)
    (hr : Ends isHex r) (hs : Ends isHex s) (h : a ++ r = b ++ s) : a = b ∧ v = w ∧ r = s := by
  obtain ⟨rfl, rfl⟩ := append_unique h ha.digits hr hb.digits hs
  exact ⟨rfl, ha.value.symm.trans hb.value, rfl⟩

theorem IsDec.unique {a b r s : List Nat} {v w : Nat} (ha : IsDec a v) (hb : IsDec b w)
    (hr : Ends isDec r) (hs : Ends isDec s) (h : a ++ r = b ++ s) : a = b ∧ v = w ∧ r = s := by
  obtain ⟨rfl, rfl⟩ := append_unique h ha.digits hr hb.digits hs
  exact ⟨rfl, ha.value.symm.trans hb.value, rfl⟩

theorem ite_dash_inj {letter : Nat} (hletter : letter ≠ 0x2D) {a b : Bool}
    (h : (if a then letter else 0x2D) = if b then letter else 0x2D) : a = b := by
  cases a with
  | true =>
      cases b with
      | true => rfl
      | false => exact absurd h hletter
  | false =>
      cases b with
      | true => exact absurd h.symm hletter
      | false => rfl

theorem IsPerms.unique {a b r s : List Nat} {r0 w0 x0 p0 r1 w1 x1 p1 : Bool}
    (ha : IsPerms a r0 w0 x0 p0) (hb : IsPerms b r1 w1 x1 p1) (h : a ++ r = b ++ s) :
    a = b ∧ r0 = r1 ∧ w0 = w1 ∧ x0 = x1 ∧ p0 = p1 ∧ r = s := by
  obtain ⟨c, rfl, hc⟩ := ha
  obtain ⟨d, rfl, hd⟩ := hb
  simp only [List.cons_append, List.nil_append, List.cons.injEq] at h
  obtain ⟨hread, hwrite, hexec, rfl, rfl⟩ := h
  obtain rfl := ite_dash_inj (by decide) hread
  obtain rfl := ite_dash_inj (by decide) hwrite
  obtain rfl := ite_dash_inj (by decide) hexec
  refine ⟨rfl, rfl, rfl, rfl, ?_, rfl⟩
  cases p0 with
  | true =>
      cases p1 with
      | true => rfl
      | false =>
          obtain rfl : c = 0x70 := hc
          exact absurd hd (by decide)
  | false =>
      cases p1 with
      | true =>
          obtain rfl : c = 0x70 := hd
          exact absurd hc (by decide)
      | false => rfl

theorem MapsPieces.Denotes.unique {p q : MapsPieces} {f g : MapsFields} (hp : p.Denotes f)
    (hq : q.Denotes g) (h : p.text = q.text) : f = g := by
  obtain ⟨_, hpmajor⟩ := hp.major
  obtain ⟨_, hqmajor⟩ := hq.major
  obtain ⟨_, hpminor⟩ := hp.minor
  obtain ⟨_, hqminor⟩ := hq.minor
  unfold MapsPieces.text at h
  obtain ⟨-, hstart, h⟩ := hp.start.unique hq.start (ends_cons rfl) (ends_cons rfl) h
  obtain ⟨-, hlimit, h⟩ := hp.limit.unique hq.limit (hp.gap1.ends_hex _) (hq.gap1.ends_hex _)
    (List.cons.inj h).2
  obtain ⟨-, h⟩ := hp.gap1.unique hq.gap1 (hp.perms.ends_spaces _) (hq.perms.ends_spaces _) h
  obtain ⟨-, hread, hwrite, hexec, hpriv, h⟩ := hp.perms.unique hq.perms h
  obtain ⟨-, h⟩ := hp.gap2.unique hq.gap2 (hp.offset.ends_spaces _) (hq.offset.ends_spaces _) h
  obtain ⟨-, hoffset, h⟩ := hp.offset.unique hq.offset (hp.gap3.ends_hex _)
    (hq.gap3.ends_hex _) h
  obtain ⟨-, h⟩ := hp.gap3.unique hq.gap3 (hpmajor.ends_spaces _) (hqmajor.ends_spaces _) h
  obtain ⟨-, -, h⟩ := hpmajor.unique hqmajor (ends_cons rfl) (ends_cons rfl) h
  obtain ⟨-, -, h⟩ := hpminor.unique hqminor (hp.gap4.ends_hex _) (hq.gap4.ends_hex _)
    (List.cons.inj h).2
  obtain ⟨-, h⟩ := hp.gap4.unique hq.gap4 (hp.inode.ends_spaces _) (hq.inode.ends_spaces _) h
  obtain ⟨-, hinode, h⟩ := hp.inode.unique hq.inode hp.rest hq.rest h
  have hpath : f.path = g.path := by rw [hp.path, hq.path, h]
  cases f
  cases g
  simp_all only

theorem LineDenotes.unique {line : List Nat} {f g : MapsFields} (hf : LineDenotes line f)
    (hg : LineDenotes line g) : f = g := by
  obtain ⟨p, hp, hpf⟩ := hf
  obtain ⟨q, hq, hqg⟩ := hg
  exact hpf.unique hqg (hp.symm.trans hq)

/-! ## The kernel's layout -/

def hexChar (d : Nat) : Nat := if d < 10 then 0x30 + d else 0x61 + (d - 10)

def decChar (d : Nat) : Nat := 0x30 + d

/-- Hexadecimal, with leading zeros up to a width. -/
def formatHex (width v : Nat) : List Nat :=
  List.replicate (width - (Numerals.digits 16 v).length) 0x30 ++
    (Numerals.digits 16 v).map hexChar

def formatDec (v : Nat) : List Nat := (Numerals.digits 10 v).map decChar

def formatPerms (read write exec priv : Bool) : List Nat :=
  [if read then 0x72 else 0x2D, if write then 0x77 else 0x2D, if exec then 0x78 else 0x2D,
    if priv then 0x70 else 0x73]

/-- What a line has beside its columns: the widths the numbers are padded to,
the spaces of each gap but the first, the device, and the line's end. -/
structure MapsLayout where
  addressWidth : Nat
  offsetWidth : Nat
  deviceWidth : Nat
  gap1 : Nat
  gap2 : Nat
  gap3 : Nat
  gap4 : Nat
  pathGap : Nat
  major : Nat
  minor : Nat
  eol : List Nat
  addressWidth_le : addressWidth ≤ 16
  offsetWidth_le : offsetWidth ≤ 16
  deviceWidth_le : deviceWidth ≤ 16
  major_lt : major < 2 ^ 64
  minor_lt : minor < 2 ^ 64
  eol_isEol : ∀ c ∈ eol, isEol c = true

/-- Columns as the kernel has them. A path does not begin with a space; it is
absolute, or does not end as a line does. -/
structure MapsFields.Kernel (f : MapsFields) : Prop where
  ordered : f.start ≤ f.limit
  limit : f.limit < 2 ^ 64
  fileOffset : f.fileOffset < 2 ^ 64
  inode : f.inode < 2 ^ 64
  head : f.path.head? ≠ some 0x20
  tail : f.path.head? = some 0x2F ∨ ∀ c, f.path.getLast? = some c → isEol c = false

/-- The pieces of the line for these columns. Without a path the last gap may
be empty. -/
def formatPieces (l : MapsLayout) (f : MapsFields) : MapsPieces where
  start := formatHex l.addressWidth f.start
  limit := formatHex l.addressWidth f.limit
  gap1 := List.replicate (l.gap1 + 1) 0x20
  perms := formatPerms f.read f.write f.exec f.priv
  gap2 := List.replicate (l.gap2 + 1) 0x20
  offset := formatHex l.offsetWidth f.fileOffset
  gap3 := List.replicate (l.gap3 + 1) 0x20
  major := formatHex l.deviceWidth l.major
  minor := formatHex l.deviceWidth l.minor
  gap4 := List.replicate (l.gap4 + 1) 0x20
  inode := formatDec f.inode
  rest := List.replicate (if f.path = [] then l.pathGap else l.pathGap + 1) 0x20 ++ f.path

/-- The line for these columns. -/
def formatMapsLine (l : MapsLayout) (f : MapsFields) : List Nat := (formatPieces l f).text ++ l.eol

theorem hexDigit_hexChar {d : Nat} (h : d < 16) : hexDigit (hexChar d) = some d := by
  have hall : ∀ d < 16, hexDigit (hexChar d) = some d := by decide
  exact hall d h

theorem decDigit_decChar {d : Nat} (h : d < 10) : decDigit (decChar d) = some d := by
  have hall : ∀ d < 10, decDigit (decChar d) = some d := by decide
  exact hall d h

theorem formatHex_isHex {width v : Nat} (hwidth : width ≤ 16) (hv : v < 2 ^ 64) :
    IsHex (formatHex width v) v := by
  have hlen := Numerals.length_digits_le (by decide : 1 < 16) (by decide : 0 < 16)
    (lt_of_lt_of_eq hv (by norm_num))
  have hdigits : ∀ d ∈ Numerals.digits 16 v, hexDigit (hexChar d) = some d := fun d hd =>
    hexDigit_hexChar (Numerals.digits_lt (by decide) hd)
  refine ⟨?_, ?_, ?_, ?_⟩
  · rw [formatHex, ne_eq, List.append_eq_nil_iff, List.map_eq_nil_iff]
    exact fun h => Numerals.digits_ne_nil _ _ h.2
  · rw [formatHex, List.length_append, List.length_replicate, List.length_map]
    omega
  · intro c hc
    rcases List.mem_append.mp hc with hc | hc
    · rw [List.eq_of_mem_replicate hc]
      rfl
    · obtain ⟨d, hd, rfl⟩ := List.mem_map.mp hc
      rw [isHex, hdigits d hd]
      rfl
  · have hvalues : ((Numerals.digits 16 v).map hexChar).map hexValue = Numerals.digits 16 v := by
      rw [List.map_map]
      refine (List.map_congr_left fun d hd => ?_).trans (List.map_id _)
      rw [Function.comp_apply, hexValue, hdigits d hd]
      rfl
    rw [formatHex, List.map_append, List.map_replicate, hvalues]
    exact (Numerals.value_zeros_append _ _).trans (Numerals.value_digits 16 v)

theorem formatDec_isDec (v : Nat) : IsDec (formatDec v) v := by
  have hdigits : ∀ d ∈ Numerals.digits 10 v, decDigit (decChar d) = some d := fun d hd =>
    decDigit_decChar (Numerals.digits_lt (by decide) hd)
  refine ⟨?_, ?_, ?_⟩
  · rw [formatDec, ne_eq, List.map_eq_nil_iff]
    exact Numerals.digits_ne_nil _ _
  · intro c hc
    obtain ⟨d, hd, rfl⟩ := List.mem_map.mp hc
    rw [isDec, hdigits d hd]
    rfl
  · have hvalues : (formatDec v).map decValue = Numerals.digits 10 v := by
      rw [formatDec, List.map_map]
      refine (List.map_congr_left fun d hd => ?_).trans (List.map_id _)
      rw [Function.comp_apply, decValue, hdigits d hd]
      rfl
    rw [hvalues, Numerals.value_digits]

theorem formatPerms_isPerms (read write exec priv : Bool) :
    IsPerms (formatPerms read write exec priv) read write exec priv := by
  refine ⟨_, rfl, ?_⟩
  cases priv with
  | true => exact rfl
  | false => exact .inr rfl

theorem replicate_isSpaces (n : Nat) : IsSpaces (List.replicate (n + 1) 0x20) :=
  ⟨List.replicate_succ ▸ List.cons_ne_nil _ _, fun _ => List.eq_of_mem_replicate⟩

/-- The pieces denote the columns they were made from. -/
theorem formatPieces_denotes (l : MapsLayout) {f : MapsFields} (h : f.Kernel) :
    (formatPieces l f).Denotes f where
  start := formatHex_isHex l.addressWidth_le (lt_of_le_of_lt h.ordered h.limit)
  limit := formatHex_isHex l.addressWidth_le h.limit
  ordered := h.ordered
  gap1 := replicate_isSpaces _
  perms := formatPerms_isPerms _ _ _ _
  gap2 := replicate_isSpaces _
  offset := formatHex_isHex l.offsetWidth_le h.fileOffset
  gap3 := replicate_isSpaces _
  major := ⟨_, formatHex_isHex l.deviceWidth_le l.major_lt⟩
  minor := ⟨_, formatHex_isHex l.deviceWidth_le l.minor_lt⟩
  gap4 := replicate_isSpaces _
  inode := formatDec_isDec _
  word := h.inode
  rest := by
    by_cases hpath : f.path = []
    · rw [formatPieces, if_pos hpath, hpath, List.append_nil]
      cases l.pathGap with
      | zero => exact ends_nil
      | succ n => exact ends_cons rfl
    · rw [formatPieces, if_neg hpath]
      exact ends_cons rfl
  path := by
    rw [formatPieces, List.dropWhile_append_of_pos fun c hc =>
      beq_iff_eq.mpr (List.eq_of_mem_replicate hc)]
    cases hpath : f.path with
    | nil => rfl
    | cons c path =>
        have hc : c ≠ 0x20 := by
          rintro rfl
          exact h.head (by rw [hpath]; rfl)
        rw [List.dropWhile_cons_of_neg (by simpa using hc)]

/-! ## The end of the line -/

/-- The last character, if there is one, is not one that ends lines. -/
def LastStays (text : List Nat) : Prop := ∀ c, text.getLast? = some c → isEol c = false

theorem lastStays_of_forall {text : List Nat} (h : ∀ c ∈ text, isEol c = false) :
    LastStays text := fun c hc => h c (List.mem_of_getLast? hc)

theorem LastStays.append {text : List Nat} (h : LastStays text) (hne : text ≠ [])
    (before : List Nat) : LastStays (before ++ text) := by
  intro c hc
  rw [List.getLast?_append_of_ne_nil _ hne] at hc
  exact h c hc

theorem rdropWhile_append_of {text eol : List Nat} (heol : ∀ c ∈ eol, isEol c = true)
    (h : LastStays text) : (text ++ eol).rdropWhile isEol = text := by
  have hself : text.rdropWhile isEol = text := by
    rw [List.rdropWhile_eq_self_iff]
    intro hne htrue
    rw [h _ (List.getLast?_eq_some_getLast hne)] at htrue
    cases htrue
  rw [List.rdropWhile, List.reverse_append,
    List.dropWhile_append_of_pos fun c hc => heol c (List.mem_reverse.mp hc)]
  exact hself

theorem IsDec.not_eol {text : List Nat} {v : Nat} (h : IsDec text v) :
    ∀ c ∈ text, isEol c = false := by
  intro c hc
  have hdigit := h.digits c hc
  unfold isEol
  rw [Bool.or_eq_false_iff, beq_eq_false_iff_ne, beq_eq_false_iff_ne]
  constructor <;> rintro rfl <;> cases hdigit

theorem lastStays_rdropWhile (text : List Nat) : LastStays (text.rdropWhile isEol) := by
  intro c hc
  obtain ⟨hne, rfl⟩ := List.mem_getLast?_eq_getLast hc
  exact Bool.eq_false_iff.mpr (List.rdropWhile_last_not isEol text hne)

/-- The line up to its inode, which is followed by the last gap and the path. -/
theorem formatPieces_text (l : MapsLayout) (f : MapsFields) : ∃ before n,
    (formatPieces l f).text = before ++ (formatDec f.inode ++ List.replicate n 0x20 ++ f.path) :=
  ⟨_ ++ 0x2D :: (_ ++ (_ ++ (_ ++ (_ ++ (_ ++ (_ ++ (_ ++ 0x3A :: (_ ++ _)))))))), _, by
    simp only [MapsPieces.text, List.append_assoc, List.cons_append]
    rfl⟩

theorem formatPieces_lastStays (l : MapsLayout) {f : MapsFields} (h : LastStays f.path) :
    LastStays (formatPieces l f).text := by
  have hspaces : ∀ (n : Nat), ∀ c ∈ formatDec f.inode ++ List.replicate n 0x20,
      isEol c = false := by
    intro n c hc
    rcases List.mem_append.mp hc with hc | hc
    · exact (formatDec_isDec f.inode).not_eol c hc
    · rw [List.eq_of_mem_replicate hc]
      rfl
  obtain ⟨before, n, htext⟩ := formatPieces_text l f
  rw [htext]
  by_cases hpath : f.path = []
  · rw [hpath, List.append_nil]
    refine LastStays.append (lastStays_of_forall (hspaces n)) ?_ before
    exact List.append_ne_nil_of_left_ne_nil (formatDec_isDec f.inode).nonempty _
  · rw [← List.append_assoc]
    exact h.append hpath _

theorem MapsFields.kind_absolute {f : MapsFields} {rest : List Nat} (h : f.path = 0x2F :: rest) :
    f.kind = .file := by
  have hname : ∀ name : List Nat, name.head? = some 0x5B → f.path ≠ name := by
    rintro name hname rfl
    rw [h] at hname
    cases hname
  have hbracket : f.path.head? ≠ some 0x5B := by
    rw [h]
    nofun
  have hne : f.path ≠ [] := h ▸ List.cons_ne_nil _ _
  rw [MapsFields.kind, if_neg (hname heapPath (by decide)), if_neg (hname stackPath (by decide)),
    if_neg hbracket, if_pos (.inl hne)]

/-- Of a path the line's end is cut with its own; an absolute path stays one. -/
theorem MapsFields.Kernel.cut {f : MapsFields} (h : f.Kernel) :
    ∃ (path : List Nat) (tail : List Nat), f.path = path ++ tail ∧
      (∀ c ∈ tail, isEol c = true) ∧ LastStays path ∧ (path = [] ↔ f.path = []) ∧
      MapsFields.Kernel { f with path := path } ∧
      MapsFields.region { f with path := path } = f.region := by
  rcases h.tail with habsolute | hstays
  · obtain ⟨rest, hpath⟩ := List.head?_eq_some_iff.mp habsolute
    refine ⟨0x2F :: rest.rdropWhile isEol, rest.rtakeWhile isEol, ?_,
      fun c hc => List.mem_rtakeWhile_imp hc, ?_, by simp [hpath], ?_, ?_⟩
    · rw [hpath, List.cons_append, List.rdropWhile_append_rtakeWhile]
    · by_cases hrest : rest.rdropWhile isEol = []
      · rw [hrest]
        exact lastStays_of_forall fun c hc => List.mem_singleton.mp hc ▸ rfl
      · exact (lastStays_rdropWhile rest).append hrest [0x2F]
    · exact ⟨h.ordered, h.limit, h.fileOffset, h.inode, by simp, .inl rfl⟩
    · have hkind : MapsFields.kind { f with path := 0x2F :: rest.rdropWhile isEol } = .file :=
        MapsFields.kind_absolute rfl
      unfold MapsFields.region
      rw [hkind, MapsFields.kind_absolute hpath]
  · exact ⟨f.path, [], (List.append_nil _).symm, nofun, hstays, Iff.rfl, h, rfl⟩

/-- Every line in the kernel's layout denotes columns of the same region. -/
theorem formatMapsLine_denotes (l : MapsLayout) {f : MapsFields} (h : f.Kernel) :
    ∃ g, LineDenotes (formatMapsLine l f) g ∧ g.inode = f.inode ∧ g.region = f.region := by
  obtain ⟨path, tail, happend, htail, hstays, hnil, hkernel, hregion⟩ := h.cut
  refine ⟨{ f with path := path }, ⟨formatPieces l { f with path := path }, ?_,
    formatPieces_denotes l hkernel⟩, rfl, hregion⟩
  have htext : formatMapsLine l f =
      (formatPieces l { f with path := path }).text ++ (tail ++ l.eol) := by
    have hrest : (formatPieces l f).rest =
        (formatPieces l { f with path := path }).rest ++ tail := by
      simp only [formatPieces, hnil, List.append_assoc, happend]
    rw [formatMapsLine, ← List.append_assoc]
    congr 1
    simp only [MapsPieces.text, List.append_assoc, List.cons_append]
    rw [hrest]
    rfl
  rw [htext]
  refine rdropWhile_append_of (fun c hc => ?_) (formatPieces_lastStays l hstays)
  rcases List.mem_append.mp hc with hc | hc
  · exact htail c hc
  · exact l.eol_isEol c hc

/-! ## The contract -/

/-- What `parse_maps_line` promises of a line and the region it is to fill. -/
structure MapsLineMeets (line : List Nat) (out : MapsRegion) : Prop where
  accepts : (parseMapsLine line out).1 = true ↔ ∃ f, LineDenotes line f
  fields : (parseMapsLine line out).1 = true → ∀ f, LineDenotes line f →
    (parseMapsLine line out).2 = f.region
  untouched : (parseMapsLine line out).1 = false → (parseMapsLine line out).2 = out
  roundTrip : ∀ (l : MapsLayout) (f : MapsFields), f.Kernel → formatMapsLine l f = line →
    parseMapsLine line out = (true, f.region)

theorem parseMapsLine_true {line : List Nat} {f : MapsFields} (h : LineDenotes line f)
    (hmax : f.inode ≤ maxDec) (out : MapsRegion) : parseMapsLine line out = (true, f.region) := by
  obtain ⟨p, hline, hp⟩ := h
  rw [parseMapsLine, parseFields_iff.mpr ⟨p, f, hline, hp, hmax, rfl⟩]

theorem parseMapsLine_cases (line : List Nat) (out : MapsRegion) :
    (∃ f, LineDenotes line f ∧ f.inode ≤ maxDec ∧ parseMapsLine line out = (true, f.region)) ∨
      parseMapsLine line out = (false, out) := by
  cases hread : parseFields (line.rdropWhile isEol) with
  | none =>
      refine .inr ?_
      rw [parseMapsLine, hread]
  | some r =>
      obtain ⟨p, f, hline, hp, hmax, -⟩ := parseFields_iff.mp hread
      exact .inl ⟨f, ⟨p, hline, hp⟩, hmax, parseMapsLine_true ⟨p, hline, hp⟩ hmax out⟩

/-- The contract is kept on all lines but those of the format whose inode is
one of the six largest. -/
theorem mapsLine_meets_iff (line : List Nat) (out : MapsRegion) :
    MapsLineMeets line out ↔ ∀ f, LineDenotes line f → f.inode ≤ 18446744073709551609 := by
  constructor
  · intro hmeets f hf
    rcases parseMapsLine_cases line out with ⟨g, hg, hmax, -⟩ | hfalse
    · rw [hf.unique hg]
      exact hmax
    · have htrue := hmeets.accepts.mpr ⟨f, hf⟩
      rw [hfalse] at htrue
      cases htrue
  · intro hsmall
    refine ⟨⟨fun htrue => ?_, fun ⟨f, hf⟩ => ?_⟩, fun _ f hf => ?_, fun hfalse => ?_, ?_⟩
    · rcases parseMapsLine_cases line out with ⟨f, hf, -⟩ | hfalse
      · exact ⟨f, hf⟩
      · rw [hfalse] at htrue
        cases htrue
    · rw [parseMapsLine_true hf (hsmall f hf)]
    · rw [parseMapsLine_true hf (hsmall f hf)]
    · rcases parseMapsLine_cases line out with ⟨f, -, -, htrue⟩ | hout
      · rw [htrue] at hfalse
        cases hfalse
      · rw [hout]
    · rintro l f hkernel rfl
      obtain ⟨g, hg, hinode, hregion⟩ := formatMapsLine_denotes l hkernel
      rw [parseMapsLine_true hg (hsmall g hg), hregion]

/-- The largest inode there is: the line is of the format, and is refused. -/
theorem mapsLine_largest_inode : ¬ ∀ line out, MapsLineMeets line out := by
  intro hall
  have hmeets := hall ("1000-2000 rw-p 0 0:0 18446744073709551615".toList.map Char.toNat)
    ⟨⟨⟨0, 0, .other, false⟩, 0⟩, 0, 0⟩
  have htrue := hmeets.accepts.mpr ⟨⟨0x1000, 0x2000, true, true, false, true, 0,
    18446744073709551615, []⟩, ⟨"1000".toList.map Char.toNat, "2000".toList.map Char.toNat,
    [0x20], "rw-p".toList.map Char.toNat, [0x20], [0x30], [0x20], [0x30], [0x30], [0x20],
    "18446744073709551615".toList.map Char.toNat, []⟩, by decide,
    { start := ⟨by decide, by decide, by decide, by decide⟩
      limit := ⟨by decide, by decide, by decide, by decide⟩
      ordered := by decide
      gap1 := ⟨by decide, by decide⟩
      perms := ⟨0x70, by decide, rfl⟩
      gap2 := ⟨by decide, by decide⟩
      offset := ⟨by decide, by decide, by decide, by decide⟩
      gap3 := ⟨by decide, by decide⟩
      major := ⟨0, by decide, by decide, by decide, by decide⟩
      minor := ⟨0, by decide, by decide, by decide, by decide⟩
      gap4 := ⟨by decide, by decide⟩
      inode := ⟨by decide, by decide, by decide⟩
      word := by decide
      rest := ends_nil
      path := rfl }⟩
  exact absurd htrue (by decide)

end Heapviz
