import Heapviz.RenderShows
import Heapviz.TextCells

/-!
# The two halves of UTF-8

`utf8_encode` (`tui/renderer.cpp`) and `utf8_decode` (`tui/framebuffer.cpp`)
were written apart, each with its own replacement rules. On scalar values the
encoder never replaces anything; the decoder replaces one byte wherever it
cannot read a whole sequence in its shortest form. So what the encoder writes
is read back, and a sequence of more than one byte is read only where the
encoder would have written it.

Both directions come from what the decoder does with a leading byte and its
continuation bytes, in arithmetic (`utf8Decode_two`, `utf8Decode_three`,
`utf8Decode_four`).
-/

namespace Heapviz

/-! ## Bytes -/

/-- A scalar value: in range, and no surrogate. -/
def IsScalar (cp : Nat) : Prop := ¬ (cp > 0x10FFFF ∨ (cp ≥ 0xD800 ∧ cp ≤ 0xDFFF))

instance (cp : Nat) : Decidable (IsScalar cp) := inferInstanceAs (Decidable (¬ _))

/-- A continuation byte. -/
def IsTail (b : Nat) : Prop := 0x80 ≤ b ∧ b < 0xC0

theorem isScalar_toNat (c : Char) : IsScalar c.toNat := by
  have hvalid := c.valid
  unfold UInt32.isValidChar Nat.isValidChar at hvalid
  unfold IsScalar
  show ¬ (c.val.toNat > 0x10FFFF ∨ (c.val.toNat ≥ 0xD800 ∧ c.val.toNat ≤ 0xDFFF))
  omega

theorem IsScalar.exists_char {cp : Nat} (h : IsScalar cp) : ∃ c : Char, c.toNat = cp := by
  have hvalid : cp.isValidChar := by
    unfold IsScalar at h
    unfold Nat.isValidChar
    omega
  refine ⟨Char.ofNat cp, ?_⟩
  rw [Char.ofNat, dif_pos hvalid]
  rfl

theorem kReplacement_scalar : IsScalar kReplacement := by decide

/-- The test of `cont`. -/
theorem tailBits_iff : ∀ b < 256, ((b &&& 0xC0 == 0x80) = true ↔ 0x80 ≤ b ∧ b < 0xC0) := by
  decide +kernel

theorem isCont_of_tail {s : List Nat} {k b : Nat} (h : s[k]? = some b) (hb : IsTail b) :
    isCont s k = true := by
  unfold isCont
  rw [h]
  exact (tailBits_iff b (hb.2.trans (by decide))).mpr hb

theorem exists_of_isCont {s : List Nat} (hs : ∀ b ∈ s, b < 256) {k : Nat}
    (h : isCont s k = true) : ∃ b, s[k]? = some b ∧ IsTail b := by
  unfold isCont at h
  cases hk : s[k]? with
  | none =>
      rw [hk] at h
      cases h
  | some b =>
      rw [hk] at h
      exact ⟨b, rfl, (tailBits_iff b (hs b (List.mem_of_getElem? hk))).mp h⟩

theorem contBits_of {s : List Nat} {k b : Nat} (h : s[k]? = some b) : contBits s k = b % 64 := by
  rw [contBits, h, Option.getD_some]
  exact Nat.and_two_pow_sub_one_eq_mod b 6

/-- Six more bits. -/
theorem or_six_bits (v : Nat) {c : Nat} (hc : c < 64) (k : Nat) :
    (v <<< (6 + k)) ||| (c <<< k) = (64 * v + c) <<< k := by
  rw [Nat.shiftLeft_add, ← Nat.shiftLeft_or_distrib, Nat.shiftLeft_eq v, Nat.mul_comm]
  exact congrArg (· <<< k) (Nat.two_pow_add_eq_or_of_lt (i := 6) hc v).symm

/-! ## Sequences -/

/-- What a sequence of two bytes stands for. -/
def twoBytes (b0 b1 : Nat) : Nat := 64 * (b0 % 32) + b1 % 64

def threeBytes (b0 b1 b2 : Nat) : Nat := 64 * (64 * (b0 % 16) + b1 % 64) + b2 % 64

def fourBytes (b0 b1 b2 b3 : Nat) : Nat :=
  64 * (64 * (64 * (b0 % 8) + b1 % 64) + b2 % 64) + b3 % 64

theorem twoBytes_eq (b0 b1 : Nat) :
    ((b0 &&& 0x1F) <<< 6) ||| (b1 % 64) = twoBytes b0 b1 := by
  have hlead : b0 &&& 0x1F = b0 % 32 := Nat.and_two_pow_sub_one_eq_mod b0 5
  rw [hlead]
  exact or_six_bits _ (Nat.mod_lt _ (by decide)) 0

theorem threeBytes_eq (b0 b1 b2 : Nat) :
    ((b0 &&& 0x0F) <<< 12) ||| ((b1 % 64) <<< 6) ||| (b2 % 64) = threeBytes b0 b1 b2 := by
  have hlead : b0 &&& 0x0F = b0 % 16 := Nat.and_two_pow_sub_one_eq_mod b0 4
  rw [hlead, or_six_bits _ (Nat.mod_lt _ (by decide)) 6]
  exact or_six_bits _ (Nat.mod_lt _ (by decide)) 0

theorem fourBytes_eq (b0 b1 b2 b3 : Nat) :
    ((b0 &&& 0x07) <<< 18) ||| ((b1 % 64) <<< 12) ||| ((b2 % 64) <<< 6) ||| (b3 % 64) =
      fourBytes b0 b1 b2 b3 := by
  have hlead : b0 &&& 0x07 = b0 % 8 := Nat.and_two_pow_sub_one_eq_mod b0 3
  rw [hlead, or_six_bits _ (Nat.mod_lt _ (by decide)) 12,
    or_six_bits _ (Nat.mod_lt _ (by decide)) 6]
  exact or_six_bits _ (Nat.mod_lt _ (by decide)) 0

section Sequences

variable {b0 b1 b2 b3 : Nat} (rest : List Nat)

theorem utf8Decode_one (h : b0 < 0x80) : utf8Decode (b0 :: rest) = (b0, 1) := if_pos h

theorem utf8Decode_two (hlow : 0xC2 ≤ b0) (hhigh : b0 < 0xE0) (h1 : IsTail b1) :
    utf8Decode (b0 :: b1 :: rest) = (twoBytes b0 b1, 2) := by
  have hcont : isCont (b0 :: b1 :: rest) 1 = true := isCont_of_tail rfl h1
  have hbits : contBits (b0 :: b1 :: rest) 1 = b1 % 64 := contBits_of rfl
  unfold utf8Decode
  dsimp only
  rw [if_neg (by omega), if_neg (by omega), if_pos hhigh, if_pos hcont, hbits, twoBytes_eq]

theorem utf8Decode_three (hlow : 0xE0 ≤ b0) (hhigh : b0 < 0xF0) (h1 : IsTail b1) (h2 : IsTail b2)
    (hshort : 0x800 ≤ threeBytes b0 b1 b2) (hscalar : IsScalar (threeBytes b0 b1 b2)) :
    utf8Decode (b0 :: b1 :: b2 :: rest) = (threeBytes b0 b1 b2, 3) := by
  have hcont : (isCont (b0 :: b1 :: b2 :: rest) 1 && isCont (b0 :: b1 :: b2 :: rest) 2) = true :=
    Bool.and_eq_true_iff.mpr ⟨isCont_of_tail rfl h1, isCont_of_tail rfl h2⟩
  have hbits1 : contBits (b0 :: b1 :: b2 :: rest) 1 = b1 % 64 := contBits_of rfl
  have hbits2 : contBits (b0 :: b1 :: b2 :: rest) 2 = b2 % 64 := contBits_of rfl
  have hkept : ¬ (threeBytes b0 b1 b2 < 0x800 ∨
      (threeBytes b0 b1 b2 ≥ 0xD800 ∧ threeBytes b0 b1 b2 ≤ 0xDFFF)) := by
    rintro (hlt | hsurrogate)
    · omega
    · exact hscalar (.inr hsurrogate)
  unfold utf8Decode
  dsimp only
  rw [if_neg (by omega), if_neg (by omega), if_neg (by omega), if_pos hhigh, if_pos hcont, hbits1,
    hbits2, threeBytes_eq, if_neg hkept]

theorem utf8Decode_four (hlow : 0xF0 ≤ b0) (hhigh : b0 ≤ 0xF4) (h1 : IsTail b1) (h2 : IsTail b2)
    (h3 : IsTail b3) (hshort : 0x10000 ≤ fourBytes b0 b1 b2 b3)
    (hscalar : IsScalar (fourBytes b0 b1 b2 b3)) :
    utf8Decode (b0 :: b1 :: b2 :: b3 :: rest) = (fourBytes b0 b1 b2 b3, 4) := by
  have hcont : (isCont (b0 :: b1 :: b2 :: b3 :: rest) 1 && isCont (b0 :: b1 :: b2 :: b3 :: rest) 2
      && isCont (b0 :: b1 :: b2 :: b3 :: rest) 3) = true :=
    Bool.and_eq_true_iff.mpr ⟨Bool.and_eq_true_iff.mpr
      ⟨isCont_of_tail rfl h1, isCont_of_tail rfl h2⟩, isCont_of_tail rfl h3⟩
  have hbits1 : contBits (b0 :: b1 :: b2 :: b3 :: rest) 1 = b1 % 64 := contBits_of rfl
  have hbits2 : contBits (b0 :: b1 :: b2 :: b3 :: rest) 2 = b2 % 64 := contBits_of rfl
  have hbits3 : contBits (b0 :: b1 :: b2 :: b3 :: rest) 3 = b3 % 64 := contBits_of rfl
  have hkept : ¬ (fourBytes b0 b1 b2 b3 < 0x10000 ∨ fourBytes b0 b1 b2 b3 > 0x10FFFF) := by
    rintro (hlt | hbeyond)
    · omega
    · exact hscalar (.inl hbeyond)
  unfold utf8Decode
  dsimp only
  rw [if_neg (by omega), if_neg (by omega), if_neg (by omega), if_neg (by omega), if_pos hcont,
    hbits1, hbits2, hbits3, fourBytes_eq, if_neg hkept]

end Sequences

/-! ## Reading -/

/-- What `utf8_decode` makes of the head `b0` of a byte string: one byte that
stands for itself or is replaced, or a whole sequence in its shortest form. -/
inductive ReadAs : List Nat → Nat → Nat → Prop
  | one {b0 : Nat} (rest : List Nat) (h : b0 < 0x80) : ReadAs (b0 :: rest) b0 1
  | replaced (s : List Nat) : ReadAs s kReplacement 1
  | two {b0 b1 : Nat} (rest : List Nat) (hlow : 0xC2 ≤ b0) (hhigh : b0 < 0xE0) (h1 : IsTail b1) :
      ReadAs (b0 :: b1 :: rest) (twoBytes b0 b1) 2
  | three {b0 b1 b2 : Nat} (rest : List Nat) (hlow : 0xE0 ≤ b0) (hhigh : b0 < 0xF0)
      (h1 : IsTail b1) (h2 : IsTail b2) (hshort : 0x800 ≤ threeBytes b0 b1 b2)
      (hscalar : IsScalar (threeBytes b0 b1 b2)) :
      ReadAs (b0 :: b1 :: b2 :: rest) (threeBytes b0 b1 b2) 3
  | four {b0 b1 b2 b3 : Nat} (rest : List Nat) (hlow : 0xF0 ≤ b0) (hhigh : b0 ≤ 0xF4)
      (h1 : IsTail b1) (h2 : IsTail b2) (h3 : IsTail b3)
      (hshort : 0x10000 ≤ fourBytes b0 b1 b2 b3) (hscalar : IsScalar (fourBytes b0 b1 b2 b3)) :
      ReadAs (b0 :: b1 :: b2 :: b3 :: rest) (fourBytes b0 b1 b2 b3) 4

theorem readAs_utf8Decode {s : List Nat} (hs : ∀ b ∈ s, b < 256) :
    ReadAs s (utf8Decode s).1 (utf8Decode s).2 := by
  cases s with
  | nil => exact .replaced []
  | cons b0 s =>
      unfold utf8Decode
      dsimp only
      split_ifs with h1 h2 h3 hcont h4 hcont hbad hcont hbad
      · exact .one s h1
      · exact .replaced _
      · -- two bytes
        obtain ⟨b1, hb1, htail1⟩ := exists_of_isCont hs hcont
        rw [contBits_of hb1, twoBytes_eq]
        obtain ⟨rest, rfl⟩ : ∃ rest, s = b1 :: rest := by
          cases s with
          | nil => cases hb1
          | cons b rest => exact ⟨rest, by rw [Option.some.inj hb1]⟩
        exact .two rest (by omega) h3 htail1
      · exact .replaced _
      · exact .replaced _
      · -- three bytes
        obtain ⟨hcont1, hcont2⟩ := Bool.and_eq_true_iff.mp hcont
        obtain ⟨b1, hb1, htail1⟩ := exists_of_isCont hs hcont1
        obtain ⟨b2, hb2, htail2⟩ := exists_of_isCont hs hcont2
        rw [contBits_of hb1, contBits_of hb2, threeBytes_eq] at hbad ⊢
        obtain ⟨rest, rfl⟩ : ∃ rest, s = b1 :: b2 :: rest := by
          cases s with
          | nil => cases hb1
          | cons b s =>
              cases s with
              | nil => cases hb2
              | cons b' rest => exact ⟨rest, by rw [Option.some.inj hb1, Option.some.inj hb2]⟩
        have hbound : threeBytes b0 b1 b2 < 0x10000 := by
          unfold threeBytes
          omega
        refine .three rest (by omega) h4 htail1 htail2 (by omega) ?_
        unfold IsScalar
        omega
      · exact .replaced _
      · exact .replaced _
      · -- four bytes
        obtain ⟨hcont12, hcont3⟩ := Bool.and_eq_true_iff.mp hcont
        obtain ⟨hcont1, hcont2⟩ := Bool.and_eq_true_iff.mp hcont12
        obtain ⟨b1, hb1, htail1⟩ := exists_of_isCont hs hcont1
        obtain ⟨b2, hb2, htail2⟩ := exists_of_isCont hs hcont2
        obtain ⟨b3, hb3, htail3⟩ := exists_of_isCont hs hcont3
        rw [contBits_of hb1, contBits_of hb2, contBits_of hb3, fourBytes_eq] at hbad ⊢
        obtain ⟨rest, rfl⟩ : ∃ rest, s = b1 :: b2 :: b3 :: rest := by
          cases s with
          | nil => cases hb1
          | cons b s =>
              cases s with
              | nil => cases hb2
              | cons b' s =>
                  cases s with
                  | nil => cases hb3
                  | cons b'' rest =>
                      exact ⟨rest, by
                        rw [Option.some.inj hb1, Option.some.inj hb2, Option.some.inj hb3]⟩
        refine .four rest (by omega) (by omega) htail1 htail2 htail3 (by omega) ?_
        unfold IsScalar
        omega
      · exact .replaced _

section Read

variable {s : List Nat} {cp n : Nat}

theorem ReadAs.scalar (h : ReadAs s cp n) : IsScalar cp := by
  cases h with
  | one rest h =>
      unfold IsScalar
      omega
  | replaced s => exact kReplacement_scalar
  | two rest hlow hhigh h1 =>
      unfold IsScalar twoBytes
      omega
  | three rest hlow hhigh h1 h2 hshort hscalar => exact hscalar
  | four rest hlow hhigh h1 h2 h3 hshort hscalar => exact hscalar

theorem ReadAs.size (h : ReadAs s cp n) : 1 ≤ n ∧ n ≤ 4 ∧ (s ≠ [] → n ≤ s.length) := by
  cases h with
  | one rest h => exact ⟨by decide, by decide, fun _ => Nat.succ_pos _⟩
  | replaced s => exact ⟨by decide, by decide, List.length_pos_iff.mpr⟩
  | two rest hlow hhigh h1 => exact ⟨by decide, by decide, fun _ => Nat.le_add_left 2 _⟩
  | three rest hlow hhigh h1 h2 hshort hscalar =>
      exact ⟨by decide, by decide, fun _ => Nat.le_add_left 3 _⟩
  | four rest hlow hhigh h1 h2 h3 hshort hscalar =>
      exact ⟨by decide, by decide, fun _ => Nat.le_add_left 4 _⟩

/-- A sequence of more than one byte is the one the encoder writes. -/
theorem ReadAs.encoded (h : ReadAs s cp n) (hn : 1 < n) : utf8Encode cp = s.take n := by
  have hscalar := h.scalar
  rw [utf8Encode_eq hscalar]
  cases h with
  | one rest h => exact absurd hn (Nat.lt_irrefl 1)
  | replaced s => exact absurd hn (Nat.lt_irrefl 1)
  | two rest hlow hhigh h1 =>
      unfold IsTail at h1
      unfold twoBytes
      rw [if_neg (by omega), if_pos (by omega)]
      refine congrArg₂ (fun a b => [a, b]) ?_ ?_
      · omega
      · omega
  | three rest hlow hhigh h1 h2 hshort hscalar =>
      unfold IsTail at h1 h2
      unfold threeBytes at hshort ⊢
      rw [if_neg (by omega), if_neg (by omega), if_pos (by omega)]
      refine List.cons_eq_cons.mpr ⟨?_, congrArg₂ (fun a b => [a, b]) ?_ ?_⟩
      · omega
      · omega
      · omega
  | four rest hlow hhigh h1 h2 h3 hshort hscalar =>
      unfold IsTail at h1 h2 h3
      unfold fourBytes at hshort ⊢
      rw [if_neg (by omega), if_neg (by omega), if_neg (by omega)]
      refine List.cons_eq_cons.mpr ⟨?_, List.cons_eq_cons.mpr
        ⟨?_, congrArg₂ (fun a b => [a, b]) ?_ ?_⟩⟩
      · omega
      · omega
      · omega
      · omega

end Read

/-! ## Reading back -/

/-- The encoding of a scalar value is read back whole, whatever follows it. -/
theorem utf8Decode_encode {cp : Nat} (h : IsScalar cp) (rest : List Nat) :
    utf8Decode (utf8Encode cp ++ rest) = (cp, (utf8Encode cp).length) := by
  have hrange := h
  unfold IsScalar at hrange
  rw [utf8Encode_eq h]
  by_cases h1 : cp < 0x80
  · rw [if_pos h1]
    exact utf8Decode_one rest h1
  by_cases h2 : cp < 0x800
  · have hvalue : twoBytes (0xC0 + cp / 64) (0x80 + cp % 64) = cp := by
      unfold twoBytes
      omega
    rw [if_neg h1, if_pos h2]
    have hread := @utf8Decode_two (0xC0 + cp / 64) (0x80 + cp % 64) rest (by omega) (by omega)
      (by unfold IsTail; omega)
    rwa [hvalue] at hread
  by_cases h3 : cp < 0x10000
  · have hvalue :
        threeBytes (0xE0 + cp / 4096) (0x80 + cp / 64 % 64) (0x80 + cp % 64) = cp := by
      unfold threeBytes
      omega
    rw [if_neg h1, if_neg h2, if_pos h3]
    have hread := @utf8Decode_three (0xE0 + cp / 4096) (0x80 + cp / 64 % 64) (0x80 + cp % 64) rest
      (by omega) (by omega) (by unfold IsTail; omega) (by unfold IsTail; omega)
    rw [hvalue] at hread
    exact hread (by omega) h
  · have hvalue : fourBytes (0xF0 + cp / 262144) (0x80 + cp / 4096 % 64) (0x80 + cp / 64 % 64)
        (0x80 + cp % 64) = cp := by
      unfold fourBytes
      omega
    rw [if_neg h1, if_neg h2, if_neg h3]
    have hread := @utf8Decode_four (0xF0 + cp / 262144) (0x80 + cp / 4096 % 64)
      (0x80 + cp / 64 % 64) (0x80 + cp % 64) rest (by omega) (by omega) (by unfold IsTail; omega)
      (by unfold IsTail; omega) (by unfold IsTail; omega)
    rw [hvalue] at hread
    exact hread (by omega) h

theorem utf8Encode_ne_nil (cp : Nat) : utf8Encode cp ≠ [] := by
  unfold utf8Encode
  dsimp only
  split_ifs <;> exact List.cons_ne_nil _ _

/-- What was encoded comes first. -/
theorem decodeText_encode {cp : Nat} (h : IsScalar cp) (rest : List Nat) :
    decodeText (utf8Encode cp ++ rest) = cp :: decodeText rest := by
  have hread := utf8Decode_encode h rest
  obtain ⟨b, s, hbytes⟩ := List.exists_cons_of_ne_nil (utf8Encode_ne_nil cp)
  rw [hbytes, List.cons_append] at hread ⊢
  rw [decodeText, hread, ← List.cons_append, List.drop_left]

theorem decodeText_flatMap_encode {cps : List Nat} (h : ∀ cp ∈ cps, IsScalar cp) :
    decodeText (cps.flatMap utf8Encode) = cps := by
  induction cps with
  | nil => exact decodeText.eq_1
  | cons cp cps ih =>
      rw [List.flatMap_cons, decodeText_encode (h cp List.mem_cons_self),
        ih fun cp' hcp' => h cp' (List.mem_cons_of_mem _ hcp')]

/-- The decode loop goes round at most once a byte. -/
theorem length_decodeText_le (s : List Nat) : (decodeText s).length ≤ s.length := by
  fun_induction decodeText s with
  | case1 => exact Nat.le_refl _
  | case2 b s ih =>
      have hshorter := length_drop_utf8Decode b s
      rw [List.length_cons]
      exact Nat.succ_le_of_lt (Nat.lt_of_le_of_lt ih hshorter)

/-- **The codec.** Every list of scalar values is read back from its encoding.
At every position of every byte string the decoder takes one to four bytes that
are there and yields a scalar value; where it takes more than one, they are the
encoding of what it yields. The decode loop goes round at most once a byte. -/
theorem utf8_codec :
    (∀ cps : List Char,
      decodeText ((cps.map Char.toNat).flatMap utf8Encode) = cps.map Char.toNat) ∧
    ∀ s : List UInt8,
      (∀ i < s.length,
        let rest := (s.map UInt8.toNat).drop i
        1 ≤ (utf8Decode rest).2 ∧ (utf8Decode rest).2 ≤ 4 ∧ i + (utf8Decode rest).2 ≤ s.length ∧
        (∃ c : Char, c.toNat = (utf8Decode rest).1) ∧
        (1 < (utf8Decode rest).2 →
          utf8Encode (utf8Decode rest).1 = rest.take (utf8Decode rest).2)) ∧
      (decodeText (s.map UInt8.toNat)).length ≤ s.length := by
  constructor
  · intro cps
    refine decodeText_flatMap_encode fun cp hcp => ?_
    obtain ⟨c, -, rfl⟩ := List.mem_map.mp hcp
    exact isScalar_toNat c
  · intro s
    constructor
    · intro i hi rest
      have hbytes : ∀ b ∈ rest, b < 256 := by
        intro b hb
        obtain ⟨u, -, rfl⟩ := List.mem_map.mp (List.mem_of_mem_drop hb)
        exact u.toNat_lt
      have hlength : rest.length = s.length - i := by
        rw [List.length_drop, List.length_map]
      have hne : rest ≠ [] := List.length_pos_iff.mp (by omega)
      have hread := readAs_utf8Decode hbytes
      obtain ⟨hpos, hfour, hfits⟩ := hread.size
      have hfits := hfits hne
      exact ⟨hpos, hfour, by omega, hread.scalar.exists_char, hread.encoded⟩
    · have hrounds := length_decodeText_le (s.map UInt8.toNat)
      rwa [List.length_map] at hrounds

end Heapviz
