import Mathlib.Data.List.Basic

/-
This file decodes UTF-8 with each maximal ill-formed part replaced by U+FFFD.
-/

namespace O3jc.Library

/-- The length of the sequence that a lead byte announces. Zero marks a byte that leads no sequence. -/
def utf8CharWidth (lead : Nat) : Nat :=
  if lead < 0x80 then 1
  else if lead < 0xC2 then 0
  else if lead < 0xE0 then 2
  else if lead < 0xF0 then 3
  else if lead < 0xF5 then 4
  else 0

/-- The range of the byte after a lead byte. -/
def secondRange (lead : Nat) : Nat × Nat :=
  if lead = 0xE0 then (0xA0, 0xBF)
  else if lead = 0xED then (0x80, 0x9F)
  else if lead = 0xF0 then (0x90, 0xBF)
  else if lead = 0xF4 then (0x80, 0x8F)
  else (0x80, 0xBF)

/-- A continuation byte inside a range gives six bits. -/
def takeTail (range : Nat × Nat) : List UInt8 → Option (Nat × List UInt8)
  | [] => none
  | byte :: rest => if range.1 ≤ byte.toNat ∧ byte.toNat ≤ range.2 then some (byte.toNat % 64, rest) else none

/-- The continuation bytes of a sequence extend its bits. A missing one ends the ill-formed part before it. -/
def takeTails : Nat → Nat × Nat → Nat → List UInt8 → Option Char × List UInt8
  | 0, _, bits, rest => (some (Char.ofNat bits), rest)
  | count + 1, range, bits, rest =>
      match takeTail range rest with
      | none => (none, rest)
      | some (more, rest) => takeTails count (0x80, 0xBF) (bits * 64 + more) rest

/-- The bits of the lead byte. -/
def leadBits (lead : Nat) : Nat :=
  match utf8CharWidth lead with
  | 2 => lead % 32
  | 3 => lead % 16
  | 4 => lead % 8
  | _ => lead

/-- One sequence, or `none` for an ill-formed part, with the bytes after it. -/
def decodeNext (first : UInt8) (rest : List UInt8) : Option Char × List UInt8 :=
  match utf8CharWidth first.toNat with
  | 0 => (none, rest)
  | width + 1 => takeTails width (secondRange first.toNat) (leadBits first.toNat) rest

theorem takeTails_suffix (count : Nat) (range : Nat × Nat) (bits : Nat) (bytes : List UInt8) :
    (takeTails count range bits bytes).2 <:+ bytes := by
  induction count generalizing range bits bytes with
  | zero => exact List.suffix_refl _
  | succ count ih =>
      cases bytes with
      | nil => exact List.suffix_refl _
      | cons byte rest =>
          rw [takeTails, takeTail]
          split_ifs with inside
          · exact (ih _ _ _).trans (List.suffix_cons byte rest)
          · exact List.suffix_refl _

theorem decodeNext_suffix (first : UInt8) (rest : List UInt8) : (decodeNext first rest).2 <:+ rest := by
  rw [decodeNext]
  split
  · exact List.suffix_refl _
  · exact takeTails_suffix _ _ _ _

/-- The characters of a byte string with U+FFFD for each ill-formed part. -/
def lossyChars : List UInt8 → List Char
  | [] => []
  | first :: rest => (decodeNext first rest).1.getD '\uFFFD' :: lossyChars (decodeNext first rest).2
termination_by bytes => bytes.length
decreasing_by exact Nat.lt_succ_of_le (decodeNext_suffix first rest).length_le

theorem decodeNext_of_width {first : UInt8} {width : Nat} (announced : utf8CharWidth first.toNat = width + 1)
    (rest : List UInt8) :
    decodeNext first rest = takeTails width (secondRange first.toNat) (leadBits first.toNat) rest := by
  rw [decodeNext, announced]

/-- A continuation byte inside its range extends the bits. -/
theorem takeTails_succ {range : Nat × Nat} {byte : UInt8} (inside : range.1 ≤ byte.toNat ∧ byte.toNat ≤ range.2)
    (count bits : Nat) (rest : List UInt8) :
    takeTails (count + 1) range bits (byte :: rest) =
      takeTails count (0x80, 0xBF) (bits * 64 + byte.toNat % 64) rest := by
  rw [takeTails, takeTail, if_pos inside]

/-- The next sequence of an encoded character is the character. -/
theorem decodeNext_encode (char : Char) (rest : List UInt8) :
    ∃ first tail, String.utf8EncodeChar char = first :: tail ∧ decodeNext first (tail ++ rest) = (some char, rest) := by
  have scalar : char.toNat < 0xD800 ∨ 0xDFFF < char.toNat ∧ char.toNat < 0x110000 := char.valid
  have back : Char.ofNat char.toNat = char := Char.ofNat_toNat char
  have byte : ∀ number < 256, (UInt8.ofNat number).toNat = number := fun _ small => UInt8.toNat_ofNat_of_lt' small
  unfold String.utf8EncodeChar
  simp only [Char.toNat_val]
  generalize char.toNat = value at scalar back
  split_ifs with one two three
  · have lead := byte value (by omega)
    have width : utf8CharWidth value = 1 := by unfold utf8CharWidth; split_ifs <;> omega
    have leading : leadBits value = value := by simp only [leadBits, width]
    refine ⟨_, _, rfl, ?_⟩
    rw [decodeNext_of_width (lead.symm ▸ width), takeTails, lead, leading, back, List.nil_append]
  · have lead := byte (value / 64 % 32 + 192) (by omega)
    have last := byte (value % 64 + 128) (by omega)
    have width : utf8CharWidth (value / 64 % 32 + 192) = 2 := by unfold utf8CharWidth; split_ifs <;> omega
    have leading : leadBits (value / 64 % 32 + 192) = (value / 64 % 32 + 192) % 32 := by simp only [leadBits, width]
    have range : secondRange (value / 64 % 32 + 192) = (0x80, 0xBF) := by
      unfold secondRange; split_ifs <;> first | omega | rfl
    have bits : (value / 64 % 32 + 192) % 32 * 64 + (value % 64 + 128) % 64 = value := by omega
    refine ⟨_, _, rfl, ?_⟩
    rw [decodeNext_of_width (lead.symm ▸ width), lead, List.cons_append, List.nil_append,
      takeTails_succ (by rw [last, range]; dsimp only; omega), takeTails, last, leading, bits, back]
  · have lead := byte (value / 4096 % 16 + 224) (by omega)
    have second := byte (value / 64 % 64 + 128) (by omega)
    have last := byte (value % 64 + 128) (by omega)
    have width : utf8CharWidth (value / 4096 % 16 + 224) = 3 := by unfold utf8CharWidth; split_ifs <;> omega
    have leading : leadBits (value / 4096 % 16 + 224) = (value / 4096 % 16 + 224) % 16 := by simp only [leadBits, width]
    have inside : (secondRange (value / 4096 % 16 + 224)).1 ≤ value / 64 % 64 + 128 ∧
        value / 64 % 64 + 128 ≤ (secondRange (value / 4096 % 16 + 224)).2 := by
      unfold secondRange; split_ifs <;> dsimp only <;> omega
    have bits : ((value / 4096 % 16 + 224) % 16 * 64 + (value / 64 % 64 + 128) % 64) * 64 +
        (value % 64 + 128) % 64 = value := by omega
    refine ⟨_, _, rfl, ?_⟩
    rw [decodeNext_of_width (lead.symm ▸ width), lead, List.cons_append, List.cons_append, List.nil_append,
      takeTails_succ (by rw [second]; exact inside), takeTails_succ (by rw [last]; dsimp only; omega), takeTails,
      second, last, leading, bits, back]
  · have lead := byte (value / 262144 % 8 + 240) (by omega)
    have second := byte (value / 4096 % 64 + 128) (by omega)
    have third := byte (value / 64 % 64 + 128) (by omega)
    have last := byte (value % 64 + 128) (by omega)
    have width : utf8CharWidth (value / 262144 % 8 + 240) = 4 := by unfold utf8CharWidth; split_ifs <;> omega
    have leading : leadBits (value / 262144 % 8 + 240) = (value / 262144 % 8 + 240) % 8 := by
      simp only [leadBits, width]
    have inside : (secondRange (value / 262144 % 8 + 240)).1 ≤ value / 4096 % 64 + 128 ∧
        value / 4096 % 64 + 128 ≤ (secondRange (value / 262144 % 8 + 240)).2 := by
      unfold secondRange; split_ifs <;> dsimp only <;> omega
    have bits : (((value / 262144 % 8 + 240) % 8 * 64 + (value / 4096 % 64 + 128) % 64) * 64 +
        (value / 64 % 64 + 128) % 64) * 64 + (value % 64 + 128) % 64 = value := by omega
    refine ⟨_, _, rfl, ?_⟩
    rw [decodeNext_of_width (lead.symm ▸ width), lead, List.cons_append, List.cons_append, List.cons_append,
      List.nil_append, takeTails_succ (by rw [second]; exact inside),
      takeTails_succ (by rw [third]; dsimp only; omega), takeTails_succ (by rw [last]; dsimp only; omega),
      takeTails, second, third, last, leading, bits, back]

/-- A well-formed byte string decodes to its own characters. -/
theorem lossyChars_encode (chars : List Char) : lossyChars (chars.flatMap String.utf8EncodeChar) = chars := by
  induction chars with
  | nil => rw [List.flatMap_nil, lossyChars]
  | cons char rest ih =>
      obtain ⟨first, tail, encoded, decoded⟩ := decodeNext_encode char (rest.flatMap String.utf8EncodeChar)
      rw [List.flatMap_cons, encoded, List.cons_append, lossyChars, decoded, Option.getD_some, ih]

theorem utf8CharWidth_cases (lead : Nat) :
    utf8CharWidth lead = 0 ∨ (utf8CharWidth lead = 1 ∧ lead < 0x80) ∨
      (utf8CharWidth lead = 2 ∧ 0xC2 ≤ lead ∧ lead < 0xE0) ∨ (utf8CharWidth lead = 3 ∧ 0xE0 ≤ lead ∧ lead < 0xF0) ∨
      (utf8CharWidth lead = 4 ∧ 0xF0 ≤ lead ∧ lead < 0xF5) := by
  unfold utf8CharWidth
  split_ifs <;> omega

theorem takeTails_some {count bits : Nat} {range : Nat × Nat} {bytes : List UInt8} {char : Char}
    (decoded : (takeTails (count + 1) range bits bytes).1 = some char) :
    ∃ byte rest, bytes = byte :: rest ∧ range.1 ≤ byte.toNat ∧ byte.toNat ≤ range.2 ∧
      (takeTails count (0x80, 0xBF) (bits * 64 + byte.toNat % 64) rest).1 = some char := by
  cases bytes with
  | nil => contradiction
  | cons byte rest =>
      by_cases inside : range.1 ≤ byte.toNat ∧ byte.toNat ≤ range.2
      · rw [takeTails_succ inside] at decoded
        exact ⟨byte, rest, rfl, inside.1, inside.2, decoded⟩
      · rw [takeTails, takeTail, if_neg inside] at decoded
        contradiction

theorem ofNat_ne_nul {value : Nat} {char : Char} (same : Char.ofNat value = char) (positive : 0 < value)
    (scalar : value < 0xD800 ∨ 0xDFFF < value ∧ value < 0x110000) : char ≠ '\x00' := by
  have number : (Char.ofNat value).toNat = value := by
    rw [Char.ofNat, dif_pos scalar]
    rfl
  rintro rfl
  rw [same] at number
  exact Nat.ne_of_lt positive number

/-- A decoded sequence without a null lead byte is not the null character. -/
theorem decodeNext_ne_nul {first : UInt8} {rest : List UInt8} {char : Char} (nonzero : 0 < first.toNat)
    (decoded : (decodeNext first rest).1 = some char) : char ≠ '\x00' := by
  rcases utf8CharWidth_cases first.toNat with bad | ⟨width, above⟩ | ⟨width, below, above⟩ | ⟨width, below, above⟩ |
    ⟨width, below, above⟩
  · rw [decodeNext, bad] at decoded
    contradiction
  · have leading : leadBits first.toNat = first.toNat := by simp only [leadBits, width]
    rw [decodeNext_of_width width, takeTails, leading] at decoded
    exact ofNat_ne_nul (Option.some.inj decoded) nonzero (by omega)
  · have leading : leadBits first.toNat = first.toNat % 32 := by simp only [leadBits, width]
    rw [decodeNext_of_width width, leading] at decoded
    obtain ⟨last, _, _, _, _, decoded⟩ := takeTails_some decoded
    rw [takeTails] at decoded
    exact ofNat_ne_nul (Option.some.inj decoded) (by omega) (by omega)
  · have leading : leadBits first.toNat = first.toNat % 16 := by simp only [leadBits, width]
    rw [decodeNext_of_width width, leading] at decoded
    obtain ⟨second, _, _, low, high, decoded⟩ := takeTails_some decoded
    obtain ⟨last, _, _, _, _, decoded⟩ := takeTails_some decoded
    rw [takeTails] at decoded
    -- The second byte keeps the sequence out of the overlong forms and of the surrogates.
    have range : 0x800 ≤ first.toNat % 16 * 4096 + second.toNat % 64 * 64 ∧
        (first.toNat % 16 * 4096 + second.toNat % 64 * 64 < 0xD800 ∨
          0xE000 ≤ first.toNat % 16 * 4096 + second.toNat % 64 * 64) := by
      unfold secondRange at low high
      split_ifs at low high <;> dsimp only at low high <;> omega
    exact ofNat_ne_nul (Option.some.inj decoded) (by omega) (by omega)
  · have leading : leadBits first.toNat = first.toNat % 8 := by simp only [leadBits, width]
    rw [decodeNext_of_width width, leading] at decoded
    obtain ⟨second, _, _, low, high, decoded⟩ := takeTails_some decoded
    obtain ⟨third, _, _, _, _, decoded⟩ := takeTails_some decoded
    obtain ⟨last, _, _, _, _, decoded⟩ := takeTails_some decoded
    rw [takeTails] at decoded
    have range : 0x10000 ≤ first.toNat % 8 * 262144 + second.toNat % 64 * 4096 ∧
        first.toNat % 8 * 262144 + second.toNat % 64 * 4096 < 0x110000 := by
      unfold secondRange at low high
      split_ifs at low high <;> dsimp only at low high <;> omega
    exact ofNat_ne_nul (Option.some.inj decoded) (by omega) (by omega)

/-- Decoding a byte string without null bytes gives no null character. -/
theorem nul_not_mem_lossyChars (bytes : List UInt8) (clean : 0 ∉ bytes) : '\x00' ∉ lossyChars bytes := by
  induction bytes using lossyChars.induct with
  | case1 => simp [lossyChars]
  | case2 first rest ih =>
      rw [List.mem_cons, not_or] at clean
      have nonzero : 0 < first.toNat := by
        rw [Nat.pos_iff_ne_zero]
        exact fun zero => clean.1 (UInt8.toNat_inj.mp zero).symm
      rw [lossyChars, List.mem_cons, not_or]
      refine ⟨?_, ih fun inside => clean.2 ((decodeNext_suffix first rest).subset inside)⟩
      cases decoded : (decodeNext first rest).1 with
      | none => decide
      | some char => exact (decodeNext_ne_nul nonzero decoded).symm

theorem zero_not_mem_utf8EncodeChar {char : Char} (nonzero : char ≠ '\x00') : 0 ∉ String.utf8EncodeChar char := by
  have positive : char.toNat ≠ 0 := by
    intro zero
    apply nonzero
    rw [← Char.ofNat_toNat char, zero]
  have byte : ∀ {number : Nat}, number < 256 → 0 < number → 0 ≠ UInt8.ofNat number := by
    intro number small above zero
    have same := congrArg UInt8.toNat zero
    rw [UInt8.toNat_ofNat_of_lt' small] at same
    exact Nat.ne_of_lt above same
  unfold String.utf8EncodeChar
  simp only [Char.toNat_val]
  split_ifs
  · simpa only [List.mem_singleton] using byte (by omega) (by omega)
  · simp only [List.mem_cons, List.not_mem_nil, or_false, not_or]
    exact ⟨byte (by omega) (by omega), byte (by omega) (by omega)⟩
  · simp only [List.mem_cons, List.not_mem_nil, or_false, not_or]
    exact ⟨byte (by omega) (by omega), byte (by omega) (by omega), byte (by omega) (by omega)⟩
  · simp only [List.mem_cons, List.not_mem_nil, or_false, not_or]
    exact ⟨byte (by omega) (by omega), byte (by omega) (by omega), byte (by omega) (by omega),
      byte (by omega) (by omega)⟩

end O3jc.Library
