import Mathlib.Tactic
import SourceAtlas.Text.Utf8

/-!
Decoding inverts encoding. A character is encoded in one to four bytes by the size of its code
point; in each case the first byte alone tells how many follow.
-/
namespace SourceAtlas.Text.Utf8

theorem toNat_toUInt8 {n : Nat} (hSmall : n < 256) : n.toUInt8.toNat = n := by
  simp [Nat.toUInt8, Nat.mod_eq_of_lt hSmall]

theorem toUInt8_lt {n : Nat} {b : UInt8} (hSmall : n < 256) : n.toUInt8 < b ↔ n < b.toNat := by
  rw [UInt8.lt_iff_toNat_lt, toNat_toUInt8 hSmall]

theorem le_toUInt8 {n : Nat} {b : UInt8} (hSmall : n < 256) : b ≤ n.toUInt8 ↔ b.toNat ≤ n := by
  rw [UInt8.le_iff_toNat_le, toNat_toUInt8 hSmall]

theorem toUInt8_eq {n : Nat} {b : UInt8} (hSmall : n < 256) : n.toUInt8 = b ↔ n = b.toNat := by
  rw [← UInt8.toNat_inj, toNat_toUInt8 hSmall]

/-- Code points leave out the surrogates and end below `0x110000`. -/
theorem toNat_bounds (c : Char) :
    c.toNat < 0xD800 ∨ 0xDFFF < c.toNat ∧ c.toNat < 0x110000 := by
  have hValid := c.valid
  simp only [UInt32.isValidChar, Nat.isValidChar] at hValid
  exact hValid

/-- The bytes that continue a character hold six bits each. -/
theorem isTail_payload {n : Nat} (hSmall : n < 64) : isTail (0x80 + n).toUInt8 = true := by
  have hByte : 0x80 + n < 256 := by omega
  simp only [isTail, Bool.and_eq_true, decide_eq_true_eq, toUInt8_lt hByte, le_toUInt8 hByte]
  exact ⟨Nat.le_add_right _ _, Nat.add_lt_add_left hSmall _⟩

/-- The second byte of a character of three bytes may follow the first:
overlong forms and surrogates are not characters. -/
theorem mayFollow_three {n : Nat} (hLow : 0x800 ≤ n) (hHigh : n < 0x10000)
    (hValid : n < 0xD800 ∨ 0xDFFF < n) :
    mayFollow (0xE0 + n / 4096).toUInt8 (0x80 + n / 64 % 64).toUInt8 = true := by
  have hFirst : 0xE0 + n / 4096 < 256 := by omega
  have hSecond : 0x80 + n / 64 % 64 < 256 := by omega
  simp only [mayFollow, isTail_payload (Nat.mod_lt _ (by omega : 64 > 0)), Bool.true_and,
    Bool.and_eq_true, Bool.not_eq_true', Bool.and_eq_false_iff, beq_eq_false_iff_ne, ne_eq,
    decide_eq_false_iff_not, toUInt8_eq hFirst, toUInt8_lt hSecond, le_toUInt8 hSecond]
  simp only [UInt8.reduceToNat]
  omega

theorem mayFollow_four {n : Nat} (hLow : 0x10000 ≤ n) (hHigh : n < 0x110000) :
    mayFollow (0xF0 + n / 262144).toUInt8 (0x80 + n / 4096 % 64).toUInt8 = true := by
  have hFirst : 0xF0 + n / 262144 < 256 := by omega
  have hSecond : 0x80 + n / 4096 % 64 < 256 := by omega
  simp only [mayFollow, isTail_payload (Nat.mod_lt _ (by omega : 64 > 0)), Bool.true_and,
    Bool.and_eq_true, Bool.not_eq_true', Bool.and_eq_false_iff, beq_eq_false_iff_ne, ne_eq,
    decide_eq_false_iff_not, toUInt8_eq hFirst, toUInt8_lt hSecond, le_toUInt8 hSecond]
  simp only [UInt8.reduceToNat]
  omega

/-- Decoding takes the bytes of one character off and gives
the character back. -/
theorem decodeOnto_encodeChar (done : List Char) (c : Char) (rest : List UInt8) :
    decodeOnto done (encodeChar c ++ rest) = decodeOnto (c :: done) rest := by
  have hBounds := toNat_bounds c
  have hMod : ∀ k, k % 64 < 64 := fun k => Nat.mod_lt k (by omega)
  have hTail : ∀ k, (0x80 + k % 64).toUInt8.toNat = 0x80 + k % 64 := fun k =>
    toNat_toUInt8 (by have := hMod k; omega)
  by_cases hOne : c.toNat < 0x80
  · have hByte : c.toNat < 256 := by omega
    rw [encodeChar]
    simp only [hOne, if_true, List.cons_append, List.nil_append]
    rw [decodeOnto.eq_def]
    simp only [toUInt8_lt hByte, UInt8.reduceToNat]
    rw [if_pos (by omega), toNat_toUInt8 hByte, Char.ofNat_toNat]
  · by_cases hTwo : c.toNat < 0x800
    · have hByte : 0xC0 + c.toNat / 64 < 256 := by omega
      rw [encodeChar]
      simp only [hOne, hTwo, if_true, if_false, List.cons_append, List.nil_append]
      rw [decodeOnto.eq_def]
      simp only [toUInt8_lt hByte, UInt8.reduceToNat]
      rw [if_neg (by omega), if_neg (by omega), if_pos (by omega), if_pos (isTail_payload (hMod _))]
      simp only [joinTails, List.foldl_cons, List.foldl_nil, toNat_toUInt8 hByte, hTail]
      rw [show (0xC0 + c.toNat / 64 - 0xC0) * 64 + (0x80 + c.toNat % 64 - 0x80) = c.toNat by omega,
        Char.ofNat_toNat]
    · by_cases hThree : c.toNat < 0x10000
      · have hByte : 0xE0 + c.toNat / 4096 < 256 := by omega
        have hFollow := mayFollow_three (by omega : 0x800 ≤ c.toNat) hThree (by omega)
        rw [encodeChar]
        simp only [hOne, hTwo, hThree, if_true, if_false, List.cons_append, List.nil_append]
        rw [decodeOnto.eq_def]
        simp only [toUInt8_lt hByte, UInt8.reduceToNat]
        rw [if_neg (by omega), if_neg (by omega), if_neg (by omega), if_pos (by omega), hFollow,
          isTail_payload (hMod _)]
        simp only [Bool.and_self, if_true, joinTails, List.foldl_cons, List.foldl_nil,
          toNat_toUInt8 hByte, hTail]
        rw [show ((0xE0 + c.toNat / 4096 - 0xE0) * 64 + (0x80 + c.toNat / 64 % 64 - 0x80)) * 64 +
          (0x80 + c.toNat % 64 - 0x80) = c.toNat by omega, Char.ofNat_toNat]
      · have hByte : 0xF0 + c.toNat / 262144 < 256 := by omega
        have hFollow := mayFollow_four (by omega : 0x10000 ≤ c.toNat) (by omega)
        rw [encodeChar]
        simp only [hOne, hTwo, hThree, if_false, List.cons_append, List.nil_append]
        rw [decodeOnto.eq_def]
        simp only [toUInt8_lt hByte, UInt8.reduceToNat]
        rw [if_neg (by omega), if_neg (by omega), if_neg (by omega), if_neg (by omega),
          if_pos (by omega), hFollow, isTail_payload (hMod _), isTail_payload (hMod _)]
        simp only [Bool.and_self, if_true, joinTails, List.foldl_cons, List.foldl_nil,
          toNat_toUInt8 hByte, hTail]
        rw [show (((0xF0 + c.toNat / 262144 - 0xF0) * 64 + (0x80 + c.toNat / 4096 % 64 - 0x80)) * 64 +
          (0x80 + c.toNat / 64 % 64 - 0x80)) * 64 + (0x80 + c.toNat % 64 - 0x80) = c.toNat by omega,
          Char.ofNat_toNat]

theorem decodeOnto_flatMap (done cs : List Char) :
    decodeOnto done (cs.flatMap encodeChar) = .ok (done.reverse ++ cs) := by
  induction cs generalizing done with
  | nil => simp [decodeOnto]
  | cons c cs ih =>
      rw [List.flatMap_cons, decodeOnto_encodeChar, ih]
      simp

/-- What is encoded is read back as it was. -/
theorem decode_encodeChars (cs : List Char) : decode (encodeChars cs) = .ok cs := by
  rw [decode, encodeChars, decodeOnto_flatMap, List.reverse_nil, List.nil_append]

/-- A character takes a byte at least. -/
theorem length_decodeOnto_le {done cs : List Char} {bytes : List UInt8}
    (hDecode : decodeOnto done bytes = .ok cs) : cs.length ≤ done.length + bytes.length := by
  fun_induction decodeOnto done bytes with
  | case1 done =>
      obtain rfl := Except.ok.inj hDecode
      simp
  | _ => grind

theorem length_decode_le {cs : List Char} {bytes : List UInt8} (hDecode : decode (dropMark bytes) = .ok cs) :
    cs.length ≤ bytes.length := by
  have hMark : (dropMark bytes).length ≤ bytes.length := by
    rw [dropMark.eq_def]
    split
    · simp only [List.length_cons]
      omega
    · exact Nat.le_refl _
  have hLength := length_decodeOnto_le hDecode
  rw [List.length_nil, Nat.zero_add] at hLength
  exact hLength.trans hMark

end SourceAtlas.Text.Utf8
