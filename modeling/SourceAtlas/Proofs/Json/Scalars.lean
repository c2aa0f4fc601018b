import Mathlib.Tactic
import SourceAtlas.Json.Reader
import SourceAtlas.Json.Writer
import SourceAtlas.Proofs.Text.Basic

/-!
Written strings and integers are read back. Every escape the writer uses is one that the reader
knows; the digits of an integer end where a comma or a line break follows.
-/
namespace SourceAtlas.Json

open SourceAtlas.Number

/-- What may follow a value in a document: nothing, a comma or a line break. -/
def Stops (rest : List Char) : Prop := ∀ c ∈ rest.head?, c = ',' ∨ c = '\n'

theorem Stops.not_isDigit {rest : List Char} (hStops : Stops rest) : ∀ c ∈ rest.head?, ¬ isDigit c = true := by
  intro c hc
  rcases hStops c hc with rfl | rfl <;> decide

theorem skipBlanks_append {blanks cs : List Char} (hBlank : ∀ c ∈ blanks, isBlank c = true)
    (hHead : ∀ c ∈ cs.head?, isBlank c = false) : skipBlanks (blanks ++ cs) = cs := by
  rw [skipBlanks, List.dropWhile_append_of_pos hBlank]
  cases cs with
  | nil => rfl
  | cons c cs => exact List.dropWhile_cons_of_neg (by simp [hHead c rfl])

theorem escapeChar_length_pos (c : Char) : 0 < (escapeChar c).length := by
  rw [escapeChar]
  split_ifs <;> simp

theorem length_le_length_escaped (cs : List Char) : cs.length ≤ (cs.flatMap escapeChar).length := by
  induction cs with
  | nil => simp
  | cons c cs ih =>
      have hPos := escapeChar_length_pos c
      rw [List.flatMap_cons, List.length_append, List.length_cons]
      omega

/-- The hexadecimal digits of a control character are read
as its code point. -/
theorem unicodeEscape?_hex {n : Nat} (hLow : n < 0x20) (rest : List Char) :
    unicodeEscape? (Text.Quoted.hex 4 n ++ rest) = some (Char.ofNat n, rest) := by
  have hAll : ∀ m < 0x20, hexUnit? (Text.Quoted.hex 4 m) = some (m, []) := by decide
  have hUnit : hexUnit? (Text.Quoted.hex 4 n ++ rest) = some (n, rest) := by
    have hSmall := hAll n hLow
    simp only [Text.Quoted.hex, List.range, List.range.loop, List.reverse_cons, List.reverse_nil,
      List.nil_append, List.cons_append, List.map_cons, List.map_nil, hexUnit?] at hSmall ⊢
    simp only [Option.bind_eq_bind, Option.pure_def, Option.bind_eq_some_iff, Option.some.injEq,
      Prod.mk.injEq] at hSmall ⊢
    obtain ⟨a, ha, b, hb, c, hc, d, hd, hValue, -⟩ := hSmall
    exact ⟨a, ha, b, hb, c, hc, d, hd, hValue, trivial⟩
  rw [unicodeEscape?, hUnit]
  have hNotHigh : ¬ 0xD800 ≤ n := by omega
  have hNotLow : ¬ 0xDC00 ≤ n := by omega
  simp [hNotHigh, hNotLow]

/-- The reader takes one written character off and keeps the
character itself. -/
theorem stringTail_escapeChar (fuel : Nat) (done : List Char) (c : Char) (rest : List Char) :
    stringTail (fuel + 1) done (escapeChar c ++ rest) = stringTail fuel (c :: done) rest := by
  have hPoint {n : Nat} (h : c.toNat = n) : Char.ofNat n = c := h ▸ Char.ofNat_toNat c
  rw [escapeChar]
  split_ifs with hQuote hSlash hLine hReturn hTab hBack hFeed hControl
  · subst hQuote
    simp [stringTail, simpleEscape?]
  · subst hSlash
    simp [stringTail, simpleEscape?]
  · subst hLine
    simp [stringTail, simpleEscape?]
  · subst hReturn
    simp [stringTail, simpleEscape?]
  · subst hTab
    simp [stringTail, simpleEscape?]
  · have hEscape : simpleEscape? 'b' = some c := by rw [← hPoint hBack]; rfl
    simp [stringTail, hEscape]
  · have hEscape : simpleEscape? 'f' = some c := by rw [← hPoint hFeed]; rfl
    simp [stringTail, hEscape]
  · rw [List.cons_append, List.cons_append, stringTail, unicodeEscape?_hex hControl,
      Char.ofNat_toNat]
  · rw [List.singleton_append, stringTail.eq_def]
    simp [hSlash, hControl]

/-- The rest of a written string is read up to its closing quote. -/
theorem stringTail_escaped (cs : List Char) {fuel : Nat} (hFuel : cs.length < fuel)
    (done rest : List Char) :
    stringTail fuel done (cs.flatMap escapeChar ++ '"' :: rest) =
      .ok (.ofChars (done.reverse ++ cs), rest) := by
  induction cs generalizing fuel done with
  | nil =>
      obtain ⟨fuel, rfl⟩ := Nat.exists_eq_succ_of_ne_zero (Nat.ne_of_gt hFuel)
      simp [stringTail]
  | cons c cs ih =>
      obtain ⟨fuel, rfl⟩ := Nat.exists_eq_succ_of_ne_zero (Nat.ne_zero_of_lt hFuel)
      rw [List.flatMap_cons, List.append_assoc, stringTail_escapeChar,
        ih (by simpa using hFuel)]
      simp

/-- What follows the opening quote of a written string is
read as the string. -/
theorem stringTail_quoted (s : String) (rest : List Char) :
    stringTail (s.toList.flatMap escapeChar ++ '"' :: rest).length.succ []
      (s.toList.flatMap escapeChar ++ '"' :: rest) = .ok (.ofString s, rest) := by
  rw [stringTail_escaped]
  · rfl
  · have := length_le_length_escaped s.toList
    simp only [List.length_append]
    omega

theorem quote_ofString (s : String) :
    quote s = '"' :: (s.toList.flatMap escapeChar ++ ['"']) := by
  simp [quote, List.flatMap_map, escapeSign]

theorem isDigit_of_mem_toDigits {n : Nat} {c : Char} (hc : c ∈ Nat.toDigits 10 n) :
    isDigit c = true := by
  have hDigit := Nat.isDigit_of_mem_toDigits (by decide) (by decide) hc
  simpa [isDigit, Char.isDigit, Char.le_def] using hDigit

theorem digitsValue_toDigits (n : Nat) : digitsValue (Nat.toDigits 10 n) = n := by
  have hFold : digitsValue (Nat.toDigits 10 n) = Nat.ofDigitChars 10 (Nat.toDigits 10 n) 0 := by
    rw [digitsValue, Nat.ofDigitChars_eq_foldl]
    congr 1
    funext sofar c
    rw [digitValue, Nat.mul_comm]
  rw [hFold, Nat.ofDigitChars_ten_toDigits]

/-- No integer is written with a needless zero in front. -/
theorem toDigits_head?_ne_zero {n : Nat} (hLong : 1 < (Nat.toDigits 10 n).length) :
    (Nat.toDigits 10 n).head? ≠ some '0' := by
  induction n using Nat.strongRecOn with
  | ind n ih =>
      have hLe : 10 ≤ n := by
        by_contra hLt
        rw [Nat.toDigits_of_lt_base (by omega)] at hLong
        simp at hLong
      rw [Nat.toDigits_of_base_le (by decide) hLe, List.head?_append_of_ne_nil _ (by simp)]
      by_cases hShort : 1 < (Nat.toDigits 10 (n / 10)).length
      · exact ih (n / 10) (by omega) hShort
      · have hSmall : n / 10 < 10 := by
          simpa using (Nat.length_toDigits_le_iff (by decide) Nat.one_pos).mp (by omega)
        rw [Nat.toDigits_of_lt_base hSmall]
        have hAll : ∀ m < 10, 0 < m → [m.digitChar].head? ≠ some '0' := by decide
        exact hAll _ hSmall (by omega)

theorem takeWhile_toDigits (n : Nat) {rest : List Char} (hNext : ∀ c ∈ rest.head?, ¬ isDigit c = true) :
    (Nat.toDigits 10 n ++ rest).takeWhile isDigit = Nat.toDigits 10 n ∧
      (Nat.toDigits 10 n ++ rest).dropWhile isDigit = rest := by
  have hDigits : ∀ c ∈ Nat.toDigits 10 n, isDigit c = true := fun c => isDigit_of_mem_toDigits
  rw [List.takeWhile_append_of_pos hDigits, List.dropWhile_append_of_pos hDigits]
  cases rest with
  | nil => simp
  | cons c rest =>
      rw [List.takeWhile_cons_of_neg (hNext c rfl), List.dropWhile_cons_of_neg (hNext c rfl)]
      simp

/-- The digits of a natural number, with or without a minus before them, are
read as an integer. -/
theorem number_toDigits (negative : Bool) {n : Nat} (hRange : inRange (if negative then -n else n))
    {rest : List Char} (hStops : Stops rest) :
    number .asDouble ((if negative then ['-'] else []) ++ Nat.toDigits 10 n ++ rest) =
      .ok (.int (if negative then -n else n), rest) := by
  obtain ⟨hTake, hDrop⟩ := takeWhile_toDigits n hStops.not_isDigit
  have hPlain : ((Nat.toDigits 10 n).isEmpty || ((Nat.toDigits 10 n).length > 1 &&
      (Nat.toDigits 10 n).head? = some '0')) = false := by
    have hZero := @toDigits_head?_ne_zero n
    simp_all
  have hFits : (-9223372036854775808 ≤ (if negative then -(n : Int) else n) &&
      (if negative then -(n : Int) else n) < 18446744073709551616) = true := hRange
  unfold number
  split
  next negative' body hSign =>
    -- the sign that is read is the sign that was written
    have hRead : negative' = negative ∧ body = Nat.toDigits 10 n ++ rest := by
      split at hSign
      next more hMinus =>
        cases negative with
        | true => simp_all
        | false =>
            have hHead : '-' ∈ Nat.toDigits 10 n := by
              cases hDigits : Nat.toDigits 10 n with
              | nil => exact absurd hDigits Nat.toDigits_ne_nil
              | cons c cs => simp_all
            exact absurd (isDigit_of_mem_toDigits hHead) (by decide)
      next hNoMinus =>
        cases negative with
        | true => exact absurd rfl (hNoMinus _)
        | false => simp_all
    obtain ⟨rfl, rfl⟩ := hRead
    simp only [hTake, hDrop, hPlain, digitsValue_toDigits]
    cases rest with
    | nil => simp [hFits]
    | cons c rest => rcases hStops c rfl with rfl | rfl <;> simp [hFits]

/-- A written integer is read back. -/
theorem number_intText {n : Int} (hRange : inRange n) {rest : List Char} (hStops : Stops rest) :
    number .asDouble ((Datum.intText n).toList ++ rest) = .ok (.int n, rest) := by
  have hText : (Datum.intText n).toList =
      (if decide (n < 0) = true then ['-'] else []) ++ Nat.toDigits 10 n.natAbs := by
    rw [Datum.intText]
    split <;> simp_all [Style.natText]
  have hValue : (if decide (n < 0) = true then -(n.natAbs : Int) else n.natAbs) = n := by
    simp only [decide_eq_true_eq]
    split <;> omega
  have hRead := number_toDigits (decide (n < 0)) (hValue.symm ▸ hRange) hStops
  rw [hText, hRead, hValue]

end SourceAtlas.Json
