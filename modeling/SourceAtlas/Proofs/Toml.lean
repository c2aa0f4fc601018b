import SourceAtlas.Toml.Document

/-!
Integers of a document. One in base ten stops the reading if it has more digits than are read,
whatever comes of the rest.
-/
namespace SourceAtlas.Toml

open Number

/-- A run of digits is read to its end. -/
theorem digitRun_all {isDigit : Char → Bool} {ds : List Char} (hDigits : ∀ c ∈ ds, isDigit c = true)
    (hNone : isDigit '_' = false) : digitRun isDigit ds = (ds, []) := by
  induction ds with
  | nil => rfl
  | cons d ds ih =>
      have hFirst : isDigit d = true := hDigits d (List.mem_cons_self ..)
      rw [digitRun, if_pos hFirst, ih fun c hc => hDigits c (List.mem_cons_of_mem d hc)]
      rintro c rest rfl
      rw [hNone] at hFirst
      cases hFirst

/-- What is left behind two digits is an end of the text. -/
theorem twoDigits_suffix {least most n : Nat} {cs rest : List Char}
    (hRead : twoDigits least most cs = some (n, rest)) : rest <:+ cs := by
  rw [twoDigits.eq_def] at hRead
  split at hRead
  · next a b _ =>
    split at hRead
    · dsimp only at hRead
      split at hRead
      · obtain rfl := (Prod.mk.inj (Option.some.inj hRead)).2
        exact ⟨[a, b], rfl⟩
      · cases hRead
    · cases hRead
  · cases hRead

section Digits

variable {d : Char} {ds : List Char} (hDigits : ∀ c ∈ d :: ds, Json.isDigit c = true)

include hDigits

theorem ne_of_digits {c x : Char} (hc : c ∈ d :: ds) (hOther : Json.isDigit x = false) : c ≠ x := by
  rintro rfl
  exact Bool.false_ne_true (hOther.symm.trans (hDigits c hc))

theorem sign_digits : sign (d :: ds) = (false, d :: ds) := by
  rw [sign]
  · rintro rest ⟨⟩
    exact ne_of_digits hDigits (List.mem_cons_self ..) (by decide) rfl
  · rintro rest ⟨⟩
    exact ne_of_digits hDigits (List.mem_cons_self ..) (by decide) rfl

/-- No sign but a digit is found in an end of a text of digits. -/
theorem expect_digits {x : Char} (hOther : Json.isDigit x = false) {cs : List Char} (hSuffix : cs <:+ d :: ds) :
    expect x cs = none := by
  cases cs with
  | nil => rfl
  | cons c cs => exact if_neg (ne_of_digits hDigits (hSuffix.subset (List.mem_cons_self ..)) hOther)

/-- A text of digits is no moment, for it has no hyphen. -/
theorem moment_digits : moment (d :: ds) = none := by
  rw [moment, date]
  dsimp only
  rw [expect_digits hDigits (by decide) (List.drop_suffix 4 _)]
  split <;> rfl

/-- A text of digits is no time, for it has no colon. -/
theorem time_digits : time (d :: ds) = none := by
  rw [time]
  rcases hHour : twoDigits 0 23 (d :: ds) with _ | ⟨hour, rest⟩
  · rfl
  · have hRest := expect_digits hDigits (x := ':') (by decide) (twoDigits_suffix hHour)
    simp only [bind, Option.bind, hRest]

variable (hFirst : d ≠ '0') (hLong : mostDigits < (d :: ds).length)

include hFirst hLong

/-- A text of more digits than are converted is refused as too
large an integer. -/
theorem decimal_huge : decimal (d :: ds) = .error .hugeInteger := by
  have hRun : digits Json.isDigit (d :: ds) = some (d :: ds, []) := by
    rw [digits, if_pos (hDigits d (List.mem_cons_self ..)),
      digitRun_all (fun c hc => hDigits c (List.mem_cons_of_mem d hc)) (by decide)]
  have hAll : (d :: ds).filter (· ≠ '_') = d :: ds :=
    List.filter_eq_self.mpr fun c hc => decide_eq_true (ne_of_digits hDigits hc (by decide))
  rw [decimal, sign_digits hDigits]
  dsimp only
  split
  · next hZero =>
    cases hZero
    exact absurd rfl hFirst
  · rw [hRun]
    simp only [need, bind, Except.bind, hAll]
    rw [if_pos hLong]

/-- An integer of too many digits is no date, no time and no integer in
another base before. -/
theorem plain_huge : plain (d :: ds) = .error .hugeInteger := by
  have hBase : baseInteger (d :: ds) = none := by
    rw [baseInteger.eq_def]
    split <;> first | rfl | (next hZero => cases hZero; exact absurd rfl hFirst)
  rw [plain, moment_digits hDigits]
  dsimp only
  rw [time_digits hDigits]
  dsimp only
  rw [hBase]
  dsimp only
  rw [decimal_huge hDigits hFirst hLong]

end Digits

theorem joinBreaks_of_not_mem {cs : List Char} (hNone : '\r' ∉ cs) : joinBreaks cs = cs := by
  induction cs with
  | nil => rfl
  | cons c cs ih =>
      rw [joinBreaks, ih fun hc => hNone (List.mem_cons_of_mem c hc)]
      rintro rest rfl
      exact absurd (List.mem_cons_self ..) hNone

/-- What begins with a digit is read as a plain value. -/
theorem value_digits {d : Char} {ds : List Char} (hDigits : ∀ c ∈ d :: ds, Json.isDigit c = true) (fuel : Nat) :
    value (fuel + 1) (d :: ds) = plain (d :: ds) := by
  have hOther {x : Char} (hx : Json.isDigit x = false) : d ≠ x := ne_of_digits hDigits (List.mem_cons_self ..) hx
  have hTrue : "true".toList.isPrefixOf (d :: ds) = false := by
    simp [List.isPrefixOf, (hOther (x := 't') (by decide)).symm]
  have hFalse : "false".toList.isPrefixOf (d :: ds) = false := by
    simp [List.isPrefixOf, (hOther (x := 'f') (by decide)).symm]
  rw [value.eq_def]
  dsimp only
  split
  · next hQuote => exact absurd (List.cons.inj hQuote).1 (hOther (by decide))
  · next hQuote => exact absurd (List.cons.inj hQuote).1 (hOther (by decide))
  · next hOpen => exact absurd (List.cons.inj hOpen).1 (hOther (by decide))
  · next hOpen => exact absurd (List.cons.inj hOpen).1 (hOther (by decide))
  · rw [hTrue, hFalse]
    rfl

section Bare

variable {k : Char} {ks : List Char} (hKey : ∀ c ∈ k :: ks, isBareKey c = true)

include hKey

theorem ne_of_bare {x : Char} (hOther : isBareKey x = false) : k ≠ x := by
  rintro rfl
  exact Bool.false_ne_true (hOther.symm.trans (hKey k (List.mem_cons_self ..)))

/-- A bare key is read up to the first sign that ends it. -/
theorem keyPart_bare {c : Char} (hEnd : isBareKey c = false) (rest : List Char) :
    keyPart (k :: ks ++ c :: rest) = some (Text.ofChars (k :: ks), c :: rest) := by
  rw [List.cons_append, keyPart, if_pos (hKey k (List.mem_cons_self ..)), ← List.cons_append,
    List.takeWhile_append_of_pos hKey, List.dropWhile_append_of_pos hKey,
    List.takeWhile_cons_of_neg (by simp [hEnd]), List.dropWhile_cons_of_neg (by simp [hEnd]), List.append_nil]
  · rintro ⟨⟩
    exact ne_of_bare hKey (by decide) rfl
  · rintro ⟨⟩
    exact ne_of_bare hKey (by decide) rfl

/-- A key before an equals sign is read with the blank between them. -/
theorem key_bare (fuel : Nat) (rest : List Char) :
    key (fuel + 1) (k :: ks ++ ' ' :: '=' :: rest) = some ([Text.ofChars (k :: ks)], '=' :: rest) := by
  rw [key, keyPart_bare hKey (by decide)]
  rfl

/-- A line that sets a key to an integer of too many digits stops the
reading, as the number cannot be converted. -/
theorem statement_huge {d : Char} {ds : List Char} (hDigits : ∀ c ∈ d :: ds, Json.isDigit c = true)
    (hFirst : d ≠ '0') (hLong : mostDigits < (d :: ds).length) (doc : Document) :
    statement doc (k :: ks ++ ' ' :: '=' :: ' ' :: d :: ds) = .error .hugeInteger := by
  have hBlank : skipBlanks (' ' :: d :: ds) = d :: ds := by
    have hd : isBlank d = false := by
      simp [isBlank, ne_of_digits hDigits (List.mem_cons_self ..) (x := ' ') (by decide),
        ne_of_digits hDigits (List.mem_cons_self ..) (x := '\t') (by decide)]
    rw [skipBlanks, List.dropWhile_cons_of_pos (by decide), List.dropWhile_cons_of_neg (by simp [hd])]
  rw [statement.eq_def]
  split
  · next hOpen => exact absurd (List.cons.inj hOpen).1 (ne_of_bare hKey (by decide))
  · next hOpen => exact absurd (List.cons.inj hOpen).1 (ne_of_bare hKey (by decide))
  · next hOpen => exact absurd (List.cons.inj hOpen).1 (ne_of_bare hKey (by decide))
  · rw [key_bare hKey]
    simp only [need, bind, Except.bind, expect, if_true, hBlank, value_digits hDigits,
      plain_huge hDigits hFirst hLong]

/-- A document that sets a key to an integer of too many digits is not read,
and that is no fault of its form. -/
theorem parse_huge {d : Char} {ds : List Char} (hDigits : ∀ c ∈ d :: ds, Json.isDigit c = true)
    (hFirst : d ≠ '0') (hLong : mostDigits < (d :: ds).length) :
    ∃ line, parse (k :: ks ++ ' ' :: '=' :: ' ' :: d :: ds) = .error (.hugeInteger, line) := by
  have hReturn : '\r' ∉ k :: ks ++ ' ' :: '=' :: ' ' :: d :: ds := by
    intro hMem
    rcases List.mem_append.mp hMem with hMem | hMem
    · exact absurd (hKey _ hMem) (by decide)
    · obtain hMem : '\r' ∈ d :: ds := by simpa using hMem
      exact absurd (hDigits _ hMem) (by decide)
  have hBlank : skipBlanks (k :: ks ++ ' ' :: '=' :: ' ' :: d :: ds) = k :: ks ++ ' ' :: '=' :: ' ' :: d :: ds := by
    have hk : isBlank k = false := by
      simp [isBlank, ne_of_bare hKey (x := ' ') (by decide), ne_of_bare hKey (x := '\t') (by decide)]
    rw [skipBlanks, List.cons_append, List.dropWhile_cons_of_neg (by simp [hk])]
  have hLines (fuel : Nat) : ∃ left, lines (fuel + 1) {} (k :: ks ++ ' ' :: '=' :: ' ' :: d :: ds) =
      .error (.hugeInteger, left) := by
    rw [lines, hBlank]
    split
    · next hNil => cases hNil
    · next hBreak => exact absurd (List.cons.inj hBreak).1 (ne_of_bare hKey (by decide))
    · rw [statement_huge hKey hDigits hFirst hLong]
      exact ⟨_, rfl⟩
  obtain ⟨left, hLeft⟩ := hLines _
  exact ⟨_, by rw [parse, joinBreaks_of_not_mem hReturn, hLeft]⟩

end Bare

end SourceAtlas.Toml
