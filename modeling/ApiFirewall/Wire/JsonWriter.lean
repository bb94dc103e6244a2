import ApiFirewall.Wire.JsonText

/-!
# Writing JSON texts

A writer sets a value as a text. Writers differ in the space that they leave after commas and colons,
in the characters of a string that they escape, and in the texts of doubles. A style has spaces and
escapes that a reader undoes, by construction; what it sets is read back as the value, if the texts of
the doubles in it are read back. Whatever follows the text is left to the reader of the rest.
-/

namespace ApiFirewall.Wire.JsonText

/-- The text does not go on with a digit. -/
def NoDigit (rest : Text) : Prop := ∀ c, rest.head? = some c → c.isDigit = false

/-- The text does not go on with anything that belongs to a number. -/
def Delimited (rest : Text) : Prop :=
  ∀ c, rest.head? = some c → c.isDigit = false ∧ c ≠ '.' ∧ c ≠ 'e' ∧ c ≠ 'E'

/-- The decimal digits of a number. -/
def decimalDigits (n : ℕ) : Text := (Nat.toDigits 10 n).map .scalar

/-- The text of an integer. -/
def writeInt (n : ℤ) : Text := (if n < 0 then ['-'] else [] : Text) ++ decimalDigits n.natAbs

/-- A fraction: a point and digits. -/
def IsFraction (cs : Text) : Prop :=
  ∃ digits, cs = .scalar '.' :: digits ∧ digits ≠ [] ∧ ∀ c ∈ digits, c.isDigit = true

/-- An exponent: its letter, perhaps a sign, and digits. -/
def IsExponent (cs : Text) : Prop :=
  ∃ e sign digits, cs = e :: (sign ++ digits) ∧ (e = 'e' ∨ e = 'E') ∧
    (sign = [] ∨ sign = [.scalar '+'] ∨ sign = [.scalar '-']) ∧ digits ≠ [] ∧ ∀ c ∈ digits, c.isDigit = true

/-- The text of a number with a fraction, an exponent or both. -/
def IsDecimal (cs : Text) : Prop :=
  ∃ sign n fraction exponent, cs = sign ++ (decimalDigits n ++ (fraction ++ exponent)) ∧
    (sign = [] ∨ sign = [.scalar '-']) ∧ (fraction = [] ∨ IsFraction fraction) ∧
    (exponent = [] ∨ IsExponent exponent) ∧ ¬ (fraction = [] ∧ exponent = [])

/-- What ends a number ends its digits. -/
theorem Delimited.noDigit {rest : Text} (h : Delimited rest) : NoDigit rest :=
  fun c hc => (h c hc).1

/-- Nothing ends a number. -/
theorem delimited_nil : Delimited [] := by
  intro c h
  cases h

/-- A character that does not belong to a number ends it. -/
theorem delimited_cons {c : CodePoint} (rest : Text)
    (h : c.isDigit = false ∧ c ≠ '.' ∧ c ≠ 'e' ∧ c ≠ 'E') : Delimited (c :: rest) := by
  intro c' hc
  cases hc
  exact h

/-- The digits before something else are all taken. -/
theorem takeWhile_digits {digits rest : Text} (hdigits : ∀ c ∈ digits, c.isDigit = true)
    (hrest : NoDigit rest) :
    (digits ++ rest).takeWhile CodePoint.isDigit = digits ∧
      (digits ++ rest).dropWhile CodePoint.isDigit = rest := by
  induction digits with
  | nil =>
    cases rest with
    | nil => exact ⟨rfl, rfl⟩
    | cons c rest =>
      have hc : c.isDigit = false := hrest c rfl
      simp [hc]
  | cons c digits ih =>
    obtain ⟨hc, hdigits⟩ := List.forall_mem_cons.mp hdigits
    obtain ⟨htake, hdrop⟩ := ih hdigits
    simp [hc, htake, hdrop]

/-- A number has digits. -/
theorem decimalDigits_ne_nil {n : ℕ} : decimalDigits n ≠ [] := by
  simp [decimalDigits, Nat.toDigits_ne_nil]

/-- The digits of a number are digits. -/
theorem isDigit_of_mem_decimalDigits {n : ℕ} : ∀ c ∈ decimalDigits n, c.isDigit = true := by
  intro c hc
  obtain ⟨digit, hdigit, rfl⟩ := List.mem_map.mp hc
  exact Nat.isDigit_of_mem_toDigits (by decide) (by decide) hdigit

/-- The digits of a positive number do not begin with zero. -/
theorem head?_toDigits {n : ℕ} (h : 0 < n) : (Nat.toDigits 10 n).head? ≠ some '0' := by
  induction n using Nat.strong_induction_on with
  | _ n ih =>
    by_cases hsmall : n < 10
    · have hdigit : ∀ m < 10, 0 < m → [m.digitChar].head? ≠ some '0' := by decide
      rw [Nat.toDigits_of_lt_base hsmall]
      exact hdigit n hsmall h
    · rw [Nat.toDigits_of_base_le (by decide) (Nat.not_lt.mp hsmall), List.head?_append]
      have hquotient := ih (n / 10) (by omega) (by omega)
      cases hhead : (Nat.toDigits 10 (n / 10)).head? with
      | none => exact absurd (List.head?_eq_none_iff.mp hhead) Nat.toDigits_ne_nil
      | some c =>
        rw [hhead] at hquotient
        exact hquotient

/-- The digits of a positive number do not begin with zero. -/
theorem head?_decimalDigits {n : ℕ} (h : 0 < n) : (decimalDigits n).head? ≠ some (.scalar '0') := by
  intro hhead
  rw [decimalDigits, List.head?_map] at hhead
  obtain ⟨c, hc, hzero⟩ := Option.map_eq_some_iff.mp hhead
  obtain rfl := CodePoint.scalar.inj hzero
  exact head?_toDigits h hc

/-- The digits of a number denote it. -/
theorem digitsValue_decimalDigits (n : ℕ) : digitsValue (decimalDigits n) = n := by
  have hfold : digitsValue (decimalDigits n) = Nat.ofDigitChars 10 (Nat.toDigits 10 n) 0 := by
    rw [Nat.ofDigitChars_eq_foldl, digitsValue, decimalDigits, List.foldl_map]
    congr 1
    funext m c
    exact congrArg (· + (c.toNat - 48)) (Nat.mul_comm m 10)
  rw [hfold, Nat.ofDigitChars_ten_toDigits]

/-- The digits of a number are read up to what follows them. -/
theorem scanDigits_decimalDigits (n : ℕ) {rest : Text} (hrest : NoDigit rest) :
    scanDigits (decimalDigits n ++ rest) = some (decimalDigits n, rest) := by
  rcases n.eq_zero_or_pos with rfl | hpos
  · rfl
  · have hall := isDigit_of_mem_decimalDigits (n := n)
    have hhead := head?_decimalDigits hpos
    cases hdigits : decimalDigits n with
    | nil => exact absurd hdigits decimalDigits_ne_nil
    | cons c digits =>
      rw [hdigits] at hall hhead
      obtain ⟨hc, hall⟩ := List.forall_mem_cons.mp hall
      have hzero : c ≠ '0' := fun heq => hhead (congrArg some heq)
      obtain ⟨htake, hdrop⟩ := takeWhile_digits hall hrest
      rw [List.cons_append, scanDigits, if_neg hzero, if_pos hc, htake, hdrop]

/-- The first character of a number is a sign or a digit. -/
theorem head?_number {sign : Text} (hsign : sign = [] ∨ sign = [.scalar '-']) (n : ℕ)
    (rest : Text) :
    ∃ c cs, sign ++ (decimalDigits n ++ rest) = c :: cs ∧ (c = '-' ∨ c.isDigit = true) := by
  rcases hsign with rfl | rfl
  · cases hdigits : decimalDigits n with
    | nil => exact absurd hdigits decimalDigits_ne_nil
    | cons c digits =>
      have hc := isDigit_of_mem_decimalDigits (n := n) c (by simp [hdigits])
      exact ⟨c, digits ++ rest, rfl, .inr hc⟩
  · exact ⟨'-', _, rfl, .inl rfl⟩

/-- A sign is read off the digits that follow it. -/
theorem scanSign_number {sign : Text} (hsign : sign = [] ∨ sign = [.scalar '-']) (n : ℕ)
    (rest : Text) :
    scanSign ['-'] (sign ++ (decimalDigits n ++ rest)) = (sign, decimalDigits n ++ rest) := by
  rcases hsign with rfl | rfl
  · cases hdigits : decimalDigits n with
    | nil => exact absurd hdigits decimalDigits_ne_nil
    | cons c digits =>
      have hc := isDigit_of_mem_decimalDigits (n := n) c (by simp [hdigits])
      have hminus : c ≠ '-' := by
        rintro rfl
        cases hc
      simp [scanSign, hminus]
  · rfl

/-- There is no fraction where a number ends. -/
theorem scanFraction_of_delimited {rest : Text} (h : Delimited rest) :
    scanFraction rest = ([], rest) := by
  unfold scanFraction
  split
  · exact absurd rfl (h '.' rfl).2.1
  · rfl

/-- There is no exponent where a number ends. -/
theorem scanExponent_of_delimited {rest : Text} (h : Delimited rest) :
    scanExponent rest = ([], rest) := by
  cases rest with
  | nil => rfl
  | cons c rest =>
    obtain ⟨-, -, he, hE⟩ := h c rfl
    simp [scanExponent, he, hE]

/-- An exponent does not begin like a fraction or a digit. -/
theorem IsExponent.head {cs : Text} (h : IsExponent cs) (rest : Text) :
    NoDigit (cs ++ rest) ∧ scanFraction (cs ++ rest) = ([], cs ++ rest) := by
  obtain ⟨e, sign, digits, rfl, he, -, -, -⟩ := h
  rcases he with rfl | rfl
  · exact ⟨fun c hc => by cases hc; rfl, rfl⟩
  · exact ⟨fun c hc => by cases hc; rfl, rfl⟩

/-- An exponent is read up to what follows it. -/
theorem scanExponent_append {cs rest : Text} (h : IsExponent cs) (hrest : NoDigit rest) :
    scanExponent (cs ++ rest) = (cs, rest) := by
  obtain ⟨e, sign, digits, rfl, he, hsign, hne, hdigits⟩ := h
  obtain ⟨htake, hdrop⟩ := takeWhile_digits hdigits hrest
  have hscan : scanSign ['+', '-'] (sign ++ (digits ++ rest)) = (sign, digits ++ rest) := by
    rcases hsign with rfl | rfl | rfl
    · cases digits with
      | nil => exact absurd rfl hne
      | cons c digits =>
        have hc := hdigits c (List.mem_cons_self ..)
        have hplus : c ≠ '+' := by
          rintro rfl
          cases hc
        have hminus : c ≠ '-' := by
          rintro rfl
          cases hc
        simp [scanSign, hplus, hminus]
    · rfl
    · rfl
  have hnonempty : digits.isEmpty = false := by simpa using hne
  simp [scanExponent, hscan, htake, hdrop, he, hnonempty]

/-- A fraction is read up to what follows it. -/
theorem scanFraction_append {cs rest : Text} (h : IsFraction cs) (hrest : NoDigit rest) :
    scanFraction (cs ++ rest) = (cs, rest) := by
  obtain ⟨digits, rfl, hne, hdigits⟩ := h
  obtain ⟨htake, hdrop⟩ := takeWhile_digits hdigits hrest
  have hnonempty : digits.isEmpty = false := by simpa using hne
  simp [scanFraction, htake, hdrop, hnonempty]

section Numbers

variable {K : Type} (decimal : Text → Double K) {rest : Text}

/-- A number is read part by part. -/
theorem scanNumber_append {sign fraction exponent : Text} {n : ℕ}
    (hsign : sign = [] ∨ sign = [.scalar '-']) (hfraction : fraction = [] ∨ IsFraction fraction)
    (hexponent : exponent = [] ∨ IsExponent exponent) (hrest : Delimited rest) :
    scanNumber decimal (sign ++ (decimalDigits n ++ (fraction ++ exponent)) ++ rest) =
      some (if fraction.isEmpty && exponent.isEmpty then
          (.int (if sign.isEmpty then (digitsValue (decimalDigits n) : ℤ)
            else -digitsValue (decimalDigits n)), rest)
        else
          (.real (decimal (sign ++ decimalDigits n ++ fraction ++ exponent)), rest)) := by
  have hexp : NoDigit (exponent ++ rest) ∧ scanExponent (exponent ++ rest) = (exponent, rest) ∧
      (fraction = [] → scanFraction (exponent ++ rest) = ([], exponent ++ rest)) := by
    rcases hexponent with rfl | hexponent
    · exact ⟨hrest.noDigit, scanExponent_of_delimited hrest,
        fun _ => scanFraction_of_delimited hrest⟩
    · exact ⟨(hexponent.head rest).1, scanExponent_append hexponent hrest.noDigit,
        fun _ => (hexponent.head rest).2⟩
  obtain ⟨hnodigit, hscanexp, hnofraction⟩ := hexp
  have hfrac : NoDigit (fraction ++ (exponent ++ rest)) ∧
      scanFraction (fraction ++ (exponent ++ rest)) = (fraction, exponent ++ rest) := by
    rcases hfraction with rfl | hfraction
    · exact ⟨hnodigit, hnofraction rfl⟩
    · refine ⟨?_, scanFraction_append hfraction hnodigit⟩
      obtain ⟨digits, rfl, -, -⟩ := hfraction
      intro c hc
      cases hc
      rfl
  have htext : sign ++ (decimalDigits n ++ (fraction ++ exponent)) ++ rest =
      sign ++ (decimalDigits n ++ (fraction ++ (exponent ++ rest))) := by simp
  have hdigits := scanDigits_decimalDigits n hfrac.1
  rw [htext, scanNumber, scanSign_number hsign n]
  dsimp only
  rw [hdigits, Option.map_some]
  dsimp only
  rw [hfrac.2]
  dsimp only
  rw [hscanexp]

/-- The text of an integer is read as the integer. -/
theorem scanNumber_writeInt (n : ℤ) (hrest : Delimited rest) :
    scanNumber decimal (writeInt n ++ rest) = some (.int n, rest) := by
  have hsign : (if n < 0 then ['-'] else [] : Text) = [] ∨
      (if n < 0 then ['-'] else [] : Text) = [.scalar '-'] := by
    by_cases hneg : n < 0
    · exact .inr (if_pos hneg)
    · exact .inl (if_neg hneg)
  have hread := scanNumber_append decimal (n := n.natAbs) hsign (.inl rfl) (.inl rfl) hrest
  rw [List.append_nil, List.append_nil] at hread
  rw [writeInt, hread, digitsValue_decimalDigits]
  by_cases hneg : n < 0
  · have hvalue : -(n.natAbs : ℤ) = n := by omega
    simp only [hneg, ↓reduceIte, List.isEmpty_nil, List.isEmpty_cons, Bool.and_self,
      Bool.false_eq_true, hvalue]
  · have hvalue : (n.natAbs : ℤ) = n := by omega
    simp only [hneg, ↓reduceIte, List.isEmpty_nil, Bool.and_self, hvalue]

/-- The text of a decimal is read as the double that it denotes. -/
theorem scanNumber_decimal {cs : Text} (h : IsDecimal cs) (hrest : Delimited rest) :
    scanNumber decimal (cs ++ rest) = some (.real (decimal cs), rest) := by
  obtain ⟨sign, n, fraction, exponent, rfl, hsign, hfraction, hexponent, hboth⟩ := h
  rw [scanNumber_append decimal hsign hfraction hexponent hrest, if_neg]
  · simp only [List.append_assoc]
  · simpa using hboth

end Numbers

/-- A reader of strings takes the text as one code point, whatever follows it, unless the second half of
a pair follows the escape of a first half. -/
def Spells (text : Text) (p : CodePoint) : Prop :=
  ∀ rest, (p.IsHigh → lowEscape rest = none) →
    scanString 0 (text ++ rest) = (scanString 0 rest).map fun s => (p :: s.1, s.2)

/-- A hexadecimal digit; the first of the letters is given. -/
def hexChar (letter : Char) (n : ℕ) : Char :=
  if n < 10 then Char.ofNat (48 + n) else Char.ofNat (letter.toNat + (n - 10))

/-- The escape of a code unit. -/
def unicodeEscape (letter : Char) (unit : ℕ) : Text :=
  ['\\', 'u', hexChar letter (unit / 4096), hexChar letter (unit / 256 % 16),
    hexChar letter (unit / 16 % 16), hexChar letter (unit % 16)]

/-- The characters with an escape of one letter, and the letters. -/
def shortEscapes : List (CodePoint × CodePoint) :=
  [('"', '"'), ('\\', '\\'), (Char.ofNat 8, 'b'), (Char.ofNat 12, 'f'), ('\n', 'n'), ('\r', 'r'),
   ('\t', 't')]

/-- The escape of a character by one letter, if it has one. -/
def shortText (p : CodePoint) : Option Text :=
  (shortEscapes.find? fun e => e.1 = p).map fun e => ['\\', e.2]

/-- The escape of a code point by its code units. -/
def unicodeText (letter : Char) (p : CodePoint) : Text :=
  if p.code < 0x10000 then unicodeEscape letter p.code
  else unicodeEscape letter (0xD800 + (p.code - 0x10000) / 0x400) ++
    unicodeEscape letter (0xDC00 + (p.code - 0x10000) % 0x400)

/-- A character that is no quotation mark, backslash or control character is read as itself. -/
theorem scanString_self {p : CodePoint} (hquote : p ≠ '"') (hbackslash : p ≠ '\\')
    (hcontrol : 32 ≤ p.code) (rest : Text) :
    scanString 0 (p :: rest) = (scanString 0 rest).map fun s => (p :: s.1, s.2) := by
  have hchar : scanChar p rest = some (p, 0) := by
    unfold scanChar
    rw [if_neg hbackslash, if_neg (Nat.not_lt.mpr hcontrol)]
  rw [scanString, if_neg hquote, hchar]
  rfl

/-- The escapes of one letter spell their characters. -/
theorem spells_short {p : CodePoint} {text : Text} (h : shortText p = some text) :
    Spells text p := by
  intro rest _
  obtain ⟨e, hfind, rfl⟩ := Option.map_eq_some_iff.mp h
  obtain rfl : e.1 = p := by simpa using List.find?_some hfind
  have hmem := List.mem_of_find?_eq_some hfind
  simp only [shortEscapes, List.mem_cons, List.not_mem_nil, or_false] at hmem
  rcases hmem with rfl | rfl | rfl | rfl | rfl | rfl | rfl <;> rfl

/-- A character without such an escape is no quotation mark and no backslash. -/
theorem ne_of_shortText {p : CodePoint} (h : shortText p = none) : p ≠ '"' ∧ p ≠ '\\' := by
  constructor <;>
  · rintro rfl
    cases h

/-- Hexadecimal digits with small or capital letters are read. -/
theorem hexDigit_hexChar {letter : Char} (hletter : letter = 'a' ∨ letter = 'A') :
    ∀ n < 16, hexDigit (hexChar letter n) = some n := by
  rcases hletter with rfl | rfl
  · decide
  · decide

/-- The digits of a code unit are read. -/
theorem codeUnit_hexChar {letter : Char} (hletter : letter = 'a' ∨ letter = 'A') {unit : ℕ}
    (hunit : unit < 0x10000) :
    codeUnit (hexChar letter (unit / 4096)) (hexChar letter (unit / 256 % 16))
      (hexChar letter (unit / 16 % 16)) (hexChar letter (unit % 16)) = some unit := by
  have hread := hexDigit_hexChar hletter
  rw [codeUnit, hread _ (by omega), hread _ (by omega), hread _ (by omega), hread _ (by omega)]
  simp only [Option.pure_def, Option.bind_eq_bind, Option.bind_some, Option.some.injEq]
  omega

/-- The escape of a code unit is read as what the unit stands for, with what follows the escape. -/
theorem scanString_unicodeEscape {letter : Char} (hletter : letter = 'a' ∨ letter = 'A') {unit : ℕ}
    (hunit : unit < 0x10000) {rest : Text} {p : CodePoint} {more : ℕ}
    (hescape : unitEscape unit rest = (p, more)) :
    scanString 0 (unicodeEscape letter unit ++ rest) =
      (scanString more rest).map fun s => (p :: s.1, s.2) := by
  have hchar : scanChar '\\' ((unicodeEscape letter unit ++ rest).drop 1) = some (p, 5 + more) := by
    simp only [unicodeEscape, List.cons_append, List.nil_append, List.drop_succ_cons, List.drop_zero,
      scanChar, ↓reduceIte, codeUnit_hexChar hletter hunit, hescape, Option.map_some]
  have hquote : ('\\' : CodePoint) ≠ '"' := by decide
  rw [Nat.add_comm] at hchar
  simp only [unicodeEscape, List.cons_append, List.nil_append, List.drop_succ_cons,
    List.drop_zero] at hchar
  simp only [unicodeEscape, List.cons_append, List.nil_append, scanString, hquote, ↓reduceIte, hchar,
    Option.bind_some]

/-- An escape that belongs to the character before it is passed over. -/
theorem scanString_skip (letter : Char) (unit : ℕ) (rest : Text) :
    scanString 6 (unicodeEscape letter unit ++ rest) = scanString 0 rest := rfl

/-- The escape of a code unit is the second half of a pair if the unit is one. -/
theorem lowEscape_unicodeEscape {letter : Char} (hletter : letter = 'a' ∨ letter = 'A') {unit : ℕ}
    (hunit : unit < 0x10000) (rest : Text) :
    lowEscape (unicodeEscape letter unit ++ rest) =
      if 0xDC00 ≤ unit ∧ unit < 0xE000 then some unit else none := by
  simp only [unicodeEscape, List.cons_append, List.nil_append, lowEscape,
    codeUnit_hexChar hletter hunit, Option.filter_some, decide_eq_true_eq]

/-- No other character begins the escape of a second half. -/
theorem lowEscape_cons {p : CodePoint} (h : p ≠ '\\') (rest : Text) : lowEscape (p :: rest) = none := by
  unfold lowEscape
  split
  · rename_i heq
    exact absurd (List.cons.inj heq).1 h
  · rfl

/-- An escape of one letter is no escape of a second half. -/
theorem lowEscape_short {p : CodePoint} {text : Text} (h : shortText p = some text) (rest : Text) :
    lowEscape (text ++ rest) = none := by
  obtain ⟨e, hfind, rfl⟩ := Option.map_eq_some_iff.mp h
  have hmem := List.mem_of_find?_eq_some hfind
  simp only [shortEscapes, List.mem_cons, List.not_mem_nil, or_false] at hmem
  rcases hmem with rfl | rfl | rfl | rfl | rfl | rfl | rfl <;> rfl

/-- The code units of a code point beyond the first plane. -/
theorem units_of_large {p : CodePoint} (h : 0x10000 ≤ p.code) :
    ∃ c : Char, p = c ∧ 0x10000 ≤ c.toNat ∧ c.toNat < 0x110000 := by
  cases p with
  | scalar c =>
    have hscalar := CodePoint.not_surrogate c
    rw [CodePoint.code_scalar] at h
    exact ⟨c, rfl, h, by omega⟩
  | surrogate n =>
    have hn := n.isLt
    simp only [CodePoint.code] at h
    omega

/-- The escape by code units spells the code point. -/
theorem spells_unicode {letter : Char} (hletter : letter = 'a' ∨ letter = 'A') (p : CodePoint) :
    Spells (unicodeText letter p) p := by
  intro rest hrest
  unfold unicodeText
  split
  · rename_i hsmall
    have hescape : unitEscape p.code rest = (p, 0) := by
      unfold unitEscape
      rw [CodePoint.ofCode_code]
      split
      · rename_i hhigh
        rw [hrest hhigh]
      · rfl
    exact scanString_unicodeEscape hletter hsmall hescape
  · rename_i hlarge
    obtain ⟨c, rfl, hlow, hhigh⟩ := units_of_large (Nat.not_lt.mp hlarge)
    rw [CodePoint.code_scalar]
    have hcode : 0x10000 + (0xD800 + (c.toNat - 0x10000) / 0x400 - 0xD800) * 0x400 +
        (0xDC00 + (c.toNat - 0x10000) % 0x400 - 0xDC00) = c.toNat := by omega
    have hescape : unitEscape (0xD800 + (c.toNat - 0x10000) / 0x400)
        (unicodeEscape letter (0xDC00 + (c.toNat - 0x10000) % 0x400) ++ rest) = (.scalar c, 6) := by
      rw [unitEscape, if_pos (by omega), lowEscape_unicodeEscape hletter (by omega),
        if_pos (by omega)]
      dsimp only
      rw [hcode, Char.ofNat_toNat]
    rw [List.append_assoc, scanString_unicodeEscape hletter (by omega) hescape, scanString_skip]

/-- The escape by code units begins with a second half only if the code point is one. -/
theorem lowEscape_unicodeText {letter : Char} (hletter : letter = 'a' ∨ letter = 'A') {p : CodePoint}
    (h : ¬ p.IsLow) (rest : Text) : lowEscape (unicodeText letter p ++ rest) = none := by
  unfold unicodeText
  split
  · rename_i hsmall
    exact (lowEscape_unicodeEscape hletter hsmall rest).trans (if_neg h)
  · rename_i hlarge
    obtain ⟨c, rfl, hlow, hhigh⟩ := units_of_large (Nat.not_lt.mp hlarge)
    rw [List.append_assoc, CodePoint.code_scalar, lowEscape_unicodeEscape hletter (by omega),
      if_neg (by omega)]

/-- How a writer sets a text: the space after commas and colons, and the escapes in strings. -/
structure Style where
  gap : Text
  escape : CodePoint → Text
  gap_isSpace : ∀ c ∈ gap, isSpace c = true
  spells_escape : ∀ p, Spells (escape p) p
  /-- No escape begins like that of a second half, except its own. -/
  lowEscape_escape : ∀ p, ¬ p.IsLow → ∀ rest, lowEscape (escape p ++ rest) = none

namespace Style

variable (style : Style)

/-- The text of a string. -/
def writeString (s : Text) : Text := '"' :: (s.flatMap style.escape ++ [.scalar '"'])

/-- The characters of a string are read up to the closing quotation mark. -/
theorem scanString_escape {cs : Text} (h : cs.Unpaired) (rest : Text) :
    scanString 0 (cs.flatMap style.escape ++ .scalar '"' :: rest) = some (cs, rest) := by
  induction cs with
  | nil => rfl
  | cons p cs ih =>
    obtain ⟨hpair, hcs⟩ := List.isChain_cons.mp h
    have hnext : p.IsHigh → lowEscape (cs.flatMap style.escape ++ .scalar '"' :: rest) = none := by
      intro hhigh
      cases cs with
      | nil => rfl
      | cons q cs =>
        have hlow : ¬ q.IsLow := fun hlow => hpair q rfl ⟨hhigh, hlow⟩
        rw [List.flatMap_cons, List.append_assoc, style.lowEscape_escape q hlow]
    rw [List.flatMap_cons, List.append_assoc, style.spells_escape p _ hnext, ih hcs]
    rfl

/-- A style in which the characters of a kind are set as they are, unless they have an escape of one
letter, and all others by their code units. -/
def escaping (gap : Text) (gap_isSpace : ∀ c ∈ gap, isSpace c = true) (letter : Char)
    (hletter : letter = 'a' ∨ letter = 'A') (bare : CodePoint → Bool)
    (hbare : ∀ p, bare p = true → 32 ≤ p.code) : Style where
  gap := gap
  escape := fun p => (shortText p).getD (if bare p then [p] else unicodeText letter p)
  gap_isSpace := gap_isSpace
  spells_escape := by
    intro p
    cases hshort : shortText p with
    | some text => exact spells_short hshort
    | none =>
      rw [Option.getD_none]
      split
      · rename_i hp
        obtain ⟨hquote, hbackslash⟩ := ne_of_shortText hshort
        exact fun rest _ => scanString_self hquote hbackslash (hbare p hp) rest
      · exact spells_unicode hletter p
  lowEscape_escape := by
    intro p hlow rest
    cases hshort : shortText p with
    | some text => exact lowEscape_short hshort rest
    | none =>
      rw [Option.getD_none]
      split
      · exact lowEscape_cons (ne_of_shortText hshort).2 rest
      · exact lowEscape_unicodeText hletter hlow rest

/-- Only the characters that must be escaped are escaped. -/
def sparing (letter : Char) (hletter : letter = 'a' ∨ letter = 'A') : Style :=
  escaping [] (List.forall_mem_nil _) letter hletter (fun p => 32 ≤ p.code) fun _ => of_decide_eq_true

/-- Only the characters that must be escaped are escaped, control characters in capital letters. -/
def compact : Style := sparing 'A' (.inr rfl)

/-- Only the characters that must be escaped are escaped, control characters in small letters. -/
def unescaped : Style := sparing 'a' (.inl rfl)

/-- Surrogates are escaped as well, and so are those of a pair. -/
def paired : Style :=
  escaping [] (List.forall_mem_nil _) 'A' (.inr rfl)
    (fun p => 32 ≤ p.code ∧ p.code < 0x10000 ∧ ¬ p.IsHigh ∧ ¬ p.IsLow)
    fun _ hp => (of_decide_eq_true hp).1

/-- One space after commas and colons, and every character that is not printable ASCII escaped. -/
def ascii : Style :=
  escaping [' '] (by simp [isSpace]) 'a' (.inl rfl) (fun p => 32 ≤ p.code ∧ p.code ≤ 126)
    fun _ hp => (of_decide_eq_true hp).1

end Style

/-- Texts with a comma and a gap between them. -/
def join (gap : Text) : List Text → Text
  | [] => []
  | [text] => text
  | text :: text' :: rest => text ++ .scalar ',' :: (gap ++ join gap (text' :: rest))

/-- The text begins a value: neither with a space nor with a closing bracket. -/
def Begins (text : Text) : Prop :=
  ∃ c cs, text = c :: cs ∧ isSpace c = false ∧ c ≠ ']' ∧ c ≠ '}'

/-- A reader takes the text, up to what cannot belong to a number, as the value. -/
structure Takes {α : Type} (item : Reader α) (text : Text) (a : α) : Prop where
  begins : Begins text
  reads : ∀ rest, Delimited rest → item (text ++ rest) = some (a, rest)

section Sequences

variable {α : Type} {item : Reader α} {gap : Text}

/-- There is no space to skip before a value. -/
theorem skipSpace_begins {text : Text} (h : Begins text) (rest : Text) :
    skipSpace (text ++ rest) = text ++ rest := by
  obtain ⟨c, cs, rfl, hspace, -⟩ := h
  simp [skipSpace, hspace]

/-- The gap before a value is skipped. -/
theorem skipSpace_gap {text : Text} (hgap : ∀ c ∈ gap, isSpace c = true) (h : Begins text)
    (rest : Text) : skipSpace (gap ++ (text ++ rest)) = text ++ rest := by
  have hskip : skipSpace (gap ++ (text ++ rest)) = skipSpace (text ++ rest) :=
    List.dropWhile_append_of_pos hgap
  rw [hskip, skipSpace_begins h]

/-- A closing bracket and a comma end a number, and there is no space before them. -/
theorem delimited_close {close : CodePoint} (hclose : close = ']' ∨ close = '}' ∨ close = ',')
    (rest : Text) :
    Delimited (close :: rest) ∧ skipSpace (close :: rest) = close :: rest := by
  rcases hclose with rfl | rfl | rfl
  · exact ⟨delimited_cons rest (by decide), rfl⟩
  · exact ⟨delimited_cons rest (by decide), rfl⟩
  · exact ⟨delimited_cons rest (by decide), rfl⟩

/-- Joined texts begin like the first one. -/
theorem begins_join {text : Text} {texts : List Text} (h : Begins text) :
    Begins (join gap (text :: texts)) := by
  obtain ⟨c, cs, rfl, hc⟩ := h
  cases texts with
  | nil => exact ⟨c, cs, rfl, hc⟩
  | cons text' texts => exact ⟨c, _, rfl, hc⟩

/-- Items are read up to the closing bracket, with any space before it. -/
theorem scanItems_join (hgap : ∀ c ∈ gap, isSpace c = true) {close : CodePoint}
    (hclose : close = ']' ∨ close = '}') {texts : List Text} {values : List α}
    (h : List.Forall₂ (Takes item) texts values) (hne : texts ≠ []) {fuel : ℕ}
    (hfuel : texts.length ≤ fuel) {tail rest : Text} (hdelimited : Delimited tail)
    (hskip : skipSpace tail = close :: rest) :
    scanItems item close fuel (join gap texts ++ tail) = some (values, rest) := by
  induction h generalizing fuel with
  | nil => exact absurd rfl hne
  | @cons text a texts values htext htexts ih =>
    cases fuel with
    | zero => exact absurd hfuel (Nat.not_succ_le_zero _)
    | succ fuel =>
      cases htexts with
      | nil =>
        rw [join, scanItems, htext.reads _ hdelimited, Option.bind_some]
        dsimp only
        rw [hskip]
        dsimp only
        rw [if_pos rfl]
      | @cons text' a' texts values htext' htexts =>
        have hcomma : (',' : CodePoint) ≠ close := by
          rcases hclose with rfl | rfl
          · decide
          · decide
        have hsplit : join gap (text :: text' :: texts) ++ tail =
            text ++ .scalar ',' :: (gap ++ (join gap (text' :: texts) ++ tail)) := by
          simp [join]
        have hend := delimited_close (.inr (.inr rfl) : CodePoint.scalar ',' = ']' ∨ _ ∨ _)
          (gap ++ (join gap (text' :: texts) ++ tail))
        rw [hsplit, scanItems, htext.reads _ hend.1, Option.bind_some]
        dsimp only
        rw [hend.2]
        dsimp only
        rw [if_neg hcomma, if_pos rfl, skipSpace_gap hgap (begins_join htext'.begins),
          ih (by simp) (Nat.le_of_succ_le_succ hfuel)]
        rfl

/-- A list is read up to the closing bracket, with any space after the opening one and before the
closing one. -/
theorem scanList_spread (hgap : ∀ c ∈ gap, isSpace c = true) {close : CodePoint}
    (hclose : close = ']' ∨ close = '}') {texts : List Text} {values : List α}
    (h : List.Forall₂ (Takes item) texts values) (hne : texts ≠ []) {fuel : ℕ}
    (hfuel : texts.length ≤ fuel) {lead tail rest : Text}
    (hlead : ∀ c ∈ lead, isSpace c = true) (hdelimited : Delimited tail)
    (hskip : skipSpace tail = close :: rest) :
    scanList item close fuel (lead ++ (join gap texts ++ tail)) = some (values, rest) := by
  have hitems := scanItems_join hgap hclose h hne hfuel hdelimited hskip
  cases h with
  | nil => exact absurd rfl hne
  | @cons text a texts values htext htexts =>
    have hbegins : Begins (join gap (text :: texts)) := begins_join htext.begins
    rw [scanList, skipSpace_gap hlead hbegins]
    obtain ⟨c, cs, hjoin, -, hbracket, hbrace⟩ := hbegins
    rw [hjoin] at hitems ⊢
    have hnot : c ≠ close := by
      rcases hclose with rfl | rfl
      · exact hbracket
      · exact hbrace
    rw [List.cons_append]
    dsimp only
    rw [if_neg hnot]
    exact hitems

/-- A list is read up to the closing bracket. -/
theorem scanList_join (hgap : ∀ c ∈ gap, isSpace c = true) {close : CodePoint}
    (hclose : close = ']' ∨ close = '}') {texts : List Text} {values : List α}
    (h : List.Forall₂ (Takes item) texts values) {fuel : ℕ} (hfuel : texts.length ≤ fuel)
    (rest : Text) :
    scanList item close fuel (join gap texts ++ close :: rest) = some (values, rest) := by
  obtain ⟨hdelimited, hskip⟩ := delimited_close (hclose.imp_right .inl) rest
  by_cases hne : texts = []
  · subst hne
    cases h
    rw [join, List.nil_append, scanList, hskip]
    dsimp only
    rw [if_pos rfl]
  · have hlead : ∀ c ∈ ([] : Text), isSpace c = true := List.forall_mem_nil _
    exact scanList_spread hgap hclose h hne hfuel hlead hdelimited hskip

/-- Every joined text takes its characters, and there are no more texts than characters. -/
theorem length_join_le {texts : List Text} :
    (∀ text ∈ texts, text.length ≤ (join gap texts).length) ∧
      ((∀ text ∈ texts, text ≠ []) → texts.length ≤ (join gap texts).length) := by
  induction texts with
  | nil => simp
  | cons text texts ih =>
    cases texts with
    | nil =>
      refine ⟨fun other hother => ?_, fun hne => ?_⟩
      · rw [List.mem_singleton.mp hother, join]
      · have hpos := List.length_pos_iff.mpr (hne text (List.mem_singleton_self _))
        rw [List.length_singleton, join]
        omega
    | cons text' texts =>
      have hlength : (join gap (text :: text' :: texts)).length =
          text.length + (1 + (gap.length + (join gap (text' :: texts)).length)) := by
        rw [join, List.length_append, List.length_cons, List.length_append]
        omega
      refine ⟨fun other hother => ?_, fun hne => ?_⟩
      · rcases List.mem_cons.mp hother with rfl | hother
        · omega
        · have := ih.1 other hother
          omega
      · have := ih.2 fun other hother => hne other (List.mem_cons_of_mem _ hother)
        rw [List.length_cons]
        omega

/-- Texts that are read as items are not empty. -/
theorem ne_nil_of_takes {texts : List Text} {values : List α}
    (h : List.Forall₂ (Takes item) texts values) {text : Text} (htext : text ∈ texts) :
    text ≠ [] := by
  induction h with
  | nil => exact absurd htext List.not_mem_nil
  | cons hhead _ ih =>
    rcases List.mem_cons.mp htext with rfl | hrest
    · obtain ⟨c, cs, rfl, -⟩ := hhead.begins
      exact List.cons_ne_nil c cs
    · exact ih hrest

end Sequences

section Values

variable {K : Type}

/-- The text is read as a value that is neither a string nor nested, and does not begin like one. -/
structure Legible (d : Dialect K) (text : Text) (v : Json K) : Prop where
  begins : ∃ c cs, text = c :: cs ∧ isSpace c = false ∧ c ∉ ([']', '}', '{', '[', '"'] : Text)
  reads : ∀ rest, Delimited rest → scanScalar d (text ++ rest) = some (v, rest)

/-- A scalar is a value. -/
theorem Legible.takes {d : Dialect K} {text : Text} {v : Json K} (h : Legible d text v)
    (fuel : ℕ) : Takes (scanValue d (fuel + 1)) text v := by
  obtain ⟨⟨c, cs, rfl, hspace, hc⟩, hreads⟩ := h
  simp only [List.mem_cons, List.not_mem_nil, or_false, not_or] at hc
  obtain ⟨hbracket, hbrace, hobject, harray, hstring⟩ := hc
  refine ⟨⟨c, cs, rfl, hspace, hbracket, hbrace⟩, fun rest hrest => ?_⟩
  rw [← hreads rest hrest, List.cons_append, scanValue, if_neg hobject, if_neg harray,
    if_neg hstring]

/-- A scalar is read with any bound that is not below its length. -/
theorem Legible.takes_of_length {d : Dialect K} {text : Text} {v : Json K}
    (h : Legible d text v) {fuel : ℕ} (hfuel : text.length ≤ fuel) :
    Takes (scanValue d fuel) text v := by
  cases fuel with
  | zero =>
    obtain ⟨⟨c, cs, rfl, -⟩, -⟩ := h
    exact absurd hfuel (Nat.not_succ_le_zero _)
  | succ fuel => exact h.takes fuel

/-- A number is no literal. -/
theorem scanLiteral_number {c : CodePoint} (h : c = '-' ∨ c.isDigit = true) (cs : Text) :
    (scanLiteral (c :: cs) : Option (Json K × Text)) = none := by
  unfold scanLiteral
  split
  · rename_i heq
    cases heq
    rcases h with h | h <;> cases h
  · rename_i heq
    cases heq
    rcases h with h | h <;> cases h
  · rename_i heq
    cases heq
    rcases h with h | h <;> cases h
  · rfl

/-- What begins a number begins no other value. -/
theorem begins_number {c : CodePoint} (h : c = '-' ∨ c.isDigit = true) :
    isSpace c = false ∧ c ∉ ([']', '}', '{', '[', '"'] : Text) := by
  have hne : ∀ c' : CodePoint, c' ≠ '-' → c'.isDigit = false → c ≠ c' := by
    rintro c' hminus hdigit rfl
    rcases h with h | h
    · exact hminus h
    · rw [hdigit] at h
      cases h
  constructor
  · simp [isSpace, hne ' ' (by decide) (by decide), hne '\t' (by decide) (by decide),
      hne '\n' (by decide) (by decide), hne '\r' (by decide) (by decide)]
  · simp [hne ']' (by decide) (by decide), hne '}' (by decide) (by decide),
      hne '{' (by decide) (by decide), hne '[' (by decide) (by decide),
      hne '"' (by decide) (by decide)]

/-- A number is a scalar. -/
theorem legible_number {d : Dialect K} {text : Text} {v : Json K} {c : CodePoint} {cs : Text}
    (htext : text = c :: cs) (hc : c = '-' ∨ c.isDigit = true)
    (hreads : ∀ rest, Delimited rest → scanNumber d.decimal (text ++ rest) = some (v, rest)) :
    Legible d text v := by
  refine ⟨⟨c, cs, htext, begins_number hc⟩, fun rest hrest => ?_⟩
  have hliteral : (scanLiteral (text ++ rest) : Option (Json K × Text)) = none := by
    rw [htext, List.cons_append]
    exact scanLiteral_number hc _
  rw [scanScalar, hliteral, Option.none_or, hreads rest hrest, Option.some_or]

/-- The text of an integer is read as the integer. -/
theorem legible_int (d : Dialect K) (n : ℤ) : Legible d (writeInt n) (.int n) := by
  have hsign : (if n < 0 then ['-'] else [] : Text) = [] ∨
      (if n < 0 then ['-'] else [] : Text) = [.scalar '-'] := by
    by_cases hneg : n < 0
    · exact .inr (if_pos hneg)
    · exact .inl (if_neg hneg)
  obtain ⟨c, cs, htext, hc⟩ := head?_number hsign n.natAbs []
  rw [List.append_nil] at htext
  exact legible_number htext hc fun rest hrest => scanNumber_writeInt d.decimal n hrest

/-- The text of a decimal is read as the double that it denotes. -/
theorem legible_decimal (d : Dialect K) {text : Text} (h : IsDecimal text) :
    Legible d text (.real (d.decimal text)) := by
  obtain ⟨sign, n, fraction, exponent, htext, hsign, -⟩ := id h
  obtain ⟨c, cs, hhead, hc⟩ := head?_number hsign n (fraction ++ exponent)
  exact legible_number (htext.trans hhead) hc fun rest hrest => scanNumber_decimal d.decimal h hrest

/-- The text that a writer sets for a double is a decimal that denotes the double. -/
structure Denoted (d : Dialect K) (real : Double K → Text) (x : Double K) : Prop where
  isDecimal : IsDecimal (real x)
  decimal_eq : d.decimal (real x) = x

/-- Such a text is read as the double. -/
theorem Denoted.legible {d : Dialect K} {real : Double K → Text} {x : Double K}
    (h : Denoted d real x) : Legible d (real x) (.real x) := by
  have hread := legible_decimal d h.isDecimal
  rwa [h.decimal_eq] at hread

/-- The texts of doubles in a dialect that has constants for the special ones. -/
def withConstants (decimal : K → String) : Double K → Text
  | .finite x => decimal x
  | .posInf => ['I', 'n', 'f', 'i', 'n', 'i', 't', 'y']
  | .negInf => ['-', 'I', 'n', 'f', 'i', 'n', 'i', 't', 'y']
  | .nan => ['N', 'a', 'N']

/-- The constants are read. -/
theorem legible_withConstants {d : Dialect K} (hconstants : d.constants = true)
    {decimal : K → String} {x : Double K}
    (h : ∀ y, x = .finite y → Denoted d (withConstants decimal) x) :
    Legible d (withConstants decimal x) (.real x) := by
  have hread : ∀ cs : Text, scanScalar d cs =
      ((scanLiteral cs).or (scanNumber d.decimal cs)).or (scanConstant cs) := by
    intro cs
    rw [scanScalar, if_pos hconstants]
  cases x with
  | finite y => exact (h y rfl).legible
  | posInf => exact ⟨⟨_, _, rfl, by decide⟩, fun rest _ => by rw [hread]; rfl⟩
  | negInf => exact ⟨⟨_, _, rfl, by decide⟩, fun rest _ => by rw [hread]; rfl⟩
  | nan => exact ⟨⟨_, _, rfl, by decide⟩, fun rest _ => by rw [hread]; rfl⟩

/-- The literals are read. -/
theorem legible_null (d : Dialect K) : Legible d ['n', 'u', 'l', 'l'] .null :=
  ⟨⟨_, _, rfl, by decide⟩, fun _ _ => rfl⟩

/-- The literals are read. -/
theorem legible_bool (d : Dialect K) (b : Bool) :
    Legible d (if b then ['t', 'r', 'u', 'e'] else ['f', 'a', 'l', 's', 'e']) (.bool b) := by
  cases b
  · exact ⟨⟨_, _, rfl, by decide⟩, fun _ _ => rfl⟩
  · exact ⟨⟨_, _, rfl, by decide⟩, fun _ _ => rfl⟩

/-- Every double in a value satisfies a condition, and every string in it another one. -/
inductive Throughout (P : Double K → Prop) (Q : Text → Prop) : Json K → Prop where
  | null : Throughout P Q .null
  | bool (b : Bool) : Throughout P Q (.bool b)
  | int (n : ℤ) : Throughout P Q (.int n)
  | real {x : Double K} (h : P x) : Throughout P Q (.real x)
  | str {s : Text} (h : Q s) : Throughout P Q (.str s)
  | arr {items : List (Json K)} (h : ∀ v ∈ items, Throughout P Q v) : Throughout P Q (.arr items)
  | obj {members : List (Text × Json K)} (hnames : ∀ m ∈ members, Q m.1)
      (h : ∀ m ∈ members, Throughout P Q m.2) : Throughout P Q (.obj members)

namespace Style

variable (style : Style) (real : Double K → Text)

mutual

/-- The text of a value, given the texts of doubles. -/
def write : Json K → Text
  | .null => ['n', 'u', 'l', 'l']
  | .bool b => if b then ['t', 'r', 'u', 'e'] else ['f', 'a', 'l', 's', 'e']
  | .int n => writeInt n
  | .real x => real x
  | .str s => style.writeString s
  | .arr items => '[' :: (join style.gap (writeItems items) ++ [.scalar ']'])
  | .obj members => '{' :: (join style.gap (writeFields members) ++ [.scalar '}'])

/-- The texts of items. -/
def writeItems : List (Json K) → List Text
  | [] => []
  | v :: rest => write v :: writeItems rest

/-- The texts of members. -/
def writeFields : List (Text × Json K) → List Text
  | [] => []
  | (name, v) :: rest =>
    (style.writeString name ++ .scalar ':' :: (style.gap ++ write v)) :: writeFields rest

end

/-- Items are set one by one. -/
theorem writeItems_eq (items : List (Json K)) :
    style.writeItems real items = items.map (style.write real) := by
  induction items with
  | nil => rfl
  | cons v rest ih => rw [writeItems, ih, List.map_cons]

/-- The text of a member. -/
def writeField (m : Text × Json K) : Text :=
  style.writeString m.1 ++ .scalar ':' :: (style.gap ++ style.write real m.2)

/-- Members are set one by one. -/
theorem writeFields_eq (members : List (Text × Json K)) :
    style.writeFields real members = members.map (style.writeField real) := by
  induction members with
  | nil => rfl
  | cons m rest ih => rw [writeFields, ih, List.map_cons, writeField]

variable {style real} {d : Dialect K}

/-- A name, a colon and a text are read as a member, if the text is read as its value. -/
theorem takes_fieldText {item : Reader (Json K)} {name : Text} {v : Json K} {text : Text}
    (hname : name.Unpaired) (h : Takes item text v) :
    Takes (scanField item) (style.writeString name ++ .scalar ':' :: (style.gap ++ text))
      (name, v) := by
  refine ⟨⟨'"', _, rfl, by decide⟩, fun rest hrest => ?_⟩
  have htext : style.writeString name ++ .scalar ':' :: (style.gap ++ text) ++ rest =
      .scalar '"' :: (name.flatMap style.escape ++
        .scalar '"' :: .scalar ':' :: (style.gap ++ (text ++ rest))) := by
    simp [writeString]
  have hcolon : skipSpace (.scalar ':' :: (style.gap ++ (text ++ rest))) =
      .scalar ':' :: (style.gap ++ (text ++ rest)) := rfl
  rw [htext, scanField, if_pos rfl, style.scanString_escape hname, Option.bind_some]
  dsimp only
  rw [hcolon]
  dsimp only
  rw [if_pos rfl, skipSpace_gap style.gap_isSpace h.begins, h.reads rest hrest, Option.map_some]

/-- The text of a member is read as the member, if the text of its value is read as the value. -/
theorem takes_field {item : Reader (Json K)} {name : Text} {v : Json K} (hname : name.Unpaired)
    (h : Takes item (style.write real v) v) :
    Takes (scanField item) (style.writeField real (name, v)) (name, v) := takes_fieldText hname h

/-- The text of a string is read as the string. -/
theorem takes_str (d : Dialect K) (fuel : ℕ) {s : Text} (h : s.Unpaired) :
    Takes (scanValue d (fuel + 1)) (style.write real (.str s)) (.str s) := by
  refine ⟨⟨'"', _, rfl, by decide⟩, fun rest _ => ?_⟩
  have htext : style.write real (.str s) ++ rest =
      .scalar '"' :: (s.flatMap style.escape ++ .scalar '"' :: rest) := by
    simp [write, writeString]
  rw [htext, scanValue, if_neg (by decide), if_neg (by decide), if_pos rfl,
    style.scanString_escape h, Option.map_some]

/-- The text of an array is read as the array, if the texts of its items are read as the items. -/
theorem takes_arr {fuel : ℕ} {items : List (Json K)} {texts : List Text}
    (h : List.Forall₂ (Takes (scanValue d fuel)) texts items) (hfuel : texts.length ≤ fuel) :
    Takes (scanValue d (fuel + 1)) ('[' :: (join style.gap texts ++ [.scalar ']'])) (.arr items) := by
  refine ⟨⟨'[', _, rfl, by decide⟩, fun rest _ => ?_⟩
  rw [List.cons_append, List.append_assoc, List.singleton_append, scanValue, if_neg (by decide),
    if_pos rfl, scanList_join style.gap_isSpace (.inl rfl) h hfuel, Option.map_some]

/-- The text of an object is read as the object, if the texts of its members are read as the
members. -/
theorem takes_obj {fuel : ℕ} {members : List (Text × Json K)} {texts : List Text}
    (h : List.Forall₂ (Takes (scanField (scanValue d fuel))) texts members)
    (hfuel : texts.length ≤ fuel) :
    Takes (scanValue d (fuel + 1)) ('{' :: (join style.gap texts ++ [.scalar '}'])) (.obj members) := by
  refine ⟨⟨'{', _, rfl, by decide⟩, fun rest _ => ?_⟩
  rw [List.cons_append, List.append_assoc, List.singleton_append, scanValue, if_pos rfl,
    scanList_join style.gap_isSpace (.inr rfl) h hfuel, Option.map_some]

/-- The text of a value is read as the value, with any bound on the nesting that is not below its
length. -/
theorem takes_write {P : Double K → Prop} (hreal : ∀ x, P x → Legible d (real x) (.real x))
    {v : Json K} (h : Throughout P Text.Unpaired v) {fuel : ℕ}
    (hfuel : (style.write real v).length ≤ fuel) :
    Takes (scanValue d fuel) (style.write real v) v := by
  induction h generalizing fuel with
  | null => exact (legible_null d).takes_of_length hfuel
  | bool b => exact (legible_bool d b).takes_of_length hfuel
  | int n => exact (legible_int d n).takes_of_length hfuel
  | real hx => exact (hreal _ hx).takes_of_length hfuel
  | str hs =>
    cases fuel with
    | zero => exact absurd hfuel (Nat.not_succ_le_zero _)
    | succ fuel => exact takes_str d fuel hs
  | @arr items _ ih =>
    cases fuel with
    | zero => exact absurd hfuel (Nat.not_succ_le_zero _)
    | succ fuel =>
      rw [write, List.length_cons, List.length_append, List.length_singleton] at hfuel
      have hlengths := @length_join_le style.gap (style.writeItems real items)
      have hitems : List.Forall₂ (Takes (scanValue d fuel)) (style.writeItems real items) items := by
        rw [writeItems_eq] at hlengths ⊢
        rw [List.forall₂_map_left_iff, List.forall₂_same]
        intro v hv
        have hshort := hlengths.1 _ (List.mem_map_of_mem hv)
        rw [writeItems_eq] at hfuel
        exact ih v hv (by omega)
      have hcount := hlengths.2 fun text htext => ne_nil_of_takes hitems htext
      exact takes_arr hitems (by omega)
  | @obj members hnames _ ih =>
    cases fuel with
    | zero => exact absurd hfuel (Nat.not_succ_le_zero _)
    | succ fuel =>
      rw [write, List.length_cons, List.length_append, List.length_singleton] at hfuel
      have hlengths := @length_join_le style.gap (style.writeFields real members)
      have hmembers : List.Forall₂ (Takes (scanField (scanValue d fuel)))
          (style.writeFields real members) members := by
        rw [writeFields_eq] at hlengths ⊢
        rw [List.forall₂_map_left_iff, List.forall₂_same]
        intro m hm
        have hshort := hlengths.1 _ (List.mem_map_of_mem hm)
        rw [writeFields_eq] at hfuel
        rw [writeField, List.length_append, List.length_cons, List.length_append] at hshort
        exact takes_field (hnames m hm) (ih m hm (by omega))
      have hcount := hlengths.2 fun text htext => ne_nil_of_takes hmembers htext
      exact takes_obj hmembers (by omega)

/-- Reading what was written yields the value, if the texts of its doubles are read back. -/
theorem readDocument_write {P : Double K → Prop} (hreal : ∀ x, P x → Legible d (real x) (.real x))
    {v : Json K} (h : Throughout P Text.Unpaired v) : readDocument d (style.write real v) = some v := by
  have htakes : Takes (scanValue d (style.write real v).length) (style.write real v) v :=
    takes_write hreal h le_rfl
  have hskip : skipSpace (style.write real v) = style.write real v := by
    simpa using skipSpace_begins htakes.begins []
  have hreads := htakes.reads [] delimited_nil
  rw [List.append_nil] at hreads
  rw [readDocument, readValue, hskip, hreads]
  rfl

end Style

end Values

end ApiFirewall.Wire.JsonText
