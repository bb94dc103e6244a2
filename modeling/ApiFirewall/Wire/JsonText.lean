import ApiFirewall.Wire.Json

/-!
# Reading JSON texts

A reader takes a value off the front of a text. Two dialects share everything but three constants for
the special doubles, which strict JSON does not have. Integers are read exactly; what double any other
number means is a parameter. A text is a sequence of code points. The escapes of a pair of surrogates
stand for one scalar value, and any other surrogate, escaped or not, stands for itself.

Nested values are read with a bound on the nesting. The length of the text is always enough, and what
one dialect reads a more permissive one reads in the same way; both follow from one comparison.
-/

namespace ApiFirewall.Wire.JsonText

/-- A value at the front of a text, with the text after it. -/
abbrev Reader (α : Type) := Text → Option (α × Text)

/-- Every value takes at least one character. -/
def Shrinks {α : Type} (f : Reader α) : Prop :=
  ∀ cs a rest, f cs = some (a, rest) → rest.length < cs.length

/-- On texts up to a length, whatever the one reader reads the other one reads in the same way. -/
def AgreesUpTo {α : Type} (n : ℕ) (f g : Reader α) : Prop :=
  ∀ cs, cs.length ≤ n → ∀ r, f cs = some r → g cs = some r

/-- White space between the parts of a text. -/
def isSpace (c : CodePoint) : Bool := c = ' ' || c = '\t' || c = '\n' || c = '\r'

/-- The text from its first part on. -/
def skipSpace (cs : Text) : Text := cs.dropWhile isSpace

/-- The value of a hexadecimal digit. -/
def hexDigit (c : CodePoint) : Option ℕ :=
  if c.isDigit then some (c.code - 48)
  else if 97 ≤ c.code ∧ c.code ≤ 102 then some (c.code - 87)
  else if 65 ≤ c.code ∧ c.code ≤ 70 then some (c.code - 55)
  else none

/-- A code unit of four hexadecimal digits. -/
def codeUnit (a b c d : CodePoint) : Option ℕ := do
  return (((← hexDigit a) * 16 + (← hexDigit b)) * 16 + (← hexDigit c)) * 16 + (← hexDigit d)

/-- The character of an escape without digits. -/
def shortEscape (c : CodePoint) : Option CodePoint :=
  if c = '"' ∨ c = '\\' ∨ c = '/' then some c
  else if c = 'b' then some (Char.ofNat 8)
  else if c = 'f' then some (Char.ofNat 12)
  else if c = 'n' then some '\n'
  else if c = 'r' then some '\r'
  else if c = 't' then some '\t'
  else none

/-- The second half of a pair, if the text goes on with its escape. -/
def lowEscape : Text → Option ℕ
  | '\\' :: 'u' :: a :: b :: c :: d :: _ =>
    (codeUnit a b c d).filter fun low => 0xDC00 ≤ low ∧ low < 0xE000
  | _ => none

/-- The code point that an escape of a code unit stands for, and how many characters after the escape
belong to it: the first half of a pair takes the escape of the second one. -/
def unitEscape (unit : ℕ) (rest : Text) : CodePoint × ℕ :=
  if 0xD800 ≤ unit ∧ unit < 0xDC00 then
    match lowEscape rest with
    | some low => (Char.ofNat (0x10000 + (unit - 0xD800) * 0x400 + (low - 0xDC00)), 6)
    | none => (.ofCode unit, 0)
  else (.ofCode unit, 0)

/-- The code point of a string that begins with the given character, and how many characters after
that one belong to it. -/
def scanChar (c : CodePoint) (rest : Text) : Option (CodePoint × ℕ) :=
  if c = '\\' then
    match rest with
    | 'u' :: a :: b :: c :: d :: rest' =>
      (codeUnit a b c d).map fun unit => ((unitEscape unit rest').1, 5 + (unitEscape unit rest').2)
    | e :: _ => (shortEscape e).map fun char => (char, 1)
    | [] => none
  else if c.code < 32 then none
  else some (c, 0)

/-- The characters up to the closing quotation mark, after as many characters as the last one still
takes. -/
def scanString : ℕ → Reader Text
  | _, [] => none
  | skip + 1, _ :: rest => scanString skip rest
  | 0, c :: rest =>
    if c = '"' then some ([], rest)
    else (scanChar c rest).bind fun r => (scanString r.2 rest).map fun s => (r.1 :: s.1, s.2)

/-- The digits of an integer, which begins with zero only if it is zero. -/
def scanDigits : Reader Text
  | [] => none
  | c :: rest =>
    if c = '0' then some ([c], rest)
    else if c.isDigit then
      some (c :: rest.takeWhile CodePoint.isDigit, rest.dropWhile CodePoint.isDigit)
    else none

/-- The fraction of a number and the text after it, or no fraction. -/
def scanFraction (cs : Text) : Text × Text :=
  match cs with
  | '.' :: rest =>
    if (rest.takeWhile CodePoint.isDigit).isEmpty then ([], cs)
    else ('.' :: rest.takeWhile CodePoint.isDigit, rest.dropWhile CodePoint.isDigit)
  | _ => ([], cs)

/-- The sign at the front of a text, if there is one. -/
def scanSign (signs cs : Text) : Text × Text :=
  match cs with
  | c :: rest => if c ∈ signs then ([c], rest) else ([], cs)
  | [] => ([], [])

/-- The exponent of a number and the text after it, or no exponent. -/
def scanExponent (cs : Text) : Text × Text :=
  match cs with
  | e :: rest =>
    let (sign, digits) := scanSign ['+', '-'] rest
    if (e = 'e' ∨ e = 'E') ∧ (digits.takeWhile CodePoint.isDigit).isEmpty = false then
      (e :: sign ++ digits.takeWhile CodePoint.isDigit, digits.dropWhile CodePoint.isDigit)
    else ([], cs)
  | [] => ([], [])

/-- The number that digits denote. -/
def digitsValue (digits : Text) : ℕ := digits.foldl (fun n c => n * 10 + (c.code - 48)) 0

section Values

variable {K : Type}

/-- A number: an integer, or a double if there is a fraction or an exponent. -/
def scanNumber (decimal : Text → Double K) : Reader (Json K) := fun cs =>
  let (sign, cs₁) := scanSign ['-'] cs
  (scanDigits cs₁).map fun (digits, cs₂) =>
    let (fraction, cs₃) := scanFraction cs₂
    let (exponent, cs₄) := scanExponent cs₃
    if fraction.isEmpty && exponent.isEmpty then
      (.int (if sign.isEmpty then digitsValue digits else -digitsValue digits), cs₄)
    else (.real (decimal (sign ++ digits ++ fraction ++ exponent)), cs₄)

/-- The three literals. -/
def scanLiteral : Reader (Json K)
  | 'n' :: 'u' :: 'l' :: 'l' :: rest => some (.null, rest)
  | 't' :: 'r' :: 'u' :: 'e' :: rest => some (.bool true, rest)
  | 'f' :: 'a' :: 'l' :: 's' :: 'e' :: rest => some (.bool false, rest)
  | _ => none

/-- The constants for the special doubles, which strict JSON does not have. -/
def scanConstant : Reader (Json K)
  | 'N' :: 'a' :: 'N' :: rest => some (.real .nan, rest)
  | 'I' :: 'n' :: 'f' :: 'i' :: 'n' :: 'i' :: 't' :: 'y' :: rest => some (.real .posInf, rest)
  | '-' :: 'I' :: 'n' :: 'f' :: 'i' :: 'n' :: 'i' :: 't' :: 'y' :: rest => some (.real .negInf, rest)
  | _ => none

/-- A dialect: whether the constants are read, and the doubles that decimals denote. -/
structure Dialect (K : Type) where
  constants : Bool
  decimal : Text → Double K

/-- A value that is neither a string nor nested. -/
def scanScalar (d : Dialect K) : Reader (Json K) := fun cs =>
  ((scanLiteral cs).or (scanNumber d.decimal cs)).or (if d.constants then scanConstant cs else none)

section Lists

variable {α : Type}

/-- Items with commas between them, up to the closing bracket. -/
def scanItems (item : Reader α) (close : CodePoint) : ℕ → Reader (List α)
  | 0, _ => none
  | fuel + 1, cs => (item cs).bind fun r =>
    match skipSpace r.2 with
    | [] => none
    | c :: rest =>
      if c = close then some ([r.1], rest)
      else if c = ',' then
        (scanItems item close fuel (skipSpace rest)).map fun s => (r.1 :: s.1, s.2)
      else none

/-- The items after an opening bracket, if there are any. -/
def scanList (item : Reader α) (close : CodePoint) (fuel : ℕ) : Reader (List α) := fun cs =>
  match skipSpace cs with
  | [] => none
  | c :: rest => if c = close then some ([], rest) else scanItems item close fuel (c :: rest)

/-- A name and, after a colon, a value. -/
def scanField (item : Reader α) : Reader (Text × α)
  | [] => none
  | c :: rest =>
    if c = '"' then
      (scanString 0 rest).bind fun name =>
        match skipSpace name.2 with
        | [] => none
        | c' :: rest' =>
          if c' = ':' then
            (item (skipSpace rest')).map fun r => ((name.1, r.1), r.2)
          else none
    else none

end Lists

/-- A value, with a bound on the nesting. -/
def scanValue (d : Dialect K) : ℕ → Reader (Json K)
  | 0, _ => none
  | _ + 1, [] => none
  | fuel + 1, c :: rest =>
    if c = '{' then
      (scanList (scanField (scanValue d fuel)) '}' fuel rest).map fun r => (.obj r.1, r.2)
    else if c = '[' then
      (scanList (scanValue d fuel) ']' fuel rest).map fun r => (.arr r.1, r.2)
    else if c = '"' then (scanString 0 rest).map fun r => (.str r.1, r.2)
    else scanScalar d (c :: rest)

/-- The value at the front of a text, and the text after it. -/
def readValue (d : Dialect K) : Reader (Json K) := fun cs =>
  scanValue d (skipSpace cs).length (skipSpace cs)

/-- The value that a whole text denotes. -/
def readDocument (d : Dialect K) (cs : Text) : Option (Json K) :=
  (readValue d cs).bind fun r => if (skipSpace r.2).isEmpty then some r.1 else none

/-- The members of the object at the front of a text. -/
def readObject (d : Dialect K) (cs : Text) : Option (List (Text × Json K)) :=
  (readValue d cs).bind fun r =>
    match r.1 with
    | .obj members => some members
    | _ => none

/-- Skipping spaces leaves no more than there was. -/
theorem length_skipSpace_le (cs : Text) : (skipSpace cs).length ≤ cs.length :=
  (List.dropWhile_sublist _).length_le

/-- A string takes at least its closing quotation mark. -/
theorem length_lt_of_scanString {cs : Text} : ∀ {skip : ℕ} {s rest : Text},
    scanString skip cs = some (s, rest) → rest.length < cs.length := by
  induction cs with
  | nil =>
    intro skip s rest h
    cases skip <;> simp [scanString] at h
  | cons c cs ih =>
    intro skip s rest h
    cases skip with
    | succ skip => exact (ih h).trans (Nat.lt_succ_self _)
    | zero =>
      simp only [scanString] at h
      split at h
      · obtain ⟨-, rfl⟩ := Prod.mk.inj (Option.some.inj h)
        exact Nat.lt_succ_self _
      · obtain ⟨r, -, h⟩ := Option.bind_eq_some_iff.mp h
        obtain ⟨t, ht, heq⟩ := Option.map_eq_some_iff.mp h
        obtain ⟨-, rfl⟩ := Prod.mk.inj heq
        exact (ih ht).trans (Nat.lt_succ_self _)

/-- A sign takes a character or none. -/
theorem length_scanSign_le (signs cs : Text) : (scanSign signs cs).2.length ≤ cs.length := by
  unfold scanSign
  split
  · split
    · exact Nat.le_succ _
    · exact le_rfl
  · exact le_rfl

/-- Digits take at least one character. -/
theorem shrinks_scanDigits : Shrinks scanDigits := by
  intro cs digits rest h
  cases cs with
  | nil => simp [scanDigits] at h
  | cons c cs =>
    simp only [scanDigits] at h
    split at h
    · obtain ⟨-, rfl⟩ := Prod.mk.inj (Option.some.inj h)
      exact Nat.lt_succ_self _
    · split at h
      · obtain ⟨-, rfl⟩ := Prod.mk.inj (Option.some.inj h)
        exact Nat.lt_succ_of_le (List.dropWhile_sublist _).length_le
      · simp at h

/-- A fraction leaves no more than there was. -/
theorem length_scanFraction_le (cs : Text) : (scanFraction cs).2.length ≤ cs.length := by
  unfold scanFraction
  split
  · split
    · exact le_rfl
    · exact Nat.le_succ_of_le (List.dropWhile_sublist _).length_le
  · exact le_rfl

/-- An exponent leaves no more than there was. -/
theorem length_scanExponent_le (cs : Text) : (scanExponent cs).2.length ≤ cs.length := by
  unfold scanExponent
  split
  · rename_i e rest
    dsimp only
    split
    · exact Nat.le_succ_of_le
        ((List.dropWhile_sublist _).length_le.trans (length_scanSign_le ['+', '-'] rest))
    · exact le_rfl
  · exact le_rfl

variable {d d' : Dialect K}

/-- A number takes at least one digit. -/
theorem shrinks_scanNumber (decimal : Text → Double K) : Shrinks (scanNumber decimal) := by
  intro cs a rest h
  obtain ⟨⟨digits, cs₂⟩, hdigits, heq⟩ := Option.map_eq_some_iff.mp h
  have hlt : cs₂.length < (scanSign ['-'] cs).2.length := shrinks_scanDigits _ _ _ hdigits
  have hsign := length_scanSign_le ['-'] cs
  have hrest : rest = (scanExponent (scanFraction cs₂).2).2 := by
    dsimp only at heq
    split at heq <;> exact (Prod.mk.inj heq).2.symm
  have hexponent := length_scanExponent_le (scanFraction cs₂).2
  have hfraction := length_scanFraction_le cs₂
  rw [hrest]
  omega

/-- A literal takes its characters. -/
theorem shrinks_scanLiteral : Shrinks (scanLiteral : Reader (Json K)) := by
  intro cs a rest h
  unfold scanLiteral at h
  split at h
  · obtain ⟨-, rfl⟩ := Prod.mk.inj (Option.some.inj h)
    simp only [List.length_cons]
    omega
  · obtain ⟨-, rfl⟩ := Prod.mk.inj (Option.some.inj h)
    simp only [List.length_cons]
    omega
  · obtain ⟨-, rfl⟩ := Prod.mk.inj (Option.some.inj h)
    simp only [List.length_cons]
    omega
  · simp at h

/-- A constant takes its characters. -/
theorem shrinks_scanConstant : Shrinks (scanConstant : Reader (Json K)) := by
  intro cs a rest h
  unfold scanConstant at h
  split at h
  · obtain ⟨-, rfl⟩ := Prod.mk.inj (Option.some.inj h)
    simp only [List.length_cons]
    omega
  · obtain ⟨-, rfl⟩ := Prod.mk.inj (Option.some.inj h)
    simp only [List.length_cons]
    omega
  · obtain ⟨-, rfl⟩ := Prod.mk.inj (Option.some.inj h)
    simp only [List.length_cons]
    omega
  · simp at h

/-- A scalar is a literal, a number or, in a dialect that has them, a constant. -/
theorem scanScalar_eq_some {cs : Text} {r : Json K × Text}
    (h : scanScalar d cs = some r) : scanLiteral cs = some r ∨ scanNumber d.decimal cs = some r ∨
      (d.constants = true ∧ scanConstant cs = some r) := by
  unfold scanScalar at h
  rcases Option.or_eq_some_iff.mp h with h | ⟨-, h⟩
  · rcases Option.or_eq_some_iff.mp h with h | ⟨-, h⟩
    · exact .inl h
    · exact .inr (.inl h)
  · split at h
    · rename_i hconstants
      exact .inr (.inr ⟨hconstants, h⟩)
    · simp at h

/-- A scalar takes at least one character. -/
theorem shrinks_scanScalar (d : Dialect K) : Shrinks (scanScalar d) := by
  intro cs a rest h
  rcases scanScalar_eq_some h with h | h | ⟨-, h⟩
  · exact shrinks_scanLiteral cs a rest h
  · exact shrinks_scanNumber d.decimal cs a rest h
  · exact shrinks_scanConstant cs a rest h

section Lists

variable {α : Type} {f g : Reader α} {close : CodePoint}

/-- Items take at least the closing bracket. -/
theorem shrinks_scanItems (hf : Shrinks f) : ∀ fuel, Shrinks (scanItems f close fuel) := by
  intro fuel
  induction fuel with
  | zero =>
    intro cs as rest h
    simp [scanItems] at h
  | succ fuel ih =>
    intro cs as rest h
    obtain ⟨⟨a, cs₁⟩, hitem, h⟩ := Option.bind_eq_some_iff.mp h
    have hlt := hf cs a cs₁ hitem
    have hle := length_skipSpace_le cs₁
    dsimp only at h
    split at h
    · simp at h
    · rename_i c cs₂ hskip
      rw [hskip, List.length_cons] at hle
      split at h
      · obtain ⟨-, rfl⟩ := Prod.mk.inj (Option.some.inj h)
        omega
      · split at h
        · obtain ⟨⟨bs, cs₃⟩, hitems, heq⟩ := Option.map_eq_some_iff.mp h
          obtain ⟨-, rfl⟩ := Prod.mk.inj heq
          have hrest := ih _ _ _ hitems
          have := length_skipSpace_le cs₂
          dsimp only
          omega
        · simp at h

/-- A list takes at least the closing bracket. -/
theorem shrinks_scanList (hf : Shrinks f) (fuel : ℕ) : Shrinks (scanList f close fuel) := by
  intro cs as rest h
  have hle := length_skipSpace_le cs
  unfold scanList at h
  split at h
  · simp at h
  · rename_i c cs₁ hskip
    rw [hskip] at hle
    split at h
    · obtain ⟨-, rfl⟩ := Prod.mk.inj (Option.some.inj h)
      exact hle
    · exact (shrinks_scanItems hf fuel _ _ _ h).trans_le hle

/-- A field takes at least its name. -/
theorem shrinks_scanField (hf : Shrinks f) : Shrinks (scanField f) := by
  intro cs a rest h
  cases cs with
  | nil => simp [scanField] at h
  | cons c cs =>
    simp only [scanField] at h
    split at h
    · obtain ⟨⟨name, cs₁⟩, hname, h⟩ := Option.bind_eq_some_iff.mp h
      have hlt := length_lt_of_scanString hname
      have hle := length_skipSpace_le cs₁
      dsimp only at h
      split at h
      · simp at h
      · rename_i c' cs₂ hskip
        rw [hskip, List.length_cons] at hle
        split at h
        · obtain ⟨⟨v, cs₃⟩, hitem, heq⟩ := Option.map_eq_some_iff.mp h
          obtain ⟨-, rfl⟩ := Prod.mk.inj heq
          have hrest := hf _ _ _ hitem
          have := length_skipSpace_le cs₂
          simp only [List.length_cons]
          omega
        · simp at h
    · simp at h

end Lists

/-- A value takes at least one character. -/
theorem shrinks_scanValue (d : Dialect K) : ∀ fuel, Shrinks (scanValue d fuel) := by
  intro fuel
  induction fuel with
  | zero =>
    intro cs a rest h
    simp [scanValue] at h
  | succ fuel ih =>
    intro cs a rest h
    cases cs with
    | nil => simp [scanValue] at h
    | cons c cs =>
      simp only [scanValue] at h
      split at h
      · obtain ⟨⟨members, cs₁⟩, hlist, heq⟩ := Option.map_eq_some_iff.mp h
        obtain ⟨-, rfl⟩ := Prod.mk.inj heq
        exact (shrinks_scanList (shrinks_scanField ih) fuel _ _ _ hlist).trans (Nat.lt_succ_self _)
      · split at h
        · obtain ⟨⟨items, cs₁⟩, hlist, heq⟩ := Option.map_eq_some_iff.mp h
          obtain ⟨-, rfl⟩ := Prod.mk.inj heq
          exact (shrinks_scanList ih fuel _ _ _ hlist).trans (Nat.lt_succ_self _)
        · split at h
          · obtain ⟨⟨s, cs₁⟩, hstring, heq⟩ := Option.map_eq_some_iff.mp h
            obtain ⟨-, rfl⟩ := Prod.mk.inj heq
            exact (length_lt_of_scanString hstring).trans (Nat.lt_succ_self _)
          · exact shrinks_scanScalar d _ _ _ h

section Lists

variable {α : Type} {f g : Reader α} {close : CodePoint} {n : ℕ}

/-- Readers that agree on the items agree on their sequences, if there are as many steps as there are
characters. -/
theorem scanItems_agrees (hf : Shrinks f) (h : AgreesUpTo n f g) {fuel : ℕ} {cs : Text}
    {r : List α × Text} (hn : cs.length ≤ n) (hitems : scanItems f close fuel cs = some r)
    {fuel' : ℕ} (hfuel : cs.length ≤ fuel') : scanItems g close fuel' cs = some r := by
  induction fuel generalizing cs r fuel' with
  | zero => simp [scanItems] at hitems
  | succ fuel ih =>
    obtain ⟨⟨a, cs₁⟩, hitem, hafter⟩ := Option.bind_eq_some_iff.mp hitems
    have hlt := hf cs a cs₁ hitem
    cases fuel' with
    | zero => omega
    | succ fuel' =>
      rw [scanItems, h cs hn _ hitem, Option.bind_some]
      have hle := length_skipSpace_le cs₁
      cases hskip : skipSpace cs₁ with
      | nil => simp [hskip] at hafter
      | cons c cs₂ =>
        simp only [hskip] at hafter ⊢
        rw [hskip, List.length_cons] at hle
        by_cases hclose : c = close
        · rw [if_pos hclose] at hafter ⊢
          exact hafter
        · rw [if_neg hclose] at hafter ⊢
          by_cases hcomma : c = ','
          · rw [if_pos hcomma] at hafter ⊢
            obtain ⟨s, hrest, rfl⟩ := Option.map_eq_some_iff.mp hafter
            have := length_skipSpace_le cs₂
            rw [ih (by omega) hrest (by omega), Option.map_some]
          · rw [if_neg hcomma] at hafter
            cases hafter

/-- Readers that agree on the items agree on their lists. -/
theorem scanList_agrees (hf : Shrinks f) (h : AgreesUpTo n f g) {fuel : ℕ} {cs : Text}
    {r : List α × Text} (hn : cs.length ≤ n) (hlist : scanList f close fuel cs = some r)
    {fuel' : ℕ} (hfuel : cs.length ≤ fuel') : scanList g close fuel' cs = some r := by
  have hle := length_skipSpace_le cs
  unfold scanList at hlist ⊢
  cases hskip : skipSpace cs with
  | nil => simp [hskip] at hlist
  | cons c cs₁ =>
    simp only [hskip] at hlist ⊢
    rw [hskip] at hle
    by_cases hclose : c = close
    · rw [if_pos hclose] at hlist ⊢
      exact hlist
    · rw [if_neg hclose] at hlist ⊢
      exact scanItems_agrees hf h (hle.trans hn) hlist (hle.trans hfuel)

/-- Readers that agree on values agree on fields. -/
theorem scanField_agrees (h : AgreesUpTo n f g) : AgreesUpTo n (scanField f) (scanField g) := by
  intro cs hn r hfield
  cases cs with
  | nil => simp [scanField] at hfield
  | cons c cs =>
    simp only [scanField] at hfield ⊢
    by_cases hquote : c = '"'
    · rw [if_pos hquote] at hfield ⊢
      obtain ⟨⟨name, cs₁⟩, hname, hafter⟩ := Option.bind_eq_some_iff.mp hfield
      have hlt := length_lt_of_scanString hname
      have hle := length_skipSpace_le cs₁
      rw [hname, Option.bind_some]
      cases hskip : skipSpace cs₁ with
      | nil => simp [hskip] at hafter
      | cons c' cs₂ =>
        simp only [hskip] at hafter ⊢
        rw [hskip, List.length_cons] at hle
        rw [List.length_cons] at hn
        by_cases hcolon : c' = ':'
        · rw [if_pos hcolon] at hafter ⊢
          obtain ⟨s, hitem, rfl⟩ := Option.map_eq_some_iff.mp hafter
          have := length_skipSpace_le cs₂
          rw [h _ (by omega) s hitem, Option.map_some]
        · rw [if_neg hcolon] at hafter
          cases hafter
    · rw [if_neg hquote] at hfield
      cases hfield

end Lists

/-- What a dialect reads with any bound, a dialect with at least its scalars reads in the same way with
any bound that is not less than the length of the text. -/
theorem scanValue_agrees (h : ∀ cs r, scanScalar d cs = some r → scanScalar d' cs = some r)
    {fuel : ℕ} {cs : Text} {r : Json K × Text} (hvalue : scanValue d fuel cs = some r)
    {fuel' : ℕ} (hfuel : cs.length ≤ fuel') : scanValue d' fuel' cs = some r := by
  induction fuel generalizing cs r fuel' with
  | zero => simp [scanValue] at hvalue
  | succ fuel ih =>
    cases cs with
    | nil => simp [scanValue] at hvalue
    | cons c cs =>
      cases fuel' with
      | zero => simp at hfuel
      | succ fuel' =>
        have hn : cs.length ≤ fuel' := Nat.le_of_succ_le_succ hfuel
        have hagrees : AgreesUpTo cs.length (scanValue d fuel) (scanValue d' fuel') :=
          fun cs' hlength r' hr => ih hr (hlength.trans hn)
        have hshrinks := shrinks_scanValue d fuel
        simp only [scanValue] at hvalue ⊢
        by_cases hobject : c = '\x7b'
        · rw [if_pos hobject] at hvalue ⊢
          obtain ⟨s, hlist, rfl⟩ := Option.map_eq_some_iff.mp hvalue
          rw [scanList_agrees (shrinks_scanField hshrinks) (scanField_agrees hagrees) le_rfl hlist hn,
            Option.map_some]
        · rw [if_neg hobject] at hvalue ⊢
          by_cases harray : c = '['
          · rw [if_pos harray] at hvalue ⊢
            obtain ⟨s, hlist, rfl⟩ := Option.map_eq_some_iff.mp hvalue
            rw [scanList_agrees hshrinks hagrees le_rfl hlist hn, Option.map_some]
          · rw [if_neg harray] at hvalue ⊢
            by_cases hstring : c = '"'
            · rw [if_pos hstring] at hvalue ⊢
              exact hvalue
            · rw [if_neg hstring] at hvalue ⊢
              exact h _ _ hvalue

/-- The bound is never too small: a value that is read with any bound at all is read. -/
theorem readValue_of_scanValue {fuel : ℕ} {cs : Text} {r : Json K × Text}
    (h : scanValue d fuel (skipSpace cs) = some r) : readValue d cs = some r :=
  scanValue_agrees (fun _ _ hscalar => hscalar) h le_rfl

/-- What is read without the constants is read in the same way with them. -/
theorem readValue_with_constants {decimal : Text → Double K} {cs : Text}
    {r : Json K × Text} (h : readValue ⟨false, decimal⟩ cs = some r) :
    readValue ⟨true, decimal⟩ cs = some r := by
  refine scanValue_agrees (fun cs r hscalar => ?_) h le_rfl
  have hplain : (scanLiteral cs).or (scanNumber decimal cs) = some r := by
    simpa [scanScalar] using hscalar
  rw [scanScalar, hplain, Option.some_or]

/-- Only an opening brace begins an object. -/
theorem scanValue_obj {fuel : ℕ} {c : CodePoint} {cs rest : Text}
    {members : List (Text × Json K)} (h : scanValue d fuel (c :: cs) = some (.obj members, rest)) :
    c = '\x7b' := by
  cases fuel with
  | zero => simp [scanValue] at h
  | succ fuel =>
    by_contra hbrace
    simp only [scanValue, if_neg hbrace] at h
    split at h
    · obtain ⟨s, -, heq⟩ := Option.map_eq_some_iff.mp h
      simp at heq
    · split at h
      · obtain ⟨s, -, heq⟩ := Option.map_eq_some_iff.mp h
        simp at heq
      · rcases scanScalar_eq_some h with hliteral | hnumber | ⟨-, hconstant⟩
        · unfold scanLiteral at hliteral
          split at hliteral <;> simp at hliteral
        · obtain ⟨s, -, heq⟩ := Option.map_eq_some_iff.mp hnumber
          dsimp only at heq
          split at heq <;> simp at heq
        · unfold scanConstant at hconstant
          split at hconstant <;> simp at hconstant

/-- A text that is an object begins with spaces and a brace. -/
theorem skipSpace_of_readObject {cs : Text} {members : List (Text × Json K)}
    (h : readObject d cs = some members) : ∃ rest, skipSpace cs = .scalar '\x7b' :: rest := by
  obtain ⟨⟨v, after⟩, hvalue, hmembers⟩ := Option.bind_eq_some_iff.mp h
  cases v with
  | obj members' =>
    cases hskip : skipSpace cs with
    | nil => simp [readValue, hskip, scanValue] at hvalue
    | cons c rest =>
      rw [readValue, hskip] at hvalue
      exact ⟨rest, by rw [scanValue_obj hvalue]⟩
  | _ => simp at hmembers

/-- A text whose first character is neither space nor a brace is not an object. -/
theorem readObject_of_first {c : CodePoint} {cs : Text} (hspace : isSpace c = false)
    (hbrace : c ≠ '\x7b') : readObject d (c :: cs) = none := by
  cases hread : readObject d (c :: cs) with
  | none => rfl
  | some members =>
    obtain ⟨rest, hskip⟩ := skipSpace_of_readObject hread
    rw [skipSpace, List.dropWhile_cons_of_neg (by simp [hspace])] at hskip
    exact absurd (List.cons.inj hskip).1 hbrace

/-- A text whose second character is neither space nor a brace nor a quotation mark is not an object. -/
theorem readObject_of_second {c b : CodePoint} {cs : Text} (hspace : isSpace b = false)
    (hopen : b ≠ '\x7b') (hclose : b ≠ '\x7d') (hquote : b ≠ '"') :
    readObject d (c :: b :: cs) = none := by
  cases hread : readObject d (c :: b :: cs) with
  | none => rfl
  | some members =>
    obtain ⟨rest, hskip⟩ := skipSpace_of_readObject hread
    have hb : skipSpace (b :: cs) = b :: cs := List.dropWhile_cons_of_neg (by simp [hspace])
    by_cases hc : isSpace c = true
    · rw [skipSpace, List.dropWhile_cons_of_pos hc] at hskip
      exact absurd (List.cons.inj (hb.symm.trans hskip)).1 hopen
    · have hc' : skipSpace (c :: b :: cs) = c :: b :: cs := List.dropWhile_cons_of_neg hc
      obtain rfl : c = '\x7b' := (List.cons.inj (hc'.symm.trans hskip)).1
      simp [readObject, readValue, hc', scanValue, scanList, hb, hclose, scanItems, scanField,
        hquote] at hread

end Values

end ApiFirewall.Wire.JsonText
