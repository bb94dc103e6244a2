import ApiFirewall.Wire.JsonWriter
import Mathlib.Data.List.TakeWhile

/-!
# Texts that are cut short

What is read off the front of a text is read off every longer text that begins with it, if the value
closes itself or is followed by something that ends a number. So the text of an object has no proper
beginning that is read as a document: the longer text would be read as that document with something
after it.
-/

namespace ApiFirewall.Wire.JsonText

/-- What is read off the front of a text is read off every longer text. -/
def Stable {α : Type} (f : Reader α) : Prop :=
  ∀ cs a rest more, f cs = some (a, rest) → f (cs ++ more) = some (a, rest ++ more)

/-- The text goes on with something that ends a number. -/
def Ended (rest : Text) : Prop := rest ≠ [] ∧ Delimited rest

/-- What is read off the front of a text, up to something that ends a number, is read off every
longer text. -/
def StableEnded {α : Type} (f : Reader α) : Prop :=
  ∀ cs a rest more, f cs = some (a, rest) → Ended rest → f (cs ++ more) = some (a, rest ++ more)

/-- The first part of a text is the first part of every longer text. -/
theorem skipSpace_append {cs rest : Text} {c : CodePoint} (h : skipSpace cs = c :: rest)
    (more : Text) : skipSpace (cs ++ more) = c :: (rest ++ more) := by
  unfold skipSpace at h ⊢
  rw [List.dropWhile_append, h, List.isEmpty_cons, if_neg Bool.false_ne_true, List.cons_append]

/-- Space ends a number, and so does what comes after an item. -/
theorem ended_of_skipSpace {cs rest : Text} {c : CodePoint} (h : skipSpace cs = c :: rest)
    (hc : c = ']' ∨ c = '}' ∨ c = ',') : Ended cs := by
  cases cs with
  | nil => cases h
  | cons b cs =>
    refine ⟨List.cons_ne_nil b cs, delimited_cons cs ?_⟩
    by_cases hspace : isSpace b = true
    · simp only [isSpace, Bool.or_eq_true, decide_eq_true_eq] at hspace
      rcases hspace with ((rfl | rfl) | rfl) | rfl <;> decide
    · unfold skipSpace at h
      rw [List.dropWhile_cons_of_neg hspace] at h
      obtain ⟨rfl, -⟩ := List.cons.inj h
      rcases hc with rfl | rfl | rfl <;> decide

/-- The escape of a second half is there in every longer text. -/
theorem lowEscape_of_some {cs : Text} {low : ℕ} (h : lowEscape cs = some low) (more : Text) :
    lowEscape (cs ++ more) = some low := by
  unfold lowEscape at h
  split at h
  · exact h
  · cases h

/-- No longer text begins with the escape of a second half if a string goes on without one. -/
theorem lowEscape_of_none {cs : Text} {r : Text × Text} (h : lowEscape cs = none)
    (hclosed : scanString 0 cs = some r) (more : Text) : lowEscape (cs ++ more) = none := by
  cases cs with
  | nil => cases hclosed
  | cons c cs =>
    by_cases hbackslash : c = '\\'
    · subst hbackslash
      rw [scanString, if_neg (by decide)] at hclosed
      obtain ⟨t, hchar, -⟩ := Option.bind_eq_some_iff.mp hclosed
      unfold scanChar at hchar
      rw [if_pos rfl] at hchar
      split at hchar
      · exact h
      · rename_i e cs _
        -- a letter that begins an escape by digits has no other meaning
        have hletter : e ≠ 'u' := by
          rintro rfl
          cases hchar
        rw [List.cons_append, List.cons_append]
        unfold lowEscape
        split
        · rename_i heq
          exact absurd (List.cons.inj (List.cons.inj heq).2).1 hletter
        · rfl
      · cases hchar
    · rw [List.cons_append, lowEscape_cons hbackslash]

/-- The escape at the front of a string is the one at the front of every longer text. -/
theorem scanChar_append {c : CodePoint} {cs : Text} {r : CodePoint × ℕ} {t : Text × Text}
    (h : scanChar c cs = some r) (hclosed : scanString r.2 cs = some t) (more : Text) :
    scanChar c (cs ++ more) = some r := by
  unfold scanChar at h ⊢
  split at h
  · rename_i hbackslash
    rw [if_pos hbackslash]
    split at h
    · rename_i cs
      obtain ⟨unit, hunit, rfl⟩ := Option.map_eq_some_iff.mp h
      have hescape : unitEscape unit (cs ++ more) = unitEscape unit cs := by
        unfold unitEscape at hclosed ⊢
        by_cases hhigh : 0xD800 ≤ unit ∧ unit < 0xDC00
        · rw [if_pos hhigh] at hclosed ⊢
          rw [if_pos hhigh]
          cases hlow : lowEscape cs with
          | some low => rw [lowEscape_of_some hlow]
          | none =>
            rw [hlow] at hclosed
            rw [lowEscape_of_none hlow hclosed]
        · rw [if_neg hhigh, if_neg hhigh]
      simp only [List.cons_append, hunit, Option.map_some, hescape]
    · rename_i e cs _
      -- a letter that begins an escape by digits has no other meaning
      have hletter : e ≠ 'u' := by
        rintro rfl
        cases h
      rw [List.cons_append]
      split
      · rename_i heq
        exact absurd (List.cons.inj heq).1 hletter
      · rename_i heq
        obtain ⟨rfl, -⟩ := List.cons.inj heq
        exact h
      · rename_i heq
        cases heq
    · cases h
  · rename_i hbackslash
    rw [if_neg hbackslash]
    exact h

/-- A string closes itself. -/
theorem stable_scanString (skip : ℕ) : Stable (scanString skip) := by
  intro cs
  induction cs generalizing skip with
  | nil =>
    intro s rest more h
    cases skip <;> simp [scanString] at h
  | cons c cs ih =>
    intro s rest more h
    cases skip with
    | succ skip => exact ih skip s rest more h
    | zero =>
      rw [List.cons_append]
      simp only [scanString] at h ⊢
      split at h
      · rename_i hquote
        obtain ⟨rfl, rfl⟩ := Prod.mk.inj (Option.some.inj h)
        rw [if_pos hquote]
      · rename_i hquote
        obtain ⟨r, hchar, h⟩ := Option.bind_eq_some_iff.mp h
        obtain ⟨t, ht, heq⟩ := Option.map_eq_some_iff.mp h
        obtain ⟨rfl, rfl⟩ := Prod.mk.inj heq
        rw [if_neg hquote, scanChar_append hchar ht, Option.bind_some, ih r.2 _ _ more ht,
          Option.map_some]

/-- The sign of a number is the sign of every longer one. -/
theorem scanSign_append {signs cs : Text} (h : cs ≠ []) (more : Text) :
    scanSign signs (cs ++ more) = ((scanSign signs cs).1, (scanSign signs cs).2 ++ more) := by
  cases cs with
  | nil => exact absurd rfl h
  | cons c cs =>
    rw [List.cons_append]
    simp only [scanSign]
    split <;> rfl

/-- Digits that something else follows are not continued. -/
theorem takeWhile_digits_append {cs : Text} (h : cs.dropWhile CodePoint.isDigit ≠ [])
    (more : Text) :
    (cs ++ more).takeWhile CodePoint.isDigit = cs.takeWhile CodePoint.isDigit ∧
      (cs ++ more).dropWhile CodePoint.isDigit = cs.dropWhile CodePoint.isDigit ++ more := by
  have hstop : (cs.takeWhile CodePoint.isDigit).length ≠ cs.length := by
    intro hall
    have hsum := congrArg List.length (@List.takeWhile_append_dropWhile _ CodePoint.isDigit cs)
    rw [List.length_append, hall] at hsum
    exact h (List.length_eq_zero_iff.mp (by omega))
  have hrest : (cs.dropWhile CodePoint.isDigit).isEmpty = false := by simpa using h
  rw [List.takeWhile_append, if_neg hstop, List.dropWhile_append, hrest,
    if_neg Bool.false_ne_true]
  exact ⟨rfl, rfl⟩

/-- The digits of an integer that something else follows are not continued. -/
theorem scanDigits_append {cs digits rest : Text} (h : scanDigits cs = some (digits, rest))
    (hrest : rest ≠ []) (more : Text) :
    scanDigits (cs ++ more) = some (digits, rest ++ more) := by
  cases cs with
  | nil => cases h
  | cons c cs =>
    rw [List.cons_append]
    simp only [scanDigits] at h ⊢
    split at h
    · rename_i hzero
      obtain ⟨rfl, rfl⟩ := Prod.mk.inj (Option.some.inj h)
      rw [if_pos hzero]
    · rename_i hzero
      rw [if_neg hzero]
      split at h
      · rename_i hdigit
        obtain ⟨rfl, rfl⟩ := Prod.mk.inj (Option.some.inj h)
        obtain ⟨htake, hdrop⟩ := takeWhile_digits_append hrest more
        rw [if_pos hdigit, htake, hdrop]
      · cases h

/-- A fraction, or its absence, is settled by what ends the number after it. -/
theorem scanFraction_longer {cs : Text} (hrest : (scanFraction cs).2 ≠ [])
    (hpoint : (scanFraction cs).2.head? ≠ some (.scalar '.')) (more : Text) :
    scanFraction (cs ++ more) = ((scanFraction cs).1, (scanFraction cs).2 ++ more) := by
  cases cs with
  | nil => exact absurd rfl hrest
  | cons c cs =>
    rw [List.cons_append]
    by_cases hc : c = '.'
    · subst hc
      simp only [scanFraction] at hrest hpoint ⊢
      split at hrest
      · rename_i hempty
        rw [if_pos hempty] at hpoint
        exact absurd rfl hpoint
      · rename_i hempty
        obtain ⟨htake, hdrop⟩ := takeWhile_digits_append hrest more
        rw [htake, hdrop, if_neg hempty, if_neg hempty]
    · simp [scanFraction, hc]

/-- An exponent, or its absence, is settled by what ends the number after it. -/
theorem scanExponent_longer {cs : Text} (hended : Ended (scanExponent cs).2)
    (more : Text) :
    scanExponent (cs ++ more) = ((scanExponent cs).1, (scanExponent cs).2 ++ more) := by
  obtain ⟨hrest, hdelimited⟩ := hended
  cases cs with
  | nil => exact absurd rfl hrest
  | cons e cs =>
    rw [List.cons_append]
    simp only [scanExponent] at hrest hdelimited ⊢
    by_cases he : e = 'e' ∨ e = 'E'
    · split at hrest
      · rename_i hexponent
        have hne : cs ≠ [] := by
          rintro rfl
          exact hrest rfl
        obtain ⟨htake, hdrop⟩ := takeWhile_digits_append hrest more
        rw [scanSign_append hne]
        dsimp only
        rw [htake, hdrop, if_pos hexponent, if_pos hexponent]
      · rename_i hexponent
        rw [if_neg hexponent] at hdelimited
        obtain ⟨-, -, hsmall, hcapital⟩ := hdelimited e rfl
        exact absurd he (not_or.mpr ⟨hsmall, hcapital⟩)
    · rw [if_neg fun h => he h.1, if_neg fun h => he h.1, List.cons_append]

section Values

variable {K : Type}

/-- The parts of a number are read one after the other. -/
theorem scanNumber_eq (decimal : Text → Double K) (cs : Text) :
    (scanNumber decimal cs : Option (Json K × Text)) =
      (scanDigits (scanSign ['-'] cs).2).map fun r =>
        if (scanFraction r.2).1.isEmpty && (scanExponent (scanFraction r.2).2).1.isEmpty then
          (.int (if (scanSign ['-'] cs).1.isEmpty then (digitsValue r.1 : ℤ)
            else -digitsValue r.1), (scanExponent (scanFraction r.2).2).2)
        else
          (.real (decimal ((scanSign ['-'] cs).1 ++ r.1 ++ (scanFraction r.2).1 ++
            (scanExponent (scanFraction r.2).2).1)), (scanExponent (scanFraction r.2).2).2) := rfl

/-- A number that something else follows is not continued. -/
theorem stable_scanNumber (decimal : Text → Double K) :
    StableEnded (scanNumber decimal : Reader (Json K)) := by
  intro cs v rest more h hended
  rw [scanNumber_eq] at h
  obtain ⟨⟨digits, cs₂⟩, hdigits, heq⟩ := Option.map_eq_some_iff.mp h
  dsimp only at heq
  have hrest : (scanExponent (scanFraction cs₂).2).2 = rest := by
    split at heq <;> exact (Prod.mk.inj heq).2
  have hexponent : Ended (scanExponent (scanFraction cs₂).2).2 := hrest ▸ hended
  -- what the parts leave is not empty, since what the last one leaves is not
  have hfraction : (scanFraction cs₂).2 ≠ [] := by
    intro hnil
    rw [hnil] at hexponent
    exact hexponent.1 rfl
  have hpoint : (scanFraction cs₂).2.head? ≠ some (.scalar '.') := by
    intro hhead
    cases hcs : (scanFraction cs₂).2 with
    | nil => exact hfraction hcs
    | cons c cs₃ =>
      rw [hcs] at hhead hexponent
      obtain rfl := Option.some.inj hhead
      exact (hexponent.2 '.' rfl).2.1 rfl
  have hleft : cs₂ ≠ [] := by
    rintro rfl
    exact hfraction rfl
  have hne : cs ≠ [] := by
    rintro rfl
    cases hdigits
  rw [scanNumber_eq, scanSign_append hne]
  dsimp only
  rw [scanDigits_append hdigits hleft, Option.map_some]
  dsimp only
  rw [scanFraction_longer hfraction hpoint]
  dsimp only
  rw [scanExponent_longer hexponent]
  dsimp only
  split at heq
  · rename_i hint
    obtain ⟨rfl, rfl⟩ := Prod.mk.inj heq
    rw [if_pos hint]
  · rename_i hint
    obtain ⟨rfl, rfl⟩ := Prod.mk.inj heq
    rw [if_neg hint]

/-- A literal closes itself. -/
theorem stable_scanLiteral : Stable (scanLiteral : Reader (Json K)) := by
  intro cs v rest more h
  unfold scanLiteral at h
  split at h
  · obtain ⟨rfl, rfl⟩ := Prod.mk.inj (Option.some.inj h)
    rfl
  · obtain ⟨rfl, rfl⟩ := Prod.mk.inj (Option.some.inj h)
    rfl
  · obtain ⟨rfl, rfl⟩ := Prod.mk.inj (Option.some.inj h)
    rfl
  · cases h

/-- A constant closes itself, and no longer text begins with a literal or a number instead. -/
theorem scanConstant_append {decimal : Text → Double K} {cs rest : Text} {v : Json K}
    (h : scanConstant cs = some (v, rest)) (more : Text) :
    (scanLiteral (cs ++ more) : Option (Json K × Text)) = none ∧
      scanNumber decimal (cs ++ more) = none ∧
      scanConstant (cs ++ more) = some (v, rest ++ more) := by
  unfold scanConstant at h
  split at h
  · obtain ⟨rfl, rfl⟩ := Prod.mk.inj (Option.some.inj h)
    exact ⟨rfl, rfl, rfl⟩
  · obtain ⟨rfl, rfl⟩ := Prod.mk.inj (Option.some.inj h)
    exact ⟨rfl, rfl, rfl⟩
  · obtain ⟨rfl, rfl⟩ := Prod.mk.inj (Option.some.inj h)
    exact ⟨rfl, rfl, rfl⟩
  · cases h

/-- A number begins with a sign or a digit. -/
theorem head_of_scanNumber {decimal : Text → Double K} {cs : Text}
    {r : Json K × Text} (h : scanNumber decimal cs = some r) :
    ∃ c cs', cs = c :: cs' ∧ (c = '-' ∨ c.isDigit = true) := by
  rw [scanNumber_eq] at h
  obtain ⟨⟨digits, cs₂⟩, hdigits, -⟩ := Option.map_eq_some_iff.mp h
  cases cs with
  | nil => cases hdigits
  | cons c cs =>
    refine ⟨c, cs, rfl, ?_⟩
    by_cases hsign : c = '-'
    · exact .inl hsign
    · right
      simp only [scanSign, List.mem_singleton, hsign, if_false, scanDigits] at hdigits
      split at hdigits
      · rename_i hzero
        rw [hzero]
        rfl
      · split at hdigits
        · assumption
        · cases hdigits

variable {d : Dialect K}

/-- A scalar that something else follows is not continued. -/
theorem stable_scanScalar (d : Dialect K) : StableEnded (scanScalar d) := by
  intro cs v rest more h hended
  rcases scanScalar_eq_some h with hliteral | hnumber | ⟨hconstants, hconstant⟩
  · rw [scanScalar, stable_scanLiteral cs v rest more hliteral]
    rfl
  · obtain ⟨c, cs', rfl, hc⟩ := head_of_scanNumber hnumber
    have hread := stable_scanNumber d.decimal (c :: cs') v rest more hnumber hended
    have hliteral : (scanLiteral (c :: cs' ++ more) : Option (Json K × Text)) = none :=
      scanLiteral_number hc (cs' ++ more)
    rw [scanScalar, hliteral, Option.none_or, hread, Option.some_or]
  · obtain ⟨hliteral, hnumber, hread⟩ := @scanConstant_append _ d.decimal _ _ _ hconstant more
    rw [scanScalar, hliteral, hnumber, if_pos hconstants, hread]
    rfl

section Lists

variable {α : Type} {item : Reader α} {close : CodePoint}

/-- Items up to the closing bracket close themselves. -/
theorem stable_scanItems (hf : Shrinks item) (hitem : StableEnded item)
    (hclose : close = ']' ∨ close = '}') (fuel : ℕ) : Stable (scanItems item close fuel) := by
  induction fuel with
  | zero =>
    intro cs as rest more h
    cases h
  | succ fuel ih =>
    intro cs as rest more h
    obtain ⟨⟨a, cs₁⟩, hfirst, h⟩ := Option.bind_eq_some_iff.mp h
    cases hskip : skipSpace cs₁ with
    | nil => simp [hskip] at h
    | cons c cs₂ =>
      simp only [hskip] at h
      have hc : c = ']' ∨ c = '}' ∨ c = ',' := by
        by_cases hend : c = close
        · rw [hend]
          exact hclose.imp_right .inl
        · rw [if_neg hend] at h
          by_cases hcomma : c = ','
          · exact .inr (.inr hcomma)
          · rw [if_neg hcomma] at h
            cases h
      rw [scanItems, hitem cs a cs₁ more hfirst (ended_of_skipSpace hskip hc), Option.bind_some]
      dsimp only
      rw [skipSpace_append hskip more]
      dsimp only
      by_cases hend : c = close
      · rw [if_pos hend] at h ⊢
        obtain ⟨rfl, rfl⟩ := Prod.mk.inj (Option.some.inj h)
        rfl
      · rw [if_neg hend] at h ⊢
        by_cases hcomma : c = ','
        · rw [if_pos hcomma] at h ⊢
          obtain ⟨⟨bs, cs₃⟩, hitems, heq⟩ := Option.map_eq_some_iff.mp h
          obtain ⟨rfl, rfl⟩ := Prod.mk.inj heq
          -- the next item begins in the shorter text
          have hread := ih _ _ _ more hitems
          cases hnext : skipSpace cs₂ with
          | nil =>
            rw [hnext] at hitems
            exact absurd (shrinks_scanItems hf fuel _ _ _ hitems) (Nat.not_lt_zero _)
          | cons c' cs₄ =>
            rw [skipSpace_append hnext more]
            rw [hnext, List.cons_append] at hread
            rw [hread, Option.map_some]
        · rw [if_neg hcomma] at h
          cases h

/-- A list closes itself. -/
theorem stable_scanList (hf : Shrinks item) (hitem : StableEnded item)
    (hclose : close = ']' ∨ close = '}') (fuel : ℕ) : Stable (scanList item close fuel) := by
  intro cs as rest more h
  unfold scanList at h ⊢
  cases hskip : skipSpace cs with
  | nil => simp [hskip] at h
  | cons c cs₁ =>
    rw [skipSpace_append hskip more]
    simp only [hskip] at h ⊢
    by_cases hend : c = close
    · rw [if_pos hend] at h ⊢
      obtain ⟨rfl, rfl⟩ := Prod.mk.inj (Option.some.inj h)
      rfl
    · rw [if_neg hend] at h ⊢
      exact stable_scanItems hf hitem hclose fuel _ as rest more h

/-- A field closes itself if its value does, or is followed by something that ends a number. -/
theorem stable_scanField (hf : Shrinks item) (hitem : StableEnded item) :
    StableEnded (scanField item) := by
  intro cs field rest more h hended
  cases cs with
  | nil => cases h
  | cons c cs =>
    rw [List.cons_append]
    simp only [scanField] at h ⊢
    by_cases hquote : c = '"'
    · rw [if_pos hquote] at h ⊢
      obtain ⟨⟨name, cs₁⟩, hname, h⟩ := Option.bind_eq_some_iff.mp h
      rw [stable_scanString 0 cs name cs₁ more hname, Option.bind_some]
      cases hskip : skipSpace cs₁ with
      | nil => simp [hskip] at h
      | cons c' cs₂ =>
        simp only [hskip] at h
        dsimp only
        rw [skipSpace_append hskip more]
        dsimp only
        by_cases hcolon : c' = ':'
        · rw [if_pos hcolon] at h ⊢
          obtain ⟨⟨v, cs₃⟩, hvalue, heq⟩ := Option.map_eq_some_iff.mp h
          obtain ⟨rfl, rfl⟩ := Prod.mk.inj heq
          have hread := hitem _ _ _ more hvalue hended
          cases hnext : skipSpace cs₂ with
          | nil =>
            rw [hnext] at hvalue
            exact absurd (hf _ _ _ hvalue) (Nat.not_lt_zero _)
          | cons c'' cs₄ =>
            rw [skipSpace_append hnext more]
            rw [hnext, List.cons_append] at hread
            rw [hread, Option.map_some]
        · rw [if_neg hcolon] at h
          cases h
    · rw [if_neg hquote] at h
      cases h

end Lists

/-- A value that something else follows is not continued. -/
theorem stable_scanValue (d : Dialect K) (fuel : ℕ) : StableEnded (scanValue d fuel) := by
  induction fuel with
  | zero =>
    intro cs v rest more h
    cases h
  | succ fuel ih =>
    intro cs v rest more h hended
    have hshrinks := shrinks_scanValue d fuel
    cases cs with
    | nil => cases h
    | cons c cs =>
      rw [List.cons_append]
      simp only [scanValue] at h ⊢
      by_cases hobject : c = '{'
      · rw [if_pos hobject] at h ⊢
        obtain ⟨⟨members, cs₁⟩, hlist, heq⟩ := Option.map_eq_some_iff.mp h
        obtain ⟨rfl, rfl⟩ := Prod.mk.inj heq
        have hfields := stable_scanList (shrinks_scanField hshrinks)
          (stable_scanField hshrinks ih) (.inr rfl) fuel
        rw [hfields cs members cs₁ more hlist, Option.map_some]
      · rw [if_neg hobject] at h ⊢
        by_cases harray : c = '['
        · rw [if_pos harray] at h ⊢
          obtain ⟨⟨items, cs₁⟩, hlist, heq⟩ := Option.map_eq_some_iff.mp h
          obtain ⟨rfl, rfl⟩ := Prod.mk.inj heq
          rw [stable_scanList hshrinks ih (.inl rfl) fuel cs items cs₁ more hlist, Option.map_some]
        · rw [if_neg harray] at h ⊢
          by_cases hstring : c = '"'
          · rw [if_pos hstring] at h ⊢
            obtain ⟨⟨s, cs₁⟩, hread, heq⟩ := Option.map_eq_some_iff.mp h
            obtain ⟨rfl, rfl⟩ := Prod.mk.inj heq
            rw [stable_scanString 0 cs s cs₁ more hread, Option.map_some]
          · rw [if_neg hstring] at h ⊢
            exact stable_scanScalar d (c :: cs) v rest more h hended

/-- An object closes itself. -/
theorem scanValue_object_append {fuel : ℕ} {cs rest : Text} {v : Json K}
    (h : scanValue d (fuel + 1) (.scalar '{' :: cs) = some (v, rest)) (more : Text) :
    scanValue d (fuel + 1) (.scalar '{' :: cs ++ more) = some (v, rest ++ more) := by
  rw [List.cons_append]
  simp only [scanValue, if_true] at h ⊢
  obtain ⟨⟨members, cs₁⟩, hlist, heq⟩ := Option.map_eq_some_iff.mp h
  obtain ⟨rfl, rfl⟩ := Prod.mk.inj heq
  have hshrinks := shrinks_scanValue d fuel
  have hfields := stable_scanList (shrinks_scanField hshrinks)
    (stable_scanField hshrinks (stable_scanValue d fuel)) (.inr rfl) fuel
  rw [hfields cs members cs₁ more hlist, Option.map_some]

/-- No proper beginning of a text from brace to brace is a document, if the text is one. -/
theorem readDocument_take {text : Text} {v : Json K} (hopen : text.head? = some (.scalar '{'))
    (hclose : text.getLast? = some (.scalar '}')) (h : readDocument d text = some v) {n : ℕ}
    (hn : n < text.length) : readDocument d (text.take n) = none := by
  cases text with
  | nil => cases hopen
  | cons c cs =>
    obtain rfl : c = '{' := Option.some.inj hopen
    cases n with
    | zero => rfl
    | succ n =>
      rw [List.take_succ_cons]
      cases hcut : readDocument d (.scalar '{' :: cs.take n) with
      | none => rfl
      | some w =>
        exfalso
        obtain ⟨⟨v', rest⟩, hshort, -⟩ := Option.bind_eq_some_iff.mp hcut
        have hlong : readValue d (.scalar '{' :: cs) = some (v', rest ++ cs.drop n) := by
          have hread := scanValue_object_append hshort (cs.drop n)
          rw [List.cons_append, List.take_append_drop] at hread
          exact readValue_of_scanValue hread
        rw [readDocument, hlong, Option.bind_some] at h
        dsimp only at h
        -- the closing brace is after what was read
        have hmem : .scalar '}' ∈ rest ++ cs.drop n := by
          have hlt : n < cs.length := Nat.lt_of_succ_lt_succ hn
          have hne : cs ≠ [] := List.ne_nil_of_length_pos (Nat.zero_lt_of_lt hlt)
          have hlast : (cs.drop n).getLast? = some (.scalar '}') := by
            rw [List.getLast?_drop, if_neg (Nat.not_le.mpr hlt), ← hclose,
              List.getLast?_cons_of_ne_nil hne]
          exact List.mem_append_right rest (List.mem_of_getLast? hlast)
        have hspace : (skipSpace (rest ++ cs.drop n)).isEmpty = false := by
          rw [List.isEmpty_eq_false_iff, skipSpace, Ne, List.dropWhile_eq_nil_iff]
          intro hall
          cases hall '}' hmem
        rw [hspace] at h
        cases h

end Values

end ApiFirewall.Wire.JsonText
