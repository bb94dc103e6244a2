import Mathlib.Data.List.Chain
import Mathlib.Data.Nat.Notation

/-!
# Texts that may hold unpaired surrogates

A string of either platform is a sequence of code points: Unicode scalar values, and surrogates that
stand alone. A pair of surrogates is the one scalar value that it stands for. Most strings come from
decoded octets and have no surrogate; an escape in a JSON text is one way to get one into a string,
and a lenient decoder is another.
-/

namespace ApiFirewall.Wire

/-- A scalar value, or a surrogate that stands alone. -/
inductive CodePoint where
  | scalar (c : Char)
  | surrogate (n : Fin 2048)
  deriving DecidableEq, Repr

/-- A string as a sequence of code points. -/
abbrev Text := List CodePoint

namespace CodePoint

instance : Coe Char CodePoint := ⟨scalar⟩

/-- The number of a code point. -/
def code : CodePoint → ℕ
  | scalar c => c.toNat
  | surrogate n => 0xD800 + n

/-- The code point of a number. -/
def ofCode (n : ℕ) : CodePoint :=
  if 0xD800 ≤ n ∧ n < 0xE000 then surrogate (Fin.ofNat 2048 (n - 0xD800)) else scalar (Char.ofNat n)

/-- A digit. -/
def isDigit : CodePoint → Bool
  | scalar c => c.isDigit
  | surrogate _ => false

/-- The first half of a pair. -/
def IsHigh (p : CodePoint) : Prop := 0xD800 ≤ p.code ∧ p.code < 0xDC00

/-- The second half of a pair. -/
def IsLow (p : CodePoint) : Prop := 0xDC00 ≤ p.code ∧ p.code < 0xE000

instance : DecidablePred IsHigh := fun p =>
  inferInstanceAs (Decidable (0xD800 ≤ p.code ∧ p.code < 0xDC00))

instance : DecidablePred IsLow := fun p =>
  inferInstanceAs (Decidable (0xDC00 ≤ p.code ∧ p.code < 0xE000))

@[simp] theorem code_scalar (c : Char) : (scalar c).code = c.toNat := rfl

@[simp] theorem isDigit_scalar (c : Char) : (scalar c).isDigit = c.isDigit := rfl

/-- A scalar value is no surrogate. -/
theorem not_surrogate (c : Char) : c.toNat < 0xD800 ∨ (0xE000 ≤ c.toNat ∧ c.toNat < 0x110000) := by
  have hvalid := c.valid
  change c.toNat < 0xD800 ∨ (0xDFFF < c.toNat ∧ c.toNat < 0x110000) at hvalid
  omega

/-- A scalar value is neither half of a pair. -/
theorem not_isHigh_scalar (c : Char) : ¬ (scalar c).IsHigh := by
  have hscalar := not_surrogate c
  simp only [IsHigh, code_scalar]
  omega

/-- A code point is that of its number. -/
@[simp] theorem ofCode_code (p : CodePoint) : ofCode p.code = p := by
  cases p with
  | scalar c =>
    have hscalar := not_surrogate c
    rw [ofCode, code_scalar, if_neg (by omega), Char.ofNat_toNat]
  | surrogate n =>
    have hn := n.isLt
    rw [ofCode, code, if_pos (by omega), Nat.add_sub_cancel_left]
    congr 1
    exact Fin.ofNat_val_eq_self n

/-- What a lenient encoder sets for a code point: an unpaired surrogate becomes a question mark. -/
def encodable : CodePoint → Char
  | scalar c => c
  | surrogate _ => '?'

@[simp] theorem encodable_scalar (c : Char) : (scalar c).encodable = c := rfl

/-- The code point that a lenient encoder sets. -/
def encoded (p : CodePoint) : CodePoint := scalar p.encodable

@[simp] theorem encoded_scalar (c : Char) : (scalar c).encoded = scalar c := rfl

/-- The scalar value that a code point is, if it is one. -/
def scalar? : CodePoint → Option Char
  | scalar c => some c
  | surrogate _ => none

end CodePoint

namespace Text

/-- A string without surrogates as a text. -/
@[coe] def ofString (s : String) : Text := s.toList.map .scalar

instance : Coe String Text := ⟨ofString⟩

/-- Different strings are different texts. -/
theorem map_scalar_injective : Function.Injective (List.map CodePoint.scalar) :=
  List.map_injective_iff.mpr fun _ _ h => CodePoint.scalar.inj h

@[simp] theorem ofString_inj {s t : String} : ofString s = ofString t ↔ s = t :=
  ⟨fun h => String.toList_injective (map_scalar_injective h), congrArg ofString⟩

@[simp] theorem ofString_ofList (cs : List Char) : ofString (.ofList cs) = cs.map .scalar := by
  rw [ofString, String.toList_ofList]

@[simp] theorem ofString_append (s t : String) : ofString (s ++ t) = ofString s ++ ofString t := by
  simp [ofString]

/-- The string that a text is, if it has no surrogate. -/
def toString? (text : Text) : Option String := (text.mapM CodePoint.scalar?).map .ofList

/-- The string that a lenient encoder makes of a text. -/
def encodable (text : Text) : String := .ofList (text.map CodePoint.encodable)

/-- A text without surrogates is the string that it was made of. -/
@[simp] theorem toString?_ofString (s : String) : (ofString s).toString? = some s := by
  have hall : ∀ cs : List Char, (cs.map CodePoint.scalar).mapM CodePoint.scalar? = some cs := by
    intro cs
    induction cs with
    | nil => rfl
    | cons c cs ih =>
      rw [List.map_cons, List.mapM_cons, ih]
      rfl
  rw [toString?, ofString, hall, Option.map_some, String.ofList_toList]

/-- A text is a string exactly if it is made of one. -/
theorem toString?_eq_some {text : Text} {s : String} :
    text.toString? = some s ↔ text = ofString s := by
  constructor
  · intro h
    have hall : ∀ (ps : Text) (cs : List Char), ps.mapM CodePoint.scalar? = some cs →
        ps = cs.map .scalar := by
      intro ps
      induction ps with
      | nil =>
        intro cs hcs
        obtain rfl : [] = cs := by simpa using hcs
        rfl
      | cons p ps ih =>
        intro cs hcs
        rw [List.mapM_cons] at hcs
        obtain ⟨c, hc, hcs⟩ := Option.bind_eq_some_iff.mp hcs
        obtain ⟨cs', hcs', heq⟩ := Option.bind_eq_some_iff.mp hcs
        obtain rfl := Option.some.inj heq
        cases p with
        | scalar c' =>
          obtain rfl := Option.some.inj hc
          rw [List.map_cons, ih cs' hcs']
        | surrogate n => cases hc
    obtain ⟨cs, hcs, rfl⟩ := Option.map_eq_some_iff.mp h
    rw [ofString_ofList]
    exact hall text cs hcs
  · rintro rfl
    exact toString?_ofString s

/-- A lenient encoder keeps a text without surrogates. -/
@[simp] theorem encodable_ofString (s : String) : (ofString s).encodable = s := by
  rw [encodable, ofString, List.map_map]
  have hid : CodePoint.encodable ∘ CodePoint.scalar = id := rfl
  rw [hid, List.map_id, String.ofList_toList]

/-- A lenient encoder sets one character for each code point. -/
theorem ofString_encodable (text : Text) :
    ofString text.encodable = text.map CodePoint.encoded := by
  rw [encodable, ofString_ofList, List.map_map]
  rfl

/-- A lenient encoder keeps a text without surrogates. -/
@[simp] theorem encoded_ofString (s : String) : (ofString s).map .encoded = ofString s := by
  rw [← ofString_encodable, encodable_ofString]

/-- A text that a lenient encoder keeps is a string. -/
theorem toString?_of_encoded {text : Text} (h : text.map .encoded = text) :
    text.toString? = some text.encodable :=
  toString?_eq_some.mpr ((ofString_encodable text).trans h).symm

/-- No first half of a pair stands before a second one. -/
def Unpaired (text : Text) : Prop := text.IsChain fun p q => ¬ (p.IsHigh ∧ q.IsLow)

/-- A text without surrogates has no pair of them. -/
theorem unpaired_ofString (s : String) : Unpaired (ofString s) := by
  have hall : ∀ cs : List Char, Unpaired (cs.map .scalar) := by
    intro cs
    induction cs with
    | nil => exact .nil
    | cons c cs ih =>
      exact List.isChain_cons.mpr ⟨fun q _ h => CodePoint.not_isHigh_scalar c h.1, ih⟩
  exact hall s.toList

end Text

end ApiFirewall.Wire
