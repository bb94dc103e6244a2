import ApiFirewall.Gateway.JavaText
import ApiFirewall.Wire.JsonText

/-!
# The order service

Both routes parse the body of the request as JSON and send it back. The parser takes octets: it guesses
which encoding of Unicode they are from a byte order mark or from the zeros among the first four of
them, decodes them, and reads the whole text in the dialect that has the constants for special doubles. An
encoded surrogate is decoded to itself; other octets that are not the encoding of a text are not parsed.
-/

namespace ApiFirewall.Backend

open ApiFirewall.Gateway ApiFirewall.Wire ApiFirewall.Wire.JsonText

/-- The encodings of JSON texts. -/
inductive Encoding where
  | utf8
  | utf8Sig
  | utf16
  | utf16be
  | utf16le
  | utf32
  | utf32be
  | utf32le
  deriving DecidableEq, Repr

/-- The encoding that octets seem to be in. -/
def detectEncoding (b : Bytes) : Encoding :=
  if [0x00, 0x00, 0xFE, 0xFF].isPrefixOf b || [0xFF, 0xFE, 0x00, 0x00].isPrefixOf b then .utf32
  else if [0xFE, 0xFF].isPrefixOf b || [0xFF, 0xFE].isPrefixOf b then .utf16
  else if [0xEF, 0xBB, 0xBF].isPrefixOf b then .utf8Sig
  else
    match b with
    | b₀ :: b₁ :: b₂ :: b₃ :: _ =>
      if b₀ = 0 then (if b₁ = 0 then .utf32be else .utf16be)
      else if b₁ = 0 then (if b₂ = 0 ∧ b₃ = 0 then .utf32le else .utf16le)
      else .utf8
    | [b₀, b₁] => if b₀ = 0 then .utf16be else if b₁ = 0 then .utf16le else .utf8
    | _ => .utf8

/-- The string of which the octets are the encoding in UTF-8. -/
def decodeUtf8Strict (b : Bytes) : Option String :=
  if (decodeUtf8 b).toList.flatMap String.utf8EncodeChar = b then some (decodeUtf8 b) else none

/-- Octets decode to the string that they are the encoding of, and to no other. -/
theorem decodeUtf8Strict_eq_some_iff {b : Bytes} {s : String} :
    decodeUtf8Strict b = some s ↔ s.toList.flatMap String.utf8EncodeChar = b := by
  constructor
  · intro h
    obtain ⟨hencode, hs⟩ := Option.ite_none_right_eq_some.mp h
    rwa [Option.some.inj hs] at hencode
  · rintro rfl
    have hdecode : decodeUtf8 (s.toList.flatMap String.utf8EncodeChar) = s := by
      rw [decodeUtf8, decodeAfter_encode, String.ofList_toList]
    rw [decodeUtf8Strict, hdecode, if_pos rfl]

/-- The octets of a code point; a surrogate takes three. -/
def encodePoint : CodePoint → Bytes
  | .scalar c => String.utf8EncodeChar c
  | .surrogate n => [0xED, UInt8.ofNat (0xA0 + n / 64), UInt8.ofNat (0x80 + n % 64)]

/-- The surrogate that an octet begins. -/
def surrogateAt (b₁ : UInt8) (rest : Bytes) : Option (Fin 2048) :=
  match rest with
  | b₂ :: b₃ :: _ =>
    if b₁ = 0xED ∧ 0xA0 ≤ b₂.toNat ∧ b₂.toNat < 0xC0 then
      (continuation b₃).map fun c₃ =>
        ⟨((b₂.toNat - 0xA0) * 64 + c₃) % 2048, Nat.mod_lt _ (Nat.succ_pos 2047)⟩
    else none
  | _ => none

/-- The code point that an octet begins, and how many of the octets after it belong to it. -/
def passFirst (b₁ : UInt8) (rest : Bytes) : CodePoint × ℕ :=
  match surrogateAt b₁ rest with
  | some n => (.surrogate n, 2)
  | none => ((decodeFirst b₁ rest).1, (decodeFirst b₁ rest).2)

/-- The code points of octets, after as many octets as the last one still takes. -/
def passAfter : ℕ → Bytes → Text
  | _, [] => []
  | skip + 1, _ :: rest => passAfter skip rest
  | 0, b :: rest => (passFirst b rest).1 :: passAfter (passFirst b rest).2 rest

/-- The text of which the octets are the encoding in UTF-8, with surrogates. -/
def decodeUtf8Pass (b : Bytes) : Option Text :=
  if (passAfter 0 b).flatMap encodePoint = b then some (passAfter 0 b) else none

/-- The octets of an encoded surrogate are taken for it. -/
theorem surrogateAt_encode (n : Fin 2048) (rest : Bytes) :
    surrogateAt 0xED (UInt8.ofNat (0xA0 + n / 64) :: UInt8.ofNat (0x80 + n % 64) :: rest) =
      some n := by
  have hn := n.isLt
  have hlow : continuation (UInt8.ofNat (0x80 + n % 64)) = some (n.val % 64) := by
    rw [Nat.add_comm]
    exact continuation_ofNat (by omega)
  have hhigh : (UInt8.ofNat (0xA0 + n / 64)).toNat = 0xA0 + n / 64 := toNat_ofNat_of_lt (by omega)
  have hcode : ((0xA0 + n.val / 64 - 0xA0) * 64 + n.val % 64) % 2048 = n.val := by omega
  rw [surrogateAt, if_pos ⟨rfl, by omega, by omega⟩, hlow, Option.map_some, Option.some_inj]
  exact Fin.ext ((congrArg (fun m => ((m - 0xA0) * 64 + n.val % 64) % 2048) hhigh).trans hcode)

/-- Where a surrogate is encoded, the gateway decodes a replacement. -/
theorem decodeFirst_of_surrogateAt {b₁ : UInt8} {rest : Bytes} {n : Fin 2048}
    (h : surrogateAt b₁ rest = some n) : b₁ = 0xED ∧ decodeFirst b₁ rest = (replacement, 2) := by
  unfold surrogateAt at h
  split at h
  · rename_i b₂ b₃ rest
    obtain ⟨⟨rfl, hlow, hhigh⟩, hmap⟩ := Option.ite_none_right_eq_some.mp h
    obtain ⟨c₃, hc₃, rfl⟩ := Option.map_eq_some_iff.mp hmap
    have hc₂ : continuation b₂ = some (b₂.toNat - 0x80) := if_pos ⟨by omega, hhigh⟩
    have hwell : isMalformed3 0xED b₂ = false := by simp [isMalformed3, hc₂]
    have hlt : c₃ < 64 := by
      unfold continuation at hc₃
      split at hc₃
      · rw [← Option.some.inj hc₃]
        omega
      · cases hc₃
    have hfirst : (0xED : UInt8).toNat = 0xED := rfl
    refine ⟨rfl, ?_⟩
    simp only [decodeFirst, hfirst, hc₂, hc₃, hwell]
    rw [if_neg (by decide), if_neg (by decide), if_pos (by decide), if_neg Bool.false_ne_true,
      if_pos (by omega)]
  · cases h

/-- The encoding of a code point is decoded to it, whatever follows. -/
theorem passFirst_encode (p : CodePoint) (rest : Bytes) : ∃ b tail,
    encodePoint p = b :: tail ∧ passFirst b (tail ++ rest) = (p, tail.length) := by
  cases p with
  | surrogate n =>
    refine ⟨_, _, rfl, ?_⟩
    rw [passFirst, List.cons_append, List.cons_append, List.nil_append, surrogateAt_encode]
    rfl
  | scalar c =>
    obtain ⟨b, tail, hencode, hfirst⟩ := decodeFirst_encode c rest
    refine ⟨b, tail, hencode, ?_⟩
    cases hsurrogate : surrogateAt b (tail ++ rest) with
    | none => rw [passFirst, hsurrogate, hfirst]
    | some n =>
      -- the replacement itself begins with another octet
      obtain ⟨rfl, hreplaced⟩ := decodeFirst_of_surrogateAt hsurrogate
      rw [hfirst] at hreplaced
      obtain ⟨rfl, -⟩ := Prod.mk.inj hreplaced
      cases hencode

/-- The encoding of a text is decoded to that text. -/
theorem passAfter_encode (text : Text) : passAfter 0 (text.flatMap encodePoint) = text := by
  have hskip : ∀ tail rest : Bytes, passAfter tail.length (tail ++ rest) = passAfter 0 rest := by
    intro tail rest
    induction tail with
    | nil => rfl
    | cons b tail ih => exact ih
  induction text with
  | nil => rfl
  | cons p text ih =>
    obtain ⟨b, tail, hencode, hfirst⟩ := passFirst_encode p (text.flatMap encodePoint)
    rw [List.flatMap_cons, hencode, List.cons_append, passAfter, hfirst, hskip, ih]

/-- Octets decode to the text that they are the encoding of, and to no other. -/
theorem decodeUtf8Pass_eq_some_iff {b : Bytes} {text : Text} :
    decodeUtf8Pass b = some text ↔ text.flatMap encodePoint = b := by
  constructor
  · intro h
    obtain ⟨hencode, htext⟩ := Option.ite_none_right_eq_some.mp h
    rwa [Option.some.inj htext] at hencode
  · rintro rfl
    rw [decodeUtf8Pass, passAfter_encode, if_pos rfl]

/-- A string in UTF-8 is decoded to the same text either way. -/
theorem decodeUtf8Pass_of_strict {b : Bytes} {s : String} (h : decodeUtf8Strict b = some s) :
    decodeUtf8Pass b = some (s : Text) := by
  rw [decodeUtf8Pass_eq_some_iff, ← decodeUtf8Strict_eq_some_iff.mp h, Text.ofString,
    List.flatMap_map]
  rfl

/-- Code units of two octets, the high one first or last. -/
def codeUnits (big : Bool) : Bytes → Option (List ℕ)
  | [] => some []
  | [_] => none
  | x :: y :: rest => (codeUnits big rest).map fun units =>
    (if big then x.toNat * 256 + y.toNat else y.toNat * 256 + x.toNat) :: units

/-- The text of which these are the code units; a surrogate without its other half stands alone. -/
def decodeUnits : List ℕ → Text
  | [] => []
  | [unit] => [.ofCode unit]
  | unit :: low :: rest =>
    if (0xD800 ≤ unit ∧ unit < 0xDC00) ∧ 0xDC00 ≤ low ∧ low < 0xE000 then
      Char.ofNat (0x10000 + (unit - 0xD800) * 0x400 + (low - 0xDC00)) :: decodeUnits rest
    else .ofCode unit :: decodeUnits (low :: rest)

/-- The text of which the octets are the encoding in UTF-16. -/
def decodeUtf16 (big : Bool) (b : Bytes) : Option Text := (codeUnits big b).map decodeUnits

/-- The text of which the octets are the encoding in UTF-32. -/
def decodeUtf32 (big : Bool) : Bytes → Option Text
  | [] => some []
  | w :: x :: y :: z :: rest =>
    let code :=
      if big then ((w.toNat * 256 + x.toNat) * 256 + y.toNat) * 256 + z.toNat
      else ((z.toNat * 256 + y.toNat) * 256 + x.toNat) * 256 + w.toNat
    if code < 0x110000 then (decodeUtf32 big rest).map fun text => .ofCode code :: text else none
  | _ => none

/-- The text of octets; a byte order mark is not part of it. -/
def decode (b : Bytes) : Option Text :=
  match detectEncoding b with
  | .utf8 => decodeUtf8Pass b
  | .utf8Sig => decodeUtf8Pass (b.drop 3)
  | .utf16 => decodeUtf16 ([0xFE, 0xFF].isPrefixOf b) (b.drop 2)
  | .utf16be => decodeUtf16 true b
  | .utf16le => decodeUtf16 false b
  | .utf32 => decodeUtf32 ([0x00, 0x00, 0xFE, 0xFF].isPrefixOf b) (b.drop 4)
  | .utf32be => decodeUtf32 true b
  | .utf32le => decodeUtf32 false b

variable {K : Type}

/-- The value that octets denote. -/
def loads (decimal : Text → Double K) (b : Bytes) : Option (Json K) :=
  (decode b).bind (readDocument ⟨true, decimal⟩)

example : loads (fun _ => Double.finite (0 : ℤ)) [0x5B, 0x22, 0xED, 0xA0, 0x80, 0x22, 0x5D] =
    some (.arr [.str [.surrogate 0]]) := rfl

namespace OrderService

/-- The answer to a body that was parsed. -/
def accepted (received : Json K) (serverTime : Double K) : Json K :=
  .obj [("status", .str "accepted"), ("received", received), ("server_time", .real serverTime)]

/-- Answer a request whose body is parsed; any other body is an error. -/
def acceptJson (decimal : Text → Double K) (serverTime : Double K) (body : Bytes) :
    Option (Json K) :=
  (loads decimal body).map fun received => accepted received serverTime

/-- The route for orders. -/
def createOrder (decimal : Text → Double K) (serverTime : Double K) (body : Bytes) :
    Option (Json K) :=
  acceptJson decimal serverTime body

/-- The route for checkouts. -/
def checkout (decimal : Text → Double K) (serverTime : Double K) (body : Bytes) :
    Option (Json K) :=
  acceptJson decimal serverTime body

end OrderService

/-- Octets are decoded one character after the other. -/
theorem decodeUtf8_cons (b : UInt8) (rest : Bytes) : Text.ofString (decodeUtf8 (b :: rest)) =
    .scalar (decodeFirst b rest).1 ::
      (decodeAfter (decodeFirst b rest).2 rest).map .scalar := by
  rw [decodeUtf8, Text.ofString_ofList, decodeAfter, List.map_cons]

/-- An octet that is zero continues no character. -/
theorem decodeFirst_zero (b : UInt8) (rest : Bytes) : (decodeFirst b (0 :: rest)).2 = 0 := by
  have hcontinuation : continuation 0 = none := by decide
  have hmalformed3 : isMalformed3 b 0 = true := by simp [isMalformed3, hcontinuation]
  have hmalformed4 : isMalformed4 b 0 = true := by simp [isMalformed4, hcontinuation]
  unfold decodeFirst
  dsimp only
  split
  · rfl
  · split
    · rw [hcontinuation]
    · split
      · cases rest <;> simp [hmalformed3]
      · split
        · cases rest with
          | nil => simp [hmalformed4]
          | cons b₃ rest => cases rest <;> simp [hmalformed4]
        · rfl

/-- Octets of which the second is zero are not the text of an object. -/
theorem readObject_of_second_zero {d : Dialect K} (b : UInt8) (rest : Bytes) :
    readObject d (decodeUtf8 (b :: 0 :: rest)) = none := by
  rw [decodeUtf8_cons, decodeFirst_zero, decodeAfter]
  have hzero : (decodeFirst 0 rest).1 = Char.ofNat 0 := rfl
  rw [hzero]
  exact readObject_of_second (by decide) (by decide) (by decide) (by decide)

/-- Octets that begin with a mark whose first character is neither space nor a brace are not the text
of an object. -/
theorem readObject_of_mark {d : Dialect K} {first : UInt8} {mark b : Bytes} {c : Char}
    (hmark : (first :: mark).isPrefixOf b = true)
    (hfirst : ∀ rest, (decodeFirst first (mark ++ rest)).1 = c) (hspace : isSpace c = false)
    (hbrace : (c : CodePoint) ≠ '\x7b') : readObject d (decodeUtf8 b) = none := by
  obtain ⟨rest, rfl⟩ := List.isPrefixOf_iff_prefix.mp hmark
  rw [List.cons_append, decodeUtf8_cons, hfirst]
  exact readObject_of_first hspace hbrace

/-- The byte order mark of UTF-8 is a character. -/
theorem decodeFirst_mark (rest : Bytes) :
    (decodeFirst 0xEF ([0xBB, 0xBF] ++ rest)).1 = Char.ofNat 0xFEFF := by
  simp [decodeFirst, isMalformed3, continuation]

/-- Octets that do not seem to be in UTF-8, or begin with a mark, are not the text of an object for a
reader that takes them for UTF-8. -/
theorem detectEncoding_of_readObject {d : Dialect K} {b : Bytes} {members : List (Text × Json K)}
    (h : readObject d (decodeUtf8 b) = some members) : detectEncoding b = .utf8 := by
  have hread : readObject d (decodeUtf8 b) ≠ none := by simp [h]
  unfold detectEncoding
  split
  · rename_i hmark
    rcases Bool.or_eq_true_iff.mp hmark with hmark | hmark
    · exact absurd (readObject_of_mark hmark (fun _ => rfl) (by decide) (by decide)) hread
    · exact absurd (readObject_of_mark hmark (fun _ => rfl) (by decide) (by decide)) hread
  · split
    · rename_i hmark
      rcases Bool.or_eq_true_iff.mp hmark with hmark | hmark
      · exact absurd (readObject_of_mark hmark (fun _ => rfl) (by decide) (by decide)) hread
      · exact absurd (readObject_of_mark hmark (fun _ => rfl) (by decide) (by decide)) hread
    · split
      · rename_i hmark
        exact absurd (readObject_of_mark hmark decodeFirst_mark (by decide) (by decide)) hread
      · have hzero : ∀ rest : Bytes, b ≠ 0 :: rest := by
          rintro rest rfl
          exact hread (by
            rw [decodeUtf8_cons]
            exact readObject_of_first (c := Char.ofNat 0) (by decide) (by decide))
        have hsecond : ∀ (b₀ : UInt8) (rest : Bytes), b ≠ b₀ :: 0 :: rest := by
          rintro b₀ rest rfl
          exact hread (readObject_of_second_zero b₀ rest)
        split
        · rename_i b₀ b₁ b₂ b₃ rest
          rw [if_neg fun h₀ => hzero _ (by rw [h₀]), if_neg fun h₁ => hsecond _ _ (by rw [h₁])]
        · rename_i b₀ b₁
          rw [if_neg fun h₀ => hzero _ (by rw [h₀]), if_neg fun h₁ => hsecond _ _ (by rw [h₁])]
        · rfl

/-- Where the body is a string in UTF-8 that is parsed, and the string is an object in strict JSON, the
two are one object. -/
theorem eq_of_readObject {decimal : Text → Double K} {b : Bytes} {v : Json K}
    {members : List (Text × Json K)} (hloads : loads decimal b = some v)
    (hscalar : (decodeUtf8Strict b).isSome = true)
    (h : readObject ⟨false, decimal⟩ (decodeUtf8 b) = some members) : v = .obj members := by
  obtain ⟨text, hdecode, hdocument⟩ := Option.bind_eq_some_iff.mp hloads
  obtain ⟨s, hs⟩ := Option.isSome_iff_exists.mp hscalar
  rw [decode, detectEncoding_of_readObject h] at hdecode
  dsimp only at hdecode
  rw [decodeUtf8Pass_of_strict hs] at hdecode
  obtain rfl := Option.some.inj hdecode
  obtain rfl := Option.some.inj (Option.ite_none_right_eq_some.mp hs).2
  obtain ⟨⟨v₁, rest₁⟩, hvalue, hv⟩ := Option.bind_eq_some_iff.mp hdocument
  obtain ⟨⟨v₂, rest₂⟩, hstrict, hmembers⟩ := Option.bind_eq_some_iff.mp h
  rw [readValue_with_constants hstrict] at hvalue
  obtain ⟨rfl, rfl⟩ := Prod.mk.inj (Option.some.inj hvalue)
  dsimp only at hv hmembers
  split at hv
  · obtain rfl := Option.some.inj hv
    cases v₂ with
    | obj members' => rw [Option.some.inj hmembers]
    | _ => simp at hmembers
  · cases hv

end ApiFirewall.Backend
