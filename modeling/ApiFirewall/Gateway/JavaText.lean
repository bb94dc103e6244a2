import Mathlib.Data.List.DropRight
import Mathlib.Data.Nat.Notation

/-!
# The string operations the gateway uses

Strings are sequences of Unicode scalar values. Blankness, trimming, splitting and prefixes
follow the platform library; decoding bytes replaces every malformed sequence by U+FFFD, one
replacement for each maximal malformed prefix and one for an encoded surrogate.
-/

namespace ApiFirewall.Gateway

/-- Octets. -/
abbrev Bytes := List UInt8

/-- White space of the platform: separators other than the non-breaking ones, and controls. -/
def isWhitespace (c : Char) : Bool :=
  let n := c.toNat
  (9 ≤ n && n ≤ 13) || (28 ≤ n && n ≤ 32) || n == 0x1680 || (0x2000 ≤ n && n ≤ 0x2006) ||
    (0x2008 ≤ n && n ≤ 0x200A) || n == 0x2028 || n == 0x2029 || n == 0x205F || n == 0x3000

/-- Empty, or white space only. -/
def isBlank (s : String) : Bool := s.toList.all isWhitespace

/-- Without the characters up to U+0020 at both ends. -/
def trim (s : String) : String :=
  let space : Char → Bool := fun c => c.toNat ≤ 32
  .ofList ((s.toList.dropWhile space).rdropWhile space)

/-- The pieces between occurrences of a character, without empty pieces at the end; a string
that does not contain the character is its own only piece. -/
def split (separator : Char) (s : String) : List String :=
  let pieces := s.toList.splitOn separator
  if pieces.length = 1 then [s] else (pieces.rdropWhile List.isEmpty).map .ofList

/-- The string starts with the given one. -/
def startsWith (s start : String) : Bool := start.toList.isPrefixOf s.toList

/-- The string contains the given one. -/
def contains (s part : String) : Bool := s.toList.tails.any part.toList.isPrefixOf

/-- Lower case of ASCII letters and of the two other characters that have ASCII letters in
their lower case. -/
def lowerChar (c : Char) : List Char :=
  if c.toNat = 0x212A then ['k']
  else if c.toNat = 0x130 then ['i', Char.ofNat 0x307]
  else [c.toLower]

/-- Lower case, as far as ASCII letters are concerned. -/
def toLowerCase (s : String) : String := .ofList (s.toList.flatMap lowerChar)

section Trim

variable {α : Type} (p : α → Bool)

/-- What is left without a beginning starts with the first element that is kept. -/
theorem head?_dropWhile (xs : List α) : (xs.dropWhile p).head? = xs.find? fun x => !p x := by
  induction xs with
  | nil => rfl
  | cons x rest ih =>
    cases hx : p x with
    | true => rw [List.dropWhile_cons_of_pos hx, ih, List.find?_cons_of_neg (by simp [hx])]
    | false =>
      rw [List.dropWhile_cons_of_neg (by simp [hx]), List.find?_cons_of_pos (by simp [hx]),
        List.head?_cons]

/-- What is left without both ends starts with the first element that is kept. -/
theorem head?_dropWhile_rdropWhile (xs : List α) :
    ((xs.dropWhile p).rdropWhile p).head? = xs.find? fun x => !p x := by
  rw [← head?_dropWhile]
  obtain ⟨dropped, hdropped⟩ := List.rdropWhile_prefix p (xs.dropWhile p)
  cases hkept : (xs.dropWhile p).rdropWhile p with
  | cons x rest =>
    rw [hkept] at hdropped
    rw [← hdropped]
    rfl
  | nil =>
    have hall := List.rdropWhile_eq_nil_iff.mp hkept
    cases hdrop : xs.dropWhile p with
    | nil => rfl
    | cons x rest =>
      have hnot := List.head_dropWhile_not p (l := xs) (by simp [hdrop])
      have hx := hall _ (List.head_mem (by simp [hdrop]))
      rw [hx] at hnot
      cases hnot

/-- What is left without both ends ends with the last element that is kept. -/
theorem getLast?_dropWhile_rdropWhile (xs : List α) :
    ((xs.dropWhile p).rdropWhile p).getLast? = xs.reverse.find? fun x => !p x := by
  have hreverse : xs.reverse = (xs.dropWhile p).reverse ++ (xs.takeWhile p).reverse := by
    rw [← List.reverse_append, List.takeWhile_append_dropWhile]
  have hnone : (xs.takeWhile p).reverse.find? (fun x => !p x) = none := by
    apply List.find?_eq_none.mpr
    intro x hx
    simp [List.mem_takeWhile_imp (List.mem_reverse.mp hx)]
  rw [hreverse, List.find?_append, hnone, Option.or_none, ← head?_dropWhile, List.rdropWhile,
    List.getLast?_reverse]

end Trim

/-- The first piece is what stands before the first separator. -/
theorem head_splitOn (separator : Char) (cs : List Char) :
    (cs.splitOn separator)[0]? = some (cs.takeWhile (· ≠ separator)) := by
  induction cs with
  | nil => rfl
  | cons c rest ih =>
    rw [List.splitOn_cons_eq_if_modifyHead]
    by_cases hc : c = separator
    · simp [hc]
    · obtain ⟨first, pieces, hsplit⟩ := List.exists_cons_of_ne_nil (List.splitOn_ne_nil separator rest)
      rw [hsplit] at ih ⊢
      simpa [hc] using ih

/-- Where a text has a first piece, it is what stands before the first separator. -/
theorem head_split {separator : Char} {s first : String} (h : (split separator s)[0]? = some first) :
    first = .ofList (s.toList.takeWhile (· ≠ separator)) := by
  have hhead := head_splitOn separator s.toList
  unfold split at h
  dsimp only at h
  split at h
  · rename_i hone
    obtain ⟨piece, hpiece⟩ := List.length_eq_one_iff.mp hone
    rw [hpiece] at hhead
    have hwhole : s.toList = piece := by
      have hjoin : [separator].intercalate (s.toList.splitOn separator) = s.toList :=
        List.intercalate_splitOn separator
      simpa [hpiece, List.intercalate] using hjoin.symm
    obtain rfl : s = first := by simpa using h
    rw [← Option.some.inj hhead, ← hwhole, String.ofList_toList]
  · rw [List.getElem?_map, Option.map_eq_some_iff] at h
    obtain ⟨piece, hpiece, rfl⟩ := h
    obtain ⟨dropped, hdropped⟩ :=
      List.rdropWhile_prefix List.isEmpty (s.toList.splitOn separator)
    have hbound := (List.getElem?_eq_some_iff.mp hpiece).1
    rw [← hdropped, List.getElem?_append_left hbound, hpiece] at hhead
    rw [Option.some.inj hhead]

/-- All pieces are empty exactly if the text consists of separators. -/
theorem all_isEmpty_splitOn (separator : Char) (cs : List Char) :
    (∀ piece ∈ cs.splitOn separator, piece.isEmpty = true) ↔ ∀ c ∈ cs, c = separator := by
  induction cs with
  | nil => simp
  | cons c rest ih =>
    rw [List.splitOn_cons_eq_if_modifyHead]
    by_cases hc : c = separator
    · simpa [hc] using ih
    · obtain ⟨first, pieces, hsplit⟩ := List.exists_cons_of_ne_nil (List.splitOn_ne_nil separator rest)
      simp [hc, hsplit]

/-- A text has no pieces exactly if it consists of separators and is not empty. -/
theorem split_eq_nil_iff {separator : Char} {s : String} :
    split separator s = [] ↔ s.toList ≠ [] ∧ ∀ c ∈ s.toList, c = separator := by
  unfold split
  dsimp only
  by_cases hmem : separator ∈ s.toList
  · obtain ⟨before, after, hs⟩ := List.append_of_mem hmem
    have hlength : (s.toList.splitOn separator).length ≠ 1 := by
      have hbefore := List.length_pos_iff.mpr (List.splitOn_ne_nil separator before)
      have hafter := List.length_pos_iff.mpr (List.splitOn_ne_nil separator after)
      rw [hs, List.splitOn_append_cons_self, List.length_append]
      omega
    rw [if_neg hlength, List.map_eq_nil_iff, List.rdropWhile_eq_nil_iff, all_isEmpty_splitOn]
    exact (and_iff_right (List.ne_nil_of_mem hmem)).symm
  · rw [List.splitOn_eq_singleton hmem, List.length_singleton, if_pos rfl]
    refine iff_of_false (List.cons_ne_nil _ _) ?_
    rintro ⟨hne, hall⟩
    obtain ⟨c, hc⟩ := List.exists_mem_of_ne_nil _ hne
    exact hmem (hall c hc ▸ hc)

/-- The replacement character. -/
def replacement : Char := Char.ofNat 0xFFFD

/-- The value of an octet that continues a multi-byte character. -/
def continuation (b : UInt8) : Option ℕ :=
  if 0x80 ≤ b.toNat ∧ b.toNat < 0xC0 then some (b.toNat - 0x80) else none

/-- The second octet of three cannot follow the first. -/
def isMalformed3 (b₁ b₂ : UInt8) : Bool :=
  (b₁.toNat = 0xE0 && 0x80 ≤ b₂.toNat && b₂.toNat < 0xA0) || (continuation b₂).isNone

/-- The second octet of four cannot follow the first. -/
def isMalformed4 (b₁ b₂ : UInt8) : Bool :=
  0xF4 < b₁.toNat || (b₁.toNat = 0xF0 && (b₂.toNat < 0x90 || 0xBF < b₂.toNat)) ||
    (b₁.toNat = 0xF4 && (b₂.toNat < 0x80 || 0x8F < b₂.toNat)) || (continuation b₂).isNone

/-- The character that an octet begins, and how many of the octets after it belong to it. -/
def decodeFirst (b₁ : UInt8) (rest : Bytes) : Char × ℕ :=
  let n := b₁.toNat
  if n < 0x80 then (Char.ofNat n, 0)
  else if 0xC2 ≤ n ∧ n < 0xE0 then
    match rest with
    | [] => (replacement, 0)
    | b₂ :: _ =>
      match continuation b₂ with
      | some c₂ => (Char.ofNat ((n - 0xC0) * 64 + c₂), 1)
      | none => (replacement, 0)
  else if 0xE0 ≤ n ∧ n < 0xF0 then
    match rest with
    | [] => (replacement, 0)
    | [b₂] => (replacement, if isMalformed3 b₁ b₂ then 0 else 1)
    | b₂ :: b₃ :: _ =>
      if isMalformed3 b₁ b₂ then (replacement, 0)
      else
        match continuation b₂, continuation b₃ with
        | some c₂, some c₃ =>
          let code := ((n - 0xE0) * 64 + c₂) * 64 + c₃
          -- an encoded surrogate takes three octets and yields one replacement
          (if 0xD800 ≤ code ∧ code < 0xE000 then replacement else Char.ofNat code, 2)
        | _, _ => (replacement, 1)
  else if 0xF0 ≤ n ∧ n < 0xF8 then
    match rest with
    | [] => (replacement, 0)
    | [b₂] => (replacement, if isMalformed4 b₁ b₂ then 0 else 1)
    | [b₂, b₃] =>
      if isMalformed4 b₁ b₂ then (replacement, 0)
      else (replacement, if (continuation b₃).isNone then 1 else 2)
    | b₂ :: b₃ :: b₄ :: _ =>
      if isMalformed4 b₁ b₂ then (replacement, 0)
      else
        match continuation b₂, continuation b₃, continuation b₄ with
        | some c₂, some c₃, some c₄ =>
          (Char.ofNat ((((n - 0xF0) * 64 + c₂) * 64 + c₃) * 64 + c₄), 3)
        | _, some _, none => (replacement, 2)
        | _, _, _ => (replacement, 1)
  else (replacement, 0)

/-- The characters of octets, after as many octets as the last character still takes. -/
def decodeAfter : ℕ → Bytes → List Char
  | _, [] => []
  | skip + 1, _ :: rest => decodeAfter skip rest
  | 0, b :: rest => (decodeFirst b rest).1 :: decodeAfter (decodeFirst b rest).2 rest

/-- The string that octets encode. -/
def decodeUtf8 (bytes : Bytes) : String := .ofList (decodeAfter 0 bytes)

example : decodeUtf8 [0x61, 0xC3, 0xA9, 0xED, 0xA0, 0x80, 0xE0, 0x80] =
    .ofList ['a', 'é', replacement, replacement, replacement] := by decide +kernel

/-- The octets that a character still takes are skipped. -/
theorem decodeAfter_append (tail rest : Bytes) :
    decodeAfter tail.length (tail ++ rest) = decodeAfter 0 rest := by
  induction tail with
  | nil => rfl
  | cons b tail ih => exact ih

/-- An octet keeps a number below 256. -/
theorem toNat_ofNat_of_lt {n : ℕ} (h : n < 256) : (UInt8.ofNat n).toNat = n := by
  rw [UInt8.toNat_ofNat']
  omega

/-- Six bits make a continuation. -/
theorem continuation_ofNat {n : ℕ} (h : n < 64) : continuation (UInt8.ofNat (n + 0x80)) = some n := by
  rw [continuation, toNat_ofNat_of_lt (by omega), if_pos (by omega), Nat.add_sub_cancel]

/-- The code of a character is that character's. -/
theorem ofNat_of_eq_toNat {c : Char} {n : ℕ} (h : n = c.toNat) : Char.ofNat n = c := by
  rw [h, Char.ofNat_toNat]

/-- The three octets of a character between U+0800 and U+FFFF are well formed. -/
theorem isMalformed3_encode {n : ℕ} (hlow : 0x800 ≤ n) (hhigh : n < 0x10000) :
    isMalformed3 (UInt8.ofNat (n / 4096 % 16 + 224)) (UInt8.ofNat (n / 64 % 64 + 128)) = false := by
  rw [isMalformed3, continuation_ofNat (by omega), toNat_ofNat_of_lt (by omega),
    toNat_ofNat_of_lt (by omega)]
  simp
  omega

/-- The four octets of a character beyond U+FFFF are well formed. -/
theorem isMalformed4_encode {n : ℕ} (hlow : 0x10000 ≤ n) (hhigh : n < 0x110000) :
    isMalformed4 (UInt8.ofNat (n / 262144 % 8 + 240)) (UInt8.ofNat (n / 4096 % 64 + 128)) = false := by
  rw [isMalformed4, continuation_ofNat (by omega), toNat_ofNat_of_lt (by omega),
    toNat_ofNat_of_lt (by omega)]
  simp
  omega

/-- The encoding of a character is decoded to that character, whatever follows it. -/
theorem decodeFirst_encode (c : Char) (rest : Bytes) : ∃ b tail,
    String.utf8EncodeChar c = b :: tail ∧ decodeFirst b (tail ++ rest) = (c, tail.length) := by
  have hvalid : c.toNat < 0xD800 ∨ (0xDFFF < c.toNat ∧ c.toNat < 0x110000) := c.valid
  unfold String.utf8EncodeChar
  dsimp only
  rw [show c.val.toNat = c.toNat from rfl]
  split
  · refine ⟨_, _, rfl, ?_⟩
    simp only [List.nil_append, List.length_nil, decodeFirst]
    rw [toNat_ofNat_of_lt (by omega), if_pos (by omega), Char.ofNat_toNat]
  · split
    · refine ⟨_, _, rfl, ?_⟩
      simp only [List.cons_append, List.nil_append, List.length_cons, List.length_nil, decodeFirst]
      rw [toNat_ofNat_of_lt (by omega), if_neg (by omega), if_pos (by omega),
        continuation_ofNat (by omega)]
      simp only
      rw [ofNat_of_eq_toNat (c := c) (by omega)]
    · split
      · have hwell := isMalformed3_encode (n := c.toNat) (by omega) (by omega)
        refine ⟨_, _, rfl, ?_⟩
        simp only [List.cons_append, List.nil_append, List.length_cons, List.length_nil, decodeFirst]
        rw [toNat_ofNat_of_lt (by omega), if_neg (by omega), if_neg (by omega),
          if_pos (by omega), continuation_ofNat (by omega), continuation_ofNat (by omega),
          if_neg (by rw [hwell]; exact Bool.false_ne_true)]
        simp only
        rw [if_neg (by omega), ofNat_of_eq_toNat (c := c) (by omega)]
      · have hwell := isMalformed4_encode (n := c.toNat) (by omega) (by omega)
        refine ⟨_, _, rfl, ?_⟩
        simp only [List.cons_append, List.nil_append, List.length_cons, List.length_nil, decodeFirst]
        rw [toNat_ofNat_of_lt (by omega), if_neg (by omega), if_neg (by omega),
          if_neg (by omega), if_pos (by omega), continuation_ofNat (by omega),
          continuation_ofNat (by omega), continuation_ofNat (by omega),
          if_neg (by rw [hwell]; exact Bool.false_ne_true)]
        simp only
        rw [ofNat_of_eq_toNat (c := c) (by omega)]

/-- The encoding of a text is decoded to that text. -/
theorem decodeAfter_encode (cs : List Char) : decodeAfter 0 (cs.flatMap String.utf8EncodeChar) = cs := by
  induction cs with
  | nil => rfl
  | cons c cs ih =>
    obtain ⟨b, tail, hencode, hfirst⟩ := decodeFirst_encode c (cs.flatMap String.utf8EncodeChar)
    rw [List.flatMap_cons, hencode, List.cons_append, decodeAfter, hfirst, decodeAfter_append, ih]

end ApiFirewall.Gateway
