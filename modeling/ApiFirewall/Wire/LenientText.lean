import ApiFirewall.Wire.JsonWriter

/-!
# Texts that a lenient encoder sets

A lenient encoder sets a question mark for a surrogate that stands alone. It does so after the text of a
value has been written; if the writer sets such surrogates as they are, the outcome is the text of the
value in which they have been replaced. Names that differ only there become the same name.
-/

namespace ApiFirewall.Wire.JsonText

variable {K : Type}

/-- What is encoded leniently has the same doubles, and no pair of surrogates. -/
theorem Throughout.encodable {P : Double K → Prop} {Q : Text → Prop} {v : Json K}
    (h : Throughout P Q v) : Throughout P Text.Unpaired v.encodable := by
  induction h with
  | null => exact .null
  | bool b => exact .bool b
  | int n => exact .int n
  | real h => exact .real h
  | str => exact .str (Text.unpaired_ofString _)
  | arr _ ih =>
    rw [Json.encodable, Json.mapText, Json.mapTextItems_eq]
    refine .arr fun v hv => ?_
    obtain ⟨item, hitem, rfl⟩ := List.mem_map.mp hv
    exact ih item hitem
  | obj _ _ ih =>
    rw [Json.encodable, Json.mapText, Json.mapTextMembers_eq]
    refine .obj (fun m hm => ?_) fun m hm => ?_
    · obtain ⟨member, -, rfl⟩ := List.mem_map.mp hm
      exact Text.unpaired_ofString _
    · obtain ⟨member, hmember, rfl⟩ := List.mem_map.mp hm
      exact ih member hmember

namespace Style

/-- A lenient encoder keeps the escapes of one letter. -/
theorem encoded_shortText {p : CodePoint} {text : Text} (h : shortText p = some text) :
    text.map .encoded = text := by
  obtain ⟨e, hfind, rfl⟩ := Option.map_eq_some_iff.mp h
  have hmem := List.mem_of_find?_eq_some hfind
  simp only [shortEscapes, List.mem_cons, List.not_mem_nil, or_false] at hmem
  rcases hmem with rfl | rfl | rfl | rfl | rfl | rfl | rfl <;> rfl

/-- A lenient encoder keeps the escapes by code units. -/
theorem encoded_unicodeText (letter : Char) (p : CodePoint) :
    (unicodeText letter p).map .encoded = unicodeText letter p := by
  unfold unicodeText
  split <;> rfl

/-- A style leaves surrogates to the encoder: what it sets for one becomes what it sets for a question
mark. -/
def LeavesSurrogates (style : Style) : Prop :=
  ∀ p, (style.escape p).map .encoded = style.escape p.encoded

/-- A sparing style sets a surrogate as it is. -/
theorem leavesSurrogates_sparing {letter : Char} (hletter : letter = 'a' ∨ letter = 'A') :
    (sparing letter hletter).LeavesSurrogates := by
  intro p
  cases p with
  | surrogate n =>
    have hcode : 32 ≤ (CodePoint.surrogate n).code := by
      simp only [CodePoint.code]
      omega
    have hescape : (sparing letter hletter).escape (.surrogate n) = [.surrogate n] :=
      if_pos (decide_eq_true hcode)
    rw [hescape]
    rfl
  | scalar c =>
    rw [CodePoint.encoded_scalar]
    change ((shortText c).getD _).map CodePoint.encoded = (shortText c).getD _
    cases hshort : shortText c with
    | some text => exact encoded_shortText hshort
    | none =>
      rw [Option.getD_none]
      split
      · rfl
      · exact encoded_unicodeText letter c

/-- A style sets no surrogate as it is, so an encoder keeps what it sets. -/
def Encoded (style : Style) : Prop := ∀ p, (style.escape p).map .encoded = style.escape p

/-- A style that escapes surrogates sets none. -/
theorem encoded_escaping {gap : Text} (hgap : ∀ c ∈ gap, isSpace c = true) {letter : Char}
    (hletter : letter = 'a' ∨ letter = 'A') {bare : CodePoint → Bool}
    (hbare : ∀ p, bare p = true → 32 ≤ p.code)
    (hscalar : ∀ n, bare (.surrogate n) = false) :
    (escaping gap hgap letter hletter bare hbare).Encoded := by
  intro p
  change ((shortText p).getD _).map CodePoint.encoded = (shortText p).getD _
  cases hshort : shortText p with
  | some text => exact encoded_shortText hshort
  | none =>
    rw [Option.getD_none]
    cases p with
    | scalar c =>
      split
      · rfl
      · exact encoded_unicodeText letter c
    | surrogate n =>
      rw [hscalar n, if_neg Bool.false_ne_true]
      exact encoded_unicodeText letter _

/-- What is set in ASCII has no surrogates. -/
theorem encoded_ascii : ascii.Encoded := by
  refine encoded_escaping _ _ _ fun n => decide_eq_false ?_
  simp only [CodePoint.code]
  omega

/-- Neither has what is set with every surrogate escaped. -/
theorem encoded_paired : paired.Encoded := by
  refine encoded_escaping _ _ _ fun n => decide_eq_false ?_
  have hn := n.isLt
  simp only [CodePoint.IsHigh, CodePoint.IsLow, CodePoint.code]
  omega

/-- A lenient encoder keeps the text of an integer. -/
theorem encoded_writeInt (n : ℤ) : (writeInt n).map .encoded = writeInt n := by
  have hdigits : (decimalDigits n.natAbs).map CodePoint.encoded = decimalDigits n.natAbs := by
    rw [decimalDigits, List.map_map]
    rfl
  rw [writeInt, List.map_append, hdigits]
  by_cases hneg : n < 0
  · simp only [hneg, ↓reduceIte]
    rfl
  · simp only [hneg, ↓reduceIte]
    rfl

/-- A lenient encoder keeps joined texts apart. -/
theorem encoded_join (gap : Text) (texts : List Text) :
    (join gap texts).map .encoded = join (gap.map .encoded) (texts.map (List.map .encoded)) := by
  induction texts with
  | nil => rfl
  | cons text texts ih =>
    cases texts with
    | nil => rfl
    | cons text' texts =>
      rw [join, List.map_append, List.map_cons, List.map_append, ih]
      rfl

/-- A lenient encoder keeps space. -/
theorem encoded_gap (style : Style) : style.gap.map .encoded = style.gap := by
  have hspace : ∀ c, isSpace c = true → c.encoded = c := by
    intro c hc
    simp only [isSpace, Bool.or_eq_true, decide_eq_true_eq] at hc
    rcases hc with ((rfl | rfl) | rfl) | rfl <;> rfl
  rw [List.map_congr_left fun c hc => hspace c (style.gap_isSpace c hc), List.map_id']

variable {style : Style} {real : Double K → Text}

/-- The text of a string, leniently encoded, is that of the string whose characters have been replaced by
what the encoder makes of their escapes. -/
theorem encoded_writeString {f : CodePoint → CodePoint}
    (hescape : ∀ p, (style.escape p).map .encoded = style.escape (f p)) (s : Text) :
    (style.writeString s).map .encoded = style.writeString (s.map f) := by
  have hflat : (s.flatMap style.escape).map CodePoint.encoded = (s.map f).flatMap style.escape := by
    rw [List.map_flatMap, List.flatMap_map]
    exact List.flatMap_congr fun p _ => hescape p
  rw [writeString, writeString, List.map_cons, List.map_append, hflat]
  rfl

/-- A lenient encoder replaces strings in what a style sets, and nothing else. -/
structure Replaces (style : Style) (real : Double K → Text) (f : Text → Text) : Prop where
  string : ∀ s, (style.writeString s).map .encoded = style.writeString (f s)
  real : ∀ x, (real x).map .encoded = real x

variable {f : Text → Text}

mutual

/-- The text of a value, leniently encoded, is that of the value with its strings replaced. -/
theorem Replaces.write (h : style.Replaces real f) : ∀ v : Json K,
    (style.write real v).map .encoded = style.write real (v.mapText f)
  | .null => rfl
  | .bool true => rfl
  | .bool false => rfl
  | .int n => encoded_writeInt n
  | .real x => h.real x
  | .str s => h.string s
  | .arr items => by
    rw [Style.write, Json.mapText, Style.write, List.map_cons, List.map_append, encoded_join,
      encoded_gap, h.writeItems items]
    rfl
  | .obj members => by
    rw [Style.write, Json.mapText, Style.write, List.map_cons, List.map_append, encoded_join,
      encoded_gap, h.writeFields members]
    rfl

/-- So are the texts of items. -/
theorem Replaces.writeItems (h : style.Replaces real f) : ∀ items : List (Json K),
    (style.writeItems real items).map (List.map .encoded) =
      style.writeItems real (Json.mapTextItems f items)
  | [] => rfl
  | v :: rest => by
    rw [Style.writeItems, List.map_cons, h.write v, h.writeItems rest]
    rfl

/-- So are the texts of members. -/
theorem Replaces.writeFields (h : style.Replaces real f) : ∀ members : List (Text × Json K),
    (style.writeFields real members).map (List.map .encoded) =
      style.writeFields real (Json.mapTextMembers f members)
  | [] => rfl
  | (name, v) :: rest => by
    rw [Style.writeFields, List.map_cons, List.map_append, List.map_cons, List.map_append, h.string,
      encoded_gap, h.write v, h.writeFields rest]
    rfl

end

/-- The text of a value, leniently encoded, is that of the leniently encoded value. -/
theorem LeavesSurrogates.write (hstyle : style.LeavesSurrogates)
    (hreal : ∀ x, (real x).map .encoded = real x) (v : Json K) :
    (style.write real v).map .encoded = style.write real v.encodable := by
  have hreplaces : style.Replaces real fun s => s.encodable := by
    refine ⟨fun s => ?_, hreal⟩
    rw [encoded_writeString hstyle, Text.ofString_encodable]
  exact hreplaces.write v

/-- The text of a value without surrogates is encoded as it is. -/
theorem Encoded.write (hstyle : style.Encoded) (hreal : ∀ x, (real x).map .encoded = real x)
    (v : Json K) : (style.write real v).map .encoded = style.write real v := by
  have hreplaces : style.Replaces real id := by
    refine ⟨fun s => ?_, hreal⟩
    rw [encoded_writeString (f := id) hstyle, List.map_id, id_eq]
  rw [hreplaces.write, Json.mapText_id]

end Style

end ApiFirewall.Wire.JsonText
