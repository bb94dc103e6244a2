import ApiFirewall.Wire.JsonWriter

/-!
# Writing JSON texts over several lines

An indenting writer sets every item and every member on a line of its own, one level deeper than the
brackets around them, and empty brackets together. What it sets is read back as the value, if the
texts of the doubles in it are read back.
-/

namespace ApiFirewall.Wire.JsonText

/-- A new line at a level of nesting. -/
def newline (indent level : ℕ) : Text := '\n' :: List.replicate (indent * level) ' '

/-- Texts on lines of their own, one level deeper than the brackets around them. -/
def bracket (indent level : ℕ) (opening closing : CodePoint) (texts : List Text) : Text :=
  if texts.isEmpty then [opening, closing]
  else opening :: (newline indent (level + 1) ++ (join (newline indent (level + 1)) texts ++
    (newline indent level ++ [closing])))

/-- A new line is space. -/
theorem newline_isSpace (indent level : ℕ) : ∀ c ∈ newline indent level, isSpace c = true := by
  intro c hc
  rcases List.mem_cons.mp hc with rfl | hc
  · rfl
  · rw [List.eq_of_mem_replicate hc]
    rfl

section Brackets

variable {α : Type} {item : Reader α} {indent level : ℕ} {opening closing : CodePoint}
  {texts : List Text} {values : List α}

/-- What stands after an opening bracket is read up to the closing one. -/
theorem scanList_bracket (hclosing : closing = ']' ∨ closing = '}')
    (h : List.Forall₂ (Takes item) texts values) {fuel : ℕ} (hfuel : texts.length ≤ fuel)
    (rest : Text) :
    ∃ cs, bracket indent level opening closing texts ++ rest = opening :: cs ∧
      scanList item closing fuel cs = some (values, rest) := by
  by_cases hempty : texts = []
  · subst hempty
    cases h
    exact ⟨closing :: rest, rfl, scanList_join (newline_isSpace indent level) hclosing .nil hfuel rest⟩
  · have htexts : texts.isEmpty = false := List.isEmpty_eq_false_iff.mpr hempty
    have htail : skipSpace (newline indent level ++ closing :: rest) = closing :: rest := by
      have hskip := (delimited_close (hclosing.imp_right .inl) rest).2
      rw [skipSpace, List.dropWhile_append_of_pos (newline_isSpace indent level)]
      exact hskip
    have hdelimited : Delimited (newline indent level ++ closing :: rest) :=
      delimited_cons _ (by decide)
    have hread := scanList_spread (newline_isSpace indent (level + 1)) hclosing h hempty hfuel
      (newline_isSpace indent (level + 1)) hdelimited htail
    refine ⟨_, ?_, hread⟩
    simp [bracket, htexts]

/-- Brackets take characters. -/
theorem length_bracket_pos : 0 < (bracket indent level opening closing texts).length := by
  unfold bracket
  split <;> exact Nat.succ_pos _

/-- Brackets are the ends of what they are around. -/
theorem bracket_ends : (bracket indent level opening closing texts).head? = some opening ∧
    (bracket indent level opening closing texts).getLast? = some closing := by
  unfold bracket
  split
  · exact ⟨rfl, rfl⟩
  · refine ⟨rfl, ?_⟩
    rw [← List.append_assoc, ← List.append_assoc, ← List.cons_append, List.getLast?_concat]

/-- Every text in brackets takes its characters, and there are no more texts than characters. -/
theorem length_bracket_le :
    (∀ text ∈ texts, text.length + 1 ≤ (bracket indent level opening closing texts).length) ∧
      ((∀ text ∈ texts, text ≠ []) →
        texts.length + 1 ≤ (bracket indent level opening closing texts).length) := by
  obtain ⟨hlength, hcount⟩ := @length_join_le (newline indent (level + 1)) texts
  by_cases hempty : texts = []
  · subst hempty
    simp [bracket]
  · have htexts : texts.isEmpty = false := List.isEmpty_eq_false_iff.mpr hempty
    have hsize : (join (newline indent (level + 1)) texts).length + 1 ≤
        (bracket indent level opening closing texts).length := by
      simp only [bracket, htexts, Bool.false_eq_true, if_false, List.length_cons, List.length_append]
      omega
    constructor
    · intro text htext
      have := hlength text htext
      omega
    · intro hne
      have := hcount hne
      omega

end Brackets

namespace Style

variable {K : Type} (style : Style) (real : Double K → Text) (indent : ℕ)

mutual

/-- The text of a value over several lines, given the texts of doubles. -/
def writeIndented : ℕ → Json K → Text
  | _, .null => style.write real .null
  | _, .bool b => style.write real (.bool b)
  | _, .int n => style.write real (.int n)
  | _, .real x => style.write real (.real x)
  | _, .str s => style.write real (.str s)
  | level, .arr items => bracket indent level '[' ']' (writeIndentedItems (level + 1) items)
  | level, .obj members => bracket indent level '{' '}' (writeIndentedFields (level + 1) members)

/-- The texts of items. -/
def writeIndentedItems : ℕ → List (Json K) → List Text
  | _, [] => []
  | level, v :: rest => writeIndented level v :: writeIndentedItems level rest

/-- The texts of members. -/
def writeIndentedFields : ℕ → List (Text × Json K) → List Text
  | _, [] => []
  | level, (name, v) :: rest =>
    (style.writeString name ++ .scalar ':' :: (style.gap ++ writeIndented level v)) ::
      writeIndentedFields level rest

end

/-- Items are set one by one. -/
theorem writeIndentedItems_eq (level : ℕ) (items : List (Json K)) :
    style.writeIndentedItems real indent level items =
      items.map (style.writeIndented real indent level) := by
  induction items with
  | nil => rfl
  | cons v rest ih => rw [writeIndentedItems, ih, List.map_cons]

/-- Members are set one by one. -/
theorem writeIndentedFields_eq (level : ℕ) (members : List (Text × Json K)) :
    style.writeIndentedFields real indent level members = members.map fun m =>
      style.writeString m.1 ++ .scalar ':' :: (style.gap ++ style.writeIndented real indent level m.2) := by
  induction members with
  | nil => rfl
  | cons m rest ih => rw [writeIndentedFields, ih, List.map_cons]

variable {style real indent} {d : Dialect K} {P : Double K → Prop} {v : Json K}

/-- The text of an array over several lines is read as the array, if the texts of its items are read as
the items. -/
theorem takes_arr_bracket {level fuel : ℕ} {items : List (Json K)} {texts : List Text}
    (h : List.Forall₂ (Takes (scanValue d fuel)) texts items) (hfuel : texts.length ≤ fuel) :
    Takes (scanValue d (fuel + 1)) (bracket indent level '[' ']' texts) (.arr items) := by
  constructor
  · obtain ⟨cs, htext, -⟩ := scanList_bracket (.inl rfl) h hfuel []
    rw [List.append_nil] at htext
    exact ⟨'[', cs, htext, by decide⟩
  · intro rest _
    obtain ⟨cs, htext, hread⟩ := scanList_bracket (.inl rfl) h hfuel rest
    rw [htext, scanValue, if_neg (by decide), if_pos rfl, hread, Option.map_some]

/-- The text of an object over several lines is read as the object, if the texts of its members are
read as the members. -/
theorem takes_obj_bracket {level fuel : ℕ} {members : List (Text × Json K)}
    {texts : List Text}
    (h : List.Forall₂ (Takes (scanField (scanValue d fuel))) texts members)
    (hfuel : texts.length ≤ fuel) :
    Takes (scanValue d (fuel + 1)) (bracket indent level '{' '}' texts) (.obj members) := by
  constructor
  · obtain ⟨cs, htext, -⟩ := scanList_bracket (.inr rfl) h hfuel []
    rw [List.append_nil] at htext
    exact ⟨'{', cs, htext, by decide⟩
  · intro rest _
    obtain ⟨cs, htext, hread⟩ := scanList_bracket (.inr rfl) h hfuel rest
    rw [htext, scanValue, if_pos rfl, hread, Option.map_some]

/-- The text of a value over several lines is read as the value, with any bound on the nesting that
is not below its length. -/
theorem takes_writeIndented (hreal : ∀ x, P x → Legible d (real x) (.real x))
    (h : Throughout P Text.Unpaired v) {level fuel : ℕ}
    (hfuel : (style.writeIndented real indent level v).length ≤ fuel) :
    Takes (scanValue d fuel) (style.writeIndented real indent level v) v := by
  induction h generalizing level fuel with
  | null =>
    rw [writeIndented] at hfuel ⊢
    exact takes_write hreal .null hfuel
  | bool b =>
    rw [writeIndented] at hfuel ⊢
    exact takes_write hreal (.bool b) hfuel
  | int n =>
    rw [writeIndented] at hfuel ⊢
    exact takes_write hreal (.int n) hfuel
  | real hx =>
    rw [writeIndented] at hfuel ⊢
    exact takes_write hreal (.real hx) hfuel
  | str hs =>
    rw [writeIndented] at hfuel ⊢
    exact takes_write hreal (.str hs) hfuel
  | @arr items _ ih =>
    rw [writeIndented, writeIndentedItems_eq] at hfuel ⊢
    cases fuel with
    | zero => exact absurd hfuel (Nat.not_le.mpr length_bracket_pos)
    | succ fuel =>
      obtain ⟨hshort, hcount⟩ := @length_bracket_le indent level '[' ']'
        (items.map (style.writeIndented real indent (level + 1)))
      have hitems : List.Forall₂ (Takes (scanValue d fuel))
          (items.map (style.writeIndented real indent (level + 1))) items := by
        rw [List.forall₂_map_left_iff, List.forall₂_same]
        intro v hv
        have hlength := hshort _ (List.mem_map_of_mem hv)
        exact ih v hv (by omega)
      have htexts := hcount fun text htext => ne_nil_of_takes hitems htext
      exact takes_arr_bracket hitems (by omega)
  | @obj members hnames _ ih =>
    rw [writeIndented, writeIndentedFields_eq] at hfuel ⊢
    cases fuel with
    | zero => exact absurd hfuel (Nat.not_le.mpr length_bracket_pos)
    | succ fuel =>
      obtain ⟨hshort, hcount⟩ := @length_bracket_le indent level '{' '}'
        (members.map fun m => style.writeString m.1 ++
          .scalar ':' :: (style.gap ++ style.writeIndented real indent (level + 1) m.2))
      have hmembers : List.Forall₂ (Takes (scanField (scanValue d fuel)))
          (members.map fun m => style.writeString m.1 ++
            .scalar ':' :: (style.gap ++ style.writeIndented real indent (level + 1) m.2)) members := by
        rw [List.forall₂_map_left_iff, List.forall₂_same]
        intro m hm
        have hlength := hshort _ (List.mem_map_of_mem hm)
        simp only [List.length_append, List.length_cons] at hlength
        exact takes_fieldText (hnames m hm) (ih m hm (by omega))
      have htexts := hcount fun text htext => ne_nil_of_takes hmembers htext
      exact takes_obj_bracket hmembers (by omega)

/-- Reading what was written over several lines yields the value, if the texts of its doubles are read
back. -/
theorem readDocument_writeIndented (hreal : ∀ x, P x → Legible d (real x) (.real x))
    (h : Throughout P Text.Unpaired v) (level : ℕ) :
    readDocument d (style.writeIndented real indent level v) = some v := by
  have htakes := takes_writeIndented hreal h (style.writeIndented real indent level v).length.le_refl
  have hskip : skipSpace (style.writeIndented real indent level v) =
      style.writeIndented real indent level v := by
    simpa using skipSpace_begins htakes.begins []
  have hreads := htakes.reads [] delimited_nil
  rw [List.append_nil] at hreads
  rw [readDocument, readValue, hskip, hreads]
  rfl

/-- The text of an object over several lines goes from brace to brace. -/
theorem braces_writeIndented (level : ℕ) (members : List (Text × Json K)) :
    (style.writeIndented real indent level (.obj members)).head? = some (.scalar '{') ∧
      (style.writeIndented real indent level (.obj members)).getLast? = some (.scalar '}') := by
  rw [writeIndented]
  exact bracket_ends

end Style

end ApiFirewall.Wire.JsonText
