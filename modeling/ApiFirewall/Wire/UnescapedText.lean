import ApiFirewall.Wire.JsonWriter

/-!
# Texts that are set without escapes

A writer that puts a text between quotation marks as it is, sets what a reader takes for that text
only if every character of it stands for itself. A quotation mark ends the string early and what
follows it can set members of its own; a reverse solidus takes the characters after it, up to the
mark that was to end the string.
-/

namespace ApiFirewall.Wire.JsonText

/-- The character stands for itself in a string. -/
def Plain (c : CodePoint) : Prop := c ≠ '"' ∧ c ≠ '\\' ∧ 32 ≤ c.code

instance : DecidablePred Plain := fun c =>
  inferInstanceAs (Decidable (c ≠ '"' ∧ c ≠ '\\' ∧ 32 ≤ c.code))

/-- Only a reverse solidus takes characters after it. -/
theorem scanChar_eq_some {c : CodePoint} {cs : Text} {r : CodePoint × ℕ} (h : scanChar c cs = some r)
    (hquote : c ≠ '"') : (Plain c ∧ r = (c, 0)) ∨ 0 < r.2 := by
  unfold scanChar at h
  split at h
  · right
    split at h
    · obtain ⟨unit, -, rfl⟩ := Option.map_eq_some_iff.mp h
      exact Nat.add_pos_left (by decide) _
    · obtain ⟨char, -, rfl⟩ := Option.map_eq_some_iff.mp h
      exact Nat.one_pos
    · cases h
  · rename_i hbackslash
    split at h
    · cases h
    · rename_i hcontrol
      exact .inl ⟨⟨hquote, hbackslash, Nat.not_lt.mp hcontrol⟩, (Option.some.inj h).symm⟩

/-- A string takes a character for each that it has, those that are left out, and the mark that
ends it. -/
theorem length_of_scanString {cs : Text} : ∀ {skip : ℕ} {s rest : Text},
    scanString skip cs = some (s, rest) → s.length + rest.length + skip + 1 ≤ cs.length := by
  induction cs with
  | nil =>
    intro skip s rest h
    cases skip <;> simp [scanString] at h
  | cons c cs ih =>
    intro skip s rest h
    rw [List.length_cons]
    cases skip with
    | succ skip =>
      have := ih h
      omega
    | zero =>
      simp only [scanString] at h
      split at h
      · obtain ⟨rfl, rfl⟩ := Prod.mk.inj (Option.some.inj h)
        simp
      · obtain ⟨r, -, h⟩ := Option.bind_eq_some_iff.mp h
        obtain ⟨t, ht, heq⟩ := Option.map_eq_some_iff.mp h
        obtain ⟨rfl, rfl⟩ := Prod.mk.inj heq
        have := ih ht
        rw [List.length_cons]
        omega

/-- Plain characters are read as they are, up to the mark that ends the string. -/
theorem scanString_plain {cs : Text} (h : ∀ c ∈ cs, Plain c) (rest : Text) :
    scanString 0 (cs ++ .scalar '"' :: rest) = some (cs, rest) := by
  induction cs with
  | nil => rfl
  | cons c cs ih =>
    obtain ⟨hc, hcs⟩ := List.forall_mem_cons.mp h
    rw [List.cons_append, scanString_self hc.1 hc.2.1 hc.2.2, ih hcs, Option.map_some]

/-- Characters are plain if they are read as they are and what is left is no less than what
follows the string. -/
theorem plain_of_scanString {cs rest rest' : Text}
    (h : scanString 0 (cs ++ .scalar '"' :: rest) = some (cs, rest')) (hle : rest.length ≤ rest'.length) :
    ∀ c ∈ cs, Plain c := by
  induction cs with
  | nil => simp
  | cons c cs ih =>
    rw [List.cons_append, scanString] at h
    split at h
    · simp at h
    · rename_i hquote
      obtain ⟨r, hchar, h⟩ := Option.bind_eq_some_iff.mp h
      obtain ⟨⟨s, rest₁⟩, hs, heq⟩ := Option.map_eq_some_iff.mp h
      obtain ⟨hcons, hrest⟩ := Prod.mk.inj heq
      obtain ⟨-, rfl⟩ := List.cons.inj hcons
      dsimp only at hs hrest
      subst hrest
      rcases scanChar_eq_some hchar hquote with ⟨hplain, rfl⟩ | hskip
      · exact List.forall_mem_cons.mpr ⟨hplain, ih hs⟩
      · -- what an escape takes is missing at the end
        have hlength := length_of_scanString hs
        rw [List.length_append, List.length_cons] at hlength
        omega

/-- An object with one member, whose text is set without escapes. -/
def unescapedMember (name text : Text) : Text :=
  '{' :: '"' :: (name ++ .scalar '"' :: .scalar ':' :: .scalar '"' ::
    (text ++ [.scalar '"', .scalar '}']))

variable {K : Type} {d : Dialect K} {name text : Text}

/-- The member is read as the text up to the mark that ends it, and more members may follow. -/
theorem scanField_unescaped (hname : ∀ c ∈ name, Plain c) (fuel : ℕ) (rest : Text) :
    scanField (scanValue d (fuel + 1))
        (.scalar '"' :: (name ++ .scalar '"' :: .scalar ':' :: .scalar '"' :: rest)) =
      (scanString 0 rest).map fun r =>
        ((name, .str r.1), r.2) := by
  have hcolon : ∀ cs, skipSpace (.scalar ':' :: cs) = .scalar ':' :: cs := fun _ => rfl
  have hquote : ∀ cs, skipSpace (.scalar '"' :: cs) = .scalar '"' :: cs := fun _ => rfl
  rw [scanField, if_pos rfl, scanString_plain hname, Option.bind_some]
  dsimp only
  rw [hcolon]
  dsimp only
  rw [if_pos rfl, hquote, scanValue, if_neg (by decide), if_neg (by decide), if_pos rfl,
    Option.map_map]
  rfl

/-- Such an object is read as the object that has the text exactly if the text is plain. -/
theorem readDocument_unescaped_iff (hname : ∀ c ∈ name, Plain c) :
    readDocument d (unescapedMember name text) =
        some (.obj [(name, .str text)]) ↔ ∀ c ∈ text, Plain c := by
  obtain ⟨fuel, hfuel⟩ : ∃ fuel, (unescapedMember name text).length = fuel + 3 :=
    ⟨name.length + text.length + 4, by simp [unescapedMember]; omega⟩
  have hread : readDocument d (unescapedMember name text) =
      ((scanItems (scanField (scanValue d (fuel + 2))) '}' (fuel + 2)
        (.scalar '"' :: (name ++ .scalar '"' :: .scalar ':' :: .scalar '"' ::
          (text ++ [.scalar '"', .scalar '}'])))).map
          fun r => (Json.obj r.1, r.2)).bind
            fun r => if (skipSpace r.2).isEmpty then some r.1 else none := by
    have hskip : skipSpace (unescapedMember name text) = unescapedMember name text := rfl
    rw [readDocument, readValue, hskip, hfuel, unescapedMember, scanValue, if_pos rfl]
    rfl
  rw [hread, scanItems, scanField_unescaped hname]
  constructor
  · intro h
    obtain ⟨r, hr, hdoc⟩ := Option.bind_eq_some_iff.mp h
    obtain ⟨⟨members, after⟩, hitems, rfl⟩ := Option.map_eq_some_iff.mp hr
    split at hdoc
    · obtain ⟨⟨field, rest'⟩, hfield, hitems⟩ := Option.bind_eq_some_iff.mp hitems
      obtain ⟨⟨s, rest''⟩, hs, heq⟩ := Option.map_eq_some_iff.mp hfield
      obtain ⟨rfl, rfl⟩ := Prod.mk.inj heq
      obtain rfl := Json.obj.inj (Option.some.inj hdoc)
      dsimp only at hs hitems
      -- what is left begins with the bracket or with a comma, so it is not empty
      have hrest : [CodePoint.scalar '}'].length ≤ rest''.length := by
        cases rest'' with
        | nil => simp [skipSpace] at hitems
        | cons c cs => simp
      have hhead : s = text := by
        split at hitems
        · simp at hitems
        · split at hitems
          · simp at hitems
            exact hitems.1
          · split at hitems
            · obtain ⟨t, -, heq⟩ := Option.map_eq_some_iff.mp hitems
              simpa using (List.cons.inj (Prod.mk.inj heq).1).1
            · simp at hitems
      obtain rfl := hhead
      exact plain_of_scanString hs hrest
    · simp at hdoc
  · intro h
    rw [scanString_plain h]
    rfl

end ApiFirewall.Wire.JsonText
