import ApiFirewall.Wire.Json
import Mathlib.Data.List.Perm.Basic

/-!
# The order of members, and their names

A writer may set the members of an object in any order. If their names are distinct, a reader that asks
for members by name gets the same answers. So does a reader that asks for new names, if different names
have been replaced by different ones.
-/

namespace ApiFirewall.Wire

/-- Dictionaries with the same entries have the same values. -/
theorem Dict.lookup_of_perm {α : Type} {d e : Dict α} (h : d.entries.Perm e.entries) :
    d.lookup = e.lookup := by
  funext name
  apply Option.ext
  intro a
  rw [Dict.lookup_eq_some_iff, Dict.lookup_eq_some_iff, h.mem_iff]

/-- Values are set before or after a function is applied to them. -/
theorem Dict.ofMembers_map {α β : Type} (g : α → β) (members : List (Text × α)) :
    ofMembers (members.map fun m => (m.1, g m.2)) = (ofMembers members).map fun _ => g := by
  have hinsert : ∀ (d : Dict α) (name : Text) (a : α),
      (d.map fun _ => g).insert name (g a) = (d.insert name a).map fun _ => g := by
    intro d name a
    apply Dict.ext
    have hnames : (d.entries.map fun e => (e.1, g e.2)).map Prod.fst = d.entries.map Prod.fst := by
      rw [List.map_map]
      rfl
    simp only [insert, insertEntry, map_entries, hnames]
    split
    · rw [List.map_map, List.map_map]
      refine List.map_congr_left fun e _ => ?_
      by_cases he : e.1 = name <;> simp [he]
    · rw [List.map_append]
      rfl
  have hfold : ∀ (members : List (Text × α)) (d : Dict α),
      (members.map fun m => (m.1, g m.2)).foldl (fun d m => d.insert m.1 m.2) (d.map fun _ => g) =
        (members.foldl (fun d m => d.insert m.1 m.2) d).map fun _ => g := by
    intro members
    induction members with
    | nil => exact fun _ => rfl
    | cons m members ih =>
      intro d
      rw [List.map_cons, List.foldl_cons, List.foldl_cons, hinsert, ih]
  exact hfold members empty

/-- Names that stay distinct are replaced one by one. -/
theorem Dict.rename_entries {α : Type} {f : Text → Text} {d : Dict α}
    (h : ∀ name ∈ d.entries.map Prod.fst, ∀ name' ∈ d.entries.map Prod.fst,
      f name = f name' → name = name') :
    (d.rename f).entries = d.entries.map fun e => (f e.1, e.2) := by
  have hnodup : ((d.entries.map fun e => (f e.1, e.2)).map Prod.fst).Nodup := by
    rw [List.map_map]
    have hcomp : (Prod.fst ∘ fun e : Text × α => (f e.1, e.2)) = f ∘ Prod.fst := rfl
    rw [hcomp, ← List.map_map]
    exact d.nodup.map_on h
  exact congrArg Dict.entries (Dict.ofMembers_entries ⟨_, hnodup⟩)

/-- A name that has been replaced, and with it every other one, has the value that it had. -/
theorem Dict.lookup_of_renamed {α : Type} {f : Text → Text} {d d' : Dict α} {name : Text}
    (hentries : d'.entries = d.entries.map fun e => (f e.1, e.2))
    (h : ∀ name' ∈ d.entries.map Prod.fst, f name' = f name → name' = name) :
    d'.lookup (f name) = d.lookup name := by
  apply Option.ext
  intro a
  rw [Dict.lookup_eq_some_iff, Dict.lookup_eq_some_iff, hentries]
  constructor
  · intro hmem
    obtain ⟨e, he, heq⟩ := List.mem_map.mp hmem
    obtain ⟨hname, rfl⟩ := Prod.mk.inj heq
    rw [← h e.1 (List.mem_map_of_mem he) hname]
    exact he
  · exact fun hmem => List.mem_map.mpr ⟨(name, a), hmem, rfl⟩

/-- A reader that asks for another name does not see the last member. -/
theorem member_concat_of_ne {K : Type} (members : List (Text × Json K)) {name name' : Text}
    (v : Json K) (h : name' ≠ name) : member (members ++ [(name, v)]) name' = member members name' := by
  unfold member
  rw [List.reverse_concat, List.find?_cons_of_neg (by simpa using h.symm)]

/-- A member with a name of its own is the last one with that name. -/
theorem member_eq_some_iff {K : Type} {members : List (Text × Json K)}
    (hnodup : (members.map Prod.fst).Nodup) {name : Text} {v : Json K} :
    member members name = some v ↔ (name, v) ∈ members := by
  have hreverse : (members.reverse.map Prod.fst).Nodup := by
    rw [List.map_reverse]
    exact List.nodup_reverse.mpr hnodup
  have hlookup : member members name = Dict.lookup ⟨members.reverse, hreverse⟩ name := rfl
  rw [hlookup, Dict.lookup_eq_some_iff]
  exact List.mem_reverse

/-- Members with distinct names are found in any order. -/
theorem member_of_perm {K : Type} {members members' : List (Text × Json K)}
    (hnodup : (members.map Prod.fst).Nodup) (h : members'.Perm members) :
    member members' = member members := by
  have hnodup' : (members'.map Prod.fst).Nodup := (h.map Prod.fst).nodup_iff.mpr hnodup
  funext name
  apply Option.ext
  intro v
  rw [member_eq_some_iff hnodup', member_eq_some_iff hnodup, h.mem_iff]

end ApiFirewall.Wire
