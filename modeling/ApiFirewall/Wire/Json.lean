import ApiFirewall.Wire.CodePoint
import ApiFirewall.Wire.Double
import Mathlib.Data.List.Nodup

/-!
# JSON values and dictionaries

A JSON value as a reader delivers it: integers stay exact, other numbers are doubles, and an
object is the list of its members in text order, which may repeat a name. Readers keep the last
member of a name; a dictionary is what they keep, so its names are distinct by construction.
-/

namespace ApiFirewall.Wire

/-- A value read from a JSON text. -/
inductive Json (K : Type) where
  | null
  | bool (b : Bool)
  | int (n : ℤ)
  | real (x : Double K)
  | str (s : Text)
  | arr (items : List (Json K))
  | obj (members : List (Text × Json K))

/-- A finite map from names, with its entries in a fixed order. -/
structure Dict (α : Type) where
  entries : List (Text × α)
  nodup : (entries.map Prod.fst).Nodup
  deriving DecidableEq, Repr

namespace Dict

variable {α β : Type}

@[ext] theorem ext {d e : Dict α} (h : d.entries = e.entries) : d = e := by
  cases d
  cases e
  cases h
  rfl

/-- The dictionary without entries. -/
def empty : Dict α := ⟨[], by simp⟩

/-- The value of a name. -/
def lookup (d : Dict α) (name : Text) : Option α :=
  (d.entries.find? fun e => e.1 = name).map Prod.snd

/-- The number of names. -/
def size (d : Dict α) : ℕ := d.entries.length

/-- Entries with one value replaced, or with a new entry at the end. -/
def insertEntry (entries : List (Text × α)) (name : Text) (a : α) : List (Text × α) :=
  if name ∈ entries.map Prod.fst then entries.map fun e => if e.1 = name then (name, a) else e
  else entries ++ [(name, a)]

/-- Replacing a value keeps the names; a new entry has a new name. -/
theorem nodup_insertEntry {entries : List (Text × α)} (h : (entries.map Prod.fst).Nodup)
    (name : Text) (a : α) : ((insertEntry entries name a).map Prod.fst).Nodup := by
  unfold insertEntry
  split
  · have hnames : (entries.map fun e => if e.1 = name then (name, a) else e).map Prod.fst =
        entries.map Prod.fst := by
      rw [List.map_map]
      refine List.map_congr_left fun e _ => ?_
      by_cases he : e.1 = name <;> simp [he]
    rw [hnames]
    exact h
  · rename_i hnew
    simp only [List.map_append, List.map_cons, List.map_nil]
    exact List.nodup_append.mpr ⟨h, by simp, by
      intro x hx y hy hxy
      obtain rfl := List.mem_singleton.mp hy
      exact hnew (hxy ▸ hx)⟩

/-- Set the value of a name. -/
def insert (d : Dict α) (name : Text) (a : α) : Dict α :=
  ⟨insertEntry d.entries name a, nodup_insertEntry d.nodup name a⟩

/-- The members of an object, the last one of each name. -/
def ofMembers (members : List (Text × α)) : Dict α :=
  members.foldl (fun d m => d.insert m.1 m.2) empty

/-- Apply a function to every value. -/
def map (f : Text → α → β) (d : Dict α) : Dict β where
  entries := d.entries.map fun e => (e.1, f e.1 e.2)
  nodup := by
    rw [List.map_map]
    exact d.nodup

/-- Keep the values on which a partial function is defined. -/
def filterMap (f : α → Option β) (d : Dict α) : Dict β where
  entries := d.entries.filterMap fun e => (f e.2).map fun b => (e.1, b)
  nodup := by
    have hsub : ∀ entries : List (Text × α),
        ((entries.filterMap fun e => (f e.2).map fun b => (e.1, b)).map Prod.fst).Sublist
          (entries.map Prod.fst) := by
      intro entries
      induction entries with
      | nil => exact .slnil
      | cons e rest ih =>
        cases hb : f e.2 with
        | none => simpa [hb] using ih.cons e.1
        | some b => simpa [hb] using ih
    exact d.nodup.sublist (hsub d.entries)

/-- Apply a partial function to every value, if it is defined on all of them. -/
def traverse (f : α → Option β) (d : Dict α) : Option (Dict β) :=
  if d.entries.all fun e => (f e.2).isSome then some (d.filterMap f) else none

@[simp] theorem map_entries (f : Text → α → β) (d : Dict α) :
    (d.map f).entries = d.entries.map fun e => (e.1, f e.1 e.2) := rfl

/-- Setting new names one after the other appends their entries. -/
private theorem foldl_insert_entries (members : List (Text × α)) (d : Dict α)
    (h : ((d.entries ++ members).map Prod.fst).Nodup) :
    (members.foldl (fun d m => d.insert m.1 m.2) d).entries = d.entries ++ members := by
  induction members generalizing d with
  | nil => simp
  | cons m rest ih =>
    have hnew : m.1 ∉ d.entries.map Prod.fst := by
      intro hmem
      rw [List.map_append, List.map_cons] at h
      exact (List.nodup_append.mp h).2.2 _ hmem _ (List.mem_cons_self ..) rfl
    have hins : (d.insert m.1 m.2).entries = d.entries ++ [m] := by
      simp [insert, insertEntry, hnew]
    rw [List.foldl_cons, ih (d.insert m.1 m.2) (by rw [hins]; simpa using h), hins]
    simp

/-- Reading back the entries of a dictionary yields the dictionary. -/
theorem ofMembers_entries (d : Dict α) : ofMembers d.entries = d :=
  Dict.ext (foldl_insert_entries d.entries empty (by simpa [empty] using d.nodup))

/-- Setting one name leaves the other names as they are. -/
theorem lookup_insert_of_ne (d : Dict α) {name other : Text} (h : name ≠ other) (a : α) :
    (d.insert name a).lookup other = d.lookup other := by
  have hreplace : ∀ entries : List (Text × α),
      (entries.map fun e => if e.1 = name then (name, a) else e).find? (fun e => e.1 = other) =
        entries.find? fun e => e.1 = other := by
    intro entries
    induction entries with
    | nil => rfl
    | cons e rest ih =>
      rw [List.map_cons, List.find?_cons, List.find?_cons, ih]
      by_cases he : e.1 = name
      · simp [he, h]
      · simp [he]
  unfold lookup insert insertEntry
  dsimp only
  split
  · rw [hreplace]
  · simp [List.find?_append, h]

/-- A name that no member has is not in the dictionary. -/
theorem lookup_ofMembers_of_ne {members : List (Text × α)} {name : Text}
    (h : ∀ m ∈ members, m.1 ≠ name) : (ofMembers members).lookup name = none := by
  have hfold : ∀ (members : List (Text × α)) (d : Dict α), (∀ m ∈ members, m.1 ≠ name) →
      (members.foldl (fun d m => d.insert m.1 m.2) d).lookup name = d.lookup name := by
    intro members
    induction members with
    | nil => exact fun d _ => rfl
    | cons m rest ih =>
      intro d hne
      obtain ⟨hm, hrest⟩ := List.forall_mem_cons.mp hne
      rw [List.foldl_cons, ih _ hrest, lookup_insert_of_ne d hm]
  exact hfold members empty h

/-- Values are looked up before or after a function is applied to them. -/
theorem lookup_map (f : Text → α → β) (d : Dict α) (name : Text) :
    (d.map f).lookup name = (d.lookup name).map (f name) := by
  have hentries : ∀ entries : List (Text × α),
      ((entries.map fun e => (e.1, f e.1 e.2)).find? fun e => e.1 = name).map Prod.snd =
        ((entries.find? fun e => e.1 = name).map Prod.snd).map (f name) := by
    intro entries
    induction entries with
    | nil => rfl
    | cons e rest ih =>
      rw [List.map_cons, List.find?_cons, List.find?_cons]
      by_cases he : e.1 = name
      · simp [he]
      · simp only [he, decide_false, ih]
  exact hentries d.entries

/-- The values of names are the entries. -/
theorem lookup_eq_some_iff {d : Dict α} {name : Text} {a : α} :
    d.lookup name = some a ↔ (name, a) ∈ d.entries := by
  constructor
  · intro h
    obtain ⟨e, hfind, rfl⟩ := Option.map_eq_some_iff.mp h
    obtain rfl : e.1 = name := by simpa using List.find?_some hfind
    exact List.mem_of_find?_eq_some hfind
  · intro h
    obtain ⟨e, hfind⟩ := Option.isSome_iff_exists.mp
      (List.find?_isSome.mpr ⟨(name, a), h, by simp⟩ :
        (d.entries.find? fun e => e.1 = name).isSome = true)
    have hname : e.1 = name := by simpa using List.find?_some hfind
    have heq : e = (name, a) :=
      List.inj_on_of_nodup_map d.nodup (List.mem_of_find?_eq_some hfind) h hname
    rw [lookup, hfind, heq]
    rfl

/-- A name has a value among the kept ones exactly if the function is defined on its value. -/
theorem lookup_filterMap (f : α → Option β) (d : Dict α) (name : Text) :
    (d.filterMap f).lookup name = (d.lookup name).bind f := by
  apply Option.ext
  intro b
  rw [lookup_eq_some_iff, Option.bind_eq_some_iff]
  constructor
  · intro h
    obtain ⟨e, he, hvalue⟩ := List.mem_filterMap.mp h
    obtain ⟨b', hb', heq⟩ := Option.map_eq_some_iff.mp hvalue
    obtain ⟨rfl, rfl⟩ := Prod.mk.inj heq
    exact ⟨e.2, lookup_eq_some_iff.mpr he, hb'⟩
  · rintro ⟨a, ha, hb⟩
    exact List.mem_filterMap.mpr ⟨(name, a), lookup_eq_some_iff.mp ha, by simp [hb]⟩

/-- A name that was set has its new value. -/
theorem lookup_insert_self (d : Dict α) (name : Text) (a : α) :
    (d.insert name a).lookup name = some a := by
  apply lookup_eq_some_iff.mpr
  unfold insert insertEntry
  dsimp only
  split
  · rename_i hold
    obtain ⟨e, he, rfl⟩ := List.mem_map.mp hold
    exact List.mem_map.mpr ⟨e, he, if_pos rfl⟩
  · exact List.mem_append_right _ (List.mem_singleton_self _)

/-- A function that inverts another one recovers the dictionary it was applied to. -/
theorem traverse_map {f : β → Option α} {g : Text → α → β} (d : Dict α)
    (h : ∀ e ∈ d.entries, f (g e.1 e.2) = some e.2) : (d.map g).traverse f = some d := by
  have hall : (d.map g).entries.all (fun e => (f e.2).isSome) = true := by
    rw [map_entries, List.all_map, List.all_eq_true]
    intro e he
    simp [h e he]
  have hkeep : ∀ entries : List (Text × α), (∀ e ∈ entries, f (g e.1 e.2) = some e.2) →
      ((entries.map fun e => (e.1, g e.1 e.2)).filterMap fun e => (f e.2).map fun a => (e.1, a)) =
        entries := by
    intro entries hentries
    induction entries with
    | nil => rfl
    | cons e rest ih =>
      obtain ⟨he, hrest⟩ := List.forall_mem_cons.mp hentries
      simp [he, ih hrest]
  rw [traverse, if_pos hall]
  exact congrArg some (Dict.ext (hkeep d.entries h))

/-- Replace every name; the last value of a name is kept. -/
def rename (f : Text → Text) (d : Dict α) : Dict α := ofMembers (d.entries.map fun e => (f e.1, e.2))

end Dict

namespace Json

variable {K : Type} (f : Text → Text)

mutual

/-- Replace every string in a value, and every name. Different names can become the same one. -/
def mapText : Json K → Json K
  | .str s => .str (f s)
  | .arr items => .arr (mapTextItems items)
  | .obj members => .obj (mapTextMembers members)
  | .null => .null
  | .bool b => .bool b
  | .int n => .int n
  | .real x => .real x

/-- Replace the strings in every item. -/
def mapTextItems : List (Json K) → List (Json K)
  | [] => []
  | v :: rest => mapText v :: mapTextItems rest

/-- Replace the strings in every member. -/
def mapTextMembers : List (Text × Json K) → List (Text × Json K)
  | [] => []
  | (name, v) :: rest => (f name, mapText v) :: mapTextMembers rest

end

/-- Items are replaced one by one. -/
theorem mapTextItems_eq (items : List (Json K)) :
    mapTextItems f items = items.map (mapText f) := by
  induction items with
  | nil => rfl
  | cons v rest ih => rw [mapTextItems, ih, List.map_cons]

/-- Members are replaced one by one. -/
theorem mapTextMembers_eq (members : List (Text × Json K)) :
    mapTextMembers f members = members.map fun m => (f m.1, m.2.mapText f) := by
  induction members with
  | nil => rfl
  | cons m rest ih => rw [mapTextMembers, ih, List.map_cons]

mutual

/-- A value is what it is with its own strings. -/
theorem mapText_id : ∀ v : Json K, v.mapText id = v
  | .str _ | .null | .bool _ | .int _ | .real _ => rfl
  | .arr items => congrArg arr (mapTextItems_id items)
  | .obj members => congrArg obj (mapTextMembers_id members)

/-- So are items. -/
theorem mapTextItems_id : ∀ items : List (Json K), mapTextItems id items = items
  | [] => rfl
  | v :: rest => congrArg₂ List.cons (mapText_id v) (mapTextItems_id rest)

/-- So are members. -/
theorem mapTextMembers_id : ∀ members : List (Text × Json K), mapTextMembers id members = members
  | [] => rfl
  | (name, v) :: rest =>
    congrArg₂ List.cons (congrArg (Prod.mk name) (mapText_id v)) (mapTextMembers_id rest)

end

/-- What a lenient encoder makes of a value: question marks for the surrogates in it. -/
def encodable (v : Json K) : Json K := v.mapText fun s => s.encodable

@[simp] theorem encodable_str (s : Text) : (str s : Json K).encodable = str s.encodable := rfl

@[simp] theorem encodable_int (n : ℤ) : (int n : Json K).encodable = int n := rfl

theorem encodable_arr (items : List (Json K)) : (arr items).encodable = arr (items.map encodable) :=
  congrArg arr (mapTextItems_eq _ items)

theorem encodable_obj (members : List (Text × Json K)) :
    (obj members).encodable = obj (members.map fun m => (m.1.encodable, m.2.encodable)) :=
  congrArg obj (mapTextMembers_eq _ members)

end Json

/-- The last member of an object with the given name. -/
def member {K : Type} (members : List (Text × Json K)) (name : Text) : Option (Json K) :=
  (members.reverse.find? fun m => m.1 = name).map Prod.snd

end ApiFirewall.Wire
