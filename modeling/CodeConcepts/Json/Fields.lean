import CodeConcepts.Json.Basic

/-!
# Fields of records

How records are read from JSON values. A record is an object, whose unknown members are ignored, or
an array of its field values in the order of declaration. Each field is then read from its slot: a
missing optional field reads as absent, and so does `null`; any other field has to be there.
-/

namespace CodeConcepts.Json

/-- A part of a value, smaller than the whole. -/
abbrev Part (j : Json) : Type := { x : Json // x.size < j.size }

theorem Part.size_lt {j : Json} (p : Part j) : p.1.size < j.size := p.2

/-- The items of an array. -/
def items? (j : Json) : Option (List (Part j)) :=
  match j with
  | .array items => some (items.attach.map fun x => ⟨x.1, size_lt_of_mem_array x.2⟩)
  | _ => none

/-- A member of an object by name. -/
def member? (name : String) (members : List (String × Json)) : Option (Part (.object members)) :=
  match h : lookup name members with
  | some x => some ⟨x, size_lt_of_mem_object (mem_of_lookup_eq_some h)⟩
  | none => none

/-- The slots of a record with the given field names: for each field its value, if it is there. -/
def slots? (names : List String) (j : Json) : Option (List (Option (Part j))) :=
  match j with
  | .object members => some (names.map fun n => member? n members)
  | .array items =>
    if items.length ≤ names.length then
      some ((items.attach.map fun x => some ⟨x.1, size_lt_of_mem_array x.2⟩) ++
        List.replicate (names.length - items.length) none)
    else none
  | _ => none

/-- The slots of a record that says in its field `tag` which variant it is. The tag is the first
item of a record written as an array. -/
def tagged? (tag : String) (j : Json) : Option (Json × (List String → Option (List (Option (Part j))))) :=
  match j with
  | .object members =>
    (lookup tag members).map fun t => (t, fun names => some (names.map fun n => member? n members))
  | .array (t :: items) =>
    some (t, fun names =>
      if items.length ≤ names.length then
        some ((items.attach.map fun x =>
            some ⟨x.1, size_lt_of_mem_array (List.mem_cons_of_mem t x.2)⟩) ++
          List.replicate (names.length - items.length) none)
      else none)
  | _ => none

/-- The values of the fields of a record. -/
def fields? (names : List String) (j : Json) : Option (List (Option Json)) :=
  (slots? names j).map fun slots => slots.map fun slot => slot.map (·.1)

/-- The items of a part that is an array. -/
def Part.items? {j : Json} (p : Part j) : Option (List (Part j)) :=
  (Json.items? p.1).map fun xs => xs.map fun x => ⟨x.1, Nat.lt_trans x.2 p.2⟩

/-- The slots of a part that is a record. -/
def Part.slots? {j : Json} (names : List String) (p : Part j) : Option (List (Option (Part j))) :=
  (Json.slots? names p.1).map fun xs =>
    xs.map fun x => x.map fun y => ⟨y.1, Nat.lt_trans y.2 p.2⟩

/-- The members of a part that is an object. -/
def Part.members? {j : Json} (p : Part j) : Option (List (String × Part j)) :=
  match h : p.1 with
  | .object members =>
    some (members.attach.map fun m =>
      (m.1.1, ⟨m.1.2, Nat.lt_trans (h ▸ size_lt_of_mem_object m.2) p.2⟩))
  | _ => none

/-- A string. -/
def text? : Json → Option String
  | .string s => some s
  | _ => none

/-- A truth value. -/
def bool? : Json → Option Bool
  | .bool b => some b
  | _ => none

/-- A natural number of 64 bits. -/
def nat? : Json → Option Nat
  | .int (.ofNat n) => if n < Nat.pow 2 64 then some n else none
  | _ => none

/-- Reads a list of values. -/
def list? {α : Type} (read : Json → Option α) : Json → Option (List α)
  | .array items => items.mapM read
  | _ => none

/-- Reads a field that has to be there. -/
def required {α β : Type} (read : β → Option α) (slot : Option β) : Option α := slot.bind read

/-- Reads an optional field: absent if it is missing or `null`. -/
def optional {α : Type} (read : Json → Option α) : Option Json → Option (Option α)
  | none => some none
  | some .null => some none
  | some j => (read j).map some

/-- The name of a tag: a string, or inside another tagged value also the number of the variant in
the list of all variants. -/
def tagName? (nested : Bool) (variants : List String) : Json → Option String
  | .string s => some s
  | .int (.ofNat n) => if nested then variants[n]? else none
  | _ => none

/-- The name a variant without fields is written by: a string, or an object whose only member has
that name and the value `null`. -/
def variantName? : Json → Option String
  | .string s => some s
  | .object [(n, .null)] => some n
  | _ => none

end CodeConcepts.Json
