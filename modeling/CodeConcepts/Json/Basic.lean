import CodeConcepts.Number.Double

/-!
# JSON values

An object holds its members in the order of their names, one member a name: `Json.insert` keeps
that order and lets the last member of a name win. Names are ordered by their characters, which is
also the order of their UTF-8 bytes.
-/

namespace CodeConcepts

/-- A JSON value. Integers and doubles are told apart by how they are written. -/
inductive Json where
  | null
  | bool (b : Bool)
  | int (n : Int)
  | double (x : Double)
  | string (s : String)
  | array (items : List Json)
  | object (members : List (String × Json))
deriving Repr, Inhabited

namespace Json

/-- Puts a member in its place among members ordered by name, replacing one of the same name. -/
def insert {α : Type} (name : String) (value : α) : List (String × α) → List (String × α)
  | [] => [(name, value)]
  | (n, v) :: ms =>
    if name < n then (name, value) :: (n, v) :: ms
    else if name = n then (name, value) :: ms
    else (n, v) :: insert name value ms

/-- The members ordered by name; of members with one name the last stays. -/
def sorted {α : Type} (members : List (String × α)) : List (String × α) :=
  members.foldl (fun ms m => insert m.1 m.2 ms) []

/-- An object of the given members, in whatever order they are listed. -/
def record (members : List (String × Json)) : Json := .object (sorted members)

/-- The value of a member, if there is one. -/
def lookup {α : Type} (name : String) : List (String × α) → Option α
  | [] => none
  | (n, v) :: ms => if n = name then some v else lookup name ms

mutual

/-- Number of nodes of a value. -/
def size : Json → Nat
  | .array items => 1 + sizeItems items
  | .object members => 1 + sizeMembers members
  | _ => 1

/-- Number of nodes of a list of values. -/
def sizeItems : List Json → Nat
  | [] => 0
  | j :: js => size j + sizeItems js

/-- Number of nodes of the values of members. -/
def sizeMembers : List (String × Json) → Nat
  | [] => 0
  | (_, j) :: ms => size j + sizeMembers ms

end

mutual

/-- Levels of arrays and objects in a value. -/
def depth : Json → Nat
  | .array items => 1 + depthItems items
  | .object members => 1 + depthMembers members
  | _ => 0

/-- The greatest depth of a list of values. -/
def depthItems : List Json → Nat
  | [] => 0
  | j :: js => max (depth j) (depthItems js)

/-- The greatest depth of the values of members. -/
def depthMembers : List (String × Json) → Nat
  | [] => 0
  | (_, j) :: ms => max (depth j) (depthMembers ms)

end

theorem size_le_of_mem_items {j : Json} {js : List Json} (h : j ∈ js) : j.size ≤ sizeItems js := by
  induction js with
  | nil => simp at h
  | cons k ks ih =>
    simp only [sizeItems]
    rcases List.mem_cons.1 h with rfl | h
    · omega
    · have := ih h; omega

theorem size_lt_of_mem_array {j : Json} {js : List Json} (h : j ∈ js) :
    j.size < (Json.array js).size := by
  have := size_le_of_mem_items h
  simp only [size]; omega

theorem size_lt_of_mem_object {m : String × Json} {ms : List (String × Json)} (h : m ∈ ms) :
    m.2.size < (Json.object ms).size := by
  have le : m.2.size ≤ sizeMembers ms := by
    induction ms with
    | nil => simp at h
    | cons k ks ih =>
      obtain ⟨n, v⟩ := k
      simp only [sizeMembers]
      rcases List.mem_cons.1 h with rfl | h
      · simp
      · have := ih h; omega
  simp only [size]; omega

theorem mem_of_lookup_eq_some {α : Type} {name : String} {v : α} {ms : List (String × α)}
    (h : lookup name ms = some v) : (name, v) ∈ ms := by
  induction ms with
  | nil => simp [lookup] at h
  | cons m ms ih =>
    obtain ⟨n, w⟩ := m
    simp only [lookup] at h
    split at h
    · next e => simp_all
    · next => exact List.mem_cons_of_mem _ (ih h)

end Json

end CodeConcepts
