import CodeConcepts.Concept.Names

/-!
# Type descriptions

A type is described by a finite tree that refers to declarations by name, so that types which
mention themselves stay finite. `TypeDesc.sameAs` decides equality of descriptions.
-/

namespace CodeConcepts

/-- A member of an object type. -/
structure ObjectMember (τ : Type) where
  name : String
  type : τ
  optional : Bool
  readonly : Bool
deriving DecidableEq, Repr

/-- A parameter of a function. -/
structure Parameter (τ : Type) where
  index : Nat
  name : String
  type : τ
  optional : Bool
deriving DecidableEq, Repr

/-- The description of a type. -/
inductive TypeDesc where
  | primitive (name : String)
  /-- A declared type, possibly applied to arguments. -/
  | declared (fqn : QName) (arguments : List TypeDesc)
  | union (types : List TypeDesc)
  | intersection (types : List TypeDesc)
  | typeParameter (name : String)
  | object (members : List (ObjectMember TypeDesc))
  | function (parameters : List (Parameter TypeDesc)) (result : TypeDesc)
  | literal (value : String)
  | tuple (types : List TypeDesc)
  /-- A type that is not worked out, by the text it is written with. -/
  | notIdentified (identifier : String)
deriving Repr, Inhabited

namespace TypeDesc

/-! ## Equality -/

mutual

/-- Whether two descriptions are the same. -/
def sameAs : TypeDesc → TypeDesc → Bool
  | .primitive a, .primitive b => a == b
  | .declared a as, .declared b bs => a == b && sameTypes as bs
  | .union as, .union bs => sameTypes as bs
  | .intersection as, .intersection bs => sameTypes as bs
  | .typeParameter a, .typeParameter b => a == b
  | .object as, .object bs => sameMembers as bs
  | .function as a, .function bs b => sameParameters as bs && sameAs a b
  | .literal a, .literal b => a == b
  | .tuple as, .tuple bs => sameTypes as bs
  | .notIdentified a, .notIdentified b => a == b
  | _, _ => false

/-- Whether two lists of descriptions are the same. -/
def sameTypes : List TypeDesc → List TypeDesc → Bool
  | [], [] => true
  | a :: as, b :: bs => sameAs a b && sameTypes as bs
  | _, _ => false

/-- Whether two lists of members are the same. -/
def sameMembers : List (ObjectMember TypeDesc) → List (ObjectMember TypeDesc) → Bool
  | [], [] => true
  | ⟨n, t, o, r⟩ :: as, b :: bs =>
    n == b.name && sameAs t b.type && o == b.optional && r == b.readonly && sameMembers as bs
  | _, _ => false

/-- Whether two lists of parameters are the same. -/
def sameParameters : List (Parameter TypeDesc) → List (Parameter TypeDesc) → Bool
  | [], [] => true
  | ⟨i, n, t, o⟩ :: as, b :: bs =>
    i == b.index && n == b.name && sameAs t b.type && o == b.optional && sameParameters as bs
  | _, _ => false

end

mutual

theorem sameAs_iff : ∀ a b : TypeDesc, sameAs a b = true ↔ a = b
  | .primitive _, b => by cases b <;> simp [sameAs]
  | .declared _ as, b => by cases b <;> simp [sameAs, sameTypes_iff as]
  | .union as, b => by cases b <;> simp [sameAs, sameTypes_iff as]
  | .intersection as, b => by cases b <;> simp [sameAs, sameTypes_iff as]
  | .typeParameter _, b => by cases b <;> simp [sameAs]
  | .object as, b => by cases b <;> simp [sameAs, sameMembers_iff as]
  | .function as a, b => by cases b <;> simp [sameAs, sameParameters_iff as, sameAs_iff a]
  | .literal _, b => by cases b <;> simp [sameAs]
  | .tuple as, b => by cases b <;> simp [sameAs, sameTypes_iff as]
  | .notIdentified _, b => by cases b <;> simp [sameAs]

theorem sameTypes_iff : ∀ as bs : List TypeDesc, sameTypes as bs = true ↔ as = bs
  | [], bs => by cases bs <;> simp [sameTypes]
  | a :: as, bs => by cases bs <;> simp [sameTypes, sameAs_iff a, sameTypes_iff as]

theorem sameMembers_iff : ∀ as bs : List (ObjectMember TypeDesc), sameMembers as bs = true ↔ as = bs
  | [], bs => by cases bs <;> simp [sameMembers]
  | ⟨n, t, o, r⟩ :: as, bs => by
    cases bs with
    | nil => simp [sameMembers]
    | cons b bs => cases b; simp [sameMembers, sameAs_iff t, sameMembers_iff as, and_assoc]

theorem sameParameters_iff :
    ∀ as bs : List (Parameter TypeDesc), sameParameters as bs = true ↔ as = bs
  | [], bs => by cases bs <;> simp [sameParameters]
  | ⟨i, n, t, o⟩ :: as, bs => by
    cases bs with
    | nil => simp [sameParameters]
    | cons b bs => cases b; simp [sameParameters, sameAs_iff t, sameParameters_iff as, and_assoc]

end

instance : DecidableEq TypeDesc := fun a b => decidable_of_iff _ (sameAs_iff a b)

/-! ## Names -/

mutual

/-- The declared names a description mentions, in order of occurrence. -/
def names : TypeDesc → List QName
  | .declared n args => n :: namesOfTypes args
  | .union ts => namesOfTypes ts
  | .intersection ts => namesOfTypes ts
  | .tuple ts => namesOfTypes ts
  | .object ms => namesOfMembers ms
  | .function ps t => namesOfParameters ps ++ names t
  | .primitive _ => []
  | .typeParameter _ => []
  | .literal _ => []
  | .notIdentified _ => []

/-- The names of a list of descriptions. -/
def namesOfTypes : List TypeDesc → List QName
  | [] => []
  | t :: ts => names t ++ namesOfTypes ts

/-- The names of the members of an object type. -/
def namesOfMembers : List (ObjectMember TypeDesc) → List QName
  | [] => []
  | ⟨_, t, _, _⟩ :: ms => names t ++ namesOfMembers ms

/-- The names of the parameters of a function type. -/
def namesOfParameters : List (Parameter TypeDesc) → List QName
  | [] => []
  | ⟨_, _, t, _⟩ :: ps => names t ++ namesOfParameters ps

end

mutual

/-- The description with every declared name replaced. -/
def mapNames (f : QName → QName) : TypeDesc → TypeDesc
  | .declared n args => .declared (f n) (mapTypes f args)
  | .union ts => .union (mapTypes f ts)
  | .intersection ts => .intersection (mapTypes f ts)
  | .tuple ts => .tuple (mapTypes f ts)
  | .object ms => .object (mapMembers f ms)
  | .function ps t => .function (mapParameters f ps) (mapNames f t)
  | .primitive n => .primitive n
  | .typeParameter n => .typeParameter n
  | .literal v => .literal v
  | .notIdentified i => .notIdentified i

/-- A list of descriptions with every name replaced. -/
def mapTypes (f : QName → QName) : List TypeDesc → List TypeDesc
  | [] => []
  | t :: ts => mapNames f t :: mapTypes f ts

/-- Members with every name in their types replaced. -/
def mapMembers (f : QName → QName) : List (ObjectMember TypeDesc) → List (ObjectMember TypeDesc)
  | [] => []
  | ⟨n, t, o, r⟩ :: ms => ⟨n, mapNames f t, o, r⟩ :: mapMembers f ms

/-- Parameters with every name in their types replaced. -/
def mapParameters (f : QName → QName) : List (Parameter TypeDesc) → List (Parameter TypeDesc)
  | [] => []
  | ⟨i, n, t, o⟩ :: ps => ⟨i, n, mapNames f t, o⟩ :: mapParameters f ps

end

mutual

/-- The description with every declared name replaced in order, a state being carried along. -/
def visitNames {σ : Type} (f : QName → StateM σ QName) : TypeDesc → StateM σ TypeDesc
  | .declared n args => do return .declared (← f n) (← visitTypes f args)
  | .union ts => do return .union (← visitTypes f ts)
  | .intersection ts => do return .intersection (← visitTypes f ts)
  | .tuple ts => do return .tuple (← visitTypes f ts)
  | .object ms => do return .object (← visitMembers f ms)
  | .function ps t => do return .function (← visitParameters f ps) (← visitNames f t)
  | .primitive n => return .primitive n
  | .typeParameter n => return .typeParameter n
  | .literal v => return .literal v
  | .notIdentified i => return .notIdentified i

/-- Visits the names of a list of descriptions. -/
def visitTypes {σ : Type} (f : QName → StateM σ QName) : List TypeDesc → StateM σ (List TypeDesc)
  | [] => return []
  | t :: ts => do return (← visitNames f t) :: (← visitTypes f ts)

/-- Visits the names in the types of members. -/
def visitMembers {σ : Type} (f : QName → StateM σ QName) :
    List (ObjectMember TypeDesc) → StateM σ (List (ObjectMember TypeDesc))
  | [] => return []
  | ⟨n, t, o, r⟩ :: ms => do return ⟨n, ← visitNames f t, o, r⟩ :: (← visitMembers f ms)

/-- Visits the names in the types of parameters. -/
def visitParameters {σ : Type} (f : QName → StateM σ QName) :
    List (Parameter TypeDesc) → StateM σ (List (Parameter TypeDesc))
  | [] => return []
  | ⟨i, n, t, o⟩ :: ps => do return ⟨i, n, ← visitNames f t, o⟩ :: (← visitParameters f ps)

end

instance : HasNames TypeDesc := ⟨names, mapNames, visitNames⟩

instance : HasNames (ObjectMember TypeDesc) where
  names m := m.type.names
  mapNames f m := { m with type := m.type.mapNames f }
  visitNames f m := do return { m with type := ← m.type.visitNames f }

instance : HasNames (Parameter TypeDesc) where
  names p := p.type.names
  mapNames f p := { p with type := p.type.mapNames f }
  visitNames f p := do return { p with type := ← p.type.visitNames f }

/-! ## The type `undefined` -/

mutual

/-- Whether the type is `undefined` or a union with it. -/
def admitsUndefined : TypeDesc → Bool
  | .primitive n => n == "undefined"
  | .union ts => anyAdmitsUndefined ts
  | _ => false

/-- Whether one of the types admits `undefined`. -/
def anyAdmitsUndefined : List TypeDesc → Bool
  | [] => false
  | t :: ts => admitsUndefined t || anyAdmitsUndefined ts

end

/-- The union of a type with `undefined`; a type that admits it already is not changed. -/
def withUndefined (t : TypeDesc) : TypeDesc :=
  if t.admitsUndefined then t
  else
    match t with
    | .union ts => .union (ts ++ [.primitive "undefined"])
    | t => .union [t, .primitive "undefined"]

/-- A declared type without arguments. -/
def named (n : QName) : TypeDesc := .declared n []

end TypeDesc

/-- A type parameter of a declaration. -/
structure TypeParameter where
  name : String
  constraint : Option TypeDesc
deriving DecidableEq, Repr

instance : HasNames TypeParameter where
  names p := names p.constraint
  mapNames f p := { p with constraint := mapNames f p.constraint }
  visitNames f p := do return { p with constraint := ← visitNames f p.constraint }

/-- A parameter with its type description. -/
abbrev Param : Type := Parameter TypeDesc

end CodeConcepts
