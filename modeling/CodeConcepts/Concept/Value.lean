import CodeConcepts.Concept.TypeDesc
import CodeConcepts.Number.Double

/-!
# Values

What is known of the value of an initialiser from its text alone.
-/

namespace CodeConcepts

/-- A literal. An integer of any size is carried as decimal text; the type that stands beside the
literal tells it from a string. -/
inductive Literal where
  | bool (b : Bool)
  | number (x : Double)
  | text (s : String)
deriving DecidableEq, Repr

/-- The description of a value. The members of an object are ordered by name. -/
inductive Value where
  /-- `null`, or `undefined`. -/
  | null (undefined : Bool)
  | literal (value : Literal) (type : TypeDesc)
  | declared (fqn : QName)
  | member (parent : Value) (member : String)
  | object (members : List (String × Value))
  | array (items : List Value)
  | call (callee : Value) (args : List Value)
  | function
  | classValue
  /-- Any other expression, by its text. -/
  | complex (expression : String)
deriving Repr, Inhabited

namespace Value

/-! ## Equality -/

mutual

/-- Whether two values are described the same. -/
def sameAs : Value → Value → Bool
  | .null a, .null b => a == b
  | .literal a s, .literal b t => a == b && s == t
  | .declared a, .declared b => a == b
  | .member a m, .member b n => sameAs a b && m == n
  | .object as, .object bs => sameMembers as bs
  | .array as, .array bs => sameItems as bs
  | .call a as, .call b bs => sameAs a b && sameItems as bs
  | .function, .function => true
  | .classValue, .classValue => true
  | .complex a, .complex b => a == b
  | _, _ => false

/-- Whether two lists of values are the same. -/
def sameItems : List Value → List Value → Bool
  | [], [] => true
  | a :: as, b :: bs => sameAs a b && sameItems as bs
  | _, _ => false

/-- Whether two lists of members are the same. -/
def sameMembers : List (String × Value) → List (String × Value) → Bool
  | [], [] => true
  | (m, a) :: as, (n, b) :: bs => m == n && sameAs a b && sameMembers as bs
  | _, _ => false

end

mutual

theorem sameAs_iff : ∀ a b : Value, sameAs a b = true ↔ a = b
  | .null _, b => by cases b <;> simp [sameAs]
  | .literal _ _, b => by cases b <;> simp [sameAs]
  | .declared _, b => by cases b <;> simp [sameAs]
  | .member a _, b => by cases b <;> simp [sameAs, sameAs_iff a]
  | .object as, b => by cases b <;> simp [sameAs, sameMembers_iff as]
  | .array as, b => by cases b <;> simp [sameAs, sameItems_iff as]
  | .call a as, b => by cases b <;> simp [sameAs, sameAs_iff a, sameItems_iff as]
  | .function, b => by cases b <;> simp [sameAs]
  | .classValue, b => by cases b <;> simp [sameAs]
  | .complex _, b => by cases b <;> simp [sameAs]

theorem sameItems_iff : ∀ as bs : List Value, sameItems as bs = true ↔ as = bs
  | [], bs => by cases bs <;> simp [sameItems]
  | a :: as, bs => by cases bs <;> simp [sameItems, sameAs_iff a, sameItems_iff as]

theorem sameMembers_iff : ∀ as bs : List (String × Value), sameMembers as bs = true ↔ as = bs
  | [], bs => by cases bs <;> simp [sameMembers]
  | (_, a) :: as, bs => by
    cases bs with
    | nil => simp [sameMembers]
    | cons b bs => obtain ⟨n, b⟩ := b; simp [sameMembers, sameAs_iff a, sameMembers_iff as]

end

instance : DecidableEq Value := fun a b => decidable_of_iff _ (sameAs_iff a b)

/-! ## Names -/

mutual

/-- The names a value mentions; a literal mentions those of its type. -/
def names : Value → List QName
  | .declared n => [n]
  | .literal _ t => t.names
  | .member v _ => names v
  | .object ms => namesOfMembers ms
  | .array vs => namesOfItems vs
  | .call v vs => names v ++ namesOfItems vs
  | .null _ => []
  | .function => []
  | .classValue => []
  | .complex _ => []

/-- The names of a list of values. -/
def namesOfItems : List Value → List QName
  | [] => []
  | v :: vs => names v ++ namesOfItems vs

/-- The names of the values of members. -/
def namesOfMembers : List (String × Value) → List QName
  | [] => []
  | (_, v) :: ms => names v ++ namesOfMembers ms

end

mutual

/-- The value with every name replaced. -/
def mapNames (f : QName → QName) : Value → Value
  | .declared n => .declared (f n)
  | .literal l t => .literal l (t.mapNames f)
  | .member v m => .member (mapNames f v) m
  | .object ms => .object (mapMembers f ms)
  | .array vs => .array (mapItems f vs)
  | .call v vs => .call (mapNames f v) (mapItems f vs)
  | .null u => .null u
  | .function => .function
  | .classValue => .classValue
  | .complex e => .complex e

/-- A list of values with every name replaced. -/
def mapItems (f : QName → QName) : List Value → List Value
  | [] => []
  | v :: vs => mapNames f v :: mapItems f vs

/-- Members with every name in their values replaced. -/
def mapMembers (f : QName → QName) : List (String × Value) → List (String × Value)
  | [] => []
  | (m, v) :: ms => (m, mapNames f v) :: mapMembers f ms

end

mutual

/-- The value with every name replaced in order, a state being carried along. -/
def visitNames {σ : Type} (f : QName → StateM σ QName) : Value → StateM σ Value
  | .declared n => do return .declared (← f n)
  | .literal l t => do return .literal l (← t.visitNames f)
  | .member v m => do return .member (← visitNames f v) m
  | .object ms => do return .object (← visitMembers f ms)
  | .array vs => do return .array (← visitItems f vs)
  | .call v vs => do return .call (← visitNames f v) (← visitItems f vs)
  | .null u => return .null u
  | .function => return .function
  | .classValue => return .classValue
  | .complex e => return .complex e

/-- Visits the names of a list of values. -/
def visitItems {σ : Type} (f : QName → StateM σ QName) : List Value → StateM σ (List Value)
  | [] => return []
  | v :: vs => do return (← visitNames f v) :: (← visitItems f vs)

/-- Visits the names in the values of members. -/
def visitMembers {σ : Type} (f : QName → StateM σ QName) :
    List (String × Value) → StateM σ (List (String × Value))
  | [] => return []
  | (m, v) :: ms => do return (m, ← visitNames f v) :: (← visitMembers f ms)

end

instance : HasNames Value := ⟨names, mapNames, visitNames⟩

end Value

end CodeConcepts
