import CodeConcepts.QName

/-!
# Names inside records

Records refer to each other only by qualified names. `names` lists the names a record holds, at any
depth, in a fixed order; `mapNames` replaces each of them and leaves the rest of the record alone;
`visitNames` does the same with a replacement that carries a state from one name to the next.
-/

namespace CodeConcepts

/-- Things that hold qualified names. -/
class HasNames (α : Type) where
  /-- The names held, in visiting order. -/
  names : α → List QName
  /-- The thing with every name replaced. -/
  mapNames : (QName → QName) → α → α
  /-- The thing with every name replaced in visiting order, a state being carried along. -/
  visitNames : {σ : Type} → (QName → StateM σ QName) → α → StateM σ α

export HasNames (names mapNames visitNames)

instance : HasNames QName := ⟨fun n => [n], fun f n => f n, fun f n => f n⟩

/-- Visits the names of the members of a list, from the first to the last. -/
def visitEach {σ α : Type} [HasNames α] (f : QName → StateM σ QName) : List α → StateM σ (List α)
  | [] => return []
  | x :: xs => do return (← visitNames f x) :: (← visitEach f xs)

instance {α : Type} [HasNames α] : HasNames (List α) :=
  ⟨fun xs => xs.flatMap names, fun f xs => xs.map (mapNames f), visitEach⟩

instance {α : Type} [HasNames α] : HasNames (Option α) where
  names x := x.elim [] names
  mapNames f x := x.map (mapNames f)
  visitNames f
    | none => return none
    | some a => do return some (← visitNames f a)

end CodeConcepts
