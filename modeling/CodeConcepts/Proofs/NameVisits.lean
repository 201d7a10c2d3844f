import CodeConcepts.Model.Basic

/-!
# Visiting names

Replacing the names of a thing one after the other, with a state that is carried along, gives the
same thing as replacing all of them at once whenever the replacement of a name does not depend on
the state (`gives_visitNames`). The names of the result are then the replaced names, place by place
(`names_mapNames`). Both laws hold for every type of record and for models, at any depth; they are
collected in the class `LawfulNames`.
-/

namespace CodeConcepts

variable {σ α β : Type} {inv : σ → Prop}

/-- Work that has the result `a` and keeps an invariant of the state, whatever the state is. -/
def Gives (inv : σ → Prop) (x : StateM σ α) (a : α) : Prop :=
  ∀ s, inv s → (x.run s).1 = a ∧ inv (x.run s).2

theorem Gives.pure (a : α) : Gives inv (Pure.pure a : StateM σ α) a := fun _ hs => ⟨rfl, hs⟩

theorem Gives.bind {x : StateM σ α} {a : α} {k : α → StateM σ β} {b : β} (hx : Gives inv x a)
    (hk : Gives inv (k a) b) : Gives inv (x >>= k) b := by
  intro s hs
  obtain ⟨hres, hinv⟩ := hx s hs
  show ((k (x.run s).1).run (x.run s).2).1 = b ∧ inv ((k (x.run s).1).run (x.run s).2).2
  rw [hres]
  exact hk _ hinv

/-- Things whose names can be replaced lawfully. -/
class LawfulNames (α : Type) [HasNames α] : Prop where
  /-- The names of the result are the replaced names. -/
  names_mapNames (f : QName → QName) (a : α) : names (mapNames f a) = (names a).map f
  /-- If the state does not matter for a single name, it does not matter for the whole. -/
  gives_visitNames {σ : Type} {inv : σ → Prop} {f : QName → StateM σ QName} {g : QName → QName}
    (h : ∀ n, Gives inv (f n) (g n)) (a : α) : Gives inv (visitNames f a) (mapNames g a)

export LawfulNames (names_mapNames gives_visitNames)

attribute [simp] names_mapNames

instance : LawfulNames QName := ⟨fun _ _ => rfl, fun h a => h a⟩

/-! ## Lists and options -/

instance [HasNames α] [LawfulNames α] : LawfulNames (List α) where
  names_mapNames f xs := by
    show (xs.map (mapNames f)).flatMap names = (xs.flatMap names).map f
    induction xs with
    | nil => rfl
    | cons x xs ih =>
      rw [List.map_cons, List.flatMap_cons, ih, List.flatMap_cons, List.map_append,
        names_mapNames]
  gives_visitNames {_ _ f g} h xs := by
    show Gives _ (visitEach f xs) (xs.map (mapNames g))
    induction xs with
    | nil => exact .pure _
    | cons x xs ih => exact (gives_visitNames h x).bind (ih.bind (.pure _))

instance [HasNames α] [LawfulNames α] : LawfulNames (Option α) where
  names_mapNames f x := by
    cases x with
    | none => rfl
    | some a => exact names_mapNames f a
  gives_visitNames h x := by
    cases x with
    | none => exact .pure _
    | some a => exact (gives_visitNames h a).bind (.pure _)

/-! ## Type descriptions -/

namespace TypeDesc

mutual

theorem names_mapNames_type (f : QName → QName) : ∀ t : TypeDesc,
    (t.mapNames f).names = t.names.map f
  | .declared n args => by
    rw [mapNames, TypeDesc.names, TypeDesc.names, names_mapTypes f args, List.map_cons]
  | .union ts | .intersection ts | .tuple ts =>
    by rw [mapNames, TypeDesc.names, TypeDesc.names, names_mapTypes f ts]
  | .object ms => by rw [mapNames, TypeDesc.names, TypeDesc.names, names_mapMembers f ms]
  | .function ps t => by
    rw [mapNames, TypeDesc.names, TypeDesc.names, names_mapParameters f ps,
      names_mapNames_type f t, List.map_append]
  | .primitive _ | .typeParameter _ | .literal _ | .notIdentified _ =>
    by rw [mapNames, TypeDesc.names]; rfl

theorem names_mapTypes (f : QName → QName) : ∀ ts : List TypeDesc,
    namesOfTypes (mapTypes f ts) = (namesOfTypes ts).map f
  | [] => rfl
  | t :: ts => by
    rw [mapTypes, namesOfTypes, namesOfTypes, names_mapNames_type f t, names_mapTypes f ts,
      List.map_append]

theorem names_mapMembers (f : QName → QName) : ∀ ms : List (ObjectMember TypeDesc),
    namesOfMembers (mapMembers f ms) = (namesOfMembers ms).map f
  | [] => rfl
  | ⟨_, t, _, _⟩ :: ms => by
    rw [mapMembers, namesOfMembers, namesOfMembers, names_mapNames_type f t,
      names_mapMembers f ms, List.map_append]

theorem names_mapParameters (f : QName → QName) : ∀ ps : List (Parameter TypeDesc),
    namesOfParameters (mapParameters f ps) = (namesOfParameters ps).map f
  | [] => rfl
  | ⟨_, _, t, _⟩ :: ps => by
    rw [mapParameters, namesOfParameters, namesOfParameters, names_mapNames_type f t,
      names_mapParameters f ps, List.map_append]

end

variable {f : QName → StateM σ QName} {g : QName → QName}

mutual

theorem gives_visitNames_type (h : ∀ n, Gives inv (f n) (g n)) : ∀ t : TypeDesc,
    Gives inv (t.visitNames f) (t.mapNames g)
  | .declared n args => (h n).bind ((gives_visitTypes h args).bind (.pure _))
  | .union ts | .intersection ts | .tuple ts => (gives_visitTypes h ts).bind (.pure _)
  | .object ms => (gives_visitMembers h ms).bind (.pure _)
  | .function ps t => (gives_visitParameters h ps).bind ((gives_visitNames_type h t).bind (.pure _))
  | .primitive _ | .typeParameter _ | .literal _ | .notIdentified _ => .pure _

theorem gives_visitTypes (h : ∀ n, Gives inv (f n) (g n)) : ∀ ts : List TypeDesc,
    Gives inv (visitTypes f ts) (mapTypes g ts)
  | [] => .pure _
  | t :: ts => (gives_visitNames_type h t).bind ((gives_visitTypes h ts).bind (.pure _))

theorem gives_visitMembers (h : ∀ n, Gives inv (f n) (g n)) : ∀ ms : List (ObjectMember TypeDesc),
    Gives inv (visitMembers f ms) (mapMembers g ms)
  | [] => .pure _
  | ⟨_, t, _, _⟩ :: ms =>
    (gives_visitNames_type h t).bind ((gives_visitMembers h ms).bind (.pure _))

theorem gives_visitParameters (h : ∀ n, Gives inv (f n) (g n)) :
    ∀ ps : List (Parameter TypeDesc), Gives inv (visitParameters f ps) (mapParameters g ps)
  | [] => .pure _
  | ⟨_, _, t, _⟩ :: ps =>
    (gives_visitNames_type h t).bind ((gives_visitParameters h ps).bind (.pure _))

end

instance : LawfulNames TypeDesc := ⟨names_mapNames_type, gives_visitNames_type⟩

instance : LawfulNames (ObjectMember TypeDesc) where
  names_mapNames f m := names_mapNames_type f m.type
  gives_visitNames h m := (gives_visitNames_type h m.type).bind (.pure _)

instance : LawfulNames (Parameter TypeDesc) where
  names_mapNames f p := names_mapNames_type f p.type
  gives_visitNames h p := (gives_visitNames_type h p.type).bind (.pure _)

end TypeDesc

instance : LawfulNames TypeParameter where
  names_mapNames f p := names_mapNames f p.constraint
  gives_visitNames h p := (gives_visitNames h p.constraint).bind (.pure _)

/-! ## Values -/

namespace Value

mutual

theorem names_mapNames_value (f : QName → QName) : ∀ v : Value,
    (v.mapNames f).names = v.names.map f
  | .declared _ => by rw [mapNames, Value.names, Value.names]; rfl
  | .literal _ t => by
    rw [mapNames, Value.names, Value.names, TypeDesc.names_mapNames_type f t]
  | .member v _ => by rw [mapNames, Value.names, Value.names, names_mapNames_value f v]
  | .object ms => by rw [mapNames, Value.names, Value.names, names_mapValueMembers f ms]
  | .array vs => by rw [mapNames, Value.names, Value.names, names_mapItems f vs]
  | .call v vs => by
    rw [mapNames, Value.names, Value.names, names_mapNames_value f v, names_mapItems f vs,
      List.map_append]
  | .null _ | .function | .classValue | .complex _ => by rw [mapNames, Value.names]; rfl

theorem names_mapItems (f : QName → QName) : ∀ vs : List Value,
    namesOfItems (mapItems f vs) = (namesOfItems vs).map f
  | [] => rfl
  | v :: vs => by
    rw [mapItems, namesOfItems, namesOfItems, names_mapNames_value f v, names_mapItems f vs,
      List.map_append]

theorem names_mapValueMembers (f : QName → QName) : ∀ ms : List (String × Value),
    namesOfMembers (mapMembers f ms) = (namesOfMembers ms).map f
  | [] => rfl
  | (_, v) :: ms => by
    rw [mapMembers, namesOfMembers, namesOfMembers, names_mapNames_value f v,
      names_mapValueMembers f ms, List.map_append]

end

variable {f : QName → StateM σ QName} {g : QName → QName}

mutual

theorem gives_visitNames_value (h : ∀ n, Gives inv (f n) (g n)) : ∀ v : Value,
    Gives inv (v.visitNames f) (v.mapNames g)
  | .declared n => (h n).bind (.pure _)
  | .literal _ t => (TypeDesc.gives_visitNames_type h t).bind (.pure _)
  | .member v _ => (gives_visitNames_value h v).bind (.pure _)
  | .object ms => (gives_visitValueMembers h ms).bind (.pure _)
  | .array vs => (gives_visitItems h vs).bind (.pure _)
  | .call v vs => (gives_visitNames_value h v).bind ((gives_visitItems h vs).bind (.pure _))
  | .null _ | .function | .classValue | .complex _ => .pure _

theorem gives_visitItems (h : ∀ n, Gives inv (f n) (g n)) : ∀ vs : List Value,
    Gives inv (visitItems f vs) (mapItems g vs)
  | [] => .pure _
  | v :: vs => (gives_visitNames_value h v).bind ((gives_visitItems h vs).bind (.pure _))

theorem gives_visitValueMembers (h : ∀ n, Gives inv (f n) (g n)) : ∀ ms : List (String × Value),
    Gives inv (visitMembers f ms) (mapMembers g ms)
  | [] => .pure _
  | (_, v) :: ms =>
    (gives_visitNames_value h v).bind ((gives_visitValueMembers h ms).bind (.pure _))

end

instance : LawfulNames Value := ⟨names_mapNames_value, gives_visitNames_value⟩

end Value

/-! ## Records -/

instance : LawfulNames Project := ⟨fun _ _ => rfl, fun _ _ => .pure _⟩

instance : LawfulNames Module := ⟨fun _ _ => rfl, fun h d => (h d.fqn).bind (.pure _)⟩

instance : LawfulNames ImportDecl where
  names_mapNames _ _ := rfl
  gives_visitNames h d := (h d.importer).bind ((h d.target).bind (.pure _))

instance : LawfulNames ExportDecl where
  names_mapNames _ _ := rfl
  gives_visitNames h d := (h d.declaration).bind ((h d.exporter).bind (.pure _))

instance : LawfulNames Edge where
  names_mapNames _ _ := rfl
  gives_visitNames h d := (h d.source).bind ((h d.target).bind (.pure _))

instance : LawfulNames Dependency where
  names_mapNames _ _ := rfl
  gives_visitNames h d := (h d.source).bind ((h d.target).bind (.pure _))

instance : LawfulNames ModuleDependency where
  names_mapNames _ _ := rfl
  gives_visitNames h d := (h d.source).bind ((h d.target).bind (.pure _))

instance : LawfulNames FunctionDecl where
  names_mapNames f d := by
    show f d.fqn :: (names (mapNames f d.parameters) ++ names (mapNames f d.returnType) ++
      names (mapNames f d.typeParameters)) = (_ :: (_ ++ _ ++ _)).map f
    simp
  gives_visitNames h d :=
    (h d.fqn).bind ((gives_visitNames h d.parameters).bind ((gives_visitNames h d.returnType).bind
      ((gives_visitNames h d.typeParameters).bind (.pure _))))

instance : LawfulNames PropertyDecl where
  names_mapNames f d := by
    show f d.fqn :: names (mapNames f d.type) = (_ :: _).map f
    simp
  gives_visitNames h d := (h d.fqn).bind ((gives_visitNames h d.type).bind (.pure _))

instance : LawfulNames MethodDecl where
  names_mapNames f d := by
    show f d.fqn :: (names (mapNames f d.parameters) ++ names (mapNames f d.returnType) ++
      names (mapNames f d.typeParameters)) = (_ :: (_ ++ _ ++ _)).map f
    simp
  gives_visitNames h d :=
    (h d.fqn).bind ((gives_visitNames h d.parameters).bind ((gives_visitNames h d.returnType).bind
      ((gives_visitNames h d.typeParameters).bind (.pure _))))

instance : LawfulNames ConstructorDecl where
  names_mapNames f d := by
    show f d.fqn :: names (mapNames f d.parameters) = (_ :: _).map f
    simp
  gives_visitNames h d := (h d.fqn).bind ((gives_visitNames h d.parameters).bind (.pure _))

instance : LawfulNames Accessor where
  names_mapNames f d := names_mapNames f d.type
  gives_visitNames h d := (gives_visitNames h d.type).bind (.pure _)

instance : LawfulNames AccessorDecl where
  names_mapNames f d := by
    show f d.fqn :: (names (mapNames f d.getter) ++ names (mapNames f d.setter)) =
      (_ :: (_ ++ _)).map f
    simp
  gives_visitNames h d :=
    (h d.fqn).bind ((gives_visitNames h d.getter).bind
      ((gives_visitNames h d.setter).bind (.pure _)))

instance : LawfulNames ClassDecl where
  names_mapNames f d := by
    show f d.fqn :: (names (mapNames f d.typeParameters) ++ names (mapNames f d.extendsClass) ++
      names (mapNames f d.implementsInterfaces) ++ names (mapNames f d.constructors) ++
      names (mapNames f d.properties) ++ names (mapNames f d.methods) ++
      names (mapNames f d.accessors)) = (_ :: (_ ++ _ ++ _ ++ _ ++ _ ++ _ ++ _)).map f
    simp
  gives_visitNames h d :=
    (h d.fqn).bind ((gives_visitNames h d.typeParameters).bind
      ((gives_visitNames h d.extendsClass).bind ((gives_visitNames h d.implementsInterfaces).bind
        ((gives_visitNames h d.constructors).bind ((gives_visitNames h d.properties).bind
          ((gives_visitNames h d.methods).bind
            ((gives_visitNames h d.accessors).bind (.pure _))))))))

instance : LawfulNames InterfaceDecl where
  names_mapNames f d := by
    show f d.fqn :: (names (mapNames f d.typeParameters) ++
      names (mapNames f d.extendsInterfaces) ++ names (mapNames f d.properties) ++
      names (mapNames f d.methods)) = (_ :: (_ ++ _ ++ _ ++ _)).map f
    simp
  gives_visitNames h d :=
    (h d.fqn).bind ((gives_visitNames h d.typeParameters).bind
      ((gives_visitNames h d.extendsInterfaces).bind ((gives_visitNames h d.properties).bind
        ((gives_visitNames h d.methods).bind (.pure _)))))

instance : LawfulNames TypeAliasDecl where
  names_mapNames f d := by
    show f d.fqn :: (names (mapNames f d.typeParameters) ++ names (mapNames f d.type)) =
      (_ :: (_ ++ _)).map f
    simp
  gives_visitNames h d :=
    (h d.fqn).bind ((gives_visitNames h d.typeParameters).bind
      ((gives_visitNames h d.type).bind (.pure _)))

instance : LawfulNames EnumMember where
  names_mapNames f d := by
    show f d.fqn :: names (mapNames f d.init) = (_ :: _).map f
    simp
  gives_visitNames h d := (h d.fqn).bind ((gives_visitNames h d.init).bind (.pure _))

instance : LawfulNames EnumDecl where
  names_mapNames f d := by
    show f d.fqn :: names (mapNames f d.members) = (_ :: _).map f
    simp
  gives_visitNames h d := (h d.fqn).bind ((gives_visitNames h d.members).bind (.pure _))

instance : LawfulNames VariableDecl where
  names_mapNames f d := by
    show f d.fqn :: (names (mapNames f d.type) ++ names (mapNames f d.initValue)) =
      (_ :: (_ ++ _)).map f
    simp
  gives_visitNames h d :=
    (h d.fqn).bind ((gives_visitNames h d.type).bind
      ((gives_visitNames h d.initValue).bind (.pure _)))

instance : (k : Kind) → LawfulNames k.Record
  | .project => inferInstanceAs (LawfulNames Project)
  | .module => inferInstanceAs (LawfulNames Module)
  | .function => inferInstanceAs (LawfulNames FunctionDecl)
  | .classDeclaration => inferInstanceAs (LawfulNames ClassDecl)
  | .interface => inferInstanceAs (LawfulNames InterfaceDecl)
  | .typeAlias => inferInstanceAs (LawfulNames TypeAliasDecl)
  | .enum => inferInstanceAs (LawfulNames EnumDecl)
  | .variable => inferInstanceAs (LawfulNames VariableDecl)
  | .import => inferInstanceAs (LawfulNames ImportDecl)
  | .export => inferInstanceAs (LawfulNames ExportDecl)
  | .edge => inferInstanceAs (LawfulNames Edge)
  | .dependency => inferInstanceAs (LawfulNames Dependency)
  | .moduleDependency => inferInstanceAs (LawfulNames ModuleDependency)

/-! ## Models -/

theorem Model.get_mapNames (f : QName → QName) (m : Model) (k : Kind) :
    (mapNames f m).get k = (m.get k).map (mapNames f) :=
  Model.get_ofFn _ k

instance : LawfulNames Model where
  names_mapNames f m := by
    show Kind.all.flatMap (fun k => names ((mapNames f m).get k)) =
      (Kind.all.flatMap fun k => names (m.get k)).map f
    rw [List.map_flatMap]
    congr 1
    funext k
    rw [Model.get_mapNames]
    exact names_mapNames f (m.get k)
  gives_visitNames h m :=
    (gives_visitNames h m.projects).bind ((gives_visitNames h m.modules).bind
      ((gives_visitNames h m.functions).bind ((gives_visitNames h m.classes).bind
        ((gives_visitNames h m.interfaces).bind ((gives_visitNames h m.typeAliases).bind
          ((gives_visitNames h m.enums).bind ((gives_visitNames h m.variableDecls).bind
            ((gives_visitNames h m.imports).bind ((gives_visitNames h m.exports).bind
              ((gives_visitNames h m.edges).bind ((gives_visitNames h m.dependencies).bind
                ((gives_visitNames h m.moduleDependencies).bind (.pure _)))))))))))))

end CodeConcepts
