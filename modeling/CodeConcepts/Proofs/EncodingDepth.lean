import CodeConcepts.Proofs.JsonNesting
import CodeConcepts.Proofs.ModelText

/-!
# How deep encodings nest

The depth of a record follows from the depths of its fields (`Json.depth_record`). So replacing
names inside a record does not change how deep its encoding nests
(`Kind.depth_encode_mapNames`), and the depth of a model is at most two levels above that of its
records (`Model.depth_encode_le`).
-/

namespace CodeConcepts

namespace Json

/-- The depth of a record whose fields have the given depths. -/
def recordDepth (ms : List (String × Nat)) : Nat := 1 + ((sorted ms).map Prod.snd).foldr max 0

theorem insert_map {α β : Type} (g : α → β) (m : String × α) (ms : List (String × α)) :
    insert (Prod.map id g m).1 (Prod.map id g m).2 (ms.map (Prod.map id g)) =
      (insert m.1 m.2 ms).map (Prod.map id g) := by
  induction ms with
  | nil => rfl
  | cons k ms ih =>
    simp only [List.map_cons, insert, Prod.map_fst, id]
    split
    · rfl
    · split
      · rfl
      · rw [List.map_cons, ← ih]
        rfl

theorem sorted_map {α β : Type} (g : α → β) (ms : List (String × α)) :
    sorted (ms.map (Prod.map id g)) = (sorted ms).map (Prod.map id g) := by
  suffices hfold : ∀ acc : List (String × α),
      (ms.map (Prod.map id g)).foldl (fun acc m => insert m.1 m.2 acc) (acc.map (Prod.map id g)) =
        (ms.foldl (fun acc m => insert m.1 m.2 acc) acc).map (Prod.map id g) from hfold []
  induction ms with
  | nil => exact fun acc => rfl
  | cons m ms ih =>
    intro acc
    rw [List.map_cons, List.foldl_cons, List.foldl_cons, ← ih, insert_map]

theorem depthMembers_eq (ms : List (String × Json)) :
    depthMembers ms = ((ms.map (Prod.map id depth)).map Prod.snd).foldr max 0 := by
  induction ms with
  | nil => rfl
  | cons m ms ih => rw [depthMembers, ih]; rfl

@[simp] theorem depth_record (ms : List (String × Json)) :
    depth (record ms) = recordDepth (ms.map (Prod.map id depth)) := by
  rw [record, depth, depthMembers_eq, recordDepth, sorted_map]

/-- A record without arrays and objects in it is one level deep. -/
theorem depth_record_of_scalars {ms : List (String × Json)} (h : ∀ m ∈ ms, m.2.depth = 0) :
    depth (record ms) = 1 := by
  have hle : depth (record ms) ≤ 1 := depth_record_le le_rfl fun m hm => by rw [h m hm]; omega
  have hge : 1 ≤ depth (record ms) := by
    rw [record, depth]
    omega
  omega

theorem depth_of_mem_optionalText {name : String} {o : Option String} :
    ∀ m ∈ optionalField name string o, m.2.depth = 0 := by
  cases o with
  | none => exact nofun
  | some s => exact List.forall_mem_singleton.mpr rfl

theorem depthItems_congr {α : Type} {g h : α → Json} {xs : List α}
    (heq : ∀ x ∈ xs, (g x).depth = (h x).depth) :
    depthItems (xs.map g) = depthItems (xs.map h) := by
  induction xs with
  | nil => rfl
  | cons x xs ih =>
    obtain ⟨hx, hxs⟩ := List.forall_mem_cons.mp heq
    rw [List.map_cons, List.map_cons, depthItems, depthItems, hx, ih hxs]

variable {α : Type} [HasNames α] {encode : α → Json} {f : QName → QName}

theorem depth_list_mapNames (h : ∀ x, (encode (mapNames f x)).depth = (encode x).depth)
    (xs : List α) : (list encode (mapNames f xs)).depth = (list encode xs).depth := by
  show 1 + depthItems ((xs.map (mapNames f)).map encode) = 1 + depthItems (xs.map encode)
  rw [List.map_map]
  exact congrArg (1 + ·) (depthItems_congr fun x _ => h x)

theorem depth_optionalField_mapNames (h : ∀ x, (encode (mapNames f x)).depth = (encode x).depth)
    (name : String) (o : Option α) :
    (optionalField name encode (mapNames f o)).map (Prod.map id depth) =
      (optionalField name encode o).map (Prod.map id depth) := by
  cases o with
  | none => rfl
  | some x => exact congrArg (fun d => [(name, d)]) (h x)

end Json

namespace TypeDesc

variable (f : QName → QName)

mutual

theorem depth_encode_mapNames : ∀ t : TypeDesc, (mapNames f t).encode.depth = t.encode.depth
  | .declared n args => by simp [mapNames, encode, QName.encode, depth_mapTypes args, Json.depth]
  | .union ts | .intersection ts | .tuple ts =>
    by simp [mapNames, encode, depth_mapTypes ts, Json.depth]
  | .object ms => by simp [mapNames, encode, depth_mapMembers ms, Json.depth]
  | .function ps t => by
    simp [mapNames, encode, depth_mapParameters ps, depth_encode_mapNames t, Json.depth]
  | .primitive _ | .typeParameter _ | .literal _ | .notIdentified _ => by rw [mapNames]

theorem depth_mapTypes : ∀ ts : List TypeDesc,
    Json.depthItems (encodeTypes (mapTypes f ts)) = Json.depthItems (encodeTypes ts)
  | [] => rfl
  | t :: ts => by
    rw [mapTypes, encodeTypes, encodeTypes, Json.depthItems, Json.depthItems,
      depth_encode_mapNames t, depth_mapTypes ts]

theorem depth_mapMembers : ∀ ms : List (ObjectMember TypeDesc),
    Json.depthItems (encodeMembers (mapMembers f ms)) = Json.depthItems (encodeMembers ms)
  | [] => rfl
  | ⟨_, t, _, _⟩ :: ms => by
    simp [mapMembers, encodeMembers, Json.depthItems, depth_encode_mapNames t,
      depth_mapMembers ms, Json.depth]

theorem depth_mapParameters : ∀ ps : List (Parameter TypeDesc),
    Json.depthItems (encodeParameters (mapParameters f ps)) =
      Json.depthItems (encodeParameters ps)
  | [] => rfl
  | ⟨_, _, t, _⟩ :: ps => by
    simp [mapParameters, encodeParameters, Json.depthItems, depth_encode_mapNames t,
      depth_mapParameters ps, Json.nat, Json.depth]

end

end TypeDesc

namespace Value

variable (f : QName → QName)

mutual

theorem depth_encode_mapNames : ∀ v : Value, (mapNames f v).encode.depth = v.encode.depth
  | .declared n => by simp [mapNames, encode, QName.encode, Json.depth]
  | .literal l t => by simp [mapNames, encode, TypeDesc.depth_encode_mapNames]
  | .member v _ => by simp [mapNames, encode, depth_encode_mapNames v]
  | .object ms => by simp [mapNames, encode, depth_mapMembers ms]
  | .array vs => by simp [mapNames, encode, depth_mapItems vs, Json.depth]
  | .call v vs => by
    simp [mapNames, encode, depth_encode_mapNames v, depth_mapItems vs, Json.depth]
  | .null _ | .function | .classValue | .complex _ => by rw [mapNames]

theorem depth_mapItems : ∀ vs : List Value,
    Json.depthItems (encodeItems (mapItems f vs)) = Json.depthItems (encodeItems vs)
  | [] => rfl
  | v :: vs => by
    rw [mapItems, encodeItems, encodeItems, Json.depthItems, Json.depthItems,
      depth_encode_mapNames v, depth_mapItems vs]

theorem depth_mapMembers : ∀ ms : List (String × Value),
    (encodeMembers (mapMembers f ms)).map (Prod.map id Json.depth) =
      (encodeMembers ms).map (Prod.map id Json.depth)
  | [] => rfl
  | (_, v) :: ms => by
    rw [mapMembers, encodeMembers, encodeMembers, List.map_cons, List.map_cons, Prod.map,
      Prod.map, depth_encode_mapNames v, depth_mapMembers ms]

end

end Value

/-! ## Records -/

section

variable (f : QName → QName)

theorem Parameter.depth_encode_mapNames (p : Param) :
    (Parameter.encode (mapNames f p)).depth = p.encode.depth := by
  simp only [Parameter.encode, Json.depth_record, List.map_cons, Prod.map]
  rw [← p.type.depth_encode_mapNames f]
  rfl

theorem TypeParameter.depth_encode_mapNames (p : TypeParameter) :
    (TypeParameter.encode (mapNames f p)).depth = p.encode.depth := by
  have hconstraint := Json.depth_optionalField_mapNames (TypeDesc.depth_encode_mapNames f)
    "constraint" p.constraint
  simp only [TypeParameter.encode, Json.depth_record, List.map_cons, Prod.map]
  rw [← hconstraint]
  rfl

theorem FunctionDecl.depth_encode_mapNames (d : FunctionDecl) :
    (FunctionDecl.encode (mapNames f d)).depth = d.encode.depth := by
  have hparameters := Json.depth_list_mapNames (Parameter.depth_encode_mapNames f) d.parameters
  have htype := d.returnType.depth_encode_mapNames f
  have htypeParameters := Json.depth_list_mapNames (TypeParameter.depth_encode_mapNames f)
    d.typeParameters
  simp only [FunctionDecl.encode, Json.depth_record, List.map_cons, Prod.map]
  rw [← hparameters, ← htype, ← htypeParameters]
  rfl

theorem PropertyDecl.depth_encode_mapNames (d : PropertyDecl) :
    (PropertyDecl.encode (mapNames f d)).depth = d.encode.depth := by
  have htype := d.type.depth_encode_mapNames f
  simp only [PropertyDecl.encode, Json.depth_record, List.map_cons, Prod.map]
  rw [← htype]
  rfl

theorem MethodDecl.depth_encode_mapNames (d : MethodDecl) :
    (MethodDecl.encode (mapNames f d)).depth = d.encode.depth := by
  have hparameters := Json.depth_list_mapNames (Parameter.depth_encode_mapNames f) d.parameters
  have htype := d.returnType.depth_encode_mapNames f
  have htypeParameters := Json.depth_list_mapNames (TypeParameter.depth_encode_mapNames f)
    d.typeParameters
  simp only [MethodDecl.encode, Json.depth_record, List.map_cons, Prod.map]
  rw [← hparameters, ← htype, ← htypeParameters]
  rfl

theorem ConstructorDecl.depth_encode_mapNames (d : ConstructorDecl) :
    (ConstructorDecl.encode (mapNames f d)).depth = d.encode.depth := by
  have hparameters := Json.depth_list_mapNames (Parameter.depth_encode_mapNames f) d.parameters
  simp only [ConstructorDecl.encode, Json.depth_record, List.map_cons, Prod.map]
  rw [← hparameters]
  rfl

theorem Accessor.depth_encode_mapNames (d : Accessor) :
    (Accessor.encode (mapNames f d)).depth = d.encode.depth := by
  have htype := d.type.depth_encode_mapNames f
  simp only [Accessor.encode, Json.depth_record, List.map_cons, Prod.map]
  rw [← htype]
  rfl

theorem AccessorDecl.depth_encode_mapNames (d : AccessorDecl) :
    (AccessorDecl.encode (mapNames f d)).depth = d.encode.depth := by
  have hgetter := Json.depth_optionalField_mapNames (Accessor.depth_encode_mapNames f) "getter"
    d.getter
  have hsetter := Json.depth_optionalField_mapNames (Accessor.depth_encode_mapNames f) "setter"
    d.setter
  simp only [AccessorDecl.encode, Json.depth_record, List.map_cons, List.map_append, Prod.map]
  rw [← hgetter, ← hsetter]
  rfl

theorem ClassDecl.depth_encode_mapNames (d : ClassDecl) :
    (ClassDecl.encode (mapNames f d)).depth = d.encode.depth := by
  have htypeParameters := Json.depth_list_mapNames (TypeParameter.depth_encode_mapNames f)
    d.typeParameters
  have hbase := Json.depth_optionalField_mapNames (TypeDesc.depth_encode_mapNames f) "extendsClass"
    d.extendsClass
  have hinterfaces := Json.depth_list_mapNames (TypeDesc.depth_encode_mapNames f)
    d.implementsInterfaces
  have hconstructors := Json.depth_list_mapNames (ConstructorDecl.depth_encode_mapNames f)
    d.constructors
  have hproperties := Json.depth_list_mapNames (PropertyDecl.depth_encode_mapNames f) d.properties
  have hmethods := Json.depth_list_mapNames (MethodDecl.depth_encode_mapNames f) d.methods
  have haccessors := Json.depth_list_mapNames (AccessorDecl.depth_encode_mapNames f) d.accessors
  simp only [ClassDecl.encode, Json.depth_record, List.map_cons, List.map_append, Prod.map]
  rw [← htypeParameters, ← hbase, ← hinterfaces, ← hconstructors, ← hproperties, ← hmethods,
    ← haccessors]
  rfl

theorem InterfaceDecl.depth_encode_mapNames (d : InterfaceDecl) :
    (InterfaceDecl.encode (mapNames f d)).depth = d.encode.depth := by
  have htypeParameters := Json.depth_list_mapNames (TypeParameter.depth_encode_mapNames f)
    d.typeParameters
  have hbases := Json.depth_list_mapNames (TypeDesc.depth_encode_mapNames f) d.extendsInterfaces
  have hproperties := Json.depth_list_mapNames (PropertyDecl.depth_encode_mapNames f) d.properties
  have hmethods := Json.depth_list_mapNames (MethodDecl.depth_encode_mapNames f) d.methods
  simp only [InterfaceDecl.encode, Json.depth_record, List.map_cons, Prod.map]
  rw [← htypeParameters, ← hbases, ← hproperties, ← hmethods]
  rfl

theorem TypeAliasDecl.depth_encode_mapNames (d : TypeAliasDecl) :
    (TypeAliasDecl.encode (mapNames f d)).depth = d.encode.depth := by
  have htypeParameters := Json.depth_list_mapNames (TypeParameter.depth_encode_mapNames f)
    d.typeParameters
  have htype := d.type.depth_encode_mapNames f
  simp only [TypeAliasDecl.encode, Json.depth_record, List.map_cons, Prod.map]
  rw [← htypeParameters, ← htype]
  rfl

theorem EnumMember.depth_encode_mapNames (d : EnumMember) :
    (EnumMember.encode (mapNames f d)).depth = d.encode.depth := by
  have hinit := Json.depth_optionalField_mapNames (Value.depth_encode_mapNames f) "init" d.init
  simp only [EnumMember.encode, Json.depth_record, List.map_cons, List.map_append, Prod.map]
  rw [← hinit]
  rfl

theorem EnumDecl.depth_encode_mapNames (d : EnumDecl) :
    (EnumDecl.encode (mapNames f d)).depth = d.encode.depth := by
  have hmembers := Json.depth_list_mapNames (EnumMember.depth_encode_mapNames f) d.members
  simp only [EnumDecl.encode, Json.depth_record, List.map_cons, Prod.map]
  rw [← hmembers]
  rfl

theorem VariableDecl.depth_encode_mapNames (d : VariableDecl) :
    (VariableDecl.encode (mapNames f d)).depth = d.encode.depth := by
  have htype := d.type.depth_encode_mapNames f
  have hvalue := Json.depth_optionalField_mapNames (Value.depth_encode_mapNames f) "initValue"
    d.initValue
  simp only [VariableDecl.encode, Json.depth_record, List.map_cons, List.map_append, Prod.map]
  rw [← htype, ← hvalue]
  rfl

end

namespace Kind

/-- The kinds whose records hold neither types nor values, only texts and numbers. -/
def isFlat : Kind → Bool
  | .project | .module | .import | .export | .edge | .dependency | .moduleDependency => true
  | _ => false

theorem depth_encode_of_isFlat : ∀ (k : Kind) (r : k.Record), k.isFlat = true →
    (k.encode r).depth = 1
  | .project, r, _ => Json.depth_record_of_scalars (by simp [Json.depth])
  | .module, r, _ => Json.depth_record_of_scalars (by simp [QName.encode, Json.depth])
  | .import, r, _ => by
    refine Json.depth_record_of_scalars ?_
    simp only [List.forall_mem_append]
    exact ⟨⟨by simp [QName.encode, Json.depth], Json.depth_of_mem_optionalText⟩,
      by simp [QName.encode, Json.depth]⟩
  | .export, r, _ => by
    refine Json.depth_record_of_scalars ?_
    simp only [List.forall_mem_append]
    exact ⟨⟨by simp [Json.depth], Json.depth_of_mem_optionalText⟩,
      by simp [QName.encode, Json.depth]⟩
  | .edge, r, _ => Json.depth_record_of_scalars (by simp [QName.encode, Json.depth])
  | .dependency, r, _ => by
    refine Json.depth_record_of_scalars ?_
    simp only [List.forall_mem_append]
    exact ⟨⟨by simp [QName.encode, Json.depth], Json.depth_of_mem_optionalText⟩,
      by simp [QName.encode, Json.nat, Json.depth]⟩
  | .moduleDependency, r, _ =>
    Json.depth_record_of_scalars (by simp [QName.encode, Json.nat, Json.depth])

/-- Replacing names in a record does not change how deep its encoding nests. -/
theorem depth_encode_mapNames (f : QName → QName) : ∀ (k : Kind) (r : k.Record),
    (k.encode (mapNames f r)).depth = (k.encode r).depth
  | .function, r => FunctionDecl.depth_encode_mapNames f r
  | .classDeclaration, r => ClassDecl.depth_encode_mapNames f r
  | .interface, r => InterfaceDecl.depth_encode_mapNames f r
  | .typeAlias, r => TypeAliasDecl.depth_encode_mapNames f r
  | .enum, r => EnumDecl.depth_encode_mapNames f r
  | .variable, r => VariableDecl.depth_encode_mapNames f r
  | .project, r | .module, r | .import, r | .export, r | .edge, r | .dependency, r
  | .moduleDependency, r => by
    rw [depth_encode_of_isFlat _ _ rfl, depth_encode_of_isFlat _ _ rfl]

end Kind

/-- A model nests two levels deeper than its records. -/
theorem Model.depth_encode_le {m : Model} {b : Nat}
    (h : ∀ k, ∀ r ∈ m.get k, (k.encode r).depth ≤ b) : m.encode.depth ≤ b + 2 := by
  refine Json.depth_record_le (by omega) fun e he => ?_
  obtain ⟨k, -, rfl⟩ := List.mem_map.mp he
  refine Nat.lt_succ_of_le (Json.depth_array_le (by omega) fun j hj => ?_)
  obtain ⟨r, hr, rfl⟩ := List.mem_map.mp hj
  exact Nat.lt_succ_of_le (h k r hr)

/-! ## Order of members -/

namespace Value

variable (f : QName → QName)

theorem mapItems_eq_map (vs : List Value) : mapItems f vs = vs.map (mapNames f) := by
  induction vs with
  | nil => rfl
  | cons v vs ih => rw [mapItems, ih, List.map_cons]

theorem mapMembers_eq_map (ms : List (String × Value)) :
    mapMembers f ms = ms.map (Prod.map id (mapNames f)) := by
  induction ms with
  | nil => rfl
  | cons m ms ih => rw [mapMembers, ih, List.map_cons]; rfl

theorem ordered_mapNames {v : Value} (h : v.Ordered) : (mapNames f v).Ordered := by
  induction h with
  | null => rw [mapNames]; exact .null
  | literal => rw [mapNames]; exact .literal
  | declared => rw [mapNames]; exact .declared
  | member _ ih => rw [mapNames]; exact .member ih
  | object hms _ ih =>
    rw [mapNames, mapMembers_eq_map]
    refine .object (List.pairwise_map.mpr hms) fun m hm => ?_
    obtain ⟨k, hk, rfl⟩ := List.mem_map.mp hm
    exact ih k hk
  | array _ ih =>
    rw [mapNames, mapItems_eq_map]
    exact .array (List.forall_mem_map.mpr ih)
  | call _ _ ih ihs =>
    rw [mapNames, mapItems_eq_map]
    exact .call ih (List.forall_mem_map.mpr ihs)
  | function => rw [mapNames]; exact .function
  | classValue => rw [mapNames]; exact .classValue
  | complex => rw [mapNames]; exact .complex

end Value

theorem Kind.values_mapNames (f : QName → QName) : ∀ (k : Kind) (r : k.Record),
    k.values (mapNames f r) = (k.values r).map (Value.mapNames f)
  | .enum, r => by
    show ((EnumDecl.members r).map (mapNames f)).filterMap EnumMember.init =
      ((EnumDecl.members r).filterMap EnumMember.init).map (Value.mapNames f)
    rw [List.filterMap_map, List.map_filterMap]
    rfl
  | .variable, r => by
    show ((VariableDecl.initValue r).map (Value.mapNames f)).toList = _
    rw [Option.toList_map]
    rfl
  | .project, _ | .module, _ | .function, _ | .classDeclaration, _ | .interface, _
  | .typeAlias, _ | .import, _ | .export, _ | .edge, _ | .dependency, _
  | .moduleDependency, _ => rfl

/-! ## Legible records -/

/-- A record that can be written and read back inside a limit on nesting: its encoding is at most
`b` levels deep, and its object values list their members in order. -/
structure Kind.Legible (b : Nat) (k : Kind) (r : k.Record) : Prop where
  depth_le : (k.encode r).depth ≤ b
  ordered : ∀ v ∈ k.values r, v.Ordered

namespace Kind.Legible

variable {b : Nat} {k : Kind} {r : k.Record}

theorem of_isFlat (hflat : k.isFlat = true) (hb : 1 ≤ b) : k.Legible b r := by
  refine ⟨(k.depth_encode_of_isFlat r hflat).trans_le hb, fun v hv => ?_⟩
  cases k <;> simp_all [Kind.values, Kind.isFlat]

theorem mono {c : Nat} (h : k.Legible b r) (hle : b ≤ c) : k.Legible c r :=
  ⟨h.depth_le.trans hle, h.ordered⟩

theorem mapNames (h : k.Legible b r) (f : QName → QName) :
    k.Legible b (HasNames.mapNames f r) := by
  refine ⟨(k.depth_encode_mapNames f r).trans_le h.depth_le, ?_⟩
  rw [k.values_mapNames f r]
  exact List.forall_mem_map.mpr fun v hv => Value.ordered_mapNames f (h.ordered v hv)

end Kind.Legible

end CodeConcepts
