import CodeConcepts.Proofs.Encoding
import Mathlib.Data.List.Nodup
import Mathlib.Data.Set.List

/-!
# Models as text

A model is read back from its text, whichever way the text is set out (`Model.ofText_render`).

* Each record is read back field by field; of the kinds of records, enumerations and variables hold
  values (`Kind.values`), whose objects have to be in order (`Kind.roundTrips`).
* The text lists the kinds in the order of their names, not in that of `Kind.all`. Reading the list
  of one kind sets the records of this kind (`Model.decodeKind_entry`), so the order does not matter
  (`Model.foldlM_decodeKind`).
* The text as such is read back by `Json.parse?_render`.
-/

namespace CodeConcepts

/-! ## Keywords -/

theorem Visibility.roundTrips (v : Visibility) :
    RoundTrips Visibility.encode Visibility.decode? v :=
  ⟨.string, nofun, fun _ => by cases v <;> decide⟩

theorem VariableKind.roundTrips (k : VariableKind) :
    RoundTrips (fun k => Json.string (keyword k)) VariableKind.decode? k :=
  ⟨.string, nofun, fun _ => by cases k <;> decide⟩

theorem ExportKind.roundTrips (k : ExportKind) :
    RoundTrips (fun k => Json.string (keyword k)) ExportKind.decode? k :=
  ⟨.string, nofun, fun _ => by cases k <;> decide⟩

theorem ReferenceKind.roundTrips (k : ReferenceKind) :
    RoundTrips (fun k => Json.string (keyword k)) ReferenceKind.decode? k :=
  ⟨.string, nofun, fun _ => by cases k <;> decide⟩

/-! ## Records -/

theorem TypeDesc.roundTrips_ofField (t : TypeDesc) :
    RoundTrips TypeDesc.encode TypeDesc.ofField? t := t.roundTrips false

theorem Parameter.roundTrips (p : Param) : RoundTrips Parameter.encode Parameter.decode? p := by
  refine .record [.required "index" (roundTrips_nat p.index),
    .required "name" (roundTrips_text p.name), .required "type" p.type.roundTrips_ofField,
    .required "optional" (roundTrips_bool p.optional)] (by simp) rfl fun hread j hfields => ?_
  simp_all [Parameter.decode?]

theorem TypeParameter.roundTrips (p : TypeParameter) :
    RoundTrips TypeParameter.encode TypeParameter.decode? p := by
  refine .record [.required "name" (roundTrips_text p.name),
    .optional "constraint" fun t (_ : t ∈ p.constraint) => t.roundTrips_ofField] (by simp)
    (by rcases p with ⟨_, _ | _⟩ <;> rfl) fun hread j hfields => ?_
  simp_all [TypeParameter.decode?]

theorem Coordinates.roundTrips (c : Coordinates) :
    RoundTrips Coordinates.encode Coordinates.decode? c := by
  refine .record [.required "fileName" (roundTrips_text c.fileName),
    .required "startLine" (roundTrips_nat c.startLine),
    .required "startColumn" (roundTrips_nat c.startColumn),
    .required "endLine" (roundTrips_nat c.endLine),
    .required "endColumn" (roundTrips_nat c.endColumn)] (by simp) rfl fun hread j hfields => ?_
  simp_all [Coordinates.decode?]

theorem Project.roundTrips (p : Project) : RoundTrips Project.encode Project.decode? p := by
  refine .record [.required "rootPath" (roundTrips_text p.rootPath)] (by simp) rfl
    fun hread j hfields => ?_
  simp_all [Project.decode?]

theorem Module.roundTrips (m : Module) : RoundTrips Module.encode Module.decode? m := by
  refine .record [.required "fqn" m.fqn.roundTrips, .required "path" (roundTrips_text m.path)]
    (by simp) rfl fun hread j hfields => ?_
  simp_all [Module.decode?]

theorem FunctionDecl.roundTrips (d : FunctionDecl) :
    RoundTrips FunctionDecl.encode FunctionDecl.decode? d := by
  refine .record [.required "fqn" d.fqn.roundTrips,
    .required "functionName" (roundTrips_text d.name),
    .required "parameters" (.list fun p (_ : p ∈ d.parameters) => p.roundTrips),
    .required "returnType" d.returnType.roundTrips_ofField,
    .required "typeParameters" (.list fun p (_ : p ∈ d.typeParameters) => p.roundTrips),
    .required "async" (roundTrips_bool d.async),
    .required "coordinates" d.coordinates.roundTrips] (by simp) rfl fun hread j hfields => ?_
  simp_all [FunctionDecl.decode?]

theorem PropertyDecl.roundTrips (d : PropertyDecl) :
    RoundTrips PropertyDecl.encode PropertyDecl.decode? d := by
  refine .record [.required "fqn" d.fqn.roundTrips,
    .required "propertyName" (roundTrips_text d.name),
    .required "optional" (roundTrips_bool d.optional), .required "type" d.type.roundTrips_ofField,
    .required "visibility" d.visibility.roundTrips,
    .required "readonly" (roundTrips_bool d.readonly),
    .required "static" (roundTrips_bool d.static),
    .required "abstract" (roundTrips_bool d.abstract),
    .required "coordinates" d.coordinates.roundTrips] (by simp) rfl fun hread j hfields => ?_
  simp_all [PropertyDecl.decode?]

theorem MethodDecl.roundTrips (d : MethodDecl) :
    RoundTrips MethodDecl.encode MethodDecl.decode? d := by
  refine .record [.required "fqn" d.fqn.roundTrips,
    .required "methodName" (roundTrips_text d.name),
    .required "parameters" (.list fun p (_ : p ∈ d.parameters) => p.roundTrips),
    .required "returnType" d.returnType.roundTrips_ofField,
    .required "typeParameters" (.list fun p (_ : p ∈ d.typeParameters) => p.roundTrips),
    .required "optional" (roundTrips_bool d.optional),
    .required "visibility" d.visibility.roundTrips, .required "static" (roundTrips_bool d.static),
    .required "abstract" (roundTrips_bool d.abstract), .required "async" (roundTrips_bool d.async),
    .required "coordinates" d.coordinates.roundTrips] (by simp) rfl fun hread j hfields => ?_
  simp_all [MethodDecl.decode?]

theorem ConstructorDecl.roundTrips (d : ConstructorDecl) :
    RoundTrips ConstructorDecl.encode ConstructorDecl.decode? d := by
  refine .record [.required "fqn" d.fqn.roundTrips,
    .required "parameters" (.list fun p (_ : p ∈ d.parameters) => p.roundTrips),
    .required "coordinates" d.coordinates.roundTrips] (by simp) rfl fun hread j hfields => ?_
  simp_all [ConstructorDecl.decode?]

theorem Accessor.roundTrips (d : Accessor) : RoundTrips Accessor.encode Accessor.decode? d := by
  refine .record [.required "type" d.type.roundTrips_ofField,
    .required "visibility" d.visibility.roundTrips,
    .required "coordinates" d.coordinates.roundTrips] (by simp) rfl fun hread j hfields => ?_
  simp_all [Accessor.decode?]

theorem AccessorDecl.roundTrips (d : AccessorDecl) :
    RoundTrips AccessorDecl.encode AccessorDecl.decode? d := by
  refine .record [.required "fqn" d.fqn.roundTrips,
    .required "accessorName" (roundTrips_text d.name),
    .optional "getter" fun a (_ : a ∈ d.getter) => a.roundTrips,
    .optional "setter" fun a (_ : a ∈ d.setter) => a.roundTrips,
    .required "static" (roundTrips_bool d.static)] (by simp)
    (by rcases d with ⟨_, _, _ | _, _ | _, _⟩ <;> rfl) fun hread j hfields => ?_
  simp_all [AccessorDecl.decode?]

theorem ClassDecl.roundTrips (d : ClassDecl) :
    RoundTrips ClassDecl.encode ClassDecl.decode? d := by
  refine .record [.required "fqn" d.fqn.roundTrips,
    .required "className" (roundTrips_text d.name),
    .required "abstract" (roundTrips_bool d.abstract),
    .required "typeParameters" (.list fun p (_ : p ∈ d.typeParameters) => p.roundTrips),
    .optional "extendsClass" fun t (_ : t ∈ d.extendsClass) => t.roundTrips_ofField,
    .required "implementsInterfaces"
      (.list fun t (_ : t ∈ d.implementsInterfaces) => t.roundTrips_ofField),
    .required "constructors" (.list fun c (_ : c ∈ d.constructors) => c.roundTrips),
    .required "properties" (.list fun p (_ : p ∈ d.properties) => p.roundTrips),
    .required "methods" (.list fun m (_ : m ∈ d.methods) => m.roundTrips),
    .required "accessorProperties" (.list fun a (_ : a ∈ d.accessors) => a.roundTrips),
    .required "coordinates" d.coordinates.roundTrips] (by simp)
    (by rcases d with ⟨_, _, _, _, _ | _, _, _, _, _, _, _⟩ <;> rfl) fun hread j hfields => ?_
  simp_all [ClassDecl.decode?]

theorem InterfaceDecl.roundTrips (d : InterfaceDecl) :
    RoundTrips InterfaceDecl.encode InterfaceDecl.decode? d := by
  refine .record [.required "fqn" d.fqn.roundTrips,
    .required "interfaceName" (roundTrips_text d.name),
    .required "typeParameters" (.list fun p (_ : p ∈ d.typeParameters) => p.roundTrips),
    .required "extendsInterfaces"
      (.list fun t (_ : t ∈ d.extendsInterfaces) => t.roundTrips_ofField),
    .required "properties" (.list fun p (_ : p ∈ d.properties) => p.roundTrips),
    .required "methods" (.list fun m (_ : m ∈ d.methods) => m.roundTrips),
    .required "coordinates" d.coordinates.roundTrips] (by simp) rfl fun hread j hfields => ?_
  simp_all [InterfaceDecl.decode?]

theorem TypeAliasDecl.roundTrips (d : TypeAliasDecl) :
    RoundTrips TypeAliasDecl.encode TypeAliasDecl.decode? d := by
  refine .record [.required "fqn" d.fqn.roundTrips,
    .required "typeAliasName" (roundTrips_text d.name),
    .required "typeParameters" (.list fun p (_ : p ∈ d.typeParameters) => p.roundTrips),
    .required "type" d.type.roundTrips_ofField,
    .required "coordinates" d.coordinates.roundTrips] (by simp) rfl fun hread j hfields => ?_
  simp_all [TypeAliasDecl.decode?]

theorem EnumMember.roundTrips {d : EnumMember} (h : ∀ v ∈ d.init, v.Ordered) :
    RoundTrips EnumMember.encode EnumMember.decode? d := by
  have hinit : ∀ v ∈ d.init, RoundTrips Value.encode Value.ofField? v :=
    fun v hv => (h v hv).roundTrips false
  refine .record [.required "fqn" d.fqn.roundTrips, .required "name" (roundTrips_text d.name),
    .optional "init" hinit] (by simp) (by rcases d with ⟨_, _, _ | _⟩ <;> rfl)
    fun hread j hfields => ?_
  simp_all [EnumMember.decode?]

theorem EnumDecl.roundTrips {d : EnumDecl} (h : ∀ m ∈ d.members, ∀ v ∈ m.init, v.Ordered) :
    RoundTrips EnumDecl.encode EnumDecl.decode? d := by
  refine .record [.required "fqn" d.fqn.roundTrips, .required "enumName" (roundTrips_text d.name),
    .required "members" (.list fun m hm => EnumMember.roundTrips (h m hm)),
    .required "constant" (roundTrips_bool d.constant),
    .required "declared" (roundTrips_bool d.declared),
    .required "coordinates" d.coordinates.roundTrips] (by simp) rfl fun hread j hfields => ?_
  simp_all [EnumDecl.decode?]

theorem VariableDecl.roundTrips {d : VariableDecl} (h : ∀ v ∈ d.initValue, v.Ordered) :
    RoundTrips VariableDecl.encode VariableDecl.decode? d := by
  have hinit : ∀ v ∈ d.initValue, RoundTrips Value.encode Value.ofField? v :=
    fun v hv => (h v hv).roundTrips false
  refine .record [.required "fqn" d.fqn.roundTrips,
    .required "variableName" (roundTrips_text d.name), .required "kind" d.kind.roundTrips,
    .required "type" d.type.roundTrips_ofField, .optional "initValue" hinit,
    .required "coordinates" d.coordinates.roundTrips] (by simp)
    (by rcases d with ⟨_, _, _, _, _ | _, _⟩ <;> rfl) fun hread j hfields => ?_
  simp_all [VariableDecl.decode?]

theorem ImportDecl.roundTrips (d : ImportDecl) :
    RoundTrips ImportDecl.encode ImportDecl.decode? d := by
  refine .record [.required "importer" d.importer.roundTrips,
    .required "source" (roundTrips_text d.source),
    .required "importedName" (roundTrips_text d.importedName),
    .optional "alias" fun s (_ : s ∈ d.aliasName) => roundTrips_text s,
    .required "target" d.target.roundTrips, .required "isTypeOnly" (roundTrips_bool d.typeOnly)]
    (by simp) (by rcases d with ⟨_, _, _, _ | _, _, _⟩ <;> rfl) fun hread j hfields => ?_
  simp_all [ImportDecl.decode?]

theorem ExportDecl.roundTrips (d : ExportDecl) :
    RoundTrips ExportDecl.encode ExportDecl.decode? d := by
  refine .record [.required "identifier" (roundTrips_text d.identifier),
    .optional "alias" fun s (_ : s ∈ d.aliasName) => roundTrips_text s,
    .required "declFqn" d.declaration.roundTrips,
    .required "isDefault" (roundTrips_bool d.isDefault), .required "kind" d.kind.roundTrips,
    .required "sourceFilePath" d.exporter.roundTrips]
    (by simp) (by rcases d with ⟨_, _ | _, _, _, _, _⟩ <;> rfl) fun hread j hfields => ?_
  simp_all [ExportDecl.decode?]

theorem Edge.roundTrips (d : Edge) : RoundTrips Edge.encode Edge.decode? d := by
  refine .record [.required "sourceFqn" d.source.roundTrips,
    .required "targetFqn" d.target.roundTrips, .required "referenceKind" d.kind.roundTrips]
    (by simp) rfl fun hread j hfields => ?_
  simp_all [Edge.decode?]

theorem Dependency.roundTrips (d : Dependency) :
    RoundTrips Dependency.encode Dependency.decode? d := by
  refine .record [.required "sourceFqn" d.source.roundTrips,
    .optional "sourceType" fun s (_ : s ∈ d.sourceType) => roundTrips_text s,
    .required "targetFqn" d.target.roundTrips,
    .required "targetType" (roundTrips_text d.targetType),
    .required "cardinality" (roundTrips_nat d.cardinality)]
    (by simp) (by rcases d with ⟨_, _ | _, _, _, _⟩ <;> rfl) fun hread j hfields => ?_
  simp_all [Dependency.decode?]

theorem ModuleDependency.roundTrips (d : ModuleDependency) :
    RoundTrips ModuleDependency.encode ModuleDependency.decode? d := by
  refine .record [.required "sourceModule" d.source.roundTrips,
    .required "targetModule" d.target.roundTrips,
    .required "cardinality" (roundTrips_nat d.cardinality)] (by simp) rfl fun hread j hfields => ?_
  simp_all [ModuleDependency.decode?]

namespace Kind

/-- The values a record holds. -/
def values : (k : Kind) → k.Record → List Value
  | .enum, r => (EnumDecl.members r).filterMap EnumMember.init
  | .variable, r => (VariableDecl.initValue r).toList
  | _, _ => []

theorem roundTrips {k : Kind} {r : k.Record} (h : ∀ v ∈ k.values r, v.Ordered) :
    RoundTrips k.encode k.decode? r := by
  cases k with
  | project => exact Project.roundTrips r
  | module => exact Module.roundTrips r
  | function => exact FunctionDecl.roundTrips r
  | classDeclaration => exact ClassDecl.roundTrips r
  | interface => exact InterfaceDecl.roundTrips r
  | typeAlias => exact TypeAliasDecl.roundTrips r
  | enum => exact EnumDecl.roundTrips fun m hm v hv => h v (List.mem_filterMap.mpr ⟨m, hm, hv⟩)
  | «variable» => exact VariableDecl.roundTrips fun v hv => h v (Option.mem_toList.mpr hv)
  | «import» => exact ImportDecl.roundTrips r
  | «export» => exact ExportDecl.roundTrips r
  | edge => exact Edge.roundTrips r
  | dependency => exact Dependency.roundTrips r
  | moduleDependency => exact ModuleDependency.roundTrips r

theorem ofId?_id (k : Kind) : ofId? k.id = some k := by
  cases k <;> decide

theorem id_injective : Function.Injective id := by
  intro k l h
  have hk := ofId?_id k
  rw [h, ofId?_id l] at hk
  exact (Option.some.inj hk).symm

end Kind

/-! ## Models -/

namespace Model

variable {m acc : Model}

/-- The objects among the values of a model list their members in the order of the names. -/
def ValuesOrdered (m : Model) : Prop := ∀ k, ∀ r ∈ m.get k, ∀ v ∈ k.values r, v.Ordered

instance (m : Model) : Decidable m.ValuesOrdered :=
  decidable_of_iff (∀ k ∈ Kind.all, ∀ r ∈ m.get k, ∀ v ∈ k.values r, v.Ordered)
    ⟨fun h k => h k k.mem_all, fun h k _ => h k⟩

/-- The member of the text of a model that lists its records of a kind. -/
def entry (m : Model) (k : Kind) : String × Json := (k.id, Json.list k.encode (m.get k))

theorem entry_injective (m : Model) : Function.Injective m.entry :=
  fun _ _ h => Kind.id_injective (congrArg Prod.fst h)

theorem nodup_kinds (m : Model) : m.kinds.Nodup :=
  List.Nodup.filter _ (by decide)

theorem nodup_entries (m : Model) : ((m.kinds.map m.entry).map Prod.fst).Nodup := by
  rw [List.map_map]
  exact m.nodup_kinds.map Kind.id_injective

theorem get_of_not_mem_kinds {k : Kind} (h : k ∉ m.kinds) : m.get k = [] := by
  have hnot : ¬m.contains k := fun hk => h (List.mem_filter.mpr ⟨k.mem_all, hk⟩)
  simpa [contains] using hnot

theorem ordered_encode (h : m.ValuesOrdered) : m.encode.Ordered := by
  refine Json.ordered_record m.nodup_entries fun e he => ?_
  obtain ⟨k, -, rfl⟩ := List.mem_map.mp he
  exact Json.ordered_list fun r hr => (Kind.roundTrips (h k r hr)).ordered

/-- Reading the list of one kind sets the records of that kind. -/
theorem decodeKind_entry (h : m.ValuesOrdered) {k : Kind} (hexact : (m.entry k).2.Exact)
    (hempty : acc.get k = []) :
    acc.decodeKind (m.entry k).1 (m.entry k).2 = .ok (acc.set k (m.get k)) := by
  have hread := (RoundTrips.list fun r hr => Kind.roundTrips (h k r hr)).decode?_encode hexact
  rw [Json.list, Json.list?] at hread
  rw [entry, decodeKind, Kind.ofId?_id]
  simp only [Json.list, hread, hempty, List.nil_append]

/-- Reading the lists of some kinds sets the records of these kinds and leaves the others. -/
theorem foldlM_decodeKind (h : m.ValuesOrdered) {ks : List Kind} (hnodup : ks.Nodup)
    (hexact : ∀ k ∈ ks, (m.entry k).2.Exact) (hempty : ∀ k ∈ ks, acc.get k = []) :
    ∃ n, (ks.map m.entry).foldlM (fun acc e => acc.decodeKind e.1 e.2) acc = .ok n ∧
      (∀ k ∈ ks, n.get k = m.get k) ∧ ∀ k ∉ ks, n.get k = acc.get k := by
  induction ks generalizing acc with
  | nil => exact ⟨acc, rfl, nofun, fun _ _ => rfl⟩
  | cons k ks ih =>
    obtain ⟨hk, hnodup⟩ := List.nodup_cons.mp hnodup
    rw [List.forall_mem_cons] at hexact hempty
    have hset : ∀ l ∈ ks, (acc.set k (m.get k)).get l = [] := by
      intro l hl
      have hne : k ≠ l := fun heq => hk (heq ▸ hl)
      rw [get_set_of_ne _ _ hne, hempty.2 l hl]
    obtain ⟨n, hn, hread, hother⟩ := ih hnodup hexact.2 hset
    refine ⟨n, ?_, List.forall_mem_cons.mpr ⟨?_, hread⟩, fun l hl => ?_⟩
    · rw [List.map_cons, List.foldlM_cons, decodeKind_entry h hexact.1 hempty.1]
      exact hn
    · rw [hother k hk, get_set_self]
    · rw [List.mem_cons, not_or] at hl
      rw [hother l hl.2, get_set_of_ne _ _ (Ne.symm hl.1)]

/-- Reading the JSON of a model gives the model. -/
theorem decode_encode (h : m.ValuesOrdered) (hexact : m.encode.Exact) :
    decode m.encode = .ok m := by
  -- The sorted members are the entries of the same kinds, listed in another order.
  have hperm := Json.sorted_perm m.nodup_entries
  obtain ⟨ks, hks⟩ : ∃ ks : List Kind, ks.map m.entry = Json.sorted (m.kinds.map m.entry) := by
    show Json.sorted _ ∈ Set.range (List.map m.entry)
    rw [Set.range_list_map]
    intro e he
    obtain ⟨k, -, rfl⟩ := List.mem_map.mp (hperm.mem_iff.mp he)
    exact ⟨k, rfl⟩
  rw [← hks, List.map_perm_map_iff m.entry_injective] at hperm
  have hencode : m.encode = .object (ks.map m.entry) := congrArg Json.object hks.symm
  rw [hencode] at hexact ⊢
  rw [Json.exact_object, List.forall_mem_map] at hexact
  obtain ⟨n, hn, hread, hother⟩ := foldlM_decodeKind h (hperm.nodup_iff.mpr m.nodup_kinds)
    hexact fun k _ => get_empty k
  have heq : n = m := by
    refine ext_get fun k => ?_
    by_cases hk : k ∈ ks
    · exact hread k hk
    · rw [hother k hk, get_empty, get_of_not_mem_kinds fun hmem => hk (hperm.mem_iff.mpr hmem)]
  rw [heq] at hn
  exact hn

/-- A model is read back from its text in either style. -/
theorem ofText_render (hvalues : m.ValuesOrdered) (hexact : m.encode.Exact)
    (hdepth : m.encode.depth < 128) (style : Json.Style) : ofText (m.render style) = .ok m := by
  have hlimit : m.encode.depth ≤ Json.nestingLimit := Nat.le_of_lt_succ hdepth
  rw [ofText, render, Json.parse?_render hexact (ordered_encode hvalues) hlimit style]
  exact decode_encode hvalues hexact

/-- A file with a function, an enumeration and a variable. Optional fields are present and absent,
types and values are nested, and texts hold characters that are escaped. -/
def settings : Model :=
  let at_ : Coordinates := ⟨"/srv/app/settings.ts", 0, 0, 9, 1⟩
  let number : TypeDesc := .primitive "number"
  { empty with
    modules := [⟨⟨"\"./settings.ts\""⟩, "/srv/app/settings.ts"⟩]
    functions := [{
      fqn := ⟨"\"./settings.ts\".load"⟩
      name := "load"
      parameters := [⟨0, "onLine", .function [⟨0, "line", .primitive "string", true⟩] number, false⟩]
      returnType := .declared ⟨"Promise"⟩ [.union [.typeParameter "T", .literal "\"a\\b\""]]
      typeParameters := [⟨"T", some (.object [⟨"size", .tuple [number], false, true⟩])⟩, ⟨"U", none⟩]
      async := true
      coordinates := at_ }]
    enums := [{
      fqn := ⟨"\"./settings.ts\".Level"⟩
      name := "Level"
      members := [⟨⟨"\"./settings.ts\".Level.Low"⟩, "Low", none⟩,
        ⟨⟨"\"./settings.ts\".Level.High"⟩, "High", some (.literal (.number ⟨true, 6755399441055744, -52⟩) number)⟩]
      constant := true
      declared := false
      coordinates := at_ }]
    variableDecls := [{
      fqn := ⟨"\"./settings.ts\".defaults"⟩
      name := "defaults"
      kind := .const
      type := .notIdentified "Settings"
      initValue := some (.object [("level", .member (.declared ⟨"\"./settings.ts\".Level"⟩) "Low"),
        ("text", .array [.literal (.text "a\tb\n") (.primitive "string"), .null true])])
      coordinates := at_ }] }

theorem ofText_render_settings :
    settings.ValuesOrdered ∧ settings.encode.Exact ∧ settings.encode.depth < 128 ∧
      ofText (settings.render .compact) = .ok settings ∧
        ofText (settings.render .indented) = .ok settings := by
  have hvalues : settings.ValuesOrdered := by decide +kernel
  have hexact : settings.encode.Exact := by decide +kernel
  have hdepth : settings.encode.depth < 128 := by decide +kernel
  exact ⟨hvalues, hexact, hdepth, ofText_render hvalues hexact hdepth .compact,
    ofText_render hvalues hexact hdepth .indented⟩

end Model

end CodeConcepts
