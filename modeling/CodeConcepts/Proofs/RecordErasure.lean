import CodeConcepts.Extract.File
import CodeConcepts.Proofs.TypingErasure

/-!
# Records without comments

The records and edges of a node are those of the node without the comments that nothing reads
(`Extract.Role.concepts_erase`).
-/

namespace CodeConcepts.Extract

open Syntax (Node Label)
open Syntax.Tree (Reading)
open ScopedNode (declares? overloads? resolve declares?_erase overloads?_erase resolve_erase
  resolveMember?_erase)
open Typing (steady steady_below)

variable {chosen : Label → Bool} {n : ScopedNode} {kind : String}

/-! ## Parts of a node -/

@[simp] theorem coordinates_erase (o : Origin) (n : ScopedNode) :
    o.coordinates (n.erase chosen) = o.coordinates n := by
  simp [Origin.coordinates]

/-- What is made of a part that has to be there does not change if it is the same for that part
without the chosen nodes. -/
theorem bind_need_erase {β : Type} (h : n.tree.Idle chosen) {field : String}
    {f g : ScopedNode → Except Fault β}
    (hfg : ∀ c : ScopedNode, c.tree.Idle chosen → f (c.erase chosen) = g c) :
    (need (n.erase chosen) field >>= f) = (need n field >>= g) := by
  unfold need
  rw [Node.field?_erase h]
  cases hc : n.field? field with
  | none => simp [Fault.lacks, bind, Except.bind]
  | some c => exact hfg c (Node.idle_of_field? h hc)

@[simp] theorem needName_erase (n : ScopedNode) : needName (n.erase chosen) = needName n := by
  simp [needName, Fault.lacks]

theorem visibilityOf_erase (h : n.tree.Idle chosen) :
    visibilityOf (n.erase chosen) = visibilityOf n := by
  unfold visibilityOf
  rw [Node.find?_kind_erase h (by decide), Node.fieldText?_erase h]
  cases n.namedChildren.find? (·.kind == "accessibility_modifier") with
  | none => rfl
  | some m => simp only [Option.map_some, Node.text_erase]

/-! ## Members -/

theorem property?_erase (o : Origin) (h : n.tree.Idle chosen) :
    property? o (n.erase chosen) = property? o n := by
  unfold property?
  simp (disch := decide) only [Node.fieldText?_erase h, declares?_erase, Node.hasToken_erase h,
    Typing.declaredType_erase steady_below h, visibilityOf_erase h, coordinates_erase]

theorem method?_erase (o : Origin) (h : n.tree.Idle chosen) :
    method? o (n.erase chosen) = method? o n := by
  unfold method?
  simp (disch := decide) only [Node.fieldText?_erase h, declares?_erase, Node.hasToken_erase h,
    Typing.parametersIn_erase steady_below h, Typing.returnTypeOf_erase steady_below h,
    Typing.typeParametersOf_erase h, visibilityOf_erase h, Node.kind_erase, coordinates_erase]

theorem parameterProperty?_erase (o : Origin) (owner : QName) (parameters : List Param)
    (h : n.tree.Idle chosen) : parameterProperty? o owner parameters (n.erase chosen) =
      parameterProperty? o owner parameters n := by
  unfold parameterProperty?
  simp (disch := decide) only [Node.fieldText?_erase h, Node.hasToken_erase h,
    Node.any_kind_erase h, visibilityOf_erase h, Node.kind_erase, coordinates_erase]

theorem accessorHalf?_erase (o : Origin) (h : n.tree.Idle chosen) :
    accessorHalf? o (n.erase chosen) = accessorHalf? o n := by
  unfold accessorHalf?
  simp (disch := decide) only [Node.fieldText?_erase h, declares?_erase, Node.hasToken_erase h,
    Typing.parametersIn_erase steady_below h, Typing.returnTypeOf_erase steady_below h,
    visibilityOf_erase h, coordinates_erase]

theorem memberPart?_erase (o : Origin) (owner : QName) (implemented : List String)
    (h : n.tree.Idle chosen) :
    memberPart? o owner implemented (n.erase chosen) = memberPart? o owner implemented n := by
  have hconstruct : ((n.erase chosen).field? "parameters").map (fun ps => MemberPart.construct
      (ps.namedChildren.filterMap (parameterProperty? o owner (Typing.parametersOf ps)))
      (constructorOf o owner (n.erase chosen) ps)) =
    (n.field? "parameters").map (fun ps => MemberPart.construct
      (ps.namedChildren.filterMap (parameterProperty? o owner (Typing.parametersOf ps)))
      (constructorOf o owner n ps)) := by
    rw [Node.field?_erase h]
    cases hps : n.field? "parameters" with
    | none => rfl
    | some ps =>
      have hidle := Node.idle_of_field? h hps
      have hproperties := Node.filterMap_erase hidle
        (f := parameterProperty? o owner (Typing.parametersOf ps))
        (fun c _ hc => parameterProperty?_erase o owner _ hc) fun c hbare => by
          have hkind : c.kind = "comment" := hbare.1
          simp [parameterProperty?, hkind]
      simp only [Option.map_some, constructorOf, declares?_erase, coordinates_erase,
        Typing.parametersOf_erase steady_below hidle, hproperties]
  unfold memberPart?
  rw [Node.kind_erase, hconstruct]
  simp (disch := decide) only [Node.fieldText?_erase h, Node.hasToken_erase h,
    accessorHalf?_erase o h, method?_erase o h, property?_erase o h]

theorem implementedMethods_erase (h : n.tree.Idle chosen) :
    implementedMethods (n.erase chosen) = implementedMethods n := by
  unfold implementedMethods
  rw [Node.filter_kind_erase h (by decide), List.filterMap_map]
  refine List.filterMap_congr fun c hc => ?_
  exact Node.fieldText?_erase (Node.idle_of_mem_namedChildren h (List.mem_filter.mp hc).1) "name"

theorem memberParts_erase (o : Origin) (owner : QName) (h : n.tree.Idle chosen) :
    memberParts o owner (n.erase chosen) = memberParts o owner n := by
  unfold memberParts
  rw [implementedMethods_erase h]
  refine Node.filterMap_erase h (fun c _ hc => memberPart?_erase o owner _ hc) fun c hbare => ?_
  have hkind : c.kind = "comment" := hbare.1
  rw [memberPart?, hkind]
  rfl

/-! ## Declarations -/

theorem functionDecl_erase (o : Origin) (h : n.tree.Idle chosen) :
    functionDecl o (n.erase chosen) = functionDecl o n := by
  unfold functionDecl
  rw [needName_erase]
  refine bind_need_erase h fun name _ => bind_congr fun fqn => bind_need_erase h fun ps hps => ?_
  simp (disch := decide) only [Node.text_erase, Node.hasToken_erase h, coordinates_erase,
    Typing.parametersOf_erase steady_below hps, Typing.returnTypeOf_erase steady_below h,
    Typing.typeParametersOf_erase h]

theorem baseType_erase {clause : ScopedNode} (value : ScopedNode) (h : clause.tree.Idle chosen)
    (hkind : clause.kind = "extends_clause") (hvalue : value.tree.Idle chosen) :
    baseType (clause.erase chosen) (value.erase chosen) = baseType clause value := by
  have harguments : Typing.typeArguments (clause.erase chosen) = Typing.typeArguments clause :=
    Typing.typeArguments_erase steady_below h (by rw [hkind]; rfl)
  unfold Typing.typeArguments at harguments
  unfold baseType
  rw [harguments, Node.kind_erase, Node.text_erase, resolve_erase, Node.field?_erase hvalue,
    Node.fieldText?_erase hvalue, Typing.dottedName_erase]

theorem clauseTypes_erase (h : n.tree.Idle chosen) (hall : Reading.ofKind n.kind = .all) :
    clauseTypes (n.erase chosen) = clauseTypes n :=
  Typing.map_typeOf_erase steady_below h hall

theorem filter_heritageClauses_erase (h : n.tree.Idle chosen) (hkind : kind ≠ "comment") :
    (heritageClauses (n.erase chosen)).filter (·.kind == kind) =
      ((heritageClauses n).filter (·.kind == kind)).map (Node.erase chosen) := by
  unfold heritageClauses
  rw [Node.find?_kind_erase h (by decide)]
  cases hheritage : n.namedChildren.find? (·.kind == "class_heritage") with
  | none => rfl
  | some heritage =>
    have hidle := Node.idle_of_mem_namedChildren h (List.mem_of_find?_eq_some hheritage)
    exact Node.filter_kind_erase hidle hkind

theorem of_getLast?_heritageClauses (h : n.tree.Idle chosen) {clause : ScopedNode}
    (hclause : ((heritageClauses n).filter (·.kind == kind)).getLast? = some clause) :
    clause.tree.Idle chosen ∧ clause.kind = kind := by
  obtain ⟨hmem, hkind⟩ := List.mem_filter.mp (List.mem_of_getLast? hclause)
  refine ⟨?_, by simpa using hkind⟩
  unfold heritageClauses at hmem
  split at hmem
  case h_1 heritage hheritage =>
    have hidle := Node.idle_of_mem_namedChildren h (List.mem_of_find?_eq_some hheritage)
    exact Node.idle_of_mem_namedChildren hidle hmem
  case h_2 => cases hmem

theorem extendedClass?_erase (h : n.tree.Idle chosen) :
    extendedClass? (n.erase chosen) = extendedClass? n := by
  unfold extendedClass?
  rw [filter_heritageClauses_erase h (by decide), List.getLast?_map]
  cases hclause : ((heritageClauses n).filter (·.kind == "extends_clause")).getLast? with
  | none => rfl
  | some clause =>
    obtain ⟨hidle, hkind⟩ := of_getLast?_heritageClauses h hclause
    dsimp only [Option.map_some]
    rw [Node.field?_erase hidle]
    cases hvalue : clause.field? "value" with
    | none => rfl
    | some value =>
      simp only [Option.map_some,
        baseType_erase value hidle hkind (Node.idle_of_field? hidle hvalue)]

theorem implementedInterfaces_erase (h : n.tree.Idle chosen) :
    implementedInterfaces (n.erase chosen) = implementedInterfaces n := by
  unfold implementedInterfaces
  rw [filter_heritageClauses_erase h (by decide), List.getLast?_map]
  cases hclause : ((heritageClauses n).filter (·.kind == "implements_clause")).getLast? with
  | none => rfl
  | some clause =>
    obtain ⟨hidle, hkind⟩ := of_getLast?_heritageClauses h hclause
    exact clauseTypes_erase hidle (by rw [hkind]; rfl)

theorem classDecl_erase (o : Origin) (h : n.tree.Idle chosen) :
    classDecl o (n.erase chosen) = classDecl o n := by
  unfold classDecl
  rw [needName_erase]
  refine bind_need_erase h fun name _ => bind_congr fun fqn =>
    bind_need_erase h fun body hbody => ?_
  simp only [Node.text_erase, Node.kind_erase, coordinates_erase, memberParts_erase o fqn hbody,
    Typing.typeParametersOf_erase h, extendedClass?_erase h, implementedInterfaces_erase h]

theorem filter_interfaceMembers_erase {β : Type} (h : n.tree.Idle chosen) (kind : String)
    (hkind : kind ≠ "comment") {f : ScopedNode → Option β}
    (hf : ∀ c : ScopedNode, c.tree.Idle chosen → f (c.erase chosen) = f c) :
    ((interfaceMembers (n.erase chosen)).filter (·.kind == kind)).filterMap f =
      ((interfaceMembers n).filter (·.kind == kind)).filterMap f := by
  unfold interfaceMembers
  rw [Node.field?_erase h]
  cases hbody : n.field? "body" with
  | none => rfl
  | some body =>
    have hidle := Node.idle_of_field? h hbody
    dsimp only [Option.map_some]
    rw [Node.filter_kind_erase hidle hkind, List.filterMap_map]
    refine List.filterMap_congr fun c hc => hf c ?_
    exact Node.idle_of_mem_namedChildren hidle (List.mem_filter.mp hc).1

theorem interfaceDecl_erase (o : Origin) (h : n.tree.Idle chosen) :
    interfaceDecl o (n.erase chosen) = interfaceDecl o n := by
  have hproperties := filter_interfaceMembers_erase h "property_signature" (by decide)
    fun c hc => property?_erase o hc
  have hmethods := filter_interfaceMembers_erase h "method_signature" (by decide)
    fun c hc => method?_erase o hc
  unfold interfaceDecl
  rw [needName_erase]
  refine bind_need_erase h fun name _ => bind_congr fun fqn => ?_
  simp only [Node.text_erase, coordinates_erase, Typing.typeParametersOf_erase h, hproperties,
    hmethods]
  rw [Node.find?_kind_erase h (by decide)]
  cases hclause : n.namedChildren.find? (·.kind == "extends_type_clause") with
  | none => rfl
  | some clause =>
    have hidle := Node.idle_of_mem_namedChildren h (List.mem_of_find?_eq_some hclause)
    have hkind : clause.kind = "extends_type_clause" := by simpa using List.find?_some hclause
    simp only [Option.map_some, clauseTypes_erase hidle (by rw [hkind]; rfl)]

theorem typeAliasDecl_erase (o : Origin) (h : n.tree.Idle chosen) :
    typeAliasDecl o (n.erase chosen) = typeAliasDecl o n := by
  unfold typeAliasDecl
  rw [needName_erase]
  refine bind_need_erase h fun name _ => bind_congr fun fqn =>
    bind_need_erase h fun value hvalue => ?_
  simp only [Node.text_erase, coordinates_erase, Typing.typeParametersOf_erase h,
    (steady hvalue).type]

theorem map_valueOf_field_erase (h : n.tree.Idle chosen) (name : String) :
    ((n.erase chosen).field? name).map Typing.valueOf = (n.field? name).map Typing.valueOf := by
  rw [Node.field?_erase h]
  cases hc : n.field? name with
  | none => rfl
  | some c => exact congrArg some (Typing.valueOf_erase (Node.idle_of_field? h hc))

theorem enumMember?_erase (owner : QName) (h : n.tree.Idle chosen) :
    enumMember? owner (n.erase chosen) = enumMember? owner n := by
  unfold enumMember?
  dsimp only
  rw [Node.kind_erase, Node.text_erase, map_valueOf_field_erase h, Node.field?_erase h]
  split
  case isTrue hkind =>
    cases hname : n.field? "name" with
    | some name => simp only [Option.map_some, Option.some_or, Node.text_erase]
    | none =>
      rw [Node.namedChild?_erase_of_without h (by rw [hkind]; rfl) hname]
      simp only [Option.map_none, Option.none_or, Option.map_map, Function.comp_def,
        Node.text_erase]
  case isFalse => rfl

theorem enumDecl_erase (o : Origin) (h : n.tree.Idle chosen) :
    enumDecl o (n.erase chosen) = enumDecl o n := by
  have habove : (n.erase chosen).above.any (·.kind == "ambient_declaration") =
      n.above.any (·.kind == "ambient_declaration") := by
    simp [Node.erase, List.any_map, Function.comp_def]
  unfold enumDecl
  rw [needName_erase]
  refine bind_need_erase h fun name _ => bind_congr fun fqn =>
    bind_need_erase h fun body hbody => ?_
  have hmembers := Node.filterMap_erase hbody (fun c _ hc => enumMember?_erase fqn hc)
    fun c hbare => by
      have hkind : c.kind = "comment" := hbare.1
      rw [enumMember?, hkind]
      rfl
  simp (disch := decide) only [Node.text_erase, Node.hasToken_erase h, coordinates_erase, hmembers,
    habove]

theorem variableDecl_erase (o : Origin) (kind : VariableKind) (fqn : QName)
    (h : n.tree.Idle chosen) :
    variableDecl o kind fqn (n.erase chosen) = variableDecl o kind fqn n := by
  unfold variableDecl
  refine bind_need_erase h fun name _ => ?_
  simp only [Node.text_erase, coordinates_erase, Typing.declaredType_erase steady_below h,
    map_valueOf_field_erase h]

/-! ## Imports -/

theorem namedBinding?_erase (module : QName) (typeOnly : Bool) (h : n.tree.Idle chosen) :
    namedBinding? module typeOnly (n.erase chosen) = namedBinding? module typeOnly n := by
  unfold namedBinding?
  simp (disch := decide) only [Node.fieldText?_erase h, Node.hasToken_erase h]

theorem partBindings_erase (module : QName) (typeOnly : Bool) (h : n.tree.Idle chosen) :
    partBindings module typeOnly (n.erase chosen) = partBindings module typeOnly n := by
  unfold partBindings
  rw [Node.kind_erase, Node.text_erase]
  split
  case h_1 => rfl
  case h_2 hkind =>
    rw [Node.namedChild?_erase h (k := 1) (by rw [hkind]; rfl) Nat.one_pos, Node.map_text_erase]
  case h_3 =>
    refine Node.filterMap_erase h (fun c _ hc => namedBinding?_erase module typeOnly hc)
      fun c hbare => ?_
    rw [namedBinding?, Node.fieldText?_of_leaf hbare.2.1 "name", Option.map_none]
  case h_4 => rfl

theorem clauseBindings_erase (module : QName) (typeOnly : Bool) (h : n.tree.Idle chosen) :
    clauseBindings module typeOnly (n.erase chosen) = clauseBindings module typeOnly n := by
  unfold clauseBindings
  rw [Node.filter_kind_erase h (by decide), List.flatMap_map]
  refine List.flatMap_congr fun clause hclause => ?_
  have hidle := Node.idle_of_mem_namedChildren h (List.mem_filter.mp hclause).1
  refine Node.flatMap_erase hidle (fun c _ hc => partBindings_erase module typeOnly hc)
    fun c hbare => ?_
  have hkind : c.kind = "comment" := hbare.1
  rw [partBindings, hkind]
  rfl

theorem importConcepts_erase (o : Origin) (owner : QName) (h : n.tree.Idle chosen) :
    importConcepts o owner (n.erase chosen) = importConcepts o owner n := by
  unfold importConcepts
  dsimp only
  rw [Node.find?_kind_erase h (by decide), Node.hasToken_erase h (by decide)]
  cases hclause : n.namedChildren.find? (·.kind == "import_require_clause") with
  | some clause =>
    have hidle := Node.idle_of_mem_namedChildren h (List.mem_of_find?_eq_some hclause)
    have hkind : clause.kind = "import_require_clause" := by simpa using List.find?_some hclause
    refine bind_need_erase hidle fun source _ => ?_
    rw [Node.namedChild?_erase hidle (k := 1) (by rw [hkind]; rfl) Nat.one_pos,
      Node.map_text_erase, Node.text_erase]
  | none =>
    refine bind_need_erase h fun source _ => ?_
    rw [Node.text_erase, clauseBindings_erase _ _ h]

/-! ## Exports -/

theorem unwrap?_erase (h : n.tree.Idle chosen) :
    unwrap? (n.erase chosen) = (unwrap? n).map (Node.erase chosen) := by
  unfold unwrap?
  rw [Node.kind_erase]
  split
  case h_1 => exact Node.field?_erase h "declaration"
  case h_2 hkind => exact Node.namedChild?_erase h (k := 1) (by rw [hkind]; rfl) Nat.one_pos
  case h_3 => rfl

theorem idle_of_unwrap? (h : n.tree.Idle chosen) {d : ScopedNode} (hd : unwrap? n = some d) :
    d.tree.Idle chosen := by
  unfold unwrap? at hd
  split at hd
  · exact Node.idle_of_field? h hd
  · exact Node.idle_of_namedChild? h hd
  · cases hd
    exact h

theorem declaredName?_erase (kind : ExportKind) (h : n.tree.Idle chosen) :
    declaredName? kind (n.erase chosen) = declaredName? kind n := by
  unfold declaredName?
  rw [Node.fieldText?_erase h, declares?_erase]

theorem declaredNames_erase (h : n.tree.Idle chosen) :
    declaredNames (n.erase chosen) = declaredNames n := by
  unfold declaredNames
  rw [unwrap?_erase h]
  cases hd : unwrap? n with
  | none => rfl
  | some d =>
    have hidle := idle_of_unwrap? h hd
    have hdeclarators : (d.erase chosen).namedChildren.filterMap (declaredName? .value) =
        d.namedChildren.filterMap (declaredName? .value) := by
      refine Node.filterMap_erase hidle (fun c _ hc => declaredName?_erase .value hc)
        fun c hbare => ?_
      rw [declaredName?, Node.fieldText?_of_leaf hbare.2.1]
    simp only [Option.map_some, Node.kind_erase, hdeclarators, declaredName?_erase _ hidle,
      overloads?_erase]

theorem specifierConcepts_erase (o : Origin) (owner : QName) (source : Option QName)
    (typeOnly : Bool) (h : n.tree.Idle chosen) :
    specifierConcepts o owner source typeOnly (n.erase chosen) =
      specifierConcepts o owner source typeOnly n := by
  unfold specifierConcepts
  rw [Node.field?_erase h, Node.fieldText?_erase h, Node.hasToken_erase h (by decide)]
  cases n.field? "name" with
  | none => rfl
  | some name => simp only [Option.map_some, Node.text_erase, localTarget, resolve_erase]

theorem valueConcept_erase (o : Origin) (n : ScopedNode) :
    valueConcept o (n.erase chosen) = valueConcept o n := by
  simp only [valueConcept, Node.kind_erase, Node.text_erase, resolve_erase]

theorem exportedValue?_erase (h : n.tree.Idle chosen) (hkind : n.kind = "export_statement") :
    exportedValue? (n.erase chosen) = (exportedValue? n).map (Node.erase chosen) := by
  unfold exportedValue?
  rw [Node.field?_erase h, Node.hasToken_erase h (by decide), Option.map_or]
  split
  case isTrue htoken => rw [Node.namedChild?_erase_of_token h (by rw [hkind]; rfl) htoken]
  case isFalse => rfl

theorem exportConcepts_erase (o : Origin) (owner : QName) (h : n.tree.Idle chosen)
    (hkind : n.kind = "export_statement") :
    exportConcepts o owner (n.erase chosen) = exportConcepts o owner n := by
  unfold exportConcepts
  simp (disch := decide) only [Node.field?_erase h, Node.hasToken_erase h,
    exportedValue?_erase h hkind, Node.fieldText?_erase h, Node.find?_kind_erase h]
  cases hdeclaration : n.field? "declaration" with
  | some d => simp only [Option.map_some, declaredNames_erase (Node.idle_of_field? h hdeclaration)]
  | none =>
    cases exportedValue? n with
    | some value => simp only [Option.map_some, Option.map_none, valueConcept_erase]
    | none =>
      cases hclause : n.namedChildren.find? (·.kind == "export_clause") with
      | some clause =>
        have hidle := Node.idle_of_mem_namedChildren h (List.mem_of_find?_eq_some hclause)
        refine Node.flatMap_erase hidle
          (fun c _ hc => specifierConcepts_erase o owner _ _ hc) fun c hbare => ?_
        rw [specifierConcepts, Node.field?_of_leaf hbare.2.1]
      | none =>
        cases hnamed : n.namedChildren.find? (·.kind == "namespace_export") with
        | none => rfl
        | some named =>
          have hidle := Node.idle_of_mem_namedChildren h (List.mem_of_find?_eq_some hnamed)
          have hnamed : named.kind = "namespace_export" := by
            simpa using List.find?_some hnamed
          simp only [Option.map_some, Option.map_none, Option.bind_some,
            Node.namedChild?_erase hidle (k := 1) (by rw [hnamed]; rfl) Nat.one_pos,
            Option.map_map, Function.comp_def, Node.text_erase]

/-! ## References -/

theorem parent?_erase (n : ScopedNode) :
    (n.erase chosen).parent? = n.parent?.map (Node.erase chosen) := by
  obtain ⟨t, above⟩ := n
  cases above <;> rfl

theorem idle_of_parent? {p : ScopedNode} (h : ∀ u ∈ n.above, u.Idle chosen)
    (hp : n.parent? = some p) : p.tree.Idle chosen ∧ ∀ u ∈ p.above, u.Idle chosen := by
  obtain ⟨t, above⟩ := n
  cases above with
  | nil => cases hp
  | cons u above =>
    cases hp
    exact List.forall_mem_cons.mp h

theorem isField_erase (h : ∀ u ∈ n.above, u.Idle chosen) (name : String) :
    (n.erase chosen).isField name = n.isField name := by
  unfold Node.isField
  rw [parent?_erase, Node.label_erase]
  cases hp : n.parent? with
  | none => rfl
  | some p =>
    simp only [Option.map_some, Option.bind_some, Node.field?_erase (idle_of_parent? h hp).1,
      Option.any_map, Node.label_erase]

theorem isDeclarationName_erase (h : ∀ u ∈ n.above, u.Idle chosen) :
    isDeclarationName (n.erase chosen) = isDeclarationName n := by
  unfold isDeclarationName
  rw [parent?_erase]
  cases n.parent? <;> simp [isField_erase h]

theorem isIntrinsicTag_erase (n : ScopedNode) :
    isIntrinsicTag (n.erase chosen) = isIntrinsicTag n := by
  unfold isIntrinsicTag
  rw [parent?_erase]
  cases n.parent? <;> simp

theorem usageIn_erase (h : ∀ u ∈ n.above, u.Idle chosen) (parent : ScopedNode)
    (otherwise : ReferenceKind) :
    usageIn (parent.erase chosen) (n.erase chosen) otherwise = usageIn parent n otherwise := by
  unfold usageIn
  simp only [Node.kind_erase, isField_erase h]

theorem usage_erase (h : ∀ u ∈ n.above, u.Idle chosen) (otherwise : ReferenceKind) :
    usage (n.erase chosen) otherwise = usage n otherwise := by
  unfold usage
  rw [parent?_erase]
  cases hp : n.parent? with
  | none => rfl
  | some p =>
    simp only [Option.map_some, Node.kind_erase, isField_erase h, usageIn_erase h, parent?_erase]
    cases p.parent? with
    | none => rfl
    | some g => simp only [Option.map_some, usageIn_erase (idle_of_parent? h hp).2]

theorem identifierEdges_erase (owner : QName) (h : ∀ u ∈ n.above, u.Idle chosen) :
    identifierEdges owner (n.erase chosen) = identifierEdges owner n := by
  simp only [identifierEdges, isDeclarationName_erase h, isIntrinsicTag_erase, resolve_erase,
    usage_erase h]

theorem typeIdentifierEdges_erase (owner : QName) (h : ∀ u ∈ n.above, u.Idle chosen) :
    typeIdentifierEdges owner (n.erase chosen) = typeIdentifierEdges owner n := by
  simp only [typeIdentifierEdges, isDeclarationName_erase h, resolve_erase, usage_erase h]

theorem accessedMember?_erase (h : n.tree.Idle chosen) :
    accessedMember? (n.erase chosen) = accessedMember? n := by
  unfold accessedMember?
  rw [Node.field?_erase h, Node.fieldText?_erase h]
  cases n.field? "object" with
  | none => rfl
  | some object =>
    cases n.fieldText? "property" <;> simp only [Option.map_some, resolveMember?_erase]

theorem memberAccessEdges_erase (owner : QName) (h : n.tree.Idle chosen)
    (habove : ∀ u ∈ n.above, u.Idle chosen) :
    memberAccessEdges owner (n.erase chosen) = memberAccessEdges owner n := by
  simp only [memberAccessEdges, accessedMember?_erase h, usage_erase habove]

theorem nestedTypeEdges_erase (owner : QName) (h : n.tree.Idle chosen)
    (habove : ∀ u ∈ n.above, u.Idle chosen) :
    nestedTypeEdges owner (n.erase chosen) = nestedTypeEdges owner n := by
  simp only [nestedTypeEdges, Node.field?_erase h, Node.fieldText?_erase h, Node.text_erase,
    Typing.dottedName_erase, usage_erase habove]

/-! ## Roles -/

/-- Removing comments that nothing reads changes no record of a node. -/
theorem Role.concepts_erase {r : Role} (o : Origin) (owner : QName) (h : n.tree.Idle chosen)
    (habove : ∀ u ∈ n.above, u.Idle chosen) (hrole : Role.ofKind? n.kind = some r) :
    r.concepts o owner (n.erase chosen) = r.concepts o owner n := by
  cases r with
  | «import» => exact importConcepts_erase o owner h
  | «export» => exact congrArg Except.ok (exportConcepts_erase o owner h (Role.kind_of_export hrole))
  | function => simp only [Role.concepts, overloads?_erase, functionDecl_erase o h]
  | classDeclaration => simp only [Role.concepts, classDecl_erase o h]
  | interface => simp only [Role.concepts, interfaceDecl_erase o h]
  | typeAlias => simp only [Role.concepts, typeAliasDecl_erase o h]
  | enum => simp only [Role.concepts, enumDecl_erase o h]
  | identifier => simp only [Role.concepts, identifierEdges_erase owner habove]
  | typeIdentifier => simp only [Role.concepts, typeIdentifierEdges_erase owner habove]
  | memberAccess => simp only [Role.concepts, memberAccessEdges_erase owner h habove]
  | nestedType => simp only [Role.concepts, nestedTypeEdges_erase owner h habove]
  | member | variableStatement | «namespace» | closingTag => rfl

end CodeConcepts.Extract
