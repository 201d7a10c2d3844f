import CodeConcepts.Model.Basic
import Mathlib.Data.List.Forall2

/-!
# Renaming, place by place

`Corresponds r a b` says that `a` and `b` are the same thing but for their names, and that the names
at the same place of both are related by `r`. It is said field by field for every type of record,
without `names` and `mapNames`: a name that these left out, or other data that they touched, would
not pass.

Replacing names gives a thing that corresponds (`corresponds_mapNames`). Things that correspond by
equality are equal (`eq_of_corresponds`), so where every name stays the whole stays
(`mapNames_eq_self`).
-/

namespace CodeConcepts

variable {α : Type} {r : QName → QName → Prop} {f : QName → QName}

/-- Things that can be compared place by place. -/
class NameWise (α : Type) [HasNames α] where
  /-- The names at every place are related, and all else is the same. -/
  Corresponds (r : QName → QName → Prop) : α → α → Prop
  /-- Replaced names stand where the names stood. -/
  corresponds_mapNames {r : QName → QName → Prop} {f : QName → QName} {a : α}
    (h : ∀ n ∈ names a, r n (f n)) : Corresponds r a (mapNames f a)
  /-- No place is left out. -/
  eq_of_corresponds {a b : α} (h : Corresponds Eq a b) : a = b

export NameWise (Corresponds corresponds_mapNames eq_of_corresponds)

/-- Where every name stays, the whole stays. -/
theorem mapNames_eq_self [HasNames α] [NameWise α] {a : α} (h : ∀ n ∈ names a, f n = n) :
    mapNames f a = a :=
  (eq_of_corresponds (corresponds_mapNames fun n hn => (h n hn).symm)).symm

instance : NameWise QName where
  Corresponds r n n' := r n n'
  corresponds_mapNames h := h _ List.mem_cons_self
  eq_of_corresponds h := h

instance [HasNames α] [NameWise α] : NameWise (List α) where
  Corresponds r := List.Forall₂ (Corresponds r)
  corresponds_mapNames {r f xs} h := by
    show List.Forall₂ (Corresponds r) xs (xs.map (mapNames f))
    induction xs with
    | nil => exact .nil
    | cons x xs ih =>
      have h : ∀ n ∈ names x ++ names xs, r n (f n) := h
      rw [List.forall_mem_append] at h
      exact .cons (corresponds_mapNames h.1) (ih h.2)
  eq_of_corresponds {xs ys} h := by
    induction h with
    | nil => rfl
    | cons hx _ ih => rw [eq_of_corresponds hx, ih]

instance [HasNames α] [NameWise α] : NameWise (Option α) where
  Corresponds r := Option.Rel (Corresponds r)
  corresponds_mapNames {r f x} h := by
    cases x with
    | none => exact .none
    | some a => exact .some (corresponds_mapNames h)
  eq_of_corresponds h := by
    cases h with
    | none => rfl
    | some h => rw [eq_of_corresponds h]

/-! ## Type descriptions -/

namespace TypeDesc

mutual

/-- Descriptions that correspond. -/
inductive Matches (r : QName → QName → Prop) : TypeDesc → TypeDesc → Prop
  | primitive {name} : Matches r (.primitive name) (.primitive name)
  | declared {n n' args args'} : r n n' → MatchTypes r args args' →
      Matches r (.declared n args) (.declared n' args')
  | union {ts ts'} : MatchTypes r ts ts' → Matches r (.union ts) (.union ts')
  | intersection {ts ts'} : MatchTypes r ts ts' → Matches r (.intersection ts) (.intersection ts')
  | typeParameter {name} : Matches r (.typeParameter name) (.typeParameter name)
  | object {ms ms'} : MatchMembers r ms ms' → Matches r (.object ms) (.object ms')
  | function {ps ps' t t'} : MatchParameters r ps ps' → Matches r t t' →
      Matches r (.function ps t) (.function ps' t')
  | literal {value} : Matches r (.literal value) (.literal value)
  | tuple {ts ts'} : MatchTypes r ts ts' → Matches r (.tuple ts) (.tuple ts')
  | notIdentified {identifier} : Matches r (.notIdentified identifier) (.notIdentified identifier)

/-- Lists of descriptions that correspond. -/
inductive MatchTypes (r : QName → QName → Prop) : List TypeDesc → List TypeDesc → Prop
  | nil : MatchTypes r [] []
  | cons {t t' ts ts'} : Matches r t t' → MatchTypes r ts ts' → MatchTypes r (t :: ts) (t' :: ts')

/-- Members whose types correspond. -/
inductive MatchMembers (r : QName → QName → Prop) :
    List (ObjectMember TypeDesc) → List (ObjectMember TypeDesc) → Prop
  | nil : MatchMembers r [] []
  | cons {name t t' optional readonly ms ms'} : Matches r t t' → MatchMembers r ms ms' →
      MatchMembers r (⟨name, t, optional, readonly⟩ :: ms) (⟨name, t', optional, readonly⟩ :: ms')

/-- Parameters whose types correspond. -/
inductive MatchParameters (r : QName → QName → Prop) :
    List (Parameter TypeDesc) → List (Parameter TypeDesc) → Prop
  | nil : MatchParameters r [] []
  | cons {index name t t' optional ps ps'} : Matches r t t' → MatchParameters r ps ps' →
      MatchParameters r (⟨index, name, t, optional⟩ :: ps) (⟨index, name, t', optional⟩ :: ps')

end

mutual

theorem matches_mapNames : ∀ {t : TypeDesc}, (∀ n ∈ t.names, r n (f n)) →
    Matches r t (t.mapNames f)
  | .primitive _, _ => by rw [mapNames]; exact .primitive
  | .declared n args, h => by
    rw [TypeDesc.names, List.forall_mem_cons] at h
    rw [mapNames]
    exact .declared h.1 (matches_mapTypes h.2)
  | .union ts, h => by
    rw [TypeDesc.names] at h
    rw [mapNames]
    exact .union (matches_mapTypes h)
  | .intersection ts, h => by
    rw [TypeDesc.names] at h
    rw [mapNames]
    exact .intersection (matches_mapTypes h)
  | .typeParameter _, _ => by rw [mapNames]; exact .typeParameter
  | .object ms, h => by
    rw [TypeDesc.names] at h
    rw [mapNames]
    exact .object (matches_mapMembers h)
  | .function ps t, h => by
    rw [TypeDesc.names, List.forall_mem_append] at h
    rw [mapNames]
    exact .function (matches_mapParameters h.1) (matches_mapNames h.2)
  | .literal _, _ => by rw [mapNames]; exact .literal
  | .tuple ts, h => by
    rw [TypeDesc.names] at h
    rw [mapNames]
    exact .tuple (matches_mapTypes h)
  | .notIdentified _, _ => by rw [mapNames]; exact .notIdentified

theorem matches_mapTypes : ∀ {ts : List TypeDesc}, (∀ n ∈ namesOfTypes ts, r n (f n)) →
    MatchTypes r ts (mapTypes f ts)
  | [], _ => .nil
  | t :: ts, h => by
    rw [namesOfTypes, List.forall_mem_append] at h
    exact .cons (matches_mapNames h.1) (matches_mapTypes h.2)

theorem matches_mapMembers : ∀ {ms : List (ObjectMember TypeDesc)},
    (∀ n ∈ namesOfMembers ms, r n (f n)) → MatchMembers r ms (mapMembers f ms)
  | [], _ => .nil
  | ⟨_, t, _, _⟩ :: ms, h => by
    rw [namesOfMembers, List.forall_mem_append] at h
    exact .cons (matches_mapNames h.1) (matches_mapMembers h.2)

theorem matches_mapParameters : ∀ {ps : List (Parameter TypeDesc)},
    (∀ n ∈ namesOfParameters ps, r n (f n)) → MatchParameters r ps (mapParameters f ps)
  | [], _ => .nil
  | ⟨_, _, t, _⟩ :: ps, h => by
    rw [namesOfParameters, List.forall_mem_append] at h
    exact .cons (matches_mapNames h.1) (matches_mapParameters h.2)

end

mutual

theorem eq_of_matches : ∀ {t t' : TypeDesc}, Matches Eq t t' → t = t'
  | _, _, .primitive => rfl
  | _, _, .declared hn hargs => by rw [hn, eq_of_matchTypes hargs]
  | _, _, .union h => by rw [eq_of_matchTypes h]
  | _, _, .intersection h => by rw [eq_of_matchTypes h]
  | _, _, .typeParameter => rfl
  | _, _, .object h => by rw [eq_of_matchMembers h]
  | _, _, .function hps ht => by rw [eq_of_matchParameters hps, eq_of_matches ht]
  | _, _, .literal => rfl
  | _, _, .tuple h => by rw [eq_of_matchTypes h]
  | _, _, .notIdentified => rfl

theorem eq_of_matchTypes : ∀ {ts ts' : List TypeDesc}, MatchTypes Eq ts ts' → ts = ts'
  | _, _, .nil => rfl
  | _, _, .cons ht hts => by rw [eq_of_matches ht, eq_of_matchTypes hts]

theorem eq_of_matchMembers : ∀ {ms ms' : List (ObjectMember TypeDesc)},
    MatchMembers Eq ms ms' → ms = ms'
  | _, _, .nil => rfl
  | _, _, .cons ht hms => by rw [eq_of_matches ht, eq_of_matchMembers hms]

theorem eq_of_matchParameters : ∀ {ps ps' : List (Parameter TypeDesc)},
    MatchParameters Eq ps ps' → ps = ps'
  | _, _, .nil => rfl
  | _, _, .cons ht hps => by rw [eq_of_matches ht, eq_of_matchParameters hps]

end

instance : NameWise TypeDesc := ⟨Matches, matches_mapNames, eq_of_matches⟩

end TypeDesc

instance : NameWise (Parameter TypeDesc) where
  Corresponds r p q :=
    p.index = q.index ∧ p.name = q.name ∧ Corresponds r p.type q.type ∧ p.optional = q.optional
  corresponds_mapNames h := ⟨rfl, rfl, corresponds_mapNames h, rfl⟩
  eq_of_corresponds {p q} h := by
    cases q
    obtain ⟨rfl, rfl, htype, rfl⟩ := h
    cases eq_of_corresponds htype
    rfl

instance : NameWise TypeParameter where
  Corresponds r p q := p.name = q.name ∧ Corresponds r p.constraint q.constraint
  corresponds_mapNames h := ⟨rfl, corresponds_mapNames h⟩
  eq_of_corresponds {p q} h := by
    cases q
    obtain ⟨rfl, hconstraint⟩ := h
    cases eq_of_corresponds hconstraint
    rfl

/-! ## Values -/

namespace Value

mutual

/-- Values that correspond. -/
inductive Matches (r : QName → QName → Prop) : Value → Value → Prop
  | null {undefined} : Matches r (.null undefined) (.null undefined)
  | literal {value t t'} : Corresponds r t t' → Matches r (.literal value t) (.literal value t')
  | declared {n n'} : r n n' → Matches r (.declared n) (.declared n')
  | member {v v' name} : Matches r v v' → Matches r (.member v name) (.member v' name)
  | object {ms ms'} : MatchMembers r ms ms' → Matches r (.object ms) (.object ms')
  | array {vs vs'} : MatchItems r vs vs' → Matches r (.array vs) (.array vs')
  | call {v v' vs vs'} : Matches r v v' → MatchItems r vs vs' →
      Matches r (.call v vs) (.call v' vs')
  | function : Matches r .function .function
  | classValue : Matches r .classValue .classValue
  | complex {expression} : Matches r (.complex expression) (.complex expression)

/-- Lists of values that correspond. -/
inductive MatchItems (r : QName → QName → Prop) : List Value → List Value → Prop
  | nil : MatchItems r [] []
  | cons {v v' vs vs'} : Matches r v v' → MatchItems r vs vs' → MatchItems r (v :: vs) (v' :: vs')

/-- Members whose values correspond. -/
inductive MatchMembers (r : QName → QName → Prop) :
    List (String × Value) → List (String × Value) → Prop
  | nil : MatchMembers r [] []
  | cons {name v v' ms ms'} : Matches r v v' → MatchMembers r ms ms' →
      MatchMembers r ((name, v) :: ms) ((name, v') :: ms')

end

mutual

theorem matches_mapNames : ∀ {v : Value}, (∀ n ∈ v.names, r n (f n)) → Matches r v (v.mapNames f)
  | .null _, _ => by rw [mapNames]; exact .null
  | .literal _ t, h => by
    rw [Value.names] at h
    rw [mapNames]
    exact .literal (corresponds_mapNames h)
  | .declared n, h => by
    rw [mapNames]
    exact .declared (h n (by rw [Value.names]; exact List.mem_cons_self))
  | .member v _, h => by
    rw [Value.names] at h
    rw [mapNames]
    exact .member (matches_mapNames h)
  | .object ms, h => by
    rw [Value.names] at h
    rw [mapNames]
    exact .object (matches_mapMembers h)
  | .array vs, h => by
    rw [Value.names] at h
    rw [mapNames]
    exact .array (matches_mapItems h)
  | .call v vs, h => by
    rw [Value.names, List.forall_mem_append] at h
    rw [mapNames]
    exact .call (matches_mapNames h.1) (matches_mapItems h.2)
  | .function, _ => by rw [mapNames]; exact .function
  | .classValue, _ => by rw [mapNames]; exact .classValue
  | .complex _, _ => by rw [mapNames]; exact .complex

theorem matches_mapItems : ∀ {vs : List Value}, (∀ n ∈ namesOfItems vs, r n (f n)) →
    MatchItems r vs (mapItems f vs)
  | [], _ => .nil
  | v :: vs, h => by
    rw [namesOfItems, List.forall_mem_append] at h
    exact .cons (matches_mapNames h.1) (matches_mapItems h.2)

theorem matches_mapMembers : ∀ {ms : List (String × Value)},
    (∀ n ∈ namesOfMembers ms, r n (f n)) → MatchMembers r ms (mapMembers f ms)
  | [], _ => .nil
  | (_, v) :: ms, h => by
    rw [namesOfMembers, List.forall_mem_append] at h
    exact .cons (matches_mapNames h.1) (matches_mapMembers h.2)

end

mutual

theorem eq_of_matches : ∀ {v v' : Value}, Matches Eq v v' → v = v'
  | _, _, .null => rfl
  | _, _, .literal h => by rw [eq_of_corresponds h]
  | _, _, .declared hn => by rw [hn]
  | _, _, .member h => by rw [eq_of_matches h]
  | _, _, .object h => by rw [eq_of_matchMembers h]
  | _, _, .array h => by rw [eq_of_matchItems h]
  | _, _, .call hv hvs => by rw [eq_of_matches hv, eq_of_matchItems hvs]
  | _, _, .function => rfl
  | _, _, .classValue => rfl
  | _, _, .complex => rfl

theorem eq_of_matchItems : ∀ {vs vs' : List Value}, MatchItems Eq vs vs' → vs = vs'
  | _, _, .nil => rfl
  | _, _, .cons hv hvs => by rw [eq_of_matches hv, eq_of_matchItems hvs]

theorem eq_of_matchMembers : ∀ {ms ms' : List (String × Value)}, MatchMembers Eq ms ms' → ms = ms'
  | _, _, .nil => rfl
  | _, _, .cons hv hms => by rw [eq_of_matches hv, eq_of_matchMembers hms]

end

instance : NameWise Value := ⟨Matches, matches_mapNames, eq_of_matches⟩

end Value

/-! ## Records -/

instance : NameWise Project where
  Corresponds r d e := d.rootPath = e.rootPath
  corresponds_mapNames _ := rfl
  eq_of_corresponds {d e} h := by
    cases e
    obtain rfl := h
    rfl

instance : NameWise Module where
  Corresponds r d e := r d.fqn e.fqn ∧ d.path = e.path
  corresponds_mapNames h := ⟨h _ List.mem_cons_self, rfl⟩
  eq_of_corresponds {d e} h := by
    cases e
    obtain ⟨rfl, rfl⟩ := h
    rfl

instance : NameWise ImportDecl where
  Corresponds r d e :=
    r d.importer e.importer ∧ d.source = e.source ∧ d.importedName = e.importedName ∧
      d.aliasName = e.aliasName ∧ r d.target e.target ∧ d.typeOnly = e.typeOnly
  corresponds_mapNames h :=
    ⟨h _ List.mem_cons_self, rfl, rfl, rfl, h _ (List.mem_cons_of_mem _ List.mem_cons_self), rfl⟩
  eq_of_corresponds {d e} h := by
    cases e
    obtain ⟨rfl, rfl, rfl, rfl, rfl, rfl⟩ := h
    rfl

instance : NameWise ExportDecl where
  Corresponds r d e :=
    d.identifier = e.identifier ∧ d.aliasName = e.aliasName ∧ r d.declaration e.declaration ∧
      d.isDefault = e.isDefault ∧ d.kind = e.kind ∧ r d.exporter e.exporter
  corresponds_mapNames h :=
    ⟨rfl, rfl, h _ List.mem_cons_self, rfl, rfl, h _ (List.mem_cons_of_mem _ List.mem_cons_self)⟩
  eq_of_corresponds {d e} h := by
    cases e
    obtain ⟨rfl, rfl, rfl, rfl, rfl, rfl⟩ := h
    rfl

instance : NameWise Edge where
  Corresponds r d e := r d.source e.source ∧ r d.target e.target ∧ d.kind = e.kind
  corresponds_mapNames h :=
    ⟨h _ List.mem_cons_self, h _ (List.mem_cons_of_mem _ List.mem_cons_self), rfl⟩
  eq_of_corresponds {d e} h := by
    cases e
    obtain ⟨rfl, rfl, rfl⟩ := h
    rfl

instance : NameWise Dependency where
  Corresponds r d e :=
    r d.source e.source ∧ d.sourceType = e.sourceType ∧ r d.target e.target ∧
      d.targetType = e.targetType ∧ d.cardinality = e.cardinality
  corresponds_mapNames h :=
    ⟨h _ List.mem_cons_self, rfl, h _ (List.mem_cons_of_mem _ List.mem_cons_self), rfl, rfl⟩
  eq_of_corresponds {d e} h := by
    cases e
    obtain ⟨rfl, rfl, rfl, rfl, rfl⟩ := h
    rfl

instance : NameWise ModuleDependency where
  Corresponds r d e := r d.source e.source ∧ r d.target e.target ∧ d.cardinality = e.cardinality
  corresponds_mapNames h :=
    ⟨h _ List.mem_cons_self, h _ (List.mem_cons_of_mem _ List.mem_cons_self), rfl⟩
  eq_of_corresponds {d e} h := by
    cases e
    obtain ⟨rfl, rfl, rfl⟩ := h
    rfl

instance : NameWise FunctionDecl where
  Corresponds r d e :=
    r d.fqn e.fqn ∧ d.name = e.name ∧ Corresponds r d.parameters e.parameters ∧
      Corresponds r d.returnType e.returnType ∧ Corresponds r d.typeParameters e.typeParameters ∧
      d.async = e.async ∧ d.coordinates = e.coordinates
  corresponds_mapNames h := by
    obtain ⟨hfqn, h⟩ := List.forall_mem_cons.mp h
    simp only [List.forall_mem_append] at h
    obtain ⟨⟨hps, hresult⟩, htps⟩ := h
    exact ⟨hfqn, rfl, corresponds_mapNames hps, corresponds_mapNames hresult,
      corresponds_mapNames htps, rfl, rfl⟩
  eq_of_corresponds {d e} h := by
    cases e
    obtain ⟨rfl, rfl, hps, hresult, htps, rfl, rfl⟩ := h
    cases eq_of_corresponds hps
    cases eq_of_corresponds hresult
    cases eq_of_corresponds htps
    rfl

instance : NameWise PropertyDecl where
  Corresponds r d e :=
    r d.fqn e.fqn ∧ d.name = e.name ∧ d.optional = e.optional ∧ Corresponds r d.type e.type ∧
      d.visibility = e.visibility ∧ d.readonly = e.readonly ∧ d.static = e.static ∧
      d.abstract = e.abstract ∧ d.coordinates = e.coordinates
  corresponds_mapNames h := by
    obtain ⟨hfqn, h⟩ := List.forall_mem_cons.mp h
    exact ⟨hfqn, rfl, rfl, corresponds_mapNames h, rfl, rfl, rfl, rfl, rfl⟩
  eq_of_corresponds {d e} h := by
    cases e
    obtain ⟨rfl, rfl, rfl, htype, rfl, rfl, rfl, rfl, rfl⟩ := h
    cases eq_of_corresponds htype
    rfl

instance : NameWise MethodDecl where
  Corresponds r d e :=
    r d.fqn e.fqn ∧ d.name = e.name ∧ Corresponds r d.parameters e.parameters ∧
      Corresponds r d.returnType e.returnType ∧ Corresponds r d.typeParameters e.typeParameters ∧
      d.optional = e.optional ∧ d.visibility = e.visibility ∧ d.static = e.static ∧
      d.abstract = e.abstract ∧ d.async = e.async ∧ d.coordinates = e.coordinates
  corresponds_mapNames h := by
    obtain ⟨hfqn, h⟩ := List.forall_mem_cons.mp h
    simp only [List.forall_mem_append] at h
    obtain ⟨⟨hps, hresult⟩, htps⟩ := h
    exact ⟨hfqn, rfl, corresponds_mapNames hps, corresponds_mapNames hresult,
      corresponds_mapNames htps, rfl, rfl, rfl, rfl, rfl, rfl⟩
  eq_of_corresponds {d e} h := by
    cases e
    obtain ⟨rfl, rfl, hps, hresult, htps, rfl, rfl, rfl, rfl, rfl, rfl⟩ := h
    cases eq_of_corresponds hps
    cases eq_of_corresponds hresult
    cases eq_of_corresponds htps
    rfl

instance : NameWise ConstructorDecl where
  Corresponds r d e :=
    r d.fqn e.fqn ∧ Corresponds r d.parameters e.parameters ∧ d.coordinates = e.coordinates
  corresponds_mapNames h := by
    obtain ⟨hfqn, h⟩ := List.forall_mem_cons.mp h
    exact ⟨hfqn, corresponds_mapNames h, rfl⟩
  eq_of_corresponds {d e} h := by
    cases e
    obtain ⟨rfl, hps, rfl⟩ := h
    cases eq_of_corresponds hps
    rfl

instance : NameWise Accessor where
  Corresponds r d e :=
    Corresponds r d.type e.type ∧ d.visibility = e.visibility ∧ d.coordinates = e.coordinates
  corresponds_mapNames h := ⟨corresponds_mapNames h, rfl, rfl⟩
  eq_of_corresponds {d e} h := by
    cases e
    obtain ⟨htype, rfl, rfl⟩ := h
    cases eq_of_corresponds htype
    rfl

instance : NameWise AccessorDecl where
  Corresponds r d e :=
    r d.fqn e.fqn ∧ d.name = e.name ∧ Corresponds r d.getter e.getter ∧
      Corresponds r d.setter e.setter ∧ d.static = e.static
  corresponds_mapNames h := by
    obtain ⟨hfqn, h⟩ := List.forall_mem_cons.mp h
    simp only [List.forall_mem_append] at h
    obtain ⟨hgetter, hsetter⟩ := h
    exact ⟨hfqn, rfl, corresponds_mapNames hgetter, corresponds_mapNames hsetter, rfl⟩
  eq_of_corresponds {d e} h := by
    cases e
    obtain ⟨rfl, rfl, hgetter, hsetter, rfl⟩ := h
    cases eq_of_corresponds hgetter
    cases eq_of_corresponds hsetter
    rfl

instance : NameWise ClassDecl where
  Corresponds r d e :=
    r d.fqn e.fqn ∧ d.name = e.name ∧ d.abstract = e.abstract ∧
      Corresponds r d.typeParameters e.typeParameters ∧
      Corresponds r d.extendsClass e.extendsClass ∧
      Corresponds r d.implementsInterfaces e.implementsInterfaces ∧
      Corresponds r d.constructors e.constructors ∧ Corresponds r d.properties e.properties ∧
      Corresponds r d.methods e.methods ∧ Corresponds r d.accessors e.accessors ∧
      d.coordinates = e.coordinates
  corresponds_mapNames h := by
    obtain ⟨hfqn, h⟩ := List.forall_mem_cons.mp h
    simp only [List.forall_mem_append] at h
    obtain ⟨⟨⟨⟨⟨⟨htps, hextends⟩, himplements⟩, hctors⟩, hprops⟩, hmethods⟩, haccessors⟩ := h
    exact ⟨hfqn, rfl, rfl, corresponds_mapNames htps, corresponds_mapNames hextends,
      corresponds_mapNames himplements, corresponds_mapNames hctors, corresponds_mapNames hprops,
      corresponds_mapNames hmethods, corresponds_mapNames haccessors, rfl⟩
  eq_of_corresponds {d e} h := by
    cases e
    obtain ⟨rfl, rfl, rfl, htps, hextends, himplements, hctors, hprops, hmethods, haccessors,
      rfl⟩ := h
    cases eq_of_corresponds htps
    cases eq_of_corresponds hextends
    cases eq_of_corresponds himplements
    cases eq_of_corresponds hctors
    cases eq_of_corresponds hprops
    cases eq_of_corresponds hmethods
    cases eq_of_corresponds haccessors
    rfl

instance : NameWise InterfaceDecl where
  Corresponds r d e :=
    r d.fqn e.fqn ∧ d.name = e.name ∧ Corresponds r d.typeParameters e.typeParameters ∧
      Corresponds r d.extendsInterfaces e.extendsInterfaces ∧
      Corresponds r d.properties e.properties ∧ Corresponds r d.methods e.methods ∧
      d.coordinates = e.coordinates
  corresponds_mapNames h := by
    obtain ⟨hfqn, h⟩ := List.forall_mem_cons.mp h
    simp only [List.forall_mem_append] at h
    obtain ⟨⟨⟨htps, hextends⟩, hprops⟩, hmethods⟩ := h
    exact ⟨hfqn, rfl, corresponds_mapNames htps, corresponds_mapNames hextends,
      corresponds_mapNames hprops, corresponds_mapNames hmethods, rfl⟩
  eq_of_corresponds {d e} h := by
    cases e
    obtain ⟨rfl, rfl, htps, hextends, hprops, hmethods, rfl⟩ := h
    cases eq_of_corresponds htps
    cases eq_of_corresponds hextends
    cases eq_of_corresponds hprops
    cases eq_of_corresponds hmethods
    rfl

instance : NameWise TypeAliasDecl where
  Corresponds r d e :=
    r d.fqn e.fqn ∧ d.name = e.name ∧ Corresponds r d.typeParameters e.typeParameters ∧
      Corresponds r d.type e.type ∧ d.coordinates = e.coordinates
  corresponds_mapNames h := by
    obtain ⟨hfqn, h⟩ := List.forall_mem_cons.mp h
    simp only [List.forall_mem_append] at h
    obtain ⟨htps, htype⟩ := h
    exact ⟨hfqn, rfl, corresponds_mapNames htps, corresponds_mapNames htype, rfl⟩
  eq_of_corresponds {d e} h := by
    cases e
    obtain ⟨rfl, rfl, htps, htype, rfl⟩ := h
    cases eq_of_corresponds htps
    cases eq_of_corresponds htype
    rfl

instance : NameWise EnumMember where
  Corresponds r d e := r d.fqn e.fqn ∧ d.name = e.name ∧ Corresponds r d.init e.init
  corresponds_mapNames h := by
    obtain ⟨hfqn, h⟩ := List.forall_mem_cons.mp h
    exact ⟨hfqn, rfl, corresponds_mapNames h⟩
  eq_of_corresponds {d e} h := by
    cases e
    obtain ⟨rfl, rfl, hinit⟩ := h
    cases eq_of_corresponds hinit
    rfl

instance : NameWise EnumDecl where
  Corresponds r d e :=
    r d.fqn e.fqn ∧ d.name = e.name ∧ Corresponds r d.members e.members ∧ d.constant = e.constant ∧
      d.declared = e.declared ∧ d.coordinates = e.coordinates
  corresponds_mapNames h := by
    obtain ⟨hfqn, h⟩ := List.forall_mem_cons.mp h
    exact ⟨hfqn, rfl, corresponds_mapNames h, rfl, rfl, rfl⟩
  eq_of_corresponds {d e} h := by
    cases e
    obtain ⟨rfl, rfl, hmembers, rfl, rfl, rfl⟩ := h
    cases eq_of_corresponds hmembers
    rfl

instance : NameWise VariableDecl where
  Corresponds r d e :=
    r d.fqn e.fqn ∧ d.name = e.name ∧ d.kind = e.kind ∧ Corresponds r d.type e.type ∧
      Corresponds r d.initValue e.initValue ∧ d.coordinates = e.coordinates
  corresponds_mapNames h := by
    obtain ⟨hfqn, h⟩ := List.forall_mem_cons.mp h
    simp only [List.forall_mem_append] at h
    obtain ⟨htype, hvalue⟩ := h
    exact ⟨hfqn, rfl, rfl, corresponds_mapNames htype, corresponds_mapNames hvalue, rfl⟩
  eq_of_corresponds {d e} h := by
    cases e
    obtain ⟨rfl, rfl, rfl, htype, hvalue, rfl⟩ := h
    cases eq_of_corresponds htype
    cases eq_of_corresponds hvalue
    rfl

instance : (k : Kind) → NameWise k.Record
  | .project => inferInstanceAs (NameWise Project)
  | .module => inferInstanceAs (NameWise Module)
  | .function => inferInstanceAs (NameWise FunctionDecl)
  | .classDeclaration => inferInstanceAs (NameWise ClassDecl)
  | .interface => inferInstanceAs (NameWise InterfaceDecl)
  | .typeAlias => inferInstanceAs (NameWise TypeAliasDecl)
  | .enum => inferInstanceAs (NameWise EnumDecl)
  | .variable => inferInstanceAs (NameWise VariableDecl)
  | .import => inferInstanceAs (NameWise ImportDecl)
  | .export => inferInstanceAs (NameWise ExportDecl)
  | .edge => inferInstanceAs (NameWise Edge)
  | .dependency => inferInstanceAs (NameWise Dependency)
  | .moduleDependency => inferInstanceAs (NameWise ModuleDependency)

/-! ## Models -/

/-- Models correspond if they list, kind by kind, records that do. -/
instance : NameWise Model where
  Corresponds r m m' := ∀ k, Corresponds r (m.get k) (m'.get k)
  corresponds_mapNames {r f m} h := by
    intro k
    have hget : (mapNames f m : Model).get k = mapNames f (m.get k) := Model.get_ofFn _ k
    rw [hget]
    refine corresponds_mapNames fun n hn => h n ?_
    exact List.mem_flatMap.mpr ⟨k, k.mem_all, hn⟩
  eq_of_corresponds h := Model.ext_get fun k => eq_of_corresponds (h k)

end CodeConcepts
