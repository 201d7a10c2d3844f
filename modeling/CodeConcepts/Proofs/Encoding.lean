import CodeConcepts.Model.Decode
import CodeConcepts.Model.Encode
import CodeConcepts.Proofs.JsonText
import Mathlib.Tactic.Simps.Basic

/-!
# Encodings that are read back

`RoundTrips encode decode? a` says of one value that its encoding is in order and that decoding
gives the value again, as long as the numbers in the encoding are exact.

* A record is read back if each of its fields is (`RoundTrips.record`). A `Field` carries what is
  known about its slot, so a record is no more than the list of its fields.
* A variant is read back from its tag and the slots of its fields (`RoundTrips.variant`).
* Types are read back at every depth (`TypeDesc.roundTrips`). So are values, if their objects list
  the members in the order of the names (`Value.Ordered.roundTrips`): an object is written in that
  order, and read in the order in which it is written.
-/

namespace CodeConcepts

open Json (Exact Ordered Increasing record present Part filled)

variable {v : Value}

namespace Json

theorem ordered_record {ms : List (String × Json)} (hnodup : (ms.map Prod.fst).Nodup)
    (h : ∀ m ∈ ms, Ordered m.2) : Ordered (record ms) :=
  .object (increasing_sorted ms) fun m hm => h m ((sorted_perm hnodup).mem_iff.mp hm)

theorem ordered_list {α : Type} {encode : α → Json} {xs : List α}
    (h : ∀ x ∈ xs, Ordered (encode x)) : Ordered (list encode xs) := by
  refine .array fun j hj => ?_
  obtain ⟨x, hx, rfl⟩ := List.mem_map.mp hj
  exact h x hx

theorem exact_of_mem_list {α : Type} {encode : α → Json} {xs : List α}
    (h : Exact (list encode xs)) : ∀ x ∈ xs, Exact (encode x) := by
  intro x hx
  exact exact_array.mp h _ (List.mem_map_of_mem hx)

theorem exact_of_mem_record {ms : List (String × Json)} (hnodup : (ms.map Prod.fst).Nodup)
    (h : Exact (record ms)) : ∀ m ∈ ms, Exact m.2 := by
  intro m hm
  exact exact_object.mp h m ((sorted_perm hnodup).mem_iff.mpr hm)

end Json

/-! ## Reading encodings back -/

/-- The encoding of a value is in order and is read back, if its numbers are exact. That it is never
`null` tells an optional field that is present from one that is absent. -/
structure RoundTrips {α : Type} (encode : α → Json) (decode? : Json → Option α) (a : α) : Prop where
  ordered : (encode a).Ordered
  ne_null : encode a ≠ .null
  decode?_encode : (encode a).Exact → decode? (encode a) = some a

namespace RoundTrips

variable {α : Type} {encode : α → Json} {decode? : Json → Option α} {a : α}

theorem list {xs : List α} (h : ∀ x ∈ xs, RoundTrips encode decode? x) :
    RoundTrips (Json.list encode) (Json.list? decode?) xs where
  ordered := Json.ordered_list fun x hx => (h x hx).ordered
  ne_null := nofun
  decode?_encode hexact := by
    refine Json.mapM_eq_some_of_map (List.map_id _) fun x hx j hj => ?_
    rw [id_eq] at hj
    rw [hj]
    exact (h x hx).decode?_encode (Json.exact_of_mem_list hexact x hx)

/-- A list that is a part of another value is read back likewise. -/
theorem items {j : Json} {xs : List α} {hsize : (Json.list encode xs).size < j.size} {γ : Type}
    {k : List α → Option γ} (hexact : (Json.list encode xs).Exact)
    (h : ∀ x ∈ xs, RoundTrips encode decode? x) :
    (do
      let ps ← Part.items? ⟨Json.list encode xs, hsize⟩
      let xs ← ps.mapM fun q => decode? q.1
      k xs) = k xs := by
  refine Json.Part.items?_bind rfl fun x hx q hq => ?_
  rw [hq]
  exact (h x hx).decode?_encode (Json.exact_of_mem_list hexact x hx)

/-- A variant is read back if it is from its tag and the slots of its fields. -/
theorem variant (tag name : String) (fields : List (String × Json))
    (hnodup : (tag :: fields.map Prod.fst).Nodup)
    (hencode : encode a = Json.record ((tag, .string name) :: fields))
    (hordered : ∀ x ∈ fields.map Prod.snd, x.Ordered)
    (hdecode : (∀ x ∈ fields.map Prod.snd, x.Exact) → ∀ (j : Json) slots h,
      j.tagged? tag = some (.string name, slots) →
        slots (fields.map Prod.fst) = some (filled (fields.map Prod.snd) h) →
          decode? j = some a) :
    RoundTrips encode decode? a where
  ordered := by
    rw [List.forall_mem_map] at hordered
    rw [hencode]
    exact Json.ordered_record hnodup (List.forall_mem_cons.mpr ⟨.string, hordered⟩)
  ne_null := by
    rw [hencode]
    exact nofun
  decode?_encode hexact := by
    rw [hencode] at hexact ⊢
    obtain ⟨slots, h, htag, hslots⟩ := Json.tagged?_variant tag name fields hnodup
    have hfields : ∀ m ∈ (tag, Json.string name) :: fields, m.2.Exact :=
      Json.exact_of_mem_record hnodup hexact
    refine hdecode ?_ _ slots h htag hslots
    rw [List.forall_mem_map]
    exact (List.forall_mem_cons.mp hfields).2

variable {β : Type} {encodeField : β → Json} {read : Json → Option β}

/-- A variant with one field. -/
theorem variant_of_field {make : β → α} {b : β} (tag name field : String) (hne : tag ≠ field)
    (hb : RoundTrips encodeField read b)
    (hencode : encode (make b) = Json.record [(tag, .string name), (field, encodeField b)])
    (hdecode : ∀ (j : Json) slots (x : Part j), j.tagged? tag = some (.string name, slots) →
      slots [field] = some [some x] → decode? j = (read x.1).map make) :
    RoundTrips encode decode? (make b) := by
  refine variant tag name [(field, encodeField b)] (by simpa using hne) hencode
    (List.forall_mem_singleton.mpr hb.ordered) fun hexact j slots hsize htag hslots => ?_
  rw [hdecode j slots ⟨_, hsize _ List.mem_cons_self⟩ htag hslots,
    hb.decode?_encode (List.forall_mem_singleton.mp hexact)]
  rfl

/-- A variant with one field, a list. -/
theorem variant_of_items {make : List β → α} {bs : List β} (tag name field : String)
    (hne : tag ≠ field) (hbs : ∀ b ∈ bs, RoundTrips encodeField read b)
    (hencode : encode (make bs) =
      Json.record [(tag, .string name), (field, Json.list encodeField bs)])
    (hdecode : ∀ (j : Json) slots (x : Part j), j.tagged? tag = some (.string name, slots) →
      slots [field] = some [some x] →
        decode? j = do
          let xs ← x.items?
          return make (← xs.mapM fun x => read x.1)) :
    RoundTrips encode decode? (make bs) := by
  refine variant tag name [(field, Json.list encodeField bs)] (by simpa using hne) hencode
    (List.forall_mem_singleton.mpr (list hbs).ordered) fun hexact j slots hsize htag hslots => ?_
  rw [hdecode j slots ⟨_, hsize _ List.mem_cons_self⟩ htag hslots]
  exact items (List.forall_mem_singleton.mp hexact) hbs

end RoundTrips

/-! ## Records -/

/-- A field of a record with what reading its slot has to give. -/
structure Field where
  name : String
  slot : Option Json
  ordered : ∀ x ∈ slot, x.Ordered
  /-- The field is read back. -/
  Read : Prop
  read : (∀ x ∈ slot, x.Exact) → Read

namespace Field

variable {α : Type} {encode : α → Json} {decode? : Json → Option α}

/-- A field that is always present. -/
@[simps] def required (name : String) {a : α} (h : RoundTrips encode decode? a) : Field where
  name := name
  slot := some (encode a)
  ordered _ hx := Option.some.inj hx ▸ h.ordered
  Read := Json.required decode? (some (encode a)) = some a
  read hexact := h.decode?_encode (hexact _ rfl)

theorem optional_map {o : Option α} (h : ∀ a ∈ o, RoundTrips encode decode? a)
    (hexact : ∀ x ∈ o.map encode, x.Exact) : Json.optional decode? (o.map encode) = some o := by
  cases o with
  | none => rfl
  | some a =>
    rw [Option.map_some, Json.optional]
    · rw [(h a rfl).decode?_encode (hexact _ rfl)]
      rfl
    · exact (h a rfl).ne_null

/-- A field that is left out if it is absent. -/
@[simps] def optional (name : String) {o : Option α} (h : ∀ a ∈ o, RoundTrips encode decode? a) :
    Field where
  name := name
  slot := o.map encode
  ordered x hx := by
    obtain ⟨a, ha, rfl⟩ := Option.map_eq_some_iff.mp hx
    exact (h a ha).ordered
  Read := Json.optional decode? (o.map encode) = some o
  read := optional_map h

end Field

/-- A record is read back if it is from the slots of its fields. -/
theorem RoundTrips.record {α : Type} {encode : α → Json} {decode? : Json → Option α} {a : α}
    (fields : List Field) (hnodup : (fields.map Field.name).Nodup)
    (hencode : encode a = Json.record (present (fields.map fun f => (f.name, f.slot))))
    (hdecode : (∀ f ∈ fields, f.Read) → ∀ j : Json,
      j.fields? (fields.map Field.name) = some (fields.map Field.slot) → decode? j = some a) :
    RoundTrips encode decode? a := by
  have hnames : (fields.map fun f => (f.name, f.slot)).map Prod.fst = fields.map Field.name := by
    rw [List.map_map]
    rfl
  have hslots : (fields.map fun f => (f.name, f.slot)).map Prod.snd = fields.map Field.slot := by
    rw [List.map_map]
    rfl
  rw [← hnames] at hnodup
  refine ⟨?_, ?_, fun hexact => ?_⟩ <;> rw [hencode]
  · refine Json.ordered_record (Json.nodup_present hnodup) fun m hm => ?_
    obtain ⟨f, hf, heq⟩ := List.mem_map.mp (Json.mem_present.mp hm)
    exact f.ordered _ (congrArg Prod.snd heq)
  · exact nofun
  · rw [hencode] at hexact
    refine hdecode (fun f hf => f.read fun x hx => ?_) _ ?_
    · have hmem : (f.name, x) ∈ present (fields.map fun f => (f.name, f.slot)) :=
        Json.mem_present.mpr (hx ▸ List.mem_map_of_mem hf)
      exact Json.exact_of_mem_record (Json.nodup_present hnodup) hexact _ hmem
    · rw [← hnames, ← hslots]
      exact Json.fields?_present hnodup

/-! ## Texts, numbers and names -/

theorem roundTrips_text (s : String) : RoundTrips Json.string Json.text? s :=
  ⟨.string, nofun, fun _ => rfl⟩

theorem roundTrips_bool (b : Bool) : RoundTrips Json.bool Json.bool? b :=
  ⟨.bool, nofun, fun _ => rfl⟩

theorem roundTrips_nat (n : Nat) : RoundTrips Json.nat Json.nat? n := by
  refine ⟨.int, nofun, fun hexact => ?_⟩
  cases hexact with
  | int h =>
    have hlt : n < Nat.pow 2 64 := by
      have := h.2
      show n < 2 ^ 64
      omega
    exact if_pos hlt

theorem QName.roundTrips (n : QName) : RoundTrips QName.encode QName.decode? n :=
  ⟨.string, nofun, fun _ => rfl⟩

/-! ## Type descriptions -/

namespace TypeDesc

theorem encodeTypes_eq_map (ts : List TypeDesc) : encodeTypes ts = ts.map encode := by
  induction ts with
  | nil => rfl
  | cons t ts ih => rw [encodeTypes, ih, List.map_cons]

/-- A member of an object type as JSON. -/
def encodeMember (m : ObjectMember TypeDesc) : Json :=
  record [("name", .string m.name), ("type", m.type.encode), ("optional", .bool m.optional),
    ("readonly", .bool m.readonly)]

theorem encodeMembers_eq_map (ms : List (ObjectMember TypeDesc)) :
    encodeMembers ms = ms.map encodeMember := by
  induction ms with
  | nil => rfl
  | cons m ms ih => rw [encodeMembers, ih, List.map_cons, encodeMember]

theorem encodeParameters_eq_map (ps : List Param) :
    encodeParameters ps = ps.map Parameter.encode := by
  induction ps with
  | nil => rfl
  | cons p ps ih => rw [encodeParameters, ih, List.map_cons, Parameter.encode]

variable {nested : Bool}

theorem roundTrips_declared (n : QName) {args : List TypeDesc}
    (h : ∀ t ∈ args, RoundTrips encode (decode? true) t) :
    RoundTrips encode (decode? nested) (.declared n args) := by
  refine .variant "type" "declared" [("fqn", n.encode), ("typeArguments", Json.list encode args)]
    (by simp) (by rw [encode, encodeTypes_eq_map]; rfl)
    (List.forall_mem_cons.mpr ⟨.string, List.forall_mem_singleton.mpr (RoundTrips.list h).ordered⟩)
    fun hexact j slots hsize htag hslots => ?_
  obtain ⟨-, hexact⟩ := List.forall_mem_cons.mp hexact
  rw [decode?, htag]
  simp only [Json.tagName?]
  rw [show slots ["fqn", "typeArguments"] = _ from hslots]
  exact RoundTrips.items (List.forall_mem_singleton.mp hexact) h

theorem roundTrips_object {ms : List (ObjectMember TypeDesc)}
    (h : ∀ m ∈ ms, RoundTrips encode (decode? true) m.type) :
    RoundTrips encode (decode? nested) (.object ms) := by
  have hordered : ∀ m ∈ ms, (encodeMember m).Ordered := by
    intro m hm
    refine Json.ordered_record (by simp) ?_
    simp [(h m hm).ordered, Ordered.string, Ordered.bool]
  refine .variant "type" "object" [("members", Json.list encodeMember ms)] (by simp)
    (by rw [encode, encodeMembers_eq_map]; rfl)
    (List.forall_mem_singleton.mpr (Json.ordered_list hordered))
    fun hexact j slots hsize htag hslots => ?_
  have hexact := Json.exact_of_mem_list (List.forall_mem_singleton.mp hexact)
  rw [decode?, htag]
  simp only [Json.tagName?]
  rw [show slots ["members"] = _ from hslots]
  -- a member is no tagged value: it is opened slot by slot, and only its type is read in turn
  refine Json.Part.items?_bind rfl fun m hm q hq => ?_
  have htype := (h m hm).decode?_encode
    (Json.exact_of_mem_record (by simp) (hexact m hm) ("type", _) (by simp))
  rw [encodeMember] at hq
  obtain ⟨hsizes, hfields⟩ := Json.Part.slots?_fields hq (by simp)
  rw [show q.slots? ["name", "type", "optional", "readonly"] = _ from hfields]
  simp [filled, htype, Json.text?, Json.bool?]

theorem roundTrips_function {ps : List Param} {t : TypeDesc}
    (hps : ∀ p ∈ ps, RoundTrips encode (decode? true) p.type)
    (ht : RoundTrips encode (decode? true) t) :
    RoundTrips encode (decode? nested) (.function ps t) := by
  have hordered : ∀ p ∈ ps, (Parameter.encode p).Ordered := by
    intro p hp
    refine Json.ordered_record (by simp) ?_
    simp [(hps p hp).ordered, Ordered.string, Ordered.bool, (roundTrips_nat p.index).ordered]
  refine .variant "type" "function"
    [("parameters", Json.list Parameter.encode ps), ("returnType", encode t)] (by simp)
    (by rw [encode, encodeParameters_eq_map]; rfl)
    (List.forall_mem_cons.mpr
      ⟨Json.ordered_list hordered, List.forall_mem_singleton.mpr ht.ordered⟩)
    fun hexact j slots hsize htag hslots => ?_
  obtain ⟨hexact, hreturn⟩ := List.forall_mem_cons.mp hexact
  have hexact := Json.exact_of_mem_list hexact
  have hreturn := ht.decode?_encode (List.forall_mem_singleton.mp hreturn)
  rw [decode?, htag]
  simp only [Json.tagName?]
  rw [show slots ["parameters", "returnType"] = _ from hslots]
  refine (Json.Part.items?_bind rfl fun p hp q hq => ?_).trans ?_
  · have htype := (hps p hp).decode?_encode
      (Json.exact_of_mem_record (by simp) (hexact p hp) ("type", _) (by simp))
    have hindex := (roundTrips_nat p.index).decode?_encode
      (Json.exact_of_mem_record (by simp) (hexact p hp) ("index", _) List.mem_cons_self)
    rw [Parameter.encode] at hq
    obtain ⟨hsizes, hfields⟩ := Json.Part.slots?_fields hq (by simp)
    rw [show q.slots? ["index", "name", "type", "optional"] = _ from hfields]
    simp [filled, htype, hindex, Json.text?, Json.bool?]
  · rw [hreturn]
    rfl

mutual

/-- Every type description is read back, inside another one or not. -/
theorem roundTrips (nested : Bool) : (t : TypeDesc) → RoundTrips encode (decode? nested) t
  | .primitive n => by
    refine .variant_of_field "type" "primitive" "name" (by decide) (roundTrips_text n)
      (by rw [encode]) fun j slots x htag hslots => ?_
    rw [decode?, htag]
    simp only [Json.tagName?]
    rw [hslots]
  | .declared n args => roundTrips_declared n (roundTrips_types args)
  | .union ts => by
    refine .variant_of_items "type" "union" "types" (by decide) (roundTrips_types ts)
      (by rw [encode, encodeTypes_eq_map, Json.list]) fun j slots x htag hslots => ?_
    rw [decode?, htag]
    simp only [Json.tagName?]
    rw [hslots]
  | .intersection ts => by
    refine .variant_of_items "type" "intersection" "types" (by decide) (roundTrips_types ts)
      (by rw [encode, encodeTypes_eq_map, Json.list]) fun j slots x htag hslots => ?_
    rw [decode?, htag]
    simp only [Json.tagName?]
    rw [hslots]
  | .typeParameter n => by
    refine .variant_of_field "type" "typeParameter" "name" (by decide) (roundTrips_text n)
      (by rw [encode]) fun j slots x htag hslots => ?_
    rw [decode?, htag]
    simp only [Json.tagName?]
    rw [hslots]
  | .object ms => roundTrips_object (roundTrips_members ms)
  | .function ps t => roundTrips_function (roundTrips_parameters ps) (roundTrips true t)
  | .literal v => by
    refine .variant_of_field "type" "literal" "value" (by decide) (roundTrips_text v)
      (by rw [encode]) fun j slots x htag hslots => ?_
    rw [decode?, htag]
    simp only [Json.tagName?]
    rw [hslots]
  | .tuple ts => by
    refine .variant_of_items "type" "tuple" "types" (by decide) (roundTrips_types ts)
      (by rw [encode, encodeTypes_eq_map, Json.list]) fun j slots x htag hslots => ?_
    rw [decode?, htag]
    simp only [Json.tagName?]
    rw [hslots]
  | .notIdentified i => by
    refine .variant_of_field "type" "notIdentified" "identifier" (by decide) (roundTrips_text i)
      (by rw [encode]) fun j slots x htag hslots => ?_
    rw [decode?, htag]
    simp only [Json.tagName?]
    rw [hslots]

theorem roundTrips_types : (ts : List TypeDesc) → ∀ t ∈ ts, RoundTrips encode (decode? true) t
  | [] => nofun
  | t :: ts => List.forall_mem_cons.mpr ⟨roundTrips true t, roundTrips_types ts⟩

theorem roundTrips_members : (ms : List (ObjectMember TypeDesc)) →
    ∀ m ∈ ms, RoundTrips encode (decode? true) m.type
  | [] => nofun
  | ⟨_, t, _, _⟩ :: ms => List.forall_mem_cons.mpr ⟨roundTrips true t, roundTrips_members ms⟩

theorem roundTrips_parameters : (ps : List (Parameter TypeDesc)) →
    ∀ p ∈ ps, RoundTrips encode (decode? true) p.type
  | [] => nofun
  | ⟨_, _, t, _⟩ :: ps => List.forall_mem_cons.mpr ⟨roundTrips true t, roundTrips_parameters ps⟩

end

end TypeDesc

/-! ## Values -/

theorem Literal.roundTrips (l : Literal) : RoundTrips Literal.encode Literal.decode? l := by
  cases l with
  | bool b => exact ⟨.bool, nofun, fun _ => rfl⟩
  | number x => exact ⟨.double, nofun, fun _ => rfl⟩
  | text s => exact ⟨.string, nofun, fun _ => rfl⟩

namespace Value

/-- A value whose objects list their members in the order of the names, one member a name. -/
inductive Ordered : Value → Prop
  | null {u} : Ordered (.null u)
  | literal {l t} : Ordered (.literal l t)
  | declared {n} : Ordered (.declared n)
  | member {v m} : Ordered v → Ordered (.member v m)
  | object {ms} : Increasing ms → (∀ m ∈ ms, Ordered m.2) → Ordered (.object ms)
  | array {vs} : (∀ v ∈ vs, Ordered v) → Ordered (.array vs)
  | call {v vs} : Ordered v → (∀ w ∈ vs, Ordered w) → Ordered (.call v vs)
  | function : Ordered .function
  | classValue : Ordered .classValue
  | complex {e} : Ordered (.complex e)

mutual

def decideOrdered : (v : Value) → Decidable (Ordered v)
  | .null _ => isTrue .null
  | .literal _ _ => isTrue .literal
  | .declared _ => isTrue .declared
  | .member v _ =>
    @decidable_of_iff _ _ ⟨.member, fun h => by cases h with | member h => exact h⟩
      (decideOrdered v)
  | .object ms =>
    @decidable_of_iff _ (Increasing ms ∧ ∀ m ∈ ms, Ordered m.2)
      ⟨fun h => .object h.1 h.2, fun h => by cases h with | object h hs => exact ⟨h, hs⟩⟩
      (@instDecidableAnd _ _ inferInstance (decideOrderedMembers ms))
  | .array vs =>
    @decidable_of_iff _ _ ⟨.array, fun h => by cases h with | array h => exact h⟩
      (decideOrderedItems vs)
  | .call v vs =>
    @decidable_of_iff _ (Ordered v ∧ ∀ w ∈ vs, Ordered w)
      ⟨fun h => .call h.1 h.2, fun h => by cases h with | call h hs => exact ⟨h, hs⟩⟩
      (@instDecidableAnd _ _ (decideOrdered v) (decideOrderedItems vs))
  | .function => isTrue .function
  | .classValue => isTrue .classValue
  | .complex _ => isTrue .complex

def decideOrderedItems : (vs : List Value) → Decidable (∀ v ∈ vs, Ordered v)
  | [] => isTrue nofun
  | v :: vs =>
    @decidable_of_iff _ _ List.forall_mem_cons.symm
      (@instDecidableAnd _ _ (decideOrdered v) (decideOrderedItems vs))

def decideOrderedMembers : (ms : List (String × Value)) → Decidable (∀ m ∈ ms, Ordered m.2)
  | [] => isTrue nofun
  | (_, v) :: ms =>
    @decidable_of_iff _ _ List.forall_mem_cons.symm
      (@instDecidableAnd _ _ (decideOrdered v) (decideOrderedMembers ms))

end

instance : DecidablePred Ordered := decideOrdered

theorem encodeItems_eq_map (vs : List Value) : encodeItems vs = vs.map encode := by
  induction vs with
  | nil => rfl
  | cons v vs ih => rw [encodeItems, ih, List.map_cons]

theorem encodeMembers_eq_map (ms : List (String × Value)) :
    encodeMembers ms = ms.map fun m => (m.1, encode m.2) := by
  induction ms with
  | nil => rfl
  | cons m ms ih => rw [encodeMembers, ih, List.map_cons]

variable {nested : Bool}

theorem roundTrips_object {ms : List (String × Value)} (hms : Increasing ms)
    (h : ∀ m ∈ ms, RoundTrips encode (decode? true) m.2) :
    RoundTrips encode (decode? nested) (.object ms) := by
  -- encoding keeps the names, so the members are written in the order in which they are
  have hmembers : Increasing (ms.map fun m => (m.1, encode m.2)) := List.pairwise_map.mpr hms
  have hencode : record (encodeMembers ms) = .object (ms.map fun m => (m.1, encode m.2)) := by
    rw [encodeMembers_eq_map, record, hmembers.sorted_eq]
  refine .variant "kind" "object" [("members", .object (ms.map fun m => (m.1, encode m.2)))]
    (by simp) (by rw [encode, hencode])
    (List.forall_mem_singleton.mpr (.object hmembers ?_))
    fun hexact j slots hsize htag hslots => ?_
  · rw [List.forall_mem_map]
    exact fun m hm => (h m hm).ordered
  have hexact := Json.exact_object.mp (List.forall_mem_singleton.mp hexact)
  rw [List.forall_mem_map] at hexact
  rw [decode?, htag]
  simp only [Json.tagName?]
  rw [show slots ["members"] = _ from hslots]
  refine Json.Part.members?_bind rfl fun m hm q hq => ?_
  rw [hq, (h m hm).decode?_encode (hexact m hm)]
  rfl

theorem roundTrips_literal (l : Literal) (t : TypeDesc) :
    RoundTrips encode (decode? nested) (.literal l t) := by
  refine .variant "kind" "literal" [("value", l.encode), ("type", t.encode)] (by simp)
    (by rw [encode])
    (List.forall_mem_cons.mpr
      ⟨l.roundTrips.ordered, List.forall_mem_singleton.mpr (t.roundTrips true).ordered⟩)
    fun hexact j slots hsize htag hslots => ?_
  obtain ⟨hl, ht⟩ := List.forall_mem_cons.mp hexact
  rw [decode?, htag]
  simp only [Json.tagName?]
  rw [show slots ["value", "type"] = _ from hslots]
  simp [filled, l.roundTrips.decode?_encode hl,
    (t.roundTrips true).decode?_encode (List.forall_mem_singleton.mp ht)]

theorem roundTrips_member (h : RoundTrips encode (decode? true) v) (m : String) :
    RoundTrips encode (decode? nested) (.member v m) := by
  refine .variant "kind" "member" [("parent", encode v), ("member", .string m)] (by simp)
    (by rw [encode])
    (List.forall_mem_cons.mpr ⟨h.ordered, List.forall_mem_singleton.mpr .string⟩)
    fun hexact j slots hsize htag hslots => ?_
  obtain ⟨hv, -⟩ := List.forall_mem_cons.mp hexact
  rw [decode?, htag]
  simp only [Json.tagName?]
  rw [show slots ["parent", "member"] = _ from hslots]
  simp [filled, h.decode?_encode hv, Json.text?]

theorem roundTrips_call {vs : List Value} (hv : RoundTrips encode (decode? true) v)
    (hvs : ∀ w ∈ vs, RoundTrips encode (decode? true) w) :
    RoundTrips encode (decode? nested) (.call v vs) := by
  refine .variant "kind" "call" [("callee", encode v), ("args", Json.list encode vs)] (by simp)
    (by rw [encode, encodeItems_eq_map]; rfl)
    (List.forall_mem_cons.mpr
      ⟨hv.ordered, List.forall_mem_singleton.mpr (RoundTrips.list hvs).ordered⟩)
    fun hexact j slots hsize htag hslots => ?_
  obtain ⟨hcallee, hargs⟩ := List.forall_mem_cons.mp hexact
  rw [decode?, htag]
  simp only [Json.tagName?]
  rw [show slots ["callee", "args"] = _ from hslots]
  simp only [filled, List.map_cons, List.map_nil, List.pmap_cons, List.pmap_nil,
    hv.decode?_encode hcallee]
  exact RoundTrips.items (List.forall_mem_singleton.mp hargs) hvs

/-- A variant without fields. -/
theorem roundTrips_of_tag (name : String) (hencode : encode v = record [("kind", .string name)])
    (hdecode : ∀ (j : Json) slots, j.tagged? "kind" = some (.string name, slots) →
      slots [] = some [] → decode? nested j = some v) : RoundTrips encode (decode? nested) v :=
  .variant "kind" name [] (by simp) hencode nofun fun _ j slots _ htag hslots =>
    hdecode j slots htag hslots

/-- Every value in order is read back. -/
theorem Ordered.roundTrips {v : Value} (h : v.Ordered) (nested : Bool) :
    RoundTrips encode (decode? nested) v := by
  induction h generalizing nested with
  | @null u =>
    refine .variant_of_field "kind" "null" "undefined" (by decide) (roundTrips_bool u)
      (by rw [encode]) fun j slots x htag hslots => ?_
    rw [decode?, htag]
    simp only [Json.tagName?]
    rw [hslots]
  | literal => exact roundTrips_literal _ _
  | @declared n =>
    refine .variant_of_field "kind" "declared" "fqn" (by decide) n.roundTrips
      (by rw [encode]) fun j slots x htag hslots => ?_
    rw [decode?, htag]
    simp only [Json.tagName?]
    rw [hslots]
  | member _ ih => exact roundTrips_member (ih true) _
  | object hms _ ih => exact roundTrips_object hms fun m hm => ih m hm true
  | array _ ih =>
    refine .variant_of_items "kind" "array" "items" (by decide) (fun v hv => ih v hv true)
      (by rw [encode, encodeItems_eq_map, Json.list]) fun j slots x htag hslots => ?_
    rw [decode?, htag]
    simp only [Json.tagName?]
    rw [hslots]
  | call _ _ ih ihs => exact roundTrips_call (ih true) fun w hw => ihs w hw true
  | function =>
    refine roundTrips_of_tag "function" (by rw [encode]) fun j slots htag hslots => ?_
    rw [decode?, htag]
    simp only [Json.tagName?]
    rw [hslots]
  | classValue =>
    refine roundTrips_of_tag "class" (by rw [encode]) fun j slots htag hslots => ?_
    rw [decode?, htag]
    simp only [Json.tagName?]
    rw [hslots]
  | @complex e =>
    refine .variant_of_field "kind" "complex" "expression" (by decide) (roundTrips_text e)
      (by rw [encode]) fun j slots x htag hslots => ?_
    rw [decode?, htag]
    simp only [Json.tagName?]
    rw [hslots]

end Value

end CodeConcepts
