import CodeConcepts.Json.Fields
import Mathlib.Data.List.Perm.Basic

/-!
# Members of objects

An object lists its members in the order of their names (`increasing_sorted`). Ordering members of
different names loses none of them (`sorted_perm`), so each is found again under its name
(`lookup_sorted`).

A record is written as the object of those of its fields that are present. Reading it gives every
slot back, the absent ones included (`fields?_present`). The same holds for the slots of a tagged
variant (`tagged?_variant`) and of a part of another value (`Part.slots?_fields`).
-/

namespace CodeConcepts.Json

variable {α : Type} {ms : List (String × α)} {fields : List (String × Option Json)}
  {n name : String}

/-! ## Ordering members -/

theorem insert_perm (value : α) (h : name ∉ ms.map Prod.fst) :
    (insert name value ms).Perm ((name, value) :: ms) := by
  induction ms with
  | nil => exact .refl _
  | cons m ms ih =>
    obtain ⟨n, v⟩ := m
    obtain ⟨hne, hms⟩ : name ≠ n ∧ name ∉ ms.map Prod.fst := by simpa using h
    rw [insert]
    by_cases hlt : name < n
    · rw [if_pos hlt]
    · rw [if_neg hlt, if_neg hne]
      exact ((ih hms).cons (n, v)).trans (.swap _ _ _)

/-- With different names no member is lost in ordering. -/
theorem sorted_perm (hnodup : (ms.map Prod.fst).Nodup) : (sorted ms).Perm ms := by
  have hfold : ∀ (ms acc : List (String × α)), ((acc ++ ms).map Prod.fst).Nodup →
      (ms.foldl (fun acc m => insert m.1 m.2 acc) acc).Perm (acc ++ ms) := by
    intro ms
    induction ms with
    | nil =>
      intro acc _
      rw [List.append_nil, List.foldl_nil]
    | cons m ms ih =>
      intro acc hnodup
      have hm : m.1 ∉ acc.map Prod.fst := by
        intro hmem
        rw [List.map_append, List.map_cons, List.nodup_append] at hnodup
        exact hnodup.2.2 _ hmem _ List.mem_cons_self rfl
      have hperm : (insert m.1 m.2 acc ++ ms).Perm (acc ++ m :: ms) :=
        ((insert_perm m.2 hm).append_right ms).trans List.perm_middle.symm
      exact (ih _ ((hperm.map Prod.fst).nodup_iff.mpr hnodup)).trans hperm
  exact hfold ms [] hnodup

/-- Members in the order of their names, one member a name. -/
def Increasing (ms : List (String × α)) : Prop := ms.Pairwise fun a b => a.1 < b.1

instance (ms : List (String × α)) : Decidable (Increasing ms) :=
  inferInstanceAs (Decidable (ms.Pairwise fun a b => a.1 < b.1))

theorem mem_insert {value : α} {p : String × α} (h : p ∈ insert name value ms) :
    p = (name, value) ∨ p ∈ ms := by
  fun_induction insert name value ms <;> grind

theorem increasing_insert {value : α} (h : Increasing ms) : Increasing (insert name value ms) := by
  induction ms with
  | nil => exact List.pairwise_singleton _ _
  | cons m ms ih =>
    obtain ⟨n, v⟩ := m
    obtain ⟨hn, hms⟩ := List.pairwise_cons.mp h
    rw [insert]
    rcases Std.lt_trichotomy name n with hlt | rfl | hgt
    · rw [if_pos hlt]
      refine List.pairwise_cons.mpr ⟨fun p hp => ?_, h⟩
      rcases List.mem_cons.mp hp with rfl | hp
      · exact hlt
      · exact String.lt_trans hlt (hn p hp)
    · rw [if_neg (String.lt_irrefl _), if_pos rfl]
      exact List.pairwise_cons.mpr ⟨hn, hms⟩
    · have hne : name ≠ n := by
        rintro rfl
        exact String.lt_irrefl _ hgt
      rw [if_neg (String.lt_asymm hgt), if_neg hne]
      refine List.pairwise_cons.mpr ⟨fun p hp => ?_, ih hms⟩
      rcases mem_insert hp with rfl | hp
      · exact hgt
      · exact hn p hp

theorem increasing_sorted (ms : List (String × α)) : Increasing (sorted ms) := by
  have hfold : ∀ (ms acc : List (String × α)), Increasing acc →
      Increasing (ms.foldl (fun acc m => insert m.1 m.2 acc) acc) := by
    intro ms
    induction ms with
    | nil => exact fun _ h => h
    | cons m ms ih => exact fun _ h => ih _ (increasing_insert h)
  exact hfold ms [] List.Pairwise.nil

theorem Increasing.nodup (h : Increasing ms) : (ms.map Prod.fst).Nodup := by
  rw [List.Nodup, List.pairwise_map]
  exact h.imp fun hlt heq => absurd (heq ▸ hlt) (String.lt_irrefl _)

/-- Members that are in order stay as they are. -/
theorem Increasing.sorted_eq (h : Increasing ms) : sorted ms = ms :=
  (sorted_perm h.nodup).eq_of_pairwise
    (fun _ _ _ _ hlt hgt => absurd (String.lt_trans hlt hgt) (String.lt_irrefl _))
    (increasing_sorted ms) h

/-! ## Looking members up -/

theorem lookup_eq_some_iff (hnodup : (ms.map Prod.fst).Nodup) {v : α} :
    lookup n ms = some v ↔ (n, v) ∈ ms := by
  refine ⟨mem_of_lookup_eq_some, fun hmem => ?_⟩
  induction ms with
  | nil => cases hmem
  | cons m ms ih =>
    rw [List.map_cons, List.nodup_cons] at hnodup
    rw [lookup]
    rcases List.mem_cons.mp hmem with rfl | hmem
    · exact if_pos rfl
    · have hne : m.1 ≠ n := by
        intro heq
        exact hnodup.1 (heq ▸ List.mem_map_of_mem hmem)
      rw [if_neg hne]
      exact ih hnodup.2 hmem

theorem lookup_sorted (hnodup : (ms.map Prod.fst).Nodup) (n : String) :
    lookup n (sorted ms) = lookup n ms := by
  ext v
  rw [lookup_eq_some_iff hnodup, lookup_eq_some_iff (increasing_sorted ms).nodup,
    (sorted_perm hnodup).mem_iff]

theorem member?_of_lookup {ms : List (String × Json)} {x : Json} (h : lookup n ms = some x) :
    ∃ hx, member? n ms = some ⟨x, hx⟩ := by
  refine ⟨size_lt_of_mem_object (mem_of_lookup_eq_some h), ?_⟩
  unfold member?
  split
  · next y hy =>
    cases h.symm.trans hy
    rfl
  · next hnone => cases h.symm.trans hnone

theorem map_member? (n : String) (ms : List (String × Json)) :
    (member? n ms).map Subtype.val = lookup n ms := by
  unfold member?
  split
  · next hsome => exact hsome.symm
  · next hnone => exact hnone.symm

/-! ## Slots of records -/

/-- The members of a record, from the slots of its fields. -/
def present (fields : List (String × Option Json)) : List (String × Json) :=
  fields.filterMap fun f => f.2.map (f.1, ·)

theorem mem_present {x : Json} : (n, x) ∈ present fields ↔ (n, some x) ∈ fields := by
  unfold present
  rw [List.mem_filterMap]
  constructor
  · rintro ⟨⟨n', slot⟩, hmem, hsome⟩
    obtain ⟨x', rfl, heq⟩ := Option.map_eq_some_iff.mp hsome
    cases heq
    exact hmem
  · exact fun hmem => ⟨_, hmem, rfl⟩

theorem nodup_present (hnodup : (fields.map Prod.fst).Nodup) :
    ((present fields).map Prod.fst).Nodup := by
  refine hnodup.sublist ?_
  induction fields with
  | nil => exact .slnil
  | cons f fields ih =>
    obtain ⟨n, slot⟩ := f
    have ih := ih (List.nodup_cons.mp hnodup).2
    cases slot with
    | none => exact ih.cons n
    | some x => exact ih.cons_cons n

theorem lookup_present (hnodup : (fields.map Prod.fst).Nodup) {slot : Option Json}
    (hmem : (n, slot) ∈ fields) : lookup n (present fields) = slot := by
  have hslot : ∀ {slot'}, (n, slot') ∈ fields → slot' = slot := by
    intro slot' hmem'
    have hsame := (lookup_eq_some_iff hnodup).mpr hmem
    rw [(lookup_eq_some_iff hnodup).mpr hmem'] at hsame
    exact Option.some.inj hsame
  cases hfound : lookup n (present fields) with
  | none =>
    cases slot with
    | none => rfl
    | some x =>
      rw [(lookup_eq_some_iff (nodup_present hnodup)).mpr (mem_present.mpr hmem)] at hfound
      cases hfound
  | some x => exact hslot (mem_present.mp (mem_of_lookup_eq_some hfound))

/-- A record is read slot by slot. -/
theorem fields?_present (hnodup : (fields.map Prod.fst).Nodup) :
    (record (present fields)).fields? (fields.map Prod.fst) = some (fields.map Prod.snd) := by
  show some (((fields.map Prod.fst).map fun n => member? n (sorted (present fields))).map
    fun slot => slot.map Subtype.val) = _
  rw [List.map_map, List.map_map]
  congr 1
  refine List.map_congr_left fun f hf => ?_
  exact (map_member? _ _).trans
    ((lookup_sorted (nodup_present hnodup) _).trans (lookup_present hnodup hf))

/-- The slots of fields that all are present. -/
def filled {j : Json} (xs : List Json) (h : ∀ x ∈ xs, x.size < j.size) :
    List (Option (Part j)) :=
  xs.pmap (fun x hx => some ⟨x, hx⟩) h

theorem map_member?_sorted {ms fields : List (String × Json)} (hnodup : (ms.map Prod.fst).Nodup)
    (hsub : ∀ f ∈ fields, f ∈ ms) :
    ∃ h, (fields.map Prod.fst).map (fun n => member? n (sorted ms)) =
      filled (fields.map Prod.snd) h := by
  induction fields with
  | nil => exact ⟨by simp, rfl⟩
  | cons f fields ih =>
    obtain ⟨hf, hfields⟩ := List.forall_mem_cons.mp hsub
    obtain ⟨h, heq⟩ := ih hfields
    have hlookup : lookup f.1 (sorted ms) = some f.2 :=
      (lookup_sorted hnodup _).trans ((lookup_eq_some_iff hnodup).mpr hf)
    obtain ⟨hx, hmember⟩ := member?_of_lookup hlookup
    refine ⟨List.forall_mem_cons.mpr ⟨hx, h⟩, ?_⟩
    rw [List.map_cons, List.map_cons, hmember, heq]
    rfl

/-- A variant is read by its tag and then slot by slot. -/
theorem tagged?_variant (tag variant : String) (fields : List (String × Json))
    (hnodup : (tag :: fields.map Prod.fst).Nodup) :
    ∃ slots h, (record ((tag, .string variant) :: fields)).tagged? tag =
        some (.string variant, slots) ∧
      slots (fields.map Prod.fst) = some (filled (fields.map Prod.snd) h) := by
  have hnodup : (((tag, Json.string variant) :: fields).map Prod.fst).Nodup := hnodup
  have hlookup : lookup tag (sorted ((tag, Json.string variant) :: fields)) =
      some (.string variant) :=
    (lookup_sorted hnodup _).trans ((lookup_eq_some_iff hnodup).mpr List.mem_cons_self)
  obtain ⟨h, hslots⟩ := map_member?_sorted hnodup fun f hf => List.mem_cons_of_mem _ hf
  refine ⟨fun names => some (names.map fun n => member? n _), h, ?_, congrArg some hslots⟩
  show (lookup tag (sorted _)).map _ = _
  rw [hlookup]
  rfl

/-! ## Parts of values -/

variable {j : Json} {p : Part j}

/-- A part that is a record is read slot by slot. -/
theorem Part.slots?_fields {fields : List (String × Json)} (hp : p.1 = record fields)
    (hnodup : (fields.map Prod.fst).Nodup) :
    ∃ h, p.slots? (fields.map Prod.fst) = some (filled (fields.map Prod.snd) h) := by
  obtain ⟨x, hx⟩ := p
  subst hp
  obtain ⟨h, hslots⟩ := map_member?_sorted hnodup fun _ hf => hf
  refine ⟨fun x hmem => Nat.lt_trans (h x hmem) hx, ?_⟩
  have hparts := congrArg (fun slots => some (slots.map fun slot => slot.map fun y : Part _ =>
    (⟨y.1, Nat.lt_trans y.2 hx⟩ : Part j))) hslots
  refine hparts.trans ?_
  rw [filled, filled, List.map_pmap]
  exact congrArg some (List.pmap_congr_left _ fun _ _ _ _ => rfl)

/-- A list is read back item by item, if what is read shows through a view of the items. -/
theorem mapM_eq_some_of_map {β γ δ : Type} {view : γ → δ} {encode : β → δ} {read : γ → Option β}
    {xs : List γ} {ys : List β} (hview : xs.map view = ys.map encode)
    (hread : ∀ y ∈ ys, ∀ x, view x = encode y → read x = some y) : xs.mapM read = some ys := by
  induction xs generalizing ys with
  | nil =>
    rw [List.map_nil, eq_comm, List.map_eq_nil_iff] at hview
    rw [hview]
    rfl
  | cons x xs ih =>
    cases ys with
    | nil => cases hview
    | cons y ys =>
      obtain ⟨hx, hxs⟩ := List.cons.inj hview
      obtain ⟨hy, hys⟩ := List.forall_mem_cons.mp hread
      rw [List.mapM_cons, hy x hx, ih hxs hys]
      rfl

/-- What is done with the items of an array is done with what was encoded, if the reader gives each
item back. -/
theorem Part.items?_bind {β γ : Type} {encode : β → Json} {ys : List β} {read : Part j → Option β}
    {k : List β → Option γ} (hp : p.1 = .array (ys.map encode))
    (hread : ∀ y ∈ ys, ∀ q : Part j, q.1 = encode y → read q = some y) :
    (do let xs ← p.items?; let ys ← xs.mapM read; k ys) = k ys := by
  obtain ⟨xs, hitems, hxs⟩ : ∃ xs, p.items? = some xs ∧ xs.map Subtype.val = ys.map encode := by
    obtain ⟨x, hx⟩ := p
    subst hp
    refine ⟨_, rfl, ?_⟩
    rw [List.map_map, List.map_map]
    exact List.attach_map_subtype_val _
  rw [hitems]
  show (xs.mapM read).bind k = k ys
  rw [mapM_eq_some_of_map hxs hread]
  rfl

/-- Likewise for the members of an object. -/
theorem Part.members?_bind {β γ : Type} {encode : β → Json} {ms : List (String × β)}
    {read : String × Part j → Option (String × β)} {k : List (String × β) → Option γ}
    (hp : p.1 = .object (ms.map fun m => (m.1, encode m.2)))
    (hread : ∀ m ∈ ms, ∀ q : Part j, q.1 = encode m.2 → read (m.1, q) = some m) :
    (do let xs ← p.members?; let ms ← xs.mapM read; k ms) = k ms := by
  obtain ⟨xs, hmembers, hxs⟩ : ∃ xs, p.members? = some xs ∧
      xs.map (fun x => (x.1, x.2.1)) = ms.map fun m => (m.1, encode m.2) := by
    obtain ⟨x, hx⟩ := p
    subst hp
    refine ⟨_, rfl, ?_⟩
    rw [List.map_map]
    exact List.attach_map_subtype_val _
  have hmapM : xs.mapM read = some ms := by
    refine mapM_eq_some_of_map hxs fun m hm x hx => ?_
    obtain ⟨hname, hvalue⟩ := Prod.mk.inj hx
    rw [← hread m hm x.2 hvalue, ← hname]
  rw [hmembers]
  show (xs.mapM read).bind k = k ms
  rw [hmapM]
  rfl

end CodeConcepts.Json
