import CodeConcepts.Proofs.JsonText

/-!
# How deep values nest

The text of a value reads back just when the value nests at most as deep as the reader allows
(`parse?_render_eq`). This bounds the depth of records and lists by the depth of what they hold.
-/

namespace CodeConcepts.Json

variable {b : Nat} {ms : List (String × Json)} {js : List Json}

theorem depthItems_le (h : ∀ j ∈ js, depth j ≤ b) : depthItems js ≤ b := by
  induction js with
  | nil => exact Nat.zero_le b
  | cons j js ih =>
    obtain ⟨hj, hjs⟩ := List.forall_mem_cons.mp h
    rw [depthItems]
    exact Nat.max_le.mpr ⟨hj, ih hjs⟩

theorem depthMembers_le (h : ∀ m ∈ ms, depth m.2 ≤ b) : depthMembers ms ≤ b := by
  induction ms with
  | nil => exact Nat.zero_le b
  | cons m ms ih =>
    obtain ⟨hm, hms⟩ := List.forall_mem_cons.mp h
    rw [depthMembers]
    exact Nat.max_le.mpr ⟨hm, ih hms⟩

theorem depth_array_le (hb : 1 ≤ b) (h : ∀ j ∈ js, depth j < b) : depth (.array js) ≤ b := by
  have hitems : depthItems js ≤ b - 1 := depthItems_le fun j hj => Nat.le_sub_one_of_lt (h j hj)
  rw [depth]
  omega

/-- Every member of a record is one of those listed. -/
theorem mem_of_mem_sorted {α : Type} {ms : List (String × α)} {m : String × α}
    (h : m ∈ sorted ms) : m ∈ ms := by
  suffices hfold : ∀ (ms acc : List (String × α)),
      m ∈ ms.foldl (fun acc m => insert m.1 m.2 acc) acc → m ∈ acc ∨ m ∈ ms from
    (hfold ms [] h).resolve_left List.not_mem_nil
  intro ms
  induction ms with
  | nil => exact fun acc h => .inl h
  | cons k ks ih =>
    intro acc h
    rcases ih _ h with h | h
    · rcases mem_insert h with rfl | h
      · exact .inr List.mem_cons_self
      · exact .inl h
    · exact .inr (List.mem_cons_of_mem _ h)

theorem depth_record_le (hb : 1 ≤ b) (h : ∀ m ∈ ms, depth m.2 < b) : depth (record ms) ≤ b := by
  have hmembers : depthMembers (sorted ms) ≤ b - 1 :=
    depthMembers_le fun m hm => Nat.le_sub_one_of_lt (h m (mem_of_mem_sorted hm))
  rw [record, depth]
  omega

theorem depth_record_pos (ms : List (String × Json)) : 1 ≤ depth (record ms) := by
  rw [record, depth]
  omega

theorem depth_le_depthItems {j : Json} (h : j ∈ js) : depth j ≤ depthItems js := by
  induction js with
  | nil => cases h
  | cons k ks ih =>
    rw [depthItems]
    rcases List.mem_cons.mp h with rfl | h
    · exact le_max_left _ _
    · exact (ih h).trans (le_max_right _ _)

theorem depth_le_depthMembers {m : String × Json} (h : m ∈ ms) : depth m.2 ≤ depthMembers ms := by
  induction ms with
  | nil => cases h
  | cons k ks ih =>
    rw [depthMembers]
    rcases List.mem_cons.mp h with rfl | h
    · exact le_max_left _ _
    · exact (ih h).trans (le_max_right _ _)

theorem depth_lt_depth_record {m : String × Json} (hnodup : (ms.map Prod.fst).Nodup) (h : m ∈ ms) :
    depth m.2 < depth (record ms) := by
  have hmember := depth_le_depthMembers ((sorted_perm hnodup).mem_iff.mpr h)
  rw [record, depth]
  omega

end CodeConcepts.Json
