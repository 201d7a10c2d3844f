import CodeConcepts.Model.Dependencies

/-!
# Tallies count every pair once

A tally is seen through `List.lookup`. Adding to a pair changes the count of that pair and of no
other one (`lookup_add`), and keeps the pairs in strictly increasing order (`Increasing.add`), so
that every pair occurs at most once. A whole list of pairs is counted by one such step after the
other, which gives the two main statements: the entries of `ofList` are exactly the pairs of the
list with the totals of their numbers (`mem_ofList`), in increasing order (`increasing_ofList`).
-/

namespace CodeConcepts.Tally

variable {q p : QName × QName} {t : Tally}

/-! ## The order of pairs -/

theorem precedes_iff {a b : QName × QName} :
    precedes a b = true ↔ a.1 < b.1 ∨ a.1 = b.1 ∧ a.2 < b.2 := by
  simp [precedes]

theorem precedes_irrefl (a : QName × QName) : ¬ precedes a a = true := by
  rw [precedes_iff]
  rintro (h | ⟨-, h⟩)
  · exact String.lt_irrefl _ h
  · exact String.lt_irrefl _ h

theorem precedes_trans {a b c : QName × QName} (hab : precedes a b = true)
    (hbc : precedes b c = true) : precedes a c = true := by
  rw [precedes_iff] at hab hbc ⊢
  rcases hab with hab | ⟨eab, hab⟩
  · rcases hbc with hbc | ⟨ebc, -⟩
    · exact .inl (String.lt_trans hab hbc)
    · exact .inl (ebc ▸ hab)
  · rcases hbc with hbc | ⟨ebc, hbc⟩
    · exact .inl (eab ▸ hbc)
    · exact .inr ⟨eab.trans ebc, String.lt_trans hab hbc⟩

/-- Of two names one comes before the other unless they are the same. -/
theorem name_trichotomy (a b : QName) : a < b ∨ a = b ∨ b < a := by
  rcases Std.lt_trichotomy a.text b.text with h | h | h
  · exact .inl h
  · exact .inr (.inl (by cases a; cases b; exact congrArg QName.mk h))
  · exact .inr (.inr h)

theorem precedes_of_not {a b : QName × QName} (hab : ¬ precedes a b = true) (hne : a ≠ b) :
    precedes b a = true := by
  rw [precedes_iff] at hab ⊢
  rcases name_trichotomy a.1 b.1 with h | h | h
  · exact absurd (.inl h) hab
  · rcases name_trichotomy a.2 b.2 with h2 | h2 | h2
    · exact absurd (.inr ⟨h, h2⟩) hab
    · exact absurd (Prod.ext h h2) hne
    · exact .inr ⟨h.symm, h2⟩
  · exact .inl h

/-- The pairs of a tally, one before the next. -/
def Increasing (t : Tally) : Prop := t.Pairwise fun x y => precedes x.1 y.1 = true

theorem Increasing.head_lt {k : Nat} {rest : Tally} (h : Increasing ((q, k) :: rest))
    {x : (QName × QName) × Nat} (hx : x ∈ rest) : precedes q x.1 = true :=
  (List.pairwise_cons.mp h).1 x hx

theorem Increasing.tail {x : (QName × QName) × Nat} {rest : Tally} (h : Increasing (x :: rest)) :
    Increasing rest :=
  (List.pairwise_cons.mp h).2

/-! ## Looking up -/

theorem lookup_cons_of_ne (h : p ≠ q) (k : Nat) (rest : Tally) :
    List.lookup p ((q, k) :: rest) = List.lookup p rest := by
  rw [List.lookup_cons, beq_false_of_ne h]

/-- A pair that comes before all pairs of a tally is not in it. -/
theorem lookup_eq_none_of_precedes (h : ∀ x ∈ t, precedes p x.1 = true) : t.lookup p = none := by
  rw [List.lookup_eq_none_iff]
  intro x hx
  have hp := h x hx
  rw [bne_iff_ne]
  intro e
  exact precedes_irrefl p (by rwa [← e] at hp)

/-- Entries and answers of `lookup` are the same thing. -/
theorem Increasing.mem_iff_lookup (h : Increasing t) {c : Nat} :
    (p, c) ∈ t ↔ t.lookup p = some c := by
  induction t with
  | nil => simp
  | cons x rest ih =>
    obtain ⟨q, k⟩ := x
    rw [List.mem_cons, ih h.tail]
    by_cases e : p = q
    · subst e
      have hnone : List.lookup p rest = none :=
        lookup_eq_none_of_precedes fun x hx => h.head_lt hx
      rw [hnone, List.lookup_cons_self]
      simp [eq_comm]
    · rw [lookup_cons_of_ne e]
      simp [e]

/-! ## Adding to one pair -/

theorem lookup_add (h : Increasing t) (p q : QName × QName) (n : Nat) :
    (t.add p n).lookup q =
      if q = p then some (((t.lookup p).getD 0 + n) % wordSize) else t.lookup q := by
  induction t with
  | nil =>
    by_cases e : q = p
    · simp [add, e]
    · simp [add, e]
  | cons x rest ih =>
    obtain ⟨r, k⟩ := x
    unfold add
    split
    · next hpr =>
      -- the pair is new: it comes before all the others
      have hnone : List.lookup p ((r, k) :: rest) = none := by
        apply lookup_eq_none_of_precedes
        intro x hx
        rcases List.mem_cons.mp hx with rfl | hx
        · exact hpr
        · exact precedes_trans hpr (h.head_lt hx)
      rw [hnone]
      by_cases e : q = p
      · simp [e]
      · rw [lookup_cons_of_ne e, if_neg e]
    · split
      · next hpr =>
        -- the pair heads the tally: its count grows, and the others are found where they were
        subst hpr
        by_cases e : q = p
        · simp [e]
        · rw [lookup_cons_of_ne e, lookup_cons_of_ne e, if_neg e]
      · next hpr =>
        rw [lookup_cons_of_ne hpr]
        by_cases e : q = r
        · subst e
          rw [List.lookup_cons_self, List.lookup_cons_self, if_neg (Ne.symm hpr)]
        · rw [lookup_cons_of_ne e, lookup_cons_of_ne e, ih h.tail]

theorem mem_keys_add {n : Nat} : q ∈ (t.add p n).map Prod.fst ↔ q = p ∨ q ∈ t.map Prod.fst := by
  induction t with
  | nil => simp [add]
  | cons x rest ih =>
    obtain ⟨r, k⟩ := x
    unfold add
    split
    · simp
    · split
      · next hpr => simp [hpr]
      · simp only [List.map_cons, List.mem_cons, ih]
        exact or_left_comm

theorem Increasing.add {t : Tally} (h : Increasing t) (p : QName × QName) (n : Nat) :
    Increasing (t.add p n) := by
  induction t with
  | nil => exact List.pairwise_singleton _ _
  | cons x rest ih =>
    obtain ⟨r, k⟩ := x
    unfold Tally.add
    split
    · next hpr =>
      refine List.pairwise_cons.mpr ⟨?_, h⟩
      intro y hy
      rcases List.mem_cons.mp hy with rfl | hy
      · exact hpr
      · exact precedes_trans hpr (h.head_lt hy)
    · next hpr =>
      split
      · exact List.pairwise_cons.mpr ⟨fun y hy => h.head_lt hy, h.tail⟩
      · next hne =>
        refine List.pairwise_cons.mpr ⟨?_, ih h.tail⟩
        intro y hy
        -- behind the head there are the old pairs and the new one, which is greater
        rcases mem_keys_add.mp (List.mem_map_of_mem hy) with hyp | hyr
        · rw [hyp]
          exact precedes_of_not hpr hne
        · obtain ⟨z, hz, hzy⟩ := List.mem_map.mp hyr
          rw [← hzy]
          exact h.head_lt hz

/-! ## Counting a list -/

/-- The sum of the numbers that a list has for a pair. -/
def total : List ((QName × QName) × Nat) → QName × QName → Nat
  | [], _ => 0
  | x :: rest, q => if x.1 = q then x.2 + total rest q else total rest q

theorem total_eq_zero {pairs : List ((QName × QName) × Nat)} (h : q ∉ pairs.map Prod.fst) :
    total pairs q = 0 := by
  induction pairs with
  | nil => rfl
  | cons x rest ih =>
    rw [List.map_cons, List.mem_cons, not_or] at h
    rw [total, if_neg (Ne.symm h.1), ih h.2]

theorem increasing_foldl (pairs : List ((QName × QName) × Nat)) (h : Increasing t) :
    Increasing (pairs.foldl (fun t x => t.add x.1 x.2) t) := by
  induction pairs generalizing t with
  | nil => exact h
  | cons x rest ih => exact ih (h.add x.1 x.2)

theorem lookup_foldl (pairs : List ((QName × QName) × Nat)) (h : Increasing t) (q : QName × QName) :
    (pairs.foldl (fun t x => t.add x.1 x.2) t).lookup q =
      if q ∈ pairs.map Prod.fst then some (((t.lookup q).getD 0 + total pairs q) % wordSize)
      else t.lookup q := by
  induction pairs generalizing t with
  | nil => rfl
  | cons x rest ih =>
    rw [List.foldl_cons, ih (h.add x.1 x.2), lookup_add h]
    by_cases e : x.1 = q
    · -- this pair is counted now, and the count wraps now or later
      subst e
      rw [total, if_pos rfl]
      by_cases hm : x.1 ∈ rest.map Prod.fst
      · simp [hm, Nat.add_assoc]
      · simp [hm, total_eq_zero hm]
    · have htotal : total (x :: rest) q = total rest q := by rw [total, if_neg e]
      have hmem : q ∈ (x :: rest).map Prod.fst ↔ q ∈ rest.map Prod.fst := by
        rw [List.map_cons, List.mem_cons]
        exact or_iff_right (Ne.symm e)
      simp only [htotal, hmem, if_neg (Ne.symm e)]

theorem increasing_ofList (pairs : List ((QName × QName) × Nat)) : Increasing (ofList pairs) :=
  increasing_foldl pairs List.Pairwise.nil

/-- The entries of a tally are the pairs of the counted list, each with the total of its numbers. -/
theorem mem_ofList {pairs : List ((QName × QName) × Nat)} {c : Nat} :
    (q, c) ∈ ofList pairs ↔ q ∈ pairs.map Prod.fst ∧ c = total pairs q % wordSize := by
  rw [(increasing_ofList pairs).mem_iff_lookup]
  unfold ofList
  rw [lookup_foldl pairs List.Pairwise.nil]
  by_cases hm : q ∈ pairs.map Prod.fst
  · rw [if_pos hm]
    simp only [List.lookup_nil, Option.getD_none, Nat.zero_add, Option.some.injEq]
    exact ⟨fun h => ⟨hm, h.symm⟩, fun h => h.2.symm⟩
  · rw [if_neg hm]
    simp [hm]

end CodeConcepts.Tally
