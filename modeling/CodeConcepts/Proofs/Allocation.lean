import CodeConcepts.Scope.Allocation
import Mathlib.Data.List.Induction
import Mathlib.Data.List.Nodup

/-!
# Allocated names are fresh

If the name asked for is taken, there are more candidates with a number behind it than names taken,
and different numbers give different candidates (`Taken.suffixed_injective`), so the search for a
free one ends, and it ends at the least number (`Taken.leastSuffix_spec`, `Taken.Search`). Hence a
name that is given away was not taken before (`Taken.allocate_not_mem`).

The names of a whole build are given away one after the other (`Taken.serve`). Whatever is asked
for, and in whatever order, each request gets a fresh name and no request changes what others of
another kind get (`Taken.serve_next`).
-/

namespace CodeConcepts.Taken

variable {taken : Taken} {kind : Kind} {n : QName}

theorem suffixed_injective (n : QName) : Function.Injective (suffixed n) := by
  intro i j h
  have htext : n.text ++ "$" ++ toString i = n.text ++ "$" ++ toString j := congrArg QName.text h
  have hdigits : Nat.toDigits 10 i = Nat.toDigits 10 j := by
    simpa [← String.toList_inj, Nat.toString_eq_repr, Nat.repr] using htext
  calc
    i = Nat.ofDigitChars 10 (Nat.toDigits 10 i) 0 := Nat.ofDigitChars_ten_toDigits.symm
    _ = Nat.ofDigitChars 10 (Nat.toDigits 10 j) 0 := by rw [hdigits]
    _ = j := Nat.ofDigitChars_ten_toDigits

/-- A number makes a name longer. -/
theorem suffixed_ne (n : QName) (i : Nat) : suffixed n i ≠ n := by
  intro h
  have hlength : (n.text ++ "$" ++ toString i).length = n.text.length :=
    congrArg (fun m : QName => m.text.length) h
  simp only [String.length_append] at hlength
  have hdollar : "$".length = 1 := rfl
  omega

theorem isFree_iff : taken.isFree kind n = true ↔ (kind, n) ∉ taken := by
  simp [isFree]

theorem isFree_eq_false_iff : taken.isFree kind n = false ↔ (kind, n) ∈ taken := by
  simp [isFree]

/-- One of the numbered candidates is free. -/
theorem exists_isFree_suffixed (taken : Taken) (kind : Kind) (n : QName) :
    ∃ i ∈ List.range (taken.length + 1), taken.isFree kind (suffixed n (i + 1)) = true := by
  by_contra hnone
  push Not at hnone
  let candidates : Taken :=
    (List.range (taken.length + 1)).map fun i => (kind, suffixed n (i + 1))
  have hsubset : candidates ⊆ taken := by
    intro c hc
    obtain ⟨i, hi, rfl⟩ := List.mem_map.mp hc
    exact isFree_eq_false_iff.mp (eq_false_of_ne_true (hnone i hi))
  have hnodup : candidates.Nodup := by
    refine List.nodup_range.map fun i j h => ?_
    exact Nat.succ.inj (suffixed_injective n (congrArg Prod.snd h))
  have hlength := hnodup.length_le_of_subset hsubset
  simp only [candidates, List.length_map, List.length_range] at hlength
  omega

/-- The number that is put behind a name makes it free, and no smaller one does. -/
theorem leastSuffix_spec (taken : Taken) (kind : Kind) (n : QName) :
    1 ≤ taken.leastSuffix kind n ∧
      taken.isFree kind (suffixed n (taken.leastSuffix kind n)) = true ∧
      ∀ i, 1 ≤ i → i < taken.leastSuffix kind n → taken.isFree kind (suffixed n i) = false := by
  obtain ⟨i, hi, hfree⟩ := taken.exists_isFree_suffixed kind n
  unfold leastSuffix
  rw [List.find?_map]
  cases hfind : (List.range (taken.length + 1)).find?
      ((fun i => taken.isFree kind (suffixed n i)) ∘ (· + 1)) with
  | none => exact absurd hfree (List.find?_eq_none.mp hfind i hi)
  | some j =>
    obtain ⟨hj, -, hbefore⟩ := List.find?_range_eq_some.mp hfind
    refine ⟨Nat.le_add_left 1 j, hj, fun l hl hlt => ?_⟩
    obtain ⟨l, rfl⟩ := Nat.exists_eq_add_of_le' hl
    exact (Bool.not_eq_true' _).mp (hbefore l (Nat.lt_of_add_lt_add_right hlt))

/-- The search for a number: it goes on from `i` while the candidate is taken, up to a free one. -/
inductive Search (taken : Taken) (kind : Kind) (n : QName) : Nat → Nat → Prop
  | free {i : Nat} : taken.isFree kind (suffixed n i) = true → Search taken kind n i i
  | taken {i j : Nat} : taken.isFree kind (suffixed n i) = false →
      Search taken kind n (i + 1) j → Search taken kind n i j

/-- The search ends at the first free number. -/
theorem Search.of_least {i j : Nat} (hle : i ≤ j) (hfree : taken.isFree kind (suffixed n j) = true)
    (hleast : ∀ l, i ≤ l → l < j → taken.isFree kind (suffixed n l) = false) :
    Search taken kind n i j := by
  obtain ⟨rounds, rfl⟩ := Nat.exists_eq_add_of_le hle
  induction rounds generalizing i with
  | zero => exact .free hfree
  | succ rounds ih =>
    rw [← Nat.add_assoc, Nat.add_right_comm] at hfree hleast ⊢
    exact .taken (hleast i (Nat.le_refl i) (by omega))
      (ih (by omega) hfree fun l hl hlt => hleast l (by omega) hlt)

theorem isFree_choose (taken : Taken) (kind : Kind) (n : QName) :
    taken.isFree kind (taken.choose kind n) = true := by
  unfold choose
  split
  · assumption
  · exact (taken.leastSuffix_spec kind n).2.1

theorem allocate_not_mem (taken : Taken) (kind : Kind) (n : QName) :
    (kind, (taken.allocate kind n).1) ∉ taken :=
  isFree_iff.mp (taken.isFree_choose kind n)

/-! ## The names of a build -/

/-- What has been given away after some requests, the last answer first. -/
def serve (requests : List (Kind × QName)) : Taken :=
  requests.foldl (fun taken r => (taken.allocate r.1 r.2).2) []

theorem serve_concat (requests : List (Kind × QName)) (kind : Kind) (n : QName) :
    serve (requests ++ [(kind, n)]) =
      (kind, ((serve requests).allocate kind n).1) :: serve requests := by
  unfold serve
  rw [List.foldl_append]
  rfl

/-- Only the names of its own kind decide what a request gets. -/
theorem choose_congr {other : Taken} (h : ∀ m, (kind, m) ∈ taken ↔ (kind, m) ∈ other) :
    taken.choose kind n = other.choose kind n := by
  have hfree (m : QName) : taken.isFree kind m = other.isFree kind m := by
    rw [Bool.eq_iff_iff, isFree_iff, isFree_iff, h m]
  have hleast : taken.leastSuffix kind n = other.leastSuffix kind n := by
    obtain ⟨hpos, hat, hbelow⟩ := taken.leastSuffix_spec kind n
    obtain ⟨hpos', hat', hbelow'⟩ := other.leastSuffix_spec kind n
    rcases Nat.lt_trichotomy (taken.leastSuffix kind n) (other.leastSuffix kind n) with
      hlt | heq | hlt
    · rw [hfree, hbelow' _ hpos hlt] at hat
      cases hat
    · exact heq
    · rw [← hfree, hbelow _ hpos' hlt] at hat'
      cases hat'
  rw [choose, choose, hfree, hleast]

/-- A kind gets the names it would get if it were the only one. -/
theorem filter_serve (requests : List (Kind × QName)) (k : Kind) :
    (serve requests).filter (·.1 = k) = serve (requests.filter (·.1 = k)) := by
  induction requests using List.reverseRecOn with
  | nil => rfl
  | append_singleton requests r ih =>
    obtain ⟨kind, n⟩ := r
    rw [serve_concat, List.filter_append]
    by_cases hkind : kind = k
    · subst hkind
      have hsame : ∀ m, (kind, m) ∈ serve requests ↔
          (kind, m) ∈ serve (requests.filter (·.1 = kind)) := by
        intro m
        rw [← ih, List.mem_filter]
        simp
      rw [List.filter_cons_of_pos (by simp), List.filter_cons_of_pos (by simp), List.filter_nil,
        serve_concat, ih, allocate, allocate, choose_congr hsame]
    · rw [List.filter_cons_of_neg (by simpa using hkind),
        List.filter_cons_of_neg (by simpa using hkind), List.filter_nil, List.append_nil, ih]

/-- After any requests, the next one gets a name that its kind has not been given before: the name
asked for just if that one is free, and otherwise this name with the least number that makes it
free, where the search for a number ends. What was given before stays, and a kind gets what it would
get if it were the only one. -/
theorem serve_next (requests : List (Kind × QName)) (kind : Kind) (n : QName) :
    ∃ answer, serve (requests ++ [(kind, n)]) = (kind, answer) :: serve requests ∧
      answer = ((serve requests).allocate kind n).1 ∧
      (kind, answer) ∉ serve requests ∧
      (answer = n ↔ (kind, n) ∉ serve requests) ∧
      ((kind, n) ∈ serve requests → ∃ i, 1 ≤ i ∧ Search (serve requests) kind n 1 i ∧
        answer = suffixed n i ∧ (kind, suffixed n i) ∉ serve requests ∧
        ∀ j, 1 ≤ j → j < i → (kind, suffixed n j) ∈ serve requests) ∧
      ∀ k, (serve (requests ++ [(kind, n)])).filter (·.1 = k) =
        serve ((requests ++ [(kind, n)]).filter (·.1 = k)) := by
  have hanswer : ((serve requests).allocate kind n).1 = (serve requests).choose kind n := rfl
  obtain ⟨hpos, hfree, hleast⟩ := (serve requests).leastSuffix_spec kind n
  refine ⟨_, serve_concat requests kind n, rfl, allocate_not_mem _ kind n, ?_, ?_,
    filter_serve _⟩
  · rw [hanswer, choose, ← isFree_iff]
    split
    · next h => exact ⟨fun _ => h, fun _ => rfl⟩
    · next h => exact ⟨fun e => absurd e (suffixed_ne n _), fun e => absurd e h⟩
  · intro htaken
    rw [hanswer, choose, if_neg (by rw [isFree_eq_false_iff.mpr htaken]; exact Bool.false_ne_true)]
    exact ⟨_, hpos, .of_least hpos hfree hleast, rfl, isFree_iff.mp hfree,
      fun j hj hlt => isFree_eq_false_iff.mp (hleast j hj hlt)⟩

example :
    (serve [(.function, ⟨"f"⟩), (.function, ⟨"f$1"⟩), (.function, ⟨"f"⟩), (.variable, ⟨"f"⟩)]).map
      (·.2.text) = ["f", "f$2", "f$1", "f"] := by
  decide

end CodeConcepts.Taken
