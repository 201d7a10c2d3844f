import CodeConcepts.Json.Printer
import CodeConcepts.Json.Reader
import CodeConcepts.Proofs.JsonMembers
import Mathlib.Algebra.Ring.Int.Defs
import Mathlib.Algebra.Ring.Nat
import Mathlib.Data.List.Basic
import Mathlib.Data.List.TakeWhile

/-!
# Reading what was written

The text of a JSON value reads back as the value, in either style, if the value nests at most as
deep as the reader allows, and does not read otherwise (`parse?_render_eq`).

* Strings read back for every character (`string?_flatMap_escape`), and integers of 64 bits by their
  digits (`value?_natural`, `value?_negative`). A number is read as far as it goes, so it is enough
  to know what it reads as on its own (`numeral?_append`); for doubles this is asked for
  (`ReadsBack`).
* A value is written as its tokens with blanks between them (`all?_write`).
* The reader turns the tokens of a value into the value, on top of whatever is still open
  (`run_tokens`), if the objects are in order and the nesting stays below the limit. It counts the
  arrays and objects that are open, and refuses to open one more than the limit.
-/

namespace CodeConcepts

variable {rest : List Char} {c : Char} {style : Style} {level : Nat}

namespace Json

namespace Token

variable {n : Nat} {b : Bool}

/-! ## Strings -/

theorem hex4?_control :
    ∀ n < 0x20, hex4? '0' '0' (hexDigit (n / 16)) (hexDigit (n % 16)) = some n := by
  decide

/-- A character is written by a letter, by its number or as it is. -/
theorem escape_cases (c : Char) :
    (∃ e, escaped? e = some c ∧ escape c = ['\\', e]) ∨
      (c.toNat < 0x20 ∧
        escape c = ['\\', 'u', '0', '0', hexDigit (c.toNat / 16), hexDigit (c.toNat % 16)]) ∨
      (c ≠ '"' ∧ c ≠ '\\' ∧ ¬ c.toNat < 0x20 ∧ escape c = [c]) := by
  unfold escape
  iterate 7
    split
    · next h => exact .inl ⟨_, by rw [h]; rfl, rfl⟩
  split
  · next h => exact .inr (.inl ⟨h, rfl⟩)
  · next hquote hback _ _ _ _ _ hcontrol => exact .inr (.inr ⟨hquote, hback, hcontrol, rfl⟩)

theorem string?_escape (c : Char) (rest : List Char) :
    string? (escape c ++ rest) = (string? rest).map fun p => (c :: p.1, p.2) := by
  rcases escape_cases c with ⟨e, he, hescape⟩ | ⟨hcontrol, hescape⟩ | ⟨hquote, hback, hc, hescape⟩
  · have hu : e ≠ 'u' := by
      rintro rfl
      cases he
    rw [hescape, List.cons_append, List.singleton_append, string?, he]
    exact fun _ _ _ _ _ h _ => hu h
  · have hhex := hex4?_control c.toNat hcontrol
    rw [hescape]
    simp only [List.cons_append, List.nil_append, string?, hhex]
    rw [if_neg (by omega), if_neg (by omega), Char.ofNat_toNat]
  · rw [hescape, List.singleton_append, string?, if_neg hc]
    · exact hquote
    · exact fun _ _ _ _ _ h _ => hback h
    · exact fun _ _ h _ => hback h

/-- A string reads back up to its closing quote. -/
theorem string?_flatMap_escape (s rest : List Char) :
    string? (s.flatMap escape ++ '"' :: rest) = some (s, rest) := by
  induction s with
  | nil => rfl
  | cons c s ih =>
    rw [List.flatMap_cons, List.append_assoc, string?_escape, ih]
    rfl

/-! ## Numbers -/

/-- A text that does not go on with a number. -/
def Ends (rest : List Char) : Prop :=
  ∀ c ∈ rest.head?, isDigit c = false ∧ c ≠ '.' ∧ c ≠ 'e' ∧ c ≠ 'E'

theorem ends_cons (h : isDigit c = false ∧ c ≠ '.' ∧ c ≠ 'e' ∧ c ≠ 'E') (rest : List Char) :
    Ends (c :: rest) := by
  intro d hd
  cases hd
  exact h

section Ends

variable {rest : List Char} (hends : Ends rest)

include hends

theorem takeWhile_append_ends (cs : List Char) :
    (cs ++ rest).takeWhile isDigit = cs.takeWhile isDigit ∧
      (cs ++ rest).dropWhile isDigit = cs.dropWhile isDigit ++ rest := by
  induction cs with
  | nil =>
    cases rest with
    | nil => exact ⟨rfl, rfl⟩
    | cons c rest => simp [(hends c rfl).1]
  | cons c cs ih =>
    by_cases hc : isDigit c = true
    · simp [hc, ih]
    · simp [hc]

theorem whole?_append {cs ds r : List Char} (hread : whole? cs = some (ds, r)) :
    whole? (cs ++ rest) = some (ds, r ++ rest) := by
  obtain ⟨htake, hdrop⟩ := takeWhile_append_ends hends cs
  unfold whole? at hread ⊢
  rw [htake, hdrop]
  cases cs with
  | nil => simp at hread
  | cons c cs =>
    by_cases hc : c = '0'
    · subst hc
      cases hread
      rfl
    · have hzero (tail rest' : List Char) : c :: tail ≠ '0' :: rest' := by
        intro heq
        cases heq
        exact hc rfl
      split at hread
      · exact absurd ‹_› (hzero _ _)
      · split
        · exact absurd ‹_› (hzero _ _)
        · split at hread
          · cases hread
          · cases hread
            rfl

theorem fraction?_append {cs r : List Char} {f : Option (List Char)}
    (hread : fraction? cs = some (f, r)) : fraction? (cs ++ rest) = some (f, r ++ rest) := by
  unfold fraction? at hread ⊢
  cases cs with
  | nil =>
    cases hread
    split
    · next heq => exact absurd rfl (hends '.' (by rw [show rest = _ from heq]; rfl)).2.1
    · rfl
  | cons c cs =>
    obtain ⟨htake, hdrop⟩ := takeWhile_append_ends hends cs
    by_cases hc : c = '.'
    · subst hc
      simp only [List.cons_append, htake, hdrop] at hread ⊢
      split at hread
      · cases hread
      · cases hread
        rfl
    · split at hread
      · simp_all
      · cases hread
        split
        · simp_all
        · rfl

theorem exponentDigits?_append {cs r : List Char} {e : Option (Bool × List Char)}
    (hread : exponentDigits? b cs = some (e, r)) :
    exponentDigits? b (cs ++ rest) = some (e, r ++ rest) := by
  obtain ⟨htake, hdrop⟩ := takeWhile_append_ends hends cs
  unfold exponentDigits? at hread ⊢
  rw [htake, hdrop]
  split at hread
  · cases hread
  · cases hread
    rfl

theorem exponent?_append {cs r : List Char} {e : Option (Bool × List Char)}
    (hread : exponent? cs = some (e, r)) : exponent? (cs ++ rest) = some (e, r ++ rest) := by
  unfold exponent? at hread
  split at hread
  case h_1 | h_2 | h_3 | h_4 => exact exponentDigits?_append hends hread
  case h_5 cs hminus hplus | h_6 cs hminus hplus =>
    -- without a sign the first digit shows that none follows
    cases cs with
    | nil => cases hread
    | cons c cs =>
      rw [List.cons_append, exponent?]
      · exact exponentDigits?_append hends hread
      · intro tail heq
        cases heq
        exact hminus _ rfl
      · intro tail heq
        cases heq
        exact hplus _ rfl
  case h_7 he hE =>
    cases hread
    cases cs with
    | nil =>
      cases rest with
      | nil => rfl
      | cons c rest => simp [exponent?, hends c rfl]
    | cons c cs =>
      have hce : c ≠ 'e' := fun hc => he _ (by rw [hc])
      have hcE : c ≠ 'E' := fun hc => hE _ (by rw [hc])
      simp [exponent?, hce, hcE]

/-- A number is read alike whether the text ends after it or goes on with something else. -/
theorem numeral?_append {cs r : List Char} {n : Numeral} (hread : numeral? b cs = some (n, r)) :
    numeral? b (cs ++ rest) = some (n, r ++ rest) := by
  simp only [numeral?, Option.bind_eq_bind, Option.bind_eq_some_iff, Prod.exists, Option.pure_def,
    Option.some.injEq, Prod.mk.injEq] at hread
  obtain ⟨ds, cs₁, hwhole, f, cs₂, hfraction, e, cs₃, hexponent, rfl, rfl⟩ := hread
  simp only [numeral?, whole?_append hends hwhole, fraction?_append hends hfraction,
    exponent?_append hends hexponent, Option.bind_eq_bind, Option.bind_some, Option.pure_def]

end Ends

/-! ## Integers -/

theorem digitValue_digitChar : ∀ d < 10, digitValue (Nat.digitChar d) = d := by decide

theorem isDigit_of_mem_digitsOf (h : c ∈ NumberLayout.digitsOf n) : isDigit c = true := by
  have hdigit := Nat.isDigit_of_mem_toDigits (b := 10) (by decide) (by decide) h
  simpa [isDigit, Char.isDigit, Char.le_def] using hdigit

theorem head?_digitsOf (hn : n ≠ 0) : (NumberLayout.digitsOf n).head? ≠ some '0' := by
  induction n using Nat.strongRecOn with
  | ind n ih =>
    unfold NumberLayout.digitsOf at ih ⊢
    by_cases hlt : n < 10
    · have hchar : ∀ d < 10, d ≠ 0 → [Nat.digitChar d].head? ≠ some '0' := by decide
      rw [Nat.toDigits_of_lt_base hlt]
      exact hchar n hlt hn
    · rw [Nat.toDigits_of_base_le (by decide) (by omega),
        List.head?_append_of_ne_nil _ Nat.toDigits_ne_nil]
      exact ih (n / 10) (by omega) (by omega)

/-- The digits of a number have its value. -/
theorem numeralValue_digitsOf (n : Nat) : numeralValue 10 (NumberLayout.digitsOf n) = n := by
  induction n using Nat.strongRecOn with
  | ind n ih =>
    unfold NumberLayout.digitsOf numeralValue at ih ⊢
    by_cases hlt : n < 10
    · rw [Nat.toDigits_of_lt_base hlt]
      simp [digitValue_digitChar n hlt]
    · have hdigit := digitValue_digitChar (n % 10) (by omega)
      rw [Nat.toDigits_of_base_le (by decide) (by omega), List.foldl_append,
        ih (n / 10) (by omega)]
      simp only [List.foldl_cons, List.foldl_nil, hdigit]
      omega

theorem le_foldl_digits (ds : List Char) (m : Nat) :
    m ≤ ds.foldl (fun n c => n * 10 + digitValue c) m := by
  induction ds generalizing m with
  | nil => exact Nat.le_refl m
  | cons d ds ih =>
    have hstep : m ≤ m * 10 + digitValue d := by omega
    exact Nat.le_trans hstep (ih _)

/-- Digits whose value has 64 bits are all taken. -/
theorem accumulate_of_le {ds : List Char} {m : Nat}
    (h : ds.foldl (fun n c => n * 10 + digitValue c) m ≤ greatestWord) :
    accumulate m ds = (ds.foldl (fun n c => n * 10 + digitValue c) m, []) := by
  induction ds generalizing m with
  | nil => rfl
  | cons d ds ih =>
    have hfits : ¬ greatestWord < m * 10 + digitValue d :=
      Nat.not_lt.mpr (Nat.le_trans (le_foldl_digits ds _) h)
    rw [accumulate]
    simp only [if_neg hfits]
    exact ih h

theorem accumulate_digitsOf (h : n < 2 ^ 64) :
    accumulate 0 (NumberLayout.digitsOf n) = (n, []) := by
  have hvalue : (NumberLayout.digitsOf n).foldl (fun n c => n * 10 + digitValue c) 0 = n :=
    numeralValue_digitsOf n
  have hle : n ≤ greatestWord := Nat.le_pred_of_lt h
  rw [accumulate_of_le (by rw [hvalue]; exact hle), hvalue]

theorem numeral?_digitsOf (b : Bool) (n : Nat) :
    numeral? b (NumberLayout.digitsOf n) =
      some (⟨b, NumberLayout.digitsOf n, none, none⟩, []) := by
  have hwhole : whole? (NumberLayout.digitsOf n) = some (NumberLayout.digitsOf n, []) := by
    by_cases hn : n = 0
    · subst hn
      rfl
    · have htake : (NumberLayout.digitsOf n).takeWhile isDigit = NumberLayout.digitsOf n :=
        List.takeWhile_eq_self_iff.mpr fun _ => isDigit_of_mem_digitsOf
      have hdrop : (NumberLayout.digitsOf n).dropWhile isDigit = [] :=
        List.dropWhile_eq_nil_iff.mpr fun _ => isDigit_of_mem_digitsOf
      unfold whole?
      rw [htake, hdrop]
      split
      · next heq => exact absurd (by rw [heq]; rfl) (head?_digitsOf hn)
      · split
        · next heq => exact absurd heq Nat.toDigits_ne_nil
        · rfl
  rw [numeral?, hwhole]
  rfl

theorem value?_natural (h : n < 2 ^ 64) :
    Numeral.value? ⟨false, NumberLayout.digitsOf n, none, none⟩ = some (.int n) := by
  simp [Numeral.value?, accumulate_digitsOf h]

theorem value?_negative (h : n < 2 ^ 63) :
    Numeral.value? ⟨true, NumberLayout.digitsOf (n + 1), none, none⟩ =
      some (.int (.negSucc n)) := by
  have hfits : ¬ Nat.pow 2 63 < n + 1 := Nat.not_lt.mpr h
  simp only [Numeral.value?, accumulate_digitsOf (show n + 1 < 2 ^ 64 by omega)]
  simp [hfits]
  omega

/-! ## Tokens of a text -/

theorem all?_cons_of_space (h : isSpace c = true) (rest : List Char) :
    all? (c :: rest) = all? rest := by
  rw [all?, if_pos h]

theorem all?_cons_of_next {r : List Char} {t : Token} (hc : isSpace c = false)
    (h : next? c rest = some (t, r)) : all? (c :: rest) = (all? r).map (t :: ·) := by
  rw [all?, if_neg (by simp [hc])]
  split
  · next hnone => cases h.symm.trans hnone
  · next hsome =>
    cases h.symm.trans hsome
    rfl

/-- The gap between two parts holds no token. -/
theorem all?_gap (style : Style) (level : Nat) (rest : List Char) :
    all? (style.gap level ++ rest) = all? rest := by
  cases style with
  | compact => rfl
  | indented =>
    rw [Style.gap, List.cons_append, all?_cons_of_space rfl]
    induction 2 * level with
    | zero => rfl
    | succ n ih => rw [List.replicate_succ, List.cons_append, all?_cons_of_space rfl, ih]

theorem all?_colon (style : Style) (rest : List Char) :
    all? (style.colon ++ rest) = (all? rest).map (.colon :: ·) := by
  cases style with
  | compact => exact all?_cons_of_next rfl rfl
  | indented =>
    rw [Style.colon, List.cons_append, all?_cons_of_next rfl rfl, List.singleton_append,
      all?_cons_of_space rfl]

theorem all?_quote (s : String) (rest : List Char) :
    all? (quote s ++ rest) = (all? rest).map (.scalar (.string s) :: ·) := by
  rw [quote, List.cons_append, List.append_assoc, List.singleton_append]
  refine all?_cons_of_next rfl ?_
  rw [next?, string?_flatMap_escape]
  simp

theorem isDigit_of_numeral? {cs r : List Char} {n : Numeral}
    (h : numeral? b (c :: cs) = some (n, r)) : isDigit c = true := by
  rw [numeral?, Option.bind_eq_bind, Option.bind_eq_some_iff] at h
  obtain ⟨_, hwhole, -⟩ := h
  unfold whole? at hwhole
  by_cases hc : isDigit c = true
  · exact hc
  · split at hwhole
    · next heq =>
      cases heq
      exact absurd rfl hc
    · simp [hc] at hwhole

theorem isSpace_of_isDigit (h : isDigit c = true) : isSpace c = false := by
  unfold isSpace
  by_cases hc : c = ' ' ∨ c = '\n' ∨ c = '\t' ∨ c = '\r'
  · rcases hc with rfl | rfl | rfl | rfl <;> exact absurd h (by decide)
  · simp_all

theorem next?_of_digit (h : isDigit c = true) (rest : List Char) :
    next? c rest =
      (numeral? false (c :: rest)).bind fun p => p.1.value?.map fun v => (.scalar v, p.2) := by
  unfold next?
  split
  case h_12 => rfl
  all_goals exact absurd h (by decide)

/-- A token that is a double is a numeral, after a minus or from its first digit on. -/
theorem next?_eq_double {cs r : List Char} {x : Double}
    (h : next? c cs = some (.scalar (.double x), r)) :
    (c = '-' ∧ ∃ n, numeral? true cs = some (n, r) ∧ n.value? = some (.double x)) ∨
      ∃ n, numeral? false (c :: cs) = some (n, r) ∧ n.value? = some (.double x) := by
  unfold next? at h
  split at h
  case h_7 =>
    obtain ⟨_, -, heq⟩ := Option.map_eq_some_iff.mp h
    cases heq
  case h_11 =>
    obtain ⟨⟨n, r'⟩, hnumeral, hvalue⟩ := Option.bind_eq_some_iff.mp h
    obtain ⟨v, hv, heq⟩ := Option.map_eq_some_iff.mp hvalue
    cases heq
    exact .inl ⟨rfl, n, hnumeral, hv⟩
  case h_12 =>
    obtain ⟨⟨n, r'⟩, hnumeral, hvalue⟩ := Option.bind_eq_some_iff.mp h
    obtain ⟨v, hv, heq⟩ := Option.map_eq_some_iff.mp hvalue
    cases heq
    exact .inr ⟨n, hnumeral, hv⟩
  all_goals cases h

theorem all?_numeral (hends : Ends rest) {cs : List Char} {n : Numeral} {v : Json}
    (hnumeral : numeral? b cs = some (n, [])) (hvalue : n.value? = some v) :
    all? ((if b = true then '-' :: cs else cs) ++ rest) = (all? rest).map (.scalar v :: ·) := by
  have hread := numeral?_append hends hnumeral
  cases b with
  | true =>
    refine all?_cons_of_next rfl ?_
    show (numeral? true (cs ++ rest)).bind _ = _
    rw [hread]
    simp [hvalue]
  | false =>
    cases cs with
    | nil => cases hnumeral
    | cons c cs =>
      have hc := isDigit_of_numeral? hnumeral
      refine all?_cons_of_next (isSpace_of_isDigit hc) ?_
      rw [next?_of_digit hc]
      show (numeral? false ((c :: cs) ++ rest)).bind _ = _
      rw [hread]
      simp [hvalue]

end Token

open Token

/-! ## Values that can be written without loss -/

/-- The double a text stands for that is a single number. -/
def doubleOf? (text : String) : Option Double :=
  match text.toList with
  | [] => none
  | c :: cs =>
    match next? c cs with
    | some (.scalar (.double x), []) => some x
    | _ => none

/-- A double that is read from its own text. -/
def ReadsBack (x : Double) : Prop := doubleOf? (numberLayout.render x) = some x

instance (x : Double) : Decidable (ReadsBack x) := inferInstanceAs (Decidable (_ = _))

/-- An integer of 64 bits, with or without sign. -/
def IsWord (n : Int) : Prop := -2 ^ 63 ≤ n ∧ n < 2 ^ 64

instance (n : Int) : Decidable (IsWord n) := inferInstanceAs (Decidable (_ ∧ _))

/-- The numbers of a value are exact: every integer has 64 bits, every double reads back. -/
inductive Exact : Json → Prop
  | null : Exact .null
  | bool {b} : Exact (.bool b)
  | int {n} : IsWord n → Exact (.int n)
  | double {x} : ReadsBack x → Exact (.double x)
  | string {s} : Exact (.string s)
  | array {items} : (∀ j ∈ items, Exact j) → Exact (.array items)
  | object {members} : (∀ m ∈ members, Exact m.2) → Exact (.object members)

theorem exact_array {items : List Json} : Exact (.array items) ↔ ∀ j ∈ items, Exact j :=
  ⟨fun h => by cases h with | array h => exact h, .array⟩

theorem exact_object {members : List (String × Json)} :
    Exact (.object members) ↔ ∀ m ∈ members, Exact m.2 :=
  ⟨fun h => by cases h with | object h => exact h, .object⟩

mutual

def decideExact : (j : Json) → Decidable (Exact j)
  | .null => isTrue .null
  | .bool _ => isTrue .bool
  | .int n => decidable_of_iff (IsWord n) ⟨.int, fun h => by cases h with | int h => exact h⟩
  | .double x =>
    decidable_of_iff (ReadsBack x) ⟨.double, fun h => by cases h with | double h => exact h⟩
  | .string _ => isTrue .string
  | .array items => @decidable_of_iff _ _ exact_array.symm (decideExactItems items)
  | .object members => @decidable_of_iff _ _ exact_object.symm (decideExactMembers members)

def decideExactItems : (js : List Json) → Decidable (∀ j ∈ js, Exact j)
  | [] => isTrue nofun
  | j :: js =>
    @decidable_of_iff _ _ List.forall_mem_cons.symm
      (@instDecidableAnd _ _ (decideExact j) (decideExactItems js))

def decideExactMembers : (ms : List (String × Json)) → Decidable (∀ m ∈ ms, Exact m.2)
  | [] => isTrue nofun
  | (_, j) :: ms =>
    @decidable_of_iff _ _ List.forall_mem_cons.symm
      (@instDecidableAnd _ _ (decideExact j) (decideExactMembers ms))

end

instance : DecidablePred Exact := decideExact

/-- The objects in a value list their members in the order of names. -/
inductive Ordered : Json → Prop
  | null : Ordered .null
  | bool {b} : Ordered (.bool b)
  | int {n} : Ordered (.int n)
  | double {x} : Ordered (.double x)
  | string {s} : Ordered (.string s)
  | array {items} : (∀ j ∈ items, Ordered j) → Ordered (.array items)
  | object {members} : Increasing members → (∀ m ∈ members, Ordered m.2) →
      Ordered (.object members)

theorem all?_double {x : Double} (h : ReadsBack x) (hends : Ends rest) :
    all? ((numberLayout.render x).toList ++ rest) =
      (all? rest).map (.scalar (.double x) :: ·) := by
  unfold ReadsBack doubleOf? at h
  split at h
  · cases h
  · next c cs htext =>
    split at h
    · next hnext =>
      cases h
      rw [htext]
      rcases next?_eq_double hnext with ⟨rfl, n, hnumeral, hvalue⟩ | ⟨n, hnumeral, hvalue⟩
      · exact all?_numeral hends hnumeral hvalue
      · exact all?_numeral hends hnumeral hvalue
    · cases h

theorem all?_integer {n : Int} (h : IsWord n) (hends : Ends rest) :
    all? (integer n ++ rest) = (all? rest).map (.scalar (.int n) :: ·) := by
  obtain ⟨hlow, hhigh⟩ := h
  cases n with
  | ofNat n =>
    rw [Int.ofNat_eq_natCast] at hhigh
    exact all?_numeral hends (numeral?_digitsOf false n) (value?_natural (by omega))
  | negSucc n =>
    exact all?_numeral hends (numeral?_digitsOf true (n + 1)) (value?_negative (by omega))

/-! ## The tokens of a value -/

mutual

/-- The tokens a value is written by. -/
def tokens : Json → List Token
  | .array [] => [.openArray, .closeArray]
  | .array (j :: js) => .openArray :: (tokens j ++ (itemTokens js ++ [.closeArray]))
  | .object [] => [.openObject, .closeObject]
  | .object ((n, j) :: ms) =>
    .openObject :: .scalar (.string n) :: .colon ::
      (tokens j ++ (memberTokens ms ++ [.closeObject]))
  | j => [.scalar j]

/-- The tokens of the items after the first one. -/
def itemTokens : List Json → List Token
  | [] => []
  | j :: js => .comma :: (tokens j ++ itemTokens js)

/-- The tokens of the members after the first one. -/
def memberTokens : List (String × Json) → List Token
  | [] => []
  | (n, j) :: ms => .comma :: .scalar (.string n) :: .colon :: (tokens j ++ memberTokens ms)

end

theorem ends_gap (h : Ends rest) : Ends (style.gap level ++ rest) := by
  cases style with
  | compact => exact h
  | indented => exact ends_cons (by decide) _

theorem ends_items {js : List Json} (h : Ends rest) : Ends (writeItems style level js ++ rest) := by
  cases js with
  | nil => exact h
  | cons j js =>
    rw [writeItems]
    exact ends_cons (by decide) _

theorem ends_members {ms : List (String × Json)} (h : Ends rest) :
    Ends (writeMembers style level ms ++ rest) := by
  cases ms with
  | nil => exact h
  | cons m ms =>
    rw [writeMembers]
    exact ends_cons (by decide) _

mutual

/-- A written value is read as its tokens, whatever follows that does not prolong a number. -/
theorem all?_write (style : Style) : ∀ {j : Json} (level : Nat) {rest : List Char}, Exact j →
    Ends rest → all? (write style level j ++ rest) = (all? rest).map (tokens j ++ ·)
  | .null, _, _, _, _ => all?_cons_of_next rfl rfl
  | .bool true, _, _, _, _ => all?_cons_of_next rfl rfl
  | .bool false, _, _, _, _ => all?_cons_of_next rfl rfl
  | .int n, _, _, h, hends => by
    cases h with
    | int h => exact all?_integer h hends
  | .double x, _, _, h, hends => by
    cases h with
    | double h => exact all?_double h hends
  | .string s, _, rest, _, _ => all?_quote s rest
  | .array [], _, rest, _, _ => by
    show all? ('[' :: ']' :: rest) = _
    rw [all?_cons_of_next rfl rfl, all?_cons_of_next rfl rfl, Option.map_map]
    rfl
  | .array (j :: js), level, rest, h, _ => by
    cases h with
    | array h =>
      obtain ⟨hj, hjs⟩ := List.forall_mem_cons.mp h
      have hclose : Ends (style.gap level ++ ']' :: rest) := ends_gap (ends_cons (by decide) _)
      rw [write]
      simp only [List.cons_append, List.append_assoc, List.nil_append]
      rw [all?_cons_of_next rfl rfl, all?_gap, all?_write style _ hj (ends_items hclose),
        all?_writeItems style _ hjs hclose, all?_gap, all?_cons_of_next rfl rfl]
      simp [tokens, Function.comp_def]
  | .object [], _, rest, _, _ => by
    show all? ('\x7b' :: '\x7d' :: rest) = _
    rw [all?_cons_of_next rfl rfl, all?_cons_of_next rfl rfl, Option.map_map]
    rfl
  | .object ((n, j) :: ms), level, rest, h, _ => by
    cases h with
    | object h =>
      obtain ⟨hj, hms⟩ := List.forall_mem_cons.mp h
      have hclose : Ends (style.gap level ++ '\x7d' :: rest) :=
        ends_gap (ends_cons (by decide) _)
      rw [write]
      simp only [List.cons_append, List.append_assoc, List.nil_append]
      rw [all?_cons_of_next rfl rfl, all?_gap, all?_quote, all?_colon,
        all?_write style _ hj (ends_members hclose), all?_writeMembers style _ hms hclose,
        all?_gap, all?_cons_of_next rfl rfl]
      simp [tokens, Function.comp_def]

theorem all?_writeItems (style : Style) : ∀ {js : List Json} (level : Nat) {rest : List Char},
    (∀ j ∈ js, Exact j) → Ends rest →
    all? (writeItems style level js ++ rest) = (all? rest).map (itemTokens js ++ ·)
  | [], _, _, _, _ => by simp [writeItems, itemTokens]
  | j :: js, level, rest, h, hends => by
    obtain ⟨hj, hjs⟩ := List.forall_mem_cons.mp h
    rw [writeItems]
    simp only [List.cons_append, List.append_assoc]
    rw [all?_cons_of_next rfl rfl, all?_gap, all?_write style _ hj (ends_items hends),
      all?_writeItems style _ hjs hends]
    simp [itemTokens, Function.comp_def]

theorem all?_writeMembers (style : Style) : ∀ {ms : List (String × Json)} (level : Nat)
    {rest : List Char}, (∀ m ∈ ms, Exact m.2) → Ends rest →
    all? (writeMembers style level ms ++ rest) = (all? rest).map (memberTokens ms ++ ·)
  | [], _, _, _, _ => by simp [writeMembers, memberTokens]
  | (n, j) :: ms, level, rest, h, hends => by
    obtain ⟨hj, hms⟩ := List.forall_mem_cons.mp h
    rw [writeMembers]
    simp only [List.cons_append, List.append_assoc]
    rw [all?_cons_of_next rfl rfl, all?_gap, all?_quote, all?_colon,
      all?_write style _ hj (ends_members hends), all?_writeMembers style _ hms hends]
    simp [memberTokens, Function.comp_def]

end

/-! ## The reader -/

open Reader (run step)

variable {limit : Nat}

/-- No value starts with the end of an array. -/
theorem tokens_eq_cons (j : Json) : ∃ t ts, tokens j = t :: ts ∧ t ≠ .closeArray := by
  unfold tokens
  split
  all_goals exact ⟨_, _, rfl, nofun⟩

/-- The first item of an array is read like any other. -/
theorem run_firstItem (j : Json) (stack : List Open) (ts : List Token) :
    run limit (.firstItem stack) (tokens j ++ ts) =
      run limit (.value (.array [] :: stack)) (tokens j ++ ts) := by
  obtain ⟨t, ts', htokens, hne⟩ := tokens_eq_cons j
  have hstep : step limit (.firstItem stack) t = step limit (.value (.array [] :: stack)) t := by
    cases t with
    | closeArray => exact absurd rfl hne
    | _ => rfl
  rw [htokens, List.cons_append, run, run, hstep]

/-- What is too deep for one of two things is too deep for both. -/
theorem ite_max_le {α : Type} (a m n : Nat) (x y : α) :
    (if a + m ≤ limit then if a + n ≤ limit then x else y else y) =
      if a + max m n ≤ limit then x else y := by
  split_ifs <;> first | rfl | omega

mutual

/-- The tokens of a value are read as the value, on top of what is open, unless it nests too deep
there. -/
theorem run_tokens : ∀ {j : Json} {stack : List Open} {ts : List Token}, Ordered j →
    stack.length ≤ limit → run limit (.value stack) (tokens j ++ ts) =
      if stack.length + depth j ≤ limit then run limit (.complete j stack) ts else none
  | .null, _, _, _, hopen => (if_pos hopen).symm
  | .bool _, _, _, _, hopen => (if_pos hopen).symm
  | .int _, _, _, _, hopen => (if_pos hopen).symm
  | .double _, _, _, _, hopen => (if_pos hopen).symm
  | .string _, _, _, _, hopen => (if_pos hopen).symm
  | .array [], stack, ts, _, _ => by
    rw [tokens, List.cons_append, run, step, Reader.start]
    by_cases hopen : stack.length < limit
    · exact (if_pos hopen).symm ▸ (if_pos (c := stack.length + 1 ≤ limit) hopen).symm
    · exact (if_neg hopen).symm ▸ (if_neg (c := stack.length + 1 ≤ limit) hopen).symm
  | .array (j :: js), stack, ts, h, _ => by
    rw [tokens, List.cons_append, run, step, Reader.start, depth, depthItems, ← Nat.add_assoc]
    by_cases hopen : stack.length < limit
    · cases h with
      | array h =>
        obtain ⟨hj, hjs⟩ := List.forall_mem_cons.mp h
        have hlen : (Open.array [] :: stack).length ≤ limit := hopen
        rw [if_pos hopen, Option.bind_some, List.append_assoc, run_firstItem,
          run_tokens hj hlen, List.append_assoc, List.singleton_append, run_itemTokens hjs hopen,
          List.length_cons, ite_max_le]
        rfl
    · rw [if_neg hopen, if_neg (by omega)]
      rfl
  | .object [], stack, ts, _, _ => by
    rw [tokens, List.cons_append, run, step, Reader.start]
    by_cases hopen : stack.length < limit
    · exact (if_pos hopen).symm ▸ (if_pos (c := stack.length + 1 ≤ limit) hopen).symm
    · exact (if_neg hopen).symm ▸ (if_neg (c := stack.length + 1 ≤ limit) hopen).symm
  | .object ((n, j) :: ms), stack, ts, h, _ => by
    rw [tokens, List.cons_append, run, step, Reader.start, depth, depthMembers, ← Nat.add_assoc]
    by_cases hopen : stack.length < limit
    · cases h with
      | object hincreasing h =>
        obtain ⟨(hj : Ordered j), hms⟩ := List.forall_mem_cons.mp h
        have hlen : (Open.object [] n :: stack).length ≤ limit := hopen
        rw [if_pos hopen, Option.bind_some, List.cons_append, List.cons_append, run, step,
          Option.bind_some, run, step, Option.bind_some, List.append_assoc, run_tokens hj hlen,
          List.append_assoc, List.singleton_append, run_memberTokens hms hopen, List.length_cons,
          ite_max_le, record, List.reverse_nil, List.nil_append, hincreasing.sorted_eq]
    · rw [if_neg hopen, if_neg (by omega)]
      rfl

/-- The items that follow are added to the array that is open. -/
theorem run_itemTokens : ∀ {js : List Json} {v : Json} {items : List Json} {stack : List Open}
    {ts : List Token}, (∀ j ∈ js, Ordered j) → stack.length + 1 ≤ limit →
    run limit (.complete v (.array items :: stack)) (itemTokens js ++ .closeArray :: ts) =
      if stack.length + 1 + depthItems js ≤ limit then
        run limit (.complete (.array (items.reverse ++ v :: js)) stack) ts
      else none
  | [], v, items, stack, ts, _, hopen => by
    rw [itemTokens, List.nil_append, run, step, Option.bind_some, List.reverse_cons]
    exact (if_pos hopen).symm
  | j :: js, v, items, stack, ts, h, hopen => by
    obtain ⟨hj, hjs⟩ := List.forall_mem_cons.mp h
    have hlen : (Open.array (v :: items) :: stack).length ≤ limit := hopen
    rw [itemTokens, List.cons_append, run, step, Option.bind_some, List.append_assoc,
      run_tokens hj hlen, run_itemTokens hjs hopen, List.length_cons, ite_max_le, depthItems]
    simp

/-- The members that follow are added to the object that is open. -/
theorem run_memberTokens : ∀ {ms : List (String × Json)} {n : String} {v : Json}
    {members : List (String × Json)} {stack : List Open} {ts : List Token},
    (∀ m ∈ ms, Ordered m.2) → stack.length + 1 ≤ limit →
    run limit (.complete v (.object members n :: stack)) (memberTokens ms ++ .closeObject :: ts) =
      if stack.length + 1 + depthMembers ms ≤ limit then
        run limit (.complete (record (members.reverse ++ (n, v) :: ms)) stack) ts
      else none
  | [], n, v, members, stack, ts, _, hopen => by
    rw [memberTokens, List.nil_append, run, step, Option.bind_some, List.reverse_cons]
    exact (if_pos hopen).symm
  | (n', j) :: ms, n, v, members, stack, ts, h, hopen => by
    obtain ⟨(hj : Ordered j), hms⟩ := List.forall_mem_cons.mp h
    have hlen : (Open.object ((n, v) :: members) n' :: stack).length ≤ limit := hopen
    rw [memberTokens, List.cons_append, run, step, Option.bind_some, List.cons_append, run, step,
      Option.bind_some, List.cons_append, run, step, Option.bind_some, List.append_assoc,
      run_tokens hj hlen, run_memberTokens hms hopen, List.length_cons, ite_max_le, depthMembers]
    simp

end

/-- The tokens of the text of a value. -/
theorem all?_render {j : Json} (hexact : Exact j) (style : Style) :
    all? (render style j).toList = some (tokens j) := by
  have hwrite := all?_write style 0 hexact (show Ends [] from nofun)
  rw [List.append_nil, all?] at hwrite
  simpa [render] using hwrite

/-- The text of a value reads back as the value, in either style, unless it nests too deep. -/
theorem parse?_render_eq {j : Json} (hexact : Exact j) (hordered : Ordered j) (style : Style) :
    parse? limit (render style j) = if depth j ≤ limit then some j else none := by
  have hrun : run limit (.value []) (tokens j ++ []) =
      if 0 + depth j ≤ limit then run limit (.complete j []) [] else none :=
    run_tokens hordered (Nat.zero_le limit)
  rw [List.append_nil, Nat.zero_add] at hrun
  rw [parse?, all?_render hexact style, Option.bind_eq_bind, Option.bind_some, hrun]
  split <;> rfl

theorem parse?_render {j : Json} (hexact : Exact j) (hordered : Ordered j)
    (hdepth : depth j ≤ limit) (style : Style) : parse? limit (render style j) = some j :=
  (parse?_render_eq hexact hordered style).trans (if_pos hdepth)

end Json

end CodeConcepts
