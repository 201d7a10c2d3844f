import CodeConcepts.Proofs.JsonNesting
import CodeConcepts.Proofs.NamespaceMembers
import Mathlib.Data.Nat.Digits.Defs
import Mathlib.Logic.Relation

/-!
# Big integers in values

A big integer is written in one of four bases and is carried as text. The literals in a value are
the values of expressions inside the one that is described (`Typing.inside_of_partOf`), and a
literal of the type of big integers is the value of a token behind some minus signs
(`Typing.bigLiteral_of_valueOf`). Its text has one sign for each minus. So it is a decimal numeral
of the integer unless there are several signs, or the token is in another base and too large to be
read (`Typing.BigToken.isDecimal_signed`).
-/

namespace CodeConcepts

variable {kind : String} {t : BigToken}

/-! ## Numerals -/

/-- A text is a decimal numeral of an integer: digits, or a minus sign and digits. -/
inductive IsDecimal : List Char → Int → Prop
  | digits {ds : List Char} : ds ≠ [] → (∀ c ∈ ds, c.isDigit = true) →
      IsDecimal ds (Nat.ofDigitChars 10 ds 0)
  | negative {ds : List Char} : ds ≠ [] → (∀ c ∈ ds, c.isDigit = true) →
      IsDecimal ('-' :: ds) (-(Nat.ofDigitChars 10 ds 0 : Int))

/-- Only the first character of a numeral may be its sign. -/
theorem IsDecimal.isDigit_of_mem_tail {cs : List Char} {z : Int} (h : IsDecimal cs z) :
    ∀ c ∈ cs.tail, c.isDigit = true := by
  cases h with
  | digits _ hdigits => exact fun c hc => hdigits c (List.mem_of_mem_tail hc)
  | negative _ hdigits => exact hdigits

/-- The number that digits stand for, by the powers of the base. -/
def positional (base : Nat) (ds : List Char) : Nat :=
  Nat.ofDigits base (ds.reverse.map digitValue)

theorem numeralValue_eq_positional (base : Nat) (ds : List Char) :
    numeralValue base ds = positional base ds := by
  induction ds using List.reverseRecOn with
  | nil => rfl
  | append_singleton ds d ih =>
    unfold numeralValue positional at ih ⊢
    rw [List.foldl_append, ih, List.reverse_append, List.reverse_singleton, List.singleton_append,
      List.map_cons, Nat.ofDigits_cons, List.foldl_cons, List.foldl_nil, Nat.mul_comm,
      Nat.add_comm]

theorem isDigit_of_isDigitOf {c : Char} (h : isDigitOf 10 c = true) :
    c.isDigit = true ∧ digitValue c = c.toNat - '0'.toNat := by
  unfold isDigitOf digitValue at h
  unfold digitValue
  split at h
  · next hc =>
    refine ⟨?_, if_pos hc⟩
    simpa [Char.isDigit, Char.le_def] using hc
  · exfalso
    simp only [decide_eq_true_eq] at h
    split at h
    · omega
    · split at h <;> omega

/-- In base ten the value is the one that texts are read with. -/
theorem positional_ten {ds : List Char} (h : ∀ c ∈ ds, isDigitOf 10 c = true) :
    positional 10 ds = Nat.ofDigitChars 10 ds 0 := by
  rw [← numeralValue_eq_positional, Nat.ofDigitChars_eq_foldl, numeralValue]
  generalize 0 = m
  induction ds generalizing m with
  | nil => rfl
  | cons d ds ih =>
    have hd := (isDigit_of_isDigitOf (h d List.mem_cons_self)).2
    rw [List.foldl_cons, List.foldl_cons, hd, Nat.mul_comm m 10]
    exact ih (fun c hc => h c (List.mem_cons_of_mem _ hc)) _

/-! ## Parts of values -/

namespace Value

/-- A value is described as part of the description of another one. -/
inductive Child : Value → Value → Prop
  | parent (v : Value) (name : String) : Child v (.member v name)
  | member {ms : List (String × Value)} {m : String × Value} : m ∈ ms → Child m.2 (.object ms)
  | item {vs : List Value} {v : Value} : v ∈ vs → Child v (.array vs)
  | callee (v : Value) (vs : List Value) : Child v (.call v vs)
  | argument {f : Value} {vs : List Value} {v : Value} : v ∈ vs → Child v (.call f vs)

/-- A value stands anywhere in another one. -/
def PartOf : Value → Value → Prop := Relation.ReflTransGen Child

/-- A value that is built from no other and that is no big integer. -/
inductive Plain : Value → Prop
  | null (undefined : Bool) : Plain (.null undefined)
  | literal {type : String} (l : Literal) : type ≠ "bigint" → Plain (.literal l (.primitive type))
  | declared (f : QName) : Plain (.declared f)
  | function : Plain .function
  | classValue : Plain .classValue
  | complex (text : String) : Plain (.complex text)

end Value

namespace Syntax.Node

variable {α : Type}

theorem mem_descendants_of_mem_namedChildren {c n : Node α} (h : c ∈ n.namedChildren) :
    c ∈ n.descendants := by
  obtain ⟨t, ht, rfl⟩ := List.mem_map.mp h
  exact mem_descendants_down n.mem_descendants_self (List.mem_filter.mp ht).1

end Syntax.Node

namespace Typing

open Extract (notedNode)
open Syntax.Node (descendants_subset mem_descendants_of_field? mem_descendants_of_mem_namedChildren
  size_lt_of_field? size_lt_of_namedChild?)

/-- The kinds of expressions that stand for the expression inside. -/
def wrappers : List String :=
  ["parenthesized_expression", "as_expression", "satisfies_expression", "non_null_expression"]

namespace ValueForm

theorem kind_of_number (h : ofKind kind = .number) : kind = "number" := by
  unfold ofKind at h
  split at h <;> first | rfl | cases h

theorem kind_of_unary (h : ofKind kind = .unary) : kind = "unary_expression" := by
  unfold ofKind at h
  split at h <;> first | rfl | cases h

theorem ofKind_eq_wrapped : ofKind kind = .wrapped ↔ kind ∈ wrappers := by
  constructor
  · intro h
    unfold ofKind at h
    split at h <;> first | decide | cases h
  · intro h
    have hall : ∀ k ∈ wrappers, ofKind k = .wrapped := by decide
    exact hall kind h

end ValueForm

/-- A value is that of an expression inside a node. -/
def Inside (n : ScopedNode) (v : Value) : Prop := ∃ e ∈ n.descendants, valueOf e = v

theorem Inside.mono {n c : ScopedNode} {v : Value} (h : Inside c v) (hc : c ∈ n.descendants) :
    Inside n v := by
  obtain ⟨e, he, hvalue⟩ := h
  exact ⟨e, descendants_subset hc he, hvalue⟩

theorem inside_of_mem_namedChildren {n c : ScopedNode} (hc : c ∈ n.namedChildren) :
    Inside n (valueOf c) :=
  ⟨c, mem_descendants_of_mem_namedChildren hc, rfl⟩

/-- The ways in which the value of an expression comes about. -/
inductive Described (n : ScopedNode) : Value → Prop
  | plain {v} : v.Plain → Described n v
  | number : n.kind = "number" → Described n (numberValue n.text)
  | wrapped {c} : n.kind ∈ wrappers → n.namedChild? 0 = some c → Described n (valueOf c)
  | minus {c v} : n.kind = "unary_expression" → (n.field? "operator").map (·.kind) = some "-" →
      n.field? "argument" = some c → negated? (valueOf c) = some v → Described n v
  | member {v} (name : String) : Inside n v → Described n (.member v name)
  | call {f vs} : Inside n f → (∀ v ∈ vs, Inside n v) → Described n (.call f vs)
  /-- Methods are members of an object as well. -/
  | object {ms : List (String × Value)} : (∀ m ∈ ms, m.2 = .function ∨ Inside n m.2) →
      Described n (.object ms)
  | array {vs} : (∀ v ∈ vs, Inside n v) → Described n (.array vs)

/-- The value of a member of an object is that of an expression, or the member is a method. -/
theorem member?_eq_some {n : ScopedNode} {m : String × Value} (h : member? n = some m) :
    m.2 = .function ∨ Inside n m.2 := by
  rw [member?_eq] at h
  split at h
  · obtain ⟨key, -, h⟩ := Option.bind_eq_some_iff.mp h
    obtain ⟨value, hvalue, rfl⟩ := Option.map_eq_some_iff.mp h
    exact .inr ⟨value, mem_descendants_of_field? hvalue, rfl⟩
  · split at h
    · cases h
      exact .inr ⟨n, n.mem_descendants_self, rfl⟩
    · split at h
      · obtain ⟨name, -, rfl⟩ := Option.map_eq_some_iff.mp h
        exact .inl rfl
      · cases h

theorem described (n : ScopedNode) : Described n (valueOf n) := by
  rw [valueOf_eq]
  cases hform : ValueForm.ofKind n.kind with
  | number => exact .number (ValueForm.kind_of_number hform)
  | string => exact .plain (.literal _ (by decide))
  | template =>
    dsimp only
    split
    · exact .plain (.complex _)
    · exact .plain (.literal _ (by decide))
  | boolean b => exact .plain (.literal _ (by decide))
  | null undefined => exact .plain (.null _)
  | function => exact .plain .function
  | classValue => exact .plain .classValue
  | name =>
    dsimp only
    cases (ScopedNode.resolve .value n).target? with
    | none => exact .plain (.complex _)
    | some fqn => exact .plain (.declared _)
  | member =>
    dsimp only
    cases hobject : n.field? "object" with
    | none => exact .plain (.complex _)
    | some object =>
      dsimp only [Option.elim]
      split
      · exact .plain (.declared _)
      · exact .member _ ⟨object, mem_descendants_of_field? hobject, rfl⟩
  | call =>
    dsimp only
    cases hcallee : n.field? "function" with
    | none => exact .plain (.complex _)
    | some callee =>
      refine .call ⟨callee, mem_descendants_of_field? hcallee, rfl⟩ fun v hv => ?_
      cases hargs : n.field? "arguments" with
      | none => simp [hargs] at hv
      | some args =>
        rw [hargs] at hv
        obtain ⟨c, hc, rfl⟩ := List.mem_map.mp hv
        exact (inside_of_mem_namedChildren hc).mono (mem_descendants_of_field? hargs)
  | object =>
    refine .object fun m hm => ?_
    obtain ⟨c, hc, hm⟩ := List.mem_filterMap.mp (Json.mem_of_mem_sorted hm)
    exact (member?_eq_some hm).imp_right fun h =>
      h.mono (mem_descendants_of_mem_namedChildren hc)
  | array =>
    refine .array fun v hv => ?_
    obtain ⟨c, hc, rfl⟩ := List.mem_map.mp hv
    exact inside_of_mem_namedChildren hc
  | wrapped =>
    dsimp only
    cases hinner : n.namedChild? 0 with
    | none => exact .plain (.complex _)
    | some inner => exact .wrapped (ValueForm.ofKind_eq_wrapped.mp hform) hinner
  | unary =>
    dsimp only
    cases hargument : n.field? "argument" with
    | none => exact .plain (.complex _)
    | some argument =>
      dsimp only [Option.elim]
      split
      · next hoperator =>
        cases hneg : negated? (valueOf argument) with
        | none => exact .plain (.complex _)
        | some v => exact .minus (ValueForm.kind_of_unary hform) hoperator hargument hneg
      · exact .plain (.complex _)
  | other => exact .plain (.complex _)

/-- What stands behind a minus sign is a literal, and keeps its type. -/
theorem negated?_eq_some {v w : Value} (h : negated? v = some w) :
    ∃ l m t, v = .literal l t ∧ w = .literal m t := by
  unfold negated? at h
  split at h
  · cases h
    exact ⟨_, _, _, rfl, rfl⟩
  · split at h
    · cases h
      exact ⟨_, _, _, rfl, rfl⟩
    · cases h
  · cases h

/-- One step into a value: it is built from methods and from values of expressions inside. -/
theorem inside_of_child {n : ScopedNode} {v : Value} (h : v.Child (valueOf n)) :
    v = .function ∨ Inside n v := by
  have hdescribed := described n
  generalize valueOf n = w at h hdescribed
  cases hdescribed with
  | plain hplain => cases hplain <;> cases h
  | number =>
    unfold numberValue at h
    dsimp only at h
    split at h <;> cases h
  | wrapped _ hinner =>
    have := size_lt_of_namedChild? hinner
    exact (inside_of_child h).imp_right fun hinside =>
      hinside.mono (mem_descendants_of_mem_namedChildren (List.mem_of_getElem? hinner))
  | minus _ _ _ hneg =>
    obtain ⟨l, m, t, -, rfl⟩ := negated?_eq_some hneg
    cases h
  | member _ hobject =>
    cases h
    exact .inr hobject
  | call hcallee hargs =>
    cases h with
    | callee => exact .inr hcallee
    | argument hv => exact .inr (hargs v hv)
  | object hmembers =>
    cases h with
    | member hm => exact hmembers _ hm
  | array hitems =>
    cases h with
    | item hv => exact .inr (hitems v hv)
termination_by n.size

/-- Whatever stands in a value is a method or the value of an expression inside. -/
theorem inside_of_partOf {n : ScopedNode} {v : Value} (h : v.PartOf (valueOf n)) :
    v = .function ∨ Inside n v := by
  induction h using Relation.ReflTransGen.head_induction_on with
  | refl => exact .inr ⟨n, n.mem_descendants_self, rfl⟩
  | head hchild _ ih =>
    rcases ih with rfl | ⟨e, he, rfl⟩
    · cases hchild
    · exact (inside_of_child hchild).imp_right fun hinside => hinside.mono he

/-! ## Tokens -/

/-- The bases of integer tokens, with the marks in front of their digits. -/
def bases : List (Nat × List Char) :=
  [(10, []), (16, ['0', 'x']), (16, ['0', 'X']), (8, ['0', 'o']), (8, ['0', 'O']),
    (2, ['0', 'b']), (2, ['0', 'B'])]

/-- A big integer as a token writes it: digits of a base behind the mark of the base. -/
structure BigToken where
  base : Nat
  mark : List Char
  digits : List Char
  marked : (base, mark) ∈ bases := by decide
  nonempty : digits ≠ [] := by decide
  valid : digits.all (isDigitOf base) = true := by decide

namespace BigToken

/-- The text of a token: the suffix follows the digits, and separators may stand anywhere. -/
def Writes (t : BigToken) (text : String) : Prop :=
  text.toList.filter (· ≠ '_') = t.mark ++ t.digits ++ ['n']

instance (t : BigToken) (text : String) : Decidable (t.Writes text) :=
  inferInstanceAs (Decidable (_ = _))

/-- The integer the token stands for. -/
def value (t : BigToken) : Nat := positional t.base t.digits

/-- The text the integer is carried as: its decimal digits, or what the token says if the integer is
too large to be read. -/
def kept (t : BigToken) : List Char :=
  if t.value ≤ greatestInteger then Nat.toDigits 10 t.value else t.mark ++ t.digits

/-- The text behind a number of minus signs. -/
def signed (t : BigToken) (minuses : Nat) : String :=
  String.ofList (List.replicate minuses '-' ++ t.kept)

theorem digitsInteger?_digits (t : BigToken) :
    digitsInteger? t.base t.digits =
      if t.value ≤ greatestInteger then some t.value else none := by
  have hempty : (t.digits.isEmpty || !t.digits.all (isDigitOf t.base)) = false := by
    rw [List.isEmpty_eq_false_iff.mpr t.nonempty, t.valid]
    rfl
  unfold digitsInteger? value
  rw [hempty, numeralValue_eq_positional]
  rfl

/-- The mark tells the base, and digits in base ten do not look like one. -/
theorem integer?_written (t : BigToken) :
    integer? (t.mark ++ t.digits) = digitsInteger? t.base t.digits := by
  obtain ⟨base, mark, digits, marked, nonempty, valid⟩ := t
  simp only [bases, List.mem_cons, Prod.mk.injEq, List.not_mem_nil, or_false] at marked
  rcases marked with ⟨rfl, rfl⟩ | ⟨rfl, rfl⟩ | ⟨rfl, rfl⟩ | ⟨rfl, rfl⟩ | ⟨rfl, rfl⟩ | ⟨rfl, rfl⟩ |
    ⟨rfl, rfl⟩
  case inl =>
    have hdigit (m : Char) (h : isDigitOf 10 m = false) (ds : List Char) :
        digits ≠ '0' :: m :: ds := by
      rintro rfl
      simp [h] at valid
    rw [List.nil_append]
    unfold integer?
    split
    · next h => exact absurd h (hdigit 'x' (by decide) _)
    · next h => exact absurd h (hdigit 'X' (by decide) _)
    · next h => exact absurd h (hdigit 'o' (by decide) _)
    · next h => exact absurd h (hdigit 'O' (by decide) _)
    · next h => exact absurd h (hdigit 'b' (by decide) _)
    · next h => exact absurd h (hdigit 'B' (by decide) _)
    · rfl
  all_goals rfl

theorem numberValue_written {text : String} (h : t.Writes text) :
    numberValue text = .literal (.text (t.signed 0)) (.primitive "bigint") := by
  unfold Writes at h
  unfold numberValue
  simp only [h, List.getLast?_concat, List.dropLast_concat, if_true, integer?_written,
    digitsInteger?_digits, signed, kept, List.replicate_zero, List.nil_append]
  by_cases hread : t.value ≤ greatestInteger
  · simp only [if_pos hread]
  · simp only [if_neg hread]

/-- A token that is read, or that is in base ten, is carried as decimal digits of its value. -/
theorem kept_decimal (h : t.base = 10 ∨ t.value ≤ greatestInteger) :
    t.kept ≠ [] ∧ (∀ c ∈ t.kept, c.isDigit = true) ∧ Nat.ofDigitChars 10 t.kept 0 = t.value := by
  unfold kept
  split
  · exact ⟨Nat.toDigits_ne_nil,
      fun c hc => Nat.isDigit_of_mem_toDigits (by decide) (by decide) hc,
      Nat.ofDigitChars_ten_toDigits⟩
  · next hlarge =>
    have hbase := h.resolve_right hlarge
    have hmarks : ∀ p ∈ bases, p.1 = 10 → p.2 = [] := by decide
    have hmark : t.mark = [] := hmarks _ t.marked hbase
    have hvalid := List.all_eq_true.mp t.valid
    rw [hbase] at hvalid
    rw [hmark, List.nil_append, value, hbase, positional_ten hvalid]
    exact ⟨t.nonempty, fun c hc => (isDigit_of_isDigitOf (hvalid c hc)).1, rfl⟩

/-- Any other token is carried with the letter of its mark. -/
theorem exists_letter (h : ¬ (t.base = 10 ∨ t.value ≤ greatestInteger)) :
    ∃ c ∈ t.kept.tail, c.isDigit = false := by
  obtain ⟨hbase, hlarge⟩ := not_or.mp h
  have hmarks : ∀ p ∈ bases, p.1 ≠ 10 → p.2.tail.any (!·.isDigit) = true := by decide
  obtain ⟨c, hc, hletter⟩ := List.any_eq_true.mp (hmarks _ t.marked hbase)
  refine ⟨c, ?_, (Bool.not_eq_true' _).mp hletter⟩
  have hmark : t.mark ≠ [] := List.ne_nil_of_mem (List.mem_of_mem_tail hc)
  rw [kept, if_neg hlarge, List.tail_append_of_ne_nil hmark]
  exact List.mem_append_left _ hc

/-- The text of a token behind minus signs is a decimal numeral of the integer exactly if there is
at most one sign, and the token is in base ten or its integer is not too large to be read. -/
theorem isDecimal_signed (t : BigToken) (k : Nat) :
    IsDecimal (t.signed k).toList ((-1) ^ k * t.value) ↔
      k ≤ 1 ∧ (t.base = 10 ∨ t.value ≤ greatestInteger) := by
  rw [signed, String.toList_ofList]
  constructor
  · intro h
    have htail := h.isDigit_of_mem_tail
    have hk : k ≤ 1 := by
      by_contra hk
      obtain ⟨j, rfl⟩ : ∃ j, k = j + 2 := ⟨k - 2, by omega⟩
      have hsign := htail '-' (by simp [List.replicate_succ])
      exact absurd hsign (by decide)
    refine ⟨hk, ?_⟩
    by_contra hother
    obtain ⟨c, hc, hletter⟩ := exists_letter hother
    have hmem : c ∈ (List.replicate k '-' ++ t.kept).tail := by
      match k with
      | 0 => exact hc
      | j + 1 => exact List.mem_append_right _ (List.mem_of_mem_tail hc)
    rw [htail c hmem] at hletter
    cases hletter
  · rintro ⟨hk, hread⟩
    obtain ⟨hnonempty, hdigits, hvalue⟩ := kept_decimal hread
    rw [← hvalue]
    match k with
    | 0 =>
      rw [pow_zero, one_mul]
      exact .digits hnonempty hdigits
    | 1 =>
      rw [pow_one, neg_one_mul]
      exact .negative hnonempty hdigits

end BigToken

/-! ## Literals -/

/-- An expression is a token behind some minus signs, with parentheses anywhere. -/
inductive BigLiteral : ScopedNode → Nat → BigToken → Prop
  | token {n t} : n.kind = "number" → t.Writes n.text → BigLiteral n 0 t
  | wrapped {n c k t} : n.kind ∈ wrappers → n.namedChild? 0 = some c → BigLiteral c k t →
      BigLiteral n k t
  | minus {n c k t} : n.kind = "unary_expression" → (n.field? "operator").map (·.kind) = some "-" →
      n.field? "argument" = some c → BigLiteral c k t → BigLiteral n (k + 1) t

/-- The number tokens inside a node are written by the rules: the letter `n` occurs in tokens of big
integers only. -/
def NumbersWritten (n : ScopedNode) : Prop :=
  ∀ u ∈ n.descendants, u.kind = "number" → 'n' ∈ u.text.toList → ∃ t : BigToken, t.Writes u.text

theorem NumbersWritten.inside {n c : ScopedNode} (h : NumbersWritten n) (hc : c ∈ n.descendants) :
    NumbersWritten c := fun u hu => h u (descendants_subset hc hu)

theorem numbersWritten_root {t : Syntax.Tree Note} (tokens : List BigToken)
    (h : ∀ s ∈ t.subtrees, s.kind = "number" → ∃ b ∈ tokens, b.Writes s.text) :
    NumbersWritten (.root t) := by
  intro u hu hkind _
  have hsub := Syntax.Node.mem_subtrees_of_mem_root hu u.tree List.mem_cons_self
  obtain ⟨b, -, hb⟩ := h u.tree hsub hkind
  exact ⟨b, hb⟩

/-- A literal expression is described by its text. -/
theorem BigLiteral.valueOf_eq {n : ScopedNode} {k : Nat} {t : BigToken} (h : BigLiteral n k t) :
    valueOf n = .literal (.text (t.signed k)) (.primitive "bigint") := by
  induction h with
  | token hkind hwritten =>
    rw [Typing.valueOf_eq, hkind]
    exact BigToken.numberValue_written hwritten
  | wrapped hkind hchild _ ih =>
    rw [Typing.valueOf_eq, ValueForm.ofKind_eq_wrapped.mpr hkind, hchild]
    exact ih
  | @minus n c k t hkind hoperator hargument _ ih =>
    rw [Typing.valueOf_eq, hkind, hoperator, hargument]
    simp only [ValueForm.ofKind, Option.elim, ih, negated?, if_true, Option.getD_some]
    congr 2
    apply String.toList_injective
    simp [BigToken.signed, List.replicate_succ]

/-- Only literal expressions are described as big integers. -/
theorem bigLiteral_of_valueOf {n : ScopedNode} (hn : NumbersWritten n) {l : Literal}
    (h : valueOf n = .literal l (.primitive "bigint")) : ∃ k t, BigLiteral n k t := by
  have hdescribed := described n
  rw [h] at hdescribed
  generalize hv : Value.literal l (.primitive "bigint") = v at h hdescribed
  cases hdescribed with
  | plain hplain =>
    subst hv
    cases hplain with
    | literal _ htype => exact absurd rfl htype
  | number hkind =>
    have hsuffix : 'n' ∈ n.text.toList := by
      unfold numberValue at hv
      dsimp only at hv
      split at hv
      · next hlast => exact (List.mem_filter.mp (List.mem_of_getLast? hlast)).1
      · simp at hv
    obtain ⟨t, ht⟩ := hn n n.mem_descendants_self hkind hsuffix
    exact ⟨0, t, .token hkind ht⟩
  | wrapped hkind hinner =>
    have hmem := mem_descendants_of_mem_namedChildren (List.mem_of_getElem? hinner)
    have := size_lt_of_namedChild? hinner
    obtain ⟨k, t, hliteral⟩ := bigLiteral_of_valueOf (hn.inside hmem) hv.symm
    exact ⟨k, t, .wrapped hkind hinner hliteral⟩
  | minus hkind hoperator hargument hneg =>
    -- The sign keeps the type, so the argument is a big integer as well.
    obtain ⟨l, m, t, hvalue, rfl⟩ := negated?_eq_some hneg
    cases hv
    have hmem := mem_descendants_of_field? hargument
    have := size_lt_of_field? hargument
    obtain ⟨k, t, hliteral⟩ := bigLiteral_of_valueOf (hn.inside hmem) hvalue
    exact ⟨k + 1, t, .minus hkind hoperator hargument hliteral⟩
  | member | call | object | array => cases hv
termination_by n.size

/-- Big integers in values. A literal expression is described as a big integer with one sign for
each minus, which is a decimal numeral of its integer exactly if there is at most one minus and the
token is in base ten or not too large to be read. Nothing else in a value is a big integer. -/
theorem big_integer_texts {n : ScopedNode} (hn : NumbersWritten n) :
    (∀ e ∈ n.descendants, ∀ k t, BigLiteral e k t →
      valueOf e = .literal (.text (t.signed k)) (.primitive "bigint") ∧
      (IsDecimal (t.signed k).toList ((-1) ^ k * t.value) ↔
        k ≤ 1 ∧ (t.base = 10 ∨ t.value ≤ greatestInteger))) ∧
    ∀ l, (Value.literal l (.primitive "bigint")).PartOf (valueOf n) →
      ∃ e ∈ n.descendants, ∃ k t, BigLiteral e k t ∧ l = .text (t.signed k) := by
  refine ⟨fun e _ k t h => ⟨h.valueOf_eq, t.isDecimal_signed k⟩, fun l hl => ?_⟩
  obtain ⟨e, he, hvalue⟩ := (inside_of_partOf hl).resolve_left nofun
  obtain ⟨k, t, hliteral⟩ := bigLiteral_of_valueOf (hn.inside he) hvalue
  have htext := hliteral.valueOf_eq
  rw [hvalue] at htext
  injection htext with htext
  exact ⟨e, he, k, t, hliteral, htext⟩

/-- The expression `-c`. -/
def negative (c : Syntax.Tree Note) : Syntax.Tree Note :=
  notedNode .none "unary_expression" [] "" [notedNode .none "-" ["operator"] "-" [], c]

/-- The expression `(-0xF_Fn)`. -/
def hexTree : Syntax.Tree Note :=
  notedNode .none "parenthesized_expression" [] ""
    [negative (notedNode .none "number" ["argument"] "0xF_Fn" [])]

/-- The expression `[(-0xF_Fn), 7n]`. -/
def pairNode : ScopedNode :=
  .root (notedNode .none "array" [] "" [hexTree, notedNode .none "number" [] "7n" []])

def hexToken : BigToken where
  base := 16
  mark := ['0', 'x']
  digits := ['F', 'F']

def sevenToken : BigToken where
  base := 10
  mark := []
  digits := ['7']

theorem big_integer_texts_pair : NumbersWritten pairNode ∧
    pairNode.down hexTree ∈ pairNode.descendants ∧
    BigLiteral (pairNode.down hexTree) 1 hexToken ∧
    valueOf (pairNode.down hexTree) = .literal (.text "-255") (.primitive "bigint") ∧
    IsDecimal ['-', '2', '5', '5'] (-255) ∧
    (Value.literal (.text "-255") (.primitive "bigint")).PartOf (valueOf pairNode) ∧
    ∃ e ∈ pairNode.descendants, ∃ k t, BigLiteral e k t ∧
      Literal.text "-255" = .text (t.signed k) := by
  have hn : NumbersWritten pairNode := numbersWritten_root [hexToken, sevenToken] (by decide)
  have hchild : pairNode.down hexTree ∈ pairNode.namedChildren := List.mem_cons_self
  have hmem := mem_descendants_of_mem_namedChildren hchild
  have hliteral : BigLiteral (pairNode.down hexTree) 1 hexToken :=
    .wrapped (by decide) rfl (.minus rfl (by decide) rfl (.token rfl (by decide)))
  have hsigned : hexToken.signed 1 = "-255" := by decide
  obtain ⟨hvalue, hdecimal⟩ := (big_integer_texts hn).1 _ hmem 1 hexToken hliteral
  rw [hsigned] at hvalue hdecimal
  have hpart : (Value.literal (.text "-255") (.primitive "bigint")).PartOf (valueOf pairNode) := by
    refine .single ?_
    rw [← hvalue, valueOf_eq pairNode]
    exact .item (List.mem_map_of_mem hchild)
  exact ⟨hn, hmem, hliteral, hvalue, hdecimal.mpr (by decide), hpart,
    (big_integer_texts hn).2 _ hpart⟩

/-- The expression `-(-7n)`. -/
def doubledNode : ScopedNode :=
  .root (negative (notedNode .none "parenthesized_expression" ["argument"] ""
    [negative (notedNode .none "number" ["argument"] "7n" [])]))

/-- The expression `0x100000000000000000000000000000000n`. -/
def longNode : ScopedNode :=
  .root (notedNode .none "number" [] "0x100000000000000000000000000000000n" [])

/-- The first integer that is too large to be read. -/
def longToken : BigToken where
  base := 16
  mark := ['0', 'x']
  digits := '1' :: List.replicate 32 '0'

/-- The sign of a negated negative integer is not taken away, and a large hexadecimal one is not
converted: neither text is a decimal numeral. -/
theorem big_integers_not_decimal :
    (NumbersWritten doubledNode ∧ BigLiteral doubledNode 2 sevenToken ∧
      valueOf doubledNode = .literal (.text "--7") (.primitive "bigint") ∧
      ∀ z, ¬ IsDecimal "--7".toList z) ∧
    NumbersWritten longNode ∧ BigLiteral longNode 0 longToken ∧
    valueOf longNode =
      .literal (.text "0x100000000000000000000000000000000") (.primitive "bigint") ∧
    ∀ z, ¬ IsDecimal "0x100000000000000000000000000000000".toList z := by
  have hdoubled : BigLiteral doubledNode 2 sevenToken :=
    .minus rfl (by decide) rfl (.wrapped (by decide) rfl
      (.minus rfl (by decide) rfl (.token rfl (by decide))))
  have hlong : BigLiteral longNode 0 longToken := .token rfl (by decide)
  have hsigns : sevenToken.signed 2 = "--7" := by decide
  have hkept : longToken.signed 0 = "0x100000000000000000000000000000000" := by decide +kernel
  refine ⟨⟨numbersWritten_root [sevenToken] (by decide), hdoubled, hsigns ▸ hdoubled.valueOf_eq,
    fun z h => ?_⟩, numbersWritten_root [longToken] (by decide), hlong, hkept ▸ hlong.valueOf_eq,
    fun z h => ?_⟩
  · exact absurd (h.isDigit_of_mem_tail '-' (by decide)) (by decide)
  · exact absurd (h.isDigit_of_mem_tail 'x' (by decide)) (by decide)

end Typing

end CodeConcepts
