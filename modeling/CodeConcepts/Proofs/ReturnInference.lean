import CodeConcepts.Proofs.BigIntegers
import CodeConcepts.Proofs.ReferenceTargets
import CodeConcepts.Proofs.TypingForms
import Mathlib.Data.List.TakeWhile

/-!
# Return types that are inferred

The type of a function without annotation is inferred from the values it returns. They are collected
on a way down through the body that stops at functions, methods and classes. Here they are described
from the other end: of all nodes inside the body, in their order, those are meant that are return
statements and have no function, method or class between themselves and the body
(`ownReturns`). The two agree as long as no return statement lies in another one of the same
function (`returnStatements_eq_ownReturns`).

Which nodes are functions, methods and classes is taken from the analysis of scopes
(`ownsStatements`), so that none of them is missing where the way down has to stop
(`mem_functionBoundaries_iff`).
-/

namespace CodeConcepts

variable {α : Type}

/-! ## Nodes between two nodes -/

namespace Syntax.Node

/-- The trees around a node that lie inside an outer one, the nearest first. -/
def between (outer n : Node α) : List (Tree α) :=
  n.above.take (n.above.length - (outer.above.length + 1))

theorem between_of_above {outer n : Node α} {inner : List (Tree α)}
    (h : n.above = inner ++ outer.tree :: outer.above) : outer.between n = inner := by
  have hlength : n.above.length - (outer.above.length + 1) = inner.length := by
    rw [h, List.length_append, List.length_cons, Nat.add_sub_cancel]
  rw [between, hlength, h, List.take_left]

theorem above_of_mem_descendants {outer n : Node α} (h : n ∈ outer.descendants) :
    n = outer ∨ n.above = outer.between n ++ outer.tree :: outer.above := by
  rw [descendants_eq] at h
  rcases List.mem_cons.mp h with rfl | h
  · exact .inl rfl
  · obtain ⟨c, hc, hn⟩ := List.mem_flatMap.mp h
    have habove : ∃ inner, n.above = inner ++ outer.tree :: outer.above := by
      rcases above_of_mem_descendants hn with rfl | hinner
      · exact ⟨[], rfl⟩
      · exact ⟨(outer.down c).between n ++ [c], by rw [List.append_assoc]; exact hinner⟩
    obtain ⟨inner, hinner⟩ := habove
    exact .inr (by rw [between_of_above hinner]; exact hinner)
termination_by outer.size
decreasing_by exact Tree.size_lt_of_mem_children hc

/-- Seen from further out, a node has its outer node around it as well. -/
theorem between_down {outer n : Node α} {c : Tree α} (h : n ∈ (outer.down c).descendants) :
    n = outer.down c ∨ outer.between n = (outer.down c).between n ++ [c] := by
  refine (above_of_mem_descendants h).imp_right fun habove => between_of_above ?_
  rw [List.append_assoc]
  exact habove

/-- A node around which a child lies has that child between them. -/
theorem mem_between_of_below {outer n : Node α} {c d : Tree α}
    (h : n ∈ ((outer.down c).down d).descendants) : c ∈ outer.between n := by
  have habove : ∃ inner, n.above = inner ++ [c] ++ outer.tree :: outer.above := by
    rcases above_of_mem_descendants h with rfl | hinner
    · exact ⟨[], rfl⟩
    · refine ⟨((outer.down c).down d).between n ++ [d], ?_⟩
      rw [List.append_assoc, List.append_assoc]
      exact hinner
  obtain ⟨inner, hinner⟩ := habove
  rw [between_of_above hinner]
  exact List.mem_append_right _ (List.mem_singleton_self c)

theorem flatMap_namedChildren {β : Type} (f : Node α → List β) (n : Node α) :
    n.namedChildren.flatMap f =
      n.tree.children.flatMap fun c => if c.label.named then f (n.down c) else [] := by
  unfold namedChildren Tree.namedChildren
  induction n.tree.children with
  | nil => rfl
  | cons c cs ih =>
    rw [List.filter_cons, List.flatMap_cons, ← ih]
    cases c.label.named <;> rfl

end Syntax.Node

namespace Typing

open Extract (notedNode)
open Syntax (Node)

/-! ## Return statements of a body -/

/-- Signatures, which have no body. -/
def signatureKinds : List String :=
  ["function_signature", "function_type", "constructor_type", "call_signature",
    "construct_signature", "method_signature", "abstract_method_signature"]

/-- Whether nodes of a kind are functions, methods or classes with a body. -/
def ownsStatements (kind : String) : Bool :=
  ([.functionDeclaration, .anonymousFunction, .memberFunction, .classDeclaration,
    .classExpression] : List ScopeRole).contains (ScopeRole.ofKind kind) &&
    !signatureKinds.contains kind

/-- The way down stops exactly at the functions, methods and classes that scopes know of. -/
theorem mem_functionBoundaries_iff {kind : String} :
    kind ∈ functionBoundaries ↔ ownsStatements kind = true := by
  constructor
  · have hall : ∀ k ∈ functionBoundaries, ownsStatements k = true := by decide
    exact hall kind
  · unfold ownsStatements ScopeRole.ofKind
    split
    case h_32 => exact fun h => absurd (Bool.and_eq_true_iff.mp h).1 (by decide)
    all_goals decide

/-- A return statement belongs to a body if no function, method or class lies between them. Tokens
have nothing inside, so all nodes around a statement are named. -/
def Belongs (body n : ScopedNode) : Prop :=
  n.kind = "return_statement" ∧ n.label.named = true ∧
    ∀ u ∈ body.between n, u.label.named = true ∧ ownsStatements u.kind = false

instance (body n : ScopedNode) : Decidable (Belongs body n) :=
  inferInstanceAs (Decidable (_ ∧ _ ∧ _))

/-- The return statements that belong to a body, in their order. -/
def ownReturns (body : ScopedNode) : List ScopedNode :=
  body.descendants.filter fun n => Belongs body n

/-- The values that a body returns. -/
def ownValues (body : ScopedNode) : List ScopedNode :=
  (ownReturns body).filterMap (·.namedChild? 0)

/-- Return statements lie in one another only through functions, methods and classes: on the way
from one of them out of the body, such a node is met before another return statement. -/
def ReturnsApart (body : ScopedNode) : Prop :=
  ∀ n ∈ body.descendants, n.kind = "return_statement" →
    ∀ u ∈ (body.between n).takeWhile (fun u => !ownsStatements u.kind),
      u.kind ≠ "return_statement"

instance (body : ScopedNode) : Decidable (ReturnsApart body) := List.decidableBAll _ _

/-- A return statement that the way down from a node comes to. -/
def Met (n r : ScopedNode) : Prop :=
  Belongs n r ∧ ∀ u ∈ n.between r, u.kind ≠ "return_statement"

instance (n r : ScopedNode) : Decidable (Met n r) := inferInstanceAs (Decidable (_ ∧ _))

section Collecting

variable {n r : ScopedNode} {c : Syntax.Tree Note}

theorem met_down_iff (hnamed : c.label.named = true) (hreturn : c.kind ≠ "return_statement")
    (howns : ownsStatements c.kind = false) (hr : r ∈ (n.down c).descendants) :
    Met n r ↔ Met (n.down c) r := by
  rcases Node.between_down hr with rfl | hbetween
  · -- neither way is the child itself a return statement
    exact ⟨fun h => absurd h.1.1 hreturn, fun h => absurd h.1.1 hreturn⟩
  · unfold Met Belongs
    rw [hbetween]
    simp only [List.forall_mem_append, List.forall_mem_singleton]
    tauto

/-- Behind a node where the way down ends, no return statement is met. -/
theorem filter_met_of_end (hend : c.label.named = false ∨ c.kind = "return_statement" ∨
    ownsStatements c.kind = true) :
    ((n.down c).descendants.filter fun r => Met n r) =
      if Met n (n.down c) then [n.down c] else [] := by
  have hbehind : ((n.down c).tree.children.flatMap fun d =>
      ((n.down c).down d).descendants).filter (fun r => Met n r) = [] := by
    refine List.filter_eq_nil_iff.mpr fun r hr => ?_
    obtain ⟨d, -, hr⟩ := List.mem_flatMap.mp hr
    have hc := Node.mem_between_of_below hr
    rw [decide_eq_true_iff]
    intro hmet
    obtain ⟨hnamed, howns⟩ := hmet.1.2.2 c hc
    rcases hend with h | h | h
    · rw [h] at hnamed
      cases hnamed
    · exact hmet.2 c hc h
    · rw [h] at howns
      cases howns
  rw [Node.descendants_eq, List.filter_cons, hbehind]
  simp only [decide_eq_true_iff]

theorem between_child (n : ScopedNode) (c : Syntax.Tree Note) : n.between (n.down c) = [] :=
  Node.between_of_above rfl

/-- The way down from a node meets what `Met` says, in the order of the nodes. -/
theorem returnStatements_eq_met {n : ScopedNode} (hn : n.kind ≠ "return_statement") :
    returnStatements n = n.descendants.filter fun r => Met n r := by
  rw [returnStatements_eq, Node.flatMap_namedChildren, Node.descendants_eq,
    List.filter_cons_of_neg (by rw [decide_eq_true_iff]; exact fun h => hn h.1.1),
    List.filter_flatMap]
  refine List.flatMap_congr fun c hc => ?_
  have hchild : Met n (n.down c) ↔ c.kind = "return_statement" ∧ c.label.named = true := by
    unfold Met Belongs
    rw [between_child]
    simp only [List.not_mem_nil, false_implies, implies_true, and_true]
    rfl
  have hkind : (n.down c).kind = c.kind := rfl
  rw [hkind]
  by_cases hnamed : c.label.named = true
  · rw [if_pos hnamed]
    by_cases hreturn : c.kind = "return_statement"
    · rw [if_pos hreturn, filter_met_of_end (.inr (.inl hreturn)),
        if_pos (hchild.mpr ⟨hreturn, hnamed⟩)]
    · rw [if_neg hreturn]
      by_cases hboundary : c.kind ∈ functionBoundaries
      · have howns := mem_functionBoundaries_iff.mp hboundary
        rw [if_pos hboundary, filter_met_of_end (.inr (.inr howns)),
          if_neg fun h => hreturn (hchild.mp h).1]
      · have howns : ownsStatements c.kind = false :=
          Bool.eq_false_iff.mpr fun h => hboundary (mem_functionBoundaries_iff.mpr h)
        rw [if_neg hboundary, returnStatements_eq_met (n := n.down c) hreturn]
        refine List.filter_congr fun r hr => decide_eq_decide.mpr ?_
        exact (met_down_iff hnamed hreturn howns hr).symm
  · rw [if_neg hnamed, filter_met_of_end (.inl (Bool.eq_false_iff.mpr hnamed)),
      if_neg fun h => hnamed (hchild.mp h).2]
termination_by n.size
decreasing_by exact Syntax.Tree.size_lt_of_mem_children hc

end Collecting

/-- What is collected on the way down are the return statements that belong to the body. -/
theorem returnStatements_eq_ownReturns {body : ScopedNode} (hbody : body.kind ≠ "return_statement")
    (hapart : ReturnsApart body) : returnStatements body = ownReturns body := by
  rw [returnStatements_eq_met hbody, ownReturns]
  refine List.filter_congr fun r hr => decide_eq_decide.mpr ⟨fun h => h.1, fun h => ⟨h, ?_⟩⟩
  intro u hu
  refine hapart r hr h.1 u ?_
  -- no function, method or class is met on the way out
  rwa [List.takeWhile_eq_self_iff.mpr fun w hw => by rw [(h.2.2 w hw).2]; rfl]

/-! ## The inferred type -/

/-- What is inferred from the values that are returned: `void` if there are none, the primitive type
that all of them have, and otherwise a type that goes by the text of the first. -/
inductive Infers : List ScopedNode → TypeDesc → Prop
  | void : Infers [] (.primitive "void")
  | uniform {v : ScopedNode} {vs : List ScopedNode} {p : String} :
      (∀ w ∈ v :: vs, expressionType w = .primitive p) → Infers (v :: vs) (.primitive p)
  | mixed {v : ScopedNode} {vs : List ScopedNode} :
      (∀ p, ∃ w ∈ v :: vs, expressionType w ≠ .primitive p) →
      Infers (v :: vs) (.notIdentified v.text)

/-- The type that values have in common is what is inferred from them. -/
theorem infers_commonPrimitive (vs : List ScopedNode) :
    Infers vs (commonPrimitive (vs.map expressionType) ((vs.head?.map (·.text)).getD "")) := by
  cases vs with
  | nil => exact .void
  | cons v vs =>
    rw [List.map_cons]
    cases hfirst : expressionType v with
    | primitive p =>
      unfold commonPrimitive
      dsimp only
      split
      · next hall =>
        refine .uniform (List.forall_mem_cons.mpr ⟨hfirst, fun w hw => ?_⟩)
        exact beq_iff_eq.mp (List.all_eq_true.mp hall _ (List.mem_map_of_mem hw))
      · next hall =>
        refine .mixed fun q => ?_
        by_contra hq
        push Not at hq
        -- the first value decides which type it would have to be
        obtain ⟨hv, hvs⟩ := List.forall_mem_cons.mp hq
        refine hall (List.all_eq_true.mpr fun x hx => beq_iff_eq.mpr ?_)
        obtain ⟨w, hw, rfl⟩ := List.mem_map.mp hx
        exact (hvs w hw).trans (hv.symm.trans hfirst)
    | _ =>
      refine .mixed fun q => ⟨v, List.mem_cons_self, ?_⟩
      rw [hfirst]
      exact TypeDesc.noConfusion

theorem Infers.unique {vs : List ScopedNode} {a b : TypeDesc} (ha : Infers vs a)
    (hb : Infers vs b) : a = b := by
  cases ha with
  | void =>
    cases hb
    rfl
  | uniform hall =>
    cases hb with
    | uniform hall' =>
      exact (hall _ List.mem_cons_self).symm.trans (hall' _ List.mem_cons_self)
    | mixed hsome =>
      obtain ⟨w, hw, hne⟩ := hsome _
      exact absurd (hall w hw) hne
  | mixed hsome =>
    cases hb with
    | uniform hall =>
      obtain ⟨w, hw, hne⟩ := hsome _
      exact absurd (hall w hw) hne
    | mixed _ => rfl

/-- The return type of a function without annotation whose body is a block: what is inferred from
the values that belong to the body, as a promise if the function is asynchronous. -/
theorem returnTypeOf_infers {n body : ScopedNode} (hdeclared : n.field? "return_type" = none)
    (hbody : n.field? "body" = some body) (hblock : body.kind = "statement_block")
    (hapart : ReturnsApart body) :
    ∃ inferred, (∀ type, Infers (ownValues body) type ↔ type = inferred) ∧
      returnTypeOf n =
        if n.hasToken "async" then .declared (.bare "Promise") [inferred] else inferred := by
  have hvalues : returnedValues body = ownValues body := by
    rw [returnedValues, returnStatements_eq_ownReturns (by rw [hblock]; decide) hapart, ownValues]
  have hinfers : Infers (ownValues body) (inferredType body) := by
    rw [inferredType, if_pos hblock, hvalues]
    exact infers_commonPrimitive _
  refine ⟨inferredType body, fun type => ⟨fun h => h.unique hinfers, fun h => h ▸ hinfers⟩, ?_⟩
  rw [returnTypeOf_eq, hdeclared, hbody]
  rfl

/-- The statement `return v;`. -/
def returning (v : Syntax.Tree Note) : Syntax.Tree Note :=
  notedNode .none "return_statement" [] "" [v]

/-- The body `{ if (c) { return 1; } const g = () => { return "s"; }; return 2; }`. -/
def twoNumbers : Syntax.Tree Note :=
  notedNode .none "statement_block" ["body"] "" [
    notedNode .none "if_statement" [] "" [
      notedNode .none "statement_block" ["consequence"] "" [
        returning (notedNode .none "number" [] "1" [])]],
    notedNode .none "lexical_declaration" [] "" [
      notedNode .none "variable_declarator" [] "" [
        notedNode .none "identifier" ["name"] "g" [],
        notedNode .none "arrow_function" ["value"] "" [
          notedNode .none "formal_parameters" ["parameters"] "()" [],
          notedNode .none "statement_block" ["body"] "" [
            returning (notedNode .none "string" [] "\"s\"" [])]]]],
    returning (notedNode .none "number" [] "2" [])]

/-- The function `async function f() …` with that body. -/
def twoNumbersFunction : ScopedNode :=
  .root (notedNode .none "function_declaration" [] "" [
    .node ⟨0, "async", false, false, [], "async", ⟨0, 0⟩, ⟨0, 0⟩, []⟩ .none [],
    notedNode .none "identifier" ["name"] "f" [],
    notedNode .none "formal_parameters" ["parameters"] "()" [],
    twoNumbers])

/-- The string that the inner function returns does not count. -/
theorem returnTypeOf_infers_numbers :
    twoNumbersFunction.field? "return_type" = none ∧
    twoNumbersFunction.field? "body" = some (twoNumbersFunction.down twoNumbers) ∧
    ReturnsApart (twoNumbersFunction.down twoNumbers) ∧
    (ownValues (twoNumbersFunction.down twoNumbers)).map (·.text) = ["1", "2"] ∧
    ∃ inferred, Infers (ownValues (twoNumbersFunction.down twoNumbers)) inferred ∧
      inferred = .primitive "number" ∧
      returnTypeOf twoNumbersFunction = .declared (.bare "Promise") [inferred] := by
  have hdeclared : twoNumbersFunction.field? "return_type" = none := rfl
  have hbody : twoNumbersFunction.field? "body" = some (twoNumbersFunction.down twoNumbers) := rfl
  have hapart : ReturnsApart (twoNumbersFunction.down twoNumbers) := by decide +kernel
  have htype : returnTypeOf twoNumbersFunction =
      .declared (.bare "Promise") [.primitive "number"] := by decide +kernel
  refine ⟨hdeclared, hbody, hapart, by decide +kernel, ?_⟩
  obtain ⟨inferred, hinfers, hreturn⟩ := returnTypeOf_infers hdeclared hbody rfl hapart
  have hpromise : returnTypeOf twoNumbersFunction = .declared (.bare "Promise") [inferred] :=
    hreturn
  refine ⟨inferred, (hinfers inferred).mpr rfl, ?_, hpromise⟩
  have hargs := hpromise.symm.trans htype
  injection hargs with _ hargs
  injection hargs

end Typing

end CodeConcepts
