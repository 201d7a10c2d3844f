import CodeConcepts.Model.Basic

/-!
# Following exports

A name that was imported is recorded as a member of the module it was imported from. What it
denotes is decided by that module's exports: a declaration of its own comes first; otherwise the
modules reachable along `export *` are searched breadth first for a named export, which may be an
alias to be followed further, or for a declaration of the name.

The search visits each module once. A chain of aliases is followed for `chainLimit` steps at most
and never enters a pair of module and name twice. What a search found is remembered while the names
of a model are visited, so each pair is searched for once.
-/

namespace CodeConcepts

/-- What is known of the exports and declarations of all modules. -/
structure ExportTable where
  exports : List ExportDecl
  declared : List QName

namespace ExportTable

/-- The table of a model. -/
def ofModel (m : Model) : ExportTable where
  exports := m.exports
  declared := (Kind.all.filter (·.isIdentified)).flatMap m.identities

/-- Whether a record exports all names of another module. -/
def isStar (e : ExportDecl) : Bool := e.identifier == "*" && e.aliasName.isNone

/-- The modules all of whose names a module exports. -/
def stars (t : ExportTable) (module : QName) : List QName :=
  (t.exports.filter fun e => isStar e && e.exporter == module).map (·.declaration)

/-- What a module exports by a name: the first record counts. -/
def named? (t : ExportTable) (module : QName) (name : String) : Option QName :=
  (t.exports.find? fun e => !isStar e && e.exporter == module && e.exportedName == name).map
    (·.declaration)

/-- Whether some record declares a name. -/
def declares (t : ExportTable) (n : QName) : Bool := t.declared.contains n

/-! ## Breadth-first order -/

/-- The members of a list that are not visited yet, each once. -/
def fresh (visited : List QName) : List QName → List QName
  | [] => []
  | s :: ss => if s ∈ visited then fresh visited ss else s :: fresh (s :: visited) ss

/-- All modules that some `export *` mentions. -/
def targets (t : ExportTable) : List QName := (t.exports.filter isStar).map (·.declaration)

/-- Number of members of a list that are not visited yet. -/
def unvisited (targets visited : List QName) : Nat := targets.countP fun n => n ∉ visited

theorem fresh_subset {visited ss : List QName} {n : QName} (h : n ∈ fresh visited ss) : n ∈ ss := by
  induction ss generalizing visited with
  | nil => simp [fresh] at h
  | cons s ss ih =>
    simp only [fresh] at h
    split at h
    · exact List.mem_cons_of_mem _ (ih h)
    · rcases List.mem_cons.1 h with rfl | h
      · simp
      · exact List.mem_cons_of_mem _ (ih h)

theorem not_mem_of_mem_fresh {visited ss : List QName} {n : QName} (h : n ∈ fresh visited ss) :
    n ∉ visited := by
  induction ss generalizing visited with
  | nil => simp [fresh] at h
  | cons s ss ih =>
    simp only [fresh] at h
    split at h
    · exact ih h
    · next hs =>
      rcases List.mem_cons.1 h with rfl | h
      · exact hs
      · exact fun hn => ih h (List.mem_cons_of_mem _ hn)

theorem stars_subset_targets {t : ExportTable} {m n : QName} (h : n ∈ t.stars m) : n ∈ t.targets := by
  simp only [stars, targets, List.mem_map, List.mem_filter, Bool.and_eq_true] at h ⊢
  obtain ⟨e, ⟨he, hs, -⟩, rfl⟩ := h
  exact ⟨e, ⟨he, hs⟩, rfl⟩

/-- Visiting a member that was not visited leaves fewer. -/
theorem unvisited_cons_lt {targets visited : List QName} {n : QName} (hn : n ∈ targets)
    (hv : n ∉ visited) : unvisited targets (n :: visited) < unvisited targets visited := by
  induction targets with
  | nil => simp at hn
  | cons x xs ih =>
    have mono : ∀ ys : List QName,
        unvisited ys (n :: visited) ≤ unvisited ys visited := by
      intro ys
      apply List.countP_mono_left
      intro y _ hy
      simp only [List.mem_cons, not_or, decide_eq_true_eq] at hy ⊢
      exact hy.2
    rcases List.mem_cons.1 hn with rfl | hn
    · have := mono xs
      have now : decide (n ∉ n :: visited) = false := by simp
      have before : decide (n ∉ visited) = true := by simp [hv]
      simp only [unvisited, List.countP_cons, now, before] at this ⊢
      simp only [Bool.false_eq_true, if_false, if_true]
      omega
    · have := ih hn
      have hx := mono [x]
      simp only [unvisited, List.countP_cons, List.countP_nil] at this hx ⊢
      omega

/-- Every fresh module was unvisited before and is visited after. -/
theorem length_fresh_add_unvisited_le (targets visited ss : List QName)
    (h : ∀ s ∈ ss, s ∈ targets) :
    (fresh visited ss).length + unvisited targets (fresh visited ss ++ visited) ≤
      unvisited targets visited := by
  induction ss generalizing visited with
  | nil => simp [fresh]
  | cons s ss ih =>
    have hss : ∀ x ∈ ss, x ∈ targets := fun x hx => h x (List.mem_cons_of_mem _ hx)
    simp only [fresh]
    split
    · exact ih visited hss
    · next hs =>
      have step := ih (s :: visited) hss
      have less := unvisited_cons_lt (h s (by simp)) hs
      have same : unvisited targets (fresh (s :: visited) ss ++ s :: visited) =
          unvisited targets (s :: fresh (s :: visited) ss ++ visited) := by
        unfold unvisited
        congr 1
        funext n
        simp only [List.mem_append, List.mem_cons, List.cons_append]
        congr 1
        simp only [not_or, eq_iff_iff]
        exact ⟨fun hh => ⟨hh.2.1, hh.1, hh.2.2⟩, fun hh => ⟨hh.2.1, hh.1, hh.2.2⟩⟩
      simp only [List.length_cons]
      omega

/-- The modules still to visit, in breadth-first order. -/
def visitFrom (t : ExportTable) (visited : List QName) : List QName → List QName
  | [] => []
  | m :: queue =>
    let next := fresh visited (t.stars m)
    m :: visitFrom t (next ++ visited) (queue ++ next)
termination_by queue => unvisited t.targets visited + queue.length
decreasing_by
  have := length_fresh_add_unvisited_le t.targets visited (t.stars m)
    (fun s hs => stars_subset_targets hs)
  simp only [List.length_append, List.length_cons]
  omega

/-- The modules reachable from `module` along `export *`, the nearest first. -/
def reach (t : ExportTable) (module : QName) : List QName := t.visitFrom [module] [module]

/-! ## Aliases -/

/-- The greatest number of searches for one name. -/
def chainLimit : Nat := 17

/-- What `name` denotes as an export of `module`, if anything, after at most `steps` searches. The
pairs in `entered` are not entered again. -/
def denote (t : ExportTable) : (steps : Nat) → (entered : List (QName × String)) →
    (module : QName) → (name : String) → Option QName
  | 0, _, _, _ => none
  | steps + 1, entered, module, name =>
    if (module, name) ∈ entered then none
    else if t.declares (module.child name) then some (module.child name)
    else
      (t.reach module).findSome? fun current =>
        match t.named? current name with
        | some target =>
          match target.moduleName?, target.headMember? with
          | some m, some head =>
            match denote t steps ((module, name) :: entered) m head with
            | some next => some (target.withHead next)
            | none => some target
          | _, _ => some target
        | none =>
          if current ≠ module ∧ t.declares (current.child name) then some (current.child name)
          else none

/-! ## Names -/

/-- The searches done so far and what they found. -/
abbrev Memo : Type := List ((QName × String) × Option QName)

/-- What a name denotes as an export of a module; a search that was done before is not repeated. -/
def lookUp (t : ExportTable) (key : QName × String) : StateM Memo (Option QName) := do
  match (← get).lookup key with
  | some found => return found
  | none =>
    let found := t.denote chainLimit [] key.1 key.2
    modify ((key, found) :: ·)
    return found

/-- The name of the declaration that a name denotes once exports are followed. -/
def resolve (t : ExportTable) (n : QName) : StateM Memo QName := do
  match n.moduleName?, n.headMember? with
  | some module, some head =>
    match ← t.lookUp (module, head) with
    | some target => return if target = module.child head then n else n.withHead target
    | none => return n
  | _, _ => return n

end ExportTable

/-- The model with every name replaced by that of the declaration it denotes. -/
def Model.resolveExports (m : Model) : Model :=
  ((visitNames (ExportTable.ofModel m).resolve m).run []).1

end CodeConcepts
