import CodeConcepts.Proofs.NameVisits
import CodeConcepts.Proofs.StarSearch
import Mathlib.Data.List.Forall2

/-!
# Following exports, declaratively

`Model.Resolves m n g` says which name `g` takes the place of `n`, in terms of the export records of
the model and of the names that its records declare: no queue, no table of exports, no table of
earlier searches. The search for a name is decided by the first module in the order of stars that
offers the name (`Decides`); what this module exports may be an alias, which is followed further
(`Follows`).

`Model.resolveExports` puts the records into a table, visits the names of a model one after the
other and remembers what it found. Every name is nevertheless replaced by what `Resolves` says of
it, wherever it stands, and records are neither added nor dropped nor moved.
-/

namespace CodeConcepts

/-- The module and the outermost segment of a name. -/
def ExportTable.HeadedBy (n a : QName) (name : String) : Prop :=
  n.moduleName? = some a ∧ n.headMember? = some name

/-- A record by which a module exports a name. A star without an alias exports nothing by name. -/
def ExportDecl.Names (e : ExportDecl) (a : QName) (name : String) : Prop :=
  e.exporter = a ∧ e.exportedName = name ∧ ¬ (e.identifier = "*" ∧ e.aliasName = none)

namespace Model

open ExportTable

variable (m : Model)

/-! ## The reference definition -/

/-- Some record is that of a declaration of the name. -/
def Identifies (n : QName) : Prop := ∃ k, k.isIdentified = true ∧ n ∈ m.identities k

/-- The modules all of whose names a module exports, in the order of records. -/
def starTargets (a : QName) : List QName :=
  (m.exports.filter fun e => e.identifier = "*" ∧ e.aliasName = none ∧ e.exporter = a).map
    (·.declaration)

/-- What a module exports by a name: the first record counts. -/
def Exports (a : QName) (name : String) (target : QName) : Prop :=
  ∃ before e after, m.exports = before ++ e :: after ∧ e.Names a name ∧ e.declaration = target ∧
    ∀ d ∈ before, ¬ d.Names a name

/-- The module `c` offers `name` to the module `a`: by a named export, or by a declaration if it is
another module than `a`. -/
def Offers (a : QName) (name : String) (c : QName) : Prop :=
  (∃ target, m.Exports c name target) ∨ (c ≠ a ∧ m.Identifies (c.child name))

/-- The module `c` decides what `name` is in `a`: it is the first one along stars to offer it. -/
def Decides (a : QName) (name : String) (c : QName) : Prop :=
  FirstAlong m.starTargets a (m.Offers a name) c

/-- No module reachable along stars offers the name. -/
def Unoffered (a : QName) (name : String) : Prop :=
  ∀ c, Relation.ReflTransGen (fun x y => y ∈ m.starTargets x) a c → ¬ m.Offers a name c

/-- A target is not followed further: no search is left, the pair was entered before, or the search
leads nowhere. A target without module or members is not searched for. -/
def Ends (steps : Nat) (entered : List (QName × String)) (target : QName) : Prop :=
  ∀ a name, HeadedBy target a name →
    steps = 0 ∨ (a, name) ∈ entered ∨ (¬ m.Identifies (a.child name) ∧ m.Unoffered a name)

/-- Where a target leads with the given number of searches left, when the pairs in `entered` are not
entered again. -/
inductive Follows : Nat → List (QName × String) → QName → QName → Prop
  | stays {steps entered target} : m.Ends steps entered target →
      Follows steps entered target target
  | declared {steps entered target a name} : HeadedBy target a name → (a, name) ∉ entered →
      m.Identifies (a.child name) →
      Follows (steps + 1) entered target (target.withHead (a.child name))
  | offered {steps entered target a name c} : HeadedBy target a name → (a, name) ∉ entered →
      ¬ m.Identifies (a.child name) → m.Decides a name c → (¬ ∃ next, m.Exports c name next) →
      Follows (steps + 1) entered target (target.withHead (c.child name))
  | exported {steps entered target a name c next final} : HeadedBy target a name →
      (a, name) ∉ entered → ¬ m.Identifies (a.child name) → m.Decides a name c →
      m.Exports c name next → Follows steps ((a, name) :: entered) next final →
      Follows (steps + 1) entered target (target.withHead final)

/-- What takes the place of a name once exports are followed. -/
inductive Resolves : QName → QName → Prop
  | unqualified {n} : n.moduleName? = none ∨ n.headMember? = none → Resolves n n
  | declared {n a name} : HeadedBy n a name → m.Identifies (a.child name) → Resolves n n
  | unoffered {n a name} : HeadedBy n a name → ¬ m.Identifies (a.child name) →
      m.Unoffered a name → Resolves n n
  | offered {n a name c} : HeadedBy n a name → ¬ m.Identifies (a.child name) → m.Decides a name c →
      (¬ ∃ next, m.Exports c name next) → Resolves n (n.withHead (c.child name))
  | exported {n a name c next final} : HeadedBy n a name → ¬ m.Identifies (a.child name) →
      m.Decides a name c → m.Exports c name next →
      Follows m (chainLimit - 1) [(a, name)] next final →
      Resolves n (if final = a.child name then n else n.withHead final)

end Model

/-! ## One search -/

namespace ExportTable

variable (t : ExportTable) {entered : List (QName × String)} {name : String} {steps : Nat}

/-- Whether the module `c` offers `name` to the module `m`. -/
def offers (m : QName) (name : String) (c : QName) : Bool :=
  (t.named? c name).isSome || (c ≠ m && t.declares (c.child name))

/-- Where a target leads, as a function. -/
def follow (steps : Nat) (entered : List (QName × String)) (target : QName) : QName :=
  match target.moduleName?, target.headMember? with
  | some m, some name => ((t.denote steps entered m name).map target.withHead).getD target
  | _, _ => target

theorem some_follow (steps : Nat) (entered : List (QName × String)) (target : QName) :
    some (t.follow steps entered target) =
      match target.moduleName?, target.headMember? with
      | some m, some head =>
        match t.denote steps entered m head with
        | some next => some (target.withHead next)
        | none => some target
      | _, _ => some target := by
  unfold follow
  cases target.moduleName? with
  | none => rfl
  | some m =>
    cases target.headMember? with
    | none => rfl
    | some head =>
      dsimp only
      cases t.denote steps entered m head <;> rfl

theorem findSome?_eq_map {α β : Type} {p : α → Bool} {f : α → β} (xs : List α) :
    xs.findSome? (fun x => if p x then some (f x) else none) = (xs.find? p).map f := by
  induction xs with
  | nil => rfl
  | cons x xs ih =>
    rw [List.findSome?_cons, List.find?_cons]
    cases p x with
    | false => exact ih
    | true => rfl

/-- A search that is entered and finds no declaration of the module's own is decided by the first
module that offers the name. -/
theorem denote_succ {m : QName} (hin : (m, name) ∉ entered)
    (hown : t.declares (m.child name) = false) :
    t.denote (steps + 1) entered m name =
      ((t.reach m).find? (t.offers m name)).map fun c =>
        match t.named? c name with
        | some next => t.follow steps ((m, name) :: entered) next
        | none => c.child name := by
  rw [denote, if_neg hin, hown, if_neg Bool.false_ne_true, ← findSome?_eq_map]
  congr 1
  funext c
  unfold offers
  cases t.named? c name with
  | none => simp
  | some next => exact (t.some_follow steps _ next).symm

variable {t} in
theorem denote_of_entered {m : QName} (hin : (m, name) ∈ entered) :
    t.denote steps entered m name = none := by
  cases steps with
  | zero => rfl
  | succ steps => rw [denote, if_pos hin]

variable {t} in
theorem denote_of_declared {m : QName} (hin : (m, name) ∉ entered)
    (hown : t.declares (m.child name) = true) :
    t.denote (steps + 1) entered m name = some (m.child name) := by
  rw [denote, if_neg hin, if_pos hown]

theorem headedBy_or (n : QName) :
    (n.moduleName? = none ∨ n.headMember? = none) ∨ ∃ m name, HeadedBy n m name := by
  cases hm : n.moduleName? with
  | none => exact .inl (.inl rfl)
  | some m =>
    cases hh : n.headMember? with
    | none => exact .inl (.inr rfl)
    | some name => exact .inr ⟨m, name, hm, hh⟩

theorem not_headedBy {n m : QName} (h : n.moduleName? = none ∨ n.headMember? = none) :
    ¬ HeadedBy n m name := by
  rintro ⟨hm, hh⟩
  rcases h with h | h
  · rw [h] at hm
    cases hm
  · rw [h] at hh
    cases hh

theorem follow_of_headedBy {target m : QName} (h : HeadedBy target m name) :
    t.follow steps entered target =
      ((t.denote steps entered m name).map target.withHead).getD target := by
  rw [follow, h.1, h.2]

theorem follow_of_unqualified {target : QName}
    (h : target.moduleName? = none ∨ target.headMember? = none) :
    t.follow steps entered target = target := by
  unfold follow
  split
  · next hm hh => exact absurd ⟨hm, hh⟩ (not_headedBy h)
  · rfl

/-- What takes the place of a name, as a function. -/
def resolved (n : QName) : QName :=
  match n.moduleName?, n.headMember? with
  | some m, some name =>
    match t.denote chainLimit [] m name with
    | some target => if target = m.child name then n else n.withHead target
    | none => n
  | _, _ => n

theorem resolved_of_headedBy {n m : QName} (h : HeadedBy n m name) :
    t.resolved n =
      match t.denote chainLimit [] m name with
      | some target => if target = m.child name then n else n.withHead target
      | none => n := by
  rw [resolved, h.1, h.2]

theorem resolved_of_unqualified {n : QName} (h : n.moduleName? = none ∨ n.headMember? = none) :
    t.resolved n = n := by
  unfold resolved
  split
  · next hm hh => exact absurd ⟨hm, hh⟩ (not_headedBy h)
  · rfl

end ExportTable

/-! ## The table and the records -/

namespace Model

open ExportTable

variable {m : Model} {a c n : QName} {name : String}

theorem stars_ofModel (m : Model) : (ofModel m).stars = m.starTargets := by
  funext a
  refine congrArg (List.map _) (List.filter_congr fun e _ => ?_)
  rw [Bool.eq_iff_iff]
  simp [isStar, and_assoc]

theorem named?_iff {target : QName} :
    (ofModel m).named? a name = some target ↔ m.Exports a name target := by
  have hnames (e : ExportDecl) :
      (!isStar e && e.exporter == a && e.exportedName == name) = true ↔ e.Names a name := by
    simp only [isStar, ExportDecl.Names, Bool.and_eq_true, Bool.not_eq_true', beq_iff_eq,
      ← Bool.not_eq_true, Option.isNone_iff_eq_none]
    tauto
  unfold named?
  rw [Option.map_eq_some_iff]
  constructor
  · rintro ⟨e, he, rfl⟩
    obtain ⟨hfound, before, after, hsplit, hbefore⟩ := List.find?_eq_some_iff_append.mp he
    refine ⟨before, e, after, hsplit, (hnames e).mp hfound, rfl, fun d hd h => ?_⟩
    have hnot := hbefore d hd
    rw [(hnames d).mpr h] at hnot
    cases hnot
  · rintro ⟨before, e, after, hsplit, hfound, rfl, hbefore⟩
    refine ⟨e, List.find?_eq_some_iff_append.mpr ⟨(hnames e).mpr hfound, before, after, hsplit, ?_⟩,
      rfl⟩
    intro d hd
    rw [Bool.not_eq_true', ← Bool.not_eq_true, hnames d]
    exact hbefore d hd

theorem named?_eq_none :
    (ofModel m).named? a name = none ↔ ¬ ∃ target, m.Exports a name target := by
  simp only [← named?_iff, Option.eq_none_iff_forall_ne_some, not_exists, ne_eq]

theorem declares_iff : (ofModel m).declares n = true ↔ m.Identifies n := by
  unfold declares ofModel Identifies
  simp [Kind.mem_all]

theorem declares_eq_false : (ofModel m).declares n = false ↔ ¬ m.Identifies n := by
  rw [← declares_iff, Bool.not_eq_true]

theorem offers_iff : (ofModel m).offers a name c = true ↔ m.Offers a name c := by
  simp [offers, Offers, Option.isSome_iff_exists, named?_iff, declares_iff]

theorem decides_iff :
    ((ofModel m).reach a).find? ((ofModel m).offers a name) = some c ↔ m.Decides a name c := by
  rw [find?_reach_eq_some, stars_ofModel]
  simp only [offers_iff]
  rfl

theorem unoffered_iff :
    ((ofModel m).reach a).find? ((ofModel m).offers a name) = none ↔ m.Unoffered a name := by
  rw [find?_reach_eq_none, stars_ofModel]
  simp only [offers_iff]
  rfl

/-- Either some module decides or no reachable one offers the name. -/
theorem unoffered_or_decides (m : Model) (a : QName) (name : String) :
    m.Unoffered a name ∨ ∃ c, m.Decides a name c := by
  simp only [← unoffered_iff, ← decides_iff]
  exact (Option.eq_none_or_eq_some _).imp_right fun ⟨c, hc⟩ => ⟨c, hc⟩

section Search

variable {steps : Nat} {entered : List (QName × String)} (hin : (a, name) ∉ entered)
  (hown : ¬ m.Identifies (a.child name))

include hin hown

theorem denote_of_unoffered (h : m.Unoffered a name) :
    (ofModel m).denote (steps + 1) entered a name = none := by
  rw [denote_succ _ hin (declares_eq_false.mpr hown), unoffered_iff.mpr h, Option.map_none]

theorem denote_of_offered (hc : m.Decides a name c) (hnone : ¬ ∃ next, m.Exports c name next) :
    (ofModel m).denote (steps + 1) entered a name = some (c.child name) := by
  rw [denote_succ _ hin (declares_eq_false.mpr hown), decides_iff.mpr hc, Option.map_some,
    named?_eq_none.mpr hnone]

theorem denote_of_exported {next : QName} (hc : m.Decides a name c)
    (hnext : m.Exports c name next) : (ofModel m).denote (steps + 1) entered a name =
      some ((ofModel m).follow steps ((a, name) :: entered) next) := by
  rw [denote_succ _ hin (declares_eq_false.mpr hown), decides_iff.mpr hc, Option.map_some,
    named?_iff.mpr hnext]

end Search

/-! ## Chains of aliases -/

variable {steps : Nat} {entered : List (QName × String)}

theorem follow_of_ends {target : QName} (h : m.Ends steps entered target) :
    (ofModel m).follow steps entered target = target := by
  rcases headedBy_or target with hnone | ⟨a, name, hhead⟩
  · exact follow_of_unqualified _ hnone
  · have hdenote : (ofModel m).denote steps entered a name = none := by
      by_cases hin : (a, name) ∈ entered
      · exact denote_of_entered hin
      cases steps with
      | zero => rfl
      | succ steps =>
        rcases h a name hhead with h | h | ⟨hown, hnone⟩
        · cases h
        · exact absurd h hin
        · exact denote_of_unoffered hin hown hnone
    rw [follow_of_headedBy _ hhead, hdenote]
    rfl

theorem follows_follow (m : Model) (steps : Nat) (entered : List (QName × String))
    (target : QName) :
    m.Follows steps entered target ((ofModel m).follow steps entered target) := by
  induction steps generalizing entered target with
  | zero =>
    have hends : m.Ends 0 entered target := fun _ _ _ => .inl rfl
    rw [follow_of_ends hends]
    exact .stays hends
  | succ steps ih =>
    by_cases hends : m.Ends (steps + 1) entered target
    · rw [follow_of_ends hends]
      exact .stays hends
    -- the target is searched for, and the search comes to a result
    unfold Ends at hends
    push Not at hends
    obtain ⟨a, name, hhead, -, hin, hsearch⟩ := hends
    rw [follow_of_headedBy _ hhead]
    by_cases hown : m.Identifies (a.child name)
    · rw [denote_of_declared hin (declares_iff.mpr hown)]
      exact .declared hhead hin hown
    · obtain ⟨c, hc⟩ := (m.unoffered_or_decides a name).resolve_left (hsearch hown)
      by_cases hnext : ∃ next, m.Exports c name next
      · obtain ⟨next, hnext⟩ := hnext
        rw [denote_of_exported hin hown hc hnext]
        exact .exported hhead hin hown hc hnext (ih _ next)
      · rw [denote_of_offered hin hown hc hnext]
        exact .offered hhead hin hown hc hnext

theorem follows_iff {target final : QName} :
    m.Follows steps entered target final ↔ (ofModel m).follow steps entered target = final := by
  refine ⟨fun h => ?_, fun h => h ▸ m.follows_follow steps entered target⟩
  induction h with
  | stays hends => exact follow_of_ends hends
  | declared hhead hin hown =>
    rw [follow_of_headedBy _ hhead, denote_of_declared hin (declares_iff.mpr hown)]
    rfl
  | offered hhead hin hown hc hnone =>
    rw [follow_of_headedBy _ hhead, denote_of_offered hin hown hc hnone]
    rfl
  | exported hhead hin hown hc hnext _ ih =>
    rw [follow_of_headedBy _ hhead, denote_of_exported hin hown hc hnext, ← ih]
    rfl

/-! ## Names -/

/-- A module that offers a name without exporting it declares it, so its declaration is not the
missing one. -/
theorem child_ne_of_decides (hown : ¬ m.Identifies (a.child name)) (hc : m.Decides a name c)
    (hnone : ¬ ∃ next, m.Exports c name next) : c.child name ≠ a.child name := by
  obtain ⟨_, _, _, _, hoffer, _⟩ := hc
  intro e
  exact hown (e ▸ (hoffer.resolve_left hnone).2)

theorem resolves_resolved (m : Model) (n : QName) : m.Resolves n ((ofModel m).resolved n) := by
  rcases headedBy_or n with hnone | ⟨a, name, hhead⟩
  · rw [resolved_of_unqualified _ hnone]
    exact .unqualified hnone
  -- nothing was entered before the first search, so it is never refused
  have hin : (a, name) ∉ ([] : List (QName × String)) := List.not_mem_nil
  rw [resolved_of_headedBy _ hhead, chainLimit]
  by_cases hown : m.Identifies (a.child name)
  · rw [denote_of_declared hin (declares_iff.mpr hown)]
    dsimp only
    rw [if_pos rfl]
    exact .declared hhead hown
  rcases m.unoffered_or_decides a name with hnone | ⟨c, hc⟩
  · rw [denote_of_unoffered hin hown hnone]
    exact .unoffered hhead hown hnone
  by_cases hnext : ∃ next, m.Exports c name next
  · obtain ⟨next, hnext⟩ := hnext
    rw [denote_of_exported hin hown hc hnext]
    exact .exported hhead hown hc hnext (m.follows_follow _ _ next)
  · rw [denote_of_offered hin hown hc hnext]
    dsimp only
    rw [if_neg (child_ne_of_decides hown hc hnext)]
    exact .offered hhead hown hc hnext

theorem resolves_iff {g : QName} : m.Resolves n g ↔ (ofModel m).resolved n = g := by
  refine ⟨fun h => ?_, fun h => h ▸ m.resolves_resolved n⟩
  cases h with
  | unqualified hnone => exact resolved_of_unqualified _ hnone
  | declared hhead hown =>
    rw [resolved_of_headedBy _ hhead, chainLimit,
      denote_of_declared List.not_mem_nil (declares_iff.mpr hown)]
    exact if_pos rfl
  | unoffered hhead hown hnone =>
    rw [resolved_of_headedBy _ hhead, chainLimit, denote_of_unoffered List.not_mem_nil hown hnone]
  | offered hhead hown hc hnone =>
    rw [resolved_of_headedBy _ hhead, chainLimit,
      denote_of_offered List.not_mem_nil hown hc hnone]
    exact if_neg (child_ne_of_decides hown hc hnone)
  | exported hhead hown hc hnext hfinal =>
    rw [resolved_of_headedBy _ hhead, chainLimit,
      denote_of_exported List.not_mem_nil hown hc hnext, ← follows_iff.mp hfinal]
    rfl

end Model

namespace ExportTable

variable (t : ExportTable) {name : String}

/-! ## The table of searches -/

/-- Every entry of the table is what a search would find. -/
def Remembers (memo : Memo) : Prop :=
  ∀ key found, memo.lookup key = some found → found = t.denote chainLimit [] key.1 key.2

theorem run_lookUp (key : QName × String) (memo : Memo) :
    (t.lookUp key).run memo =
      match memo.lookup key with
      | some found => (found, memo)
      | none => (t.denote chainLimit [] key.1 key.2,
          (key, t.denote chainLimit [] key.1 key.2) :: memo) := by
  show (match memo.lookup key with
    | some found => (pure found : StateM Memo (Option QName))
    | none => _).run memo = _
  cases memo.lookup key <;> rfl

theorem gives_lookUp (key : QName × String) :
    Gives t.Remembers (t.lookUp key) (t.denote chainLimit [] key.1 key.2) := by
  intro memo hmemo
  rw [run_lookUp]
  cases hlookup : memo.lookup key with
  | some found => exact ⟨hmemo key found hlookup, hmemo⟩
  | none =>
    -- the new entry is right, and it hides no entry of another key
    refine ⟨rfl, fun other found h => ?_⟩
    rw [List.lookup_cons] at h
    by_cases hkey : other = key
    · rw [hkey, beq_self_eq_true] at h
      rw [hkey]
      exact (Option.some.inj h).symm
    · rw [beq_false_of_ne hkey] at h
      exact hmemo other found h

theorem gives_resolve (n : QName) : Gives t.Remembers (t.resolve n) (t.resolved n) := by
  rcases headedBy_or n with hnone | ⟨m, name, hhead⟩
  · rw [t.resolved_of_unqualified hnone]
    unfold resolve
    split
    · next hm hh => exact absurd ⟨hm, hh⟩ (not_headedBy hnone)
    · exact .pure n
  · rw [t.resolved_of_headedBy hhead, resolve, hhead.1, hhead.2]
    refine (t.gives_lookUp (m, name)).bind ?_
    cases t.denote chainLimit [] m name <;> exact .pure _

end ExportTable

namespace Model

open ExportTable

/-- What was searched for before makes no difference: all names are replaced alike. -/
theorem resolveExports_eq_mapNames (m : Model) :
    m.resolveExports = mapNames (ofModel m).resolved m :=
  (gives_visitNames (ofModel m).gives_resolve m [] (by simp [Remembers])).1

/-- Only export records and declared names have a part in what becomes of a name. -/
theorem ofModel_congr {m n : Model} (hexports : m.exports = n.exports)
    (hdeclared : ∀ k, k.isIdentified = true → m.identities k = n.identities k) :
    ofModel m = ofModel n := by
  unfold ofModel
  rw [hexports, List.flatMap_congr fun k hk => hdeclared k (List.mem_filter.mp hk).2]

/-- Every name of a model, in whatever record and at whatever depth, is replaced by the one that
the exports and declarations of the model give it; all else stays. In another model with the same
exports and declared names all names are replaced alike. -/
theorem resolveExports_meets_definition (m : Model) :
    ∃ replace : QName → QName,
      (∀ n g, m.Resolves n g ↔ replace n = g) ∧
      names m.resolveExports = (names m).map replace ∧
      m.resolveExports = mapNames replace m ∧
      (∀ k, m.resolveExports.get k = (m.get k).map (mapNames replace)) ∧
      ∀ m' : Model, m'.exports = m.exports →
        (∀ k, k.isIdentified = true → m'.identities k = m.identities k) →
        m'.resolveExports = mapNames replace m' := by
  refine ⟨(ofModel m).resolved, fun n g => resolves_iff, ?_, ?_, fun k => ?_,
    fun m' hexports hdeclared => ?_⟩
  · rw [resolveExports_eq_mapNames, names_mapNames]
  · exact resolveExports_eq_mapNames m
  · rw [resolveExports_eq_mapNames, get_mapNames]
  · rw [resolveExports_eq_mapNames, ofModel_congr hexports hdeclared]

/-- The record of an export of the module `a`. -/
def exportEntry (a : QName) (identifier : String) (aliasName : Option String) (target : QName) :
    Concept :=
  ⟨.export, ⟨identifier, aliasName, target, false, .value, a⟩⟩

/-- The record of an enumeration. -/
def enumEntry (a : QName) (name : String) : Concept :=
  ⟨.enum, ⟨a.child name, name, [], false, false, ⟨"", 1, 1, 1, 1⟩⟩⟩

/-- The module `./i.ts` exports all of `./u.ts` and `./v.ts`, and an alias of an alias. The stars of
`./u.ts` lead back to it, and to `./y.ts`. -/
def barrelModel : Model :=
  let module (letter : String) : QName := .ofModule s!"./{letter}.ts"
  ofConcepts ([
    exportEntry (module "i") "*" none (module "u"),
    exportEntry (module "i") "w" (some "W") ((module "w").child "w"),
    exportEntry (module "i") "*" none (module "v"),
    exportEntry (module "w") "x" (some "w") ((module "x").child "x"),
    exportEntry (module "u") "*" none (module "i"),
    exportEntry (module "u") "*" none (module "y"),
    enumEntry (module "x") "x", enumEntry (module "v") "v", enumEntry (module "y") "v"] ++
    [((module "i").child "W").child "A", (module "i").child "v", (module "u").child "v",
      (module "i").child "z", (module "x").child "x"].map fun n =>
        ⟨.edge, ⟨module "m", n, .read⟩⟩)

/-- Aliases are followed to their end, the nearest declaration along stars counts, and a name that
no module offers stays. -/
theorem resolveExports_meets_definition_barrels :
    barrelModel.resolveExports.edges.map (·.target) = [⟨"\"./x.ts\".x.A"⟩, ⟨"\"./v.ts\".v"⟩,
      ⟨"\"./y.ts\".v"⟩, ⟨"\"./i.ts\".z"⟩, ⟨"\"./x.ts\".x"⟩] ∧
    List.Forall₂ barrelModel.Resolves (barrelModel.edges.map (·.target))
      (barrelModel.resolveExports.edges.map (·.target)) := by
  refine ⟨by decide +kernel, ?_⟩
  obtain ⟨replace, hresolves, -, -, hget, -⟩ := resolveExports_meets_definition barrelModel
  have hedges : barrelModel.resolveExports.edges = barrelModel.edges.map (mapNames replace) :=
    hget .edge
  rw [hedges, List.map_map, List.forall₂_map_right_iff, List.forall₂_map_left_iff,
    List.forall₂_same]
  exact fun e _ => (hresolves _ _).mpr rfl

end Model

end CodeConcepts
