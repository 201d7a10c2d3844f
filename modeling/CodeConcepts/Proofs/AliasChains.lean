import CodeConcepts.Proofs.ExportResolution
import CodeConcepts.Proofs.NameParts
import CodeConcepts.Proofs.Renaming
import Mathlib.Data.Int.ModEq

/-!
# Chains of aliases

A module may export under a name what another module exports under a name of its own, and so on. If
none of these names is declared on the way, following exports hops along the chain. The search keeps
the pairs of module and name it has entered and a number of hops it may still make, so a chain that
is short enough is followed to its end (`denote_chain`), whatever ends it:

* a declaration: the name becomes that of the declaration, and what was nested in the one is nested
  in the other;
* a pair that was entered before: names on a cycle of aliases stay, and a chain that runs into a
  cycle ends where it meets the cycle, after one round.
-/

namespace CodeConcepts

variable {p : Nat → QName × String}

namespace ExportTable

open QName

/-! ## Members of modules -/

/-- The name of a member of a module. -/
def memberName (p : QName × String) : QName := p.1.child p.2

/-- A module given by a quoted path without backslashes, and a single name in it. -/
def IsMember (p : QName × String) : Prop :=
  p.1.isModule = true ∧ '\\' ∉ p.1.text.toList ∧ '.' ∉ p.2.toList

instance (p : QName × String) : Decidable (IsMember p) :=
  inferInstanceAs (Decidable (_ ∧ _ ∧ _))

section Member

variable {p q : QName × String}

theorem IsMember.exists_path (h : IsMember p) :
    ∃ path : String, Plain path.toList ∧ p.1 = ofModule path := by
  obtain ⟨hmodule, hplain, -⟩ := h
  unfold isModule at hmodule
  split at hmodule
  · next path hsplit =>
    obtain ⟨htext, hquote⟩ := split?_eq_some.mp hsplit
    have hslash : '\\' ∉ path := fun hmem => hplain (by rw [htext]; simp [hmem])
    refine ⟨String.ofList path, ?_, congrArg QName.mk (String.toList_inj.mp ?_)⟩
    · rw [String.toList_ofList]
      exact ⟨hquote, hslash⟩
    · rw [htext, String.toList_ofList, String.toList_ofList, map_slash_of_plain hslash]
  · cases hmodule

/-- A member, and what is nested in it, is known by its module and its name. -/
theorem IsMember.headedBy (h : IsMember p) (below : List String) :
    HeadedBy (below.foldl child (memberName p)) p.1 p.2 := by
  obtain ⟨path, hpath, hp⟩ := h.exists_path
  rw [memberName, hp]
  exact ⟨moduleName?_nested hpath (p.2 :: below), headMember?_nested hpath h.2.2 below⟩

theorem IsMember.withHead (h : IsMember p) (below : List String) (target : QName) :
    (below.foldl child (memberName p)).withHead target = below.foldl child target := by
  obtain ⟨path, hpath, hp⟩ := h.exists_path
  rw [memberName, hp]
  exact withHead_nested hpath h.2.2 below target

theorem IsMember.eq_of_memberName (hp : IsMember p) (hq : IsMember q)
    (h : memberName p = memberName q) : p = q := by
  have hhead := hp.headedBy []
  rw [List.foldl_nil, h] at hhead
  have hmodule := (hq.headedBy []).1.symm.trans hhead.1
  have hname := (hq.headedBy []).2.symm.trans hhead.2
  exact (Prod.ext (Option.some.inj hmodule) (Option.some.inj hname)).symm

end Member

end ExportTable

/-! ## Hops -/

namespace Model

open ExportTable QName

/-- The module of `p` does not declare its name but exports it as an alias of `q`. -/
structure Alias (m : Model) (p q : QName × String) : Prop where
  undeclared : ¬ m.Identifies (memberName p)
  exported : m.Exports p.1 p.2 (memberName q)

instance (m : Model) (n : QName) : Decidable (m.Identifies n) := decidable_of_iff _ declares_iff

instance (m : Model) (p q : QName × String) : Decidable (m.Alias p q) :=
  decidable_of_iff
    (¬ m.Identifies (memberName p) ∧ (ofModel m).named? p.1 p.2 = some (memberName q))
    ⟨fun h => ⟨h.1, named?_iff.mp h.2⟩, fun h => ⟨h.undeclared, named?_iff.mpr h.exported⟩⟩

variable {m : Model}

/-- An alias is decided by the module itself, before any other along stars is asked. -/
theorem Alias.decides {p q : QName × String} (h : m.Alias p q) : m.Decides p.1 p.2 p.1 := by
  refine ⟨0, [], [], rfl, .inl ⟨_, h.exported⟩, List.forall_mem_nil _, ?_⟩
  intro j hj
  omega

theorem Alias.denote {p q : QName × String} (h : m.Alias p q) {steps : Nat}
    {entered : List (QName × String)} (hin : p ∉ entered) :
    (ofModel m).denote (steps + 1) entered p.1 p.2 =
      some ((ofModel m).follow steps (p :: entered) (memberName q)) :=
  denote_of_exported hin h.undeclared h.decides h.exported

theorem Alias.unique {p q r : QName × String} (hq : IsMember q) (hr : IsMember r)
    (h : m.Alias p q) (h' : m.Alias p r) : q = r :=
  hq.eq_of_memberName hr
    (Option.some.inj ((named?_iff.mpr h.exported).symm.trans (named?_iff.mpr h'.exported)))

/-- A chain of `k` aliases that starts at `p 0`, ends at `p k` and comes to no pair twice before its
end. -/
structure AliasChain (m : Model) (p : Nat → QName × String) (k : Nat) : Prop where
  member : ∀ i ≤ k, IsMember (p i)
  hop : ∀ i < k, m.Alias (p i) (p (i + 1))
  apart : ∀ i < k, ∀ j < i, p j ≠ p i

theorem AliasChain.tail {k : Nat} (h : m.AliasChain p (k + 1)) :
    m.AliasChain (fun i => p (i + 1)) k where
  member i hi := h.member (i + 1) (by omega)
  hop i hi := h.hop (i + 1) (by omega)
  apart i hi j hj := h.apart (i + 1) (by omega) (j + 1) (by omega)

/-- No hop leads on from a member: none is left, it is declared, or it was entered before. -/
def Final (m : Model) (steps : Nat) (entered : List (QName × String)) (q : QName × String) :
    Prop :=
  steps = 0 ∨ m.Identifies (memberName q) ∨ q ∈ entered

theorem Final.follow {steps : Nat} {entered : List (QName × String)} {q : QName × String}
    (h : m.Final steps entered q) (hq : IsMember q) :
    (ofModel m).follow steps entered (memberName q) = memberName q := by
  have hhead : HeadedBy (memberName q) q.1 q.2 := hq.headedBy []
  rw [follow_of_headedBy _ hhead]
  by_cases hin : q ∈ entered
  · rw [denote_of_entered hin]
    rfl
  · cases steps with
    | zero => rfl
    | succ steps =>
      rcases h with h | hdeclared | h
      · cases h
      · rw [denote_of_declared hin (declares_iff.mpr hdeclared)]
        exact hq.withHead [] _
      · exact absurd h hin

theorem Final.mono {steps : Nat} {entered seen : List (QName × String)} {q : QName × String}
    (h : m.Final steps entered q) (hsub : entered ⊆ seen) : m.Final steps seen q :=
  h.imp_right (Or.imp_right (hsub ·))

/-- A search hops along a chain to its end. -/
theorem denote_chain {k steps : Nat} {entered : List (QName × String)} (h : m.AliasChain p (k + 1))
    (hin : ∀ i < k + 1, p i ∉ entered)
    (hfinal : m.Final steps ((List.range (k + 1)).map p ++ entered) (p (k + 1))) :
    (ofModel m).denote (k + 1 + steps) entered (p 0).1 (p 0).2 = some (memberName (p (k + 1))) := by
  induction k generalizing p entered with
  | zero =>
    have hend : m.Final steps (p 0 :: entered) (p 1) := hfinal
    rw [Nat.add_comm, (h.hop 0 (by omega)).denote (hin 0 (by omega)),
      hend.follow (h.member 1 (by omega))]
  | succ k ih =>
    -- the rest of the chain is searched for after its first pair was entered
    have hrest : (ofModel m).denote (k + 1 + steps) (p 0 :: entered) (p 1).1 (p 1).2 =
        some (memberName (p (k + 2))) := by
      refine ih h.tail (fun i hi => ?_) (hfinal.mono ?_)
      · rw [List.mem_cons, not_or]
        exact ⟨(h.apart (i + 1) (by omega) 0 (by omega)).symm, hin (i + 1) (by omega)⟩
      · rw [List.range_succ_eq_map, List.map_cons, List.map_map, List.cons_append]
        refine List.cons_subset.mpr ⟨?_, fun x hx => ?_⟩
        · exact List.mem_append_right _ List.mem_cons_self
        · rw [List.mem_append] at hx ⊢
          exact hx.imp_right (List.mem_cons_of_mem _)
    have hsecond := h.member 1 (by omega)
    have hhead : HeadedBy (memberName (p 1)) (p 1).1 (p 1).2 := hsecond.headedBy []
    rw [show k + 1 + 1 + steps = (k + 1 + steps) + 1 by omega,
      (h.hop 0 (by omega)).denote (hin 0 (by omega)), follow_of_headedBy _ hhead, hrest]
    exact congrArg some (hsecond.withHead [] _)

/-- The end of a chain takes the place of its start, with or without something nested in it. -/
def Replaces (m : Model) (p q : QName × String) : Prop :=
  (ofModel m).resolved (memberName p) = memberName q ∧
    ∀ rest, (ofModel m).resolved ((memberName p).child rest) = (memberName q).child rest

theorem replaces_of_denote {p q : QName × String} (hp : IsMember p)
    (h : (ofModel m).denote chainLimit [] p.1 p.2 = some (memberName q)) : m.Replaces p q := by
  have hbelow (below : List String) :
      (ofModel m).resolved (below.foldl child (memberName p)) =
        below.foldl child (memberName q) := by
    rw [resolved_of_headedBy _ (hp.headedBy below), h]
    by_cases hself : memberName q = memberName p
    · exact (if_pos hself).trans (by rw [hself])
    · exact (if_neg hself).trans (hp.withHead below _)
  exact ⟨hbelow [], fun rest => hbelow [rest]⟩

/-- A chain within the limit is followed to its end. -/
theorem AliasChain.replaces {k : Nat} (h : m.AliasChain p k) (hpos : 0 < k) (hk : k ≤ chainLimit)
    (hfinal : m.Final (chainLimit - k) ((List.range k).map p) (p k)) : m.Replaces (p 0) (p k) := by
  obtain ⟨l, rfl⟩ : ∃ l, k = l + 1 := ⟨k - 1, by omega⟩
  refine replaces_of_denote (h.member 0 (by omega)) ?_
  rw [← Nat.add_sub_cancel' hk]
  refine denote_chain h (fun _ _ => List.not_mem_nil) ?_
  rwa [List.append_nil]

/-! ## Cycles -/

/-- A cycle of `L` aliases through `c 0`, …, `c (L - 1)`. -/
structure AliasCycle (m : Model) (c : Nat → QName × String) (L : Nat) : Prop where
  member : ∀ i < L, IsMember (c i)
  hop : ∀ i < L, m.Alias (c i) (c ((i + 1) % L))
  apart : ∀ i < L, ∀ j < i, c j ≠ c i

/-- Aliases that lead in `j` hops from `p 0`, which lies outside of a cycle, to the pair `c i` of
the cycle. -/
structure EntersCycle (m : Model) (p : Nat → QName × String) (j : Nat)
    (c : Nat → QName × String) (L i : Nat) : Prop where
  member : ∀ a < j, IsMember (p a)
  hop : ∀ a < j, m.Alias (p a) (p (a + 1))
  outside : ∀ a < j, ∀ b < L, p a ≠ c b
  enters : p j = c i

section Cycle

variable {p c : Nat → QName × String} {j L i : Nat}

theorem AliasCycle.injective (h : m.AliasCycle c L) {a b : Nat} (ha : a < L) (hb : b < L)
    (he : c a = c b) : a = b := by
  rcases Nat.lt_trichotomy a b with hab | hab | hab
  · exact absurd he (h.apart b hb a hab)
  · exact hab
  · exact absurd he.symm (h.apart a ha b hab)

/-- A way into a cycle meets no pair twice: from two meetings on it would go on alike, and so reach
the cycle too early. -/
theorem EntersCycle.apart (h : m.EntersCycle p j c L i) (hc : m.AliasCycle c L) (hi : i < L)
    {a b : Nat} (hb : b < j) (hab : a < b) : p a ≠ p b := by
  intro he
  have hmember (n : Nat) (hn : n ≤ j) : IsMember (p n) := by
    rcases Nat.lt_or_eq_of_le hn with hn | rfl
    · exact h.member n hn
    · rw [h.enters]
      exact hc.member i hi
  have halike (n : Nat) (hn : b + n ≤ j) : p (a + n) = p (b + n) := by
    induction n with
    | zero => exact he
    | succ n ih =>
      have hfirst := h.hop (a + n) (by omega)
      rw [ih (by omega)] at hfirst
      exact hfirst.unique (hmember _ (by omega)) (hmember _ hn) (h.hop (b + n) (by omega))
  have hearly := halike (j - b) (by omega)
  rw [Nat.add_sub_cancel' (Nat.le_of_lt hb), h.enters] at hearly
  exact h.outside (a + (j - b)) (by omega) i hi hearly

/-- The way into a cycle followed by rounds on it. -/
def rounds (p : Nat → QName × String) (j : Nat) (c : Nat → QName × String) (L i : Nat) (a : Nat) :
    QName × String :=
  if a < j then p a else c ((i + (a - j)) % L)

theorem rounds_of_lt {a : Nat} (ha : a < j) : rounds p j c L i a = p a := if_pos ha

theorem rounds_add (a : Nat) : rounds p j c L i (j + a) = c ((i + a) % L) := by
  rw [rounds, if_neg (by omega), Nat.add_sub_cancel_left]

theorem rounds_entry (hi : i < L) : rounds p j c L i j = c i := by
  have h := rounds_add (p := p) (j := j) (c := c) (L := L) (i := i) 0
  rwa [Nat.add_zero, Nat.add_zero, Nat.mod_eq_of_lt hi] at h

/-- One round on the cycle makes a chain. -/
theorem EntersCycle.aliasChain (h : m.EntersCycle p j c L i) (hc : m.AliasCycle c L) (hi : i < L) :
    m.AliasChain (rounds p j c L i) (j + L) where
  member a _ := by
    rcases Nat.lt_or_ge a j with ha | ha
    · rw [rounds_of_lt ha]
      exact h.member a ha
    · obtain ⟨b, rfl⟩ := Nat.exists_eq_add_of_le ha
      rw [rounds_add]
      exact hc.member _ (Nat.mod_lt _ (by omega))
  hop a _ := by
    rcases Nat.lt_or_ge a j with ha | ha
    · rw [rounds_of_lt ha]
      rcases Nat.lt_or_eq_of_le (Nat.succ_le_of_lt ha) with hnext | hnext
      · rw [rounds_of_lt hnext]
        exact h.hop a ha
      · subst hnext
        rw [rounds_entry hi, ← h.enters]
        exact h.hop a ha
    · obtain ⟨b, rfl⟩ := Nat.exists_eq_add_of_le ha
      have hhop := hc.hop ((i + b) % L) (Nat.mod_lt _ (by omega))
      rw [Nat.mod_add_mod] at hhop
      rw [rounds_add, Nat.add_assoc, rounds_add]
      exact hhop
  apart a ha b hb := by
    rcases Nat.lt_or_ge a j with haj | haj
    · rw [rounds_of_lt haj, rounds_of_lt (by omega)]
      exact h.apart hc hi haj hb
    · obtain ⟨a, rfl⟩ := Nat.exists_eq_add_of_le haj
      rw [rounds_add]
      rcases Nat.lt_or_ge b j with hbj | hbj
      · rw [rounds_of_lt hbj]
        exact h.outside b hbj _ (Nat.mod_lt _ (by omega))
      · obtain ⟨b, rfl⟩ := Nat.exists_eq_add_of_le hbj
        rw [rounds_add]
        intro he
        have hsame := hc.injective (Nat.mod_lt _ (by omega)) (Nat.mod_lt _ (by omega)) he
        have hmod : b ≡ a [MOD L] := Nat.ModEq.add_left_cancel' i hsame
        have := hmod.eq_of_lt_of_lt (by omega) (by omega)
        omega

/-- After one round the entry of the cycle has been entered, so the chain ends there. -/
theorem EntersCycle.replaces (h : m.EntersCycle p j c L i) (hc : m.AliasCycle c L) (hi : i < L)
    (hlimit : j + L ≤ chainLimit) : m.Replaces (rounds p j c L i 0) (c i) := by
  have hend : rounds p j c L i (j + L) = c i := by
    rw [rounds_add, Nat.add_mod_right, Nat.mod_eq_of_lt hi]
  rw [← hend]
  refine (h.aliasChain hc hi).replaces (by omega) hlimit (.inr (.inr ?_))
  rw [hend, ← rounds_entry (p := p) (j := j) (c := c) hi]
  exact List.mem_map_of_mem (List.mem_range.mpr (by omega))

/-- A name on a cycle stays. -/
theorem AliasCycle.replaces (h : m.AliasCycle c L) (hlimit : L ≤ chainLimit) (hi : i < L) :
    m.Replaces (c i) (c i) := by
  have henters : m.EntersCycle (fun _ => c i) 0 c L i := by
    refine ⟨?_, ?_, ?_, rfl⟩
    all_goals
      intro a ha
      omega
  have := henters.replaces h hi (by omega)
  rwa [rounds_entry hi] at this

end Cycle

/-- Following exports replaces a name at whatever place it stands. A chain of aliases within the
limit is followed to the declaration at its end. Names on a cycle of aliases stay, and a chain that
runs into a cycle ends where it meets it. -/
theorem resolveExports_follows_aliases (m : Model) :
    Corresponds (fun n n' => n' = (ofModel m).resolved n) m m.resolveExports ∧
    (∀ p k, 1 ≤ k → k ≤ 17 → m.AliasChain p k → m.Identifies (memberName (p k)) →
      m.Replaces (p 0) (p k)) ∧
    (∀ c L, L ≤ 17 → m.AliasCycle c L → ∀ i < L, m.Replaces (c i) (c i)) ∧
    ∀ p j c L i, 1 ≤ j → j + L ≤ 17 → m.AliasCycle c L → i < L →
      m.EntersCycle p j c L i → m.Replaces (p 0) (p j) := by
  refine ⟨?_, ?_, ?_, ?_⟩
  · rw [resolveExports_eq_mapNames]
    exact corresponds_mapNames fun _ _ => rfl
  · intro p k hpos hk hchain hdeclared
    exact hchain.replaces hpos hk (.inr (.inl hdeclared))
  · intro c L hL hcycle i hi
    exact hcycle.replaces hL hi
  · intro p j c L i hpos hlimit hcycle hi henters
    have hreplaces := henters.replaces hcycle hi hlimit
    rwa [rounds_of_lt hpos, ← henters.enters] at hreplaces

/-- The `i`-th of the modules `./0.ts`, …, with the name of its export. -/
def sampleExport (i : Nat) : QName × String :=
  (.ofModule (["./0.ts", "./1.ts", "./2.ts"].getD i "./3.ts"), ["E", "F", "G"].getD i "H")

/-- A model in which every export of `exports` is an alias of the other, and one member of what the
first stands for is used. -/
def aliasModel (exports : List (Nat × Nat)) (declared : List Nat) : Model :=
  ofConcepts (
    (exports.map fun (i, j) => exportEntry (sampleExport i).1 (sampleExport j).2
      (some (sampleExport i).2) (memberName (sampleExport j))) ++
    (declared.map fun i => enumEntry (sampleExport i).1 (sampleExport i).2) ++
    [⟨.edge, ⟨⟨"\"./m.ts\""⟩, (memberName (sampleExport 0)).child "A", .read⟩⟩])

/-- Two hops to a declaration, and one hop into a cycle of two. -/
theorem resolveExports_follows_aliases_samples :
    let chain := aliasModel [(0, 1), (1, 2)] [2]
    let cycle := aliasModel [(0, 1), (1, 2), (2, 1)] []
    let around := fun i => sampleExport (i + 1)
    (chain.AliasChain sampleExport 2 ∧ chain.Identifies (memberName (sampleExport 2))) ∧
    chain.Replaces (sampleExport 0) (sampleExport 2) ∧
    chain.resolveExports.edges = [⟨⟨"\"./m.ts\""⟩, ⟨"\"./2.ts\".G.A"⟩, .read⟩] ∧
    (cycle.AliasCycle around 2 ∧ cycle.EntersCycle sampleExport 1 around 2 0) ∧
    cycle.Replaces (sampleExport 2) (sampleExport 2) ∧
    cycle.Replaces (sampleExport 0) (sampleExport 1) ∧
    cycle.resolveExports.edges = [⟨⟨"\"./m.ts\""⟩, ⟨"\"./1.ts\".F.A"⟩, .read⟩] := by
  intro chain cycle around
  have hchain : chain.AliasChain sampleExport 2 := ⟨by decide, by decide, by decide⟩
  have hcycle : cycle.AliasCycle around 2 := ⟨by decide, by decide, by decide⟩
  have henters : cycle.EntersCycle sampleExport 1 around 2 0 :=
    ⟨by decide, by decide, by decide, rfl⟩
  have hdeclared : chain.Identifies (memberName (sampleExport 2)) := by decide
  obtain ⟨-, hfollows, -, -⟩ := resolveExports_follows_aliases chain
  obtain ⟨-, -, hstays, hmeets⟩ := resolveExports_follows_aliases cycle
  refine ⟨⟨hchain, hdeclared⟩, hfollows _ 2 (by decide) (by decide) hchain hdeclared, ?_,
    ⟨hcycle, henters⟩, hstays _ 2 (by decide) hcycle 1 (by decide),
    hmeets _ 1 _ 2 0 (by decide) (by decide) hcycle (by decide) henters, ?_⟩
  · decide +kernel
  · decide +kernel

end Model

end CodeConcepts
