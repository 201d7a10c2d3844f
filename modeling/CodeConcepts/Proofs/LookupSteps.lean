import CodeConcepts.Proofs.ExportResolution

/-!
# One lookup, step by step

`ExportTable.denote` gives the result of a lookup and hides the way to it. Here a lookup is run step
by step (`Lookup.step`): a pair of module and name is entered, modules are taken from a queue one at
a time, a named export is followed by entering another pair, and what was found is handed back
through the targets that led there.

* `reaches_leave` — the steps come to an end with the result of `denote`, whatever cycles the stars
  and the aliases of the table form;
* `Lookup.Sound` — at every step the entered pairs are distinct and no more than `chainLimit`, and
  no module is taken from the queue of a search, or waits in it, twice.
-/

namespace CodeConcepts.ExportTable

/-- A search along stars. -/
structure Search where
  module : QName
  name : String
  visited : List QName
  queue : List QName
  /-- The modules taken from the queue so far, the first one in front. -/
  taken : List QName

/-- What a lookup is about to do. -/
inductive Stage where
  | enter (module : QName) (name : String)
  | search (s : Search)
  | leave (found : Option QName)

/-- Where a lookup stands. -/
structure Lookup where
  stage : Stage
  /-- The pairs that were entered, the last one in front. Each of them is one search. -/
  entered : List (QName × String)
  /-- The targets that are being followed, the last one in front. -/
  followed : List QName

variable {t : ExportTable} {m : QName} {name : String} {entered : List (QName × String)}
  {followed : List QName}

namespace Lookup

/-- The lookup of a name before its first step. -/
def start (module : QName) (name : String) : Lookup := ⟨.enter module name, [], []⟩

/-- A module is taken from the queue: a named export or a declaration ends the search, and otherwise
the fresh stars of the module queue up. -/
def take (t : ExportTable) (s : Search) (c : QName) (queue : List QName) (l : Lookup) : Lookup :=
  match t.named? c s.name with
  | some target =>
    match target.moduleName?, target.headMember? with
    | some m, some head => { l with stage := .enter m head, followed := target :: l.followed }
    | _, _ => { l with stage := .leave (some target) }
  | none =>
    if c ≠ s.module ∧ t.declares (c.child s.name) then
      { l with stage := .leave (some (c.child s.name)) }
    else
      let next := fresh s.visited (t.stars c)
      { l with
        stage := .search ⟨s.module, s.name, next ++ s.visited, queue ++ next, s.taken ++ [c]⟩ }

/-- One step of a lookup, or its result. -/
def step (t : ExportTable) (l : Lookup) : Lookup ⊕ Option QName :=
  match l.stage with
  | .enter m name =>
    if chainLimit ≤ l.followed.length then .inl { l with stage := .leave none }
    else if l.entered.contains (m, name) then .inl { l with stage := .leave none }
    else if t.declares (m.child name) then
      .inl { l with stage := .leave (some (m.child name)), entered := (m, name) :: l.entered }
    else
      .inl { l with stage := .search ⟨m, name, [m], [m], []⟩, entered := (m, name) :: l.entered }
  | .search s =>
    match s.queue with
    | [] => .inl { l with stage := .leave none }
    | c :: queue => .inl (l.take t s c queue)
  | .leave found =>
    match l.followed with
    | [] => .inr found
    | target :: followed =>
      let whole := (found.map target.withHead).getD target
      .inl { l with stage := .leave (some whole), followed := followed }

/-- The states that a lookup comes to from a given one. -/
def Reaches (t : ExportTable) : Lookup → Lookup → Prop :=
  Relation.ReflTransGen fun l next => l.step t = .inl next

theorem reaches_of_step {l next : Lookup} (h : l.step t = .inl next) : Reaches t l next := .single h

/-! ## The way to the result -/

/-- A search goes on to the first module that offers the name. -/
theorem reaches_first (t : ExportTable) (m : QName) (name : String)
    (visited queue taken : List QName) (entered : List (QName × String)) (followed : List QName) :
    ∃ s : Search, Reaches t ⟨.search ⟨m, name, visited, queue, taken⟩, entered, followed⟩
        ⟨.search s, entered, followed⟩ ∧ s.module = m ∧ s.name = name ∧
      s.queue.head? = (t.visitFrom visited queue).find? (t.offers m name) := by
  induction visited, queue using visitFrom.induct t generalizing taken with
  | case1 visited => exact ⟨_, .refl, rfl, rfl, by rw [visitFrom]; rfl⟩
  | case2 visited c queue next ih =>
    rw [visitFrom, List.find?_cons]
    cases hoffers : t.offers m name c with
    | true => exact ⟨_, .refl, rfl, rfl, rfl⟩
    | false =>
      obtain ⟨hnamed, hdeclared⟩ := Bool.or_eq_false_iff.mp hoffers
      obtain ⟨s, hs, hmodule, hname, hqueue⟩ := ih (taken ++ [c])
      refine ⟨s, .head ?_ hs, hmodule, hname, hqueue⟩
      have hnone : t.named? c name = none := by simpa using hnamed
      have helse : ¬ (c ≠ m ∧ t.declares (c.child name) = true) := by simpa using hdeclared
      simp only [step, take, hnone, if_neg helse, next]

/-- A search whose queue begins with the first module that offers the name hands back what this
module offers, if what it enters to follow a named export hands back what is denoted there. -/
theorem reaches_leave_of_first {steps : Nat} {s : Search}
    (hqueue : s.queue.head? = (t.reach s.module).find? (t.offers s.module s.name))
    (hfollow : ∀ m name target, ∃ entered', Reaches t ⟨.enter m name, entered, target :: followed⟩
      ⟨.leave (t.denote steps entered m name), entered', target :: followed⟩) :
    ∃ entered', Reaches t ⟨.search s, entered, followed⟩
      ⟨.leave (((t.reach s.module).find? (t.offers s.module s.name)).map fun c =>
        match t.named? c s.name with
        | some next => t.follow steps entered next
        | none => c.child s.name), entered', followed⟩ := by
  rw [← hqueue]
  cases hsplit : s.queue with
  | nil =>
    refine ⟨entered, reaches_of_step ?_⟩
    simp only [step, hsplit]
    rfl
  | cons c queue =>
    rw [hsplit] at hqueue
    have hoffers := List.find?_some hqueue.symm
    rw [List.head?_cons, Option.map_some]
    cases hnamed : t.named? c s.name with
    | none =>
      have hdeclared : c ≠ s.module ∧ t.declares (c.child s.name) = true := by
        simpa [offers, hnamed] using hoffers
      refine ⟨entered, reaches_of_step ?_⟩
      simp only [step, hsplit, take, hnamed, if_pos hdeclared]
    | some target =>
      rcases headedBy_or target with hnone | ⟨m, name, hhead⟩
      · refine ⟨entered, reaches_of_step ?_⟩
        simp only [step, hsplit, take, hnamed]
        rw [follow_of_unqualified t hnone]
        split
        · next hm hh => exact absurd ⟨hm, hh⟩ (not_headedBy hnone)
        · rfl
      · obtain ⟨entered', hleave⟩ := hfollow m name target
        refine ⟨entered', .head ?_ (hleave.tail ?_)⟩
        · simp only [step, hsplit, take, hnamed, hhead.1, hhead.2]
        · simp only [step, follow_of_headedBy t hhead]

/-- A lookup that enters a pair hands back what the pair denotes, with the searches that are left at
this depth. -/
theorem reaches_leave (t : ExportTable) (steps : Nat) :
    ∀ (m : QName) (name : String) (entered : List (QName × String)) (followed : List QName),
      followed.length + steps = chainLimit →
      ∃ entered', Reaches t ⟨.enter m name, entered, followed⟩
        ⟨.leave (t.denote steps entered m name), entered', followed⟩ := by
  induction steps with
  | zero =>
    intro m name entered followed hsteps
    have hdepth : chainLimit ≤ followed.length := Nat.le_of_eq hsteps.symm
    refine ⟨entered, reaches_of_step ?_⟩
    simp only [step]
    rw [if_pos hdepth]
    rfl
  | succ steps ih =>
    intro m name entered followed hsteps
    have hdepth : ¬ chainLimit ≤ followed.length := by omega
    by_cases hin : (m, name) ∈ entered
    · refine ⟨entered, reaches_of_step ?_⟩
      simp only [step]
      rw [if_neg hdepth, if_pos (List.contains_iff_mem.mpr hin), denote_of_entered hin]
    have hopen : ¬ entered.contains (m, name) = true := mt List.contains_iff_mem.mp hin
    cases hown : t.declares (m.child name) with
    | true =>
      refine ⟨(m, name) :: entered, reaches_of_step ?_⟩
      simp only [step]
      rw [if_neg hdepth, if_neg hopen, if_pos hown, denote_of_declared hin hown]
    | false =>
      have hsearch : Reaches t ⟨.enter m name, entered, followed⟩
          ⟨.search ⟨m, name, [m], [m], []⟩, (m, name) :: entered, followed⟩ := by
        refine reaches_of_step ?_
        simp only [step]
        rw [if_neg hdepth, if_neg hopen, hown, if_neg Bool.false_ne_true]
      obtain ⟨s, hfirst, rfl, rfl, hqueue⟩ :=
        reaches_first t m name [m] [m] [] ((m, name) :: entered) followed
      rw [t.denote_succ hin hown]
      obtain ⟨entered', hleave⟩ := reaches_leave_of_first hqueue fun m' name' target =>
        ih m' name' ((s.module, s.name) :: entered) (target :: followed) (by
          rw [List.length_cons]
          omega)
      exact ⟨entered', hsearch.trans (hfirst.trans hleave)⟩

/-! ## What holds at every step -/

/-- The queue of a search: no module was taken from it twice or waits in it a second time, and what
was taken is the front part of what is reachable. -/
structure Orderly (t : ExportTable) (s : Search) : Prop where
  nodup : (s.taken ++ s.queue).Nodup
  visited : ∀ n ∈ s.taken ++ s.queue, n ∈ s.visited
  reach_eq : t.reach s.module = s.taken ++ t.visitFrom s.visited s.queue

/-- What the stage of a lookup adds to its soundness: with every target that is followed one more
pair can be entered, and a search is for the pair that was entered last. -/
def Fits (t : ExportTable) (l : Lookup) : Prop :=
  match l.stage with
  | .enter _ _ => l.entered.length ≤ l.followed.length
  | .search s => l.entered.length ≤ l.followed.length + 1 ∧
      l.entered.head? = some (s.module, s.name) ∧ Orderly t s
  | .leave _ => True

structure Sound (t : ExportTable) (l : Lookup) : Prop where
  nodup : l.entered.Nodup
  length_le : l.entered.length ≤ chainLimit
  fits : l.Fits t

theorem nodup_fresh (visited ss : List QName) : (fresh visited ss).Nodup := by
  induction ss generalizing visited with
  | nil => exact List.nodup_nil
  | cons s ss ih =>
    rw [fresh]
    split
    · exact ih visited
    · refine List.nodup_cons.mpr ⟨fun hs => ?_, ih _⟩
      exact not_mem_of_mem_fresh hs List.mem_cons_self

theorem Orderly.next {s : Search} {c : QName} {queue : List QName} (hs : Orderly t s)
    (hqueue : s.queue = c :: queue) :
    Orderly t ⟨s.module, s.name, fresh s.visited (t.stars c) ++ s.visited,
      queue ++ fresh s.visited (t.stars c), s.taken ++ [c]⟩ := by
  have happend : s.taken ++ [c] ++ (queue ++ fresh s.visited (t.stars c)) =
      s.taken ++ s.queue ++ fresh s.visited (t.stars c) := by
    rw [hqueue]
    simp
  refine ⟨?_, ?_, ?_⟩
  · show (s.taken ++ [c] ++ (queue ++ fresh s.visited (t.stars c))).Nodup
    rw [happend]
    refine List.nodup_append.mpr ⟨hs.nodup, nodup_fresh _ _, ?_⟩
    rintro n hn _ hfresh rfl
    exact not_mem_of_mem_fresh hfresh (hs.visited n hn)
  · show ∀ n ∈ s.taken ++ [c] ++ (queue ++ fresh s.visited (t.stars c)), _
    rw [happend]
    intro n hn
    rcases List.mem_append.mp hn with hn | hn
    · exact List.mem_append_right _ (hs.visited n hn)
    · exact List.mem_append_left _ hn
  · rw [hs.reach_eq, hqueue, visitFrom]
    simp

theorem orderly_start (t : ExportTable) (m : QName) (name : String) :
    Orderly t ⟨m, name, [m], [m], []⟩ :=
  ⟨by simp, fun _ hn => hn, rfl⟩

theorem Sound.take {s : Search} {c : QName} {queue : List QName}
    (h : Sound t ⟨.search s, entered, followed⟩) (hqueue : s.queue = c :: queue) :
    Sound t (Lookup.take t s c queue ⟨.search s, entered, followed⟩) := by
  obtain ⟨hnodup, hlength, hfits, hhead, horderly⟩ := h
  unfold Lookup.take
  split
  · split
    · exact ⟨hnodup, hlength, hfits⟩
    · exact ⟨hnodup, hlength, trivial⟩
  · split
    · exact ⟨hnodup, hlength, trivial⟩
    · exact ⟨hnodup, hlength, hfits, hhead, horderly.next hqueue⟩

theorem Sound.step {l next : Lookup} (hl : Sound t l) (h : l.step t = .inl next) :
    Sound t next := by
  obtain ⟨stage, entered, followed⟩ := l
  cases stage with
  | enter m name =>
    obtain ⟨hnodup, hlength, hfits⟩ := hl
    simp only [Lookup.step] at h
    split at h
    · cases h
      exact ⟨hnodup, hlength, trivial⟩
    · next hdepth =>
      split at h
      · cases h
        exact ⟨hnodup, hlength, trivial⟩
      · next hopen =>
        have hnodup' : ((m, name) :: entered).Nodup :=
          List.nodup_cons.mpr ⟨mt List.contains_iff_mem.mpr hopen, hnodup⟩
        have hlength' : ((m, name) :: entered).length ≤ chainLimit :=
          Nat.lt_of_le_of_lt hfits (Nat.not_le.mp hdepth)
        split at h
        · cases h
          exact ⟨hnodup', hlength', trivial⟩
        · cases h
          exact ⟨hnodup', hlength', Nat.succ_le_succ hfits, rfl, orderly_start t m name⟩
  | search s =>
    simp only [Lookup.step] at h
    split at h
    · cases h
      exact ⟨hl.nodup, hl.length_le, trivial⟩
    · next hqueue =>
      cases h
      exact hl.take hqueue
  | leave found =>
    simp only [Lookup.step] at h
    split at h
    · cases h
    · cases h
      exact ⟨hl.nodup, hl.length_le, trivial⟩

theorem Sound.reaches {l last : Lookup} (hl : Sound t l) (h : Reaches t l last) : Sound t last := by
  induction h with
  | refl => exact hl
  | tail _ hstep ih => exact ih.step hstep

end Lookup

/-- Every lookup comes to its result after finitely many steps. No pair of module and name is
entered twice on the way and no more than `chainLimit` of them are entered. A search is for the pair
that was entered last, and takes reachable modules from its queue in their order, each at most
once. -/
theorem lookup_ends (t : ExportTable) (module : QName) (name : String) :
    (∃ last, Lookup.Reaches t (.start module name) last ∧
      last.step t = .inr (t.denote chainLimit [] module name)) ∧
    ∀ l, Lookup.Reaches t (.start module name) l →
      l.entered.Nodup ∧ l.entered.length ≤ chainLimit ∧
      ∀ s, l.stage = .search s → l.entered.head? = some (s.module, s.name) ∧
        (s.taken ++ s.queue).Nodup ∧ s.taken <+: t.reach s.module := by
  constructor
  · obtain ⟨entered, hleave⟩ := Lookup.reaches_leave t chainLimit module name [] [] rfl
    exact ⟨_, hleave, rfl⟩
  · intro l hl
    have hstart : Lookup.Sound t (.start module name) :=
      ⟨List.nodup_nil, Nat.zero_le _, Nat.le_refl _⟩
    obtain ⟨hnodup, hlength, hfits⟩ := hstart.reaches hl
    refine ⟨hnodup, hlength, fun s hs => ?_⟩
    rw [Lookup.Fits, hs] at hfits
    obtain ⟨-, hhead, horderly⟩ := hfits
    exact ⟨hhead, horderly.nodup, _, horderly.reach_eq.symm⟩

end CodeConcepts.ExportTable
