import CodeConcepts.Proofs.JsonWords
import CodeConcepts.Run.Program

/-!
# Relaxed JSON stands for JSON

A JSON text may be decorated: between its words stand blanks and comments, and behind the last
element of an array or object a comma (`Decorates`). Relaxing takes the decoration off again
(`relaxFrom_layout`), string by string and number by number, so that the text reads as it did
before. One decoration is left: a comma stays if there is a comment between it and the bracket. Then
nothing can be read any more, and the program of a project becomes everything.
-/

namespace CodeConcepts.Json

open Token

variable {g : List Char} {c : Char}

/-! ## Decorated texts -/

/-- A text of blanks. -/
def IsBlanks (g : List Char) : Prop := ∀ c ∈ g, isSpace c = true

/-- A text of blanks and comments. -/
inductive Filler : List Char → Prop
  | nil : Filler []
  | blank {c : Char} {g : List Char} : isSpace c = true → Filler g → Filler (c :: g)
  | line {body g : List Char} : '\n' ∉ body → Filler g →
      Filler ('/' :: '/' :: (body ++ '\n' :: g))
  | block {body g : List Char} : ¬ ['*', '/'] <:+: body → Filler g →
      Filler ('/' :: '*' :: (body ++ '*' :: '/' :: g))

/-- A text that consists of words, with gaps around them. A comma may be added behind the last
element of an array or object, which is where a word that closes it follows one that does not open
it; what may stand between such a comma and the bracket is said apart. The last comment of the text
need not be ended. -/
inductive Layout (gap behind : List Char → Prop) : Bool → List Word → List Char → Prop
  | done {b : Bool} {g : List Char} : gap g → Layout gap behind b [] g
  | unended {b : Bool} {g body : List Char} : gap g → gap ('/' :: '/' :: (body ++ ['\n'])) →
      '\n' ∉ body → Layout gap behind b [] (g ++ '/' :: '/' :: body)
  | word {b : Bool} {g cs : List Char} {w : Word} {ws : List Word} : gap g →
      Layout gap behind (!w.token.isOpening) ws cs →
      Layout gap behind b (w :: ws) (g ++ (w.text ++ cs))
  | comma {g h cs : List Char} {w : Word} {ws : List Word} : gap g → behind h →
      w.token.isClosing = true → Layout gap behind true ws cs →
      Layout gap behind true (w :: ws) (g ++ ',' :: (h ++ (w.text ++ cs)))

/-- A text that is obtained from another one by laying out its words anew, with blanks, comments and
superfluous commas. -/
def Decorates (behind : List Char → Prop) (plain text : String) : Prop :=
  ∃ ws, Words plain.toList ws ∧ Layout Filler behind false ws text.toList

/-! ## Blanks -/

theorem isBlanks_cons :
    IsBlanks (c :: g) ↔ isSpace c = true ∧ IsBlanks g := List.forall_mem_cons

theorem IsBlanks.append {h : List Char} (hg : IsBlanks g) (hh : IsBlanks h) :
    IsBlanks (g ++ h) := List.forall_mem_append.mpr ⟨hg, hh⟩

theorem IsBlanks.filler (h : IsBlanks g) : Filler g := by
  induction g with
  | nil => exact .nil
  | cons c g ih =>
    obtain ⟨hc, hg⟩ := isBlanks_cons.mp h
    exact .blank hc (ih hg)

theorem isSpace_iff : isSpace c = true ↔ c = ' ' ∨ c = '\n' ∨ c = '\t' ∨ c = '\r' := by
  simp [isSpace, or_assoc]

theorem isBlank_of_isSpace (h : isSpace c = true) : Text.isBlank c = true := by
  rcases isSpace_iff.mp h with rfl | rfl | rfl | rfl <;> rfl

theorem closes_blanks (h : IsBlanks g) (r : List Char) : closes (g ++ r) = closes r := by
  have hblank : ∀ c ∈ g, Text.isBlank c = true := fun c hc => isBlank_of_isSpace (h c hc)
  unfold closes
  rw [List.dropWhile_append_of_pos hblank]

/-- Something other than blanks and comments is needed to close a bracket. -/
theorem Filler.closes {g : List Char} (h : Filler g) (hcomment : ¬ IsBlanks g) (r : List Char) :
    closes (g ++ r) = false := by
  induction h with
  | nil => exact absurd (List.forall_mem_nil _) hcomment
  | @blank c g hc _ ih =>
    have hone : IsBlanks [c] := List.forall_mem_singleton.mpr hc
    have hrest : ¬ IsBlanks g := fun hg => hcomment (isBlanks_cons.mpr ⟨hc, hg⟩)
    exact (closes_blanks hone _).trans (ih hrest)
  | line | block => rfl

/-! ## Relaxing gaps -/

/-- Characters that open neither a string nor a comment and are no commas stay as they are. -/
theorem relaxFrom_plain {w : List Char} (h : ∀ c ∈ w, c ≠ '"' ∧ c ≠ '/' ∧ c ≠ ',') (r : List Char) :
    relaxFrom .text (w ++ r) = w ++ relaxFrom .text r := by
  induction w with
  | nil => rfl
  | cons c w ih =>
    obtain ⟨hc, hw⟩ := List.forall_mem_cons.mp h
    rw [List.cons_append, relaxFrom, if_neg hc.1, if_neg fun h => hc.2.1 h.1,
      if_neg fun h => hc.2.1 h.1, if_neg fun h => hc.2.2 h.1, ih hw, List.cons_append]

theorem relaxFrom_blanks (h : IsBlanks g) (r : List Char) :
    relaxFrom .text (g ++ r) = g ++ relaxFrom .text r := by
  refine relaxFrom_plain (fun c hc => ?_) r
  rcases isSpace_iff.mp (h c hc) with rfl | rfl | rfl | rfl <;> decide

theorem relaxFrom_lineComment {body : List Char} (h : '\n' ∉ body) (r : List Char) :
    relaxFrom .lineComment (body ++ r) = relaxFrom .lineComment r := by
  induction body with
  | nil => rfl
  | cons c body ih =>
    rw [List.mem_cons, not_or] at h
    obtain ⟨hc, hbody⟩ := h
    rw [List.cons_append, relaxFrom, if_neg fun h => hc h.symm, ih hbody]

theorem relaxFrom_comment {body : List Char} {star : Bool} (h : ¬ ['*', '/'] <:+: body)
    (hstar : star = true → body.head? ≠ some '/') (r : List Char) :
    relaxFrom (.comment star) (body ++ '*' :: '/' :: r) = relaxFrom .text r := by
  induction body generalizing star with
  | nil => simp [relaxFrom]
  | cons c body ih =>
    have hends : ¬ (star = true ∧ c = '/') := fun hend => hstar hend.1 (congrArg some hend.2)
    rw [List.cons_append, relaxFrom, if_neg hends]
    have hbody : ¬ ['*', '/'] <:+: body :=
      fun hin => h (hin.trans (List.suffix_cons c body).isInfix)
    refine ih hbody fun hc hhead => ?_
    obtain ⟨rest, rfl⟩ := List.head?_eq_some_iff.mp hhead
    rw [of_decide_eq_true hc] at h
    exact h ⟨[], rest, rfl⟩

/-- What stands between words becomes blanks. -/
theorem relaxFrom_filler (h : Filler g) :
    ∃ g', IsBlanks g' ∧ ∀ r, relaxFrom .text (g ++ r) = g' ++ relaxFrom .text r := by
  induction h with
  | nil => exact ⟨[], List.forall_mem_nil _, fun _ => rfl⟩
  | @blank c g hc _ ih =>
    obtain ⟨g', hg', hrelax⟩ := ih
    refine ⟨c :: g', isBlanks_cons.mpr ⟨hc, hg'⟩, fun r => ?_⟩
    have hone : IsBlanks [c] := List.forall_mem_singleton.mpr hc
    exact (relaxFrom_blanks hone _).trans (congrArg (c :: ·) (hrelax r))
  | @line body g hbody _ ih =>
    obtain ⟨g', hg', hrelax⟩ := ih
    refine ⟨'\n' :: g', isBlanks_cons.mpr ⟨rfl, hg'⟩, fun r => ?_⟩
    have hslash : '\n' ∉ '/' :: body := by simp [hbody]
    calc relaxFrom .text ('/' :: '/' :: (body ++ '\n' :: g) ++ r)
      _ = relaxFrom .lineComment (('/' :: body) ++ '\n' :: (g ++ r)) := by simp [relaxFrom]
      _ = '\n' :: relaxFrom .text (g ++ r) := by rw [relaxFrom_lineComment hslash]; rfl
      _ = '\n' :: g' ++ relaxFrom .text r := by rw [hrelax, List.cons_append]
  | @block body g hbody _ ih =>
    obtain ⟨g', hg', hrelax⟩ := ih
    refine ⟨g', hg', fun r => ?_⟩
    calc relaxFrom .text ('/' :: '*' :: (body ++ '*' :: '/' :: g) ++ r)
      _ = relaxFrom (.comment false) (body ++ '*' :: '/' :: (g ++ r)) := by simp [relaxFrom]
      _ = relaxFrom .text (g ++ r) := relaxFrom_comment hbody Bool.noConfusion _
      _ = g' ++ relaxFrom .text r := hrelax r

/-! ## Relaxing words -/

theorem Token.Spelling.eq_comma {w : List Char} (h : Spelling .comma w) : w = [','] := by
  cases h with
  | mark hmark => simpa [marks] using hmark

theorem relaxFrom_comma (r : List Char) : relaxFrom .text (',' :: r) =
    if closes r = true then relaxFrom .text r else ',' :: relaxFrom .text r := by
  simp [relaxFrom]

/-- Words stay as they are; whether a comma does depends on what follows. -/
theorem Token.Spelling.relaxFrom {t : Token} {w : List Char} (h : Spelling t w) (ht : t ≠ .comma)
    (r : List Char) : relaxFrom .text (w ++ r) = w ++ relaxFrom .text r := by
  cases h with
  | mark hmark =>
    refine relaxFrom_plain (List.forall_mem_singleton.mpr ?_) r
    simp only [marks, List.mem_cons, Prod.mk.injEq, List.not_mem_nil, or_false] at hmark
    rcases hmark with h | h | h | h | h | h <;> obtain ⟨rfl, rfl⟩ := h
    case inr.inr.inr.inr.inr => exact absurd rfl ht
    all_goals decide
  | literal hliteral =>
    refine relaxFrom_plain ?_ r
    simp only [literals, List.mem_cons, Prod.mk.injEq, List.not_mem_nil, or_false] at hliteral
    rcases hliteral with h | h | h <;> obtain ⟨rfl, rfl⟩ := h <;> simp
  | string hs => exact congrArg ('"' :: ·) (string?_append hs r).2
  | @number b w n v hn _ =>
    refine relaxFrom_plain (fun c hc => ?_) r
    have hpart : isNumberPart c = true := by
      cases b with
      | true =>
        rcases List.mem_cons.mp hc with rfl | hc
        · rfl
        · exact numberParts_of_numeral? hn c hc
      | false => exact numberParts_of_numeral? hn c hc
    refine ⟨?_, ?_, ?_⟩ <;> rintro rfl <;> exact absurd hpart (by decide)

theorem isBlank_of_isDigit (h : isDigit c = true) : Text.isBlank c = false := by
  have hrange : 48 ≤ c.toNat ∧ c.toNat ≤ 57 := by
    simpa [isDigit, Char.le_def, UInt32.le_iff_toNat_le] using h
  simp only [Text.isBlank, Bool.or_eq_false_iff, Bool.and_eq_false_iff, decide_eq_false_iff_not,
    beq_eq_false_iff_ne]
  omega

theorem closes_digit (h : isDigit c = true) (r : List Char) : closes (c :: r) = false := by
  have hbracket : c ≠ '}' ∧ c ≠ ']' := by
    constructor <;> rintro rfl <;> exact absurd h (by decide)
  simp [closes, isBlank_of_isDigit h, hbracket]

/-- Of all words only closing brackets close. -/
theorem Token.Spelling.closes {t : Token} {w : List Char} (h : Spelling t w) (r : List Char) :
    Json.closes (w ++ r) = t.isClosing := by
  cases h with
  | mark hmark =>
    simp only [marks, List.mem_cons, Prod.mk.injEq, List.not_mem_nil, or_false] at hmark
    rcases hmark with h | h | h | h | h | h <;> obtain ⟨rfl, rfl⟩ := h <;> rfl
  | literal hliteral =>
    simp only [literals, List.mem_cons, Prod.mk.injEq, List.not_mem_nil, or_false] at hliteral
    rcases hliteral with h | h | h <;> obtain ⟨rfl, rfl⟩ := h <;> rfl
  | string => rfl
  | @number b w n v hn _ =>
    cases b with
    | true => rfl
    | false =>
      cases w with
      | nil => cases hn
      | cons c w => exact closes_digit (isDigit_of_numeral? hn) _

/-! ## Layouts -/

/-- The words of a text that are left when it is relaxed: some commas in front of closing brackets
may have been kept. -/
inductive Kept : List Word → List Word → Prop
  | done : Kept [] []
  | word {w : Word} {ws us : List Word} : Kept ws us → Kept (w :: ws) (w :: us)
  | comma {w : Word} {ws us : List Word} : w.token.isClosing = true → Kept ws us →
      Kept (w :: ws) (⟨.comma, [',']⟩ :: w :: us)

namespace Kept

variable {ws us : List Word}

theorem spelling (h : Kept ws us) (hws : ∀ w ∈ ws, Spelling w.token w.text) :
    ∀ u ∈ us, Spelling u.token u.text := by
  induction h with
  | done => exact hws
  | word _ ih =>
    obtain ⟨hw, hws⟩ := List.forall_mem_cons.mp hws
    exact List.forall_mem_cons.mpr ⟨hw, ih hws⟩
  | comma _ _ ih =>
    obtain ⟨hw, hws⟩ := List.forall_mem_cons.mp hws
    have hcomma : Spelling .comma [','] := .mark (by simp [marks])
    exact List.forall_mem_cons.mpr ⟨hcomma, List.forall_mem_cons.mpr ⟨hw, ih hws⟩⟩

/-- The kept commas do not bring scalars together. -/
theorem apart (h : Kept ws us)
    (hws : ws.IsChain fun w u => w.token.isScalar = true → u.token.isScalar = false) :
    us.IsChain fun w u => w.token.isScalar = true → u.token.isScalar = false := by
  -- Behind a word `v` the kept words stand apart if the original ones do.
  suffices hbehind : ∀ v : Word,
      (v :: ws).IsChain (fun w u => w.token.isScalar = true → u.token.isScalar = false) →
      (v :: us).IsChain fun w u => w.token.isScalar = true → u.token.isScalar = false by
    have hcomma : ∀ w ∈ ws.head?, Token.isScalar .comma = true → w.token.isScalar = false :=
      fun _ _ => Bool.noConfusion
    exact (hbehind ⟨.comma, []⟩ (List.isChain_cons.mpr ⟨hcomma, hws⟩)).tail
  clear hws
  induction h with
  | done => exact fun _ h => h
  | word _ ih =>
    intro v hv
    obtain ⟨hvw, hw⟩ := List.isChain_cons_cons.mp hv
    exact List.isChain_cons_cons.mpr ⟨hvw, ih _ hw⟩
  | comma _ _ ih =>
    intro v hv
    obtain ⟨-, hw⟩ := List.isChain_cons_cons.mp hv
    exact List.isChain_cons_cons.mpr ⟨fun _ => rfl,
      List.isChain_cons_cons.mpr ⟨Bool.noConfusion, ih _ hw⟩⟩

/-- A kept comma can be seen: it stands in front of a closing bracket. -/
theorem eq_of_adjoins (h : Kept ws us) (hus : us.IsChain fun w u => w.token.Adjoins u.token) :
    us = ws := by
  induction h with
  | done => rfl
  | word _ ih => rw [ih hus.tail]
  | comma hw _ _ =>
    have hadjoins := (List.isChain_cons_cons.mp hus).1
    rw [hadjoins.comma rfl] at hw
    cases hw

end Kept

variable {behind : List Char → Prop} {b : Bool} {ws us : List Word} {cs : List Char}

/-- A text does not start by closing a bracket if its first word does not. -/
theorem Layout.closes (h : Layout Filler behind b ws cs)
    (hws : ∀ w ∈ ws, Spelling w.token w.text)
    (hfirst : ∀ w ∈ ws.head?, w.token.isClosing = false) : closes cs = false := by
  cases h with
  | done hg =>
    rw [← List.append_nil cs]
    by_cases hblanks : IsBlanks cs
    · exact closes_blanks hblanks _
    · exact hg.closes hblanks _
  | @unended _ g body hg _ _ =>
    by_cases hblanks : IsBlanks g
    · exact closes_blanks hblanks _
    · exact hg.closes hblanks _
  | @word _ g cs w ws hg _ =>
    by_cases hblanks : IsBlanks g
    · rw [closes_blanks hblanks, (hws w List.mem_cons_self).closes, hfirst w rfl]
    · exact hg.closes hblanks _
  | @comma g h cs w ws hg _ hw _ =>
    rw [hfirst w rfl] at hw
    cases hw

/-- Relaxing a text leaves its words with blanks between them. Only commas with a comment behind
them are kept in front of closing brackets. -/
theorem relaxFrom_layout (hbehind : ∀ h, behind h → Filler h) (h : Layout Filler behind b ws cs)
    (hws : ∀ w ∈ ws, Spelling w.token w.text)
    (hchain : ws.IsChain fun w u => w.token.Adjoins u.token) :
    ∃ us, Layout IsBlanks (fun _ => False) b us (relaxFrom .text cs) ∧ Kept ws us ∧
      (us = ws ∧ Layout Filler IsBlanks b ws cs ∨ us ≠ ws ∧ ∃ h, behind h ∧ ¬ IsBlanks h) := by
  induction h with
  | @done b g hg =>
    obtain ⟨g', hg', hrelax⟩ := relaxFrom_filler hg
    have hend := hrelax []
    rw [List.append_nil] at hend
    refine ⟨[], ?_, .done, .inl ⟨rfl, .done hg⟩⟩
    rw [hend, relaxFrom, List.append_nil]
    exact .done hg'
  | @unended b g body hg hline hbody =>
    obtain ⟨g', hg', hrelax⟩ := relaxFrom_filler hg
    have hslash : '\n' ∉ '/' :: body := by simp [hbody]
    have hcomment : relaxFrom .text ('/' :: '/' :: body) = [] := by
      have hend := relaxFrom_lineComment hslash []
      rw [List.append_nil] at hend
      simpa [relaxFrom] using hend
    refine ⟨[], ?_, .done, .inl ⟨rfl, .unended hg hline hbody⟩⟩
    rw [hrelax, hcomment, List.append_nil]
    exact .done hg'
  | @word b g cs w ws hg hlayout ih =>
    obtain ⟨g', hg', hrelax⟩ := relaxFrom_filler hg
    obtain ⟨hw, hrest⟩ := List.forall_mem_cons.mp hws
    obtain ⟨us, hus, hkept, hcases⟩ := ih hrest hchain.tail
    obtain ⟨hfirst, -⟩ := List.isChain_cons.mp hchain
    have hword : relaxFrom .text (w.text ++ cs) = w.text ++ relaxFrom .text cs := by
      by_cases ht : w.token = .comma
      · have hcloses := hlayout.closes hrest fun u hu => (hfirst u hu).comma ht
        rw [ht] at hw
        rw [hw.eq_comma, List.singleton_append, relaxFrom_comma, hcloses]
        rfl
      · exact hw.relaxFrom ht cs
    refine ⟨w :: us, ?_, .word hkept, ?_⟩
    · rw [hrelax, hword]
      exact .word hg' hus
    · rcases hcases with ⟨rfl, hblanks⟩ | ⟨hne, hcomment⟩
      · exact .inl ⟨rfl, .word hg hblanks⟩
      · exact .inr ⟨fun heq => hne (List.cons.inj heq).2, hcomment⟩
  | @comma g h cs w ws hg hh hclosing hlayout ih =>
    obtain ⟨g', hg', hrelax⟩ := relaxFrom_filler hg
    obtain ⟨hw, hrest⟩ := List.forall_mem_cons.mp hws
    obtain ⟨us, hus, hkept, hcases⟩ := ih hrest hchain.tail
    have hne : w.token ≠ .comma := by
      intro ht
      rw [ht] at hclosing
      cases hclosing
    have hopening : (!w.token.isOpening) = true := by
      cases ht : w.token <;> rw [ht] at hclosing <;> first | rfl | cases hclosing
    have hword := hw.relaxFrom hne cs
    rw [← hopening] at hus
    by_cases hblanks : IsBlanks h
    · refine ⟨w :: us, ?_, .word hkept, ?_⟩
      · rw [hrelax, relaxFrom_comma, closes_blanks hblanks, hw.closes, hclosing, if_pos rfl,
          relaxFrom_blanks hblanks, hword, ← List.append_assoc]
        exact .word (hg'.append hblanks) hus
      · rcases hcases with ⟨rfl, hdropped⟩ | ⟨hkeeps, hcomment⟩
        · exact .inl ⟨rfl, .comma hg hblanks hclosing hdropped⟩
        · exact .inr ⟨fun heq => hkeeps (List.cons.inj heq).2, hcomment⟩
    · obtain ⟨h', hh', hrelax'⟩ := relaxFrom_filler (hbehind h hh)
      refine ⟨⟨.comma, [',']⟩ :: w :: us, ?_, .comma hclosing hkept, .inr ⟨?_, h, hh, hblanks⟩⟩
      · rw [hrelax, relaxFrom_comma, (hbehind h hh).closes hblanks, if_neg Bool.noConfusion,
          hrelax', hword]
        exact .word hg' (.word hh' hus)
      · intro heq
        exact hne (congrArg Word.token (List.cons.inj heq).1).symm

/-! ## Reading what is left -/

/-- What follows a scalar in a text of words and blanks does not make it longer. -/
theorem Layout.ends (h : Layout IsBlanks (fun _ => False) b us cs)
    (hus : ∀ u ∈ us, Spelling u.token u.text)
    (hfirst : ∀ u ∈ us.head?, u.token.isScalar = false) : Ends cs := by
  have hspace {c : Char} (hc : isSpace c = true) (r : List Char) : Ends (c :: r) := by
    refine ends_cons ?_ r
    rcases isSpace_iff.mp hc with rfl | rfl | rfl | rfl <;> decide
  cases h with
  | done hg =>
    cases cs with
    | nil => rintro _ ⟨⟩
    | cons c cs => exact hspace (hg c List.mem_cons_self) cs
  | unended _ hline _ => exact absurd (hline '/' List.mem_cons_self) (by decide)
  | @word _ g cs w ws hg _ =>
    cases g with
    | cons c g => exact hspace (hg c List.mem_cons_self) _
    | nil =>
      have hscalar := hfirst w rfl
      have hw := hus w List.mem_cons_self
      obtain ⟨t, text⟩ := w
      cases hw with
      | mark hmark =>
        refine ends_cons ?_ cs
        simp only [marks, List.mem_cons, Prod.mk.injEq, List.not_mem_nil, or_false] at hmark
        rcases hmark with h | h | h | h | h | h <;> obtain ⟨rfl, rfl⟩ := h <;> decide
      | literal | string | number => cases hscalar
  | comma _ hnever => exact hnever.elim

/-- The tokens of a text of words and blanks. -/
theorem Layout.all? (h : Layout IsBlanks (fun _ => False) b us cs)
    (hus : ∀ u ∈ us, Spelling u.token u.text)
    (hchain : us.IsChain fun w u => w.token.isScalar = true → u.token.isScalar = false) :
    Token.all? cs = some (us.map (·.token)) := by
  have hblanks {g : List Char} (hg : IsBlanks g) (r : List Char) :
      Token.all? (g ++ r) = Token.all? r := by
    induction g with
    | nil => rfl
    | cons c g ih =>
      obtain ⟨hc, hg⟩ := isBlanks_cons.mp hg
      rw [List.cons_append, all?_cons_of_space hc, ih hg]
  induction h with
  | @done _ g hg =>
    rw [← List.append_nil g, hblanks hg, Token.all?, List.map_nil]
  | unended _ hline _ => exact absurd (hline '/' List.mem_cons_self) (by decide)
  | @word _ g cs w ws hg hlayout ih =>
    obtain ⟨hw, hws⟩ := List.forall_mem_cons.mp hus
    obtain ⟨hfirst, hrest⟩ := List.isChain_cons.mp hchain
    have hends (hscalar : w.token.isScalar = true) : Ends cs :=
      hlayout.ends hws fun u hu => hfirst u hu hscalar
    obtain ⟨c, rest, heq, hc, hnext⟩ := hw.next? hends
    rw [hblanks hg, heq, all?_cons_of_next hc hnext, ih hws hrest, Option.map_some, List.map_cons]
  | comma _ hnever => exact hnever.elim

/-- A text whose tokens all have a value has no other lexemes. -/
theorem Lexeme.all?_of_tokens {cs : List Char} {ts : List Token} (h : Token.all? cs = some ts) :
    Lexeme.all? cs = some (ts.map .token) ∧ ts.length ≤ cs.length := by
  fun_induction Token.all? cs generalizing ts with
  | case1 =>
    cases h
    exact ⟨by rw [Lexeme.all?, List.map_nil], Nat.le_refl _⟩
  | case2 c rest hc ih =>
    obtain ⟨hall, hlength⟩ := ih h
    exact ⟨by rw [Lexeme.all?, if_pos hc, hall], Nat.le_succ_of_le hlength⟩
  | case3 => cases h
  | case4 c rest hc t r hnext _ ih =>
    obtain ⟨ts', hts, rfl⟩ := Option.map_eq_some_iff.mp h
    obtain ⟨hall, hlength⟩ := ih hts
    have hlexeme : Lexeme.next? c rest = some (.token t, r) := by
      unfold Lexeme.next?
      rw [hnext]
    have hle := Token.length_next? hnext
    constructor
    · rw [Lexeme.all?, if_neg hc]
      split
      · next hnone => cases hlexeme.symm.trans hnone
      · next hsome =>
        cases hlexeme.symm.trans hsome
        rw [hall]
        rfl
    · simp only [List.length_cons]
      omega

theorem Lexeme.tokens?_map (names : List String) (depth : Nat) (passing : Bool) (ts : List Token) :
    Lexeme.tokens? names depth passing (ts.map .token) = some ts := by
  generalize hls : ts.map Lexeme.token = ls
  fun_induction Lexeme.tokens? names depth passing ls generalizing ts with
  | case1 => rw [List.map_eq_nil_iff.mp hls]
  | case2 depth passing n ls ih =>
    obtain ⟨t, us, rfl, ht, hus⟩ := List.map_eq_cons_iff.mp hls
    obtain ⟨u, vs, rfl, hu, hvs⟩ := List.map_eq_cons_iff.mp hus
    cases ht
    cases hu
    rw [ih vs hvs, Option.map_some]
  | case3 depth passing t ls _ ih =>
    obtain ⟨u, us, rfl, hu, hus⟩ := List.map_eq_cons_iff.mp hls
    cases hu
    rw [ih us hus, Option.map_some]
  | case4 | case5 | case6 | case7 =>
    obtain ⟨u, us, rfl, hu, -⟩ := List.map_eq_cons_iff.mp hls
    cases hu

section Tokens

variable {text other : String} {ts : List Token} (h : Token.all? text.toList = some ts)

include h

/-- The value of a text depends on its tokens only. -/
theorem parse?_congr (h' : Token.all? other.toList = some ts) (limit : Nat) :
    parse? limit text = parse? limit other := by
  unfold parse?
  rw [h, h']

theorem parse?_eq_none {limit : Nat} (hrun : (Reader.value []).run limit ts = none) :
    parse? limit text = none := by
  simp [parse?, h, hrun]

/-- The selected fields of a text depend on its tokens only. -/
theorem select?_congr (h' : Token.all? other.toList = some ts) (names : List String) :
    select? names text = select? names other := by
  obtain ⟨hall, hlength⟩ := Lexeme.all?_of_tokens h
  obtain ⟨hall', hlength'⟩ := Lexeme.all?_of_tokens h'
  rw [String.length_toList] at hlength hlength'
  have hrun : (Reader.value []).run text.length ts = (Reader.value []).run other.length ts :=
    Reader.run_limit (by simpa [Reader.depth] using hlength)
      (by simpa [Reader.depth] using hlength')
  simp only [select?, hall, hall', Option.bind_eq_bind, Option.bind_some, Lexeme.tokens?_map, hrun]

theorem select?_eq_none (hrun : ∀ limit, (Reader.value []).run limit ts = none)
    (names : List String) : select? names text = none := by
  obtain ⟨hall, -⟩ := Lexeme.all?_of_tokens h
  simp [select?, hall, Lexeme.tokens?_map, hrun]

end Tokens

/-! ## Decorated texts read as before -/

/-- A text is a layout of its own words. -/
theorem Words.layout (h : Words cs ws) (b : Bool) : Layout Filler IsBlanks b ws cs := by
  have hblank {c : Char} {b : Bool} {ws : List Word} {cs : List Char} (hc : isSpace c = true)
      (h : Layout Filler IsBlanks b ws cs) : Layout Filler IsBlanks b ws (c :: cs) := by
    cases h with
    | done hg => exact .done (.blank hc hg)
    | unended hg hline hbody => exact .unended (.blank hc hg) hline hbody
    | word hg hrest => exact .word (.blank hc hg) hrest
    | comma hg hh hw hrest => exact .comma (.blank hc hg) hh hw hrest
  induction h generalizing b with
  | done => exact .done .nil
  | blank hc _ ih => exact hblank hc (ih b)
  | word _ _ heq _ ih =>
    rw [heq]
    exact .word .nil (ih _)

/-- The tokens of a relaxed text. -/
theorem exists_kept {plain text : String} (hbehind : ∀ h, behind h → Filler h)
    (hwords : Words plain.toList ws) (hchain : (ws.map (·.token)).IsChain Token.Adjoins)
    (h : Layout Filler behind false ws text.toList) :
    ∃ us, Token.all? (relax text).toList = some (us.map (·.token)) ∧ Kept ws us ∧
      (us = ws ∧ Layout Filler IsBlanks false ws text.toList ∨
        us ≠ ws ∧ ∃ h, behind h ∧ ¬ IsBlanks h) := by
  have hadjoin := (List.isChain_map Word.token).mp hchain
  obtain ⟨us, hus, hkept, hcases⟩ := relaxFrom_layout hbehind h hwords.spelling hadjoin
  have happart := hkept.apart (hadjoin.imp fun _ _ h => h.scalar)
  refine ⟨us, ?_, hkept, hcases⟩
  rw [relax, String.toList_ofList]
  exact hus.all? (hkept.spelling hwords.spelling) happart

theorem exists_run_of_parse? {limit : Nat} {text : String} {v : Json}
    (h : parse? limit text = some v) :
    ∃ ts r, Token.all? text.toList = some ts ∧ (Reader.value []).run limit ts = some r := by
  obtain ⟨ts, hts, hread⟩ := Option.bind_eq_some_iff.mp h
  obtain ⟨r, hr, -⟩ := Option.bind_eq_some_iff.mp hread
  exact ⟨ts, r, hts, hr⟩

/-- Relaxing takes off the decoration of a JSON text. A decorated text reads as the text itself, and
a project that has it for its configuration has the same program, provided that no comment stands
between a superfluous comma and its bracket. With such a comment it cannot be read at all, and
everything belongs to the program. -/
theorem relax_decorated {limit : Nat} {plain : String} {v : Json}
    (hplain : parse? limit plain = some v) : Decorates IsBlanks plain plain ∧
    (∀ text, Decorates IsBlanks plain text → parse? limit (relax text) = some v ∧
      ∀ (t t' : FileTree) (root : Path),
        t.readText? (root.join (.ofText "tsconfig.json")) = some text →
        t'.readText? (root.join (.ofText "tsconfig.json")) = some plain →
        Program.load t root = Program.load t' root) ∧
    ∀ text, Decorates Filler plain text → ¬ Decorates IsBlanks plain text →
      (∀ limit, parse? limit (relax text) = none) ∧
      ∀ (t : FileTree) (root : Path),
        t.readText? (root.join (.ofText "tsconfig.json")) = some text →
        Program.load t root = .everything := by
  obtain ⟨ts, r, hts, hrun⟩ := exists_run_of_parse? hplain
  have hchain := Reader.isChain_of_run hrun
  have htokens {ws : List Word} (hws : Words plain.toList ws) : ws.map (·.token) = ts :=
    Option.some.inj (hws.all?.symm.trans hts)
  have hread {text : String} (h : Decorates IsBlanks plain text) :
      Token.all? (relax text).toList = some ts := by
    obtain ⟨ws, hws, hlayout⟩ := h
    rw [← htokens hws] at hchain
    obtain ⟨us, hus, -, ⟨rfl, -⟩ | ⟨-, g, hblanks, hcomment⟩⟩ :=
      exists_kept (fun _ => IsBlanks.filler) hws hchain hlayout
    · rw [hus, htokens hws]
    · exact absurd hblanks hcomment
  have hself : Decorates IsBlanks plain plain := by
    obtain ⟨ws, hws⟩ := exists_words hts
    exact ⟨ws, hws, hws.layout false⟩
  refine ⟨hself, fun text hblanks => ⟨?_, ?_⟩, fun text htext hcomment => ?_⟩
  · rw [parse?_congr (hread hblanks) hts, hplain]
  · intro t t' root ht ht'
    simp only [Program.load, ht, ht', Option.bind_some, Program.ofText?,
      select?_congr (hread hblanks) (hread hself)]
  · obtain ⟨ws, hws, hlayout⟩ := htext
    rw [← htokens hws] at hchain
    obtain ⟨us, hus, hkept, ⟨-, hdropped⟩ | ⟨hne, -⟩⟩ :=
      exists_kept (fun _ h => h) hws hchain hlayout
    · exact absurd ⟨ws, hws, hdropped⟩ hcomment
    · have hfails (limit : Nat) : (Reader.value []).run limit (us.map (·.token)) = none := by
        cases hread : (Reader.value []).run limit (us.map (·.token)) with
        | none => rfl
        | some r =>
            have hadjoin := (List.isChain_map Word.token).mp (Reader.isChain_of_run hread)
            exact absurd (hkept.eq_of_adjoins hadjoin) hne
      refine ⟨fun limit => parse?_eq_none hus (hfails limit), fun t root ht => ?_⟩
      simp [Program.load, ht, Program.ofText?, select?_eq_none hus hfails]

/-- An array of one string that looks like a comment. -/
def plainSample : String := "[\"//,\"]"

/-- The words of the sample. -/
def sampleWords : List Word :=
  [⟨.openArray, ['[']⟩, ⟨.scalar (.string "//,"), ['"', '/', '/', ',', '"']⟩, ⟨.closeArray, [']']⟩]

theorem words_plainSample : Words plainSample.toList sampleWords :=
  .word rfl rfl rfl (.word rfl rfl rfl (.word rfl rfl rfl .done))

theorem parse?_plainSample : parse? nestingLimit plainSample = some (.array [.string "//,"]) := by
  simp [parse?, words_plainSample.all?, sampleWords, Reader.run, Reader.step, Reader.start,
    nestingLimit]

/-- The sample with comments, blanks and a comma. -/
def commaSample : String := "[/*,]*/ \"//,\", ] // end"

/-- The comments and the comma go, the string stays. -/
theorem relax_decorated_comma : Decorates IsBlanks plainSample commaSample ∧
    parse? nestingLimit (relax commaSample) = some (.array [.string "//,"]) := by
  have hcomment : Filler ('/' :: '*' :: ([',', ']'] ++ ['*', '/', ' '])) :=
    .block (by decide) (.blank rfl .nil)
  have hblank : IsBlanks [' '] := List.forall_mem_singleton.mpr rfl
  have hend : Filler ('/' :: '/' :: ([' ', 'e', 'n', 'd'] ++ ['\n'])) := .line (by decide) .nil
  have hlayout : Layout Filler IsBlanks false sampleWords commaSample.toList :=
    .word Filler.nil (.word hcomment (.comma Filler.nil hblank rfl
      (.unended hblank.filler hend (by decide))))
  have hdecorates : Decorates IsBlanks plainSample commaSample :=
    ⟨sampleWords, words_plainSample, hlayout⟩
  exact ⟨hdecorates, ((relax_decorated parse?_plainSample).2.1 _ hdecorates).1⟩

/-- The sample with a comment behind a comma. -/
def commentSample : String := "[\"//,\", /* last */]"

/-- The comma in front of the comment stays, and the text cannot be read. -/
theorem comma_kept_before_comment :
    parse? nestingLimit plainSample = some (.array [.string "//,"]) ∧
      Decorates Filler plainSample commentSample ∧
      parse? nestingLimit (relax commentSample) = none := by
  have hcomment : Filler (' ' :: '/' :: '*' :: ([' ', 'l', 'a', 's', 't', ' '] ++ ['*', '/'])) :=
    .blank rfl (.block (by decide) .nil)
  have hlayout : Layout Filler Filler false sampleWords commentSample.toList :=
    .word Filler.nil (.word Filler.nil (.comma Filler.nil hcomment rfl (.done Filler.nil)))
  have hwords : Words (relax commentSample).toList [⟨.openArray, ['[']⟩,
      ⟨.scalar (.string "//,"), ['"', '/', '/', ',', '"']⟩, ⟨.comma, [',']⟩,
      ⟨.closeArray, [']']⟩] :=
    .word rfl rfl rfl (.word rfl rfl rfl (.word rfl rfl rfl (.blank rfl (.word rfl rfl rfl .done))))
  exact ⟨parse?_plainSample, ⟨sampleWords, words_plainSample, hlayout⟩,
    parse?_eq_none hwords.all? rfl⟩

end CodeConcepts.Json
