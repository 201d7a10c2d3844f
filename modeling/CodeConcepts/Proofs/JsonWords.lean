import CodeConcepts.Json.Relaxed
import CodeConcepts.Json.Selection
import CodeConcepts.Proofs.JsonText
import Mathlib.Data.List.Chain

/-!
# Words of a JSON text

A JSON text is cut into words, one for each token, with blanks between them. How a word is read does
not depend on what follows it, except that a number goes on as far as it can (`next?_cut`,
`Spelling.next?`). So a text can be laid out anew, word by word, and has the same tokens.

Of the words of a readable text no two neighbours are scalars, and no comma stands in front of a
closing bracket (`isChain_of_run`).
-/

namespace CodeConcepts.Json

variable {ts : List Token}

namespace Token

/-! ## How tokens are written -/

/-- The tokens that are written as one character. -/
def marks : List (Char × Token) :=
  [('[', .openArray), (']', .closeArray), ('\x7b', .openObject), ('\x7d', .closeObject),
    (':', .colon), (',', .comma)]

/-- The scalars that are written as words. -/
def literals : List (List Char × Json) :=
  [(['n', 'u', 'l', 'l'], .null), (['t', 'r', 'u', 'e'], .bool true),
    (['f', 'a', 'l', 's', 'e'], .bool false)]

/-- The ways to write a token. -/
inductive Spelling : Token → List Char → Prop
  | mark {c : Char} {t : Token} : (c, t) ∈ marks → Spelling t [c]
  | literal {w : List Char} {v : Json} : (w, v) ∈ literals → Spelling (.scalar v) w
  | string {w s : List Char} : string? w = some (s, []) →
      Spelling (.scalar (.string (String.ofList s))) ('"' :: w)
  | number {b : Bool} {w : List Char} {n : Numeral} {v : Json} : numeral? b w = some (n, []) →
      n.value? = some v → Spelling (.scalar v) (if b = true then '-' :: w else w)

/-- Whether a token is a scalar. -/
def isScalar : Token → Bool
  | .scalar _ => true
  | _ => false

/-- Whether a token opens an array or object. -/
def isOpening : Token → Bool
  | .openArray => true
  | .openObject => true
  | _ => false

/-- Whether a token closes an array or object. -/
def isClosing : Token → Bool
  | .closeArray => true
  | .closeObject => true
  | _ => false

/-! ## Strings -/

theorem hex4?_plain {a b c d : Char} {n : Nat} (h : hex4? a b c d = some n) :
    ∀ x ∈ [a, b, c, d], x ≠ '\\' ∧ x ≠ '"' := by
  unfold hex4? at h
  split at h
  · next hall =>
    intro x hx
    have hdigit := List.all_eq_true.mp hall x hx
    constructor <;> rintro rfl <;> exact absurd hdigit (by decide)
  · cases h

/-- A string is read up to its closing quote, and left as it is up to there, whatever follows. -/
theorem string?_cut {cs s r : List Char} (h : string? cs = some (s, r)) :
    ∃ w, cs = w ++ r ∧ ∀ r', string? (w ++ r') = some (s, r') ∧
      relaxFrom .string (w ++ r') = w ++ relaxFrom .text r' := by
  fun_induction string? cs generalizing s with
  | case1 => cases h
  | case2 rest =>
    cases h
    exact ⟨['"'], rfl, fun _ => ⟨rfl, rfl⟩⟩
  | case3 | case4 => cases h
  | case5 a b c d high hhex hhigh e f g k rest low hlow hrange ih =>
    obtain ⟨⟨s', r'⟩, hs, heq⟩ := Option.map_eq_some_iff.mp h
    cases heq
    obtain ⟨w, rfl, hw⟩ := ih hs
    have hfirst := hex4?_plain hhex
    have hsecond := hex4?_plain hlow
    simp only [List.forall_mem_cons] at hfirst hsecond
    refine ⟨'\\' :: 'u' :: a :: b :: c :: d :: '\\' :: 'u' :: e :: f :: g :: k :: w, rfl,
      fun r' => ⟨?_, ?_⟩⟩
    · simp only [List.cons_append, string?, hhex, hhigh, hlow, hrange, hw]
      rfl
    · simp [relaxFrom, hfirst, hsecond, hw]
  | case6 | case7 | case8 => cases h
  | case9 a b c d rest high hhex hhigh hlow ih =>
    obtain ⟨⟨s', r'⟩, hs, heq⟩ := Option.map_eq_some_iff.mp h
    cases heq
    obtain ⟨w, rfl, hw⟩ := ih hs
    have hdigits := hex4?_plain hhex
    simp only [List.forall_mem_cons] at hdigits
    refine ⟨'\\' :: 'u' :: a :: b :: c :: d :: w, rfl, fun r' => ⟨?_, ?_⟩⟩
    · simp only [List.cons_append, string?, hhex, hhigh, hlow, hw]
      rfl
    · simp [relaxFrom, hdigits, hw]
  | case10 => cases h
  | case11 e rest hu c he ih =>
    obtain ⟨⟨s', r'⟩, hs, heq⟩ := Option.map_eq_some_iff.mp h
    cases heq
    obtain ⟨w, rfl, hw⟩ := ih hs
    refine ⟨'\\' :: e :: w, rfl, fun r' => ⟨?_, ?_⟩⟩
    · have hne : e ≠ 'u' := by
        rintro rfl
        cases he
      rw [List.cons_append, List.cons_append, string?, he]
      · simp only [hw, Option.map_some]
      · exact fun _ _ _ _ _ h _ => hne h
    · simp [relaxFrom, hw]
  | case12 => cases h
  | case13 c rest hquote hunicode hback hcontrol ih =>
    obtain ⟨⟨s', r'⟩, hs, heq⟩ := Option.map_eq_some_iff.mp h
    cases heq
    -- a backslash at the very end is taken for a plain character, but no quote follows it
    have hne : c ≠ '\\' := by
      intro hc
      cases rest with
      | nil => cases hs
      | cons e rest => exact hback e rest hc rfl
    obtain ⟨w, rfl, hw⟩ := ih hs
    refine ⟨c :: w, rfl, fun r' => ⟨?_, ?_⟩⟩
    · rw [List.cons_append, string?, if_neg hcontrol, (hw r').1, Option.map_some]
      · exact hquote
      · exact fun _ _ _ _ _ h _ => hne h
      · exact fun _ _ h _ => hne h
    · have hquote' : c ≠ '"' := fun h => hquote h
      simp [relaxFrom, hne, hquote', hw]

theorem string?_append {w s : List Char} (h : string? w = some (s, [])) (r : List Char) :
    string? (w ++ r) = some (s, r) ∧ relaxFrom .string (w ++ r) = w ++ relaxFrom .text r := by
  obtain ⟨w', hw, hread⟩ := string?_cut h
  rw [List.append_nil] at hw
  subst hw
  exact hread r

/-! ## Numbers -/

theorem span_digits {ds r : List Char} (hds : ∀ c ∈ ds, isDigit c = true)
    (hr : ∀ c ∈ r.head?, isDigit c = false) :
    (ds ++ r).takeWhile isDigit = ds ∧ (ds ++ r).dropWhile isDigit = r := by
  rw [List.takeWhile_append_of_pos hds, List.dropWhile_append_of_pos hds]
  cases r with
  | nil => simp
  | cons c r => simp [hr c rfl]

/-- The characters that occur in numbers. -/
def isNumberPart (c : Char) : Bool := isDigit c || ['.', 'e', 'E', '+', '-'].contains c

theorem isNumberPart_of_isDigit {c : Char} (h : isDigit c = true) : isNumberPart c = true := by
  rw [isNumberPart, h, Bool.true_or]

theorem whole?_cut {cs ds r : List Char} (h : whole? cs = some (ds, r)) :
    cs = ds ++ r ∧ (∀ c ∈ ds, isNumberPart c = true) ∧
      ∀ r', (∀ c ∈ r'.head?, isDigit c = false) → whole? (ds ++ r') = some (ds, r') := by
  unfold whole? at h
  split at h
  · cases h
    exact ⟨rfl, List.forall_mem_singleton.mpr rfl, fun _ _ => rfl⟩
  · next hzero =>
    split at h
    · cases h
    · next hne =>
      cases h
      have hds : ∀ c ∈ cs.takeWhile isDigit, isDigit c = true :=
        fun c hc => List.mem_takeWhile_imp hc
      refine ⟨List.takeWhile_append_dropWhile.symm,
        fun c hc => isNumberPart_of_isDigit (hds c hc), fun r' hstop => ?_⟩
      obtain ⟨htake, hdrop⟩ := span_digits hds hstop
      unfold whole?
      rw [htake, hdrop]
      split
      · next heq =>
        cases cs with
        | nil => exact absurd rfl hne
        | cons c cs =>
          by_cases hc : isDigit c = true
          · simp only [List.takeWhile_cons, hc, if_true, List.cons_append] at heq
            cases heq
            exact absurd rfl (hzero cs)
          · simp [hc] at hne
      · split
        · next heq => exact absurd heq hne
        · rfl

theorem fraction?_cut {cs r : List Char} {f : Option (List Char)} (h : fraction? cs = some (f, r)) :
    ∃ w, cs = w ++ r ∧ (∀ c ∈ w, isNumberPart c = true) ∧ (∀ c ∈ w.head?, c = '.') ∧
      ∀ r', (∀ c ∈ r'.head?, isDigit c = false ∧ c ≠ '.') → fraction? (w ++ r') = some (f, r') := by
  unfold fraction? at h
  split at h
  · next rest =>
    split at h
    · cases h
    · next hne =>
      cases h
      have hds : ∀ c ∈ rest.takeWhile isDigit, isDigit c = true :=
        fun c hc => List.mem_takeWhile_imp hc
      refine ⟨'.' :: rest.takeWhile isDigit, ?_, ?_, ?_, fun r' hstop => ?_⟩
      · rw [List.cons_append, List.takeWhile_append_dropWhile]
      · exact List.forall_mem_cons.mpr
          ⟨by decide, fun c hc => isNumberPart_of_isDigit (hds c hc)⟩
      · rintro _ ⟨⟩
        rfl
      · obtain ⟨htake, hdrop⟩ := span_digits hds fun c hc => (hstop c hc).1
        rw [List.cons_append, fraction?, htake, hdrop]
        split
        · next heq => exact absurd heq hne
        · rfl
  · cases h
    refine ⟨[], rfl, List.forall_mem_nil _, by rintro _ ⟨⟩, fun r' hstop => ?_⟩
    unfold fraction?
    split
    · next heq => exact absurd rfl (hstop '.' (by rw [show r' = _ from heq]; rfl)).2
    · rfl

theorem exponentDigits?_cut {b : Bool} {cs r : List Char} {e : Option (Bool × List Char)}
    (h : exponentDigits? b cs = some (e, r)) :
    ∃ w, cs = w ++ r ∧ (∀ c ∈ w, isDigit c = true) ∧ exponentDigits? b w = some (e, []) := by
  unfold exponentDigits? at h
  split at h
  · cases h
  · next hne =>
    cases h
    have hds : ∀ c ∈ cs.takeWhile isDigit, isDigit c = true :=
      fun c hc => List.mem_takeWhile_imp hc
    refine ⟨cs.takeWhile isDigit, List.takeWhile_append_dropWhile.symm, hds, ?_⟩
    unfold exponentDigits?
    rw [List.takeWhile_eq_self_iff.mpr hds, List.dropWhile_eq_nil_iff.mpr hds]
    split
    · next heq => exact absurd heq hne
    · rfl

theorem exponent?_cut {cs r : List Char} {e : Option (Bool × List Char)}
    (h : exponent? cs = some (e, r)) :
    ∃ w, cs = w ++ r ∧ (∀ c ∈ w, isNumberPart c = true) ∧ (∀ c ∈ w.head?, c = 'e' ∨ c = 'E') ∧
      exponent? w = some (e, []) := by
  have hsigned {l sign : Char} {rest : List Char} (b : Bool) (hl : l = 'e' ∨ l = 'E')
      (hsign : isNumberPart sign = true)
      (hread : ∀ w, exponent? (l :: sign :: w) = exponentDigits? b w)
      (h : exponentDigits? b rest = some (e, r)) :
      ∃ w, l :: sign :: rest = w ++ r ∧ (∀ c ∈ w, isNumberPart c = true) ∧
        (∀ c ∈ w.head?, c = 'e' ∨ c = 'E') ∧ exponent? w = some (e, []) := by
    obtain ⟨w, rfl, hdigits, hw⟩ := exponentDigits?_cut h
    refine ⟨l :: sign :: w, rfl, ?_, ?_, (hread w).trans hw⟩
    · refine List.forall_mem_cons.mpr ⟨?_, List.forall_mem_cons.mpr
        ⟨hsign, fun c hc => isNumberPart_of_isDigit (hdigits c hc)⟩⟩
      rcases hl with rfl | rfl <;> decide
    · rintro _ ⟨⟩
      exact hl
  have hunsigned {l : Char} {rest : List Char} (hl : l = 'e' ∨ l = 'E')
      (hread : ∀ w, (∀ tail, w ≠ '-' :: tail) → (∀ tail, w ≠ '+' :: tail) →
        exponent? (l :: w) = exponentDigits? false w)
      (h : exponentDigits? false rest = some (e, r)) :
      ∃ w, l :: rest = w ++ r ∧ (∀ c ∈ w, isNumberPart c = true) ∧
        (∀ c ∈ w.head?, c = 'e' ∨ c = 'E') ∧ exponent? w = some (e, []) := by
    obtain ⟨w, rfl, hdigits, hw⟩ := exponentDigits?_cut h
    refine ⟨l :: w, rfl, ?_, ?_, (hread w ?_ ?_).trans hw⟩
    · refine List.forall_mem_cons.mpr ⟨?_, fun c hc => isNumberPart_of_isDigit (hdigits c hc)⟩
      rcases hl with rfl | rfl <;> decide
    · rintro _ ⟨⟩
      exact hl
    · rintro tail rfl
      exact absurd (hdigits '-' List.mem_cons_self) (by decide)
    · rintro tail rfl
      exact absurd (hdigits '+' List.mem_cons_self) (by decide)
  unfold exponent? at h
  split at h
  case h_1 => exact hsigned true (.inl rfl) (by decide) (fun _ => rfl) h
  case h_2 => exact hsigned true (.inr rfl) (by decide) (fun _ => rfl) h
  case h_3 => exact hsigned false (.inl rfl) (by decide) (fun _ => rfl) h
  case h_4 => exact hsigned false (.inr rfl) (by decide) (fun _ => rfl) h
  case h_5 => exact hunsigned (.inl rfl) (fun w hminus hplus => by rw [exponent?] <;> assumption) h
  case h_6 => exact hunsigned (.inr rfl) (fun w hminus hplus => by rw [exponent?] <;> assumption) h
  case h_7 =>
    cases h
    exact ⟨[], rfl, List.forall_mem_nil _, by rintro _ ⟨⟩, rfl⟩

/-- A number at the start of a text is read alike if the text ends behind it. -/
theorem numeral?_cut {b : Bool} {cs r : List Char} {n : Numeral}
    (h : numeral? b cs = some (n, r)) :
    ∃ w, cs = w ++ r ∧ (∀ c ∈ w, isNumberPart c = true) ∧ numeral? b w = some (n, []) := by
  simp only [numeral?, Option.bind_eq_bind, Option.bind_eq_some_iff, Prod.exists, Option.pure_def,
    Option.some.injEq, Prod.mk.injEq] at h
  obtain ⟨ds, _, hwhole, f, _, hfraction, e, _, hexponent, rfl, rfl⟩ := h
  obtain ⟨rfl, hparts₁, hds⟩ := whole?_cut hwhole
  obtain ⟨w, rfl, hparts₂, hw, hf⟩ := fraction?_cut hfraction
  obtain ⟨x, rfl, hparts₃, hx, he⟩ := exponent?_cut hexponent
  have hletter : ∀ c ∈ x.head?, isDigit c = false ∧ c ≠ '.' := by
    intro c hc
    rcases hx c hc with rfl | rfl <;> decide
  have hpoint : ∀ c ∈ (w ++ x).head?, isDigit c = false := by
    intro c hc
    cases w with
    | nil => exact (hletter c hc).1
    | cons d w =>
      cases hc
      rw [hw c rfl]
      decide
  refine ⟨ds ++ (w ++ x), by simp only [List.append_assoc], List.forall_mem_append.mpr
    ⟨hparts₁, List.forall_mem_append.mpr ⟨hparts₂, hparts₃⟩⟩, ?_⟩
  simp only [numeral?, hds _ hpoint, hf _ hletter, he, Option.bind_eq_bind, Option.bind_some,
    Option.pure_def]

theorem numberParts_of_numeral? {b : Bool} {w : List Char} {n : Numeral}
    (h : numeral? b w = some (n, [])) : ∀ c ∈ w, isNumberPart c = true := by
  obtain ⟨w', hw, hparts, -⟩ := numeral?_cut h
  rw [List.append_nil] at hw
  subst hw
  exact hparts

/-! ## Tokens -/

/-- The first token of a text is written as a part of it, and the rest follows. -/
theorem next?_cut {c : Char} {rest r : List Char} {t : Token} (h : next? c rest = some (t, r)) :
    ∃ w, c :: rest = w ++ r ∧ Spelling t w := by
  unfold next? at h
  split at h
  case h_7 =>
    obtain ⟨⟨s, r'⟩, hs, heq⟩ := Option.map_eq_some_iff.mp h
    cases heq
    obtain ⟨w, rfl, hw⟩ := string?_cut hs
    have hread := (hw []).1
    rw [List.append_nil] at hread
    exact ⟨'"' :: w, rfl, .string hread⟩
  case h_8 =>
    cases h
    exact ⟨['n', 'u', 'l', 'l'], rfl, .literal (by simp [literals])⟩
  case h_9 =>
    cases h
    exact ⟨['t', 'r', 'u', 'e'], rfl, .literal (by simp [literals])⟩
  case h_10 =>
    cases h
    exact ⟨['f', 'a', 'l', 's', 'e'], rfl, .literal (by simp [literals])⟩
  case h_11 =>
    obtain ⟨⟨n, r'⟩, hn, hvalue⟩ := Option.bind_eq_some_iff.mp h
    obtain ⟨v, hv, heq⟩ := Option.map_eq_some_iff.mp hvalue
    cases heq
    obtain ⟨w, rfl, -, hw⟩ := numeral?_cut hn
    exact ⟨'-' :: w, rfl, .number (b := true) hw hv⟩
  case h_12 =>
    obtain ⟨⟨n, r'⟩, hn, hvalue⟩ := Option.bind_eq_some_iff.mp h
    obtain ⟨v, hv, heq⟩ := Option.map_eq_some_iff.mp hvalue
    cases heq
    obtain ⟨w, hcs, -, hw⟩ := numeral?_cut hn
    exact ⟨w, hcs, .number (b := false) hw hv⟩
  all_goals
    cases h
    exact ⟨[_], rfl, .mark (by simp [marks])⟩

/-- A token is read from the way it is written, unless it is a number and goes on. -/
theorem Spelling.next? {t : Token} {w : List Char} (h : Spelling t w) {r : List Char}
    (hends : t.isScalar = true → Ends r) :
    ∃ c rest, w ++ r = c :: rest ∧ isSpace c = false ∧ Token.next? c rest = some (t, r) := by
  cases h with
  | mark hmark =>
    refine ⟨_, r, rfl, ?_⟩
    simp only [marks, List.mem_cons, Prod.mk.injEq, List.not_mem_nil, or_false] at hmark
    rcases hmark with h | h | h | h | h | h <;>
      obtain ⟨rfl, rfl⟩ := h <;> exact ⟨rfl, rfl⟩
  | literal hliteral =>
    simp only [literals, List.mem_cons, Prod.mk.injEq, List.not_mem_nil, or_false] at hliteral
    rcases hliteral with ⟨rfl, rfl⟩ | ⟨rfl, rfl⟩ | ⟨rfl, rfl⟩ <;> exact ⟨_, _, rfl, rfl, rfl⟩
  | @string w s hs =>
    refine ⟨'"', w ++ r, rfl, rfl, ?_⟩
    show (string? (w ++ r)).map _ = _
    rw [(string?_append hs r).1]
    rfl
  | @number b w n v hn hv =>
    have hread := numeral?_append (hends rfl) hn
    cases b with
    | true =>
      refine ⟨'-', w ++ r, rfl, rfl, ?_⟩
      show (numeral? true (w ++ r)).bind _ = _
      rw [hread]
      simp [hv]
    | false =>
      cases w with
      | nil => cases hn
      | cons c w =>
        have hc := isDigit_of_numeral? hn
        refine ⟨c, w ++ r, rfl, isSpace_of_isDigit hc, ?_⟩
        rw [next?_of_digit hc]
        show (numeral? false ((c :: w) ++ r)).bind _ = _
        rw [hread]
        simp [hv]

end Token

/-! ## Words -/

/-- A token and how it is written. -/
structure Word where
  token : Token
  text : List Char

/-- The words of a text: what the reader takes from it, token by token. -/
inductive Words : List Char → List Word → Prop
  | done : Words [] []
  | blank {c : Char} {cs : List Char} {ws : List Word} : Token.isSpace c = true → Words cs ws →
      Words (c :: cs) ws
  | word {c : Char} {rest r w : List Char} {t : Token} {ws : List Word} :
      Token.isSpace c = false → Token.next? c rest = some (t, r) → c :: rest = w ++ r →
      Words r ws → Words (c :: rest) (⟨t, w⟩ :: ws)

namespace Words

variable {cs : List Char} {ws : List Word}

theorem all? (h : Words cs ws) : Token.all? cs = some (ws.map (·.token)) := by
  induction h with
  | done => rw [Token.all?, List.map_nil]
  | blank hc _ ih => rw [Token.all?_cons_of_space hc, ih]
  | word hc hnext _ _ ih =>
    rw [Token.all?_cons_of_next hc hnext, ih, Option.map_some, List.map_cons]

theorem spelling (h : Words cs ws) : ∀ w ∈ ws, Token.Spelling w.token w.text := by
  induction h with
  | done => exact List.forall_mem_nil _
  | blank _ _ ih => exact ih
  | word hc hnext heq _ ih =>
    obtain ⟨w, hw, hspelling⟩ := Token.next?_cut hnext
    rw [heq] at hw
    exact List.forall_mem_cons.mpr ⟨List.append_cancel_right hw ▸ hspelling, ih⟩

end Words

/-- A text that consists of tokens consists of words. -/
theorem exists_words {cs : List Char} (h : Token.all? cs = some ts) : ∃ ws, Words cs ws := by
  fun_induction Token.all? cs generalizing ts with
  | case1 => exact ⟨[], .done⟩
  | case2 c rest hc ih =>
    obtain ⟨ws, hws⟩ := ih h
    exact ⟨ws, .blank hc hws⟩
  | case3 => cases h
  | case4 c rest hc t r hnext _ ih =>
    obtain ⟨ts', hts, -⟩ := Option.map_eq_some_iff.mp h
    obtain ⟨ws, hws⟩ := ih hts
    obtain ⟨w, hw, -⟩ := Token.next?_cut hnext
    exact ⟨_, .word (Bool.eq_false_iff.mpr hc) hnext hw hws⟩

/-! ## What the reader takes -/

/-- What may stand beside each other: no two scalars, and no comma in front of a closing bracket. -/
structure Token.Adjoins (t u : Token) : Prop where
  scalar : t.isScalar = true → u.isScalar = false
  comma : t = .comma → u.isClosing = false

namespace Reader

variable {limit limit' : Nat} {r r' : Reader} {t u : Token}

theorem step_scalar {v : Json} (h : step limit r (.scalar v) = some r') :
    (∃ stack, r' = .complete v stack) ∨ ∃ members n stack, r' = .colon members n stack := by
  cases r with
  | value stack =>
    cases h
    exact .inl ⟨_, rfl⟩
  | firstItem stack =>
    cases h
    exact .inl ⟨_, rfl⟩
  | name members stack =>
    cases v with
    | string n =>
      cases members <;> cases h <;> exact .inr ⟨_, _, _, rfl⟩
    | _ => cases members <;> cases h
  | colon members n stack => cases h
  | complete w stack =>
    cases stack with
    | nil => cases h
    | cons o stack => cases o <;> cases h

theorem step_comma (h : step limit r .comma = some r') :
    (∃ stack, r' = .value stack) ∨ ∃ m members stack, r' = .name (m :: members) stack := by
  cases r with
  | complete v stack =>
    cases stack with
    | nil => cases h
    | cons o stack =>
      cases o with
      | array items =>
        cases h
        exact .inl ⟨_, rfl⟩
      | object members n =>
        cases h
        exact .inr ⟨_, _, _, rfl⟩
  | name members stack => cases members <;> cases h
  | _ => cases h

theorem adjoins_of_step {r₁ : Reader} (h : step limit r t = some r₁)
    (h' : step limit r₁ u = some r') : t.Adjoins u where
  scalar hscalar := by
    cases t with
    | scalar v =>
      cases u with
      | scalar w =>
        rcases step_scalar h with ⟨stack, rfl⟩ | ⟨members, n, stack, rfl⟩
        · rcases stack with _ | ⟨_ | _, _⟩ <;> cases h'
        · cases h'
      | _ => rfl
    | _ => cases hscalar
  comma hcomma := by
    subst hcomma
    cases u with
    | closeArray | closeObject =>
      rcases step_comma h with ⟨stack, rfl⟩ | ⟨m, members, stack, rfl⟩ <;> cases h'
    | _ => rfl

/-- Tokens that can be read fit together. -/
theorem isChain_of_run (h : run limit r ts = some r') : ts.IsChain Token.Adjoins := by
  induction ts generalizing r with
  | nil => exact .nil
  | cons t ts ih =>
    obtain ⟨r₁, hstep, hrun⟩ := Option.bind_eq_some_iff.mp h
    cases ts with
    | nil => exact .singleton t
    | cons u ts =>
      obtain ⟨r₂, hstep', -⟩ := Option.bind_eq_some_iff.mp hrun
      exact .cons_cons (adjoins_of_step hstep hstep') (ih hrun)

/-- How many arrays and objects are open. -/
def depth : Reader → Nat
  | .value stack => stack.length
  | .firstItem stack => stack.length + 1
  | .name _ stack => stack.length + 1
  | .colon _ _ stack => stack.length + 1
  | .complete _ stack => stack.length

theorem step_limit (h : r.depth < limit) (h' : r.depth < limit') :
    step limit r t = step limit' r t := by
  have hstart (stack : List Open) (h : stack.length < limit) (h' : stack.length < limit')
      (t : Token) : start limit stack t = start limit' stack t := by
    cases t <;> simp only [start, h, h']
  unfold step
  split
  case h_1 | h_3 =>
    refine hstart _ ?_ ?_ _
    · exact h
    · exact h'
  all_goals rfl

theorem depth_start {stack : List Open} (h : start limit stack t = some r') :
    r'.depth ≤ stack.length + 1 := by
  cases t with
  | scalar v =>
    cases h
    exact Nat.le_succ _
  | openArray =>
    obtain ⟨-, ⟨⟩⟩ := Option.ite_none_right_eq_some.mp h
    exact Nat.le_refl _
  | openObject =>
    obtain ⟨-, ⟨⟩⟩ := Option.ite_none_right_eq_some.mp h
    exact Nat.le_refl _
  | _ => cases h

/-- A token opens at most one array or object. -/
theorem depth_step (h : step limit r t = some r') : r'.depth ≤ r.depth + 1 := by
  unfold step at h
  split at h
  case h_1 | h_3 => exact depth_start h
  case h_11 => cases h
  all_goals
    cases h
    simp only [depth, List.length_cons]
    omega

/-- A limit that the tokens cannot reach does not matter. -/
theorem run_limit (h : r.depth + ts.length ≤ limit) (h' : r.depth + ts.length ≤ limit') :
    run limit r ts = run limit' r ts := by
  induction ts generalizing r with
  | nil => rfl
  | cons t ts ih =>
    rw [List.length_cons] at h h'
    have hstep : step limit r t = step limit' r t := step_limit (by omega) (by omega)
    rw [run, run, ← hstep]
    cases hread : step limit r t with
    | none => rfl
    | some r₁ =>
      have hdepth := depth_step hread
      exact ih (by omega) (by omega)

end Reader

end CodeConcepts.Json
