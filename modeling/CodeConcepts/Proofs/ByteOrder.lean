import CodeConcepts.QName

/-!
# The order of texts is that of their bytes

Texts are compared character by character. UTF-8 is made so that comparing the encoded bytes gives
the same answer: of two characters the greater one has the greater encoding, and the encodings
differ before either of them ends (`encode_append_lt`). Hence a list that increases in the order of
names increases byte by byte (`QName.lt_iff_bytes_lt`).
-/

namespace CodeConcepts

namespace Text

/-- The bytes of a text in UTF-8. -/
def bytes (s : String) : List UInt8 := s.toByteArray.data.toList

theorem bytes_eq_flatMap (s : String) : bytes s = s.toList.flatMap String.utf8EncodeChar := by
  rw [bytes, ← String.utf8Encode_toList]
  show ((s.toList.flatMap String.utf8EncodeChar).toByteArray).data.toList = _
  rw [List.data_toByteArray]

theorem ofNat_lt_ofNat {x y : Nat} (hx : x < 256) (hy : y < 256) :
    UInt8.ofNat x < UInt8.ofNat y ↔ x < y := by
  rw [UInt8.lt_iff_toNat_lt, UInt8.toNat_ofNat', UInt8.toNat_ofNat', Nat.mod_eq_of_lt hx,
    Nat.mod_eq_of_lt hy]

theorem ofNat_eq_ofNat {x y : Nat} (hx : x < 256) (hy : y < 256) :
    UInt8.ofNat x = UInt8.ofNat y ↔ x = y := by
  rw [← UInt8.toNat_inj, UInt8.toNat_ofNat', UInt8.toNat_ofNat', Nat.mod_eq_of_lt hx,
    Nat.mod_eq_of_lt hy]

/-- Numbers compare like their digits in base 64. -/
theorem digits_lt {a b : Nat} (h : a < b) :
    a / 262144 < b / 262144 ∨ a / 262144 = b / 262144 ∧
      (a / 4096 % 64 < b / 4096 % 64 ∨ a / 4096 % 64 = b / 4096 % 64 ∧
        (a / 64 % 64 < b / 64 % 64 ∨ a / 64 % 64 = b / 64 % 64 ∧ a % 64 < b % 64)) := by
  rw [show a / 262144 = a / 64 / 64 / 64 by omega, show b / 262144 = b / 64 / 64 / 64 by omega,
    show a / 4096 = a / 64 / 64 by omega, show b / 4096 = b / 64 / 64 by omega]
  omega

theorem char_lt_bound (c : Char) : c.val.toNat < 0x110000 := by
  rcases c.valid with h | h
  · have := h
    omega
  · exact h.2

/-- Encodings of different characters differ before one of them ends, so what follows them does not
count. -/
theorem encode_append_lt {c d : Char} (h : c < d) (u v : List UInt8) :
    String.utf8EncodeChar c ++ u < String.utf8EncodeChar d ++ v := by
  have hlt : c.val.toNat < d.val.toNat := h
  have hd := char_lt_bound d
  unfold String.utf8EncodeChar
  generalize c.val.toNat = a at hlt
  generalize d.val.toNat = b at hlt hd
  have digits := digits_lt hlt
  have ha : a / 262144 % 8 = a / 262144 := by omega
  have hb : b / 262144 % 8 = b / 262144 := by omega
  -- one case for each pair of lengths; the longer encoding has the greater first byte
  dsimp only
  repeat' split
  all_goals try omega
  all_goals
    simp (disch := omega) only [List.cons_append, List.nil_append, List.cons_lt_cons_iff,
      ofNat_lt_ofNat, ofNat_eq_ofNat, ha, hb]
  all_goals omega

theorem flatMap_encode_lt {l m : List Char} (h : l < m) :
    l.flatMap String.utf8EncodeChar < m.flatMap String.utf8EncodeChar := by
  induction h with
  | @nil d ds =>
    have hne : String.utf8EncodeChar d ≠ [] := String.utf8EncodeChar_ne_nil
    rw [List.flatMap_nil, List.flatMap_cons]
    cases he : String.utf8EncodeChar d with
    | nil => exact absurd he hne
    | cons x xs => exact List.nil_lt_cons x _
  | rel hcd =>
    rw [List.flatMap_cons, List.flatMap_cons]
    exact encode_append_lt hcd _ _
  | @cons c ds es _ ih =>
    rw [List.flatMap_cons, List.flatMap_cons]
    generalize String.utf8EncodeChar c = p
    induction p with
    | nil => exact ih
    | cons x xs ihp => exact List.cons_lt_cons_iff.mpr (.inr ⟨rfl, ihp⟩)

theorem bytes_lt_bytes {s t : String} (h : s < t) : bytes s < bytes t := by
  rw [bytes_eq_flatMap, bytes_eq_flatMap]
  exact flatMap_encode_lt h

theorem lt_iff_bytes_lt {s t : String} : s < t ↔ bytes s < bytes t := by
  refine ⟨bytes_lt_bytes, fun h => ?_⟩
  rcases Std.lt_trichotomy s t with hlt | heq | hgt
  · exact hlt
  · rw [heq] at h
    exact absurd h (List.lt_irrefl _)
  · exact absurd (bytes_lt_bytes hgt) (List.lt_asymm h)

end Text

/-- Qualified names are ordered by their bytes. -/
theorem QName.lt_iff_bytes_lt {a b : QName} : a < b ↔ Text.bytes a.text < Text.bytes b.text :=
  Text.lt_iff_bytes_lt

end CodeConcepts
