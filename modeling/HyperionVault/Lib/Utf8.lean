import HyperionVault.Lib.Fixed
import HyperionVault.Lib.Serde
import Mathlib.Data.String.Basic

/-!
# The order of the UTF-8 bytes

UTF-8 keeps the order of the code points: texts compare by their bytes as by their characters.

* `encodeChar_append_lt` : the bytes of a smaller character come first, whatever follows;
* `utf8_lt_iff`, `utf8_le_iff` : the order of the bytes is the order of the texts.
-/

namespace Lib

theorem ofNat_lt_ofNat {a b : Nat} (ha : a < 256) (hb : b < 256) : UInt8.ofNat a < UInt8.ofNat b ↔ a < b := by
  rw [UInt8.lt_iff_toNat_lt, UInt8.toNat_ofNat_of_lt' ha, UInt8.toNat_ofNat_of_lt' hb]

theorem ofNat_eq_ofNat {a b : Nat} (ha : a < 256) (hb : b < 256) : UInt8.ofNat a = UInt8.ofNat b ↔ a = b := by
  rw [← UInt8.toNat_inj, UInt8.toNat_ofNat_of_lt' ha, UInt8.toNat_ofNat_of_lt' hb]

theorem toNat_lt_charRange (c : Char) : c.val.toNat < 0x110000 := by
  have hvalid := c.valid
  rw [UInt32.isValidChar, Nat.isValidChar] at hvalid
  omega

/-- The first bytes in which two characters differ are in the order of the characters. -/
theorem encodeChar_append_lt {c d : Char} (h : c < d) (l m : Bytes) :
    String.utf8EncodeChar c ++ l < String.utf8EncodeChar d ++ m := by
  have hlt : c.val.toNat < d.val.toNat := UInt32.lt_iff_toNat_lt.mp h
  have hmax := toNat_lt_charRange d
  unfold String.utf8EncodeChar
  generalize c.val.toNat = v at hlt ⊢
  generalize d.val.toNat = w at hlt hmax ⊢
  -- the six bits of a byte are a digit to the base 64
  have hdigits : ∀ n : Nat, n / 4096 = n / 64 / 64 ∧ n / 262144 = n / 64 / 64 / 64 := fun n => by
    rw [Nat.div_div_eq_div_mul, Nat.div_div_eq_div_mul]
    exact ⟨rfl, rfl⟩
  simp only [(hdigits _).1, (hdigits _).2]
  split_ifs
  all_goals
    simp (disch := omega) only [List.cons_append, List.nil_append, List.cons_lt_cons_iff, ofNat_lt_ofNat,
      ofNat_eq_ofNat]
    omega

theorem utf8_ofList (l : List Char) : utf8 (String.ofList l) = l.flatMap String.utf8EncodeChar := by
  rw [utf8, String.toByteArray_ofList, List.utf8Encode]
  simp

theorem flatMap_encodeChar_lt {l m : List Char} (h : l < m) :
    l.flatMap String.utf8EncodeChar < m.flatMap String.utf8EncodeChar := by
  induction h with
  | @nil c m =>
      obtain ⟨b, bytes, hb⟩ := List.exists_cons_of_ne_nil (String.utf8EncodeChar_ne_nil (c := c))
      rw [List.flatMap_cons, hb]
      exact List.nil_lt_cons _ _
  | rel h =>
      rw [List.flatMap_cons, List.flatMap_cons]
      exact encodeChar_append_lt h _ _
  | cons h ih =>
      rw [List.flatMap_cons, List.flatMap_cons]
      exact List.append_left_lt ih

theorem utf8_lt_of_lt {s t : String} (h : s < t) : utf8 s < utf8 t := by
  rw [← String.ofList_toList (s := s), ← String.ofList_toList (s := t), utf8_ofList, utf8_ofList]
  exact flatMap_encodeChar_lt (String.lt_iff_toList_lt.mp h)

theorem utf8_lt_iff {s t : String} : utf8 s < utf8 t ↔ s < t := by
  refine ⟨fun h => ?_, utf8_lt_of_lt⟩
  rcases lt_trichotomy s t with hst | rfl | hts
  · exact hst
  · exact absurd h (lt_irrefl _)
  · exact absurd h (lt_asymm (utf8_lt_of_lt hts))

theorem utf8_le_iff {s t : String} : utf8 s ≤ utf8 t ↔ s ≤ t := by
  rw [← not_lt, ← not_lt, utf8_lt_iff]

end Lib
