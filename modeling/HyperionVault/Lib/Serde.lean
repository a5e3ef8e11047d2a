import Mathlib.Algebra.Group.Int.Defs
import Mathlib.Algebra.Group.Nat.Defs
import Mathlib.Data.List.Basic
import Mathlib.Order.Lattice

/-!
# Byte encodings

* `Bytes`, `utf8` : byte strings and the bytes of a text;
* `Serde α` : an encoding of `α` as bytes that decoding inverts (`decode_encode` is part of the type).
-/

namespace Lib

abbrev Bytes := List UInt8

/-- The UTF-8 bytes of a text. -/
def utf8 (s : String) : Bytes := s.toByteArray.data.toList

theorem utf8_ofList_cons (c : Char) (l : List Char) :
    utf8 (String.ofList (c :: l)) = utf8 (String.ofList [c]) ++ utf8 (String.ofList l) := by
  unfold utf8
  rw [String.toByteArray_ofList, List.utf8Encode_cons, String.toByteArray_ofList, String.toByteArray_ofList,
    ByteArray.data_append, Array.toList_append]

theorem fromUTF8_utf8 (s : String) : String.fromUTF8? ⟨(utf8 s).toArray⟩ = some s := by
  unfold String.fromUTF8? utf8
  rw [dif_pos s.isValidUTF8]
  rfl

theorem utf8_inj {s t : String} (h : utf8 s = utf8 t) : s = t := by
  have hread := congrArg (fun bytes => String.fromUTF8? ⟨bytes.toArray⟩) h
  simp only [fromUTF8_utf8] at hread
  exact Option.some.inj hread

theorem utf8_append (s t : String) : utf8 (s ++ t) = utf8 s ++ utf8 t := by
  simp [utf8]

/-- An encoding that decoding inverts. -/
structure Serde (α : Type) where
  encode : α → Bytes
  decode : Bytes → Option α
  decode_encode : ∀ a, decode (encode a) = some a

attribute [simp] Serde.decode_encode

end Lib
