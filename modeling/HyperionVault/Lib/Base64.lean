import HyperionVault.Lib.Serde
import HyperionVault.Lib.Text

/-!
# Base64

An engine that writes bytes as characters is a parameter; only what its users rely on is asked of it.

* `Base64` : the writer and the reader of one alphabet, with their laws;
* `trim_encode` : white space around a text does not matter;
* `wideEngine` : an engine for concrete runs.
-/

namespace Lib

structure Base64 where
  encode : Bytes → List Char
  decode : List Char → Option Bytes
  /-- What is written is read back. -/
  decode_encode : ∀ bytes, decode (encode bytes) = some bytes
  /-- No character of a text is white space. -/
  plain : ∀ bytes, ∀ c ∈ encode bytes, isWhiteSpace c = false
  /-- Only no bytes are written as no text. -/
  encode_ne_nil : ∀ bytes, bytes ≠ [] → encode bytes ≠ []

theorem Base64.trim_encode (B : Base64) (bytes : Bytes) {before after : List Char}
    (hbefore : ∀ c ∈ before, isWhiteSpace c = true) (hafter : ∀ c ∈ after, isWhiteSpace c = true) :
    trim (before ++ B.encode bytes ++ after) = B.encode bytes :=
  trim_surrounded hbefore (B.plain bytes) hafter

/-- Each byte as a character beyond Latin-1. -/
def wideChar (byte : UInt8) : Char := Char.ofNat (256 + byte.toNat)

theorem toNat_wideChar (byte : UInt8) : (wideChar byte).toNat = 256 + byte.toNat := by
  have hvalid : (256 + byte.toNat).isValidChar := Or.inl (by have := byte.toNat_lt; omega)
  rw [wideChar, Char.ofNat, dif_pos hvalid]
  rfl

theorem isWhiteSpace_wideChar (byte : UInt8) : isWhiteSpace (wideChar byte) = false := by
  have hlt := byte.toNat_lt
  simp [isWhiteSpace, toNat_wideChar]
  omega

def wideEngine : Base64 where
  encode bytes := bytes.map wideChar
  decode chars := some (chars.map fun c => UInt8.ofNat (c.toNat - 256))
  decode_encode bytes := by
    rw [List.map_map]
    simp [Function.comp_def, toNat_wideChar]
  plain bytes c hc := by
    obtain ⟨byte, _, rfl⟩ := List.mem_map.mp hc
    exact isWhiteSpace_wideChar byte
  encode_ne_nil bytes hne := by simpa using hne

end Lib
