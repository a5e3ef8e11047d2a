import HyperionVault.Lib.Fixed
import HyperionVault.Lib.Serde
import HyperionVault.Lib.Text
import Mathlib.Data.String.Basic

/-!
# Secret kinds, names, versions and rotation times

The value types of the core crate (`types.rs`, `rotation.rs`).

* `SecretKind`, `SecretFormat` : the two enumerations of a secret;
* `isValidSecretName`, `isValidSecretVersion` : what the write paths accept as a key;
* `isNormalizedSecretName` : what a request may name a new secret;
* `aadFor` : the associated data a version is sealed under;
* `nextRotationUnix`, `graceExpiryUnix`, `nextVersion` : times saturate, version numbers are checked.
-/

namespace HyperionVault
open Lib

inductive SecretKind where
  | manual
  | automatic
deriving DecidableEq

inductive SecretFormat where
  | opaqueValue
  | userpass
deriving DecidableEq

def maxSecretNameLen : Nat := 255

def minSecretVersion : Int32 := 1

/-- `[A-Za-z0-9-_/.]`, the alphabet of secret names. -/
def isNameChar (c : Char) : Bool := c.isAlphanum || c == '-' || c == '_' || c == '/' || c == '.'

def isValidSecretName (name : String) : Bool :=
  !name.isEmpty && name.utf8ByteSize ≤ maxSecretNameLen && name.toList.all isNameChar

/-- A valid name without empty, `.` or `..` segments and without a slash at either end. -/
def isNormalizedSecretName (name : String) : Bool :=
  isValidSecretName name && name.toList.head? != some '/' && name.toList.getLast? != some '/' &&
    (name.toList.splitOn '/').all fun segment => !segment.isEmpty && segment != ['.'] && segment != ['.', '.']

def isValidSecretVersion (version : Int32) : Bool := minSecretVersion ≤ version

/-- The name, a colon and the decimal version number. -/
def aadFor (name : String) (version : Int32) : Bytes :=
  utf8 name ++ utf8 ":" ++ utf8 (toString version.toInt)

/-- The associated data names one version of one secret, whatever the name contains. -/
theorem aadFor_inj {a b : String} {v w : Int32} (h : aadFor a v = aadFor b w) : a = b ∧ v = w := by
  unfold aadFor at h
  rw [← utf8_append, ← utf8_append, ← utf8_append, ← utf8_append] at h
  have hcolon : ∀ n : Int, ':' ∉ (toString n).toList := by
    intro n hmem
    rcases mem_toString_int hmem with hc | hc
    · exact absurd hc (by decide)
    · exact absurd hc (by decide)
  have hlist : a.toList ++ ':' :: (toString v.toInt).toList = b.toList ++ ':' :: (toString w.toInt).toList := by
    simpa using congrArg String.toList (utf8_inj h)
  obtain ⟨hname, hversion⟩ := append_cons_inj_of_notMem (hcolon _) (hcolon _) hlist
  exact ⟨String.toList_inj.mp hname, Int32.toInt_inj.mp (toString_int_inj hversion)⟩

def maxRotationIntervalSecs : Int64 := 100 * 365 * 24 * 60 * 60

def maxGraceSecs : Int64 := maxRotationIntervalSecs

def nextRotationUnix (fromUnix intervalSecs : Int64) : Int64 := satAdd fromUnix intervalSecs

def graceExpiryUnix (supersededAtUnix graceSecs : Int64) : Int64 := satAdd supersededAtUnix graceSecs

def nextVersion (current : Int32) : Option Int32 := checkedSucc current

/-- A valid name has no NUL, the separator of version keys. -/
theorem nul_notMem_of_isValidSecretName {name : String} (h : isValidSecretName name = true) :
    Char.ofNat 0 ∉ name.toList := by
  intro hmem
  simp only [isValidSecretName, Bool.and_eq_true, List.all_eq_true] at h
  exact absurd (h.2 _ hmem) (by decide)

theorem one_le_of_isValidSecretVersion {version : Int32} (h : isValidSecretVersion version = true) :
    1 ≤ version.toInt := by
  simpa [isValidSecretVersion, minSecretVersion, Int32.le_iff_toInt_le] using h

end HyperionVault
