import HyperionVault.Store.Model
import HyperionVault.Lib.Text
import HyperionVault.Lib.Utf8

/-!
# Keys of the version table

A version row is stored under its secret's name, a NUL and the version number in ten digits
(`store/engine.rs`). Keys compare by bytes, which for UTF-8 is the order of the code points (`utf8_lt_iff`).

* `versionKey`, `versionLower`, `versionUpper` : a row's key and the scan range of a secret;
* `splitVersionKey`, `versionFromKey` : reading a key back;
* `splitVersionKey_versionKey` : the key of a NUL-free name and a version from 0 on reads back as itself;
* `versionLower_le`, `versionKey_lt_versionUpper` : the scan range of a secret holds its keys;
* `version_keys_exact` : which texts are keys, whose keys they are, and in which order the rows stand.
-/

namespace HyperionVault
open Lib

/-- The separator between name and version. -/
def nul : Char := Char.ofNat 0

def versionFieldWidth : Nat := 10

/-- `{version:010}`: the sign counts towards the width. -/
def versionField (version : Int32) : List Char :=
  if 0 ≤ version.toInt then zeroPad versionFieldWidth (Nat.toDigits 10 version.toInt.natAbs)
  else '-' :: zeroPad (versionFieldWidth - 1) (Nat.toDigits 10 version.toInt.natAbs)

def versionKey (name : String) (version : Int32) : String := name ++ String.ofList (nul :: versionField version)

def versionLower (name : String) : String := name ++ String.ofList [nul]

def versionUpper (name : String) : String := name ++ String.ofList [Char.ofNat 1]

/-- `str::parse::<i32>` on a text of digits. -/
def parseI32 (digits : List Char) : Option Int32 :=
  if Nat.ofDigitChars 10 digits 0 < 2 ^ 31 then some (Int32.ofNat (Nat.ofDigitChars 10 digits 0)) else none

def splitVersionKey (key : String) : Option (String × Int32) :=
  match splitOnce nul key.toList with
  | none => none
  | some (name, rest) =>
      -- a text of ASCII digits has as many bytes as characters
      if rest.length ≠ versionFieldWidth || !rest.all Char.isDigit then none
      else (parseI32 rest).map fun version => (String.ofList name, version)

def versionFromKey (name key : String) : Option Int32 :=
  match splitVersionKey key with
  | none => none
  | some (parsed, version) => if parsed = name then some version else none

/-! ## Reading a key back -/

theorem toList_versionKey (name : String) (version : Int32) :
    (versionKey name version).toList = name.toList ++ nul :: versionField version := by
  rw [versionKey, String.toList_append, String.toList_ofList]

section Fields
variable {name key : String} {version : Int32}

theorem versionKey_left_inj {a b : String} (h : versionKey a version = versionKey b version) :
    a = b := by
  have hlist := congrArg String.toList h
  rw [toList_versionKey, toList_versionKey] at hlist
  exact String.toList_inj.mp (List.append_cancel_right hlist)

theorem natAbs_lt_of_nonneg (h : 0 ≤ version.toInt) : version.toInt.natAbs < 2 ^ 31 := by
  have hlt := Int32.toInt_lt version
  omega

theorem versionField_of_nonneg (h : 0 ≤ version.toInt) :
    versionField version = zeroPad versionFieldWidth (Nat.toDigits 10 version.toInt.natAbs) := if_pos h

theorem length_versionField (h : 0 ≤ version.toInt) :
    (versionField version).length = versionFieldWidth := by
  rw [versionField_of_nonneg h]
  apply length_zeroPad
  have hlt := natAbs_lt_of_nonneg h
  rw [Nat.length_toDigits_le_iff (by decide) (by decide)]
  exact lt_trans hlt (by decide)

theorem isDigit_versionField (h : 0 ≤ version.toInt) :
    (versionField version).all Char.isDigit = true := by
  rw [versionField_of_nonneg h, List.all_eq_true]
  exact isDigit_zeroPad fun c hc => Nat.isDigit_of_mem_toDigits (by decide) (by decide) hc

theorem parseI32_versionField (h : 0 ≤ version.toInt) :
    parseI32 (versionField version) = some version := by
  have hlt := natAbs_lt_of_nonneg h
  rw [parseI32, versionField_of_nonneg h, ofDigitChars_zeroPad, if_pos hlt]
  congr 1
  apply Int32.toInt_inj.mp
  rw [Int32.toInt_ofNat_of_lt (by simpa using hlt)]
  omega

/-- A key reads back as its name and version. -/
theorem splitVersionKey_versionKey (hname : nul ∉ name.toList)
    (h : 0 ≤ version.toInt) : splitVersionKey (versionKey name version) = some (name, version) := by
  rw [splitVersionKey, toList_versionKey, splitOnce_append hname]
  simp only [length_versionField h, isDigit_versionField h, parseI32_versionField h, ne_eq, not_true_eq_false,
    decide_false, Bool.not_true, Bool.or_self, Bool.false_eq_true, if_false, Option.map_some,
    String.ofList_toList]

theorem versionFromKey_versionKey (hname : nul ∉ name.toList)
    (h : 0 ≤ version.toInt) : versionFromKey name (versionKey name version) = some version := by
  rw [versionFromKey, splitVersionKey_versionKey hname h]
  simp only [if_true]

/-- Only the key of a version reads as that version. -/
theorem eq_versionKey_of_splitVersionKey
    (h : splitVersionKey key = some (name, version)) : key = versionKey name version ∧ 0 ≤ version.toInt := by
  rw [splitVersionKey] at h
  cases hsplit : splitOnce nul key.toList with
  | none => simp [hsplit] at h
  | some p =>
      obtain ⟨l, digits⟩ := p
      simp only [hsplit] at h
      split_ifs at h with hform
      simp only [Bool.or_eq_true, decide_eq_true_eq, Bool.not_eq_true', not_or, not_not, Bool.not_eq_false] at hform
      obtain ⟨hlen, hdigits⟩ := hform
      obtain ⟨v, hparse, hpair⟩ := Option.map_eq_some_iff.mp h
      cases hpair
      rw [parseI32] at hparse
      split_ifs at hparse with hlt
      cases hparse
      have hint : (Int32.ofNat (Nat.ofDigitChars 10 digits 0)).toInt = Nat.ofDigitChars 10 digits 0 :=
        Int32.toInt_ofNat_of_lt (by simpa using hlt)
      have hnonneg : 0 ≤ (Int32.ofNat (Nat.ofDigitChars 10 digits 0)).toInt := by
        rw [hint]
        exact Int.natCast_nonneg _
      refine ⟨?_, hnonneg⟩
      have hfield : versionField (Int32.ofNat (Nat.ofDigitChars 10 digits 0)) = digits := by
        refine ofDigitChars_inj ?_ (List.all_eq_true.mp hdigits) ?_ ?_
        · exact List.all_eq_true.mp (isDigit_versionField hnonneg)
        · rw [length_versionField hnonneg, hlen]
        · rw [versionField_of_nonneg hnonneg, ofDigitChars_zeroPad, hint, Int.natAbs_natCast]
      apply String.toList_inj.mp
      rw [toList_versionKey, hfield, append_of_splitOnce hsplit, String.toList_ofList]

theorem eq_versionKey_of_versionFromKey
    (h : versionFromKey name key = some version) : key = versionKey name version ∧ 0 ≤ version.toInt := by
  rw [versionFromKey] at h
  split at h
  · cases h
  · rename_i parsed v hsplit
    split_ifs at h with hname
    cases h
    rw [← hname]
    exact eq_versionKey_of_splitVersionKey hsplit

theorem nul_notMem_of_splitVersionKey (h : splitVersionKey key = some (name, version)) : nul ∉ name.toList := by
  unfold splitVersionKey at h
  cases hsplit : splitOnce nul key.toList with
  | none => simp [hsplit] at h
  | some parts =>
      have hnul := notMem_of_splitOnce hsplit
      rw [hsplit] at h
      dsimp only at h
      split_ifs at h
      obtain ⟨number, _, hpair⟩ := Option.map_eq_some_iff.mp h
      cases hpair
      rwa [String.toList_ofList]

theorem nul_notMem_of_versionFromKey (h : versionFromKey name key = some version) : nul ∉ name.toList := by
  rw [versionFromKey] at h
  split at h
  · cases h
  · rename_i parsed v hsplit
    split_ifs at h with hname
    rw [← hname]
    exact nul_notMem_of_splitVersionKey hsplit

end Fields

theorem nul_notMem_versionField (version : Int32) : nul ∉ versionField version := by
  have hdigits : ∀ w n, nul ∉ zeroPad w (Nat.toDigits 10 n) := fun w n hmem => by
    have hdigit := isDigit_zeroPad (fun c hc => Nat.isDigit_of_mem_toDigits (by decide) (by decide) hc) nul hmem
    revert hdigit
    decide
  unfold versionField
  split_ifs
  · exact hdigits _ _
  · intro hmem
    rcases List.mem_cons.mp hmem with hminus | hmem
    · revert hminus
      decide
    · exact hdigits _ _ hmem

/-- Keys of different names differ, whatever the names are. -/
theorem name_eq_of_versionKey_eq {a b : String} {v w : Int32} (h : versionKey a v = versionKey b w) : a = b := by
  have hlist := congrArg String.toList h
  rw [toList_versionKey, toList_versionKey] at hlist
  exact String.toList_inj.mp
    (append_cons_inj_of_notMem (nul_notMem_versionField v) (nul_notMem_versionField w) hlist).1

theorem versionKey_inj {a b : String} {v w : Int32} (ha : nul ∉ a.toList) (hb : nul ∉ b.toList)
    (hv : 0 ≤ v.toInt) (hw : 0 ≤ w.toInt) (h : versionKey a v = versionKey b w) : a = b ∧ v = w := by
  have hs := splitVersionKey_versionKey ha hv
  rw [h, splitVersionKey_versionKey hb hw] at hs
  cases hs
  exact ⟨rfl, rfl⟩

/-- Only the rows of `name` are read as its versions. -/
theorem eq_of_versionFromKey {name other : String} {version v : Int32} (hother : nul ∉ other.toList)
    (h : 0 ≤ version.toInt) (hv : versionFromKey name (versionKey other version) = some v) :
    other = name ∧ v = version := by
  rw [versionFromKey, splitVersionKey_versionKey hother h] at hv
  simp only at hv
  split_ifs at hv with hn
  cases hv
  exact ⟨hn, rfl⟩

/-! ## Scan ranges -/

theorem append_ofList_lt {name : String} {l l' : List Char} (h : l < l') :
    name ++ String.ofList l < name ++ String.ofList l' := by
  rw [String.lt_iff_toList_lt, String.toList_append, String.toList_append, String.toList_ofList,
    String.toList_ofList]
  exact List.append_left_lt h

theorem versionLower_le (name : String) (version : Int32) : versionLower name ≤ versionKey name version := by
  by_cases he : versionField version = []
  · rw [versionLower, versionKey, he]
  · apply le_of_lt
    apply append_ofList_lt
    obtain ⟨c, l, hl⟩ := List.exists_cons_of_ne_nil he
    rw [hl]
    exact List.cons_lt_cons_iff.mpr (Or.inr ⟨rfl, List.nil_lt_cons _ _⟩)

theorem versionKey_lt_versionUpper (name : String) (version : Int32) : versionKey name version < versionUpper name := by
  apply append_ofList_lt
  exact List.cons_lt_cons_iff.mpr (Or.inl (by decide))

/-- The rows of a secret are stored in the order of its versions. -/
theorem versionKey_lt_versionKey (name : String) {v w : Int32} (hv : 0 ≤ v.toInt) (h : v.toInt < w.toInt) :
    versionKey name v < versionKey name w := by
  have hw : 0 ≤ w.toInt := le_trans hv (le_of_lt h)
  apply append_ofList_lt
  rw [List.cons_lt_cons_iff]
  refine Or.inr ⟨rfl, lt_of_ofDigitChars_lt ?_ ?_ ?_ ?_⟩
  · exact List.all_eq_true.mp (isDigit_versionField hv)
  · exact List.all_eq_true.mp (isDigit_versionField hw)
  · rw [length_versionField hv, length_versionField hw]
  · rw [versionField_of_nonneg hv, versionField_of_nonneg hw, ofDigitChars_zeroPad, ofDigitChars_zeroPad]
    omega

/-! ## The key codec -/

/-- What the keys of versions from 0 on are, that no name reads the key of another, and that the rows of a secret lie
in its scan range in the order of their versions. -/
theorem version_keys_exact :
    (∀ (key name : String) (version : Int32), splitVersionKey key = some (name, version) ↔
      nul ∉ name.toList ∧ 0 ≤ version.toInt ∧ version.toInt ≤ 2 ^ 31 - 1 ∧ key = versionKey name version) ∧
    (∀ (a b : String) (version : Int32), a ≠ b → versionFromKey a (versionKey b version) = none) ∧
    (∀ (name : String) (v w : Int32), nul ∉ name.toList → 0 ≤ v.toInt → v.toInt < w.toInt →
      w.toInt ≤ 2 ^ 31 - 1 →
        utf8 (versionLower name) ≤ utf8 (versionKey name v) ∧
        utf8 (versionKey name v) < utf8 (versionKey name w) ∧
        utf8 (versionKey name w) < utf8 (versionUpper name)) := by
  refine ⟨fun key name version => ⟨fun h => ?_, fun h => ?_⟩, fun a b version hne => ?_, fun name v w _ hv h _ => ?_⟩
  · obtain ⟨hkey, hnonneg⟩ := eq_versionKey_of_splitVersionKey h
    have hlt := Int32.toInt_lt version
    exact ⟨nul_notMem_of_splitVersionKey h, hnonneg, by omega, hkey⟩
  · obtain ⟨hname, hnonneg, _, rfl⟩ := h
    exact splitVersionKey_versionKey hname hnonneg
  · -- the key would be one of `a` as well
    cases hread : versionFromKey a (versionKey b version) with
    | none => rfl
    | some v => exact absurd (name_eq_of_versionKey_eq (eq_versionKey_of_versionFromKey hread).1).symm hne
  · exact ⟨utf8_le_iff.mpr (versionLower_le name v), utf8_lt_iff.mpr (versionKey_lt_versionKey name hv h),
      utf8_lt_iff.mpr (versionKey_lt_versionUpper name w)⟩

/-- Versions 9 and 10, and a name with a separator in it whose key begins like one of `a`. -/
theorem keys_of_nine_and_ten :
    splitVersionKey (versionKey "a" 9) = some ("a", 9) ∧
    versionFromKey "a" (versionKey (versionKey "a" 1) (-2147483648)) = none ∧
    utf8 (versionLower "a") ≤ utf8 (versionKey "a" 9) ∧ utf8 (versionKey "a" 9) < utf8 (versionKey "a" 10) ∧
    utf8 (versionKey "a" 10) < utf8 (versionUpper "a") :=
  ⟨(version_keys_exact.1 _ _ _).mpr ⟨by decide, by decide, by decide, rfl⟩,
    version_keys_exact.2.1 _ _ _ (by decide),
    version_keys_exact.2.2 _ _ _ (by decide) (by decide) (by decide) (by decide)⟩

end HyperionVault
