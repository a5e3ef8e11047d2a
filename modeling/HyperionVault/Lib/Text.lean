import Mathlib.Algebra.Group.Int.Defs
import Mathlib.Algebra.Group.Nat.Defs
import Mathlib.Data.List.Induction
import Mathlib.Order.Lattice

/-!
# Splitting and zero-padded decimals

* `splitOnce c l`, `rsplitOnce c l` : the text before and after the first or the last `c`;
* `zeroPad w l` : `l` filled with zeros on the left to the width `w`; a padded decimal reads back as
  its number (`ofDigitChars_zeroPad`), and decimals of one width are in the order of their numbers
  (`lt_of_ofDigitChars_lt`);
* `trim` : the text without the white space around it;
* `debugStr s` : the quoted and escaped form of a text in a message.
-/

namespace Lib

/-- The text before and after the first `c`. -/
def splitOnce (c : Char) : List Char → Option (List Char × List Char)
  | [] => none
  | a :: l => if a = c then some ([], l) else (splitOnce c l).map fun p => (a :: p.1, p.2)

/-- The text before and after the last `c`. -/
def rsplitOnce (c : Char) (l : List Char) : Option (List Char × List Char) :=
  (splitOnce c l.reverse).map fun p => (p.2.reverse, p.1.reverse)

theorem splitOnce_append {c : Char} {l : List Char} (h : c ∉ l) (r : List Char) :
    splitOnce c (l ++ c :: r) = some (l, r) := by
  induction l with
  | nil => simp [splitOnce]
  | cons a l ih =>
      obtain ⟨ha, hl⟩ := not_or.mp (List.mem_cons.not.mp h)
      rw [List.cons_append, splitOnce, if_neg (Ne.symm ha), ih hl]
      rfl

theorem append_of_splitOnce {c : Char} {l a b : List Char} (h : splitOnce c l = some (a, b)) : l = a ++ c :: b := by
  induction l generalizing a with
  | nil => cases h
  | cons x l ih =>
      rw [splitOnce] at h
      split_ifs at h with hx
      · cases h
        rw [hx]
        rfl
      · obtain ⟨p, hp, hpe⟩ := Option.map_eq_some_iff.mp h
        cases hpe
        rw [ih hp]
        rfl

theorem notMem_of_splitOnce {c : Char} {l a b : List Char} (h : splitOnce c l = some (a, b)) : c ∉ a := by
  induction l generalizing a with
  | nil => cases h
  | cons x l ih =>
      rw [splitOnce] at h
      split_ifs at h with hx
      · cases h
        exact List.not_mem_nil
      · obtain ⟨p, hp, hpe⟩ := Option.map_eq_some_iff.mp h
        cases hpe
        exact List.mem_cons.not.mpr (not_or.mpr ⟨Ne.symm hx, ih hp⟩)

/-- A text is determined by what stands before and after its last `c`. -/
theorem append_cons_inj_of_notMem {c : Char} {l m a b : List Char} (ha : c ∉ a) (hb : c ∉ b)
    (h : l ++ c :: a = m ++ c :: b) : l = m ∧ a = b := by
  have hrev : a.reverse ++ c :: l.reverse = b.reverse ++ c :: m.reverse := by
    simpa using congrArg List.reverse h
  have hsplit := splitOnce_append (mt List.mem_reverse.mp ha) l.reverse
  rw [hrev, splitOnce_append (mt List.mem_reverse.mp hb)] at hsplit
  obtain ⟨hab, hlm⟩ := Prod.mk.inj (Option.some.inj hsplit)
  exact ⟨(List.reverse_inj.mp hlm).symm, (List.reverse_inj.mp hab).symm⟩

/-! ## Decimals -/

theorem toDigits_inj {n m : Nat} (h : Nat.toDigits 10 n = Nat.toDigits 10 m) : n = m := by
  have hread := congrArg (fun l => Nat.ofDigitChars 10 l 0) h
  simpa [Nat.ofDigitChars_ten_toDigits] using hread

theorem toList_toString_ofNat (n : Nat) : (toString (Int.ofNat n)).toList = Nat.toDigits 10 n := by
  show (Nat.repr n).toList = _
  simp [Nat.repr]

theorem toList_toString_negSucc (n : Nat) : (toString (Int.negSucc n)).toList = '-' :: Nat.toDigits 10 (n + 1) := by
  show ("-" ++ Nat.repr (n + 1)).toList = _
  simp [Nat.repr]

/-- A printed number consists of digits and a sign. -/
theorem mem_toString_int {n : Int} {c : Char} (h : c ∈ (toString n).toList) : c = '-' ∨ c.isDigit = true := by
  cases n with
  | ofNat n =>
      rw [toList_toString_ofNat] at h
      exact Or.inr (Nat.isDigit_of_mem_toDigits (by decide) (by decide) h)
  | negSucc n =>
      rw [toList_toString_negSucc] at h
      rcases List.mem_cons.mp h with h | h
      · exact Or.inl h
      · exact Or.inr (Nat.isDigit_of_mem_toDigits (by decide) (by decide) h)

theorem head_toDigits_ne_minus (n : Nat) (l : List Char) : Nat.toDigits 10 n ≠ '-' :: l := by
  intro h
  have hmem : '-' ∈ Nat.toDigits 10 n := h ▸ List.mem_cons_self
  exact absurd (Nat.isDigit_of_mem_toDigits (by decide) (by decide) hmem) (by decide)

theorem toString_int_inj {n m : Int} (h : (toString n).toList = (toString m).toList) : n = m := by
  cases n with
  | ofNat n =>
      rw [toList_toString_ofNat] at h
      cases m with
      | ofNat m =>
          rw [toList_toString_ofNat] at h
          rw [toDigits_inj h]
      | negSucc m =>
          rw [toList_toString_negSucc] at h
          exact absurd h (head_toDigits_ne_minus _ _)
  | negSucc n =>
      rw [toList_toString_negSucc] at h
      cases m with
      | ofNat m =>
          rw [toList_toString_ofNat] at h
          exact absurd h.symm (head_toDigits_ne_minus _ _)
      | negSucc m =>
          rw [toList_toString_negSucc] at h
          rw [Nat.succ.inj (toDigits_inj (List.cons.inj h).2)]

/-- Zeros on the left up to the width `w`. -/
def zeroPad (w : Nat) (l : List Char) : List Char := List.replicate (w - l.length) '0' ++ l

theorem length_zeroPad {w : Nat} {l : List Char} (h : l.length ≤ w) : (zeroPad w l).length = w := by
  rw [zeroPad, List.length_append, List.length_replicate]
  omega

theorem ofDigitChars_zeroPad (w n : Nat) : Nat.ofDigitChars 10 (zeroPad w (Nat.toDigits 10 n)) 0 = n := by
  rw [zeroPad, Nat.ofDigitChars_append, Nat.ofDigitChars_replicate_zero, Nat.mul_zero,
    Nat.ofDigitChars_ten_toDigits]

theorem isDigit_zeroPad {w : Nat} {l : List Char} (h : ∀ c ∈ l, c.isDigit = true) :
    ∀ c ∈ zeroPad w l, c.isDigit = true := by
  intro c hc
  rcases List.mem_append.mp hc with hc | hc
  · rw [List.eq_of_mem_replicate hc]
    rfl
  · exact h c hc

theorem toNat_of_isDigit {c : Char} (h : c.isDigit = true) : '0'.toNat ≤ c.toNat ∧ c.toNat < '0'.toNat + 10 := by
  simp only [Char.isDigit, Bool.and_eq_true, decide_eq_true_eq, ge_iff_le] at h
  obtain ⟨hlo, hhi⟩ := h
  have hlo' := UInt32.le_iff_toNat_le.mp hlo
  have hhi' := UInt32.le_iff_toNat_le.mp hhi
  exact ⟨hlo', Nat.lt_succ_of_le hhi'⟩

theorem ofDigitChars_snoc (l : List Char) (c : Char) :
    Nat.ofDigitChars 10 (l ++ [c]) 0 = 10 * Nat.ofDigitChars 10 l 0 + (c.toNat - '0'.toNat) := by
  rw [Nat.ofDigitChars_append]
  simp [Nat.ofDigitChars]

/-- Texts of equally many digits that read as the same number are the same. -/
theorem ofDigitChars_inj {l m : List Char} (hl : ∀ c ∈ l, c.isDigit = true) (hm : ∀ c ∈ m, c.isDigit = true)
    (hlen : l.length = m.length) (h : Nat.ofDigitChars 10 l 0 = Nat.ofDigitChars 10 m 0) : l = m := by
  induction l using List.reverseRecOn generalizing m with
  | nil => exact (List.length_eq_zero_iff.mp hlen.symm).symm
  | append_singleton l c ih =>
      rcases List.eq_nil_or_concat m with rfl | ⟨m, d, rfl⟩
      · simp at hlen
      · rw [List.concat_eq_append] at h hm hlen ⊢
        rw [ofDigitChars_snoc, ofDigitChars_snoc] at h
        obtain ⟨hc, hc'⟩ := toNat_of_isDigit (hl c (by simp))
        obtain ⟨hd, hd'⟩ := toNat_of_isDigit (hm d (by simp))
        have hcd : c = d := Char.toNat_inj.mp (by omega)
        have hrest : l = m := by
          refine ih (fun x hx => hl x (by simp [hx])) (fun x hx => hm x (by simp [hx])) ?_ (by omega)
          simpa using hlen
        rw [hcd, hrest]

theorem ofDigitChars_zero_cons (c : Char) (l : List Char) :
    Nat.ofDigitChars 10 (c :: l) 0 = 10 ^ l.length * (c.toNat - '0'.toNat) + Nat.ofDigitChars 10 l 0 := by
  rw [Nat.ofDigitChars_cons, Nat.ofDigitChars_eq_ofDigitChars_zero, Nat.mul_zero, Nat.zero_add]

theorem ofDigitChars_lt_pow {l : List Char} (hl : ∀ c ∈ l, c.isDigit = true) :
    Nat.ofDigitChars 10 l 0 < 10 ^ l.length := by
  induction l with
  | nil => decide
  | cons c l ih =>
      have hrest := ih fun d hd => hl d (List.mem_cons_of_mem _ hd)
      obtain ⟨hlo, hhi⟩ := toNat_of_isDigit (hl c List.mem_cons_self)
      have hdigit : 10 ^ l.length * (c.toNat - '0'.toNat) ≤ 10 ^ l.length * 9 :=
        Nat.mul_le_mul_left _ (by omega)
      rw [ofDigitChars_zero_cons, List.length_cons, Nat.pow_succ]
      omega

/-- Texts of equally many digits are in the order of their numbers. -/
theorem lt_of_ofDigitChars_lt {l m : List Char} (hl : ∀ c ∈ l, c.isDigit = true) (hm : ∀ c ∈ m, c.isDigit = true)
    (hlen : l.length = m.length) (h : Nat.ofDigitChars 10 l 0 < Nat.ofDigitChars 10 m 0) : l < m := by
  induction l generalizing m with
  | nil =>
      cases List.length_eq_zero_iff.mp hlen.symm
      exact absurd h (Nat.lt_irrefl _)
  | cons c l ih =>
      cases m with
      | nil => cases hlen
      | cons d m =>
          have hl' : ∀ x ∈ l, x.isDigit = true := fun x hx => hl x (List.mem_cons_of_mem _ hx)
          have hm' : ∀ x ∈ m, x.isDigit = true := fun x hx => hm x (List.mem_cons_of_mem _ hx)
          have hlen' : l.length = m.length := Nat.succ.inj hlen
          rw [ofDigitChars_zero_cons, ofDigitChars_zero_cons, hlen'] at h
          rw [List.cons_lt_cons_iff]
          rcases Nat.lt_trichotomy c.toNat d.toNat with hcd | hcd | hcd
          · exact Or.inl (UInt32.lt_iff_toNat_lt.mpr hcd)
          · rw [hcd] at h
            exact Or.inr ⟨Char.toNat_inj.mp hcd, ih hl' hm' hlen' (Nat.lt_of_add_lt_add_left h)⟩
          · -- a larger first digit outweighs all that follows
            exfalso
            have hrest := ofDigitChars_lt_pow hm'
            have hd := (toNat_of_isDigit (hm d List.mem_cons_self)).1
            have hdigit : 10 ^ m.length * (d.toNat - '0'.toNat + 1) ≤ 10 ^ m.length * (c.toNat - '0'.toNat) :=
              Nat.mul_le_mul_left _ (by omega)
            rw [Nat.mul_succ] at hdigit
            omega

/-! ## White space -/

/-- The characters with the Unicode property `White_Space`. -/
def isWhiteSpace (c : Char) : Bool :=
  (9 ≤ c.toNat && c.toNat ≤ 13) || (0x2000 ≤ c.toNat && c.toNat ≤ 0x200a) ||
    [0x20, 0x85, 0xa0, 0x1680, 0x2028, 0x2029, 0x202f, 0x205f, 0x3000].contains c.toNat

/-- The text without the white space around it. -/
def trim (text : List Char) : List Char :=
  ((text.dropWhile isWhiteSpace).reverse.dropWhile isWhiteSpace).reverse

theorem dropWhile_append_of_all {α : Type} {p : α → Bool} {before : List α} (h : ∀ a ∈ before, p a = true)
    (rest : List α) : (before ++ rest).dropWhile p = rest.dropWhile p := by
  induction before with
  | nil => rfl
  | cons a before ih =>
      rw [List.cons_append, List.dropWhile_cons_of_pos (h a List.mem_cons_self)]
      exact ih fun a' ha' => h a' (List.mem_cons_of_mem _ ha')

theorem dropWhile_of_none {α : Type} {p : α → Bool} {l : List α} (h : ∀ a ∈ l, p a = false) : l.dropWhile p = l := by
  cases l with
  | nil => rfl
  | cons a l =>
      rw [List.dropWhile_cons_of_neg]
      rw [h a List.mem_cons_self]
      exact Bool.false_ne_true

/-- White space around a text without any is trimmed away. -/
theorem trim_surrounded {before text after : List Char} (hbefore : ∀ c ∈ before, isWhiteSpace c = true)
    (htext : ∀ c ∈ text, isWhiteSpace c = false) (hafter : ∀ c ∈ after, isWhiteSpace c = true) :
    trim (before ++ text ++ after) = text := by
  unfold trim
  rw [List.append_assoc, dropWhile_append_of_all hbefore]
  cases text with
  | nil =>
      rw [List.nil_append, ← List.append_nil after, dropWhile_append_of_all hafter]
      rfl
  | cons c text =>
      have hfirst : (c :: text ++ after).dropWhile isWhiteSpace = c :: text ++ after := by
        rw [List.cons_append, List.dropWhile_cons_of_neg]
        rw [htext c List.mem_cons_self]
        exact Bool.false_ne_true
      rw [hfirst, List.reverse_append, dropWhile_append_of_all fun c hc => hafter c (List.mem_reverse.mp hc),
        dropWhile_of_none fun c hc => htext c (List.mem_reverse.mp hc), List.reverse_reverse]

/-! ## Messages -/

/-- One character of a quoted text. Control characters are written as code points; `Debug` of the source does so for
every character that is not printable or extends the one before, so the two differ on texts with such characters. -/
def debugChar (c : Char) : String :=
  if c = '\t' then "\\t" else if c = '\r' then "\\r" else if c = '\n' then "\\n"
  else if c = '"' then "\\\"" else if c = '\\' then "\\\\" else if c = Char.ofNat 0 then "\\0"
  else if c.toNat < 32 ∨ (127 ≤ c.toNat ∧ c.toNat < 160) then
    "\\u\x7b" ++ String.ofList (Nat.toDigits 16 c.toNat) ++ "\x7d"
  else c.toString

/-- A text quoted and escaped for a message. -/
def debugStr (s : String) : String := "\"" ++ String.join (s.toList.map debugChar) ++ "\""

end Lib
