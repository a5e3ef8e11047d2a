import HyperionVault.Lib.Serde
import Mathlib.Data.String.Basic

/-!
# Compact JSON forms

A JSON form of a type prints its values without white space and reads exactly what it prints, whatever
delimiter follows.

* `Json α` : printing and reading, with the law that reading inverts printing;
* `Json.nat`, `Json.int`, `Json.bool`, `Json.string` : the scalars;
* `Json.option`, `Json.list`, `Json.pair` : `null` or a value, arrays, arrays of two;
* `Json.int64`, `Json.bytes`, ... : fixed-width numbers and byte strings;
* `Json.field`, `Json.and`, `Json.object` : objects, field by field, and `Json.iso` to give the fields
  a type of their own;
* `Json.either`, `Json.variant` : alternatives, and values of several kinds;
* `Json.serde` : the UTF-8 bytes of the form, read as a whole.
-/

namespace Lib

/-! ## Reading after a value -/

def isDelimiter (c : Char) : Bool := c = ',' || c = ']' || c = '}'

/-- Nothing follows, or a delimiter. -/
def Delimited (rest : List Char) : Prop := ∀ c l, rest = c :: l → isDelimiter c = true

theorem delimited_nil : Delimited [] := by
  intro c l h
  cases h

theorem delimited_cons {c : Char} (h : isDelimiter c = true) (l : List Char) : Delimited (c :: l) := by
  intro c' l' he
  cases he
  exact h

structure Json (α : Type) where
  print : α → List Char
  parse : List Char → Option (α × List Char)
  opens : ∀ a, ∃ c l, print a = c :: l ∧ isDelimiter c = false
  parse_print : ∀ a rest, Delimited rest → parse (print a ++ rest) = some (a, rest)

/-- Read a fixed text. -/
def expect : List Char → List Char → Option (List Char)
  | [], cs => some cs
  | _ :: _, [] => none
  | a :: as, c :: cs => if a = c then expect as cs else none

theorem expect_append (text rest : List Char) : expect text (text ++ rest) = some rest := by
  induction text with
  | nil => rfl
  | cons a text ih => rw [List.cons_append, expect, if_pos rfl, ih]

namespace Json
variable {α β : Type}

/-! ## Numbers and booleans -/

def parseNat (cs : List Char) : Option (Nat × List Char) :=
  if cs.takeWhile Char.isDigit = [] then none
  else some (Nat.ofDigitChars 10 (cs.takeWhile Char.isDigit) 0, cs.dropWhile Char.isDigit)

theorem isDigit_of_delimited {rest : List Char} (h : Delimited rest) :
    rest.takeWhile Char.isDigit = [] ∧ rest.dropWhile Char.isDigit = rest := by
  cases rest with
  | nil => exact ⟨rfl, rfl⟩
  | cons c l =>
      have hc : c.isDigit = false := by
        have hd := h c l rfl
        simp only [isDelimiter, Bool.or_eq_true, decide_eq_true_eq] at hd
        rcases hd with (rfl | rfl) | rfl <;> rfl
      rw [List.takeWhile_cons_of_neg (by simp [hc]), List.dropWhile_cons_of_neg (by simp [hc])]
      exact ⟨rfl, rfl⟩

theorem parseNat_toDigits (n : Nat) {rest : List Char} (h : Delimited rest) :
    parseNat (Nat.toDigits 10 n ++ rest) = some (n, rest) := by
  have hdigits : ∀ c ∈ Nat.toDigits 10 n, c.isDigit = true := fun c hc =>
    Nat.isDigit_of_mem_toDigits (by decide) (by decide) hc
  obtain ⟨htake, hdrop⟩ := isDigit_of_delimited h
  unfold parseNat
  rw [List.takeWhile_append_of_pos hdigits, htake, List.append_nil, if_neg Nat.toDigits_ne_nil,
    List.dropWhile_append_of_pos hdigits, hdrop, Nat.ofDigitChars_toDigits (by decide) (by decide)]

theorem toDigits_opens (n : Nat) : ∃ c l, Nat.toDigits 10 n = c :: l ∧ c.isDigit = true := by
  cases hd : Nat.toDigits 10 n with
  | nil => exact absurd hd Nat.toDigits_ne_nil
  | cons c l =>
      exact ⟨c, l, rfl, Nat.isDigit_of_mem_toDigits (b := 10) (n := n) (by decide) (by decide)
        (hd ▸ List.mem_cons_self)⟩

theorem not_delimiter_of_isDigit {c : Char} (h : c.isDigit = true) : isDelimiter c = false := by
  cases hd : isDelimiter c with
  | false => rfl
  | true =>
      simp only [isDelimiter, Bool.or_eq_true, decide_eq_true_eq] at hd
      rcases hd with (rfl | rfl) | rfl <;> cases h

def nat : Json Nat where
  print := Nat.toDigits 10
  parse := parseNat
  opens n := by
    obtain ⟨c, l, hd, hc⟩ := toDigits_opens n
    exact ⟨c, l, hd, not_delimiter_of_isDigit hc⟩
  parse_print n _ h := parseNat_toDigits n h

def parseInt (cs : List Char) : Option (Int × List Char) :=
  match cs with
  | '-' :: cs => (parseNat cs).map fun p => (-(p.1 : Int), p.2)
  | cs => (parseNat cs).map fun p => ((p.1 : Int), p.2)

def printInt (n : Int) : List Char :=
  if n < 0 then '-' :: Nat.toDigits 10 n.natAbs else Nat.toDigits 10 n.natAbs

theorem parseInt_printInt (n : Int) {rest : List Char} (h : Delimited rest) :
    parseInt (printInt n ++ rest) = some (n, rest) := by
  unfold printInt
  split_ifs with hn
  · rw [List.cons_append]
    simp only [parseInt, parseNat_toDigits _ h, Option.map_some, Option.some.injEq, Prod.mk.injEq, and_true]
    omega
  · obtain ⟨c, l, hd, hc⟩ := toDigits_opens n.natAbs
    have hparse := parseNat_toDigits n.natAbs h
    rw [hd, List.cons_append] at hparse ⊢
    have hminus : c ≠ '-' := by
      rintro rfl
      cases hc
    unfold parseInt
    split
    · rename_i heq
      exact absurd (List.cons.inj heq).1 hminus
    · rw [hparse]
      simp only [Option.map_some, Option.some.injEq, Prod.mk.injEq, and_true]
      omega

def int : Json Int where
  print := printInt
  parse := parseInt
  opens n := by
    unfold printInt
    split_ifs
    · exact ⟨'-', _, rfl, rfl⟩
    · obtain ⟨c, l, hd, hc⟩ := toDigits_opens n.natAbs
      exact ⟨c, l, hd, not_delimiter_of_isDigit hc⟩
  parse_print n _ h := parseInt_printInt n h

def bool : Json Bool where
  print b := if b then "true".toList else "false".toList
  parse cs :=
    match expect "true".toList cs with
    | some rest => some (true, rest)
    | none => (expect "false".toList cs).map fun rest => (false, rest)
  opens b := by
    cases b with
    | true => exact ⟨'t', ['r', 'u', 'e'], by decide, by decide⟩
    | false => exact ⟨'f', ['a', 'l', 's', 'e'], by decide, by decide⟩
  parse_print b rest _ := by
    cases b with
    | true =>
        rw [if_pos rfl]
        simp only [expect_append]
    | false =>
        have hno : expect "true".toList ("false".toList ++ rest) = none := rfl
        rw [if_neg Bool.false_ne_true, hno]
        simp only [expect_append, Option.map_some]

/-! ## Strings -/

def hexDigit (n : Nat) : Char := Nat.digitChar n

def unhex (c : Char) : Option Nat := (List.range 16).find? fun n => hexDigit n = c

/-- One character as it stands in a JSON string. -/
def escapeChar (c : Char) : List Char :=
  if c = '"' then ['\\', '"'] else if c = '\\' then ['\\', '\\']
  else if c = Char.ofNat 8 then ['\\', 'b'] else if c = Char.ofNat 9 then ['\\', 't']
  else if c = Char.ofNat 10 then ['\\', 'n'] else if c = Char.ofNat 12 then ['\\', 'f']
  else if c = Char.ofNat 13 then ['\\', 'r']
  else if c.toNat < 32 then ['\\', 'u', '0', '0', hexDigit (c.toNat / 16), hexDigit (c.toNat % 16)]
  else [c]

/-- The character behind a backslash. -/
def unescapeTail : List Char → Option (Char × List Char)
  | [] => none
  | e :: rest =>
      if e = '"' ∨ e = '\\' then some (e, rest) else if e = 'b' then some (Char.ofNat 8, rest)
      else if e = 't' then some (Char.ofNat 9, rest) else if e = 'n' then some (Char.ofNat 10, rest)
      else if e = 'f' then some (Char.ofNat 12, rest) else if e = 'r' then some (Char.ofNat 13, rest)
      else if e = 'u' then
        match rest with
        | '0' :: '0' :: h :: l :: rest =>
            match unhex h, unhex l with
            | some h, some l => some (Char.ofNat (16 * h + l), rest)
            | _, _ => none
        | _ => none
      else none

def unescapeChar : List Char → Option (Char × List Char)
  | [] => none
  | c :: rest => if c = '\\' then unescapeTail rest else some (c, rest)

theorem unhex_hexDigit : ∀ n < 16, unhex (hexDigit n) = some n := by decide

theorem unescapeTail_control (n : Nat) (h : n < 32) (rest : List Char) :
    unescapeTail ('u' :: '0' :: '0' :: hexDigit (n / 16) :: hexDigit (n % 16) :: rest) =
      some (Char.ofNat n, rest) := by
  have hhigh : unhex (hexDigit (n / 16)) = some (n / 16) := unhex_hexDigit _ (by omega)
  have hlow : unhex (hexDigit (n % 16)) = some (n % 16) := unhex_hexDigit _ (by omega)
  simp only [unescapeTail, hhigh, hlow, Nat.div_add_mod]
  rfl

theorem unescapeChar_escapeChar (c : Char) (rest : List Char) :
    unescapeChar (escapeChar c ++ rest) = some (c, rest) := by
  have hcases {P : Prop} [Decidable P] {a b : List Char} (ha : P → unescapeChar (a ++ rest) = some (c, rest))
      (hb : ¬P → unescapeChar (b ++ rest) = some (c, rest)) :
      unescapeChar ((if P then a else b) ++ rest) = some (c, rest) :=
    iteInduction (motive := fun cs => unescapeChar (cs ++ rest) = some (c, rest)) ha hb
  refine hcases (fun h => by subst h; rfl) fun _ => ?_
  refine hcases (fun h => by subst h; rfl) fun hback => ?_
  iterate 5 refine hcases (fun h => by subst h; rfl) fun _ => ?_
  refine hcases (fun hcontrol => ?_) fun _ => ?_
  · have hctl := unescapeTail_control c.toNat hcontrol rest
    rw [Char.ofNat_toNat] at hctl
    exact hctl
  · rw [List.singleton_append, unescapeChar, if_neg hback]

theorem escapeChar_opens (c : Char) : ∃ e l, escapeChar c = e :: l ∧ e ≠ '"' := by
  have hback (l : List Char) : ∃ e l', '\\' :: l = e :: l' ∧ e ≠ '"' := ⟨'\\', l, rfl, by decide⟩
  refine iteInduction (motive := fun cs => ∃ e l, cs = e :: l ∧ e ≠ '"') (fun _ => hback _) fun hquote => ?_
  iterate 7 refine iteInduction (motive := fun cs => ∃ e l, cs = e :: l ∧ e ≠ '"') (fun _ => hback _) fun _ => ?_
  exact ⟨c, [], rfl, hquote⟩

def escape (cs : List Char) : List Char := cs.flatMap escapeChar

/-- Read up to the closing quote. -/
def unescape : Nat → List Char → Option (List Char × List Char)
  | 0, _ => none
  | fuel + 1, cs =>
      if cs.head? = some '"' then some ([], cs.tail)
      else
        match unescapeChar cs with
        | none => none
        | some (c, rest) => (unescape fuel rest).map fun p => (c :: p.1, p.2)

theorem unescape_escape (cs rest : List Char) {fuel : Nat} (h : cs.length < fuel) :
    unescape fuel (escape cs ++ '"' :: rest) = some (cs, rest) := by
  induction cs generalizing fuel with
  | nil =>
      cases fuel with
      | zero => omega
      | succ fuel => rfl
  | cons c cs ih =>
      cases fuel with
      | zero => simp at h
      | succ fuel =>
          rw [List.length_cons] at h
          obtain ⟨e, l, hopen, hquote⟩ := escapeChar_opens c
          have hhead : ¬(escape (c :: cs) ++ '"' :: rest).head? = some '"' := by
            simp only [escape, List.flatMap_cons, hopen, List.cons_append, List.head?_cons, Option.some.injEq]
            exact hquote
          unfold unescape
          rw [if_neg hhead]
          simp only [escape, List.flatMap_cons, List.append_assoc, unescapeChar_escapeChar]
          rw [show cs.flatMap escapeChar = escape cs from rfl, ih (by omega)]
          rfl

theorem length_le_length_escape (cs : List Char) : cs.length ≤ (escape cs).length := by
  induction cs with
  | nil => exact le_refl _
  | cons c cs ih =>
      obtain ⟨e, l, hopen, _⟩ := escapeChar_opens c
      simp only [escape, List.flatMap_cons, List.length_append, hopen, List.length_cons] at ih ⊢
      omega

def string : Json String where
  print s := '"' :: (escape s.toList ++ ['"'])
  parse cs :=
    match cs with
    | '"' :: cs => (unescape (cs.length + 1) cs).map fun p => (String.ofList p.1, p.2)
    | _ => none
  opens s := ⟨'"', _, rfl, rfl⟩
  parse_print s rest _ := by
    rw [List.cons_append, List.append_assoc]
    change (unescape (_ + 1) (escape s.toList ++ '"' :: rest)).map _ = _
    rw [unescape_escape]
    · simp
    · have := length_le_length_escape s.toList
      rw [List.length_append]
      omega

/-! ## Options, arrays and objects -/

/-- `null` or a value; the values must not print as something that begins like `null`. -/
def option (F : Json α) (hF : ∀ a l, F.print a ≠ 'n' :: l) : Json (Option α) where
  print
    | none => "null".toList
    | some a => F.print a
  parse cs :=
    match expect "null".toList cs with
    | some rest => some (none, rest)
    | none => (F.parse cs).map fun p => (some p.1, p.2)
  opens
    | none => ⟨'n', ['u', 'l', 'l'], rfl, by decide⟩
    | some a => F.opens a
  parse_print a rest hrest := by
    cases a with
    | none => simp only [expect_append]
    | some a =>
        obtain ⟨c, l, hopen, _⟩ := F.opens a
        have hno : expect "null".toList (F.print a ++ rest) = none := by
          have hne : 'n' ≠ c := by
            rintro rfl
            exact hF a l hopen
          rw [hopen, List.cons_append]
          exact if_neg hne
        simp only [hno, F.parse_print a rest hrest, Option.map_some]

/-- The elements after the first one, and the closing bracket. -/
def printTail (F : Json α) (close : Char) : List α → List Char
  | [] => [close]
  | a :: as => ',' :: (F.print a ++ printTail F close as)

def parseTail (F : Json α) (close : Char) : Nat → List Char → Option (List α × List Char)
  | _, [] => none
  | 0, c :: cs => if c = close then some ([], cs) else none
  | fuel + 1, c :: cs =>
      if c = close then some ([], cs)
      else if c = ',' then
        match F.parse cs with
        | none => none
        | some (a, rest) => (parseTail F close fuel rest).map fun p => (a :: p.1, p.2)
      else none

def printSeq (F : Json α) (close : Char) : List α → List Char
  | [] => [close]
  | a :: as => F.print a ++ printTail F close as

def parseSeq (F : Json α) (close : Char) (cs : List Char) : Option (List α × List Char) :=
  if cs.head? = some close then some ([], cs.tail)
  else
    match F.parse cs with
    | none => none
    | some (a, rest) => (parseTail F close rest.length rest).map fun p => (a :: p.1, p.2)

theorem length_le_length_printTail (F : Json α) (close : Char) (as : List α) :
    as.length ≤ (printTail F close as).length := by
  induction as with
  | nil => exact Nat.zero_le _
  | cons a as ih =>
      rw [printTail, List.length_cons, List.length_cons, List.length_append]
      omega

section Sequences
variable {close : Char} (hclose : isDelimiter close = true) (hcomma : close ≠ ',')
include hclose

theorem delimited_printTail (F : Json α) (as : List α) (rest : List Char) :
    Delimited (printTail F close as ++ rest) := by
  cases as with
  | nil => exact delimited_cons hclose rest
  | cons a as => exact delimited_cons (by decide) _

include hcomma

theorem parseTail_printTail (F : Json α) (as : List α) (rest : List Char) {fuel : Nat} (h : as.length ≤ fuel) :
    parseTail F close fuel (printTail F close as ++ rest) = some (as, rest) := by
  induction as generalizing fuel with
  | nil =>
      cases fuel with
      | zero => exact if_pos rfl
      | succ fuel => exact if_pos rfl
  | cons a as ih =>
      cases fuel with
      | zero => simp at h
      | succ fuel =>
          rw [List.length_cons] at h
          rw [printTail, List.cons_append, List.append_assoc, parseTail, if_neg (Ne.symm hcomma), if_pos rfl,
            F.parse_print a _ (delimited_printTail hclose F as rest)]
          dsimp only
          rw [ih (Nat.le_of_succ_le_succ h)]
          rfl

theorem parseSeq_printSeq (F : Json α) (as : List α) (rest : List Char) :
    parseSeq F close (printSeq F close as ++ rest) = some (as, rest) := by
  cases as with
  | nil => exact if_pos rfl
  | cons a as =>
      obtain ⟨c, l, hopen, hc⟩ := F.opens a
      have hhead : ¬(printSeq F close (a :: as) ++ rest).head? = some close := by
        rw [printSeq, hopen]
        simp only [List.cons_append, List.head?_cons, Option.some.injEq]
        rintro rfl
        rw [hclose] at hc
        cases hc
      unfold parseSeq
      rw [if_neg hhead, printSeq, List.append_assoc, F.parse_print a _ (delimited_printTail hclose F as rest)]
      have hlen : as.length ≤ (printTail F close as ++ rest).length := by
        have := length_le_length_printTail F close as
        rw [List.length_append]
        omega
      simp only [parseTail_printTail hclose hcomma F as rest hlen, Option.map_some]

end Sequences

def list (F : Json α) : Json (List α) where
  print as := '[' :: printSeq F ']' as
  parse cs :=
    match cs with
    | '[' :: cs => parseSeq F ']' cs
    | _ => none
  opens as := ⟨'[', _, rfl, rfl⟩
  parse_print as rest _ := parseSeq_printSeq (by decide) (by decide) F as rest

/-- An object whose fields are a list of their own. -/
def dict (F : Json α) : Json (List α) where
  print as := '\x7b' :: printSeq F '\x7d' as
  parse cs :=
    match cs with
    | '\x7b' :: cs => parseSeq F '\x7d' cs
    | _ => none
  opens as := ⟨'\x7b', _, rfl, rfl⟩
  parse_print as rest _ := parseSeq_printSeq (by decide) (by decide) F as rest

/-- Two forms with a comma between them. -/
def and (F : Json α) (G : Json β) : Json (α × β) where
  print p := F.print p.1 ++ ',' :: G.print p.2
  parse cs :=
    match F.parse cs with
    | some (a, ',' :: rest) => (G.parse rest).map fun p => ((a, p.1), p.2)
    | _ => none
  opens p := by
    obtain ⟨c, l, hopen, hc⟩ := F.opens p.1
    exact ⟨c, _, by rw [hopen, List.cons_append], hc⟩
  parse_print p rest hrest := by
    rw [List.append_assoc, List.cons_append, F.parse_print p.1 _ (delimited_cons (by decide) _)]
    simp only [G.parse_print p.2 rest hrest, Option.map_some]

/-- A form between a fixed opening text and a closing bracket. -/
def enclosed (text : List Char) (close : Char) (htext : ∃ c l, text = c :: l ∧ isDelimiter c = false)
    (hclose : isDelimiter close = true) (F : Json α) : Json α where
  print a := text ++ (F.print a ++ [close])
  parse cs :=
    match expect text cs with
    | none => none
    | some cs =>
        match F.parse cs with
        | some (a, c :: rest) => if c = close then some (a, rest) else none
        | _ => none
  opens a := by
    obtain ⟨c, l, rfl, hc⟩ := htext
    exact ⟨c, _, rfl, hc⟩
  parse_print a rest _ := by
    rw [List.append_assoc, expect_append, List.append_assoc]
    simp only [F.parse_print a _ (delimited_cons hclose rest), List.singleton_append, if_true]

/-- One field of an object. -/
def field (name : String) (F : Json α) : Json α where
  print a := '"' :: (name.toList ++ '"' :: ':' :: F.print a)
  parse cs :=
    match expect ('"' :: (name.toList ++ ['"', ':'])) cs with
    | none => none
    | some cs => F.parse cs
  opens a := ⟨'"', _, rfl, rfl⟩
  parse_print a rest hrest := by
    have htext : '"' :: (name.toList ++ '"' :: ':' :: F.print a) ++ rest =
        '"' :: (name.toList ++ ['"', ':']) ++ (F.print a ++ rest) := by simp
    rw [htext, expect_append]
    exact F.parse_print a rest hrest

def object (F : Json α) : Json α := enclosed ['\x7b'] '\x7d' ⟨'\x7b', [], rfl, rfl⟩ rfl F

def pair (F : Json α) (G : Json β) : Json (α × β) := enclosed ['['] ']' ⟨'[', [], rfl, rfl⟩ rfl (F.and G)

/-- A form of `α` as a form of `β`, where every `β` is one of the `α`. -/
def iso (F : Json α) (f : β → α) (g : α → Option β) (hg : ∀ b, g (f b) = some b) : Json β where
  print b := F.print (f b)
  parse cs :=
    match F.parse cs with
    | none => none
    | some (a, rest) => (g a).map fun b => (b, rest)
  opens b := F.opens (f b)
  parse_print b rest hrest := by
    rw [F.parse_print _ rest hrest]
    simp only [hg, Option.map_some]

/-- The rest of an entry, after its opening quote. -/
def parseEntry (F : Json α) (cs : List Char) : Option ((String × α) × List Char) :=
  match unescape (cs.length + 1) cs with
  | some (key, ':' :: rest) => (F.parse rest).map fun p => ((String.ofList key, p.1), p.2)
  | _ => none

/-- An entry of an object whose keys are data. -/
def entry (F : Json α) : Json (String × α) where
  print p := '"' :: (escape p.1.toList ++ '"' :: ':' :: F.print p.2)
  parse cs :=
    match cs with
    | '"' :: cs => parseEntry F cs
    | _ => none
  opens p := ⟨'"', _, rfl, rfl⟩
  parse_print p rest hrest := by
    have hlen := length_le_length_escape p.1.toList
    rw [List.cons_append, List.append_assoc]
    change parseEntry F (escape p.1.toList ++ '"' :: ':' :: (F.print p.2 ++ rest)) = _
    unfold parseEntry
    rw [unescape_escape _ _ (by rw [List.length_append]; omega)]
    simp only [F.parse_print p.2 rest hrest, Option.map_some, String.ofList_toList]

/-! ## Alternatives -/

/-- One form or another, where the first reads nothing of what the second prints. -/
def either (F : Json α) (G : Json β) (h : ∀ b rest, F.parse (G.print b ++ rest) = none) : Json (α ⊕ β) where
  print
    | .inl a => F.print a
    | .inr b => G.print b
  parse cs :=
    match F.parse cs with
    | some (a, rest) => some (.inl a, rest)
    | none => (G.parse cs).map fun p => (.inr p.1, p.2)
  opens
    | .inl a => F.opens a
    | .inr b => G.opens b
  parse_print s rest hrest := by
    cases s with
    | inl a => simp only [F.parse_print a rest hrest]
    | inr b => simp only [h, G.parse_print b rest hrest, Option.map_some]

section Variants
variable {ι : Type} {A : ι → Type}

/-- The value of a variant, once its kind is known, and the closing bracket. -/
def parseVariant (F : (i : ι) → Json (A i)) (i : ι) (cs : List Char) : Option ((Σ i, A i) × List Char) :=
  match (F i).parse cs with
  | some (a, '\x7d' :: rest) => some (⟨i, a⟩, rest)
  | _ => none

/-- A variant after the quote that opens its kind. -/
def parseKind (F : (i : ι) → Json (A i)) (find : String → Option ι) (cs : List Char) :
    Option ((Σ i, A i) × List Char) :=
  match unescape (cs.length + 1) cs with
  | some (key, ':' :: rest) =>
      match find (String.ofList key) with
      | some i => parseVariant F i rest
      | none => none
  | _ => none

/-- A value of one of several kinds: an object with one field, named after the kind. -/
def variant (kind : ι → String) (find : String → Option ι) (hfind : ∀ i, find (kind i) = some i)
    (F : (i : ι) → Json (A i)) : Json (Σ i, A i) where
  print p := '\x7b' :: '"' :: (escape (kind p.1).toList ++ '"' :: ':' :: ((F p.1).print p.2 ++ ['\x7d']))
  parse cs :=
    match cs with
    | '\x7b' :: '"' :: cs => parseKind F find cs
    | _ => none
  opens p := ⟨'\x7b', _, rfl, rfl⟩
  parse_print p rest _ := by
    obtain ⟨i, a⟩ := p
    have hlen := length_le_length_escape (kind i).toList
    have htext : '\x7b' :: '"' :: (escape (kind i).toList ++ '"' :: ':' :: ((F i).print a ++ ['\x7d'])) ++ rest =
        '\x7b' :: '"' :: (escape (kind i).toList ++ '"' :: ':' :: ((F i).print a ++ '\x7d' :: rest)) := by simp
    rw [htext]
    change parseKind F find (escape (kind i).toList ++ '"' :: ':' :: ((F i).print a ++ '\x7d' :: rest)) = _
    unfold parseKind
    rw [unescape_escape _ _ (by rw [List.length_append]; omega)]
    have hparse := (F i).parse_print a ('\x7d' :: rest) (delimited_cons (by decide) rest)
    simp only [String.ofList_toList, hfind, parseVariant, hparse]

end Variants

/-! ## Fixed-width numbers and texts for values -/

theorem printInt_ne_n (n : Int) (l : List Char) : printInt n ≠ 'n' :: l := by
  unfold printInt
  split_ifs
  · intro h
    cases h
  · obtain ⟨c, l', hd, hc⟩ := toDigits_opens n.natAbs
    rw [hd]
    rintro ⟨⟩
    cases hc

def int64 : Json Int64 :=
  int.iso Int64.toInt (fun n => if -2 ^ 63 ≤ n ∧ n < 2 ^ 63 then some (Int64.ofInt n) else none) fun a => by
    rw [if_pos ⟨Int64.le_toInt a, Int64.toInt_lt a⟩, Int64.ofInt_toInt]

def int32 : Json Int32 :=
  int.iso Int32.toInt (fun n => if -2 ^ 31 ≤ n ∧ n < 2 ^ 31 then some (Int32.ofInt n) else none) fun a => by
    rw [if_pos ⟨Int32.le_toInt a, Int32.toInt_lt a⟩, Int32.ofInt_toInt]

def uint32 : Json UInt32 :=
  nat.iso UInt32.toNat (fun n => if n < 2 ^ 32 then some (UInt32.ofNat n) else none) fun a => by
    rw [if_pos a.toNat_lt, UInt32.ofNat_toNat]

def uint8 : Json UInt8 :=
  nat.iso UInt8.toNat (fun n => if n < 2 ^ 8 then some (UInt8.ofNat n) else none) fun a => by
    rw [if_pos a.toNat_lt, UInt8.ofNat_toNat]

/-- Bytes as an array of numbers. -/
def bytes : Json Bytes := list uint8

def optInt64 : Json (Option Int64) := int64.option fun a => printInt_ne_n a.toInt

def optString : Json (Option String) := string.option fun _ _ h => by cases h

/-- A fixed text. -/
def tag (text : String) : Json Unit :=
  string.iso (fun _ => text) (fun s => if s = text then some () else none) fun _ => if_pos rfl

/-! ## Bytes -/

/-- The bytes of the form; reading takes them as a whole. -/
def serde (F : Json α) : Serde α where
  encode a := utf8 (String.ofList (F.print a))
  decode bytes :=
    match String.fromUTF8? ⟨bytes.toArray⟩ with
    | none => none
    | some s =>
        match F.parse s.toList with
        | some (a, []) => some a
        | _ => none
  decode_encode a := by
    have hparse := F.parse_print a [] delimited_nil
    rw [List.append_nil] at hparse
    rw [fromUTF8_utf8]
    simp only [String.toList_ofList, hparse]

end Json

end Lib
