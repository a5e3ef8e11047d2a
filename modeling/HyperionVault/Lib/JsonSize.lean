import HyperionVault.Lib.Json
import Mathlib.Algebra.GroupWithZero.Nat

/-!
# The size of JSON forms

How many bytes a form writes, from the widths of its parts. A text takes the bytes of its characters, or of their
escapes; a number takes its digits.

* `byteLen`, `Json.size` : the number of bytes of a text and of what a form prints;
* `textWidth`, `natWidth`, `bytesWidth`, ... : the widths of scalars, by the values themselves;
* `seqWidth`, `fieldWidth` : brackets with commas between the parts, and a field of an object;
* `Json.Sized F w` : the form prints `a` in `w a` bytes, with a rule for each way to build a form;
* `Json.Joined F ws` : the form prints parts of the widths `ws a`, with commas between them.
-/

namespace Lib

def byteLen (cs : List Char) : Nat := (utf8 (String.ofList cs)).length

@[simp] theorem byteLen_nil : byteLen [] = 0 := rfl

theorem byteLen_singleton (c : Char) : byteLen [c] = c.utf8Size := by
  simp [byteLen, utf8, List.utf8Encode_singleton]

@[simp] theorem byteLen_cons (c : Char) (l : List Char) : byteLen (c :: l) = c.utf8Size + byteLen l := by
  rw [← byteLen_singleton c, byteLen, utf8_ofList_cons, List.length_append]
  rfl

@[simp] theorem byteLen_append (l m : List Char) : byteLen (l ++ m) = byteLen l + byteLen m := by
  induction l with
  | nil => simp
  | cons c l ih => rw [List.cons_append, byteLen_cons, byteLen_cons, ih, Nat.add_assoc]

theorem byteLen_toList (s : String) : byteLen s.toList = s.utf8ByteSize := by
  rw [byteLen, String.ofList_toList]
  rfl

/-- A text of ASCII characters has one byte for each of them. -/
theorem byteLen_eq_length {l : List Char} (h : ∀ c ∈ l, c.utf8Size = 1) : byteLen l = l.length := by
  induction l with
  | nil => rfl
  | cons c l ih =>
      rw [byteLen_cons, h c List.mem_cons_self, ih fun c' hc' => h c' (List.mem_cons_of_mem _ hc'), List.length_cons]
      omega

theorem utf8Size_of_isDigit {c : Char} (h : c.isDigit = true) : c.utf8Size = 1 := by
  simp only [Char.isDigit, Bool.and_eq_true, decide_eq_true_eq] at h
  rw [Char.utf8Size_eq_one_iff]
  exact UInt32.le_trans h.2 (by decide)

/-! ## Widths -/

/-- Brackets or braces around parts of these widths, and the commas between them. -/
def seqWidth : List Nat → Nat
  | [] => 2
  | w :: ws => (w :: ws).sum + (w :: ws).length + 1

/-- A field of an object: its name in quotes, a colon and the value. -/
def fieldWidth (name : String) (width : Nat) : Nat := name.utf8ByteSize + 3 + width

def natWidth (n : Nat) : Nat := (Nat.toDigits 10 n).length

def intWidth (n : Int) : Nat := if n < 0 then natWidth n.natAbs + 1 else natWidth n.natAbs

/-- A character, or its escape: of two bytes for the quote, the backslash and five control characters, of six for the
other control characters. -/
def charWidth (c : Char) : Nat :=
  if c = '"' ∨ c = '\\' ∨ c = Char.ofNat 8 ∨ c = Char.ofNat 9 ∨ c = Char.ofNat 10 ∨ c = Char.ofNat 12 ∨
    c = Char.ofNat 13 then 2
  else if c.toNat < 32 then 6 else c.utf8Size

def textWidth (s : String) : Nat := 2 + (s.toList.map charWidth).sum

def bytesWidth (b : Bytes) : Nat := seqWidth (b.map fun byte => natWidth byte.toNat)

def boolWidth (b : Bool) : Nat := if b then 4 else 5

/-- What is absent is a `null`. -/
def optWidth {α : Type} (w : α → Nat) : Option α → Nat
  | none => 4
  | some a => w a

def listWidth {α : Type} (w : α → Nat) (as : List α) : Nat := seqWidth (as.map w)

namespace Json
variable {α β : Type}

/-- The number of bytes a form writes. -/
def size (F : Json α) (a : α) : Nat := byteLen (F.print a)

theorem length_encode (F : Json α) (a : α) : (F.serde.encode a).length = F.size a := rfl

/-! ## Sizes from widths -/

/-- The form prints `a` in `w a` bytes. -/
def Sized (F : Json α) (w : α → Nat) : Prop := ∀ a, F.size a = w a

/-- The form prints one part or more, of these widths, with commas between them. -/
def Joined (F : Json α) (ws : α → List Nat) : Prop := ∀ a, ws a ≠ [] ∧ F.size a + 1 = (ws a).sum + (ws a).length

theorem seqWidth_of_ne_nil {ws : List Nat} (h : ws ≠ []) : seqWidth ws = ws.sum + ws.length + 1 := by
  cases ws with
  | nil => exact absurd rfl h
  | cons w ws => rfl

section Rules
variable {F : Json α} {G : Json β} {w : α → Nat} {v : β → Nat} {ws : α → List Nat} {vs : β → List Nat}

theorem Sized.field (h : F.Sized w) (name : String) : (F.field name).Joined fun a => [fieldWidth name (w a)] := by
  intro a
  have hsize : byteLen (F.print a) = w a := h a
  refine ⟨List.cons_ne_nil _ _, ?_⟩
  simp only [size, Json.field, hsize, byteLen_append, byteLen_cons, byteLen_toList, show '"'.utf8Size = 1 by decide,
    show ':'.utf8Size = 1 by decide, fieldWidth, List.sum_cons, List.sum_nil, List.length_cons, List.length_nil]
  omega

theorem Joined.and (hF : F.Joined ws) (hG : G.Joined vs) : (F.and G).Joined fun p => ws p.1 ++ vs p.2 := by
  intro p
  obtain ⟨hne, hleft⟩ := hF p.1
  obtain ⟨-, hright⟩ := hG p.2
  refine ⟨List.append_ne_nil_of_left_ne_nil hne _, ?_⟩
  simp only [size, Json.and, byteLen_append, byteLen_cons, show ','.utf8Size = 1 by decide, List.sum_append,
    List.length_append] at hleft hright ⊢
  omega

/-- Parts with commas between them, in brackets or braces. -/
theorem Joined.enclosed (h : F.Joined ws) {opening close : Char} (hopening : opening.utf8Size = 1)
    (hclose : close.utf8Size = 1) (htext : ∃ c l, [opening] = c :: l ∧ isDelimiter c = false)
    (hdelimiter : isDelimiter close = true) :
    (Json.enclosed [opening] close htext hdelimiter F).Sized fun a => seqWidth (ws a) := by
  intro a
  obtain ⟨hne, hsize⟩ := h a
  dsimp only
  rw [seqWidth_of_ne_nil hne]
  simp only [size, Json.enclosed, byteLen_append, byteLen_cons, byteLen_nil, hopening, hclose] at hsize ⊢
  omega

theorem Joined.object (h : F.Joined ws) : F.object.Sized fun a => seqWidth (ws a) :=
  h.enclosed (by decide) (by decide) _ _

theorem Sized.joined (h : F.Sized w) : F.Joined fun a => [w a] := by
  intro a
  refine ⟨List.cons_ne_nil _ _, ?_⟩
  rw [h a, List.sum_singleton, List.length_singleton]

theorem Sized.pair (hF : F.Sized w) (hG : G.Sized v) : (F.pair G).Sized fun p => seqWidth [w p.1, v p.2] :=
  (hF.joined.and hG.joined).enclosed (by decide) (by decide) _ _

theorem Sized.iso (h : F.Sized w) {f : β → α} {g : α → Option β} (hg : ∀ b, g (f b) = some b) :
    (F.iso f g hg).Sized fun b => w (f b) := fun b => h (f b)

theorem Sized.option (h : F.Sized w) (hF : ∀ a l, F.print a ≠ 'n' :: l) : (F.option hF).Sized (optWidth w) := by
  intro o
  cases o with
  | none =>
      show byteLen "null".toList = 4
      decide
  | some a => exact h a

/-- Elements one after the other, each with the comma or the bracket behind it. -/
theorem Sized.printSeq (h : F.Sized w) {close : Char} (hclose : close.utf8Size = 1) (as : List α) :
    byteLen (Json.printSeq F close as) + 1 = seqWidth (as.map w) := by
  have htail (as : List α) : byteLen (printTail F close as) = (as.map w).sum + (as.map w).length + 1 := by
    induction as with
    | nil => simp [printTail, hclose]
    | cons a as ih =>
        have hsize : byteLen (F.print a) = w a := h a
        simp only [printTail, byteLen_cons, byteLen_append, ih, hsize, List.map_cons, List.sum_cons, List.length_cons,
          show ','.utf8Size = 1 by decide]
        omega
  cases as with
  | nil => simp [Json.printSeq, hclose, seqWidth]
  | cons a as =>
      have hsize : byteLen (F.print a) = w a := h a
      simp only [Json.printSeq, byteLen_append, htail, hsize, List.map_cons, seqWidth, List.sum_cons, List.length_cons]
      omega

theorem Sized.list (h : F.Sized w) : (Json.list F).Sized (listWidth w) := by
  intro as
  rw [listWidth, ← h.printSeq (show ']'.utf8Size = 1 by decide)]
  simp only [size, Json.list, byteLen_cons, show '['.utf8Size = 1 by decide, Nat.add_comm]

theorem Sized.dict (h : F.Sized w) : (Json.dict F).Sized (listWidth w) := by
  intro as
  rw [listWidth, ← h.printSeq (show '\x7d'.utf8Size = 1 by decide)]
  simp only [size, Json.dict, byteLen_cons, show '\x7b'.utf8Size = 1 by decide, Nat.add_comm]

/-- An object whose one field is named after a kind without escapes. -/
theorem Sized.variant {ι : Type} {A : ι → Type} {kind : ι → String} {find : String → Option ι}
    (hfind : ∀ i, find (kind i) = some i) {F : (i : ι) → Json (A i)} {v : (i : ι) → A i → Nat}
    (hkind : ∀ i, byteLen (escape (kind i).toList) = (kind i).utf8ByteSize) (h : ∀ i, (F i).Sized (v i)) :
    (Json.variant kind find hfind F).Sized fun p => seqWidth [fieldWidth (kind p.1) (v p.1 p.2)] := by
  intro p
  have hsize : byteLen ((F p.1).print p.2) = v p.1 p.2 := h p.1 p.2
  simp only [size, Json.variant, byteLen_append, byteLen_cons, byteLen_nil, hkind, hsize, seqWidth, fieldWidth,
    show '"'.utf8Size = 1 by decide, show ':'.utf8Size = 1 by decide, show '\x7b'.utf8Size = 1 by decide,
    show '\x7d'.utf8Size = 1 by decide, List.sum_cons, List.sum_nil, List.length_cons, List.length_nil]
  omega

end Rules

/-! ## Scalars -/

theorem byteLen_toDigits (n : Nat) : byteLen (Nat.toDigits 10 n) = natWidth n :=
  byteLen_eq_length fun _ hc => utf8Size_of_isDigit (Nat.isDigit_of_mem_toDigits (by decide) (by decide) hc)

theorem nat_sized : nat.Sized natWidth := byteLen_toDigits

theorem int_sized : int.Sized intWidth := by
  intro n
  show byteLen (printInt n) = intWidth n
  unfold printInt intWidth
  split_ifs
  · rw [byteLen_cons, byteLen_toDigits, show '-'.utf8Size = 1 by decide, Nat.add_comm]
  · exact byteLen_toDigits _

theorem int64_sized : int64.Sized fun a => intWidth a.toInt := int_sized.iso _

theorem int32_sized : int32.Sized fun a => intWidth a.toInt := int_sized.iso _

theorem uint32_sized : uint32.Sized fun a => natWidth a.toNat := nat_sized.iso _

theorem bytes_sized : bytes.Sized bytesWidth := Sized.list (F := uint8) (nat_sized.iso _)

theorem bool_sized : bool.Sized boolWidth := by
  intro b
  cases b <;> decide

theorem utf8Size_hexDigit : ∀ n < 16, (hexDigit n).utf8Size = 1 := by decide

theorem byteLen_escapeChar (c : Char) : byteLen (escapeChar c) = charWidth c := by
  by_cases hshort : c = '"' ∨ c = '\\' ∨ c = Char.ofNat 8 ∨ c = Char.ofNat 9 ∨ c = Char.ofNat 10 ∨ c = Char.ofNat 12 ∨
      c = Char.ofNat 13
  · rcases hshort with rfl | rfl | rfl | rfl | rfl | rfl | rfl <;> decide
  · rw [charWidth, if_neg hshort]
    simp only [not_or] at hshort
    obtain ⟨hquote, hbackslash, h8, h9, h10, h12, h13⟩ := hshort
    rw [escapeChar, if_neg hquote, if_neg hbackslash, if_neg h8, if_neg h9, if_neg h10, if_neg h12, if_neg h13]
    split_ifs
    · simp only [byteLen_cons, byteLen_nil, utf8Size_hexDigit (c.toNat / 16) (by omega),
        utf8Size_hexDigit (c.toNat % 16) (by omega), show '\\'.utf8Size = 1 by decide,
        show 'u'.utf8Size = 1 by decide, show '0'.utf8Size = 1 by decide]
    · exact byteLen_singleton c

theorem byteLen_escape (cs : List Char) : byteLen (escape cs) = (cs.map charWidth).sum := by
  induction cs with
  | nil => rfl
  | cons c cs ih =>
      rw [escape, List.flatMap_cons, byteLen_append, byteLen_escapeChar, List.map_cons, List.sum_cons, ← ih]
      rfl

theorem string_sized : string.Sized textWidth := by
  intro s
  show byteLen ('"' :: (escape s.toList ++ ['"'])) = _
  rw [byteLen_cons, byteLen_append, byteLen_singleton, byteLen_escape, show '"'.utf8Size = 1 by decide, textWidth]
  omega

theorem optInt64_sized : optInt64.Sized (optWidth fun a => intWidth a.toInt) := int64_sized.option _

theorem optString_sized : optString.Sized (optWidth textWidth) := string_sized.option _

theorem tag_sized (text : String) : (tag text).Sized fun _ => textWidth text := fun _ => string_sized text

/-- An entry of an object whose keys are data. -/
theorem Sized.entry {F : Json α} {w : α → Nat} (h : F.Sized w) : F.entry.Sized fun p => textWidth p.1 + 1 + w p.2 := by
  intro p
  have hsize : byteLen (F.print p.2) = w p.2 := h p.2
  simp only [size, Json.entry, byteLen_append, byteLen_cons, byteLen_escape, hsize, textWidth,
    show '"'.utf8Size = 1 by decide, show ':'.utf8Size = 1 by decide]
  omega

end Json

end Lib
