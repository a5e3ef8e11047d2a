import HyperionVault.Lib.Serde

/-!
# Records between two records

Two runs of the same updates may leave a stored record with some fields as one run left them and some as the other.

* `Projection`, `Determine` : the fields of a record, and that they make it up;
* `Between fields x y z` : each field of `x` is that of `y` or that of `z`;
* `Fieldwise` : an update that keeps a field or sets it to a fixed value, for each field;
* `Change`, `Change.write` : a stored row is set as a whole, or the record in it is updated;
* `RowBetween` : the same for stored rows, which changes keep (`RowBetween.write`).
-/

namespace Lib

/-- One field of a record. -/
structure Projection (α : Type) where
  {β : Type}
  get : α → β

section Records
variable {α : Type} (fields : List (Projection α))

def Determine : Prop := ∀ x y, (∀ field ∈ fields, field.get x = field.get y) → x = y

/-- Each field is that of one of the other two records. -/
def Between (x y z : α) : Prop := ∀ field ∈ fields, field.get x = field.get y ∨ field.get x = field.get z

/-- Each field is kept, or set to what does not depend on the record. -/
def Fieldwise (f : α → α) : Prop :=
  ∀ field ∈ fields, (∀ x, field.get (f x) = field.get x) ∨ ∀ x y, field.get (f x) = field.get (f y)

variable {fields}

theorem Fieldwise.comp {f g : α → α} (hf : Fieldwise fields f) (hg : Fieldwise fields g) :
    Fieldwise fields fun x => f (g x) := by
  intro field hfield
  rcases hf field hfield with hkept | hset
  · refine (hg field hfield).imp (fun h x => (hkept (g x)).trans (h x)) fun h x y => ?_
    rw [hkept, hkept, h x y]
  · exact Or.inr fun x y => hset (g x) (g y)

theorem Between.right (y z : α) : Between fields z y z := fun _ _ => Or.inr rfl

theorem Between.update {f : α → α} {x y z : α} (h : Between fields x y z) (hf : Fieldwise fields f) :
    Between fields (f x) (f y) z := by
  intro field hfield
  rcases hf field hfield with hkept | hset
  · rw [hkept x, hkept y]
    exact h field hfield
  · exact Or.inl (hset x y)

theorem Between.eq {x y : α} (hfields : Determine fields) (h : Between fields x y y) : x = y :=
  hfields x y fun field hfield => (h field hfield).elim id id

end Records

/-- What happens to a row that holds an `α`. -/
inductive Change (α : Type) where
  | set (row : Option Bytes)
  | update (f : α → α)

def Change.write {α : Type} (S : Serde α) : Change α → Option Bytes → Option Bytes
  | .set row, _ => row
  | .update f, row => (row.bind S.decode).map fun a => S.encode (f a)

section Rows
variable {α : Type} {S : Serde α} {fields : List (Projection α)}

theorem bind_decode_encode (a : α) : (some (S.encode a)).bind S.decode = some a := S.decode_encode a

theorem Change.write_update {f : α → α} {row : Option Bytes} {a : α} (h : row.bind S.decode = some a) :
    (Change.update f).write S row = some (S.encode (f a)) := by
  simp only [write, h, Option.map_some]

/-- A row that an update leaves alone is missing or holds a record. -/
theorem Change.holds_of_write_eq {f : α → α} {row : Option Bytes} (h : (Change.update f).write S row = row) :
    row = none ∨ ∃ a, row.bind S.decode = some a := by
  cases hdec : row.bind S.decode with
  | none =>
      simp only [write, hdec, Option.map_none] at h
      exact Or.inl h.symm
  | some a => exact Or.inr ⟨a, rfl⟩

/-- The row `r` is one of the rows `u` and `s`, or its record is between theirs. -/
def RowBetween (S : Serde α) (fields : List (Projection α)) (u s r : Option Bytes) : Prop :=
  r = u ∨ r = s ∨ ∃ x y z, r = some (S.encode x) ∧ s = some (S.encode y) ∧ u.bind S.decode = some z ∧
    Between fields x y z

theorem RowBetween.eq {u r : Option Bytes} (hfields : Determine fields) (h : RowBetween S fields u u r) : r = u := by
  obtain hu | hs | ⟨x, y, z, rfl, rfl, hz, hbetween⟩ := h
  · exact hu
  · exact hs
  · obtain rfl : y = z := by simpa using hz
    rw [hbetween.eq hfields]

/-- A change of both rows, where an update finds a record in `s`, and in `r` a record or nothing. -/
theorem RowBetween.write {change : Change α} {u s r : Option Bytes} (h : RowBetween S fields u s r)
    (hchange : ∀ f, change = .update f →
      Fieldwise fields f ∧ (∃ y, s.bind S.decode = some y) ∧ (r = none ∨ ∃ x, r.bind S.decode = some x)) :
    RowBetween S fields u (change.write S s) (change.write S r) := by
  cases change with
  | set row => exact Or.inr (Or.inl rfl)
  | update f =>
      obtain ⟨hf, ⟨y, hy⟩, hr⟩ := hchange f rfl
      obtain rfl | rfl | ⟨x, y', z, rfl, rfl, hz, hbetween⟩ := h
      · obtain rfl | ⟨z, hz⟩ := hr
        · exact Or.inl rfl
        · rw [Change.write_update hy, Change.write_update hz]
          exact Or.inr (Or.inr ⟨f z, f y, z, rfl, rfl, hz, (Between.right y z).update hf⟩)
      · exact Or.inr (Or.inl rfl)
      · rw [Change.write_update (bind_decode_encode x), Change.write_update (bind_decode_encode y')]
        exact Or.inr (Or.inr ⟨f x, f y', z, rfl, rfl, hz, hbetween.update hf⟩)

end Rows

end Lib
