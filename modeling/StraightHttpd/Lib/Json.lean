import StraightHttpd.Lib.CMemory

/-! # JSON texts

Which bytes spell a value: numbers in decimal, strings without escapes, arrays and objects with optional
blanks behind a comma. A writer that puts out its items one after another spells the array of the items.
-/

set_option autoImplicit false

namespace StraightHttpd
open CMemory

/-- The values that are written without escapes and fractions. -/
inductive Json
  | number (z : ℤ)
  | string (s : Bytes)
  | array (items : List Json)
  | object (members : List (Bytes × Json))

namespace Json

/-- A byte that stands for itself in a string. -/
def Plain (b : UInt8) : Prop := b ≠ 34 ∧ b ≠ 92 ∧ 32 ≤ b

instance (b : UInt8) : Decidable (Plain b) := inferInstanceAs (Decidable (b ≠ 34 ∧ b ≠ 92 ∧ 32 ≤ b))

def quoted (s : Bytes) : Bytes := 34 :: (s ++ [34])

def Blank (s : Bytes) : Prop := ∀ b ∈ s, b = 32 ∨ b = 9 ∨ b = 10 ∨ b = 13

mutual

/-- A text spells a value. -/
inductive Spells : Json → Bytes → Prop
  | number (z : ℤ) : Spells (.number z) (intText z)
  | string {s : Bytes} : (∀ b ∈ s, Plain b) → Spells (.string s) (quoted s)
  | array {items : List Json} {t : Bytes} : SpellsItems items t → Spells (.array items) (91 :: (t ++ [93]))
  | object {members : List (Bytes × Json)} {t : Bytes} :
      SpellsMembers members t → Spells (.object members) (123 :: (t ++ [125]))

/-- The items of an array. -/
inductive SpellsItems : List Json → Bytes → Prop
  | none : SpellsItems [] []
  | last {v : Json} {t : Bytes} : Spells v t → SpellsItems [v] t
  | more {v w : Json} {vs : List Json} {t l r : Bytes} :
      Spells v t → Blank l → SpellsItems (w :: vs) r → SpellsItems (v :: w :: vs) (t ++ 44 :: (l ++ r))

/-- The members of an object. -/
inductive SpellsMembers : List (Bytes × Json) → Bytes → Prop
  | none : SpellsMembers [] []
  | last {n : Bytes} {v : Json} {t : Bytes} :
      (∀ b ∈ n, Plain b) → Spells v t → SpellsMembers [(n, v)] (quoted n ++ 58 :: t)
  | more {n : Bytes} {v : Json} {m : Bytes × Json} {ms : List (Bytes × Json)} {t l r : Bytes} :
      (∀ b ∈ n, Plain b) → Spells v t → Blank l → SpellsMembers (m :: ms) r →
        SpellsMembers ((n, v) :: m :: ms) (quoted n ++ 58 :: (t ++ 44 :: (l ++ r)))

end

theorem Blank.nil : Blank [] := by
  intro b hb
  cases hb

/-- Items that are written one after another, each with a comma before it but the first. -/
theorem spellsItems_cons {α : Type} {value : α → Json} {text : α → Bytes} {a : α} {as : List α}
    (hspells : ∀ b ∈ a :: as, Spells (value b) (text b)) :
    SpellsItems ((a :: as).map value) (text a ++ as.flatMap fun b => 44 :: text b) := by
  induction as generalizing a with
  | nil =>
    rw [List.flatMap_nil, List.append_nil]
    exact .last (hspells a List.mem_cons_self)
  | cons b as ih =>
    have hrest := ih fun c hc => hspells c (List.mem_cons_of_mem _ hc)
    exact .more (l := []) (hspells a List.mem_cons_self) Blank.nil hrest

/-- The text of an object begins with a brace. -/
theorem Spells.object_head {members : List (Bytes × Json)} {t : Bytes} (h : Spells (.object members) t) :
    t.head? = some 123 := by
  cases h with
  | object h => rfl

end Json
end StraightHttpd
