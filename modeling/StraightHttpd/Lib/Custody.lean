import StraightHttpd.Lib.Monitor

/-! # Custody of handles

Handles that are taken, used and given back, and a time of settlement at which none may be out. The monitor
`custody` knows the handles that are out; a history of rightful deeds uses and gives back only these.
-/

set_option autoImplicit false

variable {α : Type} [DecidableEq α]

/-- What becomes of a handle. -/
inductive Deed (α : Type)
  | takes (h : α)
  | uses (h : α)
  | returns (h : α)
  | settles
  | nothing
  deriving DecidableEq, Repr

/-- The handles that are out. -/
def custody : Monitor (List α) (Deed α) where
  start := []
  next out
    | .takes h => h :: out
    | .returns h => out.erase h
    | .settles => []
    | _ => out

/-- Only what is out is used or given back, what is taken is new, and all is given back before a settlement. -/
def Rightful (out : List α) : Deed α → Prop
  | .takes h => h ∉ out
  | .uses h | .returns h => h ∈ out
  | .settles => out = []
  | .nothing => True

instance (out : List α) (d : Deed α) : Decidable (Rightful out d) :=
  match d with
  | .takes h => inferInstanceAs (Decidable (h ∉ out))
  | .uses h | .returns h => inferInstanceAs (Decidable (h ∈ out))
  | .settles => inferInstanceAs (Decidable (out = []))
  | .nothing => isTrue trivial

/-- What is to be given back next is out, and the rest is what is out then. -/
theorem return_all_iff (h : α) (hs out : List α) :
    (h :: hs).Perm out ↔ Rightful out (.returns h) ∧ hs.Perm (custody.next out (.returns h)) :=
  List.cons_perm_iff_perm_erase
