import Mathlib

/-! # Paths

A path is a list of segments, each a name or a step up. It is walked from a folder, which is the list of the
names that lead to it, and there is nothing above the top. On its own a path leads some way up and then down
by some names, and that decides whether it stays in the folder that it is walked from.
-/

set_option autoImplicit false

/-- A step up, or a name. -/
inductive Segment (α : Type)
  | up
  | name (a : α)
  deriving DecidableEq, Repr

/-- How far a path leads up, and the names that it leads down by then. -/
structure Descent (α : Type) where
  up : ℕ
  down : List α
  deriving DecidableEq, Repr

variable {α : Type}

namespace Segment

/-- Where a segment leads from a folder. -/
def step (folder : List α) : Segment α → List α
  | up => folder.dropLast
  | name a => folder ++ [a]

/-- Where a path leads from a folder. -/
def walk (folder : List α) (path : List (Segment α)) : List α := path.foldl step folder

theorem walk_append (folder : List α) (p q : List (Segment α)) :
    walk folder (p ++ q) = walk (walk folder p) q := List.foldl_append

end Segment

namespace Descent

/-- A segment behind a path. -/
def step (d : Descent α) : Segment α → Descent α
  | .up => match d.down with
    | [] => { up := d.up + 1, down := [] }
    | a :: l => { d with down := (a :: l).dropLast }
  | .name a => { d with down := d.down ++ [a] }

/-- A path on its own. -/
def ofPath (path : List (Segment α)) : Descent α := path.foldl step { up := 0, down := [] }

/-- Where it leads from a folder. -/
def target (d : Descent α) (folder : List α) : List α := folder.take (folder.length - d.up) ++ d.down

theorem target_step (d : Descent α) (seg : Segment α) (folder : List α) :
    (d.step seg).target folder = Segment.step (d.target folder) seg := by
  obtain ⟨up, down⟩ := d
  cases seg with
  | name a => exact (List.append_assoc _ _ _).symm
  | up =>
    cases down with
    | nil =>
      have hlength : (folder.take (folder.length - up)).length = folder.length - up :=
        List.length_take_of_le (Nat.sub_le _ _)
      show folder.take (folder.length - (up + 1)) ++ [] = (folder.take (folder.length - up) ++ []).dropLast
      rw [List.append_nil, List.append_nil, List.dropLast_eq_take, hlength, List.take_take]
      congr 1
      omega
    | cons a l => exact (List.dropLast_append_of_ne_nil (List.cons_ne_nil a l)).symm

/-- A walk leads where the path on its own does. -/
theorem walk_eq (folder : List α) (path : List (Segment α)) :
    Segment.walk folder path = (ofPath path).target folder := by
  induction path using List.reverseRecOn with
  | nil =>
    show folder = folder.take (folder.length - 0) ++ []
    rw [Nat.sub_zero, List.take_length, List.append_nil]
  | append_singleton path seg ih =>
    have hwalk : Segment.walk folder (path ++ [seg]) = Segment.step (Segment.walk folder path) seg :=
      Segment.walk_append folder path [seg]
    have hpath : ofPath (path ++ [seg]) = (ofPath path).step seg := by
      unfold ofPath
      rw [List.foldl_append]
      rfl
    rw [hwalk, hpath, target_step, ih]

/-- From the top, what comes below is all there is. -/
theorem walk_top (path : List (Segment α)) : Segment.walk [] path = (ofPath path).down := by
  rw [walk_eq, target, List.take_nil]
  rfl

/-- A path that never leads above its folder, or comes back into it by the names it had left. -/
def Stays (folder : List α) (d : Descent α) : Prop := folder.drop (folder.length - d.up) <+: d.down

instance [DecidableEq α] (folder : List α) (d : Descent α) : Decidable (d.Stays folder) :=
  inferInstanceAs (Decidable (_ <+: _))

/-- Those are the paths that end inside of the folder. -/
theorem prefix_walk_iff (folder : List α) (path : List (Segment α)) :
    folder <+: Segment.walk folder path ↔ (ofPath path).Stays folder := by
  rw [walk_eq]
  unfold target Stays
  generalize folder.length - (ofPath path).up = n
  nth_rewrite 1 [← List.take_append_drop n folder]
  exact List.prefix_append_right_inj _

theorem stays_of_up_eq_zero {d : Descent α} (h : d.up = 0) (folder : List α) : d.Stays folder := by
  unfold Stays
  rw [h, Nat.sub_zero, List.drop_length]
  exact List.nil_prefix

end Descent
