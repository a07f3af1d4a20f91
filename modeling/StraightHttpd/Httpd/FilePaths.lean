import StraightHttpd.Lib.Paths
import StraightHttpd.Utils

/-! # How the system resolves a path

Names are compared without their case, `/` and `\` both end a name, and a path without a drive is taken from
the current folder.
-/

set_option autoImplicit false

namespace StraightHttpd
open CMemory

/-- A drive, and the names that lead to a folder or a file on it. -/
structure Place where
  drive : UInt8
  names : List Bytes
  deriving DecidableEq, Repr

/-- `/` or `\` -/
def isSlash (b : UInt8) : Bool := b == 47 || b == 92

/-- What the text between two slashes stands for: nothing, a step up, or a name. -/
def segmentOf (t : Bytes) : Option (Segment Bytes) :=
  if t = [] ∨ t = [46] then none else if t = [46, 46] then some .up else some (.name t)

/-- The segments of a text. -/
def segments (text : Bytes) : List (Segment Bytes) := ((upper text).splitOnP isSlash).filterMap segmentOf

/-- Where a path leads from the current folder. -/
def resolve (cwd : Place) (path : Bytes) : Place :=
  match path with
  | c :: 58 :: rest => { drive := toUpper c, names := Segment.walk [] (segments rest) }
  | c :: rest =>
    { drive := cwd.drive
      names := Segment.walk (if isSlash c then [] else cwd.names) (segments (c :: rest)) }
  | [] => cwd

/-- The path leads into the folder, or to the folder itself. -/
def Inside (cwd : Place) (root path : Bytes) : Prop :=
  (resolve cwd path).drive = (resolve cwd root).drive ∧ (resolve cwd root).names <+: (resolve cwd path).names

instance (cwd : Place) (root path : Bytes) : Decidable (Inside cwd root path) :=
  inferInstanceAs (Decidable (_ ∧ _))

theorem isSlash_toUpper (b : UInt8) : isSlash (toUpper b) = isSlash b := by
  revert b
  decide +kernel

/-- A slash ends a segment. -/
theorem segments_slash (a t : Bytes) {b : UInt8} (hb : isSlash b = true) :
    segments (a ++ b :: t) = segments a ++ segments t := by
  have hb' : isSlash (toUpper b) = true := (isSlash_toUpper b).trans hb
  unfold segments upper
  rw [List.map_append, List.map_cons, List.splitOnP_append_cons _ _ hb', List.filterMap_append]

theorem segments_upper (t : Bytes) : segments (upper t) = segments t := by
  rw [segments, segments, upper_upper]

/-- A text behind a root that ends with a slash. -/
theorem segments_root {root : Bytes} (hroot : root.getLast? = some 47) (text : Bytes) :
    segments (root ++ text) = segments root ++ segments text := by
  obtain ⟨a, rfl⟩ := List.getLast?_eq_some_iff.mp hroot
  rw [List.append_assoc, List.singleton_append, segments_slash _ _ (by decide), segments_slash _ _ (by decide)]
  have hnil : segments [] = [] := rfl
  rw [hnil, List.append_nil]

/-- The path of a text on its own. -/
def descent (text : Bytes) : Descent Bytes := .ofPath (segments text)

/-- A text behind an absolute root leads into it exactly when it stays there. -/
theorem inside_append_iff (cwd : Place) {c : UInt8} {root : Bytes} (hroot : root.getLast? = some 47)
    (text : Bytes) : Inside cwd (c :: 58 :: root) (c :: 58 :: root ++ text) ↔
      (descent text).Stays (resolve cwd (c :: 58 :: root)).names := by
  have hwalk : (resolve cwd (c :: 58 :: root ++ text)).names =
      Segment.walk (resolve cwd (c :: 58 :: root)).names (segments text) := by
    show Segment.walk [] (segments (root ++ text)) = Segment.walk (Segment.walk [] (segments root)) _
    rw [segments_root hroot, Segment.walk_append]
  unfold Inside
  rw [hwalk, Descent.prefix_walk_iff]
  exact and_iff_right rfl

theorem resolve_upper (cwd : Place) (c : UInt8) {x y : Bytes} (h : upper x = upper y) :
    resolve cwd (c :: 58 :: x) = resolve cwd (c :: 58 :: y) := by
  show Place.mk (toUpper c) (Segment.walk [] (segments x)) = Place.mk (toUpper c) (Segment.walk [] (segments y))
  rw [← segments_upper x, h, segments_upper]

end StraightHttpd
