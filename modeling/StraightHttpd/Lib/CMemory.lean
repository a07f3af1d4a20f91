import Mathlib

/-! # C memory and C strings over byte lists

A region of memory is a list of bytes; a pointer into it is an offset. `poke` writes a block at an
offset and lets the region grow, so a write past the end shows as a longer list. A C string is read
up to its first NUL. Nothing here knows the program that uses it.
-/

set_option autoImplicit false

namespace CMemory

abbrev Bytes := List UInt8

/-- The bytes of an ASCII literal. -/
def bytes (s : String) : Bytes := s.toList.map fun c => UInt8.ofNat c.toNat

/-! ## Loads and stores -/

/-- The byte at offset `i`; what lies past the region reads as zero. -/
def peek (m : Bytes) (i : ℕ) : UInt8 := m.getD i 0

/-- `memcpy(m + i, bs, bs.length)`. -/
def poke (m : Bytes) (i : ℕ) (bs : Bytes) : Bytes := m.take i ++ bs ++ m.drop (i + bs.length)

/-- `n` bytes from offset `i`. -/
def slice (m : Bytes) (i n : ℕ) : Bytes := (m.drop i).take n

attribute [grind =] peek poke slice

@[simp] theorem poke_nil (m : Bytes) (i : ℕ) : poke m i [] = m := by
  simp [poke]

theorem poke_length {m bs : Bytes} {i : ℕ} (h : i + bs.length ≤ m.length) :
    (poke m i bs).length = m.length := by
  simp only [poke, List.length_append, List.length_take, List.length_drop]
  omega

theorem length_le_poke {m bs : Bytes} {i : ℕ} (h : i ≤ m.length) :
    i + bs.length ≤ (poke m i bs).length := by
  simp only [poke, List.length_append, List.length_take, List.length_drop]
  omega

/-- A region does not shrink. -/
theorem length_le_poke_self (m : Bytes) (i : ℕ) (bs : Bytes) : m.length ≤ (poke m i bs).length := by
  simp only [poke, List.length_append, List.length_take, List.length_drop]
  omega

theorem take_poke {m : Bytes} {i : ℕ} (bs : Bytes) (h : i ≤ m.length) :
    (poke m i bs).take i = m.take i := by
  rw [poke, List.append_assoc, List.take_append_of_le_length (by simp [h]), List.take_take,
    Nat.min_self]

/-- A block written at `i` extends the bytes before `i`. -/
theorem take_poke_add {m : Bytes} {i : ℕ} (bs : Bytes) (h : i ≤ m.length) :
    (poke m i bs).take (i + bs.length) = m.take i ++ bs := by
  have hl : (m.take i ++ bs).length = i + bs.length := by simp [h]
  rw [poke, ← hl, List.take_left]

/-- Bytes before the written block keep their values. -/
theorem take_poke_of_le {m : Bytes} {i k : ℕ} (bs : Bytes) (hk : k ≤ i) (h : i ≤ m.length) :
    (poke m i bs).take k = m.take k := by
  have hi := take_poke bs h
  calc (poke m i bs).take k = ((poke m i bs).take i).take k := by rw [List.take_take, Nat.min_eq_left hk]
    _ = m.take k := by rw [hi, List.take_take, Nat.min_eq_left hk]

theorem drop_poke {m : Bytes} {i : ℕ} (bs : Bytes) (h : i ≤ m.length) :
    (poke m i bs).drop i = bs ++ m.drop (i + bs.length) := by
  have hl : (m.take i).length = i := by simp [h]
  rw [poke, List.append_assoc]
  nth_rewrite 1 [← hl]
  rw [List.drop_left]

/-- The bytes from the start of the written block on. -/
theorem slice_poke {m : Bytes} {i : ℕ} (bs : Bytes) (h : i ≤ m.length) :
    slice (poke m i bs) i bs.length = bs := by
  rw [slice, drop_poke bs h, List.take_left]

/-- What a slice leaves of the memory from its start on. -/
theorem slice_append_drop (m : Bytes) (i n : ℕ) :
    slice m i n ++ m.drop (i + (slice m i n).length) = m.drop i := by
  rw [← List.drop_drop, slice]
  generalize m.drop i = l
  rcases Nat.le_total n l.length with h | h
  · rw [List.length_take_of_le h, List.take_append_drop]
  · rw [List.take_of_length_le h, List.drop_length, List.append_nil]

/-! ## C strings -/

/-- The C string at the start of the region. -/
def cstr (m : Bytes) : Bytes := m.takeWhile (· != 0)

def strlen (m : Bytes) : ℕ := (cstr m).length

/-- Offset of the first occurrence of `needle` in `hay`. -/
def find (needle : Bytes) : Bytes → Option ℕ
  | [] => if needle = [] then some 0 else none
  | b :: hay => if needle.isPrefixOf (b :: hay) then some 0 else (find needle hay).map (· + 1)

/-- `strstr(m, needle)`, as an offset. -/
def strstr (m needle : Bytes) : Option ℕ := find needle (cstr m)

/-- `strchr(m, c)` for a character other than NUL, as an offset. -/
def strchr (m : Bytes) (c : UInt8) : Option ℕ := find [c] (cstr m)

/-- `strcat(m, s)`. -/
def strcat (m s : Bytes) : Bytes := poke m (strlen m) (cstr s ++ [0])

/-- What `strncpy(_, s, n)` writes: at most `n` bytes of the string, filled up with NULs. -/
def strncpyBytes (s : Bytes) (n : ℕ) : Bytes :=
  let t := (cstr s).take n
  t ++ List.replicate (n - t.length) 0

@[simp] theorem cstr_nil : cstr [] = [] := rfl

@[simp] theorem cstr_zero_cons (m : Bytes) : cstr (0 :: m) = [] := rfl

theorem cstr_cons {b : UInt8} (hb : b ≠ 0) (m : Bytes) : cstr (b :: m) = b :: cstr m :=
  List.takeWhile_cons_of_pos (p := fun c => c != 0) (bne_iff_ne.mpr hb)

theorem cstr_append_zero (s m : Bytes) : cstr (s ++ 0 :: m) = cstr s := by
  induction s with
  | nil => rfl
  | cons b s ih =>
    by_cases hb : b = 0
    · rw [hb]
      rfl
    · rw [List.cons_append, cstr_cons hb, cstr_cons hb, ih]

theorem cstr_of_no_nul {t : Bytes} (ht : (0 : UInt8) ∉ t) : cstr t = t := by
  induction t with
  | nil => rfl
  | cons b t ih =>
    have hb : b ≠ 0 := fun h => ht (by simp [h])
    rw [cstr_cons hb, ih fun h => ht (List.mem_cons_of_mem _ h)]

/-- A text without NUL is a prefix of the memory exactly when it is one of the C string there. -/
theorem prefix_cstr_iff {t : Bytes} (ht : (0 : UInt8) ∉ t) (m : Bytes) : t <+: cstr m ↔ t <+: m := by
  induction t generalizing m with
  | nil => simp
  | cons a t ih =>
    have ha : a ≠ 0 := fun h => ht (by simp [h])
    have ih := ih fun h => ht (List.mem_cons_of_mem _ h)
    cases m with
    | nil => rfl
    | cons b m =>
      by_cases hb : b = 0
      · rw [hb, cstr_zero_cons, List.cons_prefix_cons]
        simp [ha]
      · rw [cstr_cons hb, List.cons_prefix_cons, List.cons_prefix_cons, ih]

theorem strlen_le (m : Bytes) : strlen m ≤ m.length :=
  List.IsPrefix.length_le (List.takeWhile_prefix _)

/-! ## Numbers in text -/

def isDigit (b : UInt8) : Bool := 48 ≤ b && b ≤ 57

/-- Decimal value of the digits at the start of the text, on top of `acc`. -/
def digits (acc : ℕ) : Bytes → ℕ
  | [] => acc
  | b :: m => if isDigit b then digits (10 * acc + (b.toNat - 48)) m else acc

/-- The decimal digits of a natural number. -/
def natText (n : ℕ) : Bytes :=
  if n = 0 then [48] else (Nat.digits 10 n).reverse.map fun d => UInt8.ofNat (48 + d)

/-- `%d` and `%ld`. -/
def intText (n : ℤ) : Bytes := if n < 0 then 45 :: natText n.natAbs else natText n.natAbs

def hexDigit (d : ℕ) : UInt8 := UInt8.ofNat (if d < 10 then 48 + d else 55 + d)

/-- `%X`. -/
def hexText (n : ℕ) : Bytes :=
  if n = 0 then [48] else (Nat.digits 16 n).reverse.map hexDigit

/-- `%08lX`. -/
def hex8Text (n : ℕ) : Bytes :=
  (List.range 8).reverse.map fun i => hexDigit (n / 16 ^ i % 16)

/-- Two's-complement reading of a 32-bit result. -/
def wrap32 (n : ℤ) : ℤ := Int.bmod n (2 ^ 32)

def isSpace (b : UInt8) : Bool := b == 32 || (9 ≤ b && b ≤ 13)

/-- `atol`: blanks, an optional sign, digits; a value outside the 32-bit `long` saturates. -/
def atol (m : Bytes) : ℤ :=
  let t := m.dropWhile isSpace
  match t with
  | 45 :: r => max (-(digits 0 r : ℤ)) (-2147483648)
  | 43 :: r => min (digits 0 r : ℤ) 2147483647
  | _ => min (digits 0 t : ℤ) 2147483647

example : atol (bytes " 1024\r\nHost") = 1024 := by decide

end CMemory
