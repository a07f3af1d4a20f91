import StraightHttpd.Lib.CMemory

/-! # Words in memory

A word of `k` bytes is stored with its lowest byte first.
-/

set_option autoImplicit false

namespace CMemory

def leBytes : ℕ → ℕ → Bytes
  | 0, _ => []
  | k + 1, n => UInt8.ofNat n :: leBytes k (n / 256)

def leValue : Bytes → ℕ
  | [] => 0
  | b :: t => b.toNat + 256 * leValue t

/-- The word of `k` bytes at offset `p`. -/
def wordAt (k : ℕ) (m : Bytes) (p : ℕ) : ℕ := leValue (slice m p k)

@[simp] theorem leBytes_length (k n : ℕ) : (leBytes k n).length = k := by
  induction k generalizing n with
  | zero => rfl
  | succ k ih => rw [leBytes, List.length_cons, ih]

theorem leValue_leBytes (k n : ℕ) : leValue (leBytes k n) = n % 256 ^ k := by
  induction k generalizing n with
  | zero => rw [pow_zero, Nat.mod_one]; rfl
  | succ k ih =>
    have hbyte : (UInt8.ofNat n).toNat = n % 256 := UInt8.toNat_ofNat'
    rw [leBytes, leValue, ih, hbyte, pow_succ', Nat.mod_mul]

/-- A block that stands in the middle of the memory. -/
theorem slice_append {m a b c : Bytes} {p k : ℕ} (hm : m = a ++ (b ++ c)) (hp : p = a.length)
    (hk : k = b.length) : slice m p k = b := by
  rw [slice, hm, hp, hk, List.drop_left, List.take_left]

/-- A word that was stored. -/
theorem wordAt_append {m a c : Bytes} {p k n : ℕ} (hm : m = a ++ (leBytes k n ++ c)) (hp : p = a.length)
    (hn : n < 256 ^ k) : wordAt k m p = n := by
  rw [wordAt, slice_append hm hp (leBytes_length k n).symm, leValue_leBytes, Nat.mod_eq_of_lt hn]

end CMemory
