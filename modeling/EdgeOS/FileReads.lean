import EdgeOS.Buffer

namespace EdgeOS

/-!
Files as their file systems read them: `ops->read`, and a file with its holes and positions of 32 bits.
-/

open List

/-- `ops->read` of a file, which puts at most the bytes that are asked for. `none` is a negative return value. -/
structure FileReads where
  read : ℕ → ℕ → Option Bytes
  short : ∀ off n bs, read off n = some bs → bs.length ≤ n

/-- A file as its file system has it: a hole has no bytes stored. -/
structure File32 where
  size : ℕ
  stored : ℕ → Option UInt8
  small : size < 2 ^ 32

namespace File32

variable (f : File32)

def byte (x : ℕ) : UInt8 := (f.stored x).getD 0

/-- The bytes of the file from a position on, at most `len`. -/
def bytesFrom (p len : ℕ) : Bytes := (List.range (min len (f.size - p))).map fun i => f.byte (p + i)

variable {f : File32}

theorem bytesFrom_length (p len : ℕ) : (f.bytesFrom p len).length = min len (f.size - p) := by
  unfold bytesFrom
  rw [length_map, length_range]

theorem bytesFrom_past {p len : ℕ} (h : f.size ≤ p) : f.bytesFrom p len = [] := by
  apply eq_nil_of_length_eq_zero
  rw [bytesFrom_length]
  omega

theorem bytesFrom_add {p n len : ℕ} (hn : p + n ≤ f.size) :
    f.bytesFrom p n ++ f.bytesFrom (p + n) len = f.bytesFrom p (n + len) := by
  unfold bytesFrom
  rw [show min (n + len) (f.size - p) = min n (f.size - p) + min len (f.size - (p + n)) by omega, range_add,
    map_append, map_map]
  congr 1
  apply map_congr_left
  intro i _
  change f.byte (p + n + i) = f.byte (p + (min n (f.size - p) + i))
  congr 1
  omega

end File32

end EdgeOS
