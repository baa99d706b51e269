import Mathlib.Tactic

/-!
# A flat byte memory

A memory is a total function from addresses to bytes. Multi-byte values are little endian, as on
x86-64: `loadLe m a n` reads `n` bytes at `a` and `storeLe m a n v` writes the `n` low bytes of
`v` there. Every write has a range, and a load outside that range is unchanged
(`loadLe_storeLe_of_disjoint`); a load of what was just stored gives the value back modulo `256 ^ n`
(`loadLe_storeLe_self`).

`memcpy` copies forward one byte at a time; on disjoint ranges it is the simultaneous copy
(`memcpy_apply`).
-/

set_option autoImplicit false

namespace Utamo.Lib

variable {a n v x b i : Nat}

/-- A byte memory: address to byte. -/
abbrev ByteMemory := Nat → UInt8

namespace ByteMemory

/-- The little-endian value of `n` bytes at `a`. -/
def loadLe (m : ByteMemory) (a : Nat) : Nat → Nat
  | 0 => 0
  | n + 1 => (m a).toNat + 256 * loadLe m (a + 1) n

/-- Store the `n` low bytes of `v` at `a`, lowest byte first. -/
def storeLe (m : ByteMemory) (a n v : Nat) : ByteMemory :=
  fun x => if a ≤ x ∧ x < a + n then UInt8.ofNat (v / 256 ^ (x - a)) else m x

/-- A 64-bit load. -/
def load64 (m : ByteMemory) (a : Nat) : Nat := loadLe m a 8

/-- A 64-bit store. -/
def store64 (m : ByteMemory) (a v : Nat) : ByteMemory := storeLe m a 8 v

/-- Set `n` bytes at `a` to `b`. -/
def memset (m : ByteMemory) (a : Nat) (b : UInt8) (n : Nat) : ByteMemory :=
  fun x => if a ≤ x ∧ x < a + n then b else m x

/-- Copy `n` bytes from `src` to `dst` in ascending order, each byte read from the memory the
earlier bytes were already written to. -/
def memcpy (m : ByteMemory) (dst src : Nat) : Nat → ByteMemory
  | 0 => m
  | n + 1 =>
    let m' := memcpy m dst src n
    fun x => if x = dst + n then m' (src + n) else m' x

/-- Write a list of bytes at `a`. -/
def writeBytes (m : ByteMemory) (a : Nat) (bs : List UInt8) : ByteMemory :=
  fun x => if a ≤ x then (bs[x - a]?).getD (m x) else m x

/-- Read `n` bytes at `a`. -/
def readBytes (m : ByteMemory) (a n : Nat) : List UInt8 :=
  (List.range n).map fun i => m (a + i)

/-- A load reads only its own bytes. -/
theorem loadLe_congr {m m' : ByteMemory}
    (h : ∀ x, a ≤ x → x < a + n → m' x = m x) : loadLe m' a n = loadLe m a n := by
  induction n generalizing a with
  | zero => rfl
  | succ n ih =>
    rw [loadLe, loadLe, h a (le_refl a) (by omega)]
    rw [ih fun x hx hlt => h x (by omega) (by omega)]

theorem load64_congr {m m' : ByteMemory}
    (h : ∀ x, a ≤ x → x < a + 8 → m' x = m x) : load64 m' a = load64 m a :=
  loadLe_congr h

theorem storeLe_of_outside {m : ByteMemory} (h : x < a ∨ a + n ≤ x) :
    storeLe m a n v x = m x := by
  unfold storeLe
  rw [if_neg (by omega)]

theorem store64_of_outside {m : ByteMemory} (h : x < a ∨ a + 8 ≤ x) :
    store64 m a v x = m x :=
  storeLe_of_outside h

theorem memset_of_outside {m : ByteMemory} {b : UInt8} (h : x < a ∨ a + n ≤ x) :
    memset m a b n x = m x := by
  unfold memset
  rw [if_neg (by omega)]

theorem memset_of_inside {m : ByteMemory} {b : UInt8} (h : a ≤ x)
    (hlt : x < a + n) : memset m a b n x = b := by
  unfold memset
  rw [if_pos ⟨h, hlt⟩]

/-- The bytes of a store that starts one byte earlier, read after its first byte. -/
private theorem loadLe_storeLe_tail (m : ByteMemory) (a n v : Nat) :
    loadLe (storeLe m a (n + 1) v) (a + 1) n =
      loadLe (storeLe m (a + 1) n (v / 256)) (a + 1) n := by
  apply loadLe_congr
  intro x hx hlt
  unfold storeLe
  rw [if_pos (by omega), if_pos (by omega)]
  have e : x - a = (x - (a + 1)) + 1 := by omega
  rw [e, pow_succ, Nat.mul_comm, Nat.div_div_eq_div_mul]

theorem loadLe_storeLe_self (m : ByteMemory) (a n v : Nat) :
    loadLe (storeLe m a n v) a n = v % 256 ^ n := by
  induction n generalizing a v with
  | zero => simp [loadLe, Nat.mod_one]
  | succ n ih =>
    rw [loadLe, loadLe_storeLe_tail, ih]
    have hfirst : (storeLe m a (n + 1) v a).toNat = v % 256 := by
      unfold storeLe
      rw [if_pos (by omega)]
      simp
    rw [hfirst, pow_succ, Nat.mul_comm (256 ^ n) 256, Nat.mod_mul]

theorem loadLe_storeLe_of_disjoint {m : ByteMemory} {k : Nat}
    (h : b + k ≤ a ∨ a + n ≤ b) : loadLe (storeLe m a n v) b k = loadLe m b k := by
  apply loadLe_congr
  intro x hx hlt
  exact storeLe_of_outside (by omega)

theorem load64_store64_self {m : ByteMemory} (hv : v < 2 ^ 64) :
    load64 (store64 m a v) a = v := by
  have h := loadLe_storeLe_self m a 8 v
  rw [Nat.mod_eq_of_lt (by norm_num at hv ⊢; exact hv)] at h
  exact h

theorem load64_store64_of_disjoint {m : ByteMemory} (h : b + 8 ≤ a ∨ a + 8 ≤ b) :
    load64 (store64 m a v) b = load64 m b :=
  loadLe_storeLe_of_disjoint h

theorem memcpy_of_outside {m : ByteMemory} {dst src : Nat} (h : x < dst ∨ dst + n ≤ x) :
    memcpy m dst src n x = m x := by
  induction n with
  | zero => rfl
  | succ n ih =>
    rw [memcpy]
    simp only
    rw [if_neg (by omega)]
    exact ih (by omega)

/-- On disjoint ranges the forward copy is the simultaneous copy. -/
theorem memcpy_apply {m : ByteMemory} {dst src : Nat}
    (h : src + n ≤ dst ∨ dst + n ≤ src) (hi : i < n) :
    memcpy m dst src n (dst + i) = m (src + i) := by
  induction n with
  | zero => omega
  | succ n ih =>
    rw [memcpy]
    simp only
    by_cases hin : i = n
    · subst hin
      rw [if_pos rfl]
      exact memcpy_of_outside (by omega)
    · rw [if_neg (by omega)]
      exact ih (by omega) (by omega)

theorem writeBytes_of_outside {m : ByteMemory} {bs : List UInt8}
    (h : x < a ∨ a + bs.length ≤ x) : writeBytes m a bs x = m x := by
  rw [writeBytes]
  split
  · rw [List.getElem?_eq_none (by omega)]
    rfl
  · rfl

theorem loadLe_zero_of {m : ByteMemory} (h : ∀ x, a ≤ x → x < a + n → m x = 0) :
    loadLe m a n = 0 := by
  induction n generalizing a with
  | zero => rfl
  | succ n ih =>
    rw [loadLe, h a (le_refl a) (by omega), ih fun x hx hlt => h x (by omega) (by omega)]
    rfl

/-- A load of the same bytes elsewhere. -/
theorem loadLe_eq_of {m m' : ByteMemory} (h : ∀ i < n, m' (b + i) = m (a + i)) :
    loadLe m' b n = loadLe m a n := by
  induction n generalizing a b with
  | zero => rfl
  | succ n ih =>
    have hfirst := h 0 (Nat.succ_pos n)
    rw [loadLe, loadLe]
    rw [Nat.add_zero, Nat.add_zero] at hfirst
    rw [hfirst, ih fun i hi => ?_]
    rw [Nat.add_assoc, Nat.add_assoc, Nat.add_comm 1 i]
    exact h (i + 1) (Nat.succ_lt_succ hi)

/-! ## Lists of bytes -/

@[simp]
theorem length_readBytes (m : ByteMemory) (a n : Nat) : (readBytes m a n).length = n := by
  rw [readBytes, List.length_map, List.length_range]

theorem getElem_readBytes {m : ByteMemory} (h : i < (readBytes m a n).length) :
    (readBytes m a n)[i] = m (a + i) := by
  simp [readBytes]

theorem readBytes_eq_of {m m' : ByteMemory} (h : ∀ i < n, m' (b + i) = m (a + i)) :
    readBytes m' b n = readBytes m a n := by
  refine List.map_congr_left fun i hi => ?_
  exact h i (List.mem_range.1 hi)

theorem readBytes_add (m : ByteMemory) (a n k : Nat) :
    readBytes m a (n + k) = readBytes m a n ++ readBytes m (a + n) k := by
  rw [readBytes, List.range_add, List.map_append, List.map_map]
  refine congrArg (readBytes m a n ++ ·) (List.map_congr_left fun i _ => ?_)
  exact congrArg m (Nat.add_assoc a n i).symm

theorem take_readBytes (m : ByteMemory) (a n k : Nat) :
    (readBytes m a n).take k = readBytes m a (min k n) := by
  rw [readBytes, ← List.map_take, List.take_range]
  rfl

theorem writeBytes_of_inside {m : ByteMemory} {bs : List UInt8} (h : i < bs.length) :
    writeBytes m a bs (a + i) = bs[i] := by
  rw [writeBytes, if_pos (Nat.le_add_right a i), Nat.add_sub_cancel_left,
    List.getElem?_eq_getElem h]
  rfl

/-- What was just written is read back. -/
theorem readBytes_writeBytes (m : ByteMemory) (a : Nat) (bs : List UInt8) :
    readBytes (writeBytes m a bs) a bs.length = bs := by
  refine List.ext_getElem (length_readBytes _ _ _) fun i hi hi' => ?_
  rw [getElem_readBytes, writeBytes_of_inside hi']

end ByteMemory

end Utamo.Lib
