import Mathlib.Data.List.Basic
import Mathlib.Tactic

/-!
# Bytes

Words as little endian bytes, and memories of bytes that are read and written in runs.
-/

namespace EgLang.Library

set_option autoImplicit false

/-! ## Words -/

/-- The low `n` bytes of a word, the lowest first. -/
def bytesOf : ℕ → ℕ → List UInt8
  | 0, _ => []
  | n + 1, w => UInt8.ofNat w :: bytesOf n (w / 256)

def wordOf : List UInt8 → ℕ
  | [] => 0
  | b :: bs => b.toNat + 256 * wordOf bs

@[simp] theorem length_bytesOf (n w : ℕ) : (bytesOf n w).length = n := by
  induction n generalizing w with
  | zero => rfl
  | succ n ih => rw [bytesOf, List.length_cons, ih]

theorem wordOf_bytesOf {n w : ℕ} (h : w < 256 ^ n) : wordOf (bytesOf n w) = w := by
  induction n generalizing w with
  | zero =>
    rw [pow_zero, Nat.lt_one_iff] at h
    subst h
    rfl
  | succ n ih =>
    have hdiv : w / 256 < 256 ^ n := by
      rw [Nat.div_lt_iff_lt_mul (by omega), ← pow_succ]
      exact h
    rw [bytesOf, wordOf, ih hdiv, UInt8.toNat_ofNat']
    omega

theorem wordOf_zeros {bs : List UInt8} (h : ∀ b ∈ bs, b = 0) : wordOf bs = 0 := by
  induction bs with
  | nil => rfl
  | cons b bs ih =>
    rw [List.forall_mem_cons] at h
    rw [wordOf, ih h.2, h.1]
    rfl

/-! ## Memories -/

abbrev Memory := ℕ → UInt8

namespace Memory
variable (m : Memory)

/-- The `n` bytes from `p` on. -/
def read (p n : ℕ) : List UInt8 := (List.range n).map fun i => m (p + i)

/-- The bytes are written from `p` on. -/
def write (p : ℕ) (bs : List UInt8) : Memory := fun q =>
  if p ≤ q then bs[q - p]?.getD (m q) else m q

@[simp] theorem length_read (p n : ℕ) : (m.read p n).length = n := by
  rw [read, List.length_map, List.length_range]

theorem read_add (p a b : ℕ) : m.read p (a + b) = m.read p a ++ m.read (p + a) b := by
  rw [read, List.range_add, List.map_append, List.map_map]
  congr 1
  exact List.map_congr_left fun i _ => by rw [Function.comp_apply, Nat.add_assoc]

theorem mem_read {p n : ℕ} {b : UInt8} : b ∈ m.read p n ↔ ∃ i < n, m (p + i) = b := by
  rw [read, List.mem_map]
  simp only [List.mem_range]

theorem read_eq {p : ℕ} {bs : List UInt8} (h : ∀ i (hi : i < bs.length), m (p + i) = bs[i]) :
    m.read p bs.length = bs := by
  refine List.ext_getElem (m.length_read p _) fun i hi hi' => ?_
  simp only [read, List.getElem_map, List.getElem_range]
  exact h i hi'

theorem write_inside {p i : ℕ} {bs : List UInt8} (hi : i < bs.length) :
    m.write p bs (p + i) = bs[i] := by
  rw [write, if_pos (Nat.le_add_right p i), Nat.add_sub_cancel_left, List.getElem?_eq_getElem hi,
    Option.getD_some]

theorem write_outside {p q : ℕ} {bs : List UInt8} (h : q < p ∨ p + bs.length ≤ q) :
    m.write p bs q = m q := by
  unfold write
  split
  · rw [List.getElem?_eq_none (by omega), Option.getD_none]
  · rfl

/-- Runs that are written one behind the other are one run. -/
theorem write_write (p : ℕ) (as bs : List UInt8) :
    (m.write p as).write (p + as.length) bs = m.write p (as ++ bs) := by
  funext q
  unfold write
  by_cases hp : p ≤ q
  · by_cases ha : p + as.length ≤ q
    · rw [if_pos ha, if_pos hp, if_pos hp, List.getElem?_append_right (by omega),
        List.getElem?_eq_none (l := as) (by omega), Option.getD_none, Nat.sub_sub]
    · rw [if_neg ha, if_pos hp, if_pos hp, List.getElem?_append_left (by omega)]
  · rw [if_neg hp, if_neg (by omega), if_neg hp]

end Memory
end EgLang.Library
