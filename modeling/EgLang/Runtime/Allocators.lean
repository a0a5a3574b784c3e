import Mathlib.Data.List.Nodup
import Mathlib.Data.List.Range
import Mathlib.Data.List.Perm.Subperm
import Mathlib.Data.Nat.ModEq
import Mathlib.Data.Finset.Basic
import Mathlib.Data.Finset.Range
import EgLang.Library.StepSystem

/-! # The allocators of instances

An action with several instances under one parent instance has a range allocator: a bitmask of the
free indices if there are at most 64 of them, else a ring of free indices. The three classes are
one type here, and all that can be told from the outside is the set of the free indices.
-/

namespace EgLang.Runtime
open Library
set_option autoImplicit false

/-! ## Bitmasks -/

/-- `_BitScanForward`, whose mask has 32 bits. -/
def bitScanForward (mask : BitVec 32) : Option ℕ :=
  (List.range 32).find? fun i => mask.getLsbD i

theorem bitScanForward_eq_some {mask : BitVec 32} {i : ℕ} (h : bitScanForward mask = some i) :
    i < 32 ∧ mask.getLsbD i = true := by
  refine ⟨?_, by simpa using List.find?_some h⟩
  exact List.mem_range.mp (List.mem_of_find?_eq_some h)

theorem bitScanForward_eq_none {mask : BitVec 32} (h : bitScanForward mask = none) (i : ℕ) :
    mask.getLsbD i = false := by
  by_cases hi : i < 32
  · simpa using List.find?_eq_none.mp h i (List.mem_range.mpr hi)
  · exact BitVec.getLsbD_of_ge mask i (Nat.le_of_not_lt hi)

/-- The `std::bitset` of both bitmask allocators: the bit of a free index is set. -/
structure Bitmask (size : ℕ) where
  bitset : BitVec size
deriving DecidableEq, Repr

namespace Bitmask
variable {size : ℕ}

def initial (size : ℕ) : Bitmask size := ⟨BitVec.allOnes size⟩

def allocate (inst : ℕ) (b : Bitmask size) : Bitmask size :=
  ⟨b.bitset &&& ~~~ BitVec.twoPow size inst⟩

def free (inst : ℕ) (b : Bitmask size) : Bitmask size := ⟨b.bitset ||| BitVec.twoPow size inst⟩

def empty (b : Bitmask size) : Bool := b.bitset = BitVec.allOnes size

def full (b : Bitmask size) : Bool := b.bitset = BitVec.ofNat size 0

/-- `nextFree` of `Bitmask32Allocator`. -/
def nextFree32 (b : Bitmask size) : ℕ :=
  match bitScanForward (b.bitset.setWidth 32) with
  | some index => index
  | none => size

/-- `nextFree` of `Bitmask64Allocator`, which scans the two halves of the mask. -/
def nextFree64 (b : Bitmask size) : ℕ :=
  let mask := b.bitset.setWidth 64
  match bitScanForward (mask.setWidth 32) with
  | some index => index
  | none =>
    match bitScanForward ((mask >>> 32).setWidth 32) with
    | some index => index + 32
    | none => size

/-- The bit of the index is set. -/
def Free (b : Bitmask size) (i : ℕ) : Prop := b.bitset.getLsbD i = true

theorem Free.lt {b : Bitmask size} {i : ℕ} (h : b.Free i) : i < size :=
  BitVec.lt_of_getLsbD h

@[simp] theorem free_initial {i : ℕ} : (initial size).Free i ↔ i < size := by
  simp [Free, initial]

@[simp] theorem free_allocate {b : Bitmask size} {i k : ℕ} :
    (b.allocate k).Free i ↔ b.Free i ∧ i ≠ k := by
  unfold Free allocate
  simp only [BitVec.getLsbD_and, BitVec.getLsbD_not, BitVec.getLsbD_twoPow, Bool.and_eq_true,
    decide_eq_true_eq, Bool.not_eq_true', Bool.and_eq_false_imp]
  constructor
  · rintro ⟨hi, hlt, hk⟩
    exact ⟨hi, fun hik => by simpa [hik] using hk (hik ▸ hlt)⟩
  · rintro ⟨hi, hne⟩
    exact ⟨hi, BitVec.lt_of_getLsbD hi, fun _ => by simpa using hne.symm⟩

@[simp] theorem free_free {b : Bitmask size} {i k : ℕ} (hk : k < size) :
    (b.free k).Free i ↔ b.Free i ∨ i = k := by
  unfold Free free
  simp only [BitVec.getLsbD_or, BitVec.getLsbD_twoPow, Bool.or_eq_true, Bool.and_eq_true,
    decide_eq_true_eq]
  exact or_congr_right ⟨fun h => h.2.symm, fun h => ⟨hk, h.symm⟩⟩

theorem full_iff {b : Bitmask size} : b.full = true ↔ ∀ i < size, ¬ b.Free i := by
  rw [full, decide_eq_true_eq]
  constructor
  · intro h i _
    simp [Free, h]
  · intro h
    refine BitVec.eq_of_getLsbD_eq fun i hi => ?_
    rw [BitVec.getLsbD_zero]
    exact Bool.eq_false_iff.mpr (h i hi)

theorem empty_iff {b : Bitmask size} : b.empty = true ↔ ∀ i < size, b.Free i := by
  rw [empty, decide_eq_true_eq]
  constructor
  · intro h i hi
    simp [Free, h, hi]
  · intro h
    refine BitVec.eq_of_getLsbD_eq fun i hi => ?_
    rw [BitVec.getLsbD_allOnes, decide_eq_true hi]
    exact h i hi

theorem exists_free {b : Bitmask size} (h : b.full = false) : ∃ i, i < size ∧ b.Free i := by
  by_contra hnone
  have : b.full = true := full_iff.mpr fun i hi hfree => hnone ⟨i, hi, hfree⟩
  rw [h] at this
  cases this

theorem free_nextFree32 {b : Bitmask size} (hsize : size ≤ 32) (h : b.full = false) :
    b.Free b.nextFree32 := by
  obtain ⟨i, hi, hfree⟩ := exists_free h
  unfold nextFree32
  split
  · rename_i index hs
    obtain ⟨hlt, hbit⟩ := bitScanForward_eq_some hs
    simpa [Free, hlt] using hbit
  · rename_i hs
    have := bitScanForward_eq_none hs i
    rw [BitVec.getLsbD_setWidth] at this
    simp [show i < 32 by omega, show b.bitset.getLsbD i = true from hfree] at this

theorem free_nextFree64 {b : Bitmask size} (hsize : size ≤ 64) (h : b.full = false) :
    b.Free b.nextFree64 := by
  obtain ⟨i, hi, hfree⟩ := exists_free h
  have hbit : b.bitset.getLsbD i = true := hfree
  unfold nextFree64
  dsimp only
  split
  · rename_i index hs
    obtain ⟨hlt, hbit⟩ := bitScanForward_eq_some hs
    simpa [Free, hlt, show index < 64 by omega] using hbit
  · rename_i hs
    split
    · rename_i index hs'
      obtain ⟨hlt, hbit⟩ := bitScanForward_eq_some hs'
      have hlt' : 32 + index < 64 := by omega
      simp only [BitVec.getLsbD_setWidth, BitVec.getLsbD_ushiftRight, hlt, hlt', decide_true,
        Bool.true_and] at hbit
      rwa [Free, Nat.add_comm]
    · -- the free index is in one of the halves
      rename_i hs'
      rcases Nat.lt_or_ge i 32 with hi32 | hi32
      · have := bitScanForward_eq_none hs i
        simp [hi32, hbit] at this
      · have := bitScanForward_eq_none hs' (i - 32)
        simp only [BitVec.getLsbD_setWidth, BitVec.getLsbD_ushiftRight,
          Nat.add_sub_cancel' hi32] at this
        simp [show i - 32 < 32 by omega, show i < 64 by omega, hbit] at this

theorem bitScanForward_zero : bitScanForward (BitVec.ofNat 32 0) = none := by decide

theorem nextFree32_of_full {b : Bitmask size} (h : b.full = true) : b.nextFree32 = size := by
  have hz : b.bitset = BitVec.ofNat size 0 := by simpa [full] using h
  rw [nextFree32, hz, BitVec.setWidth_zero, bitScanForward_zero]

theorem nextFree64_of_full {b : Bitmask size} (h : b.full = true) : b.nextFree64 = size := by
  have hz : b.bitset = BitVec.ofNat size 0 := by simpa [full] using h
  simp [nextFree64, hz, bitScanForward_zero]

end Bitmask

/-! ## The ring -/

/-- `RingAllocator`: the free indices are those from the one after `head` to `tail`. -/
structure RingAllocator (size : ℕ) where
  head : ℕ
  tail : ℕ
  isFull : Bool
  ring : ℕ → ℕ

namespace RingAllocator
variable {size : ℕ}

def initial (size : ℕ) : RingAllocator size := ⟨0, 0, false, id⟩

/-- The position after one of the ring. -/
def advance (size pos : ℕ) : ℕ := if pos = size - 1 then 0 else pos + 1

def nextFree (r : RingAllocator size) : ℕ :=
  if !r.isFull then r.ring (advance size r.head) else size

def allocate (_inst : ℕ) (r : RingAllocator size) : RingAllocator size :=
  let head := advance size r.head
  { r with head := head, isFull := if head = r.tail then true else r.isFull }

def free (inst : ℕ) (r : RingAllocator size) : RingAllocator size :=
  let tail := advance size r.tail
  { r with isFull := false, tail := tail, ring := Function.update r.ring tail inst }

def empty (r : RingAllocator size) : Bool := !r.isFull && r.head = r.tail

def full (r : RingAllocator size) : Bool := r.isFull

/-- The number of free indices. -/
def count (r : RingAllocator size) : ℕ :=
  if r.isFull then 0 else if r.head < r.tail then r.tail - r.head else r.tail + size - r.head

theorem count_of_full {r : RingAllocator size} (h : r.isFull = true) : r.count = 0 := if_pos h

theorem count_of_not_full {r : RingAllocator size} (h : r.isFull = false) :
    r.count = if r.head < r.tail then r.tail - r.head else r.tail + size - r.head :=
  if_neg (by simp [h])

/-- The position `k` places after the head. -/
def position (r : RingAllocator size) (k : ℕ) : ℕ := (r.head + 1 + k) % size

/-- The free indices, the next one first. -/
def freeList (r : RingAllocator size) : List ℕ :=
  (List.range r.count).map fun k => r.ring (r.position k)

def Free (r : RingAllocator size) (i : ℕ) : Prop := i ∈ r.freeList

/-- **The invariant** of a ring. -/
structure Wf (r : RingAllocator size) : Prop where
  head_lt : r.head < size
  tail_lt : r.tail < size
  full_eq : r.isFull = true → r.head = r.tail
  nodup : r.freeList.Nodup
  lt : ∀ i ∈ r.freeList, i < size

theorem advance_eq {pos : ℕ} (h : pos < size) : advance size pos = (pos + 1) % size := by
  unfold advance
  split
  · rw [show pos + 1 = size by omega, Nat.mod_self]
  · rw [Nat.mod_eq_of_lt (by omega)]

theorem eq_of_add_mod {a x y : ℕ} (hx : x < size) (hy : y < size)
    (h : (a + x) % size = (a + y) % size) : x = y := by
  have hmod : x % size = y % size := Nat.ModEq.add_left_cancel' a h
  rwa [Nat.mod_eq_of_lt hx, Nat.mod_eq_of_lt hy] at hmod

/-- The tail is as far from the head as there are free indices. -/
theorem Wf.head_add_count {r : RingAllocator size} (h : r.Wf) :
    (r.head + r.count) % size = r.tail := by
  have hh := h.head_lt
  have ht := h.tail_lt
  unfold count
  split
  · rename_i hf
    rw [Nat.add_zero, Nat.mod_eq_of_lt hh, h.full_eq hf]
  · split
    · rw [Nat.add_sub_cancel' (by omega), Nat.mod_eq_of_lt ht]
    · rw [Nat.add_sub_cancel' (by omega), Nat.add_mod_right, Nat.mod_eq_of_lt ht]

theorem wf_initial (h : 0 < size) : (initial size).Wf where
  head_lt := h
  tail_lt := h
  full_eq hf := by cases hf
  nodup := by
    have hlist : (initial size).freeList = (List.range size).map fun k => (1 + k) % size := by
      simp [freeList, initial, count, position]
    rw [hlist]
    refine List.Nodup.map_on (fun x hx y hy hxy => ?_) List.nodup_range
    exact eq_of_add_mod (List.mem_range.mp hx) (List.mem_range.mp hy) hxy
  lt i hi := by
    obtain ⟨k, _, rfl⟩ := List.mem_map.mp hi
    exact Nat.mod_lt _ h

theorem free_initial (h : 0 < size) {i : ℕ} : (initial size).Free i ↔ i < size := by
  refine ⟨(wf_initial h).lt i, fun hi => ?_⟩
  have hsub : (initial size).freeList ⊆ List.range size := fun k hk =>
    List.mem_range.mpr ((wf_initial h).lt k hk)
  have hlen : (List.range size).length ≤ (initial size).freeList.length := by
    simp [freeList, initial, count]
  exact ((wf_initial h).nodup.subperm hsub).perm_of_length_le hlen |>.mem_iff.mpr
    (List.mem_range.mpr hi)

/-- What is allocated next is the first free index. -/
theorem Wf.freeList_allocate {r : RingAllocator size} (h : r.Wf) (hfull : r.full = false)
    (inst : ℕ) : r.freeList = r.nextFree :: (r.allocate inst).freeList := by
  have hh := h.head_lt
  have ht := h.tail_lt
  have hf : r.isFull = false := hfull
  have hhead : (r.allocate inst).head = (r.head + 1) % size := advance_eq hh
  have hcount : r.count = (r.allocate inst).count + 1 := by
    have hhead' : (r.allocate inst).head = if r.head = size - 1 then 0 else r.head + 1 := rfl
    have htail' : (r.allocate inst).tail = r.tail := rfl
    by_cases hfill : (r.allocate inst).head = r.tail
    · have hf' : (r.allocate inst).isFull = true := if_pos hfill
      rw [count_of_not_full hf, count_of_full hf']
      split_ifs at hhead' ⊢ <;> omega
    · have hf' : (r.allocate inst).isFull = false := (if_neg hfill).trans hf
      rw [count_of_not_full hf, count_of_not_full hf', htail']
      split_ifs at hhead' ⊢ <;> omega
  rw [freeList, hcount, List.range_succ_eq_map, List.map_cons, List.map_map]
  refine congrArg₂ List.cons ?_ (List.map_congr_left fun k _ => ?_)
  · simp [nextFree, hf, position, advance_eq hh]
  · change r.ring (r.position (k + 1)) = r.ring ((r.allocate inst).position k)
    unfold position
    rw [hhead, Nat.add_assoc ((r.head + 1) % size), Nat.mod_add_mod, ← Nat.add_assoc]
    congr 2
    omega

theorem Wf.allocate {r : RingAllocator size} (h : r.Wf) (hfull : r.full = false) (inst : ℕ) :
    (r.allocate inst).Wf where
  head_lt := by
    change advance size r.head < size
    rw [advance_eq h.head_lt]
    exact Nat.mod_lt _ (Nat.zero_lt_of_lt h.head_lt)
  tail_lt := h.tail_lt
  full_eq hf := by
    have hf' : r.isFull = false := hfull
    simp only [RingAllocator.allocate, hf'] at hf ⊢
    simpa using hf
  nodup := (h.freeList_allocate hfull inst ▸ h.nodup).of_cons
  lt i hi := h.lt i (h.freeList_allocate hfull inst ▸ List.mem_cons_of_mem _ hi)

/-- An index that is allocated finds room in the ring. -/
theorem Wf.count_lt {r : RingAllocator size} (h : r.Wf) {i : ℕ} (hi : i < size)
    (halloc : ¬ r.Free i) : r.count < size := by
  have hnodup : (i :: r.freeList).Nodup := List.nodup_cons.mpr ⟨halloc, h.nodup⟩
  have hsub : i :: r.freeList ⊆ List.range size := by
    intro k hk
    rcases List.mem_cons.mp hk with rfl | hk
    · exact List.mem_range.mpr hi
    · exact List.mem_range.mpr (h.lt k hk)
  have := (hnodup.subperm hsub).length_le
  simp only [freeList, List.length_cons, List.length_map, List.length_range] at this
  omega

/-- What is freed becomes the last free index. -/
theorem Wf.freeList_free {r : RingAllocator size} (h : r.Wf) {i : ℕ} (hi : i < size)
    (halloc : ¬ r.Free i) : (r.free i).freeList = r.freeList ++ [i] := by
  have hh := h.head_lt
  have ht := h.tail_lt
  have hlt := h.count_lt hi halloc
  have htail : (r.free i).tail = (r.tail + 1) % size := advance_eq ht
  have hend : (r.head + 1 + r.count) % size = (r.tail + 1) % size := by
    rw [Nat.add_right_comm, ← Nat.mod_add_mod, h.head_add_count]
  have hcount : (r.free i).count = r.count + 1 := by
    have htail' : (r.free i).tail = if r.tail = size - 1 then 0 else r.tail + 1 := rfl
    have hhead' : (r.free i).head = r.head := rfl
    rw [count_of_not_full (r := r.free i) rfl, hhead']
    cases hf : r.isFull with
    | true =>
      have := h.full_eq hf
      rw [count_of_full hf]
      split_ifs at htail' ⊢ <;> omega
    | false =>
      rw [count_of_not_full hf] at hlt ⊢
      split_ifs at htail' hlt ⊢ <;> omega
  rw [freeList, hcount, List.range_succ, List.map_append, List.map_singleton]
  refine congrArg₂ (· ++ ·) (List.map_congr_left fun k hk => ?_) ?_
  · change Function.update r.ring (r.free i).tail i (r.position k) = r.ring (r.position k)
    refine Function.update_of_ne ?_ _ _
    rw [htail, ← hend]
    intro heq
    have hk' := List.mem_range.mp hk
    exact hk'.ne (eq_of_add_mod (hk'.trans hlt) hlt heq)
  · change [Function.update r.ring (r.free i).tail i ((r.head + 1 + r.count) % size)] = [i]
    rw [hend, htail, Function.update_self]

theorem Wf.free {r : RingAllocator size} (h : r.Wf) {i : ℕ} (hi : i < size)
    (halloc : ¬ r.Free i) : (r.free i).Wf where
  head_lt := h.head_lt
  tail_lt := by
    change advance size r.tail < size
    rw [advance_eq h.tail_lt]
    exact Nat.mod_lt _ (Nat.zero_lt_of_lt hi)
  full_eq hf := by cases hf
  nodup := by
    rw [h.freeList_free hi halloc]
    exact List.nodup_append.mpr ⟨h.nodup, List.nodup_singleton i, fun x hx y hy hxy =>
      halloc (List.mem_singleton.mp hy ▸ hxy ▸ hx)⟩
  lt k hk := by
    rw [h.freeList_free hi halloc, List.mem_append, List.mem_singleton] at hk
    rcases hk with hk | rfl
    · exact h.lt k hk
    · exact hi

theorem Wf.full_iff {r : RingAllocator size} (h : r.Wf) :
    r.full = true ↔ ∀ i < size, ¬ r.Free i := by
  refine ⟨fun hf i _ hfree => ?_, fun hnone => ?_⟩
  · rw [Free, freeList, count_of_full hf] at hfree
    cases hfree
  · by_contra hf
    have hmem : r.nextFree ∈ r.freeList := by
      rw [h.freeList_allocate (Bool.eq_false_iff.mpr hf) 0]
      exact List.mem_cons_self
    exact hnone _ (h.lt _ hmem) hmem

theorem Wf.empty_iff {r : RingAllocator size} (h : r.Wf) :
    r.empty = true ↔ ∀ i < size, r.Free i := by
  have hh := h.head_lt
  have ht := h.tail_lt
  have hlen : r.freeList.length = r.count := by simp [freeList]
  have hsub : r.freeList ⊆ List.range size := fun k hk => List.mem_range.mpr (h.lt k hk)
  rw [empty, Bool.and_eq_true, Bool.not_eq_true', decide_eq_true_eq]
  constructor
  · rintro ⟨hf, heq⟩ i hi
    refine (h.nodup.subperm hsub).perm_of_length_le ?_ |>.mem_iff.mpr (List.mem_range.mpr hi)
    rw [List.length_range, hlen, count_of_not_full hf]
    split_ifs <;> omega
  · intro hall
    have hle : size ≤ r.count := by
      have := (List.nodup_range.subperm fun k hk => hall k (List.mem_range.mp hk)).length_le
      rwa [List.length_range, hlen] at this
    cases hf : r.isFull with
    | true =>
      rw [count_of_full hf] at hle
      omega
    | false =>
      rw [count_of_not_full hf] at hle
      refine ⟨rfl, ?_⟩
      split_ifs at hle <;> omega

end RingAllocator

/-! ## Range allocators -/

/-- The class that `RangeAllocator::getAllocatorType` chooses by the number of instances, with what
its `static_assert` checks. -/
inductive RangeAllocator (size : ℕ)
  | bitmask32 (h : size ≤ 32) (bits : Bitmask size)
  | bitmask64 (h : 32 < size ∧ size ≤ 64) (bits : Bitmask size)
  | ring (h : 64 < size) (ring : RingAllocator size)

namespace RangeAllocator
variable {size : ℕ}

def initial (size : ℕ) : RangeAllocator size :=
  if h : size ≤ 32 then .bitmask32 h (.initial size)
  else if h' : size ≤ 64 then .bitmask64 ⟨Nat.lt_of_not_le h, h'⟩ (.initial size)
  else .ring (Nat.lt_of_not_le h') (.initial size)

def nextFree : RangeAllocator size → ℕ
  | bitmask32 _ bits => bits.nextFree32
  | bitmask64 _ bits => bits.nextFree64
  | ring _ r => r.nextFree

def allocate (inst : ℕ) : RangeAllocator size → RangeAllocator size
  | bitmask32 h bits => .bitmask32 h (bits.allocate inst)
  | bitmask64 h bits => .bitmask64 h (bits.allocate inst)
  | ring h r => .ring h (r.allocate inst)

def free (inst : ℕ) : RangeAllocator size → RangeAllocator size
  | bitmask32 h bits => .bitmask32 h (bits.free inst)
  | bitmask64 h bits => .bitmask64 h (bits.free inst)
  | ring h r => .ring h (r.free inst)

def empty : RangeAllocator size → Bool
  | bitmask32 _ bits => bits.empty
  | bitmask64 _ bits => bits.empty
  | ring _ r => r.empty

def full : RangeAllocator size → Bool
  | bitmask32 _ bits => bits.full
  | bitmask64 _ bits => bits.full
  | ring _ r => r.full

/-- The index is free. -/
def Free (i : ℕ) : RangeAllocator size → Prop
  | bitmask32 _ bits => bits.Free i
  | bitmask64 _ bits => bits.Free i
  | ring _ r => r.Free i

/-- The index is allocated. -/
def Allocated (a : RangeAllocator size) (i : ℕ) : Prop := i < size ∧ ¬ a.Free i

def Wf : RangeAllocator size → Prop
  | bitmask32 _ _ | bitmask64 _ _ => True
  | ring _ r => r.Wf

theorem wf_initial (size : ℕ) : (initial size).Wf := by
  unfold initial
  split_ifs with h h'
  · trivial
  · trivial
  · exact RingAllocator.wf_initial (by omega)

/-- At first nothing is allocated. -/
theorem not_allocated_initial (i : ℕ) : ¬ (initial size).Allocated i := by
  rintro ⟨hi, hfree⟩
  unfold initial at hfree
  split_ifs at hfree with h h'
  · exact hfree (Bitmask.free_initial.mpr hi)
  · exact hfree (Bitmask.free_initial.mpr hi)
  · exact hfree ((RingAllocator.free_initial (by omega)).mpr hi)

variable {a : RangeAllocator size} {i : ℕ}

theorem Wf.full_iff (h : a.Wf) : a.full = true ↔ ∀ i < size, a.Allocated i := by
  have hall : a.full = true ↔ ∀ i < size, ¬ a.Free i := by
    cases a with
    | bitmask32 hs bits => exact Bitmask.full_iff
    | bitmask64 hs bits => exact Bitmask.full_iff
    | ring hs r => exact RingAllocator.Wf.full_iff h
  rw [hall]
  exact forall₂_congr fun i hi => (and_iff_right hi).symm

theorem Wf.empty_iff (h : a.Wf) : a.empty = true ↔ ∀ i, ¬ a.Allocated i := by
  have hall : a.empty = true ↔ ∀ i < size, a.Free i := by
    cases a with
    | bitmask32 hs bits => exact Bitmask.empty_iff
    | bitmask64 hs bits => exact Bitmask.empty_iff
    | ring hs r => exact RingAllocator.Wf.empty_iff h
  rw [hall]
  exact forall_congr' fun i => by rw [Allocated, not_and, not_not]

/-- **A free index** is handed out. -/
theorem Wf.nextFree (h : a.Wf) (hfull : a.full = false) :
    a.nextFree < size ∧ ¬ a.Allocated a.nextFree := by
  have hfree : a.Free a.nextFree ∧ a.nextFree < size := by
    cases a with
    | bitmask32 hs bits =>
      have := Bitmask.free_nextFree32 hs hfull
      exact ⟨this, this.lt⟩
    | bitmask64 hs bits =>
      have := Bitmask.free_nextFree64 hs.2 hfull
      exact ⟨this, this.lt⟩
    | ring hs r =>
      have hmem : r.nextFree ∈ r.freeList := by
        rw [RingAllocator.Wf.freeList_allocate h hfull 0]
        exact List.mem_cons_self
      exact ⟨hmem, RingAllocator.Wf.lt h _ hmem⟩
  exact ⟨hfree.2, fun halloc => halloc.2 hfree.1⟩

/-- **Allocation** of the index that was handed out. -/
theorem Wf.allocate (h : a.Wf) (hfull : a.full = false) : (a.allocate a.nextFree).Wf ∧
    ∀ i, (a.allocate a.nextFree).Allocated i ↔ a.Allocated i ∨ i = a.nextFree := by
  have hlt := (h.nextFree hfull).1
  have hfree : (a.allocate a.nextFree).Wf ∧
      ∀ i, (a.allocate a.nextFree).Free i ↔ a.Free i ∧ i ≠ a.nextFree := by
    cases a with
    | bitmask32 hs bits => exact ⟨trivial, fun i => Bitmask.free_allocate⟩
    | bitmask64 hs bits => exact ⟨trivial, fun i => Bitmask.free_allocate⟩
    | ring hs r =>
      refine ⟨RingAllocator.Wf.allocate h hfull _, fun i => ?_⟩
      have hlist := RingAllocator.Wf.freeList_allocate h hfull r.nextFree
      have hnodup := RingAllocator.Wf.nodup h
      rw [hlist, List.nodup_cons] at hnodup
      change i ∈ (r.allocate r.nextFree).freeList ↔ i ∈ r.freeList ∧ i ≠ r.nextFree
      rw [hlist, List.mem_cons]
      constructor
      · exact fun hi => ⟨.inr hi, fun heq => hnodup.1 (heq ▸ hi)⟩
      · exact fun ⟨hi, hne⟩ => hi.resolve_left hne
  refine ⟨hfree.1, fun i => ?_⟩
  unfold Allocated
  rw [hfree.2]
  by_cases hi : i = a.nextFree
  · simp [hi, hlt]
  · simp [hi]

/-- **Freeing** an index that is allocated. -/
theorem Wf.free (h : a.Wf) (halloc : a.Allocated i) :
    (a.free i).Wf ∧ ∀ k, (a.free i).Allocated k ↔ a.Allocated k ∧ k ≠ i := by
  obtain ⟨hi, hnot⟩ := halloc
  have hfree : (a.free i).Wf ∧ ∀ k, (a.free i).Free k ↔ a.Free k ∨ k = i := by
    cases a with
    | bitmask32 hs bits => exact ⟨trivial, fun k => Bitmask.free_free hi⟩
    | bitmask64 hs bits => exact ⟨trivial, fun k => Bitmask.free_free hi⟩
    | ring hs r =>
      refine ⟨RingAllocator.Wf.free h hi hnot, fun k => ?_⟩
      change k ∈ (r.free i).freeList ↔ k ∈ r.freeList ∨ k = i
      rw [RingAllocator.Wf.freeList_free h hi hnot, List.mem_append, List.mem_singleton]
  refine ⟨hfree.1, fun k => ?_⟩
  unfold Allocated
  rw [hfree.2, not_or, and_assoc]

theorem nextFree_of_full (h : a.full = true) : a.nextFree = size := by
  cases a with
  | bitmask32 hs bits => exact Bitmask.nextFree32_of_full h
  | bitmask64 hs bits => exact Bitmask.nextFree64_of_full h
  | ring hs r => exact if_neg (by simp [show r.isFull = true from h])

/-! ## One abstraction -/

/-- The free indices as the representation lists them: the bits that are set, or the part of the
ring between its ends. -/
def freeIndices : RangeAllocator size → List ℕ
  | bitmask32 _ bits | bitmask64 _ bits => (List.range size).filter fun i => bits.bitset.getLsbD i
  | ring _ r => r.freeList

theorem mem_freeIndices : i ∈ a.freeIndices ↔ a.Free i := by
  cases a with
  | bitmask32 _ bits | bitmask64 _ bits =>
    rw [freeIndices, List.mem_filter, List.mem_range]
    exact and_iff_right_of_imp Bitmask.Free.lt
  | ring _ r => rfl

theorem Wf.nodup_freeIndices (h : a.Wf) : a.freeIndices.Nodup := by
  cases a with
  | bitmask32 _ bits | bitmask64 _ bits => exact List.nodup_range.filter _
  | ring _ r => exact RingAllocator.Wf.nodup h

theorem Wf.free_lt (h : a.Wf) (hi : a.Free i) : i < size := by
  cases a with
  | bitmask32 _ bits | bitmask64 _ bits => exact Bitmask.Free.lt hi
  | ring _ r => exact RingAllocator.Wf.lt h i hi

/-- A use of an allocator: the index that `nextFree` returns is allocated, or one is freed. -/
inductive Use
  | allocate
  | free (inst : ℕ)
deriving DecidableEq, Repr

/-- One use of an allocator, and of the set of free indices it stands for. Only an allocator that is
not full is asked for an index, and only an index that is not free is freed. -/
def use (s : RangeAllocator size × Finset ℕ) : Use → Except Unit (RangeAllocator size × Finset ℕ)
  | .allocate =>
    if s.1.full then .error ()
    else .ok (s.1.allocate s.1.nextFree, s.2.erase s.1.nextFree)
  | .free inst =>
    if inst < size ∧ inst ∉ s.2 then .ok (s.1.free inst, insert inst s.2) else .error ()

/-- **The simulation**: the allocator is in order and its free indices are those of the set. -/
structure Represents (a : RangeAllocator size) (free : Finset ℕ) : Prop where
  wf : a.Wf
  iff : ∀ i, a.Free i ↔ i ∈ free

theorem Represents.lt {free : Finset ℕ} (h : a.Represents free) (hi : i ∈ free) : i < size :=
  h.wf.free_lt ((h.iff i).mpr hi)

theorem Represents.allocated {free : Finset ℕ} (h : a.Represents free) :
    a.Allocated i ↔ i < size ∧ i ∉ free := by
  rw [Allocated, h.iff]

theorem represents_of_allocated {free : Finset ℕ} (hw : a.Wf) (hlt : ∀ i ∈ free, i < size)
    (h : ∀ i, a.Allocated i ↔ i < size ∧ i ∉ free) : a.Represents free := by
  refine ⟨hw, fun i => ?_⟩
  by_cases hi : i < size
  · have := h i
    rw [Allocated, and_congr_right_iff] at this
    exact not_iff_not.mp (this hi)
  · exact iff_of_false (fun hf => hi (hw.free_lt hf)) fun hf => hi (hlt i hf)

theorem represents_initial (size : ℕ) : (initial size).Represents (Finset.range size) :=
  represents_of_allocated (wf_initial size) (fun _ => Finset.mem_range.mp) fun i =>
    iff_of_false (not_allocated_initial i) fun h => h.2 (Finset.mem_range.mpr h.1)

/-- **One use** of an allocator keeps the simulation. -/
theorem represents_use {s t : RangeAllocator size × Finset ℕ} {u : Use}
    (h : s.1.Represents s.2) (hs : use s u = .ok t) : t.1.Represents t.2 := by
  cases u with
  | allocate =>
    rw [use] at hs
    split at hs
    · cases hs
    · rename_i hfull
      cases hs
      have hfull' := Bool.eq_false_iff.mpr hfull
      obtain ⟨hw, hiff⟩ := h.wf.allocate hfull'
      refine represents_of_allocated hw (fun i hi => h.lt (Finset.mem_of_mem_erase hi)) fun i => ?_
      rw [hiff, h.allocated, Finset.mem_erase]
      by_cases hi : i = s.1.nextFree
      · simp [hi, (h.wf.nextFree hfull').1]
      · simp [hi]
  | free inst =>
    rw [use] at hs
    split at hs
    · rename_i hinst
      cases hs
      obtain ⟨hw, hiff⟩ := h.wf.free (h.allocated.mpr hinst)
      refine represents_of_allocated hw (fun i hi => ?_) fun i => ?_
      · rcases Finset.mem_insert.mp hi with rfl | hi
        · exact hinst.1
        · exact h.lt hi
      · rw [hiff, h.allocated, Finset.mem_insert, not_or, and_comm (a := ¬ i = inst), and_assoc]
    · cases hs

end RangeAllocator
end EgLang.Runtime
