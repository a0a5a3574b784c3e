import EgLang.EventLog.Log
import EgLang.Library.SwapLoop
import Mathlib.Order.Interval.Set.Basic
import Mathlib.Order.Disjoint
import Mathlib.Order.CompletePartialOrder

/-!
# Writers that claim

`Generator::claim` under any interleaving of its loads and its swaps, by any number of writers. A swap
comes to the claim that a writer alone would have made at that moment.
-/

namespace EgLang.EventLog

open EgLang.Library

set_option autoImplicit false

/-- `m_claim`, and the writers in `Generator::claim`, each with the size it claims and `iCurrent`; what
has been claimed stands there as size and base. An iterator is a natural number: a file index has 32 bits
and a position 26, so that no sum in the loop reaches 2^64. -/
abbrev Claims := SwapCell ℕ ℕ ℕ

namespace Claims

/-- The generator of a log that has been cleared. -/
def new : Claims := SwapCell.new 0

/-- The body of the loop, up to the swap: `iDesired` and `iBase`. -/
def body (size iCurrent : ℕ) : Except Fault (ℕ × ℕ) := do
  let (iBase, iDesired) ← EventLog.claim iCurrent size
  return (iDesired, iBase)

/-- One load or one attempt to swap of one writer. -/
def step : Claims → SwapInput ℕ ℕ → Except Fault Claims := SwapCell.step body

/-- The sizes are positive and less than a file, and what is read has been in `m_claim`. -/
def Sized (s : Claims) (i : SwapInput ℕ ℕ) : Prop :=
  s.Reads i ∧ SwapCell.Enters (fun size => 0 < size ∧ size < LOG_FILE_SIZE) i

instance (s : Claims) (i : SwapInput ℕ ℕ) : Decidable (Sized s i) :=
  match i with
  | .load _ size seen =>
    inferInstanceAs (Decidable (seen ∈ s.held ∧ 0 < size ∧ size < LOG_FILE_SIZE))
  | .exchange _ _ seen => inferInstanceAs (Decidable (seen ∈ s.held ∧ True))

/-- The iterators of a claimed region. -/
def region (claimed : ℕ × ℕ) : Set ℕ := Set.Ico claimed.2 (claimed.2 + claimed.1)

/-! ## One claim -/

variable {size iCurrent iDesired iBase : ℕ}

theorem body_eq_ok (hsize : size < LOG_FILE_SIZE) :
    body size iCurrent = .ok (iDesired, iBase) ↔ Follows iCurrent iBase size ∧
      iDesired = iBase + size ∧ (iCurrent + size) / LOG_FILE_SIZE < LogFileIndexes := by
  rw [← claim_eq_ok hsize]
  unfold body
  rw [except_bind_ok]
  constructor
  · rintro ⟨⟨base, last⟩, hclaim, h⟩
    cases h
    exact hclaim
  · intro h
    exact ⟨(iBase, iDesired), h, rfl⟩

/-- A region lies in one file, which has an index. -/
theorem region_file (hsize : size < LOG_FILE_SIZE) (h : body size iCurrent = .ok (iDesired, iBase)) :
    ∃ szFileID, ∀ i ∈ region (size, iBase), getFileID i = .ok szFileID := by
  obtain ⟨hfollows, -, hindex⟩ := (body_eq_ok hsize).mp h
  have hfits := hfollows.fits hsize
  refine ⟨iBase / LOG_FILE_SIZE, fun i hi => getFileID_eq_ok.mpr ?_⟩
  obtain ⟨hlow, hhigh⟩ := Set.mem_Ico.mp hi
  unfold Follows getIterFromFileID at hfollows
  unfold getPosition at hfits
  unfold LOG_FILE_SIZE at *
  dsimp only at hlow hhigh
  omega

/-! ## One claim after another -/

/-- The regions of claims made one after another. -/
theorem sequence_regions {a b : ℕ} {l : List (ℕ × ℕ)} (h : SwapCell.Sequence body a l b)
    (hsize : ∀ c ∈ l, c.1 < LOG_FILE_SIZE) :
    (∀ c ∈ l, c.2 + c.1 ≤ b ∧ ∃ szFileID, ∀ i ∈ region c, getFileID i = .ok szFileID) ∧
      l.Pairwise fun c c' => Disjoint (region c) (region c') := by
  induction h with
  | nil => exact ⟨fun c hc => absurd hc List.not_mem_nil, .nil⟩
  | @snoc b c l size base _ hupdate ih =>
    obtain ⟨hlast, hdisjoint⟩ := ih fun c hc => hsize c (List.mem_append_left _ hc)
    have hlt : size < LOG_FILE_SIZE := hsize (size, base) (by simp)
    obtain ⟨hfollows, rfl, -⟩ := (body_eq_ok hlt).mp hupdate
    have hle := hfollows.le
    constructor
    · intro d hd
      rw [List.mem_append, List.mem_singleton] at hd
      rcases hd with hd | rfl
      · obtain ⟨hend, hfile⟩ := hlast d hd
        exact ⟨by omega, hfile⟩
      · exact ⟨le_rfl, region_file hlt hupdate⟩
    · refine List.pairwise_append.mpr ⟨hdisjoint, List.pairwise_singleton _ _, fun d hd e he => ?_⟩
      rw [List.mem_singleton] at he
      subst he
      have hend := (hlast d hd).1
      refine Set.disjoint_left.mpr fun i hi hi' => ?_
      have hlow := (Set.mem_Ico.mp hi).2
      have hhigh := (Set.mem_Ico.mp hi').1
      dsimp only at hhigh
      omega

/-! ## Every interleaving -/

variable {s t : Claims}

theorem sized_enters (s : Claims) (i : SwapInput ℕ ℕ) (h : Sized s i) :
    SwapCell.Enters (fun size => 0 < size ∧ size < LOG_FILE_SIZE) i := h.2

/-- **Main result.** Whatever the writers do, the regions that have been claimed are disjoint, each lies
in one file, and the claim only moves forward. -/
theorem disjoint_of_reaches (hs : Reaches step Sized new s) (hst : Reaches step Sized s t) :
    (s.completed.Pairwise fun c c' => Disjoint (region c) (region c')) ∧
      (∀ c ∈ s.completed, ∃ szFileID, ∀ i ∈ region c, getFileID i = .ok szFileID) ∧
        s.cell ≤ t.cell := by
  have hsize := (SwapCell.arguments_of_reaches sized_enters hs).2
  obtain ⟨hfile, hdisjoint⟩ :=
    sequence_regions (SwapCell.sequence_of_reaches hs) fun c hc => (hsize c hc).2
  refine ⟨hdisjoint, fun c hc => (hfile c hc).2, ?_⟩
  refine SwapCell.rel_of_reaches (fun a => le_refl a) le_trans sized_enters ?_ hs hst
  intro size iCurrent iDesired iBase hsize hbody
  obtain ⟨hfollows, rfl, -⟩ := (body_eq_ok hsize.2).mp hbody
  exact hfollows.le.trans (Nat.le_add_right _ _)

/-- Two writers load the same claim; the second fills the file, the first loses its swap, fails once for
no reason, and claims at the start of the next file. -/
theorem disjoint_two_writers :
    ∃ s : Claims, s.completed = [(2 ^ 26 - 8, 0), (16, 2 ^ 26)] ∧ s.cell = 2 ^ 26 + 16 ∧
      s.completed.Pairwise fun c c' => Disjoint (region c) (region c') := by
  obtain ⟨s, hreaches, hcompleted, hcell⟩ := exists_reaches step Sized
    [.load 0 16 0, .load 1 (2 ^ 26 - 8) 0, .exchange 1 false 0, .exchange 0 false (2 ^ 26 - 8),
      .exchange 0 true (2 ^ 26 - 8), .exchange 0 false 0] new
    (fun s => s.completed = [(2 ^ 26 - 8, 0), (16, 2 ^ 26)] ∧ s.cell = 2 ^ 26 + 16)
    (by decide +kernel)
  exact ⟨s, hcompleted, hcell, (disjoint_of_reaches hreaches .refl).1⟩

end Claims

end EgLang.EventLog
