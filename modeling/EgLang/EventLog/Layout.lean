import EgLang.EventLog.Log

/-!
# The layout of the log

The regions that have been claimed, in the order of the claims: each follows from where the last one
ended, and the files hold what has been copied into them and nothing else.
-/

namespace EgLang.EventLog

open EgLang.Library

set_option autoImplicit false

/-! ## Regions -/

/-- What has been copied into a region. -/
inductive Stage
  | claimed
  | header
  | type
  | written
deriving DecidableEq, Repr

/-- A region that has been claimed for an event. -/
structure Region where
  base : ℕ
  event : Event
  stage : Stage
deriving DecidableEq

namespace Region
variable (r : Region)

def size : ℕ := r.event.totalSize

/-- The iterator behind a region. -/
def last : ℕ := r.base + r.size

def file : ℕ := r.base / LOG_FILE_SIZE

def position : ℕ := getPosition r.base

/-- The number of bytes that have been copied. -/
def copied : ℕ :=
  match r.stage with
  | .claimed => 0
  | .header => Event.headerSize
  | .type => Event.headerSize + r.event.typeSize
  | .written => r.event.totalSize

theorem base_eq : r.base = r.file * LOG_FILE_SIZE + r.position :=
  (Nat.div_add_mod' r.base LOG_FILE_SIZE).symm

theorem copied_le : r.copied ≤ r.size := by
  unfold copied size Event.totalSize
  split <;> omega

theorem headerSize_le_size : Event.headerSize ≤ r.size := r.event.headerSize_le

theorem headerSize_le_copied (h : r.stage ≠ .claimed) : Event.headerSize ≤ r.copied := by
  unfold copied
  split
  · rename_i hs
    exact absurd hs h
  · exact le_rfl
  · omega
  · exact r.event.headerSize_le

end Region

/-! ## Chains -/

/-- The regions follow each other from one iterator to another. -/
inductive Chain : ℕ → List Region → ℕ → Prop
  | nil (i : ℕ) : Chain i [] i
  | cons {i j : ℕ} {r : Region} {rs : List Region} (hfollows : Follows i r.base r.size)
      (hchain : Chain r.last rs j) : Chain i (r :: rs) j

variable {i j k : ℕ} {r : Region} {rs ss : List Region}

theorem chain_append : Chain i (rs ++ ss) k ↔ ∃ j, Chain i rs j ∧ Chain j ss k := by
  constructor
  · intro h
    induction rs generalizing i with
    | nil => exact ⟨i, .nil i, h⟩
    | cons r rs ih =>
      cases h with
      | cons hfollows hchain =>
        obtain ⟨j, hrs, hss⟩ := ih hchain
        exact ⟨j, .cons hfollows hrs, hss⟩
  · rintro ⟨j, hrs, hss⟩
    induction hrs with
    | nil => exact hss
    | cons hfollows _ ih => exact .cons hfollows (ih hss)

/-- A chain leads to one place. -/
theorem Chain.unique (h : Chain i rs j) (h' : Chain i rs k) : j = k := by
  induction h with
  | nil =>
    cases h'
    rfl
  | cons _ _ ih =>
    cases h' with
    | cons _ hchain => exact ih hchain

theorem Chain.le (h : Chain i rs j) : i ≤ j := by
  induction h with
  | nil => exact le_rfl
  | @cons i j r rs hfollows _ ih =>
    have := hfollows.le
    unfold Region.last at ih
    omega

theorem Chain.bounds (h : Chain i rs j) : ∀ r ∈ rs, i ≤ r.base ∧ r.last ≤ j := by
  induction h with
  | nil => exact fun _ hr => absurd hr List.not_mem_nil
  | @cons i j r rs hfollows hchain ih =>
    have hi := hfollows.le
    have hr : r.base ≤ r.last := Nat.le_add_right _ _
    refine List.forall_mem_cons.mpr ⟨⟨hi, hchain.le⟩, fun s hs => ?_⟩
    have := ih s hs
    omega

/-- No other region of a chain starts at or before the first. -/
theorem Chain.eq_head {s : Region} (h : Chain i (r :: rs) j) (hs : s ∈ r :: rs)
    (hle : s.base ≤ r.base) : s = r := by
  cases h with
  | cons _ hchain =>
    rcases List.mem_cons.mp hs with rfl | hs
    · rfl
    · have hbase := (hchain.bounds s hs).1
      have hsize := r.headerSize_le_size
      unfold Region.last at hbase
      unfold Event.headerSize at hsize
      omega

/-- A region that does not start where the chain starts leaves room for a header, or starts in a later
file. -/
theorem Chain.gap (h : Chain i rs j) : ∀ r ∈ rs,
    r.base = i ∨ i + Event.headerSize ≤ r.base ∨ i / LOG_FILE_SIZE < r.file := by
  cases h with
  | nil => exact fun _ hr => absurd hr List.not_mem_nil
  | @cons _ _ r rs hfollows hchain =>
    refine List.forall_mem_cons.mpr ⟨?_, fun s hs => .inr (.inl ?_)⟩
    · rcases hfollows with ⟨hsame, -⟩ | ⟨hnext, -⟩
      · exact .inl hsame
      · refine .inr (.inr ?_)
        rw [Region.file, hnext, getIterFromFileID, Nat.mul_div_cancel _ (by decide)]
        exact Nat.lt_succ_self _
    · have hbase := (hchain.bounds s hs).1
      have hle := hfollows.le
      have hsize := r.headerSize_le_size
      unfold Region.last at hbase
      omega

/-- Where a region of a chain may start in its file. -/
theorem Chain.position (h : Chain i rs j) (hsmall : ∀ r ∈ rs, r.size < LOG_FILE_SIZE) :
    ∀ r ∈ rs, r.base = i ∨ r.position = 0 ∨ Event.headerSize ≤ r.position := by
  induction h with
  | nil => exact fun _ hr => absurd hr List.not_mem_nil
  | @cons i j r rs hfollows _ ih =>
    rw [List.forall_mem_cons] at hsmall
    have hfits := hfollows.fits hsmall.1
    refine List.forall_mem_cons.mpr ⟨?_, fun s hs => ?_⟩
    · rcases hfollows with ⟨hsame, -⟩ | ⟨hnext, -⟩
      · exact .inl hsame
      · refine .inr (.inl ?_)
        rw [Region.position, hnext, getPosition, getIterFromFileID, Nat.mul_mod_left]
    · rcases ih hsmall.2 s hs with heq | hpos
      · refine .inr (.inr ?_)
        have hsize := r.headerSize_le_size
        have hbase := r.base_eq
        rw [Region.position, heq, Region.last]
        unfold Region.position at hbase
        unfold getPosition at *
        unfold LOG_FILE_SIZE at *
        omega
      · exact .inr hpos

/-! ## Sizes -/

/-- Where an event ends that is placed behind the last one, or, where it would not end before the file
does, at the start of the next file. -/
def place (last size : ℕ) : ℕ :=
  if getPosition last + size < LOG_FILE_SIZE then last + size
  else getIterFromFileID (last / LOG_FILE_SIZE + 1) + size

/-- Where events of these sizes end. -/
def span (last : ℕ) (sizes : List ℕ) : ℕ := sizes.foldl place last

theorem Follows.place_eq {last base size : ℕ} (h : Follows last base size) :
    place last size = base + size := by
  unfold Follows getIterFromFileID at h
  unfold place getPosition getIterFromFileID
  unfold LOG_FILE_SIZE at *
  split <;> omega

/-- A chain ends where the sizes of its regions say. -/
theorem Chain.span_eq (h : Chain i rs j) : span i (rs.map Region.size) = j := by
  induction h with
  | nil => rfl
  | @cons i j r rs hfollows _ ih =>
    show span (place i r.size) (rs.map Region.size) = j
    rw [hfollows.place_eq]
    exact ih

theorem le_place (last size : ℕ) : last ≤ place last size := by
  unfold place getIterFromFileID
  unfold LOG_FILE_SIZE
  split <;> omega

theorem le_span (last : ℕ) (sizes : List ℕ) : last ≤ span last sizes := by
  induction sizes generalizing last with
  | nil => exact le_rfl
  | cons size sizes ih => exact (le_place last size).trans (ih _)

/-! ## Files -/

/-- The files hold the regions of a chain, and nothing else. -/
structure Laid (files : Files) (regions : List Region) (last : ℕ) : Prop where
  chain : Chain 0 regions last
  small : ∀ r ∈ regions, r.size < LOG_FILE_SIZE
  index : last / LOG_FILE_SIZE < LogFileIndexes
  bytes : ∀ r ∈ regions, ∀ i < r.copied,
    r.event.bytes[i]? = some (files r.file (r.position + i))
  zeros : ∀ f p, files f p ≠ 0 → ∃ r ∈ regions, r.file = f ∧ r.position ≤ p ∧
    p < r.position + r.copied

variable {files : Files} {last : ℕ}

/-- A log that has been cleared. -/
theorem laid_new : Laid (fun _ _ => 0) [] 0 where
  chain := .nil 0
  small _ hr := absurd hr List.not_mem_nil
  index := by decide
  bytes _ hr := absurd hr List.not_mem_nil
  zeros _ _ h := absurd rfl h

/-- **A claim** adds a region that nothing has been copied into. -/
theorem Laid.claim (h : Laid files rs last) {event : Event} {base last' : ℕ}
    (hsize : event.totalSize < LOG_FILE_SIZE)
    (hclaim : claim last event.totalSize = .ok (base, last')) :
    Laid files (rs ++ [⟨base, event, .claimed⟩]) last' := by
  obtain ⟨hfollows, rfl, hindex⟩ := (claim_eq_ok hsize).mp hclaim
  have hmem : ∀ {s : Region}, s ∈ rs ++ [⟨base, event, .claimed⟩] →
      s ∈ rs ∨ s = ⟨base, event, .claimed⟩ := fun hs =>
    (List.mem_append.mp hs).imp_right List.mem_singleton.mp
  refine ⟨chain_append.mpr ⟨last, h.chain, .cons hfollows (.nil _)⟩, fun s hs => ?_, ?_,
    fun s hs i hi => ?_, fun f p hp => ?_⟩
  · rcases hmem hs with hs | rfl
    · exact h.small s hs
    · exact hsize
  · unfold Follows getIterFromFileID at hfollows
    unfold LOG_FILE_SIZE LogFileIndexes at *
    omega
  · rcases hmem hs with hs | rfl
    · exact h.bytes s hs i hi
    · exact absurd hi (Nat.not_lt_zero i)
  · obtain ⟨s, hs, hin⟩ := h.zeros f p hp
    exact ⟨s, List.mem_append_left _ hs, hin⟩

/-- Two regions of a chain have no byte in common. -/
theorem Chain.disjoint {pre post : List Region} (h : Chain i (pre ++ r :: post) j) {s : Region}
    (hs : s ∈ pre ∨ s ∈ post) : s.last ≤ r.base ∨ r.last ≤ s.base := by
  obtain ⟨k, hpre, hr⟩ := chain_append.mp h
  cases hr with
  | cons hfollows hchain =>
    rcases hs with hs | hs
    · exact .inl ((hpre.bounds s hs).2.trans hfollows.le)
    · exact .inr (hchain.bounds s hs).1

/-- **Bytes are copied** into a region, behind those that have been copied. -/
theorem Laid.copy {pre post : List Region} (h : Laid files (pre ++ r :: post) last)
    {bs : List UInt8} {stage : Stage}
    (hbs : ∀ i < bs.length, r.event.bytes[r.copied + i]? = bs[i]?)
    (hstage : ({ r with stage := stage } : Region).copied = r.copied + bs.length) :
    Laid (Function.update files r.file
        (Memory.write (files r.file) (r.position + r.copied) bs))
      (pre ++ { r with stage := stage } :: post) last := by
  have hinside : r.copied + bs.length ≤ r.size := by
    rw [← hstage]
    exact Region.copied_le _
  have hother : ∀ {s : Region}, s ∈ pre ∨ s ∈ post → s ∈ pre ++ r :: post := fun hs =>
    List.mem_append.mpr (hs.imp_right (List.mem_cons_of_mem r))
  have hr : r ∈ pre ++ r :: post := List.mem_append_right _ List.mem_cons_self
  have hmem : ∀ {s : Region}, s ∈ pre ++ { r with stage := stage } :: post →
      s = { r with stage := stage } ∨ s ∈ pre ∨ s ∈ post := fun hs => by
    rw [List.mem_append, List.mem_cons] at hs
    tauto
  refine ⟨?_, fun s hs => ?_, h.index, fun s hs i hi => ?_, fun f p hp => ?_⟩
  · obtain ⟨k, hpre, hpost⟩ := chain_append.mp h.chain
    cases hpost with
    | cons hfollows hchain => exact chain_append.mpr ⟨k, hpre, .cons hfollows hchain⟩
  · rcases hmem hs with rfl | hs
    · exact h.small r hr
    · exact h.small s (hother hs)
  · rcases hmem hs with rfl | hs
    · show r.event.bytes[i]? = some (Function.update files r.file _ r.file (r.position + i))
      rw [Function.update_self]
      by_cases hold : i < r.copied
      · rw [Memory.write_outside _ (.inl (by omega))]
        exact h.bytes r hr i hold
      · obtain ⟨k, rfl⟩ := Nat.exists_eq_add_of_le (Nat.le_of_not_lt hold)
        have hk : k < bs.length := by omega
        rw [hbs k hk, ← Nat.add_assoc, Memory.write_inside _ hk, List.getElem?_eq_getElem hk]
    · have hold := h.bytes s (hother hs) i hi
      by_cases hfile : s.file = r.file
      · -- the region lies elsewhere in the same file
        have hdisjoint := h.chain.disjoint hs
        have hsbase := s.base_eq
        have hrbase := r.base_eq
        have hcopied := s.copied_le
        rw [hfile] at hsbase hold ⊢
        unfold Region.last at hdisjoint
        rw [Function.update_self, Memory.write_outside _ (by omega)]
        exact hold
      · rw [Function.update_of_ne hfile]
        exact hold
  · have hstay : files f p ≠ 0 → ∃ s ∈ pre ++ { r with stage := stage } :: post, s.file = f ∧
        s.position ≤ p ∧ p < s.position + s.copied := fun hold => by
      obtain ⟨s, hs, hin⟩ := h.zeros f p hold
      rw [List.mem_append, List.mem_cons] at hs
      rcases hs with hs | rfl | hs
      · exact ⟨s, List.mem_append_left _ hs, hin⟩
      · refine ⟨_, List.mem_append_right _ List.mem_cons_self, hin.1, hin.2.1, ?_⟩
        rw [hstage]
        show p < s.position + _
        omega
      · exact ⟨s, List.mem_append_right _ (List.mem_cons_of_mem _ hs), hin⟩
    by_cases hfile : f = r.file
    · subst hfile
      rw [Function.update_self] at hp
      by_cases hin : r.position + r.copied ≤ p ∧ p < r.position + r.copied + bs.length
      · refine ⟨_, List.mem_append_right _ List.mem_cons_self, rfl, ?_, ?_⟩
        · show r.position ≤ p
          omega
        · rw [hstage]
          show p < r.position + _
          omega
      · rw [Memory.write_outside _ (by omega)] at hp
        exact hstay hp
    · rw [Function.update_of_ne hfile] at hp
      exact hstay hp

end EgLang.EventLog
