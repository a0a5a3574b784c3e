import EgLang.EventLog.Layout

/-!
# What a reader finds

A reader that has come behind some of the regions of the log, with the others still ahead of it.
-/

namespace EgLang.EventLog

open EgLang.Library

set_option autoImplicit false

variable {files : Files} {past ahead : List Region} {it last : ℕ} {r : Region}

/-- The log, seen from an iterator behind some of its regions. -/
structure Ahead (files : Files) (past ahead : List Region) (it last : ℕ) : Prop where
  laid : Laid files (past ++ ahead) last
  chainPast : Chain 0 past it
  chainAhead : Chain it ahead last

theorem Laid.aheadOf (h : Laid files (past ++ ahead) last) (hpast : Chain 0 past it) :
    Ahead files past ahead it last := by
  obtain ⟨j, hj, hahead⟩ := chain_append.mp h.chain
  obtain rfl := hpast.unique hj
  exact ⟨h, hpast, hahead⟩

namespace Ahead

/-- A region that is ahead. -/
theorem mem (hr : r ∈ ahead) : r ∈ past ++ ahead := List.mem_append_right past hr

theorem index_lt (h : Ahead files past ahead it last) : it / LOG_FILE_SIZE < LogFileIndexes :=
  (Nat.div_le_div_right h.chainAhead.le).trans_lt h.laid.index

/-- The file of a region that is ahead is one of the files. -/
theorem file_lt (h : Ahead files past ahead it last) (hr : r ∈ ahead) : r.file < LogFileIndexes := by
  have hle := (h.chainAhead.bounds r hr).2
  have hbase : r.base ≤ r.last := Nat.le_add_right _ _
  exact (Nat.div_le_div_right (hbase.trans hle)).trans_lt h.laid.index

/-- What stands from the iterator on is in the regions ahead. -/
theorem zeros (h : Ahead files past ahead it last) {f p : ℕ} (hp : files f p ≠ 0)
    (hahead : it ≤ f * LOG_FILE_SIZE + p) : ∃ r ∈ ahead, r.file = f ∧ r.position ≤ p ∧
      p < r.position + r.copied := by
  obtain ⟨r, hr, rfl, hle, hlt⟩ := h.laid.zeros f p hp
  refine ⟨r, ?_, rfl, hle, hlt⟩
  rcases List.mem_append.mp hr with hr | hr
  · have hend := (h.chainPast.bounds r hr).2
    have hcopied := r.copied_le
    have hbase := r.base_eq
    unfold Region.last at hend
    omega
  · exact hr

/-- The header of a region stands where it was claimed. -/
theorem headerAt (h : Ahead files past ahead it last) (hr : r ∈ ahead) (hstage : r.stage ≠ .claimed) :
    r.event.HeaderAt (files r.file) r.position := by
  have hcopied := r.headerSize_le_copied hstage
  have hread : Memory.read (files r.file) r.position r.event.header.length = r.event.header := by
    refine Memory.read_eq _ fun i hi => ?_
    have hone := h.laid.bytes r (mem hr) i (by rw [Event.length_header] at hi; omega)
    rw [Event.bytes, List.getElem?_append_left hi, List.getElem?_eq_getElem hi] at hone
    exact (Option.some.inj hone).symm
  rwa [Event.length_header] at hread

/-- The bytes of a region that has been written stand where it was claimed. -/
theorem bytesAt (h : Ahead files past ahead it last) (hr : r ∈ ahead) (hstage : r.stage = .written) :
    r.event.BytesAt (files r.file) r.position := by
  have hcopied : r.copied = r.event.totalSize := by
    rw [Region.copied, hstage]
  have hread : Memory.read (files r.file) r.position r.event.bytes.length = r.event.bytes := by
    refine Memory.read_eq _ fun i hi => ?_
    have hone := h.laid.bytes r (mem hr) i (by rw [hcopied, ← Event.length_bytes]; exact hi)
    rw [List.getElem?_eq_getElem hi] at hone
    exact (Option.some.inj hone).symm
  rwa [Event.length_bytes] at hread

/-- A region that has been written is read back. -/
theorem read_written (h : Ahead files past ahead it last) (hr : r ∈ ahead)
    (hstage : r.stage = .written) : Event.read (files r.file) r.position = r.event := by
  refine Event.read_of_bytesAt (h.bytesAt hr hstage) ?_
  have hsmall := h.laid.small r (mem hr)
  unfold Region.size LOG_FILE_SIZE at hsmall
  omega

/-- **At the iterator** there is an event exactly if the next region was claimed there, and its header
has been copied. -/
theorem isEvent_here (h : Ahead files past ahead it last) :
    Event.isEvent (files (it / LOG_FILE_SIZE)) (getPosition it) = true ↔
      ∃ r ∈ ahead, r.base = it ∧ r.stage ≠ .claimed := by
  constructor
  · intro hevent
    by_contra hno
    push Not at hno
    refine absurd hevent ?_
    rw [Event.isEvent_of_zeros fun i hi => ?_]
    · decide
    by_contra hbyte
    have hit : it = it / LOG_FILE_SIZE * LOG_FILE_SIZE + getPosition it :=
      (Nat.div_add_mod' it LOG_FILE_SIZE).symm
    obtain ⟨r, hr, hfile, hle, hlt⟩ := h.zeros hbyte (by omega)
    have hbase := r.base_eq
    have hfirst := (h.chainAhead.bounds r hr).1
    rw [hfile] at hbase
    by_cases heq : r.base = it
    · have hnone : r.copied = 0 := by
        rw [Region.copied, hno r hr heq]
      omega
    · have hgap := (h.chainAhead.gap r hr).resolve_left heq
      rw [hfile] at hgap
      unfold Event.headerSize at hgap
      omega
  · rintro ⟨r, hr, rfl, hstage⟩
    exact Event.isEvent_of_headerAt (h.headerAt hr hstage)

/-- **At the start of the next file** there is an event exactly if a region was claimed there, and its
header has been copied. -/
theorem isEvent_next (h : Ahead files past ahead it last) :
    Event.isEvent (files (it / LOG_FILE_SIZE + 1)) 0 = true ↔
      ∃ r ∈ ahead, r.base = getIterFromFileID (it / LOG_FILE_SIZE + 1) ∧ r.stage ≠ .claimed := by
  have hit : it < (it / LOG_FILE_SIZE + 1) * LOG_FILE_SIZE := by
    unfold LOG_FILE_SIZE
    omega
  constructor
  · intro hevent
    by_contra hno
    push Not at hno
    refine absurd hevent ?_
    rw [Event.isEvent_of_zeros fun i hi => ?_]
    · decide
    by_contra hbyte
    rw [Nat.zero_add] at hbyte
    obtain ⟨r, hr, hfile, hle, hlt⟩ := h.zeros hbyte (by omega)
    have hbase := r.base_eq
    rw [hfile] at hbase
    have hpos : r.position = 0 := by
      rcases h.chainAhead.position (fun s hs => h.laid.small s (mem hs)) r hr with heq | hzero | hfar
      · omega
      · exact hzero
      · unfold Event.headerSize at hfar
        omega
    have hnone : r.copied = 0 := by
      rw [Region.copied, hno r hr (by rw [hbase, hpos, Nat.add_zero, getIterFromFileID])]
    omega
  · rintro ⟨r, hr, hbase, hstage⟩
    have hfile : r.file = it / LOG_FILE_SIZE + 1 := by
      rw [Region.file, hbase, getIterFromFileID, Nat.mul_div_cancel _ (by decide)]
    have hpos : r.position = 0 := by
      rw [Region.position, hbase, getPosition, getIterFromFileID, Nat.mul_mod_left]
    have hheader := h.headerAt hr hstage
    rw [hfile, hpos] at hheader
    exact Event.isEvent_of_headerAt hheader

end Ahead

/-! ## Reads -/

theorem File.isEvent_eq (file : File) {position : ℕ} (h : position < LOG_FILE_SIZE) :
    File.isEvent file position = .ok (Event.isEvent file position) := if_pos h

theorem File.read_eq (file : File) {position : ℕ} (h : position < LOG_FILE_SIZE) :
    File.read file position = .ok (Event.read file position) := if_pos h

theorem getPosition_lt (it : ℕ) : getPosition it < LOG_FILE_SIZE := Nat.mod_lt _ (by decide)

/-- What a read comes to, at an iterator inside the files. -/
theorem read_eq (files : Files) {it : ℕ} (hit : it / LOG_FILE_SIZE < LogFileIndexes) :
    read files it =
      if Event.isEvent (files (it / LOG_FILE_SIZE)) (getPosition it) then
        let event := Event.read (files (it / LOG_FILE_SIZE)) (getPosition it)
        .ok (some (event, it + event.totalSize))
      else
        let next := (it / LOG_FILE_SIZE + 1) % LogFileIndexes
        if Event.isEvent (files next) 0 then
          let event := Event.read (files next) 0
          .ok (some (event, getIterFromFileID next + event.totalSize))
        else .ok none := by
  have hfile : getFileID it = .ok (it / LOG_FILE_SIZE) := getFileID_eq_ok.mpr ⟨rfl, hit⟩
  have hzero : 0 < LOG_FILE_SIZE := by decide
  unfold read
  rw [hfile]
  simp only [bind, Except.bind, File.isEvent_eq _ (getPosition_lt it), File.isEvent_eq _ hzero,
    File.read_eq _ (getPosition_lt it), File.read_eq _ hzero]
  rfl

namespace Ahead

/-- The log, seen from behind its next region. -/
theorem next (h : Ahead files past (r :: ahead) it last) :
    Ahead files (past ++ [r]) ahead r.last last := by
  cases h.chainAhead with
  | cons hfollows hchain =>
    refine ⟨?_, chain_append.mpr ⟨it, h.chainPast, .cons hfollows (.nil _)⟩, hchain⟩
    rw [List.append_assoc]
    exact h.laid

theorem not_isEvent_here (h : Ahead files past ahead it last) (hno : ∀ r ∈ ahead, r.base ≠ it) :
    Event.isEvent (files (it / LOG_FILE_SIZE)) (getPosition it) = false := by
  rw [← Bool.not_eq_true, h.isEvent_here]
  rintro ⟨r, hr, heq, -⟩
  exact hno r hr heq

/-- **The next event is read**, at the iterator or at the start of the next file. -/
theorem read_first (h : Ahead files past (r :: ahead) it last) (hstage : r.stage = .written) :
    read files it = .ok (some (r.event, r.last)) := by
  have hr : r ∈ r :: ahead := List.mem_cons_self
  have hread := h.read_written hr hstage
  have hheader : r.stage ≠ .claimed := by
    rw [hstage]
    decide
  rw [read_eq files h.index_lt]
  cases h.chainAhead with
  | cons hfollows hchain =>
    rcases hfollows with ⟨hsame, -⟩ | ⟨hnext, -⟩
    · subst hsame
      rw [if_pos (h.isEvent_here.mpr ⟨r, hr, rfl, hheader⟩)]
      show Except.ok (some (Event.read (files r.file) r.position,
        r.base + (Event.read (files r.file) r.position).totalSize)) = _
      rw [hread]
      rfl
    · have hfile : r.file = it / LOG_FILE_SIZE + 1 := by
        rw [Region.file, hnext, getIterFromFileID, Nat.mul_div_cancel _ (by decide)]
      have hpos : r.position = 0 := by
        rw [Region.position, hnext, getPosition, getIterFromFileID, Nat.mul_mod_left]
      have hlt := h.file_lt hr
      have hit : it < r.base := by
        rw [hnext, getIterFromFileID]
        unfold LOG_FILE_SIZE
        omega
      have hhere := h.not_isEvent_here fun s hs => by
        rcases List.mem_cons.mp hs with rfl | hs
        · omega
        · have := (hchain.bounds s hs).1
          unfold Region.last at this
          omega
      rw [hfile] at hlt hread
      rw [hpos] at hread
      rw [if_neg (by rw [hhere]; decide), Nat.mod_eq_of_lt hlt]
      dsimp only
      rw [if_pos (h.isEvent_next.mpr ⟨r, hr, hnext, hheader⟩), hread, ← hnext]
      rfl

/-- **Behind the last event** there is nothing to read, if there is a next file. -/
theorem read_none (h : Ahead files past [] it last) (hnext : it / LOG_FILE_SIZE + 1 < LogFileIndexes) :
    read files it = .ok none := by
  have hhere := h.not_isEvent_here fun r hr => absurd hr List.not_mem_nil
  have hthere : Event.isEvent (files (it / LOG_FILE_SIZE + 1)) 0 = false := by
    rw [← Bool.not_eq_true, h.isEvent_next]
    rintro ⟨r, hr, -⟩
    exact List.not_mem_nil hr
  rw [read_eq files h.index_lt, if_neg (by rw [hhere]; decide), Nat.mod_eq_of_lt hnext]
  dsimp only
  rw [if_neg (by rw [hthere]; decide)]

/-- **Behind the last event of the last file** the first event of the log is read again. -/
theorem read_last (h : Ahead files past [] it last) (hnext : it / LOG_FILE_SIZE + 1 = LogFileIndexes)
    (hwritten : ∀ r ∈ past, r.stage = .written) : read files it ≠ .ok none := by
  have hall : Ahead files [] past 0 last := by
    have hlaid := h.laid
    rw [List.append_nil] at hlaid
    exact Laid.aheadOf hlaid (.nil 0)
  have hfirst : Event.isEvent (files 0) 0 = true := by
    refine hall.isEvent_here.mpr ?_
    have hchain := h.chainPast
    cases past with
    | nil =>
      cases hchain
      exact absurd hnext (by decide)
    | cons r rs =>
      have hsmall := hall.laid.small r List.mem_cons_self
      have hstage := hwritten r List.mem_cons_self
      cases hchain with
      | cons hfollows _ =>
        refine ⟨r, List.mem_cons_self, ?_, by rw [hstage]; decide⟩
        unfold Follows at hfollows
        unfold LOG_FILE_SIZE at *
        omega
  have hhere := h.not_isEvent_here fun r hr => absurd hr List.not_mem_nil
  rw [read_eq files h.index_lt, if_neg (by rw [hhere]; decide), hnext, Nat.mod_self]
  dsimp only
  rw [if_pos hfirst]
  exact nofun

end Ahead

/-! ## Reading on -/

/-- Reading on from an iterator yields the events, and then nothing. -/
inductive Drains (files : Files) : ℕ → List Event → Prop
  | nil {it : ℕ} (h : read files it = .ok none) : Drains files it []
  | cons {it it' : ℕ} {event : Event} {events : List Event}
      (h : read files it = .ok (some (event, it'))) (hrest : Drains files it' events) :
      Drains files it (event :: events)

namespace Ahead

/-- **Reading on** yields all that is ahead, if it has been written and does not reach into the last
file. -/
theorem drains (h : Ahead files past ahead it last) (hwritten : ∀ r ∈ ahead, r.stage = .written)
    (hlast : last / LOG_FILE_SIZE + 1 < LogFileIndexes) :
    Drains files it (ahead.map Region.event) := by
  induction ahead generalizing past it with
  | nil =>
    have hit : it = last := by
      cases h.chainAhead
      rfl
    subst hit
    exact .nil (h.read_none hlast)
  | cons r ahead ih =>
    rw [List.forall_mem_cons] at hwritten
    exact .cons (h.read_first hwritten.1) (ih h.next hwritten.2)

/-- Reading on into the last file does not come to an end behind the last event. -/
theorem not_drains (h : Ahead files past ahead it last)
    (hwritten : ∀ r ∈ past ++ ahead, r.stage = .written)
    (hlast : last / LOG_FILE_SIZE + 1 = LogFileIndexes) :
    ¬ Drains files it (ahead.map Region.event) := by
  induction ahead generalizing past it with
  | nil =>
    intro hd
    have hit : it = last := by
      cases h.chainAhead
      rfl
    subst hit
    rw [List.append_nil] at hwritten
    cases hd with
    | nil hnone => exact h.read_last hlast hwritten hnone
  | cons r ahead ih =>
    intro hd
    have hfirst := h.read_first (hwritten r (mem List.mem_cons_self))
    have hsplit : past ++ r :: ahead = past ++ [r] ++ ahead := by simp
    cases hd with
    | cons hread hrest =>
      rw [hfirst, Except.ok.injEq, Option.some.injEq, Prod.mk.injEq] at hread
      rw [← hread.2] at hrest
      exact ih h.next (hsplit ▸ hwritten) hrest

end Ahead
end EgLang.EventLog
