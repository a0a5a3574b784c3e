import EgLang.EventLog.Event
import EgLang.Library.StepSystem

/-!
# The log

Iterators into the log, the files it consists of, the generator that regions are claimed from, and
what reads and writes do. `ASSERT` does nothing.
-/

namespace EgLang.EventLog

open EgLang.Library

set_option autoImplicit false

/-- What reads and writes throw. -/
inductive Fault
  /-- "out of range" -/
  | outOfRange
  /-- "Event too big" -/
  | eventTooBig
  /-- "Event does not fit in memory region" -/
  | doesNotFit
deriving DecidableEq, Repr

/-! ## Iterators -/

def LOG_FILE_SIZE : ℕ := 2 ^ 26

/-- The number of values of `LogFileIndex`. -/
def LogFileIndexes : ℕ := 2 ^ 32

/-- `getFileID`. -/
def getFileID (iterator : ℕ) : Except Fault ℕ :=
  let logFileIndex := iterator / LOG_FILE_SIZE
  if logFileIndex > LogFileIndexes - 1 then .error .outOfRange else .ok logFileIndex

/-- `getPosition`. -/
def getPosition (iterator : ℕ) : ℕ := iterator % LOG_FILE_SIZE

/-- `getIterFromFileID`. -/
def getIterFromFileID (szFileID : ℕ) : ℕ := szFileID * LOG_FILE_SIZE

/-- `Generator::claim`: the base of the claimed region, and the new `m_claim`. -/
def claim (m_claim size : ℕ) : Except Fault (ℕ × ℕ) := do
  let iBase := m_claim
  let iDesired := iBase + size
  let fileDesired ← getFileID iDesired
  let fileBase ← getFileID iBase
  if fileDesired ≠ fileBase then
    let iBase := getIterFromFileID fileDesired
    let iDesired := iBase + size
    return (iBase, iDesired)
  else return (iBase, iDesired)

/-! ## Files -/

/-- A mapped file: `LOG_FILE_SIZE` bytes, and zeros past its end. -/
abbrev File := Memory

namespace File

/-- `File::willFit`. -/
def willFit (position : ℕ) (event : Event) : Bool := position + event.totalSize < LOG_FILE_SIZE

/-- `File::isEvent`. -/
def isEvent (file : File) (position : ℕ) : Except Fault Bool :=
  if position < LOG_FILE_SIZE then .ok (Event.isEvent file position) else .error .doesNotFit

/-- `File::read`. -/
def read (file : File) (position : ℕ) : Except Fault Event :=
  if position < LOG_FILE_SIZE then .ok (Event.read file position) else .error .doesNotFit

/-- `File::write`. -/
def write (file : File) (position : ℕ) (event : Event) : Except Fault File :=
  if willFit position event then .ok (event.write file position) else .error .doesNotFit

end File

/-! ## Reading and writing -/

/-- The files of the log; `getFile` makes one that is missing, full of zeros. -/
abbrev Files := ℕ → File

/-- `Log::read`: the event, and the iterator behind it. -/
def read (files : Files) (iterator : ℕ) : Except Fault (Option (Event × ℕ)) := do
  let szFileID ← getFileID iterator
  let szPosition := getPosition iterator
  if ← (files szFileID).isEvent szPosition then
    let event ← (files szFileID).read szPosition
    return some (event, iterator + event.totalSize)
  else
    let szFileID := (szFileID + 1) % LogFileIndexes
    if ← (files szFileID).isEvent 0 then
      let event ← (files szFileID).read 0
      return some (event, getIterFromFileID szFileID + event.totalSize)
    else return none

/-- `Server`, with the two iterators of its generator. -/
structure Server where
  files : Files
  m_claim : ℕ
  m_head : ℕ

namespace Server

/-- The constructor of `Server`: the files are cleared. -/
def new : Server := ⟨fun _ _ => 0, 0, 0⟩

/-- `Server::updateHead`. -/
def updateHead (s : Server) : Server := { s with m_head := s.m_claim }

/-- `Server::write`. What a write that throws has claimed before it throws is not kept. -/
def write (s : Server) (event : Event) : Except Fault Server := do
  if event.totalSize > LOG_FILE_SIZE then throw .eventTooBig
  let (iterClaim, m_claim) ← claim s.m_claim event.totalSize
  let szFileID ← getFileID iterClaim
  let file ← (s.files szFileID).write (getPosition iterClaim) event
  return { s with files := Function.update s.files szFileID file, m_claim := m_claim }

end Server

/-! ## What a claim comes to -/

variable {iterator m_claim size : ℕ}

theorem getFileID_eq_ok {id : ℕ} :
    getFileID iterator = .ok id ↔ id = iterator / LOG_FILE_SIZE ∧ id < LogFileIndexes := by
  unfold getFileID
  dsimp only
  by_cases hmax : iterator / LOG_FILE_SIZE > LogFileIndexes - 1
  · rw [if_pos hmax]
    refine ⟨nofun, ?_⟩
    rintro ⟨rfl, hlt⟩
    omega
  · have hlt : iterator / LOG_FILE_SIZE < LogFileIndexes := by
      unfold LogFileIndexes at hmax ⊢
      omega
    rw [if_neg hmax, Except.ok.injEq]
    exact ⟨fun h => ⟨h.symm, h ▸ hlt⟩, fun h => h.1.symm⟩

/-- The base of a region follows from where the last one ended. -/
def Follows (last base size : ℕ) : Prop :=
  base = last ∧ (last + size) / LOG_FILE_SIZE = last / LOG_FILE_SIZE ∨
    base = getIterFromFileID (last / LOG_FILE_SIZE + 1) ∧
      (last + size) / LOG_FILE_SIZE = last / LOG_FILE_SIZE + 1

/-- A region of less than a file is claimed where the last one ended, or at the start of the next
file. -/
theorem claim_eq_ok (hsize : size < LOG_FILE_SIZE) {base last : ℕ} :
    claim m_claim size = .ok (base, last) ↔ Follows m_claim base size ∧ last = base + size ∧
      (m_claim + size) / LOG_FILE_SIZE < LogFileIndexes := by
  have hdiv : (m_claim + size) / LOG_FILE_SIZE = m_claim / LOG_FILE_SIZE ∨
      (m_claim + size) / LOG_FILE_SIZE = m_claim / LOG_FILE_SIZE + 1 := by
    unfold LOG_FILE_SIZE at *
    omega
  unfold claim Follows
  dsimp only
  constructor
  · intro h
    obtain ⟨desired, hd, h⟩ := except_bind_ok.mp h
    obtain ⟨file, hb, h⟩ := except_bind_ok.mp h
    obtain ⟨rfl, hlt⟩ := getFileID_eq_ok.mp hd
    obtain ⟨rfl, -⟩ := getFileID_eq_ok.mp hb
    split at h
    · rename_i hne
      cases h
      have hnext := hdiv.resolve_left hne
      rw [hnext] at hlt ⊢
      exact ⟨.inr ⟨rfl, rfl⟩, rfl, hlt⟩
    · rename_i heq
      cases h
      exact ⟨.inl ⟨rfl, not_not.mp heq⟩, rfl, hlt⟩
  · rintro ⟨hfollows, rfl, hlt⟩
    refine except_bind_ok.mpr ⟨_, getFileID_eq_ok.mpr ⟨rfl, hlt⟩,
      except_bind_ok.mpr ⟨_, getFileID_eq_ok.mpr ⟨rfl, ?_⟩, ?_⟩⟩
    · omega
    · rcases hfollows with ⟨rfl, hsame⟩ | ⟨rfl, hnext⟩
      · rw [if_neg (not_not.mpr hsame)]
        rfl
      · rw [if_pos (by omega), hnext]
        rfl

/-- A region of less than a file lies in one file. -/
theorem Follows.fits {last base : ℕ} (h : Follows last base size) (hsize : size < LOG_FILE_SIZE) :
    getPosition base + size < LOG_FILE_SIZE := by
  unfold Follows getIterFromFileID at h
  unfold getPosition
  unfold LOG_FILE_SIZE at *
  omega

theorem exists_follows (last : ℕ) {size : ℕ} (hsize : size < LOG_FILE_SIZE) :
    ∃ base, Follows last base size := by
  by_cases hsame : (last + size) / LOG_FILE_SIZE = last / LOG_FILE_SIZE
  · exact ⟨last, .inl ⟨rfl, hsame⟩⟩
  · refine ⟨_, .inr ⟨rfl, ?_⟩⟩
    unfold LOG_FILE_SIZE at *
    omega

theorem Follows.le {last base : ℕ} (h : Follows last base size) : last ≤ base := by
  unfold Follows getIterFromFileID at h
  unfold LOG_FILE_SIZE at *
  omega

end EgLang.EventLog
