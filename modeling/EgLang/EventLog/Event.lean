import EgLang.Library.Bytes

/-!
# Events

What an event of the log looks like in memory: a header of four words, then the bytes of its type,
then those of its value.
-/

namespace EgLang.EventLog

open EgLang.Library

set_option autoImplicit false

/-- `Event`: `m_pszType` and `m_pValue` stand for the bytes they point to, whose numbers are the
`typeSize` and the `valueSize` of the header. -/
structure Event where
  timestamp : UInt64
  type : List UInt8
  value : List UInt8
deriving DecidableEq

namespace Event

def DELIM : ℕ := 0xF0BAF0BA

def typeSize (event : Event) : ℕ := event.type.length

def valueSize (event : Event) : ℕ := event.value.length

/-- `sizeof( Header )`. -/
def headerSize : ℕ := 32

def totalSize (event : Event) : ℕ := headerSize + event.typeSize + event.valueSize

/-- `m_header`, in memory. -/
def header (event : Event) : List UInt8 :=
  bytesOf 8 DELIM ++ (bytesOf 8 event.typeSize ++
    (bytesOf 8 event.valueSize ++ bytesOf 8 event.timestamp.toNat))

/-- `Event::isEvent`. -/
def isEvent (data : Memory) (p : ℕ) : Bool := wordOf (data.read p 8) = DELIM

/-- `Event::read`. -/
def read (data : Memory) (p : ℕ) : Event :=
  let typeSize := wordOf (data.read (p + 8) 8)
  let valueSize := wordOf (data.read (p + 16) 8)
  let timestamp := wordOf (data.read (p + 24) 8)
  ⟨UInt64.ofNat timestamp, data.read (p + headerSize) typeSize,
    data.read (p + headerSize + typeSize) valueSize⟩

/-- The three `memcpy` of `Event::write`. -/
def writeHeader (event : Event) (data : Memory) (p : ℕ) : Memory := data.write p event.header

def writeType (event : Event) (data : Memory) (p : ℕ) : Memory :=
  data.write (p + headerSize) event.type

def writeValue (event : Event) (data : Memory) (p : ℕ) : Memory :=
  data.write (p + headerSize + event.typeSize) event.value

/-- `Event::write`. -/
def write (event : Event) (data : Memory) (p : ℕ) : Memory :=
  event.writeValue (event.writeType (event.writeHeader data p) p) p

/-! ## Bytes of an event -/

/-- All bytes of an event. -/
def bytes (event : Event) : List UInt8 := event.header ++ (event.type ++ event.value)

variable {event : Event} {data : Memory} {p : ℕ}

@[simp] theorem length_header (event : Event) : event.header.length = headerSize := by
  simp [header, headerSize]

@[simp] theorem length_bytes (event : Event) : event.bytes.length = event.totalSize := by
  rw [bytes, List.length_append, List.length_append, length_header, totalSize, typeSize, valueSize,
    Nat.add_assoc]

theorem headerSize_le (event : Event) : headerSize ≤ event.totalSize := by
  unfold totalSize
  omega

theorem write_eq (event : Event) (data : Memory) (p : ℕ) :
    event.write data p = data.write p event.bytes := by
  rw [write, writeHeader, writeType, writeValue, ← event.length_header, Memory.write_write, typeSize,
    Nat.add_assoc, ← List.length_append, Memory.write_write, bytes, List.append_assoc]

/-- No event stands where there are only zeros. -/
theorem isEvent_of_zeros (h : ∀ i < 8, data (p + i) = 0) : isEvent data p = false := by
  have hword : wordOf (data.read p 8) = 0 := wordOf_zeros fun b hb => by
    obtain ⟨i, hi, rfl⟩ := (data.mem_read).mp hb
    exact h i hi
  rw [isEvent, hword]
  decide

/-- The header of an event stands in memory. -/
def HeaderAt (event : Event) (data : Memory) (p : ℕ) : Prop :=
  data.read p headerSize = event.header

/-- The four words of a header. -/
theorem words_of_headerAt (h : event.HeaderAt data p) :
    data.read p 8 = bytesOf 8 DELIM ∧ data.read (p + 8) 8 = bytesOf 8 event.typeSize ∧
      data.read (p + 16) 8 = bytesOf 8 event.valueSize ∧
      data.read (p + 24) 8 = bytesOf 8 event.timestamp.toNat := by
  have hsplit : data.read p headerSize = data.read p 8 ++ (data.read (p + 8) 8 ++
      (data.read (p + 16) 8 ++ data.read (p + 24) 8)) := by
    rw [headerSize, show 32 = 8 + (8 + (8 + 8)) from rfl, Memory.read_add, Memory.read_add,
      Memory.read_add]
  rw [HeaderAt, hsplit, header] at h
  obtain ⟨h1, h⟩ := List.append_inj h (by simp)
  obtain ⟨h2, h⟩ := List.append_inj h (by simp)
  obtain ⟨h3, h4⟩ := List.append_inj h (by simp)
  exact ⟨h1, h2, h3, h4⟩

theorem isEvent_of_headerAt (h : event.HeaderAt data p) : isEvent data p = true := by
  rw [isEvent, (words_of_headerAt h).1, wordOf_bytesOf (by decide), decide_eq_true rfl]

/-- The bytes of an event stand in memory. -/
def BytesAt (event : Event) (data : Memory) (p : ℕ) : Prop :=
  data.read p event.totalSize = event.bytes

theorem parts_of_bytesAt (h : event.BytesAt data p) : event.HeaderAt data p ∧
    data.read (p + headerSize) event.typeSize = event.type ∧
      data.read (p + headerSize + event.typeSize) event.valueSize = event.value := by
  rw [BytesAt, totalSize, Nat.add_assoc, Memory.read_add, Memory.read_add, bytes] at h
  obtain ⟨h1, h⟩ := List.append_inj h (by simp)
  obtain ⟨h2, h3⟩ := List.append_inj h (by simp [typeSize])
  exact ⟨h1, h2, h3⟩

/-- **An event is read as it was written.** -/
theorem read_of_bytesAt (h : event.BytesAt data p) (hsize : event.totalSize < 2 ^ 64) :
    read data p = event := by
  obtain ⟨hheader, htype, hvalue⟩ := parts_of_bytesAt h
  obtain ⟨-, h2, h3, h4⟩ := words_of_headerAt hheader
  have ht : event.typeSize < 256 ^ 8 := by
    unfold totalSize at hsize
    norm_num
    omega
  have hv : event.valueSize < 256 ^ 8 := by
    unfold totalSize at hsize
    norm_num
    omega
  have hts : event.timestamp.toNat < 256 ^ 8 := event.timestamp.toNat_lt
  unfold read
  rw [h2, h3, h4, wordOf_bytesOf ht, wordOf_bytesOf hv, wordOf_bytesOf hts]
  dsimp only
  rw [htype, hvalue, UInt64.ofNat_toNat]

end Event
end EgLang.EventLog
