import EgLang.EventLog.Reading

/-!
# Writers and a reader

The log under any interleaving of the steps of any number of writers and of one reader. A writer claims
a region, and copies the header, the type and the value of its event into it; the reader looks at its
position, and, if there is no event, at the start of the next file.
-/

namespace EgLang.EventLog

open EgLang.Library

set_option autoImplicit false

/-! ## The machine -/

/-- Where the reader is in `Log::read`. -/
inductive Phase
  | here
  | next
deriving DecidableEq, Repr

/-- The files, the claim of the generator and the iterator of the reader; the regions stand for the
writes, in the order of their claims. -/
structure Shared where
  files : Files
  m_claim : ℕ
  regions : List Region
  iterator : ℕ
  phase : Phase
  delivered : List Event

inductive Action
  /-- A writer claims a region for an event. -/
  | claim (event : Event)
  /-- The writer of a region copies what comes next. -/
  | copy (k : ℕ)
  /-- The reader looks at one place. -/
  | look

namespace Shared

/-- A log that has been cleared. -/
def new : Shared := ⟨fun _ _ => 0, 0, [], 0, .here, []⟩

/-- `Server::write`, up to the claim. -/
def claim (s : Shared) (event : Event) : Except Fault Shared :=
  if event.totalSize > LOG_FILE_SIZE then .error .eventTooBig
  else do
    let (iterClaim, m_claim) ← EventLog.claim s.m_claim event.totalSize
    return { s with
      m_claim := m_claim
      regions := s.regions ++ [⟨iterClaim, event, .claimed⟩] }

/-- The next part of `File::write`; there is none when the event has been written. -/
def copyNext (r : Region) (file : File) : Except Fault (File × Stage) :=
  match r.stage with
  | .claimed =>
    if File.willFit r.position r.event then .ok (r.event.writeHeader file r.position, .header)
    else .error .doesNotFit
  | .header => .ok (r.event.writeType file r.position, .type)
  | .type => .ok (r.event.writeValue file r.position, .written)
  | .written => .ok (file, .written)

def copy (s : Shared) (k : ℕ) : Except Fault Shared :=
  match s.regions[k]? with
  | none => .ok s
  | some r => do
    let (file, stage) ← copyNext r (s.files r.file)
    return { s with
      files := Function.update s.files r.file file
      regions := s.regions.set k { r with stage := stage } }

/-- The first half of `Log::read`. -/
def lookHere (files : Files) (iterator : ℕ) : Except Fault (Option (Event × ℕ)) := do
  let szFileID ← getFileID iterator
  let szPosition := getPosition iterator
  if ← (files szFileID).isEvent szPosition then
    let event ← (files szFileID).read szPosition
    return some (event, iterator + event.totalSize)
  else return none

/-- The second half of `Log::read`. -/
def lookNext (files : Files) (iterator : ℕ) : Except Fault (Option (Event × ℕ)) := do
  let szFileID ← getFileID iterator
  let szFileID := (szFileID + 1) % LogFileIndexes
  if ← (files szFileID).isEvent 0 then
    let event ← (files szFileID).read 0
    return some (event, getIterFromFileID szFileID + event.totalSize)
  else return none

/-- The reader takes an event, or goes on to the other phase. -/
def take (s : Shared) (phase : Phase) : Option (Event × ℕ) → Shared
  | some (event, iterator) =>
    { s with iterator := iterator, phase := .here, delivered := s.delivered ++ [event] }
  | none => { s with phase := phase }

def look (s : Shared) : Except Fault Shared :=
  match s.phase with
  | .here => (lookHere s.files s.iterator).map (s.take .next)
  | .next => (lookNext s.files s.iterator).map (s.take .here)

def step (s : Shared) : Action → Except Fault Shared
  | .claim event => s.claim event
  | .copy k => s.copy k
  | .look => s.look

/-- What the first half comes to, at an iterator inside the files. -/
theorem lookHere_eq (files : Files) {it : ℕ} (hit : it / LOG_FILE_SIZE < LogFileIndexes) :
    lookHere files it =
      if Event.isEvent (files (it / LOG_FILE_SIZE)) (getPosition it) then
        let event := Event.read (files (it / LOG_FILE_SIZE)) (getPosition it)
        .ok (some (event, it + event.totalSize))
      else .ok none := by
  have hfile : getFileID it = .ok (it / LOG_FILE_SIZE) := getFileID_eq_ok.mpr ⟨rfl, hit⟩
  unfold lookHere
  rw [hfile]
  simp only [bind, Except.bind, File.isEvent_eq _ (getPosition_lt it),
    File.read_eq _ (getPosition_lt it)]
  rfl

/-- What the second half comes to. -/
theorem lookNext_eq (files : Files) {it : ℕ} (hit : it / LOG_FILE_SIZE < LogFileIndexes) :
    lookNext files it =
      let next := (it / LOG_FILE_SIZE + 1) % LogFileIndexes
      if Event.isEvent (files next) 0 then
        let event := Event.read (files next) 0
        .ok (some (event, getIterFromFileID next + event.totalSize))
      else .ok none := by
  have hfile : getFileID it = .ok (it / LOG_FILE_SIZE) := getFileID_eq_ok.mpr ⟨rfl, hit⟩
  have hzero : 0 < LOG_FILE_SIZE := by decide
  unfold lookNext
  rw [hfile]
  simp only [bind, Except.bind, File.isEvent_eq _ hzero, File.read_eq _ hzero]
  rfl

/-! ## What the reader may look at -/

/-- The reader does not look at an event that has been copied in part, nor at an event of the next file
while a region is claimed at its position; events are less than a file, and end before the last file
that has an index. -/
def Fair (s : Shared) : Action → Prop
  | .claim event => event.totalSize < LOG_FILE_SIZE ∧
      place s.m_claim event.totalSize / LOG_FILE_SIZE + 1 < LogFileIndexes
  | .copy _ => True
  | .look =>
    match s.phase with
    | .here => ∀ r ∈ s.regions, r.base = s.iterator → r.stage = .claimed ∨ r.stage = .written
    | .next => ∀ r ∈ s.regions,
        r.base = getIterFromFileID (s.iterator / LOG_FILE_SIZE + 1) → r.stage = .claimed ∨
          r.stage = .written ∧ ∀ r' ∈ s.regions, r'.base ≠ s.iterator

/-- The events that have been delivered are those of the first regions, and these have been written;
what has not been delivered is what reading on from here yields once it has been written. -/
structure InOrder (s : Shared) : Prop where
  delivered : s.delivered = (s.regions.take s.delivered.length).map Region.event
  passed : ∀ r ∈ s.regions, r.base < s.iterator → r.stage = .written
  rest : (∀ r ∈ s.regions, r.stage = .written) →
    Drains s.files s.iterator ((s.regions.drop s.delivered.length).map Region.event)

/-- The reader has come behind the regions whose events it has delivered. -/
structure Behind (s : Shared) (past ahead : List Region) : Prop where
  regions : s.regions = past ++ ahead
  ahead : Ahead s.files past ahead s.iterator s.m_claim
  written : ∀ r ∈ past, r.stage = .written
  delivered : s.delivered = past.map Region.event
  index : s.m_claim / LOG_FILE_SIZE + 1 < LogFileIndexes

theorem behind_new : Behind new [] [] where
  regions := rfl
  ahead := Laid.aheadOf laid_new (.nil 0)
  written _ hr := absurd hr List.not_mem_nil
  delivered := rfl
  index := by decide

variable {s t : Shared} {past ahead : List Region}

theorem Behind.inOrder (h : Behind s past ahead) : InOrder s := by
  have hlength : s.delivered.length = past.length := by
    rw [h.delivered, List.length_map]
  refine ⟨?_, fun r hr hlt => ?_, fun hw => ?_⟩
  · rw [hlength, h.regions, List.take_left', h.delivered]
    rfl
  · rw [h.regions] at hr
    rcases List.mem_append.mp hr with hr | hr
    · exact h.written r hr
    · exact absurd (h.ahead.chainAhead.bounds r hr).1 (by omega)
  · rw [hlength, h.regions, List.drop_left']
    · exact h.ahead.drains (fun r hr => hw r (h.regions ▸ List.mem_append_right past hr)) h.index
    · rfl

/-! ## Steps -/

/-- A claim adds a region ahead. -/
theorem Behind.claim {event : Event} (h : Behind s past ahead) (hfair : Fair s (.claim event))
    (hstep : s.claim event = .ok t) : ∃ r, Behind t past (ahead ++ [r]) := by
  obtain ⟨hsize, hindex⟩ := hfair
  unfold Shared.claim at hstep
  rw [if_neg (by omega)] at hstep
  obtain ⟨⟨base, last⟩, hclaim, hstep⟩ := except_bind_ok.mp hstep
  cases hstep
  have hlaid := h.ahead.laid.claim hsize hclaim
  rw [List.append_assoc] at hlaid
  refine ⟨_, by rw [h.regions, List.append_assoc], hlaid.aheadOf h.ahead.chainPast, h.written,
    h.delivered, ?_⟩
  obtain ⟨hfollows, rfl, -⟩ := (claim_eq_ok hsize).mp hclaim
  rw [hfollows.place_eq] at hindex
  exact hindex

/-- What is copied next stands behind what has been copied. -/
theorem copyNext_eq_ok {r : Region} {file file' : File} {stage : Stage}
    (h : copyNext r file = .ok (file', stage)) (hstage : r.stage ≠ .written) :
    ∃ bs : List UInt8, file' = Memory.write file (r.position + r.copied) bs ∧
      (∀ i < bs.length, r.event.bytes[r.copied + i]? = bs[i]?) ∧
      ({ r with stage := stage } : Region).copied = r.copied + bs.length := by
  unfold copyNext at h
  obtain ⟨base, event, before⟩ := r
  cases before with
  | claimed =>
    dsimp only at h
    split at h
    · cases h
      refine ⟨event.header, by rw [Region.copied, Nat.add_zero]; rfl, fun i hi => ?_, ?_⟩
      · rw [Region.copied, Nat.zero_add, Event.bytes, List.getElem?_append_left hi]
      · simp [Region.copied]
    · cases h
  | header =>
    cases h
    refine ⟨event.type, rfl, fun i hi => ?_, rfl⟩
    have hlength : event.header.length + i = Event.headerSize + i := by rw [Event.length_header]
    show event.bytes[Event.headerSize + i]? = _
    rw [Event.bytes, ← hlength, List.getElem?_append_right (by omega), Nat.add_sub_cancel_left,
      List.getElem?_append_left hi]
  | type =>
    cases h
    refine ⟨event.value, ?_, fun i hi => ?_, rfl⟩
    · rw [Event.writeValue, Nat.add_assoc]
      rfl
    · have hlength : (event.header ++ event.type).length + i =
          Event.headerSize + event.typeSize + i := by
        rw [List.length_append, Event.length_header, Event.typeSize]
      show event.bytes[Event.headerSize + event.typeSize + i]? = _
      rw [Event.bytes, ← List.append_assoc, ← hlength, List.getElem?_append_right (by omega),
        Nat.add_sub_cancel_left]
  | written => exact absurd rfl hstage

/-- A copy into a region that is ahead. -/
theorem Behind.copyAhead {pre post : List Region} {r : Region} {file : File} {stage : Stage}
    (h : Behind s past (pre ++ r :: post)) (hnext : copyNext r (s.files r.file) = .ok (file, stage))
    (hstage : r.stage ≠ .written) :
    Behind { s with
      files := Function.update s.files r.file file
      regions := past ++ (pre ++ { r with stage := stage } :: post) }
      past (pre ++ { r with stage := stage } :: post) := by
  obtain ⟨bs, rfl, hbs, hcopied⟩ := copyNext_eq_ok hnext hstage
  have hlaid := h.ahead.laid
  rw [← List.append_assoc] at hlaid
  have hcopy := hlaid.copy hbs hcopied
  rw [List.append_assoc] at hcopy
  exact ⟨rfl, hcopy.aheadOf h.ahead.chainPast, h.written, h.delivered, h.index⟩

theorem Behind.copy_eq {pre post : List Region} {r : Region} {file : File} {stage : Stage}
    (h : Behind s past (pre ++ r :: post)) (hnext : copyNext r (s.files r.file) = .ok (file, stage)) :
    s.copy (past.length + pre.length) = .ok { s with
      files := Function.update s.files r.file file
      regions := past ++ (pre ++ { r with stage := stage } :: post) } := by
  have hget : s.regions[past.length + pre.length]? = some r := by
    rw [h.regions, List.getElem?_append_right (by omega), List.getElem?_append_right (by omega)]
    simp
  have hset : s.regions.set (past.length + pre.length) { r with stage := stage } =
      past ++ (pre ++ { r with stage := stage } :: post) := by
    rw [h.regions, List.set_append_right _ _ (by omega), List.set_append_right _ _ (by omega)]
    simp
  unfold Shared.copy
  rw [hget]
  refine except_bind_ok.mpr ⟨_, hnext, ?_⟩
  dsimp only
  rw [hset]
  rfl

/-- A copy changes the stage of a region ahead, if anything. -/
theorem Behind.copy {k : ℕ} (h : Behind s past ahead) (hcopy : s.copy k = .ok t) :
    ∃ ahead', Behind t past ahead' := by
  cases hk : s.regions[k]? with
  | none =>
    unfold Shared.copy at hcopy
    rw [hk] at hcopy
    cases hcopy
    exact ⟨ahead, h⟩
  | some r =>
    have hstep := hcopy
    unfold Shared.copy at hstep
    rw [hk] at hstep
    obtain ⟨⟨file, stage⟩, hnext, hstep⟩ := except_bind_ok.mp hstep
    obtain ⟨hlt, hget⟩ := List.getElem?_eq_some_iff.mp hk
    by_cases hstage : r.stage = .written
    · -- nothing is left to copy
      cases hstep
      have hsame : (file, stage) = (s.files r.file, r.stage) := by
        unfold copyNext at hnext
        rw [hstage] at hnext ⊢
        exact (Except.ok.inj hnext).symm
      obtain ⟨rfl, rfl⟩ := Prod.mk.inj hsame
      refine ⟨ahead, ?_⟩
      have hset : s.regions.set k r = s.regions := by
        rw [← hget, List.set_getElem_self]
      rw [Function.update_eq_self]
      show Behind { s with regions := s.regions.set k r } past ahead
      rw [hset]
      exact h
    · have hk' : past.length ≤ k := by
        by_contra hpast
        rw [h.regions, List.getElem?_append_left (by omega)] at hk
        exact hstage (h.written r (List.mem_of_getElem? hk))
      have hfound := hk
      rw [h.regions, List.getElem?_append_right hk'] at hfound
      obtain ⟨hj, hget'⟩ := List.getElem?_eq_some_iff.mp hfound
      obtain ⟨pre, post, hahead, hpre⟩ : ∃ pre post, ahead = pre ++ r :: post ∧
          pre.length = k - past.length := by
        refine ⟨ahead.take (k - past.length), ahead.drop (k - past.length + 1), ?_,
          List.length_take_of_le hj.le⟩
        rw [← hget', ← List.drop_eq_getElem_cons hj, List.take_append_drop]
      subst hahead
      have hk : k = past.length + pre.length := by omega
      subst hk
      rw [h.copy_eq hnext] at hcopy
      cases hcopy
      exact ⟨_, h.copyAhead hnext hstage⟩

/-- The event that is delivered is that of the first region ahead. -/
theorem Behind.deliver {phase : Phase} {r : Region} (h : Behind s past (r :: ahead))
    (hstage : r.stage = .written) :
    Behind (s.take phase (some (r.event, r.last))) (past ++ [r]) ahead where
  regions := by
    show s.regions = _
    rw [h.regions, List.append_assoc, List.singleton_append]
  ahead := h.ahead.next
  written s hs := by
    rcases List.mem_append.mp hs with hs | hs
    · exact h.written s hs
    · rw [List.mem_singleton.mp hs]
      exact hstage
  delivered := by
    show s.delivered ++ [r.event] = _
    rw [h.delivered, List.map_append]
    rfl
  index := h.index

/-- A look at the position of the reader delivers the next event, if anything. -/
theorem Behind.lookHere (h : Behind s past ahead) (hphase : s.phase = .here)
    (hfair : Fair s .look) (hstep : (lookHere s.files s.iterator).map (s.take .next) = .ok t) :
    ∃ past' ahead', Behind t past' ahead' := by
  rw [lookHere_eq s.files h.ahead.index_lt] at hstep
  split at hstep
  · rename_i hevent
    obtain ⟨r, hr, hbase, hheader⟩ := h.ahead.isEvent_here.mp hevent
    have hmem : r ∈ s.regions := by
      rw [h.regions]
      exact List.mem_append_right past hr
    unfold Fair at hfair
    rw [hphase] at hfair
    have hstage := (hfair r hmem hbase).resolve_left hheader
    have hread := h.ahead.read_written hr hstage
    rw [Region.file, Region.position, hbase] at hread
    rw [hread, ← hbase] at hstep
    cases hstep
    cases ahead with
    | nil => exact absurd hr List.not_mem_nil
    | cons r' ahead =>
      have hle := (h.ahead.chainAhead.bounds r' List.mem_cons_self).1
      obtain rfl := h.ahead.chainAhead.eq_head hr (by omega)
      exact ⟨past ++ [r], ahead, h.deliver hstage⟩
  · cases hstep
    exact ⟨past, ahead, h.regions, h.ahead, h.written, h.delivered, h.index⟩

/-- A look at the next file delivers the next event, if anything. -/
theorem Behind.lookNext (h : Behind s past ahead) (hphase : s.phase = .next)
    (hfair : Fair s .look) (hstep : (lookNext s.files s.iterator).map (s.take .here) = .ok t) :
    ∃ past' ahead', Behind t past' ahead' := by
  have hindex : s.iterator / LOG_FILE_SIZE + 1 < LogFileIndexes :=
    (Nat.add_le_add_right (Nat.div_le_div_right h.ahead.chainAhead.le) 1).trans_lt h.index
  rw [lookNext_eq s.files h.ahead.index_lt, Nat.mod_eq_of_lt hindex] at hstep
  dsimp only at hstep
  split at hstep
  · rename_i hevent
    obtain ⟨r, hr, hbase, hheader⟩ := h.ahead.isEvent_next.mp hevent
    have hmem : r ∈ s.regions := by
      rw [h.regions]
      exact List.mem_append_right past hr
    unfold Fair at hfair
    rw [hphase] at hfair
    obtain ⟨hstage, hnone⟩ := (hfair r hmem hbase).resolve_left hheader
    have hread := h.ahead.read_written hr hstage
    rw [Region.file, Region.position, hbase, getPosition, getIterFromFileID, Nat.mul_mod_left,
      Nat.mul_div_cancel _ (by decide)] at hread
    rw [hread, ← hbase] at hstep
    cases hstep
    cases ahead with
    | nil => exact absurd hr List.not_mem_nil
    | cons r' ahead =>
      -- the first region ahead is not at the iterator, so it is at the start of the next file
      have hother : r'.base ≠ s.iterator := hnone r' (by
        rw [h.regions]
        exact List.mem_append_right past List.mem_cons_self)
      have hnext : r'.base = r.base := by
        cases h.ahead.chainAhead with
        | cons hfollows _ =>
          rcases hfollows with ⟨hsame, -⟩ | ⟨hnext, -⟩
          · exact absurd hsame hother
          · rw [hnext, hbase]
      obtain rfl := h.ahead.chainAhead.eq_head hr hnext.ge
      exact ⟨past ++ [r], ahead, h.deliver hstage⟩
  · cases hstep
    exact ⟨past, ahead, h.regions, h.ahead, h.written, h.delivered, h.index⟩

/-- A look delivers the next event, if anything. -/
theorem Behind.look (h : Behind s past ahead) (hfair : Fair s .look) (hstep : s.look = .ok t) :
    ∃ past' ahead', Behind t past' ahead' := by
  unfold Shared.look at hstep
  cases hphase : s.phase with
  | here =>
    rw [hphase] at hstep
    exact h.lookHere hphase hfair hstep
  | next =>
    rw [hphase] at hstep
    exact h.lookNext hphase hfair hstep

instance (s : Shared) : (a : Action) → Decidable (Fair s a)
  | .claim event => inferInstanceAs (Decidable (event.totalSize < LOG_FILE_SIZE ∧
      place s.m_claim event.totalSize / LOG_FILE_SIZE + 1 < LogFileIndexes))
  | .copy _ => inferInstanceAs (Decidable True)
  | .look =>
    match hphase : s.phase with
    | .here => decidable_of_iff (∀ r ∈ s.regions, r.base = s.iterator →
        r.stage = .claimed ∨ r.stage = .written) (by rw [Fair, hphase])
    | .next => decidable_of_iff (∀ r ∈ s.regions,
        r.base = getIterFromFileID (s.iterator / LOG_FILE_SIZE + 1) → r.stage = .claimed ∨
          r.stage = .written ∧ ∀ r' ∈ s.regions, r'.base ≠ s.iterator) (by rw [Fair, hphase])

/-- **A reader jumps over a claimed region.** When the region at its position has been claimed but not
written, and the next one stands in the next file and has been written, the reader takes the second. -/
theorem Behind.jumps {r r' : Region} (h : Behind s past (r :: r' :: ahead)) (hphase : s.phase = .here)
    (hbase : r.base = s.iterator) (hstage : r.stage = .claimed) (hstage' : r'.stage = .written)
    (hnext : r'.base = getIterFromFileID (s.iterator / LOG_FILE_SIZE + 1)) :
    Reaches step (fun _ _ => True) s { s with
      iterator := r'.last
      delivered := s.delivered ++ [r'.event] } := by
  have hr' : r' ∈ r :: r' :: ahead := List.mem_cons_of_mem r List.mem_cons_self
  have hindex : s.iterator / LOG_FILE_SIZE + 1 < LogFileIndexes :=
    (Nat.add_le_add_right (Nat.div_le_div_right h.ahead.chainAhead.le) 1).trans_lt h.index
  have hhere : Event.isEvent (s.files (s.iterator / LOG_FILE_SIZE)) (getPosition s.iterator) ≠ true := by
    rw [Ne, h.ahead.isEvent_here]
    rintro ⟨q, hq, hq', hclaimed⟩
    obtain rfl := h.ahead.chainAhead.eq_head hq (by omega)
    exact hclaimed hstage
  have hread := h.ahead.read_written hr' hstage'
  rw [Region.file, Region.position, hnext, getPosition, getIterFromFileID, Nat.mul_mod_left,
    Nat.mul_div_cancel _ (by decide)] at hread
  have hevent := h.ahead.isEvent_next.mpr ⟨r', hr', hnext, by rw [hstage']; decide⟩
  have hfirst : step s .look = .ok { s with phase := .next } := by
    show s.look = _
    unfold Shared.look
    rw [hphase]
    show (Shared.lookHere s.files s.iterator).map (s.take .next) = _
    rw [lookHere_eq s.files h.ahead.index_lt, if_neg hhere]
    rfl
  have hsecond : step { s with phase := .next } .look = .ok { s with
      iterator := r'.last
      delivered := s.delivered ++ [r'.event] } := by
    show (Shared.lookNext s.files s.iterator).map (take { s with phase := .next } .here) = _
    rw [lookNext_eq s.files h.ahead.index_lt, Nat.mod_eq_of_lt hindex]
    dsimp only
    rw [if_pos hevent, hread, ← hnext]
    show Except.ok _ = Except.ok _
    unfold take
    rw [hphase]
    rfl
  exact .tail (.single ⟨.look, trivial, hfirst⟩) ⟨.look, trivial, hsecond⟩

end Shared
end EgLang.EventLog
