import EgLang.EventLog.Fifo

/-!
# The limits of an event

The size of an event is compared with the size of a file in four places: by the server before it
claims, by the generator when the region would reach into another file, by the file before it
writes, and, for the position only, before the file is asked for an event.
-/

namespace EgLang.EventLog

open EgLang.Library

set_option autoImplicit false

/-! ## Writes that may fail -/

/-- The condition of the `ASSERT` in `Generator::claim`, where it is evaluated. -/
def assertHolds (m_claim size : ℕ) : Prop :=
  ∀ fileDesired fileBase, getFileID (m_claim + size) = .ok fileDesired →
    getFileID m_claim = .ok fileBase → fileDesired ≠ fileBase →
      getFileID (getIterFromFileID fileDesired + size) ≠
        getFileID (getIterFromFileID fileDesired)

namespace Server

/-- `Server::write`, with the state that it leaves also where it throws: the claim is published
before the file is written. -/
def tryWrite (s : Server) (event : Event) : Server × Except Fault Unit :=
  if event.totalSize > LOG_FILE_SIZE then (s, .error .eventTooBig)
  else
    match claim s.m_claim event.totalSize with
    | .error e => (s, .error e)
    | .ok (iterClaim, m_claim) =>
      let s' := { s with m_claim := m_claim }
      match getFileID iterClaim with
      | .error e => (s', .error e)
      | .ok szFileID =>
        match (s.files szFileID).write (getPosition iterClaim) event with
        | .error e => (s', .error e)
        | .ok file => ({ s' with files := Function.update s.files szFileID file }, .ok ())

/-- A completed write is one that does not throw. -/
theorem tryWrite_eq {s t : Server} {event : Event} (h : s.write event = .ok t) :
    s.tryWrite event = (t, .ok ()) := by
  unfold write at h
  unfold tryWrite
  split at h
  · cases h
  rename_i hsize
  rw [if_neg hsize]
  obtain ⟨⟨base, last⟩, hclaim, h⟩ := except_bind_ok.mp h
  obtain ⟨id, hid, h⟩ := except_bind_ok.mp h
  obtain ⟨file, hfile, h⟩ := except_bind_ok.mp h
  cases h
  rw [hclaim]
  dsimp only at hid hfile ⊢
  rw [hid]
  dsimp only
  rw [hfile]

/-- The state after a call, whether it throws or not. -/
def after (s : Server) : Call → Server
  | .write event => (s.tryWrite event).1
  | .updateHead => s.updateHead

def afterAll (s : Server) (calls : List Call) : Server := calls.foldl after s

theorem afterAll_snoc (s : Server) (calls : List Call) (c : Call) :
    s.afterAll (calls ++ [c]) = (s.afterAll calls).after c :=
  List.foldl_concat after s c calls

end Server

/-! ## What is promised -/

/-- One write: if the server lets the event pass, the assertion holds, the region lies in one file,
where the event fits, and the event is read back; if the write throws, nothing has changed. -/
structure CleanWrite (s : Server) (event : Event) : Prop where
  accepted : event.totalSize ≤ LOG_FILE_SIZE →
    assertHolds s.m_claim event.totalSize ∧
    ∃ base last, claim s.m_claim event.totalSize = .ok (base, last) ∧
      base / LOG_FILE_SIZE = (base + event.totalSize - 1) / LOG_FILE_SIZE ∧
      File.willFit (getPosition base) event = true ∧
      read (s.tryWrite event).1.files base = .ok (some (event, base + event.totalSize))
  thrown : ∀ e, (s.tryWrite event).2 = .error e → (s.tryWrite event).1 = s

/-- The iterators of a reader that has begun at iterator 0 or at the head. -/
inductive Reached (s : Server) : ℕ → Prop
  | start : Reached s 0
  | head : Reached s s.m_head
  | next {it it' : ℕ} {event : Event} :
      Reached s it → read s.files it = .ok (some (event, it')) → Reached s it'

/-- `Event::isEvent` reads eight bytes, from the position on: they are in the file. -/
def IsEventInside (it : ℕ) : Prop := getPosition it + 8 ≤ LOG_FILE_SIZE

/-- Every write of a sequence of calls is clean, and no reader looks past the end of a file. -/
structure Agreed (calls : List Call) : Prop where
  writes : ∀ before event rest, calls = before ++ .write event :: rest →
    CleanWrite (Server.afterAll .new before) event
  reads : ∀ before rest, calls = before ++ rest →
    ∀ it, Reached (Server.afterAll .new before) it → IsEventInside it

/-- The bytes of the events that the server lets pass. -/
def acceptedSize (calls : List Call) : ℕ :=
  (((Server.eventsOf calls).map Event.totalSize).filter (· ≤ LOG_FILE_SIZE)).sum

/-! ## Inside the first file -/

/-- The events lie one behind the other in the first file, and the head is behind one of them. -/
structure InFirstFile (s : Server) (regions : List Region) : Prop where
  holds : s.Holds regions
  room : s.m_claim + 8 ≤ LOG_FILE_SIZE
  head : ∃ past ahead, regions = past ++ ahead ∧ Chain 0 past s.m_head

variable {s t : Server} {regions : List Region} {event : Event}

theorem inFirstFile_new : InFirstFile .new [] where
  holds := Server.holds_new
  room := by decide
  head := ⟨[], [], rfl, .nil 0⟩

theorem InFirstFile.updateHead (h : InFirstFile s regions) : InFirstFile s.updateHead regions where
  holds := ⟨h.holds.laid, h.holds.written⟩
  room := h.room
  head := ⟨regions, [], (List.append_nil regions).symm, h.holds.laid.chain⟩

theorem getPosition_of_lt {it : ℕ} (h : it < LOG_FILE_SIZE) : getPosition it = it :=
  Nat.mod_eq_of_lt h

theorem place_of_lt {last size : ℕ} (h : last + size < LOG_FILE_SIZE) :
    place last size = last + size := by
  rw [place, getPosition_of_lt (by omega), if_pos h]

theorem Server.head_of_write (h : s.write event = .ok t) : t.m_head = s.m_head := by
  unfold Server.write at h
  split at h
  · cases h
  obtain ⟨⟨base, last⟩, -, h⟩ := except_bind_ok.mp h
  obtain ⟨id, -, h⟩ := except_bind_ok.mp h
  obtain ⟨file, -, h⟩ := except_bind_ok.mp h
  cases h
  rfl

/-- A write that ends before the first file does. -/
theorem InFirstFile.write (h : InFirstFile s regions)
    (hlt : s.m_claim + event.totalSize < LOG_FILE_SIZE) :
    ∃ t, s.write event = .ok t ∧ t.m_head = s.m_head ∧
      t.m_claim = s.m_claim + event.totalSize ∧
      t.Holds (regions ++ [⟨s.m_claim, event, .written⟩]) := by
  have hsize : event.totalSize < LOG_FILE_SIZE := by omega
  have hplace := place_of_lt hlt
  obtain ⟨t, ht, hclaim⟩ := Server.write_ok (s := s) hsize (by
    rw [hplace, Nat.div_eq_of_lt hlt]
    decide)
  obtain ⟨base, hbase⟩ := h.holds.write hsize ht
  rw [hplace] at hclaim
  -- the region begins where the last one ended
  have hlast : base + event.totalSize = t.m_claim := by
    obtain ⟨j, hj, hchain⟩ := chain_append.mp hbase.laid.chain
    cases hchain with
    | cons _ hnil => exact ((hnil.unique (.nil _))).symm
  obtain rfl : base = s.m_claim := by omega
  exact ⟨t, ht, Server.head_of_write ht, hclaim, hbase⟩

/-- **Step lemma.** A write that leaves room for a delimiter in the first file. -/
theorem InFirstFile.next (h : InFirstFile s regions)
    (hroom : s.m_claim + event.totalSize + 8 ≤ LOG_FILE_SIZE) :
    InFirstFile (s.tryWrite event).1 (regions ++ [⟨s.m_claim, event, .written⟩]) ∧
      (s.tryWrite event).1.m_claim = s.m_claim + event.totalSize := by
  obtain ⟨t, ht, hhead, hclaim, hholds⟩ := @InFirstFile.write _ _ event h (by omega)
  rw [Server.tryWrite_eq ht]
  have hroom' : t.m_claim + 8 ≤ LOG_FILE_SIZE := by omega
  refine ⟨⟨hholds, hroom', ?_⟩, hclaim⟩
  obtain ⟨past, ahead, rfl, hchain⟩ := h.head
  refine ⟨past, ahead ++ [⟨s.m_claim, event, .written⟩], List.append_assoc _ _ _, ?_⟩
  rw [hhead]
  exact hchain

/-- A write that leaves room for a delimiter is clean. -/
theorem InFirstFile.cleanWrite (h : InFirstFile s regions)
    (hroom : s.m_claim + event.totalSize + 8 ≤ LOG_FILE_SIZE) : CleanWrite s event := by
  obtain ⟨t, ht, -, hclaim, hholds⟩ := @InFirstFile.write _ _ event h (by omega)
  have hsize : event.totalSize < LOG_FILE_SIZE := by omega
  have hfile (it : ℕ) (hit : it ≤ s.m_claim + event.totalSize) : it / LOG_FILE_SIZE = 0 :=
    Nat.div_eq_of_lt (by omega)
  have hid (it : ℕ) (hit : it ≤ s.m_claim + event.totalSize) : getFileID it = .ok 0 :=
    getFileID_eq_ok.mpr ⟨(hfile it hit).symm, by decide⟩
  refine ⟨fun _ => ⟨?_, s.m_claim, s.m_claim + event.totalSize, ?_, ?_, ?_, ?_⟩, ?_⟩
  · intro desired base hdesired hbase hne
    rw [hid _ le_rfl] at hdesired
    rw [hid _ (Nat.le_add_right _ _)] at hbase
    cases hdesired
    cases hbase
    exact absurd rfl hne
  · refine (claim_eq_ok hsize).mpr ⟨.inl ⟨rfl, ?_⟩, rfl, ?_⟩
    · rw [hfile _ le_rfl, hfile _ (Nat.le_add_right _ _)]
    · rw [hfile _ le_rfl]
      decide
  · rw [hfile _ (Nat.le_add_right _ _), hfile _ (Nat.sub_le _ _)]
  · rw [getPosition_of_lt (by omega)]
    exact decide_eq_true (by omega)
  · rw [Server.tryWrite_eq ht]
    exact (hholds.laid.aheadOf h.holds.laid.chain).read_first rfl
  · intro e he
    rw [Server.tryWrite_eq ht] at he
    cases he

/-! ## Readers in the first file -/

/-- A reader stands behind one of the events. -/
theorem InFirstFile.reached (h : InFirstFile s regions) {it : ℕ} (hit : Reached s it) :
    ∃ past ahead, regions = past ++ ahead ∧ Chain 0 past it := by
  induction hit with
  | start => exact ⟨[], regions, rfl, .nil 0⟩
  | head => exact h.head
  | @next it it' event _ hread ih =>
    obtain ⟨past, ahead, rfl, hchain⟩ := ih
    have hahead := h.holds.laid.aheadOf hchain
    cases ahead with
    | nil =>
      have hlast : it = s.m_claim := by
        exact hahead.chainAhead.unique (.nil it) |>.symm
      have hroom := h.room
      rw [hahead.read_none (by rw [Nat.div_eq_of_lt (by omega)]; decide)] at hread
      cases hread
    | cons r ahead =>
      have hwritten := h.holds.written r (List.mem_append_right _ List.mem_cons_self)
      rw [hahead.read_first hwritten] at hread
      cases hread
      exact ⟨past ++ [r], ahead, by simp, hahead.next.chainPast⟩

theorem InFirstFile.reads (h : InFirstFile s regions) {it : ℕ} (hit : Reached s it) :
    IsEventInside it := by
  obtain ⟨past, ahead, hregions, hchain⟩ := h.reached hit
  rw [hregions] at h
  have hle := (h.holds.laid.aheadOf hchain).chainAhead.le
  have hroom := h.room
  rw [IsEventInside, getPosition_of_lt (by omega)]
  omega

/-- A reader gets behind every event that has been written. -/
theorem reached_of_ahead {past ahead : List Region} {it last : ℕ}
    (h : Ahead s.files past ahead it last) (hwritten : ∀ r ∈ ahead, r.stage = .written)
    (hit : Reached s it) : Reached s last := by
  induction ahead generalizing past it with
  | nil =>
    cases h.chainAhead
    exact hit
  | cons r ahead ih =>
    rw [List.forall_mem_cons] at hwritten
    exact ih h.next hwritten.2 (.next hit (h.read_first hwritten.1))

/-! ## Writes that are not clean -/

/-- Across the end of a file the assertion fails, or the file refuses an event of its size. -/
theorem not_cleanWrite (hlt : s.m_claim < LOG_FILE_SIZE) (hsize : event.totalSize ≤ LOG_FILE_SIZE)
    (hcross : LOG_FILE_SIZE ≤ s.m_claim + event.totalSize) : ¬ CleanWrite s event := by
  intro h
  obtain ⟨hassert, base, last, -, -, hfit, -⟩ := h.accepted hsize
  have hfits : getPosition base + event.totalSize < LOG_FILE_SIZE := of_decide_eq_true hfit
  have hsmall : event.totalSize < LOG_FILE_SIZE := by omega
  have hdesired : getFileID (s.m_claim + event.totalSize) = .ok 1 := by
    refine getFileID_eq_ok.mpr ⟨?_, by decide⟩
    unfold LOG_FILE_SIZE at *
    omega
  have hbase : getFileID s.m_claim = .ok 0 :=
    getFileID_eq_ok.mpr ⟨(Nat.div_eq_of_lt hlt).symm, by decide⟩
  refine hassert 1 0 hdesired hbase (by decide) ?_
  have hone (k : ℕ) (hk : k < LOG_FILE_SIZE) : getFileID (getIterFromFileID 1 + k) = .ok 1 := by
    refine getFileID_eq_ok.mpr ⟨?_, by decide⟩
    unfold getIterFromFileID LOG_FILE_SIZE at *
    omega
  rw [hone _ hsmall]
  exact (hone 0 (by decide)).symm

/-! ## Runs -/

theorem acceptedSize_updateHead (calls : List Call) :
    acceptedSize (calls ++ [.updateHead]) = acceptedSize calls := by
  simp [acceptedSize, Server.eventsOf]

theorem acceptedSize_write (calls : List Call) (event : Event) :
    acceptedSize (calls ++ [.write event]) = acceptedSize calls +
      if event.totalSize ≤ LOG_FILE_SIZE then event.totalSize else 0 := by
  simp only [acceptedSize, Server.eventsOf, List.filterMap_append, List.map_append,
    List.filter_append, List.sum_append]
  congr 1
  by_cases h : event.totalSize ≤ LOG_FILE_SIZE <;> simp [h]

theorem tryWrite_tooBig (h : ¬ event.totalSize ≤ LOG_FILE_SIZE) :
    s.tryWrite event = (s, .error .eventTooBig) := if_pos (Nat.lt_of_not_le h)

theorem cleanWrite_tooBig (h : ¬ event.totalSize ≤ LOG_FILE_SIZE) : CleanWrite s event where
  accepted hle := absurd hle h
  thrown e _ := by rw [tryWrite_tooBig h]

/-- **Run lemma.** Calls whose events leave room for a delimiter. -/
theorem inFirstFile_of_le {calls : List Call} (h : acceptedSize calls + 8 ≤ LOG_FILE_SIZE) :
    (∃ regions, InFirstFile (Server.afterAll .new calls) regions) ∧
      (Server.afterAll .new calls).m_claim = acceptedSize calls := by
  induction calls using List.reverseRecOn with
  | nil => exact ⟨⟨[], inFirstFile_new⟩, rfl⟩
  | append_singleton calls c ih =>
    rw [Server.afterAll_snoc]
    cases c with
    | updateHead =>
      rw [acceptedSize_updateHead] at h ⊢
      obtain ⟨⟨regions, hin⟩, hclaim⟩ := ih h
      exact ⟨⟨regions, hin.updateHead⟩, hclaim⟩
    | write event =>
      rw [acceptedSize_write] at h ⊢
      obtain ⟨⟨regions, hin⟩, hclaim⟩ := ih (by omega)
      rw [Server.after]
      by_cases hsize : event.totalSize ≤ LOG_FILE_SIZE
      · rw [if_pos hsize] at h ⊢
        obtain ⟨hnext, hclaim'⟩ := @InFirstFile.next _ _ event hin (by omega)
        exact ⟨⟨_, hnext⟩, hclaim'.trans (by rw [hclaim])⟩
      · rw [if_neg hsize, Nat.add_zero] at h ⊢
        rw [tryWrite_tooBig hsize]
        exact ⟨⟨regions, hin⟩, hclaim⟩

theorem acceptedSize_prefix (before after : List Call) :
    acceptedSize before ≤ acceptedSize (before ++ after) := by
  simp [acceptedSize, Server.eventsOf]

theorem getFileID_fullFile : getFileID LOG_FILE_SIZE = .ok 1 :=
  getFileID_eq_ok.mpr ⟨by decide, by decide⟩

/-- The generator skips the rest of the file, and claims the whole of the next one. -/
theorem claim_fullFile : claim 0 LOG_FILE_SIZE = .ok (LOG_FILE_SIZE, 2 * LOG_FILE_SIZE) := by
  have hzero : getFileID 0 = .ok 0 := getFileID_eq_ok.mpr ⟨by decide, by decide⟩
  unfold claim
  dsimp only
  rw [Nat.zero_add, getFileID_fullFile, hzero]
  refine except_bind_ok.mpr ⟨1, rfl, except_bind_ok.mpr ⟨0, rfl, ?_⟩⟩
  rw [if_pos (by decide), getIterFromFileID, Nat.one_mul, Nat.two_mul]
  rfl

theorem tryWrite_fullFile (hsize : event.totalSize = LOG_FILE_SIZE) :
    Server.new.tryWrite event = (⟨fun _ _ => 0, 2 * LOG_FILE_SIZE, 0⟩, .error .doesNotFit) := by
  have hfit : File.willFit (getPosition LOG_FILE_SIZE) event = false :=
    decide_eq_false (by omega)
  unfold Server.tryWrite
  rw [hsize, if_neg (lt_irrefl _), Server.new, claim_fullFile]
  dsimp only
  rw [getFileID_fullFile]
  dsimp only
  rw [File.write, hfit]
  rfl

theorem not_agreed_fullFile (hsize : event.totalSize = LOG_FILE_SIZE) :
    ¬ Agreed [.write event] := by
  intro h
  have hthrown := (h.writes [] event [] rfl).thrown .doesNotFit
  rw [Server.afterAll, List.foldl_nil, tryWrite_fullFile hsize] at hthrown
  have hclaim : 2 * LOG_FILE_SIZE = 0 := congrArg Server.m_claim (hthrown rfl)
  unfold LOG_FILE_SIZE at hclaim
  omega

end EgLang.EventLog
