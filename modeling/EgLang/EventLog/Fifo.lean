import EgLang.EventLog.Reading

/-!
# The log of one writer

Runs of a server whose writes are completed one after the other, and what a reader obtains after
them.
-/

namespace EgLang.EventLog

open EgLang.Library

set_option autoImplicit false

/-! ## Runs -/

inductive Call
  | write (event : Event)
  | updateHead

namespace Server

/-- One completed call. -/
def call (s : Server) : Call → Except Fault Server
  | .write event => s.write event
  | .updateHead => .ok s.updateHead

/-- A sequence of completed calls. -/
def run (s : Server) (calls : List Call) : Except Fault Server := calls.foldlM call s

/-- The events of a sequence of calls. -/
def eventsOf (calls : List Call) : List Event :=
  calls.filterMap fun
    | .write event => some event
    | .updateHead => none

/-- Every region has been written. -/
structure Holds (s : Server) (regions : List Region) : Prop where
  laid : Laid s.files regions s.m_claim
  written : ∀ r ∈ regions, r.stage = .written

variable {s t : Server} {regions : List Region}

theorem holds_new : Holds .new [] where
  laid := laid_new
  written _ hr := absurd hr List.not_mem_nil

/-- What a completed write has claimed and written. -/
theorem write_eq_ok {event : Event} (h : s.write event = .ok t) : ∃ base,
    claim s.m_claim event.totalSize = .ok (base, t.m_claim) ∧
      t.files = Function.update s.files (base / LOG_FILE_SIZE)
        (event.write (s.files (base / LOG_FILE_SIZE)) (getPosition base)) := by
  unfold write at h
  split at h
  · cases h
  obtain ⟨⟨base, last⟩, hclaim, h⟩ := except_bind_ok.mp h
  obtain ⟨file, hfile, h⟩ := except_bind_ok.mp h
  obtain ⟨region, hwrite, h⟩ := except_bind_ok.mp h
  cases h
  obtain ⟨rfl, -⟩ := getFileID_eq_ok.mp hfile
  unfold File.write at hwrite
  split at hwrite
  · cases hwrite
    exact ⟨base, hclaim, rfl⟩
  · cases hwrite

/-- **A completed write** adds a region that has been written. -/
theorem Holds.write (h : Holds s regions) {event : Event} (hsize : event.totalSize < LOG_FILE_SIZE)
    (hw : s.write event = .ok t) : ∃ base, Holds t (regions ++ [⟨base, event, .written⟩]) := by
  obtain ⟨base, hclaim, hfiles⟩ := write_eq_ok hw
  refine ⟨base, ?_, fun r hr => ?_⟩
  · have hbytes : ∀ i < event.bytes.length,
        event.bytes[(⟨base, event, .claimed⟩ : Region).copied + i]? = event.bytes[i]? := fun i _ => by
      rw [Region.copied, Nat.zero_add]
    have hcopied : (⟨base, event, .written⟩ : Region).copied =
        (⟨base, event, .claimed⟩ : Region).copied + event.bytes.length := by
      simp [Region.copied]
    rw [hfiles, event.write_eq]
    exact (h.laid.claim hsize hclaim).copy hbytes hcopied
  · rcases List.mem_append.mp hr with hr | hr
    · exact h.written r hr
    · rw [List.mem_singleton.mp hr]

/-- **A run** adds the regions of its events. -/
theorem Holds.run {calls : List Call} (h : Holds s regions)
    (hsize : ∀ event, .write event ∈ calls → event.totalSize < LOG_FILE_SIZE)
    (hrun : s.run calls = .ok t) :
    ∃ new : List Region, Holds t (regions ++ new) ∧ new.map Region.event = eventsOf calls := by
  induction calls generalizing s regions with
  | nil =>
    cases hrun
    exact ⟨[], by rwa [List.append_nil], rfl⟩
  | cons c calls ih =>
    obtain ⟨u, hu, hafter⟩ : ∃ u, s.call c = .ok u ∧ u.run calls = .ok t :=
      except_bind_ok.mp hrun
    have hrest : ∀ event, .write event ∈ calls → event.totalSize < LOG_FILE_SIZE := fun event he =>
      hsize event (List.mem_cons_of_mem c he)
    cases c with
    | updateHead =>
      cases hu
      have hnext : Holds s.updateHead regions := ⟨h.laid, h.written⟩
      exact ih hnext hrest hafter
    | write event =>
      obtain ⟨base, hnew⟩ := h.write (hsize event List.mem_cons_self) hu
      obtain ⟨new, hall, hevents⟩ := ih hnew hrest hafter
      refine ⟨⟨base, event, .written⟩ :: new, ?_, ?_⟩
      · rwa [List.append_assoc] at hall
      · rw [List.map_cons, hevents]
        rfl

theorem run_append {before after : List Call} :
    s.run (before ++ after) = (s.run before >>= fun t => t.run after) := List.foldlM_append

/-- The head that has just been published is the end of what has been claimed. -/
theorem head_of_run {calls : List Call} (h : s.run (calls ++ [.updateHead]) = .ok t) :
    t.m_head = t.m_claim := by
  rw [run_append] at h
  obtain ⟨u, -, hu⟩ := except_bind_ok.mp h
  cases hu
  rfl

end Server

/-! ## First in, first out -/

/-- What the log of one writer promises after a sequence of calls: the events stand in the files in
order, each where the last one ended or, where it does not fit there, at the start of the next file;
reading from the start yields all of them, and reading from a head those written since it was
published. -/
structure Fifo (calls : List Call) (s : Server) : Prop where
  placed : ∃ regions : List Region, regions.map Region.event = Server.eventsOf calls ∧
    Chain 0 regions s.m_claim ∧ ∀ r ∈ regions, r.event.BytesAt (s.files r.file) r.position
  start : Drains s.files 0 (Server.eventsOf calls)
  head : ∀ before after t, calls = before ++ .updateHead :: after →
    Server.run .new (before ++ [.updateHead]) = .ok t →
      Drains s.files t.m_head (Server.eventsOf after)

section Promise
variable {calls : List Call} {s : Server}
  (hsize : ∀ event, .write event ∈ calls → event.totalSize < LOG_FILE_SIZE)
  (hrun : Server.run .new calls = .ok s)
include hsize hrun

/-- Where the events of a run end. -/
theorem span_of_run : span 0 ((Server.eventsOf calls).map Event.totalSize) = s.m_claim := by
  obtain ⟨regions, hs, hevents⟩ := Server.holds_new.run hsize hrun
  rw [List.nil_append] at hs
  rw [← hevents, List.map_map]
  exact hs.laid.chain.span_eq

theorem fifo_of_lt (hlast : s.m_claim / LOG_FILE_SIZE + 1 < LogFileIndexes) : Fifo calls s := by
  obtain ⟨regions, hs, hevents⟩ := Server.holds_new.run hsize hrun
  rw [List.nil_append] at hs
  have hall : Ahead s.files [] regions 0 s.m_claim := Laid.aheadOf hs.laid (.nil 0)
  refine ⟨⟨regions, hevents, hs.laid.chain, fun r hr => hall.bytesAt hr (hs.written r hr)⟩, ?_,
    fun before after t hcalls ht => ?_⟩
  · rw [← hevents]
    exact hall.drains hs.written hlast
  · -- the run is one up to the head, and one from there
    have hsplit : calls = before ++ [.updateHead] ++ after := by
      rw [hcalls, List.append_assoc]
      rfl
    rw [hsplit, Server.run_append, ht] at hrun
    have hmem : ∀ {event}, Call.write event ∈ before ++ [.updateHead] ∨ .write event ∈ after →
        event.totalSize < LOG_FILE_SIZE := fun {event} he =>
      hsize event (hsplit ▸ List.mem_append.mpr he)
    obtain ⟨past, hpast, -⟩ := Server.holds_new.run (fun event he => hmem (.inl he)) ht
    rw [List.nil_append] at hpast
    obtain ⟨ahead, hahead, hafter⟩ := hpast.run (fun event he => hmem (.inr he)) hrun
    rw [Server.head_of_run ht, ← hafter]
    refine (hahead.laid.aheadOf hpast.laid.chain).drains (fun r hr => ?_) hlast
    exact hahead.written r (List.mem_append_right past hr)

theorem not_fifo (hlast : ¬ s.m_claim / LOG_FILE_SIZE + 1 < LogFileIndexes) : ¬ Fifo calls s := by
  obtain ⟨regions, hs, hevents⟩ := Server.holds_new.run hsize hrun
  rw [List.nil_append] at hs
  have hall : Ahead s.files [] regions 0 s.m_claim := Laid.aheadOf hs.laid (.nil 0)
  have hindex := hs.laid.index
  intro h
  refine hall.not_drains hs.written (by omega) ?_
  rw [hevents]
  exact h.start

/-- **Main result.** After completed writes of less than a file each, the log is first in, first out,
exactly if the events end before the last file that has an index. -/
theorem fifo_iff : Fifo calls s ↔
    span 0 ((Server.eventsOf calls).map Event.totalSize) / LOG_FILE_SIZE + 1 < LogFileIndexes := by
  rw [span_of_run hsize hrun]
  constructor
  · intro h
    by_contra hlast
    exact not_fifo hsize hrun hlast h
  · exact fifo_of_lt hsize hrun

end Promise

/-- A write is completed if the event ends in a file that has an index. -/
theorem Server.write_ok {s : Server} {event : Event} (hsize : event.totalSize < LOG_FILE_SIZE)
    (hindex : place s.m_claim event.totalSize / LOG_FILE_SIZE < LogFileIndexes) :
    ∃ t, s.write event = .ok t ∧ t.m_claim = place s.m_claim event.totalSize := by
  obtain ⟨base, hfollows⟩ := exists_follows s.m_claim hsize
  have hplace := hfollows.place_eq
  rw [hplace] at hindex ⊢
  have hle : s.m_claim + event.totalSize ≤ base + event.totalSize :=
    Nat.add_le_add_right hfollows.le _
  have hclaim : claim s.m_claim event.totalSize = .ok (base, base + event.totalSize) :=
    (claim_eq_ok hsize).mpr ⟨hfollows, rfl, (Nat.div_le_div_right hle).trans_lt hindex⟩
  have hfile : getFileID base = .ok (base / LOG_FILE_SIZE) := by
    refine getFileID_eq_ok.mpr ⟨rfl, ?_⟩
    exact (Nat.div_le_div_right (Nat.le_add_right base _)).trans_lt hindex
  have hwrite : (File.write (s.files (base / LOG_FILE_SIZE)) (getPosition base) event) =
      .ok (event.write (s.files (base / LOG_FILE_SIZE)) (getPosition base)) := by
    unfold File.write File.willFit
    rw [if_pos (decide_eq_true (hfollows.fits hsize))]
  refine ⟨⟨Function.update s.files (base / LOG_FILE_SIZE)
    (event.write (s.files (base / LOG_FILE_SIZE)) (getPosition base)),
      base + event.totalSize, s.m_head⟩, ?_, rfl⟩
  unfold Server.write
  rw [if_neg (by omega), hclaim]
  show (getFileID base >>= fun szFileID => _) = _
  rw [hfile]
  show (File.write _ _ _ >>= fun file => _) = _
  rw [hwrite]
  rfl

/-- Writes are completed if the events end in files that have an index. -/
theorem Server.run_ok (calls : List Call) {s : Server}
    (hsize : ∀ event, .write event ∈ calls → event.totalSize < LOG_FILE_SIZE)
    (hindex : span s.m_claim ((eventsOf calls).map Event.totalSize) / LOG_FILE_SIZE < LogFileIndexes) :
    ∃ t, s.run calls = .ok t := by
  induction calls generalizing s with
  | nil => exact ⟨s, rfl⟩
  | cons c calls ih =>
    have hrest : ∀ event, .write event ∈ calls → event.totalSize < LOG_FILE_SIZE := fun event he =>
      hsize event (List.mem_cons_of_mem c he)
    cases c with
    | updateHead => exact ih (s := s.updateHead) hrest hindex
    | write event =>
      have hspan : span s.m_claim ((eventsOf (.write event :: calls)).map Event.totalSize) =
          span (place s.m_claim event.totalSize) ((eventsOf calls).map Event.totalSize) := rfl
      rw [hspan] at hindex
      obtain ⟨t, ht, hclaim⟩ := Server.write_ok (hsize event List.mem_cons_self)
        ((Nat.div_le_div_right (le_span _ _)).trans_lt hindex)
      rw [← hclaim] at hindex
      obtain ⟨u, hu⟩ := ih hrest hindex
      refine ⟨u, ?_⟩
      show (s.write event >>= fun t => t.run calls) = .ok u
      rw [ht]
      exact hu

/-! ## The last file -/

/-- An event of a given size. -/
def filling (n : ℕ) : Event := ⟨0, [0], List.replicate (n - 33) 0⟩

theorem totalSize_filling {n : ℕ} (h : 33 ≤ n) : (filling n).totalSize = n := by
  unfold filling Event.totalSize Event.headerSize Event.typeSize Event.valueSize
  rw [List.length_replicate, List.length_singleton]
  omega

/-- A short event, an event that takes a file for itself, and one more, with a head published between the
first two: three files, all before the last. -/
theorem fifo_across_files :
    ∃ s, Server.run .new [.write ⟨1, [97, 0], [5]⟩, .updateHead, .write (filling (LOG_FILE_SIZE - 1)),
        .write ⟨2, [98, 0], []⟩] = .ok s ∧ s.m_claim / LOG_FILE_SIZE = 2 ∧
      Fifo [.write ⟨1, [97, 0], [5]⟩, .updateHead, .write (filling (LOG_FILE_SIZE - 1)),
        .write ⟨2, [98, 0], []⟩] s := by
  have hfilling : (filling (LOG_FILE_SIZE - 1)).totalSize = LOG_FILE_SIZE - 1 :=
    totalSize_filling (by decide)
  have hsizes : (Server.eventsOf [.write ⟨1, [97, 0], [5]⟩, .updateHead,
      .write (filling (LOG_FILE_SIZE - 1)), .write ⟨2, [98, 0], []⟩]).map Event.totalSize =
        [35, LOG_FILE_SIZE - 1, 34] := by
    show [_, (filling (LOG_FILE_SIZE - 1)).totalSize, _] = _
    rw [hfilling]
    rfl
  have hsmall : ∀ event, Call.write event ∈ [.write ⟨1, [97, 0], [5]⟩, .updateHead,
      .write (filling (LOG_FILE_SIZE - 1)), .write ⟨2, [98, 0], []⟩] →
        event.totalSize < LOG_FILE_SIZE := by
    intro event he
    have hsize : event.totalSize ∈ [35, LOG_FILE_SIZE - 1, 34] := by
      rw [← hsizes]
      exact List.mem_map_of_mem (List.mem_filterMap.mpr ⟨_, he, rfl⟩)
    have hall : ∀ n ∈ [35, LOG_FILE_SIZE - 1, 34], n < LOG_FILE_SIZE := by decide
    exact hall _ hsize
  obtain ⟨s, hs⟩ := Server.run_ok _ (s := .new) hsmall (by rw [hsizes]; decide)
  refine ⟨s, hs, ?_, (fifo_iff hsmall hs).mpr ?_⟩
  · rw [← span_of_run hsmall hs, hsizes]
    decide
  · rw [hsizes]
    decide

/-- Events that fill a file each but for its last byte stand one in each file. -/
theorem span_filling (n : ℕ) :
    span 0 (List.replicate (n + 1) (LOG_FILE_SIZE - 1)) = n * LOG_FILE_SIZE + (LOG_FILE_SIZE - 1) := by
  induction n with
  | zero => rfl
  | succ n ih =>
    have hlast : span 0 (List.replicate (n + 1 + 1) (LOG_FILE_SIZE - 1)) =
        place (span 0 (List.replicate (n + 1) (LOG_FILE_SIZE - 1))) (LOG_FILE_SIZE - 1) := by
      rw [span, List.replicate_succ', List.foldl_append, List.foldl_cons, List.foldl_nil, ← span]
    have hfull : ¬ getPosition (n * LOG_FILE_SIZE + (LOG_FILE_SIZE - 1)) + (LOG_FILE_SIZE - 1) <
        LOG_FILE_SIZE := by
      unfold getPosition LOG_FILE_SIZE
      omega
    have hfile : (n * LOG_FILE_SIZE + (LOG_FILE_SIZE - 1)) / LOG_FILE_SIZE = n := by
      unfold LOG_FILE_SIZE
      omega
    rw [hlast, ih, place, if_neg hfull, hfile, getIterFromFileID]

/-- As many events of one size as there are files. -/
theorem last_file_of_size {event : Event} (hevent : event.totalSize = LOG_FILE_SIZE - 1) {n : ℕ}
    (hn : n + 1 = LogFileIndexes) :
    ∃ s, Server.run .new ((List.replicate (n + 1) event).map .write) = .ok s ∧
      ¬ Fifo ((List.replicate (n + 1) event).map .write) s := by
  have hsmall : ∀ e ∈ List.replicate (n + 1) event, e.totalSize < LOG_FILE_SIZE := fun e he => by
    rw [List.eq_of_mem_replicate he, hevent]
    unfold LOG_FILE_SIZE
    omega
  have hspan : span 0 ((List.replicate (n + 1) event).map Event.totalSize) / LOG_FILE_SIZE = n := by
    rw [List.map_replicate, hevent, span_filling]
    unfold LOG_FILE_SIZE
    omega
  have hcalls : ∀ e, .write e ∈ (List.replicate (n + 1) event).map Call.write →
      e.totalSize < LOG_FILE_SIZE := fun e he => by
    obtain ⟨e', hmem, heq⟩ := List.mem_map.mp he
    cases heq
    exact hsmall _ hmem
  have hevents : Server.eventsOf ((List.replicate (n + 1) event).map .write) =
      List.replicate (n + 1) event := by
    unfold Server.eventsOf
    rw [List.filterMap_map]
    exact List.filterMap_some
  obtain ⟨s, hs⟩ : ∃ s, Server.run .new ((List.replicate (n + 1) event).map .write) = .ok s := by
    refine Server.run_ok _ hcalls ?_
    rw [hevents]
    show span 0 _ / LOG_FILE_SIZE < LogFileIndexes
    omega
  refine ⟨s, hs, not_fifo hcalls hs ?_⟩
  rw [← span_of_run hcalls hs, hevents]
  omega

/-- **A log that has reached the last file**: all writes are completed, and a reader that starts from
iterator 0 obtains the first event again behind the last one. -/
theorem last_file_not_fifo : ∃ s,
    Server.run .new ((List.replicate LogFileIndexes (filling (LOG_FILE_SIZE - 1))).map .write) =
        .ok s ∧
      ¬ Fifo ((List.replicate LogFileIndexes (filling (LOG_FILE_SIZE - 1))).map .write) s := by
  obtain ⟨n, hn⟩ : ∃ n, n + 1 = LogFileIndexes := ⟨LogFileIndexes - 1, by decide⟩
  have hevent : (filling (LOG_FILE_SIZE - 1)).totalSize = LOG_FILE_SIZE - 1 :=
    totalSize_filling (by decide)
  rw [← hn]
  exact last_file_of_size hevent hn

end EgLang.EventLog
