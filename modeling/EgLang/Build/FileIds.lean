import Mathlib.Data.List.Sort
import Mathlib.Data.List.Nodup
import Mathlib.Tactic

/-!
# File ids of translation units

A build gives every translation unit the id of its database file. A unit whose file is there from an
earlier build keeps the id the file holds; the others get the ids that are left free, in the order of
their addresses. Every build leaves the file of each of its units behind.
-/

namespace EgLang.Build

set_option autoImplicit false

/-- `IndexedObject::NO_FILE`, of type `FileID`. -/
def NO_FILE : ℤ := -1
def TU_FILES_BEGIN : ℤ := 2

/-- `Project::getTUDBName`, in the intermediate folder. -/
def getTUDBName (strTUName : String) : String := "tu_" ++ strTUName ++ ".db"

/-- The files of the intermediate folder, each with the id that stands first in it. -/
abbrev Directory := String → Option ℤ

/-- `IndexedFile::readFileID` of the database file of a unit, if there is one. -/
def tuFileIDIfExists (files : Directory) (strName : String) : ℤ :=
  (files (getTUDBName strName)).getD NO_FILE

/-- The units of one build, in the order of the unit map and in the order of their addresses. -/
structure TranslationUnits where
  names : List String
  nodup : names.Nodup
  addresses : List String
  perm : addresses.Perm names

/-! ## Assigning the ids -/

/-- `std::set::insert`. -/
def insertID (id : ℤ) (ids : List ℤ) : List ℤ :=
  if id ∈ ids then ids else ids.orderedInsert (· ≤ ·) id

/-- The set `usedTUFileIDs` after the loop over the units. -/
def usedTUFileIDs (files : Directory) (names : List String) : List ℤ :=
  names.foldl (fun used strName =>
    if tuFileIDIfExists files strName ≠ NO_FILE then insertID (tuFileIDIfExists files strName) used
    else used) []

/-- The set `unassignedTUs`, a set of pointers. -/
def unassignedTUs (files : Directory) (units : TranslationUnits) : List String :=
  units.addresses.filter fun strName => tuFileIDIfExists files strName = NO_FILE

/-- The inner loop: `nextLogicalID` and `i` step on together while they agree. -/
def skipUsed : ℤ → List ℤ → ℤ × List ℤ
  | nextLogicalID, [] => (nextLogicalID, [])
  | nextLogicalID, i :: used =>
    if nextLogicalID = i then skipUsed (nextLogicalID + 1) used else (nextLogicalID, i :: used)

def assignFileIDs : ℤ → List ℤ → List String → List (String × ℤ)
  | _, _, [] => []
  | nextLogicalID, used, strName :: unassigned =>
    (strName, (skipUsed nextLogicalID used).1) ::
      assignFileIDs ((skipUsed nextLogicalID used).1 + 1) (skipUsed nextLogicalID used).2 unassigned

def assigned (files : Directory) (units : TranslationUnits) : List (String × ℤ) :=
  assignFileIDs TU_FILES_BEGIN (usedTUFileIDs files units.names) (unassignedTUs files units)

/-- `TranslationUnit::getDatabaseFileID` after `InterfaceSession::translationUnitAnalysis`. -/
def getDatabaseFileID (files : Directory) (units : TranslationUnits) (strName : String) : ℤ :=
  if tuFileIDIfExists files strName ≠ NO_FILE then tuFileIDIfExists files strName
  else ((assigned files units).lookup strName).getD NO_FILE

def databaseFileIDs (files : Directory) (units : TranslationUnits) : List ℤ :=
  units.names.map (getDatabaseFileID files units)

/-! ## Builds in a row -/

/-- The directory after a build. -/
def leave (files : Directory) (units : TranslationUnits) : Directory := fun path =>
  match units.names.find? (fun strName => getTUDBName strName = path) with
  | some strName => some (getDatabaseFileID files units strName)
  | none => files path

/-- The builds of a project directory, each with the directory it finds. -/
def history : Directory → List TranslationUnits → List (Directory × TranslationUnits)
  | _, [] => []
  | files, units :: builds => (files, units) :: history (leave files units) builds

def emptyDirectory : Directory := fun _ => none

/-- The ids of the units of one build are pairwise distinct, and none is below the first one. -/
def UniqueFileIDs (files : Directory) (units : TranslationUnits) : Prop :=
  (databaseFileIDs files units).Nodup ∧ ∀ id ∈ databaseFileIDs files units, TU_FILES_BEGIN ≤ id

/-- No two units of the build have files that hold one id. -/
def NoClash (files : Directory) (units : TranslationUnits) : Prop :=
  ∀ a ∈ units.names, ∀ b ∈ units.names, a ≠ b →
    ∀ id, files (getTUDBName a) = some id → files (getTUDBName b) ≠ some id

/-! ## The ids that are left free -/

theorem mem_insertID {x id : ℤ} {ids : List ℤ} : x ∈ insertID id ids ↔ x = id ∨ x ∈ ids := by
  unfold insertID
  split
  · next h =>
    constructor
    · exact Or.inr
    · rintro (rfl | hx)
      · exact h
      · exact hx
  · exact List.mem_orderedInsert _

theorem sorted_insertID {id : ℤ} {ids : List ℤ} (h : ids.Pairwise (· < ·)) :
    (insertID id ids).Pairwise (· < ·) := by
  unfold insertID
  split
  · exact h
  · next hnot =>
    have hle : (ids.orderedInsert (· ≤ ·) id).Pairwise (· ≤ ·) :=
      List.Pairwise.orderedInsert id ids (h.imp le_of_lt)
    have hnodup : (ids.orderedInsert (· ≤ ·) id).Nodup :=
      (List.perm_orderedInsert _ id ids).nodup_iff.mpr
        (List.nodup_cons.mpr ⟨hnot, h.imp ne_of_lt⟩)
    exact hle.imp₂ (fun _ _ hle hne => lt_of_le_of_ne hle hne) hnodup

section Used
variable (files : Directory)

theorem foldl_used (names : List String) (used : List ℤ) (h : used.Pairwise (· < ·)) :
    let result := names.foldl (fun used strName =>
      if tuFileIDIfExists files strName ≠ NO_FILE then insertID (tuFileIDIfExists files strName) used
      else used) used
    result.Pairwise (· < ·) ∧ ∀ x, x ∈ result ↔ x ∈ used ∨
      ∃ strName ∈ names, tuFileIDIfExists files strName = x ∧ x ≠ NO_FILE := by
  induction names generalizing used with
  | nil => simpa using h
  | cons strName names ih =>
    rw [List.foldl_cons]
    by_cases hfile : tuFileIDIfExists files strName = NO_FILE
    · simp only [hfile, ne_eq, not_true, if_false]
      obtain ⟨hsorted, hmem⟩ := ih used h
      refine ⟨hsorted, fun x => (hmem x).trans ?_⟩
      simp only [List.mem_cons, exists_eq_or_imp, hfile]
      have hfalse : ¬ (NO_FILE = x ∧ x ≠ NO_FILE) := fun hx => hx.2 hx.1.symm
      tauto
    · simp only [hfile, ne_eq, not_false_eq_true, if_true]
      obtain ⟨hsorted, hmem⟩ := ih _ (@sorted_insertID (tuFileIDIfExists files strName) _ h)
      refine ⟨hsorted, fun x => (hmem x).trans ?_⟩
      rw [mem_insertID]
      simp only [List.mem_cons, exists_eq_or_imp]
      have hown : x = tuFileIDIfExists files strName ↔
          tuFileIDIfExists files strName = x ∧ x ≠ NO_FILE := by
        constructor
        · rintro rfl
          exact ⟨rfl, hfile⟩
        · exact fun hx => hx.1.symm
      rw [← hown]
      tauto

theorem sorted_usedTUFileIDs (names : List String) : (usedTUFileIDs files names).Pairwise (· < ·) :=
  (foldl_used files names [] List.Pairwise.nil).1

theorem mem_usedTUFileIDs {names : List String} {x : ℤ} : x ∈ usedTUFileIDs files names ↔
    ∃ strName ∈ names, tuFileIDIfExists files strName = x ∧ x ≠ NO_FILE :=
  ((foldl_used files names [] List.Pairwise.nil).2 x).trans (or_iff_right List.not_mem_nil)

end Used

/-- What is skipped lies below the next id, what is left lies above it. -/
theorem skipUsed_spec {next : ℤ} {used : List ℤ} (hsorted : used.Pairwise (· < ·))
    (hle : ∀ u ∈ used, next ≤ u) : next ≤ (skipUsed next used).1 ∧
      (skipUsed next used).2.Pairwise (· < ·) ∧
      (∀ u ∈ (skipUsed next used).2, (skipUsed next used).1 < u) ∧
      ∀ u ∈ used, u < (skipUsed next used).1 ∨ u ∈ (skipUsed next used).2 := by
  induction used generalizing next with
  | nil => simp [skipUsed]
  | cons i used ih =>
    obtain ⟨hi, hsorted⟩ := List.pairwise_cons.mp hsorted
    rw [skipUsed]
    split
    · next heq =>
      obtain ⟨hnext, hrest, hless, hall⟩ :=
        @ih (next + 1) hsorted (fun u hu => by have := hi u hu; omega)
      refine ⟨by omega, hrest, hless, fun u hu => ?_⟩
      rcases List.mem_cons.mp hu with rfl | hu
      · exact .inl (by omega)
      · exact hall u hu
    · next hne =>
      have hlt : next < i := lt_of_le_of_ne (hle i List.mem_cons_self) hne
      refine ⟨le_refl _, List.pairwise_cons.mpr ⟨hi, hsorted⟩, fun u hu => ?_, fun u hu => .inr hu⟩
      rcases List.mem_cons.mp hu with rfl | hu
      · exact hlt
      · exact hlt.trans (hi u hu)

/-- The ids given out are new ones, in increasing order. -/
theorem assignFileIDs_spec {next : ℤ} {used : List ℤ} (unassigned : List String)
    (hsorted : used.Pairwise (· < ·)) (hle : ∀ u ∈ used, next ≤ u) :
    (assignFileIDs next used unassigned).map Prod.fst = unassigned ∧
      ((assignFileIDs next used unassigned).map Prod.snd).Pairwise (· < ·) ∧
      ∀ id ∈ (assignFileIDs next used unassigned).map Prod.snd, next ≤ id ∧ id ∉ used := by
  induction unassigned generalizing next used with
  | nil => simp [assignFileIDs]
  | cons strName unassigned ih =>
    obtain ⟨hnext, hrest, hless, hall⟩ := skipUsed_spec hsorted hle
    obtain ⟨hnames, hincreasing, hnew⟩ := @ih ((skipUsed next used).1 + 1) _ hrest
      (fun u hu => by have := hless u hu; omega)
    rw [assignFileIDs, List.map_cons, List.map_cons, hnames]
    refine ⟨rfl, List.pairwise_cons.mpr ⟨fun id hid => ?_, hincreasing⟩, fun id hid => ?_⟩
    · have := (hnew id hid).1
      show (skipUsed next used).1 < id
      omega
    · rcases List.mem_cons.mp hid with rfl | hid
      · refine ⟨hnext, fun hused => ?_⟩
        rcases hall _ hused with hlt | hmem
        · exact lt_irrefl _ hlt
        · exact lt_irrefl _ (hless _ hmem)
      · obtain ⟨hge, hnot⟩ := hnew id hid
        refine ⟨by omega, fun hused => ?_⟩
        rcases hall id hused with hlt | hmem
        · omega
        · exact hnot hmem

/-! ## One build -/

/-- The files of the units hold ids that builds give out. -/
def WellNumbered (files : Directory) : Prop :=
  ∀ path id, files path = some id → TU_FILES_BEGIN ≤ id

section OneBuild
variable {files : Directory} {units : TranslationUnits} {strName : String}

theorem ne_noFile {id : ℤ} (h : TU_FILES_BEGIN ≤ id) : id ≠ NO_FILE := by
  simp only [TU_FILES_BEGIN] at h
  simp only [NO_FILE]
  omega

theorem tuFileIDIfExists_of_some {id : ℤ} (h : files (getTUDBName strName) = some id) :
    tuFileIDIfExists files strName = id := by
  rw [tuFileIDIfExists, h, Option.getD_some]

theorem tuFileIDIfExists_eq_noFile (hfiles : WellNumbered files) :
    tuFileIDIfExists files strName = NO_FILE ↔ files (getTUDBName strName) = none := by
  cases h : files (getTUDBName strName) with
  | none => simp [tuFileIDIfExists, h]
  | some id =>
    rw [tuFileIDIfExists_of_some h]
    simpa using ne_noFile (hfiles _ id h)

theorem assigned_spec (hfiles : WellNumbered files) :
    (assigned files units).map Prod.fst = unassignedTUs files units ∧
      ((assigned files units).map Prod.snd).Pairwise (· < ·) ∧
      ∀ id ∈ (assigned files units).map Prod.snd,
        TU_FILES_BEGIN ≤ id ∧ id ∉ usedTUFileIDs files units.names := by
  refine assignFileIDs_spec _ (sorted_usedTUFileIDs files units.names) fun u hu => ?_
  obtain ⟨strName, -, heq, hne⟩ := (mem_usedTUFileIDs files).mp hu
  cases h : files (getTUDBName strName) with
  | none => exact absurd (by rw [← heq, tuFileIDIfExists, h, Option.getD_none]) hne
  | some id =>
    rw [← heq, tuFileIDIfExists_of_some h]
    exact hfiles _ id h

/-- A unit keeps the id of its file. -/
theorem getDatabaseFileID_of_some {id : ℤ} (hfiles : WellNumbered files)
    (h : files (getTUDBName strName) = some id) : getDatabaseFileID files units strName = id := by
  rw [getDatabaseFileID, tuFileIDIfExists_of_some h, if_pos (ne_noFile (hfiles _ id h))]

/-- A unit without a file is given one of the new ids. -/
theorem getDatabaseFileID_of_none (hfiles : WellNumbered files) (hname : strName ∈ units.names)
    (h : files (getTUDBName strName) = none) :
    (strName, getDatabaseFileID files units strName) ∈ assigned files units := by
  have hno : tuFileIDIfExists files strName = NO_FILE := (tuFileIDIfExists_eq_noFile hfiles).mpr h
  have hmem : strName ∈ (assigned files units).map Prod.fst := by
    rw [(assigned_spec hfiles).1, unassignedTUs, List.mem_filter]
    exact ⟨units.perm.mem_iff.mpr hname, by simpa using hno⟩
  have hsome : ((assigned files units).lookup strName).isSome := by
    obtain ⟨e, he, heq⟩ := List.mem_map.mp hmem
    exact List.lookup_isSome_iff.mpr ⟨e, he, by simp [heq]⟩
  obtain ⟨id, hid⟩ := Option.isSome_iff_exists.mp hsome
  rw [getDatabaseFileID, if_neg (not_not.mpr hno), hid, Option.getD_some]
  obtain ⟨l₁, l₂, heq, -⟩ := List.lookup_eq_some_iff.mp hid
  rw [heq]
  exact List.mem_append_right _ List.mem_cons_self

theorem begin_le_getDatabaseFileID (hfiles : WellNumbered files) (hname : strName ∈ units.names) :
    TU_FILES_BEGIN ≤ getDatabaseFileID files units strName := by
  cases h : files (getTUDBName strName) with
  | some id =>
    rw [getDatabaseFileID_of_some hfiles h]
    exact hfiles _ id h
  | none =>
    have hmem := getDatabaseFileID_of_none hfiles hname h
    exact ((assigned_spec hfiles).2.2 _ (List.mem_map_of_mem hmem)).1

/-- A new id differs from the id of any unit that has a file. -/
theorem new_ne_recovered (hfiles : WellNumbered files) {a b : String} (ha : a ∈ units.names)
    (hb : b ∈ units.names) {id : ℤ} (hfile : files (getTUDBName a) = some id)
    (hnone : files (getTUDBName b) = none) :
    getDatabaseFileID files units a ≠ getDatabaseFileID files units b := by
  intro heq
  have hnew := (assigned_spec hfiles).2.2 _
    (List.mem_map_of_mem (getDatabaseFileID_of_none hfiles hb hnone))
  refine hnew.2 ((mem_usedTUFileIDs files).mpr ⟨a, ha, ?_, ne_noFile hnew.1⟩)
  show tuFileIDIfExists files a = getDatabaseFileID files units b
  rw [← heq, getDatabaseFileID_of_some hfiles hfile, tuFileIDIfExists_of_some hfile]

/-- Two units are given different new ids. -/
theorem new_ne_new (hfiles : WellNumbered files) {a b : String} (ha : a ∈ units.names)
    (hb : b ∈ units.names) (hanone : files (getTUDBName a) = none)
    (hbnone : files (getTUDBName b) = none) (hne : a ≠ b) :
    getDatabaseFileID files units a ≠ getDatabaseFileID files units b := by
  intro heq
  have hnodup : ((assigned files units).map Prod.snd).Nodup :=
    (assigned_spec hfiles).2.1.imp ne_of_lt
  have hsame := List.inj_on_of_nodup_map hnodup (getDatabaseFileID_of_none hfiles ha hanone)
    (getDatabaseFileID_of_none hfiles hb hbnone) heq
  exact hne (congrArg Prod.fst hsame)

/-- The ids of a build are unique exactly when no two of its units find one id in their files. -/
theorem uniqueFileIDs_iff (hfiles : WellNumbered files) :
    UniqueFileIDs files units ↔ NoClash files units := by
  constructor
  · intro h a ha b hb hne id hida hidb
    have hinj := List.inj_on_of_nodup_map h.1
    apply hne
    apply hinj ha hb
    rw [getDatabaseFileID_of_some hfiles hida, getDatabaseFileID_of_some hfiles hidb]
  · intro h
    refine ⟨List.Nodup.map_on (fun a ha b hb heq => ?_) units.nodup, fun id hid => ?_⟩
    · by_contra hne
      cases hfa : files (getTUDBName a) with
      | none =>
        cases hfb : files (getTUDBName b) with
        | none => exact new_ne_new hfiles ha hb hfa hfb hne heq
        | some j => exact new_ne_recovered hfiles hb ha hfb hfa heq.symm
      | some i =>
        cases hfb : files (getTUDBName b) with
        | none => exact new_ne_recovered hfiles ha hb hfa hfb heq
        | some j =>
          rw [getDatabaseFileID_of_some hfiles hfa, getDatabaseFileID_of_some hfiles hfb] at heq
          exact h a ha b hb hne i hfa (heq ▸ hfb)
    · obtain ⟨strName, hname, rfl⟩ := List.mem_map.mp hid
      exact begin_le_getDatabaseFileID hfiles hname

theorem wellNumbered_leave (hfiles : WellNumbered files) : WellNumbered (leave files units) := by
  intro path id h
  unfold leave at h
  split at h
  · next strName hfind =>
    obtain rfl := Option.some.inj h
    exact begin_le_getDatabaseFileID hfiles (List.mem_of_find?_eq_some hfind)
  · exact hfiles path id h

end OneBuild

/-! ## All builds -/

theorem wellNumbered_history {files : Directory} (hfiles : WellNumbered files)
    (builds : List TranslationUnits) : ∀ e ∈ history files builds, WellNumbered e.1 := by
  induction builds generalizing files with
  | nil => simp [history]
  | cons units builds ih =>
    intro e he
    rcases List.mem_cons.mp he with rfl | he
    · exact hfiles
    · exact ih (wellNumbered_leave hfiles) e he

/-- **Main result.** In all builds of a project directory the ids are unique exactly when no build has
two units whose files hold one id. -/
theorem uniqueFileIDs_history_iff (builds : List TranslationUnits) :
    (∀ e ∈ history emptyDirectory builds, UniqueFileIDs e.1 e.2) ↔
      ∀ e ∈ history emptyDirectory builds, NoClash e.1 e.2 := by
  have hempty : WellNumbered emptyDirectory := fun path id h => by cases h
  have hwell := wellNumbered_history hempty builds
  exact forall₂_congr fun e he => uniqueFileIDs_iff (hwell e he)

/-- Three builds: of `A`, of `C` in its place, and of both. -/
def removedAndAddedBack : List TranslationUnits :=
  [⟨["A"], by decide, ["A"], List.Perm.refl _⟩,
    ⟨["C"], by decide, ["C"], List.Perm.refl _⟩,
    ⟨["A", "C"], by decide, ["A", "C"], List.Perm.refl _⟩]

/-- `C` is given the id that the file of `A` still holds, and both read it back. -/
theorem removedAndAddedBack_clash :
    ¬ ∀ e ∈ history emptyDirectory removedAndAddedBack, UniqueFileIDs e.1 e.2 := by
  intro h
  have hlast : ∃ e ∈ history emptyDirectory removedAndAddedBack, databaseFileIDs e.1 e.2 = [2, 2] :=
    ⟨_, List.mem_cons_of_mem _ (List.mem_cons_of_mem _ List.mem_cons_self), by decide +kernel⟩
  obtain ⟨e, he, hids⟩ := hlast
  have hnodup := (h e he).1
  rw [hids] at hnodup
  exact absurd hnodup (by decide)

end EgLang.Build
