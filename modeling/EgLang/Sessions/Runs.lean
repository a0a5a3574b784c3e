import EgLang.Sessions.Loading

/-!
# Runs of sessions

Sessions run one after another. Each loads files that earlier sessions have stored, makes objects and stores
files, which may take the place of files that are there. After every run the files that are in use can be
loaded.
-/

namespace EgLang.Sessions

open EgLang.Compiler.Archive EgLang.Library FileIDToFileMap

set_option autoImplicit false

variable {db written : List StoredFile} {disk disk' : Disk} {f g : StoredFile} {k : ℕ}

/-! ## Writing files -/

/-- Files that are written leave the others as they are. -/
theorem foldl_write_of_notMem {archives : List (String × List Value)} {disk : Disk} {path : String}
    (h : path ∉ archives.map Prod.fst) : archives.foldl Disk.write disk path = disk path := by
  induction archives generalizing disk with
  | nil => rfl
  | cons entry archives ih =>
    rw [List.map_cons, List.mem_cons, not_or] at h
    exact (ih h.2).trans (Function.update_of_ne h.1 ..)

/-- Every file that is written is on the disk, if no two are written to the same path. -/
theorem foldl_write_of_mem {archives : List (String × List Value)} {disk : Disk}
    (hnodup : (archives.map Prod.fst).Nodup) {entry : String × List Value} (h : entry ∈ archives) :
    archives.foldl Disk.write disk entry.1 = some entry.2 := by
  induction archives generalizing disk with
  | nil => cases h
  | cons e archives ih =>
    rw [List.map_cons, List.nodup_cons] at hnodup
    rcases List.mem_cons.mp h with rfl | hmem
    · exact (foldl_write_of_notMem hnodup.1).trans (Function.update_self ..)
    · exact ih hnodup.2 hmem

/-! ## Files that take the place of others -/

/-- The files in use after some have been written: these, and of the files before those with other
identifiers. -/
def rewritten (written db : List StoredFile) : List StoredFile :=
  written ++ db.filter fun g => g.fileID ∉ written.map StoredFile.fileID

theorem mem_rewritten :
    g ∈ rewritten written db ↔
      g ∈ written ∨ g ∈ db ∧ g.fileID ∉ written.map StoredFile.fileID := by
  simp [rewritten]

/-- What is written fits to the files in use: objects are valid at their places, none changes its type or
place, no file that is kept is overwritten or lists a file that has moved. -/
structure Fits (db written : List StoredFile) : Prop where
  ids : (written.map StoredFile.fileID).Nodup
  paths : (written.map StoredFile.path).Nodup
  apart : ∀ g ∈ db, g.fileID ∉ written.map StoredFile.fileID → g.path ∉ written.map StoredFile.path
  moved : ∀ g ∈ db, g.fileID ∉ written.map StoredFile.fileID → ∀ e ∈ g.files, ∀ f ∈ written,
    f.fileID = e.1 → f.path = e.2
  grown : ∀ f ∈ written, ∀ g ∈ db, g.fileID = f.fileID →
    (g.objects.map fun o => o.members.1) <+: f.objects.map fun o => o.members.1
  placed : ∀ f ∈ written, ∀ (i : ℕ) (o : Object), f.objects[i]? = some o →
    o.m_fileID = f.fileID ∧ o.m_index = (i : ℤ)
  valid : ∀ f ∈ written, ∀ (i : ℕ) (o : Object), f.objects[i]? = some o →
    (classOf o.members.1).Valid (known (rewritten written db) f i) o.members.2

theorem Fits.ids_rewritten (h : Fits db written) (hdb : Storable db) :
    ((rewritten written db).map StoredFile.fileID).Nodup := by
  rw [rewritten, List.map_append, List.nodup_append']
  refine ⟨h.ids, (List.filter_sublist.map _).nodup hdb.ids, fun id hid hid' => ?_⟩
  obtain ⟨g, hg, rfl⟩ := List.mem_map.mp hid'
  exact of_decide_eq_true (List.mem_filter.mp hg).2 hid

/-- A file finds what it has found, if what it lists is still there, with all of its objects. -/
theorem known_mono {db' : List StoredFile} (hids : (db'.map StoredFile.fileID).Nodup)
    (hgrown : ∀ f ∈ db, f.fileID = g.fileID ∨ f.fileID ∈ g.files.map Prod.fst →
      ∃ f' ∈ db', f'.fileID = f.fileID ∧
        (f.objects.map fun o => o.members.1) <+: f'.objects.map fun o => o.members.1) :
    known db g k ≤ known db' g k := by
  refine ⟨fun fileID m_objects hobjects => ?_, fun _ _ hs => hs⟩
  change (if fileID = g.fileID ∨ fileID ∈ g.files.map Prod.fst then _ else none) = _ at hobjects
  change ∃ m_objects', (if fileID = g.fileID ∨ fileID ∈ g.files.map Prod.fst then _ else none) =
    some m_objects' ∧ _
  split at hobjects
  · next hlisted =>
    obtain ⟨f, hfind, rfl⟩ := Option.map_eq_some_iff.mp hobjects
    obtain rfl : f.fileID = fileID := by simpa using List.find?_some hfind
    obtain ⟨f', hf', hid, hprefix⟩ := hgrown f (List.mem_of_find?_eq_some hfind) hlisted
    have hfind' := find?_of_mem hids hf'
    rw [hid] at hfind'
    refine ⟨_, by rw [if_pos hlisted, hfind']; rfl, ?_⟩
    have hsome := hprefix.map some
    rwa [List.map_map, List.map_map] at hsome
  · cases hobjects

theorem Fits.known_le (h : Fits db written) (hdb : Storable db) :
    known db g k ≤ known (rewritten written db) g k := by
  refine known_mono (h.ids_rewritten hdb) fun f hf _ => ?_
  by_cases hmem : f.fileID ∈ written.map StoredFile.fileID
  · obtain ⟨f', hf', hid⟩ := List.mem_map.mp hmem
    exact ⟨f', mem_rewritten.mpr (.inl hf'), hid, h.grown f' hf' f hf hid.symm⟩
  · exact ⟨f, mem_rewritten.mpr (.inr ⟨hf, hmem⟩), rfl, List.prefix_rfl⟩

/-- Files that can be stored, where some have been written. -/
theorem Fits.storable (h : Fits db written) (hdb : Storable db)
    (hclosed : ∀ f ∈ written, ∀ e ∈ f.files,
      ∃ g ∈ rewritten written db, g.fileID = e.1 ∧ g.path = e.2) :
    Storable (rewritten written db) where
  ids := h.ids_rewritten hdb
  closed g hg e he := by
    rcases mem_rewritten.mp hg with hg | ⟨hg, hkept⟩
    · exact hclosed g hg e he
    · obtain ⟨g', hg', hid, hpath⟩ := hdb.closed g hg e he
      by_cases hmem : g'.fileID ∈ written.map StoredFile.fileID
      · obtain ⟨f, hf, hid'⟩ := List.mem_map.mp hmem
        have hfileID := hid'.trans hid
        exact ⟨f, mem_rewritten.mpr (.inl hf), hfileID, h.moved g hg hkept e he f hf hfileID⟩
      · exact ⟨g', mem_rewritten.mpr (.inr ⟨hg', hmem⟩), hid, hpath⟩
  placed g hg := (mem_rewritten.mp hg).elim (h.placed g) fun hg => hdb.placed g hg.1
  valid g hg i o ho := by
    rcases mem_rewritten.mp hg with hg | hg
    · exact h.valid g hg i o ho
    · exact (classOf o.members.1).valid_mono (h.known_le hdb) (hdb.valid g hg.1 i o ho)

/-- The disk holds what has been written, and the other files as they were. -/
theorem Fits.onDisk (h : Fits db written) (hdisk : OnDisk db disk)
    (hwritten : ∀ f ∈ written, ∃ archive, f.archive = .ok archive ∧ disk' f.path = some archive)
    (hother : ∀ path ∉ written.map StoredFile.path, disk' path = disk path) :
    OnDisk (rewritten written db) disk' := by
  intro g hg
  rcases mem_rewritten.mp hg with hg | ⟨hg, hkept⟩
  · exact hwritten g hg
  · obtain ⟨archive, harchive, hfile⟩ := hdisk g hg
    exact ⟨archive, harchive, (hother _ (h.apart g hg hkept)).trans hfile⟩

/-- Files that can be stored, of which some are no longer in use. -/
theorem Storable.of_sublist {db' : List StoredFile} (h : Storable db) (hsub : db'.Sublist db)
    (hclosed : ∀ f ∈ db', ∀ e ∈ f.files, ∃ g ∈ db', g.fileID = e.1 ∧ g.path = e.2) :
    Storable db' where
  ids := (hsub.map _).nodup h.ids
  closed := hclosed
  placed f hf := h.placed f (hsub.subset hf)
  valid f hf i o ho := by
    refine (classOf o.members.1).valid_mono (known_mono ((hsub.map _).nodup h.ids) ?_)
      (h.valid f (hsub.subset hf) i o ho)
    intro g hg hlisted
    rcases hlisted with hid | hmem
    · exact ⟨f, hf, hid.symm, by rw [h.eq_of_fileID hg (hsub.subset hf) hid]⟩
    · obtain ⟨e, he, hid⟩ := List.mem_map.mp hmem
      obtain ⟨g', hg', hid', -⟩ := hclosed f hf e he
      have hfileID := hid'.trans hid
      exact ⟨g', hg', hfileID, by rw [h.eq_of_fileID (hsub.subset hg') hg hfileID]⟩

/-! ## Sessions one after another -/

variable {m m' : FileIDToFileMap}

/-- The files that an appending session stores: each lists all files of the session. -/
def stored (m : FileIDToFileMap) : List StoredFile :=
  m.map fun pFile => ⟨pFile.m_filePath, pFile.m_fileID, paths m, pFile.m_objects.filterMap id⟩

/-- The files in use and the disk, before and after a session. A session loads files in use. It makes new
objects for a file of its own, or changes what it has loaded and makes new objects in it. Between sessions,
files go out of use. -/
inductive SessionStep : List StoredFile × Disk → List StoredFile × Disk → Prop
  | creating {db : List StoredFile} {disk disk' : Disk} {depth : ℕ} {roots : List (ℤ × String)}
      {m : FileIDToFileMap} {fileID : ℤ} {path : String} {objects : List Object} {f : StoredFile}
      (hdepth : db.length < depth)
      (hroots : ∀ e ∈ roots, ∃ g ∈ db, g.fileID = e.1 ∧ g.path = e.2)
      (hload : session disk depth roots = .ok m) (hnew : find fileID m = none)
      (hf : f = ⟨path, fileID, SortedEntries.insertNew Prod.fst (paths m) (fileID, path), objects⟩)
      (hfits : Fits db [f])
      (hstore : CreatingSession.store m fileID objects path disk = .ok disk') :
      SessionStep (db, disk) (rewritten [f] db, disk')
  | appending {db : List StoredFile} {disk disk' : Disk} {depth : ℕ} {root : ℤ × String}
      {m m' : FileIDToFileMap} (hdepth : db.length < depth)
      (hroot : ∃ g ∈ db, g.fileID = root.1 ∧ g.path = root.2)
      (hload : session disk depth [root] = .ok m) (hpaths : paths m' = paths m)
      (hfits : Fits db (stored m'))
      (hstore : AppendingSession.store m' disk = .ok disk') :
      SessionStep (db, disk) (rewritten (stored m') db, disk')
  | interface {db : List StoredFile} {disk disk' : Disk} {depth : ℕ} {treePath path : String}
      {m m' : FileIDToFileMap} {pFile : IndexedFile} {f : StoredFile}
      (hdepth : db.length < depth) (hroot : ∃ g ∈ db, g.fileID = MASTER_FILE ∧ g.path = treePath)
      (hload : session disk depth [(MASTER_FILE, treePath)] = .ok m) (hpaths : paths m' = paths m)
      (hpFile : find MASTER_FILE m' = some pFile)
      (hf : f = ⟨path, MASTER_FILE, [(MASTER_FILE, path)], pFile.m_objects.filterMap id⟩)
      (hfits : Fits db [f])
      (hstore : InterfaceSession.store m' path disk = .ok disk') :
      SessionStep (db, disk) (rewritten [f] db, disk')
  | leaving {db db' : List StoredFile} {disk : Disk} (hsub : db'.Sublist db)
      (hclosed : ∀ f ∈ db', ∀ e ∈ f.files, ∃ g ∈ db', g.fileID = e.1 ∧ g.path = e.2) :
      SessionStep (db, disk) (db', disk)

theorem verifyObject_ok {pObject : Option Object} {o : Object} (h : verifyObject pObject = .ok o) :
    some o = id pObject := by
  cases pObject with
  | none => cases h
  | some o' => exact congrArg some (Except.ok.inj h).symm

/-- What has been stored of a file, none of whose objects is missing. -/
theorem archive_of_store {fileID : ℤ} {files : List (ℤ × String)} {objects : List (Option Object)}
    {archive : List Value} (h : IndexedFile.store fileID files objects = .ok archive) (path : String) :
    (⟨path, fileID, files, objects.filterMap id⟩ : StoredFile).archive = .ok archive := by
  obtain ⟨os, hos, -⟩ := except_bind_ok.mp h
  have hobjects : os.map some = objects := by
    rw [map_of_mapM verifyObject_ok hos, List.map_id]
  have hkept : objects.filterMap id = os := by
    rw [← hobjects, List.filterMap_map]
    exact List.filterMap_some
  unfold StoredFile.archive
  rw [hkept, hobjects]
  exact h

/-- A file that has been written is on the disk. -/
theorem Fits.onDisk_write (h : Fits db [f]) (hdisk : OnDisk db disk) {archive : List Value}
    (harchive : f.archive = .ok archive) :
    OnDisk (rewritten [f] db) (disk.write (f.path, archive)) := by
  refine h.onDisk hdisk ?_ fun path hpath => Function.update_of_ne (by simpa using hpath) ..
  rw [List.forall_mem_singleton]
  exact ⟨archive, harchive, Function.update_self ..⟩

/-- What a session has loaded is in use. -/
theorem mem_paths_of_session {roots : List (ℤ × String)} {depth : ℕ} (hdb : Storable db)
    (hdisk : OnDisk db disk) (hdepth : db.length < depth)
    (hroots : ∀ e ∈ roots, ∃ g ∈ db, g.fileID = e.1 ∧ g.path = e.2)
    (hload : session disk depth roots = .ok m) :
    ∀ e ∈ paths m, (find e.1 m).isSome ∧ ∃ g ∈ db, g.fileID = e.1 ∧ g.path = e.2 := by
  obtain ⟨m₁, hload₁, hsorted, -, hall⟩ := session_loads hdb hdisk hdepth hroots
  cases hload.symm.trans hload₁
  intro e he
  obtain ⟨pFile, hpFile, rfl⟩ := List.mem_map.mp he
  obtain ⟨g, hg, -, hloaded⟩ := hall pFile hpFile
  refine ⟨?_, g, hg, hloaded.loadedTo.fileID.symm, hloaded.loadedTo.path.symm⟩
  rw [find_of_mem hsorted hpFile]
  rfl

/-- A session leaves files that can be stored, and the disk holds them. -/
theorem sessionStep_keeps {s s' : List StoredFile × Disk} (hstep : SessionStep s s')
    (hdb : Storable s.1) (hdisk : OnDisk s.1 s.2) : Storable s'.1 ∧ OnDisk s'.1 s'.2 := by
  cases hstep with
  | @creating db disk disk' depth roots m fileID path objects f hdepth hroots hload hnew hf hfits
      hstore =>
    have hpaths := mem_paths_of_session hdb hdisk hdepth hroots hload
    obtain ⟨archive, harchive, hdisk'⟩ := except_bind_ok.mp hstore
    cases hdisk'
    subst hf
    refine ⟨hfits.storable hdb ?_, hfits.onDisk_write hdisk harchive⟩
    rw [List.forall_mem_singleton]
    intro e he
    rcases SortedEntries.mem_of_mem_insertNew he with rfl | he
    · exact ⟨_, mem_rewritten.mpr (.inl (List.mem_singleton_self _)), rfl, rfl⟩
    · obtain ⟨hfind, g, hg, hid, hpath⟩ := hpaths e he
      refine ⟨g, mem_rewritten.mpr (.inr ⟨hg, fun hmem => ?_⟩), hid, hpath⟩
      obtain rfl : g.fileID = fileID := List.mem_singleton.mp hmem
      rw [← hid, hnew] at hfind
      cases hfind
  | @appending db disk disk' depth root m m' hdepth hroot hload hpaths hfits hstore =>
    obtain ⟨archives, harchives, hdisk'⟩ := except_bind_ok.mp hstore
    cases hdisk'
    have hwritten : archives.map Prod.fst = (stored m').map StoredFile.path := by
      rw [stored, List.map_map]
      refine map_of_mapM (fun {pFile entry} hentry => ?_) harchives
      obtain ⟨archive, -, hentry⟩ := except_bind_ok.mp hentry
      exact congrArg Prod.fst (Except.ok.inj hentry).symm
    refine ⟨hfits.storable hdb fun f hf e he => ?_, hfits.onDisk hdisk (fun f hf => ?_)
      fun path hpath => foldl_write_of_notMem (hwritten ▸ hpath)⟩
    · obtain ⟨pFile, -, rfl⟩ := List.mem_map.mp hf
      obtain ⟨pFile', hpFile', rfl⟩ := List.mem_map.mp he
      exact ⟨_, mem_rewritten.mpr (.inl (List.mem_map_of_mem hpFile')), rfl, rfl⟩
    · obtain ⟨pFile, hpFile, rfl⟩ := List.mem_map.mp hf
      obtain ⟨entry, hentry, hstored⟩ := exists_mem_of_mapM harchives hpFile
      obtain ⟨archive, harchive, hstored⟩ := except_bind_ok.mp hstored
      obtain rfl := Except.ok.inj hstored
      exact ⟨archive, archive_of_store harchive _,
        foldl_write_of_mem (hwritten ▸ hfits.paths) hentry⟩
  | @interface db disk disk' depth treePath path m m' pFile f hdepth hroot hload hpaths hpFile hf hfits
      hstore =>
    unfold InterfaceSession.store at hstore
    split at hstore
    · rw [hpFile] at hstore
      obtain ⟨archive, harchive, hdisk'⟩ := except_bind_ok.mp hstore
      cases hdisk'
      subst hf
      refine ⟨hfits.storable hdb ?_, hfits.onDisk_write hdisk (archive_of_store harchive path)⟩
      rw [List.forall_mem_singleton]
      intro e he
      obtain rfl := List.mem_singleton.mp he
      exact ⟨_, mem_rewritten.mpr (.inl (List.mem_singleton_self _)), rfl, rfl⟩
    · cases hstore
  | leaving hsub hclosed =>
    exact ⟨hdb.of_sublist hsub hclosed, fun f hf => hdisk f (hsub.subset hf)⟩

/-- In every run of sessions, a session that loads files in use gets these files and all that they list,
and nothing else, with every object as it was stored last. -/
theorem session_loads_of_run {disk₀ : Disk} (hrun : Relation.ReflTransGen SessionStep ([], disk₀) (db, disk))
    {roots : List (ℤ × String)} {depth : ℕ} (hdepth : db.length < depth)
    (hroots : ∀ e ∈ roots, ∃ g ∈ db, g.fileID = e.1 ∧ g.path = e.2) :
    ∃ m, session disk depth roots = .ok m ∧
      (∀ f ∈ db, Listed db roots f.fileID → ∃ pFile ∈ m, LoadedAs f pFile) ∧
      ∀ pFile ∈ m, ∃ f ∈ db, Listed db roots f.fileID ∧ LoadedAs f pFile := by
  have hkept (s : List StoredFile × Disk) (h : Relation.ReflTransGen SessionStep ([], disk₀) s) :
      Storable s.1 ∧ OnDisk s.1 s.2 := by
    induction h with
    | refl => exact ⟨⟨List.nodup_nil, nofun, nofun, nofun⟩, nofun⟩
    | tail _ hstep ih => exact sessionStep_keeps hstep ih.1 ih.2
  obtain ⟨hdb, hdisk⟩ := hkept _ hrun
  obtain ⟨m, hload, -, hloaded, hall⟩ := session_loads hdb hdisk hdepth hroots
  exact ⟨m, hload, hloaded, hall⟩

/-! ### A file that lists an earlier one -/

def typesFile : StoredFile :=
  ⟨"types.db", 1, [(1, "types.db")], [⟨1, 0, ⟨.eInputOpaque, ({ m_str := "int" } : Input.Opaque)⟩⟩]⟩

def dimensionsFile : StoredFile :=
  ⟨"dimensions.db", 2, [(1, "types.db"), (2, "dimensions.db")], [⟨2, 0, ⟨.eInputDimension,
    ({ m_strIdentifier := "m_x", m_pType := some ⟨1, 0, types_inFile⟩ } : Input.Dimension)⟩⟩]⟩

/-- The disk with the first file. -/
def typesDisk : Disk :=
  Disk.write (fun _ => none) (typesFile.path, typesFile.archive.toOption.getD [])

theorem typesFile_fits : Fits [] [typesFile] where
  ids := List.nodup_singleton _
  paths := List.nodup_singleton _
  apart _ hg := absurd hg List.not_mem_nil
  moved _ hg := absurd hg List.not_mem_nil
  grown _ _ _ hg := absurd hg List.not_mem_nil
  placed f hf i o ho := by
    obtain rfl := List.mem_singleton.mp hf
    obtain ⟨rfl, rfl⟩ := eq_of_getElem?_singleton ho
    exact ⟨rfl, rfl⟩
  valid f hf i o ho := by
    obtain rfl := List.mem_singleton.mp hf
    obtain ⟨rfl, rfl⟩ := eq_of_getElem?_singleton ho
    exact ⟨trivial, trivial, trivial⟩

theorem dimensionsFile_fits : Fits [typesFile] [dimensionsFile] where
  ids := List.nodup_singleton _
  paths := List.nodup_singleton _
  apart := by decide
  moved := by decide
  grown := by decide
  placed f hf i o ho := by
    obtain rfl := List.mem_singleton.mp hf
    obtain ⟨rfl, rfl⟩ := eq_of_getElem?_singleton ho
    exact ⟨rfl, rfl⟩
  valid f hf i o ho := by
    obtain rfl := List.mem_singleton.mp hf
    obtain ⟨rfl, rfl⟩ := eq_of_getElem?_singleton ho
    refine ⟨trivial, trivial, fun p hp => ?_, trivial⟩
    cases hp
    exact ⟨.eInputOpaque, rfl, rfl⟩

theorem session_loads_of_two : ∃ disk m,
    Relation.ReflTransGen SessionStep ([], fun _ => none) ([dimensionsFile, typesFile], disk) ∧
      session disk 3 [(2, "dimensions.db")] = .ok m ∧
      ∀ f ∈ [dimensionsFile, typesFile], ∃ pFile ∈ m, LoadedAs f pFile := by
  have htypes : SessionStep ([], fun _ => none) ([typesFile], typesDisk) :=
    .creating (Nat.zero_lt_one : _ < 1) (List.forall_mem_nil _) rfl rfl rfl typesFile_fits rfl
  have hroots : ∀ e ∈ [((1 : ℤ), "types.db")], ∃ g ∈ [typesFile], g.fileID = e.1 ∧ g.path = e.2 :=
    List.forall_mem_singleton.mpr ⟨typesFile, List.mem_singleton_self _, rfl, rfl⟩
  have hdimensions : SessionStep ([typesFile], typesDisk) ([dimensionsFile, typesFile], _) :=
    .creating (Nat.one_lt_two : _ < 2) hroots rfl rfl rfl dimensionsFile_fits rfl
  have hrun := (Relation.ReflTransGen.single htypes).tail hdimensions
  have hroot : ∀ e ∈ [((2 : ℤ), "dimensions.db")],
      ∃ g ∈ [dimensionsFile, typesFile], g.fileID = e.1 ∧ g.path = e.2 :=
    List.forall_mem_singleton.mpr ⟨dimensionsFile, List.mem_cons_self, rfl, rfl⟩
  obtain ⟨m, hload, hlisted, -⟩ := session_loads_of_run hrun (Nat.lt_add_one 2) hroot
  have hdimensions : Listed [dimensionsFile, typesFile] [(2, "dimensions.db")] 2 :=
    .root (List.mem_singleton_self _)
  refine ⟨_, m, hrun, hload, List.forall_mem_cons.mpr ⟨?_, List.forall_mem_singleton.mpr ?_⟩⟩
  · exact hlisted _ List.mem_cons_self hdimensions
  · exact hlisted _ (List.mem_cons_of_mem _ (List.mem_singleton_self _))
      (.step List.mem_cons_self hdimensions List.mem_cons_self)

end EgLang.Sessions
