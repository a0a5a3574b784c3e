import EgLang.Sessions.Files

/-!
# Files that have been stored

What the files of a program's sessions hold, when they can be stored and loaded, and what is loaded of
them. The pointers of an object lead to objects of its own file or of files that its file lists; the
identifiers that order the entries of an object are those of objects before it.
-/

namespace EgLang.Sessions

open EgLang.Compiler.Archive EgLang.Library FileIDToFileMap

set_option autoImplicit false

/-- A file, as it has been stored. -/
structure StoredFile where
  path : String
  fileID : ℤ
  files : List (ℤ × String)
  objects : List Object

def StoredFile.archive (f : StoredFile) : Except SessionFault (List Value) :=
  IndexedFile.store f.fileID f.files (f.objects.map some)

/-- What is known when an object of a file is loaded: the objects of the file and of the files that it
lists, and of the file the members of the objects before this one. -/
def known (db : List StoredFile) (f : StoredFile) (szIndex : ℕ) : Loaded where
  m_files fileID :=
    if fileID = f.fileID ∨ fileID ∈ f.files.map Prod.fst then
      (db.find? fun g => g.fileID = fileID).map fun g => g.objects.map fun o => some o.members.1
    else none
  getIdentifier := getIdentifier fun o =>
    if o.m_fileID = f.fileID ∧ 0 ≤ o.m_index ∧ o.m_index.toNat < szIndex then
      f.objects[o.m_index.toNat]?.map Object.members
    else none

/-- Files that can be stored: they have different identifiers, list each other by identifier and path,
and hold objects that are valid at their places. -/
structure Storable (db : List StoredFile) : Prop where
  ids : (db.map StoredFile.fileID).Nodup
  closed : ∀ f ∈ db, ∀ e ∈ f.files, ∃ g ∈ db, g.fileID = e.1 ∧ g.path = e.2
  placed : ∀ f ∈ db, ∀ (i : ℕ) (o : Object), f.objects[i]? = some o →
    o.m_fileID = f.fileID ∧ o.m_index = (i : ℤ)
  valid : ∀ f ∈ db, ∀ (i : ℕ) (o : Object), f.objects[i]? = some o →
    (classOf o.members.1).Valid (known db f i) o.members.2

/-- The disk holds the files as they have been stored. -/
def OnDisk (db : List StoredFile) (disk : Disk) : Prop :=
  ∀ f ∈ db, ∃ archive, f.archive = .ok archive ∧ disk f.path = some archive

/-- The files that are listed, by a list of roots or by a file that is. -/
inductive Listed (db : List StoredFile) (roots : List (ℤ × String)) : ℤ → Prop
  | root {e : ℤ × String} (he : e ∈ roots) : Listed db roots e.1
  | step {f : StoredFile} {e : ℤ × String} (hf : f ∈ db) (hlisted : Listed db roots f.fileID)
      (he : e ∈ f.files) : Listed db roots e.1

/-- An object and what is loaded of it: the same object at the same place, but for the types that the
variables of instructions lose. -/
inductive SameObject : Object → Object → Prop
  | mk {fileID index : ℤ} {type : ObjectType} {c c' : Content type} (h : (classOf type).Same c c') :
      SameObject ⟨fileID, index, ⟨type, c⟩⟩ ⟨fileID, index, ⟨type, c'⟩⟩

/-- An object that has been created and not been loaded. -/
def Object.created (o : Object) : Object :=
  { o with members := ⟨o.members.1, (classOf o.members.1).create⟩ }

/-- The file has been opened, and its first objects have been loaded. -/
structure LoadedTo (k : ℕ) (f : StoredFile) (pFile : IndexedFile) : Prop where
  path : pFile.m_filePath = f.path
  fileID : pFile.m_fileID = f.fileID
  files : pFile.m_files = f.files.map Prod.swap
  length : pFile.m_objects.length = f.objects.length
  loaded : ∀ (i : ℕ) (o : Object), f.objects[i]? = some o → i < k →
    ∃ o', pFile.m_objects[i]? = some (some o') ∧ SameObject o o'
  created : ∀ (i : ℕ) (o : Object), f.objects[i]? = some o → k ≤ i →
    pFile.m_objects[i]? = some (some o.created)

/-- The file has been loaded: its path, its identifier, its file table and every one of its objects. -/
structure LoadedAs (f : StoredFile) (pFile : IndexedFile) : Prop where
  loadedTo : LoadedTo f.objects.length f pFile
  ended : pFile.m_pLoader = none

/-- The tables of the file have been read, and its loader goes on with what the objects hold. -/
structure Begun (f : StoredFile) (pFile : IndexedFile) : Prop where
  loadedTo : LoadedTo 0 f pFile
  begun : ∃ contents, f.objects.mapM Object.store = .ok contents ∧
    pFile.m_pLoader = some contents.flatten

/-! ## Files by their identifiers -/

theorem Storable.eq_of_fileID {db : List StoredFile} (h : Storable db) {f g : StoredFile} (hf : f ∈ db)
    (hg : g ∈ db) (hid : f.fileID = g.fileID) : f = g :=
  List.inj_on_of_nodup_map h.ids hf hg hid

theorem find?_of_mem {db : List StoredFile} (h : (db.map StoredFile.fileID).Nodup) {f : StoredFile}
    (hf : f ∈ db) : (db.find? fun g => g.fileID = f.fileID) = some f := by
  cases hfind : db.find? fun g => g.fileID = f.fileID with
  | none =>
    have hnone := List.find?_eq_none.mp hfind f hf
    simp at hnone
  | some g =>
    have hg : g.fileID = f.fileID := by simpa using List.find?_some hfind
    rw [List.inj_on_of_nodup_map h hf (List.mem_of_find?_eq_some hfind) hg.symm]

namespace FileIDToFileMap
variable {fileMap : FileIDToFileMap} {fileID id : ℤ} {pFile : IndexedFile}

theorem fileID_of_find (h : find fileID fileMap = some pFile) : pFile.m_fileID = fileID :=
  by simpa using List.find?_some h

theorem find_of_mem (hsorted : SortedEntries.StrictlySorted IndexedFile.m_fileID fileMap)
    (hmem : pFile ∈ fileMap) : find pFile.m_fileID fileMap = some pFile := by
  induction fileMap with
  | nil => cases hmem
  | cons file fileMap ih =>
    obtain ⟨hlt, htail⟩ := List.pairwise_cons.mp hsorted
    cases List.mem_cons.mp hmem with
    | inl heq =>
      rw [heq]
      exact List.find?_cons_of_pos (decide_eq_true rfl)
    | inr hin =>
      have hne : file.m_fileID ≠ pFile.m_fileID := (hlt pFile hin).ne
      exact (List.find?_cons_of_neg (by simpa using hne)).trans (ih htail hin)

section Update
variable {change : IndexedFile → IndexedFile}

theorem find_update (hchange : ∀ p, (change p).m_fileID = p.m_fileID) :
    find id (update fileID change fileMap) =
      if id = fileID then (find id fileMap).map change else find id fileMap := by
  induction fileMap with
  | nil => split <;> rfl
  | cons file fileMap ih =>
    change List.find? _ ((if file.m_fileID = fileID then change file else file) :: _) = _
    have hid : (if file.m_fileID = fileID then change file else file).m_fileID = file.m_fileID := by
      split
      · exact hchange file
      · rfl
    by_cases hfound : file.m_fileID = id
    · rw [List.find?_cons_of_pos (by simpa [hid] using hfound)]
      have hfile : find id (file :: fileMap) = some file :=
        List.find?_cons_of_pos (by simpa using hfound)
      rw [hfile, hfound]
      split <;> rfl
    · rw [List.find?_cons_of_neg (by simpa [hid] using hfound)]
      have hfile : find id (file :: fileMap) = find id fileMap :=
        List.find?_cons_of_neg (by simpa using hfound)
      rw [hfile]
      exact ih

theorem map_fileID_update (hchange : ∀ p, (change p).m_fileID = p.m_fileID) :
    (update fileID change fileMap).map IndexedFile.m_fileID = fileMap.map IndexedFile.m_fileID := by
  rw [update, List.map_map]
  refine List.map_congr_left fun p _ => ?_
  change (if p.m_fileID = fileID then change p else p).m_fileID = _
  split
  · exact hchange p
  · rfl

end Update

theorem find_insert (hsorted : SortedEntries.StrictlySorted IndexedFile.m_fileID fileMap)
    (hnew : find pFile.m_fileID fileMap = none) :
    find id (insert fileMap pFile) = if id = pFile.m_fileID then some pFile else find id fileMap := by
  have hfind {l : FileIDToFileMap} (hl : SortedEntries.StrictlySorted IndexedFile.m_fileID l) (k : ℤ) :
      find k l = SortedEntries.find IndexedFile.m_fileID k l := by
    rw [hl.sorted.find_eq, SortedEntries.under, List.head?_filter]
    rfl
  rw [insert, hfind hsorted.insertNew, hsorted.find_insertNew, ← hfind hsorted]
  by_cases hid : id = pFile.m_fileID
  · rw [if_pos hid, if_pos hid.symm, hid, hnew, Option.none_or]
  · rw [if_neg hid, if_neg (Ne.symm hid), Option.or_none]

end FileIDToFileMap

/-- One file of the map has become another, and all others are as they were. -/
structure Changed (fileID : ℤ) (pFile : IndexedFile) (fileMap fileMap' : FileIDToFileMap) : Prop where
  same : find fileID fileMap' = some pFile
  other : ∀ id, id ≠ fileID → find id fileMap' = find id fileMap
  ids : fileMap'.map IndexedFile.m_fileID = fileMap.map IndexedFile.m_fileID

theorem Changed.trans {fileID : ℤ} {pFile pFile' : IndexedFile} {fileMap fileMap' fileMap'' : FileIDToFileMap}
    (h : Changed fileID pFile fileMap fileMap') (h' : Changed fileID pFile' fileMap' fileMap'') :
    Changed fileID pFile' fileMap fileMap'' :=
  ⟨h'.same, fun id hid => (h'.other id hid).trans (h.other id hid), h'.ids.trans h.ids⟩

theorem changed_update {fileID : ℤ} {pFile : IndexedFile} {fileMap : FileIDToFileMap}
    (change : IndexedFile → IndexedFile) (hchange : ∀ p, (change p).m_fileID = p.m_fileID)
    (h : find fileID fileMap = some pFile) :
    Changed fileID (change pFile) fileMap (update fileID change fileMap) := by
  refine ⟨?_, fun id hid => ?_, map_fileID_update hchange⟩
  · rw [find_update hchange, if_pos rfl, h]
    rfl
  · rw [find_update hchange, if_neg hid]

end EgLang.Sessions
