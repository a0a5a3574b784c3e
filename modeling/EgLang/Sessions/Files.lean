import EgLang.Sessions.Classes

/-!
# Files of objects and sessions

`IndexedFile`: a file of objects lists the files that its objects refer to, then its objects, then what the
objects hold. It is loaded in two phases: all objects of a file and of the files that it lists are created
before any object is loaded. A session loads files, and stores what it has made.
-/

namespace EgLang.Sessions

open EgLang.Compiler.Archive EgLang.Library

set_option autoImplicit false

/-- An object, at its place. -/
structure Object where
  m_fileID : ℤ
  m_index : ℤ
  members : Members

/-- `IndexedFile`. Of the loader, what it goes on with. -/
structure IndexedFile where
  m_filePath : String
  m_fileID : ℤ
  m_files : List (String × ℤ) := []
  m_objects : List (Option Object) := []
  m_pLoader : Option (List Value) := none

/-- `FileIDToFileMap`, in the order of the identifiers. -/
abbrev FileIDToFileMap := List IndexedFile

/-- What the files on the disk hold. -/
abbrev Disk := String → Option (List Value)

namespace FileIDToFileMap

def find (fileID : ℤ) (fileMap : FileIDToFileMap) : Option IndexedFile :=
  fileMap.find? fun pFile => pFile.m_fileID = fileID

def insert (fileMap : FileIDToFileMap) (pFile : IndexedFile) : FileIDToFileMap :=
  SortedEntries.insertNew IndexedFile.m_fileID fileMap pFile

/-- Changes the file with the identifier. -/
def update (fileID : ℤ) (change : IndexedFile → IndexedFile) (fileMap : FileIDToFileMap) :
    FileIDToFileMap :=
  fileMap.map fun pFile => if pFile.m_fileID = fileID then change pFile else pFile

/-- Puts an object at its place. -/
def setObject (pObject : Object) (fileMap : FileIDToFileMap) : FileIDToFileMap :=
  update pObject.m_fileID (fun pFile =>
    { pFile with m_objects := pFile.m_objects.set pObject.m_index.toNat (some pObject) }) fileMap

/-- What an object that has been created holds. -/
def members (fileMap : FileIDToFileMap) (o : IndexedObject) : Option Members := do
  let pFile ← find o.m_fileID fileMap
  if 0 ≤ o.m_index then pFile.m_objects[o.m_index.toNat]?.join.map Object.members else none

/-- What a loader knows of the files. -/
def loaded (fileMap : FileIDToFileMap) : Loaded where
  m_files fileID := (find fileID fileMap).map fun pFile =>
    pFile.m_objects.map fun pObject => pObject.map fun object => object.members.1
  getIdentifier := getIdentifier (members fileMap)

end FileIDToFileMap

open FileIDToFileMap

/-! ## Storing -/

/-- `IndexedObject::store`. -/
def Object.storePlace (object : Object) : List Value :=
  [.ast (.int (ObjectType.all.idxOf object.members.1)), .ast (.int object.m_fileID),
    .ast (.int object.m_index)]

/-- `store` of the class of the object. -/
def Object.store (object : Object) : Except SessionFault (List Value) :=
  (classOf object.members.1).store object.members.2

/-- `Storer::storeObject` of a pointer that is not null. -/
def verifyObject : Option Object → Except SessionFault Object
  | some object => .ok object
  | none => .error .nullObject

/-- `IndexedFile::store`. -/
def IndexedFile.store (fileID : ℤ) (files : List (ℤ × String)) (objects : List (Option Object)) :
    Except SessionFault (List Value) := do
  let pObjects ← objects.mapM verifyObject
  let contents ← pObjects.mapM Object.store
  return [.ast (.int fileID)] ++
    ([.ast (.size files.length)] ++ files.flatMap fun entry => [.ast (.int entry.1), .string entry.2]) ++
    ([.ast (.size pObjects.length)] ++ pObjects.flatMap Object.storePlace) ++ contents.flatten

/-! ## Loading -/

section Load

/-- Programs that read a file and change the map of files. -/
abbrev LoadingFile := Loading Value FileIDToFileMap SessionFault

def loadInt : LoadingFile ℤ := Loading.read .notRead Value.int?

def loadSize : LoadingFile ℕ := Loading.read .notRead Value.size?

def loadPath : LoadingFile String := Loading.read .notRead Value.string?

/-- The type with the number. -/
def ObjectType.ofNumber (number : ℤ) : Option ObjectType :=
  if 0 ≤ number then ObjectType.all[number.toNat]? else none

/-- `ObjectFactoryImpl::create`. -/
def create (type fileID index : ℤ) : Except SessionFault Object :=
  match ObjectType.ofNumber type with
  | some type => .ok ⟨fileID, index, ⟨type, (classOf type).create⟩⟩
  | none => .error .unknownObjectType

/-- `Loader::loadObject`. -/
def loadObject : LoadingFile Unit := do
  let type ← loadInt
  let fileID ← loadInt
  let szIndex ← loadInt
  let (archive, files) ← get
  match find fileID files with
  | none => Loading.fail (.archive .noFile)
  | some pFile =>
    if 0 ≤ szIndex ∧ szIndex.toNat < pFile.m_objects.length then
      match pFile.m_objects[szIndex.toNat]?.join with
      | some _ => Loading.fail .createdTwice
      | none =>
        match create type fileID szIndex with
        | .ok pObject => set (archive, setObject pObject files)
        | .error fault => Loading.fail fault
    else Loading.fail (.archive .noObject)

def loadFileEntry : LoadingFile (String × ℤ) := do
  let fileID ← loadInt
  let path ← loadPath
  return (path, fileID)

/-- The tables that `IndexedFile::beginLoad` reads. The file has just been made, and has no objects
before it is resized. -/
def loadTables (m_fileID : ℤ) : LoadingFile (List (String × ℤ)) := do
  let loadedFileID ← loadInt
  if loadedFileID = m_fileID then
    let szNumFiles ← loadSize
    let m_files ← Loading.loadMany loadFileEntry szNumFiles
    let szNumObjects ← loadSize
    modify fun p => (p.1, update m_fileID (fun pFile =>
      { pFile with m_objects := List.replicate szNumObjects none }) p.2)
    let _ ← Loading.loadMany loadObject szNumObjects
    return m_files
  else Loading.fail .corrupted

variable (disk : Disk)

/-- `IndexedFile::beginLoad`, up to the loading of the files in the file table. -/
def beginLoad (fileMap : FileIDToFileMap) (m_filePath : String) (m_fileID : ℤ) :
    Except SessionFault (List (String × ℤ) × FileIDToFileMap) :=
  match disk m_filePath with
  | none => .error .notOpened
  | some archive => do
    let (m_files, rest, fileMap') ← loadTables m_fileID (archive, fileMap)
    return (m_files, update m_fileID (fun pFile => { pFile with m_files, m_pLoader := some rest }) fileMap')

/-- `IndexedFile::beginLoadingFile`, with calls down to a depth. -/
def beginLoadingFile : ℕ → FileIDToFileMap → String × ℤ → Except SessionFault FileIDToFileMap
  | 0, _, _ => .error (.archive .undefined)
  | depth + 1, fileMap, (filePath, fileID) =>
    if (find fileID fileMap).isSome then .ok fileMap
    else do
      let pIndexedFile : IndexedFile := { m_filePath := filePath, m_fileID := fileID }
      let (m_files, fileMap') ← beginLoad disk (insert fileMap pIndexedFile) filePath fileID
      m_files.foldlM (beginLoadingFile depth) fileMap'

/-- Loads an object of a file, if it has been created, and goes on with the archive. -/
def loadMembers (fileID : ℤ) (p : FileIDToFileMap × List Value) (szIndex : ℕ) :
    Except SessionFault (FileIDToFileMap × List Value) :=
  match (find fileID p.1).bind fun pFile => pFile.m_objects[szIndex]?.join with
  | none => .error (.archive .undefined)
  | some pObject => do
    let ⟨type, content⟩ := pObject.members
    let (content', archive, _) ← (classOf type).load (loaded p.1) content (p.2, ())
    let pLoaded : Object := { pObject with members := ⟨type, content'⟩ }
    let setLoaded (pFile : IndexedFile) : IndexedFile :=
      { pFile with m_objects := pFile.m_objects.set szIndex (some pLoaded) }
    return (update fileID setLoaded p.1, archive)

/-- `IndexedFile::endLoad`. -/
def endLoad (fileMap : FileIDToFileMap) (fileID : ℤ) : Except SessionFault FileIDToFileMap :=
  match find fileID fileMap with
  | none => .ok fileMap
  | some pFile =>
    match pFile.m_pLoader with
    | none => .ok fileMap
    | some archive => do
      let (fileMap', _) ←
        (List.range pFile.m_objects.length).foldlM (loadMembers fileID) (fileMap, archive)
      return update fileID (fun pFile => { pFile with m_pLoader := none }) fileMap'

/-- `IndexedFile::load`. -/
def IndexedFile.load (depth : ℕ) (fileMap : FileIDToFileMap) (entry : ℤ × String) :
    Except SessionFault FileIDToFileMap := do
  let fileMap' ← beginLoadingFile disk depth fileMap (entry.2, entry.1)
  (fileMap'.map IndexedFile.m_fileID).foldlM endLoad fileMap'

end Load

/-! ## Sessions -/

/-- `Session( const FileIDtoPathMap& )`: the files that have been loaded. -/
def session (disk : Disk) (depth : ℕ) (files : List (ℤ × String)) :
    Except SessionFault FileIDToFileMap :=
  files.foldlM (IndexedFile.load disk depth) []

/-- The identifiers and paths of the files of a session. -/
def FileIDToFileMap.paths (fileMap : FileIDToFileMap) : List (ℤ × String) :=
  fileMap.map fun pFile => (pFile.m_fileID, pFile.m_filePath)

def Disk.write (disk : Disk) (entry : String × List Value) : Disk :=
  Function.update disk entry.1 (some entry.2)

/-- `AppendingSession::store`. -/
def AppendingSession.store (m_fileMap : FileIDToFileMap) (disk : Disk) : Except SessionFault Disk := do
  let archives ← m_fileMap.mapM fun pFile => do
    let archive ← IndexedFile.store pFile.m_fileID (paths m_fileMap) pFile.m_objects
    return (pFile.m_filePath, archive)
  return archives.foldl Disk.write disk

/-- `IndexedObject::MASTER_FILE`. -/
def MASTER_FILE : ℤ := 0

/-- `InterfaceSession::store( const boost::filesystem::path& )`. -/
def InterfaceSession.store (m_fileMap : FileIDToFileMap) (filePath : String) (disk : Disk) :
    Except SessionFault Disk :=
  if m_fileMap.length = 1 then
    match find MASTER_FILE m_fileMap with
    | none => .error (.archive .undefined)
    | some pFile => do
      let archive ← IndexedFile.store MASTER_FILE [(MASTER_FILE, filePath)] pFile.m_objects
      return disk.write (filePath, archive)
  else .error .notOneFile

/-- `CreatingSession::store`. -/
def CreatingSession.store (m_fileMap : FileIDToFileMap) (m_fileID : ℤ) (m_newObjects : List Object)
    (filePath : String) (disk : Disk) : Except SessionFault Disk := do
  let files := SortedEntries.insertNew Prod.fst (paths m_fileMap) (m_fileID, filePath)
  let archive ← IndexedFile.store m_fileID files (m_newObjects.map some)
  return disk.write (filePath, archive)

end EgLang.Sessions
