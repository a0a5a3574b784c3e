import EgLang.Sessions.Opening

/-!
# Loading what has been stored

Once the files of a session have been opened, their objects are loaded file by file. Each object is read
as it has been stored, since what it asks for has been created or loaded before it.
-/

namespace EgLang.Sessions

open EgLang.Compiler.Archive EgLang.Library FileIDToFileMap

set_option autoImplicit false

variable {db : List StoredFile} {roots : List (ℤ × String)} {m m' : FileIDToFileMap}
  {f : StoredFile} {pFile : IndexedFile} {k : ℕ}

/-! ## What is known when an object is loaded -/

/-- All objects of an opened file have been created. -/
theorem LoadedTo.types (h : LoadedTo k f pFile) :
    (pFile.m_objects.map fun pObject => pObject.map fun o => o.members.1) =
      f.objects.map fun o => some o.members.1 := by
  refine List.ext_getElem? fun i => ?_
  rw [List.getElem?_map, List.getElem?_map]
  cases ho : f.objects[i]? with
  | none =>
    have hle : f.objects.length ≤ i := List.getElem?_eq_none_iff.mp ho
    rw [List.getElem?_eq_none (h.length.trans_le hle)]
    rfl
  | some o =>
    rcases Nat.lt_or_ge i k with hlt | hge
    · obtain ⟨o', ho', hsame⟩ := h.loaded i o ho hlt
      rw [ho']
      cases hsame
      rfl
    · rw [h.created i o ho hge]
      rfl

/-- The loader knows what is known when the object is loaded. -/
theorem known_le (hself : find f.fileID m = some pFile) (hto : LoadedTo k f pFile)
    (hfiles : ∀ g ∈ db, g.fileID = f.fileID ∨ g.fileID ∈ f.files.map Prod.fst →
      ∃ j pFile', find g.fileID m = some pFile' ∧ LoadedTo j g pFile') :
    known db f k ≤ loaded m := by
  refine ⟨fun fileID m_objects hobjects => ?_, fun o s hs => ?_⟩
  · change (if fileID = f.fileID ∨ fileID ∈ f.files.map Prod.fst then _ else none) = _ at hobjects
    split at hobjects
    · next hlisted =>
      obtain ⟨g, hg, rfl⟩ := Option.map_eq_some_iff.mp hobjects
      obtain rfl : g.fileID = fileID := by simpa using List.find?_some hg
      obtain ⟨j, pFile', hfind, hto'⟩ := hfiles g (List.mem_of_find?_eq_some hg) hlisted
      refine ⟨_, ?_, List.prefix_rfl⟩
      change (find g.fileID m).map _ = _
      rw [hfind, ← hto'.types]
      rfl
    · cases hobjects
  · refine getIdentifier_mono (fun o c hc htype => ?_) hs
    split at hc
    · next hplace =>
      obtain ⟨object, hobject, rfl⟩ := Option.map_eq_some_iff.mp hc
      obtain ⟨object', hobject', hsame⟩ := hto.loaded _ _ hobject hplace.2.2
      unfold members
      rw [hplace.1, hself]
      change (if 0 ≤ o.m_index then pFile.m_objects[o.m_index.toNat]?.join.map Object.members
        else none) = _
      rw [if_pos hplace.2.1, hobject']
      cases hsame with
      | mk hsame => rw [← eq_of_same htype hsame]; rfl
    · cases hc

/-! ## The objects of a file -/

/-- What an object has been stored as. -/
theorem contents_drop {os : List Object} {contents : List (List Value)}
    (h : os.mapM Object.store = .ok contents) {o : Object} (ho : os[k]? = some o) :
    ∃ vs, o.store = .ok vs ∧ (contents.drop k).flatten = vs ++ (contents.drop (k + 1)).flatten := by
  obtain ⟨hlt, rfl⟩ := List.getElem?_eq_some_iff.mp ho
  have hforall := mapM_eq_ok.mp h
  have hlt' : k < contents.length := hforall.length_eq ▸ hlt
  refine ⟨contents[k], hforall.get hlt hlt', ?_⟩
  rw [List.drop_eq_getElem_cons hlt', List.flatten_cons]

/-- An object is loaded as it has been stored. -/
theorem loadMembers_of_stored (hdb : Storable db) (hf : f ∈ db) {contents : List (List Value)}
    (hcontents : f.objects.mapM Object.store = .ok contents) {o : Object}
    (ho : f.objects[k]? = some o) (hself : find f.fileID m = some pFile) (hto : LoadedTo k f pFile)
    (hfiles : ∀ g ∈ db, g.fileID = f.fileID ∨ g.fileID ∈ f.files.map Prod.fst →
      ∃ j pFile', find g.fileID m = some pFile' ∧ LoadedTo j g pFile') :
    ∃ m' pFile', loadMembers f.fileID (m, (contents.drop k).flatten) k =
        .ok (m', (contents.drop (k + 1)).flatten) ∧
      Changed f.fileID pFile' m m' ∧ LoadedTo (k + 1) f pFile' := by
  obtain ⟨vs, hstore, hdrop⟩ := contents_drop hcontents ho
  obtain ⟨vs', hstore', hreads⟩ := (classOf o.members.1).reads (hdb.valid f hf k o ho)
  obtain rfl : vs' = vs := Except.ok.inj (hstore'.symm.trans hstore)
  obtain ⟨c', hload, hsame⟩ := hreads (known_le hself hto hfiles) (contents.drop (k + 1)).flatten
  have hslot : ((find f.fileID m).bind fun pFile => pFile.m_objects[k]?.join) = some o.created := by
    rw [hself]
    change pFile.m_objects[k]?.join = _
    rw [hto.created k o ho le_rfl]
    rfl
  let o' : Object := { o with members := ⟨o.members.1, c'⟩ }
  let setLoaded (pFile : IndexedFile) : IndexedFile :=
    { pFile with m_objects := pFile.m_objects.set k (some o') }
  refine ⟨_, setLoaded pFile, ?_, changed_update setLoaded (fun _ => rfl) hself, ?_⟩
  · unfold loadMembers
    rw [hslot, hdrop]
    exact except_bind_ok.mpr ⟨_, hload, rfl⟩
  · refine ⟨hto.path, hto.fileID, hto.files, (List.length_set ..).trans hto.length,
      fun i o₁ ho₁ hlt => ?_, fun i o₁ ho₁ hle => ?_⟩
    · by_cases hik : i = k
      · subst hik
        obtain rfl : o = o₁ := Option.some.inj (ho.symm.trans ho₁)
        refine ⟨o', List.getElem?_set_self ?_, .mk hsame⟩
        rw [hto.length]
        exact (List.getElem?_eq_some_iff.mp ho).choose
      · obtain ⟨o₁', ho₁', hsame₁⟩ := hto.loaded i o₁ ho₁ (by omega)
        exact ⟨o₁', (List.getElem?_set_ne (Ne.symm hik)).trans ho₁', hsame₁⟩
    · have hne : k ≠ i := by omega
      exact (List.getElem?_set_ne hne).trans (hto.created i o₁ ho₁ (by omega))

/-- A file that has been opened is loaded, if the files that it lists have been opened. -/
theorem endLoad_of_begun (hdb : Storable db) (hf : f ∈ db) (hm : Files db roots m)
    (hclosed : ∀ e ∈ f.files, Opened m e.1) (hfind : find f.fileID m = some pFile)
    (hbegun : Begun f pFile) :
    ∃ m' pFile', endLoad m f.fileID = .ok m' ∧ Changed f.fileID pFile' m m' ∧ LoadedAs f pFile' := by
  obtain ⟨contents, hcontents, hloader⟩ := hbegun.begun
  have hloaded (k : ℕ) (hk : k ≤ f.objects.length) :
      ∃ m₁ pFile₁, (List.range k).foldlM (loadMembers f.fileID) (m, contents.flatten) =
          .ok (m₁, (contents.drop k).flatten) ∧
        Changed f.fileID pFile₁ m m₁ ∧ LoadedTo k f pFile₁ := by
    induction k with
    | zero => exact ⟨m, pFile, rfl, ⟨hfind, fun _ _ => rfl, rfl⟩, hbegun.loadedTo⟩
    | succ k ih =>
      obtain ⟨m₁, pFile₁, hrun, hchanged, hto⟩ := ih (Nat.le_of_succ_le hk)
      have hfiles : ∀ g ∈ db, g.fileID = f.fileID ∨ g.fileID ∈ f.files.map Prod.fst →
          ∃ j pFile', find g.fileID m₁ = some pFile' ∧ LoadedTo j g pFile' := by
        intro g hg hlisted
        by_cases hid : g.fileID = f.fileID
        · rw [hdb.eq_of_fileID hg hf hid]
          exact ⟨k, pFile₁, hchanged.same, hto⟩
        · obtain ⟨e, he, heq⟩ := List.mem_map.mp (hlisted.resolve_left hid)
          obtain ⟨pFile', hpFile'⟩ := Option.isSome_iff_exists.mp (heq ▸ hclosed e he)
          obtain ⟨g', hg', hid', -, hstate⟩ := hm.file _ _ hpFile'
          obtain rfl := hdb.eq_of_fileID hg' hg hid'
          have hfind' := (hchanged.other _ hid).trans hpFile'
          exact hstate.elim (fun h => ⟨0, pFile', hfind', h.loadedTo⟩)
            fun h => ⟨_, pFile', hfind', h.loadedTo⟩
      have ho := List.getElem?_eq_getElem (Nat.lt_of_succ_le hk)
      obtain ⟨m₂, pFile₂, hrun', hchanged', hto'⟩ :=
        loadMembers_of_stored hdb hf hcontents ho hchanged.same hto hfiles
      refine ⟨m₂, pFile₂, ?_, hchanged.trans hchanged', hto'⟩
      rw [List.range_succ, List.foldlM_append]
      exact except_bind_ok.mpr ⟨_, hrun, except_bind_ok.mpr ⟨_, hrun', rfl⟩⟩
  obtain ⟨m₁, pFile₁, hrun, hchanged, hto⟩ := hloaded f.objects.length le_rfl
  let ended (pFile : IndexedFile) : IndexedFile := { pFile with m_pLoader := none }
  refine ⟨update f.fileID ended m₁, ended pFile₁, ?_,
    hchanged.trans (changed_update ended (fun _ => rfl) hchanged.same),
    ⟨hto.path, hto.fileID, hto.files, hto.length, hto.loaded, hto.created⟩, rfl⟩
  unfold endLoad
  simp only [hfind, hloader, hbegun.loadedTo.length]
  exact except_bind_ok.mpr ⟨_, hrun, rfl⟩

/-! ## The files of a session -/

/-- If the file has been opened, it has been loaded. -/
def Ended (m : FileIDToFileMap) (fileID : ℤ) : Prop :=
  ∀ pFile, find fileID m = some pFile → pFile.m_pLoader = none

/-- The files that the files of the map list have been opened. -/
def Closed (db : List StoredFile) (m : FileIDToFileMap) : Prop :=
  ∀ f ∈ db, Opened m f.fileID → ∀ e ∈ f.files, Opened m e.1

theorem Closed.of_iff (h : Closed db m) (hiff : ∀ id, Opened m' id ↔ Opened m id) : Closed db m' :=
  fun f hf hopened e he => (hiff _).mpr (h f hf ((hiff _).mp hopened) e he)

theorem Grown.isClosed (h : Grown db roots m m') (hm : Closed db m) : Closed db m' := by
  intro f hf hopened
  rcases h.closed f hf hopened with hopened' | hentries
  · exact fun e he => h.kept _ (hm f hf hopened' e he)
  · exact hentries

theorem endLoad_of_stored (hdb : Storable db) (hm : Files db roots m) (hclosed : Closed db m) (id : ℤ) :
    ∃ m', endLoad m id = .ok m' ∧ Files db roots m' ∧ (∀ i, Opened m' i ↔ Opened m i) ∧ Ended m' id ∧
      ∀ i, Ended m i → Ended m' i := by
  cases hfind : find id m with
  | none =>
    refine ⟨m, by rw [endLoad, hfind], hm, fun _ => .rfl, fun pFile hpFile => ?_, fun _ h => h⟩
    cases hfind.symm.trans hpFile
  | some pFile =>
    obtain ⟨f, hf, rfl, hlisted, hbegun | hloaded⟩ := hm.file id pFile hfind
    · have hopened : Opened m f.fileID := by rw [Opened, hfind]; rfl
      obtain ⟨m', pFile', hend, hchanged, hloaded⟩ :=
        endLoad_of_begun hdb hf hm (hclosed f hf hopened) hfind hbegun
      have hended : Ended m' f.fileID := by
        intro file hfile
        cases hchanged.same.symm.trans hfile
        exact hloaded.ended
      refine ⟨m', hend, hm.of_changed hm.sorted (fun _ _ => rfl) hchanged hf hlisted (.inr hloaded),
        fun i => ?_, hended, fun i hi => ?_⟩
      · by_cases hid : i = f.fileID
        · rw [hid, Opened, hchanged.same]
          exact iff_of_true rfl hopened
        · rw [Opened, hchanged.other i hid]
          exact .rfl
      · by_cases hid : i = f.fileID
        · exact hid ▸ hended
        · exact fun file hfile => hi file ((hchanged.other i hid).symm.trans hfile)
    · refine ⟨m, by simp only [endLoad, hfind, hloaded.ended], hm, fun _ => .rfl, fun file hfile => ?_,
        fun _ h => h⟩
      cases hfind.symm.trans hfile
      exact hloaded.ended

/-- All files of the map are loaded. -/
theorem endLoads_of_stored (hdb : Storable db) (hm : Files db roots m) (hclosed : Closed db m)
    (ids : List ℤ) :
    ∃ m', ids.foldlM endLoad m = .ok m' ∧ Files db roots m' ∧ (∀ i, Opened m' i ↔ Opened m i) ∧
      ∀ i, i ∈ ids ∨ Ended m i → Ended m' i := by
  induction ids generalizing m with
  | nil => exact ⟨m, rfl, hm, fun _ => .rfl, fun i hi => hi.resolve_left List.not_mem_nil⟩
  | cons id ids ih =>
    obtain ⟨m₁, hend, hm₁, hiff, hended, hkept⟩ := endLoad_of_stored hdb hm hclosed id
    obtain ⟨m₂, hends, hm₂, hiff', hended'⟩ := ih hm₁ (hclosed.of_iff hiff)
    refine ⟨m₂, ?_, hm₂, fun i => (hiff' i).trans (hiff i), fun i hi => hended' i ?_⟩
    · rw [List.foldlM_cons]
      exact except_bind_ok.mpr ⟨m₁, hend, hends⟩
    · rcases hi with hmem | hi
      · rcases List.mem_cons.mp hmem with rfl | hmem
        · exact .inr hended
        · exact .inl hmem
      · exact .inr (hkept i hi)

/-- Between the loads of a session, every file of the map has been loaded. -/
structure Complete (db : List StoredFile) (roots : List (ℤ × String)) (m : FileIDToFileMap) : Prop where
  files : Files db roots m
  closed : Closed db m
  ended : ∀ id, Ended m id

theorem Complete.loadedAs (h : Complete db roots m) (hmem : pFile ∈ m) :
    ∃ f ∈ db, Listed db roots f.fileID ∧ LoadedAs f pFile := by
  have hfind := find_of_mem h.files.sorted hmem
  obtain ⟨f, hf, hid, hlisted, hbegun | hloaded⟩ := h.files.file _ _ hfind
  · obtain ⟨contents, -, hloader⟩ := hbegun.begun
    cases hloader.symm.trans (h.ended _ pFile hfind)
  · exact ⟨f, hf, hid ▸ hlisted, hloaded⟩

section Sessions
variable {disk : Disk} {depth : ℕ}

theorem load_of_stored (hdb : Storable db) (hdisk : OnDisk db disk) (hdepth : db.length < depth)
    {e : ℤ × String} (he : ∃ g ∈ db, g.fileID = e.1 ∧ g.path = e.2) (hlisted : Listed db roots e.1)
    (hm : Complete db roots m) :
    ∃ m', IndexedFile.load disk depth m e = .ok m' ∧ Complete db roots m' ∧
      (∀ id, Opened m id → Opened m' id) ∧ Opened m' e.1 := by
  obtain ⟨g, hg, hfileID, hpath⟩ := he
  have hcard : (unopened db m).card ≤ db.length := by
    refine (Finset.card_filter_le ..).trans ((List.toFinset_card_le _).trans ?_)
    rw [List.length_map]
  obtain ⟨m₁, hopen, hgrown, hopened⟩ := beginLoadingFile_of_stored hdb hdisk depth hg hm.files
    (hfileID ▸ hlisted) (hcard.trans_lt hdepth)
  have hclosed := hgrown.isClosed hm.closed
  obtain ⟨m₂, hends, hfiles, hiff, hended⟩ := endLoads_of_stored hdb hgrown.files hclosed
    (m₁.map IndexedFile.m_fileID)
  refine ⟨m₂, ?_, ⟨hfiles, hclosed.of_iff hiff, fun id pFile hpFile => ?_⟩,
    fun id hid => (hiff id).mpr (hgrown.kept id hid), hfileID ▸ (hiff _).mpr hopened⟩
  · unfold IndexedFile.load
    rw [← hfileID, ← hpath]
    exact except_bind_ok.mpr ⟨m₁, hopen, hends⟩
  · have hid : Opened m₂ id := by rw [Opened, hpFile]; rfl
    obtain ⟨file, hfile⟩ := Option.isSome_iff_exists.mp ((hiff id).mp hid)
    refine hended id (.inl ?_) pFile hpFile
    rw [← fileID_of_find hfile]
    exact List.mem_map_of_mem (List.mem_of_find?_eq_some hfile)

theorem loads_of_stored (hdb : Storable db) (hdisk : OnDisk db disk) (hdepth : db.length < depth)
    {files : List (ℤ × String)} (hfiles : ∀ e ∈ files, ∃ g ∈ db, g.fileID = e.1 ∧ g.path = e.2)
    (hlisted : ∀ e ∈ files, Listed db roots e.1) (hm : Complete db roots m) :
    ∃ m', files.foldlM (IndexedFile.load disk depth) m = .ok m' ∧ Complete db roots m' ∧
      (∀ id, Opened m id → Opened m' id) ∧ ∀ e ∈ files, Opened m' e.1 := by
  induction files generalizing m with
  | nil => exact ⟨m, rfl, hm, fun _ h => h, nofun⟩
  | cons e files ih =>
    rw [List.forall_mem_cons] at hfiles hlisted
    obtain ⟨m₁, hload, hm₁, hkept, hopened⟩ :=
      load_of_stored hdb hdisk hdepth hfiles.1 hlisted.1 hm
    obtain ⟨m₂, hloads, hm₂, hkept', hopened'⟩ := ih hfiles.2 hlisted.2 hm₁
    refine ⟨m₂, ?_, hm₂, fun id hid => hkept' id (hkept id hid),
      List.forall_mem_cons.mpr ⟨hkept' _ hopened, hopened'⟩⟩
    rw [List.foldlM_cons]
    exact except_bind_ok.mpr ⟨m₁, hload, hloads⟩

/-- A session that loads files which have been stored gets these files and all that they list, and
nothing else; every object of a file is loaded as it was stored, at its place. -/
theorem session_loads (hdb : Storable db) (hdisk : OnDisk db disk) (hdepth : db.length < depth)
    (hroots : ∀ e ∈ roots, ∃ g ∈ db, g.fileID = e.1 ∧ g.path = e.2) :
    ∃ m, session disk depth roots = .ok m ∧
      SortedEntries.StrictlySorted IndexedFile.m_fileID m ∧
      (∀ f ∈ db, Listed db roots f.fileID → ∃ pFile ∈ m, LoadedAs f pFile) ∧
      ∀ pFile ∈ m, ∃ f ∈ db, Listed db roots f.fileID ∧ LoadedAs f pFile := by
  have hempty : Complete db roots [] := by
    refine ⟨⟨List.Pairwise.nil, ?_⟩, fun f _ hopened => ?_, fun _ pFile hpFile => ?_⟩
    · exact fun _ _ hpFile => by cases hpFile
    · cases hopened
    · cases hpFile
  obtain ⟨m, hsession, hm, -, hopened⟩ := loads_of_stored hdb hdisk hdepth hroots
    (fun e he => .root he) hempty
  have hlisted : ∀ id, Listed db roots id → Opened m id := by
    intro id hid
    induction hid with
    | root he => exact hopened _ he
    | step hf _ he ih => exact hm.closed _ hf ih _ he
  refine ⟨m, hsession, hm.files.sorted, fun f hf hid => ?_, fun pFile hpFile => hm.loadedAs hpFile⟩
  obtain ⟨pFile, hpFile⟩ := Option.isSome_iff_exists.mp (hlisted _ hid)
  have hmem := List.mem_of_find?_eq_some hpFile
  obtain ⟨g, hg, -, hloaded⟩ := hm.loadedAs hmem
  have hfileID : g.fileID = f.fileID := by
    rw [← hloaded.loadedTo.fileID]
    exact fileID_of_find hpFile
  exact ⟨pFile, hmem, hdb.eq_of_fileID hg hf hfileID ▸ hloaded⟩

end Sessions

/-! ### Files that list each other -/

theorem types_inFile : (1 : ℤ) ≠ NO_FILE := by decide

/-- A file with a type, and one with a dimension of this type. Both list both. -/
def linkedFiles : List StoredFile :=
  let files := [(1, "types.db"), (2, "dimensions.db")]
  [⟨"types.db", 1, files, [⟨1, 0, ⟨.eInputOpaque, ({ m_str := "int" } : Input.Opaque)⟩⟩]⟩,
    ⟨"dimensions.db", 2, files, [⟨2, 0, ⟨.eInputDimension,
      ({ m_strIdentifier := "m_x", m_pType := some ⟨1, 0, types_inFile⟩ } : Input.Dimension)⟩⟩]⟩]

def linkedDisk : Disk := fun path =>
  (linkedFiles.find? fun f => f.path = path).bind fun f => f.archive.toOption

theorem eq_of_getElem?_singleton {o o' : Object} {i : ℕ} (h : [o][i]? = some o') : i = 0 ∧ o' = o := by
  rw [List.getElem?_singleton] at h
  split at h
  · next hi => exact ⟨hi, (Option.some.inj h).symm⟩
  · cases h

theorem linkedFiles_storable : Storable linkedFiles where
  ids := by decide
  closed := by decide
  placed := by
    simp only [linkedFiles, List.forall_mem_cons]
    refine ⟨fun i o ho => ?_, fun i o ho => ?_, List.forall_mem_nil _⟩
    · obtain ⟨rfl, rfl⟩ := eq_of_getElem?_singleton ho
      exact ⟨rfl, rfl⟩
    · obtain ⟨rfl, rfl⟩ := eq_of_getElem?_singleton ho
      exact ⟨rfl, rfl⟩
  valid := by
    intro f hf i o ho
    simp only [linkedFiles, List.mem_cons, List.not_mem_nil, or_false] at hf
    rcases hf with rfl | rfl
    · obtain ⟨rfl, rfl⟩ := eq_of_getElem?_singleton ho
      exact ⟨trivial, trivial, trivial⟩
    · obtain ⟨rfl, rfl⟩ := eq_of_getElem?_singleton ho
      refine ⟨trivial, trivial, fun p hp => ?_, trivial⟩
      cases hp
      exact ⟨.eInputOpaque, rfl, rfl⟩

theorem linkedFiles_onDisk : OnDisk linkedFiles linkedDisk := by
  simp only [OnDisk, linkedFiles, List.forall_mem_cons]
  exact ⟨⟨_, rfl, rfl⟩, ⟨_, rfl, rfl⟩, List.forall_mem_nil _⟩

theorem session_loads_linked : ∃ m, session linkedDisk 3 [(2, "dimensions.db")] = .ok m ∧
    ∀ f ∈ linkedFiles, ∃ pFile ∈ m, LoadedAs f pFile := by
  have hroots : ∀ e ∈ [((2 : ℤ), "dimensions.db")],
      ∃ g ∈ linkedFiles, g.fileID = e.1 ∧ g.path = e.2 := by decide
  obtain ⟨m, hm, -, hlisted, -⟩ :=
    session_loads linkedFiles_storable linkedFiles_onDisk (by decide : _ < 3) hroots
  refine ⟨m, hm, fun f hf => hlisted f hf ?_⟩
  have hdimensions : Listed linkedFiles [(2, "dimensions.db")] 2 := .root (List.mem_singleton_self _)
  simp only [linkedFiles, List.mem_cons, List.not_mem_nil, or_false] at hf
  rcases hf with rfl | rfl
  · exact .step (List.mem_cons_of_mem _ List.mem_cons_self) hdimensions List.mem_cons_self
  · exact hdimensions

end EgLang.Sessions
