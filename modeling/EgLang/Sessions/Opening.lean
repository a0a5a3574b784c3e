import EgLang.Sessions.Stored

/-!
# Opening files

`beginLoad` creates the objects of a file. `beginLoadingFile` goes on with the files that the file lists
and that have not been opened, so that a file that lists itself, or files that list each other, are opened
once.
-/

namespace EgLang.Sessions

open EgLang.Compiler.Archive EgLang.Library FileIDToFileMap

set_option autoImplicit false

/-! ## The tables of a file -/

section Tables
variable {m : FileIDToFileMap} {pFile : IndexedFile} {id : ℤ} {o : Object}

theorem create_eq (o : Object) :
    create (ObjectType.all.idxOf o.members.1) o.m_fileID o.m_index = .ok o.created := by
  have htype : ObjectType.ofNumber (ObjectType.all.idxOf o.members.1) = some o.members.1 := by
    rw [ObjectType.ofNumber, if_pos (Int.natCast_nonneg _), Int.toNat_natCast]
    exact List.getElem?_idxOf (ObjectType.mem_all _)
  rw [create, htype]
  rfl

/-- An object is created at its place, if there is no object yet. -/
theorem loadObject_of_stored (hfind : find o.m_fileID m = some pFile) (hindex : 0 ≤ o.m_index)
    (hslot : pFile.m_objects[o.m_index.toNat]? = some none) (rest : List Value) :
    loadObject (o.storePlace ++ rest, m) = .ok ((), rest, setObject o.created m) := by
  have hread (i : ℤ) (vs : List Value) : loadInt (.ast (.int i) :: vs, m) = .ok (i, vs, m) :=
    Loading.read_of_take (show Value.int? (.ast (.int i)) = some i from rfl) vs m
  have hlt := (List.getElem?_eq_some_iff.mp hslot).choose
  unfold loadObject Object.storePlace
  rw [List.cons_append, List.cons_append, List.cons_append, List.nil_append,
    Loading.bind_of_ok (hread _ _), Loading.bind_of_ok (hread _ _), Loading.bind_of_ok (hread _ _)]
  rw [Loading.bind_of_ok (show (get : LoadingFile _) (rest, m) = .ok ((rest, m), rest, m) from rfl)]
  simp only [hfind, hindex, hlt, and_self, if_true, hslot, Option.join_some, create_eq]
  rfl

/-- The objects of a file are created one after another. -/
theorem loadObjects_of_stored {os : List Object} (created : List Object)
    (hfind : find id m = some pFile)
    (hobjects : pFile.m_objects = created.map some ++ List.replicate os.length none)
    (hplaced : ∀ (i : ℕ) (o : Object), os[i]? = some o →
      o.m_fileID = id ∧ o.m_index = ((created.length + i : ℕ) : ℤ)) (rest : List Value) :
    ∃ us m', Loading.loadMany loadObject os.length (os.flatMap Object.storePlace ++ rest, m) =
        .ok (us, rest, m') ∧
      Changed id { pFile with m_objects := (created ++ os.map Object.created).map some } m m' := by
  induction os generalizing m pFile created with
  | nil =>
    refine ⟨[], m, rfl, ?_, fun _ _ => rfl, rfl⟩
    have hpFile : pFile = { pFile with m_objects := created.map some } := by
      rw [List.length_nil, List.replicate_zero, List.append_nil] at hobjects
      rw [← hobjects]
    rw [List.map_nil, List.append_nil, ← hpFile]
    exact hfind
  | cons o os ih =>
    obtain ⟨rfl, hindex⟩ := hplaced 0 o rfl
    have hlength : o.m_index.toNat = (created.map (some : Object → Option Object)).length := by
      rw [hindex, Int.toNat_natCast, List.length_map, Nat.add_zero]
    have hslot : pFile.m_objects[o.m_index.toNat]? = some none := by
      rw [hobjects, hlength, List.getElem?_append_right le_rfl, Nat.sub_self]
      rfl
    have hload := loadObject_of_stored hfind (by rw [hindex]; exact Int.natCast_nonneg _) hslot
      (os.flatMap Object.storePlace ++ rest)
    have hset : pFile.m_objects.set o.m_index.toNat (some o.created) =
        (created ++ [o.created]).map some ++ List.replicate os.length none := by
      rw [hobjects, hlength, List.set_append_right _ _ le_rfl, Nat.sub_self, List.length_cons,
        List.replicate_succ, List.set_cons_zero, List.map_append, List.append_assoc]
      rfl
    have hchanged : Changed o.m_fileID
        { pFile with m_objects := pFile.m_objects.set o.m_index.toNat (some o.created) } m
        (setObject o.created m) :=
      changed_update (fun pFile => { pFile with
        m_objects := pFile.m_objects.set o.m_index.toNat (some o.created) }) (fun _ => rfl) hfind
    obtain ⟨us, m', hus, hm'⟩ := ih _ hchanged.same hset fun i o' ho' => by
      have hnext := hplaced (i + 1) o' ho'
      refine ⟨hnext.1, hnext.2.trans ?_⟩
      rw [List.length_append, List.length_singleton, Nat.add_assoc, Nat.add_comm 1 i]
    refine ⟨() :: us, m', ?_, ?_⟩
    · rw [List.flatMap_cons, List.append_assoc, List.length_cons, Loading.loadMany,
        Loading.bind_of_ok hload, Loading.bind_of_ok hus]
      rfl
    · have htrans := hchanged.trans hm'
      rwa [List.append_assoc] at htrans

theorem mapM_verifyObject (os : List Object) : (os.map some).mapM verifyObject = .ok os :=
  mapM_eq_ok.mpr (List.forall₂_map_left_iff.mpr (List.forall₂_same.mpr fun _ _ => rfl))

/-- What a file that has been stored begins with, and what its objects hold. -/
theorem exists_contents {f : StoredFile} {archive : List Value} (h : f.archive = .ok archive) :
    ∃ contents, f.objects.mapM Object.store = .ok contents ∧
      archive = [.ast (.int f.fileID)] ++
        ([.ast (.size f.files.length)] ++
          f.files.flatMap fun entry => [.ast (.int entry.1), .string entry.2]) ++
        ([.ast (.size f.objects.length)] ++ f.objects.flatMap Object.storePlace) ++
        contents.flatten := by
  unfold StoredFile.archive IndexedFile.store at h
  rw [mapM_verifyObject] at h
  obtain ⟨objects, hobjects, h⟩ := except_bind_ok.mp h
  cases hobjects
  obtain ⟨contents, hcontents, h⟩ := except_bind_ok.mp h
  exact ⟨contents, hcontents, (Except.ok.inj h).symm⟩

theorem reads_fileEntry (entry : ℤ × String) :
    Reads loadFileEntry m [.ast (.int entry.1), .string entry.2] entry.swap := by
  have hint : Reads loadInt m [.ast (.int entry.1)] entry.1 :=
    Reads.read (show Value.int? (.ast (.int entry.1)) = some entry.1 from rfl)
  have hpath : Reads loadPath m [.string entry.2] entry.2 :=
    Reads.read (show Value.string? (.string entry.2) = some entry.2 from rfl)
  exact hint.bind (hpath.last (Reads.pure _))

/-- The tables of a file are read as they have been stored, and all objects of the file are created. -/
theorem loadTables_of_stored {f : StoredFile} {archive : List Value} (h : f.archive = .ok archive)
    (hplaced : ∀ (i : ℕ) (o : Object), f.objects[i]? = some o →
      o.m_fileID = f.fileID ∧ o.m_index = (i : ℤ)) (hfind : find f.fileID m = some pFile) :
    ∃ contents m', f.objects.mapM Object.store = .ok contents ∧
      loadTables f.fileID (archive, m) = .ok (f.files.map Prod.swap, contents.flatten, m') ∧
      Changed f.fileID { pFile with m_objects := (f.objects.map Object.created).map some } m m' := by
  obtain ⟨contents, hcontents, rfl⟩ := exists_contents h
  have hfileID : Reads loadInt m [.ast (.int f.fileID)] f.fileID :=
    Reads.read (show Value.int? (.ast (.int f.fileID)) = some f.fileID from rfl)
  have hsize (n : ℕ) : Reads loadSize m [.ast (.size n)] n :=
    Reads.read (show Value.size? (.ast (.size n)) = some n from rfl)
  have hentries : Reads (Loading.loadMany loadFileEntry f.files.length) m
      (f.files.flatMap fun entry => [.ast (.int entry.1), .string entry.2])
      (f.files.map Prod.swap) := Reads.loadMany fun entry _ => reads_fileEntry entry
  let resize (pFile : IndexedFile) : IndexedFile :=
    { pFile with m_objects := List.replicate f.objects.length none }
  have hresized : Changed f.fileID (resize pFile) m (update f.fileID resize m) :=
    changed_update resize (fun _ => rfl) hfind
  have hresize (vs : List Value) :
      (modify fun p => (p.1, update f.fileID resize p.2) : LoadingFile Unit) (vs, m) =
        .ok ((), vs, update f.fileID resize m) := rfl
  obtain ⟨us, m', hus, hm'⟩ := loadObjects_of_stored [] hresized.same rfl
    (fun i o ho => by simpa using hplaced i o ho) contents.flatten
  refine ⟨contents, m', hcontents, ?_, hresized.trans hm'⟩
  unfold loadTables
  simp only [List.append_assoc]
  rw [Loading.bind_of_ok (hfileID _), if_pos rfl, Loading.bind_of_ok (hsize _ _),
    Loading.bind_of_ok (hentries _), Loading.bind_of_ok (hsize _ _)]
  exact (Loading.bind_of_ok (hresize _)).trans (Loading.bind_of_ok hus)

end Tables

/-! ## The files of a session -/

/-- The file is in the map. -/
def Opened (m : FileIDToFileMap) (fileID : ℤ) : Prop := (find fileID m).isSome = true

/-- Every file of the map has been stored, is listed, and has been opened or loaded. -/
structure Files (db : List StoredFile) (roots : List (ℤ × String)) (m : FileIDToFileMap) : Prop where
  sorted : SortedEntries.StrictlySorted IndexedFile.m_fileID m
  file : ∀ (id : ℤ) (pFile : IndexedFile), find id m = some pFile →
    ∃ f ∈ db, f.fileID = id ∧ Listed db roots id ∧ (Begun f pFile ∨ LoadedAs f pFile)

/-- Files have been added to the map, each with the files that it lists. -/
structure Grown (db : List StoredFile) (roots : List (ℤ × String)) (m m' : FileIDToFileMap) : Prop where
  files : Files db roots m'
  kept : ∀ id, Opened m id → Opened m' id
  closed : ∀ f ∈ db, Opened m' f.fileID → Opened m f.fileID ∨ ∀ e ∈ f.files, Opened m' e.1

section Opening
variable {db : List StoredFile} {roots : List (ℤ × String)} {m m' m'' : FileIDToFileMap}

theorem Grown.refl (h : Files db roots m) : Grown db roots m m :=
  ⟨h, fun _ hid => hid, fun _ _ hf => .inl hf⟩

theorem Grown.trans (h : Grown db roots m m') (h' : Grown db roots m' m'') : Grown db roots m m'' := by
  refine ⟨h'.files, fun id hid => h'.kept id (h.kept id hid), fun f hf hopened => ?_⟩
  rcases h'.closed f hf hopened with hopened' | hentries
  · exact (h.closed f hf hopened').imp_right fun hentries e he => h'.kept _ (hentries e he)
  · exact .inr hentries

theorem Changed.sorted {fileID : ℤ} {pFile : IndexedFile} (h : Changed fileID pFile m m')
    (hsorted : SortedEntries.StrictlySorted IndexedFile.m_fileID m) :
    SortedEntries.StrictlySorted IndexedFile.m_fileID m' := by
  have hkeys (l : FileIDToFileMap) : SortedEntries.StrictlySorted IndexedFile.m_fileID l ↔
      (l.map IndexedFile.m_fileID).Pairwise (· < ·) := List.pairwise_map.symm
  rw [hkeys] at hsorted ⊢
  rwa [h.ids]

/-- A file that has been opened or loaded, in a map with other files. -/
theorem Files.of_changed {f : StoredFile} {pFile : IndexedFile} (h : Files db roots m)
    (hsorted : SortedEntries.StrictlySorted IndexedFile.m_fileID m')
    (hother : ∀ id, id ≠ f.fileID → find id m' = find id m)
    (hchanged : Changed f.fileID pFile m' m'') (hf : f ∈ db) (hlisted : Listed db roots f.fileID)
    (hpFile : Begun f pFile ∨ LoadedAs f pFile) : Files db roots m'' := by
  refine ⟨hchanged.sorted hsorted, fun id file hfile => ?_⟩
  by_cases hid : id = f.fileID
  · rw [hid, hchanged.same] at hfile
    cases hfile
    exact ⟨f, hf, hid.symm, hid ▸ hlisted, hpFile⟩
  · exact h.file id file ((hother id hid).symm.trans ((hchanged.other id hid).symm.trans hfile))

variable {disk : Disk}

/-- A file that is not in the map is opened. -/
theorem beginLoad_of_stored (h : Storable db) (hdisk : OnDisk db disk) {g : StoredFile} (hg : g ∈ db)
    (hm : Files db roots m) (hlisted : Listed db roots g.fileID) (hnew : ¬ Opened m g.fileID) :
    ∃ m', beginLoad disk (insert m { m_filePath := g.path, m_fileID := g.fileID }) g.path g.fileID =
        .ok (g.files.map Prod.swap, m') ∧
      Files db roots m' ∧ ∀ id, Opened m' id ↔ id = g.fileID ∨ Opened m id := by
  obtain ⟨archive, harchive, hfile⟩ := hdisk g hg
  let pFile : IndexedFile := { m_filePath := g.path, m_fileID := g.fileID }
  have hnone : find pFile.m_fileID m = none := by simpa [Opened] using hnew
  have hinsert (id : ℤ) : find id (insert m pFile) = if id = g.fileID then some pFile else find id m :=
    find_insert hm.sorted hnone
  obtain ⟨contents, m₁, hcontents, htables, hm₁⟩ := loadTables_of_stored harchive (h.placed g hg)
    ((hinsert g.fileID).trans (if_pos rfl))
  let begin (pFile : IndexedFile) : IndexedFile :=
    { pFile with m_files := g.files.map Prod.swap, m_pLoader := some contents.flatten }
  have hm₂ := hm₁.trans (changed_update begin (fun _ => rfl) hm₁.same)
  have hbegun : Begun g (begin { pFile with
      m_objects := (g.objects.map Object.created).map some }) := by
    refine ⟨⟨rfl, rfl, rfl, ?_, fun _ _ _ hlt => absurd hlt (Nat.not_lt_zero _), fun i o ho _ => ?_⟩,
      contents, hcontents, rfl⟩
    · change ((g.objects.map Object.created).map some).length = _
      rw [List.length_map, List.length_map]
    · change ((g.objects.map Object.created).map some)[i]? = _
      rw [List.getElem?_map, List.getElem?_map, ho]
      rfl
  refine ⟨_, ?_, hm.of_changed hm.sorted.insertNew (fun id hid => ?_) hm₂ hg hlisted (.inl hbegun),
    fun id => ?_⟩
  · unfold beginLoad
    rw [hfile]
    exact except_bind_ok.mpr ⟨_, htables, rfl⟩
  · exact (hinsert id).trans (if_neg hid)
  · unfold Opened
    by_cases hid : id = g.fileID
    · rw [hid, hm₂.same]
      simp
    · rw [hm₂.other id hid, hinsert id, if_neg hid]
      simp [hid]

/-- The files that have been stored and not been opened. -/
def unopened (db : List StoredFile) (m : FileIDToFileMap) : Finset ℤ :=
  (db.map StoredFile.fileID).toFinset.filter fun id => (find id m).isNone

theorem mem_unopened {id : ℤ} :
    id ∈ unopened db m ↔ id ∈ db.map StoredFile.fileID ∧ ¬ Opened m id := by
  simp [unopened, Opened]

theorem unopened_subset (h : ∀ id, Opened m id → Opened m' id) : unopened db m' ⊆ unopened db m :=
  fun id hid => mem_unopened.mpr ((mem_unopened.mp hid).imp_right fun hnew hid => hnew (h id hid))

theorem card_unopened_lt {f : StoredFile} (hf : f ∈ db) (hnew : ¬ Opened m f.fileID)
    (h : ∀ id, Opened m' id ↔ id = f.fileID ∨ Opened m id) :
    (unopened db m').card < (unopened db m).card := by
  refine Finset.card_lt_card ((Finset.ssubset_iff_of_subset
    (unopened_subset fun id hid => (h id).mpr (.inr hid))).mpr ⟨f.fileID, ?_, fun hid => ?_⟩)
  · exact mem_unopened.mpr ⟨List.mem_map_of_mem hf, hnew⟩
  · exact (mem_unopened.mp hid).2 ((h f.fileID).mpr (.inl rfl))

/-- Files are opened one after another. -/
theorem beginLoadingFiles_of_stored {depth : ℕ}
    (h : ∀ {m : FileIDToFileMap} {g : StoredFile}, g ∈ db → Files db roots m →
      Listed db roots g.fileID → (unopened db m).card < depth →
      ∃ m', beginLoadingFile disk depth m (g.path, g.fileID) = .ok m' ∧ Grown db roots m m' ∧
        Opened m' g.fileID)
    {files : List (ℤ × String)} (hfiles : ∀ e ∈ files, ∃ g ∈ db, g.fileID = e.1 ∧ g.path = e.2)
    (hlisted : ∀ e ∈ files, Listed db roots e.1) (hm : Files db roots m)
    (hdepth : (unopened db m).card < depth) :
    ∃ m', (files.map Prod.swap).foldlM (beginLoadingFile disk depth) m = .ok m' ∧
      Grown db roots m m' ∧ ∀ e ∈ files, Opened m' e.1 := by
  induction files generalizing m with
  | nil => exact ⟨m, rfl, .refl hm, nofun⟩
  | cons e files ih =>
    rw [List.forall_mem_cons] at hfiles hlisted
    obtain ⟨⟨g, hg, hfileID, hpath⟩, hfiles⟩ := hfiles
    obtain ⟨m₁, hm₁, hgrown, hopened⟩ := h hg hm (hfileID ▸ hlisted.1) hdepth
    obtain ⟨m₂, hm₂, hgrown', hopened'⟩ := ih hfiles hlisted.2 hgrown.files
      ((Finset.card_le_card (unopened_subset hgrown.kept)).trans_lt hdepth)
    have he : e.swap = (g.path, g.fileID) := by rw [hfileID, hpath, Prod.swap]
    refine ⟨m₂, ?_, hgrown.trans hgrown', ?_⟩
    · rw [List.map_cons, List.foldlM_cons, he]
      exact except_bind_ok.mpr ⟨m₁, hm₁, hm₂⟩
    · exact List.forall_mem_cons.mpr ⟨hfileID ▸ hgrown'.kept _ hopened, hopened'⟩

/-- A file is opened, and with it all files that it lists and that they list. -/
theorem beginLoadingFile_of_stored (h : Storable db) (hdisk : OnDisk db disk) (depth : ℕ)
    {m : FileIDToFileMap} {g : StoredFile} (hg : g ∈ db) (hm : Files db roots m)
    (hlisted : Listed db roots g.fileID) (hdepth : (unopened db m).card < depth) :
    ∃ m', beginLoadingFile disk depth m (g.path, g.fileID) = .ok m' ∧ Grown db roots m m' ∧
      Opened m' g.fileID := by
  induction depth generalizing m g with
  | zero => exact absurd hdepth (Nat.not_lt_zero _)
  | succ depth ih =>
    rw [beginLoadingFile]
    by_cases hopened : Opened m g.fileID
    · exact ⟨m, if_pos hopened, .refl hm, hopened⟩
    · obtain ⟨m₁, hm₁, hfiles, hiff⟩ := beginLoad_of_stored h hdisk hg hm hlisted hopened
      obtain ⟨m₂, hm₂, hgrown, hentries⟩ := beginLoadingFiles_of_stored ih (h.closed g hg)
        (fun e he => .step hg hlisted he) hfiles
        (Nat.lt_of_lt_of_le (card_unopened_lt hg hopened hiff) (Nat.le_of_lt_succ hdepth))
      refine ⟨m₂, ?_, ⟨hgrown.files, fun id hid => hgrown.kept id ((hiff id).mpr (.inr hid)),
        fun f hf hf₂ => ?_⟩, hgrown.kept _ ((hiff _).mpr (.inl rfl))⟩
      · exact (if_neg hopened).trans (except_bind_ok.mpr ⟨_, hm₁, hm₂⟩)
      · rcases hgrown.closed f hf hf₂ with hf₁ | hentries'
        · rcases (hiff _).mp hf₁ with hid | hf₀
          · rw [h.eq_of_fileID hf hg hid]
            exact .inr hentries
          · exact .inl hf₀
        · exact .inr hentries'

end Opening
end EgLang.Sessions
