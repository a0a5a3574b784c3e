import EgLang.Build.TranslationUnits

/-!
# Names of build files

A translation unit is named after its definition file, or after its coordinator and host if it has
none, and the database, the source and the object file of the unit after its name. The other object
files are named after the sources they are compiled from. All of them lie in the intermediate folder
of the project.
-/

namespace EgLang.Build

open EgLang.Library

set_option autoImplicit false

/-- `std::string`: each character stands for one `char`. -/
abbrev Text := List Char

/-! ## Paths -/

/-- `boost::filesystem::path`, by its elements. -/
structure Path where
  parents : List Text
  filename : Text
deriving DecidableEq, Repr

namespace Path

/-- `path::stem`, of the last element. -/
def stem (p : Path) : Text :=
  if p.filename = ".".toList ∨ p.filename = "..".toList ∨ '.' ∉ p.filename then p.filename
  else (p.filename.reverse.dropWhile (· ≠ '.')).tail.reverse

/-- `path::replace_extension` with no extension. -/
def replace_extension (p : Path) : Path := { p with filename := p.stem }

def generic_string (p : Path) : Text := List.intercalate ['/'] (p.parents ++ [p.filename])

end Path

/-- `style_replace_non_alpha_numeric`. -/
def style_replace_non_alpha_numeric (str : Text) (r : Char) : Text :=
  str.map fun c => if c.isAlphanum then c else r

/-! ## Names -/

/-- What the names depend on besides the source: the expansion of a path of the configuration to a
canonical one, and the relative path of a file in a folder. -/
structure Environment where
  expand : Text → Path
  edsInclude : Path → Path → Path

/-- `Project`: its folder, and the `Source` files of the project, its host and its packages. -/
structure Project where
  projectDir : Path
  projectSource : Option (List Text)
  hostSource : Option (List Text)
  packageSource : List (Option (List Text))

/-- A project with the keys of its translation units. -/
structure BuildInput where
  environment : Environment
  project : Project
  getIdentifier : IndexedObject → Text
  keys : List (CoordinatorHostnameDefinitionFile Path)
  nodup : keys.Nodup

namespace BuildInput
variable (input : BuildInput)

/-- The relative path of a definition file, without its extension. -/
def sourceName (definitionFile : Path) : Text :=
  (input.environment.edsInclude input.project.projectDir definitionFile).replace_extension.generic_string

/-- The identifiers of the coordinator and of the host, each with an underscore after it. -/
def label (chd : CoordinatorHostnameDefinitionFile Path) : Text :=
  (match chd.pCoordinator with
    | some pCoordinator => input.getIdentifier pCoordinator ++ "_".toList
    | none => []) ++
  (match chd.pHostName with
    | some pHostName => input.getIdentifier pHostName ++ "_".toList
    | none => [])

/-- `TranslationUnit::TUNameFromEGSource`. -/
def TUNameFromEGSource (chd : CoordinatorHostnameDefinitionFile Path) : Text :=
  match chd.definitionFile with
  | some definitionFile => style_replace_non_alpha_numeric (input.sourceName definitionFile) '_'
  | none => input.label chd ++ "definition".toList

/-- `Project::getObjectName`. -/
def getObjectName (strTUName : Text) : Text := "object_".toList ++ strTUName ++ ".obj".toList

/-- `Project::getObjectFile`. -/
def getObjectFile (sourceFile : Path) : Text := "object_".toList ++ sourceFile.stem ++ ".obj".toList

/-- `Project::getRuntimeSource`. -/
def getRuntimeSource : Path := ⟨input.project.projectDir.parents ++
  [input.project.projectDir.filename, "build".toList], "runtime.cpp".toList⟩

/-- `collateUserSourceFiles`: a path that has been met before is left out. -/
def collateUserSourceFiles (directories : List Path) : Option (List Text) → List Path
  | none => directories
  | some xmlFiles => xmlFiles.foldl (fun directories strFile =>
      if input.environment.expand strFile ∈ directories then directories
      else directories ++ [input.environment.expand strFile]) directories

/-- `Project::getCPPSourceCode`. -/
def getCPPSourceCode : List Path :=
  input.project.packageSource.foldl input.collateUserSourceFiles
    (input.collateUserSourceFiles (input.collateUserSourceFiles [] input.project.projectSource)
      input.project.hostSource)

/-- The object files of `build_objects`: of the units, of the runtime source, of the C++ sources. -/
def build_objects : List Text :=
  input.keys.map (fun chd => getObjectName (input.TUNameFromEGSource chd)) ++
    getObjectFile input.getRuntimeSource :: input.getCPPSourceCode.map getObjectFile

/-- Different keys have different names, and no object file is written twice. -/
structure NamesInjective : Prop where
  names : ∀ k ∈ input.keys, ∀ k' ∈ input.keys, k ≠ k' →
    input.TUNameFromEGSource k ≠ input.TUNameFromEGSource k'
  objects : input.build_objects.Nodup

/-! ## The sources -/

theorem nodup_collateUserSourceFiles {directories : List Path} (h : directories.Nodup)
    (files : Option (List Text)) : (input.collateUserSourceFiles directories files).Nodup := by
  cases files with
  | none => exact h
  | some xmlFiles =>
    rw [collateUserSourceFiles]
    induction xmlFiles generalizing directories with
    | nil => exact h
    | cons strFile xmlFiles ih =>
      rw [List.foldl_cons]
      apply ih
      split
      · exact h
      · next hnew =>
        refine List.nodup_append.mpr ⟨h, List.nodup_singleton _, fun a ha b hb heq => ?_⟩
        rw [List.mem_singleton] at hb
        exact hnew (hb ▸ heq ▸ ha)

theorem nodup_getCPPSourceCode : input.getCPPSourceCode.Nodup := by
  have hfold : ∀ (packages : List (Option (List Text))) (directories : List Path),
      directories.Nodup → (packages.foldl input.collateUserSourceFiles directories).Nodup := by
    intro packages
    induction packages with
    | nil => exact fun _ h => h
    | cons package packages ih =>
      exact fun directories h => ih _ (input.nodup_collateUserSourceFiles h package)
  apply hfold
  apply input.nodup_collateUserSourceFiles
  exact input.nodup_collateUserSourceFiles List.nodup_nil _

/-! ## When names coincide -/

/-- Two texts that differ in characters only that are neither letters nor digits. -/
def Alike (s t : Text) : Prop :=
  List.Forall₂ (fun a b => a = b ∨ a.isAlphanum = false ∧ b.isAlphanum = false) s t

/-- The text is read as a name, with an underscore for each character that is neither letter nor
digit. -/
def ReadAs (s name : Text) : Prop :=
  List.Forall₂ (fun a b => if a.isAlphanum then b = a else b = '_') s name

theorem style_replace_eq_iff (s name : Text) :
    style_replace_non_alpha_numeric s '_' = name ↔ ReadAs s name := by
  unfold style_replace_non_alpha_numeric ReadAs
  induction s generalizing name with
  | nil => cases name <;> simp
  | cons a s ih =>
    cases name with
    | nil => simp
    | cons b name =>
      rw [List.map_cons, List.cons.injEq, List.forall₂_cons, ih]
      refine and_congr_left fun _ => ?_
      by_cases ha : a.isAlphanum = true
      · rw [if_pos ha, if_pos ha]
        exact eq_comm
      · rw [if_neg ha, if_neg ha]
        exact eq_comm

theorem style_replace_inj (s t : Text) : style_replace_non_alpha_numeric s '_' =
    style_replace_non_alpha_numeric t '_' ↔ Alike s t := by
  unfold style_replace_non_alpha_numeric Alike
  induction s generalizing t with
  | nil => cases t <;> simp
  | cons a s ih =>
    cases t with
    | nil => simp
    | cons b t =>
      rw [List.map_cons, List.map_cons, List.cons.injEq, List.forall₂_cons, ih]
      refine and_congr_left fun _ => ?_
      have hunderscore : '_'.isAlphanum = false := by decide
      cases ha : a.isAlphanum <;> cases hb : b.isAlphanum
      · simp
      · have hne : b ≠ '_' := fun h => by rw [h, hunderscore] at hb; cases hb
        have hne' : a ≠ b := fun h => by rw [h, hb] at ha; cases ha
        simp [hne.symm, hne']
      · have hne : a ≠ '_' := fun h => by rw [h, hunderscore] at ha; cases ha
        have hne' : a ≠ b := fun h => by rw [h, hb] at ha; cases ha
        simp [hne, hne']
      · simp

/-- The names of the build are made from different sources. No two definition files differ in their
extensions and in characters that are neither letters nor digits only; no definition file reads as the
name of a unit without one, as `runtime` or as the stem of a C++ source; units without a definition file
have different labels, none of which, with `definition` after it, is the stem of a C++ source; and the
C++ sources have different stems, none of them `runtime`. -/
structure SourcesApart : Prop where
  files : ∀ k ∈ input.keys, ∀ k' ∈ input.keys, k ≠ k' → ∀ f f', k.definitionFile = some f →
    k'.definitionFile = some f' → ¬ Alike (input.sourceName f) (input.sourceName f')
  mixed : ∀ k ∈ input.keys, ∀ k' ∈ input.keys, ∀ f, k.definitionFile = some f →
    k'.definitionFile = none → ¬ ReadAs (input.sourceName f) (input.label k' ++ "definition".toList)
  labels : ∀ k ∈ input.keys, ∀ k' ∈ input.keys, k ≠ k' → k.definitionFile = none →
    k'.definitionFile = none → input.label k ≠ input.label k'
  runtime : ∀ k ∈ input.keys, ∀ f, k.definitionFile = some f →
    ¬ ReadAs (input.sourceName f) "runtime".toList
  stems : ∀ s ∈ input.getCPPSourceCode, ∀ s' ∈ input.getCPPSourceCode, s ≠ s' → s.stem ≠ s'.stem
  stem_runtime : ∀ s ∈ input.getCPPSourceCode, s.stem ≠ "runtime".toList
  stem_file : ∀ s ∈ input.getCPPSourceCode, ∀ k ∈ input.keys, ∀ f, k.definitionFile = some f →
    ¬ ReadAs (input.sourceName f) s.stem
  stem_label : ∀ s ∈ input.getCPPSourceCode, ∀ k ∈ input.keys, k.definitionFile = none →
    s.stem ≠ input.label k ++ "definition".toList

theorem getObjectName_inj {a b : Text} : getObjectName a = getObjectName b ↔ a = b := by
  unfold getObjectName
  constructor
  · intro h
    exact List.append_cancel_left (List.append_cancel_right h)
  · intro h
    rw [h]

theorem getObjectFile_eq (s : Path) : getObjectFile s = getObjectName s.stem := by
  unfold getObjectFile getObjectName
  with_reducible rfl

theorem stem_getRuntimeSource : input.getRuntimeSource.stem = "runtime".toList := by
  simp [getRuntimeSource, Path.stem]

section Names
variable {input} {k k' : CoordinatorHostnameDefinitionFile Path} {f f' : Path}

theorem name_of_file (h : k.definitionFile = some f) :
    input.TUNameFromEGSource k = style_replace_non_alpha_numeric (input.sourceName f) '_' := by
  rw [TUNameFromEGSource, h]

theorem name_of_label (h : k.definitionFile = none) :
    input.TUNameFromEGSource k = input.label k ++ "definition".toList := by
  rw [TUNameFromEGSource, h]

/-- A unit without a definition file is not named `runtime`. -/
theorem label_ne_runtime (s : Text) : s ++ "definition".toList ≠ "runtime".toList := by
  intro h
  have hlast := congrArg List.getLast? h
  rw [List.getLast?_append] at hlast
  simp at hlast

/-- Different keys have different names. -/
def NamesApart (input : BuildInput) : Prop :=
  ∀ k ∈ input.keys, ∀ k' ∈ input.keys, k ≠ k' →
    input.TUNameFromEGSource k ≠ input.TUNameFromEGSource k'

theorem SourcesApart.namesApart (h : input.SourcesApart) : NamesApart input := by
  intro k hk k' hk' hne heq
  cases hf : k.definitionFile with
  | some f =>
    rw [name_of_file hf] at heq
    cases hf' : k'.definitionFile with
    | some f' =>
      rw [name_of_file hf', style_replace_inj] at heq
      exact h.files k hk k' hk' hne f f' hf hf' heq
    | none =>
      rw [name_of_label hf', style_replace_eq_iff] at heq
      exact h.mixed k hk k' hk' f hf hf' heq
  | none =>
    rw [name_of_label hf] at heq
    cases hf' : k'.definitionFile with
    | some f' =>
      rw [name_of_file hf', eq_comm, style_replace_eq_iff] at heq
      exact h.mixed k' hk' k hk f' hf' hf heq
    | none =>
      rw [name_of_label hf', List.append_left_inj] at heq
      exact h.labels k hk k' hk' hne hf hf' heq

/-- The object files are different when the names and the stems they are made from are. -/
theorem nodup_build_objects_iff : input.build_objects.Nodup ↔ NamesApart input ∧
    (∀ k ∈ input.keys, input.TUNameFromEGSource k ≠ "runtime".toList) ∧
    (∀ s ∈ input.getCPPSourceCode, ∀ s' ∈ input.getCPPSourceCode, s ≠ s' → s.stem ≠ s'.stem) ∧
    (∀ s ∈ input.getCPPSourceCode, s.stem ≠ "runtime".toList) ∧
    ∀ k ∈ input.keys, ∀ s ∈ input.getCPPSourceCode, input.TUNameFromEGSource k ≠ s.stem := by
  have hruntime : getObjectFile input.getRuntimeSource = getObjectName "runtime".toList := by
    rw [getObjectFile_eq, stem_getRuntimeSource]
  have hunits : (input.keys.map fun chd => getObjectName (input.TUNameFromEGSource chd)).Nodup ↔
      NamesApart input := by
    rw [List.nodup_map_iff_inj_on input.nodup]
    simp only [getObjectName_inj, NamesApart]
    exact forall₂_congr fun k _ => forall₂_congr fun k' _ => not_imp_not.symm
  have hsources : (input.getCPPSourceCode.map getObjectFile).Nodup ↔
      ∀ s ∈ input.getCPPSourceCode, ∀ s' ∈ input.getCPPSourceCode, s ≠ s' → s.stem ≠ s'.stem := by
    rw [List.nodup_map_iff_inj_on input.nodup_getCPPSourceCode]
    simp only [getObjectFile_eq, getObjectName_inj]
    exact forall₂_congr fun s _ => forall₂_congr fun s' _ => not_imp_not.symm
  rw [build_objects, List.nodup_append, hunits, List.nodup_cons, hsources, hruntime]
  simp only [List.mem_map, List.mem_cons, getObjectFile_eq, getObjectName_inj, not_exists, not_and,
    forall_eq_or_imp, forall_exists_index, and_imp, forall_apply_eq_imp_iff₂, ne_eq, imp_and,
    forall_and]
  tauto

end Names

/-- **Main result.** Different keys have different names, and no object file is written twice, exactly
when the names are made from sources that are apart. -/
theorem fileNamesInjective_iff : input.NamesInjective ↔ input.SourcesApart := by
  constructor
  · intro h
    obtain ⟨hnames, hruntime, hstems, hstemRuntime, hunits⟩ := nodup_build_objects_iff.mp h.objects
    refine ⟨?_, ?_, ?_, ?_, hstems, hstemRuntime, ?_, ?_⟩
    · intro k hk k' hk' hne f f' hf hf' halike
      apply hnames k hk k' hk' hne
      rw [name_of_file hf, name_of_file hf', style_replace_inj]
      exact halike
    · intro k hk k' hk' f hf hf' hread
      have hne : k ≠ k' := fun heq => by rw [heq, hf'] at hf; cases hf
      apply hnames k hk k' hk' hne
      rw [name_of_file hf, name_of_label hf', style_replace_eq_iff]
      exact hread
    · intro k hk k' hk' hne hf hf' hlabel
      apply hnames k hk k' hk' hne
      rw [name_of_label hf, name_of_label hf', hlabel]
    · intro k hk f hf hread
      apply hruntime k hk
      rw [name_of_file hf, style_replace_eq_iff]
      exact hread
    · intro s hs k hk f hf hread
      apply hunits k hk s hs
      rw [name_of_file hf, style_replace_eq_iff]
      exact hread
    · intro s hs k hk hf heq
      apply hunits k hk s hs
      rw [name_of_label hf, heq]
  · intro h
    have hnames := h.namesApart
    refine ⟨hnames, nodup_build_objects_iff.mpr
      ⟨hnames, fun k hk heq => ?_, h.stems, h.stem_runtime, fun k hk s hs heq => ?_⟩⟩
    · cases hf : k.definitionFile with
      | some f =>
        rw [name_of_file hf, style_replace_eq_iff] at heq
        exact h.runtime k hk f hf heq
      | none =>
        rw [name_of_label hf] at heq
        exact label_ne_runtime _ heq
    · cases hf : k.definitionFile with
      | some f =>
        rw [name_of_file hf, style_replace_eq_iff] at heq
        exact h.stem_file s hs k hk f hf heq
      | none =>
        rw [name_of_label hf] at heq
        exact h.stem_label s hs k hk hf heq.symm

end BuildInput

/-- Two definition files, `a/b.eg` and `a_b.eg`, in a project without C++ sources. -/
def twoFiles : BuildInput where
  environment := ⟨fun s => ⟨[], s⟩, fun _ file => file⟩
  project := ⟨⟨[], []⟩, none, none, []⟩
  getIdentifier := fun _ => []
  keys := [⟨none, none, some ⟨["a".toList], "b.eg".toList⟩⟩, ⟨none, none, some ⟨[], "a_b.eg".toList⟩⟩]
  nodup := by decide +kernel

/-- Both units are named `a_b`. -/
theorem twoFiles_clash : ¬ twoFiles.NamesInjective := by
  intro h
  have hname : twoFiles.TUNameFromEGSource ⟨none, none, some ⟨["a".toList], "b.eg".toList⟩⟩ =
      twoFiles.TUNameFromEGSource ⟨none, none, some ⟨[], "a_b.eg".toList⟩⟩ := by decide +kernel
  exact h.names _ List.mem_cons_self _ (List.mem_cons_of_mem _ List.mem_cons_self)
    (by decide +kernel) hname

end EgLang.Build
