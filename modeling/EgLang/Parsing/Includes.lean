import EgLang.Library.Unfolding
import Mathlib.Data.List.Sort
import EgLang.Parsing.Grammar

/-!
# Parsing included files

The main files are parsed first. Then every EG file that some parsed file includes is parsed into a
root of its own, in rounds, until a round finds no new path.
-/

namespace EgLang.Parsing

open EgLang.Library

set_option autoImplicit false

/-! ## The session -/

mutual

/-- The paths of the EG includes of an element, at any depth. -/
def Element.egIncludes : Element → List String
  | .inclusion i => if i.isEGInclude then [i.path] else []
  | .context _ es => Parsing.egIncludes es
  | _ => []

def egIncludes : List Element → List String
  | [] => []
  | e :: es => e.egIncludes ++ egIncludes es

end

/-- A finite set of source files: `parseEGSourceFile` for each path and root, where it ends without
an exception, and the `operator<` of paths. -/
structure SourceFiles where
  paths : List String
  less : String → String → Bool
  parse : String → Context → Option Context
  finite : ∀ p c c', parse p c = some c' → p ∈ paths

/-- The exceptions of the session, and the end of the fuel. -/
inductive SessionError
  | outOfFuel
  | parse (path : String)
  | includeNotFound (path : String)
  | undefinedContextType (identifier : String)
  | includeFileProblem
deriving DecidableEq, Repr

/-- `input::Root`, at the top of the session. -/
structure Root where
  includePath : Option String
  context : Context

/-- The roots of the session, and the set `includePaths`. -/
structure Session where
  includePaths : List String
  roots : List Root

/-- The paths that have been parsed into a root of their own, in this order. -/
def Session.parsed (s : Session) : List String := s.roots.filterMap Root.includePath

/-- `many< input::Include >( getMaster() )`, as far as they are EG includes. -/
def Session.included (s : Session) : List String :=
  s.roots.flatMap fun r => egIncludes r.context.elements

section Session
variable (files : SourceFiles)

/-- The root that is constructed for an included file. -/
def includeRoot (path : String) : Context :=
  ⟨⟨true, "", .eUnknown, none, none, [], some path, none, []⟩, []⟩

/-- One round of the inner loop of `handleInputIncludes`. -/
def parseInclude (s : Session) (path : String) : Except SessionError Session :=
  match files.parse path (includeRoot path) with
  | some c => .ok ⟨path :: s.includePaths, s.roots ++ [⟨some path, c⟩]⟩
  | none => .error (.parse path)

/-- `newIncludePaths.insert`. -/
def insertPath (new : List String) (path : String) : List String :=
  if path ∈ new then new else new.orderedInsert (fun a b => files.less a b = true) path

def newIncludePaths (s : Session) : List String :=
  s.included.foldl (fun new path => if path ∈ s.includePaths then new else insertPath files new path) []

/-- The loop of `handleInputIncludes`, which begins with no new path. -/
def includeRounds : ℕ → List String → Session → Except SessionError Session
  | 0, _, _ => .error .outOfFuel
  | fuel + 1, new, s => do
    let s' ← new.foldlM (parseInclude files) s
    let new' := newIncludePaths files s'
    if new' = [] then pure s' else includeRounds fuel new' s'

def handleInputIncludes (fuel : ℕ) (s : Session) : Except SessionError Session :=
  includeRounds files fuel [] s

/-! ## New paths -/

theorem mem_insertPath {new : List String} {p q : String} :
    q ∈ insertPath files new p ↔ q = p ∨ q ∈ new := by
  unfold insertPath
  split
  · rename_i h
    exact ⟨.inr, fun hq => hq.elim (fun heq => heq ▸ h) id⟩
  · rw [List.mem_orderedInsert]

theorem nodup_insertPath {new : List String} {p : String} (h : new.Nodup) :
    (insertPath files new p).Nodup := by
  unfold insertPath
  split
  · exact h
  · rename_i hp
    rw [(List.perm_orderedInsert _ p new).nodup_iff]
    exact List.nodup_cons.mpr ⟨hp, h⟩

theorem foldl_insertPath (known ps new : List String) (hnew : new.Nodup) :
    let result := ps.foldl (fun new p => if p ∈ known then new else insertPath files new p) new
    result.Nodup ∧ ∀ q, q ∈ result ↔ q ∈ new ∨ q ∈ ps ∧ q ∉ known := by
  induction ps generalizing new with
  | nil => simpa using hnew
  | cons p ps ih =>
    rw [List.foldl_cons]
    split
    · rename_i hp
      refine ⟨(ih new hnew).1, fun q => ?_⟩
      rw [(ih new hnew).2 q, List.mem_cons]
      grind
    · rename_i hp
      have h := ih _ (nodup_insertPath files (p := p) hnew)
      refine ⟨h.1, fun q => ?_⟩
      rw [h.2 q, mem_insertPath, List.mem_cons]
      grind

theorem nodup_newIncludePaths (s : Session) : (newIncludePaths files s).Nodup :=
  (foldl_insertPath files s.includePaths s.included [] List.nodup_nil).1

theorem mem_newIncludePaths {s : Session} {p : String} :
    p ∈ newIncludePaths files s ↔ p ∈ s.included ∧ p ∉ s.includePaths := by
  rw [newIncludePaths]
  simpa using (foldl_insertPath files s.includePaths s.included [] List.nodup_nil).2 p

/-! ## Rounds -/

/-- What a round adds: a root for each of the paths. -/
structure Adds (ps : List String) (rs : List Root) (s s' : Session) : Prop where
  roots : s'.roots = s.roots ++ rs
  paths : rs.filterMap Root.includePath = ps
  known : ∀ q, q ∈ s'.includePaths ↔ q ∈ ps ∨ q ∈ s.includePaths
  parsed : ∀ r ∈ rs, ∃ p, r.includePath = some p ∧
    files.parse p (includeRoot p) = some r.context

theorem adds_of_foldlM {ps : List String} {s s' : Session}
    (h : ps.foldlM (parseInclude files) s = .ok s') : ∃ rs, Adds files ps rs s s' := by
  induction ps generalizing s with
  | nil =>
    cases h
    exact ⟨[], by simp, rfl, by simp, by simp⟩
  | cons p ps ih =>
    rw [List.foldlM_cons, except_bind_ok] at h
    obtain ⟨s1, h1, h⟩ := h
    obtain ⟨rs, hrs⟩ := ih h
    unfold parseInclude at h1
    split at h1
    · rename_i c hc
      obtain rfl := Except.ok.inj h1
      refine ⟨⟨some p, c⟩ :: rs, ?_, ?_, fun q => ?_, ?_⟩
      · rw [hrs.roots, List.append_assoc, List.singleton_append]
      · rw [List.filterMap_cons, hrs.paths]
      · rw [hrs.known, List.mem_cons, List.mem_cons]
        tauto
      · rw [List.forall_mem_cons]
        exact ⟨⟨p, rfl, hc⟩, hrs.parsed⟩
    · cases h1

theorem error_of_foldlM {ps : List String} {s : Session} {e : SessionError}
    (h : ps.foldlM (parseInclude files) s = .error e) :
    ∃ p ∈ ps, e = .parse p ∧ files.parse p (includeRoot p) = none := by
  induction ps generalizing s with
  | nil => cases h
  | cons p ps ih =>
    rw [List.foldlM_cons, except_bind_error] at h
    rcases h with h | ⟨s1, -, h⟩
    · unfold parseInclude at h
      split at h
      · cases h
      · rename_i hc
        exact ⟨p, List.mem_cons_self, (Except.error.inj h).symm, hc⟩
    · obtain ⟨q, hq, hparse⟩ := ih h
      exact ⟨q, List.mem_cons_of_mem p hq, hparse⟩

/-! ## What is parsed -/

/-- The paths that are included by a root of the session, or by a file that is included and is not
among the main files. -/
inductive IncludedFrom (s0 : Session) : String → Prop
  | main {p : String} : p ∈ s0.included → IncludedFrom s0 p
  | file {q p : String} {c : Context} : IncludedFrom s0 q → q ∉ s0.includePaths →
      files.parse q (includeRoot q) = some c → p ∈ egIncludes c.elements → IncludedFrom s0 p

/-- The invariant of the rounds that began with `s0` and have added the roots `rs`. -/
structure Handled (s0 s : Session) (rs : List Root) : Prop
    extends Adds files (rs.filterMap Root.includePath) rs s0 s where
  nodup : (rs.filterMap Root.includePath).Nodup
  wanted : ∀ q ∈ rs.filterMap Root.includePath, IncludedFrom files s0 q ∧ q ∉ s0.includePaths

variable {files} {s0 s s' : Session} {rs : List Root}

theorem handled_refl (s0 : Session) : Handled files s0 s0 [] where
  roots := by simp
  paths := rfl
  known := by simp
  parsed := by simp
  nodup := List.nodup_nil
  wanted := by simp

theorem Handled.mem_included (h : Handled files s0 s rs) {p : String} :
    p ∈ s.included ↔ p ∈ s0.included ∨ ∃ r ∈ rs, p ∈ egIncludes r.context.elements := by
  rw [Session.included, Session.included, h.roots, List.flatMap_append, List.mem_append]
  rw [List.mem_flatMap (l := rs)]

theorem Handled.includedFrom (h : Handled files s0 s rs) {p : String} (hp : p ∈ s.included) :
    IncludedFrom files s0 p := by
  rcases h.mem_included.mp hp with hmain | ⟨r, hr, hp⟩
  · exact .main hmain
  · obtain ⟨q, hq, hparse⟩ := h.parsed r hr
    obtain ⟨hfrom, hnot⟩ := h.wanted q (List.mem_filterMap.mpr ⟨r, hr, hq⟩)
    exact .file hfrom hnot hparse hp

/-- **Step lemma.** A round keeps the invariant. -/
theorem Handled.round (h : Handled files s0 s rs) {new : List String} (hnodup : new.Nodup)
    (hnew : ∀ p ∈ new, p ∈ s.included ∧ p ∉ s.includePaths)
    (hround : new.foldlM (parseInclude files) s = .ok s') : ∃ rs', Handled files s0 s' rs' := by
  obtain ⟨rs1, h1⟩ := adds_of_foldlM files hround
  have hfresh : ∀ p ∈ new, p ∉ rs.filterMap Root.includePath ∧ p ∉ s0.includePaths := by
    intro p hp
    have hp' := (hnew p hp).2
    rw [h.known] at hp'
    exact not_or.mp hp'
  refine ⟨rs ++ rs1, ⟨?_, rfl, fun q => ?_, fun r hr => ?_⟩, ?_, fun q hq => ?_⟩
  · rw [h1.roots, h.roots, List.append_assoc]
  · rw [h1.known, h.known, List.filterMap_append, List.mem_append, h1.paths]
    tauto
  · exact (List.mem_append.mp hr).elim (h.parsed r) (h1.parsed r)
  · rw [List.filterMap_append, h1.paths]
    refine h.nodup.append hnodup fun p hp hpnew => ?_
    exact (hfresh p hpnew).1 hp
  · rw [List.filterMap_append, h1.paths, List.mem_append] at hq
    rcases hq with hq | hq
    · exact h.wanted q hq
    · exact ⟨h.includedFrom (hnew q hq).1, (hfresh q hq).2⟩

theorem newIncludePaths_spec (s : Session) :
    ∀ p ∈ newIncludePaths files s, p ∈ s.included ∧ p ∉ s.includePaths :=
  fun _ hp => (mem_newIncludePaths files).mp hp

/-- **Run lemma.** The rounds keep the invariant until no path is new. -/
theorem Handled.rounds (h : Handled files s0 s rs) {n : ℕ} {new : List String}
    (hnodup : new.Nodup) (hnew : ∀ p ∈ new, p ∈ s.included ∧ p ∉ s.includePaths)
    (hrounds : includeRounds files n new s = .ok s') :
    (∃ rs', Handled files s0 s' rs') ∧ newIncludePaths files s' = [] := by
  induction n generalizing new s rs with
  | zero => cases hrounds
  | succ n ih =>
    rw [includeRounds, except_bind_ok] at hrounds
    obtain ⟨s1, h1, hrounds⟩ := hrounds
    obtain ⟨rs1, hs1⟩ := h.round hnodup hnew h1
    dsimp only at hrounds
    split at hrounds
    · rename_i hnone
      obtain rfl := Except.ok.inj hrounds
      exact ⟨⟨rs1, hs1⟩, hnone⟩
    · exact ih hs1 (nodup_newIncludePaths files s1) (newIncludePaths_spec s1) hrounds

theorem Handled.rounds_error (h : Handled files s0 s rs) {n : ℕ} {new : List String}
    (hnodup : new.Nodup) (hnew : ∀ p ∈ new, p ∈ s.included ∧ p ∉ s.includePaths)
    {e : SessionError} (hrounds : includeRounds files n new s = .error e) (he : e ≠ .outOfFuel) :
    ∃ p, e = .parse p ∧ IncludedFrom files s0 p ∧ p ∉ s0.includePaths ∧
      files.parse p (includeRoot p) = none := by
  induction n generalizing new s rs with
  | zero => exact absurd (Except.error.inj hrounds).symm he
  | succ n ih =>
    rw [includeRounds, except_bind_error] at hrounds
    rcases hrounds with hround | ⟨s1, h1, hrounds⟩
    · obtain ⟨p, hp, heq, hparse⟩ := error_of_foldlM files hround
      have hnot := (hnew p hp).2
      rw [h.known, not_or] at hnot
      exact ⟨p, heq, h.includedFrom (hnew p hp).1, hnot.2, hparse⟩
    · obtain ⟨rs1, hs1⟩ := h.round hnodup hnew h1
      dsimp only at hrounds
      split at hrounds
      · cases hrounds
      · exact ih hs1 (nodup_newIncludePaths files s1) (newIncludePaths_spec s1) hrounds

/-! ## The rounds end -/

/-- The number of the files that are not among the paths of the session. -/
def unparsed (files : SourceFiles) (s : Session) : ℕ :=
  (files.paths.toFinset \ s.includePaths.toFinset).card

theorem unparsed_lt {new : List String} (hne : new ≠ [])
    (hnew : ∀ p ∈ new, p ∉ s.includePaths) (h : new.foldlM (parseInclude files) s = .ok s') :
    unparsed files s' < unparsed files s := by
  obtain ⟨rs, hrs⟩ := adds_of_foldlM files h
  obtain ⟨p, hp⟩ := List.exists_mem_of_ne_nil new hne
  obtain ⟨r, hr, hrp⟩ := List.mem_filterMap.mp (hrs.paths ▸ hp)
  obtain ⟨q, hq, hparse⟩ := hrs.parsed r hr
  obtain rfl : q = p := Option.some.inj (hq.symm.trans hrp)
  refine Finset.card_lt_card (Finset.ssubset_iff_of_subset ?_ |>.mpr ⟨q, ?_, ?_⟩)
  · intro x hx
    simp only [Finset.mem_sdiff, List.mem_toFinset, hrs.known, not_or] at hx ⊢
    exact ⟨hx.1, hx.2.2⟩
  · simp only [Finset.mem_sdiff, List.mem_toFinset]
    exact ⟨files.finite _ _ _ hparse, hnew q hp⟩
  · simp only [Finset.mem_sdiff, List.mem_toFinset, hrs.known, not_and, not_not]
    exact fun _ => .inl hp

theorem rounds_ne_outOfFuel {n : ℕ} {new : List String} (hne : new ≠ [])
    (hnew : ∀ p ∈ new, p ∉ s.includePaths) (hn : unparsed files s ≤ n) :
    includeRounds files (n + 1) new s ≠ .error .outOfFuel := by
  induction n generalizing new s with
  | zero =>
    intro h
    rw [includeRounds, except_bind_error] at h
    rcases h with h | ⟨s1, h1, -⟩
    · obtain ⟨p, -, heq, -⟩ := error_of_foldlM files h
      cases heq
    · have := unparsed_lt hne hnew h1
      omega
  | succ n ih =>
    intro h
    rw [includeRounds, except_bind_error] at h
    rcases h with h | ⟨s1, h1, h⟩
    · obtain ⟨p, -, heq, -⟩ := error_of_foldlM files h
      cases heq
    · have hlt := unparsed_lt hne hnew h1
      dsimp only at h
      split at h
      · cases h
      · rename_i hsome
        exact ih hsome (fun p hp => (newIncludePaths_spec s1 p hp).2) (by omega) h

theorem handleInputIncludes_ne_outOfFuel (s0 : Session) :
    handleInputIncludes files (files.paths.length + 2) s0 ≠ .error .outOfFuel := by
  have hle : unparsed files s0 ≤ files.paths.length :=
    (Finset.card_le_card Finset.sdiff_subset).trans (List.toFinset_card_le _)
  change (if newIncludePaths files s0 = [] then pure s0
    else includeRounds files (files.paths.length + 1) _ s0) ≠ _
  split
  · intro h
    cases h
  · rename_i hsome
    exact rounds_ne_outOfFuel hsome (fun p hp => (newIncludePaths_spec s0 p hp).2) hle

/-! ## The result -/

/-- A session in which the main files are parsed. -/
def mainSession (includePaths : List String) (main : Context) : Session :=
  ⟨includePaths, [⟨none, main⟩]⟩

/-- The root of an included file, in the `FileElementMap`. -/
def Session.findFile (s : Session) (path : String) : Option Context :=
  (s.roots.find? fun r => r.includePath = some path).map Root.context

theorem Handled.complete (h : Handled files s0 s rs) (hnone : newIncludePaths files s = [])
    {p : String} (hp : IncludedFrom files s0 p) (hnot : p ∉ s0.includePaths) :
    p ∈ rs.filterMap Root.includePath := by
  have hclosed : ∀ q, q ∈ s.included → q ∉ s0.includePaths →
      q ∈ rs.filterMap Root.includePath := by
    intro q hq hq0
    by_contra hnew
    have hmem : q ∈ newIncludePaths files s := by
      rw [mem_newIncludePaths, h.known, not_or]
      exact ⟨hq, hnew, hq0⟩
    rw [hnone] at hmem
    exact List.not_mem_nil hmem
  induction hp with
  | main hp => exact hclosed _ (h.mem_included.mpr (.inl hp)) hnot
  | @file q p c hq hq0 hparse hp ih =>
    obtain ⟨r, hr, hrq⟩ := List.mem_filterMap.mp (ih hq0)
    obtain ⟨q', hq', hparse'⟩ := h.parsed r hr
    obtain rfl : q' = q := Option.some.inj (hq'.symm.trans hrq)
    obtain rfl : r.context = c := Option.some.inj (hparse'.symm.trans hparse)
    exact hclosed p (h.mem_included.mpr (.inr ⟨r, hr, hp⟩)) hnot

/-- The rounds end with a root for each path that is included and is not a main file, or with the
exception of the parser at such a path. -/
theorem handleInputIncludes_spec (includePaths : List String) (main : Context) :
    let s0 := mainSession includePaths main
    let wanted := fun p => IncludedFrom files s0 p ∧ p ∉ includePaths
    ∃ n, (∃ p, handleInputIncludes files n s0 = .error (.parse p) ∧ wanted p ∧
        files.parse p (includeRoot p) = none) ∨
      ∃ s, handleInputIncludes files n s0 = .ok s ∧ s.parsed.Nodup ∧
        (∀ p, p ∈ s.parsed ↔ wanted p) ∧
        ∀ p ∈ s.parsed, s.findFile p = files.parse p (includeRoot p) := by
  intro s0 wanted
  refine ⟨files.paths.length + 2, ?_⟩
  have hnew : ∀ p ∈ ([] : List String), p ∈ s0.included ∧ p ∉ s0.includePaths := by simp
  cases hres : handleInputIncludes files (files.paths.length + 2) s0 with
  | error e =>
    have he : e ≠ .outOfFuel := by
      rintro rfl
      exact handleInputIncludes_ne_outOfFuel s0 hres
    obtain ⟨p, rfl, hfrom, hnot, hparse⟩ :=
      (handled_refl s0).rounds_error List.nodup_nil hnew hres he
    exact .inl ⟨p, rfl, ⟨hfrom, hnot⟩, hparse⟩
  | ok s =>
    obtain ⟨⟨rs, h⟩, hnone⟩ := (handled_refl s0).rounds List.nodup_nil hnew hres
    have hparsed : s.parsed = rs.filterMap Root.includePath := by
      rw [Session.parsed, h.roots]
      rfl
    refine .inr ⟨s, rfl, ?_, fun p => ?_, fun p hp => ?_⟩
    · rw [hparsed]
      exact h.nodup
    · rw [hparsed]
      exact ⟨h.wanted p, fun hp => h.complete hnone hp.1 hp.2⟩
    · rw [hparsed] at hp
      obtain ⟨r, hr, hrp⟩ := List.mem_filterMap.mp hp
      have hfind : (s.roots.find? fun r => r.includePath = some p).isSome := by
        rw [List.find?_isSome]
        refine ⟨r, ?_, by simpa using hrp⟩
        rw [h.roots]
        exact List.mem_append_right _ hr
      obtain ⟨r', hr'⟩ := Option.isSome_iff_exists.mp hfind
      have hpath : r'.includePath = some p := by simpa using List.find?_some hr'
      have hmem : r' ∈ rs := by
        have hroots := List.mem_of_find?_eq_some hr'
        rw [h.roots] at hroots
        refine (List.mem_append.mp hroots).resolve_left fun hmain => ?_
        rw [List.mem_singleton.mp hmain] at hpath
        cases hpath
      obtain ⟨q, hq, hparse⟩ := h.parsed r' hmem
      obtain rfl : q = p := Option.some.inj (hq.symm.trans hpath)
      rw [Session.findFile, hr', hparse]
      rfl

end Session

end EgLang.Parsing
