import Mathlib.Data.Prod.Lex
import Mathlib.Data.List.Lex
import Mathlib.Data.String.Basic
import EgLang.Library.OrderedMap
import EgLang.Library.RoseTree

/-!
# Translation units

The actions of a program are put into translation units by their coordinator, host and definition
file. The units are the entries of a map whose keys `operator<` compares: by coordinator where both
keys have one, else by host where both have one, else by definition file.
-/

namespace EgLang.Build

open EgLang.Library

set_option autoImplicit false

/-- `IndexedObject`: the objects of a session are told apart by their file and their index in it. -/
structure IndexedObject where
  fileID : ℤ
  index : ℤ
deriving DecidableEq, Repr

/-- `CompareIndexedObjects`. -/
def compareIndexedObjects (left right : IndexedObject) : Bool :=
  if left.fileID ≠ right.fileID then left.fileID < right.fileID else left.index < right.index

def IndexedObject.position (o : IndexedObject) : ℤ ×ₗ ℤ := toLex (o.fileID, o.index)

theorem IndexedObject.position_injective : Function.Injective IndexedObject.position := by
  intro a b h
  obtain ⟨fileID, index⟩ := a
  obtain ⟨fileID', index'⟩ := b
  have hpair : (fileID, index) = (fileID', index') := toLex.injective h
  simpa using hpair

instance IndexedObject.linearOrder : LinearOrder IndexedObject :=
  LinearOrder.lift' IndexedObject.position IndexedObject.position_injective

theorem compareIndexedObjects_iff (a b : IndexedObject) : compareIndexedObjects a b = true ↔ a < b := by
  have hlt : a < b ↔ a.position < b.position := Iff.rfl
  rw [hlt, IndexedObject.position, IndexedObject.position, Prod.Lex.toLex_lt_toLex]
  simp only [compareIndexedObjects]
  split
  · next hne => simp [hne]
  · next heq =>
    simp only [ne_eq, not_not] at heq
    simp [heq]

/-! ## Keys -/

/-- `TranslationUnit::CoordinatorHostnameDefinitionFile`. -/
structure CoordinatorHostnameDefinitionFile (Path : Type) where
  pCoordinator : Option IndexedObject
  pHostName : Option IndexedObject
  definitionFile : Option Path
deriving DecidableEq, Repr

namespace CoordinatorHostnameDefinitionFile
variable {Path : Type} [LinearOrder Path]

/-- `operator<` of two optional paths. -/
def definitionFileLess : Option Path → Option Path → Bool
  | _, none => false
  | none, some _ => true
  | some p, some q => p < q

def hostNameLess (a cmp : CoordinatorHostnameDefinitionFile Path) : Bool :=
  match a.pHostName, cmp.pHostName with
  | some h, some h' =>
    if h ≠ h' then compareIndexedObjects h h'
    else definitionFileLess a.definitionFile cmp.definitionFile
  | _, _ => definitionFileLess a.definitionFile cmp.definitionFile

/-- `operator<`. -/
def less (a cmp : CoordinatorHostnameDefinitionFile Path) : Bool :=
  match a.pCoordinator, cmp.pCoordinator with
  | some c, some c' => if c ≠ c' then compareIndexedObjects c c' else hostNameLess a cmp
  | _, _ => hostNameLess a cmp

/-- The definition file of the first key comes first. -/
def FileBefore (a b : CoordinatorHostnameDefinitionFile Path) : Prop :=
  definitionFileLess a.definitionFile b.definitionFile = true

variable {a b c : CoordinatorHostnameDefinitionFile Path}

theorem FileBefore.asymm (h : FileBefore a b) : ¬ FileBefore b a := by
  intro h'
  unfold FileBefore at h h'
  cases ha : a.definitionFile <;> cases hb : b.definitionFile <;>
    simp only [ha, hb, definitionFileLess, decide_eq_true_eq, Bool.false_eq_true] at h h'
  exact lt_asymm h h'

theorem incomparable_fileBefore_iff :
    Incomparable FileBefore a b ↔ a.definitionFile = b.definitionFile := by
  unfold Incomparable FileBefore
  cases ha : a.definitionFile <;> cases hb : b.definitionFile <;> simp [definitionFileLess]
  exact ⟨fun h => le_antisymm h.2 h.1, fun h => by simp [h]⟩

theorem not_circular_fileBefore : ¬ Circular FileBefore a b c := by
  rintro ⟨hab, hbc, hca⟩
  unfold FileBefore at hab hbc hca
  cases ha : a.definitionFile <;> cases hb : b.definitionFile <;> cases hc : c.definitionFile <;>
    simp only [ha, hb, hc, definitionFileLess, decide_eq_true_eq, Bool.false_eq_true] at hab hbc hca
  exact lt_asymm (hab.trans hbc) hca

theorem hostNameLess_iff (a b : CoordinatorHostnameDefinitionFile Path) :
    hostNameLess a b = true ↔ byPart pHostName FileBefore a b := by
  cases ha : a.pHostName with
  | none => simp [hostNameLess, ha, byPart_of_none_left ha, FileBefore]
  | some h =>
    cases hb : b.pHostName with
    | none => simp [hostNameLess, ha, hb, byPart_of_none_right hb, FileBefore]
    | some h' =>
      rw [byPart_of_some ha hb]
      by_cases hsame : h = h'
      · simp [hostNameLess, ha, hb, hsame, FileBefore]
      · simp [hostNameLess, ha, hb, hsame, compareIndexedObjects_iff]

theorem less_iff (a b : CoordinatorHostnameDefinitionFile Path) :
    less a b = true ↔ byPart pCoordinator (byPart pHostName FileBefore) a b := by
  cases ha : a.pCoordinator with
  | none => simp [less, ha, byPart_of_none_left ha, hostNameLess_iff]
  | some c =>
    cases hb : b.pCoordinator with
    | none => simp [less, ha, hb, byPart_of_none_right hb, hostNameLess_iff]
    | some c' =>
      rw [byPart_of_some ha hb]
      by_cases hsame : c = c'
      · simp [less, ha, hb, hsame, hostNameLess_iff]
      · simp [less, ha, hb, hsame, compareIndexedObjects_iff]

/-- The order of the keys. -/
def KeyLess (a b : CoordinatorHostnameDefinitionFile Path) : Prop :=
  a.less b = true

instance KeyLess.decidable : DecidableRel (@KeyLess Path _) :=
  fun _ _ => inferInstanceAs (Decidable (_ = _))

theorem keyLess_eq : @KeyLess Path _ = byPart pCoordinator (byPart pHostName FileBefore) := by
  funext a b
  exact propext (less_iff a b)

theorem KeyLess.asymm (h : KeyLess a b) : ¬ KeyLess b a := by
  rw [keyLess_eq] at h ⊢
  exact byPart_asymm (fun _ _ => byPart_asymm (fun _ _ => FileBefore.asymm)) h

/-- Two keys are equivalent when they have one definition file and neither the coordinator nor the
host is there in both and differs. -/
theorem incomparable_keyLess_iff : Incomparable KeyLess a b ↔
    ¬ Apart a.pCoordinator b.pCoordinator ∧ ¬ Apart a.pHostName b.pHostName ∧
      a.definitionFile = b.definitionFile := by
  rw [keyLess_eq, incomparable_byPart_iff, incomparable_byPart_iff, incomparable_fileBefore_iff]

/-- Three keys go round in a circle when one of them lacks the coordinator, or the host, that puts the
other two in the opposite order. -/
theorem circular_keyLess_iff : Circular KeyLess a b c ↔
    (Twisted pCoordinator (byPart pHostName FileBefore) a b c ∨
      Twisted pCoordinator (byPart pHostName FileBefore) b c a ∨
      Twisted pCoordinator (byPart pHostName FileBefore) c a b) ∨
    NotApart pCoordinator a b c ∧ (Twisted pHostName FileBefore a b c ∨
      Twisted pHostName FileBefore b c a ∨ Twisted pHostName FileBefore c a b) := by
  have hfile : ¬ Circular FileBefore a b c := not_circular_fileBefore
  rw [keyLess_eq, circular_byPart_iff, circular_byPart_iff]
  simp only [hfile, and_false, or_false]

end CoordinatorHostnameDefinitionFile

/-! ## The units of a program -/

inductive RootType
  | interfaceRoot | file | fileRoot | megaRoot | coordinator | hostName | projectName | subFolder
deriving DecidableEq, Repr

/-- A context or one of its parents, with its `RootType` if it is an `interface::Root`. -/
structure Ancestor where
  object : IndexedObject
  getRootType : Option RootType
deriving DecidableEq, Repr

/-- `Context::getCoordinatorHostname`: the walk from a context up to the root, until a coordinator and
a host have been met. -/
def walkUp (pCoordinator pHostname : Option IndexedObject) :
    List Ancestor → Option IndexedObject × Option IndexedObject
  | [] => (pCoordinator, pHostname)
  | pIter :: parents =>
    if pCoordinator.isSome && pHostname.isSome then (pCoordinator, pHostname)
    else match pIter.getRootType with
      | some .coordinator => walkUp (some pIter.object) pHostname parents
      | some .hostName => walkUp pCoordinator (some pIter.object) parents
      | _ => walkUp pCoordinator pHostname parents

/-- `interface::Context`, with its parents up to the root. -/
structure Context (Path : Type) where
  object : IndexedObject
  getRootType : Option RootType
  parents : List Ancestor
  getDefinitionFile : Option Path
deriving DecidableEq, Repr

namespace Context
variable {Path : Type}

def getCoordinatorHostname (c : Context Path) : Option IndexedObject × Option IndexedObject :=
  walkUp none none (⟨c.object, c.getRootType⟩ :: c.parents)

def key (c : Context Path) : CoordinatorHostnameDefinitionFile Path where
  pCoordinator := c.getCoordinatorHostname.1
  pHostName := c.getCoordinatorHostname.2
  definitionFile := c.getDefinitionFile

end Context

section Analysis
open CoordinatorHostnameDefinitionFile
variable {Path : Type} [LinearOrder Path]

abbrev TranslationUnitMap (Path : Type) :=
  List (CoordinatorHostnameDefinitionFile Path × List (Context Path))

def addAction (pInterfaceAction : Context Path) (translationUnitMap : TranslationUnitMap Path) :
    TranslationUnitMap Path :=
  match OrderedMap.find KeyLess pInterfaceAction.key translationUnitMap with
  | some _ =>
    OrderedMap.modify KeyLess pInterfaceAction.key (List.insert pInterfaceAction) translationUnitMap
  | none => OrderedMap.insert KeyLess pInterfaceAction.key [pInterfaceAction] translationUnitMap

mutual

/-- `InterfaceSession::translationUnitAnalysis_recurse`, on the tree of concrete actions, each of which
stands for its interface action. -/
def translationUnitAnalysis_recurse :
    RoseTree (Context Path) → TranslationUnitMap Path → TranslationUnitMap Path
  | .node pInterfaceAction children, translationUnitMap =>
    recurseChildren children (addAction pInterfaceAction translationUnitMap)

def recurseChildren :
    List (RoseTree (Context Path)) → TranslationUnitMap Path → TranslationUnitMap Path
  | [], translationUnitMap => translationUnitMap
  | child :: children, translationUnitMap =>
    recurseChildren children (translationUnitAnalysis_recurse child translationUnitMap)

end

/-- The map of `InterfaceSession::translationUnitAnalysis`, from which the units are made. -/
def translationUnits (pRoot : RoseTree (Context Path)) : TranslationUnitMap Path :=
  translationUnitAnalysis_recurse pRoot []

/-- Two actions are in one unit. -/
def Together (translationUnitMap : TranslationUnitMap Path) (c c' : Context Path) : Prop :=
  ∃ unit ∈ translationUnitMap, c ∈ unit.2 ∧ c' ∈ unit.2

theorem recurseChildren_eq_foldl (children : List (RoseTree (Context Path)))
    (h : ∀ t ∈ children, ∀ m, translationUnitAnalysis_recurse t m =
      t.labels.foldl (fun m c => addAction c m) m) (m : TranslationUnitMap Path) :
    recurseChildren children m =
      (children.map RoseTree.labels).flatten.foldl (fun m c => addAction c m) m := by
  induction children generalizing m with
  | nil => rfl
  | cons t ts ih =>
    rw [recurseChildren, ih (fun t ht => h t (List.mem_cons_of_mem _ ht)),
      h t List.mem_cons_self, List.map_cons, List.flatten_cons, List.foldl_append]

/-- The actions are added one by one, each before those below it. -/
theorem translationUnitAnalysis_recurse_eq_foldl (t : RoseTree (Context Path))
    (m : TranslationUnitMap Path) :
    translationUnitAnalysis_recurse t m = t.labels.foldl (fun m c => addAction c m) m := by
  induction t using RoseTree.tree_induction generalizing m with
  | step c children ih =>
    rw [translationUnitAnalysis_recurse, recurseChildren_eq_foldl children ih, RoseTree.labels_node,
      List.foldl_cons]

/-! ## What a unit holds -/

/-- Every entry of the map holds the actions of its key, and every action added is in one. -/
structure Grouped (added : List (Context Path)) (m : TranslationUnitMap Path) : Prop where
  key_eq : ∀ unit ∈ m, ∀ c ∈ unit.2, c.key = unit.1
  mem : ∀ c ∈ added, ∃ unit ∈ m, c ∈ unit.2

section Linear
variable {S : Set (CoordinatorHostnameDefinitionFile Path)} {added : List (Context Path)}
  {m : TranslationUnitMap Path} {c : Context Path}

theorem ordered_addAction (hweak : StrictWeakOn KeyLess S) (hc : c.key ∈ S)
    (hm : OrderedMap.Ordered KeyLess S m) : OrderedMap.Ordered KeyLess S (addAction c m) := by
  unfold addAction
  cases hfind : OrderedMap.find KeyLess c.key m with
  | none => exact hm.insert hweak hc _ hfind
  | some e => exact hm.modify hfind

theorem grouped_addAction (hweak : StrictWeakOn KeyLess S) (happart : TellsApart KeyLess S)
    (hc : c.key ∈ S) (hm : OrderedMap.Ordered KeyLess S m) (h : Grouped added m) :
    Grouped (added ++ [c]) (addAction c m) := by
  unfold addAction
  cases hfind : OrderedMap.find KeyLess c.key m with
  | none =>
    refine ⟨fun unit hunit c' hc' => ?_, fun c' hc' => ?_⟩
    · rcases OrderedMap.mem_insert_iff.mp hunit with rfl | hunit
      · rw [List.mem_singleton.mp hc']
      · exact h.key_eq unit hunit c' hc'
    · rcases List.mem_append.mp hc' with hc' | hc'
      · obtain ⟨unit, hunit, hmem⟩ := h.mem c' hc'
        exact ⟨unit, OrderedMap.mem_insert_iff.mpr (.inr hunit), hmem⟩
      · exact ⟨(c.key, [c]), OrderedMap.mem_insert_iff.mpr (.inl rfl), hc'⟩
  | some e =>
    have hkey : e.1 = c.key := OrderedMap.key_of_find happart hm hc hfind
    have hmodify : ∀ e', e' ∈ OrderedMap.modify KeyLess c.key (List.insert c) m ↔
        e' = (e.1, List.insert c e.2) ∨ e' ∈ m ∧ e'.1 ≠ e.1 :=
      fun e' => OrderedMap.mem_modify_iff hweak.irrefl hm hfind
    have he : e ∈ m := OrderedMap.mem_of_find hfind
    refine ⟨fun unit hunit c' hc' => ?_, fun c' hc' => ?_⟩
    · rcases (hmodify unit).mp hunit with rfl | ⟨hunit, -⟩
      · rcases List.mem_insert_iff.mp hc' with rfl | hc'
        · exact hkey.symm
        · exact h.key_eq e he c' hc'
      · exact h.key_eq unit hunit c' hc'
    · rcases List.mem_append.mp hc' with hc' | hc'
      · obtain ⟨unit, hunit, hmem⟩ := h.mem c' hc'
        by_cases hsame : unit.1 = e.1
        · have hunit' : unit = e := OrderedMap.eq_of_key_eq hweak.irrefl hm hunit he hsame
          subst hunit'
          exact ⟨_, (hmodify _).mpr (.inl rfl), List.mem_insert_of_mem hmem⟩
        · exact ⟨unit, (hmodify unit).mpr (.inr ⟨hunit, hsame⟩), hmem⟩
      · rw [List.mem_singleton.mp hc']
        exact ⟨_, (hmodify _).mpr (.inl rfl), List.mem_insert_self⟩

theorem foldl_addAction (hweak : StrictWeakOn KeyLess S) (happart : TellsApart KeyLess S)
    (actions : List (Context Path)) (hactions : ∀ c ∈ actions, c.key ∈ S)
    (hm : OrderedMap.Ordered KeyLess S m) (h : Grouped added m) :
    OrderedMap.Ordered KeyLess S (actions.foldl (fun m c => addAction c m) m) ∧
      Grouped (added ++ actions) (actions.foldl (fun m c => addAction c m) m) := by
  induction actions generalizing m added with
  | nil => simpa using ⟨hm, h⟩
  | cons c actions ih =>
    have hc : c.key ∈ S := hactions c List.mem_cons_self
    have hstep := ih (fun c hc => hactions c (List.mem_cons_of_mem _ hc))
      (ordered_addAction hweak hc hm) (grouped_addAction hweak happart hc hm h)
    rw [List.append_assoc, List.singleton_append] at hstep
    exact hstep

/-- Where the keys are in a strict order, two actions are in one unit just when their keys are equal. -/
theorem together_iff (hweak : StrictWeakOn KeyLess S) (happart : TellsApart KeyLess S)
    (t : RoseTree (Context Path)) (ht : ∀ c ∈ t.labels, c.key ∈ S) {c c' : Context Path}
    (hc : c ∈ t.labels) (hc' : c' ∈ t.labels) :
    Together (translationUnits t) c c' ↔ c.key = c'.key := by
  have hempty : Grouped ([] : List (Context Path)) [] := ⟨by simp, by simp⟩
  obtain ⟨hordered, hgrouped⟩ :=
    foldl_addAction hweak happart t.labels ht OrderedMap.Ordered.nil hempty
  rw [List.nil_append] at hgrouped
  rw [translationUnits, translationUnitAnalysis_recurse_eq_foldl]
  constructor
  · rintro ⟨unit, hunit, hmem, hmem'⟩
    rw [hgrouped.key_eq unit hunit c hmem, hgrouped.key_eq unit hunit c' hmem']
  · intro hkey
    obtain ⟨unit, hunit, hmem⟩ := hgrouped.mem c hc
    obtain ⟨unit', hunit', hmem'⟩ := hgrouped.mem c' hc'
    have hsame : unit.1 = unit'.1 := by
      rw [← hgrouped.key_eq unit hunit c hmem, ← hgrouped.key_eq unit' hunit' c' hmem', hkey]
    have heq : unit = unit' := OrderedMap.eq_of_key_eq hweak.irrefl hordered hunit hunit' hsame
    exact ⟨unit, hunit, hmem, heq ▸ hmem'⟩

end Linear

/-! ## When the keys are ordered -/

/-- The comparison orders the keys of a set, tells them apart as equality does, and so puts two actions
in one unit just when their keys are equal. -/
structure KeysOrdered (S : Set (CoordinatorHostnameDefinitionFile Path)) : Prop where
  weak : StrictWeakOn KeyLess S
  equivalent_iff : ∀ a ∈ S, ∀ b ∈ S, (¬ KeyLess a b ∧ ¬ KeyLess b a) ↔ a = b
  together_iff : ∀ pRoot : RoseTree (Context Path), (∀ c ∈ pRoot.labels, c.key ∈ S) →
    ∀ c ∈ pRoot.labels, ∀ c' ∈ pRoot.labels, Together (translationUnits pRoot) c c' ↔ c.key = c'.key

/-- No missing part hides a difference: different keys differ in the definition file, or in a
coordinator or host both have; and no two keys that their coordinators (or hosts) put in order are put
the other way round by the later parts, by way of a third key that has no coordinator (or host). -/
structure Separated (S : Set (CoordinatorHostnameDefinitionFile Path)) : Prop where
  apart : ∀ a ∈ S, ∀ b ∈ S, a ≠ b → Apart a.pCoordinator b.pCoordinator ∨
    Apart a.pHostName b.pHostName ∨ a.definitionFile ≠ b.definitionFile
  coordinator : ∀ a ∈ S, ∀ b ∈ S, ∀ k ∈ S,
    ¬ Twisted pCoordinator (byPart pHostName FileBefore) a b k
  hostName : ∀ a ∈ S, ∀ b ∈ S, ∀ k ∈ S, NotApart pCoordinator a b k →
    ¬ Twisted pHostName FileBefore a b k

variable {S : Set (CoordinatorHostnameDefinitionFile Path)}

theorem tellsApart_iff : TellsApart KeyLess S ↔ ∀ a ∈ S, ∀ b ∈ S, a ≠ b →
    Apart a.pCoordinator b.pCoordinator ∨ Apart a.pHostName b.pHostName ∨
      a.definitionFile ≠ b.definitionFile := by
  constructor
  · intro h a ha b hb hne
    by_contra hnot
    simp only [not_or, ne_eq, not_not] at hnot
    exact hne ((h a ha b hb).mp (incomparable_keyLess_iff.mpr hnot))
  · intro h a ha b hb
    constructor
    · intro hinc
      by_contra hne
      obtain ⟨hc, hh, hf⟩ := incomparable_keyLess_iff.mp hinc
      exact (h a ha b hb hne).elim hc fun hor => hor.elim hh fun hfile => hfile hf
    · rintro rfl
      exact ⟨fun hless => hless.asymm hless, fun hless => hless.asymm hless⟩

theorem noCircle_iff : NoCircle KeyLess S ↔
    (∀ a ∈ S, ∀ b ∈ S, ∀ k ∈ S, ¬ Twisted pCoordinator (byPart pHostName FileBefore) a b k) ∧
      ∀ a ∈ S, ∀ b ∈ S, ∀ k ∈ S, NotApart pCoordinator a b k →
        ¬ Twisted pHostName FileBefore a b k := by
  constructor
  · intro h
    refine ⟨fun a ha b hb k hk htwist => h a ha b hb k hk ?_,
      fun a ha b hb k hk hnot htwist => h a ha b hb k hk ?_⟩
    · exact circular_keyLess_iff.mpr (.inl (.inl htwist))
    · exact circular_keyLess_iff.mpr (.inr ⟨hnot, .inl htwist⟩)
  · intro h a ha b hb c hc hcircle
    rcases circular_keyLess_iff.mp hcircle with (htwist | htwist | htwist) | ⟨hnot, htwist | htwist | htwist⟩
    · exact h.1 a ha b hb c hc htwist
    · exact h.1 b hb c hc a ha htwist
    · exact h.1 c hc a ha b hb htwist
    · exact h.2 a ha b hb c hc hnot htwist
    · exact h.2 b hb c hc a ha hnot.turn htwist
    · exact h.2 c hc a ha b hb hnot.turn.turn htwist

/-- **Main result.** The keys of a set are ordered consistently exactly when no missing part hides a
difference between them. -/
theorem keysOrdered_iff (S : Set (CoordinatorHostnameDefinitionFile Path)) :
    KeysOrdered S ↔ Separated S := by
  constructor
  · intro h
    have happart : TellsApart KeyLess S := h.equivalent_iff
    obtain ⟨hcoordinator, hhost⟩ := noCircle_iff.mp h.weak.noCircle
    exact ⟨tellsApart_iff.mp happart, hcoordinator, hhost⟩
  · intro h
    have happart : TellsApart KeyLess S := tellsApart_iff.mpr h.apart
    have hweak : StrictWeakOn KeyLess S :=
      (strictWeakOn_iff_noCircle (fun _ _ => KeyLess.asymm) happart).mpr
        (noCircle_iff.mpr ⟨h.coordinator, h.hostName⟩)
    exact ⟨hweak, happart, fun t ht c hc c' hc' => together_iff hweak happart t ht hc hc'⟩

end Analysis

/-! ## A project of two coordinators -/

namespace MegaStructure

def interfaceRoot : Context (List String) := ⟨⟨0, 0⟩, some .interfaceRoot, [], none⟩

def megaRoot : Context (List String) := ⟨⟨0, 1⟩, some .megaRoot, [⟨⟨0, 0⟩, some .interfaceRoot⟩], none⟩

def coordinator (index : ℤ) : Context (List String) :=
  ⟨⟨0, index⟩, some .coordinator, [⟨⟨0, 1⟩, some .megaRoot⟩, ⟨⟨0, 0⟩, some .interfaceRoot⟩], none⟩

def tree : RoseTree (Context (List String)) :=
  .node interfaceRoot [.node megaRoot [.node (coordinator 2) [], .node (coordinator 3) []]]

end MegaStructure

open MegaStructure in
/-- The two coordinators have different keys, and both find the entry of the root, which has no
coordinator at all: their actions without a definition file are in one unit. -/
theorem coordinators_merged :
    ¬ KeysOrdered {k | ∃ c ∈ MegaStructure.tree.labels, Context.key c = k} := by
  intro h
  have htogether : Together (translationUnits tree) (coordinator 2) (coordinator 3) :=
    ⟨(interfaceRoot.key, [coordinator 3, coordinator 2, megaRoot, interfaceRoot]), by decide +kernel⟩
  have hkeys := (h.together_iff tree (fun c hc => ⟨c, hc, rfl⟩) (coordinator 2) (by decide +kernel)
    (coordinator 3) (by decide +kernel)).mp htogether
  exact absurd hkeys (by decide +kernel)

end EgLang.Build
