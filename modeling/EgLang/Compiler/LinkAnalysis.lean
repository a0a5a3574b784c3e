import EgLang.Compiler.Derivation
import EgLang.Compiler.Interface
import EgLang.Library.MergingOrders
import EgLang.Library.StepSystem

/-!
# Link analysis

`LinkAnalysis`: the disjoint sets of contexts, and the groups of links with one name and with targets in
one set.
-/

namespace EgLang.Compiler

open EgLang.Library Relation

set_option autoImplicit false

/-- `ContextSetPtrSet`: the sets that have been allocated, by pointer, and the pointers that are in the
set of sets. -/
structure ContextSets (ι : Type) where
  allocated : ℕ
  contents : ℕ → Finset ι
  sets : List ℕ

/-- What the link analysis throws. -/
inductive LinkFault
  /-- "Link does not have singular link target type" -/
  | notSingular
  /-- "Failed to locate context set for context" -/
  | noContextSet
  /-- `VERIFY_RTE( !pGroup->m_name.empty() )` -/
  | emptyName
deriving DecidableEq, Repr

/-- `LinkGroup`, without its dimension map, which is filled later. -/
structure LinkGroup (ι κ : Type) where
  name : String
  interfaceTargets : List ι
  links : List ι
  concreteTargets : List κ
  concreteLinks : List κ

/-! ## The sets -/

namespace ContextSets
variable {ι : Type} [DecidableEq ι]

/-- `pSet->insert( pContext )`. -/
def insert (s : ContextSets ι) (pSet : ℕ) (pContext : ι) : ContextSets ι :=
  { s with contents := Function.update s.contents pSet (Insert.insert pContext (s.contents pSet)) }

/-- `pContextSet->insert( pSet->begin(), pSet->end() ); sets.erase( pSet );` -/
def merge (s : ContextSets ι) (pContextSet pSet : ℕ) : ContextSets ι :=
  { s with
    contents := Function.update s.contents pContextSet (s.contents pContextSet ∪ s.contents pSet)
    sets := s.sets.erase pSet }

/-- A new set. -/
def construct (s : ContextSets ι) (contexts : List ι) : ContextSets ι where
  allocated := s.allocated + 1
  contents := Function.update s.contents s.allocated contexts.toFinset
  sets := s.sets ++ [s.allocated]

end ContextSets

namespace LinkAnalysis
variable {ι κ : Type} [DecidableEq ι]

/-- `LinkAnalysis::find`. -/
def find (sets : ContextSets ι) (pContext : ι) : Option ℕ :=
  sets.sets.find? fun pSet => pContext ∈ sets.contents pSet

/-- The loop of `addAction` for one base: the sets and `pContextSet`. -/
def addBase (pContext : ι) (state : ContextSets ι × Option ℕ) (pBase : ι) :
    ContextSets ι × Option ℕ :=
  match find state.1 pBase with
  | none => state
  | some pSet =>
    match state.2 with
    | some pContextSet => (state.1.merge pContextSet pSet, some pContextSet)
    | none => (state.1.insert pSet pContext, some pSet)

/-- `LinkAnalysis::addAction`, for a context that is no link. -/
def addAction (I : Interface ι) (sets : ContextSets ι) (pContext : ι) : ContextSets ι :=
  let state := (I.getBaseContexts pContext).foldl (addBase pContext) (sets, find sets pContext)
  match state.2 with
  | some _ => state.1
  | none => state.1.construct (pContext :: I.getBaseContexts pContext)

/-- `LinkAnalysis::calculateSets`. -/
def calculateSets (I : Interface ι) (contexts : List ι) : ContextSets ι :=
  contexts.foldl (fun sets pContext =>
    if (I.getType pContext).isLink then sets else addAction I sets pContext) ⟨0, fun _ => ∅, []⟩

/-! ## The groups -/

/-- `LinkGroup::getLinkTarget`. -/
def getLinkTarget (I : Interface ι) (pLink : ι) : Except LinkFault ι :=
  match I.getBaseContexts pLink with
  | [pTarget] => .ok pTarget
  | _ => .error .notSingular

/-- An entry of `LinkGroupMap`: the name and the set of a group, and a link of it. -/
structure GroupEntry (ι : Type) where
  name : String
  pSet : ℕ
  link : ι

def GroupEntry.key (e : GroupEntry ι) : String × ℕ := (e.name, e.pSet)

/-- The entry of a link in the map. -/
def groupEntry (I : Interface ι) (sets : ContextSets ι) (pLink : ι) : Except LinkFault (GroupEntry ι) := do
  let pBase ← getLinkTarget I pLink
  match find sets pBase with
  | none => throw .noContextSet
  | some pSet => return ⟨I.getIdentifier pLink, pSet, pLink⟩

variable [DecidableEq κ]

/-- The group of a key of the map; `getInstances` finds the instances of a context and of those that
derive from it. The elements of a set are ordered by index. -/
def makeGroup (I : Interface ι) (getInstances : ι → List κ) (sets : ContextSets ι)
    (groupMap : List (GroupEntry ι)) (key : String × ℕ) : Except LinkFault (LinkGroup ι κ) :=
  if key.1 = "" then .error .emptyName
  else
    let interfaceTargets := I.objects.filter fun pContext => pContext ∈ sets.contents key.2
    let links := (groupMap.filter fun e => e.key = key).map GroupEntry.link
    .ok
      { name := key.1
        interfaceTargets := interfaceTargets
        links := links
        concreteTargets := uniquify (interfaceTargets.flatMap getInstances)
        concreteLinks := uniquify (links.flatMap getInstances) }

/-- `LinkAnalysis::calculateGroups`, in the order in which the keys are entered. -/
def calculateGroups (I : Interface ι) (getInstances : ι → List κ) (sets : ContextSets ι)
    (contexts : List ι) : Except LinkFault (List (LinkGroup ι κ)) := do
  let groupMap ← (contexts.filter fun c => (I.getType c).isLink).mapM (groupEntry I sets)
  (uniquify (groupMap.map GroupEntry.key)).mapM (makeGroup I getInstances sets groupMap)

end LinkAnalysis

end EgLang.Compiler
