import EgLang.Compiler.RangeBuilding
import EgLang.Compiler.RangeCode
import EgLang.Library.Nesting

/-!
# The arrays of several ranges

The iterators of an enumeration with several ranges stand in two braced arrays, which are filled up with
empty ranges to the length that all enumerations of an invocation share. The line of an empty range
closes a bracket that is not open: an array is well formed exactly where nothing is filled up.
-/

namespace EgLang.Compiler

open EgLang.Library

set_option autoImplicit false

/-! ## What all nodes have in common -/

namespace Instruction
variable {ε ι : Type} {P : Head ε ι → Prop} {rejects : Operation ε ι → Bool}

/-- What a tree has in all its nodes, it has after elimination. -/
def Keeps (P : Head ε ι → Prop) (rejects : Operation ε ι → Bool) (t : Instruction ε ι) : Prop :=
  ∀ r, eliminateWith rejects t = .ok r → Every P r.2

theorem keeps_nested {pruning : Bool} {as : List (Instruction ε ι)} (h : ∀ a ∈ as, Keeps P rejects a)
    {rs : List (Elimination × Instruction ε ι)} (hrs : eliminateNested rejects pruning as = .ok rs) :
    ∀ r ∈ rs, Every P r.2 := by
  induction as generalizing rs with
  | nil =>
    rw [eliminateNested] at hrs
    rw [← Except.ok.inj hrs]
    simp
  | cons a as ih =>
    rw [List.forall_mem_cons] at h
    cases a with
    | node head children =>
      rw [eliminateNested] at hrs
      generalize (if pruning = true then head.isPrune else head.isElimination) = same at hrs
      cases same with
      | true => cases hrs
      | false =>
        rw [if_neg Bool.false_ne_true] at hrs
        obtain ⟨r, hr, hrs⟩ := except_bind_ok.mp hrs
        split at hrs
        · cases hrs
        · obtain ⟨rest, hrest, hrs⟩ := except_bind_ok.mp hrs
          rw [← Except.ok.inj hrs]
          exact List.forall_mem_cons.mpr ⟨h.1 r hr, ih h.2 hrest⟩

theorem mem_of_withOutcome {o : Elimination} {rs : List (Elimination × Instruction ε ι)}
    {t : Instruction ε ι} (h : t ∈ withOutcome o rs) : ∃ r ∈ rs, r.2 = t := by
  obtain ⟨r, hr, rfl⟩ := List.mem_map.mp h
  exact ⟨r, (List.mem_filter.mp hr).1, rfl⟩

theorem keeps_group (hP : P .elimination) {e : Elimination}
    {rs : List (Elimination × Instruction ε ι)} (h : ∀ r ∈ rs, Every P r.2) :
    Every P (eliminateGroup e rs).2 := by
  have hmem : ∀ o, ∀ t ∈ withOutcome o rs, Every P t := by
    intro o t ht
    obtain ⟨r, hr, rfl⟩ := mem_of_withOutcome ht
    exact h r hr
  rw [eliminateGroup]
  split
  · refine .node hP fun t ht => ?_
    rcases List.mem_append.mp ht with ht | ht
    · exact hmem _ t ht
    · exact hmem _ t ht
  · cases hs : withOutcome .eSuccess rs with
    | nil => exact .node hP fun _ hc => absurd hc List.not_mem_nil
    | cons t ts => exact hmem .eSuccess t (by rw [hs]; exact List.mem_cons_self)

theorem keeps_prune (hP : P .prune) {size : ℕ} {e : Elimination}
    {rs : List (Elimination × Instruction ε ι)} (h : ∀ r ∈ rs, Every P r.2)
    {r : Elimination × List (Instruction ε ι)} (hr : pruneGroup size e rs = .ok r) :
    ∀ t ∈ r.2, Every P t := by
  rw [pruneGroup] at hr
  split at hr
  · rw [← Except.ok.inj hr]
    intro t ht
    rw [List.mem_singleton.mp ht]
    exact .node hP fun _ hc => absurd hc List.not_mem_nil
  · split at hr
    · rw [← Except.ok.inj hr]
      intro t ht
      obtain ⟨r', hr', rfl⟩ := mem_of_withOutcome ht
      exact h r' hr'
    · cases hr

theorem keeps_children (hE : P .elimination) (hP : P .prune) {cs : List (Instruction ε ι)}
    (h : ∀ c ∈ cs, Every P c ∧ Keeps P rejects c ∧ ∀ a ∈ c.children, Keeps P rejects a) {size : ℕ}
    {e : Elimination} {r : Elimination × List (Instruction ε ι)}
    (hr : eliminateChildren rejects size e cs = .ok r) : ∀ t ∈ r.2, Every P t := by
  induction cs generalizing e r with
  | nil =>
    rw [eliminateChildren] at hr
    rw [← Except.ok.inj hr]
    simp
  | cons c cs ih =>
    rw [List.forall_mem_cons] at h
    obtain ⟨⟨hevery, hkeeps, hnested⟩, h⟩ := h
    cases c with
    | node head children =>
      rw [eliminateChildren] at hr
      split at hr
      · obtain ⟨nested, hn, hr⟩ := except_bind_ok.mp hr
        dsimp only at hr
        obtain ⟨rest, hrest, hr⟩ := except_bind_ok.mp hr
        rw [← Except.ok.inj hr]
        exact List.forall_mem_cons.mpr ⟨keeps_group hE (keeps_nested hnested hn), ih h hrest⟩
      · split at hr
        · obtain ⟨rest, hrest, hr⟩ := except_bind_ok.mp hr
          rw [← Except.ok.inj hr]
          exact List.forall_mem_cons.mpr ⟨hevery, ih h hrest⟩
        · split at hr
          · obtain ⟨nested, hn, hr⟩ := except_bind_ok.mp hr
            obtain ⟨group, hgroup, hr⟩ := except_bind_ok.mp hr
            obtain ⟨rest, hrest, hr⟩ := except_bind_ok.mp hr
            rw [← Except.ok.inj hr]
            refine List.forall_mem_append.mpr ⟨?_, ih h hrest⟩
            exact keeps_prune hP (keeps_nested hnested hn) hgroup
          · obtain ⟨child, hchild, hr⟩ := except_bind_ok.mp hr
            obtain ⟨rest, hrest, hr⟩ := except_bind_ok.mp hr
            rw [← Except.ok.inj hr]
            exact List.forall_mem_cons.mpr ⟨hkeeps child hchild, ih h hrest⟩

/-- **Elimination** makes no nodes but groups. -/
theorem every_eliminateWith (hE : P .elimination) (hP : P .prune) {t : Instruction ε ι}
    (h : Every P t) : Keeps P rejects t ∧ ∀ a ∈ t.children, Keeps P rejects a := by
  induction h with
  | @node head children hhead hchildren ih =>
    refine ⟨fun r hr => ?_, fun a ha => (ih a ha).1⟩
    rw [eliminateWith] at hr
    split at hr
    · rw [← Except.ok.inj hr]
      exact .node hhead hchildren
    · cases hc : eliminateChildren rejects children.length .eSuccess children with
      | error e =>
        rw [hc] at hr
        cases hr
      | ok s =>
        rw [hc] at hr
        rw [← Except.ok.inj hr]
        exact .node hhead (keeps_children hE hP (fun c hmem => ⟨hchildren c hmem, ih c hmem⟩) hc)

/-- The nodes of the operations of a tree. -/
theorem every_operations {t : Instruction ε ι} (h : Every P t) :
    (∀ op ∈ t.getOperations, P (.operation op)) ∧ ∀ op ∈ operationsOf [t], P (.operation op) := by
  induction h with
  | @node head children hhead hchildren ih =>
    have hall : ∀ cs : List (Instruction ε ι), (∀ c ∈ cs, c ∈ children) →
        ∀ op ∈ operationsOf cs, P (.operation op) := by
      intro cs
      induction cs with
      | nil => exact fun _ op hop => absurd hop List.not_mem_nil
      | cons c cs ihc =>
        intro hsub op hop
        rw [List.forall_mem_cons] at hsub
        rw [← List.singleton_append, operationsOf_append] at hop
        rcases List.mem_append.mp hop with hop | hop
        · exact (ih c hsub.1).2 op hop
        · exact ihc hsub.2 op hop
    have hbelow := hall children fun _ hc => hc
    refine ⟨hbelow, fun op hop => ?_⟩
    cases head with
    | operation own =>
      obtain rfl := List.mem_singleton.mp (by simpa [operationsOf] using hop)
      exact hhead
    | _ => exact hbelow op (by simpa [operationsOf, getOperations] using hop)

end Instruction

/-! ## The operations of a range -/

namespace Invocation
variable {ι κ : Type} {session : Session ι κ} {rangeType : RangeType}

/-- An operation is a range of a type. -/
def Ranged (rangeType : RangeType) (head : Head (Option κ) (Option ι)) : Prop :=
  ∀ op, head = .operation op → op.type = .range rangeType

theorem deriveEnum_ranged {path : List κ} {pVariable : Variable κ} {n : ℕ}
    {heads : List (Head (Option κ) (Option ι))} {r : Variable κ × ℕ}
    (h : deriveEnum session path pVariable n = some (heads, r)) :
    ∀ head ∈ heads, Ranged rangeType head := by
  induction path generalizing pVariable n heads r with
  | nil =>
    rw [deriveEnum] at h
    rw [← (Prod.mk.inj (Option.some.inj h)).1]
    simp
  | cons e path ih =>
    rw [deriveEnum] at h
    split at h
    · obtain ⟨rest, hrest, hr⟩ := Option.map_eq_some_iff.mp h
      rw [← (Prod.mk.inj hr).1]
      exact List.forall_mem_cons.mpr ⟨(fun op hop => by cases hop), ih hrest⟩
    · cases h

theorem nestAll_ranged {heads : List (Head (Option κ) (Option ι))} {ts : List (Tree ι κ)}
    (hheads : ∀ head ∈ heads, Ranged rangeType head)
    (hts : ∀ t ∈ ts, Instruction.Every (Ranged rangeType) t) :
    ∀ t ∈ Instruction.nestAll heads ts, Instruction.Every (Ranged rangeType) t := by
  induction heads with
  | nil => exact hts
  | cons head heads ih =>
    rw [List.forall_mem_cons] at hheads
    intro t ht
    rw [List.mem_singleton.mp ht]
    exact .node hheads.1 (ih hheads.2)

variable {nodes : NameResolution.Nodes ι κ}

theorem buildRanges_every {P : Head (Option κ) (Option ι) → Prop}
    {build : Name ι κ → ℕ → Except InvocationFault (List (Tree ι κ) × ℕ)}
    (h : ∀ next n r, build next n = .ok r → ∀ t ∈ r.1, Instruction.Every P t) {children : List ℕ}
    {n : ℕ} {r : List (Tree ι κ) × ℕ} (hr : buildRanges nodes build children n = .ok r) :
    ∀ t ∈ r.1, Instruction.Every P t := by
  induction children generalizing n r with
  | nil =>
    rw [buildRanges] at hr
    rw [← Except.ok.inj hr]
    simp
  | cons index children ih =>
    rw [buildRanges] at hr
    split at hr
    · cases hr
    · obtain ⟨ts, hts, hr⟩ := except_bind_ok.mp hr
      obtain ⟨us, hus, hr⟩ := except_bind_ok.mp hr
      rw [← Except.ok.inj hr]
      exact List.forall_mem_append.mpr ⟨h _ _ _ hts, ih hus⟩

theorem buildEach_every {P : Head (Option κ) (Option ι) → Prop}
    {build : Name ι κ → ℕ → Except InvocationFault (Tree ι κ × ℕ)}
    (h : ∀ next n r, build next n = .ok r → Instruction.Every P r.1) {children : List ℕ} {n : ℕ}
    {r : List (Tree ι κ) × ℕ} (hr : buildEach nodes build children n = .ok r) :
    ∀ t ∈ r.1, Instruction.Every P t := by
  induction children generalizing n r with
  | nil =>
    rw [buildEach] at hr
    rw [← Except.ok.inj hr]
    simp
  | cons index children ih =>
    rw [buildEach] at hr
    split at hr
    · cases hr
    · obtain ⟨t, ht, hr⟩ := except_bind_ok.mp hr
      obtain ⟨us, hus, hr⟩ := except_bind_ok.mp hr
      rw [← Except.ok.inj hr]
      exact List.forall_mem_cons.mpr ⟨h _ _ _ ht, ih hus⟩

variable [DecidableEq κ]

/-- The builder makes no operations but ranges. -/
theorem buildEnum_ranged {depth : ℕ} {prev current : Name ι κ} {pVariable : Variable κ} {n : ℕ}
    {r : List (Tree ι κ) × ℕ}
    (h : buildEnum session (operationOf rangeType) nodes depth prev current pVariable n = .ok r) :
    ∀ t ∈ r.1, Instruction.Every (Ranged rangeType) t := by
  induction depth generalizing prev current pVariable n r with
  | zero => cases h
  | succ depth ih =>
    rw [buildEnum] at h
    split at h
    · cases h
    · split at h
      · cases h
      · split at h
        · cases h
        · rename_i heads v n' hderive
          have hheads : ∀ head ∈ heads, Ranged rangeType head := by
            rw [targetDerivation] at hderive
            split at hderive
            · exact deriveEnum_ranged hderive
            · cases hderive
          split at h
          · rw [buildRange_eq] at h
            rw [← Except.ok.inj h]
            refine nestAll_ranged hheads fun t ht => ?_
            rw [List.mem_singleton.mp ht]
            refine .node (fun op hop => ?_) fun _ hc => absurd hc List.not_mem_nil
            rw [← Head.operation.inj hop]
          · obtain ⟨ts, hts, h⟩ := except_bind_ok.mp h
            rw [← Except.ok.inj h]
            exact nestAll_ranged hheads (buildRanges_every (fun _ _ _ => ih) hts)

theorem buildRangeRoot_ranged {pVariable : ReferenceVariable (Option κ)} {n : ℕ}
    {r : List (Tree ι κ) × ℕ}
    (h : buildRangeRoot session (operationOf rangeType) nodes pVariable n = .ok r) :
    ∀ t ∈ r.1, Instruction.Every (Ranged rangeType) t := by
  have hnone : ∀ {head : Head (Option κ) (Option ι)}, (∀ op, head ≠ .operation op) →
      Ranged rangeType head := fun hne op hop => absurd hop (hne op)
  have heach : ∀ (head : ReferenceVariable (Option κ) → Variable κ → Head (Option κ) (Option ι)),
      (∀ v w op, head v w ≠ .operation op) → ∀ (next : Name ι κ) n r,
        buildEnumeration session (operationOf rangeType) nodes head pVariable next n = .ok r →
          Instruction.Every (Ranged rangeType) r.1 := by
    intro head hhead next n r hr
    obtain ⟨ts, hts, hr⟩ := except_bind_ok.mp hr
    rw [← Except.ok.inj hr]
    refine .node (hnone fun op => hhead _ _ op) fun c hc => ?_
    rw [List.mem_singleton.mp hc]
    refine .node (hnone fun op hop => by cases hop) fun c hc => ?_
    rw [List.mem_singleton.mp hc]
    exact .node (hnone fun op hop => by cases hop)
      (buildRanges_every (fun _ _ _ => buildEnum_ranged) hts)
  rw [buildRangeRoot] at h
  split at h
  · cases h
  · split at h
    · obtain ⟨cases', hcases, h⟩ := except_bind_ok.mp h
      rw [← Except.ok.inj h]
      intro t ht
      rw [List.mem_singleton.mp ht]
      exact .node (hnone fun op hop => by cases hop)
        (buildEach_every (heach .polyCase fun v w op hop => by cases hop) hcases)
    · exact buildEach_every (heach .monoReference fun v w op hop => by cases hop) h

end Invocation

/-! ## Text -/

namespace Codegen

/-- The brackets of code. -/
def codeBrackets : Brackets Char Char where
  opens c := if c = '(' ∨ c = '[' ∨ c = '\x7b' then some c else none
  closes c :=
    if c = ')' then some '(' else if c = ']' then some '[' else if c = '\x7d' then some '\x7b' else none

/-- The code of some lines, without the comments. -/
def codeOf (lines : List Line) : List Char := lines.flatMap fun line => line.code.toList ++ ['\n']

/-- A text without blanks and ends of lines. -/
def dense (text : List Char) : List Char := text.filter fun c => c ≠ ' ' ∧ c ≠ '\n'

/-- An array of iterators: its brackets match, and it has as many elements as all arrays of the
invocation, first its own ones and then empty ranges. -/
structure WellFormedArray (iMaxRanges : ℕ) (own : List String) (lines : List Line) : Prop where
  balanced : codeBrackets.Balanced (codeOf lines)
  elements : ∃ padded : List String, padded.length = iMaxRanges ∧
    padded = own ++ List.replicate (iMaxRanges - own.length) "IterType( 0, 0, 0 )" ∧
      dense (codeOf lines) =
        dense ('\x7b' :: padded.flatMap (fun e => e.toList ++ [',']) ++ ['\x7d', ';'])

theorem codeOf_append (lines lines' : List Line) :
    codeOf (lines ++ lines') = codeOf lines ++ codeOf lines' := List.flatMap_append

theorem codeOf_cons (line : Line) (lines : List Line) :
    codeOf (line :: lines) = line.code.toList ++ ['\n'] ++ codeOf lines := List.flatMap_cons

theorem dense_append (text text' : List Char) :
    dense (text ++ text') = dense text ++ dense text' := List.filter_append ..

theorem balanced_digits (n : ℕ) : codeBrackets.Balanced (toString n).toList := by
  refine Brackets.balanced_of_plain fun c hc => ?_
  have hdigit : c.isDigit = true := by
    have hmem : c ∈ Nat.toDigits 10 n := by simpa [Nat.repr, toString] using hc
    exact Nat.isDigit_of_mem_toDigits (by decide) (by decide) hmem
  have hne : ∀ d : Char, d.isDigit = false → c ≠ d := by
    rintro d hd rfl
    rw [hdigit] at hd
    cases hd
  simp [codeBrackets, hne]

theorem balanced_integer (z : ℤ) : codeBrackets.Balanced (toString z).toList := by
  cases z with
  | ofNat n => exact balanced_digits n
  | negSucc n =>
    have hminus : (toString (Int.negSucc n)).toList = '-' :: (toString (n + 1)).toList := by
      simp [toString, Int.repr]
    rw [hminus, ← List.singleton_append]
    exact Brackets.Balanced.append rfl (balanced_digits (n + 1))

theorem balanced_indent (strIndent : ℕ) : codeBrackets.Balanced (indent strIndent).toList := by
  refine Brackets.balanced_of_plain fun c hc => ?_
  rw [indent, String.toList_ofList] at hc
  rw [List.eq_of_mem_replicate hc]
  exact ⟨rfl, rfl⟩

theorem dense_indent (strIndent : ℕ) : dense (indent strIndent).toList = [] := by
  rw [indent, String.toList_ofList, dense, List.filter_eq_nil_iff]
  intro c hc
  rw [List.eq_of_mem_replicate hc]
  decide

theorem InstanceExpr.balanced_text (expr : InstanceExpr) : codeBrackets.Balanced expr.text.toList := by
  induction expr with
  | context => rfl
  | quotient expr localDomainSize ih =>
    have hopen : ∀ stack, codeBrackets.scan "( ".toList stack = some ('(' :: stack) := fun _ => rfl
    have hclose : ∀ stack, codeBrackets.scan " ) / ".toList ('(' :: stack) = some stack := fun _ => rfl
    rw [text]
    simp only [Brackets.Balanced, String.toList_append, Brackets.scan_append, hopen, hclose, ih.scan,
      (balanced_digits localDomainSize).scan, Option.bind_some]

/-- What stands between the parts of an iterator that vary. -/
theorem scan_fixed (stack : List Char) :
    codeBrackets.scan "IterType( ( ".toList stack = some ('(' :: '(' :: stack) ∧
      codeBrackets.scan ", ( ".toList stack = some ('(' :: stack) ∧
      codeBrackets.scan " + 1 ) * ".toList ('(' :: stack) = some stack ∧
      codeBrackets.scan ", static_cast< eg::TypeID >( ".toList stack = some ('(' :: stack) ∧
      codeBrackets.scan " ) )".toList ('(' :: '(' :: stack) = some stack := by
  have hopen : codeBrackets.scan "IterType( ( ".toList [] = some ['(', '('] := by decide +kernel
  have hagain : codeBrackets.scan ", ( ".toList [] = some ['('] := by decide +kernel
  have hplus : codeBrackets.scan " + 1 ) * ".toList ['('] = some [] := by decide +kernel
  have hcast : codeBrackets.scan ", static_cast< eg::TypeID >( ".toList [] = some ['('] := by
    decide +kernel
  have hclose : codeBrackets.scan " ) )".toList ['(', '('] = some [] := by decide +kernel
  exact ⟨Brackets.scan_under hopen stack, Brackets.scan_under hagain stack,
    Brackets.scan_under hplus stack, Brackets.scan_under hcast stack, Brackets.scan_under hclose stack⟩

theorem balanced_beginIterator (expr : InstanceExpr) (target : RangeTarget) :
    codeBrackets.Balanced (beginIterator expr target).toList := by
  have htimes : codeBrackets.Balanced " * ".toList := by decide +kernel
  have hminus : codeBrackets.scan " ) - 1U, ( ".toList ['(', '('] = some ['(', '('] := by
    decide +kernel
  unfold beginIterator Brackets.Balanced
  simp only [String.toList_append, Brackets.scan_append, (scan_fixed _).1, expr.balanced_text.scan,
    htimes.scan, (balanced_digits target.szDomainMultiplier).scan, hminus, (scan_fixed _).2.2.1,
    (scan_fixed _).2.2.2.1, (balanced_integer target.index).scan, (scan_fixed _).2.2.2.2,
    Option.bind_some]

theorem balanced_endIterator (expr : InstanceExpr) (target : RangeTarget) :
    codeBrackets.Balanced (endIterator expr target).toList := by
  unfold endIterator Brackets.Balanced
  simp only [String.toList_append, Brackets.scan_append, (scan_fixed _).1, expr.balanced_text.scan,
    (balanced_digits target.szDomainMultiplier).scan, (scan_fixed _).2.1, (scan_fixed _).2.2.1,
    (scan_fixed _).2.2.2.1, (balanced_integer target.index).scan, (scan_fixed _).2.2.2.2,
    Option.bind_some]

/-! ## One array -/

section Array
variable {strIndent iMaxRanges : ℕ} {iterator : RangeTarget → String} {targets : List RangeTarget}

/-- The lines of the ranges of an array. -/
def ownLines (strIndent : ℕ) (iterator : RangeTarget → String) (targets : List RangeTarget) :
    List Line :=
  targets.map fun target =>
    ⟨indent strIndent ++ "    " ++ iterator target ++ ", ", some target.friendlyName⟩

theorem balanced_ownLines
    (hiterator : ∀ target, codeBrackets.Balanced (iterator target).toList) :
    codeBrackets.Balanced (codeOf (ownLines strIndent iterator targets)) := by
  refine Brackets.balanced_flatMap fun line hline => ?_
  obtain ⟨target, -, rfl⟩ := List.mem_map.mp hline
  simp only [String.toList_append]
  have hblanks : codeBrackets.Balanced "    ".toList := rfl
  have hcomma : codeBrackets.Balanced ", ".toList := rfl
  have hnewline : codeBrackets.Balanced ['\n'] := rfl
  exact ((((balanced_indent strIndent).append hblanks).append (hiterator target)).append
    hcomma).append hnewline

theorem dense_ownLines : dense (codeOf (ownLines strIndent iterator targets)) =
    dense ((targets.map iterator).flatMap fun e => e.toList ++ [',']) := by
  induction targets with
  | nil => rfl
  | cons target targets ih =>
    rw [ownLines, List.map_cons, codeOf_cons, dense_append, ← ownLines, ih, List.map_cons,
      List.flatMap_cons, dense_append, dense_append, dense_append]
    have hblanks : dense "    ".toList = [] := rfl
    have hcomma : dense ", ".toList ++ dense ['\n'] = dense [','] := rfl
    simp only [String.toList_append, dense_append, dense_indent, hblanks, List.nil_append,
      List.append_assoc]
    rw [← hcomma, List.append_assoc]

theorem codeOf_iteratorArray : codeOf (iteratorArray strIndent iMaxRanges iterator targets) =
    (indent strIndent).toList ++ ['\x7b', '\n'] ++ codeOf (ownLines strIndent iterator targets) ++
      codeOf (List.replicate (iMaxRanges - targets.length) (padding strIndent)) ++
        ((indent strIndent).toList ++ ['\x7d', ';', '\n']) := by
  rw [iteratorArray, codeOf_append, List.cons_append, codeOf_cons, codeOf_append]
  simp [Line.plain, codeOf, ownLines]

/-- An empty range closes a bracket of another kind. -/
theorem scan_padding (lines : List Line) :
    codeBrackets.scan (codeOf (padding strIndent :: lines)) ['\x7b'] = none := by
  have hpadding : codeBrackets.scan "    IterType( 0, 0, 0 ) ),".toList ['\x7b'] = none := rfl
  rw [codeOf_cons, padding, Line.plain]
  simp only [String.toList_append, Brackets.scan_append, (balanced_indent strIndent).scan,
    Option.bind_some, hpadding, Option.bind_none]

/-- An array is well formed exactly where it is not filled up. -/
theorem wellFormedArray_iff (hiterator : ∀ target, codeBrackets.Balanced (iterator target).toList)
    (hmax : targets.length ≤ iMaxRanges) :
    WellFormedArray iMaxRanges (targets.map iterator)
        (iteratorArray strIndent iMaxRanges iterator targets) ↔ targets.length = iMaxRanges := by
  have hopen : codeBrackets.scan ['\x7b', '\n'] [] = some ['\x7b'] := rfl
  have hclose : codeBrackets.scan ['\x7d', ';', '\n'] ['\x7b'] = some [] := rfl
  have hown := @balanced_ownLines strIndent _ targets hiterator
  constructor
  · intro h
    by_contra hne
    obtain ⟨more, hmore⟩ : ∃ more, iMaxRanges - targets.length = more + 1 :=
      ⟨iMaxRanges - targets.length - 1, by omega⟩
    have hbalanced := h.balanced
    rw [Brackets.Balanced, codeOf_iteratorArray, hmore, List.replicate_succ] at hbalanced
    simp only [Brackets.scan_append, (balanced_indent strIndent).scan, Option.bind_some, hopen,
      hown.scan, scan_padding, Option.bind_none] at hbalanced
    cases hbalanced
  · intro h
    have hnone : iMaxRanges - targets.length = 0 := by omega
    refine ⟨?_, targets.map iterator, by rw [List.length_map, h], ?_, ?_⟩
    · rw [Brackets.Balanced, codeOf_iteratorArray, hnone, List.replicate_zero]
      have hnil : codeOf [] = [] := rfl
      simp only [Brackets.scan_append, (balanced_indent strIndent).scan, Option.bind_some, hopen,
        hown.scan, hclose, hnil, Brackets.scan_nil]
    · rw [List.length_map, hnone, List.replicate_zero, List.append_nil]
    · have hnil : dense (codeOf []) = [] := rfl
      have hopened : dense ['\x7b', '\n'] = dense ['\x7b'] := rfl
      have hclosed : dense ['\x7d', ';', '\n'] = dense ['\x7d', ';'] := rfl
      have hcons : ∀ text, dense ('\x7b' :: text) = dense ['\x7b'] ++ dense text := fun text => by
        rw [← List.singleton_append, dense_append]
      rw [codeOf_iteratorArray, hnone, List.replicate_zero, List.cons_append, hcons]
      simp only [dense_append, dense_indent, dense_ownLines, hnil, hopened, hclosed, List.nil_append,
        List.append_assoc]

end Array
end Codegen

/-! ## The enumerations of a tree -/

namespace Instruction
variable {ι κ : Type}

theorem every_enumerations {P : Head (Option κ) (Option ι) → Prop}
    {t : Instruction (Option κ) (Option ι)} (h : Every P t) :
    ∀ ins ∈ t.enumerations, ∀ op ∈ ins.operations, P (.operation op) := by
  induction h with
  | @node head children hhead hchildren ih =>
    have hall : ∀ cs : List (Instruction (Option κ) (Option ι)), (∀ c ∈ cs, c ∈ children) →
        ∀ ins ∈ enumerationsOf cs, ∀ op ∈ ins.operations, P (.operation op) := by
      intro cs
      induction cs with
      | nil => exact fun _ ins hins => absurd hins List.not_mem_nil
      | cons c cs ihc =>
        intro hsub ins hins
        rw [List.forall_mem_cons] at hsub
        rw [enumerationsOf] at hins
        rcases List.mem_append.mp hins with hins | hins
        · exact ih c hsub.1 ins hins
        · exact ihc hsub.2 ins hins
    cases head with
    | enumeration pContext returnTypes iMaxRanges =>
      intro ins hins op hop
      obtain rfl := List.mem_singleton.mp (by simpa [enumerations] using hins)
      exact (every_operations (.node hhead hchildren)).1 op hop
    | _ =>
      intro ins hins
      exact hall children (fun _ hc => hc) ins (by simpa [enumerations] using hins)

/-- The enumerations with their return types and their number of ranges. -/
theorem enumerations_setRanges (returnTypes : List (Option ι)) (iMaxRanges : ℕ)
    (t : Instruction (Option κ) (Option ι)) :
    (setRanges returnTypes iMaxRanges t).enumerations = t.enumerations.map fun ins =>
      ⟨ins.pContext, returnTypes, iMaxRanges, ins.operations⟩ := by
  induction t using tree_induction with
  | step head children ih =>
    have hall : enumerationsOf (setRangesOf returnTypes iMaxRanges children) =
        (enumerationsOf children).map fun ins =>
          ⟨ins.pContext, returnTypes, iMaxRanges, ins.operations⟩ := by
      induction children with
      | nil => rfl
      | cons c cs ihc =>
        rw [List.forall_mem_cons] at ih
        rw [setRangesOf, enumerationsOf, ih.1, ihc ih.2, enumerationsOf, List.map_append]
    cases head <;> simp [setRanges, enumerations, hall]

/-- The number of ranges is the largest one of an enumeration, and one at least. -/
theorem maxOperations_spec (t : Instruction (Option κ) (Option ι)) :
    (∀ ins ∈ t.enumerations, ins.operations.length ≤ t.maxOperations) ∧
      (t.maxOperations = 1 ∨ ∃ ins ∈ t.enumerations, ins.operations.length = t.maxOperations) := by
  induction t using tree_induction with
  | step head children ih =>
    have hall : (∀ ins ∈ enumerationsOf children,
          ins.operations.length ≤ maxOperationsOf children) ∧
        (maxOperationsOf children = 1 ∨
          ∃ ins ∈ enumerationsOf children, ins.operations.length = maxOperationsOf children) := by
      induction children with
      | nil => exact ⟨fun ins hins => absurd hins List.not_mem_nil, .inl rfl⟩
      | cons c cs ihc =>
        rw [List.forall_mem_cons] at ih
        obtain ⟨⟨hle, heq⟩, ih⟩ := ih
        obtain ⟨hleAll, heqAll⟩ := ihc ih
        rw [enumerationsOf, maxOperationsOf]
        refine ⟨fun ins hins => ?_, ?_⟩
        · rcases List.mem_append.mp hins with hins | hins
          · exact le_trans (hle ins hins) (le_max_left _ _)
          · exact le_trans (hleAll ins hins) (le_max_right _ _)
        · rcases max_cases (maxOperations c) (maxOperationsOf cs) with ⟨hmax, -⟩ | ⟨hmax, -⟩
          · rw [hmax]
            refine heq.imp id fun h => ?_
            obtain ⟨ins, hins, h⟩ := h
            exact ⟨ins, List.mem_append_left _ hins, h⟩
          · rw [hmax]
            refine heqAll.imp id fun h => ?_
            obtain ⟨ins, hins, h⟩ := h
            exact ⟨ins, List.mem_append_right _ hins, h⟩
    cases head with
    | enumeration pContext returnTypes iMaxRanges => simp [enumerations, maxOperations]
    | _ => simpa [enumerations, maxOperations] using hall

end Instruction

/-! ## The arrays of an invocation -/

namespace Codegen
variable {ι κ : Type} [DecidableEq κ] {session : Session ι κ} {getStaticType : ι → String}
  {getFriendlyName : κ → String} {strIndent : ℕ} {expr : InstanceExpr} {ins : Enumeration ι κ}

theorem rangeTargets_length {pEnumerationAction : κ} {operations : List (Operation (Option κ) (Option ι))}
    {targets : List RangeTarget}
    (h : rangeTargets session getFriendlyName pEnumerationAction operations = .ok targets) :
    targets.length = operations.length := by
  induction operations generalizing targets with
  | nil =>
    rw [rangeTargets] at h
    rw [← Except.ok.inj h]
    rfl
  | cons op operations ih =>
    rw [rangeTargets] at h
    obtain ⟨target, -, h⟩ := except_bind_ok.mp h
    obtain ⟨rest, hrest, h⟩ := except_bind_ok.mp h
    rw [← Except.ok.inj h, List.length_cons, List.length_cons, ih hrest]

/-- What is emitted for an enumeration with several ranges. -/
theorem generate_ok {lines : List Line}
    (h : generate session getStaticType getFriendlyName strIndent expr ins = .ok lines) :
    ins.operations ≠ [] ∧ (ins.m_iMaxRanges ≠ 1 → ∃ pEnumerationAction raw targets,
      ins.pContext.concreteType = some pEnumerationAction ∧
      rangeTargets session getFriendlyName pEnumerationAction ins.operations = .ok targets ∧
      lines = multipleRanges strIndent ins.m_iMaxRanges raw (returnTypes session getStaticType ins) expr
        targets) := by
  unfold generate at h
  dsimp only at h
  split at h
  · cases h
  · rename_i hne
    push Not at hne
    obtain ⟨pEnumerationAction, haction, h⟩ := except_bind_ok.mp h
    obtain ⟨raw, -, h⟩ := except_bind_ok.mp h
    obtain ⟨targets, htargets, h⟩ := except_bind_ok.mp h
    refine ⟨hne.2, fun hmax => ⟨pEnumerationAction, raw, targets, ?_, htargets, ?_⟩⟩
    · cases hcontext : ins.pContext.concreteType with
      | none =>
        rw [hcontext] at haction
        cases haction
      | some e =>
        rw [hcontext] at haction
        rw [Except.ok.inj haction]
    · rw [if_neg hmax] at h
      exact (Except.ok.inj h).symm

/-- The two arrays of an enumeration, in the lines that are emitted for it. -/
structure WellFormedArrays (session : Session ι κ) (getFriendlyName : κ → String) (strIndent : ℕ)
    (expr : InstanceExpr) (ins : Enumeration ι κ) (lines : List Line) : Prop where
  arrays : ∃ pEnumerationAction targets before arrayBegin between arrayEnd after,
    ins.pContext.concreteType = some pEnumerationAction ∧
    rangeTargets session getFriendlyName pEnumerationAction ins.operations = .ok targets ∧
    lines = before ++ arrayBegin ++ between ++ arrayEnd ++ after ∧
    arrayBegin = iteratorArray strIndent ins.m_iMaxRanges (beginIterator expr) targets ∧
    arrayEnd = iteratorArray strIndent ins.m_iMaxRanges (endIterator expr) targets ∧
    WellFormedArray ins.m_iMaxRanges (targets.map (beginIterator expr)) arrayBegin ∧
    WellFormedArray ins.m_iMaxRanges (targets.map (endIterator expr)) arrayEnd

/-- What is emitted for the enumerations of an invocation: well formed arrays, of iterators of one
type. -/
structure WellFormedRanges (session : Session ι κ) (getStaticType : ι → String)
    (getFriendlyName : κ → String) (strIndent : ℕ) (expr : InstanceExpr)
    (enumerations : List (Enumeration ι κ)) : Prop where
  arrays : ∀ ins ∈ enumerations, ins.m_iMaxRanges ≠ 1 → ∀ lines,
    generate session getStaticType getFriendlyName strIndent expr ins = .ok lines →
      WellFormedArrays session getFriendlyName strIndent expr ins lines
  same : ∀ ins ∈ enumerations, ∀ ins' ∈ enumerations,
    iteratorType session getStaticType ins = iteratorType session getStaticType ins'

/-- The arrays of an enumeration are well formed where none of them is filled up. -/
theorem wellFormedArrays_iff (hmax : ins.operations.length ≤ ins.m_iMaxRanges)
    (hseveral : ins.m_iMaxRanges ≠ 1) {lines : List Line}
    (h : generate session getStaticType getFriendlyName strIndent expr ins = .ok lines) :
    WellFormedArrays session getFriendlyName strIndent expr ins lines ↔
      ins.operations.length = ins.m_iMaxRanges := by
  constructor
  · rintro ⟨_, targets, _, arrayBegin, _, _, _, -, htargets, -, rfl, -, hbegin, -⟩
    have hlength := rangeTargets_length htargets
    rw [← hlength]
    exact (wellFormedArray_iff (balanced_beginIterator expr) (by omega)).mp hbegin
  · intro hfull
    obtain ⟨pEnumerationAction, raw, targets, haction, htargets, rfl⟩ := (generate_ok h).2 hseveral
    have hlength := rangeTargets_length htargets
    exact ⟨⟨pEnumerationAction, targets, _, _, _, _, _, haction, htargets, rfl, rfl, rfl,
      (wellFormedArray_iff (balanced_beginIterator expr) (by omega)).mpr (by omega),
      (wellFormedArray_iff (balanced_endIterator expr) (by omega)).mpr (by omega)⟩⟩

end Codegen

/-! ## The tree of a solution -/

namespace Invocation
variable {ι κ : Type} {session : Session ι κ} {rangeType : RangeType}

/-- The tree of a range: its operations are ranges, and its enumerations have been told the largest
number of them. -/
structure RangeTree (rangeType : RangeType) (root : Tree ι κ) : Prop where
  marked : ∃ types unmarked, root = Instruction.setRanges types unmarked.maxOperations unmarked ∧
    Instruction.Every (Ranged rangeType) unmarked

theorem isRaw_of_ranged {operations : List (Operation (Option κ) (Option ι))} (hne : operations ≠ [])
    (h : ∀ op ∈ operations, op.type = .range rangeType) :
    Evaluation.isRaw operations = .ok (decide (rangeType = .eRaw)) := by
  cases operations with
  | nil => exact absurd rfl hne
  | cons op operations =>
    rw [Evaluation.isRaw, Evaluation.rangeType, h op List.mem_cons_self]
    rfl

variable [DecidableEq ι]

theorem rangeTree_analyse {root : Tree ι κ} (hevery : Instruction.Every (Ranged rangeType) root)
    {solution : InvocationSolution ι κ}
    (h : analyseReturnTypes session (operationOf rangeType) root = .ok solution) :
    RangeTree rangeType solution.m_pRoot := by
  have henumeration : isOperationEnumeration (operationOf rangeType) = true := by
    cases rangeType <;> rfl
  rw [analyseReturnTypes] at h
  simp only [henumeration, if_true] at h
  split at h
  · cases h
  · split at h
    · rw [← Except.ok.inj h]
      exact ⟨_, root, rfl, hevery⟩
    · split at h
      · rw [← Except.ok.inj h]
        exact ⟨_, root, rfl, hevery⟩
      · cases h

variable [DecidableEq κ]

theorem rangeTree_of_build {context : List (ElementPair ι κ)}
    {typePath : List (List (ElementPair ι κ))} {nodes : NameResolution.Nodes ι κ}
    {solution : InvocationSolution ι κ}
    (h : build session (operationOf rangeType) context typePath nodes = .ok solution) :
    RangeTree rangeType solution.m_pRoot := by
  unfold build at h
  obtain ⟨children, hvisit, h⟩ := except_bind_ok.mp h
  obtain ⟨⟨outcome, root⟩, heliminate, h⟩ := except_bind_ok.mp h
  -- what the visitor has built
  have hchildren : ∀ t ∈ children, Instruction.Every (Ranged rangeType) t := by
    have hrange : (buildRangeRoot session (operationOf rangeType) nodes (contextVariable context) 1).map
        Prod.fst = .ok children := by
      cases rangeType <;> exact hvisit
    cases hbuild : buildRangeRoot session (operationOf rangeType) nodes (contextVariable context) 1 with
    | error e =>
      rw [hbuild] at hrange
      cases hrange
    | ok r =>
      rw [hbuild] at hrange
      rw [← Except.ok.inj hrange]
      exact buildRangeRoot_ranged hbuild
  have hstart : Instruction.Every (Ranged rangeType)
      (.node (.root (contextVariable context)) children : Tree ι κ) :=
    .node (fun op hop => by cases hop) hchildren
  have hE : Ranged rangeType (.elimination : Head (Option κ) (Option ι)) := fun op hop => by cases hop
  have hP : Ranged rangeType (.prune : Head (Option κ) (Option ι)) := fun op hop => by cases hop
  have hroot : Instruction.Every (Ranged rangeType) root := by
    have hpass : Instruction.eliminate (.node (.root (contextVariable context)) children) =
        .ok (outcome, root) := by
      cases he : Instruction.eliminate (.node (.root (contextVariable context)) children) with
      | error e =>
        rw [he] at heliminate
        cases heliminate
      | ok r =>
        rw [he] at heliminate
        rw [← Except.ok.inj heliminate]
    exact (Instruction.every_eliminateWith hE hP hstart).1 _ hpass
  cases outcome with
  | eSuccess =>
    obtain ⟨analysed, hanalysed, h⟩ := except_bind_ok.mp h
    obtain ⟨explicit, -, h⟩ := except_bind_ok.mp h
    have htree := rangeTree_analyse hroot hanalysed
    rw [← Except.ok.inj h]
    exact ⟨htree.marked⟩
  | eFailure => cases h
  | eAmbiguous =>
    obtain ⟨analysed, hanalysed, h⟩ := except_bind_ok.mp h
    -- the second stage keeps calls and starts only
    have hcandidates : ∀ targets : List (ElementPair ι κ),
        candidateOperations targets root.getOperations = [] := by
      intro targets
      refine List.filter_eq_nil_iff.mpr fun op hop => ?_
      have htype := (Instruction.every_operations hroot).1 op hop op rfl
      simp [htype]
    rw [disambiguate] at hanalysed
    simp only [hcandidates, if_true] at hanalysed
    split at hanalysed
    · cases hanalysed
    · split at hanalysed <;> cases hanalysed

end Invocation

namespace Codegen
variable {ι κ : Type} {session : Session ι κ} {getStaticType : ι → String}
  {getFriendlyName : κ → String} {strIndent : ℕ} {expr : InstanceExpr} {rangeType : RangeType}

/-- The enumerations of the tree of a range. -/
theorem enumerations_of_rangeTree {root : Tree ι κ} (h : Invocation.RangeTree rangeType root) :
    ∃ types iMaxRanges, (∀ ins ∈ root.enumerations, ins.m_returnTypes = types ∧
        ins.m_iMaxRanges = iMaxRanges ∧ ins.operations.length ≤ iMaxRanges ∧
          ∀ op ∈ ins.operations, op.type = .range rangeType) ∧
      (iMaxRanges = 1 ∨ ∃ ins ∈ root.enumerations, ins.operations.length = iMaxRanges) := by
  obtain ⟨types, unmarked, rfl, hevery⟩ := h.marked
  obtain ⟨hle, heq⟩ := unmarked.maxOperations_spec
  have hoperations := Instruction.every_enumerations hevery
  rw [Instruction.enumerations_setRanges]
  refine ⟨types, unmarked.maxOperations, fun ins hins => ?_, heq.imp id fun h => ?_⟩
  · obtain ⟨own, hown, rfl⟩ := List.mem_map.mp hins
    exact ⟨rfl, rfl, hle own hown, fun op hop => hoperations own hown op hop op rfl⟩
  · obtain ⟨own, hown, hlength⟩ := h
    exact ⟨_, List.mem_map.mpr ⟨own, hown, rfl⟩, hlength⟩

variable [DecidableEq ι] [DecidableEq κ]

/-- **Main result.** The arrays that are emitted for a range invocation are well formed exactly if all
its enumerations have the same number of operations. -/
theorem wellFormedRanges_iff {context : List (ElementPair ι κ)}
    {typePath : List (List (ElementPair ι κ))} {nodes : NameResolution.Nodes ι κ}
    {solution : InvocationSolution ι κ}
    (hbuild : Invocation.build session (Invocation.operationOf rangeType) context typePath nodes =
      .ok solution)
    (hemitted : ∀ ins ∈ solution.m_pRoot.enumerations, ∃ lines,
      generate session getStaticType getFriendlyName strIndent expr ins = .ok lines) :
    WellFormedRanges session getStaticType getFriendlyName strIndent expr
        solution.m_pRoot.enumerations ↔
      ∀ ins ∈ solution.m_pRoot.enumerations, ∀ ins' ∈ solution.m_pRoot.enumerations,
        ins.operations.length = ins'.operations.length := by
  obtain ⟨types, iMaxRanges, hall, hlargest⟩ :=
    enumerations_of_rangeTree (Invocation.rangeTree_of_build hbuild)
  have hpositive : ∀ ins ∈ solution.m_pRoot.enumerations, 0 < ins.operations.length := by
    intro ins hins
    obtain ⟨lines, hlines⟩ := hemitted ins hins
    exact List.length_pos_of_ne_nil (generate_ok hlines).1
  constructor
  · intro hwell
    have hfull : ∀ ins ∈ solution.m_pRoot.enumerations, ins.operations.length = iMaxRanges := by
      intro ins hins
      obtain ⟨-, hmax, hle, -⟩ := hall ins hins
      have hsome := hpositive ins hins
      by_cases hone : iMaxRanges = 1
      · omega
      · obtain ⟨lines, hlines⟩ := hemitted ins hins
        have hseveral : ins.m_iMaxRanges ≠ 1 := by omega
        rw [← hmax]
        exact (wellFormedArrays_iff (by omega) hseveral hlines).mp
          (hwell.arrays ins hins hseveral lines hlines)
    intro ins hins ins' hins'
    rw [hfull ins hins, hfull ins' hins']
  · intro hequal
    have hfull : ∀ ins ∈ solution.m_pRoot.enumerations, ins.operations.length = iMaxRanges := by
      intro ins hins
      obtain ⟨-, -, hle, -⟩ := hall ins hins
      have hsome := hpositive ins hins
      rcases hlargest with hone | ⟨largest, hmem, hlength⟩
      · omega
      · rw [hequal ins hins largest hmem, hlength]
    refine ⟨fun ins hins hseveral lines hlines => ?_, fun ins hins ins' hins' => ?_⟩
    · obtain ⟨-, hmax, -, -⟩ := hall ins hins
      exact (wellFormedArrays_iff (by rw [hmax, hfull ins hins]) hseveral hlines).mpr
        (by rw [hmax, hfull ins hins])
    · have hraw : ∀ ins ∈ solution.m_pRoot.enumerations,
          Evaluation.isRaw ins.operations = .ok (decide (rangeType = .eRaw)) := fun ins hins =>
        Invocation.isRaw_of_ranged (List.length_pos_iff.mp (hpositive ins hins)) (hall ins hins).2.2.2
      rw [iteratorType, iteratorType, hraw ins hins, hraw ins' hins', returnTypes, returnTypes,
        (hall ins hins).1, (hall ins hins).2.1, (hall ins' hins').1, (hall ins' hins').2.1]

/-! ## Two branches -/

/-- The actions `1` and `2` of the root have actions that inherit `6`: `3` and `4` in `1`, and `5` in
`2`. -/
def forked : Session (Fin 7) (Fin 6) where
  kind e := .action e.castSucc
  children e := if e = 0 then [1, 2] else if e = 1 then [3, 4] else if e = 2 then [5] else []
  isContext _ := true
  baseContexts c := if c = 3 ∨ c = 4 ∨ c = 5 then [6] else []
  rank c := if c = 6 then 0 else 1
  rank_base {c b} h := by
    revert h
    revert c b
    decide
  instanceMap := []
  inheritanceMap := [(1, 1), (2, 2), (6, 3), (6, 4), (6, 5)]
  inheritance_isAction _ := rfl
  contextTypes_isContext h := by cases h
  isDimension _ := false
  tree := ⟨fun e => if e = 0 then none else if e = 3 ∨ e = 4 then some 1
    else if e = 5 then some 2 else some 0, fun e => e.val, by decide⟩
  root := 0
  only_root := by decide
  root_isAction := rfl
  parent_isAction _ := rfl
  getLocalDomainSize _ := 1
  localDomainSize_pos _ := Nat.one_pos
  getIndex e := e.val
  index_injective := by decide
  hasLinkGroup _ := false

/-- The range of `6` from `1` and `2`. -/
def forkedContext : List (ElementPair (Fin 7) (Fin 6)) := forked.getElementVector [1, 2] true

def forkedPath : List (List (ElementPair (Fin 7) (Fin 6))) := [forked.getElementVector [6] true]

def forkedNodes : NameResolution.Nodes (Fin 7) (Fin 6) :=
  [⟨⟨none, none⟩, true, true, [1, 2]⟩, ⟨⟨some 1, some 1⟩, true, false, [3, 4]⟩,
    ⟨⟨some 2, some 2⟩, true, false, [5]⟩, ⟨⟨some 6, some 3⟩, true, false, []⟩,
    ⟨⟨some 6, some 4⟩, true, false, []⟩, ⟨⟨some 6, some 5⟩, true, false, []⟩]

theorem forked_resolved : NameResolution.nameResolution forked.toDerivationAnalysis 2 .id_Range
    forkedContext forkedPath = some (.ok forkedNodes) := by
  decide +kernel

/-- What is emitted for an enumeration of that range. -/
def forkedLines (ins : Enumeration (Fin 7) (Fin 6)) : Except EvaluationFault (List Line) :=
  generate forked (fun _ => "") (fun _ => "") 4 .context ins

/-- The enumeration of `1` has two ranges, that of `2` has one. -/
theorem forked_built : ∃ solution,
    Invocation.build forked (Invocation.operationOf .eRange) forkedContext forkedPath forkedNodes =
        .ok solution ∧
      solution.m_pRoot.enumerations.map
        (fun ins => ((forkedLines ins).isOk, ins.m_iMaxRanges, ins.operations.length)) =
          [(true, 2, 2), (true, 2, 1)] := by
  have h : (Invocation.build forked (Invocation.operationOf .eRange) forkedContext forkedPath
      forkedNodes).toOption.map (fun solution => solution.m_pRoot.enumerations.map
        fun ins => ((forkedLines ins).isOk, ins.m_iMaxRanges, ins.operations.length)) =
          some [(true, 2, 2), (true, 2, 1)] := by
    decide +kernel
  cases hbuild : Invocation.build forked (Invocation.operationOf .eRange) forkedContext forkedPath
      forkedNodes with
  | error e =>
    rw [hbuild] at h
    cases h
  | ok solution =>
    rw [hbuild] at h
    exact ⟨solution, rfl, Option.some.inj h⟩

theorem forked_emitted {enumerations : List (Enumeration (Fin 7) (Fin 6))}
    {numbers : List (Bool × ℕ × ℕ)} (hnumbers : ∀ n ∈ numbers, n.1 = true)
    (h : enumerations.map
      (fun ins => ((forkedLines ins).isOk, ins.m_iMaxRanges, ins.operations.length)) = numbers) :
    ∀ ins ∈ enumerations, ∃ lines, forkedLines ins = .ok lines := by
  intro ins hins
  have hok : (forkedLines ins).isOk = true :=
    hnumbers _ (h ▸ List.mem_map_of_mem (f := fun ins : Enumeration (Fin 7) (Fin 6) =>
      ((forkedLines ins).isOk, ins.m_iMaxRanges, ins.operations.length)) hins)
  cases hlines : forkedLines ins with
  | error e =>
    rw [hlines] at hok
    cases hok
  | ok lines => exact ⟨lines, rfl⟩

/-- The array of `2` is filled up, and its brackets do not match. -/
theorem forked_not_wellFormedRanges : ∃ solution,
    NameResolution.nameResolution forked.toDerivationAnalysis 2 .id_Range forkedContext forkedPath =
        some (.ok forkedNodes) ∧
      Invocation.build forked (Invocation.operationOf .eRange) forkedContext forkedPath forkedNodes =
        .ok solution ∧
      ¬ WellFormedRanges forked (fun _ => "") (fun _ => "") 4 .context
        solution.m_pRoot.enumerations := by
  obtain ⟨solution, hbuild, hnumbers⟩ := forked_built
  refine ⟨solution, forked_resolved, hbuild, fun hwell => ?_⟩
  have hemitted := forked_emitted (by decide) hnumbers
  have hsecond : (true, 2, 1) ∈ solution.m_pRoot.enumerations.map
      (fun ins => ((forkedLines ins).isOk, ins.m_iMaxRanges, ins.operations.length)) := by
    rw [hnumbers]
    decide
  obtain ⟨ins, hins, hvalue⟩ := List.mem_map.mp hsecond
  obtain ⟨-, hmax, hlength⟩ : (forkedLines ins).isOk = true ∧ ins.m_iMaxRanges = 2 ∧
      ins.operations.length = 1 := by simpa using hvalue
  obtain ⟨lines, hlines⟩ := hemitted ins hins
  have hseveral : ins.m_iMaxRanges ≠ 1 := by omega
  have hfull := (wellFormedArrays_iff (by omega) hseveral hlines).mp
    (hwell.arrays ins hins hseveral lines hlines)
  omega

theorem forked_wellFormedRanges_iff : ∃ solution,
    Invocation.build forked (Invocation.operationOf .eRange) forkedContext forkedPath forkedNodes =
        .ok solution ∧
      (WellFormedRanges forked (fun _ => "") (fun _ => "") 4 .context solution.m_pRoot.enumerations ↔
        ∀ ins ∈ solution.m_pRoot.enumerations, ∀ ins' ∈ solution.m_pRoot.enumerations,
          ins.operations.length = ins'.operations.length) := by
  obtain ⟨solution, hbuild, hnumbers⟩ := forked_built
  exact ⟨solution, hbuild, wellFormedRanges_iff hbuild (forked_emitted (by decide) hnumbers)⟩

end Codegen
end EgLang.Compiler
