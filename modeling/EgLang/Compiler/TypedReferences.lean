import EgLang.Common
import EgLang.Compiler.Conversion
import EgLang.Library.StepSystem

/-!
# Typed references

Interface types, variants and events as values: a reference behind a static type. The conversions between
them run the generated switches, or copy the reference.
-/

namespace EgLang.Compiler

open Library

set_option autoImplicit false

/-- The numbers that the generated text has for concrete actions; no two actions share one. -/
structure ConcreteIndex where
  getIndex : List ℕ → ℤ
  injective : Function.Injective getIndex

/-- What the accessor functions return for an instance. -/
abbrev Dimensions := Accessor → ℕ → Reference

/-- `data.timestamp = INVALID_TIMESTAMP`. -/
def invalidate (data : Reference) : Reference := { data with timestamp := INVALID_TIMESTAMP }

/-- The test of `operator const void*` fails. -/
def IsNull (data : Reference) : Prop := data.timestamp = INVALID_TIMESTAMP

instance : DecidablePred IsNull := fun data => inferInstanceAs (Decidable (data.timestamp = _))

@[simp] theorem isNull_invalidate (data : Reference) : IsNull (invalidate data) := rfl

/-- The types of values. -/
inductive StaticType (ι : Type)
  | interface (pContext : ι)
  | variant (Ts : List ι)
  | event
deriving DecidableEq, Repr

/-- The contexts that a value of the type may be an instance of; none are asked of an event. -/
def StaticType.members {ι : Type} : StaticType ι → List ι
  | .interface pContext => [pContext]
  | .variant Ts => Ts
  | .event => []

/-- Why a conversion does not compile. -/
inductive ConversionFault
  | session (fault : SessionFault)
  | incompatible
  | noConversion
deriving DecidableEq, Repr

/-! ## Running a switch -/

section Execution
variable (index : ConcreteIndex) (read : Dimensions)

/-- The inner switch of a case. -/
def ConversionCase.execute (c : ConversionCase) (data source : Reference) : Reference :=
  let linked := read c.accessor source.inst
  if ∃ k ∈ c.labels, linked.type = index.getIndex k then linked else invalidate data

/-- The switch over `from.data.type`. -/
def ConversionSwitch.execute (s : ConversionSwitch) (data source : Reference) : Reference :=
  match (s.fromLinks ++ s.toLinks).find? fun c => source.type = index.getIndex c.label with
  | some c => c.execute index read data source
  | none =>
    if ∃ k ∈ s.direct, source.type = index.getIndex k then source else invalidate data

/-- The body of the generated constructor and assignment, with the switch of its type. -/
def generated (s : Option ConversionSwitch) (data source : Reference) : Reference :=
  match s with
  | some s => s.execute index read data source
  | none => invalidate data

end Execution

namespace Interface
variable {ι : Type} [DecidableEq ι] (I : Interface ι) (t : ConcreteTree ι) (linked : Linked ι)

/-! ## What compiles -/

/-- The specialisations of `is_convertible` for interface types. -/
def isConvertibleType (C S : ι) : Bool :=
  match linked.compatibility S with
  | some compatibility => !(I.getType S).isFunction && decide (C ∈ compatibility.staticLinkCompatibleTypes)
  | none => false

/-- `is_convertible`, to an interface type; from a variant it is asked in reverse. -/
def isConvertible : StaticType ι → ι → Bool
  | .interface C, S => I.isConvertibleType linked C S
  | .variant Cs, S => Cs.any fun C => I.isConvertibleType linked S C
  | .event, _ => true

/-- The conversion of an interface type; functions have none. -/
def conversion (S : ι) : Except ConversionFault (Option ConversionSwitch) :=
  if (I.getType S).isFunction then .error .noConversion
  else (I.generateConversion t linked S).mapError .session

/-! ## Conversions -/

section Convert
variable (index : ConcreteIndex) (read : Dimensions)

/-- `variant_runtime_type_check`, with the switches of the types. -/
def runtimeTypeCheck (switches : List (Option ConversionSwitch)) (source : Reference) : Bool :=
  switches.any fun s => decide ¬ IsNull (generated index read s .null source)

/-- A constructor or an assignment of the type `target`, from a value of the type `source`. Values of one type
are copied. -/
def convert (target source : StaticType ι) (data value : Reference) : Except ConversionFault Reference :=
  if target = source then .ok value
  else match target with
    | .event => .ok value
    | .interface S =>
      if I.isConvertible linked source S then do
        let s ← I.conversion t linked S
        return generated index read s data value
      else .error .incompatible
    | .variant Ts =>
      if source = .event then do
        let switches ← Ts.mapM (I.conversion t linked)
        return if IsNull value ∨ runtimeTypeCheck index read switches value = false then invalidate data
          else value
      else if Ts.any (I.isConvertible linked source) then .ok value
      else .error .incompatible

end Convert

/-! ## Programs -/

/-- A statement over variables. An event may be given any reference. -/
inductive Statement (ν : Type)
  | declare (target : ν)
  | receive (target : ν) (reference : Reference)
  | construct (target source : ν)
  | assign (target source : ν)

section Execute
variable {ν : Type} [DecidableEq ν] (index : ConcreteIndex) (typeOf : ν → StaticType ι)

/-- One statement, at a moment when the dimensions are as given. -/
def execute (s : ν → Reference) (i : Statement ν × Dimensions) :
    Except ConversionFault (ν → Reference) :=
  match i.1 with
  | .declare target => .ok (Function.update s target .null)
  | .receive target reference =>
    if typeOf target = .event then .ok (Function.update s target reference) else .error .incompatible
  | .construct target source => do
    let value ← I.convert t linked index i.2 (typeOf target) (typeOf source) .null (s source)
    return Function.update s target value
  | .assign target source => do
    let value ← I.convert t linked index i.2 (typeOf target) (typeOf source) (s target) (s source)
    return Function.update s target value

end Execute

/-! ## Type soundness -/

section Soundness
variable (index : ConcreteIndex)

/-- The runtime type of a reference is dynamically compatible with a context. -/
def HasType (S : ι) (value : Reference) : Prop :=
  ∃ c, linked.compatibility.getCompatibility S = .ok c ∧
    ∃ k ∈ c.dynamicCompatibleTypes, value.type = index.getIndex k

/-- The runtime type of a reference fits a static type. -/
def Fits : StaticType ι → Reference → Prop
  | .interface S, value => HasType linked index S value
  | .variant Ts, value => ∃ S ∈ Ts, HasType linked index S value
  | .event, _ => True

/-- What a link to the target of a conversion refers to: for an instance of a link that a context is the
target of, what the base dimension of the link holds; for an instance of the target of a link, the link
that its group has for it. -/
def LinkedTo (read : Dimensions) (S : ι) (value r : Reference) : Prop :=
  ∃ c, linked.compatibility.getCompatibility S = .ok c ∧
    ((∃ k ∈ c.dynamicCompatibleFromLinkTypes, value.type = index.getIndex k ∧
        ∃ d, I.getConcreteLinkBaseDimension t k = .ok d ∧ r = read (.linkBase d) value.inst) ∨
      ∃ k ∈ c.dynamicCompatibleToLinkTypes, value.type = index.getIndex k ∧
        ∃ group, getLinkGroup linked S = some group ∧
          r = read (.linkReference k group.name) value.inst)

/-- What a conversion has to make of a reference that is not null. -/
inductive Converted (read : Dimensions) (target : StaticType ι) (value : Reference) : Reference → Prop
  | fits (h : Fits linked index target value) : Converted read target value value
  | link {S : ι} {r : Reference} (h : ¬ Fits linked index target value) (hS : S ∈ target.members)
      (hlink : I.LinkedTo t linked index read S value r) (hr : HasType linked index S r) :
      Converted read target value r
  | null {r : Reference} (h : ¬ Fits linked index target value)
      (hlink : ∀ S ∈ target.members, ∀ r, I.LinkedTo t linked index read S value r →
        HasType linked index S r → IsNull r) (hr : IsNull r) : Converted read target value r

/-- What is given to a variant is null, or of the type of a member; or an event holds it, and it is no link
to something of the type of a member. -/
def Admissible (read : Dimensions) (target source : StaticType ι) (value : Reference) : Prop :=
  match target with
  | .variant Ts => IsNull value ∨ Fits linked index target value ∨ source = .event ∧
      ∀ S ∈ Ts, ∀ r, I.LinkedTo t linked index read S value r → HasType linked index S r → IsNull r
  | _ => True

section Programs
variable {ν : Type} (typeOf : ν → StaticType ι)

/-- Every reference that is not null has a runtime type that fits its static type. -/
def Sound (s : ν → Reference) : Prop := ∀ v, ¬ IsNull (s v) → Fits linked index (typeOf v) (s v)

/-- The conversion that a statement makes. -/
def Statement.operands : Statement ν → Option (ν × ν)
  | .construct target source | .assign target source => some (target, source)
  | _ => none

variable (s : ν → Reference) (i : Statement ν × Dimensions)

/-- The conversion of a statement is given something admissible. -/
def Allowed : Prop := ∀ p ∈ i.1.operands,
  I.Admissible t linked index i.2 (typeOf p.1) (typeOf p.2) (s p.2)

/-- The conversion of a statement makes what it has to. -/
def Faithful (s' : ν → Reference) : Prop := ∀ p ∈ i.1.operands, ¬ IsNull (s p.2) →
  I.Converted t linked index i.2 (typeOf p.1) (s p.2) (s' p.1)

end Programs

end Soundness

end Interface
end EgLang.Compiler
