import EgLang.Parsing.Tokens

/-!
# The grammar of source files

Contexts nest, and a context may be opened again under its name, also along a path of names. The
parser of the nested context and the loops without a test for the end of the file are parameters
here, so that the recursion stands at one place, `contextBodyLoop`, with the fuel it needs.
-/

namespace EgLang.Parsing

set_option autoImplicit false

/-! ## The input tree -/

/-- `Context::ContextType`. -/
inductive ContextType
  | eUnknown | eAbstract | eEvent | eFunction | eAction | eLink | eObject
deriving DecidableEq, Repr

/-- `input::Dimension`. -/
structure Dimension where
  type : String
  identifier : String
  isConst : Bool
deriving DecidableEq, Repr

/-- `input::Include`. -/
structure Inclusion where
  identifier : String
  path : String
  isEGInclude : Bool
  isSystemInclude : Bool
deriving DecidableEq, Repr

/-- `input::Using`. -/
structure Using where
  identifier : String
  type : String
deriving DecidableEq, Repr

/-- `input::Export`, and the body that goes to the callback. -/
structure Export where
  identifier : String
  parameters : Option String
  returnType : Option String
  body : String
deriving DecidableEq, Repr

inductive VisibilityType
  | eVisPublic | eVisPrivate
deriving DecidableEq, Repr

/-- What `input::Context` holds besides its elements, and the parts of its body that go to the
callback. An `input::Root` is a context too. -/
structure Heading where
  isRoot : Bool
  identifier : String
  contextType : ContextType
  params : Option String
  size : Option String
  inheritance : List String
  sourceFile : Option String
  definitionFile : Option String
  bodies : List String
deriving DecidableEq, Repr

/-- `input::Element`. -/
inductive Element
  | dimension (d : Dimension)
  | inclusion (i : Inclusion)
  | usingType (u : Using)
  | exported (e : Export)
  | visibility (v : VisibilityType)
  | context (heading : Heading) (elements : List Element)

/-- `input::Context`. -/
structure Context where
  heading : Heading
  elements : List Element

namespace Context

def push (c : Context) (e : Element) : Context := { c with elements := c.elements ++ [e] }

/-- `constructContext`, with the identifier that its callers set. -/
def constructContext (parent : Context) (name : String) : Context :=
  ⟨⟨false, name, .eUnknown, none, none, [], parent.heading.sourceFile, none, []⟩, []⟩

end Context

/-- `Context::findContext`: the first nested context of that name, between the elements before it
and after it. -/
def findContext (name : String) : List Element → Option (List Element × Context × List Element)
  | [] => none
  | .context h es :: rest =>
    if h.identifier = name then some ([], ⟨h, es⟩, rest)
    else (findContext name rest).map fun f => (.context h es :: f.1, f.2.1, f.2.2)
  | e :: rest => (findContext name rest).map fun f => (e :: f.1, f.2.1, f.2.2)

/-- Goes on in the nested context of that name, which is made if it is not there. -/
def withContext (name : String) (parse : Context → Parse Context) (c : Context) : Parse Context :=
  match findContext name c.elements with
  | some (before, nested, after) => do
    let k ← parse nested
    pure { c with elements := before ++ .context k.heading k.elements :: after }
  | none => do
    let k ← parse (c.constructContext name)
    pure (c.push (.context k.heading k.elements))

/-! ## Parts of a declaration -/

section Parts
variable (src : Source)

/-- The first token of what is left is one of these. -/
def at_ (kinds : List TokenKind) (tokens : List Token) : Bool :=
  match tokens with
  | [] => false
  | t :: _ => kinds.contains t.kind

def parse_argumentList : Parse (Option String) := do
  let p ← get
  if p.Tok = some .l_paren then do
    consumeOpen .l_paren
    let q ← get
    let arguments ← (if q.Tok ≠ some .r_paren then do
        let (startLoc, endLoc, _) ← passage src fun ts _ => at_ [.r_paren] ts
        sourceText src startLoc endLoc "Error parsing argument list"
      else pure "")
    consumeClose .r_paren
    pure (some arguments)
  else pure none

def parse_returnType : Parse (Option String) := do
  let p ← get
  if p.Tok = some .colon then do
    consumeAnyToken
    let (startLoc, endLoc, _) ← passage src fun ts _ => at_ [.semi, .comma, .l_brace] ts
    let str ← sourceText src startLoc endLoc "Error parsing return type"
    pure (some str)
  else pure none

/-- The `while( bFoundComma )` of `parse_inheritance`. Its bound is the number of the tokens. -/
def inheritanceLoop : ℕ → Parse (List String)
  | 0 => throw .outOfFuel
  | rounds + 1 => do
    consumeAnyToken
    let (startLoc, endLoc, _) ← passage src fun ts _ => at_ [.semi, .comma, .l_brace] ts
    let str ← sourceText src startLoc endLoc "Error parsing inheritance"
    let p ← get
    if p.Tok = some .comma then do
      let more ← inheritanceLoop rounds
      pure (str :: more)
    else pure [str]

def parse_inheritance : Parse (List String) := do
  let p ← get
  if p.Tok = some .colon then inheritanceLoop src p.tokens.length else pure []

def parse_size : Parse (Option String) := do
  let p ← get
  if p.Tok = some .l_square then do
    consumeOpen .l_square
    let (startLoc, endLoc, _) ← passage src fun ts _ => at_ [.r_square] ts
    let str ← sourceText src startLoc endLoc "Error parsing size"
    consumeClose .r_square
    pure (some str)
  else pure none

/-- `parse_body`. The test for the brace count compares the negated count, as the source does. -/
def parse_body : Parse String := do
  let p ← get
  if p.Tok = some .l_brace then do
    consumeOpen .l_brace
    pushBrace
    let q ← get
    let (startLoc, endLoc, _) ← passage src fun ts n => at_ [.r_brace] ts && n == q.back
    let str ← sourceText src startLoc endLoc "Error parsing body"
    let r ← get
    errorIf ((if r.braceCount = 0 then 1 else 0) = r.back) "Brace count mismatch"
    popBrace
    consumeClose .r_brace
    pure str
  else pure ""

def parse_visibility : Parse VisibilityType := do
  let p ← get
  errorIf (p.Tok ≠ some .kw_public ∧ p.Tok ≠ some .kw_private) "Expected public or private token"
  consumeToken
  expectToken .colon "Expected colon"
  pure (if p.Tok = some .kw_public then .eVisPublic else .eVisPrivate)

def parse_export : Parse Export := do
  let identifier ← parse_identifier
  let parameters ← parse_argumentList src
  let returnType ← parse_returnType src
  parse_comment
  let body ← parse_body src
  errorIf (body = "") "Expected body for export"
  pure ⟨identifier, parameters, returnType, body⟩

/-! ## Declarations whose loops do not test for the end of the file -/

variable (loop : Scan)

/-- The loop of `parse_dimension` looks at the token after the current one. -/
def dimensionClosed (tokens : List Token) : Bool := at_ [.semi] tokens.tail

def parse_dimension (isConst : Bool) : Parse Dimension := do
  let p ← get
  let endLoc ← loop dimensionClosed consumeToken (p.endLoc src)
  let type ← sourceText src (p.location src) endLoc "VERIFY_RTE"
  let identifier ← parse_identifier
  parse_semicolon
  pure ⟨type, identifier, isConst⟩

/-- `Include::setIncludeFilePath`, on an `Include` as it is constructed. -/
def setIncludeFilePath (identifier strIncludeFile : String) : Parse Inclusion := do
  errorIf (strIncludeFile = "") "VERIFY_RTE"
  if strIncludeFile.toList.head? = some '<' then pure ⟨identifier, strIncludeFile, false, true⟩
  else if src.extension strIncludeFile = ".eg" then
    pure ⟨identifier, src.absoluteCanonical strIncludeFile, true, false⟩
  else pure ⟨identifier, strIncludeFile, false, false⟩

def includeClosed (tokens : List Token) : Bool := at_ [.r_paren] tokens

def parse_include : Parse Inclusion := do
  let p ← get
  let identifier ← (match p.Tok with
    | some (.identifier _) => parse_identifier
    | _ => pure "")
  consumeOpen .l_paren
  let q ← get
  let endLoc ← loop includeClosed consumeAnyToken (q.endLoc src)
  let text ← sourceText src (q.location src) endLoc "VERIFY_RTE"
  let strFile := String.ofList (text.toList.filter (· ≠ '"'))
  errorIf (strFile = "") "Include file is empty"
  let bIsAngled := strFile.toList.head? = some '<'
  let inclusion ← setIncludeFilePath src identifier
    ((src.lookupFile strFile bIsAngled).getD strFile)
  consumeClose .r_paren
  parse_semicolon
  pure inclusion

def usingClosed (tokens : List Token) : Bool := at_ [.semi] tokens

def parse_using : Parse Using := do
  let identifier ← parse_identifier
  expectToken .equal "Expected equals after using"
  let p ← get
  let endLoc ← loop usingClosed consumeToken (p.endLoc src)
  let type ← sourceText src (p.location src) endLoc "Error parsing using statement"
  parse_semicolon
  pure ⟨identifier, type⟩

end Parts

/-! ## Contexts -/

/-- The keyword that begins a context. -/
def contextTypeOf : Option TokenKind → ContextType
  | some .kw_abstract => .eAbstract
  | some .kw_event => .eEvent
  | some .kw_function => .eFunction
  | some .kw_action => .eAction
  | some .kw_link => .eLink
  | some .kw_object => .eObject
  | _ => .eUnknown

/-- `EG_LINK_DIMENSION`. -/
def EG_LINK_DIMENSION : String := "base"

def Element.isLinkDimension : Element → Bool
  | .dimension d => d.identifier = EG_LINK_DIMENSION
  | _ => false

def add_link_base (c : Context) : Parse Context :=
  match c.heading.inheritance with
  | [base] =>
    if c.elements.any Element.isLinkDimension then pure c
    else pure (c.push (.dimension ⟨base, EG_LINK_DIMENSION, false⟩))
  | _ => parserError "Link requires single inheritance"

section Contexts
variable (src : Source)

/-- The names after `::`, one round for each. -/
def qualifiers : ℕ → Parse (List String)
  | 0 => throw .outOfFuel
  | rounds + 1 => do
    let p ← get
    if p.Tok = some .coloncolon then do
      consumeToken
      let name ← parse_identifier
      let more ← qualifiers rounds
      pure (name :: more)
    else pure []

/-- The `while( Tok.is( coloncolon ) )` of `parse_context`. -/
def parse_qualifiers : Parse (List String) := do
  let p ← get
  qualifiers (p.tokens.length + 1)

/-- Goes down along the names. -/
def alongNames (parse : Context → Parse Context) : List String → Context → Parse Context
  | [] => parse
  | name :: names => withContext name (alongNames parse names)

/-- A field of the context that may be given once: the old value, the new one. -/
def defineOnce (old new : Option String) (text : String) : Parse (Option String) := do
  errorIf (old.isSome ∧ new.isSome) text
  pure (new.or old)

/-- `parse_context` from the context type on. -/
def parse_declaration (nested : Context → Parse Context) (contextType : ContextType)
    (c : Context) : Parse Context := do
  parse_comment
  let newParams ← parse_argumentList src
  let params ← defineOnce c.heading.params newParams "Parameters multiply defined"
  parse_comment
  let newSize ← parse_size src
  let size ← defineOnce c.heading.size newSize "Size multiply defined"
  parse_comment
  let newInheritance ← parse_inheritance src
  errorIf (c.heading.inheritance ≠ [] ∧ newInheritance ≠ [])
    "Inheritance or return type multiply defined"
  let inheritance := if newInheritance ≠ [] then newInheritance else c.heading.inheritance
  parse_comment
  let c1 : Context := { c with heading := { c.heading with
    contextType := contextType, params := params, size := size, inheritance := inheritance } }
  let p ← get
  let c2 ← (
    if p.Tok = some .l_brace then do
      consumeOpen .l_brace
      let c2 ← nested c1
      consumeClose .r_brace
      pure c2
    else if p.Tok = some .semi then do
      consumeToken
      pure c1
    else parserError "Expected semicolon")
  match contextType with
  | .eAbstract | .eEvent | .eFunction | .eAction | .eObject => pure c2
  | .eLink => add_link_base c2
  | .eUnknown => parserError "Unknown context type"

def parse_context (nested : Context → Parse Context) (contextType : ContextType)
    (c : Context) : Parse Context := do
  let names ← parse_qualifiers
  alongNames (parse_declaration src nested contextType) names c

/-- The tokens that end a part of a body. -/
def atDeclaration (back : ℕ) (tokens : List Token) (braceCount : ℕ) : Bool :=
  (at_ [.kw_const] tokens && at_ [.kw_dim] tokens.tail) ||
    at_ [.kw_action, .kw_object, .kw_function, .kw_event, .kw_abstract, .kw_dim, .kw_link,
      .kw_include, .kw_using, .kw_export, .kw_public, .kw_private] tokens ||
    (braceCount == back && at_ [.r_brace] tokens)

/-- The tokens that make a body part a definition of the action. -/
def TokenKind.definesAction : TokenKind → Bool
  | .comment | .eod | .code_completion => false
  | _ => true

/-- What a round of the loop of `parse_context_body` comes to: another round, with the context and
`bActionDefinition`, or the brace that is left to the parent. -/
inductive Round
  | again (c : Context) (bActionDefinition : Bool)
  | leave

/-- The body of the loop of `parse_context_body`. -/
def parse_element (loop : Scan) (nested : Context → Parse Context) (c : Context)
    (bActionDefinition : Bool) : Parse Round := do
  let p ← get
  if contextTypeOf p.Tok ≠ .eUnknown then do
    consumeToken
    let name ← parse_identifier
    let c' ← withContext name (parse_context src nested (contextTypeOf p.Tok)) c
    pure (.again c' bActionDefinition)
  else if (p.Tok = some .kw_const ∧ p.NextToken = some .kw_dim) ∨ p.Tok = some .kw_dim then do
    let bIsConst := p.Tok = some .kw_const
    (if bIsConst then consumeToken else pure ())
    consumeToken
    let d ← parse_dimension src loop bIsConst
    pure (.again (c.push (.dimension d)) bActionDefinition)
  else if p.Tok = some .kw_include then do
    consumeToken
    let i ← parse_include src loop
    pure (.again (c.push (.inclusion i)) bActionDefinition)
  else if p.Tok = some .kw_using then do
    consumeToken
    let u ← parse_using src loop
    pure (.again (c.push (.usingType u)) bActionDefinition)
  else if p.Tok = some .kw_export then do
    consumeToken
    let e ← parse_export src
    pure (.again (c.push (.exported e)) bActionDefinition)
  else if p.Tok = some .kw_public ∨ p.Tok = some .kw_private then do
    let v ← parse_visibility
    pure (.again (c.push (.visibility v)) bActionDefinition)
  else if p.Tok = some .r_brace ∧ p.braceCount = p.back then pure .leave
  else do
    let (startLoc, endLoc, taken) ← passage src (atDeclaration p.back)
    let b := bActionDefinition || taken.any fun t => t.kind.definesAction
    let strBodyPart ← sourceText src startLoc endLoc "VERIFY_RTE"
    let h := c.heading
    let bodies := if strBodyPart ≠ "" ∧ b then h.bodies ++ [strBodyPart] else h.bodies
    pure (.again { c with heading := { h with bodies := bodies } } b)

/-- The end of `parse_context_body`. -/
def closeBody (egSourceFile : String) (c : Context) (bActionDefinition : Bool) :
    Parse Context := do
  let p ← get
  errorIf (p.braceCount ≠ p.back) "VERIFY_RTE"
  popBrace
  if bActionDefinition then
    match c.heading.definitionFile with
    | some file =>
      if file = egSourceFile then
        parserError ("Action: " ++ c.heading.identifier ++ " multiply defined in: " ++ egSourceFile)
      else
        parserError ("Action: " ++ c.heading.identifier ++ " multiply defined in: " ++ file ++
          " and " ++ egSourceFile)
    | none => pure { c with heading := { c.heading with definitionFile := some egSourceFile } }
  else pure c

/-- `parse_context_body`, around the loop. -/
def contextBody (egSourceFile : String) (rounds : Context → Bool → Parse (Context × Bool))
    (c : Context) : Parse Context := do
  pushBrace
  let (c', bActionDefinition) ← rounds c false
  closeBody egSourceFile c' bActionDefinition

/-- The loop of `parse_context_body`: the fuel bounds the rounds of it, of the nested ones, and of
the loops that do not test for the end of the file. -/
def contextBodyLoop (egSourceFile : String) (loop : ℕ → Scan) :
    ℕ → Context → Bool → Parse (Context × Bool)
  | 0, _, _ => throw .outOfFuel
  | fuel + 1, c, bActionDefinition => do
    let p ← get
    if p.isEofOrEom then pure (c, bActionDefinition)
    else do
      let nested := contextBody egSourceFile (contextBodyLoop egSourceFile loop fuel)
      let round ← parse_element src (loop fuel) nested c bActionDefinition
      match round with
      | .again c' b => contextBodyLoop egSourceFile loop fuel c' b
      | .leave => pure (c, bActionDefinition)

/-- `parse_file`, which is `parse_context_body` on the root. -/
def parse_file (loop : ℕ → Scan) (fuel : ℕ) (egSourceFile : String) (root : Context) :
    Parse Context :=
  contextBody egSourceFile (contextBodyLoop src egSourceFile loop fuel) root

/-- `parseEGSourceFile` on the tokens of the file, with a bound on the rounds of every loop. -/
def parseEGSourceFile (fuel : ℕ) (egSourceFile : String) (root : Context) (tokens : List Token) :
    Except Fault Context :=
  if src.fileExists egSourceFile then
    ((parse_file src (scan src) fuel egSourceFile root).run ⟨tokens, 0, []⟩).map Prod.fst
  else .error (.error ("File not found: " ++ egSourceFile))

end Contexts

end EgLang.Parsing
