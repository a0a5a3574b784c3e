import EgLang.Library.Fuel
import Mathlib.Algebra.Group.Nat.Defs

/-!
# The token stream of the parser

The parser looks at the current token `Tok` and at the one after it, and consumes one token at a
time. Behind the last token the lexer returns the end of file for ever, so consuming does nothing
there. Most scanning loops stop at the end of the file; the others run until they find their token.
-/

namespace EgLang.Parsing

open EgLang.Library

set_option autoImplicit false

/-- `clang::tok::TokenKind`, as far as the parser tells the kinds apart. The end of file is not
among them: it is the end of the list of tokens. -/
inductive TokenKind
  | identifier (name : String)
  | coloncolon | colon | semi | comma | equal
  | l_paren | r_paren | l_square | r_square | l_brace | r_brace
  | kw_abstract | kw_event | kw_function | kw_action | kw_link | kw_object
  | kw_const | kw_dim | kw_include | kw_using | kw_export | kw_public | kw_private
  | comment | eod | code_completion
  | annot_module_begin | annot_module_end | annot_module_include
  | other
deriving DecidableEq, Repr

/-- `clang::Token`: its kind, `getLocation` and `getEndLoc`. -/
structure Token where
  kind : TokenKind
  location : ℕ
  endLoc : ℕ
deriving DecidableEq, Repr

/-- How a parse stops without a result. An `error` is an exception with its text; `outOfFuel` says
that a loop was still running; `unclosed` is thrown by the checked loops only. -/
inductive Fault
  | error (text : String)
  | outOfFuel
  | unclosed
deriving DecidableEq, Repr

/-- What the parser takes from the preprocessor and the file system: the location of the end of
file, the text of a range, the header search with `tryGetRealPathName`, and three functions of
paths. -/
structure Source where
  eof : ℕ
  getSourceText : ℕ → ℕ → Option String
  lookupFile : String → Bool → Option String
  extension : String → String
  absoluteCanonical : String → String
  fileExists : String → Bool

/-- The state of the `Parser`: the tokens that are left, `Tok` first, and the brace counts. -/
structure Parser where
  tokens : List Token
  braceCount : ℕ
  braceStack : List ℕ
deriving DecidableEq, Repr

abbrev Parse := StateT Parser (Except Fault)

/-! ## Single tokens -/

namespace Parser

/-- `Tok`, if it is not the end of file. -/
def Tok (p : Parser) : Option TokenKind := p.tokens.head?.map Token.kind

/-- `NextToken()`. -/
def NextToken (p : Parser) : Option TokenKind := p.tokens.tail.head?.map Token.kind

/-- `Tok.getLocation()`. -/
def location (src : Source) (p : Parser) : ℕ := (p.tokens.head?.map Token.location).getD src.eof

/-- `Tok.getEndLoc()`. -/
def endLoc (src : Source) (p : Parser) : ℕ := (p.tokens.head?.map Token.endLoc).getD src.eof

end Parser

def TokenKind.isEom : TokenKind → Bool
  | .annot_module_begin | .annot_module_end | .annot_module_include => true
  | _ => false

/-- `BraceCount`, an `unsigned short`, after a token was consumed with `ConsumeAnyToken`. -/
def countBrace : Option TokenKind → ℕ → ℕ
  | some .l_brace, n => (n + 1) % 2 ^ 16
  | some .r_brace, n => n - 1
  | _, n => n

namespace Parser

def isEofOrEom (p : Parser) : Bool :=
  match p.Tok with
  | none => true
  | some k => k.isEom

/-- `ConsumeToken`: it does not look at the kind of the token. -/
def afterToken (p : Parser) : Parser := { p with tokens := p.tokens.tail }

/-- `ConsumeAnyToken`. -/
def afterAnyToken (p : Parser) : Parser :=
  { p with tokens := p.tokens.tail, braceCount := countBrace p.Tok p.braceCount }

@[simp] theorem afterToken_tokens (p : Parser) : p.afterToken.tokens = p.tokens.tail := rfl

@[simp] theorem afterAnyToken_tokens (p : Parser) : p.afterAnyToken.tokens = p.tokens.tail := rfl

end Parser

def consumeToken : Parse Unit := modify Parser.afterToken

def consumeAnyToken : Parse Unit := modify Parser.afterAnyToken

/-- `EG_PARSER_ERROR` and the other exceptions. -/
def parserError {α : Type} (text : String) : Parse α := throw (.error text)

/-- `EG_PARSER_ERROR` under a condition. -/
def errorIf (b : Bool) (text : String) : Parse Unit := if b then parserError text else pure ()

/-- `VERIFY_RTE( getSourceText( … ) )`, or the error of the caller instead. -/
def sourceText (src : Source) (startLoc endLoc : ℕ) (text : String) : Parse String :=
  match src.getSourceText startLoc endLoc with
  | some str => pure str
  | none => parserError text

/-! ## The loops -/

/-- `while( !isEofOrEom() && !stop ) ConsumeAnyToken();`: the tokens it consumed, those that are
left and the brace count. -/
def skim (stop : List Token → ℕ → Bool) : List Token → ℕ → List Token × List Token × ℕ
  | [], n => ([], [], n)
  | t :: rest, n =>
    if t.kind.isEom || stop (t :: rest) n then ([], t :: rest, n)
    else
      let (taken, left, n') := skim stop rest (countBrace (some t.kind) n)
      (t :: taken, left, n')

def skimUntil (stop : List Token → ℕ → Bool) : Parse (List Token) := fun p =>
  let (taken, left, n) := skim stop p.tokens p.braceCount
  .ok (taken, { p with tokens := left, braceCount := n })

/-- The scan that most parsers share: the first token is consumed whatever it is, the others until
`stop`. The result is the range of what was consumed and the tokens of the loop. -/
def passage (src : Source) (stop : List Token → ℕ → Bool) : Parse (ℕ × ℕ × List Token) := do
  let p ← get
  consumeAnyToken
  let taken ← skimUntil stop
  pure (p.location src, taken.foldl (fun _ t => t.endLoc) (p.endLoc src), taken)

/-- A loop without a test for the end of the file. -/
abbrev Scan := (List Token → Bool) → Parse Unit → ℕ → Parse ℕ

/-- `while( !closed ) { endLoc = Tok.getEndLoc(); consume(); }` -/
def scan (src : Source) : ℕ → Scan
  | 0, _, _, _ => throw .outOfFuel
  | fuel + 1, closed, consume, endLoc => do
    let p ← get
    if closed p.tokens then pure endLoc
    else do
      consume
      scan src fuel closed consume (p.endLoc src)

/-- The loop comes to its end on these tokens. -/
def ahead (closed : List Token → Bool) : List Token → Bool
  | [] => closed []
  | t :: rest => closed (t :: rest) || ahead closed rest

/-- The loop, entered only when it comes to its end. -/
def checkedScan (src : Source) (fuel : ℕ) : Scan := fun closed consume endLoc => do
  let p ← get
  if ahead closed p.tokens then scan src fuel closed consume endLoc else throw .unclosed

/-- `while( Tok.is( comment ) ) ConsumeToken();` -/
def dropComments : List Token → List Token
  | [] => []
  | t :: rest => if t.kind = .comment then dropComments rest else t :: rest

/-- `parse_comment`. -/
def parse_comment : Parse Unit := modify fun p => { p with tokens := dropComments p.tokens }

/-- `TryConsumeToken( expected )`, with the error of its callers. -/
def expectToken (expected : TokenKind) (text : String) : Parse Unit := do
  let p ← get
  errorIf (p.Tok ≠ some expected) text
  consumeToken

def parse_semicolon : Parse Unit := expectToken .semi "Expected semicolon"

def parse_identifier : Parse String := do
  let p ← get
  match p.Tok with
  | some (.identifier name) => do
    consumeToken
    pure name
  | _ => parserError "Expected identifier"

/-! ## Balanced delimiters -/

/-- `BalancedDelimiterTracker::consumeClose`. -/
def consumeClose (close : TokenKind) : Parse Unit := do
  let p ← get
  if p.Tok = some close then consumeAnyToken
  else if p.Tok = some .semi ∧ p.NextToken = some close then do
    consumeToken
    consumeAnyToken
  else parserError "diagnoseMissingClose"

/-- `BalancedDelimiterTracker::consumeOpen`: without the opening token it does nothing. -/
def consumeOpen (open_ : TokenKind) : Parse Unit := do
  let p ← get
  if p.Tok = some open_ then consumeAnyToken else pure ()

/-- `braceStack.push_back( BraceCount )`. -/
def pushBrace : Parse Unit := modify fun p => { p with braceStack := p.braceCount :: p.braceStack }

/-- `braceStack.pop_back()`. -/
def popBrace : Parse Unit := modify fun p => { p with braceStack := p.braceStack.tail }

/-- `braceStack.back()`. -/
def Parser.back (p : Parser) : ℕ := p.braceStack.headD 0

end EgLang.Parsing
