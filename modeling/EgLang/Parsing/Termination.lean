import EgLang.Parsing.Grammar

/-!
# Termination of the parser

Every loop consumes a token in each of its rounds, but three of them do not stop at the end of the
file. The parser ends exactly on the inputs in which those three find their token each time they
are entered.
-/

namespace EgLang.Parsing

open EgLang.Library

set_option autoImplicit false

/-! ## Plain parsers -/

section Plain
variable {α β : Type}

/-- The number of the tokens that are left. -/
def size (p : Parser) : ℕ := p.tokens.length

/-- The exceptions of the source. -/
def IsError (e : Fault) : Prop := ∃ text, e = .error text

/-- From every state the parser comes to an end, by itself or with an exception, and no further
away from the end of the file. -/
def Plain (m : Parse α) : Prop := ∀ p, Bounded size IsError (size p) (m p)

theorem Plain.bind {m : Parse α} {f : α → Parse β} (hm : Plain m) (hf : ∀ a, Plain (f a)) :
    Plain (m >>= f) := fun p =>
  (hm p).bind fun a p' hp' => (hf a p').mono hp' fun _ h => h

theorem plain_pure (a : α) : Plain (pure a : Parse α) := fun p => Nat.le_refl (size p)

theorem plain_get : Plain (get : Parse Parser) := fun p => Nat.le_refl (size p)

theorem plain_modify {f : Parser → Parser} (hf : ∀ p, size (f p) ≤ size p) :
    Plain (modify f : Parse Unit) := hf

theorem plain_parserError (text : String) : Plain (parserError text : Parse α) :=
  fun _ => ⟨text, rfl⟩

theorem plain_ite {c : Prop} [Decidable c] {m m' : Parse α} (hm : Plain m) (hm' : Plain m') :
    Plain (if c then m else m') := by
  split
  · exact hm
  · exact hm'

theorem plain_errorIf (b : Bool) (text : String) : Plain (errorIf b text) :=
  plain_ite (plain_parserError text) (plain_pure ())

theorem plain_sourceText (src : Source) (startLoc endLoc : ℕ) (text : String) :
    Plain (sourceText src startLoc endLoc text) := by
  unfold sourceText
  split
  · exact plain_pure _
  · exact plain_parserError text

/-! ## Single tokens -/

theorem size_afterToken (p : Parser) : size p.afterToken ≤ size p := by
  rw [size, size, Parser.afterToken_tokens, List.length_tail]
  omega

theorem plain_consumeToken : Plain consumeToken := plain_modify size_afterToken

theorem plain_consumeAnyToken : Plain consumeAnyToken := plain_modify fun p => size_afterToken p

theorem plain_pushBrace : Plain pushBrace := plain_modify fun p => Nat.le_refl (size p)

theorem plain_popBrace : Plain popBrace := plain_modify fun p => Nat.le_refl (size p)

theorem length_dropComments (ts : List Token) : (dropComments ts).length ≤ ts.length := by
  induction ts with
  | nil => exact Nat.le_refl _
  | cons t rest ih =>
    rw [dropComments]
    split
    · rw [List.length_cons]
      omega
    · exact Nat.le_refl _

theorem plain_parse_comment : Plain parse_comment :=
  plain_modify fun p => length_dropComments p.tokens

theorem plain_expectToken (expected : TokenKind) (text : String) :
    Plain (expectToken expected text) :=
  plain_get.bind fun _ => (plain_errorIf _ text).bind fun _ => plain_consumeToken

theorem plain_parse_semicolon : Plain parse_semicolon := plain_expectToken _ _

theorem plain_parse_identifier : Plain parse_identifier := by
  refine plain_get.bind fun p => ?_
  split
  · exact plain_consumeToken.bind fun _ => plain_pure _
  · exact plain_parserError _

theorem plain_consumeClose (close : TokenKind) : Plain (consumeClose close) := by
  refine plain_get.bind fun p => ?_
  apply plain_ite plain_consumeAnyToken
  apply plain_ite
  · exact plain_consumeToken.bind fun _ => plain_consumeAnyToken
  · exact plain_parserError _

theorem plain_consumeOpen (open_ : TokenKind) : Plain (consumeOpen open_) :=
  plain_get.bind fun _ => plain_ite plain_consumeAnyToken (plain_pure ())

/-! ## The loops that stop at the end of the file -/

theorem length_skim (stop : List Token → ℕ → Bool) (ts : List Token) (n : ℕ) :
    (skim stop ts n).2.1.length ≤ ts.length := by
  induction ts generalizing n with
  | nil => exact Nat.le_refl _
  | cons t rest ih =>
    rw [skim]
    split
    · exact Nat.le_refl _
    · exact Nat.le_succ_of_le (ih (countBrace (some t.kind) n))

theorem plain_skimUntil (stop : List Token → ℕ → Bool) : Plain (skimUntil stop) :=
  fun p => length_skim stop p.tokens p.braceCount

theorem plain_passage (src : Source) (stop : List Token → ℕ → Bool) :
    Plain (passage src stop) :=
  plain_get.bind fun _ => plain_consumeAnyToken.bind fun _ =>
    (plain_skimUntil stop).bind fun _ => plain_pure _

end Plain

/-! ## Parts of a declaration -/

section Parts
variable (src : Source)

theorem plain_parse_argumentList : Plain (parse_argumentList src) := by
  refine plain_get.bind fun p => plain_ite ?_ (plain_pure none)
  refine (plain_consumeOpen _).bind fun _ => plain_get.bind fun q => ?_
  refine Plain.bind ?_ fun arguments => (plain_consumeClose _).bind fun _ => plain_pure _
  refine plain_ite ?_ (plain_pure "")
  exact (plain_passage src _).bind fun _ => plain_sourceText src _ _ _

theorem plain_parse_returnType : Plain (parse_returnType src) := by
  refine plain_get.bind fun p => plain_ite ?_ (plain_pure none)
  refine plain_consumeAnyToken.bind fun _ => (plain_passage src _).bind fun range => ?_
  exact (plain_sourceText src _ _ _).bind fun _ => plain_pure _

theorem plain_parse_size : Plain (parse_size src) := by
  refine plain_get.bind fun p => plain_ite ?_ (plain_pure none)
  refine (plain_consumeOpen _).bind fun _ => (plain_passage src _).bind fun range => ?_
  refine (plain_sourceText src _ _ _).bind fun _ => ?_
  exact (plain_consumeClose _).bind fun _ => plain_pure _

theorem plain_parse_body : Plain (parse_body src) := by
  refine plain_get.bind fun p => plain_ite ?_ (plain_pure "")
  refine (plain_consumeOpen _).bind fun _ => plain_pushBrace.bind fun _ => ?_
  refine plain_get.bind fun q => (plain_passage src _).bind fun range => ?_
  refine (plain_sourceText src _ _ _).bind fun _ => plain_get.bind fun r => ?_
  refine (plain_errorIf _ _).bind fun _ => plain_popBrace.bind fun _ => ?_
  exact (plain_consumeClose _).bind fun _ => plain_pure _

theorem plain_parse_visibility : Plain parse_visibility :=
  plain_get.bind fun _ => (plain_errorIf _ _).bind fun _ => plain_consumeToken.bind fun _ =>
    (plain_expectToken _ _).bind fun _ => plain_pure _

theorem plain_parse_export : Plain (parse_export src) := by
  refine plain_parse_identifier.bind fun _ => (plain_parse_argumentList src).bind fun _ => ?_
  refine (plain_parse_returnType src).bind fun _ => plain_parse_comment.bind fun _ => ?_
  refine (plain_parse_body src).bind fun _ => (plain_errorIf _ _).bind fun _ => ?_
  exact plain_pure _

theorem plain_setIncludeFilePath (identifier strIncludeFile : String) :
    Plain (setIncludeFilePath src identifier strIncludeFile) :=
  (plain_errorIf _ _).bind fun _ =>
    plain_ite (plain_pure _) (plain_ite (plain_pure _) (plain_pure _))

theorem plain_add_link_base (c : Context) : Plain (add_link_base c) := by
  unfold add_link_base
  split
  · exact plain_ite (plain_pure _) (plain_pure _)
  · exact plain_parserError _

theorem plain_defineOnce (old new : Option String) (text : String) :
    Plain (defineOnce old new text) :=
  (plain_errorIf _ _).bind fun _ => plain_pure _

theorem plain_closeBody (egSourceFile : String) (c : Context) (b : Bool) :
    Plain (closeBody egSourceFile c b) := by
  refine plain_get.bind fun p => (plain_errorIf _ _).bind fun _ => plain_popBrace.bind fun _ => ?_
  refine plain_ite ?_ (plain_pure c)
  split
  · exact plain_ite (plain_parserError _) (plain_parserError _)
  · exact plain_pure _

end Parts

/-! ## Loops with a bound of their own -/

section Rounds
variable (src : Source)

theorem size_pos_of_Tok {p : Parser} {k : TokenKind} (h : p.Tok = some k) : 0 < size p := by
  refine List.length_pos_iff.mpr fun hnil => ?_
  rw [Parser.Tok, hnil] at h
  cases h

theorem bounded_consumeToken {F : Fault → Prop} (p : Parser) :
    Bounded size F (size p - 1) (consumeToken p) :=
  Nat.le_of_eq List.length_tail

theorem bounded_consumeAnyToken {F : Fault → Prop} (p : Parser) :
    Bounded size F (size p - 1) (consumeAnyToken p) :=
  Nat.le_of_eq List.length_tail

theorem Plain.bounded {α : Type} {m : Parse α} (hm : Plain m) {k : ℕ} {p : Parser}
    (hk : size p ≤ k) : Bounded size IsError k (m p) :=
  (hm p).mono hk fun _ h => h

theorem bounded_passage (stop : List Token → ℕ → Bool) (p : Parser) :
    Bounded size IsError (size p - 1) (passage src stop p) := by
  refine Bounded.bind (plain_get p) fun q p1 hp1 => ?_
  refine (bounded_consumeAnyToken p1).bind fun _ p2 hp2 => ?_
  exact ((plain_skimUntil stop).bind fun _ => plain_pure _).bounded (by omega)

theorem bounded_parse_visibility (p : Parser) :
    Bounded size IsError (size p - 1) (parse_visibility p) := by
  refine Bounded.bind (plain_get p) fun q p0 hp0 => ?_
  refine Bounded.bind (plain_errorIf _ _ p0) fun _ p1 hp1 => ?_
  refine (bounded_consumeToken p1).bind fun _ p2 hp2 => ?_
  exact ((plain_expectToken _ _).bind fun _ => plain_pure _).bounded (by omega)

theorem bounded_inheritanceLoop (rounds : ℕ) (p : Parser) (h0 : 0 < size p)
    (hr : size p ≤ rounds) : Bounded size IsError (size p) (inheritanceLoop src rounds p) := by
  induction rounds generalizing p with
  | zero => omega
  | succ rounds ih =>
    refine (bounded_consumeAnyToken p).bind fun _ p1 hp1 => ?_
    refine ((plain_passage src _).bounded hp1).bind fun range p2 hp2 => ?_
    refine ((plain_sourceText src _ _ _).bounded hp2).bind fun str p3 hp3 => ?_
    change Bounded size IsError (size p)
      ((if p3.Tok = some .comma then _ else _ : Parse (List String)) p3)
    split
    · rename_i hcomma
      have h3 := size_pos_of_Tok hcomma
      have hrec : Bounded size IsError (size p) (inheritanceLoop src rounds p3) :=
        (ih p3 h3 (by omega)).mono (by omega) fun _ h => h
      exact hrec.bind fun more p4 hp4 => (plain_pure _).bounded hp4
    · exact (plain_pure _).bounded (by omega)

theorem plain_parse_inheritance : Plain (parse_inheritance src) := by
  intro p
  change Bounded size IsError (size p)
    ((if p.Tok = some .colon then _ else _ : Parse (List String)) p)
  split
  · rename_i hcolon
    exact bounded_inheritanceLoop src _ p (size_pos_of_Tok hcolon) (Nat.le_refl _)
  · exact plain_pure _ p

theorem bounded_qualifiers (rounds : ℕ) (p : Parser) (hr : size p < rounds) :
    Bounded size IsError (size p) (qualifiers rounds p) := by
  induction rounds generalizing p with
  | zero => omega
  | succ rounds ih =>
    change Bounded size IsError (size p)
      ((if p.Tok = some .coloncolon then _ else _ : Parse (List String)) p)
    split
    · rename_i hcolon
      have h0 := size_pos_of_Tok hcolon
      refine (bounded_consumeToken p).bind fun _ p1 hp1 => ?_
      refine (plain_parse_identifier.bounded hp1).bind fun name p2 hp2 => ?_
      have hrec : Bounded size IsError (size p) (qualifiers rounds p2) :=
        (ih p2 (by omega)).mono (by omega) fun _ h => h
      exact hrec.bind fun more p3 hp3 => (plain_pure _).bounded hp3
    · exact plain_pure _ p

theorem plain_parse_qualifiers : Plain parse_qualifiers := fun p =>
  bounded_qualifiers (size p + 1) p (Nat.lt_succ_self _)

end Rounds

/-! ## Relations between parsers

Two parsers that are built in the same way from related loops and related parsers of nested
contexts are related, for every relation that plain parsers and sequences keep. -/

section Relations
variable (src : Source)

/-- A relation between parsers that holds between a plain parser and itself and passes through
sequences. -/
structure Compositional (R : (α : Type) → Parse α → Parse α → Prop) : Prop where
  plain : ∀ {α : Type} {m : Parse α}, Plain m → R α m m
  bind : ∀ {α β : Type} {m m' : Parse α} {f f' : α → Parse β}, R α m m' →
    (∀ a, R β (f a) (f' a)) → R β (m >>= f) (m' >>= f')

theorem related_ite {R : (α : Type) → Parse α → Parse α → Prop} {α : Type} {c : Prop}
    [Decidable c] {m m' n n' : Parse α} (hm : R α m m') (hn : R α n n') :
    R α (if c then m else n) (if c then m' else n') := by
  split
  · exact hm
  · exact hn

/-- What the loops do in a round: the next token is gone. -/
def Advances (consume : Parse Unit) : Prop :=
  ∀ p, ∃ p', consume p = .ok ((), p') ∧ p'.tokens = p.tokens.tail

theorem advances_consumeToken : Advances consumeToken := fun p => ⟨p.afterToken, rfl, rfl⟩

theorem advances_consumeAnyToken : Advances consumeAnyToken := fun p => ⟨p.afterAnyToken, rfl, rfl⟩

variable {R : (α : Type) → Parse α → Parse α → Prop} (hR : Compositional R)
include hR

theorem Compositional.plain_bind {α β : Type} {m : Parse α} {f f' : α → Parse β} (hm : Plain m)
    (hf : ∀ a, R β (f a) (f' a)) : R β (m >>= f) (m >>= f') :=
  hR.bind (hR.plain hm) hf

theorem Compositional.withContext {parse parse' : Context → Parse Context}
    (hparse : ∀ c, R Context (parse c) (parse' c)) (name : String) (c : Context) :
    R Context (withContext name parse c) (withContext name parse' c) := by
  unfold Parsing.withContext
  split
  · exact hR.bind (hparse _) fun k => hR.plain (plain_pure _)
  · exact hR.bind (hparse _) fun k => hR.plain (plain_pure _)

theorem Compositional.alongNames {parse parse' : Context → Parse Context}
    (hparse : ∀ c, R Context (parse c) (parse' c)) (names : List String) (c : Context) :
    R Context (alongNames parse names c) (alongNames parse' names c) := by
  induction names generalizing c with
  | nil => exact hparse c
  | cons name names ih => exact hR.withContext ih name c

theorem Compositional.parse_declaration {nested nested' : Context → Parse Context}
    (hnested : ∀ c, R Context (nested c) (nested' c)) (contextType : ContextType) (c : Context) :
    R Context (parse_declaration src nested contextType c)
      (parse_declaration src nested' contextType c) := by
  refine hR.plain_bind plain_parse_comment fun _ => ?_
  refine hR.plain_bind (plain_parse_argumentList src) fun _ => ?_
  refine hR.plain_bind (plain_defineOnce _ _ _) fun _ => ?_
  refine hR.plain_bind plain_parse_comment fun _ => ?_
  refine hR.plain_bind (plain_parse_size src) fun _ => ?_
  refine hR.plain_bind (plain_defineOnce _ _ _) fun _ => ?_
  refine hR.plain_bind plain_parse_comment fun _ => ?_
  refine hR.plain_bind (plain_parse_inheritance src) fun _ => ?_
  refine hR.plain_bind (plain_errorIf _ _) fun _ => ?_
  refine hR.plain_bind plain_parse_comment fun _ => hR.plain_bind plain_get fun p => ?_
  refine hR.bind ?_ fun c2 => hR.plain ?_
  · apply related_ite
    · refine hR.plain_bind (plain_consumeOpen _) fun _ => hR.bind (hnested _) fun c2 => ?_
      exact hR.plain_bind (plain_consumeClose _) fun _ => hR.plain (plain_pure _)
    · apply related_ite
      · exact hR.plain_bind plain_consumeToken fun _ => hR.plain (plain_pure _)
      · exact hR.plain (plain_parserError _)
  · cases contextType
    case eLink => exact plain_add_link_base c2
    case eUnknown => exact plain_parserError _
    all_goals exact plain_pure c2

theorem Compositional.parse_context {nested nested' : Context → Parse Context}
    (hnested : ∀ c, R Context (nested c) (nested' c)) (contextType : ContextType) (c : Context) :
    R Context (parse_context src nested contextType c)
      (parse_context src nested' contextType c) :=
  hR.plain_bind plain_parse_qualifiers fun names =>
    hR.alongNames (hR.parse_declaration src hnested contextType) names c

variable {loop loop' : Scan}
  (hloop : ∀ closed consume endLoc, Advances consume →
    R ℕ (loop closed consume endLoc) (loop' closed consume endLoc))
include hloop

theorem Compositional.parse_dimension (isConst : Bool) :
    R Dimension (parse_dimension src loop isConst) (parse_dimension src loop' isConst) := by
  refine hR.plain_bind plain_get fun p => ?_
  refine hR.bind (hloop _ _ _ advances_consumeToken) fun endLoc => hR.plain ?_
  refine (plain_sourceText src _ _ _).bind fun type => plain_parse_identifier.bind fun _ => ?_
  exact plain_parse_semicolon.bind fun _ => plain_pure _

theorem Compositional.parse_include :
    R Inclusion (parse_include src loop) (parse_include src loop') := by
  refine hR.plain_bind plain_get fun p => hR.plain_bind ?_ fun identifier => ?_
  · split
    · exact plain_parse_identifier
    · exact plain_pure ""
  · refine hR.plain_bind (plain_consumeOpen _) fun _ => hR.plain_bind plain_get fun q => ?_
    refine hR.bind (hloop _ _ _ advances_consumeAnyToken) fun endLoc => hR.plain ?_
    refine (plain_sourceText src _ _ _).bind fun text => (plain_errorIf _ _).bind fun _ => ?_
    refine (plain_setIncludeFilePath src _ _).bind fun i => (plain_consumeClose _).bind fun _ => ?_
    exact plain_parse_semicolon.bind fun _ => plain_pure _

theorem Compositional.parse_using :
    R Using (parse_using src loop) (parse_using src loop') := by
  refine hR.plain_bind plain_parse_identifier fun identifier => ?_
  refine hR.plain_bind (plain_expectToken _ _) fun _ => hR.plain_bind plain_get fun p => ?_
  refine hR.bind (hloop _ _ _ advances_consumeToken) fun endLoc => hR.plain ?_
  refine (plain_sourceText src _ _ _).bind fun type => plain_parse_semicolon.bind fun _ => ?_
  exact plain_pure _

theorem Compositional.parse_element {nested nested' : Context → Parse Context}
    (hnested : ∀ c, R Context (nested c) (nested' c)) (c : Context) (b : Bool) :
    R Round (parse_element src loop nested c b) (parse_element src loop' nested' c b) := by
  have again (c : Context) (b : Bool) : R Round (pure (.again c b)) (pure (.again c b)) :=
    hR.plain (plain_pure _)
  refine hR.plain_bind plain_get fun p => ?_
  apply related_ite
  · refine hR.plain_bind plain_consumeToken fun _ => ?_
    refine hR.plain_bind plain_parse_identifier fun name => ?_
    refine hR.bind (hR.withContext ?_ name c) fun c' => again c' b
    exact hR.parse_context src hnested _
  apply related_ite
  · refine hR.plain_bind (plain_ite plain_consumeToken (plain_pure _)) fun _ => ?_
    refine hR.plain_bind plain_consumeToken fun _ => ?_
    exact hR.bind (hR.parse_dimension src hloop _) fun d => again _ b
  apply related_ite
  · refine hR.plain_bind plain_consumeToken fun _ => ?_
    exact hR.bind (hR.parse_include src hloop) fun i => again _ b
  apply related_ite
  · refine hR.plain_bind plain_consumeToken fun _ => ?_
    exact hR.bind (hR.parse_using src hloop) fun u => again _ b
  apply related_ite
  · refine hR.plain_bind plain_consumeToken fun _ => ?_
    exact hR.plain_bind (plain_parse_export src) fun e => again _ b
  apply related_ite
  · exact hR.plain_bind plain_parse_visibility fun v => again _ b
  apply related_ite
  · exact hR.plain (plain_pure _)
  · refine hR.plain_bind (plain_passage src _) fun range => ?_
    exact hR.plain_bind (plain_sourceText src _ _ _) fun part => again _ _

omit hloop

theorem Compositional.contextBody {rounds rounds' : Context → Bool → Parse (Context × Bool)}
    (hrounds : ∀ c b, R (Context × Bool) (rounds c b) (rounds' c b)) (egSourceFile : String)
    (c : Context) :
    R Context (contextBody egSourceFile rounds c) (contextBody egSourceFile rounds' c) :=
  hR.plain_bind plain_pushBrace fun _ => hR.bind (hrounds c false) fun _ =>
    hR.plain (plain_closeBody egSourceFile _ _)

end Relations

/-! ## More fuel -/

section MoreFuel
variable (src : Source) {S : Option Fault} (hS : ∀ e ∈ S, e = .unclosed)
include hS

theorem lags_compositional :
    Compositional fun α m m' => @Lags _ _ α .outOfFuel S m m' where
  plain := fun hm => Lags.refl fun p e he => (hm p).ne_error (by
    rw [hS e he]
    rintro ⟨text, htext⟩
    cases htext)
  bind := Lags.bind

/-- A parser with less fuel, or with the loops of the source, lags behind. -/
theorem lags_contextBodyLoop {loop loop' : ℕ → Scan}
    (hloop : ∀ n m, n = m ∨ n ≤ m ∧ S = none → ∀ closed consume endLoc, Advances consume →
      Lags .outOfFuel S (loop n closed consume endLoc) (loop' m closed consume endLoc))
    (egSourceFile : String) (n m : ℕ) (hnm : n = m ∨ n ≤ m ∧ S = none) (c : Context) (b : Bool) :
    Lags .outOfFuel S (contextBodyLoop src egSourceFile loop n c b)
      (contextBodyLoop src egSourceFile loop' m c b) := by
  have hR := lags_compositional hS
  induction n generalizing m c b with
  | zero =>
    intro p
    rcases hnm with rfl | ⟨_, rfl⟩
    · refine .inl ⟨rfl, fun e he h => ?_⟩
      rw [hS e he] at h
      cases h
    · exact .inr ⟨rfl, fun e he => by cases he⟩
  | succ n ih =>
    obtain ⟨m, rfl⟩ : ∃ k, m = k + 1 := ⟨m - 1, by omega⟩
    have hnm' : n = m ∨ n ≤ m ∧ S = none := by
      rcases hnm with h | ⟨h, hnone⟩
      · exact .inl (by omega)
      · exact .inr ⟨by omega, hnone⟩
    have hnested (c : Context) := hR.contextBody (ih m hnm') egSourceFile c
    refine hR.plain_bind plain_get fun p => ?_
    split
    · exact hR.plain (plain_pure _)
    · refine hR.bind (hR.parse_element src (hloop n m hnm') hnested c b) fun round => ?_
      cases round with
      | again c' b' => exact ih m hnm' c' b'
      | leave => exact hR.plain (plain_pure _)

theorem lags_parse_file {loop loop' : ℕ → Scan}
    (hloop : ∀ n m, n = m ∨ n ≤ m ∧ S = none → ∀ closed consume endLoc, Advances consume →
      Lags .outOfFuel S (loop n closed consume endLoc) (loop' m closed consume endLoc))
    (egSourceFile : String) (n m : ℕ) (hnm : n = m ∨ n ≤ m ∧ S = none) (root : Context) :
    Lags .outOfFuel S (parse_file src loop n egSourceFile root)
      (parse_file src loop' m egSourceFile root) :=
  (lags_compositional hS).contextBody
    (lags_contextBodyLoop src hS hloop egSourceFile n m hnm) egSourceFile root

end MoreFuel

/-- With less than `n` tokens left, the first parser does not run out of fuel. As a relation it
does not look at the second one. -/
def Ends (n : ℕ) (α : Type) (m _ : Parse α) : Prop :=
  ∀ p, size p < n → Bounded size (· ≠ .outOfFuel) (size p) (m p)

theorem isError_ne (e : Fault) (h : IsError e) : e ≠ .outOfFuel := by
  obtain ⟨text, rfl⟩ := h
  intro h
  cases h

/-! ## The loops without a test for the end of the file -/

section Loops
variable (src : Source) {closed : List Token → Bool} {consume : Parse Unit}
  (hconsume : Advances consume)
include hconsume

omit hconsume in
theorem scan_succ {p p' : Parser} (hp' : consume p = .ok ((), p')) (n endLoc : ℕ) :
    scan src (n + 1) closed consume endLoc p =
      if closed p.tokens then .ok (endLoc, p)
      else scan src n closed consume (p.endLoc src) p' := by
  change ((if closed p.tokens then pure endLoc else _ : Parse ℕ) p) = _
  split
  · rfl
  · change (consume p >>= fun q => scan src n closed consume (p.endLoc src) q.2) = _
    rw [hp']
    rfl

omit hconsume in
theorem ahead_eq (closed : List Token → Bool) (ts : List Token) :
    ahead closed ts = (closed ts || ahead closed ts.tail) := by
  cases ts with
  | nil => simp [ahead]
  | cons t rest => rfl

/-- Where the loop does not come to its end, no fuel is enough. -/
theorem scan_not_ahead (n endLoc : ℕ) (p : Parser) (h : ahead closed p.tokens = false) :
    scan src n closed consume endLoc p = .error .outOfFuel := by
  induction n generalizing endLoc p with
  | zero => rfl
  | succ n ih =>
    obtain ⟨p', hp', htail⟩ := hconsume p
    rw [ahead_eq, Bool.or_eq_false_iff] at h
    rw [scan_succ src hp', h.1]
    apply ih
    rw [htail]
    exact h.2

/-- Where it does, it takes no more rounds than there are tokens. -/
theorem scan_ahead (n endLoc : ℕ) (p : Parser) (h : ahead closed p.tokens = true)
    (hn : size p < n) :
    Bounded size IsError (size p) (scan src n closed consume endLoc p) := by
  induction n generalizing endLoc p with
  | zero => omega
  | succ n ih =>
    obtain ⟨p', hp', htail⟩ := hconsume p
    rw [scan_succ src hp']
    split
    · exact Nat.le_refl (size p)
    · rename_i hopen
      have hsize : size p' = size p - 1 := by rw [size, htail, List.length_tail, size]
      rw [ahead_eq, Bool.or_eq_true] at h
      have htail' : ahead closed p'.tokens = true := by
        rw [htail]
        exact h.resolve_left hopen
      by_cases h0 : size p = 0
      · have hnil : p.tokens = [] := List.length_eq_zero_iff.mp h0
        rw [htail, hnil] at htail'
        rw [hnil] at hopen
        exact absurd htail' hopen
      · exact (ih _ p' htail' (by omega)).mono (by omega) fun _ he => he

/-- The fuel does not change the result. -/
theorem lags_scan (n m endLoc : ℕ) (hnm : n ≤ m) :
    Lags .outOfFuel none (scan src n closed consume endLoc)
      (scan src m closed consume endLoc) := by
  induction n generalizing m endLoc with
  | zero => exact fun p => .inr ⟨rfl, fun e he => by cases he⟩
  | succ n ih =>
    obtain ⟨m, rfl⟩ : ∃ k, m = k + 1 := ⟨m - 1, by omega⟩
    intro p
    obtain ⟨p', hp', _⟩ := hconsume p
    rw [scan_succ src hp', scan_succ src hp']
    split
    · exact .inl ⟨rfl, fun e he => by cases he⟩
    · exact ih m _ (by omega) p'

theorem scan_ne_unclosed (n endLoc : ℕ) (p : Parser) :
    scan src n closed consume endLoc p ≠ .error .unclosed := by
  induction n generalizing endLoc p with
  | zero =>
    intro h
    cases h
  | succ n ih =>
    obtain ⟨p', hp', _⟩ := hconsume p
    rw [scan_succ src hp']
    split
    · intro h
      cases h
    · exact ih _ p'

theorem lags_scan_checked (n endLoc : ℕ) :
    Lags .outOfFuel (some .unclosed) (scan src n closed consume endLoc)
      (checkedScan src n closed consume endLoc) := by
  intro p
  change Behind _ _ _ ((if ahead closed p.tokens then _ else _ : Parse ℕ) p)
  split
  · refine .inl ⟨rfl, fun e he herr => ?_⟩
    rw [← Option.some.inj he] at herr
    exact scan_ne_unclosed src hconsume n endLoc p herr
  · rename_i h
    refine .inr ⟨scan_not_ahead src hconsume n endLoc p (by simpa using h), fun e he => ?_⟩
    rw [← Option.some.inj he]
    rfl

theorem lags_checkedScan (n m endLoc : ℕ) (hnm : n ≤ m) :
    Lags .outOfFuel none (checkedScan src n closed consume endLoc)
      (checkedScan src m closed consume endLoc) := by
  intro p
  change Behind _ _ ((if ahead closed p.tokens then _ else _ : Parse ℕ) p)
    ((if ahead closed p.tokens then _ else _ : Parse ℕ) p)
  split
  · exact lags_scan src hconsume n m endLoc hnm p
  · exact .inl ⟨rfl, fun e he => by cases he⟩

theorem ends_checkedScan (n endLoc : ℕ) :
    Ends n ℕ (checkedScan src n closed consume endLoc)
      (checkedScan src n closed consume endLoc) := by
  intro p hp
  change Bounded _ _ _ ((if ahead closed p.tokens then _ else _ : Parse ℕ) p)
  split
  · rename_i h
    exact (scan_ahead src hconsume n endLoc p h hp).mono (Nat.le_refl _) isError_ne
  · exact fun h => by cases h

end Loops

/-! ## Enough fuel -/

section Enough
variable (src : Source)

theorem ends_compositional (n : ℕ) : Compositional (Ends n) where
  plain := fun hm p _ => (hm p).mono (Nat.le_refl _) isError_ne
  bind := fun hm hf p hp => (hm p hp).bind fun a p' hp' =>
    (hf a p' (by omega)).mono hp' fun _ h => h

/-- The round leaves the loop in the state where it began, or consumes a token. -/
def Progress (p : Parser) (m : Parse Round) : Prop :=
  m p = .ok (.leave, p) ∨ Bounded size (· ≠ .outOfFuel) (size p - 1) (m p)

variable {loop : Scan} {nested : Context → Parse Context} {n : ℕ}
  (hloop : ∀ closed consume endLoc, Advances consume →
    Ends n ℕ (loop closed consume endLoc) (loop closed consume endLoc))
  (hnested : ∀ c, Ends n Context (nested c) (nested c))
include hloop hnested

/-- A round that does not leave the loop consumes a token. -/
theorem progress_parse_element (c : Context) (b : Bool) (p : Parser) (h0 : 0 < size p)
    (hp : size p < n + 1) : Progress p (parse_element src loop nested c b) := by
  have hR := ends_compositional n
  have again (c : Context) (b : Bool) : Plain (pure (Round.again c b)) := plain_pure _
  have afterToken {m : Parse Round} (hm : Ends n Round m m) :
      Progress p (consumeToken >>= fun _ => m) :=
    .inr ((bounded_consumeToken p).bind fun _ p1 hp1 =>
      (hm p1 (by omega)).mono hp1 fun _ h => h)
  change Progress p (if contextTypeOf p.Tok ≠ .eUnknown then _ else _)
  split
  · refine afterToken (hR.plain_bind plain_parse_identifier fun name => ?_)
    refine hR.bind (hR.withContext ?_ name c) fun c' => hR.plain (again c' b)
    exact hR.parse_context src hnested _
  split
  · have hdim (isConst : Bool) : Ends n Round
        (parse_dimension src loop isConst >>= fun d => pure (.again (c.push (.dimension d)) b))
        (parse_dimension src loop isConst >>= fun d => pure (.again (c.push (.dimension d)) b)) :=
      hR.bind (hR.parse_dimension src hloop isConst) fun d => hR.plain (again _ b)
    by_cases hconst : p.Tok = some .kw_const
    · simp only [hconst, decide_true, if_true]
      exact afterToken (hR.plain_bind plain_consumeToken fun _ => hdim true)
    · simp only [hconst, decide_false, if_false]
      exact afterToken (hdim false)
  split
  · refine afterToken ?_
    exact hR.bind (hR.parse_include src hloop) fun i => hR.plain (again _ b)
  split
  · refine afterToken ?_
    exact hR.bind (hR.parse_using src hloop) fun u => hR.plain (again _ b)
  split
  · refine afterToken ?_
    exact hR.plain_bind (plain_parse_export src) fun e => hR.plain (again _ b)
  split
  · refine .inr (Bounded.bind ((bounded_parse_visibility p).mono (Nat.le_refl _) isError_ne) ?_)
    exact fun v p1 hp1 => hp1
  split
  · exact .inl rfl
  · refine .inr (Bounded.bind ((bounded_passage src _ p).mono (Nat.le_refl _) isError_ne) ?_)
    refine fun range p1 hp1 => Bounded.mono ?_ hp1 isError_ne
    exact ((plain_sourceText src _ _ _).bind fun part => again _ _) p1

omit hloop hnested

/-- Every nesting takes one unit of fuel and one token, and so does every round. -/
theorem ends_contextBodyLoop {loop : ℕ → Scan} (hloop : ∀ n closed consume endLoc,
      Advances consume →
      Ends n ℕ (loop n closed consume endLoc) (loop n closed consume endLoc))
    (egSourceFile : String) (n : ℕ) (c : Context) (b : Bool) :
    Ends n (Context × Bool) (contextBodyLoop src egSourceFile loop n c b)
      (contextBodyLoop src egSourceFile loop n c b) := by
  induction n generalizing c b with
  | zero => exact fun p hp => absurd hp (Nat.not_lt_zero _)
  | succ n ih =>
    intro p hp
    change Bounded _ _ _ ((if p.isEofOrEom then _ else _ : Parse (Context × Bool)) p)
    split
    · exact Nat.le_refl (size p)
    · rename_i hend
      have h0 : 0 < size p := by
        refine Nat.pos_of_ne_zero fun h => hend ?_
        rw [Parser.isEofOrEom, Parser.Tok, List.length_eq_zero_iff.mp h]
        rfl
      have hnested (c : Context) := (ends_compositional n).contextBody ih egSourceFile c
      rcases progress_parse_element src (hloop n) hnested c b p h0 hp with hleave | hagain
      · change Bounded _ _ _ (parse_element src (loop n) _ c b p >>= fun _ => _)
        rw [hleave]
        exact Nat.le_refl (size p)
      · refine hagain.bind fun round p1 hp1 => ?_
        cases round with
        | again c' b' => exact (ih c' b' p1 (by omega)).mono (by omega) fun _ h => h
        | leave => exact Nat.le_trans hp1 (Nat.sub_le _ _)

theorem ends_parse_file (egSourceFile : String) (n : ℕ) (root : Context) :
    Ends n Context (parse_file src (checkedScan src) n egSourceFile root)
      (parse_file src (checkedScan src) n egSourceFile root) := by
  refine (ends_compositional n).contextBody ?_ egSourceFile root
  exact ends_contextBodyLoop src
    (fun n _ _ endLoc h => ends_checkedScan src h n endLoc) egSourceFile n

end Enough

/-! ## Termination -/

section Main
variable (src : Source) (egSourceFile : String) (root : Context) (tokens : List Token)

/-- The state in which the parser begins. -/
def start : Parser := ⟨tokens, 0, []⟩

/-- The parser whose three loops are entered only when they come to their end. -/
def checkedParse (fuel : ℕ) : Except Fault (Context × Parser) :=
  parse_file src (checkedScan src) fuel egSourceFile root (start tokens)

/-- Each time the parser comes to the loop of a dimension, an include or a using declaration, the
token that ends the loop is still ahead. -/
def DeclarationsClosed : Prop :=
  src.fileExists egSourceFile = true →
    checkedParse src egSourceFile root tokens (tokens.length + 1) ≠ .error .unclosed

theorem checkedParse_ne_outOfFuel (fuel : ℕ) (h : tokens.length < fuel) :
    checkedParse src egSourceFile root tokens fuel ≠ .error .outOfFuel :=
  (ends_parse_file src egSourceFile fuel root (start tokens) h).ne_error fun h => h rfl

theorem behind_checkedParse (n m : ℕ) (h : n ≤ m) :
    Behind .outOfFuel none (checkedParse src egSourceFile root tokens n)
      (checkedParse src egSourceFile root tokens m) := by
  refine lags_parse_file src (by simp) ?_ egSourceFile n m (.inr ⟨h, rfl⟩) root (start tokens)
  intro n m hnm closed consume endLoc hc
  exact lags_checkedScan src hc n m endLoc (by omega)

/-- With the same fuel, the source's parser does the same as the checked one, or it is in one of
the loops that the checked one does not enter. -/
theorem behind_parse_file (fuel : ℕ) :
    Behind .outOfFuel (some .unclosed)
      (parse_file src (scan src) fuel egSourceFile root (start tokens))
      (checkedParse src egSourceFile root tokens fuel) := by
  refine lags_parse_file src (by simp) ?_ egSourceFile fuel fuel (.inl rfl) root (start tokens)
  rintro n m (rfl | ⟨_, h⟩) closed consume endLoc hc
  · exact lags_scan_checked src hc n endLoc
  · cases h

/-- A parser that comes to an unclosed declaration never ends. -/
theorem parse_file_diverges (fuel : ℕ)
    (h : checkedParse src egSourceFile root tokens (tokens.length + 1) = .error .unclosed) :
    parse_file src (scan src) fuel egSourceFile root (start tokens) = .error .outOfFuel := by
  have hchecked : checkedParse src egSourceFile root tokens fuel = .error .unclosed ∨
      checkedParse src egSourceFile root tokens fuel = .error .outOfFuel := by
    rcases Nat.le_total fuel (tokens.length + 1) with hle | hle
    · rcases behind_checkedParse src egSourceFile root tokens fuel _ hle with ⟨heq, _⟩ | ⟨herr, _⟩
      · exact .inl (heq.trans h)
      · exact .inr herr
    · rcases behind_checkedParse src egSourceFile root tokens _ fuel hle with ⟨heq, _⟩ | ⟨herr, _⟩
      · exact .inl (heq.symm.trans h)
      · rw [h] at herr
        cases herr
  rcases behind_parse_file src egSourceFile root tokens fuel with ⟨heq, hne⟩ | ⟨herr, _⟩
  · exact heq.trans (hchecked.resolve_left (hne .unclosed rfl))
  · exact herr

/-- Otherwise the number of the tokens bounds the rounds. -/
theorem parse_file_ends (fuel : ℕ) (hfuel : tokens.length < fuel)
    (h : checkedParse src egSourceFile root tokens (tokens.length + 1) ≠ .error .unclosed) :
    parse_file src (scan src) fuel egSourceFile root (start tokens) ≠ .error .outOfFuel := by
  have hout := checkedParse_ne_outOfFuel src egSourceFile root tokens
  have hchecked : checkedParse src egSourceFile root tokens fuel ≠ .error .unclosed := by
    rcases behind_checkedParse src egSourceFile root tokens _ fuel hfuel with ⟨heq, _⟩ | ⟨herr, _⟩
    · rw [← heq]
      exact h
    · exact absurd herr (hout _ (Nat.lt_succ_self _))
  rcases behind_parse_file src egSourceFile root tokens fuel with ⟨heq, _⟩ | ⟨_, hunclosed⟩
  · rw [heq]
    exact hout fuel hfuel
  · exact absurd (hunclosed .unclosed rfl) hchecked

theorem parseEGSourceFile_outOfFuel_iff (fuel : ℕ) :
    parseEGSourceFile src fuel egSourceFile root tokens = .error .outOfFuel ↔
      src.fileExists egSourceFile = true ∧
        parse_file src (scan src) fuel egSourceFile root (start tokens) = .error .outOfFuel := by
  rw [parseEGSourceFile]
  split
  · rename_i hfile
    change Except.map Prod.fst (parse_file src (scan src) fuel egSourceFile root (start tokens)) =
      _ ↔ _
    cases parse_file src (scan src) fuel egSourceFile root (start tokens) with
    | error e => simp [Except.map, hfile]
    | ok r => simp [Except.map]
  · rename_i hfile
    simp [hfile]

/-- **Main result.** Parsing a file ends exactly if each dimension, include and using declaration
that the parser comes to is closed. -/
theorem parseEGSourceFile_terminates_iff :
    (∃ fuel, parseEGSourceFile src fuel egSourceFile root tokens ≠ .error .outOfFuel) ↔
      DeclarationsClosed src egSourceFile root tokens := by
  constructor
  · rintro ⟨fuel, hfuel⟩ hfile hunclosed
    refine hfuel ((parseEGSourceFile_outOfFuel_iff src egSourceFile root tokens fuel).mpr ?_)
    exact ⟨hfile, parse_file_diverges src egSourceFile root tokens fuel hunclosed⟩
  · intro hclosed
    refine ⟨tokens.length + 1, fun h => ?_⟩
    obtain ⟨hfile, hout⟩ :=
      (parseEGSourceFile_outOfFuel_iff src egSourceFile root tokens _).mp h
    exact parse_file_ends src egSourceFile root tokens _ (Nat.lt_succ_self _) (hclosed hfile) hout

end Main

/-! ## An unfinished file -/

/-- The preprocessor on the text `dim int`. -/
def unfinishedSource : Source where
  eof := 7
  getSourceText startLoc endLoc := some (String.ofList (("dim int".toList.drop startLoc).take
    (endLoc - startLoc)))
  lookupFile _ _ := none
  extension _ := ""
  absoluteCanonical path := path
  fileExists _ := true

/-- A dimension whose identifier and semicolon are still to be written. -/
def unfinishedDimension : List Token := [⟨.kw_dim, 0, 3⟩, ⟨.other, 4, 7⟩]

def emptyRoot : Context := ⟨⟨true, "", .eUnknown, none, none, [], none, none, []⟩, []⟩

theorem unfinishedDimension_diverges :
    ¬ ∃ fuel, parseEGSourceFile unfinishedSource fuel "a.eg" emptyRoot unfinishedDimension ≠
      .error .outOfFuel := by
  rintro ⟨fuel, hfuel⟩
  refine hfuel ((parseEGSourceFile_outOfFuel_iff _ _ _ _ fuel).mpr ⟨rfl, ?_⟩)
  exact parse_file_diverges _ _ _ _ fuel rfl

/-- The same dimension, finished. -/
example : DeclarationsClosed unfinishedSource "a.eg" emptyRoot
    (unfinishedDimension ++ [⟨.identifier "x", 8, 9⟩, ⟨.semi, 9, 10⟩]) := by
  intro _ h
  cases h

end EgLang.Parsing
