import EgLang.Library.Nesting
import EgLang.Library.StepSystem
import EgLang.Parsing.Termination

/-!
# Captured passages

An argument list, a size and the body of an export are captured as text, from the token after the opening
one to the token before the closing one. The loop over an argument list or a size stops at the first closing
token of its kind; the loop over a body counts the braces.
-/

namespace EgLang.Parsing

open EgLang.Library

set_option autoImplicit false

/-! ## Delimiters -/

/-- The kinds of brackets. -/
inductive Delimiter
  | paren | square | brace
deriving DecidableEq, Repr

namespace Delimiter

def opening : Delimiter → TokenKind
  | .paren => .l_paren
  | .square => .l_square
  | .brace => .l_brace

def closing : Delimiter → TokenKind
  | .paren => .r_paren
  | .square => .r_square
  | .brace => .r_brace

end Delimiter

/-- The brackets among the tokens. -/
def delimiters : Brackets Token Delimiter where
  opens t :=
    match t.kind with
    | .l_paren => some .paren
    | .l_square => some .square
    | .l_brace => some .brace
    | _ => none
  closes t :=
    match t.kind with
    | .r_paren => some .paren
    | .r_square => some .square
    | .r_brace => some .brace
    | _ => none

theorem opens_eq_some {t : Token} {kind : Delimiter} :
    delimiters.opens t = some kind ↔ t.kind = kind.opening := by
  cases kind <;> cases h : t.kind <;> simp [delimiters, Delimiter.opening, h]

theorem closes_eq_some {t : Token} {kind : Delimiter} :
    delimiters.closes t = some kind ↔ t.kind = kind.closing := by
  cases kind <;> cases h : t.kind <;> simp [delimiters, Delimiter.closing, h]

theorem opens_of_closing {t : Token} {kind : Delimiter} (h : t.kind = kind.closing) :
    delimiters.opens t = none := by
  cases kind <;> simp [delimiters, Delimiter.closing] at h ⊢ <;> simp [h]

/-- The captures: an argument list, a size, and the body of an export. -/
def capture (src : Source) : Delimiter → Parse (Option String)
  | .paren => parse_argumentList src
  | .square => parse_size src
  | .brace => do
    let str ← parse_body src
    pure (some str)

/-- The text from the first to the last of some tokens. -/
def textOf (src : Source) : List Token → Option String
  | [] => some ""
  | t :: ts => src.getSourceText t.location (ts.foldl (fun _ t => t.endLoc) t.endLoc)

/-- A state at an opening token, with balanced tokens up to the closing one that matches it. -/
structure Bracketed (kind : Delimiter) (content rest : List Token) (p : Parser) : Prop where
  balanced : delimiters.Balanced content
  tokens : ∃ first last, first.kind = kind.opening ∧ last.kind = kind.closing ∧
    p.tokens = first :: (content ++ last :: rest)
  braceCount_lt : p.braceCount < 2 ^ 16

/-- The text is returned, and the parser is behind the closing token. -/
def Captures (src : Source) (kind : Delimiter) (rest : List Token) (text : String) (p : Parser) : Prop :=
  ∃ q, capture src kind p = .ok (some text, q) ∧ q.tokens = rest

/-- The brace count, as it is behind the opening brace, has room for the braces in the content: it is an
`unsigned short`. -/
def BracesFit (n : ℕ) (content : List Token) : Prop :=
  ∀ u, u <+: content →
    n + u.countP (fun t => t.kind = .l_brace) < 2 ^ 16 + u.countP fun t => t.kind = .r_brace

/-- What the loops can take: no end of a module behind the first token, in an argument list or a size no
brackets of its own kind, and in a size or a body at least one token. -/
def Capturable (kind : Delimiter) (content : List Token) (braceCount : ℕ) : Prop :=
  (∀ t ∈ content.tail, t.kind.isEom = false) ∧
    match kind with
    | .paren => ∀ t ∈ content, t.kind ≠ .r_paren
    | .square => content ≠ [] ∧ ∀ t ∈ content, t.kind ≠ .r_square
    | .brace => content ≠ [] ∧ BracesFit ((braceCount + 1) % 2 ^ 16) content

/-! ## What a loop leaves -/

section Skim
variable {stop : List Token → ℕ → Bool} {taken left : List Token} {n n' : ℕ}

theorem skim_eq_append {ts : List Token} (h : skim stop ts n = (taken, left, n')) :
    ts = taken ++ left := by
  induction ts generalizing n taken with
  | nil =>
    rw [skim] at h
    obtain ⟨rfl, hrest⟩ := Prod.mk.inj h
    obtain ⟨rfl, rfl⟩ := Prod.mk.inj hrest
    rfl
  | cons t ts ih =>
    rw [skim] at h
    split at h
    · obtain ⟨rfl, hrest⟩ := Prod.mk.inj h
      obtain ⟨rfl, rfl⟩ := Prod.mk.inj hrest
      rfl
    · obtain ⟨rfl, hrest⟩ := Prod.mk.inj h
      obtain ⟨rfl, rfl⟩ := Prod.mk.inj hrest
      rw [List.cons_append, ← ih (by rfl)]

/-- A loop stops at the end of the file, at the end of a module or where it is told to. -/
theorem skim_end {ts : List Token} (h : skim stop ts n = (taken, left, n')) :
    left = [] ∨ ∃ t l, left = t :: l ∧ (t.kind.isEom = true ∨ stop left n' = true) := by
  induction ts generalizing n taken with
  | nil =>
    rw [skim] at h
    obtain ⟨rfl, hrest⟩ := Prod.mk.inj h
    exact Or.inl (Prod.mk.inj hrest).1.symm
  | cons t ts ih =>
    rw [skim] at h
    split at h
    · rename_i hstop
      obtain ⟨-, hrest⟩ := Prod.mk.inj h
      obtain ⟨rfl, rfl⟩ := Prod.mk.inj hrest
      exact Or.inr ⟨t, ts, rfl, by simpa using hstop⟩
    · obtain ⟨-, hrest⟩ := Prod.mk.inj h
      obtain ⟨rfl, rfl⟩ := Prod.mk.inj hrest
      exact ih (by rfl)

/-- A loop that goes beyond a token did not stop there. -/
theorem skim_cons {t : Token} {ts : List Token} {w : List Token}
    (h : skim stop (t :: ts) n = (t :: w, left, n')) :
    (t.kind.isEom || stop (t :: ts) n) = false ∧ skim stop ts (countBrace (some t.kind) n) = (w, left, n') := by
  rw [skim] at h
  split at h
  · cases h
  · rename_i hstop
    refine ⟨by simpa using hstop, ?_⟩
    obtain ⟨hw, hrest⟩ := Prod.mk.inj h
    obtain ⟨hleft, hn⟩ := Prod.mk.inj hrest
    rw [← (List.cons.inj hw).2, ← hleft, ← hn]

/-- No end of a module is taken. -/
theorem skim_taken {ts : List Token} (h : skim stop ts n = (taken, left, n')) :
    ∀ t ∈ taken, t.kind.isEom = false := by
  induction taken generalizing ts n with
  | nil =>
    intro t ht
    cases ht
  | cons t w ih =>
    cases ts with
    | nil => cases h
    | cons x ts =>
      obtain rfl : x = t := (List.cons.inj (skim_eq_append h)).1
      obtain ⟨hgo, hrest⟩ := skim_cons h
      rw [List.forall_mem_cons]
      exact ⟨(Bool.or_eq_false_iff.mp hgo).1, ih hrest⟩

theorem skim_of_go {t : Token} {ts : List Token} (hgo : (t.kind.isEom || stop (t :: ts) n) = false)
    (h : skim stop ts (countBrace (some t.kind) n) = (taken, left, n')) :
    skim stop (t :: ts) n = (t :: taken, left, n') := by
  rw [skim, if_neg (by simpa using hgo), h]

end Skim

/-! ## The loops of argument lists and sizes -/

/-- The loop takes all tokens up to the closing one just if none of them is a closing one, or the end of a
module. -/
theorem skim_closing_iff {close : TokenKind} {last : Token} (hlast : last.kind = close) {w rest : List Token}
    {n : ℕ} :
    (∃ n', skim (fun ts _ => at_ [close] ts) (w ++ last :: rest) n = (w, last :: rest, n')) ↔
      ∀ t ∈ w, t.kind.isEom = false ∧ t.kind ≠ close := by
  induction w generalizing n with
  | nil =>
    refine iff_of_true ⟨n, ?_⟩ fun t ht => by cases ht
    rw [List.nil_append, skim, if_pos]
    simp [at_, hlast]
  | cons t w ih =>
    rw [List.forall_mem_cons, ← ih]
    constructor
    · intro h
      obtain ⟨n', h⟩ := h
      obtain ⟨hgo, h⟩ := skim_cons h
      exact ⟨by simpa [at_] using hgo, n', h⟩
    · intro h
      obtain ⟨ht, n', h⟩ := h
      exact ⟨n', skim_of_go (by simpa [at_] using ht) h⟩

/-! ## The loop of bodies -/

/-- The loop over a body stops at a closing brace, with the brace count as it was at the start. -/
def bodyStop (back : ℕ) (ts : List Token) (n : ℕ) : Bool := at_ [.r_brace] ts && n == back

section Braces
variable {t last : Token} {w rest : List Token} {stack stack' : List Delimiter} {back n n' : ℕ}

/-- What a token does to the open braces. -/
theorem count_braces (h : delimiters.step t stack = some stack') :
    (t.kind = .l_brace ∧ stack'.count .brace = stack.count .brace + 1) ∨
      (t.kind = .r_brace ∧ stack.count .brace = stack'.count .brace + 1) ∨
        (t.kind ≠ .l_brace ∧ t.kind ≠ .r_brace ∧ stack'.count .brace = stack.count .brace) := by
  have hcount := Brackets.count_step h .brace
  by_cases hopen : t.kind = .l_brace
  · have hopens : delimiters.opens t = some .brace := opens_eq_some.mpr hopen
    rw [hopens] at hcount
    simp at hcount
    exact Or.inl ⟨hopen, hcount.symm⟩
  · have hopens : delimiters.opens t ≠ some .brace := fun heq => hopen (opens_eq_some.mp heq)
    rw [if_neg hopens] at hcount
    by_cases hclose : t.kind = .r_brace
    · have hcloses : delimiters.closes t = some .brace := closes_eq_some.mpr hclose
      have hnone : delimiters.opens t = none := @opens_of_closing t .brace hclose
      rw [if_pos ⟨hnone, hcloses⟩] at hcount
      exact Or.inr (Or.inl ⟨hclose, hcount⟩)
    · rw [if_neg fun h => hclose (closes_eq_some.mp h.2)] at hcount
      exact Or.inr (Or.inr ⟨hopen, hclose, hcount.symm⟩)

/-- The braces of the content fit, token by token. -/
theorem bracesFit_cons : BracesFit n (t :: w) ↔
    n < 2 ^ 16 ∧ ∀ u, u <+: w → n + (if t.kind = .l_brace then 1 else 0) +
      u.countP (fun t => t.kind = .l_brace) < 2 ^ 16 + (if t.kind = .r_brace then 1 else 0) +
        u.countP fun t => t.kind = .r_brace := by
  constructor
  · intro h
    refine ⟨by simpa using h [] List.nil_prefix, fun u hu => ?_⟩
    have hcons := h (t :: u) (List.cons_prefix_cons.mpr ⟨rfl, hu⟩)
    simp only [List.countP_cons, decide_eq_true_eq] at hcons
    omega
  · intro h u hu
    cases u with
    | nil => simpa using h.1
    | cons x u =>
      obtain ⟨rfl, hprefix⟩ := List.cons_prefix_cons.mp hu
      have hrest := h.2 u hprefix
      simp only [List.countP_cons, decide_eq_true_eq]
      omega

/-- The count of a token that fits follows the open braces. -/
theorem countBrace_fits (h : delimiters.step t stack = some stack') (hn : n = back + stack.count .brace)
    (hfit : BracesFit n (t :: w)) :
    countBrace (some t.kind) n = back + stack'.count .brace ∧ BracesFit (countBrace (some t.kind) n) w := by
  rw [bracesFit_cons] at hfit
  obtain ⟨hlt, hfit⟩ := hfit
  obtain ⟨hopen, hcount⟩ | ⟨hclose, hcount⟩ | ⟨hopen, hclose, hcount⟩ := count_braces h
  · have hnil := hfit [] List.nil_prefix
    simp only [hopen, if_true, reduceCtorEq, if_false, List.countP_nil] at hnil hfit
    have hcountBrace : countBrace (some t.kind) n = n + 1 := by
      rw [hopen, countBrace]
      omega
    rw [hcountBrace]
    refine ⟨by omega, fun u hu => ?_⟩
    have hu := hfit u hu
    omega
  · simp only [hclose, if_true, reduceCtorEq, if_false] at hfit
    have hcountBrace : countBrace (some t.kind) n = n - 1 := by
      rw [hclose, countBrace]
    rw [hcountBrace]
    refine ⟨by omega, fun u hu => ?_⟩
    have hu := hfit u hu
    omega
  · simp only [hopen, hclose, if_false] at hfit
    have hcountBrace : countBrace (some t.kind) n = n := by
      cases hkind : t.kind <;> simp_all [countBrace]
    rw [hcountBrace]
    refine ⟨by omega, fun u hu => ?_⟩
    have hu := hfit u hu
    omega

/-- Where the braces fit, the loop takes all tokens up to the closing brace. -/
theorem skim_of_fits (hlast : last.kind = .r_brace) (hscan : delimiters.scan w stack = some [])
    (hn : n = back + stack.count .brace) (heom : ∀ t ∈ w, t.kind.isEom = false) (hfit : BracesFit n w) :
    skim (bodyStop back) (w ++ last :: rest) n = (w, last :: rest, back) := by
  induction w generalizing n stack with
  | nil =>
    obtain rfl : stack = [] := Option.some.inj hscan
    obtain rfl : n = back := hn
    rw [List.nil_append, skim, if_pos]
    simp [bodyStop, at_, hlast]
  | cons t w ih =>
    rw [List.forall_mem_cons] at heom
    rw [Brackets.scan_cons] at hscan
    obtain ⟨stack', hstep, hscan⟩ := Option.bind_eq_some_iff.mp hscan
    obtain ⟨hn', hfit'⟩ := countBrace_fits hstep hn hfit
    refine skim_of_go ?_ (ih hscan hn' heom.2 hfit')
    obtain ⟨hopen, -⟩ | ⟨-, hcount⟩ | ⟨-, hclose, -⟩ := count_braces hstep
    · simp [bodyStop, at_, hopen, TokenKind.isEom]
    · have hne : ¬ n = back := by omega
      simp [heom.1, bodyStop, hne]
    · simp [heom.1, bodyStop, at_, hclose]

/-- The brace count has gone round: it is less than the number of open braces, and it does not stop the loop
where it should. -/
def Wrapped (back n depth : ℕ) : Prop := n + (if back = 0 then 2 ^ 16 else 0) ≤ depth

/-- From a brace count that has gone round the loop never comes to the closing brace. -/
theorem skim_wrapped (hlast : last.kind = .r_brace) (hscan : delimiters.scan w stack = some [])
    (hwrapped : Wrapped back n (stack.count .brace)) :
    ∀ n', skim (bodyStop back) (w ++ last :: rest) n ≠ (w, last :: rest, n') := by
  induction w generalizing n stack with
  | nil =>
    intro n' h
    obtain rfl : stack = [] := Option.some.inj hscan
    rw [Wrapped, List.count_nil] at hwrapped
    cases skim_end h with
    | inl hnil => cases hnil
    | inr hstop =>
      obtain ⟨t, l, heq, hstop⟩ := hstop
      obtain ⟨rfl, rfl⟩ := List.cons.inj heq
      have hn : n' = back := by simpa [hlast, TokenKind.isEom, bodyStop, at_] using hstop
      rw [List.nil_append, skim] at h
      split at h
      · obtain rfl : n = n' := (Prod.mk.inj (Prod.mk.inj h).2).2
        split at hwrapped <;> omega
      · cases h
  | cons t w ih =>
    intro n' h
    rw [Brackets.scan_cons] at hscan
    obtain ⟨stack', hstep, hscan⟩ := Option.bind_eq_some_iff.mp hscan
    obtain ⟨hgo, h⟩ := skim_cons h
    refine ih hscan ?_ n' h
    rw [Wrapped] at hwrapped ⊢
    obtain ⟨hopen, hcount⟩ | ⟨hclose, hcount⟩ | ⟨hopen, hclose, hcount⟩ := count_braces hstep
    · rw [hopen, countBrace]
      have hmod : (n + 1) % 2 ^ 16 ≤ n + 1 := Nat.mod_le _ _
      omega
    · rw [hclose, countBrace]
      simp only [hclose, bodyStop, at_, TokenKind.isEom, Bool.false_or, List.contains_cons, List.contains_nil,
        BEq.rfl, Bool.true_or, Bool.true_and, beq_eq_false_iff_ne] at hgo
      split at hwrapped
      · rename_i hback
        rw [if_pos hback]
        omega
      · rename_i hback
        rw [if_neg hback]
        omega
    · have hcountBrace : countBrace (some t.kind) n = n := by
        cases hkind : t.kind <;> simp_all [countBrace]
      rw [hcountBrace, hcount]
      exact hwrapped

/-- A token fits if the count does not go round with it, and what follows fits. -/
theorem fits_cons (hstep : delimiters.step t stack = some stack') (hn : n = back + stack.count .brace)
    (hlt : n < 2 ^ 16) (hnot : ¬ Wrapped back (countBrace (some t.kind) n) (stack'.count .brace))
    (hfit : countBrace (some t.kind) n = back + stack'.count .brace → countBrace (some t.kind) n < 2 ^ 16 →
      BracesFit (countBrace (some t.kind) n) w) : BracesFit n (t :: w) := by
  rw [bracesFit_cons]
  refine ⟨hlt, ?_⟩
  obtain ⟨hopen, hcount⟩ | ⟨hclose, hcount⟩ | ⟨hopen, hclose, hcount⟩ := count_braces hstep
  · have hroom : n + 1 < 2 ^ 16 := by
      by_contra hfull
      refine hnot ?_
      have hzero : (n + 1) % 2 ^ 16 = 0 := by omega
      rw [Wrapped, hopen, countBrace, hzero]
      split <;> omega
    have hcountBrace : countBrace (some t.kind) n = n + 1 := by
      rw [hopen, countBrace, Nat.mod_eq_of_lt hroom]
    rw [hcountBrace] at hfit
    intro u hu
    have hu := hfit (by omega) hroom u hu
    simp only [hopen, if_true, reduceCtorEq, if_false]
    omega
  · have hcountBrace : countBrace (some t.kind) n = n - 1 := by
      rw [hclose, countBrace]
    rw [hcountBrace] at hfit
    intro u hu
    have hu := hfit (by omega) (by omega) u hu
    simp only [hclose, if_true, reduceCtorEq, if_false]
    omega
  · have hcountBrace : countBrace (some t.kind) n = n := by
      cases hkind : t.kind <;> simp_all [countBrace]
    rw [hcountBrace] at hfit
    intro u hu
    have hu := hfit (by omega) hlt u hu
    simp only [hopen, hclose, if_false]
    omega

/-- Where the loop takes all tokens up to the closing brace, the braces fit. -/
theorem fits_of_skim (hlast : last.kind = .r_brace) (hscan : delimiters.scan w stack = some [])
    (hn : n = back + stack.count .brace) (hlt : n < 2 ^ 16)
    (h : skim (bodyStop back) (w ++ last :: rest) n = (w, last :: rest, n')) : BracesFit n w := by
  induction w generalizing n stack with
  | nil =>
    intro u hu
    rw [List.prefix_nil.mp hu]
    simpa using hlt
  | cons t w ih =>
    rw [Brackets.scan_cons] at hscan
    obtain ⟨stack', hstep, hscan⟩ := Option.bind_eq_some_iff.mp hscan
    obtain ⟨-, h⟩ := skim_cons h
    exact fits_cons hstep hn hlt (fun hwrapped => skim_wrapped hlast hscan hwrapped n' h)
      fun hn' hlt' => ih hscan hn' hlt' h

end Braces

/-! ## The three captures -/

section Runs
variable {src : Source} {p q : Parser} {text : String} {rest : List Token}

theorem parse_bind_ok {α β : Type} {m : Parse α} {f : α → Parse β} {b : β} :
    (m >>= f) p = .ok (b, q) ↔ ∃ a r, m p = .ok (a, r) ∧ f a r = .ok (b, q) := by
  change (m p >>= fun r => f r.1 r.2) = .ok (b, q) ↔ _
  rw [except_bind_ok]
  simp

theorem sourceText_ok {startLoc endLoc : ℕ} {message str : String} :
    sourceText src startLoc endLoc message p = .ok (str, q) ↔
      src.getSourceText startLoc endLoc = some str ∧ q = p := by
  unfold sourceText
  cases src.getSourceText startLoc endLoc with
  | none =>
    constructor
    · intro h
      cases h
    · intro h
      cases h.1
  | some found =>
    change Except.ok (found, p) = .ok (str, q) ↔ _
    rw [Except.ok.injEq, Prod.mk.injEq, Option.some.injEq, @eq_comm _ p q]

/-- What the passage and the closing token of a capture come to, from the state behind the opening token. -/
def Passes (src : Source) (stop : List Token → ℕ → Bool) (close : TokenKind) (rest : List Token)
    (text : String) (p : Parser) : Prop :=
  ∃ taken last n, skim stop p.tokens.tail (countBrace p.Tok p.braceCount) = (taken, last :: rest, n) ∧
    last.kind = close ∧
    src.getSourceText (p.location src) (taken.foldl (fun _ t => t.endLoc) (p.endLoc src)) = some text

/-- A loop that stops at closing tokens does not stop at a semicolon. -/
theorem tok_ne_semi {stop : List Token → ℕ → Bool} {ts taken left : List Token} {n n' : ℕ}
    (h : skim stop ts n = (taken, left, n')) (hstop : ∀ t l n, stop (t :: l) n = true → t.kind ≠ .semi)
    (htokens : p.tokens = left) : p.Tok ≠ some .semi := by
  rw [Parser.Tok, htokens]
  cases skim_end h with
  | inl hnil =>
    rw [hnil]
    exact fun h => by cases h
  | inr hend =>
    obtain ⟨t, l, rfl, hend⟩ := hend
    rw [List.head?_cons, Option.map_some, ne_eq, Option.some.injEq]
    cases hend with
    | inl heom =>
      intro hsemi
      rw [hsemi] at heom
      cases heom
    | inr hstopped => exact hstop t l n' hstopped

theorem bind_of_ok {α β : Type} {m : Parse α} {f : α → Parse β} {a : α} (h : m p = .ok (a, q)) :
    (m >>= f) p = f a q := by
  change (m p >>= fun r => f r.1 r.2) = f a q
  rw [h]
  rfl

theorem consumeOpen_ok {opening : TokenKind} (h : p.Tok = some opening) :
    consumeOpen opening p = .ok ((), p.afterAnyToken) := by
  change (if p.Tok = some opening then consumeAnyToken else pure () : Parse Unit) p = _
  rw [if_pos h]
  rfl

theorem consumeClose_iff {close : TokenKind} (hsemi : p.Tok ≠ some .semi) :
    (∃ q, consumeClose close p = .ok ((), q) ∧ q.tokens = rest) ↔
      ∃ last, last.kind = close ∧ p.tokens = last :: rest := by
  have hrun : consumeClose close p =
      if p.Tok = some close then .ok ((), p.afterAnyToken) else .error (.error "diagnoseMissingClose") := by
    change (if p.Tok = some close then consumeAnyToken
      else if p.Tok = some .semi ∧ p.NextToken = some close then consumeToken >>= fun _ => consumeAnyToken
      else parserError "diagnoseMissingClose" : Parse Unit) p = _
    rw [if_neg fun h : _ ∧ _ => hsemi h.1]
    split <;> rfl
  rw [hrun, Parser.Tok]
  cases htokens : p.tokens with
  | nil =>
    constructor
    · intro h
      obtain ⟨q, hq, -⟩ := h
      cases hq
    · intro h
      obtain ⟨last, -, heq⟩ := h
      cases heq
  | cons t l =>
    simp only [List.head?_cons, Option.map_some, Option.some.injEq]
    constructor
    · intro h
      obtain ⟨q, hq, hrest⟩ := h
      split at hq
      · rename_i hkind
        obtain rfl : p.afterAnyToken = q := (Prod.mk.inj (Except.ok.inj hq)).2
        rw [Parser.afterAnyToken_tokens, htokens] at hrest
        exact ⟨t, hkind, by rw [← hrest]; rfl⟩
      · cases hq
    · intro h
      obtain ⟨last, hlast, heq⟩ := h
      obtain ⟨rfl, rfl⟩ := List.cons.inj heq
      exact ⟨p.afterAnyToken, by rw [if_pos hlast], by rw [Parser.afterAnyToken_tokens, htokens]; rfl⟩

theorem passage_run {stop : List Token → ℕ → Bool} {taken left : List Token} {n : ℕ}
    (hskim : skim stop p.tokens.tail (countBrace p.Tok p.braceCount) = (taken, left, n)) :
    passage src stop p = .ok ((p.location src, taken.foldl (fun _ t => t.endLoc) (p.endLoc src), taken),
      { p with tokens := left, braceCount := n }) := by
  change (skimUntil stop >>= fun taken => pure (p.location src,
    taken.foldl (fun _ t => t.endLoc) (p.endLoc src), taken)) p.afterAnyToken = _
  have hrun : skimUntil stop p.afterAnyToken = .ok (taken, { p with tokens := left, braceCount := n }) := by
    have hskim' : skim stop p.afterAnyToken.tokens p.afterAnyToken.braceCount = (taken, left, n) := hskim
    unfold skimUntil
    rw [hskim']
    rfl
  rw [bind_of_ok hrun]
  rfl

/-- What a passage comes to, with its text and what follows up to the closing token. -/
theorem passes_iff {stop : List Token → ℕ → Bool} {close : TokenKind} {message : String} {k : Parse Unit}
    (hk : ∀ taken left n, skim stop p.tokens.tail (countBrace p.Tok p.braceCount) = (taken, left, n) →
      ((∃ q, k { p with tokens := left, braceCount := n } = .ok ((), q) ∧ q.tokens = rest) ↔
        ∃ last, last.kind = close ∧ left = last :: rest)) :
    (∃ q, (passage src stop >>= fun range => sourceText src range.1 range.2.1 message >>= fun str =>
        k >>= fun _ => pure (some str) : Parse (Option String)) p = .ok (some text, q) ∧ q.tokens = rest) ↔
      Passes src stop close rest text p := by
  obtain ⟨taken, left, n, hskim⟩ : ∃ taken left n,
      skim stop p.tokens.tail (countBrace p.Tok p.braceCount) = (taken, left, n) := ⟨_, _, _, rfl⟩
  have hpassage := @passage_run src p stop taken left n hskim
  rw [Passes]
  constructor
  · intro h
    obtain ⟨q, hq, hrest⟩ := h
    rw [bind_of_ok hpassage, parse_bind_ok] at hq
    obtain ⟨str, r, hstr, hq⟩ := hq
    obtain ⟨htext, rfl⟩ := sourceText_ok.mp hstr
    obtain ⟨_, r, hclose, hq⟩ := parse_bind_ok.mp hq
    obtain ⟨hstr, rfl⟩ := Prod.mk.inj (Except.ok.inj hq)
    obtain rfl := Option.some.inj hstr
    obtain ⟨last, hlast, rfl⟩ := (hk taken left n hskim).mp ⟨r, hclose, hrest⟩
    exact ⟨taken, last, n, hskim, hlast, htext⟩
  · intro h
    obtain ⟨taken', last, n', hskim', hlast, htext⟩ := h
    rw [hskim] at hskim'
    obtain ⟨rfl, hleft⟩ := Prod.mk.inj hskim'
    obtain ⟨rfl, rfl⟩ := Prod.mk.inj hleft
    obtain ⟨q, hclose, hrest⟩ := (hk taken _ n hskim).mpr ⟨last, hlast, rfl⟩
    refine ⟨q, ?_, hrest⟩
    rw [bind_of_ok hpassage, bind_of_ok (sourceText_ok.mpr ⟨htext, rfl⟩), bind_of_ok hclose]
    rfl

theorem run_get : (get : Parse Parser) p = .ok (p, p) := rfl

theorem parse_argumentList_iff (h : p.Tok = some .l_paren) (hne : p.afterAnyToken.Tok ≠ some .r_paren) :
    (∃ q, parse_argumentList src p = .ok (some text, q) ∧ q.tokens = rest) ↔
      Passes src (fun ts _ => at_ [.r_paren] ts) .r_paren rest text p.afterAnyToken := by
  have hrun : parse_argumentList src p = ((passage src fun ts _ => at_ [.r_paren] ts) >>= fun range =>
      sourceText src range.1 range.2.1 "Error parsing argument list" >>= fun str =>
        consumeClose .r_paren >>= fun _ => pure (some str)) p.afterAnyToken := by
    change (if p.Tok = some .l_paren then _ else _ : Parse (Option String)) p = _
    rw [if_pos h, bind_of_ok (consumeOpen_ok h), bind_of_ok run_get]
    simp only [ne_eq, hne, not_false_eq_true, if_true, bind_assoc]
  rw [hrun]
  exact passes_iff fun taken left n hskim => consumeClose_iff (tok_ne_semi hskim (by simp +contextual [at_]) rfl)

/-- Without a token in it the argument list is empty. -/
theorem parse_argumentList_empty (h : p.Tok = some .l_paren) {last : Token} (hlast : last.kind = .r_paren)
    (htokens : p.afterAnyToken.tokens = last :: rest) :
    ∃ q, parse_argumentList src p = .ok (some "", q) ∧ q.tokens = rest := by
  have htok : p.afterAnyToken.Tok = some .r_paren := by
    rw [Parser.Tok, htokens, List.head?_cons, Option.map_some, hlast]
  have hrun : parse_argumentList src p =
      (consumeClose .r_paren >>= fun _ => pure (some "")) p.afterAnyToken := by
    change (if p.Tok = some .l_paren then _ else _ : Parse (Option String)) p = _
    rw [if_pos h, bind_of_ok (consumeOpen_ok h), bind_of_ok run_get]
    simp only [ne_eq, htok, not_true_eq_false, if_false, pure_bind]
  obtain ⟨q, hq, hrest⟩ := (consumeClose_iff (by rw [htok]; simp)).mpr ⟨last, hlast, htokens⟩
  refine ⟨q, ?_, hrest⟩
  rw [hrun, bind_of_ok hq]
  rfl

theorem parse_size_iff (h : p.Tok = some .l_square) :
    (∃ q, parse_size src p = .ok (some text, q) ∧ q.tokens = rest) ↔
      Passes src (fun ts _ => at_ [.r_square] ts) .r_square rest text p.afterAnyToken := by
  have hrun : parse_size src p = ((passage src fun ts _ => at_ [.r_square] ts) >>= fun range =>
      sourceText src range.1 range.2.1 "Error parsing size" >>= fun str =>
        consumeClose .r_square >>= fun _ => pure (some str)) p.afterAnyToken := by
    change (if p.Tok = some .l_square then _ else _ : Parse (Option String)) p = _
    rw [if_pos h, bind_of_ok (consumeOpen_ok h)]
  rw [hrun]
  exact passes_iff fun taken left n hskim => consumeClose_iff (tok_ne_semi hskim (by simp +contextual [at_]) rfl)

theorem errorIf_ok {b : Bool} {message : String} : errorIf b message p = .ok ((), q) ↔ b = false ∧ q = p := by
  cases b with
  | false =>
    change Except.ok ((), p) = .ok ((), q) ↔ _
    rw [Except.ok.injEq, Prod.mk.injEq, @eq_comm _ p q]
    simp
  | true =>
    constructor
    · intro h
      cases h
    · intro h
      cases h.1

/-- The end of a body: the test for the brace count never fails where the loop found the closing brace. -/
theorem closeBody_iff {back : ℕ} (hback : p.back = back)
    (hend : ∀ last l, p.tokens = last :: l → last.kind = .r_brace → p.braceCount = back)
    (hsemi : p.Tok ≠ some .semi) :
    (∃ q, (get >>= fun r => errorIf ((if r.braceCount = 0 then 1 else 0) = r.back) "Brace count mismatch" >>=
        fun _ => popBrace >>= fun _ => consumeClose .r_brace : Parse Unit) p = .ok ((), q) ∧ q.tokens = rest) ↔
      ∃ last, last.kind = .r_brace ∧ p.tokens = last :: rest := by
  have hpop : ∀ q, (popBrace >>= fun _ => consumeClose .r_brace : Parse Unit) p = .ok ((), q) ↔
      consumeClose .r_brace { p with braceStack := p.braceStack.tail } = .ok ((), q) := fun q => Iff.rfl
  have hclose := @consumeClose_iff { p with braceStack := p.braceStack.tail } rest .r_brace hsemi
  rw [← hclose]
  constructor
  · intro h
    obtain ⟨q, hq, hrest⟩ := h
    rw [bind_of_ok run_get] at hq
    obtain ⟨_, r, herror, hpopped⟩ := parse_bind_ok.mp hq
    obtain ⟨-, rfl⟩ := errorIf_ok.mp herror
    exact ⟨q, (hpop q).mp hpopped, hrest⟩
  · intro h
    obtain ⟨last, hlast, htokens⟩ := hclose.mp h
    obtain ⟨q, hq, hrest⟩ := h
    refine ⟨q, ?_, hrest⟩
    have hcount := hend last rest htokens hlast
    have hno : errorIf ((if p.braceCount = 0 then 1 else 0) = p.back) "Brace count mismatch" p = .ok ((), p) := by
      refine errorIf_ok.mpr ⟨?_, rfl⟩
      rw [hback, hcount, decide_eq_false_iff_not]
      split <;> omega
    rw [bind_of_ok run_get, bind_of_ok hno]
    exact (hpop q).mpr hq

theorem parse_body_iff (h : p.Tok = some .l_brace) :
    (∃ q, capture src .brace p = .ok (some text, q) ∧ q.tokens = rest) ↔
      Passes src (bodyStop p.afterAnyToken.braceCount) .r_brace rest text p.afterAnyToken := by
  obtain ⟨opened, hopened⟩ : ∃ opened, opened = { p.afterAnyToken with
      braceStack := p.afterAnyToken.braceCount :: p.afterAnyToken.braceStack } := ⟨_, rfl⟩
  have hrun : capture src .brace p =
      (passage src (bodyStop p.afterAnyToken.braceCount) >>= fun range =>
        sourceText src range.1 range.2.1 "Error parsing body" >>= fun str =>
          (get >>= fun r => errorIf ((if r.braceCount = 0 then 1 else 0) = r.back) "Brace count mismatch" >>=
            fun _ => popBrace >>= fun _ => consumeClose .r_brace) >>= fun _ => pure (some str)) opened := by
    change ((if p.Tok = some .l_brace then _ else _ : Parse String) >>= fun str => pure (some str)) p = _
    rw [if_pos h, bind_assoc, bind_of_ok (consumeOpen_ok h), bind_assoc]
    have hpush : pushBrace p.afterAnyToken = .ok ((), opened) := by
      rw [hopened]
      rfl
    rw [bind_of_ok hpush, bind_assoc, bind_of_ok run_get, hopened]
    simp only [bind_assoc, pure_bind]
    rfl
  rw [hrun]
  have hpasses : Passes src (bodyStop p.afterAnyToken.braceCount) .r_brace rest text p.afterAnyToken ↔
      Passes src (bodyStop p.afterAnyToken.braceCount) .r_brace rest text opened := by
    rw [hopened]
    exact Iff.rfl
  rw [hpasses]
  refine passes_iff fun taken left n hskim => ?_
  have hback : ({ opened with tokens := left, braceCount := n } : Parser).back = p.afterAnyToken.braceCount := by
    rw [hopened]
    rfl
  refine closeBody_iff hback ?_ ?_
  · intro last l hleft hlast
    cases skim_end hskim with
    | inl hnil =>
      rw [hnil] at hleft
      cases hleft
    | inr hend =>
      obtain ⟨t, l', rfl, hend⟩ := hend
      obtain ⟨rfl, rfl⟩ := List.cons.inj hleft
      simpa [hlast, TokenKind.isEom, bodyStop, at_] using hend
  · exact tok_ne_semi hskim (by simp +contextual [at_, bodyStop]) rfl

/-- The first of balanced tokens is no closing one. -/
theorem first_ne_closing {t : Token} {w : List Token} (h : delimiters.Balanced (t :: w)) (kind : Delimiter) :
    t.kind ≠ kind.closing := by
  intro hclosing
  rw [Brackets.Balanced, Brackets.scan_cons] at h
  obtain ⟨stack, hstep, -⟩ := Option.bind_eq_some_iff.mp h
  unfold Brackets.step at hstep
  rw [opens_of_closing hclosing, closes_eq_some.mpr hclosing] at hstep
  cases hstep

section Content
variable {stop : List Token → ℕ → Bool} {close : TokenKind} {last : Token}

/-- Without a token between the brackets the closing one is taken for the first of the passage. -/
theorem not_passes_of_empty (htokens : p.tokens = last :: rest) : ¬ Passes src stop close rest text p := by
  intro h
  obtain ⟨taken, last', n, hskim, -⟩ := h
  rw [htokens, List.tail_cons] at hskim
  have hlength := congrArg List.length (skim_eq_append hskim)
  rw [List.length_append, List.length_cons] at hlength
  omega

theorem passes_iff_skim {t : Token} {w : List Token} (htokens : p.tokens = t :: (w ++ last :: rest))
    (hlast : last.kind = close) (htext : textOf src (t :: w) = some text) :
    Passes src stop close rest text p ↔
      ∃ n', skim stop (w ++ last :: rest) (countBrace (some t.kind) p.braceCount) = (w, last :: rest, n') := by
  have htok : p.Tok = some t.kind := by rw [Parser.Tok, htokens, List.head?_cons, Option.map_some]
  rw [Passes, htokens, List.tail_cons, htok]
  constructor
  · intro h
    obtain ⟨taken, last', n, hskim, -, -⟩ := h
    obtain ⟨rfl, hlast'⟩ := List.append_inj' (skim_eq_append hskim) rfl
    rw [← (List.cons.inj hlast').1] at hskim
    exact ⟨n, hskim⟩
  · intro h
    obtain ⟨n, hskim⟩ := h
    refine ⟨w, last, n, hskim, hlast, ?_⟩
    rw [Parser.location, Parser.endLoc, htokens]
    exact htext

end Content

/-- **Captured passages.** An argument list, a size or a body is captured, with the text of the tokens between
the brackets, just if the loop over it can take these tokens. -/
theorem captures_iff {kind : Delimiter} {content : List Token} (h : Bracketed kind content rest p)
    (htext : textOf src content = some text) :
    Captures src kind rest text p ↔ Capturable kind content p.braceCount := by
  obtain ⟨first, last, hfirst, hlast, htokens⟩ := h.tokens
  have htok : p.Tok = some kind.opening := by
    rw [Parser.Tok, htokens, List.head?_cons, Option.map_some, hfirst]
  have hafter : p.afterAnyToken.tokens = content ++ last :: rest := by
    rw [Parser.afterAnyToken_tokens, htokens, List.tail_cons]
  cases content with
  | nil =>
    cases kind with
    | paren =>
      obtain rfl : "" = text := Option.some.inj htext
      refine iff_of_true (parse_argumentList_empty htok hlast hafter) ?_
      simp [Capturable]
    | square =>
      rw [Captures, capture, parse_size_iff htok]
      exact iff_of_false (not_passes_of_empty hafter) fun hcan => hcan.2.1 rfl
    | brace =>
      rw [Captures, parse_body_iff htok]
      exact iff_of_false (not_passes_of_empty hafter) fun hcan => hcan.2.1 rfl
  | cons t w =>
    have hfirst' := first_ne_closing h.balanced kind
    cases kind with
    | paren =>
      change last.kind = .r_paren at hlast
      have hne : p.afterAnyToken.Tok ≠ some .r_paren := by
        rw [Parser.Tok, hafter, List.cons_append, List.head?_cons, Option.map_some, ne_eq, Option.some.injEq]
        exact hfirst'
      rw [Captures, capture, parse_argumentList_iff htok hne, passes_iff_skim hafter hlast htext,
        skim_closing_iff hlast, Capturable, List.tail_cons, List.forall_mem_cons]
      exact ⟨fun hall => ⟨fun x hx => (hall x hx).1, hfirst', fun x hx => (hall x hx).2⟩,
        fun hcan x hx => ⟨hcan.1 x hx, hcan.2.2 x hx⟩⟩
    | square =>
      change last.kind = .r_square at hlast
      rw [Captures, capture, parse_size_iff htok, passes_iff_skim hafter hlast htext,
        skim_closing_iff hlast, Capturable, List.tail_cons, List.forall_mem_cons]
      exact ⟨fun hall => ⟨fun x hx => (hall x hx).1, List.cons_ne_nil t w, hfirst', fun x hx => (hall x hx).2⟩,
        fun hcan x hx => ⟨hcan.1 x hx, hcan.2.2.2 x hx⟩⟩
    | brace =>
      change last.kind = .r_brace at hlast
      have hcount : p.afterAnyToken.braceCount = (p.braceCount + 1) % 2 ^ 16 := by
        change countBrace p.Tok p.braceCount = _
        rw [htok]
        rfl
      have hbalanced := h.balanced
      rw [Brackets.Balanced, Brackets.scan_cons] at hbalanced
      obtain ⟨stack, hstep, hscan⟩ := Option.bind_eq_some_iff.mp hbalanced
      rw [Captures, parse_body_iff htok, passes_iff_skim hafter hlast htext, hcount, Capturable, List.tail_cons]
      have hlt : (p.braceCount + 1) % 2 ^ 16 < 2 ^ 16 := Nat.mod_lt _ (by omega)
      constructor
      · intro hskim
        obtain ⟨n', hskim⟩ := hskim
        refine ⟨skim_taken hskim, List.cons_ne_nil t w, ?_⟩
        exact fits_cons hstep rfl hlt (fun hwrapped => skim_wrapped hlast hscan hwrapped n' hskim)
          fun hn hlt' => fits_of_skim hlast hscan hn hlt' hskim
      · intro hcan
        obtain ⟨heom, -, hfit⟩ := hcan
        obtain ⟨hn, hfit'⟩ := countBrace_fits hstep rfl hfit
        exact ⟨_, skim_of_fits hlast hscan hn heom hfit'⟩

end Runs

/-! ## Brackets that are not captured -/

/-- The preprocessor on a text. -/
def sourceOf (text : String) : Source := { unfinishedSource with
  eof := text.length
  getSourceText := fun startLoc endLoc =>
    some (String.ofList ((text.toList.drop startLoc).take (endLoc - startLoc))) }

theorem not_captures_of_left {src : Source} {kind : Delimiter} {rest : List Token} {text : String} {p : Parser}
    (h : (capture src kind p).toOption.map (fun r => r.2.tokens) ≠ some rest) :
    ¬ Captures src kind rest text p := by
  intro hcaptures
  obtain ⟨q, hq, hrest⟩ := hcaptures
  rw [hq] at h
  exact h (congrArg some hrest)

/-- `(())`, `[[]]`, `[]` and `{}` are balanced, and not captured. -/
theorem nested_not_captures :
    (∃ p, Bracketed .paren [⟨.l_paren, 1, 2⟩, ⟨.r_paren, 2, 3⟩] [] p ∧
      ¬ Captures (sourceOf "(())") .paren [] "()" p) ∧
    (∃ p, Bracketed .square [⟨.l_square, 1, 2⟩, ⟨.r_square, 2, 3⟩] [] p ∧
      ¬ Captures (sourceOf "[[]]") .square [] "[]" p) ∧
    (∃ p, Bracketed .square [] [] p ∧ ¬ Captures (sourceOf "[]") .square [] "" p) ∧
    ∃ p, Bracketed .brace [] [] p ∧ ¬ Captures (sourceOf "\x7b\x7d") .brace [] "" p := by
  refine ⟨?_, ?_, ?_, ?_⟩
  · refine ⟨⟨[⟨.l_paren, 0, 1⟩, ⟨.l_paren, 1, 2⟩, ⟨.r_paren, 2, 3⟩, ⟨.r_paren, 3, 4⟩], 0, []⟩, ?_, ?_⟩
    · exact ⟨by decide, ⟨_, _, rfl, rfl, rfl⟩, by decide⟩
    · exact not_captures_of_left (by decide +kernel)
  · refine ⟨⟨[⟨.l_square, 0, 1⟩, ⟨.l_square, 1, 2⟩, ⟨.r_square, 2, 3⟩, ⟨.r_square, 3, 4⟩], 0, []⟩, ?_, ?_⟩
    · exact ⟨by decide, ⟨_, _, rfl, rfl, rfl⟩, by decide⟩
    · exact not_captures_of_left (by decide +kernel)
  · refine ⟨⟨[⟨.l_square, 0, 1⟩, ⟨.r_square, 1, 2⟩], 0, []⟩, ?_, ?_⟩
    · exact ⟨by decide, ⟨_, _, rfl, rfl, rfl⟩, by decide⟩
    · exact not_captures_of_left (by decide +kernel)
  · refine ⟨⟨[⟨.l_brace, 0, 1⟩, ⟨.r_brace, 1, 2⟩], 0, []⟩, ?_, ?_⟩
    · exact ⟨by decide, ⟨_, _, rfl, rfl, rfl⟩, by decide⟩
    · exact not_captures_of_left (by decide +kernel)

/-- In `{{}}` the inner braces are captured. -/
theorem nestedBody_captures :
    Captures (sourceOf "\x7b\x7b\x7d\x7d") .brace [] "\x7b\x7d"
      ⟨[⟨.l_brace, 0, 1⟩, ⟨.l_brace, 1, 2⟩, ⟨.r_brace, 2, 3⟩, ⟨.r_brace, 3, 4⟩], 0, []⟩ := by
  have hbracketed : Bracketed .brace [⟨.l_brace, 1, 2⟩, ⟨.r_brace, 2, 3⟩] []
      ⟨[⟨.l_brace, 0, 1⟩, ⟨.l_brace, 1, 2⟩, ⟨.r_brace, 2, 3⟩, ⟨.r_brace, 3, 4⟩], 0, []⟩ :=
    ⟨by decide, ⟨_, _, rfl, rfl, rfl⟩, by decide⟩
  refine (captures_iff hbracketed (by decide +kernel)).mpr ⟨by decide, by decide, fun u hu => ?_⟩
  have hlength := hu.length_le
  have hcount : u.countP (fun t => t.kind = .l_brace) ≤ u.length := List.countP_le_length
  simp only [List.length_cons, List.length_nil, Nat.reduceAdd, Nat.reducePow, Nat.reduceMod] at hlength ⊢
  omega

end EgLang.Parsing
