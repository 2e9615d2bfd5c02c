import CanonicalLR.Evaluation.Error
import CanonicalLR.Grammar.Basic
import CanonicalLR.Lexeme

namespace CanonicalLR

variable {V : Type}

namespace TopDown

-- What is left of the derivation and of the tokens. The symbols of a body are visited from left to right:
-- a nonterminal inherits the value of its rule before the productions below it are visited, and a terminal takes
-- its value from the next token.
structure Cursor where
  derivation : List ProductionId
  tokens : List (Token Terminal)

namespace Cursor

def shift (expected : Terminal) (c : Cursor) : Except EvaluationError (Token Terminal × Cursor) :=
  match c.tokens with
  | [] => .error .tokensExhausted
  | token :: tokens =>
    if token.kind = expected then
      .ok (token, { c with tokens })
    else
      .error (.tokenMismatch expected token.lexeme token.position)

def expand (g : Grammar V) (expected : Nonterminal) (c : Cursor) :
    Except EvaluationError (Production V × Cursor) :=
  match c.derivation with
  | [] => .error .derivationExhausted
  | id :: derivation =>
    match g.production? id with
    | some p =>
      if p.head = expected then
        .ok (p, { c with derivation })
      else
        .error (.derivationMismatch expected id)
    | none => .error (.derivationMismatch expected id)

end Cursor

-- A visit to a production, with the value that its head inherits.
abbrev Visit (V : Type) := Production V → Option V → Cursor → Except EvaluationError (Option V × Cursor)

variable [OfLexeme V]

-- Visit the symbols of a body, the first of which has the given position.
def visitBody (g : Grammar V) (visit : Visit V) (a : Attributes V) :
    List Symbol → Nat → Args V → Cursor → Except EvaluationError (Args V × Cursor)
  | [], _, args, c => .ok (args, c)
  | .terminal t :: body, i, args, c =>
    match c.shift t with
    | .error e => .error e
    | .ok (token, c) =>
      visitBody g visit a body (i + 1) (args.setSynthesized i <| some <| ofLexeme token.lexeme) c
  | .nonterminal n :: body, i, args, c =>
    match c.expand g n with
    | .error e => .error e
    | .ok (p, c) =>
      let args := args.inherit a i
      match visit p (args.inherited? i) c with
      | .error e => .error e
      | .ok (value, c) => visitBody g visit a body (i + 1) (args.setSynthesized i value) c

-- Every descent uses up a production of the derivation, so the depth is limited by its length.
def visit (g : Grammar V) : Nat → Visit V
  | 0, _, _, _ => .error .derivationExhausted
  | depth + 1, p, inherited, c =>
    let args := (Args.blank (p.body.length + 1)).setInherited 0 inherited
    match visitBody g (visit g depth) p.attributes p.body 1 args c with
    | .error e => .error e
    | .ok (args, c) => .ok (p.attributes.value args, c)

end TopDown

namespace Grammar

variable [OfLexeme V]

-- There is nothing to evaluate without a derivation or without tokens.
def evaluateTopDown (g : Grammar V) (derivation : List ProductionId) (tokens : List (Token Terminal)) :
    Except EvaluationError (Option V) :=
  match derivation, tokens with
  | [], _ => .ok none
  | _, [] => .ok none
  | root :: derivation, tokens =>
    match g.production? root with
    | none => .error (.unknownProduction root)
    | some p =>
      match TopDown.visit g (derivation.length + 1) p none ⟨derivation, tokens⟩ with
      | .error e => .error e
      | .ok (value, c) =>
        match c.tokens with
        | [] => .error .tokensExhausted
        | token :: _ => if token.kind = .eof then .ok value else .error .trailingTokens

end Grammar
end CanonicalLR
