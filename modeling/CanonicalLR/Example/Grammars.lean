import CanonicalLR.Example.Ast
import CanonicalLR.Grammar.Draft

namespace CanonicalLR.Example

abbrev take (position : Nat) : Template := .takeSynthesized position

def synthesized (t : Template) : Attributes Ast := .synthesized t.rule

-- The value of the `i`-th symbol of the body.
def pass (i : Nat) : Attributes Ast := synthesized (take i)

namespace Brackets

def lparen : Terminal := ⟨1⟩
def rparen : Terminal := ⟨2⟩
def a : Terminal := ⟨3⟩
def s : Nonterminal := ⟨1⟩

end Brackets

open Brackets in
-- `S := ( S ) | a`
def brackets : List (Declaration Ast) := [
  .terminal "LPAREN", .terminal "RPAREN", .terminal "A",
  .nonterminal "S",
  .production s [lparen, s, rparen] (synthesized <| .node "()" [take 2]),
  .production s [a] (pass 1)]

namespace Arithmetic

def plus : Terminal := ⟨1⟩
def minus : Terminal := ⟨2⟩
def star : Terminal := ⟨3⟩
def slash : Terminal := ⟨4⟩
def lparen : Terminal := ⟨5⟩
def rparen : Terminal := ⟨6⟩
def num : Terminal := ⟨7⟩

def terminals : List (Declaration Ast) := [
  .terminal "PLUS", .terminal "MINUS", .terminal "STAR", .terminal "SLASH",
  .terminal "LPAREN", .terminal "RPAREN", .terminal "NUM"]

def expr : Nonterminal := ⟨1⟩
def term : Nonterminal := ⟨2⟩
def factor : Nonterminal := ⟨3⟩

def binary (label : String) : Attributes Ast := synthesized <| .node label [take 1, take 3]

end Arithmetic

open Arithmetic in
-- Arithmetic expressions with left recursion and synthesized values.
def arithmetic : List (Declaration Ast) := terminals ++ [
  .nonterminal "EXPR", .nonterminal "TERM", .nonterminal "FACTOR",
  .start expr,
  .production expr [expr, plus, term] (binary "+"),
  .production expr [expr, minus, term] (binary "-"),
  .production expr [term] (pass 1),
  .production term [term, star, factor] (binary "*"),
  .production term [term, slash, factor] (binary "/"),
  .production term [factor] (pass 1),
  .production factor [num] (pass 1),
  .production factor [lparen, expr, rparen] (pass 2)]

namespace Arithmetic.Inheriting

def e : Nonterminal := ⟨1⟩
def x : Nonterminal := ⟨2⟩
def t : Nonterminal := ⟨3⟩
def y : Nonterminal := ⟨4⟩
def f : Nonterminal := ⟨5⟩

-- An operand and a tail of operators, which inherits the operand.
def chain : Attributes Ast := pass 2 |>.withInherited 2 (take 1).rule

-- The tail inherits the application of the operator to what has been inherited and the next operand.
def apply (label : String) : Attributes Ast :=
  pass 3 |>.withInherited 3 (Template.node label [.inherited 0, take 2]).rule

-- The end of a tail, where the value is what has been inherited.
def unchained : Attributes Ast := synthesized (.inherited 0)

end Arithmetic.Inheriting

open Arithmetic Arithmetic.Inheriting in
-- Arithmetic expressions without left recursion. The operators associate to the left nevertheless,
-- since their left operands are inherited.
def inheritingArithmetic : List (Declaration Ast) := terminals ++ [
  .nonterminal "E", .nonterminal "X", .nonterminal "T", .nonterminal "Y", .nonterminal "F",
  .production e [t, x] chain,
  .production x [plus, t, x] (apply "+"),
  .production x [minus, t, x] (apply "-"),
  .production x [] unchained,
  .production t [f, y] chain,
  .production y [star, f, y] (apply "*"),
  .production y [slash, f, y] (apply "/"),
  .production y [] unchained,
  .production f [num] (pass 1),
  .production f [lparen, e, rparen] (pass 2)]

namespace DanglingElse

def ifKeyword : Terminal := ⟨1⟩
def cond : Terminal := ⟨2⟩
def thenKeyword : Terminal := ⟨3⟩
def elseKeyword : Terminal := ⟨4⟩
def other : Terminal := ⟨5⟩
def stmt : Nonterminal := ⟨1⟩

end DanglingElse

open DanglingElse in
-- Before `ELSE`, the inner statement may end or go on.
def danglingElse : List (Declaration Ast) := [
  .terminal "IF", .terminal "COND", .terminal "THEN", .terminal "ELSE", .terminal "OTHER",
  .nonterminal "STMT",
  .production stmt [ifKeyword, cond, thenKeyword, stmt] (synthesized <| .node "if" [take 2, take 4]),
  .production stmt [ifKeyword, cond, thenKeyword, stmt, elseKeyword, stmt]
    (synthesized <| .node "if" [take 2, take 4, take 6]),
  .production stmt [other] (pass 1)]

namespace ShadowedConflict

def x : Terminal := ⟨1⟩
def y : Terminal := ⟨2⟩
def a : Terminal := ⟨3⟩
def plus : Terminal := ⟨4⟩
def star : Terminal := ⟨5⟩
def lparen : Terminal := ⟨6⟩
def rparen : Terminal := ⟨7⟩
def num : Terminal := ⟨8⟩

def s : Nonterminal := ⟨1⟩
def t : Nonterminal := ⟨2⟩
def r : Nonterminal := ⟨3⟩
def ra : Nonterminal := ⟨4⟩
def rb : Nonterminal := ⟨5⟩
def e : Nonterminal := ⟨6⟩
def f : Nonterminal := ⟨7⟩
def p : Nonterminal := ⟨8⟩

end ShadowedConflict

open ShadowedConflict in
-- The empty production comes first, so that a machine in front of `y` always reduces it and never
-- gets to where the reductions to `RA` and `RB` are in conflict.
def shadowedConflict : List (Declaration Ast) := [
  .terminal "X", .terminal "Y", .terminal "A", .terminal "PLUS", .terminal "STAR",
  .terminal "LPAREN", .terminal "RPAREN", .terminal "NUM",
  .nonterminal "S", .nonterminal "T", .nonterminal "R", .nonterminal "RA", .nonterminal "RB",
  .nonterminal "E", .nonterminal "F", .nonterminal "P",
  .start s,
  .production t [] .none,
  .production s [x, t, y, e] .none,
  .production s [x, y, r] .none,
  .production r [ra] .none,
  .production r [rb] .none,
  .production ra [a] .none,
  .production rb [a] .none,
  .production e [e, plus, f] .none,
  .production e [f] .none,
  .production f [f, star, p] .none,
  .production f [p] .none,
  .production p [num] .none,
  .production p [lparen, e, rparen] .none]

end CanonicalLR.Example
