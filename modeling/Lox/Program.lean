import Lox.Resolution
import Lox.Syntax.Parser
import Lox.Token.Scanner

/-! # Programs

The way from a source text to a tree that can run: tokens, grammar, numbering of nodes, resolution of
names.  A program is accepted when no stage finds a fault.  Names are resolved whenever the grammar was
obeyed, so that faults of the text and of scope are reported together. -/

namespace Lox

/-- An accepted program: its statements and the distances of their uses of local names. -/
structure Program where
  statements : List (Stmt NodeId)
  distances : Distances

/-- An accepted expression. -/
structure LoneExpr where
  expr : Expr NodeId
  distances : Distances

/-- A result, unless there are faults. -/
def unlessFaulty {α : Type} (faults : List Diagnostic) (a : α) : Except (List Diagnostic) α :=
  if faults.isEmpty then .ok a else .error faults

/-- Analyses a source text as a program, numbering its nodes from `next` on; gives the next number. -/
def analyze (next : NodeId) (source : String) : Except (List Diagnostic) (Program × NodeId) :=
  let stream := scan source
  let lexical := (faultsOf stream).map Diagnostic.lex
  match parseProgram (tokensOf stream) with
  | .error faults => .error (lexical ++ faults.map .parse)
  | .ok body =>
    let (statements, last) := Stmt.numberAll next body
    match resolveProgram statements with
    | .error faults => .error (lexical ++ faults.map .scope)
    | .ok distances => unlessFaulty lexical (⟨statements, distances⟩, last)

/-- Reads a source text as one expression. -/
def readExpression (source : String) : Except (List Diagnostic) PlainExpr :=
  let stream := scan source
  let lexical := (faultsOf stream).map Diagnostic.lex
  match parseExpression (tokensOf stream) with
  | .error faults => .error (lexical ++ faults.map .parse)
  | .ok e => unlessFaulty lexical e

/-- Analyses a source text as one expression. -/
def analyzeExpression (next : NodeId) (source : String) :
    Except (List Diagnostic) (LoneExpr × NodeId) := do
  let plain ← readExpression source
  let (expr, last) := plain.number next
  match resolveExpression expr with
  | .error faults => .error (faults.map .scope)
  | .ok distances => .ok (⟨expr, distances⟩, last)

end Lox
