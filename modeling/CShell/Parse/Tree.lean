import CShell.Token

/-!
# Syntax trees

What the parser builds.  A word keeps its token and, for every `$(…)` in it, the tree
of the commands inside.  A here-document is known by its place in the list of those
the parse has met: the bodies are read behind the next newline, long after the
redirection has been put into its tree.

## Main definitions

* `Ast`, `Word`, `Redirection` — trees, by kind of node.
* `Ast.withRedirection` — a redirection behind a compound command.
* `Ast.endsWithRedirection` — `ends_with_redirection`.

## References

`include/cshell/ast.h`, `src/parser.c`.
-/

namespace CShell
namespace Parse

/-- `enum csh_ast_separator`. -/
inductive Separator
  | finish
  | semi
  | ampersand
  | newline
  deriving DecidableEq, Repr, Inhabited

/-- `enum csh_ast_case_terminator`. -/
inductive Terminator
  | finish
  | leave
  | fallthrough
  deriving DecidableEq, Repr, Inhabited

mutual

/-- `struct csh_ast`; `and` tells `CSH_AST_AND` from `CSH_AST_OR`, `subshell` the
parentheses from the braces, `untilClause` the `until` loop from the `while` loop. -/
inductive Ast
  | simple (start stop : Position) (redirections : List Redirection) (words : List CommandWord)
  | pipeline (start stop : Position) (negated : Bool) (commands : List Ast)
  | binary (start stop : Position) (and : Bool) (left right : Ast)
  | list (start stop : Position) (items : List ListItem)
  | group (start stop : Position) (redirections : List Redirection) (subshell : Bool) (body : Ast)
  | ifClause (start stop : Position) (redirections : List Redirection) (branches : List Branch)
      (elseBody : Option Ast)
  | forClause (start stop : Position) (redirections : List Redirection) (name : Word) (hasIn : Bool)
      (words : List Word) (body : Ast)
  | loop (start stop : Position) (redirections : List Redirection) (untilClause : Bool)
      (condition body : Ast)
  | caseClause (start stop : Position) (redirections : List Redirection) (word : Word)
      (items : List CaseItem)
  | function (start stop : Position) (redirections : List Redirection) (name : Word) (body : Ast)

/-- `struct csh_ast_word`. -/
inductive Word
  | mk (token : Token) (substitutions : List Substitution)

/-- `struct csh_ast_substitution`. -/
inductive Substitution
  | mk (fragment begin stop : ℕ) (body : Ast)

/-- `struct csh_ast_redirection`; a here-document is named by its place. -/
inductive Redirection
  | mk (operatorKind : TokenKind) (start stop : Position) (ioNumber : Option Token) (operand : Word)
      (document : Option ℕ)

/-- `struct csh_ast_command_word`. -/
inductive CommandWord
  | mk (word : Word) (assignment : Bool)

/-- `struct csh_ast_list_item`. -/
inductive ListItem
  | mk (command : Ast) (separator : Separator) (separatorStart separatorStop : Position)

/-- `struct csh_ast_if_branch`. -/
inductive Branch
  | mk (condition body : Ast)

/-- `struct csh_ast_case_item`. -/
inductive CaseItem
  | mk (patterns : List Word) (body : Ast) (terminator : Terminator)
      (terminatorStart terminatorStop : Position)

end

namespace Word

def token : Word → Token
  | mk token _ => token

def substitutions : Word → List Substitution
  | mk _ substitutions => substitutions

end Word

namespace Substitution

def fragment : Substitution → ℕ
  | mk fragment _ _ _ => fragment

def begin : Substitution → ℕ
  | mk _ begin _ _ => begin

def stop : Substitution → ℕ
  | mk _ _ stop _ => stop

def body : Substitution → Ast
  | mk _ _ _ body => body

end Substitution

namespace CommandWord

def word : CommandWord → Word
  | mk word _ => word

def isAssignment : CommandWord → Bool
  | mk _ assignment => assignment

end CommandWord

namespace Redirection

def stop : Redirection → Position
  | mk _ _ stop _ _ _ => stop

end Redirection

namespace Ast

def start : Ast → Position
  | simple start _ _ _ | pipeline start _ _ _ | binary start _ _ _ _ | list start _ _
  | group start _ _ _ _ | ifClause start _ _ _ _ | forClause start _ _ _ _ _ _
  | loop start _ _ _ _ _ | caseClause start _ _ _ _ | function start _ _ _ _ => start

def stop : Ast → Position
  | simple _ stop _ _ | pipeline _ stop _ _ | binary _ stop _ _ _ | list _ stop _
  | group _ stop _ _ _ | ifClause _ stop _ _ _ | forClause _ stop _ _ _ _ _
  | loop _ stop _ _ _ _ | caseClause _ stop _ _ _ | function _ stop _ _ _ => stop

def redirections : Ast → List Redirection
  | simple _ _ redirections _ | group _ _ redirections _ _ | ifClause _ _ redirections _ _
  | forClause _ _ redirections _ _ _ _ | loop _ _ redirections _ _ _
  | caseClause _ _ redirections _ _ | function _ _ redirections _ _ => redirections
  | pipeline _ _ _ _ | binary _ _ _ _ _ | list _ _ _ => []

/-- `csh_ast_add_redirection`, with the end that `parse_redirection` sets. -/
def withRedirection (r : Redirection) : Ast → Ast
  | simple start _ rs words => simple start r.stop (rs ++ [r]) words
  | group start _ rs subshell body => group start r.stop (rs ++ [r]) subshell body
  | ifClause start _ rs branches elseBody => ifClause start r.stop (rs ++ [r]) branches elseBody
  | forClause start _ rs name hasIn words body =>
    forClause start r.stop (rs ++ [r]) name hasIn words body
  | loop start _ rs untilClause condition body =>
    loop start r.stop (rs ++ [r]) untilClause condition body
  | caseClause start _ rs word items => caseClause start r.stop (rs ++ [r]) word items
  | function start _ rs name body => function start r.stop (rs ++ [r]) name body
  | node => node

/-- `ends_with_redirection`. -/
def endsWithRedirection : Ast → Bool
  | binary _ _ _ _ right => right.endsWithRedirection
  | pipeline _ _ _ commands => !((commands.getLast?.map redirections).getD []).isEmpty
  | node => !node.redirections.isEmpty

end Ast

end Parse
end CShell
