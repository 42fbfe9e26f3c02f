import CShell.Text

/-!
# Tokens and word fragments

The records the lexer publishes and the expander reads.  A word keeps its
spelling; quoting and expansions are marked by *fragments*, a flat preorder list
of ranges of the spelling in which every fragment names its parent.

## References

`include/cshell/lexer.h`, `include/cshell/input.h`.
-/

namespace CShell

/-- `struct csh_position`. -/
structure Position where
  offset : ℕ := 0
  line : ℕ := 0
  column : ℕ := 0
  deriving DecidableEq, Repr, Inhabited

/-- `enum csh_token_kind`. -/
inductive TokenKind
  | word
  | newline
  | andIf
  | orIf
  | dsemi
  | semiAnd
  | dless
  | dgreat
  | lessAnd
  | greatAnd
  | lessGreat
  | dlessDash
  | clobber
  | pipe
  | ampersand
  | semi
  | lparen
  | rparen
  | less
  | great
  deriving DecidableEq, Repr, Inhabited

/-- `enum csh_quote`. -/
inductive Quote
  | none
  | single
  | double
  | dollarSingle
  deriving DecidableEq, Repr, Inhabited

/-- `enum csh_fragment_kind`. -/
inductive FragmentKind
  | text
  | quoted
  | escape
  | continuation
  | parameter
  | command
  | arithmetic
  | backquote
  deriving DecidableEq, Repr, Inhabited

/-- `struct csh_fragment`; a parent of `none` is `CSH_FRAGMENT_ROOT`. -/
structure Fragment where
  kind : FragmentKind
  quote : Quote
  parent : Option ℕ
  begin : ℕ
  stop : ℕ
  start : Position := {}
  finish : Position := {}
  deriving DecidableEq, Repr, Inhabited

/-- `struct csh_token`; an ordinary input token has neither an alias name nor an
invocation source. -/
structure Token where
  kind : TokenKind
  raw : Bytes
  start : Position := {}
  stop : Position := {}
  fragments : List Fragment := []
  sourceName : Bytes := []
  aliasName : Option Bytes := none
  invocationSource : Option Bytes := none
  invocation : Position := {}
  aliasEligible : Bool := false
  deriving DecidableEq, Repr, Inhabited

end CShell
