import CShell.Parse.Lookahead

/-!
# The productions

Recursive descent over one token of lookahead.  A nested list leaves the token that
closes it in the lookahead; the list of a complete command stops behind the first
newline that ends it.

The recursion goes through `parse_list` alone, and every way back into it checks the
native stack, so that the parser is a recursion on the room left there.

## Main definitions

* `parseRedirection`, `parseIf`, `parseLoop`, `parseFor`, `parseCase`,
  `parseCompound`, `parseFunction`, `parseCommand`, `parsePipeline`, `parseAndOr` —
  the productions, over the parser of nested lists.
* `parseList` — `parse_list`, with room for `stack` nested commands.

## References

`src/parser.c`.
-/

namespace CShell
namespace Parse

open Lexical

/-- The look of the innermost frame. -/
def lookToken : P (Option Token) := Program.gets fun s => s.frame.look.map Word.token

/-- `at_close`. -/
def atClose (closing : Closing) (look : Option Token) : Bool :=
  match look with
  | none => false
  | some token =>
    match closing with
    | .nothing => false
    | .paren => token.kind == .rparen
    | .brace => plainEqual token "\x7d"
    | .thenWord => plainEqual token "then"
    | .ifBranch => plainEqual token "elif" || plainEqual token "else" || plainEqual token "fi"
    | .fiWord => plainEqual token "fi"
    | .doWord => plainEqual token "do"
    | .doneWord => plainEqual token "done"
    | .caseItem => token.kind == .dsemi || token.kind == .semiAnd || plainEqual token "esac"

/-- `enum csh_ast_kind` of a compound command. -/
inductive CompoundKind
  | subshell
  | brace
  | ifClause
  | forClause
  | whileLoop
  | untilLoop
  | caseClause
  deriving DecidableEq, Repr, Inhabited

/-- `compound_kind`. -/
def compoundKind (token : Token) : Option CompoundKind :=
  if token.kind = .lparen then some .subshell
  else if plainEqual token "\x7b" then some .brace
  else if plainEqual token "if" then some .ifClause
  else if plainEqual token "for" then some .forClause
  else if plainEqual token "while" then some .whileLoop
  else if plainEqual token "until" then some .untilLoop
  else if plainEqual token "case" then some .caseClause
  else none

section

variable (d current : Decoder) (rounds : ℕ) (list : Option (Closing → Bool → Position → P Ast))

/-- The parser of nested lists; a production that needs it was entered with room on
the stack. -/
def nested (closing : Closing) (allowEmpty : Bool) (opening : Position) : P Ast := do
  match list with
  | some list => list closing allowEmpty opening
  | none => failAt .error "parser stack exhausted" enomem (← position)

/-- `prepare_document`. -/
def prepareDocument (kind : TokenKind) (operand : Token) : P ℕ := do
  match delimiterSpelling d current 0 operand.raw with
  | none =>
    failAt .error "invalid dollar-single-quoted here-document delimiter" 0 (tokenPosition operand)
  | some (delimiter, quoted) =>
    Program.update (Run.addDocument
      { operatorKind := kind, delimiter, delimiterQuoted := quoted,
        operandPosition := tokenPosition operand })

/-- `parse_redirection`, the operator being the look. -/
def parseRedirection (operator : Token) (descriptor : Option Word) : P Redirection := do
  let start := (descriptor.map fun word => word.token.start).getD operator.start
  discard
  match ← peek d rounds list .operand with
  | none => failAt .incomplete "missing redirection operand" 0 (tokenPosition operator)
  | some operand =>
    if operand.token.kind != .word then
      failAt .error "expected redirection operand" 0 (← position)
    else
      discard
      let document ←
        if operator.kind = .dless ∨ operator.kind = .dlessDash then
          some <$> prepareDocument d current operator.kind operand.token
        else pure none
      pure (.mk operator.kind start operand.token.stop (descriptor.map Word.token) operand document)

/-! ### Compound commands -/

/-- The loop of `parse_if`, the look being `if` or `elif`. -/
def ifLoop (start : Position) : ℕ → List Branch → P (List Branch)
  | 0, _ => Program.stop .exhausted
  | n + 1, branches => do
    discard
    let condition ← nested list .thenWord false start
    let _ ← consumeKeyword d rounds list "then"
    let body ← nested list .ifBranch false start
    let branches := branches ++ [.mk condition body]
    let look ← lookToken
    if (look.map fun token => plainEqual token "elif").getD false then ifLoop start n branches
    else pure branches

/-- `parse_if`. -/
def parseIf (start : Position) : P Ast := do
  let branches ← ifLoop d rounds list start rounds []
  let look ← lookToken
  let elseBody ←
    if (look.map fun token => plainEqual token "else").getD false then do
      discard
      some <$> nested list .fiWord false start
    else pure none
  let stop ← consumeKeyword d rounds list "fi"
  pure (.ifClause start stop [] branches elseBody)

/-- `parse_loop`. -/
def parseLoop (untilClause : Bool) (start : Position) : P Ast := do
  discard
  let condition ← nested list .doWord false start
  let _ ← consumeKeyword d rounds list "do"
  let body ← nested list .doneWord false start
  let stop ← consumeKeyword d rounds list "done"
  pure (.loop start stop [] untilClause condition body)

/-- The words of a `for` list; what ends the list is left in the lookahead. -/
def forWords : ℕ → List Word → P (List Word × Option Word)
  | 0, _ => Program.stop .exhausted
  | n + 1, words => do
    match ← peek d rounds list .forWord with
    | none => pure (words, none)
    | some word =>
      if word.token.kind = .word then
        discard
        forWords n (words ++ [word])
      else pure (words, some word)

/-- The list of a `for` loop, behind `in`, with the separator behind it. -/
def forList : P (List Word) := do
  discard
  let (words, behind) ← forWords d rounds list rounds []
  match behind with
  | none => failAt .incomplete "expected separator after for words" 0 (← position)
  | some word =>
    if word.token.kind = .newline then newline d rounds
    else if word.token.kind = .semi then discard
    else failAt .error "expected separator after for words" 0 (← position)
    let _ ← skipNewlines d rounds list .forDo
    pure words

/-- `parse_for`. -/
def parseFor (start : Position) : P Ast := do
  discard
  let name ← expectToken d rounds list .forName .word none "expected for variable name"
  if !nameToken name.token then
    failAt .error "invalid for variable name" 0 (← position)
  else
    discard
    let behind ← peek d rounds list .forIn
    let hadNewline := (behind.map fun word => word.token.kind == .newline).getD false
    let behind ← skipNewlines d rounds list .forIn
    let semicolon := !hadNewline && (behind.map fun word => word.token.kind == .semi).getD false
    if semicolon then
      discard
      let _ ← skipNewlines d rounds list .forDo
    let look ← lookToken
    let hasIn := !semicolon && (look.map fun token => plainEqual token "in").getD false
    let words ← if hasIn then forList d rounds list else pure []
    let _ ← consumeKeyword d rounds list "do"
    let body ← nested list .doneWord false start
    let stop ← consumeKeyword d rounds list "done"
    pure (.forClause start stop [] name hasIn words body)

/-- The patterns of a `case` item. -/
def casePatterns : ℕ → List Word → P (List Word)
  | 0, _ => Program.stop .exhausted
  | n + 1, patterns => do
    let pattern ← expectToken d rounds list .casePattern .word none "expected case pattern"
    discard
    let patterns := patterns ++ [pattern]
    match ← peek d rounds list .caseBar with
    | none => pure patterns
    | some word =>
      if word.token.kind = .pipe then
        discard
        casePatterns n patterns
      else pure patterns

/-- One item of a `case` command, the look being its first token. -/
def caseItem (start : Position) (look : Token) : P CaseItem := do
  if look.kind = .lparen then discard
  let patterns ← casePatterns d rounds list rounds []
  let _ ← expectToken d rounds list .caseBar .rparen none "expected ')' after case patterns"
  discard
  let body ← nested list .caseItem true start
  match ← lookToken with
  | none => pure (.mk patterns body .finish {} {})
  | some token =>
    if token.kind = .dsemi ∨ token.kind = .semiAnd then
      discard
      pure (.mk patterns body (if token.kind = .dsemi then .leave else .fallthrough) token.start token.stop)
    else pure (.mk patterns body .finish {} {})

/-- The loop of `parse_case`. -/
def caseLoop (start : Position) (word : Word) : ℕ → List CaseItem → P Ast
  | 0, _ => Program.stop .exhausted
  | n + 1, items => do
    match ← skipNewlines d rounds list .caseItem with
    | none => failAt .incomplete "unterminated case command" 0 start
    | some look =>
      if plainEqual look.token "esac" then
        let stop ← consumeKeyword d rounds list "esac"
        pure (.caseClause start stop [] word items)
      else
        let item ← caseItem d rounds list start look.token
        caseLoop start word n (items ++ [item])

/-- `parse_case`. -/
def parseCase (start : Position) : P Ast := do
  discard
  let word ← expectToken d rounds list .caseWord .word none "expected case word"
  discard
  let _ ← skipNewlines d rounds list .caseIn
  let _ ← consumeKeyword d rounds list "in"
  caseLoop d rounds list start word rounds []

/-- The two groups of `parse_compound`. -/
def parseGroup (subshell : Bool) (start : Position) : P Ast := do
  discard
  let body ← nested list (if subshell then .paren else .brace) false start
  let look ← lookToken
  discard
  pure (.group start ((look.map Token.stop).getD {}) [] subshell body)

/-- `parse_compound`. -/
def parseCompound (kind : CompoundKind) : P Ast := do
  let start ← position
  if list.isNone then failAt .error "parser stack exhausted" enomem start
  else
    match kind with
    | .subshell => parseGroup list true start
    | .brace => parseGroup list false start
    | .ifClause => parseIf d rounds list start
    | .forClause => parseFor d rounds list start
    | .whileLoop => parseLoop d rounds list false start
    | .untilLoop => parseLoop d rounds list true start
    | .caseClause => parseCase d rounds list start

/-- `trailing_redirections`. -/
def trailingRedirections : ℕ → Ast → P Ast
  | 0, _ => Program.stop .exhausted
  | n + 1, node => do
    match ← peek d rounds list .trailing with
    | none => pure node
    | some look =>
      if redirectionKind look.token.kind then
        let r ← parseRedirection d current rounds list look.token none
        trailingRedirections n (node.withRedirection r)
      else if look.token.kind = .word ∧ ioNumber look.token = true then
        let adjacent ← Program.update (Run.followsRedirection d)
        discard
        match ← peek d rounds list .trailing with
        | some operator =>
          if adjacent && redirectionKind operator.token.kind then
            let r ← parseRedirection d current rounds list operator.token (some look)
            trailingRedirections n (node.withRedirection r)
          else
            failAt .error "unexpected word after compound command" 0 (tokenPosition look.token)
        | none => failAt .error "unexpected word after compound command" 0 (tokenPosition look.token)
      else pure node

/-- `parse_function`, behind the name, the look being the opening parenthesis. -/
def parseFunction (name : Word) : P Ast := do
  if !nameToken name.token then failAt .error "invalid function name" 0 name.token.start
  else
    discard
    let _ ← expectToken d rounds list .functionClose .rparen none "expected ')' in function definition"
    discard
    match ← skipNewlines d rounds list .functionBody with
    | none => failAt .incomplete "expected compound function body" 0 (← position)
    | some look =>
      match compoundKind look.token with
      | none => failAt .error "expected compound function body" 0 (← position)
      | some kind =>
        let body ← parseCompound d rounds list kind
        trailingRedirections d current rounds list rounds
          (.function name.token.start body.stop [] name body)

/-! ### Simple commands -/

/-- What `parse_command` has read of a simple command. -/
structure Simple where
  start : Position
  stop : Position := {}
  redirections : List Redirection := []
  words : List CommandWord := []
  commandName : Bool := false
  begun : Bool := false

/-- A redirection of a simple command. -/
def Simple.redirect (c : Simple) (r : Redirection) : Simple :=
  { c with stop := r.stop, redirections := c.redirections ++ [r], begun := true }

/-- A word of a simple command. -/
def Simple.add (c : Simple) (word : Word) : Simple :=
  let isAssignment := !c.commandName && assignment word.token
  { c with
    stop := word.token.stop, words := c.words ++ [.mk word isAssignment],
    commandName := c.commandName || !isAssignment, begun := true }

/-- The end of `parse_command`. -/
def Simple.finish (c : Simple) (opening : Position) : P Ast :=
  if c.words.isEmpty && c.redirections.isEmpty then failAt .error "expected command" 0 opening
  else pure (.simple c.start c.stop c.redirections c.words)

/-- The loop of `parse_command`. -/
def simpleLoop (opening : Position) : ℕ → Simple → P Ast
  | 0, _ => Program.stop .exhausted
  | n + 1, c => do
    match ← peekAlias d rounds list (if c.commandName then .argument else .command c.words) (!c.commandName) with
    | none => c.finish opening
    | some look =>
      if redirectionKind look.token.kind then
        let r ← parseRedirection d current rounds list look.token none
        simpleLoop opening n (c.redirect r)
      else if look.token.kind != .word then c.finish opening
      else if !c.commandName && !c.begun && reserved look.token then
        failAt .error "unexpected reserved word" 0 (← position)
      else
        let descriptor ←
          if ioNumber look.token then Program.update (Run.followsRedirection d) else pure false
        discard
        let behind ← peek d rounds list .behindWord
        let kind := behind.map fun word => word.token.kind
        if !c.begun && kind == some .lparen then parseFunction d current rounds list look
        else
          match behind with
          | some operator =>
            if descriptor && redirectionKind operator.token.kind then
              let r ← parseRedirection d current rounds list operator.token (some look)
              simpleLoop opening n (c.redirect r)
            else simpleLoop opening n (c.add look)
          | none => simpleLoop opening n (c.add look)

/-- `parse_command`. -/
def parseCommand : P Ast := do
  match ← peekAlias d rounds list (.command []) true with
  | none => failAt .incomplete "expected command" 0 (← position)
  | some look =>
    match compoundKind look.token with
    | some kind =>
      let node ← parseCompound d rounds list kind
      trailingRedirections d current rounds list rounds node
    | none =>
      simpleLoop d current rounds list (tokenPosition look.token) rounds { start := look.token.start }

/-! ### Pipelines and lists -/

/-- The loop of `parse_pipeline`; the commands and the end of the last one. -/
def pipelineLoop : ℕ → List Ast → P (List Ast)
  | 0, _ => Program.stop .exhausted
  | n + 1, commands => do
    match ← peek d rounds list .operator with
    | none => pure commands
    | some look =>
      if look.token.kind = .pipe then
        discard
        match ← skipNewlines d rounds list (.command []) with
        | none => failAt .incomplete "missing command after pipe" 0 (tokenPosition look.token)
        | some _ =>
          let command ← parseCommand d current rounds list
          pipelineLoop n (commands ++ [command])
      else pure commands

/-- `parse_pipeline`. -/
def parsePipeline : P Ast := do
  let opening ← position
  let look ← peekAlias d rounds list (.command []) true
  let negated := (look.map fun word => plainEqual word.token "!").getD false
  if negated then discard
  let command ← parseCommand d current rounds list
  let commands ← pipelineLoop d current rounds list rounds [command]
  match negated, commands with
  | false, [command] => pure command
  | _, _ => pure (.pipeline opening ((commands.getLast?.map Ast.stop).getD command.stop) negated commands)

/-- The loop of `parse_and_or`. -/
def andOrLoop : ℕ → Ast → P Ast
  | 0, _ => Program.stop .exhausted
  | n + 1, left => do
    match ← peek d rounds list .operator with
    | none => pure left
    | some look =>
      if look.token.kind = .andIf ∨ look.token.kind = .orIf then
        discard
        match ← skipNewlines d rounds list (.command []) with
        | none =>
          failAt .incomplete "missing command after and-or operator" 0 (tokenPosition look.token)
        | some _ =>
          let right ← parsePipeline d current rounds list
          andOrLoop n (.binary left.start right.stop (look.token.kind == .andIf) left right)
      else pure left

/-- `parse_and_or`. -/
def parseAndOr : P Ast := do
  let left ← parsePipeline d current rounds list
  andOrLoop d current rounds list rounds left

/-- The separator a token is. -/
def separatorOf : TokenKind → Option Separator
  | .semi => some .semi
  | .ampersand => some .ampersand
  | .newline => some .newline
  | _ => none

/-- The end of `parse_list`. -/
def finishList (closing : Closing) (tree : Ast) : P Ast := do
  let s ← Program.gets id
  match closing, s.documentsOf s.frame with
  | .nothing, document :: _ =>
    failAt .incomplete "here-document requires a following newline" 0 document.operandPosition
  | _, _ => pure tree

/-- The loop of `parse_list`; `ended` tells that the input is at its end. -/
def listLoop (closing : Closing) (opening : Position) :
    ℕ → Position → Position → List ListItem → Bool → P Ast
  | 0, _, _, _, _ => Program.stop .exhausted
  | n + 1, start, stop, items, ended => do
    if ended then
      if closing = .nothing then finishList closing (.list start stop items)
      else failAt .incomplete "unterminated command group" 0 opening
    else
      let command ← parseAndOr d current rounds list
      let start := if items.isEmpty then command.start else start
      match ← peek d rounds list .operator with
      | none =>
        if closing = .nothing then
          finishList closing (.list start command.stop (items ++ [.mk command .finish {} {}]))
        else failAt .incomplete "unterminated command group" 0 opening
      | some look =>
        match separatorOf look.token.kind with
        | none =>
          if !atClose closing (some look.token) ||
              (look.token.kind == .word && command.endsWithRedirection) then
            failAt .error "expected command separator" 0 (← position)
          else finishList closing (.list start command.stop (items ++ [.mk command .finish {} {}]))
        | some separator =>
          let items := items ++ [.mk command separator look.token.start look.token.stop]
          let stop := look.token.stop
          if separator = .newline then newline d rounds else discard
          if separator = .newline ∧ closing = .nothing then pure (.list start stop items)
          else
            let behind ← peekAlias d rounds list (.command []) true
            match closing, behind with
            | .nothing, some word =>
              if word.token.kind = .newline then
                newline d rounds
                pure (.list start word.token.stop items)
              else listLoop closing opening n start stop items false
            | .nothing, none => listLoop closing opening n start stop items true
            | closing, _ =>
              let behind ← skipNewlines d rounds list (.command [])
              let look ← lookToken
              if atClose closing look then finishList closing (.list start stop items)
              else listLoop closing opening n start stop items behind.isNone

/-- `parse_list`, over the parser of the lists nested in it. -/
def listBody (closing : Closing) (allowEmpty : Bool) (opening : Position) : P Ast := do
  let look ← skipNewlines d rounds list (.command [])
  if atClose closing (look.map Word.token) then
    if allowEmpty then pure (.list opening opening [])
    else failAt .error "empty command group" 0 (← position)
  else listLoop d current rounds list closing opening rounds opening opening [] look.isNone

end

/-- `parse_list`, with room for `stack` nested commands on the native stack. -/
def parseList (d current : Decoder) (rounds : ℕ) : ℕ → Closing → Bool → Position → P Ast
  | 0 => listBody d current rounds none
  | stack + 1 => listBody d current rounds (some (parseList d current rounds stack))

end Parse
end CShell
