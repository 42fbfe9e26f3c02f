import CShell.State.CommandHash
import CShell.Arithmetic.Correct
import CShell.Arithmetic.Prefix
import CShell.Expand.Splitting
import CShell.Expand.Globbing
import CShell.Expand.Rollback
import CShell.Expand.Inert
import CShell.Execute.Conformance
import CShell.Redirect.Invisible
import CShell.Lexer.Spelling
import CShell.Lexer.Accepted
import CShell.Jobs.Reports
import CShell.Jobs.Status
import CShell.Traps.Dispatch
import CShell.Quoting.Reinput
import CShell.Quoting.Document
import CShell.Parse.Bodies
import CShell.Parse.Replacing
import CShell.Expand.Table
import CShell.Lexer.Drafting
import CShell.Lexer.Aliases
import CShell.Expand.Removal
import CShell.Expand.Decoding
import CShell.Arithmetic.Exact
import CShell.Arithmetic.RoundTrip
import CShell.Utility.Getopts
import CShell.Utility.Read
import CShell.Builtin.Atomic
import CShell.Traps.Reinput
import CShell.State.Environment
import CShell.Expand.Scalar
import CShell.Lexer.Operators
import CShell.Execute.Recognition
import CShell.Execute.Destroying
import CShell.Jobs.Pipes
import CShell.Execute.Functions
