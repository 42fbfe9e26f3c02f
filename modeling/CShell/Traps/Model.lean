import CShell.Execute.Model

/-!
# Pending traps

`csh_execute_pending_traps` with the part of `traps.c` it rests on: the table of actions
and the flags that signal handlers set.  What an action does is a parameter: it is given
the shell and returns the shell it leaves, with the flags set by the signals that arrived
meanwhile, and the execution it ended in.  Memory is not exhausted, and the table exists.

## Main definitions

* `Shell` — the actions, the pending flags and the parts of
  `struct csh_execution_context` that dispatch reads or writes.
* `Shell.firstPending`, `Shell.take` — `csh_traps_first_pending`, `csh_traps_take`.
* `evaluateTrapAction` — one action, with the status it must not change.
* `executePendingTraps` — the dispatch, with the actions it ran.

## References

`src/traps.c`, `src/execute.c` (`evaluate_trap_action`, `csh_execute_pending_traps`),
`docs/traps-and-signals.md`.
-/

namespace CShell

namespace Traps

open Execute (Execution Control)

/-- `CSH_TRAP_LIMIT`. -/
def trapLimit : ℕ := 128

/-- The signal numbers the loops of `traps.c` run through. -/
def numbers : List ℕ := List.range' 1 (trapLimit - 1)

/-- The trap table, its flags, and what dispatch uses of the execution context. -/
structure Shell (σ : Type) where
  /-- `entries[i].action`. -/
  action : ℕ → Option Bytes
  /-- `pending[i]`. -/
  pending : ℕ → Bool
  /-- `last_status` of the state. -/
  status : ℤ
  dispatching : Bool := false
  inTrap : Bool := false
  trapStatus : ℤ := 0
  world : σ

variable {σ : Type}

namespace Shell

/-- Whether `record_signal` handles a signal: its action is set and not empty. -/
def caught (s : Shell σ) (i : ℕ) : Bool :=
  decide (i ∈ numbers) && (s.action i).any fun text => !text.isEmpty

/-- `csh_traps_first_pending`. -/
def firstPending (s : Shell σ) : Option ℕ := numbers.find? s.pending

/-- `pending[i] = 0`. -/
def clear (s : Shell σ) (i : ℕ) : Shell σ :=
  { s with pending := Function.update s.pending i false }

/-- The loop of `csh_traps_take`. -/
def takeFrom : List ℕ → Shell σ → Option (ℕ × Bytes) × Shell σ
  | [], s => (none, s)
  | i :: rest, s =>
    if !s.pending i then takeFrom rest s
    else match s.action i with
      | none => takeFrom rest (s.clear i)
      | some text => (some (i, text), s.clear i)

/-- `csh_traps_take`. -/
def take (s : Shell σ) : Option (ℕ × Bytes) × Shell σ := takeFrom numbers s

end Shell

/-- What evaluating the text of an action does. -/
abbrev Evaluate (σ : Type) := Bytes → Shell σ → Shell σ × Execution

variable (evaluate : Evaluate σ)

/-- `evaluate_trap_action`: the result of the interrupted command, and the shell. -/
def evaluateTrapAction (text : Bytes) (saved : ℤ) (outer : Execution) (s : Shell σ) :
    Execution × Shell σ :=
  let (after, execution) := evaluate text { s with inTrap := true, trapStatus := saved, status := saved }
  let after := { after with inTrap := s.inTrap, trapStatus := s.trapStatus }
  if execution.exitRequested then
    ({ outer with exitRequested := true, status := execution.status }, after)
  else if execution.control ≠ .none then
    ({ outer with control := execution.control, levels := execution.levels
                  status := execution.status },
      { after with status := execution.status })
  else (outer, { after with status := saved })

/-- An action that ran, with the shell it left. -/
abbrev Trace (σ : Type) := List (ℕ × Shell σ)

/-- The signals whose actions ran, the last one first. -/
def Trace.served (trace : Trace σ) : List ℕ := trace.map Prod.fst

/-- Whether the result of the interrupted command asks to leave it. -/
def leaving (result : Execution) : Bool := result.exitRequested || result.control ≠ .none

/-- The loop of `csh_execute_pending_traps`; `none` when the fuel does not suffice. -/
def dispatchLoop : ℕ → Trace σ → Execution → Shell σ → Option (Trace σ × Execution × Shell σ)
  | 0, _, _, _ => none
  | fuel + 1, trace, result, s =>
    match s.firstPending with
    | none => some (trace, result, s)
    | some next =>
      if next ∈ trace.served then some (trace, result, s)
      else match s.take with
        | (none, s) => some (trace, result, s)
        | (some (number, text), s) =>
          let (result, s) := evaluateTrapAction evaluate text s.status result s
          if leaving result then some ((number, s) :: trace, result, s)
          else dispatchLoop fuel ((number, s) :: trace) result s

/-- `csh_execute_pending_traps`.  A number is served at most once, so that `trapLimit`
rounds are enough. -/
def executePendingTraps (result : Execution) (s : Shell σ) :
    Option (Trace σ × Execution × Shell σ) :=
  if s.dispatching then some ([], result, s)
  else do
    let (trace, result, s) ← dispatchLoop evaluate trapLimit [] result { s with dispatching := true }
    some (trace, result, { s with dispatching := false })

end Traps

end CShell
