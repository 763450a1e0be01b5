import EventScript.Command.Table
import EventScript.Problem

/-!
What a line says. The first token decides: a label definition, a directive, or else the mnemonic
of a command, which takes exactly as many operands as the command has parameters. Tokens after a
label definition or a directive have no meaning.
-/

namespace EventScript

/-- What a line says. -/
inductive Statement where
  | empty
  | label (name : String) (ignored : Nat)
  | directive (token : String)
  | command (command : Command) (operands : List (Parameter × String))
  deriving DecidableEq, Repr

namespace Statement

/-- A command with its operands, if their number is right. -/
def ofCommand (command : Command) (operands : List String) : Except Problem Statement :=
  if operands.length = command.parameters.length then
    .ok (.command command (command.parameters.zip operands))
  else .error (.argumentCount command.parameters.length operands.length)

/-- What the tokens of a line say, or why they say nothing. -/
def ofTokens (commands : Command.Table) : List String → Except Problem Statement
  | [] => .ok .empty
  | first :: rest =>
    match Token.label? first with
    | some name => .ok (.label name rest.length)
    | none =>
      if Token.isDirective first then .ok (.directive first)
      else
        match commands.get? first with
        | none => .error (.unknownCommand first)
        | some known => ofCommand known rest

end Statement

end EventScript
