import EventScript.Parameter
import EventScript.Problem

/-!
What an operand adds to a unit. Whether an operand fits its parameter is decided from the parameter,
the token and the variables declared so far, before anything is emitted; so an operand adds all that
belongs to it, or it is a problem and adds nothing.
-/

namespace EventScript.Operand

/-- What an operand that fits its parameter adds. -/
inductive Contribution where
  | value (encoding : Encoding)
  | declaration (name : String) (index : Nat) (vars : Variables)
  | slot (label : String)

/-- The bytes that a contribution adds to the output. -/
def Contribution.bytes : Contribution → List UInt8
  | .value encoding => encoding.bytes
  | .declaration _ index _ => wordBytes index
  | .slot _ => wordBytes 0

/-- An encoding as a contribution, a refusal as a problem. -/
def ofEncoding : Except OperandError Encoding → Except Problem Contribution
  | .ok encoding => .ok (.value encoding)
  | .error error => .error (.operand error)

/-- The declaration of a new variable. -/
def declaration (vars : Variables) (name : String) : Except Problem Contribution :=
  match vars.declare name with
  | .ok declared => .ok (.declaration name vars.size declared)
  | .error error => .error (.symbol error)

/-- The index word of a declared variable. -/
def indexOf (vars : Variables) (name : String) : Except Problem Contribution :=
  match vars.index? name with
  | .ok index => .ok (.value ⟨wordBytes index, none⟩)
  | .error error => .error (.symbol error)

/-- Go on with a token that is a name. -/
def named (token : String) (role : NameRole) (next : Except Problem Contribution) :
    Except Problem Contribution :=
  if Token.isName token then next else .error (.invalidName token role)

/-- What an operand adds, or why it does not fit its parameter. -/
def contribution (vars : Variables) (parameter : Parameter) (token : String) :
    Except Problem Contribution :=
  match parameter with
  | .number width => ofEncoding (encodeNumber vars width token)
  | .string => ofEncoding (encodeString vars token)
  | .either => ofEncoding (encodeEither vars token)
  | .label => named token .label (.ok (.slot token))
  | .declaration => named token .variable (declaration vars token)
  | .variable => named token .variable (indexOf vars token)

end EventScript.Operand
