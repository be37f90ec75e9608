import RelSmt.Instance
import RelSmt.Model.Reader

/-!
# Solving

Solving lowers a specification, hands the script to a backend, and reads the answer back. The backend
here replays responses in order, keeps what it was asked, and gives up once the responses run out. A
call that fails before there is a script leaves the backend as it was.
-/

namespace RelSmt

/-- What a backend reports about a script: a model, perhaps a core, or no verdict. -/
inductive Response where
  | sat (model : String)
  | unsat (core : Option String)
  | unknown
  | timeout
deriving DecidableEq

/-- A backend that replays responses. Requests are kept in order, each a script with its time limit
in milliseconds. -/
structure Backend where
  responses : List Response := []
  requests : List (String × Option Nat) := []

namespace Backend

/-- Queues one more response. -/
def push (b : Backend) (r : Response) : Backend := { b with responses := b.responses ++ [r] }

/-- Answers a script with the oldest response left. -/
def check (b : Backend) (script : String) (limit : Option Nat) : Response × Backend :=
  (b.responses.head?.getD .unknown,
    { responses := b.responses.tail, requests := b.requests ++ [(script, limit)] })

end Backend

/-- How to solve. -/
structure SolveOptions where
  singletonsOnly : Bool := true
  cores : Bool := false
  limit : Option Nat := none

/-- What solving found. -/
inductive Outcome where
  | sat (i : Instance)
  | unsat (core : Option UnsatCore)
  | unknown

namespace Outcome

/-- Is there an instance? -/
def isSat : Outcome → Bool
  | .sat _ => true
  | _ => false

/-- Is it certain that there is none? -/
def isUnsat : Outcome → Bool
  | .unsat _ => true
  | _ => false

/-- Is the question open? -/
def isUnknown : Outcome → Bool
  | .unknown => true
  | _ => false

/-- The instance found. -/
def instance? : Outcome → Option Instance
  | .sat i => some i
  | _ => none

/-- The core reported. -/
def core? : Outcome → Option UnsatCore
  | .unsat core => core
  | _ => none

end Outcome

/-- An outcome with the size of the program that was solved. -/
structure Solution where
  outcome : Outcome
  functions : Nat
  assertions : Nat

/-- The program of a command, or the base program where no command is named. -/
def Encoding.program? (e : Encoding) (command : Option String) : Checked Program :=
  match command with
  | none => .ok e.base
  | some label =>
    match e.commandProgram? label with
    | some p => .ok p
    | none => .error (.unresolved (.command label))

/-- Reads a response to a script of an encoded specification. -/
def Outcome.ofResponse (e : Encoding) (r : Response) : Checked Outcome :=
  match r with
  | .sat model => do return .sat (← Instance.ofModel e (← Reply.model model))
  | .unsat (some core) => do return .unsat (some (← Reply.unsatCore core))
  | .unsat none => .ok (.unsat none)
  | .unknown => .ok .unknown
  | .timeout => .ok .unknown

/-- Solves a specification, or one of its commands, with a backend. -/
def Relational.Specification.solve (spec : Relational.Specification) (options : SolveOptions)
    (command : Option String) (backend : Backend) : Checked Solution × Backend :=
  match (do
    let encoding ← spec.lower options.singletonsOnly
    return (encoding, ← encoding.program? command) : Checked (Encoding × Program)) with
  | .error e => (.error e, backend)
  | .ok (encoding, p) =>
    let (response, backend) := backend.check (p.script options.cores) options.limit
    ((Outcome.ofResponse encoding response).map fun outcome =>
      ⟨outcome, p.functions.length, p.assertions.length⟩, backend)

end RelSmt
