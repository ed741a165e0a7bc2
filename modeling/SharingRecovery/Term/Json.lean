import SharingRecovery.Term.Basic

set_option autoImplicit false

/-!
The JSON form of terms.
-/

namespace SharingRecovery

namespace Term

def jsonForm : Algebra Json Json Json where
  arrayLet bound body := .tagged "Alet" (.arr [bound, body])
  arrayVar index := .tagged "Avar" (.ofNat index)
  arrayOp operation := operation.toJson id id id id
  lam inner := .tagged "Lam" inner
  body e := .tagged "Body" e
  scalarLet bound body := .tagged "Let" (.arr [bound, body])
  scalarVar index := .tagged "Var" (.ofNat index)
  scalarOp operation := operation.toJson id id

mutual

/-- Reads an array term nested in fewer than so many lists and objects. -/
def readArray? : Nat → Json → Option ArrayTerm
  | 0, _ => none
  | depth + 1, json => do
    match ← json.tagged? with
    | ("Alet", .arr [bound, body]) =>
      return .letIn (← readArray? depth bound) (← readArray? depth body)
    | ("Avar", index) => return .var (← index.word?)
    | (tag, payload) =>
      return .op (← ArrayOp.ofTagged? (readArray? depth) (readScalar? depth) (readFun? depth)
        (readFun? depth) tag payload)

def readFun? : Nat → Json → Option FunTerm
  | 0, _ => none
  | depth + 1, json => do
    match ← json.tagged? with
    | ("Lam", inner) => return .lam (← readFun? depth inner)
    | ("Body", e) => return .body (← readScalar? depth e)
    | _ => none

def readScalar? : Nat → Json → Option ScalarTerm
  | 0, _ => none
  | depth + 1, json => do
    match ← json.tagged? with
    | ("Let", .arr [bound, body]) =>
      return .letIn (← readScalar? depth bound) (← readScalar? depth body)
    | ("Var", index) => return .var (← index.word?)
    | (tag, payload) =>
      return .op (← ScalarOp.ofTagged? (readArray? depth) (readScalar? depth) tag payload)

end

end Term

def ArrayTerm.toJson (t : ArrayTerm) : Json :=
  t.fold Term.jsonForm

def FunTerm.toJson (f : FunTerm) : Json :=
  f.fold Term.jsonForm

def ScalarTerm.toJson (e : ScalarTerm) : Json :=
  e.fold Term.jsonForm

def ArrayTerm.ofJson? (json : Json) : Option ArrayTerm :=
  Term.readArray? (json.depth + 1) json

def FunTerm.ofJson? (json : Json) : Option FunTerm :=
  Term.readFun? (json.depth + 1) json

def ScalarTerm.ofJson? (json : Json) : Option ScalarTerm :=
  Term.readScalar? (json.depth + 1) json

end SharingRecovery
