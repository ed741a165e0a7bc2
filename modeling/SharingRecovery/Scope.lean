import SharingRecovery.Fault

set_option autoImplicit false

/-!
Scopes: the binders around some place, innermost first. The index of a variable is the position of
its innermost binder.
-/

namespace SharingRecovery

/-- The keys of the binders around a place, innermost first. -/
structure Scope (κ : Type) where
  keys : List κ

namespace Scope

variable {κ : Type}

def empty : Scope κ :=
  ⟨[]⟩

def push (scope : Scope κ) (key : κ) : Scope κ :=
  ⟨key :: scope.keys⟩

def depth (scope : Scope κ) : Nat :=
  scope.keys.length

def index? [DecidableEq κ] (scope : Scope κ) (key : κ) : Option Nat :=
  scope.keys.idxOf? key

def index [DecidableEq κ] (scope : Scope κ) (key : κ) : Except Fault Nat :=
  Fault.require .notInScope (scope.index? key)

def get? (scope : Scope κ) (index : Nat) : Option κ :=
  scope.keys[index]?

def shown (key : κ → String) (scope : Scope κ) : String :=
  "[" ++ ", ".intercalate (scope.keys.map key) ++ "]"

end Scope
end SharingRecovery
