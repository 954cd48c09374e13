/-!
# Identifiers of scopes and variables

Scopes and variables are numbered in the order in which they are created. The numbers have no
bound here: a script is taken to have fewer than 2^32 scopes and fewer than 2^32 variables, so that
each of them fits a 32-bit number.
-/

namespace Stackless

structure ScopeId where
  index : Nat
  deriving DecidableEq

namespace ScopeId

/-- The outermost scope. -/
def root : ScopeId := ⟨0⟩

instance : Inhabited ScopeId := ⟨root⟩

def text (id : ScopeId) : String := "scope_" ++ toString id.index

end ScopeId

structure VariableId where
  index : Nat
  deriving DecidableEq, Inhabited

def VariableId.text (id : VariableId) : String := "var_" ++ toString id.index

end Stackless
