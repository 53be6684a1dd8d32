/-
  ScopeScript.Builtin

  The built-in namespace. It is an object that the global scope binds under a
  key no source text can name, so no program reaches or replaces it. A built-in
  is addressed by that key and its own name.
-/
import ScopeScript.Expr

namespace ScopeScript
namespace Builtin

/-- The key of the namespace in the global scope. -/
def root : String := "7a8d77e7-300a-4580-a4b2-84c20ee3d294"

/-- The names in the namespace. -/
def names : List String := ["print"]

def isRegistered (name : String) : Bool :=
  names.contains name

/-- The address of the built-in with a given name, as if both keys had been read
    at `span`. -/
def address (name : String) (span : Span) : List Expr :=
  [.string span root, .string span name]

/-- The address of a registered built-in. -/
def address? (name : String) (span : Span) : Option (List Expr) :=
  if isRegistered name then some (address name span) else none

end Builtin
end ScopeScript
