import Std.Data.ExtTreeMap

/-!
# Environments

An environment (`Environment`) binds variable names to texts. Any text is a legal name. Two
environments are equal when they give every name the same text, however they were built.

* `Environment.get?_insert`, `Environment.get?_remove`: a change shows under its own name only.
* `Environment.ext_get?`: equality is agreement on every name.
-/

namespace Markup

/-- The bindings in force while templates are expanded. -/
structure Environment where
  bindings : Std.ExtTreeMap String String := ∅
deriving DecidableEq

namespace Environment

/-- Nothing is bound. -/
def empty : Environment := {}

/-- Binds a name, in place of an earlier binding. -/
def insert (env : Environment) (name value : String) : Environment :=
  ⟨env.bindings.insert name value⟩

/-- Leaves a name unbound. -/
def remove (env : Environment) (name : String) : Environment := ⟨env.bindings.erase name⟩

/-- The text bound to a name. -/
def get? (env : Environment) (name : String) : Option String := env.bindings[name]?

/-- The number of bound names. -/
def size (env : Environment) : Nat := env.bindings.size

/-- Whether no name is bound. -/
def isEmpty (env : Environment) : Bool := env.bindings.isEmpty

/-- The bindings, by name. -/
def toList (env : Environment) : List (String × String) := env.bindings.toList

/-- Binds pairs from left to right; of two with one name the later wins. -/
def ofList (pairs : List (String × String)) : Environment :=
  pairs.foldl (fun env pair => env.insert pair.1 pair.2) empty

/-- The text that stands for an unbound name. -/
def undefined : String := "undefined"

/-- What a name stands for when `chunks` looks it up; without an environment every name is
unbound. -/
def lookup (env : Option Environment) (name : String) : String :=
  (env.bind (·.get? name)).getD undefined

theorem get?_insert (env : Environment) (name value other : String) :
    (env.insert name value).get? other = if name = other then some value else env.get? other := by
  simp [insert, get?, Std.ExtTreeMap.getElem?_insert]

theorem get?_remove (env : Environment) (name other : String) :
    (env.remove name).get? other = if name = other then none else env.get? other := by
  simp [remove, get?, Std.ExtTreeMap.getElem?_erase]

/-- Environments that agree on every name are equal. -/
theorem ext_get? {a b : Environment} (h : ∀ name, a.get? name = b.get? name) : a = b := by
  cases a
  cases b
  exact congrArg Environment.mk (Std.ExtTreeMap.ext_getElem? fun {name} => h name)

end Environment

end Markup
