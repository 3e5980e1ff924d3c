import OnePass.Arithmetic

/-!
# The variables of a program

A *store* gives every name a value, zero at first. It keeps those that are not zero, in the order of
their names, so that two stores with the same values are the same list.
-/

namespace OnePass

/-- The values of the variables. -/
structure Store where
  /-- The variables that are not zero, in the order of their names. -/
  entries : List (String × Word) := []
  deriving DecidableEq, Repr

namespace Store

/-- The value of a variable. -/
def get (store : Store) (name : String) : Word := (store.entries.lookup name).getD 0

/-- Gives a variable a value: the entries of smaller names, the new one unless it is zero, and the
entries of greater names. -/
def set (store : Store) (name : String) (value : Word) : Store where
  entries :=
    store.entries.filter (·.1 < name) ++ (if value = 0 then [] else [(name, value)])
      ++ store.entries.filter (name < ·.1)

end Store

end OnePass
