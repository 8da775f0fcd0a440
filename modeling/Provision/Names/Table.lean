/-!
# Name tables

A table hands out identifiers that never repeat: the wanted one when it is free, otherwise the
wanted one with the least number from 2 up that makes it free. Among `n + 1` numbered candidates
one is free of `n` used names, so the search is bounded. A counter of 32 bits serves for it as long
as fewer than `2 ^ 31 - 2` names are used.
-/

namespace Provision.Names

structure Table where
  used : List String
  deriving DecidableEq, Repr

namespace Table

def withReserved (reserved : List String) : Table := ⟨reserved⟩

def reserve (table : Table) (name : String) : Table := ⟨name :: table.used⟩

def numbered (base : String) (suffix : Nat) : String := base ++ toString suffix

/-- The first free numbered name among the next `tries` candidates. -/
def seek (used : List String) (base : String) : Nat → Nat → String
  | 0, suffix => numbered base suffix
  | tries + 1, suffix =>
    if used.contains (numbered base suffix) then seek used base tries (suffix + 1)
    else numbered base suffix

def pick (table : Table) (base : String) : String :=
  if table.used.contains base then seek table.used base table.used.length 2 else base

def unique (table : Table) (base : String) : String × Table :=
  (table.pick base, table.reserve (table.pick base))

def uniqueAll (table : Table) : List String → List String × Table
  | [] => ([], table)
  | base :: rest =>
    let (name, table) := table.unique base
    let (names, table) := table.uniqueAll rest
    (name :: names, table)

end Table

end Provision.Names
