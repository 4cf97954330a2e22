import VersionCatalog.Backend.Keeper

/-!
# The memory backend

A store that is kept as it is. What a call did before it failed stays done.
-/

namespace VersionCatalog.Memory

/-- A reading of the store. -/
def reading {α : Type} (f : Store → α) : Change α :=
  fun s => .ok (f s) s

/-- The store is its own state. -/
def keeper : Keeper Store where
  name := "memory"
  reading := reading
  changing change := change

/-- The store itself as a backend. -/
def backend (fresh : Fresh) : Backend Store :=
  keeper.backend fresh

/-- The memory is always there, and at once. -/
def health : Health :=
  .ofErrors "memory" 0 []

end VersionCatalog.Memory
