import Mathlib

namespace Rpcsx.CellSync

scoped instance neZero_two : NeZero 2 := ⟨by decide⟩

-- The results of the modelled calls; a call of a thread that is being stopped returns 0 and the
-- thread makes no further call.
inductive Code where
  | ok
  | busy
  | abort
  | stopped
deriving DecidableEq

end Rpcsx.CellSync
