namespace Rpcsx.Orbis

-- The error codes that the modelled calls return or compare with.
inductive ErrorCode where
  | ok
  | PERM
  | ACCES
  | BUSY
  | AGAIN
  | DEADLK
  | INVAL
  | TIMEDOUT
  | CANCELED
  -- what else a sleep may end with
  | other (code : Nat)
deriving DecidableEq

end Rpcsx.Orbis
