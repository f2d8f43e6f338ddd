import GossipRs.Lib.Outcome
import GossipRs.Lib.Word

/-! Object ids of a Git repository (`object_id.rs`). -/

namespace GossipRs.Git

open Lib

/-- `OidBytes`: a SHA-1 or SHA-256 object id, ordered by its bytes. -/
structure OidBytes where
  bytes : Bytes
  length_eq : bytes.length = 20 ∨ bytes.length = 32
deriving DecidableEq

def OidBytes.len (oid : OidBytes) : Nat := oid.bytes.length

theorem OidBytes.ext_bytes {a b : OidBytes} (h : a.bytes = b.bytes) : a = b := by
  cases a
  cases h
  rfl

end GossipRs.Git
