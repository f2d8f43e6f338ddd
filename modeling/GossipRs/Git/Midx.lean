import GossipRs.Git.ObjectId

/-! Lookups in a multi-pack index (`midx.rs`). -/

namespace GossipRs.Git

open Lib List

/-- What lookups read of a valid MIDX: ids of one length in strictly ascending order. -/
structure MidxView where
  oidLen : Nat
  oids : List OidBytes
  len_eq : ∀ oid ∈ oids, oid.len = oidLen
  sorted : oids.Pairwise fun a b => a.bytes < b.bytes
deriving DecidableEq

namespace MidxView

/-- The position of an id, whatever was looked up before. -/
def findOid (midx : MidxView) (oid : OidBytes) : Option Nat :=
  midx.oids.findIdx? fun entry => decide (entry = oid)

theorem getElem?_of_findOid {midx : MidxView} {oid : OidBytes} (h : midx.findOid oid = some i) :
    midx.oids[i]? = some oid := by
  obtain ⟨hl, he, -⟩ := findIdx?_eq_some_iff_getElem.mp h
  rw [List.getElem?_eq_getElem hl, of_decide_eq_true he]

end MidxView

end GossipRs.Git
