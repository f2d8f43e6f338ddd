import GossipRs.Stdx.ByteSlab
import GossipRs.Contracts.Cursor

/-! Variable-length record fields in the byte slab. A pooled value holds slots only. Updates
allocate the new bytes before they release the old ones, and a failed allocation of several fields
releases those already made. -/

namespace GossipRs

open Lib Stdx List

variable {ε : Type}

def deallocateAll (debug : Bool) : List ByteSlot → Prog ByteSlab Panic ε Unit
  | [] => return
  | slot :: rest => do
    ByteSlab.deallocate debug slot
    deallocateAll debug rest

/-- Allocate the fields in order. `done` holds the slots made so far, newest first, as a failure
releases them. -/
def allocateFields (debug : Bool) : List Bytes → List ByteSlot →
    Prog ByteSlab Panic SlabFull (List ByteSlot)
  | [], done => return done.reverse
  | data :: rest, done => do
    let slot ← (ByteSlab.allocate debug data).onErr fun e => do
      deallocateAll debug done
      return e
    allocateFields debug rest (slot :: done)

def allocateWithRollback (debug : Bool) (fields : List Bytes) :
    Prog ByteSlab Panic SlabFull (List ByteSlot) :=
  allocateFields debug fields []

structure PooledShardSpec where
  keyRangeStart : ByteSlot
  keyRangeEnd : ByteSlot
  metadata : ByteSlot
deriving DecidableEq, Repr

namespace PooledShardSpec

def fromSpecRef (debug : Bool) (spec : ShardSpec) :
    Prog ByteSlab Panic SlabFull PooledShardSpec := do
  match ← allocateWithRollback debug [spec.keyRangeStart, spec.keyRangeEnd, spec.metadata] with
  | [start, stop, metadata] => return ⟨start, stop, metadata⟩
  | _ => Prog.lift (.panic .slabIndexOutOfRange)

def asSpecRef (debug : Bool) (pooled : PooledShardSpec) (slab : ByteSlab) : Run ε ShardSpec := do
  let start ← slab.get debug pooled.keyRangeStart
  let stop ← slab.get debug pooled.keyRangeEnd
  let metadata ← slab.get debug pooled.metadata
  return ⟨start, stop, metadata⟩

def releaseFields (debug : Bool) (pooled : PooledShardSpec) : Prog ByteSlab Panic ε Unit :=
  deallocateAll debug [pooled.keyRangeStart, pooled.keyRangeEnd, pooled.metadata]

def updateFromRef (debug : Bool) (pooled : PooledShardSpec) (newSpec : ShardSpec) :
    Prog ByteSlab Panic SlabFull PooledShardSpec := do
  let new ← fromSpecRef debug newSpec
  pooled.releaseFields debug
  return new

end PooledShardSpec

structure PooledCursor where
  lastKey : Option ByteSlot
  token : Option ByteSlot
deriving DecidableEq, Repr

structure CursorValue where
  lastKey : Option Bytes
  token : Option Bytes
deriving DecidableEq, Repr

def CursorUpdate.value (update : CursorUpdate) : CursorValue := ⟨update.lastKey, update.token⟩

namespace PooledCursor

/-- An absent field is fed as an empty slice and its slot is dropped. -/
def fromUpdate (debug : Bool) (update : CursorUpdate) :
    Prog ByteSlab Panic SlabFull PooledCursor := do
  match ← allocateWithRollback debug [update.lastKey.getD [], update.token.getD []] with
  | [lastKey, token] =>
    return ⟨update.lastKey.map fun _ => lastKey, update.token.map fun _ => token⟩
  | _ => Prog.lift (.panic .slabIndexOutOfRange)

def getField (debug : Bool) (slab : ByteSlab) : Option ByteSlot → Run ε (Option Bytes)
  | none => return none
  | some slot => do
    let data ← slab.get debug slot
    return some data

def readLastKey (debug : Bool) (pooled : PooledCursor) (slab : ByteSlab) : Run ε (Option Bytes) :=
  getField debug slab pooled.lastKey

def readToken (debug : Bool) (pooled : PooledCursor) (slab : ByteSlab) : Run ε (Option Bytes) :=
  getField debug slab pooled.token

def releaseFields (debug : Bool) (pooled : PooledCursor) : Prog ByteSlab Panic ε Unit :=
  deallocateAll debug (pooled.lastKey.toList ++ pooled.token.toList)

def updateFromRef (debug : Bool) (pooled : PooledCursor) (update : CursorUpdate) :
    Prog ByteSlab Panic SlabFull PooledCursor := do
  let new ← fromUpdate debug update
  pooled.releaseFields debug
  return new

end PooledCursor

def encodeShardIds (ids : List ShardId) : Bytes := ids.flatMap fun id => leBytes 8 id.raw.toNat

def decodeShardIds : Bytes → List ShardId
  | a :: b :: c :: d :: e :: f :: g :: h :: rest =>
    ⟨UInt64.ofNat (ofLeBytes [a, b, c, d, e, f, g, h])⟩ :: decodeShardIds rest
  | _ => []

structure PooledSpawned where
  slot : ByteSlot
  len : Nat
deriving DecidableEq, Repr

namespace PooledSpawned

def new : PooledSpawned := ⟨ByteSlot.empty, 0⟩

def bytes (debug : Bool) (pooled : PooledSpawned) (slab : ByteSlab) : Run ε Bytes := do
  let data ← slab.get debug pooled.slot
  debugAssert debug (data.length = pooled.len * 8) .spawnedLength
  return data

def iter (debug : Bool) (pooled : PooledSpawned) (slab : ByteSlab) : Run ε (List ShardId) := do
  let data ← pooled.bytes debug slab
  return decodeShardIds data

def allocateAppendedSlot (debug : Bool) (pooled : PooledSpawned) (additional : List ShardId) :
    Prog ByteSlab Panic SlabFull PooledSpawned := do
  Prog.lift (debugAssert debug (additional ≠ []) .spawnedAdditionalEmpty)
  if additional = [] then return pooled
  let total := pooled.len + additional.length
  Prog.lift (Outcome.assert (total ≤ maxSpawnedPerShard) .spawnedCap)
  let slab ← Prog.get
  let current ← Prog.lift (if pooled.len = 0 then .ok [] else do
    let data ← pooled.bytes debug slab
    Outcome.assert (data.length = pooled.len * 8) .spawnedLength
    return data)
  let slot ← ByteSlab.allocate debug (current ++ encodeShardIds additional)
  return ⟨slot, total⟩

def installSlot (debug : Bool) (pooled staged : PooledSpawned) :
    Prog ByteSlab Panic ε PooledSpawned := do
  ByteSlab.deallocate debug pooled.slot
  return staged

def releaseFields (debug : Bool) (pooled : PooledSpawned) : Prog ByteSlab Panic ε Unit :=
  ByteSlab.deallocate debug pooled.slot

end PooledSpawned

theorem length_encodeShardIds (ids) : (encodeShardIds ids).length = ids.length * 8 := by
  induction ids with
  | nil => rfl
  | cons id rest ih =>
    rw [encodeShardIds, flatMap_cons, length_append, length_leBytes, length_cons]
    rw [encodeShardIds] at ih
    omega

theorem decodeShardIds_word (id : ShardId) (rest : Bytes) :
    decodeShardIds (leBytes 8 id.raw.toNat ++ rest) = id :: decodeShardIds rest := by
  have hw : UInt64.ofNat (ofLeBytes (leBytes 8 id.raw.toNat)) = id.raw := by
    rw [ofLeBytes_leBytes (by have := id.raw.toNat_lt; omega), UInt64.ofNat_toNat]
  simp only [leBytes] at hw ⊢
  simp only [cons_append, nil_append, decodeShardIds, hw]

theorem decode_encodeShardIds (ids) : decodeShardIds (encodeShardIds ids) = ids := by
  induction ids with
  | nil => rfl
  | cons id rest ih =>
    rw [encodeShardIds, flatMap_cons, decodeShardIds_word]
    exact congrArg (id :: ·) ih

end GossipRs
