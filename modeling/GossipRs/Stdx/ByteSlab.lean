import GossipRs.Panic
import GossipRs.Lib.Word

/-! The byte slab: one fixed buffer, a bump pointer, and a sorted, coalesced free list searched
best-fit. The buffer is a function from positions to bytes; slice accesses keep their bounds checks.
`u32` fields are naturals with the source's overflow checks. -/

namespace GossipRs.Stdx

open Lib

def minBlock : Nat := 16

def maxFreeListMetadataEntries : Nat := 2 ^ 21

def u32Max : Nat := 2 ^ 32 - 1

/-- Byte written over freed regions in debug builds. -/
def poison : UInt8 := 0xDE

structure Block where
  offset : Nat
  size : Nat
deriving DecidableEq, Repr

structure ByteSlot where
  offset : Nat
  len : Nat
  allocSize : Nat
  ownerId : Nat
deriving DecidableEq, Repr

namespace ByteSlot

def empty : ByteSlot := ⟨0, 0, 0, 0⟩

def isEmpty (slot : ByteSlot) : Bool := slot.len == 0

end ByteSlot

structure SlabFull where
  requested : Nat
  available : Nat
deriving DecidableEq, Repr

structure ByteSlab where
  buf : Nat → UInt8
  bump : Nat
  capacity : Nat
  freeList : List Block
  freeListCapacity : Nat
  freeBytes : Nat
  liveBytes : Nat
  liveCount : Nat
  ownerId : Nat

def nextPowerOfTwo (n : Nat) : Nat := 2 ^ Nat.clog 2 n

/-- Allocation size for `n` bytes: the next power of two, at least `minBlock`; `none` beyond a
`u32`. -/
def allocSize (n : Nat) : Option Nat :=
  if n = 0 then some 0
  else if u32Max < n then none
  else
    let rounded := nextPowerOfTwo (max n minBlock)
    if rounded ≤ u32Max then some rounded else none

def freeListMetadataCapacity (capacity : Nat) : Nat :=
  min ((capacity / minBlock + 1) / 2) maxFreeListMetadataEntries

namespace ByteSlab

variable {ε : Type}

/-- Invariants 1 to 4 of `debug_assert_invariants`, in its order, with the previous block at hand.
-/
def debugAssertInvariants (debug : Bool) (slab : ByteSlab) : Run ε Unit := do
  debugAssert debug (slab.bump ≤ slab.capacity) (.slabInvariant 1)
  debugAssert debug (slab.freeList.IsChain fun prev next => prev.offset + prev.size < next.offset)
    (.slabInvariant 2)
  debugAssert debug (∀ b ∈ slab.freeList, b.offset + b.size ≤ slab.bump) (.slabInvariant 2)
  debugAssert debug ((slab.freeList.map Block.size).sum = slab.freeBytes) (.slabInvariant 3)
  debugAssert debug
    (slab.liveBytes + slab.freeBytes + (slab.capacity - slab.bump) = slab.capacity)
    (.slabInvariant 4)

def withCapacity (capacity ownerId : Nat) : Run ε ByteSlab := do
  Outcome.assert (capacity ≤ u32Max) .slabCapacityTooLarge
  return {
    buf := fun _ => 0, bump := 0, capacity, freeList := [],
    freeListCapacity := freeListMetadataCapacity capacity,
    freeBytes := 0, liveBytes := 0, liveCount := 0, ownerId }

def availableVirginBytes (slab : ByteSlab) : Nat := slab.capacity - slab.bump

/-- Bytes not held by a live allocation: free list plus virgin region. -/
def availableBytes (slab : ByteSlab) : Nat := slab.freeBytes + slab.availableVirginBytes

def writeAt (buf : Nat → UInt8) (start : Nat) (data : Bytes) : Nat → UInt8 := fun p =>
  if start ≤ p then (data[p - start]?).getD (buf p) else buf p

def readAt (buf : Nat → UInt8) (start len : Nat) : Bytes :=
  (List.range len).map fun i => buf (start + i)

/-- The entries before the partition point of `offset` in a list sorted by offset. -/
def blocksBefore (offset : Nat) (l : List Block) : List Block :=
  l.takeWhile fun b => b.offset < offset

/-- The entries from the partition point of `offset` on. -/
def blocksFrom (offset : Nat) (l : List Block) : List Block :=
  l.dropWhile fun b => b.offset < offset

/-- Record a free block; `false` when the preallocated metadata has no room for it. -/
def insertFreeBlock (debug : Bool) (slab : ByteSlab) (offset size : Nat) :
    Run ε (Bool × ByteSlab) := do
  if size = 0 then return (true, slab)
  if slab.freeList.length = slab.freeListCapacity then return (false, slab)
  debugAssert debug (∀ b ∈ (blocksFrom offset slab.freeList).head?, b.offset ≠ offset)
    .slabFreeBlockInsertedTwice
  Outcome.assert (slab.freeBytes + size ≤ u32Max) .slabFreeBytes
  return (true, { slab with
    freeList := blocksBefore offset slab.freeList ++ ⟨offset, size⟩ ::
      blocksFrom offset slab.freeList
    freeBytes := slab.freeBytes + size })

/-- The scan of `take_best_fit`: index and size of the smallest block of at least `needed` bytes,
the earliest on ties. `i` is the index of the head, `best` the best so far. -/
def bestFit (needed : Nat) : List Block → Nat → Option (Nat × Nat) → Option (Nat × Nat)
  | [], _, best => best
  | b :: rest, i, best =>
    let best' :=
      if needed ≤ b.size then
        match best with
        | some (_, bestSize) => if b.size < bestSize then some (i, b.size) else best
        | none => some (i, b.size)
      else best
    bestFit needed rest (i + 1) best'

def takeBestFit (slab : ByteSlab) (needed : Nat) : Run ε (Option (Block × ByteSlab)) := do
  match bestFit needed slab.freeList 0 none with
  | none => return none
  | some (idx, _) =>
    let block ← Outcome.expect slab.freeList[idx]? .slabIndexOutOfRange
    Outcome.assert (block.size ≤ slab.freeBytes) .slabFreeBytes
    return some (block, { slab with
      freeList := slab.freeList.eraseIdx idx
      freeBytes := slab.freeBytes - block.size })

def mergeRight (slab : ByteSlab) (block : Block) : Run ε (Block × ByteSlab) :=
  let stop := block.offset + block.size
  match blocksFrom stop slab.freeList with
  | right :: rest =>
    if right.offset = stop then do
      Outcome.assert (right.size ≤ slab.freeBytes) .slabFreeBytes
      Outcome.assert (block.size + right.size ≤ u32Max) .slabCoalescedSize
      return (⟨block.offset, block.size + right.size⟩, { slab with
        freeList := blocksBefore stop slab.freeList ++ rest
        freeBytes := slab.freeBytes - right.size })
    else return (block, slab)
  | [] => return (block, slab)

def mergeLeft (slab : ByteSlab) (block : Block) : Run ε (Block × ByteSlab) :=
  match (blocksBefore block.offset slab.freeList).getLast? with
  | some left =>
    if left.offset + left.size = block.offset then do
      Outcome.assert (left.size ≤ slab.freeBytes) .slabFreeBytes
      Outcome.assert (block.size + left.size ≤ u32Max) .slabCoalescedSize
      return (⟨left.offset, block.size + left.size⟩, { slab with
        freeList := (blocksBefore block.offset slab.freeList).dropLast ++
          blocksFrom block.offset slab.freeList
        freeBytes := slab.freeBytes - left.size })
    else return (block, slab)
  | none => return (block, slab)

/-- Coalesce a just-freed block with its free neighbours, the right one first. -/
def mergeWithNeighbors (slab : ByteSlab) (block : Block) : Run ε (Block × ByteSlab) := do
  let (block, slab) ← mergeRight slab block
  mergeLeft slab block

def writeAllocation (slab : ByteSlab) (offset logicalLen allocSize : Nat) (data : Bytes) :
    Run ε (ByteSlot × ByteSlab) := do
  Outcome.assert (offset + data.length ≤ slab.capacity) .slabIndexOutOfRange
  Outcome.assert (slab.liveBytes + allocSize ≤ u32Max) .slabLiveBytes
  Outcome.assert (slab.liveCount + 1 ≤ u32Max) .slabLiveCount
  return (⟨offset, logicalLen, allocSize, slab.ownerId⟩, { slab with
    buf := writeAt slab.buf offset data
    liveBytes := slab.liveBytes + allocSize
    liveCount := slab.liveCount + 1 })

/-- Split a free block for a request of `needed` bytes: the size handed out, with the remainder
returned to the free list when it is worth a block of its own. -/
def splitBlock (debug : Bool) (slab : ByteSlab) (block : Block) (needed : Nat) :
    Run ε (Nat × ByteSlab) := do
  let remainder := block.size - needed
  if minBlock ≤ remainder then
    Outcome.assert (block.offset + needed ≤ u32Max) .slabSplitOffset
    let (inserted, slab) ← insertFreeBlock debug slab (block.offset + needed) remainder
    -- a full metadata table hands the whole block to the caller
    return (if inserted then needed else block.size, slab)
  else
    return (block.size, slab)

def allocate (debug : Bool) (data : Bytes) : Prog ByteSlab Panic SlabFull ByteSlot := fun slab =>
  if data = [] then .ok (ByteSlot.empty, slab)
  else
    match Stdx.allocSize data.length with
    | none => .err (⟨u32Max, slab.availableVirginBytes⟩, slab)
    | some needed => do
      match ← takeBestFit slab needed with
      | some (block, slab) =>
        let (actualSize, slab) ← splitBlock debug slab block needed
        debugAssert debug (∀ b ∈ readAt slab.buf block.offset actualSize, b = poison)
          .slabPoisonCorrupted
        let (slot, slab) ← writeAllocation slab block.offset data.length actualSize data
        debugAssertInvariants debug slab
        return (slot, slab)
      | none =>
        if slab.bump + needed ≤ u32Max ∧ slab.bump + needed ≤ slab.capacity then
          let (slot, slab) ←
            writeAllocation { slab with bump := slab.bump + needed } slab.bump data.length
              needed data
          debugAssertInvariants debug slab
          return (slot, slab)
        else
          .err (⟨needed, slab.availableVirginBytes⟩, slab)

/-- The checks `get` and `deallocate` make on a non-empty slot. -/
def assertSlot (debug : Bool) (slab : ByteSlab) (slot : ByteSlot) : Run ε Unit := do
  Outcome.assert (slot.ownerId = slab.ownerId) .slotForeignOwner
  Outcome.assert (slot.len ≤ slot.allocSize) .slotLenExceedsAlloc
  let stop ← addU32 debug slot.offset slot.allocSize
  Outcome.assert (stop ≤ slab.bump) .slotBeyondBump

def get (debug : Bool) (slab : ByteSlab) (slot : ByteSlot) : Run ε Bytes :=
  if slot.isEmpty then return []
  else do
    assertSlot debug slab slot
    Outcome.assert (slot.offset + slot.len ≤ slab.capacity) .slabIndexOutOfRange
    return readAt slab.buf slot.offset slot.len

def poisonFreed (debug : Bool) (slab : ByteSlab) (slot : ByteSlot) : Run ε ByteSlab :=
  if debug then do
    let stop := slot.offset + slot.allocSize
    Outcome.assert (∀ b ∈ slab.freeList, stop ≤ b.offset ∨ b.offset + b.size ≤ slot.offset)
      .slabDoubleFree
    Outcome.assert (stop ≤ slab.capacity) .slabIndexOutOfRange
    return { slab with
      buf := writeAt slab.buf slot.offset (List.replicate slot.allocSize poison) }
  else return slab

def deallocate (debug : Bool) (slot : ByteSlot) : Prog ByteSlab Panic ε Unit := fun slab =>
  if slot.isEmpty then .ok ((), slab)
  else do
    assertSlot debug slab slot
    let slab ← poisonFreed debug slab slot
    Outcome.assert (slot.allocSize ≤ slab.liveBytes) .slabLiveBytes
    Outcome.assert (1 ≤ slab.liveCount) .slabLiveCount
    let slab := { slab with
      liveBytes := slab.liveBytes - slot.allocSize
      liveCount := slab.liveCount - 1 }
    let (merged, slab) ← mergeWithNeighbors slab ⟨slot.offset, slot.allocSize⟩
    if merged.offset + merged.size = slab.bump then
      let slab := { slab with bump := merged.offset }
      debugAssertInvariants debug slab
      return ((), slab)
    else
      let (inserted, slab) ← insertFreeBlock debug slab merged.offset merged.size
      Outcome.assert inserted .slabFreeListMetadataExhausted
      debugAssertInvariants debug slab
      return ((), slab)

end ByteSlab
end GossipRs.Stdx
