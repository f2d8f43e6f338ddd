import GossipRs.Lib.Linked
import GossipRs.Stdx.Bitset2

/-! The hashed timing wheel of `timing_wheel.rs`: slots of intrusive first-in-first-out lists over a
fixed pool of nodes, a bitmap of the occupied slots, and a cursor over absolute bucket keys. Arrays
are functions of the index, `NONE_U32` is `none`. The build has debug assertions: a release build
panics where this one reports a slot collision, and does not reset the key of a drained slot. -/

namespace GossipRs.Stdx

def u64Max : Nat := 2 ^ 64 - 1

def satAdd (a b : Nat) : Nat := min (a + b) u64Max

def ceilDiv (n d : Nat) : Nat := n / d + if n % d ≠ 0 then 1 else 0

def nextPow2 (x : Nat) : Nat := 2 ^ ((List.range 64).find? fun n => decide (x ≤ 2 ^ n)).getD 63

inductive PushOutcome (T : Type) where
  | scheduled
  | ready (payload : T)
deriving DecidableEq

inductive PushError where
  | tooFarInFuture (key base wheelSize : Nat)
  | poolExhausted
  | slotCollision (slot existingKey newKey : Nat)
deriving DecidableEq

structure TimingWheel (T : Type) (G : Nat) where
  wheelSize : Nat
  head : Nat → Option Nat
  tail : Nat → Option Nat
  slotKey : Nat → Nat
  occ : Bitset2
  next : Nat → Option Nat
  payload : Nat → Option T
  freeHead : Option Nat
  /-- The next bucket key that has not been drained or skipped. -/
  cursorAbs : Nat
  cursorSlot : Nat
  nowBucket : Nat
  len : Nat
  cap : Nat

namespace TimingWheel

variable {T : Type} {G : Nat}

def wRequired (G maxHorizonBytes : Nat) : Nat :=
  satAdd (ceilDiv (satAdd maxHorizonBytes (G - 1)) G) 1

def asU32 (i : Nat) : Option Nat := if i % 2 ^ 32 = 2 ^ 32 - 1 then none else some (i % 2 ^ 32)

def new (maxHorizonBytes nodeCap : Nat) : TimingWheel T G :=
  let wheelSize := nextPow2 (min (max (wRequired G maxHorizonBytes) 2) (2 ^ 30))
  { wheelSize
    head := fun _ => none
    tail := fun _ => none
    slotKey := fun _ => 0
    occ := Bitset2.new wheelSize
    next := fun i => if i + 1 < nodeCap then asU32 (i + 1) else none
    payload := fun _ => none
    freeHead := if nodeCap = 0 then none else some 0
    cursorAbs := 0
    cursorSlot := 0
    nowBucket := 0
    len := 0
    cap := nodeCap }

def slotOf (w : TimingWheel T G) (key : Nat) : Nat := key &&& (w.wheelSize - 1)

def allocNode (w : TimingWheel T G) (x : T) : Option (Nat × TimingWheel T G) :=
  w.freeHead.map fun idx =>
    (idx, { w with
      freeHead := w.next idx
      payload := Function.update w.payload idx (some x) })

def freeNode (w : TimingWheel T G) (idx : Nat) : TimingWheel T G :=
  { w with next := Function.update w.next idx w.freeHead, freeHead := some idx }

def startSlot (w : TimingWheel T G) (slot key idx : Nat) : TimingWheel T G :=
  { w with
    slotKey := Function.update w.slotKey slot key
    head := Function.update w.head slot (some idx)
    tail := Function.update w.tail slot (some idx)
    next := Function.update w.next idx none
    occ := w.occ.set slot
    len := w.len + 1 }

def extendSlot (w : TimingWheel T G) (slot last idx : Nat) : TimingWheel T G :=
  { w with
    next := Function.update (Function.update w.next last (some idx)) idx none
    tail := Function.update w.tail slot (some idx)
    len := w.len + 1 }

def link (w : TimingWheel T G) (key idx : Nat) :
    Except PushError (PushOutcome T) × TimingWheel T G :=
  let slot := w.slotOf key
  if w.head slot = none then (.ok .scheduled, w.startSlot slot key idx)
  else if w.slotKey slot ≠ key then
    (.error (.slotCollision slot (w.slotKey slot) key), w.freeNode idx)
  else (.ok .scheduled, w.extendSlot slot ((w.tail slot).getD (2 ^ 32 - 1)) idx)

def push (w : TimingWheel T G) (hiEnd : Nat) (x : T) :
    Except PushError (PushOutcome T) × TimingWheel T G :=
  let key := ceilDiv hiEnd G
  if key < w.cursorAbs then (.ok (.ready x), w)
  else if satAdd w.cursorAbs w.wheelSize ≤ key then
    (.error (.tooFarInFuture key w.cursorAbs w.wheelSize), w)
  else
    match w.allocNode x with
    | none => (.error .poolExhausted, w)
    | some node => node.2.link key node.1

/-- Free the nodes of a list one after the other and hand out their payloads; the pool bounds the
list. -/
def drainList : Nat → TimingWheel T G → Option Nat → List T × TimingWheel T G
  | _, w, none => ([], w)
  | 0, w, some _ => ([], w)
  | fuel + 1, w, some n =>
    let rest := drainList fuel { w.freeNode n with len := w.len - 1 } (w.next n)
    ((w.payload n).toList ++ rest.1, rest.2)

def drainSlot (w : TimingWheel T G) (slot : Nat) : List T × TimingWheel T G :=
  drainList w.cap
    { w with
      head := Function.update w.head slot none
      tail := Function.update w.tail slot none
      slotKey := Function.update w.slotKey slot 0
      occ := w.occ.clear slot }
    (w.head slot)

def moveCursor (w : TimingWheel T G) (base : Nat) : TimingWheel T G :=
  { w with cursorAbs := base, cursorSlot := w.slotOf base }

def cyclicDist (w : TimingWheel T G) (slot : Nat) : Nat :=
  if w.cursorSlot ≤ slot then slot - w.cursorSlot else w.wheelSize - (w.cursorSlot - slot)

def drainDue : Nat → TimingWheel T G → List T × TimingWheel T G
  | 0, w => ([], w)
  | fuel + 1, w =>
    if w.nowBucket < w.cursorAbs then ([], w)
    else
      match w.occ.findNextSetCyclic w.cursorSlot with
      | none => ([], w)
      | some slot =>
        let absKey := satAdd w.cursorAbs (w.cyclicDist slot)
        if w.nowBucket < absKey then ([], w)
        else
          let slotOut := w.drainSlot slot
          let rest := drainDue fuel (slotOut.2.moveCursor (satAdd absKey 1))
          (slotOut.1 ++ rest.1, rest.2)

def fastForward (w : TimingWheel T G) : TimingWheel T G :=
  if w.cursorAbs < satAdd w.nowBucket 1 then w.moveCursor (satAdd w.nowBucket 1) else w

/-- `advance_and_drain`, with the payloads in the order `on_ready` receives them. -/
def advanceAndDrain (w : TimingWheel T G) (nowOffset : Nat) : List T × TimingWheel T G :=
  let nowBucket := nowOffset / G
  if nowBucket < w.nowBucket then ([], w)
  else if nowBucket = w.nowBucket ∧ nowBucket < w.cursorAbs then ([], w)
  else
    let out := drainDue (nowBucket + 1 - w.cursorAbs) { w with nowBucket := nowBucket }
    (out.1, out.2.fastForward)

end TimingWheel

end GossipRs.Stdx
