import GossipRs.Lib.Windows
import GossipRs.Lib.Word

/-! Chunked reading: the chunk iterator (`scheduler/chunking.rs`) and the read loops of the archive
scanner (`archive/scan.rs`) as long as no budget is hit. The loops read behind what they carry over;
how much a read returns is up to the reader. -/

namespace GossipRs.Scheduler

open Lib List

/-! ### The chunk iterator -/

/-- `ChunkParams`, both of 32 bits. -/
structure ChunkParams where
  payloadBytes : Nat
  overlapBytes : Nat
deriving DecidableEq

def paramsFromContract (payloadBytes : Nat) (requiredOverlapBytes : Option Nat) :
    Except String ChunkParams :=
  if payloadBytes = 0 then .error "payload_bytes must be > 0"
  else
    match requiredOverlapBytes with
    | some overlapBytes => .ok ⟨payloadBytes, overlapBytes⟩
    | none => .error ("engine contract has unbounded overlap requirement; " ++
        "overlap-only chunking is not safe")

structure ChunkMeta where
  baseOffset : Nat
  len : Nat
  prefixLen : Nat
deriving DecidableEq

def ChunkMeta.newBytesStart (m : ChunkMeta) : Nat := m.baseOffset + m.prefixLen

def ChunkMeta.newBytesLen (m : ChunkMeta) : Nat := m.len - m.prefixLen

structure ChunkIter where
  objLen : Nat
  payloadBytes : Nat
  overlapBytes : Nat
  offset : Nat
  tailLen : Nat

/-- `ChunkIter::new`, which asserts a positive payload size. -/
def ChunkIter.new (objLen : Nat) (params : ChunkParams) : Option ChunkIter :=
  if params.payloadBytes = 0 then none
  else some ⟨objLen, params.payloadBytes, params.overlapBytes, 0, 0⟩

/-- `ChunkIter::next`. The chunk length is a 32-bit sum. -/
def ChunkIter.next (it : ChunkIter) : Option (ChunkMeta × ChunkIter) :=
  if it.objLen ≤ it.offset then none
  else
    let read := min (it.objLen - it.offset) it.payloadBytes
    let len := (it.tailLen + read) % 2 ^ 32
    some (⟨it.offset - it.tailLen, len, it.tailLen⟩,
      { it with offset := it.offset + read, tailLen := min it.overlapBytes len })

/-- All chunks, if the iteration ends within the fuel. -/
def ChunkIter.collect : Nat → ChunkIter → Option (List ChunkMeta)
  | 0, _ => none
  | fuel + 1, it =>
    match it.next with
    | none => some []
    | some (chunk, it) => (ChunkIter.collect fuel it).map (chunk :: ·)

def ChunkMeta.window (payload : Bytes) (m : ChunkMeta) : Window UInt8 where
  data := (payload.drop m.baseOffset).take m.len
  baseOffset := m.baseOffset
  newStart := m.newBytesStart
  newLen := m.newBytesLen

/-- From `offset` on, every chunk has a length of 32 bits with the overlap before it. -/
def LengthsFit (params : ChunkParams) (objLen offset : Nat) : Prop :=
  ∀ k, offset + k * params.payloadBytes < objLen →
    min params.overlapBytes (offset + k * params.payloadBytes) +
      min (objLen - (offset + k * params.payloadBytes)) params.payloadBytes < 2 ^ 32

theorem lengthsFit_iff {params : ChunkParams} (h : offset < objLen) :
    LengthsFit params objLen offset ↔
      min params.overlapBytes offset + min (objLen - offset) params.payloadBytes < 2 ^ 32 ∧
        LengthsFit params objLen (offset + min (objLen - offset) params.payloadBytes) := by
  constructor
  · intro hf
    refine ⟨by simpa using hf 0 (by simpa using h), fun k hk => ?_⟩
    have hread : min (objLen - offset) params.payloadBytes = params.payloadBytes := by
      generalize k * params.payloadBytes = n at hk
      omega
    have he : offset + params.payloadBytes + k * params.payloadBytes =
        offset + (k + 1) * params.payloadBytes := by
      rw [Nat.succ_mul]
      omega
    rw [hread, he] at hk ⊢
    exact hf (k + 1) hk
  · rintro ⟨hfirst, hf⟩ k hk
    cases k with
    | zero => simpa using hfirst
    | succ k =>
      have hread : min (objLen - offset) params.payloadBytes = params.payloadBytes := by
        rw [Nat.succ_mul] at hk
        generalize k * params.payloadBytes = n at hk
        omega
      have he : offset + params.payloadBytes + k * params.payloadBytes =
          offset + (k + 1) * params.payloadBytes := by
        rw [Nat.succ_mul]
        omega
      have := hf k
      rw [hread, he] at this
      exact this hk

def ChunkIter.params (it : ChunkIter) : ChunkParams := ⟨it.payloadBytes, it.overlapBytes⟩

/-- The chunk behind the tail at an offset, when its length does not wrap. -/
theorem ChunkMeta.window_exact {payload : Bytes} {tail : Nat} (ht : tail = min overlap offset)
    (hn : 0 < n) (hle : offset + n ≤ payload.length) :
    (ChunkMeta.window payload ⟨offset - tail, tail + n, tail⟩).Exact overlap payload offset := by
  refine ⟨?_, ?_, ?_, ?_, ?_⟩
  · show offset - tail + tail = offset
    omega
  · show 0 < tail + n - tail
    omega
  · show offset + (tail + n - tail) ≤ payload.length
    omega
  · show offset - tail = offset - min overlap offset
    rw [ht]
  show (payload.drop (offset - tail)).take (tail + n) = _ ++
    (payload.drop offset).take (tail + n - tail)
  rw [take_add, drop_take, drop_drop, ht, Nat.add_sub_cancel_left]
  congr 2
  · omega
  · congr 1
    omega

/-- The iterator cuts the rest of the object into windows whose new parts tile it, if and only if
no chunk length wraps: a wrapped chunk is shorter than its own overlap. -/
theorem ChunkIter.tiles_iff {payload : Bytes} {fuel} {it : ChunkIter}
    (ho : it.objLen = payload.length) (hp : 0 < it.payloadBytes) (hpw : it.payloadBytes < 2 ^ 32)
    (hov : it.overlapBytes < 2 ^ 32) (hof : it.offset ≤ payload.length)
    (ht : it.tailLen = min it.overlapBytes it.offset)
    (hf : payload.length - it.offset < fuel) :
    (∃ metas, it.collect fuel = some metas ∧
      Tiling it.overlapBytes payload it.offset (metas.map (·.window payload))) ↔
    LengthsFit it.params it.objLen it.offset := by
  induction fuel generalizing it with
  | zero => omega
  | succ fuel ih =>
    rw [ChunkIter.collect, ChunkIter.next]
    by_cases hd : it.objLen ≤ it.offset
    · rw [if_pos hd]
      refine ⟨fun _ k hk => absurd hk (by omega), fun _ => ⟨[], rfl, ?_⟩⟩
      show it.offset = payload.length
      omega
    rw [if_neg hd, lengthsFit_iff (by omega)]
    dsimp only [params]
    rw [← ht]
    have hr : 0 < min (it.objLen - it.offset) it.payloadBytes := by omega
    have hrw : min (it.objLen - it.offset) it.payloadBytes < 2 ^ 32 := by omega
    have hle : it.offset + min (it.objLen - it.offset) it.payloadBytes ≤ payload.length := by omega
    generalize hn : min (it.objLen - it.offset) it.payloadBytes = n at hr hrw hle
    by_cases hfits : it.tailLen + n < 2 ^ 32
    · rw [Nat.mod_eq_of_lt hfits]
      have ih := @ih { it with
        offset := it.offset + n, tailLen := min it.overlapBytes (it.tailLen + n) }
        ho hp hpw hov hle (by dsimp only; omega) (by dsimp only; omega)
      have hw := ChunkMeta.window_exact ht hr hle
      have hne : (ChunkMeta.window payload
          ⟨it.offset - it.tailLen, it.tailLen + n, it.tailLen⟩).newLen = n :=
        Nat.add_sub_cancel_left it.tailLen n
      refine Iff.trans ?_ ((and_iff_right hfits).trans ih.symm).symm
      constructor
      · rintro ⟨metas, hc, hti⟩
        obtain ⟨rest, hrest, rfl⟩ := Option.map_eq_some_iff.mp hc
        refine ⟨rest, hrest, ?_⟩
        have := hti.2
        rwa [hne] at this
      · rintro ⟨rest, hc, hti⟩
        refine ⟨_ :: rest, by rw [hc]; rfl, hw, ?_⟩
        rwa [hne]
    · refine ⟨?_, fun h => absurd h.1 hfits⟩
      rintro ⟨metas, hc, hti⟩
      obtain ⟨rest, -, rfl⟩ := Option.map_eq_some_iff.mp hc
      have hpos : 0 < (it.tailLen + n) % 2 ^ 32 - it.tailLen := hti.1.newLen_pos
      omega

/-! ### The read loops of the archive scanner -/

/-- `copy_within` to the front of the buffer, of what ends at `filled`. -/
def copyToFront (buf : Bytes) (filled carry : Nat) : Bytes :=
  (buf.drop (filled - carry)).take carry ++ buf.drop carry

def writeAt (buf : Bytes) (pos : Nat) (bytes : Bytes) : Bytes :=
  buf.take pos ++ bytes ++ buf.drop (pos + bytes.length)

def archiveStreamReadMax : Nat := 256 * 1024

/-- The variables of a read loop: `stream_buf`, `offset`, `carry`, `have`. -/
structure ReadState where
  buf : Bytes
  offset : Nat
  carry : Nat
  filled : Nat

namespace ReadState

/-- `carry_overlap_prefix`. -/
def slide (s : ReadState) : Bytes :=
  if 0 < s.carry ∧ 0 < s.filled then copyToFront s.buf s.filled s.carry else s.buf

def deliver (overlap : Nat) (s : ReadState) (bytes : Bytes) : Window UInt8 × ReadState :=
  let buf := writeAt s.slide s.carry bytes
  let readLen := s.carry + bytes.length
  (⟨buf.take readLen, s.offset - s.carry, s.offset, bytes.length⟩,
    ⟨buf, min (s.offset + bytes.length) (2 ^ 64 - 1), min overlap readLen, readLen⟩)

def readMax (chunkSize : Nat) (s : ReadState) (allowance : Nat) : Nat :=
  min (min chunkSize (s.buf.length - s.carry)) (min allowance (2 ^ 32 - 1))

end ReadState

/-- A reader: how many bytes the next read returns at most, and the allowance the budgets leave
before it. -/
structure ReadPlan where
  size : Nat → Nat
  allowance : Nat → Nat
  size_pos : ∀ i, 0 < size i
  allowance_pos : ∀ i, 0 < allowance i

/-- The loop of gzip, bzip2 and zip entries: until a read returns nothing. -/
def streamLoop (chunkSize overlap : Nat) (plan : ReadPlan) :
    Nat → Nat → ReadState → Bytes → Option (List (Window UInt8))
  | 0, _, _, _ => none
  | fuel + 1, i, s, rest =>
    let readMax := s.readMax chunkSize (plan.allowance i)
    if readMax = 0 then some []
    else
      let bytes := rest.take (min (plan.size i) readMax)
      if bytes.length = 0 then some []
      else
        let delivered := s.deliver overlap bytes
        (streamLoop chunkSize overlap plan fuel (i + 1) delivered.2 (rest.drop bytes.length)).map
          (delivered.1 :: ·)

/-- The loop of tar entries: bounded by the declared size, on an input that goes on behind it. -/
def tarEntryLoop (chunkSize overlap : Nat) (plan : ReadPlan) :
    Nat → Nat → ReadState → Nat → Bytes → Option (List (Window UInt8))
  | 0, _, _, _, _ => none
  | fuel + 1, i, s, remaining, input =>
    if remaining = 0 then some []
    else
      let readMax := min (s.readMax chunkSize (plan.allowance i)) (min remaining (2 ^ 32 - 1))
      if readMax = 0 then some []
      else
        let bytes := input.take (min (plan.size i) readMax)
        if bytes.length = 0 then some []
        else
          let delivered := s.deliver overlap bytes
          (tarEntryLoop chunkSize overlap plan fuel (i + 1) delivered.2 (remaining - bytes.length)
            (input.drop bytes.length)).map (delivered.1 :: ·)

/-- `stream_buf` of a scratch, with whatever earlier scans left in it. -/
structure StreamBuf (chunkSize overlap : Nat) where
  bytes : Bytes
  length_eq : bytes.length =
    max (min (chunkSize + overlap) (2 ^ 64 - 1)) (min (overlap + 1) (2 ^ 64 - 1))

def StreamBuf.start {chunkSize overlap : Nat} (b : StreamBuf chunkSize overlap) : ReadState :=
  ⟨b.bytes, 0, 0, 0⟩

structure ReadInv (overlap : Nat) (payload : Bytes) (s : ReadState) : Prop where
  room : overlap < s.buf.length
  carry : s.carry = min overlap s.offset
  carry_le : s.carry ≤ s.filled
  filled_le : s.filled ≤ s.buf.length
  tail : (s.buf.drop (s.filled - s.carry)).take s.carry =
    (payload.take s.offset).drop (s.offset - s.carry)
  offset_le : s.offset ≤ payload.length

theorem length_slide (h : ReadInv overlap payload s) : s.slide.length = s.buf.length := by
  have := h.filled_le
  rw [ReadState.slide]
  split
  · rw [copyToFront, length_append, length_take, length_drop, length_drop]
    omega
  · rfl

theorem take_slide (h : ReadInv overlap payload s) :
    s.slide.take s.carry = (payload.take s.offset).drop (s.offset - s.carry) := by
  have hl : ((s.buf.drop (s.filled - s.carry)).take s.carry).length = s.carry := by
    have := h.carry_le
    have := h.filled_le
    rw [length_take, length_drop]
    omega
  rw [← h.tail, ReadState.slide]
  split
  · exact take_left' hl
  have hz : s.carry = 0 := by
    have := h.carry_le
    omega
  rw [hz, take_zero, take_zero]

theorem deliver_exact (h : ReadInv overlap payload s) (hl : payload.length < 2 ^ 64) (hn : 0 < n)
    (hle : s.offset + n ≤ payload.length) (hro : n ≤ s.buf.length - s.carry) :
    (s.deliver overlap ((payload.drop s.offset).take n)).1.Exact overlap payload s.offset ∧
      ReadInv overlap payload (s.deliver overlap ((payload.drop s.offset).take n)).2 ∧
      (s.deliver overlap ((payload.drop s.offset).take n)).2.offset = s.offset + n := by
  have hb : ((payload.drop s.offset).take n).length = n := by
    rw [length_take, length_drop]
    omega
  have hs := length_slide h
  have hc := h.carry
  have hr' := h.room
  have hf : (s.slide.take s.carry).length = s.carry := by
    rw [length_take, hs]
    omega
  -- the filled part of the buffer after the read
  have hd : (writeAt s.slide s.carry ((payload.drop s.offset).take n)).take (s.carry + n) =
      (payload.take s.offset).drop (s.offset - s.carry) ++ (payload.drop s.offset).take n := by
    rw [writeAt, ← take_slide h]
    apply take_left'
    rw [length_append, hf, hb]
  have hbu : (writeAt s.slide s.carry ((payload.drop s.offset).take n)).length = s.buf.length := by
    rw [writeAt, length_append, length_append, hf, hb, length_drop, hs]
    omega
  have hr : (payload.take s.offset).drop (s.offset - s.carry) ++ (payload.drop s.offset).take n =
      (payload.take (s.offset + n)).drop (s.offset - s.carry) := by
    rw [take_add, drop_append_of_le_length]
    rw [length_take]
    omega
  rw [ReadState.deliver, hb]
  refine ⟨⟨rfl, hn, hle, ?_, ?_⟩, ⟨?_, ?_, ?_, ?_, ?_, ?_⟩, ?_⟩
  · rw [hc]
  · rw [← hc]
    exact hd
  · rw [hbu]
    exact hr'
  · dsimp only
    omega
  · exact Nat.min_le_right _ _
  · dsimp only
    omega
  · dsimp only
    rw [Nat.min_eq_left (show s.offset + n ≤ 2 ^ 64 - 1 by omega)]
    have hsp : ((writeAt s.slide s.carry ((payload.drop s.offset).take n)).take
        (s.carry + n)).drop (s.carry + n - min overlap (s.carry + n)) =
        (payload.take (s.offset + n)).drop (s.offset + n - min overlap (s.carry + n)) := by
      rw [hd, hr, drop_drop]
      congr 1
      omega
    rw [← hsp, drop_take]
    congr 1
    omega
  · dsimp only
    omega
  · dsimp only
    omega

theorem StreamBuf.inv (b : StreamBuf chunkSize overlap) (payload : Bytes)
    (ho : overlap + 1 < 2 ^ 64) : ReadInv overlap payload b.start where
  room := by
    show overlap < b.bytes.length
    rw [b.length_eq]
    omega
  carry := (Nat.min_zero overlap).symm
  carry_le := Nat.le_refl 0
  filled_le := Nat.zero_le _
  tail := by
    show List.take 0 _ = List.drop _ (List.take 0 payload)
    rw [take_zero, take_zero, drop_nil]
  offset_le := Nat.zero_le _

section Loops

variable {chunkSize overlap : Nat} {plan : ReadPlan} {payload : Bytes}

theorem deliver_tiles (h : ReadInv overlap payload s) (hl : payload.length < 2 ^ 64) (hn : 0 < n)
    (hle : s.offset + n ≤ payload.length) (hr : n ≤ s.buf.length - s.carry) :
    ReadInv overlap payload (s.deliver overlap ((payload.drop s.offset).take n)).2 ∧
      (s.deliver overlap ((payload.drop s.offset).take n)).2.offset = s.offset + n ∧
      ∀ ws, Tiling overlap payload
          (s.deliver overlap ((payload.drop s.offset).take n)).2.offset ws →
        Tiling overlap payload s.offset
          ((s.deliver overlap ((payload.drop s.offset).take n)).1 :: ws) := by
  obtain ⟨he, hinv, ho⟩ := deliver_exact h hl hn hle hr
  refine ⟨hinv, ho, fun ws ht => ⟨he, ?_⟩⟩
  have hne : (s.deliver overlap ((payload.drop s.offset).take n)).1.newLen = n := by
    show ((payload.drop s.offset).take n).length = n
    rw [length_take, length_drop]
    omega
  rw [ho] at ht
  rwa [hne]

theorem streamLoop_tiles (hc : 0 < chunkSize) (hl : payload.length < 2 ^ 64)
    (h : ReadInv overlap payload s) (hf : payload.length - s.offset < fuel) :
    ∃ ws, streamLoop chunkSize overlap plan fuel i s (payload.drop s.offset) = some ws ∧
      Tiling overlap payload s.offset ws := by
  induction fuel generalizing i s with
  | zero => omega
  | succ fuel ih =>
    have hr := h.room
    have hca := h.carry
    have ho := h.offset_le
    have hs := plan.size_pos i
    have ha := plan.allowance_pos i
    rw [streamLoop]
    dsimp only
    have hmax : 0 < s.readMax chunkSize (plan.allowance i) := by
      rw [ReadState.readMax]
      omega
    have hm : s.readMax chunkSize (plan.allowance i) ≤ s.buf.length - s.carry := by
      rw [ReadState.readMax]
      omega
    rw [if_neg (Nat.ne_of_gt hmax)]
    generalize s.readMax chunkSize (plan.allowance i) = readMax at hmax hm
    have hco : ((payload.drop s.offset).take (min (plan.size i) readMax)).length =
        min (min (plan.size i) readMax) (payload.length - s.offset) := by
      rw [length_take, length_drop]
    by_cases he : s.offset = payload.length
    · rw [if_pos]
      · exact ⟨[], rfl, he⟩
      · omega
    rw [if_neg]
    · have hta : (payload.drop s.offset).take (min (plan.size i) readMax) =
          (payload.drop s.offset).take
            (min (min (plan.size i) readMax) (payload.length - s.offset)) := by
        rw [← length_drop, take_eq_take_min]
      rw [hta]
      generalize hn : min (min (plan.size i) readMax) (payload.length - s.offset) = n
      have hb : ((payload.drop s.offset).take n).length = n := by
        rw [length_take, length_drop]
        omega
      obtain ⟨hinv, hne, ht⟩ := deliver_tiles h hl (n := n) (by omega) (by omega) (by omega)
      obtain ⟨ws, hw, hr⟩ := ih (i := i + 1) hinv (by omega)
      rw [hb, drop_drop, ← hne, hw]
      exact ⟨_ :: ws, rfl, ht ws hr⟩
    · omega

theorem tarEntryLoop_tiles (hc : 0 < chunkSize) (hl : payload.length < 2 ^ 64) (after : Bytes)
    (h : ReadInv overlap payload s) (hf : payload.length - s.offset < fuel) :
    ∃ ws, tarEntryLoop chunkSize overlap plan fuel i s (payload.length - s.offset)
        (payload.drop s.offset ++ after) = some ws ∧ Tiling overlap payload s.offset ws := by
  induction fuel generalizing i s with
  | zero => omega
  | succ fuel ih =>
    have hr := h.room
    have hca := h.carry
    have ho := h.offset_le
    have hs := plan.size_pos i
    have ha := plan.allowance_pos i
    rw [tarEntryLoop]
    by_cases he : payload.length - s.offset = 0
    · rw [if_pos he]
      refine ⟨[], rfl, ?_⟩
      show s.offset = payload.length
      omega
    rw [if_neg he]
    dsimp only
    have hmax : 0 < min (s.readMax chunkSize (plan.allowance i))
        (min (payload.length - s.offset) (2 ^ 32 - 1)) := by
      rw [ReadState.readMax]
      omega
    have hm : min (s.readMax chunkSize (plan.allowance i))
        (min (payload.length - s.offset) (2 ^ 32 - 1)) ≤
          min (s.buf.length - s.carry) (payload.length - s.offset) := by
      rw [ReadState.readMax]
      omega
    rw [if_neg (Nat.ne_of_gt hmax)]
    generalize min (s.readMax chunkSize (plan.allowance i))
      (min (payload.length - s.offset) (2 ^ 32 - 1)) = readMax at hmax hm
    -- a read stays within the entry
    have hta : (payload.drop s.offset ++ after).take (min (plan.size i) readMax) =
        (payload.drop s.offset).take (min (plan.size i) readMax) := by
      apply take_append_of_le_length
      rw [length_drop]
      omega
    rw [hta]
    generalize hn : min (plan.size i) readMax = n
    have hb : ((payload.drop s.offset).take n).length = n := by
      rw [length_take, length_drop]
      omega
    rw [hb, if_neg (show n ≠ 0 by omega)]
    obtain ⟨hinv, hne, ht⟩ := deliver_tiles h hl (n := n) (by omega) (by omega) (by omega)
    obtain ⟨ws, hw, hr⟩ := ih (i := i + 1) hinv (by omega)
    have hd : (payload.drop s.offset ++ after).drop n = payload.drop (s.offset + n) ++ after := by
      rw [drop_append_of_le_length, drop_drop]
      rw [length_drop]
      omega
    rw [hd, ← hne, Nat.sub_sub, ← hne, hw]
    exact ⟨_ :: ws, rfl, ht ws hr⟩

end Loops

/-- The archive read loops cut a payload into windows whose new parts tile it, each with the overlap
before it, and the chunk iterator does so if and only if its chunk lengths fit 32 bits. In windows
that tile the payload every span of length up to the overlap plus one that ends behind its start is
kept in exactly one, and a matcher that sees only the span reports it once. -/
theorem chunked_scanning_exact (payload after : Bytes) (chunkSize overlap : Nat) (plan : ReadPlan)
    (buf : StreamBuf chunkSize overlap) (hchunk : 0 < chunkSize) (hsize : chunkSize < 2 ^ 32)
    (hoverlap : overlap < 2 ^ 32) (hlen : payload.length < 2 ^ 64) :
    ((∃ it metas, ChunkIter.new payload.length ⟨chunkSize, overlap⟩ = some it ∧
      it.collect (payload.length + 1) = some metas ∧
      Tiling overlap payload 0 (metas.map (·.window payload))) ↔
        LengthsFit ⟨chunkSize, overlap⟩ payload.length 0) ∧
    (∃ ws, streamLoop (min chunkSize archiveStreamReadMax) overlap plan (payload.length + 1) 0
        buf.start payload = some ws ∧ Tiling overlap payload 0 ws) ∧
    (∃ ws, tarEntryLoop (min chunkSize archiveStreamReadMax) overlap plan (payload.length + 1) 0
        buf.start payload.length (payload ++ after) = some ws ∧ Tiling overlap payload 0 ws) ∧
    ∀ ws : List (Window UInt8), Tiling overlap payload 0 ws →
      ∀ a b, a ≤ b → 0 < b → b ≤ a + overlap + 1 → b ≤ payload.length →
        ws.countP (·.owns a b) = 1 ∧
        ∀ verdict : Bytes → Bool, ws.countP (Window.reports verdict a b) =
          if verdict ((payload.drop a).take (b - a)) then 1 else 0 := by
  have hread : 0 < min chunkSize archiveStreamReadMax := by
    rw [archiveStreamReadMax]
    omega
  have hinv := buf.inv payload (by omega)
  refine ⟨?_, ?_, ?_, fun ws hws a b _ hpos hshort hb => ⟨?_, fun verdict => ?_⟩⟩
  · have hnew : ChunkIter.new payload.length ⟨chunkSize, overlap⟩ =
        some ⟨payload.length, chunkSize, overlap, 0, 0⟩ := by
      rw [ChunkIter.new, if_neg (Nat.ne_of_gt hchunk)]
    rw [hnew]
    have htiles := @ChunkIter.tiles_iff payload (payload.length + 1)
      ⟨payload.length, chunkSize, overlap, 0, 0⟩ rfl hchunk hsize hoverlap (Nat.zero_le _)
      (Nat.min_zero overlap).symm (by dsimp only; omega)
    constructor
    · rintro ⟨_, metas, ⟨⟩, hcollect⟩
      exact htiles.mp ⟨metas, hcollect⟩
    · intro hfit
      obtain ⟨metas, hcollect⟩ := htiles.mpr hfit
      exact ⟨_, metas, rfl, hcollect⟩
  · exact streamLoop_tiles hread hlen hinv (by show payload.length - 0 < _; omega)
  · exact tarEntryLoop_tiles hread hlen after hinv (by show payload.length - 0 < _; omega)
  · rw [hws.countP_owns hshort hb, if_pos hpos]
  rw [hws.countP_reports verdict hshort hb]
  simp [hpos, true_and]

/-- Five bytes in chunks of two with an overlap of one: the chunks, and the windows of a stream of
which each read returns one byte. -/
theorem chunked_scanning_exact_five :
    (∃ it metas, ChunkIter.new 5 ⟨2, 1⟩ = some it ∧ it.collect 6 = some metas ∧
      Tiling 1 [1, 2, 3, 4, 5] 0 (metas.map (·.window [1, 2, 3, 4, 5]))) ∧
    ∃ ws, streamLoop 2 1 ⟨fun _ => 1, fun _ => 9, fun _ => Nat.one_pos, fun _ => by decide⟩ 6 0
      ⟨[0, 0, 0], 0, 0, 0⟩ [1, 2, 3, 4, 5] = some ws ∧ Tiling 1 [1, 2, 3, 4, 5] 0 ws :=
  have h := chunked_scanning_exact [1, 2, 3, 4, 5] [] 2 1
    ⟨fun _ => 1, fun _ => 9, fun _ => Nat.one_pos, fun _ => by decide⟩ ⟨[0, 0, 0], by decide⟩
    (by decide) (by decide) (by decide) (by decide)
  ⟨h.1.mpr fun k _ => by dsimp only; omega, h.2.1⟩

/-- With sizes whose sum does not fit 32 bits the second chunk of a long object is shorter than its
own overlap: the new parts do not tile the object. -/
theorem chunkIter_len_wraps :
    ∃ params it metas, paramsFromContract (2 ^ 32 - 1) (some 100) = .ok params ∧
      ChunkIter.new (2 ^ 33) params = some it ∧ it.collect 5 = some metas ∧
      ∀ payload : Bytes, payload.length = 2 ^ 33 →
        ¬ Tiling 100 payload 0 (metas.map (·.window payload)) := by
  refine ⟨⟨2 ^ 32 - 1, 100⟩, ⟨2 ^ 33, 2 ^ 32 - 1, 100, 0, 0⟩,
    [⟨0, 4294967295, 0⟩, ⟨4294967195, 99, 100⟩, ⟨8589934491, 101, 99⟩], rfl, rfl, rfl, ?_⟩
  intro payload _ h
  have hpos : 0 < 99 - 100 := h.2.1.newLen_pos
  omega

end GossipRs.Scheduler
