import Mathlib

/-! The thread-safe buffer pool (`ts_buffer_pool.rs`): a global queue and one for each worker. Calls
of any number of threads interleave, one queue operation at a time. A call that looks for a buffer
visits one queue after another, so it can miss one returned behind it. -/

namespace GossipRs.Scheduler.TsBufferPool

open List

structure TsBufferPoolConfig where
  bufferLen : Nat
  totalBuffers : Nat
  workers : Nat
  localQueueCap : Nat

/-- What `validate` asserts. -/
def TsBufferPoolConfig.Valid (cfg : TsBufferPoolConfig) : Prop :=
  0 < cfg.bufferLen ∧ 0 < cfg.totalBuffers ∧ 0 < cfg.workers ∧ 0 < cfg.localQueueCap ∧
    cfg.workers ≤ cfg.totalBuffers

inductive Call where
  | acquiring (rest : List Nat)
  | releasing (buf : Nat) (rest : List Nat)
  | returned
  /-- `try_acquire` has returned `None`. -/
  | exhausted
  | overflowed
deriving DecidableEq

/-- Buffers are numbers. Queue 0 is the global one, queue `wid + 1` that of worker `wid`. A buffer
whose handle is being dropped is in the call that drops it. -/
structure Pool where
  queues : List (List Nat)
  handles : List Nat
  calls : List Call

variable (cfg : TsBufferPoolConfig)

def capacity (q : Nat) : Nat := if q = 0 then cfg.totalBuffers else cfg.localQueueCap

def localQueue (wid : Option Nat) : List Nat :=
  match wid with
  | some wid => if wid < cfg.workers then [wid + 1] else []
  | none => []

def acquireRoute (wid : Option Nat) : List Nat := localQueue cfg wid ++ range (cfg.workers + 1)

def releaseRoute (wid : Option Nat) : List Nat := localQueue cfg wid ++ [0]

def seedLocals (cap : Nat) : Nat → List Nat → List Nat × List (List Nat)
  | 0, global => (global, [])
  | workers + 1, global =>
    let rest := seedLocals cap workers (global.drop cap)
    (rest.1, global.take cap :: rest.2)

def new : Pool :=
  let seeded := seedLocals cfg.localQueueCap cfg.workers (range cfg.totalBuffers)
  ⟨seeded.1 :: seeded.2, [], []⟩

inductive Event where
  | tryAcquire (wid : Option Nat)
  | drop (wid : Option Nat) (buf : Nat)
  | next (i : Nat)

def Pool.setCall (s : Pool) (i : Nat) (c : Call) : Pool := { s with calls := s.calls.set i c }

def Pool.queue (s : Pool) (q : Nat) : List Nat := s.queues.getD q []

def advance (s : Pool) (i : Nat) : Call → Pool
  | .acquiring [] => s.setCall i .exhausted
  | .acquiring (q :: rest) =>
    match s.queue q with
    | [] => s.setCall i (.acquiring rest)
    | buf :: bufs => ⟨s.queues.set q bufs, buf :: s.handles, s.calls.set i .returned⟩
  | .releasing _ [] => s.setCall i .overflowed
  | .releasing buf (q :: rest) =>
    if (s.queue q).length < capacity cfg q then
      ⟨s.queues.set q (s.queue q ++ [buf]), s.handles, s.calls.set i .returned⟩
    else s.setCall i (.releasing buf rest)
  | _ => s

def step (s : Pool) : Event → Pool
  | .tryAcquire wid => { s with calls := s.calls ++ [.acquiring (acquireRoute cfg wid)] }
  | .drop wid buf =>
    if buf ∈ s.handles then
      ⟨s.queues, s.handles.erase buf, s.calls ++ [.releasing buf (releaseRoute cfg wid)]⟩
    else s
  | .next i =>
    match s.calls[i]? with
    | some c => advance cfg s i c
    | none => s

def run (s : Pool) (events : List Event) : Pool := events.foldl (step cfg) s

def pushes (s : Pool) : Event → Bool
  | .next i =>
    match s.calls[i]? with
    | some (.releasing _ (q :: _)) => (s.queue q).length < capacity cfg q
    | _ => false
  | _ => false

def Quiet (s : Pool) : List Event → Prop
  | [] => True
  | e :: events => pushes cfg s e = false ∧ Quiet (step cfg s e) events

/-! ### Every buffer is in one place -/

def Call.bufs : Call → List Nat
  | .releasing buf _ => [buf]
  | _ => []

def Call.waits : Call → Bool
  | .acquiring _ | .exhausted => true
  | _ => false

def Pool.held (s : Pool) : List Nat := s.handles ++ (s.calls.map Call.bufs).flatten

def Call.Ok : Call → Prop
  | .acquiring rest => ∀ q ∈ rest, q ≤ cfg.workers
  | .releasing _ rest => (∀ q ∈ rest, q ≤ cfg.workers) ∧ 0 ∈ rest
  | .overflowed => False
  | _ => True

structure Inv (s : Pool) : Prop where
  places : (s.queues.flatten ++ s.held).Perm (range cfg.totalBuffers)
  queues : s.queues.length = cfg.workers + 1
  ok : ∀ c ∈ s.calls, c.Ok cfg

variable {cfg} {s : Pool}

theorem flatten_set {ls : List (List Nat)} (h : q < ls.length) (l) :
    (ls.getD q [] ++ (ls.set q l).flatten).Perm (l ++ ls.flatten) := by
  obtain ⟨l1, l2, hl, -, hs⟩ := @exists_of_set _ q l ls h
  rw [getD_eq_getElem _ _ h, hs]
  generalize ls[q] = x at hl
  refine perm_iff_count.mpr fun a => ?_
  simp only [hl, flatten_append, flatten_cons, count_append]
  omega

theorem Inv.set (h : Inv cfg s) {queues handles} (hc : s.calls[i]? = some c) (ho : c'.Ok cfg)
    (hq : queues.length = s.queues.length)
    (hp : (queues.flatten ++ (handles ++ c'.bufs)).Perm
      (s.queues.flatten ++ (s.handles ++ c.bufs))) :
    Inv cfg ⟨queues, handles, s.calls.set i c'⟩ where
  places := by
    refine .trans (perm_iff_count.mpr fun a => ?_) h.places
    have hi : i < (s.calls.map Call.bufs).length := by
      simpa using (List.getElem?_eq_some_iff.mp hc).1
    have hs := (flatten_set hi c'.bufs).count_eq a
    have hm := hp.count_eq a
    simp only [Pool.held, count_append, getD_eq_getElem?_getD, getElem?_map, hc, Option.map_some,
      Option.getD_some, map_set] at hs hm ⊢
    omega
  queues := hq.trans h.queues
  ok x hx := by
    rcases mem_or_eq_of_mem_set hx with hx | rfl
    · exact h.ok x hx
    · exact ho

theorem Inv.global_room (h : Inv cfg s) (hc : .releasing buf rest ∈ s.calls) :
    (s.queue 0).length < cfg.totalBuffers := by
  have hq : 0 < s.queues.length := by rw [h.queues]; omega
  have hl := h.places.length_eq
  have hin := (flatten_set hq []).length_eq
  have hp : 0 < (s.calls.map Call.bufs).flatten.length :=
    length_pos_of_mem (mem_flatten.mpr ⟨_, mem_map_of_mem hc, mem_cons_self⟩)
  simp only [Pool.held, Pool.queue, length_append, length_range, length_nil] at hl hin ⊢
  omega

theorem Inv.advance (h : Inv cfg s) (hc : s.calls[i]? = some c) : Inv cfg (advance cfg s i c) := by
  have ho := h.ok c (mem_of_getElem? hc)
  have hl : ∀ {q}, q ≤ cfg.workers → q < s.queues.length := fun hq => by rw [h.queues]; omega
  unfold TsBufferPool.advance
  split
  next => exact h.set hc trivial rfl .rfl
  next q rest =>
    obtain ⟨hq, hr⟩ := forall_mem_cons.mp ho
    split
    next => exact h.set hc hr rfl .rfl
    next buf bufs hb =>
      refine h.set hc trivial length_set (perm_iff_count.mpr fun a => ?_)
      have hm := (flatten_set (hl hq) bufs).count_eq a
      rw [show s.queues.getD q [] = buf :: bufs from hb] at hm
      simp only [count_append, count_cons, Call.bufs, count_nil] at hm ⊢
      omega
  next => exact absurd ho.2 not_mem_nil
  next buf q rest =>
    obtain ⟨hq, hr⟩ := forall_mem_cons.mp ho.1
    split
    next =>
      refine h.set hc trivial length_set (perm_iff_count.mpr fun a => ?_)
      have hm := (flatten_set (hl hq) (s.queue q ++ [buf])).count_eq a
      simp only [Pool.queue, count_append, Call.bufs, count_nil] at hm ⊢
      omega
    next hf =>
      refine h.set hc ⟨hr, ?_⟩ rfl .rfl
      rcases mem_cons.mp ho.2 with rfl | hg
      · exact absurd (h.global_room (mem_of_getElem? hc)) hf
      · exact hg
  next => exact h

theorem localQueue_le (wid) : ∀ q ∈ localQueue cfg wid, q ≤ cfg.workers := by
  unfold localQueue
  split
  next wid =>
    split
    next h => simpa using h
    next => exact nofun
  next => exact nofun

theorem Inv.step (h : Inv cfg s) (e) : Inv cfg (step cfg s e) := by
  unfold TsBufferPool.step
  split
  next wid =>
    refine ⟨?_, h.queues, fun c hc => ?_⟩
    · simpa [Pool.held, Call.bufs] using h.places
    rcases mem_append.mp hc with hc | hc
    · exact h.ok c hc
    rw [mem_singleton.mp hc]
    refine forall_mem_append.mpr ⟨localQueue_le wid, fun q hq => ?_⟩
    exact Nat.lt_succ_iff.mp (mem_range.mp hq)
  next wid buf =>
    split
    next hb =>
      refine ⟨.trans (.append_left _ ?_) h.places, h.queues, fun c hc => ?_⟩
      · refine perm_iff_count.mpr fun a => ?_
        have hm := (perm_cons_erase hb).count_eq a
        simp only [Pool.held, map_append, map_cons, map_nil, flatten_append, flatten_cons,
          flatten_nil, Call.bufs, count_append, count_cons, count_nil] at hm ⊢
        omega
      rcases mem_append.mp hc with hc | hc
      · exact h.ok c hc
      · rw [mem_singleton.mp hc]
        exact ⟨forall_mem_append.mpr ⟨localQueue_le wid, by simp⟩, by simp [releaseRoute]⟩
    next => exact h
  next i =>
    split
    next c hc => exact h.advance hc
    next => exact h

theorem seedLocals_spec (cap workers global) :
    let seeded := seedLocals cap workers global
    seeded.2.length = workers ∧ (seeded.1 ++ seeded.2.flatten).Perm global := by
  induction workers generalizing global with
  | zero => simp [seedLocals]
  | succ n ih =>
    obtain ⟨hl, hp⟩ := ih (global.drop cap)
    refine ⟨congrArg (· + 1) hl, ?_⟩
    refine (perm_append_comm_assoc _ _ _).trans ((hp.append_left _).trans ?_)
    rw [take_append_drop]

theorem inv_run (events) : Inv cfg (run cfg (new cfg) events) := by
  have hr : ∀ s, Inv cfg s → Inv cfg (run cfg s events) := by
    induction events with
    | nil => exact fun _ h => h
    | cons e events ih => exact fun s h => ih _ (h.step e)
  obtain ⟨hl, hp⟩ := seedLocals_spec cfg.localQueueCap cfg.workers (range cfg.totalBuffers)
  exact hr _ ⟨by simpa [new, Pool.held] using hp, congrArg (· + 1) hl, nofun⟩

/-! ### A quiet scan -/

/-- The queues that a scan has left behind are empty. -/
def Scanned (cfg : TsBufferPoolConfig) (s : Pool) : Call → Prop
  | .acquiring rest => ∀ q ≤ cfg.workers, q ∉ rest → s.queue q = []
  | .exhausted => ∀ q ≤ cfg.workers, s.queue q = []
  | _ => True

/-- Call `i` is there and what it has left behind is empty. -/
def ScannedAt (cfg : TsBufferPoolConfig) (s : Pool) (i : Nat) : Prop :=
  ∃ c, s.calls[i]? = some c ∧ Scanned cfg s c

theorem ScannedAt.set (h : ScannedAt cfg s i) {queues handles}
    (hm : ∀ q, s.queue q = [] → queues.getD q [] = [])
    (hc : i = j → Scanned cfg ⟨queues, handles, s.calls⟩ c) :
    ScannedAt cfg ⟨queues, handles, s.calls.set j c⟩ i := by
  obtain ⟨c', hc', hs⟩ := h
  by_cases hij : i = j
  · refine ⟨c, ?_, hc hij⟩
    rw [← hij]
    exact getElem?_set_self (List.getElem?_eq_some_iff.mp hc').1
  refine ⟨c', (getElem?_set_ne (Ne.symm hij)).trans hc', ?_⟩
  cases c' with
  | acquiring rest => exact fun q hq hr => hm q (hs q hq hr)
  | exhausted => exact fun q hq => hm q (hs q hq)
  | _ => trivial

theorem ScannedAt.append (h : ScannedAt cfg s i) {handles} :
    ScannedAt cfg ⟨s.queues, handles, s.calls ++ [c]⟩ i := by
  obtain ⟨c', hc', hs⟩ := h
  refine ⟨c', ?_, hs⟩
  rw [← hc']
  exact getElem?_append_left (List.getElem?_eq_some_iff.mp hc').1

theorem ScannedAt.step (h : ScannedAt cfg s i) (hp : pushes cfg s e = false) :
    ScannedAt cfg (step cfg s e) i := by
  unfold TsBufferPool.step
  split
  next => exact h.append
  next =>
    split
    next => exact h.append
    next => exact h
  next j =>
    split
    next c hc =>
      have ho : i = j → Scanned cfg s c := by
        rintro rfl
        obtain ⟨c', hc', hs⟩ := h
        cases hc.symm.trans hc'
        exact hs
      unfold advance
      split
      next => exact h.set (fun _ => id) fun hij q hq => ho hij q hq not_mem_nil
      next q rest =>
        split
        next he =>
          refine h.set (fun _ => id) fun hij q' hq' hr => ?_
          by_cases heq : q' = q
          · rw [heq]
            exact he
          · exact ho hij q' hq' (by simp [heq, hr])
        next buf bufs hb =>
          refine h.set (fun q' hq' => ?_) fun _ => trivial
          have hn : q ≠ q' := by
            rintro rfl
            cases hb.symm.trans hq'
          rw [getD_eq_getElem?_getD, getElem?_set_ne hn]
          exact hq'
      next => exact h.set (fun _ => id) fun _ => trivial
      next buf q rest =>
        split
        next hro => simp [pushes, hc, hro] at hp
        next => exact h.set (fun _ => id) fun _ => trivial
      next => exact h
    next => exact h

theorem ScannedAt.run (h : ScannedAt cfg s i) (hq : Quiet cfg s events) :
    ScannedAt cfg (run cfg s events) i := by
  induction events generalizing s with
  | nil => exact h
  | cons e events ih => exact ih (h.step hq.1) hq.2

/-- Every buffer is in one queue or one handle, and a release never overflows. A `try_acquire`
during which nothing is returned fails only when all buffers are held, so not while the holders and
the caller are at most as many as the buffers. -/
theorem pool_exclusive (cfg : TsBufferPoolConfig) (_ : cfg.Valid) (events) :
    let s := run cfg (new cfg) events
    (s.queues.flatten ++ s.held).Perm (range cfg.totalBuffers) ∧ .overflowed ∉ s.calls ∧
      ∀ wid rest, Quiet cfg (step cfg s (.tryAcquire wid)) rest →
        let s' := run cfg (step cfg s (.tryAcquire wid)) rest
        s'.calls[s.calls.length]? = some .exhausted →
          s'.held.Perm (range cfg.totalBuffers) ∧ ¬ s'.held.length + 1 ≤ cfg.totalBuffers := by
  intro s
  have hs : Inv cfg s := inv_run events
  refine ⟨hs.places, fun h => hs.ok _ h, fun wid rest hquiet => ?_⟩
  intro s' hex
  have hstart : ScannedAt cfg (step cfg s (.tryAcquire wid)) s.calls.length := by
    refine ⟨_, getElem?_concat_length, fun q hq hr => absurd ?_ hr⟩
    exact mem_append_right _ (mem_range.mpr (Nat.lt_succ_of_le hq))
  obtain ⟨c, hc, hscan⟩ := hstart.run hquiet
  cases hc.symm.trans hex
  have hs' : Inv cfg s' := by
    have hsplit : s' = run cfg (new cfg) (events ++ .tryAcquire wid :: rest) := by
      simp [s', s, run]
    rw [hsplit]
    exact inv_run _
  have hempty : s'.queues.flatten = [] := by
    refine flatten_eq_nil_iff.mpr fun l hl => ?_
    obtain ⟨q, hq, rfl⟩ := mem_iff_getElem.mp hl
    rw [← getD_eq_getElem _ [] hq]
    exact hscan q (by rw [hs'.queues] at hq; omega)
  have hp := hs'.places
  rw [hempty, nil_append] at hp
  have hl := hp.length_eq
  rw [length_range] at hl
  exact ⟨hp, by omega⟩

/-- Three buffers, taken by two workers and a third thread in turns: a fourth caller finds the pool
exhausted, while a fifth is still scanning. -/
theorem pool_exclusive_interleaved :
    let cfg : TsBufferPoolConfig := ⟨8, 3, 2, 1⟩
    let events : List Event := [.tryAcquire (some 0), .tryAcquire (some 1), .next 1,
      .tryAcquire none, .next 0, .next 2]
    let rest : List Event := [.next 3, .tryAcquire (some 1), .next 3, .next 4, .next 3, .next 3]
    (run cfg (step cfg (run cfg (new cfg) events) (.tryAcquire none)) rest).held.Perm
      (range 3) := by
  intro cfg events rest
  have hvalid : cfg.Valid := by
    unfold TsBufferPoolConfig.Valid
    decide
  have hquiet : Quiet cfg (step cfg (run cfg (new cfg) events) (.tryAcquire none)) rest := by
    refine ⟨?_, ?_, ?_, ?_, ?_, ?_, trivial⟩ <;> decide +kernel
  have hlast : (run cfg (step cfg (run cfg (new cfg) events) (.tryAcquire none)) rest).calls[
      (run cfg (new cfg) events).calls.length]? = some .exhausted := by
    decide +kernel
  exact ((pool_exclusive cfg hvalid events).2.2 none rest hquiet hlast).1

/-- A non-worker finds the global queue and that of worker 0 empty; a buffer is then returned to
worker 0, and worker 1 takes the last buffer ahead of the scan. A buffer is free at every moment,
and holders and callers are never more than the two buffers. -/
theorem scan_misses_returned_buffer :
    let cfg : TsBufferPoolConfig := ⟨8, 2, 2, 1⟩
    let s := run cfg (new cfg) [.tryAcquire (some 0), .next 0, .tryAcquire none]
    let rest : List Event := [.next 1, .next 1, .drop (some 0) 0, .next 2, .tryAcquire (some 1),
      .next 3, .next 1, .next 1]
    (run cfg s rest).calls[1]? = some .exhausted ∧ ∀ k ≤ 8, let s' := run cfg s (rest.take k)
      s'.queues.flatten ≠ [] ∧ s'.held.length + s'.calls.countP Call.waits ≤ 2 := by
  decide

end GossipRs.Scheduler.TsBufferPool
