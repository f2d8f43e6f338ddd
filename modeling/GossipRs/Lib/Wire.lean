import GossipRs.Lib.Word

/-! Readers of sequential formats. `Reads` says what a reader accepts in one equivalence, from which
the round trip and the uniqueness of encodings follow; records are read field by field with
`ReadsAs`. -/

namespace GossipRs.Lib

open List

variable {τ E α β γ : Type}

abbrev ReadM (τ E : Type) := StateT (List τ) (Except E)

namespace ReadM

theorem bind_eq_ok {f : α → ReadM τ E β} :
    (x >>= f) input = .ok (b, rest) ↔
      ∃ a middle, x input = .ok (a, middle) ∧ f a middle = .ok (b, rest) := by
  show Except.bind (x input) _ = _ ↔ _
  cases x input with
  | error e => simp [Except.bind]
  | ok p =>
    obtain ⟨a, middle⟩ := p
    simp [Except.bind]

/-- Refuse the input when `c` holds. -/
def reject (c : Prop) [Decidable c] (e : E) : ReadM τ E Unit := if c then throw e else pure ()

theorem reject_eq_ok [Decidable c] :
    (reject c e : ReadM τ E Unit) input = .ok (u, rest) ↔ ¬ c ∧ input = rest := by
  unfold reject
  by_cases hc : c
  · simp only [hc, not_true_eq_false, false_and, iff_false]
    exact nofun
  rw [if_neg hc]
  constructor
  · intro h
    cases h
    exact ⟨hc, rfl⟩
  · rintro ⟨-, rfl⟩
    rfl

def ofExcept (v : Except E α) : ReadM τ E α := fun input => v.map (·, input)

theorem ofExcept_eq_ok :
    (ofExcept v : ReadM τ E α) input = .ok (a, rest) ↔ v = .ok a ∧ input = rest := by
  cases v <;> simp [ofExcept, Except.map]

def exact (len : Nat) (short : List τ → E) : ReadM τ E (List τ) := fun input =>
  if input.length < len then .error (short input) else .ok (input.take len, input.drop len)

def replicate (x : ReadM τ E α) : Nat → ReadM τ E (List α)
  | 0 => pure []
  | n + 1 => do
    let a ← x
    let rest ← replicate x n
    return a :: rest

end ReadM

/-- `read` accepts exactly the inputs that begin with the encoding of an admissible value, and
leaves the rest. -/
structure Reads (read : ReadM τ E α) (put : α → List τ) (ok : α → Prop) : Prop where
  iff : ∀ {input : List τ} {a : α} {rest : List τ},
    read input = .ok (a, rest) ↔ ok a ∧ input = put a ++ rest

/-- `read` finishes a value of which `known` is settled: it accepts exactly the inputs that begin
with the remaining fields of an admissible value that agrees with it. -/
structure ReadsAs (known : γ → Prop) (read : ReadM τ E γ) (put : γ → List τ) (ok : γ → Prop) :
    Prop where
  iff : ∀ {input : List τ} {r : γ} {rest : List τ},
    read input = .ok (r, rest) ↔ known r ∧ ok r ∧ input = put r ++ rest

variable {p : α → List τ} {P : α → Prop}

section Rules

variable {known : γ → Prop} {q : γ → List τ} {Q : γ → Prop}

theorem ReadsAs.reads {read : ReadM τ E γ} (h : ReadsAs (fun _ => True) read q Q) :
    Reads read q Q := by
  refine ⟨fun {input a rest} => ?_⟩
  rw [h.iff, true_and]

variable {x : ReadM τ E α}

theorem ReadsAs.field (get : γ → α) (hx : Reads x p P)
    (hf : ∀ a, ReadsAs (fun r => known r ∧ get r = a) (f a) q Q) :
    ReadsAs known (x >>= f) (fun r => p (get r) ++ q r) (fun r => P (get r) ∧ Q r) := by
  refine ⟨fun {input r rest} => ?_⟩
  rw [ReadM.bind_eq_ok]
  constructor
  · rintro ⟨a, _, hr, hre⟩
    obtain ⟨hP, rfl⟩ := hx.iff.mp hr
    obtain ⟨⟨hk, rfl⟩, hQ, rfl⟩ := (hf a).iff.mp hre
    exact ⟨hk, ⟨hP, hQ⟩, (append_assoc _ _ _).symm⟩
  rintro ⟨hk, ⟨hP, hQ⟩, rfl⟩
  refine ⟨get r, q r ++ rest, hx.iff.mpr ⟨hP, append_assoc _ _ _⟩, ?_⟩
  exact (hf (get r)).iff.mpr ⟨⟨hk, rfl⟩, hQ, rfl⟩

variable {f : Unit → ReadM τ E γ}

theorem ReadsAs.guard [Decidable c] {P : γ → Prop} (hc : ∀ r, known r → (P r ↔ ¬ c))
    (hf : ¬ c → ReadsAs known (f ()) q Q) :
    ReadsAs known (ReadM.reject c e >>= f) q (fun r => P r ∧ Q r) := by
  refine ⟨fun {input r rest} => ?_⟩
  rw [ReadM.bind_eq_ok]
  constructor
  · rintro ⟨_, _, hch, hr⟩
    obtain ⟨hn, rfl⟩ := ReadM.reject_eq_ok.mp hch
    obtain ⟨hk, hQ, rfl⟩ := (hf hn).iff.mp hr
    exact ⟨hk, ⟨(hc r hk).mpr hn, hQ⟩, rfl⟩
  rintro ⟨hk, ⟨hP, hQ⟩, rfl⟩
  have hn := (hc r hk).mp hP
  refine ⟨(), _, ReadM.reject_eq_ok.mpr ⟨hn, rfl⟩, ?_⟩
  exact (hf hn).iff.mpr ⟨hk, hQ, rfl⟩

theorem ReadsAs.check [Decidable c] {P : γ → Prop} (hc : ∀ r, known r → (P r ↔ ¬ c))
    (hf : ReadsAs known (f ()) q Q) :
    ReadsAs known (ReadM.reject c e >>= f) q (fun r => P r ∧ Q r) :=
  ReadsAs.guard hc fun _ => hf

theorem ReadsAs.done (h : ∀ r, known r ↔ r = r0) :
    ReadsAs known (pure r0 : ReadM τ E γ) (fun _ => []) (fun _ => True) := by
  refine ⟨fun {input r rest} => ?_⟩
  rw [h]
  constructor
  · intro he
    cases he
    exact ⟨rfl, trivial, rfl⟩
  · rintro ⟨rfl, -, rfl⟩
    rfl

theorem ReadsAs.checked {v : γ → Except E Unit} {P : γ → Prop} (h : ∀ r, known r ↔ r = r0)
    (hv : ∀ {r}, v r = .ok () ↔ P r) :
    ReadsAs known (ReadM.ofExcept (v r0) >>= fun _ => (pure r0 : ReadM τ E γ)) (fun _ => []) P := by
  refine ⟨fun {input r rest} => ?_⟩
  rw [ReadM.bind_eq_ok, h]
  constructor
  · intro ⟨_, middle, hc, he⟩
    obtain ⟨ho, rfl⟩ := ReadM.ofExcept_eq_ok.mp hc
    cases he
    exact ⟨rfl, hv.mp ho, rfl⟩
  · rintro ⟨rfl, hP, rfl⟩
    exact ⟨(), _, ReadM.ofExcept_eq_ok.mpr ⟨hv.mpr hP, rfl⟩, rfl⟩

theorem Reads.congr {read : ReadM τ E γ} (h : Reads read q Q) (hQ : ∀ r, Q r ↔ Q' r)
    (hq : ∀ r, Q' r → q r = q' r) : Reads read q' Q' := by
  refine ⟨fun {input r rest} => ?_⟩
  rw [h.iff, hQ]
  constructor
  · rintro ⟨ho, rfl⟩
    exact ⟨ho, by rw [hq r ho]⟩
  · rintro ⟨ho, rfl⟩
    exact ⟨ho, by rw [hq r ho]⟩

theorem Reads.exact (len) (short : List τ → E) :
    Reads (ReadM.exact len short) (fun data => data) (fun data => data.length = len) := by
  refine ⟨fun {input data rest} => ?_⟩
  unfold ReadM.exact
  by_cases hs : input.length < len
  · rw [if_pos hs]
    constructor
    · intro h
      cases h
    rintro ⟨hl, rfl⟩
    rw [length_append] at hs
    omega
  rw [if_neg hs]
  constructor
  · intro h
    cases h
    exact ⟨length_take_of_le (by omega), (take_append_drop len input).symm⟩
  · rintro ⟨hl, rfl⟩
    rw [take_left' hl, drop_left' hl]

theorem Reads.parse (hx : Reads x p P) {f : α → Except E β} (g : β → α) {R : β → Prop}
    (hf : ∀ a b, P a → (f a = .ok b ↔ R b ∧ g b = a)) :
    Reads (x >>= fun a => ReadM.ofExcept (f a)) (fun b => p (g b)) (fun b => P (g b) ∧ R b) := by
  refine ⟨fun {input b rest} => ?_⟩
  rw [ReadM.bind_eq_ok]
  constructor
  · rintro ⟨a, _, hr, hp⟩
    obtain ⟨hP, rfl⟩ := hx.iff.mp hr
    obtain ⟨ho, rfl⟩ := ReadM.ofExcept_eq_ok.mp hp
    obtain ⟨hR, rfl⟩ := (hf a b hP).mp ho
    exact ⟨⟨hP, hR⟩, rfl⟩
  rintro ⟨⟨hP, hR⟩, rfl⟩
  refine ⟨g b, rest, hx.iff.mpr ⟨hP, rfl⟩, ReadM.ofExcept_eq_ok.mpr ⟨?_, rfl⟩⟩
  exact (hf (g b) b hP).mpr ⟨hR, rfl⟩

theorem Reads.iso (hx : Reads x p P) (f : α → β) (g : β → α) (hP : ∀ b, P (g b))
    (hf : ∀ b, f (g b) = b) (hg : ∀ a, P a → g (f a) = a) :
    Reads (x >>= fun a => pure (f a)) (fun b => p (g b)) (fun _ => True) := by
  refine ⟨fun {input b rest} => ?_⟩
  rw [ReadM.bind_eq_ok]
  constructor
  · rintro ⟨a, _, hr, hp⟩
    cases hp
    obtain ⟨ha, rfl⟩ := hx.iff.mp hr
    exact ⟨trivial, by rw [hg a ha]⟩
  rintro ⟨-, rfl⟩
  refine ⟨g b, rest, hx.iff.mpr ⟨hP b, rfl⟩, ?_⟩
  rw [hf]
  rfl

theorem Reads.readsAs {x : ReadM τ E γ} (hx : Reads x q Q) (hk : ∀ r, known r) :
    ReadsAs known x q Q := by
  refine ⟨fun {input r rest} => ?_⟩
  rw [hx.iff, and_iff_right (hk r)]

theorem ReadsAs.only (h : ∀ r, known r ∧ Q r ↔ r = r0) (hq : q r0 = []) :
    ReadsAs known (pure r0 : ReadM τ E γ) q Q := by
  refine ⟨fun {input r rest} => ?_⟩
  rw [← and_assoc, h]
  constructor
  · intro he
    cases he
    exact ⟨rfl, by rw [hq]; rfl⟩
  rintro ⟨rfl, rfl⟩
  rw [hq]
  rfl

theorem ReadsAs.inject (hx : Reads x p P) (mk : α → γ)
    (hm : ∀ r, known r ∧ Q r ↔ ∃ a, P a ∧ mk a = r) (hq : ∀ a, q (mk a) = p a) :
    ReadsAs known (x >>= fun a => pure (mk a)) q Q := by
  refine ⟨fun {input r rest} => ?_⟩
  rw [ReadM.bind_eq_ok, ← and_assoc, hm]
  constructor
  · rintro ⟨a, _, hr, hp⟩
    cases hp
    obtain ⟨hP, rfl⟩ := hx.iff.mp hr
    exact ⟨⟨a, hP, rfl⟩, by rw [hq]⟩
  · rintro ⟨⟨a, hP, rfl⟩, rfl⟩
    exact ⟨a, rest, hx.iff.mpr ⟨hP, by rw [hq]⟩, rfl⟩

theorem ReadsAs.refuse (hk : ∀ r, ¬ known r) : ReadsAs known (throw e : ReadM τ E γ) q Q := by
  refine ⟨fun {input r rest} => ?_⟩
  constructor
  · intro h
    cases h
  · rintro ⟨hr, -⟩
    exact absurd hr (hk r)

theorem Reads.replicate (hx : Reads x p P) (n : Nat) :
    Reads (ReadM.replicate x n) (fun l => l.flatMap p) (fun l => l.length = n ∧ ∀ a ∈ l, P a) := by
  refine ⟨fun {input l rest} => ?_⟩
  induction n generalizing input l with
  | zero =>
    constructor
    · intro h
      cases h
      exact ⟨⟨rfl, by simp⟩, rfl⟩
    rintro ⟨⟨hl, -⟩, rfl⟩
    cases length_eq_zero_iff.mp hl
    rfl
  | succ n ih =>
    unfold ReadM.replicate
    rw [ReadM.bind_eq_ok]
    simp only [ReadM.bind_eq_ok]
    constructor
    · rintro ⟨a, _, ha, tail, _, ht, he⟩
      cases he
      obtain ⟨hP, rfl⟩ := hx.iff.mp ha
      obtain ⟨⟨hl, hal⟩, rfl⟩ := ih.mp ht
      refine ⟨⟨congrArg Nat.succ hl, ?_⟩, by rw [flatMap_cons, append_assoc]⟩
      exact forall_mem_cons.mpr ⟨hP, hal⟩
    rintro ⟨⟨hl, hal⟩, rfl⟩
    cases l with
    | nil => cases hl
    | cons a tail =>
      obtain ⟨hP, hal⟩ := forall_mem_cons.mp hal
      refine ⟨a, tail.flatMap p ++ rest, hx.iff.mpr ⟨hP, ?_⟩, tail, rest,
        ih.mpr ⟨⟨?_, hal⟩, rfl⟩, rfl⟩
      · rw [flatMap_cons, append_assoc]
      · exact Nat.succ.inj hl

end Rules

/-! ## Little-endian words -/

theorem leBytes_ofLeBytes : ∀ bytes, leBytes bytes.length (ofLeBytes bytes) = bytes
  | [] => rfl
  | b :: rest => by
    have hm : (b.toNat + 256 * ofLeBytes rest) / 256 = ofLeBytes rest := by
      have := b.toNat_lt
      omega
    have hb : UInt8.ofNat (b.toNat + 256 * ofLeBytes rest) = b := by
      apply UInt8.toNat_inj.mp
      have := b.toNat_lt
      rw [UInt8.toNat_ofNat']
      omega
    rw [length_cons, ofLeBytes, leBytes, hm, hb, leBytes_ofLeBytes rest]

theorem ofLeBytes_lt : ∀ bytes, ofLeBytes bytes < 256 ^ bytes.length
  | [] => by simp [ofLeBytes]
  | b :: rest => by
    have hb := b.toNat_lt
    have ih := ofLeBytes_lt rest
    rw [ofLeBytes, length_cons, Nat.pow_succ]
    omega

/-! ## Big-endian words -/

def beBytes (width n : Nat) : Bytes := (leBytes width n).reverse

def ofBeBytes (bytes : Bytes) : Nat := ofLeBytes bytes.reverse

@[simp] theorem length_beBytes (width n) : (beBytes width n).length = width := by
  rw [beBytes, length_reverse, length_leBytes]

theorem ofBeBytes_beBytes (h : n < 256 ^ width) : ofBeBytes (beBytes width n) = n := by
  rw [ofBeBytes, beBytes, reverse_reverse, ofLeBytes_leBytes h]

theorem beBytes_ofBeBytes (bytes) : beBytes bytes.length (ofBeBytes bytes) = bytes := by
  have h := leBytes_ofLeBytes bytes.reverse
  rw [length_reverse] at h
  rw [beBytes, ofBeBytes, h, reverse_reverse]

theorem ofBeBytes_lt (bytes) : ofBeBytes bytes < 256 ^ bytes.length := by
  have h := ofLeBytes_lt bytes.reverse
  rwa [length_reverse] at h

end GossipRs.Lib
