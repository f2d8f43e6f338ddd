import Mathlib

/-! Computations that return a value, return an error, or abort, and stateful programs over them. An
abort carries no state. An error of a stateful program carries the state the program left behind, so
a rollback is part of the program. Programs are specified by one postcondition for each way they can
end. -/

namespace GossipRs.Lib

/-- Value, error or abort. `π` names abort sites, `ε` is the error type. -/
inductive Outcome (π ε α : Type) where
  | ok (a : α)
  | err (e : ε)
  | panic (p : π)
deriving DecidableEq, Repr

variable {c : Prop}

namespace Outcome

variable {π ε ε' α β : Type}

protected def bind (x : Outcome π ε α) (f : α → Outcome π ε β) : Outcome π ε β :=
  match x with
  | .ok a => f a
  | .err e => .err e
  | .panic p => .panic p

instance : Monad (Outcome π ε) where
  pure := .ok
  bind := Outcome.bind

/-- Convert the error, as the question mark operator does through `From`. -/
def mapErr (f : ε → ε') : Outcome π ε α → Outcome π ε' α
  | .ok a => .ok a
  | .err e => .err (f e)
  | .panic p => .panic p

/-- Convert an accepted error; any other one aborts at site `p`. -/
def convertErr (accepts : ε → Bool) (p : π) (f : ε → ε') : Outcome π ε α → Outcome π ε' α
  | .ok a => .ok a
  | .err e => if accepts e then .err (f e) else .panic p
  | .panic q => .panic q

/-- A computation that cannot fail, at any error type. -/
def widen : Outcome π Empty α → Outcome π ε α
  | .ok a => .ok a
  | .err e => e.elim
  | .panic p => .panic p

def assert (c : Prop) [Decidable c] (p : π) : Outcome π ε Unit :=
  if c then .ok () else .panic p

def ensure (c : Prop) [Decidable c] (e : ε) : Outcome π ε Unit :=
  if c then .ok () else .err e

/-- The value of an option, aborting at site `p` when there is none. -/
def expect (o : Option α) (p : π) : Outcome π ε α :=
  match o with
  | some a => .ok a
  | none => .panic p

/-- The value of an option, returning `e` when there is none. -/
def okOr (o : Option α) (e : ε) : Outcome π ε α :=
  match o with
  | some a => .ok a
  | none => .err e

@[simp] theorem pure_eq (a : α) : (pure a : Outcome π ε α) = .ok a := rfl
@[simp] theorem ok_bind (a : α) (f : α → Outcome π ε β) : (Outcome.ok a >>= f) = f a := rfl
@[simp] theorem err_bind (e : ε) (f : α → Outcome π ε β) : (Outcome.err e >>= f) = .err e := rfl
@[simp] theorem panic_bind (p : π) (f : α → Outcome π ε β) :
    (Outcome.panic p >>= f) = .panic p := rfl

@[simp] theorem mapErr_ok (f : ε → ε') (a : α) :
    (Outcome.ok a : Outcome π ε α).mapErr f = .ok a := rfl
@[simp] theorem mapErr_err (f : ε → ε') (e : ε) :
    (Outcome.err e : Outcome π ε α).mapErr f = .err (f e) := rfl
@[simp] theorem mapErr_panic (f : ε → ε') (p : π) :
    (Outcome.panic p : Outcome π ε α).mapErr f = .panic p := rfl

@[simp] theorem widen_ok (a : α) : (widen (.ok a) : Outcome π ε α) = .ok a := rfl

variable {a : α}

@[simp] theorem widen_eq_ok : (widen x : Outcome π ε α) = .ok a ↔ x = .ok a := by
  cases x with
  | ok b | panic p => simp [widen]
  | err e => exact e.elim

variable {e : ε}

@[simp] theorem widen_ne_err {x : Outcome π Empty α} : x.widen ≠ .err e := by
  cases x with
  | ok a | panic p => simp [widen]
  | err e => exact e.elim

/-- The computation returns a value that passes a test; on closed inputs this evaluates. -/
def okAnd (x : Outcome π ε α) (test : α → Bool) : Bool :=
  match x with
  | .ok a => test a
  | _ => false

variable {x : Outcome π ε α}

theorem exists_of_okAnd (h : x.okAnd test = true) : ∃ a, x = .ok a ∧ test a = true := by
  cases x with
  | ok a => exact ⟨a, rfl, h⟩
  | err e | panic p => cases h

instance : LawfulMonad (Outcome π ε) :=
  LawfulMonad.mk' _ (fun x => by cases x <;> rfl) (fun _ _ => rfl)
    (fun x _ _ => by cases x <;> rfl)

variable {f : α → Outcome π ε β}

theorem bind_eq_ok : (x >>= f) = .ok b ↔ ∃ a, x = .ok a ∧ f a = .ok b := by
  cases x <;> simp

theorem bind_eq_err : (x >>= f) = .err e ↔ x = .err e ∨ ∃ a, x = .ok a ∧ f a = .err e := by
  cases x <;> simp

variable {p : π}

theorem bind_eq_panic : (x >>= f) = .panic p ↔ x = .panic p ∨ ∃ a, x = .ok a ∧ f a = .panic p := by
  cases x <;> simp

theorem check_eq_ok {x} {f : Unit → Outcome π ε β} {b} :
    (x >>= f) = .ok b ↔ x = .ok () ∧ f () = .ok b := by
  cases x <;> simp

@[simp] theorem mapErr_eq_ok {f : ε → ε'} : x.mapErr f = .ok a ↔ x = .ok a := by
  cases x <;> simp

@[simp] theorem convertErr_eq_ok {f : ε → ε'} : x.convertErr accepts p f = .ok a ↔ x = .ok a := by
  cases x with
  | ok b | panic q => simp [convertErr]
  | err e => simp only [convertErr]; split <;> simp

@[simp] theorem assert_eq_ok [Decidable c] : (assert c p : Outcome π ε Unit) = .ok u ↔ c := by
  unfold assert; split <;> simp_all

@[simp] theorem assert_ne_err [Decidable c] : (assert c p : Outcome π ε Unit) ≠ .err e := by
  unfold assert; split <;> simp

@[simp] theorem ensure_eq_ok [Decidable c] : (ensure c e : Outcome π ε Unit) = .ok u ↔ c := by
  unfold ensure; split <;> simp_all

@[simp] theorem ensure_ne_panic [Decidable c] : (ensure c e : Outcome π ε Unit) ≠ .panic p := by
  unfold ensure; split <;> simp

@[simp] theorem expect_eq_ok : (expect o p : Outcome π ε α) = .ok a ↔ o = some a := by
  cases o <;> simp [expect]

@[simp] theorem okOr_some : (okOr (some a) e : Outcome π ε α) = .ok a := rfl

@[simp] theorem okOr_none : (okOr none e : Outcome π ε α) = .err e := rfl

@[simp] theorem okOr_eq_ok : (okOr o e : Outcome π ε α) = .ok a ↔ o = some a := by
  cases o <;> simp [okOr]

@[simp] theorem assert_of_true [Decidable c] (h : c) :
    (assert c p : Outcome π ε Unit) = .ok () := if_pos h

@[simp] theorem ensure_of_true [Decidable c] (h : c) :
    (ensure c e : Outcome π ε Unit) = .ok () := if_pos h

/-! ### Mapping the value -/

@[simp] theorem map_ok (f : α → β) (a : α) : f <$> (Outcome.ok a : Outcome π ε α) = .ok (f a) := rfl
@[simp] theorem map_err (f : α → β) (e : ε) : f <$> (Outcome.err e : Outcome π ε α) = .err e := rfl

theorem bind_congr_ok (h : ∀ a, x = .ok a → f a = g a) : (x >>= f) = (x >>= g) := by
  cases x with
  | ok a => exact h a rfl
  | err e | panic p => rfl

theorem okOr_map (o) (f : α → β) (e : ε) :
    (okOr (o.map f) e : Outcome π ε β) = f <$> okOr o e := by
  cases o <;> rfl

theorem expect_map (o) (f : α → β) (p : π) :
    (expect (o.map f) p : Outcome π ε β) = f <$> expect o p := by
  cases o <;> rfl

theorem mapErr_bind (g : ε → ε') (x) (f : α → Outcome π ε β) :
    (x >>= f).mapErr g = x.mapErr g >>= fun a => (f a).mapErr g := by
  cases x <;> rfl

theorem mapErr_assert (g : ε → ε') (c) [Decidable c] (p : π) :
    (assert c p : Outcome π ε Unit).mapErr g = assert c p := by
  unfold assert
  split <;> rfl

/-! ### Computations without errors -/

def NoErr (x : Outcome π ε α) : Prop := ∀ e, x ≠ .err e

theorem noErr_ok (a : α) : NoErr (Outcome.ok a : Outcome π ε α) := fun e => by simp

theorem noErr_panic (p : π) : NoErr (Outcome.panic p : Outcome π ε α) := fun e => by simp

theorem noErr_assert (c) [Decidable c] (p : π) : NoErr (assert c p : Outcome π ε Unit) :=
  fun _ => assert_ne_err

theorem noErr_widen (x : Outcome π Empty α) : NoErr (x.widen : Outcome π ε α) :=
  fun _ => widen_ne_err

theorem NoErr.bind (hx : NoErr x) (hf : ∀ a, NoErr (f a)) : NoErr (x >>= f) := by
  intro e h
  rcases bind_eq_err.mp h with h | ⟨a, -, h⟩
  · exact hx e h
  · exact hf a e h

theorem NoErr.check [Decidable c] {f : Unit → Outcome π ε α} (hf : ∀ a, NoErr (f a)) :
    NoErr (Outcome.assert c p >>= f) :=
  .bind (noErr_assert c p) hf

/-! ### Computations that do not abort -/

def NoPanic (x : Outcome π ε α) : Prop := ∀ p, x ≠ .panic p

theorem noPanic_ensure (c) [Decidable c] (e : ε) :
    NoPanic (ensure c e : Outcome π ε Unit) := fun _ => ensure_ne_panic

theorem NoPanic.bind (hx : NoPanic x) (hf : ∀ a, x = .ok a → NoPanic (f a)) :
    NoPanic (x >>= f) := by
  intro p h
  rcases bind_eq_panic.mp h with h | ⟨a, ha, h⟩
  · exact hx p h
  · exact hf a ha p h

/-! ### Loops of checks -/

/-- Run `check` on the elements in order; the first failure ends the loop. -/
def each : List α → (α → Outcome π ε Unit) → Outcome π ε Unit
  | [], _ => .ok ()
  | a :: rest, check => check a >>= fun _ => each rest check

/-- Run `check` on the adjacent pairs in order; the first failure ends the loop. -/
def eachPair : List α → (α → α → Outcome π ε Unit) → Outcome π ε Unit
  | a :: b :: rest, check => check a b >>= fun _ => eachPair (b :: rest) check
  | _, _ => .ok ()

theorem each_eq_ok {check : α → Outcome π ε Unit} : ∀ {l},
    each l check = .ok u ↔ ∀ a ∈ l, check a = .ok ()
  | [] => by simp [each]
  | a :: rest => by simp [each, check_eq_ok, each_eq_ok (l := rest)]

theorem eachPair_eq_ok {check : α → α → Outcome π ε Unit} : ∀ {l},
    eachPair l check = .ok u ↔ l.IsChain fun a b => check a b = .ok ()
  | [] => by simp [eachPair]
  | [_] => by simp [eachPair]
  | a :: b :: rest => by simp [eachPair, check_eq_ok, eachPair_eq_ok (l := b :: rest)]

end Outcome

/-! ## Stateful programs -/

/-- A program over state `σ`. Both normal returns and errors hand the state on. -/
def Prog (σ π ε α : Type) : Type := σ → Outcome π (ε × σ) (α × σ)

namespace Prog

variable {σ τ π ε ε' α β : Type}

instance : Monad (Prog σ π ε) where
  pure a := fun s => .ok (a, s)
  bind m f := fun s =>
    match m s with
    | .ok (a, s') => f a s'
    | .err e => .err e
    | .panic p => .panic p

def get : Prog σ π ε σ := fun s => .ok (s, s)

def set (s : σ) : Prog σ π ε Unit := fun _ => .ok ((), s)

def modify (f : σ → σ) : Prog σ π ε Unit := fun s => .ok ((), f s)

def throw (e : ε) : Prog σ π ε α := fun s => .err (e, s)

def lift (x : Outcome π ε α) : Prog σ π ε α := fun s =>
  match x with
  | .ok a => .ok (a, s)
  | .err e => .err (e, s)
  | .panic p => .panic p

def mapErr (f : ε → ε') (m : Prog σ π ε α) : Prog σ π ε' α := fun s =>
  (m s).mapErr fun r => (f r.1, r.2)

/-- Run a program on a component of the state, converting its errors. -/
def zoom (proj : σ → τ) (put : τ → σ → σ) (f : ε → ε') (m : Prog τ π ε α) : Prog σ π ε' α :=
  fun s =>
    match m (proj s) with
    | .ok (a, t) => .ok (a, put t s)
    | .err (e, t) => .err (f e, put t s)
    | .panic p => .panic p

/-- Run `h` with the error when `m` fails, then fail with the error `h` returns. -/
def onErr (m : Prog σ π ε α) (h : ε → Prog σ π ε' ε') : Prog σ π ε' α := fun s =>
  match m s with
  | .ok r => .ok r
  | .panic p => .panic p
  | .err (e, s') =>
    match h e s' with
    | .ok (e', s'') => .err (e', s'')
    | .err r => .err r
    | .panic p => .panic p

@[simp] theorem get_run (s : σ) : (get : Prog σ π ε σ) s = .ok (s, s) := rfl

theorem bind_run (m) (f : α → Prog σ π ε β) (s : σ) :
    (m >>= f) s = (m s >>= fun r => f r.1 r.2) := by
  show (match m s with | .ok (a, s') => f a s' | .err e => .err e | .panic p => .panic p) = _
  cases m s <;> rfl

@[simp] theorem lift_ok (a : α) (s : σ) : (lift (.ok a) : Prog σ π ε α) s = .ok (a, s) := rfl

end Prog

/-! ## Postconditions

One predicate for each way a computation can end. A specification is proved by walking the
program with the rules below; a program that is called is replaced by its own
specification through `wp_mono`. -/

def Outcome.Post {π ε α : Type} (x : Outcome π ε α) (Q : α → Prop) (E : ε → Prop)
    (P : π → Prop) : Prop :=
  match x with
  | .ok a => Q a
  | .err e => E e
  | .panic p => P p

namespace Outcome

variable {π ε ε' α β : Type} {Q : α → Prop} {E : ε → Prop} {P : π → Prop}

@[simp] theorem post_ok : (Outcome.ok a).Post Q E P ↔ Q a := Iff.rfl
@[simp] theorem post_err : (Outcome.err e).Post Q E P ↔ E e := Iff.rfl

theorem post_bind {x} {f : α → Outcome π ε β} {Q} :
    (x >>= f).Post Q E P ↔ x.Post (fun a => (f a).Post Q E P) E P := by
  cases x <;> rfl

theorem Post.mono {x : Outcome π ε α} (h : x.Post Q E P) (hQ : ∀ a, x = .ok a → Q a → Q' a)
    (hE : ∀ e, x = .err e → E e → E' e) (hP : ∀ p, x = .panic p → P p → P' p) :
    x.Post Q' E' P' := by
  cases x with
  | ok a => exact hQ a rfl h
  | err e => exact hE e rfl h
  | panic p => exact hP p rfl h

theorem post_of_eq (x : Outcome π ε α) :
    x.Post (fun a => x = .ok a) (fun e => x = .err e) (fun p => x = .panic p) := by
  cases x <;> rfl

end Outcome

namespace Prog

variable {σ τ π ε ε' α β : Type}

/-- Running `m` from `s` ends in the postcondition of its kind. -/
def wp (m : Prog σ π ε α) (s : σ) (Q : α → σ → Prop) (E : ε → σ → Prop) (P : π → Prop) : Prop :=
  (m s).Post (fun r => Q r.1 r.2) (fun r => E r.1 r.2) P

variable {Q : α → σ → Prop} {E : ε → σ → Prop} {P : π → Prop} {s : σ}

@[simp] theorem wp_pure : wp (pure a) s Q E P ↔ Q a s := Iff.rfl
@[simp] theorem wp_get {Q} : wp get s Q E P ↔ Q s s := Iff.rfl
@[simp] theorem wp_set {Q} : wp (set t) s Q E P ↔ Q () t := Iff.rfl
@[simp] theorem wp_modify {Q} : wp (modify f) s Q E P ↔ Q () (f s) := Iff.rfl
@[simp] theorem wp_throw : wp (throw e : Prog σ π ε α) s Q E P ↔ E e s := Iff.rfl

variable {m : Prog σ π ε α}

@[simp] theorem wp_bind {Q : β → σ → Prop} :
    wp (m >>= f) s Q E P ↔ wp m s (fun a s' => wp (f a) s' Q E P) E P := by
  simp [wp, bind_run, Outcome.post_bind]

@[simp] theorem wp_lift : wp (lift x) s Q E P ↔ x.Post (fun a => Q a s) (fun e => E e s) P := by
  cases x <;> rfl

theorem wp_mono (h : wp m s Q E P) (hQ : ∀ a s', Q a s' → Q' a s') (hE : ∀ e s', E e s' → E' e s')
    (hP : ∀ p, P p → P' p) : wp m s Q' E' P' :=
  Outcome.Post.mono h (fun r _ => hQ r.1 r.2) (fun r _ => hE r.1 r.2) (fun p _ => hP p)

theorem wp_seq {Q' : β → σ → Prop} (h : wp m s Q E P) (hQ : ∀ a s', Q a s' → wp (f a) s' Q' E' P')
    (hE : ∀ e s', E e s' → E' e s') (hP : ∀ p, P p → P' p) : wp (m >>= f) s Q' E' P' :=
  wp_bind.mpr (wp_mono h hQ hE hP)

theorem wp_onErr {m} {h : ε' → Prog σ π ε ε} :
    wp (onErr m h) s Q E P ↔ wp m s Q (fun e s' => wp (h e) s' E E P) P := by
  simp only [wp, onErr]
  cases hm : m s with
  | ok r | panic p => rfl
  | err r =>
    obtain ⟨e, s'⟩ := r
    simp only [Outcome.post_err]
    cases h e s' <;> rfl

theorem wp_zoom {m : Prog τ π ε' α} :
    wp (zoom proj put f m) s Q E P ↔
      wp m (proj s) (fun a t => Q a (put t s)) (fun e t => E (f e) (put t s)) P := by
  simp only [wp, zoom]
  cases m (proj s) <;> rfl

theorem wp_mapErr {m} {f : ε' → ε} :
    wp (mapErr f m) s Q E P ↔ wp m s Q (fun e s' => E (f e) s') P := by
  simp only [wp, mapErr]
  cases m s <;> rfl

theorem wp_ok (h : wp m s Q E P) (hm : m s = .ok (a, s')) : Q a s' := by
  rw [wp, hm] at h
  exact h

theorem wp_err (h : wp m s Q E P) (hm : m s = .err (e, s')) : E e s' := by
  rw [wp, hm] at h
  exact h

end Prog

end GossipRs.Lib
