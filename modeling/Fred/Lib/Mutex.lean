/-
# Fred.Lib.Mutex -- calls that take a non-recursive mutex

The body of a call on an object that has a mutex. Whether the call holds the mutex follows the lexical
scopes of its guards, so a body is told, and passes it on to what it calls. A guard that is reached
while the call holds the mutex waits for the call itself and is never passed: the outcome is
`deadlocked`, whatever comes after it. Other threads hold the mutex for the length of their own calls
only and do not show here.
-/
import Mathlib.Tactic.Common

namespace Fred.Mutex

/-- What becomes of a call. -/
inductive Outcome (ε α : Type) where
  | returned (a : α)
  | threw (e : ε)
  | deadlocked
  deriving DecidableEq, Repr

/-- A piece of a call on an object of type `σ`, told whether the call holds the mutex. -/
def Section (ε σ α : Type) := Bool → σ → Outcome ε (α × σ)

namespace Section

variable {ε σ α β : Type}

/-- A whole call: it starts without the mutex. -/
def run (x : Section ε σ α) (s : σ) : Outcome ε (α × σ) := x false s

def bind (x : Section ε σ α) (f : α → Section ε σ β) : Section ε σ β := fun held s =>
  match x held s with
  | .returned (a, s') => f a held s'
  | .threw e => .threw e
  | .deadlocked => .deadlocked

instance : Monad (Section ε σ) where
  pure a := fun _ s => .returned (a, s)
  bind := bind

def get : Section ε σ σ := fun _ s => .returned (s, s)

/-- A call on a part of the object that needs no guard. -/
def call (f : σ → α × σ) : Section ε σ α := fun _ s => .returned (f s)

def modify (f : σ → σ) : Section ε σ Unit := call fun s => ((), f s)

/-- A part of the call that may throw. -/
def tryCall (f : σ → Except ε (α × σ)) : Section ε σ α := fun _ s =>
  match f s with
  | .ok r => .returned r
  | .error e => .threw e

/-- The scope of a `lock_guard`. -/
def lockGuard (body : Section ε σ α) : Section ε σ α := fun held s =>
  if held then .deadlocked else body true s

@[simp] theorem pure_apply (a : α) (held : Bool) (s : σ) :
    (pure a : Section ε σ α) held s = .returned (a, s) := rfl

@[simp] theorem bind_apply (x : Section ε σ α) (f : α → Section ε σ β) (held : Bool) (s : σ) :
    (x >>= f) held s = match x held s with
      | .returned (a, s') => f a held s'
      | .threw e => .threw e
      | .deadlocked => .deadlocked := rfl

@[simp] theorem get_apply (held : Bool) (s : σ) : (get : Section ε σ σ) held s = .returned (s, s) := rfl

@[simp] theorem call_apply (f : σ → α × σ) (held : Bool) (s : σ) :
    (call f : Section ε σ α) held s = .returned (f s) := rfl

@[simp] theorem modify_apply (f : σ → σ) (held : Bool) (s : σ) :
    (modify f : Section ε σ Unit) held s = .returned ((), f s) := rfl

/-- A guard inside the scope of another is never passed. -/
@[simp] theorem lockGuard_true (body : Section ε σ α) (s : σ) :
    lockGuard body true s = .deadlocked := rfl

@[simp] theorem lockGuard_false (body : Section ε σ α) (s : σ) :
    lockGuard body false s = body true s := rfl

theorem tryCall_apply (f : σ → Except ε (α × σ)) (held : Bool) (s : σ) :
    tryCall f held s = match f s with
      | .ok r => .returned r
      | .error e => .threw e := rfl

/-! ## Runs of calls -/

variable {κ : Type}

/-- The property holds of every call of a run, in the state the call is made in. -/
def AllCalls (calls : κ → Section ε σ Unit) (P : κ → σ → Prop) : List κ → σ → Prop
  | [], _ => True
  | c :: cs, s => P c s ∧ ∀ s', (calls c).run s = .returned ((), s') → AllCalls calls P cs s'

/-- Two properties that agree on every call agree on every run. -/
theorem allCalls_congr {calls : κ → Section ε σ Unit} {P Q : κ → σ → Prop}
    (h : ∀ c s, P c s ↔ Q c s) (cs : List κ) (s : σ) :
    AllCalls calls P cs s ↔ AllCalls calls Q cs s := by
  induction cs generalizing s with
  | nil => exact Iff.rfl
  | cons c cs ih =>
      apply and_congr (h c s)
      exact forall_congr' fun s' => imp_congr_right fun _ => ih s'

end Section

end Fred.Mutex
