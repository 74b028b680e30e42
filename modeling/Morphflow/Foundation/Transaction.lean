import Mathlib

/-!
# Transactions that may raise

A transaction runs a body on the committed store. The body raises, rolls back, or proposes a value
and a new store to commit. The environment decides the fate of the transaction: it goes through, a
statement or the commit raises without effect, or the commit takes effect and the call raises all
the same. `TxFate.conclude` is how the caller goes on and what is committed.

## Main results

* `TxFate.conclude_cases`: the caller sees one of four things.
-/

/-- What the environment does to a transaction. -/
inductive TxFate
  /-- Every statement and the commit return. -/
  | commits
  /-- A statement or the commit raises and nothing is committed. -/
  | raisesBefore (error : String)
  /-- The commit takes effect, and the caller sees an exception. -/
  | raisesAfter (error : String)

namespace TxFate

variable {D α φ : Type*}

/-- A commit that is reached takes effect. -/
def takesEffect : TxFate → Bool
  | .raisesBefore _ => false
  | _ => true

/-- The call returns. -/
def succeeds : TxFate → Bool
  | .commits => true
  | _ => false

/-- The continuation of the caller and the committed store after a transaction with the given
body. -/
def conclude (fate : TxFate) (db : D) (body : Except String (Option (α × D))) (onRollback : φ)
    (onCommit : α → φ) (onRaise : String → φ) : φ × D :=
  match fate, body with
  | .raisesBefore e, _ => (onRaise e, db)
  | _, .error e => (onRaise e, db)
  | .commits, .ok none => (onRollback, db)
  | .raisesAfter e, .ok none => (onRaise e, db)
  | .commits, .ok (some (a, db')) => (onCommit a, db')
  | .raisesAfter e, .ok (some (_, db')) => (onRaise e, db')

/-- The continuation of a call that only reads. -/
def read (fate : TxFate) (value : φ) (onRaise : String → φ) : φ :=
  match fate with
  | .commits => value
  | .raisesBefore e => onRaise e
  | .raisesAfter e => onRaise e

/-- A body that raises, under any fate. -/
theorem conclude_error (fate : TxFate) (db : D) (error : String) (onRollback : φ)
    (onCommit : α → φ) (onRaise : String → φ) : ∃ e,
      fate.conclude db (.error error : Except String (Option (α × D))) onRollback onCommit
        onRaise = (onRaise e, db) := by
  cases fate with
  | commits => exact ⟨error, rfl⟩
  | raisesBefore e => exact ⟨e, rfl⟩
  | raisesAfter e => exact ⟨error, rfl⟩

/-- A commit that is reached leaves the proposed store. -/
theorem conclude_of_takesEffect {fate : TxFate} (db : D) {db' : D}
    {body : Except String (Option (α × D))} {a : α} (hf : fate.takesEffect = true)
    (hb : body = .ok (some (a, db'))) (onRollback : φ) (onCommit : α → φ) (onRaise : String → φ) :
    ∃ x, fate.conclude db body onRollback onCommit onRaise = (x, db') := by
  cases fate with
  | commits => exact ⟨_, by rw [hb]; rfl⟩
  | raisesBefore e => cases hf
  | raisesAfter e => exact ⟨_, by rw [hb]; rfl⟩

/-- After a transaction the caller handles an exception with the store as it was, or it rolled
back, or the proposed store is committed and the caller goes on or handles an exception. -/
theorem conclude_cases (fate : TxFate) (db : D) (body : Except String (Option (α × D)))
    (onRollback : φ) (onCommit : α → φ) (onRaise : String → φ) :
    (∃ e, fate.conclude db body onRollback onCommit onRaise = (onRaise e, db)) ∨
    (body = .ok none ∧ fate.conclude db body onRollback onCommit onRaise = (onRollback, db)) ∨
    (∃ a db', body = .ok (some (a, db')) ∧
      ((fate = .commits ∧
          fate.conclude db body onRollback onCommit onRaise = (onCommit a, db')) ∨
        ∃ e, fate = .raisesAfter e ∧
          fate.conclude db body onRollback onCommit onRaise = (onRaise e, db'))) := by
  rcases body with e | _ | ⟨a, db'⟩
  · exact .inl (by cases fate <;> exact ⟨_, rfl⟩)
  · cases fate with
    | commits => exact .inr (.inl ⟨rfl, rfl⟩)
    | raisesBefore e => exact .inl ⟨e, rfl⟩
    | raisesAfter e => exact .inl ⟨e, rfl⟩
  · cases fate with
    | commits => exact .inr (.inr ⟨a, db', rfl, .inl ⟨rfl, rfl⟩⟩)
    | raisesBefore e => exact .inl ⟨e, rfl⟩
    | raisesAfter e => exact .inr (.inr ⟨a, db', rfl, .inr ⟨e, rfl, rfl⟩⟩)

/-- A transaction on the image of a store has the image of the effect. -/
theorem conclude_map {E : Type*} (fate : TxFate) (f : D → E) (db : D)
    (body : Except String (Option (α × D))) (onRollback : φ) (onCommit : α → φ)
    (onRaise : String → φ) :
    fate.conclude (f db) (body.map (Option.map (Prod.map id f))) onRollback onCommit onRaise =
      Prod.map id f (fate.conclude db body onRollback onCommit onRaise) := by
  cases fate <;> rcases body with e | _ | ⟨a, db'⟩ <;> rfl

end TxFate
