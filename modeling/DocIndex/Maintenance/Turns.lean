import DocIndex.Maintenance.Update
import Mathlib.Logic.Function.Iterate

/-! # The turns of an update

An update takes one turn after the other until it ends: it asks for changes, and applies them if the checkpoint still
is where they start; if others have moved the checkpoint, it goes on from there.
-/

namespace DocIndex

namespace Update

inductive Stage where
  | starting
  | underway (target since : Int)
  | ended (outcome : Except QueryError (Option Int))

namespace Stage

def isEnded : Stage → Bool
  | .ended _ => true
  | _ => false

def first (target : Int) : Option Int → Stage
  | none => .ended (.ok none)
  | some since => .underway target since

def next (target : Int) : Progress → Stage
  | .reached checkpoint => .underway target checkpoint
  | .vanished => .ended (.ok none)
  | .moved checkpoint => .underway target checkpoint

end Stage

variable {σ : Type} (h : Host σ) (index : String) (batchSize : Nat)

def begin : Action σ Stage := do
  let target ← Host.ask h.currentSequence
  return .first target (← h.look fun db => Database.lift (db.catalog.lastSequence? index))

def goOn (target since : Int) : Action σ Stage :=
  if target ≤ since then return .ended (.ok (some since))
  else return .next target (← advance h index (max batchSize 1) target since)

def conclude (x : Except QueryError Stage × σ) : Stage × σ :=
  (match x.1 with
    | .ok stage => stage
    | .error e => .ended (.error e), x.2)

def turn : Stage × σ → Stage × σ
  | (.starting, s) => conclude (begin h index s)
  | (.underway target since, s) => conclude (goOn h index batchSize target since s)
  | (.ended outcome, s) => (.ended outcome, s)

def turns (n : Nat) (s : σ) : Stage × σ := (turn h index batchSize)^[n] (.starting, s)

end Update

end DocIndex
