import DocIndex.Maintenance.Host

/-! # Keeping indexes up to date

The checkpoint of an index is the sequence it has caught up to. An update notes the current sequence as
its target, then fetches and applies changes page by page, each page in a transaction of its own that
moves the checkpoint along. Changes past the target are left to the next update. If the checkpoint is
found to have been moved by others, the update goes on from there.
-/

namespace DocIndex

/-- Changes to apply together, and the checkpoint they lead to. -/
structure Page where
  changes : List Revision
  checkpoint : Int

namespace Page

/-- The part of fetched changes up to the target. A page that is not full, or that has changes past the
target, is the last one and leads to the target itself. -/
def cut (target : Int) (batchSize : Nat) (fetched : List Revision) : Page :=
  let kept := fetched.filter (·.sequence ≤ target)
  let isLast := fetched.length < batchSize || kept.length < fetched.length
  { changes := kept
    checkpoint := match kept.getLast? with
      | some r => if isLast then target else r.sequence
      | none => target }

end Page

inductive Progress where
  | reached (checkpoint : Int)
  /-- The index is not defined any more. -/
  | vanished
  /-- Others have moved the checkpoint. -/
  | moved (checkpoint : Int)
  deriving DecidableEq, Repr

namespace Update

variable {σ : Type}

def applyPage (h : Host σ) (index : String) (since : Int) (p : Page) : Action σ Progress := fun s =>
  match (h.database s).applyBatch index since p.changes p.checkpoint with
  | .ok (.applied db) => (.ok (.reached p.checkpoint), h.setDatabase db s)
  | .ok .vanished => (.ok .vanished, s)
  | .ok (.moved checkpoint) => (.ok (.moved checkpoint), s)
  | .error e => (.error e, s)

def advance (h : Host σ) (index : String) (batchSize : Nat) (target since : Int) : Action σ Progress := do
  let fetched ← Host.ask (h.changesSince since batchSize)
  applyPage h index since (Page.cut target batchSize fetched)

/-- Apply pages until the target is reached, or until others have interfered. Every page leads at least
one sequence further, so `fuel` pages suffice if the target is that far away. -/
def catchUp (h : Host σ) (index : String) (batchSize : Nat) (target : Int) : Nat → Int → Action σ Progress
  | 0, since => if target ≤ since then pure (.reached since) else throw (.unsettled index)
  | fuel + 1, since =>
    if target ≤ since then pure (.reached since)
    else do
      match ← advance h index batchSize target since with
      | .reached checkpoint => catchUp h index batchSize target fuel checkpoint
      | other => pure other

/-- Catch up from a checkpoint, and again from every checkpoint that others leave behind. -/
def settle (h : Host σ) (index : String) (batchSize : Nat) (target : Int) : Nat → Int → Action σ (Option Int)
  | patience, since => do
    match ← catchUp h index batchSize target (target - since).toNat since with
    | .reached checkpoint => pure (some checkpoint)
    | .vanished => pure none
    | .moved checkpoint =>
      match patience with
      | 0 => throw (.unsettled index)
      | patience + 1 => settle h index batchSize target patience checkpoint

/-- Bring one index up to the current sequence. Gives the checkpoint reached, if the index exists. -/
def updateIndex (h : Host σ) (batchSize : Nat) (index : String) : Action σ (Option Int) := do
  let target ← Host.ask h.currentSequence
  match ← h.look fun db => Database.lift (db.catalog.lastSequence? index) with
  | none => pure none
  | some since => settle h index (max batchSize 1) target h.patience since

def updateEach (h : Host σ) (batchSize : Nat) : List String → Action σ Unit
  | [] => pure ()
  | index :: rest => do
    let _ ← updateIndex h batchSize index
    updateEach h batchSize rest

def updateAll (h : Host σ) (batchSize : Nat) : Action σ Unit := do
  let definitions ← h.look Database.definitions
  updateEach h batchSize (definitions.map (·.name))

end Update

end DocIndex
