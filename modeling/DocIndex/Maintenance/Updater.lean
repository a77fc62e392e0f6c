import DocIndex.Maintenance.Update

/-! # Updaters

An updater notes its target, reads the checkpoint, fetches a page and applies it, and goes on with the next page until
the target is reached. Each of these is a step of its own, because others act in between. Stepped to its end an updater
does what `Update.updateIndex` does, see `Replays.updateIndex`.
-/

namespace DocIndex

inductive Phase where
  | reading (target : Int)
  /-- Fetch a page, unless the target is reached. -/
  | ready (target since : Int)
  | fetched (target since : Int) (page : Page)
  | finished (checkpoint? : Option Int)
  | failed

structure Updater where
  index : String
  batchSize : Nat
  /-- How often it still follows a checkpoint that others have moved. -/
  patience : Nat
  phase : Phase

namespace Updater

/-- What one step of an updater does to itself and to the database. -/
def step (u : Updater) (store : Store) (db : Database) : Updater × Database :=
  match u.phase with
  | .reading target =>
    match db.catalog.lastSequence? u.index with
    | .ok (some since) => ({ u with phase := .ready target since }, db)
    | .ok none => ({ u with phase := .finished none }, db)
    | .error _ => ({ u with phase := .failed }, db)
  | .ready target since =>
    if target ≤ since then ({ u with phase := .finished (some since) }, db)
    else
      let page := Page.cut target (max u.batchSize 1) (store.changesSince since (max u.batchSize 1))
      ({ u with phase := .fetched target since page }, db)
  | .fetched target since page =>
    match db.applyBatch u.index since page.changes page.checkpoint with
    | .ok (.applied next) => ({ u with phase := .ready target page.checkpoint }, next)
    | .ok .vanished => ({ u with phase := .finished none }, db)
    | .ok (.moved checkpoint) =>
      match u.patience with
      | 0 => ({ u with phase := .failed }, db)
      | patience + 1 => ({ u with patience, phase := .ready target checkpoint }, db)
    | .error _ => ({ u with phase := .failed }, db)
  | .finished _ | .failed => (u, db)

/-- The changes that a step commits to the index. -/
def committed (u : Updater) (db : Database) : List Revision :=
  match u.phase with
  | .fetched _ since page =>
    match db.applyBatch u.index since page.changes page.checkpoint with
    | .ok (.applied _) => page.changes
    | _ => []
  | _ => []

end Updater

end DocIndex
