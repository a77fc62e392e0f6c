import DocIndex.Maintenance.Session

/-! # Visits

A visit is one call of some manager, with what others do around its requests and with the requests that fail. An
attempt is an update among nobody else.
-/

namespace DocIndex

/-- A call of a manager. The settings of a request are a map, so they come in order. -/
inductive Call where
  | reopen (settings : ConnectionSettings) (file : FileState) (key? : Option EncryptionKey)
  | ensure (spec : IndexSpec) (ascending : spec.settings.Ascending)
  | deleteIndex (name : String)
  | updateAll
  | updateIndex (index : String)
  | find (q : Query)

namespace Call

def perform {σ : Type} (m : Manager σ) : Call → Action σ Unit
  | .reopen settings file key? => m.host.transact (Manager.openDatabase settings file key?)
  | .ensure spec _ => do let _ ← m.ensure spec
  | .deleteIndex name => m.deleteIndex name
  | .updateAll => m.updateAll
  | .updateIndex index => do let _ ← m.updateIndex index
  | .find q => do let _ ← m.find q

end Call

/-- A call of a manager with some settings, among others. -/
structure Visit where
  call : Call
  settings : ManagerSettings := {}
  textSearch : Bool := true
  patience : Nat := 0
  script : List Gap := []

namespace Visit

def manager (v : Visit) : Manager Session :=
  { host := Session.host v.patience, settings := v.settings, textSearch := v.textSearch }

def session (v : Visit) (w : World) : Session := { world := w, script := v.script }

def outcome (v : Visit) (w : World) : Except QueryError Unit × Session := v.call.perform v.manager (v.session w)

end Visit

/-- What happens to a world: a call of some manager among others, or an event of its own. -/
inductive Happening where
  | visit (v : Visit)
  | event (e : Event)

/-- Nobody else acts around a request, and it fails or it does not. -/
def Gap.failing (failure? : Option StoreError) : Gap := { failure? }

/-- An update of an index while nobody writes, with a batch size, and with requests that fail: the first, which asks for
the sequence of the store, or one of the others, each of which fetches a page. -/
structure Attempt where
  batchSize : Nat
  failures : List (Option StoreError) := []
  patience : Nat := 0

namespace Attempt

def session (a : Attempt) (w : World) : Session := { world := w, script := a.failures.map Gap.failing }

def outcome (a : Attempt) (index : String) (w : World) : Except QueryError (Option Int) × Session :=
  Update.updateIndex (Session.host a.patience) a.batchSize index (a.session w)

/-- An update of all indexes whose requests fail as those of an attempt. -/
def outcomeAll (a : Attempt) (w : World) : Except QueryError Unit × Session :=
  Update.updateAll (Session.host a.patience) a.batchSize (a.session w)

end Attempt

namespace World

def visited (w : World) (visits : List Visit) : World := visits.foldl (fun w v => (v.outcome w).2.world) w

def happen (w : World) : Happening → World
  | .visit v => (v.outcome w).2.world
  | .event e => w.step e

def happened (w : World) (happenings : List Happening) : World := happenings.foldl happen w

def attempted (w : World) (index : String) (attempts : List Attempt) : World :=
  attempts.foldl (fun w a => (a.outcome index w).2.world) w

end World

end DocIndex
