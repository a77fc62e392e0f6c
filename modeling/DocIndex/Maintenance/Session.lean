import DocIndex.Maintenance.World

/-! # Calls among others

A call makes its requests one after the other, and others act around each of them. A request may fail.
-/

namespace DocIndex

/-- What others do around a request of a call, and how the request fails, if it does. -/
structure Gap where
  before : List Event := []
  failure? : Option StoreError := none
  after : List Event := []

/-- A world with a call under way: what others will do around the requests that it still makes, and the feed
requests that it has made, each with the store that it met and the sequence it asked from. -/
structure Session where
  world : World
  script : List Gap
  fetches : List (Store × Int) := []

namespace Session

variable {α : Type}

def gap (s : Session) : Gap := s.script.headD {}

def asked (s : Session) : World := s.world.run s.gap.before

def left (s : Session) : Session := { s with world := s.asked.run s.gap.after, script := s.script.tail }

def answer (s : Session) (a : α) : Except StoreError α :=
  match s.gap.failure? with
  | some e => .error e
  | none => .ok a

def host (patience : Nat) : Host Session where
  database s := s.world.database
  setDatabase db s := { s with world := { s.world with database := db } }
  currentSequence s := (s.answer s.asked.store.sequence, s.left)
  changesSince since limit s :=
    (s.answer (s.asked.store.changesSince since limit), { s.left with fetches := s.fetches ++ [(s.asked.store, since)] })
  revision? docId revId s := s.answer (s.asked.store.revision? docId revId)
  patience := patience

end Session

end DocIndex
