import DocIndex.Maintenance.Turns
import DocIndex.Proofs.Database.Checkpoint
import DocIndex.Proofs.Maintenance.Page
import DocIndex.Proofs.Maintenance.Visits
import Mathlib.Data.Set.Finite.Lattice

/-! # The turns of an update

An update takes one turn after the other until it ends: it asks for changes, and applies them if the checkpoint still
is where they start; if others have moved the checkpoint, it goes on from there. Each batch leads nearer to the target.
Others may lead away from it, as far and as often as they like, but once they leave the index alone the update ends.
-/

namespace DocIndex

theorem Page.cut_checkpoint_bounds {target since : Int} {batchSize : Nat} {fetched : List Revision}
    (hpos : 0 < batchSize) (hlt : since < target) (hlater : ∀ r ∈ fetched, since < r.sequence) :
    since < (cut target batchSize fetched).checkpoint ∧ (cut target batchSize fetched).checkpoint ≤ target := by
  rcases cut_checkpoint target hpos fetched with ⟨h, _⟩ | ⟨hall, last, hlast, h⟩
  · rw [h]
    exact ⟨hlt, Int.le_refl _⟩
  · have hmem : last ∈ fetched := List.mem_of_getLast? hlast
    rw [h]
    exact ⟨hlater last hmem, (mem_cut_changes.mp (hall ▸ hmem)).2⟩

/-- The checkpoint of the index, as it is read before the first batch or as a batch reads it. -/
def Database.Shows (db : Database) (index : String) (checkpoint : Int) : Prop :=
  db.catalog.lastSequence? index = .ok (some checkpoint) ∨ db.checkpoint? index = some checkpoint

/-- A host whose database is the one that was put in place, and whose changes are all later than the sequence they were
asked from. Neither their order nor their number matters here. -/
structure Host.Reports {σ : Type} (h : Host σ) (p : σ → Prop) : Prop extends h.Preserves p where
  stored : ∀ db s, h.database (h.setDatabase db s) = db
  later : ∀ since limit s page, p s → (h.changesSince since limit s).1 = .ok page → ∀ r ∈ page, since < r.sequence

namespace Update

section

variable {σ : Type} (h : Host σ) (index : String) (batchSize : Nat)

/-- While the update asks for changes, others move the checkpoint of its index, up or down, or delete the index. -/
def Disturbed : Stage × σ → Prop
  | (.underway target since, s) => since < target ∧
      (h.database (h.changesSince since (max batchSize 1) s).2).checkpoint? index ≠ (h.database s).checkpoint? index
  | _ => False

instance (x : Stage × σ) : Decidable (Disturbed h index batchSize x) :=
  match x with
  | (.starting, _) => inferInstanceAs (Decidable False)
  | (.underway _ _, _) => inferInstanceAs (Decidable (_ ∧ _))
  | (.ended _, _) => inferInstanceAs (Decidable False)

/-- An update that begins in this state ends, and a manager that is patient enough sees it end. Every batch that it
applies raises the checkpoint, and not past the target. -/
structure Ends (s : σ) : Prop where
  stops : ∃ n outcome t, turns h index batchSize n s = (.ended outcome, t) ∧
    (∀ patience, n ≤ patience → updateIndex { h with patience } batchSize index s = (outcome, t)) ∧
    ∀ c, outcome = .ok (some c) →
      ∃ target, (h.currentSequence s).1 = .ok target ∧ target ≤ c ∧ (h.database t).Shows index c
  raises : ∀ n target since u c v, turns h index batchSize n s = (.underway target since, u) → since < target →
    advance h index (max batchSize 1) target since u = (.ok (.reached c), v) →
    (h.currentSequence s).1 = .ok target ∧ since < c ∧ c ≤ target ∧
      (h.database (h.changesSince since (max batchSize 1) u).2).checkpoint? index = some since ∧
      (h.database v).catalog.lastSequence? index = .ok (some c)

/-- What asking for changes and applying them comes to. -/
inductive Advanced (target since : Int) (limit : Nat) (s : σ) : Except QueryError Progress × σ → Prop where
  | applied {c : Int} {v : σ} (hlt : since < c) (hle : c ≤ target)
      (hfound : (h.database (h.changesSince since limit s).2).checkpoint? index = some since)
      (hleft : (h.database v).catalog.lastSequence? index = .ok (some c))
      (hknown : ∀ found, (h.database v).checkpoint? index = some found → found = c) :
      Advanced target since limit s (.ok (.reached c), v)
  | moved {c : Int} (hfound : (h.database (h.changesSince since limit s).2).checkpoint? index = some c)
      (hne : c ≠ since) : Advanced target since limit s (.ok (.moved c), (h.changesSince since limit s).2)
  | vanished {v : σ} : Advanced target since limit s (.ok .vanished, v)
  | failed {e : QueryError} {v : σ} : Advanced target since limit s (.error e, v)

end

variable {σ : Type} {h : Host σ} {p : σ → Prop} {index : String} {batchSize limit : Nat} {target since : Int} {s : σ}

open DocIndex.Action

/-! ## One turn -/

variable (index) in
theorem advanced_advance (hh : h.Reports p) (hpos : 0 < limit) (hlt : since < target) (hs : p s) :
    Advanced h index target since limit s (advance h index limit target since s) := by
  unfold advance
  rw [bind_apply]
  unfold Host.ask
  cases hrequest : (h.changesSince since limit s).1 with
  | error e =>
    have hpair : h.changesSince since limit s = (.error e, (h.changesSince since limit s).2) := Prod.ext hrequest rfl
    rw [hpair]
    exact .failed
  | ok fetched =>
    have hpair : h.changesSince since limit s = (.ok fetched, (h.changesSince since limit s).2) :=
      Prod.ext hrequest rfl
    obtain ⟨hraised, hle⟩ := Page.cut_checkpoint_bounds hpos hlt (hh.later since limit s fetched hs hrequest)
    rw [hpair]
    dsimp only
    unfold applyPage
    cases hbatch : (h.database (h.changesSince since limit s).2).applyBatch index since
        (Page.cut target limit fetched).changes (Page.cut target limit fetched).checkpoint with
    | error e => exact .failed
    | ok outcome =>
      rcases Database.applyBatch_cases hbatch with ⟨rfl, _⟩ | ⟨found, rfl, hfound, hne⟩ |
        ⟨next, rfl, hfound, hleft, hknown⟩
      · exact .vanished
      · exact .moved hfound hne
      · exact .applied hraised hle hfound (by rwa [hh.stored]) (by rwa [hh.stored])

theorem turn_underway_of_le (hle : target ≤ since) :
    turn h index batchSize (.underway target since, s) = (.ended (.ok (some since)), s) := by
  rw [turn, goOn, if_pos hle]
  rfl

theorem turn_underway_of_lt (hlt : since < target) : turn h index batchSize (.underway target since, s) =
    conclude ((advance h index (max batchSize 1) target since s).1.map (.next target),
      (advance h index (max batchSize 1) target since s).2) := by
  rw [turn, goOn, if_neg (Int.not_le.mpr hlt), bind_apply]
  rcases advance h index (max batchSize 1) target since s with ⟨e | progress, v⟩ <;> rfl

theorem turn_starting : turn h index batchSize (.starting, s) =
    conclude ((h.currentSequence s).1.mapError .store >>= fun target =>
      (Database.lift ((h.database (h.currentSequence s).2).catalog.lastSequence? index)).map (.first target),
      (h.currentSequence s).2) := by
  rw [turn, begin, bind_apply, Host.ask]
  rcases h.currentSequence s with ⟨e | target, t⟩
  · rfl
  · dsimp only
    rw [bind_apply, Host.look]
    cases hread : Database.lift ((h.database t).catalog.lastSequence? index) <;>
      simp only [Except.mapError, bind, Except.bind] <;> rfl

theorem advance_keeps (hp : h.Preserves p) (hs : p s) : p (advance h index limit target since s).2 := by
  have hkeeps : (advance h index limit target since).Keeps p :=
    Keeps.bind (keeps_ask (hp.changesSince since limit)) fun _ => hp.guards.applyPage index since _
  exact After.outcome (p := fun _ t => p t) (hkeeps s hs)

variable (index batchSize) in
theorem turn_underway_cases (hh : h.Reports p) (hs : p s) (target since : Int) :
    (target ≤ since ∧ turn h index batchSize (.underway target since, s) = (.ended (.ok (some since)), s)) ∨
    since < target ∧ ∃ result v, advance h index (max batchSize 1) target since s = (result, v) ∧
      Advanced h index target since (max batchSize 1) s (result, v) ∧ p v ∧
      turn h index batchSize (.underway target since, s) = conclude (result.map (.next target), v) := by
  by_cases hle : target ≤ since
  · exact Or.inl ⟨hle, turn_underway_of_le hle⟩
  · have hlt := Int.not_le.mp hle
    refine Or.inr ⟨hlt, _, _, rfl, ?_, advance_keeps hh.toPreserves hs, turn_underway_of_lt hlt⟩
    exact advanced_advance index hh (Nat.le_max_right batchSize 1) hlt hs

theorem turn_ne_starting (x : Stage × σ) : (turn h index batchSize x).1 ≠ .starting := by
  obtain ⟨stage, s⟩ := x
  cases stage with
  | starting =>
    rw [turn_starting]
    rcases (h.currentSequence s).1 with e | target
    · exact nofun
    · rcases Database.lift ((h.database (h.currentSequence s).2).catalog.lastSequence? index) with e | since?
      · exact nofun
      · cases since? <;> exact nofun
  | underway target since =>
    by_cases hle : target ≤ since
    · rw [turn_underway_of_le hle]
      exact nofun
    · rw [turn_underway_of_lt (Int.not_le.mp hle)]
      rcases (advance h index (max batchSize 1) target since s).1 with e | progress
      · exact nofun
      · cases progress <;> exact nofun
  | ended outcome => exact nofun

theorem iterate_turn_ended (n : Nat) (outcome : Except QueryError (Option Int)) (t : σ) :
    (turn h index batchSize)^[n] (.ended outcome, t) = (.ended outcome, t) := Function.iterate_fixed rfl n

theorem eq_of_iterate_ended {n : Nat} {outcome result : Except QueryError (Option Int)} {t u : σ}
    (hend : (turn h index batchSize)^[n] (.ended result, u) = (.ended outcome, t)) : (result, u) = (outcome, t) := by
  rw [iterate_turn_ended] at hend
  cases hend
  rfl

theorem turn_keeps (hp : h.Preserves p) {x : Stage × σ} (hx : p x.2) : p (turn h index batchSize x).2 := by
  obtain ⟨stage, s⟩ := x
  cases stage with
  | starting =>
    rw [turn_starting]
    exact hp.currentSequence s hx
  | underway target since =>
    by_cases hle : target ≤ since
    · rw [turn_underway_of_le hle]
      exact hx
    · rw [turn_underway_of_lt (Int.not_le.mp hle)]
      exact advance_keeps hp hx
  | ended outcome => exact hx

/-! ## What a turn leaves -/

/-- What holds of an update that began in a state: it is under way to the target that it read then, from a checkpoint
that the database shows, and ends with one at the target or past it. -/
def Stands (h : Host σ) (index : String) (first : σ) : Stage × σ → Prop
  | (.starting, s) => s = first
  | (.underway target since, s) => (h.currentSequence first).1 = .ok target ∧ (h.database s).Shows index since
  | (.ended outcome, s) => ∀ c, outcome = .ok (some c) →
      ∃ target, (h.currentSequence first).1 = .ok target ∧ target ≤ c ∧ (h.database s).Shows index c

theorem stands_turn (hh : h.Reports p) {first : σ} {x : Stage × σ} (hp : p x.2) (hx : Stands h index first x) :
    Stands h index first (turn h index batchSize x) := by
  obtain ⟨stage, s⟩ := x
  cases stage with
  | starting =>
    obtain rfl : s = first := hx
    rw [turn_starting]
    cases hrequest : (h.currentSequence s).1 with
    | error e => exact nofun
    | ok target =>
      cases hread : (h.database (h.currentSequence s).2).catalog.lastSequence? index with
      | error e => exact nofun
      | ok since? =>
        cases since? with
        | none => exact nofun
        | some since => exact ⟨hrequest, Or.inl hread⟩
  | underway target since =>
    obtain ⟨htarget, hshows⟩ := hx
    rcases turn_underway_cases index batchSize hh hp target since with ⟨hle, hturn⟩ | ⟨_, _, _, _, hadvanced, _, hturn⟩
    · rw [hturn]
      rintro c ⟨⟩
      exact ⟨target, htarget, hle, hshows⟩
    · rw [hturn]
      cases hadvanced with
      | applied _ _ _ hleft => exact ⟨htarget, Or.inl hleft⟩
      | moved hfound => exact ⟨htarget, Or.inr hfound⟩
      | vanished => exact nofun
      | failed => exact nofun
  | ended outcome => exact hx

theorem turns_succ (n : Nat) (s : σ) :
    turns h index batchSize (n + 1) s = turn h index batchSize (turns h index batchSize n s) :=
  Function.iterate_succ_apply' _ _ _

variable (index batchSize) in
theorem turns_keeps (hp : h.Preserves p) (hs : p s) (n : Nat) : p (turns h index batchSize n s).2 := by
  induction n with
  | zero => exact hs
  | succ n ih =>
    rw [turns_succ]
    exact turn_keeps hp ih

variable (index batchSize) in
theorem stands_turns (hh : h.Reports p) (hs : p s) (n : Nat) : Stands h index s (turns h index batchSize n s) := by
  induction n with
  | zero => rfl
  | succ n ih =>
    rw [turns_succ]
    exact stands_turn hh (turns_keeps index batchSize hh.toPreserves hs n) ih

/-! ## The end -/

/-- The update is past its first batch, and the checkpoint that it goes on from is that of the definition. -/
def Knows (h : Host σ) (index : String) : Stage × σ → Prop
  | (.starting, _) => False
  | (.underway _ since, s) => ∀ found, (h.database s).checkpoint? index = some found → found = since
  | (.ended _, _) => True

/-- Where others leave the index alone, every batch leads nearer to the target. -/
theorem exists_ended (hh : h.Reports p) (fuel : Nat) (hs : p s) (hknows : Knows h index (.underway target since, s))
    (halone : ∀ n, ¬ Disturbed h index batchSize ((turn h index batchSize)^[n] (.underway target since, s)))
    (hfuel : (target - since).toNat ≤ fuel) :
    ∃ n outcome t, (turn h index batchSize)^[n] (.underway target since, s) = (.ended outcome, t) := by
  induction fuel generalizing since s with
  | zero => exact ⟨1, _, _, turn_underway_of_le (by omega)⟩
  | succ fuel ih =>
    rcases turn_underway_cases index batchSize hh hs target since with
      ⟨_, hturn⟩ | ⟨hlt, _, v, _, hadvanced, hkept, hturn⟩
    · exact ⟨1, _, _, hturn⟩
    · cases hadvanced with
      | @applied c _ hraised _ _ _ hknown =>
        have hrest : ∀ n, (turn h index batchSize)^[n + 1] (.underway target since, s) =
            (turn h index batchSize)^[n] (.underway target c, v) := by
          intro n
          rw [Function.iterate_succ_apply, hturn]
          rfl
        have halone' : ∀ n, ¬ Disturbed h index batchSize ((turn h index batchSize)^[n] (.underway target c, v)) := by
          intro n
          rw [← hrest]
          exact halone (n + 1)
        obtain ⟨n, outcome, t, hend⟩ := ih hkept hknown halone' (by omega)
        exact ⟨n + 1, outcome, t, (hrest n).trans hend⟩
      | moved hfound hne =>
        have hunmoved : (h.database (h.changesSince since (max batchSize 1) s).2).checkpoint? index =
            (h.database s).checkpoint? index := not_not.mp fun hmoved => halone 0 ⟨hlt, hmoved⟩
        exact absurd (hknows _ (hunmoved.symm.trans hfound)) hne
      | vanished => exact ⟨1, _, _, hturn⟩
      | failed => exact ⟨1, _, _, hturn⟩

theorem knows_turn (hh : h.Reports p) (hs : p s) (target since : Int) :
    Knows h index (turn h index batchSize (.underway target since, s)) := by
  rcases turn_underway_cases index batchSize hh hs target since with ⟨_, hturn⟩ | ⟨_, _, _, _, hadvanced, _, hturn⟩
  · rw [hturn]
    trivial
  · rw [hturn]
    cases hadvanced with
    | applied _ _ _ _ hknown => exact hknown
    | moved hfound => exact fun found hsame => Option.some.inj (hsame.symm.trans hfound)
    | vanished => trivial
    | failed => trivial

variable (index batchSize) in
theorem knows_turns (hh : h.Reports p) (hs : p s) (n : Nat) : Knows h index (turns h index batchSize (n + 2) s) := by
  have hkept := turns_keeps index batchSize hh.toPreserves hs (n + 1)
  have hbegun : (turns h index batchSize (n + 1) s).1 ≠ .starting := by
    rw [turns_succ]
    exact turn_ne_starting _
  rw [turns_succ]
  rcases hlate : turns h index batchSize (n + 1) s with ⟨stage, t⟩
  rw [hlate] at hkept hbegun
  cases stage with
  | starting => exact absurd rfl hbegun
  | underway target since => exact knows_turn hh hkept target since
  | ended outcome => trivial

theorem finite_disturbed_of_ended {n : Nat} (hend : (turns h index batchSize n s).1.isEnded = true) :
    {m | Disturbed h index batchSize (turns h index batchSize m s)}.Finite := by
  refine (Set.finite_lt_nat n).subset fun m hm => Nat.lt_of_not_le fun hle => ?_
  obtain ⟨k, rfl⟩ := Nat.exists_eq_add_of_le' hle
  rcases hlate : turns h index batchSize n s with ⟨stage, t⟩
  rw [hlate] at hend
  have hsame : turns h index batchSize (k + n) s = (turn h index batchSize)^[k] (stage, t) := by
    rw [← hlate]
    exact Function.iterate_add_apply _ _ _ _
  replace hm : Disturbed h index batchSize (turns h index batchSize (k + n) s) := hm
  rw [hsame] at hm
  cases stage with
  | ended outcome =>
    rw [iterate_turn_ended] at hm
    exact hm
  | starting | underway => cases hend

theorem exists_turns_ended (hh : h.Reports p) (hs : p s)
    (hothers : {n | Disturbed h index batchSize (turns h index batchSize n s)}.Finite) :
    ∃ n outcome t, turns h index batchSize n s = (.ended outcome, t) := by
  obtain ⟨bound, hbound⟩ := hothers.bddAbove
  have hadd : ∀ n, (turn h index batchSize)^[n] (turns h index batchSize (bound + 2) s) =
      turns h index batchSize (n + (bound + 2)) s := fun n => (Function.iterate_add_apply _ _ _ _).symm
  have hknows := knows_turns index batchSize hh hs bound
  have hkept := turns_keeps index batchSize hh.toPreserves hs (bound + 2)
  rcases hlate : turns h index batchSize (bound + 2) s with ⟨stage, t⟩
  rw [hlate] at hknows hkept hadd
  cases stage with
  | starting => exact hknows.elim
  | underway target since =>
    have halone : ∀ n, ¬ Disturbed h index batchSize ((turn h index batchSize)^[n] (.underway target since, t)) := by
      intro n hdisturbed
      rw [hadd] at hdisturbed
      have := hbound hdisturbed
      omega
    obtain ⟨n, outcome, u, hend⟩ := exists_ended hh _ hkept hknows halone (Nat.le_refl _)
    exact ⟨_, outcome, u, (hadd n).symm.trans hend⟩
  | ended outcome => exact ⟨_, outcome, t, hlate⟩

/-! ## Patience -/

def follow (h : Host σ) (index : String) (limit : Nat) (target : Int) : Nat → Progress → Action σ (Option Int)
  | _, .reached checkpoint => pure (some checkpoint)
  | _, .vanished => pure none
  | 0, .moved _ => throw (.unsettled index)
  | patience + 1, .moved checkpoint => settle h index limit target patience checkpoint

theorem settle_eq_bind (patience : Nat) (since : Int) : settle h index limit target patience since =
    catchUp h index limit target (target - since).toNat since >>= follow h index limit target patience := by
  unfold settle
  refine congrArg _ (funext fun progress => ?_)
  cases progress with
  | reached checkpoint => rfl
  | vanished => rfl
  | moved checkpoint => cases patience <;> rfl

theorem catchUp_of_le (hle : target ≤ since) (fuel : Nat) :
    catchUp h index limit target fuel since = pure (.reached since) := by
  cases fuel <;> rw [catchUp, if_pos hle]

/-- An update that ends after some turns ends in the same way if it follows the checkpoint as often. -/
theorem catchUp_eq_of_ended (hh : h.Reports p) {n fuel patience : Nat} {outcome : Except QueryError (Option Int)}
    {t : σ} (hs : p s) (hend : (turn h index batchSize)^[n] (.underway target since, s) = (.ended outcome, t))
    (hpatience : n ≤ patience) (hfuel : (target - since).toNat ≤ fuel) :
    (catchUp h index (max batchSize 1) target fuel since >>= follow h index (max batchSize 1) target patience) s =
      (outcome, t) := by
  induction n generalizing fuel patience since s with
  | zero => cases hend
  | succ n ih =>
    rw [Function.iterate_succ_apply] at hend
    rcases turn_underway_cases index batchSize hh hs target since with
      ⟨hle, hturn⟩ | ⟨hlt, _, v, hadvance, hadvanced, hkept, hturn⟩
    · rw [hturn] at hend
      rw [catchUp_of_le hle, bind_apply]
      exact eq_of_iterate_ended hend
    · obtain ⟨fuel, rfl⟩ : ∃ m, fuel = m + 1 := ⟨fuel - 1, by omega⟩
      obtain ⟨patience, rfl⟩ : ∃ m, patience = m + 1 := ⟨patience - 1, by omega⟩
      rw [hturn] at hend
      rw [bind_apply, catchUp, if_neg (Int.not_le.mpr hlt), bind_apply, hadvance]
      cases hadvanced with
      | applied hraised => exact (bind_apply _ _ _).symm.trans (ih hkept hend (by omega) (by omega))
      | @moved c =>
        show settle h index (max batchSize 1) target patience c _ = (outcome, t)
        rw [settle_eq_bind]
        exact ih hkept hend (by omega) (Nat.le_refl _)
      | vanished => exact eq_of_iterate_ended hend
      | failed => exact eq_of_iterate_ended hend

theorem updateIndex_eq_of_ended (hh : h.Reports p) {n : Nat} {outcome : Except QueryError (Option Int)} {t : σ}
    (hs : p s) (hend : turns h index batchSize n s = (.ended outcome, t)) (hpatience : n ≤ h.patience) :
    updateIndex h batchSize index s = (outcome, t) := by
  cases n with
  | zero => cases hend
  | succ n =>
    have hnext := hh.currentSequence s hs
    rw [turns, Function.iterate_succ_apply, turn_starting] at hend
    unfold updateIndex
    rw [bind_apply, Host.ask]
    rcases hrequest : h.currentSequence s with ⟨e | target, v⟩
    · rw [hrequest] at hend
      exact eq_of_iterate_ended hend
    · rw [hrequest] at hnext hend
      dsimp only at hnext hend ⊢
      rw [bind_apply, Host.look]
      rcases hread : Database.lift ((h.database v).catalog.lastSequence? index) with e | since?
      · rw [hread] at hend
        exact eq_of_iterate_ended hend
      · rw [hread] at hend
        cases since? with
        | none => exact eq_of_iterate_ended hend
        | some since =>
          dsimp only
          rw [settle_eq_bind]
          exact catchUp_eq_of_ended hh hnext hend (by omega) (Nat.le_refl _)

/-- If others move the checkpoint of an index in finitely many turns of an update only, up or down, then the update
ends, whatever the batch size, the target and the checkpoint that it begins with. -/
theorem updateIndex_ends (hh : h.Reports p) (index : String) (batchSize : Nat) (hs : p s)
    (hothers : {n | Disturbed h index batchSize (turns h index batchSize n s)}.Finite) :
    Ends h index batchSize s where
  stops := by
    obtain ⟨n, outcome, t, hend⟩ := exists_turns_ended hh hs hothers
    refine ⟨n, outcome, t, hend, fun patience hpatience => ?_, ?_⟩
    · have hpatient : ({ h with patience } : Host σ).Reports p :=
        ⟨⟨hh.currentSequence, hh.changesSince, hh.applyBatch⟩, hh.stored, hh.later⟩
      exact updateIndex_eq_of_ended hpatient hs hend hpatience
    · have hstands := stands_turns index batchSize hh hs n
      rw [hend] at hstands
      exact hstands
  raises n target since u c v hturn hlt hadvance := by
    have hstands := stands_turns index batchSize hh hs n
    have hkept := turns_keeps index batchSize hh.toPreserves hs n
    rw [hturn] at hstands hkept
    have hadvanced := advanced_advance index hh (Nat.le_max_right batchSize 1) hlt hkept
    rw [hadvance] at hadvanced
    cases hadvanced with
    | applied hraised hle hfound hleft => exact ⟨hstands.1, hraised, hle, hfound, hleft⟩

end Update

/-! ## Updates among others -/

namespace World

variable {w : World}

theorem changed_store (result : Except QueryError Database) : (w.changed result).store = w.store := by
  cases result <;> rfl

theorem step_store (w : World) (e : Event) :
    (w.step e).store = w.store ∨ (∃ docId, (w.step e).store = (w.store.purge docId).2) ∨
    ∃ docId g deleted body, (w.step e).store = (w.store.record docId g deleted body).2 := by
  by_cases hwrite : e.IsWrite
  · rcases w.step_write_cases hwrite with ⟨docId, rfl⟩ | hsame | ⟨docId, g, deleted, body, hrecorded⟩
    · exact Or.inr (Or.inl ⟨docId, rfl⟩)
    · exact Or.inl (by rw [hsame])
    · exact Or.inr (Or.inr ⟨docId, g, deleted, body, by rw [hrecorded]; rfl⟩)
  · left
    cases e with
    | ensure spec tokenizer start =>
      rw [step]
      rcases w.ensure_cases (spec.withDefaultTokenizer tokenizer) start with hsame | ⟨_, _, _, _, _, hdeclared⟩
      · rw [hsame]
      · rw [hdeclared]
    | deleteIndex name => exact changed_store _
    | setLayout index version => exact changed_store _
    | reopen settings file key? =>
      rw [step, World.reopen]
      split <;> rfl
    | startUpdate n index batchSize patience => rfl
    | advance n =>
      rw [step, World.advance]
      split <;> rfl
    | fail n =>
      rw [step]
      split <;> rfl
    | create | update | delete | purge => exact absurd trivial hwrite

theorem step_wellFormed (h : w.store.WellFormed) (e : Event) : (w.step e).store.WellFormed := by
  rcases w.step_store e with hstore | ⟨docId, hstore⟩ | ⟨docId, g, deleted, body, hstore⟩ <;> rw [hstore]
  · exact h
  · exact h.purge docId
  · exact h.record docId g deleted body

theorem step_sequence_le (w : World) (e : Event) : (w.step e).store.sequence ≤ w.store.sequence + 1 := by
  rcases w.step_store e with hstore | ⟨docId, hstore⟩ | ⟨docId, g, deleted, body, hstore⟩ <;> rw [hstore]
  · omega
  · rw [Store.WellFormed.purge_sequence]
    omega
  · exact Int.le_refl _

theorem run_wellFormed (h : w.store.WellFormed) (events : List Event) : (w.run events).store.WellFormed := by
  induction events generalizing w with
  | nil => exact h
  | cons e rest ih => exact ih (step_wellFormed h e)

theorem run_sequence_le (w : World) (events : List Event) :
    (w.run events).store.sequence ≤ w.store.sequence + events.length := by
  induction events generalizing w with
  | nil => exact Int.le_of_eq (Int.add_zero _).symm
  | cons e rest ih =>
    have hfirst := w.step_sequence_le e
    have hrest := ih (w.step e)
    rw [List.length_cons]
    show ((w.step e).run rest).store.sequence ≤ _
    omega

end World

namespace Session

/-- How many events others will still bring about. -/
def expected (s : Session) : Nat :=
  s.script.foldr (fun g n => g.before.length + g.after.length + n) 0

/-- The store is well formed, and the others have too little left to do to come to the last sequence. -/
structure Roomy (s : Session) : Prop where
  store : s.world.store.WellFormed
  room : s.world.store.sequence + s.expected < Store.maxSequence

variable {s : Session}

theorem expected_left (s : Session) : s.expected = s.gap.before.length + s.gap.after.length + s.left.expected := by
  obtain ⟨w, script, fetches⟩ := s
  cases script with
  | nil => rfl
  | cons g rest => rfl

theorem Roomy.left (h : s.Roomy) : s.left.Roomy := by
  refine ⟨World.run_wellFormed (World.run_wellFormed h.store _) _, ?_⟩
  have hroom := h.room
  have hexpected := s.expected_left
  have hbefore := s.world.run_sequence_le s.gap.before
  have hafter := s.asked.run_sequence_le s.gap.after
  have hasked : s.asked = s.world.run s.gap.before := rfl
  have hleft : s.left.world = s.asked.run s.gap.after := rfl
  rw [hleft]
  rw [hasked] at hafter ⊢
  omega

theorem Roomy.asked (h : s.Roomy) : s.asked.store.WellFormed ∧ s.asked.store.IsOpen := by
  have hstore : s.asked.store.WellFormed := World.run_wellFormed h.store _
  have hroom := h.room
  have hexpected := s.expected_left
  have hbefore := s.world.run_sequence_le s.gap.before
  have hasked : s.asked = s.world.run s.gap.before := rfl
  refine ⟨hstore, hstore.isOpen ?_⟩
  rw [hasked]
  omega

theorem reports (patience : Nat) : (Session.host patience).Reports Session.Roomy where
  currentSequence _ hs := hs.left
  changesSince _ _ _ hs := ⟨hs.left.store, hs.left.room⟩
  applyBatch _ _ _ _ _ hs _ := ⟨hs.store, hs.room⟩
  stored _ _ := rfl
  later since limit s page hs hanswer r hr := by
    obtain ⟨hstore, hopen⟩ := hs.asked
    have hpage : s.answer (s.asked.store.changesSince since limit) = .ok page := hanswer
    unfold Session.answer at hpage
    split at hpage
    · cases hpage
    · obtain rfl := Except.ok.inj hpage
      exact hstore.lt_of_mem_changesSince (hopen.goesOnAfter since) hr

end Session

namespace Update

/-- An index that has read none of three documents, and an update of it during which another update applies a change
and the index is rebuilt. -/
def contested : Session where
  world := World.run {}
    [.reopen {} .absent none, .ensure { name := "names", fields := [{ path := "name" }] } "unicode61" 0,
      .create "ann" [("name", .string "Ann")], .create "bob" [("name", .string "Bob")],
      .create "cyd" [("name", .string "Cyd")]]
  script :=
    [{}, { after := [.startUpdate 0 "names" 1 0, .advance 0, .advance 0, .advance 0] },
      { after := [.setLayout "names" 0, .reopen {} .absent none] }]

theorem updateIndex_ends_contested :
    (Session.host 0).Reports Session.Roomy ∧ contested.Roomy ∧
    Disturbed (Session.host 0) "names" 1 (turns (Session.host 0) "names" 1 1 contested) ∧
    Disturbed (Session.host 0) "names" 1 (turns (Session.host 0) "names" 1 2 contested) ∧
    {n | Disturbed (Session.host 0) "names" 1 (turns (Session.host 0) "names" 1 n contested)}.Finite ∧
    Ends (Session.host 0) "names" 1 contested ∧
    (updateIndex (Session.host 2) 1 "names" contested).1.toOption = some (some 3) := by
  have hroomy : contested.Roomy := ⟨World.run_wellFormed .empty _, by decide +kernel⟩
  have hothers : {n | Disturbed (Session.host 0) "names" 1 (turns (Session.host 0) "names" 1 n contested)}.Finite :=
    finite_disturbed_of_ended (n := 7) (by decide +kernel)
  refine ⟨Session.reports 0, hroomy, by decide +kernel, by decide +kernel, hothers, ?_, by decide +kernel⟩
  exact updateIndex_ends (Session.reports 0) "names" 1 hroomy hothers

end Update

end DocIndex
