import DocIndex.Maintenance.Update

/-! # Reasoning about actions

What holds after an action is told for both of its outcomes. The rule for catching up is that of a loop:
what holds of the checkpoint before a page and again after it holds when the target is reached, and the
target is reached, because every page leads further.
-/

namespace DocIndex

namespace Action

variable {σ α β : Type} {s : σ} {good : β → σ → Prop} {bad : QueryError → σ → Prop}

/-- What holds after an action: `good` if it succeeds, `bad` if it fails. -/
def After (a : Action σ α) (s : σ) (good : α → σ → Prop) (bad : QueryError → σ → Prop) : Prop :=
  match a s with
  | (.ok v, t) => good v t
  | (.error e, t) => bad e t

theorem bind_apply (a : Action σ α) (f : α → Action σ β) (s : σ) : (a >>= f) s = match a s with
    | (.ok v, t) => f v t
    | (.error e, t) => (.error e, t) := by
  show (ExceptT.bind a f) s = _
  unfold ExceptT.bind ExceptT.mk
  show (StateT.bind a _) s = _
  unfold StateT.bind
  rcases a s with ⟨r, t⟩
  cases r <;> rfl

theorem after_bind {a : Action σ α} {f : α → Action σ β}
    (h : After a s (fun v t => After (f v) t good bad) bad) : After (a >>= f) s good bad := by
  unfold After at h ⊢
  rw [bind_apply]
  rcases hr : a s with ⟨r, t⟩
  rw [hr] at h
  cases r with
  | ok v => exact h
  | error e => exact h

theorem after_pure {v : β} (h : good v s) : After (pure v : Action σ β) s good bad := h

theorem after_ask {request : σ → Except StoreError β × σ}
    (h : match request s with
      | (.ok v, t) => good v t
      | (.error e, t) => bad (.store e) t) : After (Host.ask request) s good bad := by
  unfold After Host.ask
  rcases hr : request s with ⟨r, t⟩
  rw [hr] at h
  cases r with
  | ok v => exact h
  | error e => exact h

theorem after_look {h : Host σ} {read : Database → Except QueryError β} {v : β} (hr : read (h.database s) = .ok v)
    (hv : good v s) : After (h.look read) s good bad := by
  unfold After Host.look
  rw [hr]
  exact hv

theorem after_lift {result : Except QueryError β} {v : β} (hr : result = .ok v) (hv : good v s) :
    After (liftM result : Action σ β) s good bad := by
  rw [hr]
  exact hv

theorem After.mono {a : Action σ β} {good' : β → σ → Prop} {bad' : QueryError → σ → Prop}
    (h : After a s good bad) (hgood : ∀ v t, good v t → good' v t) (hbad : ∀ e t, bad e t → bad' e t) :
    After a s good' bad' := by
  unfold After at h ⊢
  rcases hr : a s with ⟨r, t⟩
  rw [hr] at h
  cases r with
  | ok v => exact hgood v t h
  | error e => exact hbad e t h

theorem After.outcome {a : Action σ β} {p : Except QueryError β → σ → Prop}
    (h : After a s (fun v t => p (.ok v) t) fun e t => p (.error e) t) : p (a s).1 (a s).2 := by
  unfold After at h
  rcases hr : a s with ⟨r, t⟩
  rw [hr] at h
  cases r with
  | ok v => exact h
  | error e => exact h

theorem After.of_ok {a : Action σ β} (h : After a s good bad) {v : β} {t : σ} (hr : a s = (.ok v, t)) : good v t := by
  unfold After at h
  rw [hr] at h
  exact h

theorem after_self (a : Action σ β) (s : σ) :
    After a s (fun v t => a s = (.ok v, t)) fun e t => a s = (.error e, t) := by
  unfold After
  rcases a s with ⟨r, t⟩
  cases r <;> rfl

theorem After.eq {a b : Action σ β} (h : After a s (fun v t => b s = (.ok v, t)) fun e t => b s = (.error e, t)) :
    a s = b s := by
  unfold After at h
  rcases hr : a s with ⟨r, t⟩
  rw [hr] at h
  cases r with
  | ok v => exact h.symm
  | error e => exact h.symm

end Action

namespace Update

open DocIndex.Action

variable {σ : Type} {h : Host σ} {index : String} {batchSize : Nat} {target : Int}
variable {good : Int → σ → Prop} {bad : QueryError → σ → Prop}

/-- Catching up keeps what every page keeps, and comes to the target. -/
theorem after_catchUp (hstep : ∀ since s, good since s → since < target →
      After (advance h index batchSize target since) s
        (fun p t => ∃ checkpoint, p = .reached checkpoint ∧ since < checkpoint ∧ good checkpoint t) bad)
    (fuel : Nat) {since : Int} {s : σ} (hs : good since s) (hfuel : (target - since).toNat ≤ fuel) :
    After (catchUp h index batchSize target fuel since) s
      (fun p t => ∃ checkpoint, p = .reached checkpoint ∧ target ≤ checkpoint ∧ good checkpoint t) bad := by
  -- every page leads at least one sequence further, so the fuel outlasts the way to the target
  induction fuel generalizing since s with
  | zero =>
    have hle : target ≤ since := by omega
    rw [catchUp, if_pos hle]
    exact after_pure ⟨since, rfl, hle, hs⟩
  | succ fuel ih =>
    rw [catchUp]
    by_cases hle : target ≤ since
    · rw [if_pos hle]
      exact after_pure ⟨since, rfl, hle, hs⟩
    · rw [if_neg hle]
      refine after_bind ((hstep since s hs (by omega)).mono ?_ fun _ _ he => he)
      rintro _ t ⟨checkpoint, rfl, hlt, ht⟩
      exact ih ht (by omega)

theorem after_settle (hstep : ∀ since s, good since s → since < target →
      After (advance h index batchSize target since) s
        (fun p t => ∃ checkpoint, p = .reached checkpoint ∧ since < checkpoint ∧ good checkpoint t) bad)
    (patience : Nat) {since : Int} {s : σ} (hs : good since s) :
    After (settle h index batchSize target patience since) s
      (fun c? t => ∃ checkpoint, c? = some checkpoint ∧ target ≤ checkpoint ∧ good checkpoint t) bad := by
  unfold settle
  refine after_bind ((after_catchUp hstep _ hs (Nat.le_refl _)).mono ?_ fun _ _ he => he)
  rintro _ t ⟨checkpoint, rfl, hle, ht⟩
  exact after_pure ⟨checkpoint, rfl, hle, ht⟩

end Update

end DocIndex
