/-! # Steps and lookups

A computation in several steps succeeds if each step does, and two computations agree if their steps do. What is
looked up by a key is found, if it is there and nothing else has its key.
-/

namespace DocIndex

section

variable {ε δ α β : Type}

theorem ok_of_bind {a : Except ε α} {f : α → Except ε β} {b : β} (h : (a >>= f) = .ok b) :
    ∃ v, a = .ok v ∧ f v = .ok b := by
  cases a with
  | ok v => exact ⟨v, rfl, h⟩
  | error e => cases h

theorem ok_of_map {a : Except ε α} {f : α → β} {b : β} (h : a.map f = .ok b) : ∃ v, a = .ok v ∧ f v = b := by
  cases a with
  | ok v => exact ⟨v, rfl, Except.ok.inj h⟩
  | error e => cases h

theorem ok_of_toOption {a : Except ε α} {v : α} (h : a.toOption = some v) : a = .ok v := by
  cases a with
  | ok w => exact congrArg Except.ok (Option.some.inj h)
  | error e => cases h

theorem ok_of_mapError {a : Except ε α} {f : ε → δ} {v : α} (h : a.mapError f = .ok v) : a = .ok v := by
  cases a with
  | ok w => exact congrArg Except.ok (Except.ok.inj h)
  | error e => cases h

end

/-- A computation ends without a fault. -/
def Succeeds {ε α : Type} (result : Except ε α) : Prop := ∃ a, result = .ok a

section

variable {ε α β : Type} {result : Except ε α}

theorem succeeds_ok (a : α) : Succeeds (Except.ok a : Except ε α) := ⟨a, rfl⟩

theorem not_succeeds_error (e : ε) : ¬ Succeeds (Except.error e : Except ε α) := nofun

theorem succeeds_bind {f : α → Except ε β} :
    Succeeds (result >>= f) ↔ ∃ a, result = .ok a ∧ Succeeds (f a) := by
  constructor
  · rintro ⟨b, hb⟩
    obtain ⟨a, ha, hf⟩ := ok_of_bind hb
    exact ⟨a, ha, b, hf⟩
  · rintro ⟨a, rfl, hf⟩
    exact hf

theorem succeeds_bind_total {f : α → Except ε β} (hf : ∀ a, Succeeds (f a)) :
    Succeeds (result >>= f) ↔ Succeeds result := by
  rw [succeeds_bind]
  exact exists_congr fun a => and_iff_left (hf a)

theorem succeeds_map {f : α → β} : Succeeds (result.map f) ↔ Succeeds result := by
  cases result with
  | ok a => exact iff_of_true (succeeds_ok _) (succeeds_ok _)
  | error e => exact iff_of_false (not_succeeds_error _) (not_succeeds_error _)

theorem succeeds_ite {p q : Prop} [Decidable p] {other : Except ε α} (hresult : p → Succeeds result → q)
    (hother : Succeeds other → q) : Succeeds (if p then result else other) → q := by
  by_cases hp : p
  · rw [if_pos hp]
    exact hresult hp
  · rw [if_neg hp]
    exact hother

theorem succeeds_mapError {δ : Type} {f : ε → δ} : Succeeds (result.mapError f) ↔ Succeeds result := by
  cases result with
  | ok a => exact iff_of_true (succeeds_ok _) (succeeds_ok _)
  | error e => exact iff_of_false (not_succeeds_error _) (not_succeeds_error _)

end

/-- Two computations fail both, or succeed both with results that are related. -/
inductive Agree {ε δ α β : Type} (r : α → β → Prop) : Except ε α → Except δ β → Prop where
  | ok {a : α} {b : β} (h : r a b) : Agree r (.ok a) (.ok b)
  | error (e : ε) (f : δ) : Agree r (.error e) (.error f)

namespace Agree

variable {ε δ α β α' β' : Type} {r : α → β → Prop} {r' : α' → β' → Prop} {x : Except ε α} {y : Except δ β}

theorem bind {f : α → Except ε α'} {g : β → Except δ β'} (h : Agree r x y)
    (hfg : ∀ a b, r a b → Agree r' (f a) (g b)) : Agree r' (x >>= f) (y >>= g) := by
  cases h with
  | ok hab => exact hfg _ _ hab
  | error e d => exact .error e d

theorem map {f : α → α'} {g : β → β'} (h : Agree r x y) (hfg : ∀ a b, r a b → r' (f a) (g b)) :
    Agree r' (x.map f) (y.map g) := by
  cases h with
  | ok hab => exact .ok (hfg _ _ hab)
  | error e d => exact .error e d

theorem exists_ok {a : α} (h : Agree r (Except.ok a : Except ε α) y) : ∃ b, y = .ok b ∧ r a b := by
  cases h with
  | ok hab => exact ⟨_, rfl, hab⟩

theorem mono {s : α → β → Prop} (h : Agree r x y) (hrs : ∀ a b, r a b → s a b) : Agree s x y := by
  cases h with
  | ok hab => exact .ok (hrs _ _ hab)
  | error e d => exact .error e d

theorem iff : Agree r x y ↔ (Succeeds x ↔ Succeeds y) ∧ ∀ a b, x = .ok a → y = .ok b → r a b := by
  constructor
  · rintro (hab | ⟨e, d⟩)
    · refine ⟨iff_of_true (succeeds_ok _) (succeeds_ok _), ?_⟩
      rintro _ _ ⟨⟩ ⟨⟩
      exact hab
    · exact ⟨iff_of_false (not_succeeds_error _) (not_succeeds_error _), nofun⟩
  · rintro ⟨hsucceeds, hok⟩
    cases x with
    | ok a =>
      obtain ⟨b, rfl⟩ := hsucceeds.mp (succeeds_ok a)
      exact .ok (hok a b rfl rfl)
    | error e =>
      cases y with
      | ok b => exact absurd (hsucceeds.mpr (succeeds_ok b)) (not_succeeds_error e)
      | error d => exact .error e d

theorem refl {r : α → α → Prop} (h : ∀ a, r a a) (x : Except ε α) : Agree r x x := by
  cases x with
  | ok a => exact .ok (h a)
  | error e => exact .error e e

theorem symm {r : α → α → Prop} {x y : Except ε α} (hr : ∀ a b, r a b → r b a) (h : Agree r x y) : Agree r y x := by
  cases h with
  | ok hab => exact .ok (hr _ _ hab)
  | error e d => exact .error d e

theorem trans {r : α → α → Prop} {x y z : Except ε α} (hr : ∀ a b c, r a b → r b c → r a c) (h : Agree r x y)
    (h' : Agree r y z) : Agree r x z := by
  cases h with
  | ok hab =>
    obtain ⟨c, rfl, hbc⟩ := h'.exists_ok
    exact .ok (hr _ _ _ hab hbc)
  | error e d =>
    cases h' with
    | error _ f => exact .error e f

end Agree

/-- Each element of one list has a counterpart in the other. -/
structure Counterparts {α β : Type} (r : α → β → Prop) (xs : List α) (ys : List β) : Prop where
  left : ∀ x ∈ xs, ∃ y ∈ ys, r x y
  right : ∀ y ∈ ys, ∃ x ∈ xs, r x y

namespace Counterparts

variable {ε δ α β α' β' : Type} {r : α → β → Prop} {xs xs' : List α} {ys ys' : List β}

theorem of_mem_iff {r : α → α → Prop} (hr : ∀ a, r a a) (h : ∀ a, a ∈ xs ↔ a ∈ xs') : Counterparts r xs xs' where
  left a ha := ⟨a, (h a).mp ha, hr a⟩
  right a ha := ⟨a, (h a).mpr ha, hr a⟩

theorem refl {r : α → α → Prop} (hr : ∀ a, r a a) (xs : List α) : Counterparts r xs xs := of_mem_iff hr fun _ => Iff.rfl

theorem mono {s : α → β → Prop} (h : Counterparts r xs ys) (hrs : ∀ a b, r a b → s a b) : Counterparts s xs ys where
  left x hx := by
    obtain ⟨y, hy, hxy⟩ := h.left x hx
    exact ⟨y, hy, hrs x y hxy⟩
  right y hy := by
    obtain ⟨x, hx, hxy⟩ := h.right y hy
    exact ⟨x, hx, hrs x y hxy⟩

theorem symm {r : α → α → Prop} (hr : ∀ a b, r a b → r b a) (h : Counterparts r xs xs') : Counterparts r xs' xs where
  left a ha := by
    obtain ⟨b, hb, hba⟩ := h.right a ha
    exact ⟨b, hb, hr b a hba⟩
  right b hb := by
    obtain ⟨a, ha, hba⟩ := h.left b hb
    exact ⟨a, ha, hr b a hba⟩

theorem trans {r : α → α → Prop} {zs : List α} (hr : ∀ a b c, r a b → r b c → r a c) (h : Counterparts r xs xs')
    (h' : Counterparts r xs' zs) : Counterparts r xs zs where
  left a ha := by
    obtain ⟨b, hb, hab⟩ := h.left a ha
    obtain ⟨c, hc, hbc⟩ := h'.left b hb
    exact ⟨c, hc, hr a b c hab hbc⟩
  right c hc := by
    obtain ⟨b, hb, hbc⟩ := h'.right c hc
    obtain ⟨a, ha, hab⟩ := h.right b hb
    exact ⟨a, ha, hr a b c hab hbc⟩

theorem mem_iff {zs : List α} (h : Counterparts Eq xs zs) (a : α) : a ∈ xs ↔ a ∈ zs := by
  constructor
  · intro ha
    obtain ⟨_, hb, rfl⟩ := h.left a ha
    exact hb
  · intro ha
    obtain ⟨_, hb, rfl⟩ := h.right a ha
    exact hb

theorem eq_nil_iff (h : Counterparts r xs ys) : xs = [] ↔ ys = [] := by
  constructor
  · rintro rfl
    refine List.eq_nil_iff_forall_not_mem.mpr fun y hy => ?_
    obtain ⟨_, hx, _⟩ := h.right y hy
    cases hx
  · rintro rfl
    refine List.eq_nil_iff_forall_not_mem.mpr fun x hx => ?_
    obtain ⟨_, hy, _⟩ := h.left x hx
    cases hy

theorem isEmpty_eq (h : Counterparts r xs ys) : xs.isEmpty = ys.isEmpty := by
  rw [Bool.eq_iff_iff, List.isEmpty_iff, List.isEmpty_iff]
  exact h.eq_nil_iff

theorem append (h : Counterparts r xs ys) (h' : Counterparts r xs' ys') : Counterparts r (xs ++ xs') (ys ++ ys') where
  left x hx := by
    rcases List.mem_append.mp hx with hx | hx
    · obtain ⟨y, hy, hxy⟩ := h.left x hx
      exact ⟨y, List.mem_append_left _ hy, hxy⟩
    · obtain ⟨y, hy, hxy⟩ := h'.left x hx
      exact ⟨y, List.mem_append_right _ hy, hxy⟩
  right y hy := by
    rcases List.mem_append.mp hy with hy | hy
    · obtain ⟨x, hx, hxy⟩ := h.right y hy
      exact ⟨x, List.mem_append_left _ hx, hxy⟩
    · obtain ⟨x, hx, hxy⟩ := h'.right y hy
      exact ⟨x, List.mem_append_right _ hx, hxy⟩

theorem singleton {x : α} {y : β} (h : r x y) : Counterparts r [x] [y] where
  left a ha := ⟨y, List.mem_singleton_self y, by rwa [List.mem_singleton.mp ha]⟩
  right b hb := ⟨x, List.mem_singleton_self x, by rwa [List.mem_singleton.mp hb]⟩

theorem cons {x : α} {y : β} (h' : Counterparts r xs ys) (h : r x y) : Counterparts r (x :: xs) (y :: ys) :=
  (singleton h).append h'

theorem forall_iff {p : α → Prop} {q : β → Prop} (h : Counterparts r xs ys) (hpq : ∀ x y, r x y → (p x ↔ q y)) :
    (∀ x ∈ xs, p x) ↔ ∀ y ∈ ys, q y := by
  constructor
  · intro hall y hy
    obtain ⟨x, hx, hxy⟩ := h.right y hy
    exact (hpq x y hxy).mp (hall x hx)
  · intro hall x hx
    obtain ⟨y, hy, hxy⟩ := h.left x hx
    exact (hpq x y hxy).mpr (hall y hy)

theorem exists_iff {p : α → Prop} {q : β → Prop} (h : Counterparts r xs ys) (hpq : ∀ x y, r x y → (p x ↔ q y)) :
    (∃ x ∈ xs, p x) ↔ ∃ y ∈ ys, q y := by
  constructor
  · rintro ⟨x, hx, hp⟩
    obtain ⟨y, hy, hxy⟩ := h.left x hx
    exact ⟨y, hy, (hpq x y hxy).mp hp⟩
  · rintro ⟨y, hy, hq⟩
    obtain ⟨x, hx, hxy⟩ := h.right y hy
    exact ⟨x, hx, (hpq x y hxy).mpr hq⟩

end Counterparts

section

variable {ε α β : Type} {f : α → Except ε β} {xs : List α}

theorem succeeds_mapM : Succeeds (xs.mapM f) ↔ ∀ x ∈ xs, Succeeds (f x) := by
  induction xs with
  | nil => exact iff_of_true (succeeds_ok _) (by simp)
  | cons x rest ih =>
    rw [List.mapM_cons, List.forall_mem_cons, ← ih, succeeds_bind]
    constructor
    · rintro ⟨y, hy, h⟩
      exact ⟨⟨y, hy⟩, (succeeds_bind_total fun _ => succeeds_ok _).mp h⟩
    · rintro ⟨⟨y, hy⟩, h⟩
      exact ⟨y, hy, (succeeds_bind_total fun _ => succeeds_ok _).mpr h⟩

theorem mem_of_mapM {ys : List β} (h : xs.mapM f = .ok ys) (y : β) : y ∈ ys ↔ ∃ x ∈ xs, f x = .ok y := by
  induction xs generalizing ys with
  | nil =>
    obtain rfl := Except.ok.inj h
    simp
  | cons x rest ih =>
    rw [List.mapM_cons] at h
    obtain ⟨first, hfirst, h⟩ := ok_of_bind h
    obtain ⟨more, hmore, h⟩ := ok_of_bind h
    obtain rfl := Except.ok.inj h
    simp only [List.mem_cons, exists_eq_or_imp, ih hmore, hfirst, Except.ok.injEq, @eq_comm _ first]

theorem Counterparts.agree_mapM {δ α' β' : Type} {r : β → β' → Prop} {g : α' → Except δ β'} {ys : List α'}
    (h : Counterparts (fun x y => Agree r (f x) (g y)) xs ys) : Agree (Counterparts r) (xs.mapM f) (ys.mapM g) := by
  rw [Agree.iff, succeeds_mapM, succeeds_mapM]
  refine ⟨h.forall_iff fun x y hxy => (Agree.iff.mp hxy).1, fun as bs has hbs => ⟨fun a ha => ?_, fun b hb => ?_⟩⟩
  · obtain ⟨x, hx, hfx⟩ := (mem_of_mapM has a).mp ha
    obtain ⟨y, hy, hxy⟩ := h.left x hx
    rw [hfx] at hxy
    obtain ⟨b, hgy, hab⟩ := hxy.exists_ok
    exact ⟨b, (mem_of_mapM hbs b).mpr ⟨y, hy, hgy⟩, hab⟩
  · obtain ⟨y, hy, hgy⟩ := (mem_of_mapM hbs b).mp hb
    obtain ⟨x, hx, hxy⟩ := h.right y hy
    obtain ⟨a, hfx⟩ := (Agree.iff.mp hxy).1.mpr ⟨b, hgy⟩
    exact ⟨a, (mem_of_mapM has a).mpr ⟨x, hx, hfx⟩, (Agree.iff.mp hxy).2 a b hfx hgy⟩

end

variable {α : Type} {xs : List α} {x : α}

theorem exists_find?_key (key : α → String) (hx : x ∈ xs) :
    ∃ y ∈ xs, key y = key x ∧ xs.find? (key · == key x) = some y := by
  cases hfind : xs.find? (key · == key x) with
  | none => exact absurd (beq_self_eq_true (key x)) (List.find?_eq_none.mp hfind x hx)
  | some y =>
    have hkey := List.find?_some hfind
    exact ⟨y, List.mem_of_find?_eq_some hfind, beq_iff_eq.mp hkey, rfl⟩

theorem find?_key {key : α → String} (hx : x ∈ xs) (hkey : ∀ y ∈ xs, key y = key x → y = x) :
    xs.find? (key · == key x) = some x := by
  obtain ⟨y, hy, hsame, hfind⟩ := exists_find?_key key hx
  rw [hfind, hkey y hy hsame]

end DocIndex
