import DocIndex.Proofs.Basic
import DocIndex.Proofs.Sql.Placeholders

/-! # Fragments put together

Fragments are made from texts with values and then appended, joined and wrapped. The result has the texts of all pieces
and their values, both in the order of the text. Each text is counted by itself when it comes in, as if it stood outside
of quotes; what is put together is not counted again. So placeholders and values are as many as each other where every
text closes the quotes that it opens, and a text that leaves a quote open hides the placeholders of the next.
-/

namespace DocIndex

namespace Fragment

/-- There is a value for each placeholder. -/
def Balanced (f : Fragment) : Prop := placeholders f.text = f.values.length

/-- All quotes of the text are closed. -/
def Closed (f : Fragment) : Prop := Scan.state none f.text.toList = none

instance (f : Fragment) : Decidable f.Balanced := inferInstanceAs (Decidable (_ = _))

instance (f : Fragment) : Decidable f.Closed := inferInstanceAs (Decidable (_ = _))

def mismatch (f : Fragment) : FragmentMismatch := ⟨placeholders f.text, f.values.length⟩

def glue (ps : List Fragment) : Fragment := ⟨String.join (ps.map (·.text)), ps.flatMap (·.values)⟩

/-- Whether fragments are balanced, or else the mismatch of the first that is not. -/
def tryAll : List Fragment → Except FragmentMismatch Unit
  | [] => .ok ()
  | p :: rest => if p.Balanced then tryAll rest else .error p.mismatch

end Fragment

namespace Composition

open Fragment

mutual

def pieces : Composition → List Fragment
  | .make text values => [⟨text, values⟩]
  | .raw text => [⟨text, []⟩]
  | .append first second => pieces first ++ pieces second
  | .join parts separator => [⟨separator, []⟩].intercalate (piecesAll parts)
  | .wrap inner before after => ⟨before, []⟩ :: pieces inner ++ [⟨after, []⟩]

def piecesAll : List Composition → List (List Fragment)
  | [] => []
  | c :: rest => pieces c :: piecesAll rest

end

mutual

/-- What is counted, in the order of counting. A separator is counted once, also if it does not occur. -/
def checked : Composition → List Fragment
  | .make text values => [⟨text, values⟩]
  | .raw text => [⟨text, []⟩]
  | .append first second => checked first ++ checked second
  | .join parts separator => checkedAll parts ++ [⟨separator, []⟩]
  | .wrap inner before after => checked inner ++ [⟨before, []⟩, ⟨after, []⟩]

def checkedAll : List Composition → List Fragment
  | [] => []
  | c :: rest => checked c ++ checkedAll rest

end

end Composition

namespace Fragment

variable {f g : Fragment} {ps : List Fragment} {e : FragmentMismatch}

/-! ## Balanced fragments -/

theorem append_def (f g : Fragment) : f ++ g = ⟨f.text ++ g.text, f.values ++ g.values⟩ := rfl

theorem glue_cons (p : Fragment) (ps : List Fragment) : glue (p :: ps) = p ++ glue ps := by
  simp [glue, append_def]

theorem glue_singleton (p : Fragment) : glue [p] = p := by
  simp [glue]

theorem glue_append (ps qs : List Fragment) : glue (ps ++ qs) = glue ps ++ glue qs := by
  simp [glue, append_def]

theorem glue_intercalate (separator : Fragment) (parts : List (List Fragment)) :
    glue ([separator].intercalate parts) = intersperse separator (parts.map glue) := by
  induction parts with
  | nil => rfl
  | cons part rest ih =>
    cases rest with
    | nil => simp [intersperse]
    | cons next more =>
      rw [List.intercalate_cons_cons, glue_append, glue_append, glue_singleton, ih]
      rfl

theorem Closed.append_iff (hf : f.Closed) : (f ++ g).Closed ↔ g.Closed := by
  unfold Closed at *
  rw [append_def, String.toList_append, Scan.state_append, hf]

theorem Balanced.append (hf : f.Balanced) (hclosed : f.Closed) (hg : g.Balanced) : (f ++ g).Balanced := by
  unfold Balanced Closed placeholders at *
  rw [append_def, String.toList_append, Scan.count_append, hclosed, hf, hg, List.length_append]

/-- To leave no quote open is what it takes for a balanced fragment to go before all others. -/
theorem balanced_append_iff (hf : f.Balanced) : (∀ g : Fragment, g.Balanced → (f ++ g).Balanced) ↔ f.Closed := by
  refine ⟨fun hall => ?_, fun hclosed g hg => hf.append hclosed hg⟩
  have hmark := hall ⟨"?", [.null]⟩ (by decide)
  unfold Balanced Closed placeholders at *
  rw [append_def, String.toList_append, Scan.count_append, hf, List.length_append] at hmark
  have hcount : Scan.count (Scan.state none f.text.toList) ['?'] = 1 := by simpa using hmark
  cases hopen : Scan.state none f.text.toList with
  | none => rfl
  | some quote =>
    rw [hopen] at hcount
    simp [Scan.count] at hcount

theorem balanced_glue (hps : ∀ p ∈ ps, p.Balanced) (hclosed : ∀ p ∈ ps.dropLast, p.Closed) : (glue ps).Balanced := by
  induction ps with
  | nil => rfl
  | cons p rest ih =>
    have hp := hps p List.mem_cons_self
    cases rest with
    | nil =>
      rw [glue_singleton]
      exact hp
    | cons q more =>
      rw [List.dropLast_cons_cons] at hclosed
      have hrest := ih (fun r hr => hps r (List.mem_cons_of_mem _ hr))
        fun r hr => hclosed r (List.mem_cons_of_mem _ hr)
      rw [glue_cons]
      exact hp.append (hclosed p List.mem_cons_self) hrest

theorem closed_glue_iff (hclosed : ∀ p ∈ ps.dropLast, p.Closed) : (glue ps).Closed ↔ ∀ p ∈ ps.getLast?, p.Closed := by
  induction ps with
  | nil => exact iff_of_true rfl nofun
  | cons p rest ih =>
    cases rest with
    | nil => simp [glue_singleton]
    | cons q more =>
      rw [List.dropLast_cons_cons] at hclosed
      rw [glue_cons, (hclosed p List.mem_cons_self).append_iff, List.getLast?_cons_cons]
      exact ih fun r hr => hclosed r (List.mem_cons_of_mem _ hr)

/-! ## The first that is not balanced -/

theorem tryAll_append (ps qs : List Fragment) : tryAll (ps ++ qs) = tryAll ps >>= fun _ => tryAll qs := by
  induction ps with
  | nil => rfl
  | cons p rest ih =>
    rw [List.cons_append, tryAll, tryAll, ih]
    split
    · rfl
    · rfl

theorem make_eq_tryAll (text : String) (values : List SqlValue) :
    make text values = tryAll [⟨text, values⟩] >>= fun _ => .ok ⟨text, values⟩ := by
  by_cases h : placeholders text = values.length
  · have hbalanced : Balanced ⟨text, values⟩ := h
    rw [make, if_pos h, tryAll, if_pos hbalanced]
    rfl
  · have hbalanced : ¬ Balanced ⟨text, values⟩ := h
    rw [make, if_neg h, tryAll, if_neg hbalanced]
    rfl

theorem succeeds_tryAll : Succeeds (tryAll ps) ↔ ∀ p ∈ ps, p.Balanced := by
  induction ps with
  | nil => exact iff_of_true (succeeds_ok ()) nofun
  | cons p rest ih =>
    rw [tryAll, List.forall_mem_cons]
    split
    · rename_i hp
      rw [ih, and_iff_right hp]
    · rename_i hp
      exact iff_of_false (not_succeeds_error _) fun h => hp h.1

theorem tryAll_eq_error_iff : tryAll ps = .error e ↔
    ∃ before p after, ps = before ++ p :: after ∧ (∀ q ∈ before, q.Balanced) ∧ ¬ p.Balanced ∧ e = p.mismatch := by
  induction ps with
  | nil => simp [tryAll]
  | cons p rest ih =>
    rw [tryAll]
    split
    · rename_i hp
      rw [ih]
      constructor
      · rintro ⟨before, q, after, rfl, hbefore, hq⟩
        exact ⟨p :: before, q, after, rfl, List.forall_mem_cons.mpr ⟨hp, hbefore⟩, hq⟩
      · rintro ⟨before, q, after, hsplit, hbefore, hq⟩
        cases before with
        | nil =>
          obtain rfl := (List.cons.inj hsplit).1
          exact absurd hp hq.1
        | cons r more =>
          exact ⟨more, q, after, (List.cons.inj hsplit).2, (List.forall_mem_cons.mp hbefore).2, hq⟩
    · rename_i hp
      constructor
      · intro he
        exact ⟨[], p, rest, rfl, nofun, hp, (Except.error.inj he).symm⟩
      · rintro ⟨before, q, after, hsplit, hbefore, hq, rfl⟩
        cases before with
        | nil => rw [(List.cons.inj hsplit).1]
        | cons r more =>
          rw [(List.cons.inj hsplit).1] at hp
          exact absurd (List.forall_mem_cons.mp hbefore).1 hp

end Fragment

namespace Composition

open Fragment

variable {c : Composition} {f : Fragment}

/-! ## What is built -/

mutual

theorem build_eq : ∀ c : Composition, c.build = tryAll c.checked >>= fun _ => .ok (glue c.pieces)
  | .make text values => by
    rw [build, checked, pieces, glue_singleton, make_eq_tryAll]
  | .raw text => by
    rw [build, checked, pieces, glue_singleton, Fragment.raw, make_eq_tryAll]
  | .append first second => by
    rw [build, checked, pieces, build_eq first, build_eq second, tryAll_append, glue_append]
    simp only [bind_assoc]
    rfl
  | .join parts separator => by
    rw [build, checked, pieces, buildAll_eq parts, tryAll_append, glue_intercalate]
    simp only [Fragment.join, Fragment.raw, make_eq_tryAll, bind_assoc]
    rfl
  | .wrap inner before after => by
    have hends : tryAll [⟨before, []⟩, ⟨after, []⟩] = tryAll [⟨before, []⟩] >>= fun _ => tryAll [⟨after, []⟩] :=
      tryAll_append [⟨before, []⟩] [⟨after, []⟩]
    rw [build, checked, pieces, build_eq inner, tryAll_append, hends, glue_append, glue_cons, glue_singleton]
    simp only [Fragment.wrap, Fragment.raw, make_eq_tryAll, bind_assoc]
    rfl

theorem buildAll_eq : ∀ cs : List Composition,
    buildAll cs = tryAll (checkedAll cs) >>= fun _ => .ok ((piecesAll cs).map glue)
  | [] => rfl
  | c :: rest => by
    rw [buildAll, checkedAll, piecesAll, build_eq c, buildAll_eq rest, tryAll_append, List.map_cons]
    simp only [bind_assoc]
    rfl

end

theorem mem_intercalate {separator p : Fragment} {parts : List (List Fragment)}
    (h : p ∈ [separator].intercalate parts) : p = separator ∨ ∃ part ∈ parts, p ∈ part := by
  induction parts with
  | nil => cases h
  | cons part rest ih =>
    cases rest with
    | nil =>
      rw [List.intercalate_singleton] at h
      exact Or.inr ⟨part, List.mem_cons_self, h⟩
    | cons next more =>
      rw [List.intercalate_cons_cons, List.mem_append, List.mem_append, List.mem_singleton] at h
      rcases h with (h | h) | h
      · exact Or.inr ⟨part, List.mem_cons_self, h⟩
      · exact Or.inl h
      · rcases ih h with h | ⟨q, hq, h⟩
        · exact Or.inl h
        · exact Or.inr ⟨q, List.mem_cons_of_mem _ hq, h⟩

mutual

theorem mem_checked {p : Fragment} : ∀ {c : Composition}, p ∈ c.pieces → p ∈ c.checked
  | .make text values, h => h
  | .raw text, h => h
  | .append first second, h => by
    rw [pieces, List.mem_append] at h
    rw [checked, List.mem_append]
    exact h.imp mem_checked mem_checked
  | .join parts separator, h => by
    rw [pieces] at h
    rw [checked, List.mem_append, List.mem_singleton]
    rcases mem_intercalate h with h | ⟨part, hpart, h⟩
    · exact Or.inr h
    · exact Or.inl (mem_checkedAll hpart h)
  | .wrap inner before after, h => by
    rw [pieces, List.mem_append, List.mem_cons, List.mem_singleton] at h
    rw [checked, List.mem_append, List.mem_cons, List.mem_singleton]
    rcases h with (h | h) | h
    · exact Or.inr (Or.inl h)
    · exact Or.inl (mem_checked h)
    · exact Or.inr (Or.inr h)

theorem mem_checkedAll {p : Fragment} {part : List Fragment} :
    ∀ {cs : List Composition}, part ∈ piecesAll cs → p ∈ part → p ∈ checkedAll cs
  | [], hpart, _ => by cases hpart
  | c :: rest, hpart, hp => by
    rw [piecesAll, List.mem_cons] at hpart
    rw [checkedAll, List.mem_append]
    rcases hpart with rfl | hpart
    · exact Or.inl (mem_checked hp)
    · exact Or.inr (mem_checkedAll hpart hp)

end

theorem build_eq_ok_iff : c.build = .ok f ↔ (∀ p ∈ c.checked, p.Balanced) ∧ f = glue c.pieces := by
  rw [build_eq, ← succeeds_tryAll]
  constructor
  · intro h
    obtain ⟨_, htry, hf⟩ := ok_of_bind h
    exact ⟨⟨(), htry⟩, (Except.ok.inj hf).symm⟩
  · rintro ⟨⟨_, htry⟩, rfl⟩
    rw [htry]
    rfl

theorem build_eq_error_iff {e : FragmentMismatch} : c.build = .error e ↔ tryAll c.checked = .error e := by
  rw [build_eq]
  cases tryAll c.checked with
  | ok _ => exact iff_of_false nofun nofun
  | error first =>
    constructor
    · intro h
      rw [Except.error.inj h]
    · intro h
      rw [Except.error.inj h]
      rfl

/-- A composition fails just when one of the texts that come in, the separators and ends included, has not a value for
each placeholder, and the fault is the mismatch of the first of these. Otherwise the result has the texts of all pieces
one after another and their values in the same order; if each piece but the last closes the quotes that it opens, there
is a value for each placeholder, and a quote stays open only if the last piece leaves it open. No less will do: not
every fragment that is balanced by itself can stand behind one that leaves a quote open. -/
theorem build_balanced (c : Composition) :
    (∀ e, c.build = .error e ↔ ∃ before p after, c.checked = before ++ p :: after ∧ (∀ q ∈ before, q.Balanced) ∧
      ¬ p.Balanced ∧ e = p.mismatch) ∧
    (∀ f, c.build = .ok f ↔ (∀ p ∈ c.checked, p.Balanced) ∧ f.text = String.join (c.pieces.map (·.text)) ∧
      f.values = c.pieces.flatMap (·.values)) ∧
    (∀ f, c.build = .ok f → (∀ p ∈ c.pieces.dropLast, p.Closed) →
      f.Balanced ∧ (f.Closed ↔ ∀ p ∈ c.pieces.getLast?, p.Closed)) ∧
    ∀ f, c.build = .ok f → f.Balanced → ((∀ g : Fragment, g.Balanced → (f ++ g).Balanced) ↔ f.Closed) := by
  refine ⟨fun e => build_eq_error_iff.trans tryAll_eq_error_iff, fun f => ?_, fun f h hclosed => ?_,
    fun f _ hf => balanced_append_iff hf⟩
  · obtain ⟨text, values⟩ := f
    rw [build_eq_ok_iff, glue, Fragment.mk.injEq]
  · obtain ⟨hchecked, rfl⟩ := build_eq_ok_iff.mp h
    exact ⟨balanced_glue (fun p hp => hchecked p (mem_checked hp)) hclosed, closed_glue_iff hclosed⟩

/-- Two conditions, one of them with a quoted question mark, joined and put between brackets. -/
def conditions : Composition :=
  .append (.raw "SELECT * FROM t WHERE ")
    (.wrap (.join [.make "a = ?" [.int 1], .make "b = '?' AND c = ?" [.text "x"]] " OR ") "(" ")")

theorem build_balanced_conditions :
    conditions.build = .ok ⟨"SELECT * FROM t WHERE (a = ? OR b = '?' AND c = ?)", [.int 1, .text "x"]⟩ ∧
      Balanced ⟨"SELECT * FROM t WHERE (a = ? OR b = '?' AND c = ?)", [.int 1, .text "x"]⟩ := by
  obtain ⟨_, hok, hbalanced, _⟩ := build_balanced conditions
  have hbuild := (hok ⟨"SELECT * FROM t WHERE (a = ? OR b = '?' AND c = ?)", [.int 1, .text "x"]⟩).mpr
    ⟨by decide +kernel, by decide +kernel, by decide +kernel⟩
  exact ⟨hbuild, (hbalanced _ hbuild (by decide +kernel)).1⟩

/-- An open quote takes the placeholder of the text behind it. -/
theorem not_build_balanced_quote : ¬ ∀ (c : Composition) (f : Fragment), c.build = .ok f →
    placeholders f.text = f.values.length ∧ f.values = c.pieces.flatMap (·.values) := by
  intro h
  have hbuild : (Composition.append (.raw "'") (.make "?" [.int 1])).build = .ok ⟨"'?", [.int 1]⟩ :=
    ok_of_toOption (by decide +kernel)
  have hcount := (h _ _ hbuild).1
  exact absurd hcount (by decide +kernel)

end Composition

end DocIndex
