import DocIndex.Proofs.Query.Limits
import DocIndex.Proofs.Query.Run

/-! # Pages of results

The statement of a plan gives the same list of results for every page and cuts the page out of it. So the pages of
one size, put one after the other, are the list itself.
-/

namespace DocIndex

namespace Plan

variable {db : Database} {p : Plan} {definitions : List Definition} {sort : List SortKey} {v : Json}
variable {selector : Selector} {s : Statement} {found : List Found}

def rows? (db : Database) (p : Plan) (skip : Nat) (limit? : Option Nat) :
    Except QueryError (List (String × String)) := do
  let s ← p.statement? skip limit?
  Database.lift (s.run db)

def pages? (db : Database) (p : Plan) (size : Nat) : Nat → Except QueryError (List (String × String))
  | 0 => .ok []
  | count + 1 => do
    let earlier ← pages? db p size count
    let page ← p.rows? db (size * count) (some size)
    .ok (earlier ++ page)

theorem rows?_eq (h : p.Readable db) (hs : p.statement? 0 none = .ok s)
    (hfound : ∀ skip limit?, (p.statement skip limit?).results? db = .ok found) (skip : Nat) (limit? : Option Nat) :
    p.rows? db skip limit? = if s.isWithinLimits then .ok (window skip limit? (found.map fun f => (f.docId, f.revId)))
      else .error (.sql .tooLarge) := by
  have hlimits : (p.statement skip limit?).isWithinLimits = s.isWithinLimits := by
    rw [h.compiles.statement?_eq] at hs
    rw [← Except.ok.inj hs]
    rfl
  have hpage : (window skip limit? found).map (fun f => (f.docId, f.revId)) =
      window skip limit? (found.map fun f => (f.docId, f.revId)) := by
    unfold window
    cases limit? with
    | none => simp only [Option.elim_none, List.map_drop]
    | some limit => simp only [Option.elim_some, List.map_take, List.map_drop]
  unfold rows?
  simp only [h.compiles.statement?_eq, h.run_eq (hfound skip limit?), hlimits, hpage, bind, Except.bind]
  split <;> rfl

theorem pages?_eq {size : Nat} {rows : List (String × String)}
    (h : ∀ skip limit?, p.rows? db skip limit? = .ok (window skip limit? rows)) (count : Nat)
    (hcount : size * count ≤ Compile.largest) : p.pages? db size count = .ok (rows.take (size * count)) := by
  induction count with
  | zero => rfl
  | succ count ih =>
    rw [Nat.mul_succ] at hcount ⊢
    have hpage : window (size * count) (some size) rows = (rows.drop (size * count)).take size := by
      have hskip : min (size * count) Compile.largest = size * count := by omega
      have hsize : min size Compile.largest = size := by omega
      simp only [window, hskip, hsize, Option.elim_some]
    simp only [pages?, ih (by omega), h, hpage, List.take_add, bind, Except.bind]

/-- Every plan lists what it finds, each document once and in the order of its sort keys, and gives a page of this
list for every number of results to skip and every limit. The tables of its indexes have to be there to read and to
accept its searches; where the statement is too large, it is refused for every page. -/
theorem rows_of_make (hparse : Selector.ofJson? v = .ok selector) (hplan : make selector definitions sort = .ok p)
    (htables : ∀ d ∈ p.indexes, ∃ t, db.table? d.tableName = .ok t ∧ t.rows? = .ok t.rows)
    (hsearches : ∀ q ∈ p.searches, db.Accepts q.1 q.2) :
    ∃ s found, p.statement? 0 none = .ok s ∧ p.sort = sort ∧ p.Lists db found ∧
      (∀ skip limit?, p.rows? db skip limit? =
        if s.isWithinLimits then .ok (window skip limit? (found.map fun f => (f.docId, f.revId)))
        else .error (.sql .tooLarge)) ∧
      (s.isWithinLimits = true → ∀ size count, size * count ≤ Compile.largest →
        p.pages? db size count = .ok ((found.map fun f => (f.docId, f.revId)).take (size * count))) := by
  have hcompiles := compiles_of_make (Selector.ofJson?_requested hparse) hplan
  have hreadable : p.Readable db := ⟨hcompiles, htables, hsearches⟩
  have hstatement := hcompiles.statement?_eq 0 none
  obtain ⟨found, hlists, hfound⟩ := hreadable.exists_lists
  obtain ⟨_, _, _, _, hsort⟩ := Planner.make_ok hplan
  have hrows := rows?_eq hreadable hstatement hfound
  refine ⟨p.statement 0 none, found, hstatement, hsort, hlists, hrows, fun hlimits size count hcount => ?_⟩
  refine pages?_eq (fun skip limit? => ?_) count hcount
  rw [hrows, if_pos hlimits]

/-- An index of scores, of which a document may have several, and an index of names. -/
def scoreIndex : Definition :=
  { name := "scores", kind := .value, fields := [{ path := "score", type? := some .number }] }

def nameIndex : Definition :=
  { name := "names", kind := .value, fields := [{ path := "name", type? := some .string }] }

/-- Bob has no score. -/
def players : Database :=
  { tables := [
      { name := "_sofa_query_index_scores", form := .ordinary, columns := ["f0"], rows := [
          { docId := "ann", revId := "1-000001", cells := [.int 3] },
          { docId := "ann", revId := "1-000001", cells := [.int 7] },
          { docId := "cid", revId := "1-000003", cells := [.int 2] }] },
      { name := "_sofa_query_index_names", form := .ordinary, columns := ["f0"], rows := [
          { docId := "ann", revId := "1-000001", cells := [.text "ann"] },
          { docId := "bob", revId := "1-000002", cells := [.text "bob"] }] }] }

/-- Those with a score of more than 1, and those whose name comes after `b`. -/
def listed : Json :=
  .object [("$or", .array [.object [("score", .object [("$gt", .number (.int 1))])],
    .object [("name", .object [("$gt", .string "b")])]])]

def either : Selector :=
  .or [.field "score" (.compare .gt (.number (.int 1))), .field "name" (.compare .gt (.string "b"))]

/-- They are sorted by their best scores. -/
def ranking : Plan :=
  { root := .or [.scan scoreIndex [("score", .compare .gt (.number (.int 1)))],
      .scan nameIndex [("name", .compare .gt (.string "b"))]]
    orderIndex := scoreIndex
    sort := [{ path := "score", direction := .descending }] }

theorem ofJson?_listed : Selector.ofJson? listed = .ok either := rfl

theorem make_ranking : make either [nameIndex, scoreIndex] ranking.sort = .ok ranking := rfl

/-- The results in order: without a score Bob comes last. -/
def ranked : List Found :=
  [{ docId := "ann", revId := "1-000001", keys := [.int 7] }, { docId := "cid", revId := "1-000003", keys := [.int 2] },
    { docId := "bob", revId := "1-000002", keys := [.null] }]

theorem results?_ranking (skip : Nat) (limit? : Option Nat) :
    (ranking.statement skip limit?).results? players = .ok ranked := by
  have hresults : (ranking.statement skip limit?).results? players =
      .ok (ranked.mergeSort (ranking.statement 0 none).isBefore) := rfl
  rw [hresults, List.mergeSort_of_pairwise]
  decide +kernel

theorem readable_ranking : ranking.Readable players := by
  refine ⟨compiles_of_make (Selector.ofJson?_requested ofJson?_listed) make_ranking, ?_, ?_⟩
  · have hindexes : ranking.indexes = [scoreIndex, nameIndex] := rfl
    rw [hindexes]
    simp only [List.forall_mem_cons]
    exact ⟨⟨_, rfl, rfl⟩, ⟨_, rfl, rfl⟩, by simp⟩
  · exact fun q hq => absurd hq List.not_mem_nil

theorem rows_of_make_players :
    (∃ s found, ranking.statement? 0 none = .ok s ∧ ranking.sort = [{ path := "score", direction := .descending }] ∧
      ranking.Lists players found ∧
      (∀ skip limit?, ranking.rows? players skip limit? =
        if s.isWithinLimits then .ok (window skip limit? (found.map fun f => (f.docId, f.revId)))
        else .error (.sql .tooLarge)) ∧
      (s.isWithinLimits = true → ∀ size count, size * count ≤ Compile.largest →
        ranking.pages? players size count = .ok ((found.map fun f => (f.docId, f.revId)).take (size * count)))) ∧
    ranking.rows? players 1 (some 1) = .ok [("cid", "1-000003")] :=
  ⟨rows_of_make ofJson?_listed make_ranking readable_ranking.tables readable_ranking.searches,
    rows?_eq readable_ranking rfl results?_ranking 1 (some 1)⟩

/-- Scores of more than 1, asked for again and again. -/
def scored (n : Nat) : Json :=
  .object [("$or", .array (List.replicate n (.object [("score", .object [("$gt", .number (.int 1))])])))]

/-- More alternatives than a set operator joins are planned but refused. -/
theorem not_rows_of_make_scored : ¬ ∀ (db : Database) (v : Json) (selector : Selector) (definitions : List Definition)
    (sort : List SortKey) (p : Plan),
    Selector.ofJson? v = .ok selector → make selector definitions sort = .ok p →
    (∀ d ∈ p.indexes, ∃ t, db.table? d.tableName = .ok t ∧ t.rows? = .ok t.rows) →
    (∀ t ∈ db.tables, ∀ r ∈ t.rows, ∀ r' ∈ t.rows, r.docId = r'.docId → r.revId = r'.revId) →
    (∀ q ∈ p.searches, db.Accepts q.1 q.2) →
    ∃ rows, p.rows? db 0 none = .ok rows ∧
      ∀ id, id ∈ rows.map (·.1) ↔ p.root.Finds (db.Scans id) (db.Matches id) := by
  intro h
  let one : Selector := .field "score" (.compare .gt (.number (.int 1)))
  have hparse : Selector.ofJson? (scored 501) = .ok (.or (List.replicate 501 one)) :=
    Selector.ofJson?_or_replicate rfl 500
  have hrequested := Selector.ofJson?_requested hparse
  have htext := Selector.isTextFree_or_replicate (s := one) rfl 501
  obtain ⟨p, hp⟩ : ∃ p, make (.or (List.replicate 501 one)) [scoreIndex] [] = .ok p :=
    exists_make_or_replicate (s := one)
      (q := { root := .scan scoreIndex one.conditions, orderIndex := scoreIndex }) rfl 500
  have hcompiles := compiles_of_make hrequested hp
  obtain ⟨hruns, _, _⟩ := Planner.make_runs hrequested htext hp
  have hsearches : p.searches = [] := hruns.searches
  have htables : ∀ d ∈ p.indexes, ∃ t, players.table? d.tableName = .ok t ∧ t.rows? = .ok t.rows := by
    intro d hd
    have hmem := mem_of_mem_indexes hcompiles hd
    rw [PlanNode.texts, hruns.searches, List.map_nil, List.append_nil] at hmem
    obtain ⟨g, hindex, _⟩ := hruns.scans d hmem
    rw [List.mem_singleton.mp (Planner.chooseIndex_ok hindex).1]
    exact ⟨_, rfl, rfl⟩
  obtain ⟨rows, hrows, _⟩ := h players (scored 501) _ [scoreIndex] [] p hparse hp htables (by decide +kernel)
    (by simp [hsearches])
  have hreadable : p.Readable players := ⟨hcompiles, htables, by simp [hsearches]⟩
  obtain ⟨found, _, hfound⟩ := hreadable.exists_lists
  have hlen : Statement.maxSelects < (List.replicate 501 one).length := by
    rw [List.length_replicate]
    decide
  have hstatement := hcompiles.statement?_eq 0 none
  rw [rows?_eq hreadable hstatement hfound, isWithinLimits_of_or hlen hp hstatement] at hrows
  cases hrows

end Plan

end DocIndex
