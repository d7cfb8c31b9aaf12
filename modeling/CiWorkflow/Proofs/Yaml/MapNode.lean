import CiWorkflow.Proofs.Yaml.MapText

set_option autoImplicit false

namespace CiWorkflow.Yaml

namespace Node

mutual

def mapText (f : ScalarForm → String → String) : Node → Node
  | .scalar tag form text => .scalar tag form (f form text)
  | .sequence tag items => .sequence tag (mapItems f items)
  | .mapping tag entries => .mapping tag (mapEntries f entries)

def mapItems (f : ScalarForm → String → String) : List Node → List Node
  | [] => []
  | n :: rest => mapText f n :: mapItems f rest

def mapEntries (f : ScalarForm → String → String) : List (Node × Node) → List (Node × Node)
  | [] => []
  | (k, v) :: rest => (mapText f k, mapText f v) :: mapEntries f rest

end

theorem mapItems_eq (f : ScalarForm → String → String) (ns : List Node) : mapItems f ns = ns.map (mapText f) := by
  induction ns with
  | nil => rfl
  | cons n rest ih => rw [mapItems, ih, List.map_cons]

theorem mapEntries_eq (f : ScalarForm → String → String) (es : List (Node × Node)) :
    mapEntries f es = es.map (Prod.map (mapText f) (mapText f)) := by
  induction es with
  | nil => rfl
  | cons e rest ih =>
    rw [mapEntries, ih, List.map_cons]
    rfl

end Node

namespace Tree

variable (f : ScalarForm → String → String)

theorem mapItems_eq {α : Type} (ts : List (Tree α)) : mapItems f ts = ts.map (mapText f) := by
  induction ts with
  | nil => rfl
  | cons t rest ih => rw [mapItems, ih, List.map_cons]

theorem mapEntries_eq {α : Type} (es : List (Tree α × Tree α)) :
    mapEntries f es = es.map (Prod.map (mapText f) (mapText f)) := by
  induction es with
  | nil => rfl
  | cons e rest ih =>
    rw [mapEntries, ih, List.map_cons]
    rfl

mutual

theorem number_mapText (names : Names) (t : Tree String) :
    number? names (t.mapText f) = (number? names t).map (Prod.map (mapText f) id) := by
  cases t with
  | «alias» name =>
    simp only [mapText, number?]
    cases names.lookup name <;> rfl
  | scalar anchor tag form text => rfl
  | sequence anchor tag items =>
    simp only [mapText, number?, numberItems_mapText (numberAnchor names anchor).1 items]
    cases numberItems? (numberAnchor names anchor).1 items <;> rfl
  | mapping anchor tag entries =>
    simp only [mapText, number?, numberEntries_mapText (numberAnchor names anchor).1 entries]
    cases numberEntries? (numberAnchor names anchor).1 entries <;> rfl

theorem numberItems_mapText (names : Names) (ts : List (Tree String)) :
    numberItems? names (mapItems f ts) = (numberItems? names ts).map (Prod.map (mapItems f) id) := by
  cases ts with
  | nil => rfl
  | cons t rest =>
    simp only [mapItems, numberItems?, number_mapText names t]
    cases number? names t with
    | none => rfl
    | some r =>
      simp only [Option.map_some, Option.bind_eq_bind, Option.bind_some, Prod.map_snd, id_eq,
        numberItems_mapText r.2 rest]
      cases numberItems? r.2 rest <;> rfl

theorem numberEntries_mapText (names : Names) (es : List (Tree String × Tree String)) :
    numberEntries? names (mapEntries f es) = (numberEntries? names es).map (Prod.map (mapEntries f) id) := by
  cases es with
  | nil => rfl
  | cons e rest =>
    simp only [mapEntries, numberEntries?, number_mapText names e.1]
    cases number? names e.1 with
    | none => rfl
    | some k =>
      simp only [Option.map_some, Option.bind_eq_bind, Option.bind_some, Prod.map_snd, id_eq,
        number_mapText k.2 e.2]
      cases number? k.2 e.2 with
      | none => rfl
      | some v =>
        simp only [Option.map_some, Option.bind_some, Prod.map_snd, id_eq, numberEntries_mapText v.2 rest]
        cases numberEntries? v.2 rest <;> rfl

end

mutual

theorem anchored_mapText (t : Tree Nat) : (t.mapText f).anchored = t.anchored.map (Prod.map id (mapText f)) := by
  cases t with
  | «alias» n => rfl
  | scalar anchor tag form text => cases anchor <;> rfl
  | sequence anchor tag items =>
    simp only [mapText, anchored, anchoredItems_mapText items, List.map_append]
    cases anchor <;> rfl
  | mapping anchor tag entries =>
    simp only [mapText, anchored, anchoredEntries_mapText entries, List.map_append]
    cases anchor <;> rfl

theorem anchoredItems_mapText (ts : List (Tree Nat)) :
    anchoredItems (mapItems f ts) = (anchoredItems ts).map (Prod.map id (mapText f)) := by
  cases ts with
  | nil => rfl
  | cons t rest => simp only [mapItems, anchoredItems, anchored_mapText t, anchoredItems_mapText rest, List.map_append]

theorem anchoredEntries_mapText (es : List (Tree Nat × Tree Nat)) :
    anchoredEntries (mapEntries f es) = (anchoredEntries es).map (Prod.map id (mapText f)) := by
  cases es with
  | nil => rfl
  | cons e rest =>
    simp only [mapEntries, anchoredEntries, anchored_mapText e.1, anchored_mapText e.2, anchoredEntries_mapText rest,
      List.map_append]

end

mutual

theorem eventCount_mapText (t : Tree Nat) : (t.mapText f).eventCount = t.eventCount := by
  cases t with
  | «alias» n => rfl
  | scalar anchor tag form text => rfl
  | sequence anchor tag items => simp only [mapText, eventCount, eventCountItems_mapText items]
  | mapping anchor tag entries => simp only [mapText, eventCount, eventCountEntries_mapText entries]

theorem eventCountItems_mapText (ts : List (Tree Nat)) : eventCountItems (mapItems f ts) = eventCountItems ts := by
  cases ts with
  | nil => rfl
  | cons t rest => simp only [mapItems, eventCountItems, eventCount_mapText t, eventCountItems_mapText rest]

theorem eventCountEntries_mapText (es : List (Tree Nat × Tree Nat)) :
    eventCountEntries (mapEntries f es) = eventCountEntries es := by
  cases es with
  | nil => rfl
  | cons e rest =>
    simp only [mapEntries, eventCountEntries, eventCount_mapText e.1, eventCount_mapText e.2,
      eventCountEntries_mapText rest]

end

theorem lookup_map {α β : Type} (g : α → β) (n : Nat) (table : List (Nat × α)) :
    (table.map (Prod.map id g)).lookup n = (table.lookup n).map g := by
  induction table with
  | nil => rfl
  | cons e rest ih =>
    obtain ⟨m, x⟩ := e
    simp only [List.map_cons, Prod.map_apply, id_eq, List.lookup_cons, ih]
    cases n == m <;> rfl

/-- Steps that go the same way on other data go the same way on a list of them. -/
theorem run_mapM_map {α β α' β' : Type} {g : α → α'} {h : β → β'} {p : α → StateT Nat Option β}
    {q : α' → StateT Nat Option β'}
    (hrun : ∀ x k, (q (g x)).run k = ((p x).run k).map (Prod.map h id)) (xs : List α) (k : Nat) :
    ((xs.map g).mapM q).run k = ((xs.mapM p).run k).map (Prod.map (List.map h) id) := by
  induction xs generalizing k with
  | nil => rfl
  | cons x rest ih =>
    simp only [List.map_cons, List.mapM_cons, StateT.run_bind, hrun]
    cases (p x).run k with
    | none => rfl
    | some r =>
      simp only [Option.map_some, Option.bind_eq_bind, Option.bind_some, Prod.map_fst, Prod.map_snd, id_eq, ih]
      cases (rest.mapM p).run r.2 <;> rfl

theorem follow_mapText (table : List (Nat × Tree Nat)) (t : Tree Nat) (k : Nat) :
    (follow (table.map (Prod.map id (mapText f))) (t.mapText f)).run k =
      ((follow table t).run k).map (Prod.map (mapText f) id) := by
  cases t with
  | «alias» n =>
    simp only [mapText, follow, StateT.run_bind, StateT.run_get, Option.pure_def, Option.bind_eq_bind,
      Option.bind_some, lookup_map]
    cases k with
    | zero => rfl
    | succ left => cases table.lookup n <;> rfl
  | _ => rfl

theorem expand_mapText (table : List (Nat × Tree Nat)) (d : Nat) (t : Tree Nat) (k : Nat) :
    (expand (table.map (Prod.map id (mapText f))) d (t.mapText f)).run k =
      ((expand table d t).run k).map (Prod.map (Node.mapText f) id) := by
  induction d generalizing t k with
  | zero =>
    simp only [expand, StateT.run_bind, follow_mapText]
    cases (follow table t).run k with
    | none => rfl
    | some r =>
      obtain ⟨u, left⟩ := r
      cases u <;> rfl
  | succ d ih =>
    have hentry (e : Tree Nat × Tree Nat) (k : Nat) :
        (do
          let n ← expand (table.map (Prod.map id (mapText f))) d (e.1.mapText f)
          let m ← expand (table.map (Prod.map id (mapText f))) d (e.2.mapText f)
          return (n, m) : StateT Nat Option (Node × Node)).run k =
        ((do
          let n ← expand table d e.1
          let m ← expand table d e.2
          return (n, m) : StateT Nat Option (Node × Node)).run k).map
            (Prod.map (Prod.map (Node.mapText f) (Node.mapText f)) id) := by
      simp only [StateT.run_bind, ih]
      cases (expand table d e.1).run k with
      | none => rfl
      | some r =>
        simp only [Option.map_some, Option.bind_eq_bind, Option.bind_some, Prod.map_snd, id_eq]
        cases (expand table d e.2).run r.2 <;> rfl
    simp only [expand, StateT.run_bind, follow_mapText]
    cases (follow table t).run k with
    | none => rfl
    | some r =>
      obtain ⟨u, left⟩ := r
      cases u with
      | «alias» n => rfl
      | scalar anchor tag form text => rfl
      | sequence anchor tag items =>
        have hitems := run_mapM_map ih items left
        simp only [Option.map_some, Prod.map_apply, id_eq, mapText, mapItems_eq, Option.bind_eq_bind, Option.bind_some,
          StateT.run_bind, hitems]
        cases (items.mapM (expand table d)).run left with
        | none => rfl
        | some r => simp [Node.mapText, Node.mapItems_eq]
      | mapping anchor tag entries =>
        have hentries := run_mapM_map (g := Prod.map (mapText f) (mapText f))
          (h := Prod.map (Node.mapText f) (Node.mapText f)) (p := fun e => do
            return (← expand table d e.1, ← expand table d e.2))
          (q := fun e => do
            return (← expand (table.map (Prod.map id (mapText f))) d e.1,
              ← expand (table.map (Prod.map id (mapText f))) d e.2)) hentry entries left
        simp only [Option.map_some, Prod.map_apply, id_eq, mapText, mapEntries_eq, Option.bind_eq_bind,
          Option.bind_some, StateT.run_bind, hentries]
        cases (entries.mapM fun e => (do
          return (← expand table d e.1, ← expand table d e.2) : StateT Nat Option (Node × Node))).run left with
        | none => rfl
        | some r => simp [Node.mapText, Node.mapEntries_eq]

/-- With other texts in the tree the same node is found, with those texts in it. -/
theorem resolve_mapText (t : Tree String) : (t.mapText f).resolve? = t.resolve?.map (Node.mapText f) := by
  unfold resolve?
  rw [number_mapText]
  cases number? [] t with
  | none => rfl
  | some r =>
    simp only [Option.map_some, Option.bind_eq_bind, Option.bind_some, Prod.map_fst, anchored_mapText,
      eventCount_mapText, ← List.map_reverse, expand_mapText]
    cases (expand r.1.anchored.reverse maxDepth r.1).run (maxRepetition * r.1.eventCount) <;> rfl

end Tree

end CiWorkflow.Yaml
