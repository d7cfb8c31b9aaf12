import CiWorkflow.Yaml.Node

set_option autoImplicit false

namespace CiWorkflow.Yaml

namespace Node

mutual

def depth : Node → Nat
  | .scalar .. => 0
  | .sequence _ items => itemsDepth items + 1
  | .mapping _ entries => entriesDepth entries + 1

def itemsDepth : List Node → Nat
  | [] => 0
  | n :: rest => max (depth n) (itemsDepth rest)

def entriesDepth : List (Node × Node) → Nat
  | [] => 0
  | (k, v) :: rest => max (max (depth k) (depth v)) (entriesDepth rest)

end

mutual

def tree {α : Type} : Node → Tree α
  | .scalar tag form text => .scalar none tag form text
  | .sequence tag items => .sequence none tag (itemTrees items)
  | .mapping tag entries => .mapping none tag (entryTrees entries)

def itemTrees {α : Type} : List Node → List (Tree α)
  | [] => []
  | n :: rest => tree n :: itemTrees rest

def entryTrees {α : Type} : List (Node × Node) → List (Tree α × Tree α)
  | [] => []
  | (k, v) :: rest => (tree k, tree v) :: entryTrees rest

end

end Node

namespace Tree

open Node

mutual

theorem number_tree (names : Names) (n : Node) : number? names n.tree = some (n.tree, names) := by
  cases n with
  | scalar tag form text => rfl
  | sequence tag items =>
    simp [Node.tree, number?, numberAnchor, numberItems_trees names items]
  | mapping tag entries =>
    simp [Node.tree, number?, numberAnchor, numberEntries_trees names entries]

theorem numberItems_trees (names : Names) (ns : List Node) :
    numberItems? names (itemTrees ns) = some (itemTrees ns, names) := by
  cases ns with
  | nil => rfl
  | cons n rest => simp [itemTrees, numberItems?, number_tree names n, numberItems_trees names rest]

theorem numberEntries_trees (names : Names) (es : List (Node × Node)) :
    numberEntries? names (entryTrees es) = some (entryTrees es, names) := by
  cases es with
  | nil => rfl
  | cons e rest =>
    simp [entryTrees, numberEntries?, number_tree names e.1, number_tree names e.2,
      numberEntries_trees names rest]

end

mutual

theorem expand_tree (table : List (Nat × Tree Nat)) (d : Nat) (n : Node) (k : Nat) :
    (expand table d n.tree).run k = if n.depth ≤ d then some (n, k) else none := by
  cases n with
  | scalar tag form text => cases d <;> simp [expand, follow, Node.tree, Node.depth]
  | sequence tag items =>
    cases d with
    | zero =>
      simp only [expand, follow, Node.tree, Node.depth, pure_bind]
      rfl
    | succ d =>
      have h := expand_items table d items k
      simp only [expand, follow, Node.tree, Node.depth, pure_bind, StateT.run_bind, h]
      by_cases hd : itemsDepth items ≤ d <;> simp [hd]
  | mapping tag entries =>
    cases d with
    | zero =>
      simp only [expand, follow, Node.tree, Node.depth, pure_bind]
      rfl
    | succ d =>
      have h := expand_entries table d entries k
      simp only [expand, follow, Node.tree, Node.depth, pure_bind, StateT.run_bind, h]
      by_cases hd : entriesDepth entries ≤ d <;> simp [hd]

theorem expand_items (table : List (Nat × Tree Nat)) (d : Nat) (ns : List Node) (k : Nat) :
    ((itemTrees ns).mapM (expand table d)).run k = if itemsDepth ns ≤ d then some (ns, k) else none := by
  cases ns with
  | nil => simp [itemTrees, itemsDepth]
  | cons n rest =>
    simp only [itemTrees, itemsDepth, List.mapM_cons, StateT.run_bind, expand_tree table d n k, Nat.max_le]
    by_cases hn : n.depth ≤ d
    · have h := expand_items table d rest k
      by_cases hr : itemsDepth rest ≤ d <;> simp [hn, hr, h]
    · simp [hn]

theorem expand_entries (table : List (Nat × Tree Nat)) (d : Nat) (es : List (Node × Node)) (k : Nat) :
    ((entryTrees es).mapM fun (k, v) => do
      return (← expand table d k, ← expand table d v)).run k =
        if entriesDepth es ≤ d then some (es, k) else none := by
  cases es with
  | nil => simp [entryTrees, entriesDepth]
  | cons e rest =>
    have h := expand_entries table d rest k
    simp only [entryTrees, entriesDepth, List.mapM_cons, StateT.run_bind, expand_tree table d e.1 k, Nat.max_le]
    by_cases hk : e.1.depth ≤ d
    · by_cases hv : e.2.depth ≤ d
      · simp only [hk, hv, ↓reduceIte, Option.bind_eq_bind, Option.bind_some, expand_tree table d e.2 k,
          StateT.run_pure, Option.pure_def, h, true_and]
        by_cases hr : entriesDepth rest ≤ d <;> simp [hr]
      · simp [hk, hv, expand_tree table d e.2 k]
    · simp [hk]

end

theorem resolve_tree (n : Node) : resolve? n.tree = if n.depth ≤ maxDepth then some n else none := by
  unfold resolve?
  simp only [number_tree, Option.bind_eq_bind, Option.bind_some]
  rw [expand_tree]
  split <;> rfl

end Tree

end CiWorkflow.Yaml
