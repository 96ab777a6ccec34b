import Shorthand.Proofs.Trie
import Mathlib.Data.List.Nodup
import Mathlib.Data.Finset.Card

/-!
# The nodes of a trie

Every node of a trie stands at the end of one path. `Node.located` lists the nodes with their paths, so
that what leads to a node can be asked of a list: in a trie that was built by insertions a walk along a
path ends at a node if the list has the node under the path (`Node.mem_located_iff`).

Since the nodes have different numbers, no node is listed twice. A node other than the root is therefore
the child of one node only and under one code only (`Trie.WellFormed.existsUnique_parent`). Insertions
number nodes upwards, those below a node after the node itself (`Forest.Above`).

## Main statements

- `Node.isSome_walk?_iff`: the paths that lead to a node are the beginnings of the paths with items.
- `Trie.WellFormed.existsUnique_parent`: every node but the root has one parent.
- `Trie.WellFormed.map_index_nodes`: the nodes are listed in the order of their numbers.
-/

namespace Shorthand

variable {α : Type}

namespace Forest

variable {forest : Forest α} {code : Code} {node : Node α}

/-! ## Children -/

theorem isEmpty_eq_false_iff : forest.isEmpty = false ↔ forest ≠ nil := by
  cases forest <;> simp [isEmpty]

theorem two_le_length_edges_iff : 2 ≤ forest.edges.length ↔ forest ≠ nil ∧ forest.isSingle = false := by
  match forest with
  | nil => simp [edges]
  | cons _ _ _ _ nil => simp [edges, isSingle]
  | cons _ _ _ _ (cons ..) => simp [edges, isSingle]

theorem Over.of_mem_edges {p : Code → Prop} {edge : Code × Nat} (h : forest.Over p)
    (hedge : edge ∈ forest.edges) : p edge.1 := by
  induction forest with
  | nil => cases hedge
  | cons c index item children siblings _ ih =>
    rcases List.mem_cons.mp hedge with rfl | hbeside
    · exact h.1
    · exact ih h.2.2 hbeside

theorem mem_edges_of_child? (h : forest.child? code = some node) :
    (code, node.index) ∈ forest.edges := by
  induction forest with
  | nil => cases h
  | cons c index item children siblings _ ih =>
    rw [child?] at h
    split at h
    next heq =>
      cases h
      rw [heq]
      exact List.mem_cons_self ..
    next => exact List.mem_cons_of_mem _ (ih h)

/-- Among sorted trees, a look-up comes to every edge. -/
theorem Sorted.exists_child? {index : Nat} (h : forest.Sorted) (hedge : (code, index) ∈ forest.edges) :
    ∃ node, forest.child? code = some node ∧ node.index = index := by
  induction forest with
  | nil => cases hedge
  | cons c i item children siblings _ ih =>
    rw [Forest.child?]
    rcases List.mem_cons.mp hedge with heq | hbeside
    · obtain ⟨rfl, rfl⟩ := Prod.mk.inj heq
      exact ⟨_, if_pos rfl, rfl⟩
    · -- the codes beside are greater than the first one
      have hne : code ≠ c := UInt16.ne_of_lt (h.1 _ hbeside) |>.symm
      rw [if_neg hne]
      exact ih h.2.2 hbeside

theorem Sorted.pairwise_edges (h : forest.Sorted) :
    forest.edges.Pairwise fun edge edge' => edge.1 < edge'.1 := by
  induction forest with
  | nil => exact .nil
  | cons c index item children siblings _ ih => exact .cons h.1 (ih h.2.2)

theorem Fruitful.child? (h : forest.Fruitful) (hnode : forest.child? code = some node) :
    (node.item.isSome ∨ node.children ≠ nil) ∧ node.children.Fruitful := by
  induction forest with
  | nil => cases hnode
  | cons c index item children siblings _ ih =>
    rw [Forest.child?] at hnode
    split at hnode
    · cases hnode
      exact ⟨h.1, h.2.1⟩
    · exact ih h.2.2 hnode

theorem Over.child? {p : Code → Prop} (h : forest.Over p) (hnode : forest.child? code = some node) :
    node.children.Over p := by
  induction forest with
  | nil => cases hnode
  | cons c index item children siblings _ ih =>
    rw [Forest.child?] at hnode
    split at hnode
    · cases hnode
      exact h.2.1
    · exact ih h.2.2 hnode

/-! ## Nodes with their paths -/

/-- All nodes with the paths that lead to them, a node before those below it. -/
def located : Forest α → List (List Code × Node α)
  | nil => []
  | cons code index item children siblings =>
    ([code], ⟨index, item, children⟩) ::
      ((children.located.map fun x => (code :: x.1, x.2)) ++ siblings.located)

theorem map_snd_located (forest : Forest α) : forest.located.map (·.2) = forest.nodes := by
  induction forest with
  | nil => rfl
  | cons code index item children siblings ihc ihs =>
    simp [located, nodes, Function.comp_def, ihc, ihs]

/-- A path that leads to a node starts with the code of a tree and goes on within the tree. -/
theorem Sorted.mem_located_iff (h : forest.Sorted) {path : List Code} :
    (path, node) ∈ forest.located ↔ ∃ code rest child, path = code :: rest ∧
      forest.child? code = some child ∧ child.walk? rest = some node := by
  induction forest generalizing path with
  | nil => simp [located, Forest.child?]
  | cons c index item children siblings ihc ihs =>
    obtain ⟨hlt, hc, hs⟩ := h
    simp only [located, List.mem_cons, List.mem_append, List.mem_map, Prod.mk.injEq]
    constructor
    · rintro (⟨rfl, rfl⟩ | ⟨⟨rest, n⟩, hmem, rfl, rfl⟩ | hmem)
      · exact ⟨c, [], _, rfl, by rw [Forest.child?, if_pos rfl], rfl⟩
      · obtain ⟨code, rest, child, rfl, hchild, hwalk⟩ := (ihc hc).mp hmem
        refine ⟨c, code :: rest, ⟨index, item, children⟩, rfl, by rw [Forest.child?, if_pos rfl], ?_⟩
        rw [Node.walk?, hchild]
        exact hwalk
      · obtain ⟨code, rest, child, rfl, hchild, hwalk⟩ := (ihs hs).mp hmem
        -- the codes beside are greater than the first one
        have hne : code ≠ c := UInt16.ne_of_lt (hlt _ (mem_edges_of_child? hchild)) |>.symm
        exact ⟨code, rest, child, rfl, by rw [Forest.child?, if_neg hne, hchild], hwalk⟩
    · rintro ⟨code, rest, child, rfl, hchild, hwalk⟩
      rw [Forest.child?] at hchild
      split at hchild
      next heq =>
        subst heq
        obtain rfl := Option.some.inj hchild
        cases rest with
        | nil => exact .inl ⟨rfl, (Option.some.inj hwalk).symm⟩
        | cons d rest =>
          rw [Node.walk?] at hwalk
          obtain ⟨below, hbelow, hwalk⟩ := Option.bind_eq_some_iff.mp hwalk
          exact .inr (.inl ⟨(d :: rest, node), (ihc hc).mpr ⟨d, rest, below, rfl, hbelow, hwalk⟩, rfl,
            rfl⟩)
      next => exact .inr (.inr ((ihs hs).mpr ⟨code, rest, child, rfl, hchild, hwalk⟩))

/-! ## Ascending numbers -/

/-- Whether the numbers are greater than `low` and ascend from a node to those below it. -/
def Above (low : Nat) : Forest α → Prop
  | nil => True
  | cons _ index _ children siblings => low < index ∧ children.Above index ∧ siblings.Above low

theorem above_grow {a : α} {next low : Nat} {path : List Code} {siblings : Forest α} (hlow : low < next)
    (hs : siblings.Above low) : (grow a next path siblings).Above low := by
  induction next, path, siblings using grow.induct generalizing low with
  | case1 => simpa [grow] using hs
  | case2 => exact ⟨hlow, trivial, hs⟩
  | case3 next code c path siblings ih => exact ⟨hlow, ih (Nat.lt_succ_self next) trivial, hs⟩

/-- An insertion that numbers its nodes after all others keeps this. -/
theorem above_insert {a : α} {next low : Nat} (h : forest.Above low) (hlow : low < next)
    (hnext : ∀ n ∈ forest.numbers, n < next) (path : List Code) :
    (forest.insert a next path).Above low := by
  induction forest, path using insert.induct generalizing low with
  | case1 => simpa [insert] using h
  | case2 code path => exact above_grow hlow trivial
  | case3 c index item children siblings code path hlt =>
    rw [insert, if_pos hlt]
    exact above_grow hlow h
  | case4 index item children siblings code path hlt ih =>
    rw [insert, if_neg hlt, if_pos rfl]
    rw [numbers_cons, List.forall_mem_cons, List.forall_mem_append] at hnext
    exact ⟨h.1, ih h.2.1 hnext.1 hnext.2.1, h.2.2⟩
  | case5 c index item children siblings code path hlt hne ih =>
    rw [insert, if_neg hlt, if_neg hne]
    rw [numbers_cons, List.forall_mem_cons, List.forall_mem_append] at hnext
    exact ⟨h.1, h.2.1, ih h.2.2 hlow hnext.2.2⟩

theorem Above.child? {low : Nat} (h : forest.Above low) (hnode : forest.child? code = some node) :
    low < node.index ∧ node.children.Above node.index := by
  induction forest with
  | nil => cases hnode
  | cons c index item children siblings _ ih =>
    rw [Forest.child?] at hnode
    split at hnode
    · cases hnode
      exact ⟨h.1, h.2.1⟩
    · exact ih h.2.2 hnode

end Forest

namespace Node

variable {n node : Node α} {path : List Code}

/-! ## Walks -/

theorem walk?_append (n : Node α) (path path' : List Code) :
    n.walk? (path ++ path') = (n.walk? path).bind (·.walk? path') := by
  induction path generalizing n with
  | nil => rfl
  | cons code path ih =>
    rw [List.cons_append, walk?, walk?, Option.bind_assoc]
    simp only [ih]

/-- A node at the end of a longer path is the child of the one before. -/
theorem walk?_concat_eq_some_iff {code : Code} :
    n.walk? (path ++ [code]) = some node ↔
      ∃ parent, n.walk? path = some parent ∧ parent.children.child? code = some node := by
  rw [walk?_append, Option.bind_eq_some_iff]
  refine exists_congr fun parent => and_congr_right fun _ => ?_
  rw [walk?, Option.bind_eq_some_iff]
  constructor
  · rintro ⟨child, hchild, hwalk⟩
    rw [hchild, ← Option.some.inj hwalk]
  · intro hchild
    exact ⟨node, hchild, rfl⟩

/-- All nodes at or below a node with the paths that lead to them. -/
def located (n : Node α) : List (List Code × Node α) :=
  ([], n) :: n.children.located

theorem mem_located_iff (h : n.children.Sorted) :
    (path, node) ∈ n.located ↔ n.walk? path = some node := by
  rw [located, List.mem_cons, h.mem_located_iff, Prod.mk.injEq]
  cases path with
  | nil => simp [walk?, eq_comm]
  | cons code rest =>
    rw [walk?, Option.bind_eq_some_iff]
    simp only [List.cons_ne_nil, false_and, false_or, List.cons.injEq]
    constructor
    · rintro ⟨_, _, child, ⟨rfl, rfl⟩, hchild, hwalk⟩
      exact ⟨child, hchild, hwalk⟩
    · rintro ⟨child, hchild, hwalk⟩
      exact ⟨code, rest, child, ⟨rfl, rfl⟩, hchild, hwalk⟩

/-- What holds of a node and passes on to children holds at the end of a walk. -/
theorem walk?_induction {p : Node α → Prop}
    (hstep : ∀ parent code child, p parent → parent.children.child? code = some child → p child)
    (hn : p n) (h : n.walk? path = some node) : p node := by
  induction path generalizing n with
  | nil => exact Option.some.inj h ▸ hn
  | cons code path ih =>
    obtain ⟨child, hchild, h⟩ := Option.bind_eq_some_iff.mp h
    exact ih (hstep n code child hn hchild) h

theorem exists_mem_toList (h : n.item.isSome ∨ n.children ≠ .nil) (hf : n.children.Fruitful) :
    ∃ x, x ∈ n.toList := by
  obtain ⟨index, item, children⟩ := n
  rcases h with hitem | hne
  · obtain ⟨a, rfl⟩ := Option.isSome_iff_exists.mp hitem
    exact ⟨([], a), mem_toList_iff_or.mpr (.inl ⟨rfl, rfl⟩)⟩
  · cases children with
    | nil => exact absurd rfl hne
    | cons code i item' below beside =>
      obtain ⟨path, a, hmem⟩ := hf.exists_cons_mem_toList
      exact ⟨(code :: path, a), mem_toList_iff_or.mpr (.inr hmem)⟩

/-- The paths that lead to a node are the beginnings of the paths under which items are kept. -/
theorem isSome_walk?_iff (hs : n.children.Sorted) (hf : n.children.Fruitful) :
    (n.walk? path).isSome ↔ path = [] ∨ ∃ x ∈ n.toList, path <+: x.1 := by
  induction path generalizing n with
  | nil => simp [walk?]
  | cons code path ih =>
    simp only [List.cons_ne_nil, false_or]
    constructor
    · intro h
      obtain ⟨node, hwalk⟩ := Option.isSome_iff_exists.mp h
      obtain ⟨child, hchild, hwalk⟩ := Option.bind_eq_some_iff.mp hwalk
      obtain ⟨hitem, hbelow⟩ := hf.child? hchild
      -- an item at or below the child has the rest of the path in front of its own
      have hrest : ∃ x ∈ child.toList, path <+: x.1 := by
        rcases (ih (hs.child? hchild) hbelow).mp (by rw [hwalk]; rfl) with rfl | hrest
        · obtain ⟨x, hx⟩ := exists_mem_toList hitem hbelow
          exact ⟨x, hx, List.nil_prefix⟩
        · exact hrest
      obtain ⟨⟨rest, a⟩, hmem, hpart⟩ := hrest
      exact ⟨(code :: rest, a), mem_toList_iff_or.mpr
        (.inr (hs.cons_mem_toList_iff.mpr ⟨child, hchild, hmem⟩)),
        (List.prefix_cons_inj code).mpr hpart⟩
    · rintro ⟨⟨_, a⟩, hmem, hextends⟩
      obtain ⟨rest, rfl, hpart⟩ := List.cons_prefix_iff.mp hextends
      have hbelow : (code :: rest, a) ∈ n.children.toList :=
        (mem_toList_iff_or.mp hmem).resolve_left (by simp)
      obtain ⟨child, hchild, hmem⟩ := hs.cons_mem_toList_iff.mp hbelow
      rw [walk?, hchild]
      exact (ih (hs.child? hchild) (hf.child? hchild).2).mpr (.inr ⟨_, hmem, hpart⟩)

end Node

namespace Trie

variable {t : Trie α} {n n' : Node α} {path path' : List Code}

/-! ## All nodes -/

theorem perm_nodes (t : Trie α) : t.nodes.Perm (t.root :: t.root.children.nodes) :=
  List.mergeSort_perm ..

theorem map_snd_located (t : Trie α) :
    t.root.located.map (·.2) = t.root :: t.root.children.nodes := by
  rw [Node.located, List.map_cons, Forest.map_snd_located]

namespace WellFormed

variable (h : t.WellFormed)
include h

theorem perm_index_nodes : (t.nodes.map (·.index)).Perm (List.range t.size) :=
  (t.perm_nodes.map _).trans h.numbered

theorem length_nodes : t.nodes.length = t.size := by
  simpa using h.perm_index_nodes.length_eq

/-- The nodes are listed in the order of their numbers. -/
theorem map_index_nodes : t.nodes.map (·.index) = List.range t.size := by
  refine h.perm_index_nodes.eq_of_pairwise (fun _ _ _ _ => Nat.le_antisymm) ?_
    (List.pairwise_lt_range.imp Nat.le_of_lt)
  rw [List.pairwise_map]
  refine (List.pairwise_mergeSort (fun l m n hlm hmn => ?_) (fun m n => ?_) _).imp of_decide_eq_true
  · exact decide_eq_true (Nat.le_trans (of_decide_eq_true hlm) (of_decide_eq_true hmn))
  · simpa using Nat.le_total m.index n.index

/-- Every node stands at the end of a path. -/
theorem mem_nodes_iff : n ∈ t.nodes ↔ ∃ path, t.root.walk? path = some n := by
  rw [t.perm_nodes.mem_iff, ← t.map_snd_located, List.mem_map]
  simp only [← Node.mem_located_iff h.sorted]
  constructor
  · rintro ⟨⟨path, node⟩, hmem, rfl⟩
    exact ⟨path, hmem⟩
  · rintro ⟨path, hmem⟩
    exact ⟨_, hmem, rfl⟩

theorem nodup_index_located : (t.root.located.map (·.2.index)).Nodup := by
  have hperm : (t.root.located.map (·.2.index)).Perm (List.range t.size) := by
    have hmap := congrArg (List.map (·.index)) t.map_snd_located
    rw [List.map_map, List.map_cons] at hmap
    exact (List.Perm.of_eq hmap).trans h.numbered
  exact hperm.nodup_iff.mpr List.nodup_range

/-- Two paths that lead to one number are the same. -/
theorem eq_of_walk? (hn : t.root.walk? path = some n) (hn' : t.root.walk? path' = some n')
    (hindex : n.index = n'.index) : path = path' ∧ n = n' := by
  rw [← Node.mem_located_iff h.sorted] at hn hn'
  exact Prod.mk.inj (List.inj_on_of_nodup_map h.nodup_index_located hn hn' hindex)

theorem eq_of_index_eq (hn : n ∈ t.nodes) (hn' : n' ∈ t.nodes) (hindex : n.index = n'.index) :
    n = n' := by
  obtain ⟨path, hwalk⟩ := h.mem_nodes_iff.mp hn
  obtain ⟨path', hwalk'⟩ := h.mem_nodes_iff.mp hn'
  exact (h.eq_of_walk? hwalk hwalk' hindex).2

theorem sorted_of_mem (hn : n ∈ t.nodes) : n.children.Sorted := by
  obtain ⟨path, hwalk⟩ := h.mem_nodes_iff.mp hn
  exact Node.walk?_induction (p := fun node => node.children.Sorted)
    (fun _ _ _ hparent hchild => hparent.child? hchild) h.sorted hwalk

/-- The root is not the child of any node. -/
theorem index_ne_of_child? {code : Code} (hn : n ∈ t.nodes)
    (hchild : n.children.child? code = some n') : n'.index ≠ t.root.index := by
  obtain ⟨path, hwalk⟩ := h.mem_nodes_iff.mp hn
  intro hindex
  have hwalk' := Node.walk?_concat_eq_some_iff.mpr ⟨n, hwalk, hchild⟩
  have hroot : t.root.walk? [] = some t.root := rfl
  exact List.append_ne_nil_of_right_ne_nil path (List.cons_ne_nil code [])
    (h.eq_of_walk? hwalk' hroot hindex).1

theorem mem_nodes_of_child? {code : Code} (hn : n ∈ t.nodes)
    (hchild : n.children.child? code = some n') : n' ∈ t.nodes := by
  obtain ⟨path, hwalk⟩ := h.mem_nodes_iff.mp hn
  exact h.mem_nodes_iff.mpr ⟨_, Node.walk?_concat_eq_some_iff.mpr ⟨n, hwalk, hchild⟩⟩

/-- Every node but the root is the child of one node, under one code. -/
theorem existsUnique_parent (hn : n ∈ t.nodes) (hroot : n.index ≠ t.root.index) :
    ∃! x : Node α × Code, x.1 ∈ t.nodes ∧ x.1.children.child? x.2 = some n := by
  obtain ⟨path, hwalk⟩ := h.mem_nodes_iff.mp hn
  rcases List.eq_nil_or_concat path with rfl | ⟨front, code, rfl⟩
  · exact absurd (congrArg (·.index) (Option.some.inj hwalk)).symm hroot
  rw [List.concat_eq_append] at hwalk
  obtain ⟨parent, hparent, hchild⟩ := Node.walk?_concat_eq_some_iff.mp hwalk
  refine ⟨(parent, code), ⟨h.mem_nodes_iff.mpr ⟨front, hparent⟩, hchild⟩, ?_⟩
  rintro ⟨parent', code'⟩ ⟨hparent', hchild'⟩
  obtain ⟨front', hparent'⟩ := h.mem_nodes_iff.mp hparent'
  -- the paths through both parents lead to the node, so they are the same
  have hwalk' := Node.walk?_concat_eq_some_iff.mpr ⟨parent', hparent', hchild'⟩
  obtain ⟨rfl, hcode⟩ := List.append_inj' (h.eq_of_walk? hwalk' hwalk rfl).1 rfl
  rw [hparent] at hparent'
  exact Prod.ext (Option.some.inj hparent').symm (List.singleton_inj.mp hcode)

/-- Below the root there is no node with nothing to it. -/
theorem isSome_item_or_ne_nil (hn : n ∈ t.nodes) (hroot : t.root.item.isSome ∨ t.root.children ≠ .nil) :
    n.item.isSome ∨ n.children ≠ .nil := by
  obtain ⟨path, hwalk⟩ := h.mem_nodes_iff.mp hn
  have hall := Node.walk?_induction
    (p := fun node => (node.item.isSome ∨ node.children ≠ .nil) ∧ node.children.Fruitful)
    (fun _ _ _ hparent hchild => hparent.2.child? hchild) ⟨hroot, h.fruitful⟩ hwalk
  exact hall.1

theorem lt_of_child? {code : Code} (habove : t.root.children.Above t.root.index) (hn : n ∈ t.nodes)
    (hchild : n.children.child? code = some n') : n.index < n'.index := by
  obtain ⟨path, hwalk⟩ := h.mem_nodes_iff.mp hn
  have hbelow := Node.walk?_induction (p := fun node => node.children.Above node.index)
    (fun _ _ _ hparent hchild => (hparent.child? hchild).2) habove hwalk
  exact (hbelow.child? hchild).1

/-- There are as many nodes as paths that lead to nodes. -/
theorem size_eq_card : t.size = (t.root.located.map (·.1)).toFinset.card := by
  have hnodup : (t.root.located.map (·.1)).Nodup := by
    refine (List.Nodup.of_map _ h.nodup_index_located).map_on ?_
    rintro ⟨path, n⟩ hn ⟨path', n'⟩ hn' rfl
    rw [Node.mem_located_iff h.sorted] at hn hn'
    rw [Option.some.inj (hn.symm.trans hn')]
  have hlength := congrArg List.length t.map_snd_located
  rw [List.toFinset_card_of_nodup hnodup, List.length_map, ← h.length_nodes, t.perm_nodes.length_eq,
    ← hlength, List.length_map]

end WellFormed

end Trie

end Shorthand
