import Shorthand.Trie.Basic
import Mathlib.Data.List.Perm.Basic
import Mathlib.Data.List.Sort

/-!
# What tries keep

A trie that was built by insertions is known by its list of items with their paths: a path is looked
up in the trie as it is in the list, and an insertion adds its item to the list and changes nothing
else. The order of the edges makes the list ascend.

Three invariants carry this. They hold of the empty trie and every insertion keeps them:

- `Forest.Sorted`: edges ascend by code, at every node;
- `Forest.Fruitful`: below every edge there is an item;
- `Trie.WellFormed.numbered`: the nodes have the numbers below the size of the trie, each one once.
-/

namespace Shorthand

variable {α β : Type}

namespace Forest

/-! ## Invariants -/

/-- Edges ascend by code, here and below. -/
def Sorted : Forest α → Prop
  | nil => True
  | cons code _ _ children siblings =>
    (∀ edge ∈ siblings.edges, code < edge.1) ∧ children.Sorted ∧ siblings.Sorted

/-- A node has an item or trees below it, here and below. -/
def Fruitful : Forest α → Prop
  | nil => True
  | cons _ _ item children siblings =>
    (item.isSome ∨ children ≠ nil) ∧ children.Fruitful ∧ siblings.Fruitful

/-- The numbers of all nodes. -/
def numbers (forest : Forest α) : List Nat :=
  forest.nodes.map (·.index)

@[simp] theorem numbers_nil : (nil : Forest α).numbers = [] := rfl

@[simp] theorem numbers_cons (code : Code) (index : Nat) (item : Option α)
    (children siblings : Forest α) :
    (cons code index item children siblings).numbers =
      index :: (children.numbers ++ siblings.numbers) := by
  simp [numbers, nodes]

/-! ## Paths -/

/-- What a tree lists is the item of its root, under its code alone, or stands below or beside it. -/
theorem mem_toList_cons {code : Code} {index : Nat} {item : Option α}
    {children siblings : Forest α} {path : List Code} {a : α} :
    (path, a) ∈ (cons code index item children siblings).toList ↔
      (path = [code] ∧ item = some a) ∨
        (∃ rest, path = code :: rest ∧ (rest, a) ∈ children.toList) ∨
          (path, a) ∈ siblings.toList := by
  simp only [toList, List.mem_append, List.mem_map, Option.mem_toList, Prod.mk.injEq, or_assoc]
  constructor
  · rintro (⟨b, hb, rfl, rfl⟩ | ⟨⟨rest, b⟩, hb, rfl, rfl⟩ | h)
    · exact .inl ⟨rfl, hb⟩
    · exact .inr (.inl ⟨rest, rfl, hb⟩)
    · exact .inr (.inr h)
  · rintro (⟨rfl, hitem⟩ | ⟨rest, rfl, hmem⟩ | h)
    · exact .inl ⟨a, hitem, rfl, rfl⟩
    · exact .inr (.inl ⟨(rest, a), hmem, rfl, rfl⟩)
    · exact .inr (.inr h)

theorem exists_edge_of_mem_toList {forest : Forest α} {path : List Code} {a : α}
    (h : (path, a) ∈ forest.toList) : ∃ edge ∈ forest.edges, ∃ rest, path = edge.1 :: rest := by
  induction forest generalizing path with
  | nil => cases h
  | cons code index item children siblings _ ih =>
    rcases mem_toList_cons.mp h with ⟨rfl, -⟩ | ⟨rest, rfl, -⟩ | h
    · exact ⟨(code, index), List.mem_cons_self .., [], rfl⟩
    · exact ⟨(code, index), List.mem_cons_self .., rest, rfl⟩
    · obtain ⟨edge, hedge, rest, rfl⟩ := ih h
      exact ⟨edge, List.mem_cons_of_mem _ hedge, rest, rfl⟩

theorem ne_nil_of_mem_toList {forest : Forest α} {path : List Code} {a : α}
    (h : (path, a) ∈ forest.toList) : path ≠ [] := by
  obtain ⟨edge, -, rest, rfl⟩ := exists_edge_of_mem_toList h
  exact List.cons_ne_nil _ _

theorem forall_mem_toList_cons {p : α → Prop} {code : Code} {index : Nat} {item : Option α}
    {children siblings : Forest α} :
    (∀ x ∈ (cons code index item children siblings).toList, p x.2) ↔
      (∀ a, item = some a → p a) ∧ (∀ x ∈ children.toList, p x.2) ∧
        ∀ x ∈ siblings.toList, p x.2 := by
  simp only [toList, List.forall_mem_append, List.forall_mem_map, Option.mem_toList, and_assoc]

/-- The items are listed by ascending paths. -/
theorem Sorted.pairwise_toList {forest : Forest α} (h : forest.Sorted) :
    forest.toList.Pairwise fun x y => x.1 < y.1 := by
  induction forest with
  | nil => exact List.Pairwise.nil
  | cons code index item children siblings ihc ihs =>
    obtain ⟨hlt, hc, hs⟩ := h
    simp only [toList, List.pairwise_append]
    -- four pieces: the item of the root, the paths below it, one against the other, and the paths
    -- of the trees beside it, whose first codes are greater
    refine ⟨⟨?root, ?children, ?inside⟩, ihs hs, ?beside⟩
    case root => cases item <;> simp
    case children =>
      rw [List.pairwise_map]
      exact (ihc hc).imp fun hpq => List.cons_lt_cons_iff.mpr (.inr ⟨rfl, hpq⟩)
    case inside =>
      rintro ⟨p, b⟩ hp ⟨q, d⟩ hq
      simp only [List.mem_map, Prod.mk.injEq] at hp hq
      obtain ⟨-, -, rfl, -⟩ := hp
      obtain ⟨⟨r, e⟩, hr, rfl, -⟩ := hq
      cases r with
      | nil => exact absurd rfl (ne_nil_of_mem_toList hr)
      | cons d r => exact List.cons_lt_cons_iff.mpr (.inr ⟨rfl, List.nil_lt_cons ..⟩)
    case beside =>
      rintro ⟨p, b⟩ hp ⟨q, d⟩ hq
      obtain ⟨edge, hedge, rest, rfl⟩ := exists_edge_of_mem_toList hq
      have hcode : ∃ rest', p = code :: rest' := by
        simp only [List.mem_append, List.mem_map, Prod.mk.injEq] at hp
        rcases hp with ⟨-, -, rfl, -⟩ | ⟨r, -, rfl, -⟩
        · exact ⟨[], rfl⟩
        · exact ⟨r.1, rfl⟩
      obtain ⟨rest', rfl⟩ := hcode
      exact List.cons_lt_cons_iff.mpr (.inl (hlt edge hedge))

end Forest

/-- What is listed at a node is its own item, under the empty path, or one of those below. -/
theorem Node.mem_toList_iff_or {node : Node α} {path : List Code} {a : α} :
    (path, a) ∈ node.toList ↔
      (path = [] ∧ node.item = some a) ∨ (path, a) ∈ node.children.toList := by
  simp only [Node.toList, List.mem_append, List.mem_map, Option.mem_toList, Prod.mk.injEq]
  apply or_congr_left
  constructor
  · rintro ⟨b, hb, rfl, rfl⟩
    exact ⟨rfl, hb⟩
  · rintro ⟨rfl, hitem⟩
    exact ⟨a, hitem, rfl, rfl⟩

namespace Forest

/-! ## Look-up -/

/-- No tree is reached by a code below those of all edges. -/
theorem child?_eq_none {forest : Forest α} {code : Code}
    (h : ∀ edge ∈ forest.edges, code < edge.1) : forest.child? code = none := by
  induction forest with
  | nil => rfl
  | cons c index item children siblings _ ih =>
    have hne : code ≠ c := by
      rintro rfl
      exact UInt16.lt_irrefl _ (h _ (List.mem_cons_self ..))
    rw [child?, if_neg hne]
    exact ih fun edge hedge => h edge (List.mem_cons_of_mem _ hedge)

/-- The items under the paths that start with a code are those of the tree it reaches. -/
theorem Sorted.cons_mem_toList_iff {forest : Forest α} (h : forest.Sorted) {code : Code}
    {path : List Code} {a : α} :
    (code :: path, a) ∈ forest.toList ↔
      ∃ node, forest.child? code = some node ∧ (path, a) ∈ node.toList := by
  induction forest with
  | nil => simp only [toList, child?, List.not_mem_nil, reduceCtorEq, false_and, exists_false]
  | cons c index item children siblings _ ih =>
    obtain ⟨hlt, -, hs⟩ := h
    -- the first tree has the paths that start with its own code
    have hsplit : (code :: path, a) ∈ (cons c index item children siblings).toList ↔
        (c = code ∧ (path, a) ∈ (⟨index, item, children⟩ : Node α).toList) ∨
          (code :: path, a) ∈ siblings.toList := by
      rw [mem_toList_cons, Node.mem_toList_iff_or]
      grind
    rw [hsplit, child?]
    by_cases hcode : code = c
    · subst hcode
      rw [if_pos rfl]
      -- the codes beside it are greater, so the look-up may stop here
      have hnone : (code :: path, a) ∉ siblings.toList := by
        intro hmem
        obtain ⟨edge, hedge, rest, heq⟩ := exists_edge_of_mem_toList hmem
        have := hlt edge hedge
        rw [← (List.cons.inj heq).1] at this
        exact UInt16.lt_irrefl _ this
      simp only [hnone, or_false, true_and, Option.some.injEq, exists_eq_left']
    · rw [if_neg hcode, ih hs]
      simp only [Ne.symm hcode, false_and, false_or]

/-- A tree reached by a code is sorted below its root. -/
theorem Sorted.child? {forest : Forest α} (h : forest.Sorted) {code : Code} {node : Node α}
    (hnode : forest.child? code = some node) : node.children.Sorted := by
  induction forest with
  | nil => cases hnode
  | cons c index item children siblings _ ih =>
    obtain ⟨-, hc, hs⟩ := h
    rw [Forest.child?] at hnode
    split at hnode
    · cases hnode
      exact hc
    · exact ih hs hnode

end Forest

/-- The item that a path leads to is the one listed under it. -/
theorem Node.mem_toList_iff {node : Node α} (h : node.children.Sorted) {path : List Code} {a : α} :
    (path, a) ∈ node.toList ↔ (node.walk? path).bind (·.item) = some a := by
  induction path generalizing node with
  | nil =>
    -- what lies below has a path of one code at least
    have hnone : ([], a) ∉ node.children.toList := fun hmem =>
      Forest.ne_nil_of_mem_toList hmem rfl
    simp only [mem_toList_iff_or, hnone, or_false, true_and, walk?, Option.bind_some]
  | cons code path ih =>
    have hchildren : (code :: path, a) ∈ node.toList ↔ (code :: path, a) ∈ node.children.toList := by
      simp only [mem_toList_iff_or, List.cons_ne_nil, false_and, false_or]
    rw [hchildren, h.cons_mem_toList_iff, walk?]
    cases hchild : node.children.child? code with
    | none => simp only [reduceCtorEq, false_and, exists_false, Option.bind_none]
    | some child => simp only [Option.some.injEq, exists_eq_left', Option.bind_some,
        ih (h.child? hchild)]

namespace Forest

/-! ## Insertion -/

variable {a : α} {next : Nat}

theorem toList_grow {path : List Code} (h : path ≠ []) (siblings : Forest α) :
    (grow a next path siblings).toList = (path, a) :: siblings.toList := by
  induction next, path, siblings using grow.induct with
  | case1 => exact absurd rfl h
  | case2 => simp [grow, toList]
  | case3 next code c path siblings ih => simp [grow, toList, ih (List.cons_ne_nil _ _)]

theorem edges_grow (code : Code) (path : List Code) (siblings : Forest α) :
    (grow a next (code :: path) siblings).edges = (code, next) :: siblings.edges := by
  cases path <;> simp [grow, edges]

theorem grow_ne_nil {path : List Code} (h : path ≠ []) (siblings : Forest α) :
    grow a next path siblings ≠ nil := by
  match path, h with
  | [_], _ => simp [grow]
  | _ :: _ :: _, _ => simp [grow]

theorem numbers_grow (path : List Code) (siblings : Forest α) :
    (grow a next path siblings).numbers = List.range' next path.length ++ siblings.numbers := by
  induction next, path, siblings using grow.induct with
  | case1 => simp [grow]
  | case2 => simp [grow]
  | case3 next code c path siblings ih => simp [grow, ih, List.range'_succ]

theorem sorted_grow {path : List Code} {siblings : Forest α} (hs : siblings.Sorted)
    (hlt : ∀ code ∈ path.head?, ∀ edge ∈ siblings.edges, code < edge.1) :
    (grow a next path siblings).Sorted := by
  induction next, path, siblings using grow.induct with
  | case1 => simpa [grow] using hs
  | case2 => exact ⟨hlt _ rfl, trivial, hs⟩
  | case3 next code c path siblings ih =>
    exact ⟨hlt _ rfl, ih trivial (by simp [edges]), hs⟩

theorem fruitful_grow {path : List Code} {siblings : Forest α} (hs : siblings.Fruitful) :
    (grow a next path siblings).Fruitful := by
  induction next, path, siblings using grow.induct with
  | case1 => simpa [grow] using hs
  | case2 => exact ⟨.inl rfl, trivial, hs⟩
  | case3 next code c path siblings ih =>
    exact ⟨.inr (grow_ne_nil (List.cons_ne_nil _ _) _), ih trivial, hs⟩

/-- An insertion under a new path lists its item and changes nothing else. -/
theorem toList_insert {forest : Forest α} {path : List Code} (hpath : path ≠ [])
    (hnew : ∀ b, (path, b) ∉ forest.toList) :
    (forest.insert a next path).toList.Perm ((path, a) :: forest.toList) := by
  induction forest, path using insert.induct with
  | case1 => exact absurd rfl hpath
  | case2 code path => simp [insert, toList_grow, toList]
  -- a new tree in front of the first one
  | case3 c index item children siblings code path hlt =>
    rw [insert, if_pos hlt, toList_grow (List.cons_ne_nil _ _)]
  -- the code is that of the first tree, which is left by one code
  | case4 index item children siblings code path hlt ih =>
    rw [insert, if_neg hlt, if_pos rfl]
    cases path with
    | nil =>
      -- the path ends here, where nothing can be kept so far
      have hitem : item = none := by
        cases item with
        | none => rfl
        | some b => exact absurd (mem_toList_cons.mpr (.inl ⟨rfl, rfl⟩)) (hnew b)
      subst hitem
      simp [toList, insert]
    | cons d path =>
      have hperm := ih (List.cons_ne_nil _ _) fun b hb =>
        hnew b (mem_toList_cons.mpr (.inr (.inl ⟨_, rfl, hb⟩)))
      have hmap := hperm.map fun x => (code :: x.1, x.2)
      simp only [toList, List.isEmpty_cons, Bool.false_eq_true, if_false]
      exact ((hmap.append_left _).trans List.perm_middle).append_right _
  -- the place is further on among the trees beside
  | case5 c index item children siblings code path hlt hne ih =>
    rw [insert, if_neg hlt, if_neg hne]
    have hperm := ih hpath fun b hb => hnew b (mem_toList_cons.mpr (.inr (.inr hb)))
    exact (hperm.append_left _).trans List.perm_middle

/-- An insertion may add an edge for its first code. -/
theorem fst_mem_of_mem_edges_insert {forest : Forest α} {path : List Code} {edge : Code × Nat}
    (h : edge ∈ (forest.insert a next path).edges) :
    edge.1 ∈ path.head? ∨ ∃ old ∈ forest.edges, old.1 = edge.1 := by
  induction forest, path using insert.induct with
  | case1 forest => exact .inr ⟨edge, by simpa [insert] using h, rfl⟩
  | case2 code path =>
    rw [insert, edges_grow] at h
    simp_all [edges]
  | case3 c index item children siblings code path hlt =>
    rw [insert, if_pos hlt, edges_grow] at h
    rcases List.mem_cons.mp h with rfl | h
    · exact .inl rfl
    · exact .inr ⟨edge, h, rfl⟩
  | case4 index item children siblings code path hlt ih =>
    rw [insert, if_neg hlt, if_pos rfl] at h
    exact .inr ⟨edge, h, rfl⟩
  | case5 c index item children siblings code path hlt hne ih =>
    rw [insert, if_neg hlt, if_neg hne] at h
    rcases List.mem_cons.mp h with rfl | h
    · exact .inr ⟨_, List.mem_cons_self .., rfl⟩
    · rcases ih h with h | ⟨old, hold, heq⟩
      · exact .inl h
      · exact .inr ⟨old, List.mem_cons_of_mem _ hold, heq⟩

theorem sorted_insert {forest : Forest α} (h : forest.Sorted) (path : List Code) :
    (forest.insert a next path).Sorted := by
  induction forest, path using insert.induct with
  | case1 => simpa [insert] using h
  | case2 code path => exact sorted_grow trivial (by simp [edges])
  -- the new code is less than the first one, which is less than all others
  | case3 c index item children siblings code path hlt =>
    rw [insert, if_pos hlt]
    refine sorted_grow h fun d hd edge hedge => ?_
    obtain rfl := Option.some.inj hd
    rcases List.mem_cons.mp hedge with rfl | hedge
    · exact hlt
    · exact UInt16.lt_trans hlt (h.1 edge hedge)
  | case4 index item children siblings code path hlt ih =>
    rw [insert, if_neg hlt, if_pos rfl]
    exact ⟨h.1, ih h.2.1, h.2.2⟩
  | case5 c index item children siblings code path hlt hne ih =>
    rw [insert, if_neg hlt, if_neg hne]
    refine ⟨fun edge hedge => ?_, h.2.1, ih h.2.2⟩
    -- the only code that may be new here is the one inserted
    rcases fst_mem_of_mem_edges_insert hedge with hhead | ⟨old, hold, heq⟩
    · have hcode : code = edge.1 := Option.some.inj hhead
      rw [← hcode]
      exact UInt16.lt_of_le_of_ne (UInt16.not_lt.mp hlt) (Ne.symm hne)
    · exact heq ▸ h.1 old hold

theorem insert_ne_nil {forest : Forest α} {path : List Code} (h : path ≠ [] ∨ forest ≠ nil) :
    forest.insert a next path ≠ nil := by
  induction forest, path using insert.induct with
  | case1 forest => simpa [insert] using h
  | case2 code path => exact grow_ne_nil (List.cons_ne_nil _ _) _
  | case3 c index item children siblings code path hlt =>
    rw [insert, if_pos hlt]
    exact grow_ne_nil (List.cons_ne_nil _ _) _
  | case4 index item children siblings code path hlt ih =>
    rw [insert, if_neg hlt, if_pos rfl]
    simp
  | case5 c index item children siblings code path hlt hne ih =>
    rw [insert, if_neg hlt, if_neg hne]
    simp

theorem fruitful_insert {forest : Forest α} (h : forest.Fruitful) (path : List Code) :
    (forest.insert a next path).Fruitful := by
  induction forest, path using insert.induct with
  | case1 => simpa [insert] using h
  | case2 code path => exact fruitful_grow trivial
  | case3 c index item children siblings code path hlt =>
    rw [insert, if_pos hlt]
    exact fruitful_grow h
  | case4 index item children siblings code path hlt ih =>
    rw [insert, if_neg hlt, if_pos rfl]
    refine ⟨?_, ih h.2.1, h.2.2⟩
    -- either the item ends up here or there is a tree below now
    cases path with
    | nil => exact .inl rfl
    | cons d path => exact .inr (insert_ne_nil (.inl (List.cons_ne_nil _ _)))
  | case5 c index item children siblings code path hlt hne ih =>
    rw [insert, if_neg hlt, if_neg hne]
    exact ⟨h.1, h.2.1, ih h.2.2⟩

/-- An insertion numbers the nodes it adds upwards from `next`. -/
theorem numbers_insert {forest : Forest α} (h : forest.Sorted) (path : List Code)
    (n : Nat) (o : Option α) :
    (forest.insert a next path).numbers.Perm (forest.numbers ++
      List.range' next (path.length - (⟨n, o, forest⟩ : Node α).depth path)) := by
  induction forest, path using insert.induct generalizing n o with
  | case1 => simp [insert]
  | case2 code path => simp [insert, numbers_grow, Node.depth, child?]
  | case3 c index item children siblings code path hlt =>
    -- the code is less than all others, so all nodes of the path are new
    have hnone : (cons c index item children siblings).child? code = none := by
      refine child?_eq_none fun edge hedge => ?_
      rcases List.mem_cons.mp hedge with rfl | hedge
      · exact hlt
      · exact UInt16.lt_trans hlt (h.1 edge hedge)
    rw [insert, if_pos hlt, numbers_grow, Node.depth, hnone, Nat.sub_zero]
    exact List.perm_append_comm
  | case4 index item children siblings code path hlt ih =>
    rw [insert, if_neg hlt, if_pos rfl, Node.depth, child?, if_pos rfl]
    simp only [numbers_cons, List.length_cons, Nat.add_sub_add_right]
    rw [List.cons_append, List.append_assoc]
    -- the numbers added below move past those beside
    refine (((ih h.2.1 index item).append_right _).trans ?_).cons _
    rw [List.append_assoc]
    exact List.perm_append_comm.append_left _
  | case5 c index item children siblings code path hlt hne ih =>
    rw [insert, if_neg hlt, if_neg hne, Node.depth, child?, if_neg hne]
    simp only [numbers_cons]
    rw [List.cons_append, List.append_assoc]
    exact ((ih h.2.2 n o).append_left _).cons _

/-! ## Items under every edge -/

/-- Below the first edge there is an item. -/
theorem Fruitful.exists_cons_mem_toList {code : Code} {index : Nat} {item : Option α}
    {children siblings : Forest α} (h : (cons code index item children siblings).Fruitful) :
    ∃ path a, (code :: path, a) ∈ (cons code index item children siblings).toList := by
  induction children generalizing code index item siblings with
  | nil =>
    -- nothing is below, so there is an item at the root
    obtain ⟨a, rfl⟩ := Option.isSome_iff_exists.mp (h.1.resolve_right (absurd rfl))
    exact ⟨[], a, mem_toList_cons.mpr (.inl ⟨rfl, rfl⟩)⟩
  | cons c i below children beside ih _ =>
    obtain ⟨path, a, hmem⟩ := ih h.2.1
    exact ⟨c :: path, a, mem_toList_cons.mpr (.inr (.inl ⟨_, rfl, hmem⟩))⟩

/-- Whether all codes have a property, here and below. -/
def Over (p : Code → Prop) : Forest α → Prop
  | nil => True
  | cons code _ _ children siblings => p code ∧ children.Over p ∧ siblings.Over p

theorem Over.imp {p q : Code → Prop} (hpq : ∀ code, p code → q code) {forest : Forest α}
    (h : forest.Over p) : forest.Over q := by
  induction forest with
  | nil => trivial
  | cons code index item children siblings ihc ihs => exact ⟨hpq _ h.1, ihc h.2.1, ihs h.2.2⟩

/-- Every code is on the path of an item. -/
theorem Fruitful.over {forest : Forest α} (h : forest.Fruitful) {p : Code → Prop}
    (hp : ∀ x ∈ forest.toList, ∀ code ∈ x.1, p code) : forest.Over p := by
  induction forest with
  | nil => trivial
  | cons code index item children siblings ihc ihs =>
    refine ⟨?_, ihc h.2.1 fun x hx d hd => ?_, ihs h.2.2 fun x hx => ?_⟩
    · obtain ⟨path, a, hx⟩ := h.exists_cons_mem_toList
      exact hp (code :: path, a) hx code (List.mem_cons_self ..)
    · exact hp (code :: x.1, x.2) (mem_toList_cons.mpr (.inr (.inl ⟨_, rfl, hx⟩))) d
        (List.mem_cons_of_mem _ hd)
    · exact hp x (mem_toList_cons.mpr (.inr (.inr hx)))

/-! ## Other items on the same paths -/

variable (f : α → β) (forest : Forest α)

@[simp] theorem edges_map : (forest.map f).edges = forest.edges := by
  induction forest with
  | nil => rfl
  | cons code index item children siblings _ ih => simp [map, edges, ih]

@[simp] theorem toList_map : (forest.map f).toList = forest.toList.map fun x => (x.1, f x.2) := by
  induction forest with
  | nil => rfl
  | cons code index item children siblings ihc ihs =>
    simp only [map, toList, ihc, ihs, List.map_append, List.map_map]
    cases item <;> rfl

@[simp] theorem numbers_map : (forest.map f).numbers = forest.numbers := by
  induction forest with
  | nil => rfl
  | cons code index item children siblings ihc ihs => simp [map, ihc, ihs]

theorem map_eq_nil_iff {forest : Forest α} : forest.map f = nil ↔ forest = nil := by
  cases forest <;> simp [map]

variable {forest}

theorem Sorted.map (h : forest.Sorted) : (forest.map f).Sorted := by
  induction forest with
  | nil => trivial
  | cons code index item children siblings ihc ihs =>
    exact ⟨by simpa using h.1, ihc h.2.1, ihs h.2.2⟩

theorem Fruitful.map (h : forest.Fruitful) : (forest.map f).Fruitful := by
  induction forest with
  | nil => trivial
  | cons code index item children siblings ihc ihs =>
    refine ⟨h.1.imp (fun hitem => ?_) fun hne => ?_, ihc h.2.1, ihs h.2.2⟩
    · simpa using hitem
    · rwa [Ne, map_eq_nil_iff]

end Forest

namespace Trie

/-! ## Tries -/

/-- What holds of every trie that was built by insertions. -/
structure WellFormed (t : Trie α) : Prop where
  /-- Edges ascend by code. -/
  sorted : t.root.children.Sorted
  /-- Below every edge there is an item. -/
  fruitful : t.root.children.Fruitful
  /-- The nodes are numbered without a gap. -/
  numbered : (t.root.index :: t.root.children.numbers).Perm (List.range t.size)

theorem wellFormed_empty : (∅ : Trie α).WellFormed :=
  ⟨trivial, trivial, List.Perm.refl [0]⟩

theorem toList_empty : (∅ : Trie α).toList = [] := rfl

namespace WellFormed

variable {t : Trie α} {path : List Code} {a : α}

theorem insert (h : t.WellFormed) (path : List Code) (a : α) : (t.insert path a).WellFormed where
  sorted := Forest.sorted_insert h.sorted path
  fruitful := Forest.fruitful_insert h.fruitful path
  numbered := by
    have hnew : (t.root.children.insert a t.size path).numbers.Perm _ :=
      Forest.numbers_insert h.sorted path t.root.index t.root.item
    -- the nodes of a path that are not there yet get the numbers from `t.size` on
    have hroot : (⟨t.root.index, t.root.item, t.root.children⟩ : Node α) = t.root := rfl
    rw [hroot] at hnew
    have hrange : List.range (t.size + (path.length - t.root.depth path)) =
        List.range t.size ++ List.range' t.size (path.length - t.root.depth path) := by
      simp only [List.range_eq_range']
      simpa using (List.range'_append_1 (s := 0)).symm
    simp only [Trie.insert]
    rw [hrange]
    exact (hnew.cons _).trans (h.numbered.append_right _)

theorem map (h : t.WellFormed) (f : α → β) : (t.map f).WellFormed :=
  ⟨h.sorted.map f, h.fruitful.map f, by simpa [Trie.map, Node.map] using h.numbered⟩

/-- The item kept under a path is the one listed under it. -/
theorem get?_eq_some_iff (h : t.WellFormed) : t.get? path = some a ↔ (path, a) ∈ t.toList :=
  (Node.mem_toList_iff h.sorted).symm

theorem get?_eq_none_iff (h : t.WellFormed) :
    t.get? path = none ↔ ∀ b, (path, b) ∉ t.toList := by
  simp only [← h.get?_eq_some_iff, Option.eq_none_iff_forall_ne_some]

theorem pairwise_toList (h : t.WellFormed) : t.toList.Pairwise fun x y => x.1 < y.1 := by
  rw [Trie.toList, Node.toList, List.pairwise_append]
  refine ⟨?_, h.sorted.pairwise_toList, ?_⟩
  · cases t.root.item <;> simp
  · rintro ⟨p, b⟩ hp ⟨q, d⟩ hq
    obtain ⟨edge, -, rest, rfl⟩ := Forest.exists_edge_of_mem_toList hq
    simp only [List.mem_map, Prod.mk.injEq] at hp
    obtain ⟨-, -, rfl, -⟩ := hp
    exact List.nil_lt_cons ..

/-- The list of a trie is known from its members, since the paths ascend. -/
theorem toList_eq_of_mem_iff {t' : Trie α} (h : t.WellFormed) (h' : t'.WellFormed)
    (hmem : ∀ x, x ∈ t.toList ↔ x ∈ t'.toList) : t.toList = t'.toList := by
  have hasymm : Std.Asymm fun x y : List Code × α => x.1 < y.1 := ⟨fun _ _ => List.lt_asymm⟩
  exact h.pairwise_toList.eq_of_mem_iff h'.pairwise_toList hmem

/-- An insertion under a new path lists its item and changes nothing else. -/
theorem toList_insert (hnew : ∀ b, (path, b) ∉ t.toList) :
    (t.insert path a).toList.Perm ((path, a) :: t.toList) := by
  cases path with
  | nil =>
    -- the empty path is that of the root, where nothing can be kept so far
    have hitem : t.root.item = none := by
      cases hroot : t.root.item with
      | none => rfl
      | some b => exact absurd (Node.mem_toList_iff_or.mpr (.inl ⟨rfl, hroot⟩)) (hnew b)
    simp [Trie.toList, Trie.insert, Node.toList, hitem, Forest.insert]
  | cons code path =>
    have hperm : (t.root.children.insert a t.size (code :: path)).toList.Perm _ :=
      Forest.toList_insert (List.cons_ne_nil code path) fun b hb =>
        hnew b (Node.mem_toList_iff_or.mpr (.inr hb))
    simp only [Trie.toList, Trie.insert, Node.toList, List.isEmpty_cons, Bool.false_eq_true, if_false]
    exact (hperm.append_left _).trans List.perm_middle

end WellFormed

@[simp] theorem toList_map (f : α → β) (t : Trie α) :
    (t.map f).toList = t.toList.map fun x => (x.1, f x.2) := by
  simp only [Trie.toList, Node.toList, Trie.map, Node.map, Forest.toList_map, List.map_append,
    List.map_map]
  cases t.root.item <;> rfl

end Trie

end Shorthand
