import Shorthand.Proofs.Table.Tiling

/-!
# The size of a table

How many words a table takes is known from the nodes of its trie alone (`Trie.tableSize`). A match
takes two words wherever it stands, and a list of branches two for each child and a zero. Every other
code belongs to a node with one child: it stands in one run, and a run ends with a zero. So it is enough
to count the nodes at which runs start.

`Forest.runs` counts them along the trees, as the entries of these are made, and by
`Forest.span_entries` this gives the number of words. Which of the nodes they are does not depend on the
way there: a run starts at the root, at an item, or below a list of branches, as
`Forest.runs_eq_countP` says.

## Main statements

- `Trie.WellFormed.span_entries`: the entries of a trie take `Trie.tableSize` words.
- `Matcher.encode_tableSize`: there is a table of this size if offsets reach that far. Otherwise the
  error names an entry that ends beyond.
-/

namespace Shorthand

variable {α β : Type}

/-! ## Words of a node -/

/-- The number of words that a node takes wherever it stands: those of its match and those of its list
of branches. -/
def Node.weight (n : Node α) : Nat :=
  (if n.item.isSome then 2 else 0) +
    if 2 ≤ n.children.edges.length then n.children.edges.length + 1 else 0

/-- What nodes take wherever they stand, item by item and list by list. -/
theorem Node.sum_weight (nodes : List (Node α)) :
    (nodes.map Node.weight).sum = 2 * nodes.countP (·.item.isSome) +
      (((nodes.filter fun n => 2 ≤ n.children.edges.length).map (·.children.edges.length)).sum +
        (nodes.filter fun n => 2 ≤ n.children.edges.length).length) := by
  induction nodes with
  | nil => rfl
  | cons n nodes ih =>
    have hmatch : (if n.item.isSome then 2 else 0) = 2 * if n.item.isSome then 1 else 0 := by
      split <;> rfl
    rw [List.map_cons, List.sum_cons, ih, List.countP_cons, Node.weight, hmatch]
    by_cases htwo : 2 ≤ n.children.edges.length
    · simp only [List.filter_cons, decide_eq_true htwo, if_true, List.map_cons, List.sum_cons,
        List.length_cons]
      rw [if_pos htwo]
      omega
    · simp only [List.filter_cons, decide_eq_false htwo, Bool.false_eq_true, if_false]
      rw [if_neg htwo]
      omega

namespace Forest

/-- The number of words that all nodes take, with a code for each of them. -/
def weight (forest : Forest α) : Nat :=
  (forest.nodes.map Node.weight).sum + forest.nodes.length

theorem weight_cons (code : Code) (index : Nat) (item : Option α) (children siblings : Forest α) :
    (cons code index item children siblings).weight =
      (Node.weight ⟨index, item, children⟩ + 1) + children.weight + siblings.weight := by
  simp only [weight, nodes, List.map_cons, List.map_append, List.sum_cons, List.sum_append,
    List.length_cons, List.length_append]
  omega

/-- The number of nodes at which runs start. If these trees are `branched` off, then runs start at the
roots of those that have one tree below. -/
def runs (branched : Bool) : Forest α → Nat
  | nil => 0
  | cons _ _ item children siblings =>
    (if children.isSingle && (branched || item.isSome) then 1 else 0) +
      children.runs (!children.isSingle) + siblings.runs branched

/-- The number of words of the shape of a node that has these trees below, and of the entries below. -/
def blockSize (forest : Forest α) : Nat :=
  (if 2 ≤ forest.edges.length then forest.edges.length + 1 else 0) + forest.weight +
    (if forest.isSingle then 1 else 0) + forest.runs (!forest.isSingle)

theorem blockSize_of_isSingle {forest : Forest α} (h : forest.isSingle) :
    forest.blockSize = forest.weight + 1 + forest.runs false := by
  simp [blockSize, two_le_length_edges_iff, h]

theorem blockSize_of_not_isSingle {forest : Forest α} (hne : forest ≠ nil)
    (h : forest.isSingle = false) :
    forest.blockSize = forest.edges.length + 1 + forest.weight + forest.runs true := by
  simp [blockSize, two_le_length_edges_iff, h, hne]

variable {code : Code} {index : Nat} {item : Option α} {children siblings : Forest α}

/-- A node that a run passes through adds its code to the run. -/
theorem blockSize_cons_of_run (h : children.isSingle) :
    (cons code index none children nil).blockSize = children.blockSize + 1 := by
  have hweight : Node.weight (⟨index, none, children⟩ : Node α) = 0 := by
    simp [Node.weight, two_le_length_edges_iff, h]
  have hruns : (cons code index none children nil).runs false = children.runs false := by
    simp [runs, h]
  rw [blockSize_of_isSingle rfl, blockSize_of_isSingle h, weight_cons, hweight, hruns]
  simp only [weight, nodes, List.map_nil, List.sum_nil, List.length_nil]
  omega

/-- A node at which a run ends adds its code and a zero, and then it has an entry. -/
theorem blockSize_cons_of_end (h : (item.isNone && children.isSingle) = false) :
    (cons code index item children nil).blockSize =
      2 + (if item.isSome then 2 else 0) + children.blockSize := by
  have hsingle : (children.isSingle && item.isSome) = children.isSingle := by
    cases item <;> simp_all
  rw [blockSize_of_isSingle rfl, weight_cons, blockSize]
  simp only [Node.weight, runs, hsingle, Bool.false_or, weight, nodes, List.map_nil, List.sum_nil,
    List.length_nil]
  omega

/-- The number of words of the entries of some trees: below a node that has an entry, together with the
words of its shape, and in a list of branches, together with their codes. -/
theorem span_entries (forest : Forest α) :
    forest.shape.size + Table.span (forest.entries false) = forest.blockSize ∧
      Table.span (forest.entries true) + forest.edges.length = forest.weight + forest.runs true := by
  induction forest with
  | nil => exact ⟨rfl, rfl⟩
  | cons code index item children siblings ihc ihs =>
    have hbranched : Table.span ((cons code index item children siblings).entries true) +
        (cons code index item children siblings).edges.length =
          (cons code index item children siblings).weight +
            (cons code index item children siblings).runs true := by
      have hchildren := ihc.1
      rw [blockSize] at hchildren
      simp only [entries, edges, runs, weight_cons, Node.weight, Table.span, Table.span_append,
        Entry.size, Bool.not_true, Bool.false_and, Bool.false_eq_true, if_false, Bool.true_or,
        Bool.and_true, List.length_cons]
      omega
    refine ⟨?_, hbranched⟩
    cases siblings with
    | nil =>
      cases hpass : item.isNone && children.isSingle with
      | true =>
        obtain ⟨hnone, hsingle⟩ := Bool.and_eq_true_iff.mp hpass
        obtain rfl := Option.isNone_iff_eq_none.mp hnone
        obtain ⟨codes, last, -, hshape⟩ := exists_run hsingle
        rw [shape_cons_of_run hsingle, entries_cons_of_run hsingle, blockSize_cons_of_run hsingle,
          ← ihc.1, hshape]
        simp only [Shape.prepend, Shape.size, List.length_cons]
        omega
      | false =>
        rw [shape_cons_of_end hpass, entries_cons_of_end hpass, blockSize_cons_of_end hpass, ← ihc.1]
        simp only [Table.span, Entry.size, Shape.size, List.length_singleton]
        omega
    | cons c n i below beside =>
      -- side by side, these trees are branched off
      rw [shape_of_not_isSingle rfl rfl, entries_of_not_isSingle rfl,
        blockSize_of_not_isSingle (by simp) rfl, Shape.size]
      omega

/-- A run starts at every node with one tree below it that has an item or is branched off. Here `off`
says by the number of a node whether it is branched off. -/
theorem runs_eq_countP (off : Nat → Prop) [DecidablePred off] (forest : Forest α) (branched : Bool)
    (hedges : ∀ edge ∈ forest.edges, off edge.2 ↔ branched)
    (hbelow : ∀ n ∈ forest.nodes, ∀ edge ∈ n.children.edges,
      off edge.2 ↔ n.children.isSingle = false) :
    forest.runs branched =
      forest.nodes.countP fun n => n.children.isSingle && (decide (off n.index) || n.item.isSome) := by
  induction forest generalizing branched with
  | nil => rfl
  | cons code index item children siblings ihc ihs =>
    rw [nodes, List.forall_mem_cons, List.forall_mem_append] at hbelow
    rw [edges, List.forall_mem_cons] at hedges
    have hchildren := ihc (!children.isSingle) (by simpa using hbelow.1) hbelow.2.1
    have hsiblings := ihs branched hedges.2 hbelow.2.2
    have hoff : decide (off index) = branched := by simp [hedges.1]
    rw [runs, nodes, List.countP_cons, List.countP_append, hchildren, hsiblings]
    simp only [hoff]
    omega

/-! ## Applying functions to items -/

section

variable (f : α → β) (forest : Forest α)

@[simp] theorem isEmpty_map : (forest.map f).isEmpty = forest.isEmpty := by
  cases forest <;> rfl

@[simp] theorem isSingle_map : (forest.map f).isSingle = forest.isSingle := by
  match forest with
  | nil => rfl
  | cons _ _ _ _ nil => rfl
  | cons _ _ _ _ (cons ..) => rfl

@[simp] theorem shape_map : (forest.map f).shape = forest.shape := by
  induction forest with
  | nil => rfl
  | cons code index item children siblings ih => simp [map, shape, ih]

/-- The items do not matter for the number of words, only where they are. -/
theorem span_entries_map (branched : Bool) :
    Table.span ((forest.map f).entries branched) = Table.span (forest.entries branched) := by
  induction forest generalizing branched with
  | nil => rfl
  | cons code index item children siblings ihc ihs =>
    simp only [map, entries, isEmpty_map, isSingle_map, Option.isNone_map]
    split
    · exact ihc false
    · simp only [Table.span, Table.span_append, Entry.size, Option.isSome_map, shape_map, ihc, ihs]

end

end Forest

/-! ## The size of a table -/

namespace Trie

variable (t : Trie α)

/-- The nodes with at least two children. -/
def branching : List (Node α) :=
  t.nodes.filter fun n => 2 ≤ n.children.edges.length

/-- The numbers of the nodes whose parents have at least two children. -/
def branchedOff : List Nat :=
  t.branching.flatMap fun n => n.children.edges.map (·.2)

/-- The nodes with one child at which runs start: the root, those with items and those that are
branched off. -/
def runHeads : List (Node α) :=
  t.nodes.filter fun n => n.children.isSingle ∧
    (n.index = t.root.index ∨ n.item.isSome ∨ n.index ∈ t.branchedOff)

/-- The number of words that a trie takes in a table: two for each item, one for the code of each node
but the root, one for the link of each branch, and the zeros that end runs and lists of branches. -/
def tableSize : Nat :=
  2 * t.nodes.countP (·.item.isSome) + (t.nodes.length - 1) +
    (t.branching.map (·.children.edges.length)).sum + t.runHeads.length + t.branching.length

variable {t}

namespace WellFormed

variable (h : t.WellFormed)
include h

/-- Whether a node is branched off is known from its parent. -/
theorem mem_branchedOff_iff {n : Node α} (hn : n ∈ t.nodes) {edge : Code × Nat}
    (hedge : edge ∈ n.children.edges) : edge.2 ∈ t.branchedOff ↔ n.children.isSingle = false := by
  obtain ⟨code, index⟩ := edge
  obtain ⟨child, hchild, rfl⟩ := (h.sorted_of_mem hn).exists_child? hedge
  have hmem := h.mem_nodes_of_child? hn hchild
  simp only [branchedOff, branching, List.mem_flatMap, List.mem_filter, decide_eq_true_eq,
    List.mem_map]
  constructor
  · rintro ⟨parent, ⟨hparent, htwo⟩, ⟨code', index⟩, hedge', rfl⟩
    -- the node has one parent only
    obtain ⟨child', hchild', hindex⟩ := (h.sorted_of_mem hparent).exists_child? hedge'
    have hmem' := h.mem_nodes_of_child? hparent hchild'
    obtain rfl := h.eq_of_index_eq hmem' hmem hindex
    obtain ⟨x, -, hunique⟩ := h.existsUnique_parent hmem (h.index_ne_of_child? hn hchild)
    have heq := (hunique (parent, code') ⟨hparent, hchild'⟩).trans
      (hunique (n, code) ⟨hn, hchild⟩).symm
    obtain rfl := (Prod.mk.inj heq).1
    exact (Forest.two_le_length_edges_iff.mp htwo).2
  · intro hsingle
    have hne : n.children ≠ .nil := by
      rintro hnil
      rw [hnil] at hedge
      cases hedge
    exact ⟨n, ⟨hn, Forest.two_le_length_edges_iff.mpr ⟨hne, hsingle⟩⟩, _, hedge, rfl⟩

/-- The runs below the root and the one that starts there, if any. -/
theorem length_runHeads :
    t.runHeads.length = (if t.root.children.isSingle then 1 else 0) +
      t.root.children.runs (!t.root.children.isSingle) := by
  have hbelow : ∀ n ∈ t.root :: t.root.children.nodes, ∀ edge ∈ n.children.edges,
      edge.2 ∈ t.branchedOff ↔ n.children.isSingle = false := fun n hn edge hedge =>
    h.mem_branchedOff_iff (t.perm_nodes.mem_iff.mpr hn) hedge
  rw [List.forall_mem_cons] at hbelow
  have hruns := Forest.runs_eq_countP (· ∈ t.branchedOff) t.root.children
    (!t.root.children.isSingle) (by simpa using hbelow.1) hbelow.2
  -- no other node has the number of the root
  have hother : ∀ n ∈ t.root.children.nodes, n.index ≠ t.root.index := fun n hn hindex =>
    (List.nodup_cons.mp (h.numbered.nodup_iff.mpr List.nodup_range)).1
      (List.mem_map.mpr ⟨n, hn, hindex⟩)
  rw [hruns, runHeads, ← List.countP_eq_length_filter, t.perm_nodes.countP_eq, List.countP_cons,
    Nat.add_comm]
  congr 1
  · simp
  · refine List.countP_congr fun n hn => ?_
    simp [hother n hn, or_comm]

/-- The entries of a trie take as many words as its nodes say. -/
theorem span_entries : Table.span t.entries = t.tableSize := by
  have hblock := (Forest.span_entries t.root.children).1
  have hnodes := Node.sum_weight t.nodes
  rw [(t.perm_nodes.map _).sum_eq, List.map_cons, List.sum_cons, Node.weight] at hnodes
  rw [Forest.blockSize, Forest.weight] at hblock
  rw [entries, Table.span, Entry.size, tableSize, h.length_runHeads, branching]
  have hlength := t.perm_nodes.length_eq
  rw [List.length_cons] at hlength
  simp only
  omega

end WellFormed

/-- The items do not matter for the size. -/
theorem WellFormed.tableSize_map (h : t.WellFormed) (f : α → β) :
    (t.map f).tableSize = t.tableSize := by
  rw [← (h.map f).span_entries, ← h.span_entries]
  simp only [entries, Trie.map, Node.map, Table.span, Entry.size, Option.isSome_map, Forest.shape_map,
    Forest.span_entries_map]

end Trie

/-! ## Offsets -/

/-- Entries that stand in a table are at offsets that are kept by words. -/
theorem Table.Lays.toNat_ofNat {table : Table} {pool : Pool} {offsets : Offsets} {start : Nat}
    {entries : List (Entry Edit)} (h : Table.Lays table pool offsets start entries)
    {entry : Entry Edit} (hentry : entry ∈ entries) :
    ∃ offset, offsets[entry.node]? = some offset ∧ (UInt16.ofNat offset).toNat = offset := by
  induction entries generalizing start with
  | nil => cases hentry
  | cons first entries ih =>
    obtain ⟨hoffset, hmax, -, hrest⟩ := h
    rcases List.mem_cons.mp hentry with rfl | hentry
    · exact ⟨start, hoffset, Table.toNat_ofNat_of_le hmax⟩
    · exact ih hrest hentry

namespace Matcher

variable {m : Matcher} {edits : List Edit}

/-- Edits that fit have a table of the size that the trie says if offsets reach that far, and the
offsets of entries and outputs are kept by the words that stand for them. Otherwise the error names an
offset beyond the reach that is not beyond this size. -/
theorem encode_tableSize {alphabet : Alphabet} {rules : List Rule} {outputs : List String}
    {pool : Pool} (hrules : ofRules alphabet rules = .ok m) (hlength : edits.length = rules.length)
    (hpool : (Pool.ofOutputs outputs).result = .ok pool) (hfits : ∀ edit ∈ edits, edit.Fits pool) :
    (m.trie.tableSize ≤ Table.maxSize → ∃ table offsets,
      ((m.edits edits).encode pool).result = .ok table ∧ table.size = m.trie.tableSize ∧
      Table.Lays table pool offsets 0 (m.edits edits).entries ∧
      (∀ entry ∈ (m.edits edits).entries, ∃ offset,
        offsets[entry.node]? = some offset ∧ (UInt16.ofNat offset).toNat = offset) ∧
      ∀ edit ∈ edits, ∃ offset,
        pool.offset? edit.output = some offset ∧ (UInt16.ofNat offset).toNat = offset) ∧
    (Table.maxSize < m.trie.tableSize → ∃ offset,
      ((m.edits edits).encode pool).result = .error (.tableOverflow offset) ∧
      Table.maxSize < offset ∧ offset ≤ m.trie.tableSize) := by
  have hwf := wellFormed_of_ofRules hrules
  have hgoals : edits.length = m.goals.length := by
    rw [hlength, goals_of_ofRules hrules, length_goalsOf]
  have hsize : Table.span (m.edits edits).entries = m.trie.tableSize :=
    (hwf.trie_edits edits).span_entries.trans (hwf.trie.tableSize_map _)
  have hall : ∀ x ∈ (m.edits edits).toList, x.2.Fits pool := fun x hx =>
    hfits _ (hwf.mem_of_mem_edits hgoals hx)
  rw [← hsize]
  constructor
  · intro hle
    obtain ⟨words, hwords⟩ := (Trie.exists_words_iff hall).mpr hle
    obtain ⟨offsets, hlays⟩ := (hwf.trie_edits edits).lays hwords
    refine ⟨words.toArray, offsets, Trie.encode_eq_ok_iff.mpr ⟨words, hwords, rfl⟩,
      Trie.length_words hwords, hlays, fun _ => hlays.toNat_ofNat, fun edit hedit => ?_⟩
    obtain ⟨offset, hoffset⟩ := Option.isSome_iff_exists.mp (hfits edit hedit).isSome
    exact ⟨offset, hoffset, (Pool.wellFormed_of_ofOutputs hpool).toNat_ofNat hoffset⟩
  · intro hlt
    -- there are no words, so there is an error
    cases hwords : (m.edits edits).words pool with
    | ok words => exact absurd ((Trie.exists_words_iff hall).mp ⟨words, hwords⟩) (Nat.not_le.mpr hlt)
    | error e =>
      obtain ⟨offset, rfl, hbeyond, hwithin⟩ := Trie.exists_eq_tableOverflow hall hwords
      exact ⟨offset, Trie.encode_eq_error_iff.mpr hwords, hbeyond, hwithin⟩

/-- The table of three rules: three matches, three codes, one list of two branches and one run. -/
theorem encode_tableSize_three_rules :
    ∃ m pool table,
      ofRules ⟨['★'], ['☆'], ' ', by decide, by decide⟩
        [⟨1, "ab", "x"⟩, ⟨2, "cb", "yz"⟩, ⟨3, "", "x"⟩] = .ok m ∧
      (Pool.ofOutputs ["yz", "x"]).result = .ok pool ∧ m.trie.tableSize = 13 ∧
      ((m.edits [⟨1, 0, "x"⟩, ⟨2, 1, "yz"⟩, ⟨0, 0, "x"⟩]).encode pool).result = .ok table ∧
      table.size = 13 := by
  obtain ⟨m, hrules, hspan⟩ : ∃ m, ofRules ⟨['★'], ['☆'], ' ', by decide, by decide⟩
      [⟨1, "ab", "x"⟩, ⟨2, "cb", "yz"⟩, ⟨3, "", "x"⟩] = .ok m ∧ Table.span m.trie.entries = 13 :=
    ⟨_, rfl, by decide⟩
  rw [(wellFormed_of_ofRules hrules).trie.span_entries] at hspan
  obtain ⟨pool, hpool, hfits⟩ := exists_pool_three_rules
  obtain ⟨table, -, htable, hsize, -⟩ :=
    (encode_tableSize hrules rfl hpool hfits).1 (by rw [hspan]; decide)
  exact ⟨m, pool, table, hrules, hpool, hspan, htable, hsize.trans hspan⟩

end Matcher

end Shorthand
