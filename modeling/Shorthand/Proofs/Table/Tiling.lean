import Shorthand.Proofs.Table.Canonical
import Shorthand.Proofs.Trie.Nodes

/-!
# Subtrees tile the table

The entries at and below a node stand side by side, and the entries of subtrees that are side by side
follow one another: nested trees are laid out as nested blocks of words. `Table.Tiles` says which block
belongs to a node, by what the words of the block are: the match of the node, then a run and the block
of the node where it ends, or a list of branches and the blocks of the children, each from its link on.

Entries are placed in one pass over a flat list, so the proof cuts that list at the borders of subtrees:
`Forest.starts` names the positions at which those begin, and these are the links.

## Main statements

- `Forest.exists_run`: an entry above a single tree has the codes of a run that goes on as far as it can.
- `Forest.exists_entries_eq`: the entries at and below a node stand side by side.
- `Matcher.tiles_encode`: the root's block is the whole table, and every node that branches has its own.
-/

namespace Shorthand

/-! ## Runs -/

/-- The entry of a node. -/
def Node.entry {α : Type} (n : Node α) : Entry α :=
  ⟨n.index, n.item, n.children.shape⟩

namespace Forest

variable {α : Type} {forest : Forest α} {codes : List Code} {last : Node α}

/-- The codes of a run that enters a single tree, and the node where it ends. The run goes on as long as
there is no item and a single tree below. -/
inductive Run : Forest α → List Code → Node α → Prop where
  | stop {code : Code} {index : Nat} {item : Option α} {children : Forest α}
      (hends : item.isSome ∨ children.isSingle = false) :
      Run (cons code index item children nil) [code] ⟨index, item, children⟩
  | pass {code : Code} {index : Nat} {children : Forest α} {codes : List Code} {last : Node α}
      (hbelow : Run children codes last) :
      Run (cons code index none children nil) (code :: codes) last

theorem Run.isSingle (h : forest.Run codes last) : forest.isSingle := by
  cases h <;> rfl

/-- The run does not pass through the node where it ends. -/
theorem Run.ends (h : forest.Run codes last) : last.item.isSome ∨ last.children.isSingle = false := by
  induction h with
  | stop hends => exact hends
  | pass _ ih => exact ih

theorem Run.isSome_item_or_ne_nil (h : forest.Run codes last) (hf : forest.Fruitful) :
    last.item.isSome ∨ last.children ≠ nil := by
  induction h with
  | stop => exact hf.1
  | pass _ ih => exact ih hf.2.1

/-- An entry above a single tree has the codes of a run. -/
theorem exists_run (h : forest.isSingle) :
    ∃ codes last, forest.Run codes last ∧ forest.shape = .chain codes := by
  induction forest with
  | nil => cases h
  | cons code index item children siblings ihc _ =>
    cases siblings with
    | cons => cases h
    | nil =>
      cases hpass : item.isNone && children.isSingle with
      | true =>
        obtain ⟨hnone, hsingle⟩ := Bool.and_eq_true_iff.mp hpass
        obtain rfl := Option.isNone_iff_eq_none.mp hnone
        obtain ⟨codes, last, hrun, hshape⟩ := ihc hsingle
        exact ⟨code :: codes, last, .pass hrun, by rw [shape_cons_of_run hsingle, hshape]; rfl⟩
      | false =>
        have hends : item.isSome ∨ children.isSingle = false := by
          rwa [Bool.and_eq_false_iff, Option.isNone_eq_false_iff] at hpass
        exact ⟨[code], _, .stop hends, shape_cons_of_end hpass⟩

/-- The entries at and below a node stand side by side, unless a run passes through the node. -/
theorem exists_entries_eq {node : Node α} (hnode : node ∈ forest.nodes) (branched : Bool)
    (hends : node.item.isSome ∨ node.children.isSingle = false) :
    ∃ before after,
      forest.entries branched = before ++ (node.entry :: node.children.entries false) ++ after := by
  induction forest generalizing branched with
  | nil => cases hnode
  | cons code index item children siblings ihc ihs =>
    rw [nodes, List.mem_cons, List.mem_append] at hnode
    rw [entries]
    split
    next hpass =>
      -- the run passes through the first node, and there is nothing beside
      obtain ⟨⟨⟨-, hempty⟩, hnone⟩, hsingle⟩ : ((branched = false ∧ siblings.isEmpty) ∧
        item.isNone) ∧ children.isSingle := by simpa using hpass
      rcases hnode with rfl | hnode | hnode
      · simp [Option.isNone_iff_eq_none.mp hnone, hsingle] at hends
      · exact ihc hnode false
      · cases siblings with
        | nil => cases hnode
        | cons => cases hempty
    next =>
      rcases hnode with rfl | hnode | hnode
      · exact ⟨[], siblings.entries true, rfl⟩
      · obtain ⟨before, after, heq⟩ := ihc hnode false
        exact ⟨⟨index, item, children.shape⟩ :: before, after ++ siblings.entries true, by simp [heq]⟩
      · obtain ⟨before, after, heq⟩ := ihs hnode true
        exact ⟨⟨index, item, children.shape⟩ :: (children.entries false ++ before), after,
          by simp [heq]⟩

end Forest

/-! ## Blocks of a table -/

namespace Table

section

variable (table : Table) (pool : Pool)

/-- Whether the words from `start` up to `stop` are those of the match of a node. There are none if it
has no item. -/
def HasMatch (node : Node Edit) (start stop : Nat) : Prop :=
  match node.item with
  | none => stop = start
  | some edit =>
    stop = start + 2 ∧ ∃ word offset, table[start]? = some word ∧ isMatch word ∧
      MatchWord.ofWord word = ⟨!node.children.isEmpty, edit.outputFunc, edit.backspaces,
        edit.output.utf8ByteSize⟩ ∧
      pool.offset? edit.output = some offset ∧ table[start + 1]? = some (UInt16.ofNat offset)

/-- Whether a list of branches stands from a position on, and what it is like. -/
structure BranchList (position : Nat) (edges : List (Code × Nat)) (links : List Nat) : Prop where
  /-- Every branch has a link. -/
  length_eq : links.length = edges.length
  /-- The codes strictly ascend. -/
  codes_ascend : edges.Pairwise fun edge edge' => edge.1 < edge'.1
  /-- The links strictly ascend. -/
  links_ascend : links.Pairwise (· < ·)
  /-- The first link leads to the word right after the list. -/
  head?_links : links.head? = some (position + 2 * edges.length + 1)
  /-- Every code stands in front of its link, the first one with the branch flag. -/
  code : ∀ i edge, edges[i]? = some edge → ∃ word, table[position + 2 * i]? = some word ∧
    withoutBranchFlag word = edge.1 ∧ (hasBranchFlag word ↔ i = 0)
  link : ∀ i link, links[i]? = some link → ∃ word, table[position + (2 * i + 1)]? = some word ∧
    word.toNat = link
  /-- A zero ends the list. -/
  zero : table[position + 2 * edges.length]? = some 0

mutual

/-- Whether the words from `start` up to `stop` are those of the entries at and below a node. -/
inductive Tiles : (node : Node Edit) → (start stop : Nat) → Prop where
  | leaf {node : Node Edit} {start stop : Nat} (hchildren : node.children = .nil)
      (hmatch : HasMatch table pool node start stop) : Tiles node start stop
  -- The run is followed by the node where it ends, and this starts with a match or with branches.
  | chain {node last : Node Edit} {start position stop : Nat} {codes : List Code}
      (hmatch : HasMatch table pool node start position) (hrun : node.children.Run codes last)
      (hcodes : table.Holds position (codes ++ [0]))
      (hnext : ∃ word, table[position + codes.length + 1]? = some word ∧
        (isMatch word ∨ hasBranchFlag word))
      (hlast : Tiles last (position + codes.length + 1) stop) : Tiles node start stop
  | branch {node : Node Edit} {start position stop : Nat} {links : List Nat}
      (hmatch : HasMatch table pool node start position) (htwo : 2 ≤ node.children.edges.length)
      (hlist : BranchList table position node.children.edges links)
      (hbeside : TilesBeside node.children links stop) : Tiles node start stop

/-- Whether trees side by side have their words from one link up to the next, and the last one up to
`stop`. -/
inductive TilesBeside : Forest Edit → (links : List Nat) → (stop : Nat) → Prop where
  | last {code : Code} {index : Nat} {item : Option Edit} {children : Forest Edit} {link stop : Nat}
      (htree : Tiles ⟨index, item, children⟩ link stop) :
      TilesBeside (.cons code index item children .nil) [link] stop
  | cons {code : Code} {index : Nat} {item : Option Edit} {children siblings : Forest Edit}
      {link next stop : Nat} {links : List Nat} (htree : Tiles ⟨index, item, children⟩ link next)
      (hbeside : TilesBeside siblings (next :: links) stop) :
      TilesBeside (.cons code index item children siblings) (link :: next :: links) stop

end

end

variable {table : Table} {pool : Pool} {offsets : Offsets} {position start stop : Nat}

/-- The first word of a node that no run passes through has one of the flags. -/
theorem Tiles.exists_flag {node : Node Edit} (h : Tiles table pool node start stop)
    (hitem : node.item.isSome ∨ node.children ≠ .nil)
    (hends : node.item.isSome ∨ node.children.isSingle = false) :
    ∃ word, table[start]? = some word ∧ (isMatch word ∨ hasBranchFlag word) := by
  have hheader : ∀ {position}, node.item.isSome → HasMatch table pool node start position →
      ∃ word, table[start]? = some word ∧ (isMatch word ∨ hasBranchFlag word) := by
    intro position hsome hmatch
    obtain ⟨edit, hedit⟩ := Option.isSome_iff_exists.mp hsome
    rw [HasMatch, hedit] at hmatch
    obtain ⟨-, word, -, hword, hflag, -⟩ := hmatch
    exact ⟨word, hword, .inl hflag⟩
  cases h with
  | leaf hchildren hmatch => exact hheader (hitem.resolve_right (by simp [hchildren])) hmatch
  | chain hmatch hrun => exact hheader (hends.resolve_right (by simp [hrun.isSingle])) hmatch
  | branch hmatch htwo hlist =>
    cases hnone : node.item with
    | some edit => exact hheader (by rw [hnone]; rfl) hmatch
    | none =>
      -- without a match, the list of branches comes first
      rw [HasMatch, hnone] at hmatch
      obtain ⟨word, hword, -, hflag⟩ := hlist.code 0 _ (List.getElem?_eq_getElem (by omega))
      exact ⟨word, by rwa [hmatch] at hword, .inr (hflag.mpr rfl)⟩

/-! ## Words of an entry -/

theorem Holds.getElem? {words : List UInt16} {i : Nat} {word : UInt16}
    (h : table.Holds position words) (hword : words[i]? = some word) :
    table[position + i]? = some word := by
  obtain ⟨rest, hrest⟩ := h
  rw [← Array.getElem?_toList, ← List.getElem?_drop, ← hrest]
  obtain ⟨hlt, rfl⟩ := List.getElem?_eq_some_iff.mp hword
  rw [List.getElem?_append_left hlt, List.getElem?_eq_getElem hlt]

theorem hasMatch_of_header {node : Node Edit} {header : List UInt16}
    (hheader : node.entry.header pool = .ok header) (hholds : table.Holds start header) :
    HasMatch table pool node start (start + header.length) := by
  cases hitem : node.item with
  | none =>
    simp only [Entry.header, Node.entry, hitem, Except.ok.injEq] at hheader
    rw [HasMatch, hitem, ← hheader]
    rfl
  | some edit =>
    obtain ⟨offset, word, hoffset, hpack, rfl⟩ := (Entry.header_eq_ok_iff hitem).mp hheader
    have hmore : (node.children.shape != .leaf) = !node.children.isEmpty := by
      cases hchildren : node.children with
      | nil => rfl
      | cons => simp [bne, Forest.shape_eq_leaf_iff, Forest.isEmpty]
    rw [HasMatch, hitem]
    refine ⟨rfl, word, offset, hholds.getElem? (i := 0) rfl, MatchWord.isMatch_of_pack? hpack, ?_,
      hoffset, hholds.getElem? rfl⟩
    rw [MatchWord.ofWord_of_pack? hpack, ← hmore]
    rfl

end Table

/-! ## Lists of branches -/

namespace Forest

/-- The positions at which trees side by side begin if the first one begins at `start`. -/
def starts {α : Type} (start : Nat) : Forest α → List Nat
  | nil => []
  | cons _ index item children siblings =>
    let stop := start + Table.span (Node.entry ⟨index, item, children⟩ :: children.entries false)
    start :: siblings.starts stop

variable {α : Type} {forest : Forest α} {start : Nat}

theorem length_starts (forest : Forest α) (start : Nat) :
    (forest.starts start).length = forest.edges.length := by
  induction forest generalizing start with
  | nil => rfl
  | cons code index item children siblings _ ih => rw [starts, edges, List.length_cons, ih]; rfl

theorem size_shape_pos (h : forest ≠ nil) : 0 < forest.shape.size := by
  cases hsingle : forest.isSingle with
  | true =>
    obtain ⟨codes, last, -, hshape⟩ := exists_run hsingle
    rw [hshape]
    exact Nat.succ_pos _
  | false =>
    rw [shape_of_not_isSingle (isEmpty_eq_false_iff.mpr h) hsingle]
    exact Nat.succ_pos _

/-- Entries with an item or with trees below take words. -/
theorem span_entry_pos (node : Node α) (h : node.item.isSome ∨ node.children ≠ nil)
    (entries : List (Entry α)) : 0 < Table.span (node.entry :: entries) := by
  rw [Table.span, Entry.size]
  rcases h with hitem | hne
  · have hsome : node.entry.item.isSome := hitem
    rw [if_pos hsome]
    omega
  · have hpos : 0 < node.entry.shape.size := size_shape_pos hne
    omega

theorem le_of_mem_starts {link : Nat} (h : link ∈ forest.starts start) : start ≤ link := by
  induction forest generalizing start with
  | nil => cases h
  | cons code index item children siblings _ ih =>
    rcases List.mem_cons.mp h with rfl | h
    · exact Nat.le_refl _
    · exact Nat.le_trans (Nat.le_add_right ..) (ih h)

theorem Fruitful.pairwise_starts (h : forest.Fruitful) (start : Nat) :
    (forest.starts start).Pairwise (· < ·) := by
  induction forest generalizing start with
  | nil => exact .nil
  | cons code index item children siblings _ ih =>
    refine .cons (fun link hlink => ?_) (ih h.2.2 _)
    have hpos := span_entry_pos ⟨index, item, children⟩ h.1 (children.entries false)
    have hle := le_of_mem_starts hlink
    omega

/-- The subtrees begin where the links lead. -/
theorem links_eq {forest : Forest Edit} {table : Table} {pool : Pool} {offsets : Offsets}
    {links : List (List UInt16)}
    (hlays : Table.Lays table pool offsets start (forest.entries true))
    (hlinks : List.Forall₂ (fun edge words => Shape.link offsets edge = .ok words) forest.edges
      links) :
    links = List.zipWith (fun edge link => [edge.1, UInt16.ofNat link]) forest.edges
      (forest.starts start) ∧ ∀ link ∈ forest.starts start, link ≤ Table.maxSize := by
  induction forest generalizing start links with
  | nil =>
    cases hlinks
    exact ⟨rfl, List.forall_mem_nil _⟩
  | cons code index item children siblings _ ih =>
    obtain ⟨words, links, hlink, hrest, rfl⟩ := List.forall₂_cons_left_iff.mp hlinks
    have hoffset : offsets[index]? = some start := hlays.1
    have hmax : start ≤ Table.maxSize := hlays.2.1
    simp only [Shape.link, hoffset, Except.ok.injEq] at hlink
    simp only [entries, Bool.not_true, Bool.false_and, Bool.false_eq_true, if_false] at hlays
    rw [← List.cons_append, Table.lays_append] at hlays
    obtain ⟨heq, hle⟩ := ih hlays.2 hrest
    exact ⟨by rw [heq, ← hlink]; rfl, List.forall_mem_cons.mpr ⟨hmax, hle⟩⟩

end Forest

/-- In a flat list of pairs the first components stand at even positions and the second ones at odd
positions. -/
theorem getElem?_flatten_zipWith {α β γ : Type} (f : α → γ) (g : β → γ) (l : List α) (l' : List β)
    (hlength : l'.length = l.length) (i : Nat) :
    (List.zipWith (fun a b => [f a, g b]) l l').flatten[2 * i]? = l[i]?.map f ∧
      (List.zipWith (fun a b => [f a, g b]) l l').flatten[2 * i + 1]? = l'[i]?.map g := by
  induction l generalizing l' i with
  | nil => simp [List.length_eq_zero_iff.mp hlength]
  | cons a l ih =>
    obtain ⟨b, l', rfl⟩ := List.exists_cons_of_length_eq_add_one hlength
    cases i with
    | zero => simp
    | succ i => simpa [Nat.mul_add] using ih l' (Nat.succ.inj hlength) i

namespace Table

theorem getElem?_flagFirst (words : List UInt16) (i : Nat) :
    (flagFirst words)[i]? = words[i]?.map (if i = 0 then withBranchFlag else id) := by
  cases words with
  | nil => rfl
  | cons word words => cases i <;> simp [flagFirst]

variable {table : Table} {pool : Pool} {offsets : Offsets} {position start : Nat}

/-- The words of a list of branches whose subtrees stand right after it. -/
theorem branchList_of_holds {forest : Forest Edit} {words : List UInt16}
    (hplain : ∀ edge ∈ forest.edges, Plain edge.1) (hsorted : forest.Sorted)
    (hfruitful : forest.Fruitful) (hne : forest ≠ .nil)
    (hlays : Lays table pool offsets (position + 2 * forest.edges.length + 1)
      (forest.entries true))
    (hwords : (Shape.branch forest.edges).words offsets = .ok words)
    (hholds : table.Holds position words) :
    BranchList table position forest.edges
      (forest.starts (position + 2 * forest.edges.length + 1)) := by
  generalize hstart : position + 2 * forest.edges.length + 1 = start at hlays ⊢
  obtain ⟨links, hlinks, heq⟩ := bind_eq_ok_iff.mp hwords
  obtain rfl := Except.ok.inj heq
  obtain ⟨hflat, hmax⟩ := Forest.links_eq hlays (mapM_eq_ok_iff.mp hlinks)
  have hlength := Forest.length_starts forest start
  have hpairs := getElem?_flatten_zipWith (fun edge : Code × Nat => edge.1) UInt16.ofNat forest.edges
    (forest.starts start) hlength
  rw [← hflat] at hpairs
  obtain ⟨hlist, hzero⟩ := holds_append.mp hholds
  refine ⟨hlength, hsorted.pairwise_edges, hfruitful.pairwise_starts start, ?_, ?_, ?_, ?_⟩
  · rw [hstart]
    cases forest with
    | nil => exact absurd rfl hne
    | cons => rfl
  · intro i edge hedge
    have hcode := hplain edge (List.mem_of_getElem? hedge)
    have hword := hlist.getElem? ((getElem?_flagFirst _ (2 * i)).trans
      (congrArg _ ((hpairs i).1.trans (congrArg _ hedge))))
    refine ⟨_, hword, ?_⟩
    cases i with
    | zero => simp [hcode.withoutBranchFlag_withBranchFlag, hcode.hasBranchFlag_withBranchFlag]
    | succ i => simp [hcode.withoutBranchFlag, hcode.hasBranchFlag]
  · intro i link hlink
    have hword := hlist.getElem? ((getElem?_flagFirst _ (2 * i + 1)).trans
      (congrArg _ ((hpairs i).2.trans (congrArg _ hlink))))
    refine ⟨_, hword, ?_⟩
    rw [if_neg (Nat.succ_ne_zero _)]
    exact toNat_ofNat_of_le (hmax link (List.mem_of_getElem? hlink))
  · have hlast := hzero.getElem? (i := 0) rfl
    have hsize := Shape.length_words hwords
    rw [List.length_append, List.length_singleton, Shape.size] at hsize
    rwa [Nat.succ.inj hsize] at hlast

/-! ## Subtrees -/

section

variable (table : Table) (pool : Pool) (offsets : Offsets)

/-- Whether a run into some trees ends at a node whose block starts where their entries do. -/
def RunTiles (forest : Forest Edit) : Prop :=
  ∀ ⦃position : Nat⦄ ⦃codes : List Code⦄ ⦃last : Node Edit⦄, forest.Run codes last →
    Lays table pool offsets position (forest.entries false) →
      Tiles table pool last position (position + span (forest.entries false))

/-- Whether trees that are branched off have their blocks one after the other. -/
def BranchesTile (forest : Forest Edit) : Prop :=
  ∀ ⦃position : Nat⦄, forest ≠ .nil → Lays table pool offsets position (forest.entries true) →
    TilesBeside table pool forest (forest.starts position) (position + span (forest.entries true))

end

/-- The entries at and below a node are its block, if so it is for the trees below. -/
theorem tiles_of_lays (node : Node Edit) (start : Nat) (hplain : node.children.Over Plain)
    (hsorted : node.children.Sorted) (hfruitful : node.children.Fruitful)
    (hrun : RunTiles table pool offsets node.children)
    (hbranches : BranchesTile table pool offsets node.children)
    (hlays : Lays table pool offsets start (node.entry :: node.children.entries false)) :
    Tiles table pool node start (start + span (node.entry :: node.children.entries false)) := by
  obtain ⟨-, -, ⟨header, shape, hheader, hshape, hholds⟩, hbelow⟩ := hlays
  have hmatch := hasMatch_of_header hheader (holds_append.mp hholds).1
  have hwords := (holds_append.mp hholds).2
  have hsize : node.entry.size = header.length + node.children.shape.size := by
    rw [Entry.size, Entry.length_header hheader]
    rfl
  rw [span, ← Nat.add_assoc]
  rw [hsize, ← Nat.add_assoc] at hbelow ⊢
  generalize start + header.length = position at hmatch hwords hbelow ⊢
  change node.children.shape.words offsets = _ at hshape
  by_cases hne : node.children = .nil
  · rw [hne]
    exact .leaf hne hmatch
  cases hsingle : node.children.isSingle with
  | true =>
    obtain ⟨codes, last, hlast, hchain⟩ := Forest.exists_run hsingle
    rw [hchain] at hshape hbelow ⊢
    obtain rfl := Except.ok.inj hshape
    have htiles := hrun hlast hbelow
    exact .chain hmatch hlast hwords
      (htiles.exists_flag (hlast.isSome_item_or_ne_nil hfruitful) hlast.ends) htiles
  | false =>
    have hempty := Forest.isEmpty_eq_false_iff.mpr hne
    rw [Forest.shape_of_not_isSingle hempty hsingle] at hshape hbelow ⊢
    rw [Forest.entries_of_not_isSingle hsingle] at hbelow ⊢
    exact .branch hmatch (Forest.two_le_length_edges_iff.mpr ⟨hne, hsingle⟩)
      (branchList_of_holds (fun _ => hplain.of_mem_edges) hsorted hfruitful hne hbelow hshape hwords)
      (hbranches hne hbelow)

/-- Trees have their blocks, whether they are entered from a run or from a list of branches. -/
theorem runTiles_and_branchesTile {forest : Forest Edit} (hplain : forest.Over Plain)
    (hsorted : forest.Sorted) (hfruitful : forest.Fruitful) :
    RunTiles table pool offsets forest ∧ BranchesTile table pool offsets forest := by
  induction forest with
  | nil => exact ⟨fun _ _ _ hrun _ => (nomatch hrun), fun _ hne => absurd rfl hne⟩
  | cons code index item children siblings ihc ihs =>
    obtain ⟨hrunBelow, hbranchesBelow⟩ := ihc hplain.2.1 hsorted.2.1 hfruitful.2.1
    have hnode := fun start => tiles_of_lays ⟨index, item, children⟩ start hplain.2.1 hsorted.2.1
      hfruitful.2.1 hrunBelow hbranchesBelow
    constructor
    · intro position codes last hrun hlays
      cases hrun with
      | stop hends =>
        have hend : (item.isNone && children.isSingle) = false := by
          rwa [Bool.and_eq_false_iff, Option.isNone_eq_false_iff]
        rw [Forest.entries_cons_of_end hend] at hlays ⊢
        exact hnode position hlays
      | pass hbelow =>
        rw [Forest.entries_cons_of_run hbelow.isSingle] at hlays ⊢
        exact hrunBelow hbelow hlays
    · intro position _ hlays
      simp only [Forest.entries, Bool.not_true, Bool.false_and, Bool.false_eq_true, if_false] at hlays ⊢
      rw [← List.cons_append] at hlays ⊢
      rw [lays_append] at hlays
      rw [span_append, ← Nat.add_assoc]
      have htree := hnode position hlays.1
      cases siblings with
      | nil => exact .last htree
      | cons c n i below beside =>
        exact .cons htree ((ihs hplain.2.2 hsorted.2.2 hfruitful.2.2).2 (by simp) hlays.2)

end Table

/-! ## Tables -/

namespace Trie

variable {t : Trie Edit} {pool : Pool} {words : List UInt16}

/-- The table is the block of the root, and every node that no run passes through has its own. -/
theorem WellFormed.exists_tiles (h : t.WellFormed) (hplain : t.root.children.Over Table.Plain)
    (hwords : t.words pool = .ok words) :
    Table.Tiles words.toArray pool t.root 0 words.length ∧
      ∀ node ∈ t.nodes, node.item.isSome ∨ node.children.isSingle = false →
        ∃ start stop, Table.Tiles words.toArray pool node start stop := by
  obtain ⟨offsets, hlays⟩ := h.lays hwords
  have hall : ∀ node ∈ t.nodes, ∀ start,
      Table.Lays words.toArray pool offsets start (node.entry :: node.children.entries false) →
        Table.Tiles words.toArray pool node start
          (start + Table.span (node.entry :: node.children.entries false)) := by
    intro node hnode start hnodeLays
    obtain ⟨path, hwalk⟩ := h.mem_nodes_iff.mp hnode
    obtain ⟨hover, hsorted, hfruitful⟩ := Node.walk?_induction
      (p := fun n => n.children.Over Table.Plain ∧ n.children.Sorted ∧ n.children.Fruitful)
      (fun _ _ _ hn hchild => ⟨hn.1.child? hchild, hn.2.1.child? hchild, (hn.2.2.child? hchild).2⟩)
      ⟨hplain, h.sorted, h.fruitful⟩ hwalk
    obtain ⟨hrun, hbranches⟩ := Table.runTiles_and_branchesTile hover hsorted hfruitful
    exact Table.tiles_of_lays node start hover hsorted hfruitful hrun hbranches hnodeLays
  have hroot := hall t.root (h.mem_nodes_iff.mpr ⟨[], rfl⟩) 0 hlays
  refine ⟨by rwa [length_words hwords, ← Nat.zero_add (Table.span _)], fun node hnode hends => ?_⟩
  rcases List.mem_cons.mp (t.perm_nodes.mem_iff.mp hnode) with rfl | hbelow
  · exact ⟨_, _, hroot⟩
  · -- the entries of the subtree stand somewhere among all entries
    obtain ⟨before, after, heq⟩ := Forest.exists_entries_eq hbelow false hends
    rw [entries, heq, ← List.cons_append, ← List.cons_append, Table.lays_append,
      Table.lays_append] at hlays
    exact ⟨_, _, hall node hnode _ hlays.1.2⟩

end Trie

namespace Matcher

variable {m : Matcher} {edits : List Edit} {pool : Pool} {table : Table}

/-- The root's block is the whole table, so every run in it is as long as it can be and a word with a flag
comes after its zero (`Table.Tiles.chain`). Every node that branches has a list of branches with ascending
codes and ascending links, right after which the blocks of its children follow one another up to the end
of its own. -/
theorem tiles_encode {alphabet : Alphabet} {rules : List Rule}
    (hrules : ofRules alphabet rules = .ok m)
    (htable : ((m.edits edits).encode pool).result = .ok table) :
    Table.Tiles table pool (m.edits edits).root 0 table.size ∧
      ∀ node ∈ (m.edits edits).nodes, 2 ≤ node.children.edges.length →
        ∃ start position stop links, Table.Tiles table pool node start stop ∧
          Table.HasMatch table pool node start position ∧
          Table.BranchList table position node.children.edges links ∧
          Table.TilesBeside table pool node.children links stop := by
  have hwf := wellFormed_of_ofRules hrules
  obtain ⟨words, hwords, rfl⟩ := Trie.encode_eq_ok_iff.mp htable
  have hplain : (m.edits edits).root.children.Over Table.Plain :=
    (hwf.trie_edits edits).fruitful.over fun x hx code hcode =>
      (hwf.knows_of_mem_edits (List.mem_append_right _ hx) hcode).plain
  obtain ⟨hroot, hnodes⟩ := (hwf.trie_edits edits).exists_tiles hplain hwords
  refine ⟨hroot, fun node hnode htwo => ?_⟩
  obtain ⟨hne, hsingle⟩ := Forest.two_le_length_edges_iff.mp htwo
  obtain ⟨start, stop, htiles⟩ := hnodes node hnode (.inr hsingle)
  cases id htiles with
  | leaf hchildren => exact absurd hchildren hne
  | chain hmatch hrun => simp [hrun.isSingle] at hsingle
  | branch hmatch _ hlist hbeside => exact ⟨start, _, stop, _, htiles, hmatch, hlist, hbeside⟩

/-- The table of three rules, two of which part at a node below the root. -/
theorem tiles_encode_three_rules :
    ∃ m pool table,
      ofRules ⟨['★'], ['☆'], ' ', by decide, by decide⟩
        [⟨1, "ab", "x"⟩, ⟨2, "cb", "yz"⟩, ⟨3, "", "x"⟩] = .ok m ∧
      ((m.edits [⟨1, 0, "x"⟩, ⟨2, 1, "yz"⟩, ⟨0, 0, "x"⟩]).encode pool).result = .ok table ∧
      Table.Tiles table pool (m.edits [⟨1, 0, "x"⟩, ⟨2, 1, "yz"⟩, ⟨0, 0, "x"⟩]).root 0 table.size ∧
      ∃ node ∈ (m.edits [⟨1, 0, "x"⟩, ⟨2, 1, "yz"⟩, ⟨0, 0, "x"⟩]).nodes,
        node.children.edges = [(4, 2), (6, 3)] ∧
        ∃ position links, Table.BranchList table position [(4, 2), (6, 3)] links := by
  obtain ⟨m, pool, table, hrules, -, htable⟩ := exists_encode_three_rules
  obtain ⟨hroot, hnodes⟩ := tiles_encode hrules htable
  have hnode : ∃ node ∈ (m.edits [⟨1, 0, "x"⟩, ⟨2, 1, "yz"⟩, ⟨0, 0, "x"⟩]).nodes,
      node.children.edges = [(4, 2), (6, 3)] := by
    obtain rfl := Except.ok.inj (hrules.symm.trans rfl)
    simp only [(Trie.perm_nodes _).mem_iff]
    exact ⟨_, .tail _ (.head _), by decide⟩
  obtain ⟨node, hmem, hedges⟩ := hnode
  obtain ⟨start, position, stop, links, -, -, hlist, -⟩ := hnodes node hmem (by rw [hedges]; decide)
  exact ⟨m, pool, table, hrules, htable, hroot, node, hmem, hedges, position, links, hedges ▸ hlist⟩

end Matcher

end Shorthand
