import Shorthand.Proofs.Matcher
import Shorthand.Proofs.Trie.Nodes
import Mathlib.Data.Finset.Image
import Mathlib.Data.List.Infix

/-!
# The trie of a matcher

Reading a text backwards, code by code, leads to a node of the trie if the text ends some context
(`Matcher.WellFormed.isSome_follow?_iff`), and the rule that the node carries is the one whose context is
the whole text (`Matcher.WellFormed.carries_iff`). Different texts lead to different nodes, because a
code has one character and a node one path. So there are as many nodes as texts that end contexts
(`Matcher.WellFormed.size_eq_card`).

`Matcher.nodes_of_ofRules` puts this together with what holds of the nodes of every trie.
-/

namespace Shorthand

namespace Alphabet

variable {a : Alphabet} {context text : List Char} {path path' : List Code}

/-- The beginnings of a path are the paths of the texts that end the context. -/
theorem exists_path_of_isPrefix (h : a.path context = .ok path) (hpart : path' <+: path) :
    ∃ text, text <:+ context ∧ a.path text = .ok path' := by
  obtain ⟨rest, rfl⟩ := hpart
  rw [path_eq_ok_iff_forall₂] at h
  refine ⟨(context.reverse.take path'.length).reverse, ?_, ?_⟩
  · rw [← List.reverse_prefix, List.reverse_reverse]
    exact List.take_prefix ..
  · rw [path_eq_ok_iff_forall₂, List.reverse_reverse]
    exact List.forall₂_take_append _ _ _ h

theorem exists_isPrefix_of_isSuffix (h : a.path context = .ok path) (hsuffix : text <:+ context) :
    ∃ path', a.path text = .ok path' ∧ path' <+: path := by
  obtain ⟨before, rfl⟩ := hsuffix
  obtain ⟨hall, rfl⟩ := path_eq_ok_iff.mp h
  refine ⟨_, path_eq_ok_iff.mpr ⟨fun c hc => hall c (List.mem_append_right _ hc), rfl⟩, ?_⟩
  rw [codes, codes, List.reverse_append, List.filterMap_append]
  exact List.prefix_append ..

end Alphabet

namespace Matcher

variable {m : Matcher} {node n n' : Node Goal} {text : List Char} {i : Nat} {goal : Goal}

/-! ## Following a text -/

/-- The node to which the codes of a text lead, from the last character backwards. -/
def follow? (m : Matcher) (text : List Char) : Option (Node Goal) :=
  (m.alphabet.path text).toOption.bind m.trie.root.walk?

/-- Whether a node carries the rule with a number. -/
def Carries (m : Matcher) (node : Node Goal) (i : Nat) : Prop :=
  ∃ goal, node.item = some goal ∧ m.goals[i]? = some goal

/-- The texts that end the contexts of some rules, the empty one included. -/
def suffixes (rules : List Rule) : List (List Char) :=
  [] :: rules.flatMap fun r => r.context.toList.tails

theorem mem_suffixes_iff {rules : List Rule} :
    text ∈ suffixes rules ↔ text = [] ∨ ∃ r ∈ rules, text <:+ r.context.toList := by
  simp [suffixes]

/-- With a rule, the empty text ends its context. -/
theorem mem_suffixes_iff_of_ne_nil {rules : List Rule} (hne : rules ≠ []) :
    text ∈ suffixes rules ↔ ∃ r ∈ rules, text <:+ r.context.toList := by
  rw [mem_suffixes_iff, or_iff_right_of_imp]
  rintro rfl
  obtain ⟨r, hr⟩ := List.exists_mem_of_ne_nil rules hne
  exact ⟨r, hr, List.nil_suffix⟩

theorem follow?_eq_some_iff :
    m.follow? text = some node ↔
      ∃ path, m.alphabet.path text = .ok path ∧ m.trie.root.walk? path = some node := by
  unfold follow?
  cases m.alphabet.path text <;> simp [Except.toOption]

namespace WellFormed

variable (h : m.WellFormed)
include h

theorem mem_toList_iff {path : List Code} :
    (path, goal) ∈ m.trie.toList ↔ goal ∈ m.goals ∧ m.alphabet.path goal.context.toList = .ok path := by
  rw [h.toList.mem_iff, List.mem_map]
  constructor
  · rintro ⟨g, hg, heq⟩
    obtain ⟨rfl, rfl⟩ := Prod.mk.inj heq
    exact ⟨hg, h.path_eq_ok hg⟩
  · rintro ⟨hgoal, hpath⟩
    rw [h.path_eq_ok hgoal] at hpath
    exact ⟨goal, hgoal, Prod.ext (Except.ok.inj hpath) rfl⟩

/-- A text leads to a node if it ends a context. -/
theorem isSome_follow?_iff :
    (m.follow? text).isSome ↔ text = [] ∨ ∃ goal ∈ m.goals, text <:+ goal.context.toList := by
  rw [Option.isSome_iff_exists]
  simp only [follow?_eq_some_iff]
  constructor
  · rintro ⟨node, path, hpath, hwalk⟩
    have hsome := (Node.isSome_walk?_iff h.trie.sorted h.trie.fruitful).mp
      (Option.isSome_iff_exists.mpr ⟨node, hwalk⟩)
    rcases hsome with rfl | ⟨⟨whole, goal⟩, hmem, hpart⟩
    · rw [Alphabet.path_eq_ok_iff_forall₂, List.forall₂_nil_right_iff, List.reverse_eq_nil_iff] at hpath
      exact .inl hpath
    · obtain ⟨hgoal, hwhole⟩ := h.mem_toList_iff.mp hmem
      -- the text with this path ends the context, and there is only one such text
      obtain ⟨text', hsuffix, hpath'⟩ := Alphabet.exists_path_of_isPrefix hwhole hpart
      obtain rfl := Alphabet.path_injective hpath hpath'
      exact .inr ⟨goal, hgoal, hsuffix⟩
  · intro hends
    obtain ⟨path, hpath, hbegins⟩ : ∃ path, m.alphabet.path text = .ok path ∧
        (path = [] ∨ ∃ x ∈ m.trie.root.toList, path <+: x.1) := by
      rcases hends with rfl | ⟨goal, hgoal, hsuffix⟩
      · exact ⟨[], rfl, .inl rfl⟩
      · obtain ⟨path, hpath, hpart⟩ :=
          Alphabet.exists_isPrefix_of_isSuffix (h.path_eq_ok hgoal) hsuffix
        exact ⟨path, hpath, .inr ⟨_, h.mem_toList_iff.mpr ⟨hgoal, h.path_eq_ok hgoal⟩, hpart⟩⟩
    obtain ⟨node, hwalk⟩ := Option.isSome_iff_exists.mp
      ((Node.isSome_walk?_iff h.trie.sorted h.trie.fruitful).mpr hbegins)
    exact ⟨node, path, hpath, hwalk⟩

/-- The rule that is carried by the node at the end of a text has the text as its context. -/
theorem carries_iff (hnode : m.follow? text = some node) :
    m.Carries node i ↔ ∃ goal, m.goals[i]? = some goal ∧ goal.context.toList = text := by
  obtain ⟨path, hpath, hwalk⟩ := follow?_eq_some_iff.mp hnode
  have hitem (goal : Goal) : node.item = some goal ↔ (path, goal) ∈ m.trie.toList := by
    rw [← h.trie.get?_eq_some_iff, Trie.get?, hwalk, Option.bind_some]
  refine exists_congr fun goal => ?_
  rw [hitem, h.mem_toList_iff, and_comm]
  refine and_congr_right fun hgoal => ?_
  constructor
  · rintro ⟨-, hcontext⟩
    exact Alphabet.path_injective hcontext hpath
  · rintro rfl
    exact ⟨List.mem_of_getElem? hgoal, hpath⟩

/-- No two nodes carry one rule. -/
theorem eq_of_carries (hn : n ∈ m.trie.nodes) (hn' : n' ∈ m.trie.nodes) (hcarries : m.Carries n i)
    (hcarries' : m.Carries n' i) : n = n' := by
  obtain ⟨goal, hitem, hgoal⟩ := hcarries
  obtain ⟨goal', hitem', hgoal'⟩ := hcarries'
  obtain rfl := Option.some.inj (hgoal.symm.trans hgoal')
  obtain ⟨path, hwalk⟩ := h.trie.mem_nodes_iff.mp hn
  obtain ⟨path', hwalk'⟩ := h.trie.mem_nodes_iff.mp hn'
  have hpath (path : List Code) (n : Node Goal) (hwalk : m.trie.root.walk? path = some n)
      (hitem : n.item = some goal) : m.alphabet.path goal.context.toList = .ok path := by
    refine (h.mem_toList_iff.mp (h.trie.get?_eq_some_iff.mp ?_)).2
    rw [Trie.get?, hwalk, Option.bind_some, hitem]
  -- both paths are that of the context
  obtain rfl := Except.ok.inj ((hpath path n hwalk hitem).symm.trans (hpath path' n' hwalk' hitem'))
  exact Option.some.inj (hwalk.symm.trans hwalk')

/-- A node with an item carries a rule. -/
theorem exists_carries (hn : n ∈ m.trie.nodes) (hitem : n.item.isSome) : ∃ i, m.Carries n i := by
  obtain ⟨goal, hgoal⟩ := Option.isSome_iff_exists.mp hitem
  obtain ⟨path, hwalk⟩ := h.trie.mem_nodes_iff.mp hn
  have hmem : (path, goal) ∈ m.trie.toList := by
    rw [← h.trie.get?_eq_some_iff, Trie.get?, hwalk, Option.bind_some, hgoal]
  obtain ⟨i, hi⟩ := List.mem_iff_getElem?.mp (h.mem_toList_iff.mp hmem).1
  exact ⟨i, goal, hgoal, hi⟩

/-- With a goal, there is an item at the root or a node below it. -/
theorem isSome_item_root_or_ne_nil (hgoal : goal ∈ m.goals) :
    m.trie.root.item.isSome ∨ m.trie.root.children ≠ .nil := by
  have hmem : (_, goal) ∈ m.trie.root.toList := h.mem_toList_iff.mpr ⟨hgoal, h.path_eq_ok hgoal⟩
  rcases Node.mem_toList_iff_or.mp hmem with ⟨-, hitem⟩ | hmem
  · exact .inl (by rw [hitem]; rfl)
  · refine .inr fun hnil => ?_
    rw [hnil] at hmem
    cases hmem

/-- Every node is the one to which some text leads. -/
theorem exists_follow?_eq_some {path : List Code} (hwalk : m.trie.root.walk? path = some node) :
    ∃ text, m.alphabet.codes text = path ∧ m.follow? text = some node := by
  obtain ⟨text, htext⟩ : ∃ text, m.alphabet.path text = .ok path := by
    rcases (Node.isSome_walk?_iff h.trie.sorted h.trie.fruitful).mp
      (Option.isSome_iff_exists.mpr ⟨node, hwalk⟩) with rfl | ⟨⟨whole, goal⟩, hmem, hpart⟩
    · exact ⟨[], rfl⟩
    · obtain ⟨text, -, htext⟩ :=
        Alphabet.exists_path_of_isPrefix (h.mem_toList_iff.mp hmem).2 hpart
      exact ⟨text, htext⟩
  exact ⟨text, (Alphabet.path_eq_ok_iff.mp htext).2.symm, follow?_eq_some_iff.mpr ⟨path, htext, hwalk⟩⟩

/-- There are as many nodes as texts that lead to nodes. -/
theorem size_eq_card {texts : Finset (List Char)}
    (htexts : ∀ text, text ∈ texts ↔ (m.follow? text).isSome) : m.trie.size = texts.card := by
  have hwalks {text : List Char} (htext : text ∈ texts) :
      m.alphabet.path text = .ok (m.alphabet.codes text) ∧
        ∃ node, m.trie.root.walk? (m.alphabet.codes text) = some node := by
    obtain ⟨node, hnode⟩ := Option.isSome_iff_exists.mp ((htexts text).mp htext)
    obtain ⟨path, hpath, hwalk⟩ := follow?_eq_some_iff.mp hnode
    obtain ⟨-, rfl⟩ := Alphabet.path_eq_ok_iff.mp hpath
    exact ⟨hpath, node, hwalk⟩
  -- the paths to nodes are those of the texts
  have himage : (m.trie.root.located.map (·.1)).toFinset = texts.image m.alphabet.codes := by
    ext path
    rw [List.mem_toFinset, Finset.mem_image, List.mem_map]
    constructor
    · rintro ⟨⟨path, node⟩, hmem, rfl⟩
      obtain ⟨text, hpath, hnode⟩ :=
        h.exists_follow?_eq_some ((Node.mem_located_iff h.trie.sorted).mp hmem)
      exact ⟨text, (htexts text).mpr (Option.isSome_iff_exists.mpr ⟨node, hnode⟩), hpath⟩
    · rintro ⟨text, htext, rfl⟩
      obtain ⟨-, node, hwalk⟩ := hwalks htext
      exact ⟨(m.alphabet.codes text, node), (Node.mem_located_iff h.trie.sorted).mpr hwalk, rfl⟩
  rw [h.trie.size_eq_card, himage, Finset.card_image_of_injOn]
  intro text htext text' htext' heq
  have hpath := (hwalks htext').1
  rw [← show m.alphabet.codes text = m.alphabet.codes text' from heq] at hpath
  exact Alphabet.path_injective (hwalks htext).1 hpath

end WellFormed

/-! ## Rules -/

variable {alphabet : Alphabet} {rules : List Rule} {trie trie' : Trie Goal} {goals : List Goal}

/-- Goals that are added one after the other keep the numbers ascending. -/
theorem above_of_foldlM_addGoal (h : trie.WellFormed)
    (habove : trie.root.children.Above trie.root.index)
    (hfold : goals.foldlM (addGoal alphabet) trie = .ok trie') :
    trie'.root.children.Above trie'.root.index := by
  induction goals generalizing trie with
  | nil =>
    cases hfold
    exact habove
  | cons goal goals ih =>
    rw [List.foldlM_cons] at hfold
    obtain ⟨next, hadd, hfold⟩ := bind_eq_ok_iff.mp hfold
    obtain ⟨-, -, rfl⟩ := (addGoal_eq_ok_iff h).mp hadd
    refine ih (h.insert _ _) (Forest.above_insert habove ?_ ?_ _) hfold
    · exact List.mem_range.mp (h.numbered.mem_iff.mp (List.mem_cons_self ..))
    · exact fun n hn => List.mem_range.mp (h.numbered.mem_iff.mp (List.mem_cons_of_mem _ hn))

theorem above_of_ofRules (h : ofRules alphabet rules = .ok m) :
    m.trie.root.children.Above m.trie.root.index := by
  obtain ⟨trie, hfold, rfl⟩ := ofRules_eq_ok_iff.mp h
  exact above_of_foldlM_addGoal Trie.wellFormed_empty trivial hfold

theorem mem_suffixes_iff_isSome_follow? (h : ofRules alphabet rules = .ok m) :
    text ∈ suffixes rules ↔ (m.follow? text).isSome := by
  have hcontexts : m.goals.map (·.context) = rules.map (·.context) := by
    rw [goals_of_ofRules h, map_context_goalsOf]
  have hrules : (∃ r ∈ rules, text <:+ r.context.toList) ↔
      ∃ context ∈ rules.map (·.context), text <:+ context.toList := by simp
  have hgoals : (∃ goal ∈ m.goals, text <:+ goal.context.toList) ↔
      ∃ context ∈ m.goals.map (·.context), text <:+ context.toList := by simp
  rw [mem_suffixes_iff, (wellFormed_of_ofRules h).isSome_follow?_iff, hrules, hgoals, hcontexts]

/-- The nodes of the trie of some rules are numbered as they are listed. Each of them but the root is the
child of one node, which has a smaller number, under one code. There is one node for each text that ends a
context, to which the text leads when it is read backwards, and no other text leads to a node. The node
of a text carries the rules that have it as their context. No rule is carried twice, and if there are
rules, a node without children carries one. -/
theorem nodes_of_ofRules (h : ofRules alphabet rules = .ok m) :
    m.trie.nodes.map (·.index) = List.range m.trie.size ∧
    (∀ n ∈ m.trie.nodes, n ≠ m.trie.root →
      ∃! x : Node Goal × Code, x.1 ∈ m.trie.nodes ∧ x.1.children.child? x.2 = some n) ∧
    (∀ n ∈ m.trie.nodes, ∀ code child, n.children.child? code = some child → n.index < child.index) ∧
    m.trie.size = (suffixes rules).toFinset.card ∧
    (∀ text, (m.follow? text).isSome ↔ text ∈ suffixes rules) ∧
    (rules ≠ [] → ∀ text, (m.follow? text).isSome ↔ ∃ r ∈ rules, text <:+ r.context.toList) ∧
    (∀ text node, m.follow? text = some node → ∀ i,
      m.Carries node i ↔ ∃ r, rules[i]? = some r ∧ r.context.toList = text) ∧
    (∀ n ∈ m.trie.nodes, ∀ n' ∈ m.trie.nodes, ∀ i, m.Carries n i → m.Carries n' i → n = n') ∧
    (rules ≠ [] → ∀ n ∈ m.trie.nodes, n.children = .nil → ∃ i, m.Carries n i) := by
  have hwf := wellFormed_of_ofRules h
  have habove := above_of_ofRules h
  have hfollow (text : List Char) : (m.follow? text).isSome ↔ text ∈ suffixes rules :=
    (mem_suffixes_iff_isSome_follow? h).symm
  refine ⟨hwf.trie.map_index_nodes, fun n hn hne => hwf.trie.existsUnique_parent hn fun hindex => ?_,
    fun n hn code child hchild => hwf.trie.lt_of_child? habove hn hchild,
    hwf.size_eq_card fun text => by rw [hfollow, List.mem_toFinset], hfollow,
    fun hne text => (hfollow text).trans (mem_suffixes_iff_of_ne_nil hne), fun text node hnode i => ?_,
    fun n hn n' hn' i => hwf.eq_of_carries hn hn', fun hne n hn hnil => ?_⟩
  · exact hne (hwf.trie.eq_of_index_eq hn (hwf.trie.mem_nodes_iff.mpr ⟨[], rfl⟩) hindex)
  · rw [hwf.carries_iff hnode, goals_of_ofRules h, getElem?_goalsOf]
    simp
  · obtain ⟨goal, hgoal⟩ := List.exists_mem_of_ne_nil m.goals (by
      rw [← List.length_pos_iff, goals_of_ofRules h, length_goalsOf]
      exact List.length_pos_iff.mpr hne)
    have hitem := hwf.trie.isSome_item_or_ne_nil hn (hwf.isSome_item_root_or_ne_nil hgoal)
    exact hwf.exists_carries hn (hitem.resolve_right (absurd hnil))

/-- Of these contexts, one ends another one, and one is empty. -/
theorem nodes_of_ofRules_three_rules :
    ∃ m, ofRules ⟨['★'], ['☆'], ' ', by decide, by decide⟩
        [⟨1, "ab", "x"⟩, ⟨2, "b", "y"⟩, ⟨3, "", "z"⟩] = .ok m ∧
      m.trie.size = 3 ∧ (m.follow? ['b']).isSome ∧ ¬ (m.follow? ['a']).isSome ∧
      (∀ node, m.follow? ['b'] = some node → m.Carries node 1) ∧
      ∀ n ∈ m.trie.nodes, n.children = .nil → ∃ i, m.Carries n i := by
  obtain ⟨m, h⟩ : ∃ m, ofRules ⟨['★'], ['☆'], ' ', by decide, by decide⟩
      [⟨1, "ab", "x"⟩, ⟨2, "b", "y"⟩, ⟨3, "", "z"⟩] = .ok m := ⟨_, rfl⟩
  obtain ⟨-, -, -, hsize, -, hfollow, hcarries, -, hleaf⟩ := nodes_of_ofRules h
  refine ⟨m, h, hsize.trans (by decide), (hfollow (by simp) ['b']).mpr ?_,
    mt (hfollow (by simp) ['a']).mp ?_, fun node hnode => (hcarries ['b'] node hnode 1).mpr ?_,
    hleaf (by simp)⟩
  · exact ⟨⟨1, "ab", "x"⟩, by simp, ['a'], rfl⟩
  · decide
  · exact ⟨⟨2, "b", "y"⟩, rfl, rfl⟩

end Matcher

end Shorthand
