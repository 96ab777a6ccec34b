import Shorthand.Proofs.Replay

/-!
# The longest rule that ends a text

A look-up walks down the trie along a text read backwards. The goals on its way are those whose contexts
end the text, and it comes to shorter contexts before longer ones (`Matcher.candidates`). It asks for the
edit of each of them and keeps the last (`Matcher.longestMatch_eq_askEach`), so what it finds is the
edit of the longest context that ends the text. What fires on a screen is the last of its contenders:
those that end the text shown, or else those that end the keys typed.

An empty context ends every text, but no look-up finds it: a walk takes one step at least.

## Main statements

- `Matcher.longestMatch_eq_askEach`: a look-up asks for its candidates one after the other.
- `Matcher.WellFormed.mem_candidates_iff`: which goals are candidates.
- `Matcher.WellFormed.pairwise_candidates`: the candidates are ordered by the lengths of their contexts.
- `Matcher.firing_eq_askEach`: the edit that fires is that of the last contender.
- `Matcher.WellFormed.getLast?_candidates`: the last candidate is the one with the longest context.
-/

namespace Shorthand

namespace Inquiry

/-- Asks for the edits of some goals one after the other. The last of them, or else `found`, is the
result. -/
def askEach (found : Option Edit) : List Goal → Inquiry (Option Edit)
  | [] => .answer found
  | goal :: goals => .ask goal fun edit => askEach (some edit) goals

variable {answers : Goal → Edit → Prop} {found result : Option Edit} {goals : List Goal}
  {goal : Goal}

/-- With a reply to every question, the result is the reply for the last goal. -/
theorem run_askEach (reply : Goal → Edit) (hlast : goals.getLast? = some goal) :
    (askEach found goals).run (m := Id) reply = some (reply goal) := by
  induction goals generalizing found with
  | nil => cases hlast
  | cons g goals ih =>
    show (askEach (some (reply g)) goals).run (m := Id) reply = some (reply goal)
    cases goals with
    | nil =>
      obtain rfl := Option.some.inj hlast
      rfl
    | cons g' goals => exact ih hlast

theorem Yields.exists_of_askEach (h : (askEach found goals).Yields answers result)
    (hlast : goals.getLast? = some goal) : ∃ edit, answers goal edit ∧ result = some edit := by
  induction goals generalizing found with
  | nil => cases hlast
  | cons g goals ih =>
    cases h with
    | ask hanswer h =>
      cases goals with
      | nil =>
        obtain rfl := Option.some.inj hlast
        cases h
        exact ⟨_, hanswer, rfl⟩
      | cons g' goals => exact ih h hlast

/-- An edit that is found is the answer for the last goal. -/
theorem Yields.exists_getLast? {edit : Edit} (h : (askEach none goals).Yields answers (some edit)) :
    ∃ goal, goals.getLast? = some goal ∧ answers goal edit := by
  cases hlast : goals.getLast? with
  | none =>
    obtain rfl := List.getLast?_eq_none_iff.mp hlast
    cases h
  | some goal =>
    obtain ⟨edit', hanswer, hedit⟩ := h.exists_of_askEach hlast
    obtain rfl := Option.some.inj hedit
    exact ⟨goal, rfl, hanswer⟩

/-- If any goal is asked for, nothing else is tried. -/
theorem askEach_some_bind {edit : Edit} (goals : List Goal) (other : Inquiry (Option Edit)) :
    (askEach (some edit) goals >>= fun found => match found with
      | some edit => pure (some edit)
      | none => other) = askEach (some edit) goals := by
  induction goals generalizing edit with
  | nil => rfl
  | cons goal goals ih => exact congrArg (ask goal) (funext fun _ => ih)

end Inquiry

namespace Matcher

/-! ## Candidates -/

/-- The goals on the way down from the trees `below` along a buffer, in the order of the way. -/
def met (m : Matcher) (below : Forest Goal) : (buffer : List Char) → List Goal
  | [] => []
  | c :: buffer =>
    match (m.alphabet.code? c).bind below.child? with
    | none => []
    | some ⟨_, item, children⟩ => item.toList ++ m.met children buffer

/-- The goals that a look-up of a buffer comes to. The buffer is given backwards. -/
def candidates (m : Matcher) (buffer : List Char) : List Goal :=
  m.met m.trie.root.children buffer

/-- The goals one of which fires on a screen: the candidates of the text shown, or else of the keys
typed. -/
def contenders (m : Matcher) (screen : Screen) : List Goal :=
  match m.candidates screen.shown with
  | [] => m.candidates screen.typed
  | goals => goals

variable {m : Matcher} {below : Forest Goal} {goal : Goal} {buffer : List Char} {screen : Screen}

theorem search_eq_askEach (below : Forest Goal) (longest : Option Edit) (buffer : List Char) :
    m.search below longest buffer = Inquiry.askEach longest (m.met below buffer) := by
  induction buffer generalizing below longest with
  | nil => rfl
  | cons c buffer ih =>
    rw [search, met]
    cases (m.alphabet.code? c).bind below.child? with
    | none => rfl
    | some node =>
      obtain ⟨index, item, children⟩ := node
      cases item with
      | none => exact ih children longest
      | some goal =>
        show Inquiry.ask goal _ = Inquiry.ask goal _
        congr 1
        funext edit
        exact ih children (some edit)

/-- A look-up asks for the edits of its candidates one after the other. -/
theorem longestMatch_eq_askEach (buffer : List Char) :
    m.longestMatch buffer = Inquiry.askEach none (m.candidates buffer) :=
  search_eq_askEach _ _ _

/-- The edit that fires is that of the last contender. -/
theorem firing_eq_askEach (screen : Screen) :
    m.firing screen = Inquiry.askEach none (m.contenders screen) := by
  rw [firing, longestMatch_eq_askEach, longestMatch_eq_askEach, contenders]
  cases m.candidates screen.shown with
  -- the text shown has no match, and the keys are looked up
  | nil => rfl
  | cons goal goals => exact congrArg (Inquiry.ask goal) (funext fun _ => Inquiry.askEach_some_bind ..)

theorem mem_met_cons_iff {c : Char} :
    goal ∈ m.met below (c :: buffer) ↔
      ∃ code node, m.alphabet.code? c = some code ∧ below.child? code = some node ∧
        (node.item = some goal ∨ goal ∈ m.met node.children buffer) := by
  rw [met]
  cases hnode : (m.alphabet.code? c).bind below.child? with
  | none =>
    simp only [List.not_mem_nil, false_iff, not_exists, not_and]
    intro code node hcode hchild
    simp [hcode, hchild] at hnode
  | some node =>
    obtain ⟨code, hcode, hchild⟩ := Option.bind_eq_some_iff.mp hnode
    simp [hcode, hchild]

/-- The goals on the way are those whose paths are made of the first codes of the buffer. -/
theorem mem_met_iff (h : below.Sorted) :
    goal ∈ m.met below buffer ↔ ∃ keys path, keys <+: buffer ∧
      List.Forall₂ (fun c code => m.alphabet.code? c = some code) keys path ∧
        (path, goal) ∈ below.toList := by
  induction buffer generalizing below with
  | nil =>
    simp only [met, List.not_mem_nil, List.prefix_nil, false_iff]
    rintro ⟨keys, path, rfl, hcodes, hmem⟩
    rw [List.forall₂_nil_left_iff] at hcodes
    exact Forest.ne_nil_of_mem_toList hmem hcodes
  | cons c buffer ih =>
    rw [mem_met_cons_iff]
    constructor
    · rintro ⟨code, node, hcode, hchild, hmem⟩
      -- the item here has the path of one code, and those below have one code more
      have hpath : ∃ keys path, keys <+: buffer ∧
          List.Forall₂ (fun c code => m.alphabet.code? c = some code) keys path ∧
            (path, goal) ∈ node.toList := by
        rcases hmem with hitem | hmem
        · exact ⟨[], [], List.nil_prefix, .nil, Node.mem_toList_iff_or.mpr (.inl ⟨rfl, hitem⟩)⟩
        · obtain ⟨keys, path, hkeys, hcodes, hmem⟩ := (ih (h.child? hchild)).mp hmem
          exact ⟨keys, path, hkeys, hcodes, Node.mem_toList_iff_or.mpr (.inr hmem)⟩
      obtain ⟨keys, path, hkeys, hcodes, hmem⟩ := hpath
      exact ⟨c :: keys, code :: path, (List.prefix_cons_inj c).mpr hkeys, .cons hcode hcodes,
        h.cons_mem_toList_iff.mpr ⟨node, hchild, hmem⟩⟩
    · rintro ⟨keys, path, hkeys, hcodes, hmem⟩
      cases hcodes with
      | nil => exact absurd rfl (Forest.ne_nil_of_mem_toList hmem)
      | cons hcode hcodes =>
        obtain ⟨rfl, hrest⟩ := List.cons_prefix_cons.mp hkeys
        obtain ⟨node, hchild, hmem⟩ := h.cons_mem_toList_iff.mp hmem
        refine ⟨_, node, hcode, hchild, ?_⟩
        rcases Node.mem_toList_iff_or.mp hmem with ⟨-, hitem⟩ | hmem
        · exact .inl hitem
        · exact .inr ((ih (h.child? hchild)).mpr ⟨_, _, hrest, hcodes, hmem⟩)

/-- Along the way the paths become longer. The trees below stand `depth` codes down. -/
theorem pairwise_met (h : below.Sorted) (depth : Nat)
    (hlength : ∀ x ∈ below.toList, x.2.context.length = depth + x.1.length) :
    (m.met below buffer).Pairwise fun g g' => g.context.length < g'.context.length := by
  induction buffer generalizing below depth with
  | nil => exact .nil
  | cons c buffer ih =>
    rw [met]
    cases hnode : (m.alphabet.code? c).bind below.child? with
    | none => exact .nil
    | some node =>
      obtain ⟨code, -, hchild⟩ := Option.bind_eq_some_iff.mp hnode
      -- what is kept at or below the node has the code in front of its path
      have hlength' (path : List Code) (goal : Goal) (hmem : (path, goal) ∈ node.toList) :
          goal.context.length = depth + 1 + path.length := by
        rw [hlength _ (h.cons_mem_toList_iff.mpr ⟨node, hchild, hmem⟩), List.length_cons]
        omega
      have hbelow := ih (h.child? hchild) (depth + 1) fun x hx =>
        hlength' x.1 x.2 (Node.mem_toList_iff_or.mpr (.inr hx))
      rw [List.pairwise_append]
      refine ⟨?_, hbelow, ?_⟩
      · cases node.item <;> simp
      · intro g hg g' hg'
        have hg := hlength' [] g (Node.mem_toList_iff_or.mpr (.inl ⟨rfl, by simpa using hg⟩))
        obtain ⟨keys, path, -, -, hmem⟩ := (mem_met_iff (h.child? hchild)).mp hg'
        have hg' := hlength' path g' (Node.mem_toList_iff_or.mpr (.inr hmem))
        have hpos := List.length_pos_iff.mpr (Forest.ne_nil_of_mem_toList hmem)
        rw [List.length_nil] at hg
        omega

/-- Of contexts that become longer, none is longer than the last one. -/
theorem length_le_of_getLast? {goals : List Goal} {g : Goal}
    (hascending : goals.Pairwise fun g g' => g.context.length < g'.context.length)
    (hlast : goals.getLast? = some goal) (hg : g ∈ goals) :
    g.context.length ≤ goal.context.length := by
  obtain ⟨front, rfl⟩ := List.getLast?_eq_some_iff.mp hlast
  rcases List.mem_append.mp hg with hfront | hlast
  · exact Nat.le_of_lt
      ((List.pairwise_append.mp hascending).2.2 g hfront goal (List.mem_singleton_self _))
  · rw [List.mem_singleton.mp hlast]

namespace WellFormed

variable (h : m.WellFormed)
include h

theorem length_context_of_mem_toList {path : List Code} (hmem : (path, goal) ∈ m.trie.toList) :
    goal.context.length = path.length := by
  have hcodes := (Alphabet.path_eq_ok_iff_forall₂.mp (h.path_of_mem_toList hmem)).length_eq
  rw [← String.length_toList, ← hcodes, List.length_reverse]

/-- The candidates of a look-up are the goals whose contexts end the buffer, those without a context
left out. -/
theorem mem_candidates_iff :
    goal ∈ m.candidates buffer ↔
      goal ∈ m.goals ∧ goal.context ≠ "" ∧ goal.context.toList.reverse <+: buffer := by
  rw [candidates, mem_met_iff h.trie.sorted]
  constructor
  · rintro ⟨keys, path, hkeys, hcodes, hmem⟩
    have hmem' : (path, goal) ∈ m.trie.toList := Node.mem_toList_iff_or.mpr (.inr hmem)
    have hpath := Alphabet.path_eq_ok_iff_forall₂.mp (h.path_of_mem_toList hmem')
    -- the codes are those of the context, so the keys are its characters
    have hunique : Relator.LeftUnique fun c code => m.alphabet.code? c = some code :=
      fun _ _ _ hc hd => Alphabet.code?_injective hc hd
    obtain rfl := List.left_unique_forall₂' hunique hcodes hpath
    refine ⟨h.mem_goals_of_mem_toList hmem', ?_, hkeys⟩
    intro hempty
    rw [hempty] at hpath
    exact Forest.ne_nil_of_mem_toList hmem (List.forall₂_nil_left_iff.mp hpath)
  · rintro ⟨hgoal, hne, hkeys⟩
    have hpath := Alphabet.path_eq_ok_iff_forall₂.mp (h.path_eq_ok hgoal)
    have hmem : m.alphabet.place goal ∈ m.trie.toList :=
      h.toList.mem_iff.mpr (List.mem_map_of_mem hgoal)
    refine ⟨_, _, hkeys, hpath, ?_⟩
    -- only an empty context is kept at the root itself
    rcases Node.mem_toList_iff_or.mp hmem with ⟨hnil, -⟩ | hmem
    · have hnil : (m.alphabet.place goal).1 = [] := hnil
      rw [hnil, List.forall₂_nil_right_iff, List.reverse_eq_nil_iff,
        String.toList_eq_nil_iff] at hpath
      exact absurd hpath hne
    · exact hmem

theorem mem_goals_of_mem_contenders (hgoal : goal ∈ m.contenders screen) : goal ∈ m.goals := by
  rw [contenders] at hgoal
  split at hgoal
  · exact (h.mem_candidates_iff.mp hgoal).1
  · exact (h.mem_candidates_iff.mp hgoal).1

/-- A look-up comes to shorter contexts before longer ones. -/
theorem pairwise_candidates (buffer : List Char) :
    (m.candidates buffer).Pairwise fun g g' => g.context.length < g'.context.length := by
  refine pairwise_met h.trie.sorted 0 fun x hx => ?_
  rw [Nat.zero_add]
  exact h.length_context_of_mem_toList (Node.mem_toList_iff_or.mpr (.inr hx))

/-- The last candidate is the one with the longest context. -/
theorem getLast?_candidates (hgoal : goal ∈ m.candidates buffer)
    (hmax : ∀ g ∈ m.candidates buffer, g.context.length ≤ goal.context.length) :
    (m.candidates buffer).getLast? = some goal := by
  have hpairwise := h.pairwise_candidates buffer
  generalize m.candidates buffer = goals at hgoal hmax hpairwise
  obtain ⟨front, last, rfl⟩ : ∃ front last, goals = front ++ [last] :=
    ⟨_, _, (List.dropLast_append_getLast (List.ne_nil_of_mem hgoal)).symm⟩
  rw [List.getLast?_concat]
  -- any other goal has a shorter context than the last one
  rcases List.mem_append.mp hgoal with hfront | hlast
  · have hlt := (List.pairwise_append.mp hpairwise).2.2 goal hfront last (List.mem_singleton_self _)
    have hle := hmax last (by simp)
    omega
  · rw [List.mem_singleton.mp hlast]

end WellFormed

end Matcher

end Shorthand
