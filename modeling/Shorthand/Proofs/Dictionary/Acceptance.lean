import Shorthand.Proofs.Dictionary.Items

/-!
# Dictionaries that are accepted

Whether an item is bad depends on the items before it: a rule is only looked at if it is the first one
with its context (`Dictionary.New`), and then it must pass. `Dictionary.Bad` says so with the error that
it is. `Dictionary.accept` goes through the items with the set of the contexts accepted so far, which
are those of all items before as long as none was bad. So a dictionary is accepted just if no item is
bad, and refused with the error of the first one that is.

## Main statements

- `Dictionary.result_accept_eq_ok`: what is accepted if no item is bad.
- `Dictionary.result_accept_eq_error_iff`: the error of the first bad item.
- `Dictionary.rules_blames_first`: what is said about dictionaries that are accepted and others.
-/

namespace Shorthand.Dictionary

variable {alphabet : Alphabet} {marks : Marks} {text : String} {r : Rule} {rules all : List Rule}
  {seen : Std.HashSet String} {item : Except DictionaryError Rule}
  {items before : List (Except DictionaryError Rule)} {e : DictionaryError}

/-! ## Bad items -/

/-- Whether a rule has another context than the items before it. -/
def New (before : List (Except DictionaryError Rule)) (r : Rule) : Prop :=
  ∀ r', .ok r' ∈ before → r'.context ≠ r.context

/-- Whether an item is bad behind others, and what error it is. -/
inductive Bad (alphabet : Alphabet) (before : List (Except DictionaryError Rule)) :
    Except DictionaryError Rule → DictionaryError → Prop where
  -- The line does not hold a rule.
  | malformed (e : DictionaryError) : Bad alphabet before (.error e) e
  | invalidCharacters {r : Rule} : New before r →
      (∃ c ∈ r.context.toList.dropLast, ¬ alphabet.contains c) →
        Bad alphabet before (.ok r) (.invalidCharacters r.line r.context)
  | sequenceTooLong {r : Rule} : New before r →
      (∀ c ∈ r.context.toList.dropLast, alphabet.contains c) → 127 < r.context.length →
        Bad alphabet before (.ok r) (.sequenceTooLong r.line r.context)

/-- A repeated context is never bad. -/
theorem not_bad_of_not_new (h : ¬ New before r) : ¬ Bad alphabet before (.ok r) e := by
  rintro (_ | ⟨hnew, -⟩ | ⟨hnew, -, -⟩) <;> exact h hnew

/-- Whether none of some items is bad behind those before it and behind others before all of them. -/
def Clean (alphabet : Alphabet) (before items : List (Except DictionaryError Rule)) : Prop :=
  ∀ front item back, items = front ++ item :: back → ∀ e, ¬ Bad alphabet (before ++ front) item e

/-- Whether an error is that of the first bad item among some, behind others. -/
def FirstBad (alphabet : Alphabet) (before items : List (Except DictionaryError Rule))
    (e : DictionaryError) : Prop :=
  ∃ front item back, items = front ++ item :: back ∧ Clean alphabet before front ∧
    Bad alphabet (before ++ front) item e

theorem clean_nil (alphabet : Alphabet) (before : List (Except DictionaryError Rule)) :
    Clean alphabet before [] := by
  intro front item back h
  simp at h

theorem clean_cons :
    Clean alphabet before (item :: items) ↔
      (∀ e, ¬ Bad alphabet before item e) ∧ Clean alphabet (before ++ [item]) items := by
  constructor
  · intro h
    refine ⟨by simpa using h [] item items rfl, fun front item' back heq => ?_⟩
    simpa [List.append_assoc] using h (item :: front) item' back (by rw [heq, List.cons_append])
  · rintro ⟨hitem, hitems⟩ front item' back heq
    cases front with
    | nil =>
      obtain ⟨rfl, -⟩ := List.cons.inj heq
      simpa using hitem
    | cons first front =>
      obtain ⟨rfl, heq'⟩ := List.cons.inj heq
      simpa [List.append_assoc] using hitems front item' back heq'

/-- The first item is bad, or it is not and the first bad one comes later. -/
theorem firstBad_cons :
    FirstBad alphabet before (item :: items) e ↔
      Bad alphabet before item e ∨
        (∀ e, ¬ Bad alphabet before item e) ∧ FirstBad alphabet (before ++ [item]) items e := by
  constructor
  · rintro ⟨front, item', back, heq, hclean, hbad⟩
    cases front with
    | nil =>
      obtain ⟨rfl, -⟩ := List.cons.inj heq
      exact .inl (by simpa using hbad)
    | cons first front =>
      obtain ⟨rfl, heq'⟩ := List.cons.inj heq
      obtain ⟨hitem, hclean⟩ := clean_cons.mp hclean
      exact .inr ⟨hitem, front, item', back, heq', hclean, by simpa [List.append_assoc] using hbad⟩
  · rintro (hbad | ⟨hitem, front, item', back, rfl, hclean, hbad⟩)
    · exact ⟨[], item, items, rfl, clean_nil _ _, by simpa using hbad⟩
    · exact ⟨item :: front, item', back, rfl, clean_cons.mpr ⟨hitem, hclean⟩,
        by simpa [List.append_assoc] using hbad⟩

/-- A rule that is new is bad just as the check says. -/
theorem check_eq_error_iff (hnew : New before r) :
    check alphabet r = .error e ↔ Bad alphabet before (.ok r) e := by
  constructor
  · intro h
    unfold check at h
    split at h
    next hkeys =>
      cases h
      exact .invalidCharacters hnew (by simpa using hkeys)
    next hkeys =>
      split at h
      next hlong =>
        cases h
        exact .sequenceTooLong hnew (by simpa using hkeys) hlong
      next => cases h
  · intro h
    unfold check
    cases h with
    | invalidCharacters _ hkeys => exact if_pos (by simpa using hkeys)
    | sequenceTooLong _ hkeys hlong =>
      rw [if_neg (by simpa using hkeys)]
      exact if_pos hlong

theorem not_bad_of_check (h : check alphabet r = .ok ()) : ¬ Bad alphabet before (.ok r) e := by
  intro hbad
  by_cases hnew : New before r
  · rw [← check_eq_error_iff hnew, h] at hbad
    cases hbad
  · exact not_bad_of_not_new hnew hbad

theorem clean_iff_not_firstBad :
    Clean alphabet before items ↔ ∀ e, ¬ FirstBad alphabet before items e := by
  induction items generalizing before with
  | nil =>
    refine iff_of_true (clean_nil _ _) ?_
    rintro e ⟨front, item, back, heq, -⟩
    simp at heq
  | cons item items ih =>
    simp only [clean_cons, firstBad_cons, ih, not_or, not_and]
    exact ⟨fun ⟨hitem, hitems⟩ e => ⟨hitem e, fun _ => hitems e⟩,
      fun h => ⟨fun e => (h e).1, fun e => (h e).2 fun e' => (h e').1⟩⟩

/-- Items without a bad one are rules. -/
theorem exists_eq_map_ok_of_clean (h : Clean alphabet before items) :
    ∃ all : List Rule, items = all.map .ok := by
  induction items generalizing before with
  | nil => exact ⟨[], rfl⟩
  | cons item items ih =>
    obtain ⟨hitem, hitems⟩ := clean_cons.mp h
    obtain ⟨all, rfl⟩ := ih hitems
    cases item with
    | error e => exact absurd (.malformed e) (hitem e)
    | ok r => exact ⟨r :: all, rfl⟩

/-! ## The contexts seen so far -/

/-- Whether a set holds the contexts of some items. -/
def Remembers (seen : Std.HashSet String) (before : List (Except DictionaryError Rule)) : Prop :=
  ∀ r, r.context ∈ seen ↔ ¬ New before r

theorem remembers_empty : Remembers ∅ [] := by
  intro r
  simp [New]

theorem Remembers.mem_iff (h : Remembers seen before) : r.context ∈ seen ↔ ¬ New before r := h r

/-- An item that is skipped adds no context to those before it. -/
theorem Remembers.skip (h : Remembers seen before) (hr : r.context ∈ seen) :
    Remembers seen (before ++ [.ok r]) := by
  intro r'
  rw [h r']
  have hrepeated : r.context = r'.context → ¬ New before r' := fun heq => by
    rw [← h r', ← heq]
    exact hr
  simp only [New, List.mem_append, List.mem_singleton] at hrepeated ⊢
  grind

theorem Remembers.insert (h : Remembers seen before) :
    Remembers (seen.insert r.context) (before ++ [.ok r]) := by
  intro r'
  rw [Std.HashSet.mem_insert, h r']
  simp only [New, List.mem_append, List.mem_singleton, beq_iff_eq]
  grind

/-! ## Acceptance -/

/-- Items fail as the first bad one does. -/
theorem result_accept_eq_error_iff (hseen : Remembers seen before) :
    (accept alphabet seen items).result = .error e ↔ FirstBad alphabet before items e := by
  induction items generalizing seen before with
  | nil =>
    constructor
    · rintro ⟨⟩
    · rintro ⟨front, item, back, heq, -⟩
      simp at heq
  | cons item items ih =>
    rw [result_accept_cons, firstBad_cons]
    cases item with
    | error e' =>
      -- a malformed item is bad wherever it stands
      have hbad : Bad alphabet before (.error e') e' := .malformed e'
      rw [error_bind]
      constructor
      · rintro ⟨⟩
        exact .inl hbad
      · rintro (hfirst | ⟨hnot, -⟩)
        · cases hfirst
          rfl
        · exact absurd hbad (hnot e')
    | ok r =>
      rw [ok_bind]
      split
      next hrepeated =>
        have hnot (e : DictionaryError) : ¬ Bad alphabet before (.ok r) e :=
          not_bad_of_not_new (hseen.mem_iff.mp hrepeated)
        rw [ih (hseen.skip hrepeated)]
        exact ⟨fun h => .inr ⟨hnot, h⟩, fun h => (h.resolve_left (hnot e)).2⟩
      next hnew =>
        have hnew : New before r := not_not.mp (mt hseen.mem_iff.mpr hnew)
        simp only [← check_eq_error_iff hnew, bind_eq_error_iff, ih hseen.insert]
        cases check alphabet r <;> simp

theorem exists_result_accept_iff (hseen : Remembers seen before) :
    (∃ rules, (accept alphabet seen items).result = .ok rules) ↔ Clean alphabet before items := by
  rw [clean_iff_not_firstBad]
  simp only [← result_accept_eq_error_iff hseen]
  cases (accept alphabet seen items).result <;> simp

/-- Some rules without those whose context is that of a rule before. -/
def firsts (rules : List Rule) : List Rule :=
  rules.eraseDupsBy fun r r' => r.context == r'.context

/-- What is accepted are the first rules of the contexts that are new. -/
theorem eq_firsts_of_accept (h : (accept alphabet seen (all.map .ok)).result = .ok rules) :
    rules = firsts (all.filter fun r => r.context ∉ seen) := by
  induction all generalizing seen rules with
  | nil =>
    cases h
    rfl
  | cons r all ih =>
    rw [List.map_cons, result_accept_cons, ok_bind] at h
    split at h
    next hrepeated => rw [ih h, List.filter_cons_of_neg (by simpa using hrepeated)]
    next hnew =>
      obtain ⟨-, h⟩ := bind_unit_eq_ok_iff.mp h
      obtain ⟨later, hlater, h⟩ := bind_eq_ok_iff.mp h
      cases h
      rw [List.filter_cons_of_pos (by simpa using hnew), firsts, List.eraseDupsBy_cons,
        List.filter_filter, ih hlater, firsts]
      congr 3
      funext r'
      by_cases hsame : r.context = r'.context
      · simp [hsame]
      · simp [hsame, Ne.symm hsame]

/-- There is one record for each rule that is not accepted. -/
theorem log_accept (hnodup : all.Nodup)
    (h : (accept alphabet seen (all.map .ok)).result = .ok rules) :
    (accept alphabet seen (all.map .ok)).log =
      (all.filter (· ∉ rules)).map fun r => .duplicateSequence r.line r.context := by
  induction all generalizing seen rules with
  | nil => rfl
  | cons r all ih =>
    obtain ⟨hr, hnodup⟩ := List.nodup_cons.mp hnodup
    rw [List.map_cons, result_accept_cons, ok_bind] at h
    rw [List.map_cons, accept, LoggedExcept.log_bind_of_ok rfl, LoggedExcept.log_ofExcept, List.nil_append]
    split at h
    next hrepeated =>
      -- what is accepted has other contexts
      have hnot : r ∉ rules := fun hmem => ((accepted_of_accept h).2 r hmem).1 hrepeated
      rw [if_pos hrepeated, LoggedExcept.log_bind_of_ok rfl, LoggedExcept.log_report, ih hnodup h,
        List.filter_cons_of_pos (by simpa using hnot), List.map_cons, List.singleton_append]
    next hnew =>
      obtain ⟨hcheck, h⟩ := bind_unit_eq_ok_iff.mp h
      obtain ⟨later, hlater, h⟩ := bind_eq_ok_iff.mp h
      cases h
      have hsame : all.filter (· ∉ r :: later) = all.filter (· ∉ later) :=
        List.filter_congr fun r' hr' => by
          have hne : r' ≠ r := fun heq => hr (heq ▸ hr')
          simp [hne]
      rw [if_neg hnew, LoggedExcept.log_bind_of_ok ((LoggedExcept.result_ofExcept _).trans hcheck),
        LoggedExcept.log_bind_of_ok hlater,
        LoggedExcept.log_ofExcept, LoggedExcept.log_pure, List.nil_append, List.append_nil,
        ih hnodup hlater, List.filter_cons_of_neg (by simp), hsame]

/-! ## Lines -/

/-- Of two rules the later one stands on a later line. -/
theorem pairwise_line_items (marks : Marks) (text : String) :
    (Dictionary.items marks text).Pairwise fun item item' =>
      ∀ r r', item = .ok r → item' = .ok r' → r.line < r'.line := by
  rw [items_eq, List.pairwise_map]
  refine (pairwise_numbered marks 1 text.toList).imp ?_
  rintro ⟨content, line⟩ ⟨content', line'⟩ hlt r r' hr hr'
  rw [line_of_item hr, line_of_item hr']
  exact hlt

theorem pairwise_line_of_sublist (h : (rules.map Except.ok).Sublist (Dictionary.items marks text)) :
    rules.Pairwise (·.line < ·.line) := by
  have hlines := (pairwise_line_items marks text).sublist h
  exact (List.pairwise_map.mp hlines).imp fun hlt => hlt _ _ rfl rfl

/-! ## Dictionaries -/

/-- A dictionary is accepted just if no item is bad behind those before it. Its rules are then the items
without those whose context is repeated, on increasing lines, and there is one record for each of the
others. If an item is bad, the error is that of the first one, whatever stands on later lines. A line that
holds no rule is named with its number. -/
theorem rules_blames_first (alphabet : Alphabet) (marks : Marks) (text : String) :
    ((∃ rules, (Dictionary.rules alphabet marks text).result = .ok rules) ↔
      Clean alphabet [] (Dictionary.items marks text)) ∧
    (∀ rules, (Dictionary.rules alphabet marks text).result = .ok rules →
      ∃ all, Dictionary.items marks text = all.map .ok ∧ rules = firsts all ∧
        rules.Pairwise (·.line < ·.line) ∧
        (Dictionary.rules alphabet marks text).log =
          (all.filter (· ∉ rules)).map fun r => .duplicateSequence r.line r.context) ∧
    (∀ e, (Dictionary.rules alphabet marks text).result = .error e ↔
      FirstBad alphabet [] (Dictionary.items marks text) e) ∧
    (∀ e rest, (Dictionary.rules alphabet marks text).result = .error e →
      (Dictionary.rules alphabet marks (text ++ "\n" ++ rest)).result = .error e) ∧
    ∀ e, .error e ∈ Dictionary.items marks text →
      ∃ content line, (content, line) ∈ contentLines marks text ∧
        e = .invalidLine line (String.ofList content) := by
  have herror (text : String) (e : DictionaryError) :
      (Dictionary.rules alphabet marks text).result = .error e ↔
        FirstBad alphabet [] (Dictionary.items marks text) e := result_accept_eq_error_iff remembers_empty
  refine ⟨exists_result_accept_iff remembers_empty, fun rules h => ?_, herror text, fun e rest h => ?_,
    fun e => exists_line_of_error_mem_items⟩
  · have hclean := (exists_result_accept_iff remembers_empty).mp ⟨rules, h⟩
    obtain ⟨all, hall⟩ := exists_eq_map_ok_of_clean hclean
    have hsublist : (all.map Except.ok).Sublist (Dictionary.items marks text) :=
      hall ▸ List.Sublist.refl _
    -- a line holds one item at most
    have hnodup : all.Nodup := by
      refine (pairwise_line_of_sublist hsublist).imp ?_
      rintro r _ hlt rfl
      exact Nat.lt_irrefl _ hlt
    have hrules := pairwise_line_of_sublist (sublist_of_accept h)
    rw [Dictionary.rules, hall] at h ⊢
    exact ⟨all, rfl, by simpa using eq_firsts_of_accept h, hrules, log_accept hnodup h⟩
  · obtain ⟨front, item, back, hitems, hclean, hbad⟩ := (herror text e).mp h
    obtain ⟨later, hlater⟩ := items_append_line marks text rest
    refine (herror _ e).mpr ⟨front, item, back ++ later, ?_, hclean, hbad⟩
    rw [hlater, hitems, List.append_assoc, List.cons_append]

/-- The third line repeats a context, and the comment has a number too. -/
theorem rules_blames_first_repeated :
    ∃ (alphabet : Alphabet) (marks : Marks) (text : String) (rules : List Rule),
      alphabet = ⟨['★'], ['☆'], ' ', by decide, by decide⟩ ∧ marks = ⟨"->", "#"⟩ ∧
      text = "ab -> x\n# -> y\nab -> z\nc -> -> " ∧
      (Dictionary.rules alphabet marks text).result = .ok rules ∧
      rules = [⟨1, "ab", "x"⟩, ⟨4, "c", "->"⟩] ∧
      (Dictionary.rules alphabet marks text).log = [.duplicateSequence 3 "ab"] := by
  obtain ⟨alphabet, marks, text, all, halphabet, hmarks, htext, hall, hitems, hcheck⟩ :
      ∃ (alphabet : Alphabet) (marks : Marks) (text : String) (all : List Rule),
        alphabet = ⟨['★'], ['☆'], ' ', by decide, by decide⟩ ∧ marks = ⟨"->", "#"⟩ ∧
        text = "ab -> x\n# -> y\nab -> z\nc -> -> " ∧
        all = [⟨1, "ab", "x"⟩, ⟨3, "ab", "z"⟩, ⟨4, "c", "->"⟩] ∧
        Dictionary.items marks text = all.map .ok ∧ all.map (check alphabet) = [.ok (), .ok (), .ok ()] :=
    ⟨_, _, _, _, rfl, rfl, rfl, rfl, rfl, rfl⟩
  obtain ⟨haccepted, hrules, -⟩ := rules_blames_first alphabet marks text
  rw [hall] at hcheck
  simp only [List.map_cons, List.cons.injEq] at hcheck
  obtain ⟨hfirst, hsecond, hthird, -⟩ := hcheck
  obtain ⟨rules, h⟩ := haccepted.mpr (by
    rw [hitems, hall]
    exact clean_cons.mpr ⟨fun _ => not_bad_of_check hfirst, clean_cons.mpr
      ⟨fun _ => not_bad_of_check hsecond, clean_cons.mpr
        ⟨fun _ => not_bad_of_check hthird, clean_nil _ _⟩⟩⟩)
  obtain ⟨all', hall', heq, -, hlog⟩ := hrules rules h
  obtain rfl : all = all' := List.map_injective_iff.mpr (fun _ _ => Except.ok.inj) (hitems.symm.trans hall')
  have hfirsts : rules = [⟨1, "ab", "x"⟩, ⟨4, "c", "->"⟩] := by
    rw [heq, hall]
    rfl
  refine ⟨alphabet, marks, text, rules, halphabet, hmarks, htext, h, hfirsts, ?_⟩
  rw [hlog, hfirsts, hall]
  rfl

end Shorthand.Dictionary
