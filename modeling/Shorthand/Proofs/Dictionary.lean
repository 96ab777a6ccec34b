import Shorthand.Dictionary
import Shorthand.Proofs.Outcome
import Shorthand.Proofs.Text.Lines

/-!
# Accepted rules

`Dictionary.accept` goes through the items of a dictionary with the set of the contexts that it has met.
The rules that come out have passed `Dictionary.check`, and no two of them have one context: a rule is
new when it is accepted, and the set keeps those after it from having its context.

Each rule comes from one line of the dictionary, so its texts have no line feed.
-/

namespace Shorthand

/-- Whether the texts of a rule have no line feed. -/
def Rule.SingleLine (r : Rule) : Prop :=
  '\n' ∉ r.context.toList ∧ '\n' ∉ r.correction.toList

namespace Dictionary

variable {alphabet : Alphabet} {marks : Marks} {text : String} {r : Rule} {rules : List Rule}
  {seen : Std.HashSet String} {items : List (Except DictionaryError Rule)}

/-- A rule passes if the alphabet has all keys before its trigger and they are not too many. -/
theorem check_eq_ok_iff :
    check alphabet r = .ok () ↔
      (∀ c ∈ r.context.toList.dropLast, alphabet.contains c) ∧ r.contextLength ≤ maxContextLength := by
  unfold check
  split
  next hkeys =>
    have hno : ¬ ∀ c ∈ r.context.toList.dropLast, alphabet.contains c := by simpa using hkeys
    exact iff_of_false (by simp) fun h => hno h.1
  next hkeys =>
    have hall : ∀ c ∈ r.context.toList.dropLast, alphabet.contains c := by simpa using hkeys
    split
    next hlong => exact iff_of_false (by simp) fun h => Nat.not_le.mpr hlong h.2
    next hshort => exact iff_of_true rfl ⟨hall, Nat.not_lt.mp hshort⟩

/-- What becomes of an item. -/
theorem result_accept_cons (item : Except DictionaryError Rule) :
    (accept alphabet seen (item :: items)).result = item >>= fun r =>
      if r.context ∈ seen then (accept alphabet seen items).result
      else check alphabet r >>= fun _ =>
        (accept alphabet (seen.insert r.context) items).result >>= fun later => .ok (r :: later) := by
  rw [accept, LoggedExcept.result_bind, LoggedExcept.result_ofExcept]
  congr 1
  funext r
  split
  · rw [LoggedExcept.result_bind, LoggedExcept.result_report, ok_bind]
  · simp only [LoggedExcept.result_bind, LoggedExcept.result_ofExcept, LoggedExcept.result_pure]

/-- Accepted rules are new and different from one another, and they have passed. -/
theorem accepted_of_accept (h : (accept alphabet seen items).result = .ok rules) :
    (rules.map (·.context)).Nodup ∧
      ∀ r ∈ rules, r.context ∉ seen ∧ check alphabet r = .ok () := by
  induction items generalizing seen rules with
  | nil =>
    cases h
    exact ⟨List.nodup_nil, List.forall_mem_nil _⟩
  | cons item items ih =>
    rw [result_accept_cons] at h
    obtain ⟨r, -, h⟩ := bind_eq_ok_iff.mp h
    split at h
    -- a repeated context adds nothing
    · exact ih h
    next hnew =>
      obtain ⟨hcheck, h⟩ := bind_unit_eq_ok_iff.mp h
      obtain ⟨later, hlater, h⟩ := bind_eq_ok_iff.mp h
      cases h
      obtain ⟨hnodup, hall⟩ := ih hlater
      -- the later rules are new to a set that has this context
      have hseen (r' : Rule) (hr' : r' ∈ later) : r.context ≠ r'.context ∧ r'.context ∉ seen := by
        simpa [not_or] using (hall r' hr').1
      refine ⟨List.nodup_cons.mpr ⟨?_, hnodup⟩, List.forall_mem_cons.mpr ⟨⟨hnew, hcheck⟩, ?_⟩⟩
      · intro hmem
        obtain ⟨r', hr', heq⟩ := List.mem_map.mp hmem
        exact (hseen r' hr').1 heq.symm
      · exact fun r' hr' => ⟨(hseen r' hr').2, (hall r' hr').2⟩

/-- Accepted rules are items, in their order. -/
theorem sublist_of_accept (h : (accept alphabet seen items).result = .ok rules) :
    (rules.map Except.ok).Sublist items := by
  induction items generalizing seen rules with
  | nil =>
    cases h
    exact List.nil_sublist _
  | cons item items ih =>
    rw [result_accept_cons] at h
    obtain ⟨r, hitem, haccept⟩ := bind_eq_ok_iff.mp h
    split at haccept
    · exact (ih haccept).cons _
    · obtain ⟨-, haccept⟩ := bind_unit_eq_ok_iff.mp haccept
      obtain ⟨later, hlater, haccept⟩ := bind_eq_ok_iff.mp haccept
      cases haccept
      rw [hitem]
      exact (ih hlater).cons_cons _

/-- And such rules are all accepted. -/
theorem accept_map_ok (hnodup : (rules.map (·.context)).Nodup)
    (hall : ∀ r ∈ rules, r.context ∉ seen ∧ check alphabet r = .ok ()) :
    (accept alphabet seen (rules.map .ok)).result = .ok rules := by
  induction rules generalizing seen with
  | nil => rfl
  | cons r rules ih =>
    obtain ⟨hfirst, hnodup⟩ := List.nodup_cons.mp hnodup
    obtain ⟨⟨hnew, hcheck⟩, hall⟩ := List.forall_mem_cons.mp hall
    have hlater (r' : Rule) (hr' : r' ∈ rules) :
        r'.context ∉ seen.insert r.context ∧ check alphabet r' = .ok () := by
      have hne : r.context ≠ r'.context := fun heq =>
        hfirst (List.mem_map.mpr ⟨r', hr', heq.symm⟩)
      simpa [hne, (hall r' hr').1] using (hall r' hr').2
    rw [List.map_cons, result_accept_cons, ok_bind, if_neg hnew, hcheck, ok_bind, ih hnodup hlater,
      ok_bind]

/-- The texts of a rule are parts of a line. -/
theorem singleLine_of_item {line : Nat} {content : List Char} (hfree : '\n' ∉ content)
    (h : item marks line content = .ok r) : r.SingleLine := by
  unfold item at h
  split at h
  next => cases h
  next before after hsplit =>
    obtain ⟨hbefore, hafter⟩ := Text.subset_of_splitFirst? hsplit
    dsimp only at h
    split at h
    next => cases h
    next =>
      cases h
      constructor
      · rw [String.toList_ofList]
        exact fun hmem => hfree (hbefore (Text.mem_of_mem_trim hmem))
      · rw [String.toList_ofList]
        exact fun hmem => hfree (hafter (Text.mem_of_mem_trim hmem))

theorem not_mem_of_mem_contentLines {content : List Char} {line : Nat}
    (h : (content, line) ∈ contentLines marks text) : '\n' ∉ content := by
  obtain ⟨h, -⟩ := List.mem_filter.mp h
  obtain ⟨whole, hwhole, rfl⟩ := List.mem_map.mp (List.fst_mem_of_mem_zipIdx h)
  exact fun hmem => Text.not_mem_of_mem_lines hwhole (Text.mem_of_mem_trim hmem)

section

variable (h : (Dictionary.rules alphabet marks text).result = .ok rules)
include h

theorem nodup_context_of_rules : (rules.map (·.context)).Nodup :=
  (accepted_of_accept h).1

theorem check_of_rules (hr : r ∈ rules) : check alphabet r = .ok () :=
  ((accepted_of_accept h).2 r hr).2

theorem singleLine_of_rules (hr : r ∈ rules) : r.SingleLine := by
  have hitem : .ok r ∈ Dictionary.items marks text :=
    (sublist_of_accept h).subset (List.mem_map.mpr ⟨r, hr, rfl⟩)
  obtain ⟨⟨content, line⟩, hline, hitem⟩ := List.mem_map.mp hitem
  exact singleLine_of_item (not_mem_of_mem_contentLines hline) hitem

end

/-- A dictionary without repeated contexts or contexts that do not pass has all of its rules. -/
theorem result_rules_of_items (hitems : Dictionary.items marks text = rules.map .ok)
    (hnodup : (rules.map (·.context)).Nodup) (hcheck : ∀ r ∈ rules, check alphabet r = .ok ()) :
    (Dictionary.rules alphabet marks text).result = .ok rules := by
  rw [Dictionary.rules, hitems]
  exact accept_map_ok hnodup fun r hr => ⟨Std.HashSet.not_mem_empty, hcheck r hr⟩

end Dictionary

end Shorthand
