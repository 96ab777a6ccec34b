import Shorthand.Proofs.Dictionary.Items

/-!
# Layout of dictionaries

The rules of a dictionary do not depend on how it is laid out: on blank lines and comments, on white
space at the ends of lines, on the way in which the lines end, and on lines that repeat a context. All
that changes are the numbers of the lines (`Rule.moved`, `DictionaryError.moved`).

`LayoutEdit` is one such change to a text, with what becomes of the numbers, and `Relaid` any number of
them, one after the other. What one edit does is found from the items of the text: they stay as they are,
or there is one more of them that repeats a context, which `Dictionary.accept` then skips.

## Main statements

- `Dictionary.result_accept_moved`, `Dictionary.result_accept_repeated`: items on other lines, and items
  with one more.
- `Dictionary.exists_items_insert`: the items of a text with a line inserted.
- `Dictionary.LayoutEdit.result_rules`, `Dictionary.Relaid.result_rules`: the rules after one edit and
  after many.
-/

namespace Shorthand

/-- A rule on another line. -/
def Rule.moved (f : Nat → Nat) (r : Rule) : Rule := { r with line := f r.line }

@[simp] theorem Rule.context_moved (f : Nat → Nat) (r : Rule) : (r.moved f).context = r.context := rfl

/-- A dictionary error about another line. -/
def DictionaryError.moved (f : Nat → Nat) : DictionaryError → DictionaryError
  | .invalidLine line content => .invalidLine (f line) content
  | .invalidCharacters line context => .invalidCharacters (f line) context
  | .sequenceTooLong line context => .sequenceTooLong (f line) context

namespace Dictionary

variable {alphabet : Alphabet} {marks : Marks} {text text' front line back : String}
  {r' : Rule} {seen : Std.HashSet String} {before after : List (Except DictionaryError Rule)} {n : Nat}

/-! ## Items on other lines -/

/-- What a line holds, on another line. -/
def movedItem (f : Nat → Nat) : Except DictionaryError Rule → Except DictionaryError Rule
  | .error e => .error (e.moved f)
  | .ok r => .ok (r.moved f)

/-- The outcome of a dictionary whose lines are others. -/
def movedRules (f : Nat → Nat) : Except DictionaryError (List Rule) → Except DictionaryError (List Rule)
  | .error e => .error (e.moved f)
  | .ok rules => .ok (rules.map (Rule.moved f))

theorem movedRules_id (outcome : Except DictionaryError (List Rule)) : movedRules id outcome = outcome := by
  rcases outcome with (_ | _ | _) | rules
  case ok =>
    have hid : Rule.moved id = id := rfl
    rw [movedRules, hid, List.map_id]
  all_goals rfl

theorem movedRules_comp (g f : Nat → Nat) (outcome : Except DictionaryError (List Rule)) :
    movedRules g (movedRules f outcome) = movedRules (g ∘ f) outcome := by
  rcases outcome with (_ | _ | _) | rules
  case ok =>
    rw [movedRules, movedRules, List.map_map]
    rfl
  all_goals rfl

/-- A line holds the same wherever it stands. -/
theorem item_moved (f : Nat → Nat) (marks : Marks) (line : Nat) (content : List Char) :
    item marks (f line) content = movedItem f (item marks line content) := by
  unfold item
  split
  next => rfl
  next =>
    dsimp only
    split
    next => rfl
    next => rfl

theorem map_item_moved (f : Nat → Nat) (marks : Marks) (contents : List (List Char × Nat)) :
    (contents.map fun (content, line) => (content, f line)).map
        (fun (content, line) => item marks line content) =
      (contents.map fun (content, line) => item marks line content).map (movedItem f) := by
  rw [List.map_map, List.map_map]
  exact List.map_congr_left fun (content, line) _ => item_moved f marks line content

theorem check_moved (f : Nat → Nat) (alphabet : Alphabet) (r : Rule) :
    check alphabet (r.moved f) = (check alphabet r).mapError (DictionaryError.moved f) := by
  have hlength : (r.moved f).contextLength = r.contextLength := rfl
  rw [check, check, Rule.context_moved, hlength]
  split
  next => rfl
  next => split <;> rfl

/-- On other lines the same items are accepted, or the same one is not. -/
theorem result_accept_moved (f : Nat → Nat) (items : List (Except DictionaryError Rule)) :
    (accept alphabet seen (items.map (movedItem f))).result =
      movedRules f (accept alphabet seen items).result := by
  induction items generalizing seen with
  | nil => rfl
  | cons item items ih =>
    rw [List.map_cons, result_accept_cons, result_accept_cons]
    cases item with
    | error e => rfl
    | ok r =>
      rw [movedItem, ok_bind, ok_bind, Rule.context_moved]
      split
      next => exact ih
      next =>
        rw [check_moved, ih]
        cases check alphabet r with
        | error e => rfl
        | ok _ => cases (accept alphabet (seen.insert r.context) items).result <;> rfl

/-! ## Repeated contexts -/

/-- It makes no difference if a rule has the context of one before it. -/
theorem result_accept_repeated
    (hrepeated : r'.context ∈ seen ∨ ∃ r, .ok r ∈ before ∧ r.context = r'.context) :
    (accept alphabet seen (before ++ .ok r' :: after)).result =
      (accept alphabet seen (before ++ after)).result := by
  induction before generalizing seen with
  | nil =>
    have hseen : r'.context ∈ seen := by simpa using hrepeated
    rw [List.nil_append, List.nil_append, result_accept_cons, ok_bind, if_pos hseen]
  | cons item before ih =>
    rw [List.cons_append, List.cons_append, result_accept_cons, result_accept_cons]
    cases item with
    | error e => rfl
    | ok r =>
      rw [ok_bind, ok_bind]
      split
      next hr =>
        refine ih ?_
        rcases hrepeated with hseen | ⟨r₀, hmem, hcontext⟩
        · exact .inl hseen
        · rcases List.mem_cons.mp hmem with heq | hmem
          · cases heq
            exact .inl (hcontext ▸ hr)
          · exact .inr ⟨r₀, hmem, hcontext⟩
      next =>
        rw [ih]
        rcases hrepeated with hseen | ⟨r₀, hmem, hcontext⟩
        · exact .inl (Std.HashSet.mem_insert.mpr (.inr hseen))
        · rcases List.mem_cons.mp hmem with heq | hmem
          · cases heq
            exact .inl (Std.HashSet.mem_insert.mpr (.inl (by simpa using hcontext)))
          · exact .inr ⟨r₀, hmem, hcontext⟩

/-! ## Inserted lines -/

/-- The number of a line after another one is inserted behind some text. -/
def below (front : String) (n : Nat) : Nat :=
  if n ≤ front.toList.count '\n' then n else n + 1

theorem below_of_le (h : n ≤ front.toList.count '\n') : below front n = n := if_pos h

theorem below_of_lt (h : front.toList.count '\n' < n) : below front n = n + 1 :=
  if_neg (Nat.not_le.mpr h)

/-- A text in two parts, the second of which is moved down by one line. -/
theorem map_below_numbered (hfront : Text.AtLineStart front.toList) :
    (numbered marks 1 (front ++ back).toList).map (fun (content, n) => (content, below front n)) =
      numbered marks 1 front.toList ++
        numbered marks (1 + front.toList.count '\n' + 1) back.toList := by
  rw [String.toList_append, numbered_append hfront, List.map_append,
    numbered_add marks (1 + front.toList.count '\n') 1]
  congr 1
  · conv_rhs => rw [← List.map_id (numbered marks 1 front.toList)]
    refine List.map_congr_left fun (content, n) hmem => ?_
    have hn := lt_of_mem_numbered hfront hmem
    exact congrArg (Prod.mk content) (below_of_le (by omega))
  · refine List.map_congr_left fun (content, n) hmem => ?_
    have hn := (le_of_mem_numbered hmem).1
    exact congrArg (Prod.mk content) (below_of_lt (by omega))

/-- Around an inserted line the items are those of the text without it. -/
theorem exists_items_insert (hfront : Text.AtLineStart front.toList) (hline : '\n' ∉ line.toList)
    (back : String) :
    ∃ later, (items marks (front ++ back)).map (movedItem (below front)) = items marks front ++ later ∧
      items marks (front ++ line ++ "\n" ++ back) =
        items marks front ++ ((items marks line).map (movedItem (· + front.toList.count '\n')) ++ later) := by
  have htext : (front ++ line ++ "\n" ++ back).toList =
      front.toList ++ (line.toList ++ '\n' :: back.toList) := by simp
  rw [items_eq, ← map_item_moved, map_below_numbered hfront, items_eq, items_eq, items_eq, htext,
    numbered_append hfront, numbered_append_cons, numbered_add marks 1 (front.toList.count '\n') line.toList,
    List.count_eq_zero.mpr hline, ← map_item_moved, List.map_append, List.map_append, List.map_append]
  exact ⟨_, rfl, rfl⟩

/-! ## Lines as they are -/

/-- White space at the ends of a line makes no difference to the items. -/
theorem items_congr {front part part' back : List Char} (hfront : Text.AtLineStart front)
    (hpart : '\n' ∉ part) (hpart' : '\n' ∉ part') (htrim : Text.trim part' = Text.trim part)
    (hback : Text.AtLineEnd back) (htext : text.toList = front ++ (part ++ back))
    (htext' : text'.toList = front ++ (part' ++ back)) : items marks text' = items marks text := by
  rw [items_eq, items_eq, htext, htext', numbered_append hfront, numbered_append hfront,
    numbered_congr hpart hpart' htrim hback]

/-- Whether a text is white space within a line. -/
def IsPadding (blank : String) : Prop := ∀ c ∈ blank.toList, Text.isBlank c ∧ c ≠ '\n'

instance (blank : String) : Decidable (IsPadding blank) := List.decidableBAll _ blank.toList

theorem items_padded {front before before' line after after' back : String}
    (hfront : Text.AtLineStart front.toList) (hline : '\n' ∉ line.toList)
    (hback : Text.AtLineEnd back.toList) (hbefore : IsPadding before) (hbefore' : IsPadding before')
    (hafter : IsPadding after) (hafter' : IsPadding after') :
    items marks (front ++ before' ++ line ++ after' ++ back) =
      items marks (front ++ before ++ line ++ after ++ back) := by
  have hfeed {before after : String} (hbefore : IsPadding before) (hafter : IsPadding after) :
      '\n' ∉ before.toList ++ (line.toList ++ after.toList) := by
    simp only [List.mem_append, not_or]
    exact ⟨fun h => (hbefore _ h).2 rfl, hline, fun h => (hafter _ h).2 rfl⟩
  have htrim {before after : String} (hbefore : IsPadding before) (hafter : IsPadding after) :
      Text.trim (before.toList ++ (line.toList ++ after.toList)) = Text.trim line.toList :=
    Text.trim_append_append (fun c hc => (hbefore c hc).1) _ fun c hc => (hafter c hc).1
  exact items_congr hfront (hfeed hbefore hafter) (hfeed hbefore' hafter')
    ((htrim hbefore' hafter').trans (htrim hbefore hafter).symm) hback (by simp) (by simp)

/-- A carriage return before a line feed is white space at the end of a line. -/
theorem items_returned (marks : Marks) (front back : String) :
    items marks (front ++ "\r\n" ++ back) = items marks (front ++ "\n" ++ back) := by
  obtain ⟨before, part, hfront, hbefore, hpart⟩ := Text.exists_eq_append_line front.toList
  have hpart' : '\n' ∉ part ++ ['\r'] := by simp [hpart]
  have htrim : Text.trim (part ++ ['\r']) = Text.trim part :=
    Text.trim_append part (List.forall_mem_singleton.mpr (by decide))
  exact items_congr hbefore hpart hpart' htrim (Text.atLineEnd_iff.mpr (.inr ⟨back.toList, rfl⟩))
    (by simp [hfront]) (by simp [hfront])

/-- It makes no difference if the last line has its line feed. -/
theorem items_ended (marks : Marks) (front : String) : items marks (front ++ "\n") = items marks front := by
  have htext : (front ++ "\n").toList = front.toList ++ '\n' :: [] := by simp
  rw [items_eq, items_eq, htext, numbered_append_cons, numbered_nil, List.append_nil]

/-! ## Edits -/

/-- One change to the layout of a text, and what becomes of the numbers of its lines. -/
inductive LayoutEdit (marks : Marks) : String → String → (Nat → Nat) → Prop where
  -- A line that is blank or a comment is inserted where a line starts.
  | skipped {front line : String} (back : String) : Text.AtLineStart front.toList → '\n' ∉ line.toList →
      isSkipped marks (Text.trim line.toList) →
        LayoutEdit marks (front ++ back) (front ++ line ++ "\n" ++ back) (below front)
  -- A rule is inserted where a line starts, somewhere below another one with its context.
  | repeated {front line : String} (back : String) {r r' : Rule} : Text.AtLineStart front.toList →
      '\n' ∉ line.toList → .ok r ∈ items marks front → items marks line = [.ok r'] →
        r'.context = r.context →
          LayoutEdit marks (front ++ back) (front ++ line ++ "\n" ++ back) (below front)
  -- A line gets other white space at its ends, or none.
  | padded {front before before' line after after' back : String} : Text.AtLineStart front.toList →
      '\n' ∉ line.toList → Text.AtLineEnd back.toList → IsPadding before → IsPadding before' →
        IsPadding after → IsPadding after' →
          LayoutEdit marks (front ++ before ++ line ++ after ++ back)
            (front ++ before' ++ line ++ after' ++ back) id
  -- A line feed becomes a carriage return and a line feed.
  | returned (front back : String) :
      LayoutEdit marks (front ++ "\n" ++ back) (front ++ "\r\n" ++ back) id
  -- The last line gets a line feed, behind which another line can be inserted.
  | ended (front : String) : LayoutEdit marks front (front ++ "\n") id
  | unended (front : String) : LayoutEdit marks (front ++ "\n") front id

/-- Whether a text comes from another one by changes to its layout, and what becomes of the numbers of
the lines: each one goes up by the number of lines that were inserted before it. -/
inductive Relaid (marks : Marks) (text : String) : String → (Nat → Nat) → Prop where
  | same : Relaid marks text text id
  | edit {text' text'' : String} {f g : Nat → Nat} : Relaid marks text text' f →
      LayoutEdit marks text' text'' g → Relaid marks text text'' (g ∘ f)

/-- One change to the layout of a dictionary leaves its rules as they are, or its error, up to the numbers
of the lines. -/
theorem LayoutEdit.result_rules {g : Nat → Nat} (h : LayoutEdit marks text text' g) :
    (rules alphabet marks text').result = movedRules g (rules alphabet marks text).result := by
  cases h with
  | @skipped front line back hfront hline hskipped =>
    obtain ⟨later, hitems, hitems'⟩ := exists_items_insert hfront hline back
    have hnone : items marks line = [] := by
      rw [items_eq, numbered_of_not_mem hline, if_pos hskipped, List.map_nil]
    rw [hnone, List.map_nil, List.nil_append] at hitems'
    rw [rules, rules, ← result_accept_moved, hitems, hitems']
  | repeated back hfront hline hr hr' hcontext =>
    obtain ⟨later, hitems, hitems'⟩ := exists_items_insert hfront hline back
    rw [hr', List.map_singleton, List.singleton_append] at hitems'
    rw [rules, rules, ← result_accept_moved, hitems, hitems', movedItem]
    exact result_accept_repeated (.inr ⟨_, hr, hcontext.symm⟩)
  | padded hfront hline hback hbefore hbefore' hafter hafter' =>
    rw [movedRules_id, rules, rules, items_padded hfront hline hback hbefore hbefore' hafter hafter']
  | returned front back => rw [movedRules_id, rules, rules, items_returned]
  | ended front => rw [movedRules_id, rules, rules, items_ended]
  | unended front => rw [movedRules_id, rules, rules, items_ended]

/-- So does any number of them. -/
theorem Relaid.result_rules {f : Nat → Nat} (h : Relaid marks text text' f) :
    (rules alphabet marks text').result = movedRules f (rules alphabet marks text).result := by
  induction h with
  | same => rw [movedRules_id]
  | edit _ hedit ih => rw [hedit.result_rules, ih, movedRules_comp]

end Dictionary

end Shorthand
