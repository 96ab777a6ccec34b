import Shorthand.Replay

/-!
# What edits do

The edit of a goal is worked out for the text on screen without the word break it may start with. It
is used when the trigger has been pressed, with the word break still there. `Goal.fire_of_edit` says
what is on screen then: the word break, and behind it the target, where the part that was typed anew
has word breaks for spaces.

## Main statements

- `Goal.edit_eq_ok_iff`: when a goal has an edit, and which.
- `Goal.fire_of_edit`: the text on screen after the rule of a goal fired.
-/

namespace Shorthand

variable {wordbreak : Char} {s t : List Char}

namespace Edit

/-! ## Parts of an edit -/

/-- What an edit types stands on the screen as if it had been put there directly. -/
theorem onScreen_asTyped (wordbreak : Char) (text : List Char) :
    onScreen wordbreak (asTyped wordbreak text) = onScreen wordbreak text := by
  rw [onScreen, asTyped, List.map_map, onScreen]
  refine List.map_congr_left fun c _ => ?_
  by_cases hc : c = wordbreak <;> simp [hc]

theorem commonLength_le_left (s t : List Char) : commonLength s t ≤ s.length := by
  induction s, t using commonLength.induct with
  | case1 b s t ih =>
    rw [commonLength, if_pos rfl]
    exact Nat.succ_le_succ ih
  | case2 a s b t hne =>
    rw [commonLength, if_neg hne]
    exact Nat.zero_le _
  | case3 s t hnil => simp [commonLength]

theorem take_commonLength (s t : List Char) :
    s.take (commonLength s t) = t.take (commonLength s t) := by
  induction s, t using commonLength.induct with
  | case1 b s t ih => rw [commonLength, if_pos rfl, List.take_succ_cons, List.take_succ_cons, ih]
  | case2 a s b t hne => rw [commonLength, if_neg hne, List.take_zero, List.take_zero]
  | case3 s t hnil => simp [commonLength]

theorem length_le_commonLength {l : List Char} (hs : l <+: s) (ht : l <+: t) :
    l.length ≤ commonLength s t := by
  induction s, t using commonLength.induct generalizing l with
  | case1 b s t ih =>
    rw [commonLength, if_pos rfl]
    cases l with
    | nil => exact Nat.zero_le _
    | cons c l =>
      obtain ⟨-, hs⟩ := List.cons_prefix_cons.mp hs
      obtain ⟨-, ht⟩ := List.cons_prefix_cons.mp ht
      exact Nat.succ_le_succ (ih hs ht)
  | case2 a s b t hne =>
    cases l with
    | nil => exact Nat.zero_le _
    | cons c l =>
      -- the first characters would be one and the same
      obtain ⟨rfl, -⟩ := List.cons_prefix_cons.mp hs
      obtain ⟨rfl, -⟩ := List.cons_prefix_cons.mp ht
      exact absurd rfl hne
  | case3 s t hnil =>
    cases s with
    | nil => simp [List.prefix_nil.mp hs]
    | cons a s =>
      cases t with
      | nil => simp [List.prefix_nil.mp ht]
      | cons b t => exact absurd rfl (hnil a s b t rfl)

/-- Whether `kept` is the longest beginning that two texts have in common. -/
structure Agree (s t kept : List Char) : Prop where
  left : kept <+: s
  right : kept <+: t
  longest : ∀ l, l <+: s → l <+: t → l.length ≤ kept.length

theorem agree_take (s t : List Char) : Agree s t (s.take (commonLength s t)) where
  left := List.take_prefix _ _
  right := by
    rw [take_commonLength]
    exact List.take_prefix _ _
  longest l hs ht := by
    rw [List.length_take_of_le (commonLength_le_left s t)]
    exact length_le_commonLength hs ht

/-! ## Texts after an edit -/

/-- A text after an edit: it loses characters at its end, and the output follows. -/
def applyTo (edit : Edit) (text : List Char) : List Char :=
  text.take (text.length - edit.backspaces) ++ edit.output.toList

theorem asTyped_append (wordbreak : Char) (s t : List Char) :
    asTyped wordbreak (s ++ t) = asTyped wordbreak s ++ asTyped wordbreak t :=
  List.map_append

theorem asTyped_asTyped (wordbreak : Char) (text : List Char) :
    asTyped wordbreak (asTyped wordbreak text) = asTyped wordbreak text := by
  rw [asTyped, asTyped, List.map_map]
  refine List.map_congr_left fun c _ => ?_
  by_cases hc : c = wordbreak <;> simp [hc]

end Edit

/-- The word break that a screen starts with, if it does. -/
def leadingWordbreak (wordbreak : Char) (screen : List Char) : List Char :=
  if screen.head? = some wordbreak then [wordbreak] else []

theorem leadingWordbreak_append_strip (wordbreak : Char) (screen : List Char) :
    leadingWordbreak wordbreak screen ++ stripWordbreak wordbreak screen = screen := by
  cases screen with
  | nil => rfl
  | cons c screen =>
    rw [leadingWordbreak, stripWordbreak]
    by_cases hc : c = wordbreak <;> simp [hc]

/-! ## Edits of goals -/

namespace Goal

variable {goal : Goal} {screen : List Char} {edit : Edit}

/-- A goal has an edit unless it takes too many deletions or too much output. -/
theorem edit_eq_ok_iff :
    goal.edit wordbreak screen = .ok edit ↔
      screen.length - Edit.commonLength screen goal.target.toList ≤ Edit.maxBackspaces ∧
      (goal.target.toList.drop (Edit.commonLength screen goal.target.toList)).length ≤
        Edit.maxOutputLength ∧
      edit = ⟨screen.length - Edit.commonLength screen goal.target.toList, goal.outputFunc,
        String.ofList (Edit.asTyped wordbreak
          (goal.target.toList.drop (Edit.commonLength screen goal.target.toList)))⟩ := by
  simp only [Goal.edit]
  rw [← Nat.not_lt, ← Nat.not_lt]
  split
  next h => exact iff_of_false (by simp) fun hall => hall.1 h
  next h =>
    split
    next h' => exact iff_of_false (by simp) fun hall => hall.2.1 h'
    next h' =>
      simp only [h, h', not_false_eq_true, true_and]
      rw [Except.ok.injEq, eq_comm]

theorem limits_of_edit (h : goal.edit wordbreak screen = .ok edit) :
    edit.outputFunc = goal.outputFunc ∧ edit.backspaces ≤ Edit.maxBackspaces ∧
      edit.output.length ≤ Edit.maxOutputLength := by
  obtain ⟨hbackspaces, hlength, rfl⟩ := edit_eq_ok_iff.mp h
  refine ⟨rfl, hbackspaces, ?_⟩
  simpa [Edit.asTyped] using hlength

/-- The text on screen after the rule of a goal fired, where `before` was there before its trigger. A
word break at the start and what agrees with the target stay, and the rest of the target is typed. -/
def textAfter (goal : Goal) (wordbreak : Char) (before : List Char) : List Char :=
  let kept := Edit.commonLength (stripWordbreak wordbreak before) goal.target.toList
  leadingWordbreak wordbreak before ++
    (goal.target.toList.take kept ++ Edit.onScreen wordbreak (goal.target.toList.drop kept))

/-- What the edit of a goal does on the screen it was worked out for. -/
theorem fire_of_edit {before typed : List Char} {trigger : Char}
    (h : goal.edit wordbreak (stripWordbreak wordbreak before) = .ok edit) :
    Screen.fire ⟨trigger :: typed, trigger :: before.reverse⟩ wordbreak edit =
      ⟨trigger :: typed, (goal.textAfter wordbreak before).reverse⟩ := by
  obtain ⟨-, -, hedit⟩ := edit_eq_ok_iff.mp h
  clear h
  have hsplit := leadingWordbreak_append_strip wordbreak before
  have hle := Edit.commonLength_le_left (stripWordbreak wordbreak before) goal.target.toList
  have htake := Edit.take_commonLength (stripWordbreak wordbreak before) goal.target.toList
  unfold textAfter
  generalize leadingWordbreak wordbreak before = lead at hsplit
  generalize stripWordbreak wordbreak before = screen at hedit hsplit hle htake
  generalize Edit.commonLength screen goal.target.toList = kept at hedit hle htake
  subst hedit hsplit
  -- the trigger goes first, and then all characters behind those that agree
  have hdrop : (trigger :: (lead ++ screen).reverse).drop (screen.length - kept + 1) =
      (lead ++ screen.take kept).reverse := by
    have hlength : (lead ++ screen).length - (screen.length - kept) = lead.length + kept := by
      rw [List.length_append]
      omega
    rw [List.drop_succ_cons, List.drop_reverse, hlength, List.take_length_add_append]
  show Screen.mk _ (_ ++ (trigger :: (lead ++ screen).reverse).drop _) = _
  rw [hdrop, htake, String.toList_ofList, Edit.onScreen_asTyped, ← List.reverse_append,
    List.append_assoc]

end Goal

end Shorthand
