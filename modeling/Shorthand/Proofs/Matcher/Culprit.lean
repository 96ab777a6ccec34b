import Shorthand.Proofs.Matcher
import Mathlib.Data.List.Induction

/-!
# Rules that are refused

The trie of a matcher finds out whether a context is repeated by following its codes to a node that is
taken. Here the same is said of the rules as they are written: a rule is refused after others
(`Matcher.Refused`) if its context has a character without a code or is the context of one of them, and
`Matcher.Blames` says which error that is. The first refused rule of a list gives the error, and if there
is none, every rule has its goal (`Goal.Serves`).

## Main statements

- `Matcher.exists_ofRules_iff_not_refused`: rules have a matcher if none is refused after those before it.
- `Matcher.ofRules_blames_first`: what is said about lists of rules with a matcher and without.
-/

namespace Shorthand

/-- Whether a context has a character without a code. -/
def Alphabet.Misses (alphabet : Alphabet) (context : String) : Prop :=
  ∃ c ∈ context.toList, alphabet.code? c = none

theorem Alphabet.not_misses_iff {alphabet : Alphabet} {context : String} :
    ¬ alphabet.Misses context ↔ ∀ c ∈ context.toList, alphabet.contains c := by
  simp [Misses, contains, Option.isSome_iff_ne_none]

/-- What a rule wants of a goal: its context, and its correction without the output function at the end
of it, if there is one. -/
inductive Goal.Serves (alphabet : Alphabet) (index : Nat) (r : Rule) : Goal → Prop where
  | func {text : List Char} {c : Char} {func : Nat} : r.correction.toList = text ++ [c] →
      alphabet.outputFunc? c = some func →
        Serves alphabet index r ⟨index, r.context, String.ofList text, func⟩
  | plain : (∀ text c, r.correction.toList = text ++ [c] → alphabet.outputFunc? c = none) →
      Serves alphabet index r ⟨index, r.context, r.correction, 0⟩

theorem Goal.serves_ofRule (alphabet : Alphabet) (index : Nat) (r : Rule) :
    Serves alphabet index r (ofRule alphabet index r) := by
  unfold ofRule
  split
  next func hfunc =>
    obtain ⟨c, hlast, hc⟩ := Option.bind_eq_some_iff.mp hfunc
    exact .func (List.dropLast_append_getLast? c hlast).symm hc
  next hnone =>
    refine .plain fun text c htext => ?_
    rw [htext, List.getLast?_concat] at hnone
    exact hnone

namespace Matcher

variable {alphabet : Alphabet} {rules before after : List Rule} {r : Rule} {e : MatcherError}

/-- Whether a rule cannot be taken in after others. -/
def Refused (alphabet : Alphabet) (before : List Rule) (r : Rule) : Prop :=
  alphabet.Misses r.context ∨ r.context ∈ before.map (·.context)

/-- The error for a rule that is refused: the last of the characters that have no code is unknown, and if
there is none, the context is a duplicate. -/
inductive Blames (alphabet : Alphabet) (r : Rule) : MatcherError → Prop where
  | unknownCharacter {front back : List Char} {c : Char} : r.context.toList = front ++ c :: back →
      alphabet.code? c = none → (∀ d ∈ back, alphabet.code? d ≠ none) →
        Blames alphabet r (.unknownCharacter r.context c)
  | duplicateContext : ¬ alphabet.Misses r.context → Blames alphabet r (.duplicateContext r.context)

/-- Rules have a matcher if none of them is refused after those before it. -/
theorem exists_ofRules_iff_not_refused :
    (∃ m, ofRules alphabet rules = .ok m) ↔
      ∀ before r after, rules = before ++ r :: after → ¬ Refused alphabet before r := by
  rw [exists_ofRules_iff]
  constructor
  · rintro ⟨hall, hnodup⟩ before r after rfl
    rintro (hmisses | hrepeated)
    · exact Alphabet.not_misses_iff.mpr (hall r (by simp)) hmisses
    · rw [List.map_append, List.map_cons, List.nodup_middle, List.nodup_cons] at hnodup
      exact hnodup.1 (List.mem_append_left _ hrepeated)
  · intro hnot
    -- a rule at the end is refused for what stands before it, so the induction goes by the end
    induction rules using List.reverseRecOn with
    | nil => exact ⟨List.forall_mem_nil _, .nil⟩
    | append_singleton rules r ih =>
      have hr := hnot rules r [] rfl
      unfold Refused at hr
      rw [not_or, Alphabet.not_misses_iff] at hr
      obtain ⟨hall, hnodup⟩ := ih fun before r' after heq =>
        hnot before r' (after ++ [r]) (by rw [heq, List.append_assoc, List.cons_append])
      constructor
      · rw [List.forall_mem_append, List.forall_mem_singleton]
        exact ⟨hall, hr.1⟩
      · rw [List.map_append, List.map_singleton, List.nodup_middle, List.append_nil, List.nodup_cons]
        exact ⟨hr.2, hnodup⟩

/-- The error is that of a rule which is refused after rules that are not. -/
theorem refused_and_blames_iff :
    ((∃ c, alphabet.path r.context.toList = .error c ∧ e = .unknownCharacter r.context c) ∨
      ((∀ c ∈ r.context.toList, alphabet.contains c) ∧
        r.context ∈ before.map (·.context) ∧ e = .duplicateContext r.context)) ↔
      Refused alphabet before r ∧ Blames alphabet r e := by
  have hcontains (c : Char) : ¬ alphabet.contains c ↔ alphabet.code? c = none := by
    simp [Alphabet.contains]
  constructor
  · rintro (⟨c, hpath, rfl⟩ | ⟨hall, hrepeated, rfl⟩)
    · obtain ⟨front, back, hcontext, hc, hback⟩ := Alphabet.path_eq_error_iff.mp hpath
      rw [hcontains] at hc
      refine ⟨.inl ⟨c, by simp [hcontext], hc⟩, .unknownCharacter hcontext hc fun d hd hnone => ?_⟩
      exact (hcontains d).mpr hnone (hback d hd)
    · exact ⟨.inr hrepeated, .duplicateContext (Alphabet.not_misses_iff.mpr hall)⟩
  · rintro ⟨hrefused, hblames⟩
    cases hblames with
    | unknownCharacter hcontext hc hback =>
      refine .inl ⟨_, Alphabet.path_eq_error_iff.mpr ⟨_, _, hcontext, (hcontains _).mpr hc, ?_⟩, rfl⟩
      intro d hd
      by_contra hmissing
      exact hback d hd ((hcontains d).mp hmissing)
    | duplicateContext hnot =>
      exact .inr ⟨Alphabet.not_misses_iff.mp hnot, hrefused.resolve_left hnot, rfl⟩

/-- Rules have no matcher just if a context has a character without a code or two contexts are equal.
The error is that of the first rule which is refused after those before it. A matcher has a goal for each
rule, in their order. -/
theorem ofRules_blames_first (alphabet : Alphabet) (rules : List Rule) :
    ((∃ e, ofRules alphabet rules = .error e) ↔
      (∃ r ∈ rules, alphabet.Misses r.context) ∨ ¬ (rules.map (·.context)).Nodup) ∧
    (∀ e, ofRules alphabet rules = .error e ↔
      ∃ before r after, rules = before ++ r :: after ∧
        (∀ front r' back, before = front ++ r' :: back → ¬ Refused alphabet front r') ∧
          Refused alphabet before r ∧ Blames alphabet r e) ∧
    ∀ m, ofRules alphabet rules = .ok m →
      m.goals.length = rules.length ∧
        ∀ i r, rules[i]? = some r → ∃ goal, m.goals[i]? = some goal ∧ Goal.Serves alphabet i r goal := by
  refine ⟨?_, fun e => ?_, fun m h => ?_⟩
  · have hfails : (∃ e, ofRules alphabet rules = .error e) ↔ ¬ ∃ m, ofRules alphabet rules = .ok m := by
      cases ofRules alphabet rules <;> simp
    rw [hfails, exists_ofRules_iff, not_and_or]
    refine or_congr_left ?_
    simp only [← Alphabet.not_misses_iff, not_forall, not_not, exists_prop]
  · rw [ofRules_eq_error_iff]
    simp only [refused_and_blames_iff, ← exists_ofRules_iff_not_refused]
    constructor
    · rintro ⟨before, r, after, m, heq, hbefore, hculprit⟩
      exact ⟨before, r, after, heq, ⟨m, hbefore⟩, hculprit⟩
    · rintro ⟨before, r, after, heq, ⟨m, hbefore⟩, hculprit⟩
      exact ⟨before, r, after, m, heq, hbefore, hculprit⟩
  · have hgoals := goals_of_ofRules h
    refine ⟨by rw [hgoals, length_goalsOf], fun i r hr => ?_⟩
    refine ⟨Goal.ofRule alphabet i r, ?_, Goal.serves_ofRule alphabet i r⟩
    rw [hgoals, getElem?_goalsOf, hr]
    rfl

/-- Of two characters without codes in the second of these rules the later one is named, and the third
rule is not to blame for what the first one has. -/
theorem ofRules_blames_first_accented :
    ∃ alphabet rules before r after, alphabet = ⟨['★'], ['☆'], ' ', by decide, by decide⟩ ∧
      rules = [⟨1, "ab", "x"⟩, ⟨2, "aéßc", "y"⟩, ⟨3, "ab", "z☆"⟩] ∧
      ofRules alphabet rules = .error (.unknownCharacter "aéßc" 'ß') ∧ rules = before ++ r :: after ∧
      Refused alphabet before r ∧ Blames alphabet r (.unknownCharacter "aéßc" 'ß') := by
  obtain ⟨alphabet, rules, halphabet, hrules, herror⟩ : ∃ (alphabet : Alphabet) (rules : List Rule),
      alphabet = ⟨['★'], ['☆'], ' ', by decide, by decide⟩ ∧
      rules = [⟨1, "ab", "x"⟩, ⟨2, "aéßc", "y"⟩, ⟨3, "ab", "z☆"⟩] ∧
      ofRules alphabet rules = .error (.unknownCharacter "aéßc" 'ß') := ⟨_, _, rfl, rfl, rfl⟩
  obtain ⟨before, r, after, heq, -, hrefused, hblames⟩ :=
    ((ofRules_blames_first alphabet rules).2.1 _).mp herror
  exact ⟨alphabet, rules, before, r, after, halphabet, hrules, herror, heq, hrefused, hblames⟩

end Matcher

end Shorthand
