import Shorthand.Proofs.Dictionary.Layout
import Shorthand.Proofs.Settings

/-!
# Layout of dictionaries that are compiled

The numbers of lines are for messages only: the goals of rules do not have them, so rules on other lines
make the same matcher, the same table and the same figures. With what is known about the layout of a
dictionary, a text in another layout is compiled to the same artifact, but for the lines of its rules
(`Artifact.moved`), or it is refused for the same reason (`CompileError.moved`).

## Main statements

- `Matcher.ofRules_moved`: the matcher of rules on other lines.
- `Artifact.result_ofRules_moved`: the artifact of rules on other lines.
- `Settings.compile_relaid`: a text in another layout.
-/

namespace Shorthand

/-! ## Elements that are changed -/

section

open Std OppositeOrderInstances

variable {α β : Type} [LE β] [DecidableLE β] [IsLinearPreorder β] {key : α → β} {g : α → α}

/-- If a change leaves the keys as they are, it leaves the element that is found where it is. -/
theorem minOn?_map (hkey : ∀ a, key (g a) = key a) (l : List α) :
    (l.map g).minOn? key = (l.minOn? key).map g := by
  induction l with
  | nil => rfl
  | cons a l ih =>
    rw [List.map_cons, List.minOn?_cons, List.minOn?_cons, ih]
    cases l.minOn? key with
    | none => rfl
    | some b => simp only [Option.map_some, Option.elim_some, minOn_eq_if, hkey, apply_ite g]

theorem maxOn?_map (hkey : ∀ a, key (g a) = key a) (l : List α) :
    (l.map g).maxOn? key = (l.maxOn? key).map g :=
  @minOn?_map α β (LE.opposite inferInstance) _ _ key g hkey l

end

/-! ## Rules on other lines -/

theorem Matcher.goalsOf_moved (f : Nat → Nat) (alphabet : Alphabet) (rules : List Rule) :
    goalsOf alphabet (rules.map (Rule.moved f)) = goalsOf alphabet rules := by
  refine List.ext_getElem? fun i => ?_
  rw [getElem?_goalsOf, getElem?_goalsOf, List.getElem?_map, Option.map_map]
  rfl

/-- A matcher does not know on which lines its rules stand. -/
theorem Matcher.ofRules_moved (f : Nat → Nat) (alphabet : Alphabet) (rules : List Rule) :
    ofRules alphabet (rules.map (Rule.moved f)) = ofRules alphabet rules := by
  have hsteps (rules : List Rule) : ofRules alphabet rules =
      (goalsOf alphabet rules).foldlM (addGoal alphabet) ∅ >>= fun trie =>
        .ok ⟨alphabet, goalsOf alphabet rules, trie⟩ := rfl
  rw [hsteps, hsteps, goalsOf_moved]

/-! ## Artifacts -/

/-- An artifact whose rules stand on other lines. -/
def Artifact.moved (f : Nat → Nat) (artifact : Artifact) : Artifact :=
  { artifact with rules := artifact.rules.map (Rule.moved f) }

namespace Artifact

variable {m : Matcher} {rules : List Rule}

theorem result_ofMatcher_moved (f : Nat → Nat) (m : Matcher) (rules : List Rule) (shortest longest : Rule) :
    (ofMatcher m (rules.map (Rule.moved f)) (shortest.moved f) (longest.moved f)).result =
      moved f <$> (ofMatcher m rules shortest longest).result := by
  simp only [ofMatcher, LoggedExcept.result_bind, LoggedExcept.result_report, LoggedExcept.result_pure,
    map_bind]
  rfl

/-- On other lines the same rules make the same artifact, or are refused for the same reason. -/
theorem result_ofRules_moved (f : Nat → Nat) (alphabet : Alphabet) (rules : List Rule) :
    (ofRules alphabet (rules.map (Rule.moved f))).result = moved f <$> (ofRules alphabet rules).result := by
  have hlength (r : Rule) : (r.moved f).contextLength = r.contextLength := rfl
  unfold ofRules
  rw [minOn?_map hlength, maxOn?_map hlength, Matcher.ofRules_moved]
  cases rules.minOn? (·.contextLength) with
  | none => rfl
  | some shortest =>
    cases rules.maxOn? (·.contextLength) with
    | none => rfl
    | some longest =>
      simp only [Option.map_some, LoggedExcept.result_bind, result_ofMatcher_moved, map_bind]

/-- What stands on a line is never found wrong in rules. -/
theorem result_ofRules_ne_dictionary (alphabet : Alphabet) (rules : List Rule) (e : DictionaryError) :
    (ofRules alphabet rules).result ≠ .error (.dictionary e) := by
  intro h
  rcases error_of_ofRules h with heq | ⟨_, -, heq⟩ | ⟨_, heq⟩ | ⟨_, heq⟩ | ⟨_, heq⟩ <;> cases heq

end Artifact

/-! ## Texts -/

/-- A compile error about another line. -/
def CompileError.moved (f : Nat → Nat) : CompileError → CompileError
  | .dictionary e => .dictionary (e.moved f)
  | e => e

theorem CompileError.moved_eq_self {f : Nat → Nat} {e : CompileError} (h : ∀ e', e ≠ .dictionary e') :
    e.moved f = e := by
  unfold moved
  split
  next e' => exact absurd rfl (h e')
  next => rfl

namespace Settings

variable {s : Settings} {alphabet : Alphabet} {text text' : String} {f : Nat → Nat}

theorem compile_of_alphabet_error {e : AlphabetError} (h : s.alphabet = .error e) (text : String) :
    (s.compile text).result = .error (.alphabet e) := by
  rw [compile, LoggedExcept.result_bind, LoggedExcept.result_mapError, LoggedExcept.result_ofExcept, h]
  rfl

/-- The lines of a text that is compiled are only numbered. -/
theorem compile_of_rules_moved (halphabet : s.alphabet = .ok alphabet)
    (hrules : (Dictionary.rules alphabet s.marks text').result =
      Dictionary.movedRules f (Dictionary.rules alphabet s.marks text).result) :
    (∀ artifact, (s.compile text).result = .ok artifact →
      (s.compile text').result = .ok (artifact.moved f)) ∧
    ∀ e, (s.compile text).result = .error e → (s.compile text').result = .error (e.moved f) := by
  rw [result_compile halphabet, result_compile halphabet, hrules]
  cases (Dictionary.rules alphabet s.marks text).result with
  | error e =>
    refine ⟨nofun, fun e' h => ?_⟩
    cases h
    rfl
  | ok rules =>
    have hresult : (Artifact.ofRules alphabet (rules.map (Rule.moved f))).result =
      Artifact.moved f <$> (Artifact.ofRules alphabet rules).result := Artifact.result_ofRules_moved ..
    have hdictionary := Artifact.result_ofRules_ne_dictionary alphabet rules
    constructor
    · intro artifact h
      exact hresult.trans (congrArg (Artifact.moved f <$> ·) h)
    · intro e h
      have hsame : e.moved f = e := CompileError.moved_eq_self fun e' heq => hdictionary e' (heq ▸ h)
      rw [hsame]
      exact hresult.trans (congrArg (Artifact.moved f <$> ·) h)

/-- A text in another layout is compiled if this one is, to an artifact with the same table, the same pool,
the same figures and the same rules, on other lines. If it is refused, then for the same reason, on another
line. -/
theorem compile_relaid (h : Dictionary.Relaid s.marks text text' f) :
    ((∃ artifact, (s.compile text').result = .ok artifact) ↔
      ∃ artifact, (s.compile text).result = .ok artifact) ∧
    (∀ artifact, (s.compile text).result = .ok artifact →
      (s.compile text').result = .ok (artifact.moved f)) ∧
    ∀ e, (s.compile text).result = .error e → (s.compile text').result = .error (e.moved f) := by
  obtain ⟨hok, herror⟩ : (∀ artifact, (s.compile text).result = .ok artifact →
        (s.compile text').result = .ok (artifact.moved f)) ∧
      ∀ e, (s.compile text).result = .error e → (s.compile text').result = .error (e.moved f) := by
    match halphabet : s.alphabet with
    | .ok alphabet => exact compile_of_rules_moved halphabet h.result_rules
    | .error e =>
      rw [compile_of_alphabet_error halphabet, compile_of_alphabet_error halphabet]
      refine ⟨nofun, fun e' h => ?_⟩
      cases h
      rfl
  refine ⟨⟨?_, fun ⟨artifact, h⟩ => ⟨_, hok artifact h⟩⟩, hok, herror⟩
  rintro ⟨artifact', h'⟩
  match hresult : (s.compile text).result with
  | .ok artifact => exact ⟨artifact, rfl⟩
  | .error e =>
    rw [herror e hresult] at h'
    cases h'

/-- The rules go down by a comment, and the second one by a repeated context as well. -/
theorem compile_relaid_two_rules :
    ∃ (s : Settings) (text text' : String) (f : Nat → Nat) (artifact : Artifact),
      s = ⟨"★", "☆", " ", "#", "->", "r"⟩ ∧ text = "abc -> yz\nab -> x" ∧
      text' = "# rules\n\tabc -> yz\r\nabc -> y\nab -> x" ∧ Dictionary.Relaid s.marks text text' f ∧
      f 1 = 2 ∧ f 2 = 4 ∧ (s.compile text).result = .ok artifact ∧
      (s.compile text').result = .ok (artifact.moved f) := by
  obtain ⟨s, artifact, hs, hartifact⟩ := exists_compile_two_rules
  have hreturned : Dictionary.LayoutEdit s.marks "abc -> yz\nab -> x" "abc -> yz\r\nab -> x" id :=
    .returned "abc -> yz" "ab -> x"
  have hrepeated : Dictionary.LayoutEdit s.marks "abc -> yz\r\nab -> x"
      "abc -> yz\r\nabc -> y\nab -> x" (Dictionary.below "abc -> yz\r\n") := by
    rw [hs]
    exact @Dictionary.LayoutEdit.repeated _ "abc -> yz\r\n" "abc -> y" "ab -> x" ⟨1, "abc", "yz"⟩
      ⟨1, "abc", "y"⟩ (by decide) (by decide) (List.mem_cons_self ..) rfl rfl
  have hskipped : Dictionary.LayoutEdit s.marks "abc -> yz\r\nabc -> y\nab -> x"
      "# rules\nabc -> yz\r\nabc -> y\nab -> x" (Dictionary.below "") := by
    rw [hs]
    exact @Dictionary.LayoutEdit.skipped _ "" "# rules" "abc -> yz\r\nabc -> y\nab -> x" (by decide)
      (by decide) rfl
  have hpadded : Dictionary.LayoutEdit s.marks "# rules\nabc -> yz\r\nabc -> y\nab -> x"
      "# rules\n\tabc -> yz\r\nabc -> y\nab -> x" id :=
    @Dictionary.LayoutEdit.padded _ "# rules\n" "" "\t" "abc -> yz" "\r" "\r" "\nabc -> y\nab -> x"
      (by decide) (by decide) (by decide) (by decide) (by decide) (by decide) (by decide)
  have hrelaid : Dictionary.Relaid s.marks "abc -> yz\nab -> x"
      "# rules\n\tabc -> yz\r\nabc -> y\nab -> x"
      (id ∘ Dictionary.below "" ∘ Dictionary.below "abc -> yz\r\n" ∘ id ∘ id) :=
    (((Dictionary.Relaid.same.edit hreturned).edit hrepeated).edit hskipped).edit hpadded
  exact ⟨s, _, _, _, artifact, hs, rfl, rfl, hrelaid, rfl, rfl, hartifact,
    (compile_relaid hrelaid).2.1 artifact hartifact⟩

end Settings

end Shorthand
