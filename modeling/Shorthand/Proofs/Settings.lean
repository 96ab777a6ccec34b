import Shorthand.Proofs.Artifact
import Shorthand.Proofs.Dictionary
import Shorthand.Settings.Basic

/-!
# Dictionaries compiled under settings

A context is checked twice on its way into a table: as the context of a rule, character by character up
to its trigger, and as a path of the trie, code by code. The rule check compares contexts as texts, the
trie compares their paths. `Settings.compile_refuses_triggers_only` says what is left for the second
check to find.
-/

namespace Shorthand.Settings

variable {s : Settings} {alphabet : Alphabet} {text : String}

/-- With an alphabet, a text is compiled by way of its rules. -/
theorem result_compile (halphabet : s.alphabet = .ok alphabet) (text : String) :
    (s.compile text).result =
      (Dictionary.rules alphabet s.marks text).result.mapError .dictionary >>= fun rules =>
        (Artifact.ofRules alphabet rules).result := by
  have hmap : s.alphabet.mapError CompileError.alphabet = .ok alphabet :=
    mapError_eq_ok_iff.mpr halphabet
  rw [compile, LoggedExcept.result_bind, LoggedExcept.result_mapError,
    LoggedExcept.result_ofExcept, hmap, ok_bind, Artifact.ofText, LoggedExcept.result_bind,
    LoggedExcept.result_mapError]

theorem result_compile_of_rules {rules : List Rule} (halphabet : s.alphabet = .ok alphabet)
    (hrules : (Dictionary.rules alphabet s.marks text).result = .ok rules) :
    (s.compile text).result = (Artifact.ofRules alphabet rules).result := by
  rw [result_compile halphabet, hrules]
  rfl

theorem exists_compile_two_rules :
    ∃ (s : Settings) (artifact : Artifact), s = ⟨"★", "☆", " ", "#", "->", "r"⟩ ∧
      (s.compile "abc -> yz\nab -> x").result = .ok artifact := by
  obtain ⟨alphabet, artifact, halphabet, hartifact, -⟩ := Artifact.exists_artifact_two_rules
  obtain ⟨s, hs, hsettings, hitems, hcheck⟩ : ∃ s : Settings,
      s = ⟨"★", "☆", " ", "#", "->", "r"⟩ ∧ s.alphabet = .ok alphabet ∧
      Dictionary.items s.marks "abc -> yz\nab -> x" =
        [⟨1, "abc", "yz"⟩, ⟨2, "ab", "x"⟩].map .ok ∧
      Dictionary.check alphabet ⟨1, "abc", "yz"⟩ = .ok () ∧
      Dictionary.check alphabet ⟨2, "ab", "x"⟩ = .ok () := by
    rw [halphabet]
    exact ⟨_, rfl, rfl, rfl, rfl, rfl⟩
  have hrules := Dictionary.result_rules_of_items hitems (by simp) (by simpa using hcheck)
  exact ⟨s, artifact, hs, (result_compile_of_rules hsettings hrules).trans hartifact⟩

/-- If the trie is refused, then it is so for a character of an accepted rule: these have their contexts
to themselves. -/
theorem culprit_of_matcher (halphabet : s.alphabet = .ok alphabet) {e : MatcherError}
    (h : (s.compile text).result = .error (.matcher e)) :
    ∃ rules r c, (Dictionary.rules alphabet s.marks text).result = .ok rules ∧ r ∈ rules ∧
      alphabet.path r.context.toList = .error c ∧ e = .unknownCharacter r.context c := by
  rw [result_compile halphabet] at h
  rcases bind_eq_error_iff.mp h with h | ⟨rules, hrules, h⟩
  · obtain ⟨e', -, heq⟩ := mapError_eq_error_iff.mp h
    cases heq
  rw [mapError_eq_ok_iff] at hrules
  obtain ⟨before, r, after, m, rfl, -, hculprit⟩ :=
    Matcher.ofRules_eq_error_iff.mp (Artifact.ofRules_eq_matcher_iff.mp h)
  rcases hculprit with ⟨c, hpath, he⟩ | ⟨-, hrepeated, -⟩
  · exact ⟨_, r, c, hrules, List.mem_append_right _ (List.mem_cons_self ..), hpath, he⟩
  · have hnodup := Dictionary.nodup_context_of_rules hrules
    rw [List.map_append, List.map_cons] at hnodup
    exact absurd rfl ((List.nodup_append.mp hnodup).2.2 _ hrepeated _ (List.mem_cons_self ..))

/-- The trie never finds a context repeated, and the only characters it misses are triggers. -/
theorem compile_refuses_triggers_only (halphabet : s.alphabet = .ok alphabet) (text : String) :
    (∀ context, (s.compile text).result ≠ .error (.matcher (.duplicateContext context))) ∧
      ∀ context c, (s.compile text).result = .error (.matcher (.unknownCharacter context c)) →
        ∃ rules r keys, (Dictionary.rules alphabet s.marks text).result = .ok rules ∧ r ∈ rules ∧
          r.context = context ∧ context.toList = keys ++ [c] ∧ ¬ alphabet.contains c ∧
            ∀ d ∈ keys, alphabet.contains d := by
  refine ⟨fun context h => ?_, fun context c h => ?_⟩
  · obtain ⟨_, _, _, -, -, -, he⟩ := culprit_of_matcher halphabet h
    cases he
  · obtain ⟨rules, r, _, hrules, hr, hpath, he⟩ := culprit_of_matcher halphabet h
    cases he
    obtain ⟨keys, later, hcontext, hc, -⟩ := Alphabet.path_eq_error_iff.mp hpath
    obtain ⟨hkeys, -⟩ := Dictionary.check_eq_ok_iff.mp (Dictionary.check_of_rules hrules hr)
    rw [hcontext, List.dropLast_append_cons] at hkeys
    cases later with
    | nil => exact ⟨rules, r, keys, hrules, hr, rfl, hcontext, hc, by simpa using hkeys⟩
    | cons d later =>
      -- a character with others after it has passed the rule check
      rw [List.dropLast_cons_cons] at hkeys
      exact absurd (hkeys c (List.mem_append_right _ (List.mem_cons_self ..))) hc

theorem compile_refuses_triggers_only_accented :
    ∃ (s : Settings) (alphabet : Alphabet), s = ⟨"", "", " ", "#", "->", "rules.txt"⟩ ∧
      s.alphabet = .ok alphabet ∧
      (s.compile "aé -> x").result = .error (.matcher (.unknownCharacter "aé" 'é')) ∧
      ∃ rules r keys, (Dictionary.rules alphabet s.marks "aé -> x").result = .ok rules ∧
        r ∈ rules ∧ r.context = "aé" ∧ "aé".toList = keys ++ ['é'] ∧ ¬ alphabet.contains 'é' ∧
          ∀ d ∈ keys, alphabet.contains d := by
  obtain ⟨s, alphabet, hs, halphabet, hitems, hcheck, hmatcher⟩ :
      ∃ (s : Settings) (alphabet : Alphabet), s = ⟨"", "", " ", "#", "->", "rules.txt"⟩ ∧
        s.alphabet = .ok alphabet ∧
        Dictionary.items s.marks "aé -> x" = [⟨1, "aé", "x"⟩].map .ok ∧
        Dictionary.check alphabet ⟨1, "aé", "x"⟩ = .ok () ∧
        Matcher.ofRules alphabet [⟨1, "aé", "x"⟩] = .error (.unknownCharacter "aé" 'é') :=
    ⟨_, _, rfl, rfl, rfl, rfl, rfl⟩
  have hrules := Dictionary.result_rules_of_items hitems (by simp) (by simpa using hcheck)
  have hcompile := (result_compile_of_rules halphabet hrules).trans
    (Artifact.ofRules_eq_matcher_iff.mpr hmatcher)
  exact ⟨s, alphabet, hs, halphabet, hcompile,
    (compile_refuses_triggers_only halphabet "aé -> x").2 _ _ hcompile⟩

end Shorthand.Settings
