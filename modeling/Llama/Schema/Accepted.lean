import Llama.Schema.Bounds
import Llama.Grammar.Generation

/-!
# Integers with bounds, from the schema to the engine

The grammar that is written for an integer with two bounds is parsed to rules, and the engine that
is started on them accepts the integers between the bounds.
-/

namespace Llama.Schema

open Gbnf GrammarParser Grammar Cfg

variable {vocab : Option (List Char → Option ℕ)} {ρ : List Char → TextSet}
  {defs : List (List Char × TextSet)} {text T : List Char} {minValue maxValue : ℤ}

/-- `SPACE_RULE`. -/
def spaceRule : List Char := "| \" \" | \"\\n\"\x7b1,2\x7d [ \\t]\x7b0,20\x7d".toList

lemma exists_reads_spaceRule :
    ∃ L, Reads vocab ρ .alternates false (spaceRule ++ ['\n']) L ['\n'] :=
  have hnewline : Reads vocab ρ .sequence false (spaceRule.drop 8 ++ ['\n']) _ ['\n'] :=
    .cons (.literal rfl (.char (by decide) (by decide) rfl (.done rfl))) (.again rfl (.noRepeat rfl))
      (.cons (.range rfl (.one (by decide) (by decide) rfl rfl
        (.one (by decide) (by decide) rfl rfl (.done rfl)))) (.again rfl (.noRepeat rfl))
        (.empty rfl rfl))
  ⟨_, .more (.empty rfl rfl) rfl (.more (.cons (.literal rfl (.char (by decide) (by decide) rfl
    (.done rfl))) (.noRepeat rfl) (.empty rfl rfl)) rfl (.last hnewline (by decide)))⟩

/-- What follows the rule of the integer. -/
def spaceText : List Char := "\nspace ::= ".toList ++ spaceRule ++ ['\n']

/-- `json_schema_to_grammar` of an integer with two bounds. -/
def integerGrammar (minValue maxValue : ℤ) : Except BuildError (List Char) := do
  let text ← boundsText minValue maxValue
  return "root ::= ".toList ++ ('(' :: text ++ [')'] ++ spaceText)

/-- A rule is read in one way. -/
lemma ruleText_unique {src name name' pos pos' pos2 : List Char} {L L' : TextSet}
    (h : RuleText vocab ρ src name L pos) (hreads : Reads vocab ρ .alternates false T L' pos2)
    (hname : parseName src = .ok (name', " ::= ".toList ++ T)) (hT : skipSpace true T = T)
    (hend : lineEnd pos2 = some pos') : name = name' ∧ L = L' ∧ pos = pos' := by
  obtain ⟨pos1, pos2, hname', -, -, -, hreads', hend'⟩ := h.body
  obtain ⟨rfl, rfl⟩ := Prod.mk.inj (Except.ok.inj (hname'.symm.trans hname))
  obtain ⟨rfl, rfl⟩ := Reads.unique hreads' (hT.symm ▸ hreads)
  exact ⟨rfl, rfl, Option.some.inj (hend'.symm.trans hend)⟩

lemma rulesText_integer (hT : Starts T) {L : TextSet} (halts : AltsText vocab ρ true T L)
    (h : RulesText vocab ρ ("root ::= ".toList ++ ('(' :: T ++ [')'] ++ spaceText)) defs) :
    ∃ M, defs = [("root".toList, L), ("space".toList, M)] := by
  have hgroup : AltsText vocab ρ false ('(' :: T ++ [')']) L := (halts.group hT).seq.alts
  have hreads := hgroup spaceText ⟨rfl, rfl, rfl⟩ (by decide)
  obtain ⟨M, hspace⟩ := @exists_reads_spaceRule vocab ρ
  cases h with
  | done hpos => cases hpos
  | rule _ hrule h =>
    obtain ⟨rfl, rfl, rfl⟩ := ruleText_unique hrule hreads rfl rfl rfl
    cases h with
    | done hpos => cases hpos
    | rule _ hrule h =>
      obtain ⟨rfl, rfl, rfl⟩ := ruleText_unique hrule hspace rfl rfl rfl
      cases h with
      | done _ => exact ⟨_, rfl⟩
      | rule hpos _ _ => exact absurd rfl hpos

/-- **From the bounds of a schema to the integers that are allowed**: the engine that is started on
the grammar of an integer with two bounds follows the texts of the integers between them. -/
theorem integerGrammar_accepts {s : GrammarParser} {rules : GrammarRules} {n start : ℕ}
    {current : GrammarStacks} (hmin : -int64Max < minValue) (hmax : maxValue < int64Max)
    (hle : minValue ≤ maxValue) (htext : integerGrammar minValue maxValue = .ok text)
    (h : parse vocab text new = (.ok none, s)) (hlt : s.symbolIds.length < 2 ^ 32)
    (hroot : s.symbolIds.lookup "root".toList = some start)
    (hinit : initRules n s.rules start = .ok (some (rules, current)))
    (hleft : ¬ LeftRecursive rules) :
    ∃ G, rules = encode G ∧ (Productive G →
      ∃ L, Exact L minValue maxValue ∧ FollowsLanguage rules current L) := by
  obtain ⟨G, hG, defs, hdefs, hmeaning⟩ := parse_meaning h hlt
  obtain ⟨hrules, hfollows⟩ := followsLanguage_meaning hG hroot hinit hleft
  have hbound : int64Min < minValue := lt_trans (by decide) hmin
  obtain ⟨T, hT, hstarts, halts⟩ := @altsText_twoSided vocab (meaning G s) _ _ hbound hmax hle
  rw [integerGrammar, hT] at htext
  obtain rfl := Except.ok.inj htext
  obtain ⟨M, rfl⟩ := rulesText_integer hstarts (halts true) hdefs
  refine ⟨G, hrules, fun hprod => ⟨_, exact_of_signed hle ?_, ?_⟩⟩
  · omega
  · exact hmeaning "root".toList _ rfl ▸ hfollows hprod

/-- The grammar of the integers from -5 to 30. -/
def thirtyText : List Char := (integerGrammar (-5) 30).toOption.getD []

/-- What is parsed of it. -/
def thirtyParser : GrammarParser := (parse none thirtyText new).2

theorem integerGrammar_accepts_thirty :
    ∃ G, thirtyParser.rules.map copyRule = encode G ∧ (Productive G → ∃ L, Exact L (-5) 30 ∧
      FollowsLanguage (thirtyParser.rules.map copyRule)
        [[(3, 5)], [(3, 0)], [(1, 3)], [(1, 0)]] L) :=
  have hparse : parse none thirtyText new = (.ok none, thirtyParser) :=
    Prod.ext (by decide +kernel) (by rw [thirtyParser])
  integerGrammar_accepts (by decide) (by decide) (by decide) (by decide +kernel) hparse
    (by decide +kernel) (by decide +kernel : _ = some 0)
    (by decide +kernel : initRules 7 thirtyParser.rules 0 = _)
    (not_leftRecursive_of_lt (by decide +kernel))

end Llama.Schema
