import LSystem.Proofs.GrammarDocuments
import LSystem.Proofs.Json.Writing

/-!
# Grammars written and read

A grammar is written as a document of itself: its words are strings, and its rules come in the
order in which the table keeps them, one for each symbol. Reading the text gives the grammar back.
-/
namespace LSystem

open Json

namespace Rules

/-- Where no symbol has two rules the last rule for it is the first. -/
theorem lookup_reverse_of_pairwise {l : List (Symbol × Word)}
    (h : l.Pairwise fun a b => a.1 < b.1) (c : Symbol) : l.reverse.lookup c = l.lookup c := by
  induction l with
  | nil => rfl
  | cons e l ih =>
    obtain ⟨he,hl⟩ := List.pairwise_cons.1 h
    rw [List.reverse_cons,List.lookup_append,ih hl]
    simp only [lookup_cons_eq_ite,List.lookup_nil]
    by_cases hc : c = e.1
    · rw [hc,lookup_eq_none_of_forall_lt he,if_pos rfl,Option.none_or]
    · rw [if_neg hc,if_neg hc,Option.or_none]

/-- The table as an object. -/
def value (r : Rules) : Value := .ofMembers (r.entries.map fun e => ([e.1],.ofText e.2))

theorem tokens_value (r : Rules) : r.value.tokens = r.tokens := by
  simp only [value,tokens,Value.tokens_ofMembers,List.map_map,Function.comp_def,
    Value.tokens_ofText]

theorem value_isRules (r : Rules) : r.value.IsRules r := by
  refine ⟨_,r.entries,Value.isObject_ofMembers _,?_,?_⟩
  · rw [RuleMembers,List.forall₂_map_left_iff,List.forall₂_same]
    exact fun e _ => ⟨rfl,Value.isString_ofText e.2⟩
  · exact fun c => (lookup_reverse_of_pairwise r.sorted c).symm

theorem written_value (r : Rules) : Written r.value.tokens := by
  apply Value.written_ofMembers
  rw [List.forall_mem_map]
  exact fun e _ => Value.written_of_text e.2

end Rules

namespace Grammar

/-- The grammar as an object. -/
def value (g : Grammar) : Value :=
  .ofMembers [("start".toList,.ofText g.start),("rules".toList,g.rules.value)]

theorem tokens_value (g : Grammar) : g.value.tokens = g.tokens := by
  simp only [value,tokens,Value.tokens_ofMembers,List.map_cons,List.map_nil,Value.tokens_ofText,
    Rules.tokens_value]

theorem value_isGrammar (g : Grammar) : g.value.IsGrammar g := by
  refine ⟨.ofText g.start,[g.rules.value],Value.isString_ofText g.start,?_,.inl ?_⟩
  · exact .inr ⟨_,rfl,g.rules.value_isRules⟩
  · exact ⟨_,Value.isObject_ofMembers _,rfl,rfl⟩

theorem written_value (g : Grammar) : Written g.value.tokens := by
  apply Value.written_ofMembers
  simp only [List.forall_mem_cons,List.not_mem_nil,false_imp_iff,implies_true,and_true]
  exact ⟨Value.written_of_text g.start,g.rules.written_value⟩

/-- The text of a grammar is a document of it. -/
theorem document_tokens (g : Grammar) : Document (spellAll g.tokens) g := by
  refine ⟨g.value,g.value_isGrammar,?_⟩
  have hs := g.written_value.spells
  rwa [g.tokens_value] at hs ⊢

/-- A grammar is read back from its own text, and refused as invalid there just when its start word
is empty. -/
theorem reads_own_text (g : Grammar) :
    reader.ofText (spellAll g.tokens) = .ok g ∧
      ofText (spellAll g.tokens) = if g.start = [] then .error .emptyStart else .ok g := by
  have hread : reader.ofText (spellAll g.tokens) = .ok g :=
    reader_exact.ofText_eq_ok_iff.2 g.document_tokens
  refine ⟨hread,?_⟩
  unfold ofText validate
  rw [hread]
  by_cases h : g.start = []
  · simp [h,Except.map]
  · simp [h,Except.map]

end Grammar

end LSystem
