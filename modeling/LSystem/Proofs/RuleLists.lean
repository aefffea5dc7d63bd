import LSystem.Proofs.Acceleration
import LSystem.Proofs.DocumentForms
import LSystem.Proofs.GrammarTexts

/-!
# Lists of rules

Rules can be added to a grammar one after another, or be listed in an object. Both ways lead to the
same grammar, and of several rules for one symbol only the last is left. So a grammar with rules from
a list is determined by the last rule for each symbol, and it shows and writes just these, by
increasing code point.
-/
namespace LSystem

open Json

/-- The list has a rule for the symbol with this replacement, and none for it afterwards. -/
def LastRule (pairs : List (Symbol × Word)) (c : Symbol) (w : Word) : Prop :=
  ∃ before after, pairs = before ++ (c,w) :: after ∧ ∀ e ∈ after, e.1 ≠ c

theorem lookup_reverse_eq_some_iff {pairs : List (Symbol × Word)} {c : Symbol} {w : Word} :
    pairs.reverse.lookup c = some w ↔ LastRule pairs c w := by
  rw [List.lookup_eq_some_iff]
  constructor
  · intro hx
    rcases hx with ⟨after,before,hp,ha⟩
    refine ⟨before.reverse,after.reverse,?_,fun e he heq => ?_⟩
    · rw [← pairs.reverse_reverse,hp]
      simp
    · simpa [heq] using ha e (List.mem_reverse.1 he)
  · intro hx
    rcases hx with ⟨before,after,rfl,ha⟩
    refine ⟨after.reverse,before.reverse,by simp,fun e he => ?_⟩
    simpa using (ha e (List.mem_reverse.1 he)).symm

namespace Rules

theorem find?_ofList_eq_some_iff {pairs : List (Symbol × Word)} {c : Symbol} {w : Word} :
    (ofList pairs).find? c = some w ↔ LastRule pairs c w := by
  rw [find?_ofList,lookup_reverse_eq_some_iff]

theorem mem_entries_iff {r : Rules} {c : Symbol} {w : Word} :
    (c,w) ∈ r.entries ↔ r.find? c = some w := by
  obtain ⟨l,hl⟩ := r
  change (c,w) ∈ l ↔ l.lookup c = some w
  induction l with
  | nil => simp
  | cons e l ih =>
    obtain ⟨he,hl⟩ := List.pairwise_cons.1 hl
    rw [List.mem_cons,lookup_cons_eq_ite,ih hl]
    by_cases hc : c = e.1
    · rw [if_pos hc,hc,lookup_eq_none_of_forall_lt he,Option.some.injEq]
      constructor
      · rintro (heq | hn)
        · exact congrArg Prod.snd heq.symm
        · exact absurd hn (by simp)
      · exact fun hw => .inl (Prod.ext rfl hw.symm)
    · rw [if_neg hc]
      exact or_iff_right fun heq => hc (congrArg Prod.fst heq)

/-- A table is determined by the last rules of a list that leaves it. -/
theorem ofList_eq_of_lastRule {pairs others : List (Symbol × Word)}
    (h : ∀ c w, LastRule others c w ↔ LastRule pairs c w) : ofList others = ofList pairs :=
  ext_find? fun c => Option.ext fun w => by
    rw [find?_ofList_eq_some_iff,find?_ofList_eq_some_iff,h]

end Rules

/-- An object that lists the rules in their order, with all symbols in any spelling. -/
def RulesText (pairs : List (Symbol × Word)) (text : List Char) : Prop :=
  ∃ members, ObjectText members text ∧
    List.Forall₂ (fun m e => m.name = [e.1] ∧ StringText e.2 m.value) members pairs

theorem Rules.reader_ofText {pairs : List (Symbol × Word)} {text : List Char}
    (h : RulesText pairs text) : reader.ofText text = .ok (ofList pairs) := by
  obtain ⟨members,ht,hm⟩ := h
  have hnamed : ∃ named, RuleMembers named pairs ∧
      List.Forall₂ (fun m n => m.name = n.1 ∧ Spells m.value n.2.tokens) members named := by
    clear ht
    induction hm with
    | nil => exact ⟨[],.nil,.nil⟩
    | @cons m e members pairs hme _ ih =>
      obtain ⟨named,hnamed,hmembers⟩ := ih
      obtain ⟨hname,v,hv,hs⟩ := hme
      exact ⟨([e.1],v) :: named,.cons ⟨rfl,hv⟩ hnamed,.cons ⟨hname,hs⟩ hmembers⟩
  obtain ⟨named,hnamed,hmembers⟩ := hnamed
  obtain ⟨v,hv,hs⟩ := ObjectText.spells ht hmembers
  exact reader_exact.ofText_eq_ok_iff.2 ⟨v,⟨named,pairs,hv,hnamed,find?_ofList pairs⟩,hs⟩

/-- An object with a start word and a list of rules, in any order and with any unknown members. -/
def GrammarText (start : Word) (pairs : List (Symbol × Word)) (text : List Char) : Prop :=
  ∃ first second unknown members, first.name = "start".toList ∧ StringText start first.value ∧
    second.name = "rules".toList ∧ RulesText pairs second.value ∧
      (∀ m ∈ unknown, Grammar.record.Unknown m.name ∧ IsJson m.value) ∧
        members.Perm (first :: second :: unknown) ∧ ObjectText members text

namespace Grammar

theorem foldl_withRule (pairs : List (Symbol × Word)) (g : Grammar) :
    pairs.foldl (fun g e => g.withRule e.1 e.2) g =
      ⟨g.start,pairs.foldl (fun r e => r.insert e.1 e.2) g.rules⟩ := by
  induction pairs generalizing g with
  | nil => rfl
  | cons e pairs ih => exact ih _

/-- Rules that are added to a grammar leave its start word alone. -/
theorem ofRules_eq (start : Word) (pairs : List (Symbol × Word)) :
    ofRules start pairs = ⟨start,Rules.ofList pairs⟩ := foldl_withRule pairs _

theorem reader_ofText {start : Word} {pairs : List (Symbol × Word)} {text : List Char}
    (h : GrammarText start pairs text) : reader.ofText text = .ok (ofRules start pairs) := by
  obtain ⟨first,second,unknown,members,hfirst,hstart,hsecond,hrules,hunknown,hperm,ht⟩ := h
  have hforms := formsAgree (stringText_iff.1 hstart) (Rules.reader_ofText hrules)
  rw [ofRules_eq]
  refine hforms.keyed [first,second] unknown members text ?_ hunknown hperm ht
  rw [List.map_cons,List.map_singleton,hfirst,hsecond]

theorem ofText_of_reader {text : List Char} {g : Grammar} (h : reader.ofText text = .ok g)
    (hne : g.start ≠ []) : ofText text = .ok g := by
  unfold ofText
  rw [h]
  change g.validate.map (fun _ => g) = .ok g
  rw [validate_eq_ok_iff.2 hne]
  rfl

end Grammar

/-- A rule in an object as it is written: its symbol and its replacement between quotes. -/
def WrittenRule (e : Symbol × Word) (text : List Char) : Prop :=
  ∃ key value, QuotedText [e.1] key ∧ QuotedText e.2 value ∧ text = key ++ ':' :: value

/-- A grammar as it is written, without blanks and with its rules in the order of the list. -/
def WrittenGrammar (start : Word) (entries : List (Symbol × Word)) (text : List Char) : Prop :=
  ∃ word rules, QuotedText start word ∧ List.Forall₂ WrittenRule entries rules ∧
    text = "\x7b\"start\":".toList ++ word ++ ",\"rules\":\x7b".toList ++
      [','].intercalate rules ++ "\x7d\x7d".toList

theorem Grammar.written (g : Grammar) : WrittenGrammar g.start g.rules.entries (spellAll g.tokens) := by
  have hstart : (Token.ofText "start".toList).spell = "\"start\"".toList := by decide
  have hrules : (Token.ofText "rules".toList).spell = "\"rules\"".toList := by decide
  refine ⟨(Token.ofText g.start).spell,
    g.rules.entries.map fun e => (Token.ofText [e.1]).spell ++ ':' :: (Token.ofText e.2).spell,
    quotedText_spell _,?_,?_⟩
  · rw [List.forall₂_map_right_iff,List.forall₂_same]
    exact fun e _ => ⟨_,_,quotedText_spell _,quotedText_spell _,rfl⟩
  · simp only [tokens,Rules.tokens,spellAll_objectTokens,List.map_cons,List.map_nil,List.map_map,
      Function.comp_def,List.intercalate_cons_cons,List.intercalate_singleton,
      spellAll_memberTokens,spellAll_singleton,hstart,hrules]
    simp

/-- A grammar with the rules of a list, as it is read, shown and written: of the rules for each symbol
it has the last one, and they come by increasing code point. -/
structure KeepsLastRules (start : Word) (pairs : List (Symbol × Word)) (g : Grammar) : Prop where
  read : ∀ text, GrammarText start pairs text → Grammar.ofText text = .ok g
  word : g.start = start
  last : ∀ c w, g.rules.find? c = some w ↔ LastRule pairs c w
  listed : ∃ entries : List (Symbol × Word), (entries.Pairwise fun a b => a.1 < b.1) ∧
    (∀ c w, (c,w) ∈ entries ↔ LastRule pairs c w) ∧
    (∀ s, Derivation.ofGrammar g = .ok s → ∀ calls, (s.after calls).summary =
      "LindenmayerSystem(start=" ++ String.ofList start ++ " rules=\x7b" ++
        ", ".intercalate (entries.map fun e => String.ofList (e.1 :: '=' :: '>' :: e.2)) ++
          "\x7d iterations=" ++ toString (passesSinceReset calls) ++ ")") ∧
    WrittenGrammar start entries (spellAll g.tokens)

theorem Grammar.keepsLastRules {start : Word} (h : start ≠ []) (pairs : List (Symbol × Word)) :
    KeepsLastRules start pairs (ofRules start pairs) where
  read text ht := ofText_of_reader (reader_ofText ht) (by rwa [ofRules_eq])
  word := by rw [ofRules_eq]
  last c w := by rw [ofRules_eq,Rules.find?_ofList_eq_some_iff]
  listed := by
    rw [ofRules_eq]
    refine ⟨(Rules.ofList pairs).entries,(Rules.ofList pairs).sorted,fun c w => ?_,
      fun s hs calls => ?_,written ⟨start,Rules.ofList pairs⟩⟩
    · rw [Rules.mem_entries_iff,Rules.find?_ofList_eq_some_iff]
    · rw [ofGrammar_eq,if_neg h] at hs
      obtain rfl := Except.ok.inj hs
      rw [after_reached]
      rfl

/-- Adding rules to a grammar one after another and listing them in the document of one lead to the same
grammar, with the last rule for each symbol. So it does not matter what the list is otherwise: where the
last rules are the same, so are the grammar, all that it shows and writes, and its words. -/
theorem last_rules_decide (start : Word) (h : start ≠ []) (pairs : List (Symbol × Word)) :
    (∃ s, Derivation.ofGrammar (Grammar.ofRules start pairs) = .ok s) ∧
    KeepsLastRules start pairs (Grammar.ofRules start pairs) ∧
    ∀ others, (∀ c w, LastRule others c w ↔ LastRule pairs c w) →
      Grammar.ofRules start others = Grammar.ofRules start pairs ∧
      (∀ s t, Derivation.ofGrammar (Grammar.ofRules start others) = .ok s →
        Derivation.ofGrammar (Grammar.ofRules start pairs) = .ok t →
          ∀ calls, (s.after calls).summary = (t.after calls).summary) ∧
      spellAll (Grammar.ofRules start others).tokens =
        spellAll (Grammar.ofRules start pairs).tokens ∧
      ∀ n, (Grammar.ofRules start others).expand n = (Grammar.ofRules start pairs).expand n := by
  refine ⟨⟨(Grammar.ofRules start pairs).reached 0,?_⟩,Grammar.keepsLastRules h pairs,
    fun others hlast => ?_⟩
  · rw [Grammar.ofRules_eq,Grammar.ofGrammar_eq,if_neg h]
  · have heq : Grammar.ofRules start others = Grammar.ofRules start pairs := by
      rw [Grammar.ofRules_eq,Grammar.ofRules_eq,Rules.ofList_eq_of_lastRule hlast]
    rw [heq]
    refine ⟨rfl,fun s t hs ht calls => ?_,rfl,fun _ => rfl⟩
    rw [Except.ok.inj (hs.symm.trans ht)]

/-- Rules of which the second is replaced by the third. -/
def replacedRules : List (Symbol × Word) := [('é',['A']),('A',['x']),('A',['A','é'])]

/-- The same rules in an object, with an escape for one of the names. -/
def replacedRulesText : List Char :=
  "\x7b\"é\":\"A\",\"A\":\"x\",\"\\u0041\":\"A\\u00e9\"\x7d".toList

def replacedText : List Char :=
  "\x7b\"x\":[],\"rules\":".toList ++ replacedRulesText ++ ",\"start\":\"A\"\x7d".toList

theorem replacedText_spells : GrammarText ['A'] replacedRules replacedText := by
  let member (name key value : String)
      (named : Reader.string.ofText key.toList = .ok name.toList) : MemberText :=
    ⟨name.toList,key.toList,value.toList,stringText_iff.2 named⟩
  let accented := member "é" "\"é\"" "\"A\"" (by decide +kernel)
  let first := member "A" "\"A\"" "\"x\"" (by decide +kernel)
  let second := member "A" "\"\\u0041\"" "\"A\\u00e9\"" (by decide +kernel)
  let start := member "start" "\"start\"" "\"A\"" (by decide +kernel)
  let rules : MemberText :=
    ⟨"rules".toList,"\"rules\"".toList,replacedRulesText,stringText_iff.2 (by decide +kernel)⟩
  let x := member "x" "\"x\"" "[]" (by decide +kernel)
  have hrules : RulesText replacedRules replacedRulesText := by
    have ht : ObjectText [accented,first,second] replacedRulesText := .plain (by decide +kernel)
    refine ⟨_,ht,.cons ⟨rfl,?_⟩ (.cons ⟨rfl,?_⟩ (.cons ⟨rfl,?_⟩ .nil))⟩ <;>
      exact stringText_iff.2 (by decide +kernel)
  have hx : Grammar.record.Unknown x.name := by
    simp only [Record.Unknown,Grammar.record,Grammar.fields,List.forall_mem_cons]
    decide
  have hjson : IsJson x.value := isJson_iff.2 (by decide +kernel)
  have ht : ObjectText [x,rules,start] replacedText := .plain (by decide +kernel)
  exact ⟨start,rules,[x],[x,rules,start],rfl,stringText_iff.2 (by decide +kernel),rfl,hrules,
    List.forall_mem_singleton.2 ⟨hx,hjson⟩,List.reverse_perm [start,rules,x],ht⟩

theorem replaced_rules_decided :
    ['A'] ≠ [] ∧ GrammarText ['A'] replacedRules replacedText ∧
      (∀ c w, LastRule [('A',['A','é']),('é',['A'])] c w ↔ LastRule replacedRules c w) ∧
      Grammar.ofText replacedText = .ok (Grammar.ofRules ['A'] replacedRules) ∧
      Grammar.ofRules ['A'] [('A',['A','é']),('é',['A'])] = Grammar.ofRules ['A'] replacedRules := by
  have hlast (c : Symbol) (w : Word) :
      LastRule [('A',['A','é']),('é',['A'])] c w ↔ LastRule replacedRules c w := by
    have heq : Rules.ofList [('A',['A','é']),('é',['A'])] = Rules.ofList replacedRules := rfl
    rw [← Rules.find?_ofList_eq_some_iff,heq,Rules.find?_ofList_eq_some_iff]
  have hne : ['A'] ≠ [] := List.cons_ne_nil _ _
  obtain ⟨-,hkeeps,hsame⟩ := last_rules_decide ['A'] hne replacedRules
  exact ⟨hne,replacedText_spells,hlast,hkeeps.read _ replacedText_spells,(hsame _ hlast).1⟩

end LSystem
