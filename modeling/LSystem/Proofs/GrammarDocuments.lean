import LSystem.Document.Grammar
import LSystem.Proofs.Expansion
import LSystem.Proofs.Json.Records

/-!
# Which texts are grammars

The values that stand for a table of rules or for a grammar, and the texts that spell one. The
reader of grammars accepts these texts, if the start word is not empty, and no others.
-/
namespace LSystem

open Json

namespace Rules

theorem find?_foldl_insert (pairs : List (Symbol × Word)) (r : Rules) (c : Symbol) :
    (pairs.foldl (fun r e => r.insert e.1 e.2) r).find? c =
      (pairs.reverse.lookup c).or (r.find? c) := by
  induction pairs generalizing r with
  | nil => rfl
  | cons e pairs ih =>
    rw [List.foldl_cons,ih,find?_insert,List.reverse_cons,List.lookup_append,Option.or_assoc]
    congr 1
    rw [lookup_cons_eq_ite]
    split <;> rfl

/-- Of the rules for a symbol the last one counts. -/
theorem find?_ofList (pairs : List (Symbol × Word)) (c : Symbol) :
    (ofList pairs).find? c = pairs.reverse.lookup c := by
  rw [ofList,find?_foldl_insert,find?_empty,Option.or_none]

end Rules

/-- Members that are rules: their names are single symbols and their values are strings. -/
def RuleMembers : List (List Char × Value) → List (Symbol × Word) → Prop :=
  List.Forall₂ fun m e => m.1 = [e.1] ∧ m.2.IsString e.2

/-- An object of rules, of which the last one for each symbol counts. -/
def Json.Value.IsRules (v : Value) (r : Rules) : Prop :=
  ∃ members pairs, v.IsObject members ∧ RuleMembers members pairs ∧
    ∀ c, r.find? c = pairs.reverse.lookup c

namespace Rules

/-- A member that adds its rule to a table. -/
def Adds (r : Rules) (key : List Char) (v : Value) (s : Rules) : Prop :=
  ∃ c w, key = [c] ∧ v.IsString w ∧ r.insert c w = s

theorem selects (r : Rules) : Reader.Selects r.select r.Adds := by
  intro key
  cases key with
  | nil =>
    intro v s hx
    rcases hx with ⟨c,w,hkey,_⟩
    exact absurd hkey (by simp)
  | cons c key =>
    cases key with
    | nil =>
      apply (Reader.string_exact.map (r.insert c)).congr
      intro v s
      constructor
      · intro hx
        rcases hx with ⟨w,hw,rfl⟩
        exact ⟨c,w,rfl,hw,rfl⟩
      · intro hx
        rcases hx with ⟨d,w,hkey,hw,rfl⟩
        have heq : c = d := by simpa using hkey
        subst heq
        exact ⟨w,hw,rfl⟩
    | cons d key =>
      intro v s hx
      rcases hx with ⟨c,w,hkey,_⟩
      exact absurd hkey (by simp)

theorem steps_iff {r s : Rules} {members : List (List Char × Value)} :
    Reader.Steps Adds r members s ↔
      ∃ pairs, RuleMembers members pairs ∧ s = pairs.foldl (fun r e => r.insert e.1 e.2) r := by
  constructor
  · intro h
    induction h with
    | nil => exact ⟨[],.nil,rfl⟩
    | cons hv _ ih =>
      rcases hv with ⟨c,w,rfl,hw,rfl⟩
      rcases ih with ⟨pairs,hp,rfl⟩
      exact ⟨(c,w) :: pairs,.cons ⟨rfl,hw⟩ hp,rfl⟩
  · intro hx
    rcases hx with ⟨pairs,hp,rfl⟩
    induction hp generalizing r with
    | nil => exact .nil
    | @cons m e members pairs hm _ ih =>
      rcases m with ⟨key,v⟩
      obtain ⟨rfl,hw⟩ : key = [e.1] ∧ v.IsString e.2 := hm
      exact .cons ⟨e.1,e.2,rfl,hw,rfl⟩ ih

theorem reader_exact : reader.Exact Value.IsRules := by
  apply (Reader.object_exact selects _ _).congr
  intro v r
  constructor
  · intro hx
    rcases hx with ⟨members,hv,hs⟩
    obtain ⟨pairs,hp,rfl⟩ := steps_iff.1 hs
    exact ⟨members,pairs,hv,hp,find?_ofList pairs⟩
  · intro hx
    rcases hx with ⟨members,pairs,hv,hp,hr⟩
    refine ⟨members,hv,steps_iff.2 ⟨pairs,hp,ext_find? ?_⟩⟩
    intro c
    rw [hr]
    exact (find?_ofList pairs c).symm

end Rules

/-- The values of the members of one name, in their order. -/
def valuesOf (name : List Char) (members : List (List Char × Value)) : List Value :=
  (members.filter fun m => m.1 = name).map Prod.snd

theorem valuesOf_self (name : List Char) (v : Value) (members : List (List Char × Value)) :
    valuesOf name ((name,v) :: members) = v :: valuesOf name members := by
  simp [valuesOf]

theorem valuesOf_of_ne {name key : List Char} (h : key ≠ name) (v : Value)
    (members : List (List Char × Value)) :
    valuesOf name ((key,v) :: members) = valuesOf name members := by
  simp [valuesOf,h]

/-- At most one value, for a table that is empty where there is none. -/
def RulesFrom (values : List Value) (r : Rules) : Prop :=
  (values = [] ∧ r = ∅) ∨ ∃ v, values = [v] ∧ v.IsRules r

/-- A grammar in either form, an object with one start word and at most one table of rules among its
members, or an array of the two. -/
def Json.Value.IsGrammar (v : Value) (g : Grammar) : Prop :=
  ∃ start rules, start.IsString g.start ∧ RulesFrom rules g.rules ∧
    ((∃ members, v.IsObject members ∧ valuesOf "start".toList members = [start] ∧
      valuesOf "rules".toList members = rules) ∨ v = .array (start :: rules))

/-- A field that is set by the values given for it: it is left alone, or not set before and set by
the only one. -/
def SetBy {α : Type} (P : Value → α → Prop) (before : Option α) (values : List Value)
    (after : Option α) : Prop :=
  (values = [] ∧ after = before) ∨
    (before = none ∧ ∃ v a, values = [v] ∧ P v a ∧ after = some a)

theorem setBy_cons {α : Type} {P : Value → α → Prop} {before after : Option α} {v : Value}
    {values : List Value} :
    SetBy P before (v :: values) after ↔
      before = none ∧ ∃ a, P v a ∧ SetBy P (some a) values after := by
  constructor
  · intro hx
    rcases hx with ⟨hn,_⟩ | ⟨hb,w,a,hw,ha,rfl⟩
    · exact absurd hn (by simp)
    · obtain ⟨rfl,rfl⟩ := List.cons.inj hw
      exact ⟨hb,a,ha,.inl ⟨rfl,rfl⟩⟩
  · intro hx
    rcases hx with ⟨hb,a,ha,⟨rfl,rfl⟩ | ⟨hn,_⟩⟩
    · exact .inr ⟨hb,v,a,rfl,ha,rfl⟩
    · exact absurd hn (by simp)

namespace Grammar

/-- What the values of the fields set in a draft. -/
def FieldValue (key : List Char) (v : Value) (set : Draft → Draft) : Prop :=
  if key = "start".toList then ∃ s, v.IsString s ∧ (fun d => { d with start := some s }) = set
  else ∃ r, v.IsRules r ∧ (fun d => { d with rules := some r }) = set

theorem fieldValue_start {v : Value} {set : Draft → Draft} :
    FieldValue "start".toList v set ↔
      ∃ s, v.IsString s ∧ (fun d => { d with start := some s }) = set := by
  rw [FieldValue,if_pos rfl]

theorem fieldValue_rules {v : Value} {set : Draft → Draft} :
    FieldValue "rules".toList v set ↔
      ∃ r, v.IsRules r ∧ (fun d => { d with rules := some r }) = set := by
  rw [FieldValue,if_neg (by decide)]

theorem fields_exact : ∀ f ∈ record.fields, f.reader.Exact (FieldValue f.name) := by
  simp only [record,fields,List.forall_mem_cons,List.not_mem_nil,false_imp_iff,implies_true,
    and_true]
  exact ⟨Reader.string_exact.map _,Rules.reader_exact.map _⟩

theorem gathers_iff {d e : Draft} {key : List Char} {v : Value} :
    record.Gathers FieldValue d key v e ↔
      if key = "start".toList then
        d.start = none ∧ ∃ s, v.IsString s ∧ { d with start := some s } = e
      else if key = "rules".toList then
        d.rules = none ∧ ∃ r, v.IsRules r ∧ { d with rules := some r } = e
      else e = d := by
  have hisSome {α : Type} (o : Option α) : o.isSome = false ↔ o = none := by simp
  by_cases hs : key = "start".toList
  · have hfind : (record.fields.find? fun f => f.name = key) = fields.head? := by
      rw [hs]
      rfl
    rw [Record.Gathers,hfind,if_pos hs,hs]
    simp only [fields,List.head?_cons,hisSome,fieldValue_start,exists_exists_and_eq_and]
  · by_cases hr : key = "rules".toList
    · have hfind : (record.fields.find? fun f => f.name = key) = fields.getLast? := by
        rw [hr]
        rfl
      rw [Record.Gathers,hfind,if_neg hs,if_pos hr,hr]
      simp only [fields,List.getLast?_cons_cons,List.getLast?_singleton,hisSome,fieldValue_rules,
        exists_exists_and_eq_and]
    · have hfind : (record.fields.find? fun f => f.name = key) = none := by
        simp only [record,fields,List.find?_cons,Ne.symm hs,Ne.symm hr,decide_false,List.find?_nil]
      rw [Record.Gathers,hfind,if_neg hs,if_neg hr]

theorem steps_iff {d e : Draft} {members : List (List Char × Value)} :
    Reader.Steps (record.Gathers FieldValue) d members e ↔
      SetBy Value.IsString d.start (valuesOf "start".toList members) e.start ∧
        SetBy Value.IsRules d.rules (valuesOf "rules".toList members) e.rules := by
  induction members generalizing d with
  | nil =>
    rcases d with ⟨start,rules⟩
    rcases e with ⟨start',rules'⟩
    simp [Reader.steps_nil_iff,valuesOf,SetBy]
  | cons m members ih =>
    rcases m with ⟨key,v⟩
    simp only [Reader.steps_cons_iff,gathers_iff,ih]
    by_cases hs : key = "start".toList
    · have hr : key ≠ "rules".toList := by
        rw [hs]
        decide
      rw [valuesOf_of_ne hr,hs,valuesOf_self,setBy_cons]
      simp only [if_true]
      constructor
      · intro hx
        rcases hx with ⟨t,⟨hd,s,hv,rfl⟩,hstart,hrules⟩
        exact ⟨⟨hd,s,hv,hstart⟩,hrules⟩
      · intro hx
        rcases hx with ⟨⟨hd,s,hv,hstart⟩,hrules⟩
        exact ⟨_,⟨hd,s,hv,rfl⟩,hstart,hrules⟩
    · by_cases hr : key = "rules".toList
      · rw [valuesOf_of_ne hs,hr,valuesOf_self,setBy_cons]
        simp only [hr ▸ hs,if_false,if_true]
        constructor
        · intro hx
          rcases hx with ⟨t,⟨hd,r,hv,rfl⟩,hstart,hrules⟩
          exact ⟨hstart,hd,r,hv,hrules⟩
        · intro hx
          rcases hx with ⟨hstart,hd,r,hv,hrules⟩
          exact ⟨_,⟨hd,r,hv,rfl⟩,hstart,hrules⟩
      · rw [valuesOf_of_ne hs,valuesOf_of_ne hr]
        simp only [hs,hr,if_false,exists_eq_left]

/-- Only a missing start word stops a grammar from being built. -/
theorem build_eq_ok_iff {form : Form} {d : Draft} {g : Grammar} :
    build form d = .ok g ↔ d.start = some g.start ∧ d.rules.getD ∅ = g.rules := by
  rcases d with ⟨start,rules⟩
  rcases g with ⟨w,r⟩
  cases start with
  | none => cases form <;> simp [build,Form.require,bind,Except.bind]
  | some s => simp [build,Form.require,bind,Except.bind,pure,Except.pure]

theorem rulesFrom_iff {values : List Value} {r : Rules} :
    RulesFrom values r ↔ ∃ rules, SetBy Value.IsRules none values rules ∧ rules.getD ∅ = r := by
  constructor
  · intro hx
    rcases hx with ⟨rfl,rfl⟩ | ⟨v,rfl,hv⟩
    · exact ⟨none,.inl ⟨rfl,rfl⟩,rfl⟩
    · exact ⟨some r,.inr ⟨rfl,v,r,rfl,hv,rfl⟩,rfl⟩
  · intro hx
    rcases hx with ⟨rules,⟨rfl,rfl⟩ | ⟨_,v,a,rfl,hv,rfl⟩,rfl⟩
    · exact .inl ⟨rfl,rfl⟩
    · exact .inr ⟨v,rfl,hv⟩

theorem drafts_keyed_iff {v : Value} {d : Draft} :
    record.Drafts FieldValue v (.keyed,d) ↔ ∃ members, v.IsObject members ∧
      SetBy Value.IsString none (valuesOf "start".toList members) d.start ∧
        SetBy Value.IsRules none (valuesOf "rules".toList members) d.rules := by
  simp only [Record.Drafts,steps_iff]
  rfl

theorem slots_iff {items : List Value} {d : Draft} :
    Reader.Slots [FieldValue "start".toList,FieldValue "rules".toList] record.blank items d ↔
      (items = [] ∧ d = record.blank) ∨ ∃ start rules w, items = start :: rules ∧
        start.IsString w ∧ d.start = some w ∧ SetBy Value.IsRules none rules d.rules := by
  constructor
  · intro h
    cases h with
    | nil => exact .inl ⟨rfl,rfl⟩
    | @cons _ _ _ _ _ start rules hv h =>
      obtain ⟨w,hw,rfl⟩ := fieldValue_start.1 hv
      cases h with
      | nil => exact .inr ⟨start,[],w,rfl,hw,rfl,.inl ⟨rfl,rfl⟩⟩
      | @cons _ _ _ _ _ v _ hv h =>
        obtain ⟨r,hr,rfl⟩ := fieldValue_rules.1 hv
        cases h
        exact .inr ⟨start,[v],w,rfl,hw,rfl,.inr ⟨rfl,v,r,rfl,hr,rfl⟩⟩
  · rcases d with ⟨first,second⟩
    intro hx
    rcases hx with ⟨rfl,hd⟩ | ⟨start,rules,w,rfl,hw,rfl,⟨rfl,rfl⟩ | ⟨_,v,r,rfl,hr,rfl⟩⟩
    · rw [hd]
      exact .nil
    · exact .cons (fieldValue_start.2 ⟨w,hw,rfl⟩) .nil
    · exact .cons (fieldValue_start.2 ⟨w,hw,rfl⟩) (.cons (fieldValue_rules.2 ⟨r,hr,rfl⟩) .nil)

theorem reader_exact : reader.Exact Value.IsGrammar := by
  apply (record.reader_exact fields_exact).congr
  intro v g
  constructor
  · intro hx
    rcases hx with ⟨⟨form,d⟩,hd,hb⟩
    obtain ⟨hstart,hrules⟩ := build_eq_ok_iff.1 hb
    cases form with
    | keyed =>
      obtain ⟨members,hv,hs,hr⟩ := drafts_keyed_iff.1 hd
      rcases hs with ⟨_,hn⟩ | ⟨_,start,w,hstarts,hw,hs⟩
      · exact absurd (hn.symm.trans hstart) (by simp)
      · have heq : w = g.start := Option.some.inj (hs.symm.trans hstart)
        subst heq
        exact ⟨start,_,hw,rulesFrom_iff.2 ⟨_,hr,hrules⟩,.inl ⟨members,hv,hstarts,rfl⟩⟩
    | positional =>
      rcases hd with ⟨items,rfl,hslots⟩
      rcases slots_iff.1 hslots with ⟨_,rfl⟩ | ⟨start,rules,w,rfl,hw,hs,hr⟩
      · exact absurd hstart (by simp [record])
      · have heq : w = g.start := Option.some.inj (hs.symm.trans hstart)
        subst heq
        exact ⟨start,rules,hw,rulesFrom_iff.2 ⟨_,hr,hrules⟩,.inr rfl⟩
  · intro hx
    rcases hx with ⟨start,rules,hw,hr,⟨members,hv,hs,rfl⟩ | rfl⟩
    · obtain ⟨table,hr,ht⟩ := rulesFrom_iff.1 hr
      refine ⟨(.keyed,⟨some g.start,table⟩),drafts_keyed_iff.2 ⟨members,hv,?_,hr⟩,
        build_eq_ok_iff.2 ⟨rfl,ht⟩⟩
      exact .inr ⟨rfl,start,g.start,hs,hw,rfl⟩
    · obtain ⟨table,hr,ht⟩ := rulesFrom_iff.1 hr
      exact ⟨(.positional,⟨some g.start,table⟩),
        ⟨_,rfl,slots_iff.2 (.inr ⟨start,rules,g.start,rfl,hw,rfl,hr⟩)⟩,
        build_eq_ok_iff.2 ⟨rfl,ht⟩⟩

/-- A text that spells a value which stands for the grammar. -/
def Document (text : List Char) (g : Grammar) : Prop :=
  ∃ v : Value, v.IsGrammar g ∧ Spells text v.tokens

theorem ofText_eq_ok_iff {text : List Char} {g : Grammar} :
    ofText text = .ok g ↔ g.start ≠ [] ∧ Document text g := by
  have hread : ∀ a, reader.ofText text = .ok a ↔ Document text a :=
    fun _ => reader_exact.ofText_eq_ok_iff
  unfold ofText
  constructor
  · intro h
    split at h
    · exact absurd h (by simp)
    · next a ha =>
      cases hv : a.validate with
      | error e =>
        rw [hv] at h
        exact absurd h (by simp [Except.map])
      | ok u =>
        rw [hv] at h
        have heq : a = g := Except.ok.inj h
        subst heq
        exact ⟨validate_eq_ok_iff.1 hv,(hread a).1 ha⟩
  · intro hx
    rcases hx with ⟨hne,hd⟩
    simp only [(hread g).2 hd,validate_eq_ok_iff.2 hne]
    rfl

/-- A text is read as a grammar just when it is a document of one whose start word is not empty,
and is an error otherwise. -/
theorem accepts_documents (text : List Char) :
    (∀ g, ofText text = .ok g ↔ g.start ≠ [] ∧ Document text g) ∧
      ((∃ e, ofText text = .error e) ↔ ∀ g, Document text g → g.start = []) := by
  refine ⟨fun g => ofText_eq_ok_iff,?_⟩
  constructor
  · intro hx g hg
    rcases hx with ⟨e,he⟩
    by_contra hne
    exact absurd (he.symm.trans (ofText_eq_ok_iff.2 ⟨hne,hg⟩)) (by simp)
  · intro h
    cases hg : ofText text with
    | error e => exact ⟨e,rfl⟩
    | ok g =>
      obtain ⟨hne,hd⟩ := ofText_eq_ok_iff.1 hg
      exact absurd (h g hd) hne

/-- No half of a surrogate pair stands alone in a string, be it a name. -/
def Paired (v : Value) : Prop :=
  ∀ codes, Token.string codes ∈ v.tokens → ∃ s, StringBody.Denotes codes s

/-- A grammar with an unknown member whose value is half of a surrogate pair. -/
def loneHalf : Value :=
  .object [("start".toList.map Char.toNat,.string [0x46]),
    ("x".toList.map Char.toNat,.string [0xd800])]

def loneHalfText : List Char := "\x7b\"start\":\"F\",\"x\":\"\\ud800\"\x7d".toList

theorem loneHalf_isGrammar : loneHalf.IsGrammar ⟨['F'],∅⟩ := by
  have hstart : StringBody.Denotes ("start".toList.map Char.toNat) "start".toList :=
    StringBody.scalars?_eq_some_iff.1 (by decide)
  have hx : StringBody.Denotes ("x".toList.map Char.toNat) "x".toList :=
    StringBody.scalars?_eq_some_iff.1 (by decide)
  have hvalue : StringBody.Denotes [0x46] ['F'] := StringBody.scalars?_eq_some_iff.1 (by decide)
  refine ⟨.string [0x46],[],⟨_,rfl,hvalue⟩,.inl ⟨rfl,rfl⟩,.inl ?_⟩
  refine ⟨[("start".toList,.string [0x46]),("x".toList,.string [0xd800])],?_,rfl,rfl⟩
  exact ⟨_,rfl,.cons ⟨hstart,rfl⟩ (.cons ⟨hx,rfl⟩ .nil)⟩

/-- Not every document is one in which all strings stand for characters, since nobody reads those of
the members that are skipped. -/
theorem documents_not_paired :
    ¬∀ text g, ofText text = .ok g ↔
      g.start ≠ [] ∧ ∃ v : Value, v.IsGrammar g ∧ Spells text v.tokens ∧ Paired v := by
  intro h
  have hscan : Scan.ofText loneHalfText = ⟨loneHalf.tokens,true⟩ := by decide +kernel
  have hok : ofText loneHalfText = .ok ⟨['F'],∅⟩ :=
    ofText_eq_ok_iff.2 ⟨by simp,loneHalf,loneHalf_isGrammar,Scan.spells_of_ofText hscan⟩
  obtain ⟨_,v,_,hs,hp⟩ := (h _ _).1 hok
  have htokens : loneHalf.tokens = v.tokens :=
    congrArg Scan.tokens (hscan.symm.trans (Scan.ofText_of_spells hs v.separate_tokens))
  have hmem : Token.string [0xd800] ∈ loneHalf.tokens := by decide
  rw [htokens] at hmem
  obtain ⟨s,hd⟩ := hp _ hmem
  have hnone : StringBody.scalars? [0xd800] = none := by decide
  exact absurd (hnone.symm.trans (StringBody.scalars?_eq_some_iff.2 hd)) (by simp)

end Grammar

end LSystem
