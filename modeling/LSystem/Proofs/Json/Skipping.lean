import LSystem.Json.Skipping
import LSystem.Proofs.Json.Values

/-!
# What is skipped

`skipped?` passes over the tokens of exactly one value. A run along the tokens has no tree to
return, only the arrays and objects that are open, and these say what must still come: `Closes`
for a run that is just past a value, `Meets` for any run.
-/
namespace LSystem.Json

/-- Tokens that go on, after a value, to the end of every open enclosure, the innermost one first.
-/
def Closes : List Enclosure → (input rest : List Token) → Prop
  | [],input,rest => input = rest
  | .array :: outer,input,rest => ∃ (items : List Value) (tail : List Token),
    input = followers (items.map Value.tokens) ++ .closeBracket :: tail ∧ Closes outer tail rest
  | .object :: outer,input,rest => ∃ (members : List (List Nat × Value)) (tail : List Token),
    input = followers (members.map Value.memberTokens) ++ .closeBrace :: tail ∧
      Closes outer tail rest

def Meets : Due → List Enclosure → (input rest : List Token) → Prop
  | .value,outer,input,rest =>
    ∃ (v : Value) (tail : List Token), input = v.tokens ++ tail ∧ Closes outer tail rest
  | .separator,outer,input,rest => Closes outer input rest

theorem skipped?_sound {due : Due} {outer : List Enclosure} {input rest : List Token}
    (h : skipped? due outer input = some rest) : Meets due outer input rest := by
  fun_induction skipped? due outer input with
  | case1 outer input ih => exact ⟨.array [],input,rfl,ih h⟩
  | case2 outer input _ ih =>
    obtain ⟨v,_,rfl,items,tail,rfl,hc⟩ := ih h
    refine ⟨.array (v :: items),tail,?_,hc⟩
    rw [Value.tokens_array,arrayTokens_append,List.map_cons,separated_cons,List.append_assoc]
  | case3 outer input ih => exact ⟨.object [],input,rfl,ih h⟩
  | case4 outer codes input ih =>
    obtain ⟨v,_,rfl,members,tail,rfl,hc⟩ := ih h
    refine ⟨.object ((codes,v) :: members),tail,?_,hc⟩
    rw [Value.tokens_object,objectTokens_append,List.map_cons,separated_cons,List.append_assoc]
    rfl
  | case5 outer input ih => exact ⟨.null,input,rfl,ih h⟩
  | case6 outer b input ih => exact ⟨.boolean b,input,rfl,ih h⟩
  | case7 outer n input ih => exact ⟨.number n,input,rfl,ih h⟩
  | case8 outer codes input ih => exact ⟨.string codes,input,rfl,ih h⟩
  | case9 input => exact Option.some.inj h
  | case10 outer input ih =>
    obtain ⟨v,_,rfl,items,tail,rfl,hc⟩ := ih h
    refine ⟨v :: items,tail,?_,hc⟩
    rw [List.map_cons,followers,List.cons_append,List.append_assoc]
  | case11 outer input ih => exact ⟨[],input,rfl,ih h⟩
  | case12 outer codes input ih =>
    obtain ⟨v,_,rfl,members,tail,rfl,hc⟩ := ih h
    refine ⟨(codes,v) :: members,tail,?_,hc⟩
    rw [List.map_cons,followers,List.cons_append,List.append_assoc]
    rfl
  | case13 outer input ih => exact ⟨[],input,rfl,ih h⟩
  | case14 => exact absurd h (by simp)

/-- A run that passes over the value, whatever is open around it. -/
def Passed (v : Value) : Prop :=
  ∀ outer rest, skipped? .value outer (v.tokens ++ rest) = skipped? .separator outer rest

theorem skipped?_items {items : List Value} (h : ∀ v ∈ items, Passed v) (outer : List Enclosure)
    (rest : List Token) :
    skipped? .separator (.array :: outer)
      (followers (items.map Value.tokens) ++ .closeBracket :: rest) =
        skipped? .separator outer rest := by
  induction items with
  | nil => rw [List.map_nil,followers,List.nil_append,skipped?]
  | cons v items ih =>
    obtain ⟨hv,hitems⟩ := List.forall_mem_cons.1 h
    rw [List.map_cons,followers,List.cons_append,List.append_assoc,skipped?,hv,ih hitems]

theorem skipped?_members {members : List (List Nat × Value)} (h : ∀ m ∈ members, Passed m.2)
    (outer : List Enclosure) (rest : List Token) :
    skipped? .separator (.object :: outer)
      (followers (members.map Value.memberTokens) ++ .closeBrace :: rest) =
        skipped? .separator outer rest := by
  induction members with
  | nil => rw [List.map_nil,followers,List.nil_append,skipped?]
  | cons m members ih =>
    obtain ⟨hm,hmembers⟩ := List.forall_mem_cons.1 h
    rw [List.map_cons,followers,List.cons_append,List.append_assoc,Value.memberTokens,
      List.cons_append,List.cons_append,skipped?,hm,ih hmembers]

theorem passed (v : Value) : Passed v := by
  induction v with
  | null => intro outer rest; rw [Value.tokens,List.singleton_append,skipped?]
  | boolean b => intro outer rest; rw [Value.tokens,List.singleton_append,skipped?]
  | number n => intro outer rest; rw [Value.tokens,List.singleton_append,skipped?]
  | string codes => intro outer rest; rw [Value.tokens,List.singleton_append,skipped?]
  | array items ih =>
    intro outer rest
    rw [Value.tokens_array,arrayTokens_append]
    cases items with
    | nil => rw [List.map_nil,separated,List.intercalate_nil,List.nil_append,skipped?]
    | cons v items =>
      obtain ⟨hv,hitems⟩ := List.forall_mem_cons.1 ih
      obtain ⟨t,more,ht,hne,_⟩ := v.tokens_head
      have hfirst := hv (.array :: outer)
        (followers (items.map Value.tokens) ++ .closeBracket :: rest)
      rw [List.map_cons,separated_cons,List.append_assoc]
      rw [skipped?_items hitems,ht,List.cons_append] at hfirst
      rw [ht,List.cons_append,skipped?,hfirst]
      intro rest' he
      exact hne (List.cons.inj he).1
  | object members ih =>
    intro outer rest
    rw [Value.tokens_object,objectTokens_append]
    cases members with
    | nil => rw [List.map_nil,separated,List.intercalate_nil,List.nil_append,skipped?]
    | cons m members =>
      obtain ⟨hm,hmembers⟩ := List.forall_mem_cons.1 ih
      rw [List.map_cons,separated_cons,List.append_assoc,Value.memberTokens,List.cons_append,
        List.cons_append,skipped?,hm,skipped?_members hmembers]

theorem skipped?_eq_some_iff {input rest : List Token} :
    skipped? .value [] input = some rest ↔ ∃ v : Value, input = v.tokens ++ rest := by
  constructor
  · intro h
    obtain ⟨v,tail,hv,rfl⟩ := skipped?_sound h
    exact ⟨v,hv⟩
  · intro hx
    rcases hx with ⟨v,rfl⟩
    rw [passed v,skipped?]

end LSystem.Json
