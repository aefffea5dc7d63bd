import LSystem.Json.Writing
import LSystem.Proofs.Json.Scanning

/-!
# Values

Values as trees, with the tokens of each. Numerals keep their digits, strings keep their code
points and objects keep their members in order, repeated ones too, so a tree is what a reader sees
before it makes anything of it.

The values of a list stand with commas between them. For an induction the commas belong to the
later values, in front of each (`followers`).
-/
namespace LSystem.Json

inductive Value where
  | null
  | boolean (value : Bool)
  | number (numeral : Numeral)
  | string (codes : List Nat)
  | array (items : List Value)
  | object (members : List (List Nat × Value))

namespace Value

mutual

def tokens : Value → List Token
  | .null => [.null]
  | .boolean b => [.boolean b]
  | .number n => [.number n]
  | .string codes => [.string codes]
  | .array items => arrayTokens (itemTokens items)
  | .object members => objectTokens (membersTokens members)

def itemTokens : List Value → List (List Token)
  | [] => []
  | v :: items => v.tokens :: itemTokens items

def membersTokens : List (List Nat × Value) → List (List Token)
  | [] => []
  | (codes,v) :: members => (.string codes :: .colon :: v.tokens) :: membersTokens members

end

def memberTokens (m : List Nat × Value) : List Token := .string m.1 :: .colon :: m.2.tokens

theorem itemTokens_eq_map (items : List Value) : itemTokens items = items.map tokens := by
  induction items with
  | nil => rfl
  | cons v items ih => rw [itemTokens,ih,List.map_cons]

theorem membersTokens_eq_map (members : List (List Nat × Value)) :
    membersTokens members = members.map memberTokens := by
  induction members with
  | nil => rfl
  | cons m members ih =>
    rw [membersTokens,ih]
    rfl

@[induction_eliminator]
theorem induction {P : Value → Prop} (null : P .null) (boolean : ∀ b, P (.boolean b))
    (number : ∀ n, P (.number n)) (string : ∀ codes, P (.string codes))
    (array : ∀ items, (∀ v ∈ items, P v) → P (.array items))
    (object : ∀ members, (∀ m ∈ members, P m.2) → P (.object members)) (v : Value) : P v :=
  @Value.rec P (fun items => ∀ v ∈ items, P v) (fun members => ∀ m ∈ members, P m.2)
    (fun m => P m.2) null boolean number string array object
    (by simp) (fun _ _ hv hitems => List.forall_mem_cons.2 ⟨hv,hitems⟩)
    (by simp) (fun _ _ hm hmembers => List.forall_mem_cons.2 ⟨hm,hmembers⟩) (fun _ _ hv => hv) v

end Value

/-- The values after the first one of a list, each with a comma in front. -/
def followers : (values : List (List Token)) → List Token
  | [] => []
  | value :: values => .comma :: (value ++ followers values)

theorem separated_cons (value : List Token) (values : List (List Token)) :
    separated (value :: values) = value ++ followers values := by
  induction values generalizing value with
  | nil => simp [separated,followers]
  | cons w values ih =>
    have h : separated (value :: w :: values) = value ++ [.comma] ++ separated (w :: values) :=
      List.intercalate_cons_cons
    rw [h,ih,List.append_assoc]
    rfl

theorem separated_cons_cons (value w : List Token) (values : List (List Token)) :
    separated (value :: w :: values) = value ++ .comma :: separated (w :: values) := by
  rw [separated_cons,separated_cons]
  rfl

theorem arrayTokens_append (items : List (List Token)) (rest : List Token) :
    arrayTokens items ++ rest = .openBracket :: (separated items ++ .closeBracket :: rest) := by
  simp [arrayTokens]

theorem objectTokens_append (members : List (List Token)) (rest : List Token) :
    objectTokens members ++ rest = .openBrace :: (separated members ++ .closeBrace :: rest) := by
  simp [objectTokens]

namespace Value

@[simp] theorem tokens_array (items : List Value) :
    (Value.array items).tokens = arrayTokens (items.map tokens) := by
  rw [tokens,itemTokens_eq_map]

@[simp] theorem tokens_object (members : List (List Nat × Value)) :
    (Value.object members).tokens = objectTokens (members.map memberTokens) := by
  rw [tokens,membersTokens_eq_map]

/-- A value does not begin with a closing bracket or brace. -/
theorem tokens_head (v : Value) :
    ∃ t rest, v.tokens = t :: rest ∧ t ≠ .closeBracket ∧ t ≠ .closeBrace := by
  cases v <;> exact ⟨_,_,rfl,by simp,by simp⟩

end Value

/-- Tokens that keep numerals apart wherever something else than a numeral comes after them. -/
def Apart (tokens : List Token) : Prop :=
  ∀ rest, OtherFirst rest → Separate rest → Separate (tokens ++ rest)

theorem separate_cons {t : Token} {tokens : List Token} (ht : t.isNumber = false)
    (h : Separate tokens) : Separate (t :: tokens) := by
  refine List.isChain_cons.2 ⟨?_,h⟩
  intro u _ hn
  exact absurd hn (by simp [ht])

theorem otherFirst_cons {t : Token} {tokens : List Token} (ht : t.isNumber = false) :
    OtherFirst (t :: tokens) := by
  intro u hu
  have heq : t = u := Option.some.inj hu
  subst heq
  exact ht

theorem apart_singleton (t : Token) : Apart [t] := by
  intro rest ho hs
  exact List.isChain_cons.2 ⟨fun u hu _ => ho u hu,hs⟩

theorem otherFirst_followers {values : List (List Token)} {rest : List Token}
    (ho : OtherFirst rest) : OtherFirst (followers values ++ rest) := by
  cases values with
  | nil => exact ho
  | cons value values => exact otherFirst_cons rfl

theorem apart_followers {values : List (List Token)} (h : ∀ value ∈ values, Apart value) :
    Apart (followers values) := by
  intro rest ho hs
  induction values with
  | nil => exact hs
  | cons value values ih =>
    obtain ⟨hv,hvs⟩ := List.forall_mem_cons.1 h
    rw [followers,List.cons_append,List.append_assoc]
    exact separate_cons rfl (hv _ (otherFirst_followers ho) (ih hvs))

theorem apart_separated {values : List (List Token)} (h : ∀ value ∈ values, Apart value) :
    Apart (separated values) := by
  intro rest ho hs
  cases values with
  | nil => exact hs
  | cons value values =>
    obtain ⟨hv,hvs⟩ := List.forall_mem_cons.1 h
    rw [separated_cons,List.append_assoc]
    exact hv _ (otherFirst_followers ho) (apart_followers hvs rest ho hs)

namespace Value

theorem apart_tokens (v : Value) : Apart v.tokens := by
  induction v with
  | null => exact apart_singleton _
  | boolean b => exact apart_singleton _
  | number n => exact apart_singleton _
  | string codes => exact apart_singleton _
  | array items ih =>
    have h : Apart (separated (items.map tokens)) :=
      apart_separated (List.forall_mem_map.2 ih)
    intro rest _ hs
    rw [tokens_array,arrayTokens_append]
    exact separate_cons rfl (h _ (otherFirst_cons rfl) (separate_cons rfl hs))
  | object members ih =>
    have h : Apart (separated (members.map memberTokens)) := by
      apply apart_separated
      intro value hv
      obtain ⟨m,hm,rfl⟩ := List.mem_map.1 hv
      intro rest ho hs
      exact separate_cons rfl (separate_cons rfl (ih m hm rest ho hs))
    intro rest _ hs
    rw [tokens_object,objectTokens_append]
    exact separate_cons rfl (h _ (otherFirst_cons rfl) (separate_cons rfl hs))

/-- The tokens of a value can be told apart in every text that spells them. -/
theorem separate_tokens (v : Value) : Separate v.tokens := by
  have h := v.apart_tokens [] (by simp [OtherFirst]) .nil
  rwa [List.append_nil] at h

end Value

end LSystem.Json
