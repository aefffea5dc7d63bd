import LSystem.Proofs.Json.Reading

/-!
# What is written

Writing is spelling: each token is written as one of its spellings, so a written value spells its
own tokens and nothing else (`Value.spells_written`). A character is written as itself or by the
escape that it must have, and stands for itself again when it is read.
-/
namespace LSystem.Json

namespace StringBody

theorem hexValue?_digitChar {n : Nat} (h : n < 16) : hexValue? (Nat.digitChar n) = some n := by
  have all : ∀ m : Fin 16, hexValue? (Nat.digitChar m) = some m.val := by decide
  exact all ⟨n,h⟩

theorem codeAs_hexEscape {n : Nat} (h : n < 0x10000) : CodeAs n (hexEscape n) := by
  have hunit := CodeAs.unit (hexValue?_digitChar (n := n / 4096) (by omega))
    (hexValue?_digitChar (n := n / 256 % 16) (by omega))
    (hexValue?_digitChar (n := n / 16 % 16) (by omega))
    (hexValue?_digitChar (n := n % 16) (by omega))
  have hn : n / 4096 * 4096 + n / 256 % 16 * 256 + n / 16 % 16 * 16 + n % 16 = n := by omega
  rw [hn] at hunit
  exact hunit

/-- A character is no half of a surrogate pair. -/
theorem not_half (c : Char) : isHighHalf c.toNat = false ∧ isLowHalf c.toNat = false := by
  have h := c.valid
  simp only [UInt32.isValidChar,Nat.isValidChar] at h
  have hval : c.toNat = c.val.toNat := rfl
  simp only [isHighHalf,isLowHalf,Bool.and_eq_false_iff,decide_eq_false_iff_not]
  omega

theorem codeAs_spellCode (c : Char) : CodeAs c.toNat (spellCode c.toNat) := by
  unfold spellCode
  split_ifs with hq hb hbs ht hn hf hr hu
  · rw [hq]; exact .letter (by decide)
  · rw [hb]; exact .letter (by decide)
  · rw [hbs]; exact .letter (by decide)
  · rw [ht]; exact .letter (by decide)
  · rw [hn]; exact .letter (by decide)
  · rw [hf]; exact .letter (by decide)
  · rw [hr]; exact .letter (by decide)
  · simp only [not_half,Bool.or_false,decide_eq_true_eq] at hu
    exact codeAs_hexEscape (by omega)
  · simp only [not_half,Bool.or_false,decide_eq_true_eq] at hu
    rw [Char.ofNat_toNat]
    refine .plain (Nat.le_of_not_lt hu) ?_ ?_
    · intro hc
      exact hq (congrArg Char.toNat hc)
    · intro hc
      exact hb (congrArg Char.toNat hc)

theorem spelledAs_spell (s : List Char) : SpelledAs (s.map Char.toNat) (spell (s.map Char.toNat)) := by
  induction s with
  | nil => exact .nil
  | cons c s ih => exact .cons (codeAs_spellCode c) ih

theorem denotes_map_toNat (s : List Char) : Denotes (s.map Char.toNat) s := by
  induction s with
  | nil => exact .nil
  | cons c s ih =>
    have h := Denotes.single (not_half c).1 (not_half c).2 ih
    rwa [Char.ofNat_toNat] at h

end StringBody

/-- Tokens each of which is written as one of its spellings. -/
def Written (tokens : List Token) : Prop := ∀ t ∈ tokens, t.SpelledAs t.spell

theorem blank_nil : Blank [] := by
  intro c hc
  exact absurd hc (by simp)

theorem Written.spells {tokens : List Token} (h : Written tokens) :
    Spells (spellAll tokens) tokens := by
  induction tokens with
  | nil => exact .nil blank_nil
  | cons t tokens ih =>
    obtain ⟨ht,hrest⟩ := List.forall_mem_cons.1 h
    exact .cons blank_nil ht (ih hrest)

theorem written_nil : Written [] := by simp [Written]

theorem Written.cons {t : Token} {tokens : List Token} (ht : t.SpelledAs t.spell)
    (h : Written tokens) : Written (t :: tokens) := List.forall_mem_cons.2 ⟨ht,h⟩

theorem Written.append {tokens more : List Token} (h : Written tokens) (hm : Written more) :
    Written (tokens ++ more) := List.forall_mem_append.2 ⟨h,hm⟩

theorem written_followers {values : List (List Token)} (h : ∀ value ∈ values, Written value) :
    Written (followers values) := by
  induction values with
  | nil => exact written_nil
  | cons value values ih =>
    obtain ⟨hv,hvs⟩ := List.forall_mem_cons.1 h
    exact .cons .comma (hv.append (ih hvs))

theorem written_separated {values : List (List Token)} (h : ∀ value ∈ values, Written value) :
    Written (separated values) := by
  cases values with
  | nil => exact written_nil
  | cons value values =>
    obtain ⟨hv,hvs⟩ := List.forall_mem_cons.1 h
    rw [separated_cons]
    exact hv.append (written_followers hvs)

theorem written_ofText (s : List Char) : (Token.ofText s).SpelledAs (Token.ofText s).spell := by
  have h := Token.SpelledAs.string (StringBody.spelledAs_spell s)
  exact h

theorem spellAll_cons (t : Token) (tokens : List Token) :
    spellAll (t :: tokens) = t.spell ++ spellAll tokens := List.flatMap_cons

theorem spellAll_append (tokens more : List Token) :
    spellAll (tokens ++ more) = spellAll tokens ++ spellAll more := List.flatMap_append

theorem spellAll_singleton (t : Token) : spellAll [t] = t.spell := List.append_nil _

theorem spellAll_separated (values : List (List Token)) :
    spellAll (separated values) = [','].intercalate (values.map spellAll) := by
  induction values with
  | nil => rfl
  | cons value values ih =>
    cases values with
    | nil => simp only [separated,List.intercalate_singleton,List.map_cons,List.map_nil]
    | cons next values =>
      rw [separated_cons_cons,spellAll_append,spellAll_cons,ih,List.map_cons,List.map_cons,
        List.map_cons,List.intercalate_cons_cons,List.append_assoc]
      rfl

/-- A string between quotes, with each character as itself or by an escape of its own. -/
def QuotedText (s text : List Char) : Prop :=
  ∃ body, StringBody.SpelledAs (s.map Char.toNat) body ∧ text = '"' :: (body ++ ['"'])

theorem quotedText_spell (s : List Char) : QuotedText s (Token.ofText s).spell :=
  ⟨_,StringBody.spelledAs_spell s,rfl⟩

theorem spellAll_memberTokens (name : List Char) (value : List Token) :
    spellAll (memberTokens name value) = (Token.ofText name).spell ++ ':' :: spellAll value := rfl

theorem spellAll_objectTokens (members : List (List Token)) :
    spellAll (objectTokens members) =
      '\x7b' :: ([','].intercalate (members.map spellAll) ++ ['\x7d']) := by
  rw [objectTokens,spellAll_append,spellAll_cons,spellAll_separated,spellAll_singleton]
  rfl

namespace Value

def ofText (s : List Char) : Value := .string (s.map Char.toNat)

/-- The object with these members in their order. -/
def ofMembers (members : List (List Char × Value)) : Value :=
  .object (members.map fun m => (m.1.map Char.toNat,m.2))

@[simp] theorem tokens_ofText (s : List Char) : (ofText s).tokens = [Token.ofText s] := by
  rw [ofText,tokens,Token.ofText]

@[simp] theorem tokens_ofMembers (members : List (List Char × Value)) :
    (ofMembers members).tokens =
      objectTokens (members.map fun m => Json.memberTokens m.1 m.2.tokens) := by
  rw [ofMembers,tokens_object,List.map_map]
  rfl

theorem isString_ofText (s : List Char) : (ofText s).IsString s :=
  ⟨_,rfl,StringBody.denotes_map_toNat s⟩

theorem isObject_ofMembers (members : List (List Char × Value)) :
    (ofMembers members).IsObject members := by
  refine ⟨_,rfl,?_⟩
  rw [Named,List.forall₂_map_left_iff,List.forall₂_same]
  exact fun m _ => ⟨StringBody.denotes_map_toNat m.1,rfl⟩

theorem written_of_text (s : List Char) : Written (ofText s).tokens := by
  rw [tokens_ofText]
  exact .cons (written_ofText s) written_nil

theorem written_array {items : List Value} (h : ∀ v ∈ items, Written v.tokens) :
    Written (Value.array items).tokens := by
  rw [tokens_array,arrayTokens]
  have hitems := written_separated (List.forall_mem_map.2 h)
  exact .cons .openBracket (hitems.append (.cons .closeBracket written_nil))

theorem written_ofMembers {members : List (List Char × Value)}
    (h : ∀ m ∈ members, Written m.2.tokens) : Written (ofMembers members).tokens := by
  rw [tokens_ofMembers,objectTokens]
  have hmember : ∀ m ∈ members, Written (Json.memberTokens m.1 m.2.tokens) :=
    fun m hm => .cons (written_ofText m.1) (.cons .colon (h m hm))
  have hmembers := written_separated (List.forall_mem_map.2 hmember)
  exact .cons .openBrace (hmembers.append (.cons .closeBrace written_nil))

end Value

end LSystem.Json
