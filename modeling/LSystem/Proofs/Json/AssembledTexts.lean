import LSystem.Proofs.Json.Reading

/-!
# Texts put together

The text of an array or an object is put together from the texts of its parts, with commas between
them. Blanks around a part belong to its text, and a name may be spelled in any way that stands for
it. What the whole spells follows from what the parts spell (`ArrayText.spells`,
`ObjectText.spells`).
-/
namespace LSystem.Json

theorem Spells.blanks {blanks text : List Char} {tokens : List Token} (hb : Blank blanks)
    (h : Spells text tokens) : Spells (blanks ++ text) tokens := by
  induction blanks with
  | nil => exact h
  | cons c blanks ih =>
    obtain ⟨hc,hblanks⟩ := List.forall_mem_cons.1 hb
    exact (ih hblanks).blank hc

theorem Spells.append {text more : List Char} {tokens others : List Token} (h : Spells text tokens)
    (hm : Spells more others) : Spells (text ++ more) (tokens ++ others) := by
  induction h with
  | nil hb => exact hm.blanks hb
  | cons hb ht _ ih =>
    rw [List.append_assoc,List.append_assoc]
    exact .cons hb ht ih

theorem Token.SpelledAs.spells {t : Token} {s : List Char} (h : t.SpelledAs s) : Spells s [t] := by
  have hnil : Blank [] := by simp [Blank]
  have hs := Spells.cons hnil h (.nil hnil)
  rwa [List.nil_append,List.append_nil] at hs

theorem spells_intercalate {texts : List (List Char)} {values : List (List Token)}
    (h : List.Forall₂ Spells texts values) : Spells ([','].intercalate texts) (separated values) := by
  induction h with
  | nil => exact .nil (by simp [Blank])
  | @cons text value texts values ht hs ih =>
    cases hs with
    | nil =>
      rw [List.intercalate_singleton,separated,List.intercalate_singleton]
      exact ht
    | cons _ _ =>
      rw [List.intercalate_cons_cons,separated_cons_cons,List.append_assoc]
      exact ht.append (Token.SpelledAs.comma.spells.append ih)

/-- A text that holds one value and nothing else. -/
def IsJson (text : List Char) : Prop := ∃ v : Value, Spells text v.tokens

theorem isJson_iff {text : List Char} : IsJson text ↔ Reader.skip.ofText text = .ok () := by
  rw [Reader.skip_exact.ofText_eq_ok_iff]
  simp only [IsJson,true_and]

/-- A string in some spelling. -/
def StringText (s text : List Char) : Prop := ∃ v : Value, v.IsString s ∧ Spells text v.tokens

theorem stringText_iff {s text : List Char} :
    StringText s text ↔ Reader.string.ofText text = .ok s := Reader.string_exact.ofText_eq_ok_iff.symm

/-- Parts with commas between them and a sign on either side. -/
inductive EnclosedText (opening closing : Char) (parts : List (List Char)) : List Char → Prop
  | mk {before inside after : List Char} (hb : Blank before) (hi : Blank inside)
      (ha : Blank after) : EnclosedText opening closing parts
        (before ++ opening :: (inside ++ ([','].intercalate parts ++ closing :: after)))

theorem EnclosedText.spells {opening closing : Char} {parts : List (List Char)} {text : List Char}
    {t u : Token} {values : List (List Token)} (h : EnclosedText opening closing parts text)
    (ht : t.SpelledAs [opening]) (hu : u.SpelledAs [closing])
    (hp : List.Forall₂ Spells parts values) : Spells text (t :: separated values ++ [u]) := by
  rcases h with ⟨hb,hi,ha⟩
  have hend := hu.spells.append (.nil ha)
  have hbody := ((spells_intercalate hp).append hend).blanks hi
  exact (ht.spells.append hbody).blanks hb

/-- Without blanks around the signs. -/
theorem EnclosedText.plain {opening closing : Char} {parts : List (List Char)} {text : List Char}
    (h : text = opening :: ([','].intercalate parts ++ [closing])) :
    EnclosedText opening closing parts text := by
  have hblank : Blank [] := by simp [Blank]
  subst h
  exact .mk hblank hblank hblank

abbrev ArrayText (items : List (List Char)) : List Char → Prop := EnclosedText '[' ']' items

/-- A member as it stands in the text of an object, by the characters of its name. -/
structure MemberText where
  name : List Char
  key : List Char
  value : List Char
  named : StringText name key

def MemberText.text (m : MemberText) : List Char := m.key ++ ':' :: m.value

abbrev ObjectText (members : List MemberText) : List Char → Prop :=
  EnclosedText '\x7b' '\x7d' (members.map MemberText.text)

theorem ArrayText.spells {items : List (List Char)} {values : List Value} {text : List Char}
    (h : ArrayText items text) (hv : List.Forall₂ (fun s v => Spells s v.tokens) items values) :
    Spells text (Value.array values).tokens := by
  rw [Value.tokens_array]
  exact EnclosedText.spells h .openBracket .closeBracket (List.forall₂_map_right_iff.2 hv)

/-- The names are those of the members, in any spelling, and each value is that of its text. -/
theorem ObjectText.spells {members : List MemberText} {named : List (List Char × Value)}
    {text : List Char} (h : ObjectText members text)
    (hn : List.Forall₂ (fun m n => m.name = n.1 ∧ Spells m.value n.2.tokens) members named) :
    ∃ v : Value, v.IsObject named ∧ Spells text v.tokens := by
  have hraw : ∃ raw, Value.Named raw named ∧
      List.Forall₂ Spells (members.map MemberText.text) (raw.map Value.memberTokens) := by
    clear h
    induction hn with
    | nil => exact ⟨[],.nil,.nil⟩
    | @cons m n members named hm _ ih =>
      obtain ⟨raw,hraw,hspells⟩ := ih
      obtain ⟨_,⟨codes,rfl,hcodes⟩,hkey⟩ := m.named
      refine ⟨(codes,n.2) :: raw,.cons ⟨hm.1 ▸ hcodes,rfl⟩ hraw,.cons ?_ hspells⟩
      exact hkey.append (Token.SpelledAs.colon.spells.append hm.2)
  obtain ⟨raw,hraw,hspells⟩ := hraw
  refine ⟨.object raw,⟨raw,rfl,hraw⟩,?_⟩
  rw [Value.tokens_object]
  exact EnclosedText.spells h .openBrace .closeBrace hspells

end LSystem.Json
