import LSystem.Json.Record
import LSystem.Proofs.Json.Numerals
import LSystem.Proofs.Json.Writing

/-!
# Doubles handed over

When a reader is given what was written of a value, it comes upon the doubles of the value one after
another. One that is not finite was written as `null` and is refused, and of the others it has what
their numerals evaluate to. `Reader.HandsOver` says this of a reader and a written value. It goes
from the parts of a reader to the whole, and from there to the text (`HandsOver.ofText`).
-/
namespace LSystem.Json

open Number

variable {α β σ δ : Type}

/-- What is read of a value that has the given doubles in it. -/
def handBack (floats : List Float) (a : α) : Except Fault α :=
  if floats.all isFinite then .ok a else .error (.wrongType .null .number)

theorem handBack_of_finite {floats : List Float} (h : floats.all isFinite = true) (a : α) :
    handBack floats a = .ok a := if_pos h

theorem handBack_of_not_finite {floats : List Float} (h : ¬floats.all isFinite = true) (a : α) :
    handBack floats a = .error (.wrongType .null .number) := if_neg h

theorem handBack_map (floats : List Float) (a : α) (f : α → β) :
    (handBack floats a).map f = handBack floats (f a) := by
  unfold handBack
  split <;> rfl

/-- Reading goes on to what comes next only if the doubles so far are finite. -/
theorem handBack_bind {floats more : List Float} {a : α} {b : β} {f : α → Except Fault β}
    (h : f a = handBack more b) : (handBack floats a).bind f = handBack (floats ++ more) b := by
  by_cases hfin : floats.all isFinite = true
  · rw [handBack_of_finite hfin,Except.bind,h,handBack,handBack,List.all_append,hfin,Bool.true_and]
  · have hmore : ¬(floats ++ more).all isFinite = true := by
      rw [List.all_append,Bool.and_eq_true]
      exact fun hboth => hfin hboth.1
    rw [handBack_of_not_finite hfin,handBack_of_not_finite hmore,Except.bind]

/-- What comes next has no doubles of its own. -/
theorem handBack_bind_ok {floats : List Float} {a : α} {b : β} {f : α → Except Fault β}
    (h : f a = .ok b) : (handBack floats a).bind f = handBack floats b := by
  have hbind := @handBack_bind _ _ floats [] a b f (h.trans (handBack_of_finite rfl b).symm)
  rwa [List.append_nil] at hbind

/-- A double as a number, or as `null`. -/
def Value.ofFloat (x : Float) : Value :=
  if isFinite x then .number (Numeral.ofFinite x) else .null

theorem Value.tokens_ofFloat (x : Float) : (ofFloat x).tokens = [Token.ofFloat x] := by
  unfold ofFloat Token.ofFloat
  split <;> rfl

theorem Value.written_ofFloat (x : Float) : Written (ofFloat x).tokens := by
  rw [tokens_ofFloat]
  apply Written.cons _ written_nil
  unfold Token.ofFloat
  split
  · exact .number (Numeral.spelledAs_layOut _ _ _)
  · exact .null

namespace Reader

def HandsOver (r : Reader α) (v : Value) (floats : List Float) (a : α) : Prop :=
  ∀ rest, r.run (v.tokens ++ rest) = handBack floats (a,rest)

theorem HandsOver.map {r : Reader α} {v : Value} {floats : List Float} {a : α}
    (h : r.HandsOver v floats a) (f : α → β) : (r.map f).HandsOver v floats (f a) := by
  intro rest
  simp only [Reader.map,h rest]
  exact handBack_map floats (a,rest) _

/-- A check that accepts the value that is handed back. -/
theorem HandsOver.check {r : Reader α} {v : Value} {floats : List Float} {a : α} {b : β}
    (h : r.HandsOver v floats a) {f : α → Except Fault β} (hf : f a = .ok b) :
    (r.check f).HandsOver v floats b := by
  intro rest
  rw [check_run,h]
  apply handBack_bind_ok
  rw [hf]
  rfl

theorem number_handsOver (x : Float) :
    number.HandsOver (.ofFloat x) [x] (Numeral.reread x) := by
  intro rest
  by_cases hx : isFinite x = true
  · have hread := Numeral.toFloat?_ofFinite hx
    rw [handBack_of_finite (by simp [hx]),Value.ofFloat,if_pos hx]
    simp only [number,token,Value.tokens,List.singleton_append,hread]
  · rw [handBack_of_not_finite (by simpa using hx),Value.ofFloat,if_neg hx]
    rfl

section

variable {item : Reader α} {value : β → Value} {floats : β → List Float} {back : β → α}
  {l : List β} (h : ∀ b ∈ l, item.HandsOver (value b) (floats b) (back b))

include h

theorem elements_handBack (hne : l ≠ []) (rest : List Token) :
    elements item (separated (l.map fun b => (value b).tokens) ++ .closeBracket :: rest) =
      handBack (l.flatMap floats) (l.map back,rest) := by
  induction l with
  | nil => exact absurd rfl hne
  | cons b l ih =>
    obtain ⟨hb,hl⟩ := List.forall_mem_cons.1 h
    cases l with
    | nil =>
      rw [List.map_singleton,separated,List.intercalate_singleton,elements_eq_bind,hb]
      exact handBack_bind rfl
    | cons c l =>
      have hmore := ih hl (by simp)
      rw [List.map_cons,List.map_cons,separated_cons_cons,List.append_assoc,List.cons_append,
        elements_eq_bind,hb]
      apply handBack_bind
      rw [List.map_cons] at hmore
      simp only [hmore]
      exact handBack_map _ _ _

theorem array_handsOver :
    (array item).HandsOver (.array (l.map value)) (l.flatMap floats) (l.map back) := by
  intro rest
  rw [Value.tokens_array,arrayTokens_append,List.map_map]
  cases l with
  | nil => rfl
  | cons b l =>
    have helements := elements_handBack h (by simp) rest
    obtain ⟨t,more,ht,hne,_⟩ := (value b).tokens_head
    simp only [List.map_cons,Function.comp_apply,separated_cons,ht,List.cons_append] at helements ⊢
    rw [array_run item hne]
    exact helements

end

/-- Items that fill slots from the first one on. -/
inductive Fills : List (Reader (σ → σ)) → σ → List Value → List Float → σ → Prop
  | nil {readers : List (Reader (σ → σ))} {s : σ} : Fills readers s [] [] s
  | cons {r : Reader (σ → σ)} {readers : List (Reader (σ → σ))} {s t : σ} {set : σ → σ} {v : Value}
      {items : List Value} {floats more : List Float} (hv : r.HandsOver v floats set)
      (h : Fills readers (set s) items more t) :
      Fills (r :: readers) s (v :: items) (floats ++ more) t

theorem slots_handBack {readers : List (Reader (σ → σ))} {s t : σ} {items : List Value}
    {floats : List Float} (h : Fills readers s items floats t) (hne : items ≠ [])
    (rest : List Token) :
    slots readers s (separated (items.map Value.tokens) ++ .closeBracket :: rest) =
      handBack floats (t,rest) := by
  induction h with
  | nil => exact absurd rfl hne
  | @cons r readers s t set v items floats more hv h ih =>
    cases items with
    | nil =>
      cases h
      rw [List.map_singleton,separated,List.intercalate_singleton,slots_eq_bind,hv]
      exact handBack_bind rfl
    | cons w items =>
      have hmore := ih (by simp)
      rw [List.map_cons,List.map_cons,separated_cons_cons,List.append_assoc,List.cons_append,
        slots_eq_bind,hv]
      exact handBack_bind hmore

theorem tuple_handsOver {readers : List (Reader (σ → σ))} {s t : σ} {items : List Value}
    {floats : List Float} (h : Fills readers s items floats t) (expected : Expected) :
    (tuple expected readers s).HandsOver (.array items) floats t := by
  intro rest
  rw [Value.tokens_array,arrayTokens_append]
  cases items with
  | nil =>
    cases h
    rfl
  | cons v items =>
    have hslots := slots_handBack h (by simp) rest
    obtain ⟨u,more,hu,hne,_⟩ := v.tokens_head
    simp only [List.map_cons,separated_cons,hu,List.cons_append] at hslots ⊢
    rw [tuple_run expected readers s hne,hslots]

/-- Members that are gathered one after another. -/
inductive Gathers (select : σ → List Char → Except Fault (Reader σ)) :
    σ → List (List Char × Value) → List Float → σ → Prop
  | nil {s : σ} : Gathers select s [] [] s
  | cons {s t u : σ} {key : List Char} {r : Reader σ} {v : Value}
      {members : List (List Char × Value)} {floats more : List Float}
      (hselect : select s key = .ok r) (hv : r.HandsOver v floats t)
      (h : Gathers select t members more u) :
      Gathers select s ((key,v) :: members) (floats ++ more) u

theorem member_handBack {select : List Char → Except Fault (Reader α)} {key : List Char}
    {r : Reader α} {v : Value} {floats : List Float} {a : α} (hselect : select key = .ok r)
    (hv : r.HandsOver v floats a) (rest : List Token) :
    (member select).run (Json.memberTokens key v.tokens ++ rest) = handBack floats (a,rest) := by
  have hkey := StringBody.scalars?_eq_some_iff.2 (StringBody.denotes_map_toNat key)
  simp only [member,Json.memberTokens,Token.ofText,List.cons_append,hkey,hselect,hv rest]

section

variable {select : σ → List Char → Except Fault (Reader σ)} {s t : σ}
  {written : List (List Char × Value)} {floats : List Float}

theorem members_handBack (h : Gathers select s written floats t) (hne : written ≠ [])
    (rest : List Token) :
    members select s (separated (written.map fun m => Json.memberTokens m.1 m.2.tokens) ++
      .closeBrace :: rest) = handBack floats (t,rest) := by
  induction h with
  | nil => exact absurd rfl hne
  | @cons s t u key r v written floats more hselect hv h ih =>
    cases written with
    | nil =>
      cases h
      rw [List.map_singleton,separated,List.intercalate_singleton,members_eq_bind,
        member_handBack hselect hv]
      exact handBack_bind rfl
    | cons m written =>
      have hmore := ih (by simp)
      rw [List.map_cons,List.map_cons,separated_cons_cons,List.append_assoc,List.cons_append,
        members_eq_bind,member_handBack hselect hv]
      exact handBack_bind hmore

theorem object_handsOver (h : Gathers select s written floats t) (expected : Expected) :
    (object expected select s).HandsOver (.ofMembers written) floats t := by
  intro rest
  rw [Value.tokens_ofMembers,objectTokens_append]
  cases written with
  | nil =>
    cases h
    rfl
  | cons m written =>
    have hmembers := members_handBack h (by simp) rest
    rw [List.map_cons,separated_cons,Json.memberTokens] at hmembers ⊢
    exact hmembers

end

/-- A reader that hands a written value over does so for its text. -/
theorem HandsOver.ofText {r : Reader α} {v : Value} {floats : List Float} {a : α}
    (h : r.HandsOver v floats a) (hw : Written v.tokens) :
    r.ofText (spellAll v.tokens) = handBack floats a := by
  have hscan := Scan.ofText_of_spells hw.spells v.separate_tokens
  have hrun := h []
  rw [List.append_nil] at hrun
  simp only [Reader.ofText,hscan,hrun]
  by_cases hfin : floats.all isFinite = true
  · rw [handBack_of_finite hfin,handBack_of_finite hfin]
    rfl
  · rw [handBack_of_not_finite hfin,handBack_of_not_finite hfin]

end Reader

/-- A member that sets its field. -/
theorem Record.gathers_cons (r : Record δ α) (d : δ) (key : List Char) {field : Reader (δ → δ)}
    {set : δ → δ} {v : Value} {written : List (List Char × Value)} {floats more : List Float} {e : δ}
    (hselect : r.select d key = .ok (field.map fun set => set d))
    (hv : field.HandsOver v floats set) (h : Reader.Gathers r.select (set d) written more e) :
    Reader.Gathers r.select d ((key,v) :: written) (floats ++ more) e :=
  .cons hselect (hv.map fun set => set d) h

/-- A record whose written members are gathered into a draft that is complete. -/
theorem Record.handsOver {r : Record δ α} {written : List (List Char × Value)}
    {floats : List Float} {d : δ} {a : α} (h : Reader.Gathers r.select r.blank written floats d)
    (hb : r.build .keyed d = .ok a) : r.reader.HandsOver (.ofMembers written) floats a := by
  have hkeyed := (Reader.object_handsOver h r.shape).map (Form.keyed,·)
  have hdraft : r.draft.HandsOver (.ofMembers written) floats (Form.keyed,d) := by
    intro rest
    have hrun := hkeyed rest
    rw [Value.tokens_ofMembers,objectTokens_append] at hrun ⊢
    exact hrun
  exact hdraft.check hb

/-- How a value is written and read, and the doubles in it in the order in which they are written. -/
structure Codec (α : Type) where
  reader : Reader α
  tokens : α → List Token
  value : α → Value
  floats : α → List Float
  mapFloats : (Float → Float) → α → α

namespace Codec

structure Lawful (c : Codec α) : Prop where
  tokens_value : ∀ a, (c.value a).tokens = c.tokens a
  written : ∀ a, Written (c.value a).tokens
  handsOver : ∀ a, c.reader.HandsOver (c.value a) (c.floats a) (c.mapFloats Numeral.reread a)
  mapFloats_eq_self : ∀ f a, c.mapFloats f a = a ↔ ∀ x ∈ c.floats a, f x = x

def array (c : Codec α) : Codec (List α) where
  reader := Reader.array c.reader
  tokens l := arrayTokens (l.map c.tokens)
  value l := .array (l.map c.value)
  floats l := l.flatMap c.floats
  mapFloats f l := l.map (c.mapFloats f)

theorem Lawful.array {c : Codec α} (h : c.Lawful) : c.array.Lawful where
  tokens_value l := by
    simp only [Codec.array,Value.tokens_array,List.map_map]
    exact congrArg arrayTokens (List.map_congr_left fun a _ => h.tokens_value a)
  written l := Value.written_array (List.forall_mem_map.2 fun a _ => h.written a)
  handsOver l := Reader.array_handsOver fun a _ => h.handsOver a
  mapFloats_eq_self f l := by
    have hmap := List.map_eq_map_iff (f := c.mapFloats f) (g := id) (l := l)
    rw [List.map_id] at hmap
    simp only [Codec.array,hmap,h.mapFloats_eq_self,id_eq,List.mem_flatMap]
    constructor
    · intro hall x hx
      obtain ⟨a,ha,hxa⟩ := hx
      exact hall a ha x hxa
    · intro hall a ha x hx
      exact hall x ⟨a,ha,hx⟩

/-- What becomes of a value that is written and read again. -/
structure HandedOver (c : Codec α) (a : α) : Prop where
  /-- Its text is a text of JSON. -/
  isJson : ∃ v : Value, Spells (spellAll (c.tokens a)) v.tokens
  ofFinite : (∀ x ∈ c.floats a, isFinite x = true) →
    c.reader.ofText (spellAll (c.tokens a)) = .ok (c.mapFloats Numeral.reread a)
  ofNotFinite : (∃ x ∈ c.floats a, isFinite x = false) →
    ∃ fault, c.reader.ofText (spellAll (c.tokens a)) = .error fault ∧
      fault.message? = some "invalid type: null, expected f64"
  lossless_iff : c.reader.ofText (spellAll (c.tokens a)) = .ok a ↔
    ∀ x ∈ c.floats a, isFinite x = true ∧ Numeral.reread x = x

theorem Lawful.handedOver {c : Codec α} (h : c.Lawful) (a : α) : c.HandedOver a := by
  have hread := (h.handsOver a).ofText (h.written a)
  have hspells := (h.written a).spells
  rw [h.tokens_value] at hread hspells
  have hall : (c.floats a).all isFinite = true ↔ ∀ x ∈ c.floats a, isFinite x = true :=
    List.all_eq_true
  constructor
  · exact ⟨c.value a,by rwa [h.tokens_value]⟩
  · intro hfin
    rw [hread,handBack_of_finite (hall.2 hfin)]
  · intro hx
    rcases hx with ⟨x,hmem,hx⟩
    refine ⟨.wrongType .null .number,?_,rfl⟩
    rw [hread,handBack_of_not_finite]
    intro hfin
    exact Bool.false_ne_true (hx.symm.trans (hall.1 hfin x hmem))
  · rw [hread]
    by_cases hfin : (c.floats a).all isFinite = true
    · rw [handBack_of_finite hfin,Except.ok.injEq,h.mapFloats_eq_self]
      exact ⟨fun hr x hx => ⟨hall.1 hfin x hx,hr x hx⟩,fun hr x hx => (hr x hx).2⟩
    · rw [handBack_of_not_finite hfin]
      constructor
      · intro herror
        exact absurd herror (by simp)
      · intro hr
        exact absurd (hall.2 fun x hx => (hr x hx).1) hfin

end Codec

end LSystem.Json
