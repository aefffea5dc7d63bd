import LSystem.Proofs.Json.AssembledTexts
import LSystem.Proofs.Json.Records
import Mathlib.Data.List.Pairwise
import Mathlib.Data.List.Perm.Basic

/-!
# The two forms of a record

When each field of a record sets a part of the draft of its own, the draft does not depend on the order
in which the fields come. So an object and an array with the same texts for the first fields of the
record are read as the same value, wherever the members for them stand in the object and whatever
unknown members stand between them (`Record.Orderly.formsAgree`).
-/
namespace LSystem.Json

variable {α δ : Type}

/-- Two fields that set different parts of a draft. -/
structure Field.Apart (f g : Field δ) : Prop where
  name : f.name ≠ g.name
  left : ∀ v set, g.reader.Takes v set → ∀ d, f.isSet (set d) = f.isSet d
  right : ∀ v set, f.reader.Takes v set → ∀ d, g.isSet (set d) = g.isSet d
  commute : ∀ v w s t, f.reader.Takes v s → g.reader.Takes w t → ∀ d, s (t d) = t (s d)

theorem Field.Apart.symm {f g : Field δ} (h : f.Apart g) : g.Apart f where
  name := h.name.symm
  left := h.right
  right := h.left
  commute v w s t hs ht d := (h.commute w v t s ht hs d).symm

instance : Std.Symm (Field.Apart (δ := δ)) := ⟨fun _ _ h => h.symm⟩

/-- Fields that put what they read into different places. -/
theorem Field.apart_of_put {β γ : Type} {m n : List Char} {p q : δ → Bool} {r : Reader β}
    {s : Reader γ} {put : β → δ → δ} {place : γ → δ → δ} (hn : m ≠ n)
    (hp : ∀ b d, p (place b d) = p d) (hq : ∀ a d, q (put a d) = q d)
    (hc : ∀ a b d, put a (place b d) = place b (put a d)) :
    Field.Apart ⟨m,p,r.map put⟩ ⟨n,q,s.map place⟩ where
  name := hn
  left v set ht d := by
    obtain ⟨b,_,rfl⟩ := Reader.takes_map_iff.1 ht
    exact hp b d
  right v set ht d := by
    obtain ⟨a,_,rfl⟩ := Reader.takes_map_iff.1 ht
    exact hq a d
  commute v w _ _ hs ht d := by
    obtain ⟨a,_,rfl⟩ := Reader.takes_map_iff.1 hs
    obtain ⟨b,_,rfl⟩ := Reader.takes_map_iff.1 ht
    exact hc a b d

namespace Record

/-- The fields are exact, none is set at first, and each sets a part of its own. -/
structure Orderly (r : Record δ α) : Prop where
  exact : ∀ f ∈ r.fields, f.reader.Exact f.reader.Takes
  unset : ∀ f ∈ r.fields, f.isSet r.blank = false
  apart : r.fields.Pairwise Field.Apart

variable (r : Record δ α)

/-- What a value sets as the field of the given name. -/
def Sets (name : List Char) (v : Value) (set : δ → δ) : Prop :=
  ∃ f ∈ r.fields, f.name = name ∧ f.reader.Takes v set

/-- No field has the name. -/
def Unknown (name : List Char) : Prop := ∀ f ∈ r.fields, f.name ≠ name

/-- A member and what it does to a draft. -/
structure Entry (δ : Type) where
  name : List Char
  value : Value
  set : δ → δ

def Entry.member (e : Entry δ) : List Char × Value := (e.name,e.value)

/-- The entry is for a field, or it is unknown and does nothing. -/
def Admits (e : Entry δ) : Prop :=
  r.Sets e.name e.value e.set ∨ r.Unknown e.name ∧ e.set = id

/-- Two entries that are not for one field. -/
def Differ (e e' : Entry δ) : Prop := e.name = e'.name → r.Unknown e.name

instance : Std.Symm r.Differ := ⟨fun _ _ h heq => heq ▸ h heq.symm⟩

/-- The draft once the entries have come one after another. -/
def gathered (entries : List (Entry δ)) (d : δ) : δ := entries.foldl (fun d e => e.set d) d

variable {r}

namespace Orderly

variable (h : r.Orderly)

include h

theorem eq_of_name {f g : Field δ} (hf : f ∈ r.fields) (hg : g ∈ r.fields)
    (hn : f.name = g.name) : f = g := by
  by_contra hne
  exact (h.apart.forall hf hg hne).name hn

theorem fields_exact : ∀ f ∈ r.fields, f.reader.Exact (r.Sets f.name) := by
  intro f hf
  apply (h.exact f hf).congr
  intro v set
  constructor
  · intro ht
    exact ⟨f,hf,rfl,ht⟩
  · intro hx
    rcases hx with ⟨g,hg,hname,ht⟩
    rwa [h.eq_of_name hg hf hname] at ht

theorem reader_exact :
    r.reader.Exact fun v a => ∃ d, r.Drafts r.Sets v d ∧ r.build d.1 d.2 = .ok a :=
  Record.reader_exact h.fields_exact

theorem find?_eq_some {f : Field δ} {name : List Char} (hf : f ∈ r.fields) (hn : f.name = name) :
    (r.fields.find? fun f => f.name = name) = some f := by
  cases hfind : r.fields.find? fun f => f.name = name with
  | none => exact absurd hn (by simpa using List.find?_eq_none.1 hfind f hf)
  | some g =>
    have hg : g.name = name := by simpa using List.find?_some hfind
    rw [h.eq_of_name (List.mem_of_find?_eq_some hfind) hf (hg.trans hn.symm)]

/-- An entry sets no field of another name. -/
theorem isSet_set {e : Entry δ} (he : r.Admits e) {f : Field δ} (hf : f ∈ r.fields)
    (hn : f.name ≠ e.name) (d : δ) : f.isSet (e.set d) = f.isSet d := by
  rcases he with ⟨g,hg,hname,ht⟩ | ⟨_,hset⟩
  · have hne : f ≠ g := by
      intro heq
      subst heq
      exact hn hname
    exact (h.apart.forall hf hg hne).left _ _ ht d
  · rw [hset,id_eq]

theorem set_comm {e e' : Entry δ} (he : r.Admits e) (he' : r.Admits e')
    (hd : e ≠ e' → r.Differ e e') (d : δ) : e'.set (e.set d) = e.set (e'.set d) := by
  by_cases heq : e = e'
  · rw [heq]
  · rcases he with ⟨f,hf,hname,hs⟩ | ⟨_,hset⟩
    · rcases he' with ⟨g,hg,hname',ht⟩ | ⟨_,hset⟩
      · have hne : f ≠ g := by
          intro hfg
          subst hfg
          exact hd heq (hname.symm.trans hname') f hf hname
        exact ((h.apart.forall hf hg hne).commute _ _ _ _ hs ht d).symm
      · rw [hset,id_eq,id_eq]
    · rw [hset,id_eq,id_eq]

theorem gathered_of_perm {entries others : List (Entry δ)} (hp : entries.Perm others)
    (ha : ∀ e ∈ entries, r.Admits e) (hd : entries.Pairwise r.Differ) (d : δ) :
    gathered entries d = gathered others d := by
  apply hp.foldl_eq'
  intro e he e' he' d
  exact h.set_comm (ha e he) (ha e' he') (hd.forall he he') d

/-- Entries for different fields that are not set yet are gathered one after another. -/
theorem steps {entries : List (Entry δ)} (ha : ∀ e ∈ entries, r.Admits e)
    (hd : entries.Pairwise r.Differ) {d : δ}
    (hu : ∀ e ∈ entries, ∀ f ∈ r.fields, f.name = e.name → f.isSet d = false) :
    Reader.Steps (r.Gathers r.Sets) d (entries.map Entry.member) (gathered entries d) := by
  induction entries generalizing d with
  | nil => exact .nil
  | cons e entries ih =>
    obtain ⟨he,ha⟩ := List.forall_mem_cons.1 ha
    obtain ⟨hfirst,hd⟩ := List.pairwise_cons.1 hd
    obtain ⟨hue,hu⟩ := List.forall_mem_cons.1 hu
    refine .cons (t := e.set d) ?_ (ih ha hd ?_)
    · rcases he with ⟨f,hf,hname,ht⟩ | ⟨hn,hset⟩
      · rw [Gathers,h.find?_eq_some hf hname]
        exact ⟨hue f hf hname,e.set,⟨f,hf,hname,ht⟩,rfl⟩
      · have hfind : (r.fields.find? fun f => f.name = e.name) = none :=
          List.find?_eq_none.2 fun f hf => by simpa using hn f hf
        rw [Gathers,hfind,hset]
        rfl
    · intro e' he' f hf hname
      rw [h.isSet_set he hf _ d]
      · exact hu e' he' f hf hname
      · intro heq
        exact hfirst e' he' (heq.symm.trans hname) f hf heq

end Orderly

/-- A field with a text for it, and what the text sets. -/
structure FieldText (r : Record δ α) where
  field : Field δ
  mem : field ∈ r.fields
  text : List Char
  set : δ → δ
  reads : field.reader.ofText text = .ok set

/-- The text of a field that puts what it reads into its place. -/
def FieldText.ofPut {β : Type} {name : List Char} {isSet : δ → Bool} {s : Reader β}
    {put : β → δ → δ} (mem : ⟨name,isSet,s.map put⟩ ∈ r.fields) {text : List Char} {b : β}
    (h : s.ofText text = .ok b) : FieldText r :=
  ⟨⟨name,isSet,s.map put⟩,mem,text,put b,Reader.ofText_map h put⟩

/-- A member in the text of an object that has the name and the value of an entry. -/
def SpelledAs (m : MemberText) (e : Entry δ) : Prop :=
  m.name = e.name ∧ Spells m.value e.value.tokens

/-- The draft with the given fields and no others. -/
def draftOf (given : List (FieldText r)) : δ := given.foldl (fun d x => x.set d) r.blank

/-- The given names with the texts of their values make the same record in an array, in their order,
and in an object, in any order and with any unknown members anywhere. -/
structure FormsAgree (r : Record δ α) (given : List (List Char × List Char)) (a : α) : Prop where
  positional : ∀ text, ArrayText (given.map Prod.snd) text → r.reader.ofText text = .ok a
  keyed : ∀ known unknown members text, (known.map fun m => (m.name,m.value)) = given →
    (∀ m ∈ unknown, r.Unknown m.name ∧ IsJson m.value) → members.Perm (known ++ unknown) →
      ObjectText members text → r.reader.ofText text = .ok a

theorem slots_of_isPrefix {value : FieldText r → Value}
    (hv : ∀ x, r.Sets x.field.name (value x) x.set) {given : List (FieldText r)}
    {fields : List (Field δ)} (hl : given.map FieldText.field <+: fields) (d : δ) :
    Reader.Slots (fields.map fun f => r.Sets f.name) d (given.map value)
      (given.foldl (fun d x => x.set d) d) := by
  induction given generalizing fields d with
  | nil => exact .nil
  | cons x given ih =>
    obtain ⟨rest,rfl⟩ := hl
    exact .cons (hv x) (ih ⟨rest,rfl⟩ _)

namespace Orderly

variable (h : r.Orderly)

include h

theorem exists_value (x : FieldText r) :
    ∃ v : Value, r.Sets x.field.name v x.set ∧ Spells x.text v.tokens := by
  obtain ⟨v,ht,hs⟩ := (h.exact x.field x.mem).ofText_eq_ok_iff.1 x.reads
  exact ⟨v,⟨x.field,x.mem,rfl,ht⟩,hs⟩

/-- The entries of members that stand in the order of the fields, with the unknown ones at the end. -/
theorem exists_entries {given : List (FieldText r)}
    (hl : given.map FieldText.field <+: r.fields) {known unknown : List MemberText}
    (hknown : (known.map fun m => (m.name,m.value)) = given.map fun x => (x.field.name,x.text))
    (hunknown : ∀ m ∈ unknown, r.Unknown m.name ∧ IsJson m.value) :
    ∃ entries, List.Forall₂ SpelledAs (known ++ unknown) entries ∧
      (∀ e ∈ entries, r.Admits e) ∧ entries.Pairwise r.Differ ∧
        gathered entries r.blank = draftOf given := by
  have hinhabited : Nonempty Value := ⟨.null⟩
  choose value hsets hspells using h.exists_value
  choose! other hother using fun m hm => (hunknown m hm).2
  refine ⟨given.map (fun x => ⟨x.field.name,value x,x.set⟩) ++
    unknown.map (fun m => ⟨m.name,other m,id⟩),?_,?_,?_,?_⟩
  · apply List.rel_append
    · have heq : List.Forall₂ (· = ·) (known.map fun m => (m.name,m.value))
          (given.map fun x => (x.field.name,x.text)) := by
        rw [hknown,List.forall₂_same]
        exact fun _ _ => rfl
      rw [List.forall₂_map_left_iff,List.forall₂_map_right_iff] at heq
      rw [List.forall₂_map_right_iff]
      apply heq.imp
      intro m x hmx
      obtain ⟨hname,htext⟩ := Prod.mk.inj hmx
      exact ⟨hname,htext ▸ hspells x⟩
    · rw [List.forall₂_map_right_iff,List.forall₂_same]
      exact fun m hm => ⟨rfl,hother m hm⟩
  · rw [List.forall_mem_append]
    constructor
    · exact List.forall_mem_map.2 fun x _ => .inl (hsets x)
    · exact List.forall_mem_map.2 fun m hm => .inr ⟨(hunknown m hm).1,rfl⟩
  · have hfields : given.Pairwise fun x y => x.field.Apart y.field :=
      List.pairwise_map.1 (h.apart.sublist hl.sublist)
    rw [List.pairwise_append,List.pairwise_map,List.pairwise_map]
    refine ⟨hfields.imp fun hxy heq => absurd heq hxy.name,?_,?_⟩
    · exact List.pairwise_of_forall_mem_list fun m hm _ _ _ => (hunknown m hm).1
    · intro e he e' he' heq
      obtain ⟨m,hm,rfl⟩ := List.mem_map.1 he'
      rw [heq]
      exact (hunknown m hm).1
  · rw [gathered,List.foldl_append,List.foldl_map,List.foldl_map]
    exact List.foldl_fixed unknown

theorem formsAgree (given : List (FieldText r)) {a : α}
    (hl : given.map FieldText.field <+: r.fields)
    (hb : ∀ form, r.build form (draftOf given) = .ok a) :
    r.FormsAgree (given.map fun x => (x.field.name,x.text)) a := by
  constructor
  case positional =>
    intro text ht
    choose value hsets hspells using h.exists_value
    refine h.reader_exact.ofText_eq_ok_iff.2 ⟨.array (given.map value),?_,?_⟩
    · exact ⟨(.positional,draftOf given),⟨_,rfl,slots_of_isPrefix hsets hl _⟩,hb .positional⟩
    · apply ArrayText.spells ht
      rw [List.map_map,List.forall₂_map_left_iff,List.forall₂_map_right_iff,List.forall₂_same]
      exact fun x _ => hspells x
  case keyed =>
    intro known unknown members text hknown hunknown hperm ht
    obtain ⟨others,hothers,hadmits,hdiffer,hdraft⟩ := h.exists_entries hl hknown hunknown
    obtain ⟨entries,hentries,hmoved⟩ := List.perm_comp_forall₂ hperm hothers
    have ha : ∀ e ∈ entries, r.Admits e := fun e he => hadmits e (hmoved.mem_iff.1 he)
    have hd : entries.Pairwise r.Differ := (hmoved.pairwise_iff symm).2 hdiffer
    have hsteps := h.steps ha hd fun e _ f hf _ => h.unset f hf
    rw [h.gathered_of_perm hmoved ha hd,hdraft] at hsteps
    have hnamed : List.Forall₂ (fun m n => m.name = n.1 ∧ Spells m.value n.2.tokens) members
        (entries.map Entry.member) := List.forall₂_map_right_iff.2 hentries
    obtain ⟨v,hv,hspells⟩ := ObjectText.spells ht hnamed
    exact h.reader_exact.ofText_eq_ok_iff.2
      ⟨v,⟨(.keyed,draftOf given),⟨_,hv,hsteps⟩,hb .keyed⟩,hspells⟩

end Orderly

end Record

end LSystem.Json
