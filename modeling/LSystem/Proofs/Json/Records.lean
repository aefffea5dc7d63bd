import LSystem.Json.Record
import LSystem.Proofs.Json.Reading

/-!
# Exact readers of records

When the readers of its fields are exact, so is the reader of a record. Its values are the objects
whose members can be gathered one after another and the arrays that fill its slots from the first
one on, as far as `build` accepts what is gathered.
-/
namespace LSystem.Json.Record

open Reader

variable {δ α : Type} (r : Record δ α) (P : List Char → Value → (δ → δ) → Prop)

/-- A member gathered: no unknown one counts, and none comes for a field that is already set. -/
def Gathers (d : δ) (key : List Char) (v : Value) (e : δ) : Prop :=
  match r.fields.find? fun f => f.name = key with
  | none => e = d
  | some f => f.isSet d = false ∧ ∃ set, P key v set ∧ set d = e

/-- A value as a form of the record and the draft that is gathered from it. -/
def Drafts (v : Value) : Form × δ → Prop
  | (.keyed,d) => ∃ members, v.IsObject members ∧ Steps (r.Gathers P) r.blank members d
  | (.positional,d) =>
    ∃ items, v = .array items ∧ Slots (r.fields.map fun f => P f.name) r.blank items d

variable {r P} (hf : ∀ f ∈ r.fields, f.reader.Exact (P f.name))

include hf

theorem selects (d : δ) : Selects (r.select d) (r.Gathers P d) := by
  intro key
  unfold select Gathers
  cases hfind : r.fields.find? fun f => f.name = key with
  | none =>
    apply (skip_exact.map _).congr
    intro v e
    simp [eq_comm]
  | some f =>
    have hname : f.name = key := by simpa using List.find?_some hfind
    have hexact := hf f (List.mem_of_find?_eq_some hfind)
    cases hset : f.isSet d with
    | true => simp [hset]
    | false =>
      simp only [hset,Bool.false_eq_true,if_false,true_and]
      rw [← hname]
      exact hexact.map _

theorem keyed_exact : r.keyed.Exact fun v d => r.Drafts P v (.keyed,d) :=
  object_exact (selects hf) r.shape r.blank

theorem positional_exact : r.positional.Exact fun v d => r.Drafts P v (.positional,d) := by
  apply tuple_exact
  rw [List.forall₂_map_left_iff,List.forall₂_map_right_iff,List.forall₂_same]
  exact hf

theorem draft_exact : r.draft.Exact (r.Drafts P) := by
  intro input d rest
  constructor
  · intro h
    unfold draft at h
    simp only at h
    split at h
    · obtain ⟨v,⟨e,hv,rfl⟩,hi⟩ := ((positional_exact hf).map _ _ _ _).1 h
      exact ⟨v,hv,hi⟩
    · obtain ⟨v,⟨e,hv,rfl⟩,hi⟩ := ((keyed_exact hf).map _ _ _ _).1 h
      exact ⟨v,hv,hi⟩
  · intro hx
    rcases hx with ⟨v,hv,rfl⟩
    rcases d with ⟨form,e⟩
    cases form with
    | keyed =>
      have hrun := ((keyed_exact hf).map (Form.keyed,·) _ _ rest).2 ⟨v,⟨e,hv,rfl⟩,rfl⟩
      rcases hv with ⟨members,⟨raw,rfl,_⟩,_⟩
      rw [Value.tokens_object,objectTokens_append] at hrun ⊢
      exact hrun
    | positional =>
      have hrun := ((positional_exact hf).map (Form.positional,·) _ _ rest).2 ⟨v,⟨e,hv,rfl⟩,rfl⟩
      rcases hv with ⟨items,rfl,_⟩
      rw [Value.tokens_array,arrayTokens_append] at hrun ⊢
      exact hrun

theorem reader_exact : r.reader.Exact fun v a => ∃ d, r.Drafts P v d ∧ r.build d.1 d.2 = .ok a :=
  (draft_exact hf).check _

end LSystem.Json.Record
