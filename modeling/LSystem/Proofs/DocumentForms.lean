import LSystem.Document.Turtle
import LSystem.Proofs.GrammarDocuments
import LSystem.Proofs.Json.RecordForms

/-!
# The two forms of documents

All records of documents are orderly: their readers are exact and their fields are apart. So a
grammar, settings, a pose, bounds and a drawing can each be written as an array or as an object, with
the same texts for their fields, and are read as the same value (`Record.FormsAgree`).
-/
namespace LSystem

open Json

theorem Point.reader_exact : Point.reader.Exact Point.reader.Takes := by
  have hreaders := List.Forall₂.cons (Reader.number_exact.map fun v (d : Draft) => { d with x := some v })
    (.cons (Reader.number_exact.map fun v (d : Draft) => { d with y := some v }) .nil)
  exact ((Reader.tuple_exact hreaders .pair ⟨none,none⟩).check build).takes

theorem Polyline.reader_exact : Polyline.reader.Exact Polyline.reader.Takes :=
  (Reader.array_exact Point.reader_exact).takes

namespace Bounds

theorem record_orderly : record.Orderly where
  exact := by
    simp only [record,fields,List.forall_mem_cons,List.not_mem_nil,false_imp_iff,implies_true,
      and_true]
    exact ⟨(Point.reader_exact.map _).takes,(Point.reader_exact.map _).takes⟩
  unset := by simp [record,fields]
  apart := by
    refine List.pairwise_pair.2 ?_
    exact Field.apart_of_put (by decide) (fun _ _ => rfl) (fun _ _ => rfl) fun _ _ _ => rfl

theorem reader_exact : reader.Exact reader.Takes := record_orderly.reader_exact.takes

theorem optionReader_run {input : List Token} (h : input.head? ≠ some .null) :
    optionReader.run input = (reader.map some).run input := by
  rcases input with _ | ⟨t,input⟩
  · rfl
  · cases t with
    | null => exact absurd rfl h
    | _ => rfl

theorem head?_tokens_of_takes {v : Value} {b : Bounds} (h : reader.Takes v b) (rest : List Token) :
    (v.tokens ++ rest).head? ≠ some .null := by
  cases v with
  | null => exact absurd h nofun
  | array items =>
    rw [Value.tokens_array,arrayTokens_append]
    simp
  | object members =>
    rw [Value.tokens_object,objectTokens_append]
    simp
  | _ => simp [Value.tokens]

theorem optionReader_exact : optionReader.Exact optionReader.Takes := by
  have hsome := reader_exact.map some
  have hexact : optionReader.Exact fun v b =>
      v = .null ∧ b = none ∨ ∃ a, reader.Takes v a ∧ some a = b := by
    intro input b rest
    constructor
    · intro h
      by_cases hnull : input.head? = some .null
      · obtain ⟨input,rfl⟩ := List.head?_eq_some_iff.1 hnull
        obtain ⟨rfl,rfl⟩ := Prod.mk.inj (Except.ok.inj h)
        exact ⟨.null,.inl ⟨rfl,rfl⟩,rfl⟩
      · rw [optionReader_run hnull] at h
        obtain ⟨v,hv,hi⟩ := (hsome _ b rest).1 h
        exact ⟨v,.inr hv,hi⟩
    · intro hx
      rcases hx with ⟨v,⟨rfl,rfl⟩ | ⟨a,ha,hb⟩,rfl⟩
      · rfl
      · rw [optionReader_run (head?_tokens_of_takes ha rest)]
        exact (hsome _ b rest).2 ⟨v,⟨a,ha,hb⟩,rfl⟩
  exact hexact.takes

end Bounds

namespace Drawing

theorem record_orderly : record.Orderly where
  exact := by
    simp only [record,fields,List.forall_mem_cons,List.not_mem_nil,false_imp_iff,implies_true,
      and_true]
    exact ⟨((Reader.array_exact Polyline.reader_exact).map _).takes,
      (Bounds.optionReader_exact.map _).takes⟩
  unset := by simp [record,fields]
  apart := by
    refine List.pairwise_pair.2 ?_
    exact Field.apart_of_put (by decide) (fun _ _ => rfl) (fun _ _ => rfl) fun _ _ _ => rfl

end Drawing

theorem Pose.record_orderly : Pose.record.Orderly where
  exact := by
    simp only [record,fields,List.forall_mem_cons,List.not_mem_nil,false_imp_iff,implies_true,
      and_true]
    exact ⟨(Point.reader_exact.map _).takes,(Reader.number_exact.map _).takes⟩
  unset := by simp [record,fields]
  apart := by
    refine List.pairwise_pair.2 ?_
    exact Field.apart_of_put (by decide) (fun _ _ => rfl) (fun _ _ => rfl) fun _ _ _ => rfl

theorem Settings.record_orderly : Settings.record.Orderly where
  exact := by
    simp only [record,fields,List.forall_mem_cons,List.not_mem_nil,false_imp_iff,implies_true,
      and_true]
    exact ⟨(Point.reader_exact.map _).takes,(Reader.number_exact.map _).takes,
      (Reader.number_exact.map _).takes,(Reader.number_exact.map _).takes⟩
  unset := by simp [record,fields]
  apart := by
    simp only [record,fields,List.pairwise_cons,List.forall_mem_cons,List.not_mem_nil,
      false_imp_iff,implies_true,and_true,List.Pairwise.nil]
    refine ⟨⟨?_,?_,?_⟩,⟨?_,?_⟩,?_⟩ <;>
      exact Field.apart_of_put (by decide) (fun _ _ => rfl) (fun _ _ => rfl) fun _ _ _ => rfl

theorem Grammar.record_orderly : Grammar.record.Orderly where
  exact := by
    simp only [record,fields,List.forall_mem_cons,List.not_mem_nil,false_imp_iff,implies_true,
      and_true]
    exact ⟨(Reader.string_exact.map _).takes,(Rules.reader_exact.map _).takes⟩
  unset := by simp [record,fields]
  apart := by
    refine List.pairwise_pair.2 ?_
    exact Field.apart_of_put (by decide) (fun _ _ => rfl) (fun _ _ => rfl) fun _ _ _ => rfl

/-- The two forms of a grammar with rules. -/
theorem Grammar.formsAgree {start rules : List Char} {w : Word} {r : Rules}
    (hstart : Reader.string.ofText start = .ok w) (hrules : Rules.reader.ofText rules = .ok r) :
    record.FormsAgree [("start".toList,start),("rules".toList,rules)] ⟨w,r⟩ :=
  record_orderly.formsAgree [.ofPut (.head _) hstart,.ofPut (.tail _ (.head _)) hrules] ⟨_,rfl⟩
    fun _ => rfl

end LSystem
