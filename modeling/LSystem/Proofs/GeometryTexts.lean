import LSystem.Document.Geometry
import LSystem.Document.Turtle
import LSystem.Proofs.Json.HandingOver

/-!
# Geometry written and read

Drawings, bounds, poses and settings are written as documents of themselves. Reading a text back
gives the value with each double replaced by the one to which its numeral evaluates, and if a double
is not finite reading fails (`geometry_handed_over`). A double need not come back as it was, since not
all steps of the evaluation are exact: 9007199254740991 comes back as 9007199254740990
(`farPose_changed`).
-/
namespace LSystem

open Json Number

namespace Point

def codec : Codec Point where
  reader := reader
  tokens := tokens
  value p := .array [.ofFloat p.x,.ofFloat p.y]
  floats p := [p.x,p.y]
  mapFloats f p := ⟨f p.x,f p.y⟩

theorem codec_lawful : codec.Lawful where
  tokens_value p := by
    simp only [codec,Value.tokens_array,List.map_cons,List.map_nil,Value.tokens_ofFloat,tokens]
  written p := by
    apply Value.written_array
    simp only [List.forall_mem_cons,List.not_mem_nil,false_imp_iff,implies_true,and_true]
    exact ⟨Value.written_ofFloat p.x,Value.written_ofFloat p.y⟩
  handsOver p := by
    have hx := (Reader.number_handsOver p.x).map fun v (d : Draft) => { d with x := some v }
    have hy := (Reader.number_handsOver p.y).map fun v (d : Draft) => { d with y := some v }
    have hfills := Reader.Fills.cons (s := ⟨none,none⟩) hx (.cons hy (@Reader.Fills.nil _ [] _))
    exact (Reader.tuple_handsOver hfills .pair).check (f := build) rfl
  mapFloats_eq_self f p := by
    rcases p with ⟨x,y⟩
    simp [codec]

end Point

namespace Polyline

def codec : Codec Polyline := Point.codec.array

theorem codec_lawful : codec.Lawful := Point.codec_lawful.array

end Polyline

namespace Bounds

def codec : Codec Bounds where
  reader := reader
  tokens := tokens
  value b := .ofMembers
    [("min".toList,Point.codec.value b.min),("max".toList,Point.codec.value b.max)]
  floats b := Point.codec.floats b.min ++ Point.codec.floats b.max
  mapFloats f b := ⟨Point.codec.mapFloats f b.min,Point.codec.mapFloats f b.max⟩

theorem codec_lawful : codec.Lawful where
  tokens_value b := by
    have point := Point.codec_lawful
    simp only [codec,Value.tokens_ofMembers,List.map_cons,List.map_nil,
      point.tokens_value]
    rfl
  written b := by
    have point := Point.codec_lawful
    apply Value.written_ofMembers
    simp only [List.forall_mem_cons,List.not_mem_nil,false_imp_iff,implies_true,and_true]
    exact ⟨point.written b.min,point.written b.max⟩
  handsOver b := by
    have point := Point.codec_lawful
    have hmin := (point.handsOver b.min).map fun v (d : Draft) =>
      { d with min := some v }
    have hmax := (point.handsOver b.max).map fun v (d : Draft) =>
      { d with max := some v }
    have hgathers := record.gathers_cons record.blank "min".toList rfl hmin
      (record.gathers_cons _ "max".toList rfl hmax .nil)
    rw [List.append_nil] at hgathers
    exact Record.handsOver hgathers rfl
  mapFloats_eq_self f b := by
    have point := Point.codec_lawful
    rcases b with ⟨min,max⟩
    simp only [codec,Bounds.mk.injEq,point.mapFloats_eq_self,List.forall_mem_append]

def optionCodec : Codec (Option Bounds) where
  reader := optionReader
  tokens := optionTokens
  value
    | none => .null
    | some b => codec.value b
  floats
    | none => []
    | some b => codec.floats b
  mapFloats f b := b.map (codec.mapFloats f)

theorem optionCodec_lawful : optionCodec.Lawful where
  tokens_value b := by
    have bounds := codec_lawful
    cases b with
    | none => rfl
    | some b => exact bounds.tokens_value b
  written b := by
    have bounds := codec_lawful
    cases b with
    | none => exact .cons .null written_nil
    | some b => exact bounds.written b
  handsOver b := by
    have bounds := codec_lawful
    cases b with
    | none =>
      intro rest
      rfl
    | some b =>
      intro rest
      have hrun := (bounds.handsOver b).map some rest
      simp only [optionCodec,codec,Value.tokens_ofMembers,objectTokens_append] at hrun ⊢
      exact hrun
  mapFloats_eq_self f b := by
    have bounds := codec_lawful
    cases b with
    | none => simp [optionCodec]
    | some b =>
      simp only [optionCodec,Option.map_some,Option.some.injEq,bounds.mapFloats_eq_self]

end Bounds

namespace Drawing

def codec : Codec Drawing where
  reader := reader
  tokens := tokens
  value d := .ofMembers [("polylines".toList,Polyline.codec.array.value d.polylines),
    ("bounds".toList,Bounds.optionCodec.value d.bounds)]
  floats d := Polyline.codec.array.floats d.polylines ++ Bounds.optionCodec.floats d.bounds
  mapFloats f d :=
    ⟨Polyline.codec.array.mapFloats f d.polylines,Bounds.optionCodec.mapFloats f d.bounds⟩

theorem codec_lawful : codec.Lawful where
  tokens_value d := by
    have polyline := Polyline.codec_lawful
    have option := Bounds.optionCodec_lawful
    simp only [codec,Value.tokens_ofMembers,List.map_cons,List.map_nil,
      polyline.array.tokens_value,option.tokens_value]
    rfl
  written d := by
    have polyline := Polyline.codec_lawful
    have option := Bounds.optionCodec_lawful
    apply Value.written_ofMembers
    simp only [List.forall_mem_cons,List.not_mem_nil,false_imp_iff,implies_true,and_true]
    exact ⟨polyline.array.written d.polylines,
      option.written d.bounds⟩
  handsOver d := by
    have polyline := Polyline.codec_lawful
    have option := Bounds.optionCodec_lawful
    have hpolylines := (polyline.array.handsOver d.polylines).map
      fun v (d : Draft) => { d with polylines := some v }
    have hbounds := (option.handsOver d.bounds).map
      fun v (d : Draft) => { d with bounds := some v }
    have hgathers := record.gathers_cons record.blank "polylines".toList rfl hpolylines
      (record.gathers_cons _ "bounds".toList rfl hbounds .nil)
    rw [List.append_nil] at hgathers
    exact Record.handsOver hgathers rfl
  mapFloats_eq_self f d := by
    have polyline := Polyline.codec_lawful
    have option := Bounds.optionCodec_lawful
    rcases d with ⟨polylines,bounds⟩
    simp only [codec,Drawing.mk.injEq,polyline.array.mapFloats_eq_self,
      option.mapFloats_eq_self,List.forall_mem_append]

end Drawing

namespace Pose

def codec : Codec Pose where
  reader := reader
  tokens := tokens
  value t := .ofMembers
    [("position".toList,Point.codec.value t.position),("heading".toList,.ofFloat t.heading)]
  floats t := Point.codec.floats t.position ++ [t.heading]
  mapFloats f t := ⟨Point.codec.mapFloats f t.position,f t.heading⟩

theorem codec_lawful : codec.Lawful where
  tokens_value t := by
    have point := Point.codec_lawful
    simp only [codec,Value.tokens_ofMembers,List.map_cons,List.map_nil,
      point.tokens_value,Value.tokens_ofFloat]
    rfl
  written t := by
    have point := Point.codec_lawful
    apply Value.written_ofMembers
    simp only [List.forall_mem_cons,List.not_mem_nil,false_imp_iff,implies_true,and_true]
    exact ⟨point.written t.position,Value.written_ofFloat t.heading⟩
  handsOver t := by
    have point := Point.codec_lawful
    have hposition := (point.handsOver t.position).map fun v (d : Draft) =>
      { d with position := some v }
    have hheading := (Reader.number_handsOver t.heading).map fun v (d : Draft) =>
      { d with heading := some v }
    have hgathers := record.gathers_cons record.blank "position".toList rfl hposition
      (record.gathers_cons _ "heading".toList rfl hheading .nil)
    rw [List.append_nil] at hgathers
    exact Record.handsOver hgathers rfl
  mapFloats_eq_self f t := by
    have point := Point.codec_lawful
    rcases t with ⟨position,heading⟩
    simp only [codec,Pose.mk.injEq,point.mapFloats_eq_self,List.forall_mem_append,
      List.forall_mem_singleton]

end Pose

namespace Settings

def codec : Codec Settings where
  reader := reader
  tokens := tokens
  value g := .ofMembers
    [("start_position".toList,Point.codec.value g.startPosition),
      ("start_angle".toList,.ofFloat g.startAngle),("turn_angle".toList,.ofFloat g.turnAngle),
      ("step".toList,.ofFloat g.step)]
  floats g := Point.codec.floats g.startPosition ++ [g.startAngle,g.turnAngle,g.step]
  mapFloats f g :=
    ⟨Point.codec.mapFloats f g.startPosition,f g.startAngle,f g.turnAngle,f g.step⟩

theorem codec_lawful : codec.Lawful where
  tokens_value g := by
    have point := Point.codec_lawful
    simp only [codec,Value.tokens_ofMembers,List.map_cons,List.map_nil,
      point.tokens_value,Value.tokens_ofFloat]
    rfl
  written g := by
    have point := Point.codec_lawful
    apply Value.written_ofMembers
    simp only [List.forall_mem_cons,List.not_mem_nil,false_imp_iff,implies_true,and_true]
    exact ⟨point.written g.startPosition,Value.written_ofFloat g.startAngle,
      Value.written_ofFloat g.turnAngle,Value.written_ofFloat g.step⟩
  handsOver g := by
    have point := Point.codec_lawful
    have hposition := (point.handsOver g.startPosition).map fun v (d : Draft) =>
      { d with startPosition := some v }
    have hstart := (Reader.number_handsOver g.startAngle).map fun v (d : Draft) =>
      { d with startAngle := some v }
    have hturn := (Reader.number_handsOver g.turnAngle).map fun v (d : Draft) =>
      { d with turnAngle := some v }
    have hstep := (Reader.number_handsOver g.step).map fun v (d : Draft) =>
      { d with step := some v }
    have hgathers := record.gathers_cons record.blank "start_position".toList rfl hposition
      (record.gathers_cons _ "start_angle".toList rfl hstart
        (record.gathers_cons _ "turn_angle".toList rfl hturn
          (record.gathers_cons _ "step".toList rfl hstep .nil)))
    exact Record.handsOver hgathers rfl
  mapFloats_eq_self f g := by
    have point := Point.codec_lawful
    rcases g with ⟨position,start,turn,step⟩
    simp only [codec,Settings.mk.injEq,point.mapFloats_eq_self,List.forall_mem_append,
      List.forall_mem_cons,List.not_mem_nil,false_imp_iff,implies_true,and_true]

end Settings

/-- A value is read back from its text with each double as its numeral evaluates, at most four
doubles away from it, and refused if a double is not finite. -/
theorem geometry_handed_over :
    (∀ d : Drawing, Drawing.codec.HandedOver d) ∧ (∀ g : Settings, Settings.codec.HandedOver g) ∧
      (∀ t : Pose, Pose.codec.HandedOver t) ∧ (∀ b : Bounds, Bounds.codec.HandedOver b) ∧
        ∀ x : Float, isFinite x = true → Numeral.Reread x :=
  ⟨Drawing.codec_lawful.handedOver,Settings.codec_lawful.handedOver,
    Pose.codec_lawful.handedOver,Bounds.codec_lawful.handedOver,
    fun _ => Numeral.reread_of_finite⟩

/-- An empty polyline, and one through a negative zero, the least and the greatest double. -/
def edges : Drawing :=
  ⟨[[],[⟨Float.ofBits 0x8000000000000000,Float.ofBits 1⟩,⟨Float.ofBits 0x7fefffffffffffff,1⟩]],none⟩

theorem edges_handed_over :
    (∀ x ∈ Drawing.codec.floats edges, isFinite x = true ∧ Numeral.reread x = x) ∧
      Drawing.reader.ofText (spellAll edges.tokens) = .ok edges := by
  have h : ∀ x ∈ Drawing.codec.floats edges, isFinite x = true ∧ Numeral.reread x = x := by
    decide +kernel
  exact ⟨h,(geometry_handed_over.1 edges).lossless_iff.2 h⟩

/-- A heading of 2⁵³ - 1 degrees. -/
def farPose : Pose := ⟨.origin,Float.ofBits 0x433fffffffffffff⟩

/-- With the zero after the point the coefficient of this heading is no double. -/
theorem farPose_changed :
    (∀ x ∈ Pose.codec.floats farPose, isFinite x = true) ∧
      Pose.reader.ofText (spellAll farPose.tokens) =
        .ok { farPose with heading := Float.ofBits 0x433ffffffffffffe } ∧
      Pose.reader.ofText (spellAll farPose.tokens) ≠ .ok farPose := by
  have h : (∀ x ∈ Pose.codec.floats farPose, isFinite x = true) ∧
      Pose.codec.mapFloats Numeral.reread farPose =
        { farPose with heading := Float.ofBits 0x433ffffffffffffe } ∧
      { farPose with heading := Float.ofBits 0x433ffffffffffffe } ≠ farPose := by
    decide +kernel
  obtain ⟨hfin,hchanged,hne⟩ := h
  have hread := (Pose.codec_lawful.handedOver farPose).ofFinite hfin
  rw [hchanged] at hread
  refine ⟨hfin,hread,?_⟩
  intro hsame
  exact hne (Except.ok.inj (hread.symm.trans hsame))

end LSystem
