import LSystem.Proofs.Canvases

/-!
# Longer words

What is drawn stays when a word goes on. A polyline that is finished never changes. Only the last one
of a word may still have been open where the word ended, and a longer word may add points to it. Every
symbol leaves the drawing in this relation to the one before it (`Canvas.goesOn_of_apply`), hence so
does every word. A word that fails does so at the same place however it goes on.
-/
namespace LSystem

/-- The second list is what may become of the first when more is drawn: all polylines but the last stay,
and the last is the beginning of the one in its place. -/
structure GoesOn (l m : List Polyline) : Prop where
  length_le : l.length ≤ m.length
  kept : ∀ i, i + 1 < l.length → m[i]? = l[i]?
  prolonged : ∀ line, l.getLast? = some line →
    ∃ longer, m[l.length - 1]? = some longer ∧ line <+: longer

namespace GoesOn

variable {l m n : List Polyline}

theorem append (l more : List Polyline) : GoesOn l (l ++ more) := by
  have hget (i : ℕ) (hi : i < l.length) : (l ++ more)[i]? = l[i]? := List.getElem?_append_left hi
  constructor
  case length_le => simp
  case kept => exact fun i hi => hget i (by omega)
  case prolonged =>
    intro line hline
    rw [List.getLast?_eq_getElem?] at hline
    obtain ⟨hi,-⟩ := List.getElem?_eq_some_iff.1 hline
    exact ⟨line,by rw [hget _ hi,hline],List.prefix_refl _⟩

theorem refl (l : List Polyline) : GoesOn l l := by
  have h := append l []
  rwa [List.append_nil] at h

theorem prolong (earlier : List Polyline) (line more : Polyline) :
    GoesOn (earlier ++ [line]) (earlier ++ [line ++ more]) := by
  constructor
  case length_le => simp
  case kept =>
    intro i hi
    have hlt : i < earlier.length := by simpa using hi
    rw [List.getElem?_append_left hlt,List.getElem?_append_left hlt]
  case prolonged =>
    intro last hlast
    obtain rfl : line = last := by simpa using hlast
    exact ⟨line ++ more,by simp,List.prefix_append _ _⟩

/-- The last polyline may be the last one for a second time, or it has become one that stays. -/
theorem trans (h : GoesOn l m) (k : GoesOn m n) : GoesOn l n := by
  have hle := h.length_le
  constructor
  case length_le => exact hle.trans k.length_le
  case kept =>
    intro i hi
    rw [k.kept i (by omega),h.kept i hi]
  case prolonged =>
    intro line hline
    obtain ⟨longer,hm,hpre⟩ := h.prolonged line hline
    by_cases hlen : l.length = m.length
    · have hlast : m.getLast? = some longer := by rw [List.getLast?_eq_getElem?,← hlen,hm]
      obtain ⟨longest,hn,hpre'⟩ := k.prolonged longer hlast
      exact ⟨longest,by rw [hlen,hn],hpre.trans hpre'⟩
    · have hpos : 0 < l.length := List.length_pos_iff.2 fun hnil => by simp [hnil] at hline
      exact ⟨longer,by rw [k.kept _ (by omega),hm],hpre⟩

end GoesOn

namespace Canvas

variable {g : Settings} {k l : Canvas}

theorem polylines_of_line (h : 1 < k.trail.length) :
    k.polylines = k.finished.reverse ++ [k.trail.reverse] := by
  rw [polylines,closed,if_pos h,List.reverse_cons]

theorem polylines_of_point (h : ¬1 < k.trail.length) : k.polylines = k.finished.reverse := by
  rw [polylines,closed,if_neg h]

/-- A point more makes the open polyline longer, or makes a polyline of it. -/
theorem goesOn_of_point {p : Point} (htrail : l.trail = p :: k.trail)
    (hfinished : l.finished = k.finished) : GoesOn k.polylines l.polylines := by
  by_cases hk : 1 < k.trail.length
  · have hl : 1 < l.trail.length := by
      rw [htrail,List.length_cons]
      omega
    rw [polylines_of_line hk,polylines_of_line hl,htrail,hfinished,List.reverse_cons]
    exact .prolong _ _ _
  · rw [polylines_of_point hk,← hfinished]
    by_cases hl : 1 < l.trail.length
    · rw [polylines_of_line hl]
      exact .append _ _
    · rw [polylines_of_point hl]
      exact .refl _

theorem goesOn_of_apply {o : Operation} (h : k.apply g o = some l) :
    GoesOn k.polylines l.polylines := by
  obtain ⟨htrail,hfinished⟩ := lines_of_apply h
  by_cases hends : o.ends = true
  · rw [if_pos hends] at htrail hfinished
    have hl : ¬1 < l.trail.length := by simp [htrail]
    rw [polylines_of_point hl,hfinished]
    exact .refl _
  · rw [if_neg hends] at htrail hfinished
    by_cases hdraw : o = .draw
    · rw [if_pos hdraw] at htrail
      exact goesOn_of_point htrail hfinished
    · rw [if_neg hdraw] at htrail
      have heq : l.polylines = k.polylines := by
        rw [polylines,closed,htrail,hfinished,← closed,← polylines]
      rw [heq]
      exact .refl _

theorem goesOn_of_follow {w : Word} (h : k.follow g w = some l) :
    GoesOn k.polylines l.polylines :=
  rel_of_follow (R := fun k l => GoesOn k.polylines l.polylines) (fun _ => .refl _) .trans
    goesOn_of_apply h

end Canvas

/-- However a word goes on, if it fails it still fails at the same offset, and if it can be traced all
polylines but the last stay as they are, and the last one is the beginning of the one in its place. -/
theorem longer_words_go_on (g : Settings) (s t : Word) :
    (∀ e, g.polylines s = .error e → g.polylines (s ++ t) = .error e) ∧
    ∀ l m, g.polylines s = .ok l → g.polylines (s ++ t) = .ok m → GoesOn l m := by
  constructor
  · intro e he
    obtain ⟨p,hp,ho⟩ := Settings.polylines_eq_error_iff.1 he
    exact Settings.polylines_eq_error_iff.2 ⟨p,hp.append t,ho⟩
  · intro l m hl hm
    obtain ⟨k,hk,rfl⟩ := Settings.polylines_eq_ok_iff.1 hl
    obtain ⟨j,hj,rfl⟩ := Settings.polylines_eq_ok_iff.1 hm
    rw [Settings.canvasAfter?_append,hk,Option.bind_some] at hj
    exact Canvas.goesOn_of_follow hj

/-- A bracket too many, and a second line that goes on to a turn. -/
theorem second_line_goes_on :
    (Settings.standard.polylines ['é',']'] = .error ⟨2⟩ ∧
      Settings.standard.polylines (['é',']'] ++ ['[','F']) = .error ⟨2⟩) ∧
    ∃ l m, Settings.standard.polylines ['F','f','F'] = .ok l ∧
      Settings.standard.polylines (['F','f','F'] ++ ['-','F','f','F']) = .ok m ∧
      l.map List.length = [2,2] ∧ m.map List.length = [2,3,2] ∧ GoesOn l m := by
  have he : Settings.standard.polylines ['é',']'] = .error ⟨2⟩ := rfl
  refine ⟨⟨he,(longer_words_go_on _ _ _).1 _ he⟩,?_⟩
  obtain ⟨l,hl⟩ := Settings.standard.polylines_of_safe (w := ['F','f','F']) (by decide)
  obtain ⟨m,hm⟩ := Settings.standard.polylines_of_safe
    (w := ['F','f','F'] ++ ['-','F','f','F']) (by decide)
  have lengths {w : Word} {lines : List Polyline} {n : List ℕ}
      (h : Settings.standard.polylines w = .ok lines)
      (hn : (Settings.standard.polylines w).map (·.map List.length) = .ok n) :
      lines.map List.length = n := by
    rw [h] at hn
    exact Except.ok.inj hn
  exact ⟨l,m,hl,hm,lengths hl rfl,lengths hm rfl,(longer_words_go_on _ _ _).2 l m hl hm⟩

end LSystem
