import LSystem.Proofs.UnbalancedPops

/-!
# Polylines without a stack

A word is cut at every symbol that ends a polyline. Each piece is a stroke: it begins where the
turtle stands after the symbol that was cut out, or at the start position as given, and goes on to
where the turtle stands after each draw of the piece. Poses are those of `Settings.poseAfter`, so
neither a stack nor an open polyline is needed to say what the strokes are.

Tracing a safe word gives the strokes of at least two points in the order of the word.
-/
namespace LSystem

/-- A piece of a word: what stands before it, with the symbol that was cut out, and its symbols. -/
structure Piece where
  before : Word
  symbols : Word
  deriving DecidableEq, Repr

def cuts (c : Symbol) : Bool := (Operation.ofSymbol c).ends

/-- The pieces from an open one on, the rest of the word being still uncut. -/
def piecesFrom (before symbols : Word) : Word → List Piece
  | [] => [⟨before,symbols⟩]
  | c :: rest =>
    if cuts c then ⟨before,symbols⟩ :: piecesFrom (before ++ symbols ++ [c]) [] rest
    else piecesFrom before (symbols ++ [c]) rest

def pieces (w : Word) : List Piece := piecesFrom [] [] w

/-- What is left between the cuts. -/
theorem map_symbols_piecesFrom (before symbols rest : Word) :
    (piecesFrom before symbols rest).map Piece.symbols =
      (rest.splitOnP cuts).modifyHead (symbols ++ ·) := by
  induction rest generalizing before symbols with
  | nil => simp [piecesFrom]
  | cons c rest ih =>
    rw [piecesFrom,List.splitOnP_cons_eq_if_modifyHead]
    by_cases hc : cuts c = true
    · rw [if_pos hc,if_pos hc,List.map_cons,ih]
      have hid : ∀ l : List Word, l.modifyHead (fun s => [] ++ s) = l := fun l => by
        cases l <;> rfl
      rw [hid]
      simp
    · rw [if_neg hc,if_neg hc,ih,List.modifyHead_modifyHead]
      congr 1
      funext s
      simp

theorem map_symbols_pieces (w : Word) : (pieces w).map Piece.symbols = w.splitOnP cuts := by
  rw [pieces,map_symbols_piecesFrom]
  cases w.splitOnP cuts <;> rfl

theorem piecesFrom_ne_nil (before symbols rest : Word) : piecesFrom before symbols rest ≠ [] := by
  induction rest generalizing before symbols with
  | nil => simp [piecesFrom]
  | cons c rest ih =>
    rw [piecesFrom]
    split
    · simp
    · exact ih before (symbols ++ [c])

/-- The last piece reaches to the end, and one more symbol either ends it or belongs to it. -/
theorem piecesFrom_concat {before symbols rest : Word} {done : List Piece} {last : Piece}
    (h : piecesFrom before symbols rest = done ++ [last]) (c : Symbol) :
    last.before ++ last.symbols = before ++ symbols ++ rest ∧
      piecesFrom before symbols (rest ++ [c]) =
        if cuts c then done ++ [last] ++ [⟨last.before ++ last.symbols ++ [c],[]⟩]
        else done ++ [⟨last.before,last.symbols ++ [c]⟩] := by
  induction rest generalizing before symbols done with
  | nil =>
    have h₀ : [] ++ [⟨before,symbols⟩] = done ++ [last] := h
    obtain ⟨rfl,rfl⟩ := List.append_singleton_inj.1 h₀
    constructor
    · simp
    · by_cases hc : cuts c = true
      · simp [piecesFrom,hc]
      · simp [piecesFrom,hc]
  | cons d rest ih =>
    rw [piecesFrom] at h
    rw [List.cons_append,piecesFrom]
    by_cases hd : cuts d = true
    · rw [if_pos hd] at h ⊢
      cases done with
      | nil => exact absurd (List.cons.inj h).2 (piecesFrom_ne_nil _ _ _)
      | cons first done =>
        obtain ⟨rfl,ht⟩ := List.cons.inj h
        obtain ⟨hw,hp⟩ := ih ht
        refine ⟨by rw [hw]; simp,?_⟩
        rw [hp]
        by_cases hc : cuts c = true
        · rw [if_pos hc,if_pos hc]
          rfl
        · rw [if_neg hc,if_neg hc]
          rfl
    · rw [if_neg hd] at h ⊢
      obtain ⟨hw,hp⟩ := ih h
      exact ⟨by rw [hw]; simp,hp⟩

namespace Settings

/-- The rounded positions after the draws of a word that goes on from another. -/
def drawn (g : Settings) (before : Word) : Word → List Point
  | [] => []
  | c :: rest =>
    if Operation.ofSymbol c = .draw then
      (g.poseAfter (before ++ [c])).position.round :: g.drawn (before ++ [c]) rest
    else g.drawn (before ++ [c]) rest

/-- Where a piece begins. Only the start position is not rounded. -/
def origin (g : Settings) (p : Piece) : Point :=
  if p.before = [] then g.startPosition else (g.poseAfter p.before).position.round

def stroke (g : Settings) (p : Piece) : List Point := g.origin p :: g.drawn p.before p.symbols

/-- The strokes of a word that are lines. -/
def strokes (g : Settings) (w : Word) : List Polyline :=
  ((pieces w).map g.stroke).filter fun l => 2 ≤ l.length

variable (g : Settings)

theorem drawn_concat (before symbols : Word) (c : Symbol) :
    g.drawn before (symbols ++ [c]) = g.drawn before symbols ++
      if Operation.ofSymbol c = .draw then
        [(g.poseAfter (before ++ symbols ++ [c])).position.round] else [] := by
  induction symbols generalizing before with
  | nil =>
    simp only [List.nil_append,List.append_nil,drawn]
  | cons d symbols ih =>
    have hi := ih (before ++ [d])
    simp only [List.append_assoc,List.singleton_append] at hi
    simp only [List.cons_append,drawn,hi]
    by_cases hd : Operation.ofSymbol d = .draw
    · simp [hd]
    · simp [hd]

theorem stroke_concat (p : Piece) (c : Symbol) :
    g.stroke ⟨p.before,p.symbols ++ [c]⟩ = g.stroke p ++
      if Operation.ofSymbol c = .draw then
        [(g.poseAfter (p.before ++ p.symbols ++ [c])).position.round] else [] := by
  rw [stroke,drawn_concat]
  rfl

/-- A piece after a cut begins at a rounded position. -/
theorem stroke_cut (w : Word) (c : Symbol) :
    g.stroke ⟨w ++ [c],[]⟩ = [(g.poseAfter (w ++ [c])).position.round] := by
  simp [stroke,origin,drawn]

end Settings

namespace Canvas

/-- The open polyline is the stroke of the last piece, and the finished ones are the lines among the
strokes of the others. -/
def Shows (g : Settings) (w : Word) (k : Canvas) : Prop :=
  ∃ done last, pieces w = done ++ [last] ∧ k.trail.reverse = g.stroke last ∧
    k.finished.reverse = (done.map g.stroke).filter fun l => 2 ≤ l.length

theorem shows_blank (g : Settings) : (blank g).Shows g [] :=
  ⟨[],⟨[],[]⟩,rfl,rfl,rfl⟩

/-- All lines among the strokes are there once the open polyline is closed. -/
theorem Shows.polylines {g : Settings} {w : Word} {k : Canvas} (h : k.Shows g w) :
    k.polylines = g.strokes w := by
  rcases h with ⟨done,last,hp,ht,hf⟩
  rw [Canvas.polylines,reverse_closed,ht,hf,Settings.strokes,hp,List.map_append,List.filter_append]
  rfl

theorem Shows.apply {g : Settings} {w : Word} {c : Symbol} {k l : Canvas} (h : k.Shows g w)
    (hl : l.Reached g (w ++ [c])) (ha : k.apply g (Operation.ofSymbol c) = some l) :
    l.Shows g (w ++ [c]) := by
  have hclosed := h.polylines
  rcases h with ⟨done,last,hp,ht,hf⟩
  obtain ⟨hw,hn⟩ := piecesFrom_concat hp c
  rw [List.nil_append,List.nil_append] at hw
  obtain ⟨htrail,hfinished⟩ := lines_of_apply ha
  rw [hl.pose] at htrail
  by_cases hc : cuts c = true
  · rw [if_pos (show (Operation.ofSymbol c).ends = true from hc)] at htrail hfinished
    rw [if_pos hc,hw,← hp] at hn
    refine ⟨pieces w,⟨w ++ [c],[]⟩,hn,?_,?_⟩
    · rw [htrail,g.stroke_cut]
      rfl
    · rw [hfinished]
      exact hclosed
  · rw [if_neg (show ¬(Operation.ofSymbol c).ends = true from hc)] at htrail hfinished
    rw [if_neg hc] at hn
    refine ⟨done,⟨last.before,last.symbols ++ [c]⟩,hn,?_,?_⟩
    · rw [g.stroke_concat,← ht,hw,htrail]
      by_cases hd : Operation.ofSymbol c = .draw
      · rw [if_pos hd,if_pos hd,List.reverse_cons]
      · rw [if_neg hd,if_neg hd,List.append_nil]
    · rw [hfinished]
      exact hf

end Canvas

theorem Tracing.shows_of_run {g : Settings} {w : Word} {t : Tracing} (h : run g w = .ok t) :
    t.canvas.Shows g w := by
  have both : t.Reached g w ∧ t.canvas.Shows g w := by
    refine run_induction (P := fun w t => t.Reached g w ∧ t.canvas.Shows g w)
      ⟨reached_start g,Canvas.shows_blank g⟩ ?_ h
    intro w c t u hx hu
    rcases hx with ⟨hr,hs⟩
    have hnext := hr.read hu
    obtain ⟨k,ha,rfl⟩ := read_eq_ok_iff.1 hu
    exact ⟨hnext,hs.apply hnext.canvas ha⟩
  exact both.2

/-- The polylines of a safe word are its strokes of at least two points. -/
theorem polylines_eq_strokes (g : Settings) {w : Word} (h : Safe w) :
    g.polylines w = .ok (g.strokes w) := by
  obtain ⟨t,ht⟩ := Tracing.run_of_safe g h
  rw [Settings.polylines_of_run ht,(Tracing.shows_of_run ht).polylines]

/-- A branch, and after it the trunk goes on from where it was left. -/
theorem polylines_of_branch :
    Safe ['F','[','-','F',']','F'] ∧
      Settings.standard.polylines ['F','[','-','F',']','F'] =
        .ok (Settings.standard.strokes ['F','[','-','F',']','F']) :=
  ⟨by decide,polylines_eq_strokes Settings.standard (by decide)⟩

end LSystem
