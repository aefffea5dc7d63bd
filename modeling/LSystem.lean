import LSystem.Document.Turtle
import LSystem.Proofs.BracketSafety
import LSystem.Proofs.GrammarDocuments
import LSystem.Proofs.Strokes
import LSystem.Proofs.Calls
import LSystem.Proofs.Growth
import LSystem.Proofs.GrammarTexts
import LSystem.Proofs.Number.Rounding
import LSystem.Proofs.Number.Shortest
import LSystem.Proofs.Number.Errors
import LSystem.Proofs.Number.Scaling
import LSystem.Proofs.Json.Numerals
import LSystem.Proofs.Json.HandingOver
import LSystem.Proofs.GeometryTexts
import LSystem.Proofs.Draws
import LSystem.Proofs.Number.Comparison
import LSystem.Proofs.Number.Places
import LSystem.Proofs.Number.FixedText
import LSystem.Proofs.Number.RoundedDoubles
import LSystem.Proofs.RoundedPoints
import LSystem.Proofs.IgnoredSymbols
import LSystem.Proofs.Branches
import LSystem.Proofs.LongerWords
import LSystem.Proofs.Acceleration
import LSystem.Proofs.Number.Extremes
import LSystem.Proofs.Bounds
import LSystem.Proofs.Json.LongerTexts
import LSystem.Proofs.Json.SteadyReaders
import LSystem.Proofs.FirstFaults
import LSystem.Proofs.Json.AssembledTexts
import LSystem.Proofs.Json.RecordForms
import LSystem.Proofs.DocumentForms
import LSystem.Proofs.RuleLists
import LSystem.Proofs.NonErasing
import LSystem.Proofs.Relabelling
import LSystem.Proofs.Number.Signs
import LSystem.Proofs.Mirroring
import LSystem.Proofs.TracingReports
import LSystem.Proofs.ZeroTurns
import LSystem.Proofs.DerivationReports
import LSystem.Proofs.BetweenSymbols
