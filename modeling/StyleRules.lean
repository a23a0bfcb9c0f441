import StyleRules.Main
import StyleRules.Rule.Literal
import StyleRules.Rule.Specimens
import StyleRules.Proofs.CorrectionCases
import StyleRules.Proofs.Disabling
import StyleRules.Proofs.Weakening
import StyleRules.Proofs.Caching
import StyleRules.Proofs.LocationOrder
import StyleRules.Proofs.Persistence
import StyleRules.Proofs.ExampleChecks
import StyleRules.Proofs.EmbeddedExamples
import StyleRules.Proofs.RuleFaults
import StyleRules.Proofs.Delimiters
import StyleRules.Proofs.LineEndings
import StyleRules.Proofs.TokenCuts
import StyleRules.Proofs.Triggering
import StyleRules.Proofs.ChainSpans
import StyleRules.Proofs.IdentityOperators
import StyleRules.Proofs.OnePass
import StyleRules.Proofs.ForeignRules
import StyleRules.Proofs.ExitStatus
import StyleRules.Proofs.PartialCorrection
import StyleRules.Proofs.Optimality
import StyleRules.Proofs.MaskRounds
import StyleRules.Proofs.RenderedMarkers
import StyleRules.Proofs.PathOrder
import StyleRules.Proofs.Remasking
import StyleRules.Proofs.DirectivePlaces
import StyleRules.Proofs.CommentedOut
import StyleRules.Proofs.TextLiterals
import StyleRules.Proofs.SeparateLines
import StyleRules.Proofs.SortKeys
import StyleRules.Proofs.LinePlaces
import StyleRules.Proofs.ByteOffsets
import StyleRules.Proofs.CutMarkers
import StyleRules.Proofs.Annotations
import StyleRules.Proofs.ChainEdits
import StyleRules.Proofs.Ownership
import StyleRules.Proofs.Placement
import StyleRules.Proofs.RepeatedPaths
import StyleRules.Proofs.DocumentOrder
