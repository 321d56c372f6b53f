import GuidedTrack.Main
import GuidedTrack.Proofs.ConfigurationMerge
import GuidedTrack.Proofs.DirectoryPatterns
import GuidedTrack.Proofs.Expr.StringRebuilding
import GuidedTrack.Proofs.Layout.LineEndings
import GuidedTrack.Proofs.Layout.TextConservation
import GuidedTrack.Proofs.Lint.FixConservation
import GuidedTrack.Proofs.Lint.FormattedJumps
import GuidedTrack.Proofs.Lint.LabelMessages
import GuidedTrack.Proofs.Lint.LeadingComment
import GuidedTrack.Proofs.Lint.SharedWalk
import GuidedTrack.Proofs.Lint.SinglePassRepair
import GuidedTrack.Proofs.Program.ArgumentReading
import GuidedTrack.Proofs.Program.BlockMarks
import GuidedTrack.Proofs.Program.FaultIsolation
import GuidedTrack.Proofs.Program.FormattedCode
import GuidedTrack.Proofs.Program.NameSpelling
import GuidedTrack.Proofs.Program.ProseConservation
import GuidedTrack.Proofs.Rule.UnmatchedBrackets
import GuidedTrack.Proofs.Run.LintReports
import GuidedTrack.Proofs.Token.EmphasisText
import GuidedTrack.Proofs.Token.FragmentScans
