import Attest.Main
import Attest.Proofs.Masking
import Attest.Proofs.RuntimeMatching
import Attest.Proofs.ActivityOutcome
import Attest.Proofs.Rounding
import Attest.Proofs.ScheduleSteps
import Attest.Proofs.ScheduleRun
import Attest.Proofs.InvestigationWaits
import Attest.Proofs.ExactTimes
import Attest.Proofs.SurveyTargets
import Attest.Proofs.ChainIsolation
import Attest.Proofs.ScheduleMap
import Attest.Proofs.Histories
import Attest.Proofs.Transcript
import Attest.Proofs.FinalAnswers
import Attest.Proofs.CodeAnswer
import Attest.Proofs.SettingsLoaded
import Attest.Proofs.MatchedEntries
import Attest.Proofs.ExitStatus
import Attest.Proofs.DeploymentRoutes
import Attest.Proofs.BuildLimits
import Attest.Proofs.EngineAccounts
import Attest.Proofs.CborEncoding
import Attest.Proofs.TrailerRoundTrip
import Attest.Proofs.AbsentVerdicts
import Attest.Proofs.SurveyEntries
import Attest.Proofs.ScheduleLog
import Attest.Proofs.VerificationOrder
import Attest.Proofs.Timeless
import Attest.Proofs.TransactionFaults
import Attest.Proofs.TransactionAnswers
import Attest.Proofs.BuildAlike
import Attest.Proofs.PrintedMembers
import Attest.Proofs.TimingFree
import Attest.Proofs.BuildFailFast
import Attest.Proofs.ScheduleInduction
import Attest.Proofs.ScheduleTimes
import Attest.Proofs.SessionMarks
import Attest.Proofs.SlotsAndSessions
import Attest.Proofs.DeadlineStrikes
import Attest.Proofs.DeadlineKept
import Attest.Proofs.DocumentShapes
import Attest.Proofs.ReadingLimits
import Attest.Proofs.EntryFlaws
import Attest.Proofs.ProjectFlaws
import Attest.Proofs.OutputFlaws
import Attest.Proofs.BuildFaults
import Attest.Proofs.ArgumentShapes
import Attest.Proofs.TypeNames
import Attest.Proofs.EncodedArguments
import Attest.Proofs.CreationMatching
import Attest.Proofs.AccountsGiven
import Attest.Proofs.SlotTurns
import Attest.Proofs.MoreSlots
import Attest.Proofs.EarlierStarts
import Attest.Proofs.SurveyMonotone
import Attest.Proofs.ReplyMeanings
import Attest.Proofs.RetryTimes
import Attest.Proofs.RetryCourse
import Attest.Proofs.ContractLookup
import Attest.Proofs.ArtifactCollisions
import Attest.Proofs.MaskedPlaces
import Attest.Proofs.RepeatedTrailers
import Attest.Proofs.MoreImmutables
import Attest.Proofs.Numerals
import Attest.Proofs.DocumentParts
import Attest.Proofs.DeclaredNames
import Attest.Proofs.NumberedIds
import Attest.Proofs.ImmutableNames
import Attest.Proofs.MatchingSymmetry
import Attest.Proofs.RequestForms
import Attest.Proofs.UsableSettings
import Attest.Proofs.HexText
import Attest.Proofs.ListingTiles
import Attest.Proofs.RecoveredSelectors
import Attest.Proofs.RequestRoundTrip
import Attest.Proofs.VersionDirectives
import Attest.Proofs.ReorderedDocuments
import Attest.Proofs.WritableDocuments
import Attest.Proofs.JsonScalars
import Attest.Proofs.JsonRoundTrip
import Attest.Proofs.ReadDocuments
import Attest.Proofs.ReportText
import Attest.Proofs.ItemExtents
import Attest.Proofs.MergedRemappings
import Attest.Proofs.TreeWalks
import Attest.Proofs.TreeWalks
