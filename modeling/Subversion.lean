import Subversion.Delta.ParserSafety
import Subversion.Fs.Deltification
import Subversion.Fs.DeltaDigest
import Subversion.Fs.MutableReps
import Subversion.Delta.RoundTrip
import Subversion.Delta.VdeltaSlots
import Subversion.Delta.SourceViews
import Subversion.Delta.ChunkInvariance
import Subversion.Fs.StringsMap
import Subversion.Fs.StringOwnership
import Subversion.Fs.Immutability
import Subversion.Fs.NodeIds
import Subversion.Fs.Tree
import Subversion.Fs.Keys
import Subversion.Wc.PropsModified
import Subversion.Wc.LogModifyEntry
import Subversion.Client.Commit
import Subversion.Client.CommitDrive
import Subversion.Client.CommitOrder
import Subversion.Client.EditorRules
import Subversion.Client.CommitBase
import Subversion.Repos.Roots
import Subversion.Repos.Delta
import Subversion.Repos.DeltaCorrect
import Subversion.Repos.Replay
import Subversion.Repos.UpdateDelta
import Subversion.Repos.SwitchDelta
import Subversion.Repos.RevHunt
import Subversion.Delta.XmlProps
import Subversion.Fs.Ancestry
import Subversion.Fs.KeyOrder
import Subversion.Fs.IdText
import Subversion.Fs.SkelGrammar
import Subversion.Fs.SkelEquality
import Subversion.Fs.WriteFailures
import Subversion.Fs.EditRuns
import Subversion.Fs.CommitRuns
import Subversion.Fs.Archive
import Subversion.Fs.ListKeeping
import Subversion.Lib.SharedTrees
import Subversion.Fs.FileLengths
import Subversion.Subr.UriEscapes
import Subversion.Subr.Base64
import Subversion.Subr.Quoprint
import Subversion.Subr.HashDump
import Subversion.Subr.CondenseTargets
import Subversion.Subr.Whitespace
import Subversion.Subr.PathBuffer
import Subversion.Subr.XmlEscapes
import Subversion.Subr.ConfigSyntax
import Subversion.Subr.ConfigMerge
import Subversion.Subr.Time
import Subversion.Fs.OpenPath
import Subversion.Fs.Sizes
import Subversion.Fs.Proplists
import Subversion.Wc.TranslatedKeywords
import Subversion.Wc.KeywordBuffer
import Subversion.Wc.RestoredTrees
import Subversion.Client.HarvestLocks
import Subversion.PropertyChanges
import Subversion.Fs.FollowedPaths
