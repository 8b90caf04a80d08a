import EmbeddedRuby.Proofs.AfterCleanUp
import EmbeddedRuby.Proofs.Breaks
import EmbeddedRuby.Proofs.CachedNames
import EmbeddedRuby.Proofs.HostClosures
import EmbeddedRuby.Proofs.RecordedErrors
import EmbeddedRuby.Proofs.LoadPaths
import EmbeddedRuby.Proofs.RoundTrips
import EmbeddedRuby.Proofs.SixtyFourBits
import EmbeddedRuby.Proofs.Initialization
import EmbeddedRuby.Proofs.Roots
import EmbeddedRuby.Proofs.ProcsAsBlocks
import EmbeddedRuby.Proofs.InspectedLiterals
import EmbeddedRuby.Proofs.ClassTree
import EmbeddedRuby.Proofs.CircularObjects
import EmbeddedRuby.Proofs.UnsignedLongs
import EmbeddedRuby.Proofs.IntegerConversions
import EmbeddedRuby.Proofs.WrappedScripts
import EmbeddedRuby.Proofs.Comments
import EmbeddedRuby.Proofs.DefinedNames
import EmbeddedRuby.Proofs.NamedModules
import EmbeddedRuby.Proofs.Backtraces
import EmbeddedRuby.Proofs.LenientIntegers
import EmbeddedRuby.Proofs.KeywordCalls
import EmbeddedRuby.Proofs.HashMaps
import EmbeddedRuby.Proofs.RecentErrors
import EmbeddedRuby.Proofs.FlooredDivision
import EmbeddedRuby.Proofs.ReadBackIntegers
import EmbeddedRuby.Proofs.RejectedScripts
import EmbeddedRuby.Proofs.Words
import EmbeddedRuby.Proofs.Ancestries
import EmbeddedRuby.Proofs.BodyKinds
import EmbeddedRuby.Proofs.ScopeStacks
import EmbeddedRuby.Proofs.QuotedTexts
