import Buildpath.LogFilter
import Buildpath.Main
import Buildpath.Proofs.Cycle
import Buildpath.Proofs.Model.Repeating
import Buildpath.Report.Document
import Buildpath.Text.Base64
import Buildpath.Proofs.CycleOrder
import Buildpath.Proofs.CycleSteps
import Buildpath.Proofs.Path
import Buildpath.Proofs.Document.RoundTrip
import Buildpath.Proofs.Model.Publication
import Buildpath.Proofs.Model.Lookups
import Buildpath.Proofs.Indexing
import Buildpath.Proofs.Model.Coverage
import Buildpath.Proofs.Origins
import Buildpath.Proofs.Model.SourceFolders
import Buildpath.Proofs.Model.Failing
import Buildpath.Proofs.Delta
import Buildpath.Proofs.Model.Deltas
import Buildpath.Proofs.Model.Expansion
import Buildpath.Proofs.Resource.Projects
import Buildpath.Proofs.Concrete
import Buildpath.Proofs.Model.Still
import Buildpath.Proofs.Model.Reachability
import Buildpath.Proofs.Model.VisibleFragments
import Buildpath.Proofs.Model.Tame
import Buildpath.Proofs.Exports
import Buildpath.Proofs.Model.Histories
import Buildpath.Proofs.Model.ExportHistory
import Buildpath.Proofs.Model.Calm
import Buildpath.Proofs.Model.Completing
import Buildpath.Proofs.Model.CachedRoots
import Buildpath.Proofs.Glob
import Buildpath.Proofs.SourceNesting
import Buildpath.Proofs.Model.Rebinding
import Buildpath.Proofs.Model.Assigning
import Buildpath.Proofs.Shapes
import Buildpath.Proofs.Model.Resembling
import Buildpath.Proofs.Markers
import Buildpath.Proofs.Model.CycleGraph
import Buildpath.Proofs.Model.Linking
import Buildpath.Proofs.Model.Validating
import Buildpath.Proofs.Model.CycleMarkers
import Buildpath.Proofs.Model.Regenerating
import Buildpath.Proofs.Resource.Apart
import Buildpath.Proofs.Resource.Children
import Buildpath.Proofs.Model.OtherProjects
import Buildpath.Proofs.Model.FileEdits
import Buildpath.Proofs.Model.SharedIndexes
import Buildpath.Proofs.Model.Reloading
import Buildpath.Proofs.Model.FollowingReferences
import Buildpath.Proofs.Document.Conserving
import Buildpath.Proofs.Path.Reading
import Buildpath.Proofs.MarkerHistories
import Buildpath.Proofs.Model.OwnEntries
import Buildpath.Proofs.Model.Listings
import Buildpath.Proofs.Model.ListingHistories
import Buildpath.Proofs.Model.ListingRuns
import Buildpath.Proofs.CycleTrial
import Buildpath.Proofs.Model.Contributions
import Buildpath.Proofs.Model.Classifying
import Buildpath.Proofs.ReachedLibraries
import Buildpath.Proofs.FoldedHeaders
import Buildpath.Proofs.Restricting
import Buildpath.Proofs.NestedReferences
import Buildpath.Proofs.Model.RecordedEntries
import Buildpath.Proofs.Path.Joining
import Buildpath.Proofs.Document.Placing
import Buildpath.Proofs.Model.Initializing
import Buildpath.Proofs.Resource.Stamps
import Buildpath.Proofs.Resource.Trees
import Buildpath.Proofs.Resource.Inside
import Buildpath.Proofs.GuardHistories
