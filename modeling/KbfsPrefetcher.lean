import KbfsPrefetcher.Types
import KbfsPrefetcher.Walk
import KbfsPrefetcher.Request
import KbfsPrefetcher.Run
import KbfsPrefetcher.Invariant
import KbfsPrefetcher.Edges
import KbfsPrefetcher.Removal
import KbfsPrefetcher.StaleParents
import KbfsPrefetcher.Termination
import KbfsPrefetcher.Filters
import KbfsPrefetcher.Reschedule
import KbfsPrefetcher.System
import KbfsPrefetcher.Shutdown
import KbfsPrefetcher.Cancel
import KbfsPrefetcher.Schedule
import KbfsPrefetcher.Children
import KbfsPrefetcher.Paths
import KbfsPrefetcher.Shift
import KbfsPrefetcher.Unfetched
import KbfsPrefetcher.Enumerate
import KbfsPrefetcher.Complete
import KbfsPrefetcher.Steady
import KbfsPrefetcher.Release
import KbfsPrefetcher.Requested
import KbfsPrefetcher.Finished
import KbfsPrefetcher.Progress
