import LibQuo.SetIntersection.Accounting
import LibQuo.AutoDistrib.CapacityLaw
import LibQuo.AutoDistrib.Counts
import LibQuo.AutoDistrib.Agreement
import LibQuo.AutoDistrib.NoStranding
import LibQuo.AutoDistrib.Pipeline
import LibQuo.AutoDistrib.Packing
import LibQuo.Xpm.SameEnd
import LibQuo.Xpm.Tiles
import LibQuo.Xpm.Bounds
import LibQuo.Create.NoStranding
import LibQuo.Nodes.Exact
import LibQuo.Nodes.Order
import LibQuo.Nodes.Reads
import LibQuo.Bind.Runs
import LibQuo.Bind.Contexts
import LibQuo.Bind.Failures
import LibQuo.Bind.Cover
import LibQuo.Bind.Restore
import LibQuo.Bind.Bound
import LibQuo.Bind.Objects
import LibQuo.Bind.Lifetime
import LibQuo.Bitmap.HexScan
import LibQuo.Bitmap.Formats
import LibQuo.Bind.ThreadRuns
import LibQuo.Cxx.BindGuard
import LibQuo.Xml.RoundTrip
import LibQuo.Xml.Termination
import LibQuo.Create.Sharing
import LibQuo.Create.Links
import LibQuo.Xpm.Links
import LibQuo.AutoDistrib.Links
import LibQuo.Xpm.Ends
import LibQuo.AutoDistrib.Ends
