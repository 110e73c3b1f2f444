import StaticAlloc.Library.Runs
import StaticAlloc.Library.Cells
import StaticAlloc.Library.Sources
import StaticAlloc.Bump.Safety
import StaticAlloc.Uninit.Elements
import StaticAlloc.Uninit.Copies
import StaticAlloc.Uninit.Metadata
import StaticAlloc.FixedVec.Unaligned
import StaticAlloc.Rc.Reentrant
import StaticAlloc.Rc.Leaks
import StaticAlloc.Rc.Cycles
import StaticAlloc.FixedVec.Panics
import StaticAlloc.FixedVec.Ranges
import StaticAlloc.Library.Linked
import StaticAlloc.Library.Objects
import StaticAlloc.Unsync.Bump
import StaticAlloc.ExitStack.Unwind
import StaticAlloc.Bump.Realloc
import StaticAlloc.Chain.Ownership
import StaticAlloc.Chain.Layouts
import StaticAlloc.Bump.Retry
import StaticAlloc.Bump.Chained
import StaticAlloc.AllocatorApi.Info
import StaticAlloc.Unsync.RoundTrip
import StaticAlloc.Fill.Checked
import StaticAlloc.AllocatorApi.ZeroSize
import StaticAlloc.SameAlloc.Reuse
import StaticAlloc.Bump.Linear
import StaticAlloc.Bump.Contents
import StaticAlloc.Bump.Heaps
import StaticAlloc.Chain.Boxes
import StaticAlloc.FixedVec.Accounts
import StaticAlloc.LeakExt.Owners
import StaticAlloc.Leaked.Boxes
