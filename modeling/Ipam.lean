import Ipam.Access.Namespaces
import Ipam.Allocation.Arithmetic
import Ipam.Allocation.ScanCursor
import Ipam.Allocation.ScanFloor
import Ipam.Allocation.Strategies
import Ipam.Allocation.Subtract
import Ipam.Allocator.LockOrder
import Ipam.Allocator.NoConflict
import Ipam.Allocator.SearchLimit
import Ipam.Cascade.Agreement
import Ipam.Cli.Scope
import Ipam.Registry.ClassForest
import Ipam.Registry.Exhaustion
import Ipam.Registry.ExistingPool
import Ipam.Registry.ObjectWrites
import Ipam.Registry.PoolDryRun
import Ipam.Registry.ProvisionedPools
import Ipam.Registry.Reserved
import Ipam.Registry.Retained
import Ipam.Storage.IdentityUpdate
import Ipam.Tenant.Isolation
import Ipam.Watch.InitialList
import Ipam.Watch.ObjectOrder
import Ipam.Watch.Prune
import Ipam.Watch.Selector
import Ipam.Watch.Wakeups
