import O3jc.Dispatch.ClassTable
import O3jc.Dispatch.Handles
import O3jc.Dispatch.Interleaving
import O3jc.Dispatch.InstanceSize
import O3jc.Dispatch.SubclassForest
import O3jc.Dispatch.Swizzle
import O3jc.Dispatch.Messages
import O3jc.Loading.CNames
import O3jc.Loading.Agreement
import O3jc.Loading.Sends
import O3jc.Locking.Functions
import O3jc.Locking.Caches
import O3jc.Memory.ImplicitEntry
import O3jc.Memory.Reuse
import O3jc.Memory.Sequential
import O3jc.Pools.Popping
