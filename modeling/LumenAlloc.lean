import LumenAlloc.Layout
import LumenAlloc.Memory
import LumenAlloc.ProcBin
import LumenAlloc.ProcBinRefcount
import LumenAlloc.ProcBinBlock
import LumenAlloc.ProcBinHeap
import LumenAlloc.HashMap
import LumenAlloc.Term
import LumenAlloc.Map
import LumenAlloc.MapOrder
import LumenAlloc.MapClone
