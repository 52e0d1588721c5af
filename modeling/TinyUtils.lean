import TinyUtils.Lib.Run
import TinyUtils.Lib.Threads
import TinyUtils.RwLock.Model
import TinyUtils.RwLock.Invariants
import TinyUtils.RwLock.Wakeup
import TinyUtils.RwLock.Unlock
import TinyUtils.SpinLock
import TinyUtils.Singleton.Model
import TinyUtils.Singleton.Once
import TinyUtils.Singleton.Wedge
import TinyUtils.Lib.Segment
import TinyUtils.Queue.Fifo
import TinyUtils.Queue.Size
import TinyUtils.Cstr.Basic
import TinyUtils.Cstr.Cap
import TinyUtils.Cstr.Ops
import TinyUtils.Cstr.Refit
import TinyUtils.Cstr.Assign
import TinyUtils.Cstr.Splice
import TinyUtils.Cstr.Concat
import TinyUtils.Cstr.Extract
import TinyUtils.Cstr.InPlace
import TinyUtils.Cstr.Guards
import TinyUtils.Cstr.Calls
import TinyUtils.Cstr.Runs
import TinyUtils.Cstr.Reserve
import TinyUtils.Lib.Atomic
import TinyUtils.Cstr.Heap
import TinyUtils.Cstr.Refines
import TinyUtils.Cstr.Compare
import TinyUtils.Lib.Int32
import TinyUtils.TokenFrequency.Model
import TinyUtils.TokenFrequency.Window
import TinyUtils.TokenFrequency.Bucket
import TinyUtils.ObjectPool
import TinyUtils.Lib.Match
import TinyUtils.Cstr.Search.Model
import TinyUtils.Cstr.Search.Sunday
import TinyUtils.Cstr.Search.Kmp
import TinyUtils.Cstr.Search.BoyerMoore
import TinyUtils.Cstr.Search.Tables
import TinyUtils.Cstr.Search.Rfind
import TinyUtils.Lib.Greedy
import TinyUtils.Cstr.Search.Count
import TinyUtils.Lib.Strip
import TinyUtils.Cstr.Trim
import TinyUtils.Cstr.Order
import TinyUtils.Cstr.Classify
import TinyUtils.Cstr.Create
import TinyUtils.Lib.Numeral
import TinyUtils.NumBaseX
import TinyUtils.Lib.Pieces
import TinyUtils.Utf8
import TinyUtils.Observer
import TinyUtils.Lib.Radix
import TinyUtils.MylibConfig
import TinyUtils.Lib.Tally
import TinyUtils.MylibDate
import TinyUtils.Lib.Simulation
import TinyUtils.Lib.Edits
import TinyUtils.Cstr.Contents
import TinyUtils.Cstr.Programs
import TinyUtils.Cstr.Client
import TinyUtils.Lib.Progress
import TinyUtils.Lib.Fifo
import TinyUtils.Queue.Linear
import TinyUtils.Queue.Lifetime
import TinyUtils.Counter
import TinyUtils.Lib.Sharing
import TinyUtils.RwLock.Sharing
import TinyUtils.RwLock.Life
import TinyUtils.Singleton.Pthread
import TinyUtils.Lib.Numbering
import TinyUtils.MylibDate.Steps
import TinyUtils.Lib.Bucket
import TinyUtils.TokenFrequency.Ideal
import TinyUtils.ObjectPool.Callers
import TinyUtils.Cstr.Search.Chars
import TinyUtils.Utf8.Slices
import TinyUtils.Lib.Retention
import TinyUtils.LogRotate
import TinyUtils.Lib.Cursor
import TinyUtils.Observer.Notify
import TinyUtils.ObjectPool.Race
import TinyUtils.Lib.FixedWidth
import TinyUtils.MylibDate.Texts
