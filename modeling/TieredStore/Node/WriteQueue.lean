import TieredStore.Meta.Schema
import TieredStore.Node.Routes

/-!
# The write queue of a storage node

`storeStreamWithClass` reserves the declared size of a request in two budgets, the total one and
that of its write class, hands a task to the queue of the class and waits for the result. A worker
takes the task, writes the file in place, gives the reservations back and reports. The request may
be refused by either budget or by a full queue, and the caller may leave while the task is queued
or written.

The state is the node with all its calls and workers; a `step` is one atomic operation of one of
them: a load, a compare-and-swap, an addition, a channel operation or a file operation. So a run,
a list of events, is an interleaving of calls and workers. What the disk and the body reader do
comes with the event.
-/

namespace TieredStore.Node

open Lib

namespace WriteQueue

/-! ## Requests -/

inductive WriteClass where
  | foreground
  | background
  deriving DecidableEq, Repr

inductive DurabilityMode where
  | sync
  | dataSync
  | groupSync
  | write
  deriving DecidableEq, Repr

/-- The budgets of the queued bytes. -/
inductive Budget where
  | total
  | cls (c : WriteClass)
  deriving DecidableEq, Repr

structure WriteTask where
  key : GoString
  body : Blob
  sizeBytes : Int
  writeClass : WriteClass
  deriving DecidableEq

/-- The size that is reserved: an unknown length counts as 0. -/
def WriteTask.dataBytes (task : WriteTask) : Int := if task.sizeBytes < 0 then 0 else task.sizeBytes

/-- Why the worker could not write a file. -/
inductive WriteError where
  | path
  | open
  | copy
  | sync
  deriving DecidableEq, Repr

inductive StoreError where
  | invalidKey
  | overloaded
  | classOverloaded
  | queueFull
  | write (e : WriteError)
  | cancelled
  deriving DecidableEq, Repr

abbrev WriteResult := Except WriteError Nat

/-! ## The state -/

/-- Where the caller is in `storeStreamWithClass`. `releasing` holds the budgets that are still to
be given back; `clamp` says that the first of them has just become negative. -/
inductive CallStage where
  | reserve
  | swap (current : Int)
  | reserveClass
  | swapClass (current : Int)
  | enqueue
  | releasing (budgets : List Budget) (clamp : Bool) (err : StoreError)
  | waiting
  | returned (res : Except StoreError Nat)
  deriving DecidableEq

structure Call where
  task : WriteTask
  stage : CallStage
  done : Option WriteResult
  deriving DecidableEq

/-- A queued task and the call that it reports to. -/
structure Job where
  call : Nat
  task : WriteTask
  deriving DecidableEq

/-- Where a worker is with its task. -/
inductive WorkStage where
  | opening
  | copying (path : GoString) (written : Nat)
  | syncing
  | releasing (budgets : List Budget) (clamp : Bool) (res : WriteResult)
  deriving DecidableEq

/-- A worker first looks into the foreground queue and then waits on both. -/
inductive Worker where
  | idle
  | blocked
  | busy (job : Job) (stage : WorkStage)
  deriving DecidableEq

structure QueueConfig where
  maxQueuedWriteBytes : Int
  maxBackgroundQueuedWriteBytes : Int
  durabilityMode : DurabilityMode
  queueCapacity : Nat := 5000

structure StorageEngine where
  config : QueueConfig
  files : GoString → Option Blob
  queuedWriteBytes : Int
  queuedForegroundWriteBytes : Int
  queuedBackgroundWriteBytes : Int
  calls : List Call
  foregroundWriteQueue : List Job
  backgroundWriteQueue : List Job
  workers : List Worker

namespace StorageEngine

def counter (n : StorageEngine) : Budget → Int
  | .total => n.queuedWriteBytes
  | .cls .foreground => n.queuedForegroundWriteBytes
  | .cls .background => n.queuedBackgroundWriteBytes

def setCounter (n : StorageEngine) (b : Budget) (x : Int) : StorageEngine :=
  match b with
  | .total => { n with queuedWriteBytes := x }
  | .cls .foreground => { n with queuedForegroundWriteBytes := x }
  | .cls .background => { n with queuedBackgroundWriteBytes := x }

def queue (n : StorageEngine) : WriteClass → List Job
  | .foreground => n.foregroundWriteQueue
  | .background => n.backgroundWriteQueue

def setQueue (n : StorageEngine) (c : WriteClass) (jobs : List Job) : StorageEngine :=
  match c with
  | .foreground => { n with foregroundWriteQueue := jobs }
  | .background => { n with backgroundWriteQueue := jobs }

/-- A node with nothing queued. -/
def start (config : QueueConfig) (files : GoString → Option Blob) (ioWorkers : Nat) :
    StorageEngine where
  config := config
  files := files
  queuedWriteBytes := 0
  queuedForegroundWriteBytes := 0
  queuedBackgroundWriteBytes := 0
  calls := []
  foregroundWriteQueue := []
  backgroundWriteQueue := []
  workers := List.replicate (max 1 ioWorkers) .idle

/-! ## Steps -/

/-- `atomic.AddInt64`. -/
def addCounter (n : StorageEngine) (b : Budget) (x : Int) : StorageEngine :=
  n.setCounter b (wrap64 (n.counter b + x))

/-- One step of `releaseQueuedWriteBytes` and `releaseQueuedWriteClassBytes`, run one after the
other: the node, and the budgets that are left. -/
def release (n : StorageEngine) (bytes : Int) :
    List Budget → Bool → StorageEngine × List Budget × Bool
  | [], _ => (n, [], false)
  | b :: rest, true => (n.setCounter b 0, rest, false)
  | b :: rest, false =>
    if bytes ≤ 0 then (n, rest, false)
    else
      let next := wrap64 (n.counter b + -bytes)
      if next < 0 then (n.setCounter b next, b :: rest, true)
      else (n.setCounter b next, rest, false)

/-- The budgets in the order in which they are given back. -/
def budgetsOf (task : WriteTask) : List Budget := [.total, .cls task.writeClass]

/-- One step of a caller: the node, and the caller's next stage. -/
def callStep (n : StorageEngine) (i : Nat) (call : Call) : Option (StorageEngine × CallStage) :=
  let bytes := call.task.dataBytes
  match call.stage with
  | .reserve =>
    if n.config.maxQueuedWriteBytes ≤ 0 then some (n.addCounter .total bytes, .reserveClass)
    else some (n, .swap n.queuedWriteBytes)
  | .swap current =>
    let next := wrap64 (current + bytes)
    if next > n.config.maxQueuedWriteBytes then some (n, .returned (.error .overloaded))
    else if n.queuedWriteBytes = current then some (n.setCounter .total next, .reserveClass)
    else some (n, .reserve)
  | .reserveClass =>
    match call.task.writeClass with
    | .foreground => some (n.addCounter (.cls .foreground) bytes, .enqueue)
    | .background =>
      if n.config.maxBackgroundQueuedWriteBytes ≤ 0 then
        some (n.addCounter (.cls .background) bytes, .enqueue)
      else some (n, .swapClass n.queuedBackgroundWriteBytes)
  | .swapClass current =>
    let next := wrap64 (current + bytes)
    if next > n.config.maxBackgroundQueuedWriteBytes then
      some (n, .releasing [.total] false .classOverloaded)
    else if n.queuedBackgroundWriteBytes = current then
      some (n.setCounter (.cls .background) next, .enqueue)
    else some (n, .reserveClass)
  | .enqueue =>
    let c := call.task.writeClass
    if (n.queue c).length < n.config.queueCapacity then
      some (n.setQueue c (n.queue c ++ [⟨i, call.task⟩]), .waiting)
    else some (n, .releasing (budgetsOf call.task) false .queueFull)
  | .releasing budgets clamp err =>
    match budgets with
    | [] => some (n, .returned (.error err))
    | b :: rest =>
      let (n, left, clamp) := n.release bytes (b :: rest) clamp
      some (n, .releasing left clamp err)
  | .waiting =>
    match call.done with
    | none => none
    | some (.ok size) => some (n, .returned (.ok size))
    | some (.error e) => some (n, .returned (.error (.write e)))
  | .returned _ => none

/-- What the file system and the body reader do in a step of a worker: they fail, or they go on
with some more bytes. -/
inductive Disk where
  | fail
  | ok (bytes : Nat)
  deriving DecidableEq

/-- A write of some bytes at an offset of a file. -/
def writeAt (file : Blob) (offset : Nat) (chunk : Blob) : Blob :=
  file.take offset ++ List.replicate (offset - file.length) 0 ++ chunk ++
    file.drop (offset + chunk.length)

def setFile (n : StorageEngine) (path : GoString) (content : Blob) : StorageEngine :=
  { n with files := Function.update n.files path (some content) }

/-- One step of `writeReaderWithSyncer` and of what the worker does after it: the node, and the
worker's next stage. -/
def writeStep (n : StorageEngine) (task : WriteTask) (disk : Disk) :
    WorkStage → StorageEngine × WorkStage
  | .opening =>
    match getSafePath task.key, disk with
    | .error _, _ => (n, .releasing (budgetsOf task) false (.error .path))
    | .ok _, .fail => (n, .releasing (budgetsOf task) false (.error .open))
    | .ok path, .ok _ => (n.setFile path [], .copying path 0)
  | .copying path written =>
    match disk with
    | .fail => (n, .releasing (budgetsOf task) false (.error .copy))
    | .ok bytes =>
      let chunk := (task.body.drop written).take (bytes + 1)
      if chunk = [] then
        if n.config.durabilityMode = .write then
          (n, .releasing (budgetsOf task) false (.ok task.body.length))
        else (n, .syncing)
      else (n.setFile path (writeAt ((n.files path).getD []) written chunk),
        .copying path (written + chunk.length))
  | .syncing =>
    match disk with
    | .fail => (n, .releasing (budgetsOf task) false (.error .sync))
    | .ok _ => (n, .releasing (budgetsOf task) false (.ok task.body.length))
  | .releasing budgets clamp res =>
    let (n, left, clamp) := n.release task.dataBytes budgets clamp
    (n, .releasing left clamp res)

/-- A worker takes the first task of a queue. -/
def take (n : StorageEngine) (c : WriteClass) : Option (StorageEngine × Worker) :=
  match n.queue c with
  | [] => none
  | job :: rest => some (n.setQueue c rest, .busy job .opening)

/-- The report of a worker to the call of its task. -/
def report (n : StorageEngine) (i : Nat) (res : WriteResult) : StorageEngine :=
  { n with calls := n.calls.modify i fun call => { call with done := some res } }

/-- One step of a worker. While it waits on both queues, `pick` says which one it takes from. -/
def workerStep (n : StorageEngine) (pick : WriteClass) (disk : Disk) :
    Worker → Option (StorageEngine × Worker)
  | .idle =>
    match n.take .foreground with
    | some next => some next
    | none => some (n, .blocked)
  | .blocked => n.take pick
  | .busy job (.releasing [] _ res) => some (n.report job.call res, .idle)
  | .busy job stage =>
    let (n, stage) := n.writeStep job.task disk stage
    some (n, .busy job stage)

inductive Event where
  | arrive (task : WriteTask)
  | caller (i : Nat)
  | cancel (i : Nat)
  | worker (j : Nat) (pick : WriteClass) (disk : Disk)

/-- A new call of `storeStreamWithClass`. -/
def newCall (task : WriteTask) : Call where
  task := task
  stage := match getSafePath task.key with
    | .error _ => .returned (.error .invalidKey)
    | .ok _ => .reserve
  done := none

def step (n : StorageEngine) : Event → Option StorageEngine
  | .arrive task => some { n with calls := n.calls ++ [newCall task] }
  | .caller i => do
    let call ← n.calls[i]?
    let (n, stage) ← n.callStep i call
    some { n with calls := n.calls.set i { call with stage := stage } }
  | .cancel i => do
    let call ← n.calls[i]?
    match call.stage with
    | .waiting =>
      some { n with calls := n.calls.set i { call with stage := .returned (.error .cancelled) } }
    | _ => none
  | .worker j pick disk => do
    let worker ← n.workers[j]?
    let (n, worker) ← n.workerStep pick disk worker
    some { n with workers := n.workers.set j worker }

/-- A run of the node. -/
def run (n : StorageEngine) : List Event → Option StorageEngine
  | [] => some n
  | e :: es => (n.step e).bind fun n => n.run es

end StorageEngine

end WriteQueue

end TieredStore.Node
