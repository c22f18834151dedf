import SifarOS.ProcessTable

/-! # The scheduler

`kernel/sched.c`, one step for each section that runs with interrupts off. A thread is its
descriptor, found by address: the heap may hand a freed descriptor's block out again, and
`thread_join` keeps a pointer across a section where that can happen. Where a thread is inside
one of the functions is kept in `place`, in the place of its saved stack. The process that ends
with its main thread is the subject of `ProcessTable`; the check of the stack guard is left out. -/
namespace SifarOS.Scheduler
open ProcessTable

/-- The address of a `struct thread`. -/
abbrev Address := ℕ

/-- `&boot_thread`. -/
def boot : Address := 0

/-- `QUANTUM_TICKS`. -/
def quantumTicks : ℤ := 5

/-- Where a thread is, when it is inside a function of the scheduler and interrupts are on. -/
inductive Place
  /-- in no function of the scheduler -/
  | outside
  /-- `thread_create`: a slot has been chosen -/
  | creating (slot : ThreadSlot)
  /-- `thread_create`: the descriptor is built, `next_tid` not read yet -/
  | numbering (slot : ThreadSlot) (t : Address)
  /-- `thread_create`: inside `next_tid++`, between its load and its store -/
  | numbered (slot : ThreadSlot) (t : Address) (tid : Int32)
  /-- `thread_create`: about to store the descriptor in the table -/
  | publishing (slot : ThreadSlot) (t : Address)
  /-- `thread_join`: at the head of the loop -/
  | joining (tid : Int32)
  /-- `thread_join`: between its two sections, with `found` in hand -/
  | claiming (tid : Int32) (found : Address)
  /-- `thread_join`: about to yield -/
  | rejoining (tid : Int32)
  /-- `thread_kill`: a thread has been killed, about to compare it with the caller -/
  | killed (tid : Int32)
  /-- `sched_reap`: at the head of the loop -/
  | reaping (i : ℕ)
  /-- `sched_reap`: a descriptor is out of the table, its stack about to be freed -/
  | freeing (i : ℕ) (t : Address)
  /-- `sched_reap`: the stack is freed, the descriptor not yet -/
  | unstacked (i : ℕ) (t : Address)
  /-- `thread_exit`: after its switch, where only a panic follows -/
  | exited
  deriving DecidableEq, Repr

/-- `struct thread`, and what the thread would resume with: its place and the value the last
function returned. -/
structure Thread where
  tid : Int32 := 0
  state : ThreadState := .ready
  wakeAtMs : UInt64 := 0
  cpuTicks : UInt64 := 0
  exitCode : Int32 := 0
  detached : Bool := false
  stackFreed : Bool := false
  place : Place := .outside
  result : Int32 := 0
  deriving DecidableEq, Repr

/-- The static data of `sched.c` and `timer.c`, the descriptors in the heap, and whose stack the
processor is on. -/
structure Sched where
  memory : Address → Option Thread
  threads : ThreadSlot → Option Address
  current : Address
  cpu : Address
  nextTid : Int32 := 1
  needResched : Bool := false
  sliceLeft : ℤ := quantumTicks
  exitHistory : Fin 32 → Int32 × Int32 := fun _ => (0, 0)
  exitHistoryNext : Fin 32 := 0
  ticks : UInt64
  frequency : UInt64

/-- After `sched_init`, at whatever time. -/
def start (ticks frequency : UInt64) : Sched where
  memory := Function.update (fun _ => none) boot (some { state := .running })
  threads := Function.update (fun _ => none) 0 (some boot)
  current := boot
  cpu := boot
  ticks := ticks
  frequency := frequency

namespace Sched

/-- `timer_ms`. -/
def timerMs (s : Sched) : UInt64 := s.ticks * 1000 / s.frequency

/-- A store into a descriptor. One whose block is no descriptor any more is not there to change. -/
def update (s : Sched) (a : Address) (f : Thread → Thread) : Sched :=
  { s with memory := Function.update s.memory a ((s.memory a).map f) }

/-- The running thread goes on to another place. -/
def goto (s : Sched) (place : Place) : Sched := s.update s.cpu fun t => { t with place := place }

/-- The running thread leaves the scheduler's function with a value. -/
def returns (s : Sched) (value : Int32) : Sched :=
  s.update s.cpu fun t => { t with place := .outside, result := value }

/-- `remember_exit`. -/
def rememberExit (s : Sched) (tid code : Int32) : Sched :=
  { s with
    exitHistory := Function.update s.exitHistory s.exitHistoryNext (tid, code)
    exitHistoryNext := s.exitHistoryNext + 1 }

/-- `recall_exit`, with the caller's default of zero. -/
def recallExit (s : Sched) (tid : Int32) : Int32 :=
  match (List.finRange 32).find? fun i => (s.exitHistory i).1 = tid with
  | some i => (s.exitHistory i).2
  | none => 0

/-- `t && t->state == state`, for a table entry. -/
def inState (s : Sched) (entry : Option Address) (state : ThreadState) : Bool :=
  (entry.bind s.memory).any fun t => t.state = state

/-- `pick_next`: round robin from the current thread; then the current one, if it can go on; else
the entry of thread 0, whatever its state. -/
def pickNext (s : Sched) : Option Address :=
  let start : ThreadSlot := ((List.finRange 32).find? fun i => s.threads i = some s.current).getD 0
  match (List.range 32).findSome? fun step =>
      let t := s.threads (start + Fin.ofNat 32 (step + 1))
      if s.inState t .ready then t else none with
  | some t => some t
  | none =>
    if s.inState (some s.current) .running ∨ s.inState (some s.current) .ready then some s.current
    else s.threads 0

def setState (s : Sched) (a : Address) (state : ThreadState) : Sched :=
  s.update a fun t => { t with state := state }

/-- `switch_to`; its last line, `context_switch`, moves the processor to the other stack. -/
def switchTo (s : Sched) (next : Address) : Sched :=
  let prev := s.current
  if next = prev then
    if s.inState (some prev) .ready then s.setState prev .running else s
  else
    let s := if s.inState (some prev) .running then s.setState prev .ready else s
    let s := s.setState next .running
    { s with current := next, sliceLeft := quantumTicks, cpu := next }

/-- The loop of `sched_tick` over the table. -/
def wake (s : Sched) : Sched :=
  (List.finRange 32).foldl (fun s i =>
    match s.threads i with
    | some a => s.update a fun t =>
        if t.state = .sleeping ∧ s.timerMs ≥ t.wakeAtMs then { t with state := .ready } else t
    | none => s) s

/-- The end of `sched_tick`: the slice gets shorter. -/
def age (s : Sched) : Sched :=
  if s.sliceLeft - 1 ≤ 0 then { s with sliceLeft := quantumTicks, needResched := true }
  else { s with sliceLeft := s.sliceLeft - 1 }

/-- `timer_irq`, which is `sched_tick` one tick later. -/
def schedTick (s : Sched) : Sched :=
  let s := { s with ticks := s.ticks + 1 }
  (s.update s.current fun t => { t with cpuTicks := t.cpuTicks + 1 }).wake.age

/-- The thread `thread_kill` kills. -/
def killTarget (s : Sched) (tid : Int32) : Option Address :=
  (List.finRange 32).findSome? fun i =>
    match s.threads i with
    | some a => if (s.memory a).any fun t => t.tid = tid ∧ t.tid ≠ 0 ∧ t.state ≠ .zombie then some a else none
    | none => none

/-- The thread `thread_join` finds. -/
def findThread (s : Sched) (tid : Int32) : Option Address :=
  (List.finRange 32).findSome? fun i =>
    match s.threads i with
    | some a => if (s.memory a).any fun t => t.tid = tid then some a else none
    | none => none

/-- The next entry from `i` on that `sched_reap` frees. -/
def reapTarget (s : Sched) (i : ℕ) : Option (ThreadSlot × Address) :=
  (List.finRange 32).findSome? fun j =>
    match s.threads j with
    | some a =>
      if i ≤ j.val ∧ (s.memory a).any (fun t => t.state = .zombie ∧ t.detached) ∧ a ≠ s.current then some (j, a)
      else none
    | none => none

def setEntry (s : Sched) (slot : ThreadSlot) (entry : Option Address) : Sched :=
  { s with threads := Function.update s.threads slot entry }

/-- The block at `a` becomes a descriptor, or is none any more. -/
def setBlock (s : Sched) (a : Address) (t : Option Thread) : Sched :=
  { s with memory := Function.update s.memory a t }

def clearResched (s : Sched) : Sched := { s with needResched := false }

def setNextTid (s : Sched) (tid : Int32) : Sched := { s with nextTid := tid }

end Sched

/-- The functions a thread can call. -/
inductive Call
  | create
  | yield
  | sleep (ms : UInt32)
  | exit (code : Int32)
  | join (tid : Int32)
  | kill (tid : Int32)
  | reap
  deriving DecidableEq, Repr

/-- What can happen next: an interrupt, a call, or the running thread goes on inside a function. The
heap's answer is an argument there, and so is what a freed descriptor reads as: `some code` if its
state reads as `THREAD_ZOMBIE`. -/
inductive Action
  | tick
  | preempt
  | call (c : Call)
  | next (block : Option Address) (stale : Option Int32)
  deriving DecidableEq, Repr

namespace Sched

/-- The first section of a function. The flag tells that the section goes on with
`switch_to(pick_next())`. -/
def enter (s : Sched) : Call → Sched × Bool
  | .create =>
    match (List.finRange 32).find? fun i => s.threads i = none with
    | none => (s.returns (-1), false)
    | some slot => (s.goto (.creating slot), false)
  | .yield => (s.clearResched, true)
  | .sleep ms =>
    (s.update s.current fun t => { t with wakeAtMs := s.timerMs + ms.toUInt64, state := .sleeping }, true)
  | .exit code =>
    let tid := ((s.memory s.current).map Thread.tid).getD 0
    (((s.update s.current fun t => { t with exitCode := code, state := .zombie }).rememberExit tid code).goto .exited,
      true)
  | .join tid => (s.goto (.joining tid), false)
  | .kill tid =>
    match s.killTarget tid with
    | none => (s.returns (-1), false)
    | some a =>
      (((s.update a fun t => { t with state := .zombie, exitCode := -1 }).rememberExit tid (-1)).goto (.killed tid),
        false)
  | .reap => (s.goto (.reaping 1), false)

/-- The section that follows a place. -/
def resume (s : Sched) (block : Option Address) (stale : Option Int32) : Place → Option (Sched × Bool)
  | .outside => none
  | .creating slot =>
    match block with
    | none => some (s.returns (-1), false)
    | some a =>
      if (s.memory a).isSome then none
      else some ((s.setBlock a (some {})).goto (.numbering slot a), false)
  | .numbering slot a => some (s.goto (.numbered slot a s.nextTid), false)
  | .numbered slot a tid =>
    some (((s.setNextTid (tid + 1)).update a fun t => { t with tid := tid, state := .ready, detached := true }).goto
      (.publishing slot a), false)
  | .publishing slot a =>
    some ((s.setEntry slot (some a)).returns (((s.memory a).map Thread.tid).getD 0), false)
  | .joining tid =>
    match s.findThread tid with
    | none => some (s.returns (s.recallExit tid), false)
    | some a => some (s.goto (.claiming tid a), false)
  | .claiming tid a =>
    match s.memory a with
    | some t =>
      if t.state = .zombie then some ((s.update a fun t => { t with detached := true }).returns t.exitCode, false)
      else some ((s.update a fun t => { t with detached := false }).goto (.rejoining tid), false)
    | none =>
      match stale with
      | some code => some (s.returns code, false)
      | none => some (s.goto (.rejoining tid), false)
  | .rejoining tid => some (s.clearResched.goto (.joining tid), true)
  | .killed tid =>
    if (s.memory s.current).any fun t => t.tid = tid then some (s.clearResched.returns 0, true)
    else some (s.returns 0, false)
  | .reaping i =>
    match s.reapTarget i with
    | none => some (s.returns 0, false)
    | some (j, a) => some ((s.setEntry j none).goto (.freeing j a), false)
  | .freeing i a => some ((s.update a fun t => { t with stackFreed := true }).goto (.unstacked i a), false)
  | .unstacked i a => some ((s.setBlock a none).goto (.reaping (i + 1)), false)
  | .exited => none

/-- What happens up to the call of `pick_next`, if there is one. -/
def prelude (s : Sched) : Action → Option (Sched × Bool)
  | .tick => some (s.schedTick, false)
  | .preempt => if s.needResched then some (s.clearResched, true) else some (s, false)
  | .call c =>
    match s.memory s.cpu with
    | some t => if t.place = .outside then some (s.enter c) else none
    | none => none
  | .next block stale =>
    match s.memory s.cpu with
    | some t => s.resume block stale t.place
    | none => none

/-- One step. -/
def step (s : Sched) (a : Action) : Option Sched :=
  match s.prelude a with
  | none => none
  | some (s, false) => some s
  | some (s, true) => s.pickNext.map s.switchTo

end Sched

end SifarOS.Scheduler
