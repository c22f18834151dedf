import SifarOS.ProcessTable
import SifarOS.ReachableStates

/-! # How processes and their threads end

The same two tables as in `ProcessWait`, with preemption between any two statements that touch
them, and between reading and writing `next_pid` and `next_tid`. A kernel thread can be interrupted everywhere; a thread that has entered ring 3 comes back
through an interrupt gate, so inside a system call it gives way only where it yields. The machine
also records which thread was started for the process now in a slot: `main_tid` is written only
after that thread may have run. -/
namespace SifarOS.ProcessLifecycle
open ProcessTable

/-- Where a thread stands in the functions that touch the tables. The name of a constructor tells
the statement that comes next. -/
inductive Pc
  | body
  | entry (slot : Slot)
  -- `allocate` and `proc_spawn_image`
  | allocScan (i : Slot)
  | recycleScan (i : Slot)
  | recycleTake (i : Slot)
  | spawnClear (i : Slot)
  | spawnPid (i : Slot)
  | spawnNextPid (i : Slot) (pid : Int32)
  | spawnRun (i : Slot)
  | spawnMemory (i : Slot)
  | spawnFail (i : Slot)
  | spawnMain (i : Slot) (tid : ℤ)
  -- `thread_create`, for a process slot or for the kernel
  | createScan (slot : Option Slot)
  | createTid (slot : Option Slot) (j : ThreadSlot)
  | createNextTid (slot : Option Slot) (j : ThreadSlot) (tid : Int32)
  | createPublish (slot : Option Slot) (j : ThreadSlot) (tid : ℤ)
  -- `proc_exit` and `thread_exit`
  | exitMark (i : Slot) (code : ℤ)
  | exitThread (code : ℤ)
  -- `proc_kill`
  | killThread (i : Slot)
  | killMark (i : Slot)
  -- `proc_wait` and `proc_try_wait`
  | waitState (i : Slot)
  | waitTest (i : Slot)
  | waitClean (i : Slot)
  | waitFree (i : Slot)
  | tryTest (i : Slot)
  -- `sched_reap` and `proc_reap`
  | reapThread (j : ThreadSlot)
  | reapCheck (i : Slot)
  | reapExists (i : Slot)
  | reapClean (i : Slot)
  deriving DecidableEq, Repr

/-- The points at which a system call lets other threads run, and the ring 3 code around it. -/
def Pc.switches : Pc → Bool
  | .body | .entry _ | .waitState _ | .waitClean _ => true
  | _ => false

/-- The table slot an unfinished `proc_spawn_image` has taken from `allocate`. -/
def Pc.holds : Pc → Option Slot
  | .spawnClear i | .spawnPid i | .spawnNextPid i _ | .spawnRun i | .spawnMemory i | .spawnFail i
  | .spawnMain i _ => some i
  | .createScan slot | .createTid slot _ | .createNextTid slot _ _ | .createPublish slot _ _ => slot
  | _ => none

/-- The tid a thread has drawn for the thread it is about to publish. -/
def Pc.draws : Pc → Option ℤ
  | .createPublish _ _ tid => some tid
  | _ => none

/-- A statement outside `process_entry`, `thread_create` and the tail of `proc_spawn_image`. -/
def Pc.plain : Pc → Bool
  | .entry _ | .spawnClear _ | .spawnPid _ | .spawnNextPid _ _ | .spawnRun _ | .spawnMemory _ | .spawnFail _ => false
  | .spawnMain _ _ | .createScan _ | .createTid _ _ | .createNextTid _ _ _ | .createPublish _ _ _ => false
  | _ => true

structure Machine where
  kernel : Kernel Pc
  /-- The thread started for the process now in a slot. -/
  started : Slot → Option ℤ

def start : Machine where
  kernel := boot .body
  started := fun _ => none

/-- A function called from a thread's own code. -/
inductive Call
  | procSpawnImage
  | threadCreate
  | procExit (code : ℤ)
  | threadExit (code : ℤ)
  | procKill (pid : ℤ)
  | threadKill (tid : ℤ)
  | procWait (pid : ℤ)
  | procTryWait (pid : ℤ)
  | schedReap
  | procReap
  deriving DecidableEq, Repr

/-- A thread begins a call, executes its next statement, or finds that memory for it is short. -/
inductive Action
  | call (c : Call)
  | next
  | fail
  deriving DecidableEq, Repr

namespace Machine

/-- The thread `t` of slot `j` goes on at `pc`. -/
def goto (m : Machine) (j : ThreadSlot) (t : Thread Pc) (pc : Pc) : Machine :=
  { m with kernel := m.kernel.setThread j (some { t with frame := pc }) }

def setProc (m : Machine) (i : Slot) (p : Process) : Machine :=
  { m with kernel := m.kernel.setProc i p }

/-- The pid that `proc_current` finds for a thread. -/
def currentPid (m : Machine) (t : Thread Pc) : ℤ :=
  match t.proc with
  | some i => (m.kernel.table i).pid
  | none => (m.kernel.table 0).pid

/-- The first statement of a call. `proc_wait`, `proc_try_wait` and `proc_kill` look up their
slot here; `thread_kill` is over in this step. -/
def begin (m : Machine) (j : ThreadSlot) (t : Thread Pc) : Call → Machine
  | .procSpawnImage => m.goto j t (.allocScan 1)
  | .threadCreate => m.goto j t (.createScan none)
  | .procExit code => match t.proc with
    | some i => m.goto j t (.exitMark i code)
    | none => m.goto j t (.exitThread code)
  | .threadExit code => m.goto j t (.exitThread code)
  | .procKill pid => match m.kernel.procByPid pid with
    | some i => if i = 0 ∨ (m.kernel.table i).state ≠ .running then m else m.goto j t (.killThread i)
    | none => m
  | .threadKill tid => { m with kernel := m.kernel.threadKill tid }
  | .procWait pid => match m.kernel.procByPid pid with
    | some i => if i = 0 then m else m.goto j t (.waitState i)
    | none => m
  | .procTryWait pid => match m.kernel.procByPid pid with
    | some i => if i = 0 then m else m.goto j t (.tryTest i)
    | none => m
  | .schedReap => if j = 0 then m.goto j t (.reapThread 1) else m
  | .procReap => if j = 0 then m.goto j t (.reapCheck 1) else m

/-- Where a failed `thread_create` leads. -/
def createFailed : Option Slot → Pc
  | some i => .spawnFail i
  | none => .body

/-- The next turn of a loop over a table of 32 slots. -/
def nextTurn (i : Fin 32) (turn : Fin 32 → Pc) (done : Pc) : Pc := if i = 31 then done else turn (i + 1)

/-- The statement a thread stands at. -/
def exec (m : Machine) (j : ThreadSlot) (t : Thread Pc) : Machine :=
  let p := m.kernel.table
  match t.frame with
  | .body => m
  | .entry i => { m with kernel := m.kernel.setThread j (some { t with proc := some i, user := true, frame := .body }) }
  | .allocScan i => m.goto j t (if (p i).state = .free then .spawnClear i
      else nextTurn i .allocScan (.recycleScan 1))
  | .recycleScan i => m.goto j t (if (p i).state = .zombie ∧ (p i).cleaned = true then .recycleTake i
      else nextTurn i .recycleScan .body)
  | .recycleTake i => (m.setProc i { p i with state := .free }).goto j t (.spawnClear i)
  | .spawnClear i => { (m.setProc i {}).goto j t (.spawnPid i) with started := Function.update m.started i none }
  | .spawnPid i => m.goto j t (.spawnNextPid i m.kernel.nextPid)
  | .spawnNextPid i pid =>
    let m' := (m.setProc i { p i with pid := pid.toInt, parent := m.currentPid t }).goto j t (.spawnRun i)
    { m' with kernel := { m'.kernel with nextPid := pid + 1 } }
  | .spawnRun i => (m.setProc i { p i with state := .running }).goto j t (.spawnMemory i)
  | .spawnMemory i => m.goto j t (.createScan (some i))
  | .spawnFail i => (m.setProc i { p i with state := .free }).goto j t .body
  | .createScan slot => match m.kernel.freeThreadSlot with
    | some j' => m.goto j t (.createTid slot j')
    | none => m.goto j t (createFailed slot)
  | .createTid slot j' => m.goto j t (.createNextTid slot j' m.kernel.nextTid)
  | .createNextTid slot j' tid =>
    let m' := m.goto j t (.createPublish slot j' tid.toInt)
    { m' with kernel := { m'.kernel with nextTid := tid + 1 } }
  | .createPublish slot j' tid => match slot with
    | some i =>
      let m' : Machine :=
        { kernel := m.kernel.setThread j' (some { tid := tid, frame := .entry i })
          started := Function.update m.started i (some tid) }
      m'.goto j t (.spawnMain i tid)
    | none =>
      let m' := { m with kernel := m.kernel.setThread j' (some { tid := tid, frame := .body }) }
      m'.goto j t .body
  | .spawnMain i tid => (m.setProc i { p i with mainTid := tid }).goto j t .body
  | .exitMark i code => (m.setProc i { p i with exitCode := code, state := .zombie }).goto j t (.exitThread code)
  | .exitThread code => { m with kernel := m.kernel.threadExit j code }
  | .killThread i =>
    let m' := m.goto j t (.killMark i)
    { m' with kernel := m'.kernel.threadKill (p i).mainTid }
  | .killMark i => (m.setProc i { p i with exitCode := -1, state := .zombie }).goto j t .body
  | .waitState i => m.goto j t (if (p i).state = .running then .waitState i else .waitTest i)
  | .waitTest i => m.goto j t (if (p i).cleaned = false then .waitClean i else .waitFree i)
  | .waitClean i => m.goto j t (if (p i).cleaned = false then .waitClean i else .waitFree i)
  | .waitFree i => (m.setProc i { p i with state := .free }).goto j t .body
  | .tryTest i => m.goto j t (if (p i).state = .running ∨ (p i).cleaned = false then .body else .waitFree i)
  | .reapThread j' =>
    let m' := m.goto j t (nextTurn j' .reapThread .body)
    { m' with kernel := m'.kernel.schedReapAt j j' }
  | .reapCheck i => m.goto j t (if (p i).state ≠ .zombie ∨ (p i).cleaned = true
      then nextTurn i .reapCheck .body else .reapExists i)
  | .reapExists i => m.goto j t (if m.kernel.threadExists (p i).mainTid = true
      then nextTurn i .reapCheck .body else .reapClean i)
  | .reapClean i => (m.setProc i { p i with cleaned := true }).goto j t (nextTurn i .reapCheck .body)

/-- Memory runs out while a process or a thread is being built. -/
def execFail (m : Machine) (j : ThreadSlot) (t : Thread Pc) : Machine :=
  match t.frame with
  | .spawnMemory i => m.goto j t (.spawnFail i)
  | .createTid slot _ => m.goto j t (createFailed slot)
  | _ => m

/-- A system call in progress keeps every other thread off the processor. -/
def Busy (t : Thread Pc) : Prop := t.user = true ∧ t.state ≠ .zombie ∧ t.frame.switches = false

instance (t : Thread Pc) : Decidable (Busy t) := inferInstanceAs (Decidable (_ ∧ _))

/-- Whether the thread in slot `j` can be on the processor. -/
def runnable (m : Machine) (j : ThreadSlot) : Bool :=
  (List.finRange 32).all (fun j' => match m.kernel.threads j' with
    | some t => decide (j' = j ∨ ¬Busy t)
    | none => true)

/-- One step of the thread in slot `j`. -/
def step (m : Machine) (j : ThreadSlot) (a : Action) : Option Machine :=
  match m.kernel.threads j with
  | none => none
  | some t =>
    if t.state = .zombie ∨ m.runnable j = false then none else
    match a with
    | .call c => if t.frame = .body then some (m.begin j t c) else none
    | .next => some (m.exec j t)
    | .fail => some (m.execFail j t)

/-- A live thread of that tid is in the table. -/
def Alive (m : Machine) (tid : ℤ) : Prop := ∃ j t, m.kernel.threads j = some t ∧ t.tid = tid ∧ t.state ≠ .zombie

/-- Some thread has ended the thread of slot `i` in `proc_kill` and is about to mark the process. -/
def KillInProgress (m : Machine) (i : Slot) : Prop :=
  ∃ j t, m.kernel.threads j = some t ∧ t.state ≠ .zombie ∧ t.frame = .killMark i

/-- No entry says `PROC_RUNNING` for a process whose thread has ended, once the operation that
ended it is over. -/
def Agree (m : Machine) : Prop :=
  ∀ i tid, (m.kernel.table i).state = .running → m.started i = some tid → m.Alive tid ∨ m.KillInProgress i

/-- No other unfinished spawn has taken slot `i`. -/
def Unheld (m : Machine) (i : Slot) : Prop :=
  ∀ j t, m.kernel.threads j = some t → t.state ≠ .zombie → t.frame.holds ≠ some i

/-- The steps that keep the two tables in agreement:
* `proc_kill` is not called on the caller's own process;
* the shell's `thread_kill` names neither the thread of a running process nor a thread that is
  between the two halves of `proc_kill`;
* a process's thread does not fault before `main_tid` has been stored;
* no other thread increments `next_tid` between the load and the store of `next_tid++`, and it does not wrap;
* `thread_create` finds the slot it had picked still empty;
* `allocate` does not hand out a slot that another unfinished spawn has. -/
def Careful (m : Machine) (t : Thread Pc) : Action → Prop
  | .call (.threadKill tid) =>
    (∀ i, (m.kernel.table i).state = .running → m.started i ≠ some tid) ∧
      ∀ j t', m.kernel.threads j = some t' → t'.tid = tid → ∀ i, t'.frame ≠ .killMark i
  | .next => match t.frame with
    | .killThread i => (m.kernel.table i).mainTid ≠ t.tid
    | .exitThread _ => ∀ i, t.proc = some i → (m.kernel.table i).state = .running → (m.kernel.table i).mainTid ≠ 0
    | .createNextTid _ _ tid => m.kernel.nextTid = tid ∧ tid.toInt < 2147483647
    | .createPublish _ j _ => m.kernel.threads j = none
    | .allocScan i => (m.kernel.table i).state = .free → m.Unheld i
    | .recycleTake i => m.Unheld i
    | _ => True
  | _ => True

instance (m : Machine) (tid : ℤ) : Decidable (m.Alive tid) :=
  inferInstanceAs (Decidable (∃ j, ∃ t ∈ m.kernel.threads j, t.tid = tid ∧ t.state ≠ .zombie))

instance (m : Machine) (i : Slot) : Decidable (m.KillInProgress i) :=
  inferInstanceAs (Decidable (∃ j, ∃ t ∈ m.kernel.threads j, t.state ≠ .zombie ∧ t.frame = .killMark i))

instance (m : Machine) (i : Slot) : Decidable (m.Unheld i) :=
  inferInstanceAs (Decidable (∀ j, ∀ t ∈ m.kernel.threads j, t.state ≠ .zombie → t.frame.holds ≠ some i))

instance (m : Machine) (t : Thread Pc) (a : Action) : Decidable (m.Careful t a) := by
  unfold Careful
  split
  · exact inferInstanceAs (Decidable ((∀ i, (m.kernel.table i).state = .running → m.started i ≠ some _) ∧
      ∀ j, ∀ t' ∈ m.kernel.threads j, t'.tid = _ → ∀ i, t'.frame ≠ .killMark i))
  · split <;> infer_instance
  · infer_instance

/-- Any step. -/
def Step (m m' : Machine) : Prop := ∃ j a, m.step j a = some m'

/-- A careful step. -/
def CarefulStep (m m' : Machine) : Prop :=
  ∃ j a t, m.kernel.threads j = some t ∧ m.Careful t a ∧ m.step j a = some m'

/-! ## The invariant -/

/-- What a thread in the middle of a spawn relies on. -/
def Local (m : Machine) : Pc → Prop
  | .spawnPid i | .spawnNextPid i _ | .spawnRun i | .spawnMemory i => m.started i = none
  | .createScan slot | .createTid slot _ | .createNextTid slot _ _ => ∀ i, slot = some i → m.started i = none
  | .createPublish slot _ tid => (∀ i, slot = some i → m.started i = none) ∧ 0 < tid ∧ tid < m.kernel.nextTid.toInt ∧
      (∀ j t, m.kernel.threads j = some t → t.tid ≠ tid) ∧ ∀ i, m.started i ≠ some tid
  | .spawnMain i tid => m.started i = some tid
  | _ => True

structure Inv (m : Machine) : Prop where
  tid_lt : ∀ j t, m.kernel.threads j = some t → t.tid < m.kernel.nextTid.toInt
  tid_inj : ∀ j j' t t', m.kernel.threads j = some t → m.kernel.threads j' = some t' → t.tid = t'.tid → j = j'
  nextTid_pos : 0 < m.kernel.nextTid.toInt
  started_range : ∀ i tid, m.started i = some tid → 0 < tid ∧ tid < m.kernel.nextTid.toInt
  started_inj : ∀ i i' tid, m.started i = some tid → m.started i' = some tid → i = i'
  main : ∀ i, (m.kernel.table i).mainTid = 0 ∨ m.started i = some (m.kernel.table i).mainTid
  hold_inj : ∀ j j' t t' i, m.kernel.threads j = some t → m.kernel.threads j' = some t' →
    t.state ≠ .zombie → t'.state ≠ .zombie → t.frame.holds = some i → t'.frame.holds = some i → j = j'
  draw_inj : ∀ j j' t t' tid, m.kernel.threads j = some t → m.kernel.threads j' = some t' →
    t.state ≠ .zombie → t'.state ≠ .zombie → t.frame.draws = some tid → t'.frame.draws = some tid → j = j'
  loc : ∀ j t, m.kernel.threads j = some t → t.state ≠ .zombie → m.Local t.frame
  ident : ∀ j t i, m.kernel.threads j = some t → t.state ≠ .zombie → m.started i = some t.tid →
    t.frame = .entry i ∨ t.proc = some i
  user : ∀ j t i, m.kernel.threads j = some t → t.state ≠ .zombie → t.proc = some i → t.user = true
  fresh : ∀ j t i, m.kernel.threads j = some t → t.state ≠ .zombie → t.frame = .entry i → t.proc = none
  agree : m.Agree

variable {m : Machine} {j : ThreadSlot} {t : Thread Pc}

theorem inv_start : Inv start := by
  have ht : ∀ j t, start.kernel.threads j = some t →
      j = 0 ∧ t = { tid := 0, state := .running, frame := .body } := by
    intro j t h
    by_cases hj : j = 0
    · subst hj
      simp only [start, boot, Function.update_self, Option.some.injEq] at h
      exact ⟨rfl, h.symm⟩
    · simp [start, boot, hj] at h
  constructor
  · intro j t h
    obtain ⟨_, rfl⟩ := ht j t h
    simp [start, boot]
  · intro j j' t t' h h' _
    exact (ht j t h).1.trans (ht j' t' h').1.symm
  · simp [start, boot]
  · intro i tid h
    cases h
  · intro i i' tid h
    cases h
  · intro i
    left
    by_cases hi : i = 0
    · simp [start, boot, hi]
    · simp [start, boot, hi]
  · intro j j' t t' i h h' _ _ _ _
    exact (ht j t h).1.trans (ht j' t' h').1.symm
  · intro j j' t t' i h h' _ _ _ _
    exact (ht j t h).1.trans (ht j' t' h').1.symm
  · intro j t h _
    obtain ⟨_, rfl⟩ := ht j t h
    trivial
  · intro j t i _ _ h
    cases h
  · intro j t i h _ hp
    obtain ⟨_, rfl⟩ := ht j t h
    cases hp
  · intro j t i h _ _
    obtain ⟨_, rfl⟩ := ht j t h
    rfl
  · intro i tid _ h
    cases h

/-- The threads after a move of slot `j`: the moved one, and the others as they were. -/
theorem setThread_back {k : Kernel Pc} {u : Thread Pc} {j₁ : ThreadSlot} {t₁ : Thread Pc}
    (h : (k.setThread j (some u)).threads j₁ = some t₁) :
    j₁ = j ∧ t₁ = u ∨ j₁ ≠ j ∧ k.threads j₁ = some t₁ := by
  by_cases he : j₁ = j
  · subst he
    rw [Kernel.setThread_threads_self, Option.some.injEq] at h
    exact Or.inl ⟨rfl, h.symm⟩
  · rw [Kernel.setThread_threads_ne k _ he] at h
    exact Or.inr ⟨he, h⟩

/-- A thread that was not in slot `j`, or the one that was, has its successor after a move. -/
theorem alive_setThread {m' : Machine} {u : Thread Pc} (hk : m'.kernel.threads = (m.kernel.setThread j (some u)).threads)
    (hj : m.kernel.threads j = some t) (htid : u.tid = t.tid) (hst : u.state = t.state) {tid : ℤ}
    (h : m.Alive tid) : m'.Alive tid := by
  obtain ⟨j₁, t₁, h₁, he, hz⟩ := h
  by_cases hjj : j₁ = j
  · subst hjj
    rw [hj, Option.some.injEq] at h₁
    subst h₁
    exact ⟨j₁, u, by rw [hk, Kernel.setThread_threads_self], htid.trans he, hst ▸ hz⟩
  · exact ⟨j₁, t₁, by rw [hk, Kernel.setThread_threads_ne _ _ hjj]; exact h₁, he, hz⟩

/-- The live thread of slot `j` moves. The conditions are what its new place must satisfy; the
last one keeps a kill in progress from being abandoned. -/
theorem Inv.move (h : m.Inv) (hj : m.kernel.threads j = some t) (hz : t.state ≠ .zombie) {u : Thread Pc}
    (htid : u.tid = t.tid) (hst : u.state = t.state)
    (hhold : ∀ i, u.frame.holds = some i → t.frame.holds = some i ∨ m.Unheld i)
    (hdraw : ∀ tid, u.frame.draws = some tid → ∀ j' t', m.kernel.threads j' = some t' → t'.state ≠ .zombie →
      t'.frame.draws ≠ some tid) (hloc : m.Local u.frame)
    (hident : ∀ i, m.started i = some t.tid → u.frame = .entry i ∨ u.proc = some i)
    (huser : ∀ i, u.proc = some i → u.user = true) (hfresh : ∀ i, u.frame ≠ .entry i)
    (hkill : ∀ i, t.frame = .killMark i → (m.kernel.table i).state ≠ .running) :
    Inv { m with kernel := m.kernel.setThread j (some u) } where
  tid_lt := by
    intro j₁ t₁ h₁
    rcases setThread_back h₁ with ⟨rfl, rfl⟩ | ⟨_, h₁⟩
    · exact htid ▸ h.tid_lt _ t hj
    · exact h.tid_lt j₁ t₁ h₁
  tid_inj := by
    intro j₁ j₂ t₁ t₂ h₁ h₂ he
    rcases setThread_back h₁ with ⟨rfl, rfl⟩ | ⟨_, g₁⟩ <;> rcases setThread_back h₂ with ⟨rfl, rfl⟩ | ⟨_, g₂⟩
    · rfl
    · exact h.tid_inj _ _ t t₂ hj g₂ (htid ▸ he)
    · exact h.tid_inj _ _ t₁ t g₁ hj (htid ▸ he)
    · exact h.tid_inj j₁ j₂ t₁ t₂ g₁ g₂ he
  nextTid_pos := h.nextTid_pos
  started_range := h.started_range
  started_inj := h.started_inj
  main := h.main
  hold_inj := by
    intro j₁ j₂ t₁ t₂ i h₁ h₂ hz₁ hz₂ hh₁ hh₂
    rcases setThread_back h₁ with ⟨rfl, rfl⟩ | ⟨_, g₁⟩ <;> rcases setThread_back h₂ with ⟨rfl, rfl⟩ | ⟨_, g₂⟩
    · rfl
    · rcases hhold i hh₁ with hh | hh
      · exact h.hold_inj _ _ t t₂ i hj g₂ hz hz₂ hh hh₂
      · exact absurd hh₂ (hh j₂ t₂ g₂ hz₂)
    · rcases hhold i hh₂ with hh | hh
      · exact h.hold_inj _ _ t₁ t i g₁ hj hz₁ hz hh₁ hh
      · exact absurd hh₁ (hh j₁ t₁ g₁ hz₁)
    · exact h.hold_inj j₁ j₂ t₁ t₂ i g₁ g₂ hz₁ hz₂ hh₁ hh₂
  draw_inj := by
    intro j₁ j₂ t₁ t₂ tid h₁ h₂ hz₁ hz₂ hd₁ hd₂
    rcases setThread_back h₁ with ⟨rfl, rfl⟩ | ⟨_, g₁⟩ <;> rcases setThread_back h₂ with ⟨rfl, rfl⟩ | ⟨_, g₂⟩
    · rfl
    · exact absurd hd₂ (hdraw tid hd₁ j₂ t₂ g₂ hz₂)
    · exact absurd hd₁ (hdraw tid hd₂ j₁ t₁ g₁ hz₁)
    · exact h.draw_inj j₁ j₂ t₁ t₂ tid g₁ g₂ hz₁ hz₂ hd₁ hd₂
  loc := by
    have hkeep : ∀ pc, m.Local pc → Local { m with kernel := m.kernel.setThread j (some u) } pc := by
      intro pc hpc
      cases pc with
      | createPublish slot j' tid =>
        obtain ⟨h₁, h₂, h₃, h₄, h₅⟩ := hpc
        refine ⟨h₁, h₂, h₃, ?_, h₅⟩
        intro j₁ t₁ ht₁
        rcases setThread_back ht₁ with ⟨rfl, rfl⟩ | ⟨_, ht₁⟩
        · exact htid ▸ h₄ _ t hj
        · exact h₄ j₁ t₁ ht₁
      | _ => exact hpc
    intro j₁ t₁ h₁ hz₁
    rcases setThread_back h₁ with ⟨rfl, rfl⟩ | ⟨_, h₁⟩
    · exact hkeep _ hloc
    · exact hkeep _ (h.loc j₁ t₁ h₁ hz₁)
  ident := by
    intro j₁ t₁ i h₁ hz₁ hs
    rcases setThread_back h₁ with ⟨rfl, rfl⟩ | ⟨_, h₁⟩
    · exact hident i (htid ▸ hs)
    · exact h.ident j₁ t₁ i h₁ hz₁ hs
  user := by
    intro j₁ t₁ i h₁ hz₁ hp
    rcases setThread_back h₁ with ⟨rfl, rfl⟩ | ⟨_, h₁⟩
    · exact huser i hp
    · exact h.user j₁ t₁ i h₁ hz₁ hp
  fresh := by
    intro j₁ t₁ i h₁ hz₁ he
    rcases setThread_back h₁ with ⟨rfl, rfl⟩ | ⟨_, h₁⟩
    · exact absurd he (hfresh i)
    · exact h.fresh j₁ t₁ i h₁ hz₁ he
  agree := by
    intro i tid hr hs
    rcases h.agree i tid hr hs with ha | ⟨j₁, t₁, h₁, hz₁, hk⟩
    · exact Or.inl (alive_setThread rfl hj htid hst ha)
    · by_cases hjj : j₁ = j
      · subst hjj
        rw [hj, Option.some.injEq] at h₁
        subst h₁
        exact absurd hr (hkill i hk)
      · exact Or.inr ⟨j₁, t₁, (Kernel.setThread_threads_ne _ _ hjj).trans h₁, hz₁, hk⟩

/-- The common case of a move: the thread only goes on to its next statement. -/
theorem Inv.goto (h : m.Inv) (hj : m.kernel.threads j = some t) (hz : t.state ≠ .zombie) (pc : Pc)
    (hhold : ∀ i, pc.holds = some i → t.frame.holds = some i ∨ m.Unheld i)
    (hdraw : pc.draws = none) (hloc : m.Local pc) (hfresh : ∀ i, pc ≠ .entry i)
    (hentry : ∀ i, t.frame ≠ .entry i)
    (hkill : ∀ i, t.frame = .killMark i → (m.kernel.table i).state ≠ .running) : (m.goto j t pc).Inv := by
  refine h.move hj hz (u := { t with frame := pc }) rfl rfl hhold
    (fun tid hd => by dsimp only at hd; rw [hdraw] at hd; cases hd) hloc ?_ ?_ hfresh hkill
  · intro i hs
    rcases h.ident j t i hj hz hs with he | hp
    · exact absurd he (hentry i)
    · exact Or.inr hp
  · exact fun i hp => h.user j t i hj hz hp

/-- The thread goes on in the same call and keeps the slot it has. -/
theorem Inv.advance (h : m.Inv) (hj : m.kernel.threads j = some t) (hz : t.state ≠ .zombie) {frame : Pc}
    (hf : t.frame = frame) (pc : Pc) (hhold : pc.holds = frame.holds) (hdraw : pc.draws = none) (hloc : m.Local pc)
    (hfresh : ∀ i, pc ≠ .entry i) (hentry : ∀ i, frame ≠ .entry i) (hkill : ∀ i, frame ≠ .killMark i) :
    (m.goto j t pc).Inv := by
  subst hf
  refine h.goto hj hz pc (fun i hi => Or.inl ?_) hdraw hloc hfresh hentry (fun i hi => absurd hi (hkill i))
  rw [← hhold]
  exact hi

/-- A process entry is rewritten; it may start to run only while no thread is started for it. -/
theorem Inv.setProc (h : m.Inv) {i : Slot} {p : Process}
    (hmain : p.mainTid = 0 ∨ m.started i = some p.mainTid)
    (hrun : p.state = .running → (m.kernel.table i).state = .running ∨ m.started i = none) :
    (m.setProc i p).Inv where
  tid_lt := h.tid_lt
  tid_inj := h.tid_inj
  nextTid_pos := h.nextTid_pos
  started_range := h.started_range
  started_inj := h.started_inj
  main := by
    intro i'
    by_cases he : i' = i
    · subst he
      simpa [Machine.setProc] using hmain
    · simpa [Machine.setProc, Kernel.setProc_table_ne _ _ he] using h.main i'
  hold_inj := h.hold_inj
  draw_inj := h.draw_inj
  loc := by
    intro j₁ t₁ h₁ hz₁
    have hl := h.loc j₁ t₁ h₁ hz₁
    cases hf : t₁.frame <;> rw [hf] at hl <;> exact hl
  ident := h.ident
  user := h.user
  fresh := h.fresh
  agree := by
    intro i' tid hr hs
    by_cases he : i' = i
    · subst he
      simp only [Machine.setProc, Kernel.setProc_table_self] at hr
      rcases hrun hr with hr' | hn
      · exact h.agree i' tid hr' hs
      · have hn' : (m.setProc i' p).started i' = none := hn
        rw [hn'] at hs
        cases hs
    · simp only [Machine.setProc, Kernel.setProc_table_ne _ _ he] at hr
      exact h.agree i' tid hr hs

theorem runnable_spec (h : m.runnable j = true) {j' : ThreadSlot} {t' : Thread Pc}
    (hj : m.kernel.threads j' = some t') : j' = j ∨ ¬Busy t' := by
  have hall := List.all_eq_true.mp h j' (List.mem_finRange j')
  simpa [hj] using hall

/-- Threads die, and what the tables say about processes is still true. -/
theorem Inv.shrink (h : m.Inv) {k' : Kernel Pc} (hs : m.kernel.ThreadsShrink k')
    (hmain : ∀ i, (k'.table i).mainTid = (m.kernel.table i).mainTid)
    (ha : Agree { m with kernel := k' }) : Inv { m with kernel := k' } where
  tid_lt := by
    intro j₁ t₁ h₁
    obtain ⟨t₀, h₀, he, _⟩ := hs.thread j₁ t₁ h₁
    have hlt := h.tid_lt j₁ t₀ h₀
    rwa [he, ← hs.nextTid] at hlt
  tid_inj := by
    intro j₁ j₂ t₁ t₂ h₁ h₂ he
    obtain ⟨u₁, g₁, e₁, _⟩ := hs.thread j₁ t₁ h₁
    obtain ⟨u₂, g₂, e₂, _⟩ := hs.thread j₂ t₂ h₂
    exact h.tid_inj j₁ j₂ u₁ u₂ g₁ g₂ (e₁.trans (he.trans e₂.symm))
  nextTid_pos := hs.nextTid ▸ h.nextTid_pos
  started_range := hs.nextTid ▸ h.started_range
  started_inj := h.started_inj
  main := fun i => hmain i ▸ h.main i
  hold_inj := by
    intro j₁ j₂ t₁ t₂ i h₁ h₂ hz₁ hz₂
    exact h.hold_inj j₁ j₂ t₁ t₂ i (hs.live h₁ hz₁) (hs.live h₂ hz₂) hz₁ hz₂
  draw_inj := by
    intro j₁ j₂ t₁ t₂ tid h₁ h₂ hz₁ hz₂
    exact h.draw_inj j₁ j₂ t₁ t₂ tid (hs.live h₁ hz₁) (hs.live h₂ hz₂) hz₁ hz₂
  loc := by
    intro j₁ t₁ h₁ hz₁
    have hl := h.loc j₁ t₁ (hs.live h₁ hz₁) hz₁
    cases hf : t₁.frame with
    | createPublish slot j' tid =>
      rw [hf] at hl
      obtain ⟨l₁, l₂, l₃, l₄, l₅⟩ := hl
      refine ⟨l₁, l₂, hs.nextTid ▸ l₃, ?_, l₅⟩
      intro j₂ t₂ h₂
      obtain ⟨t₀, h₀, he, _⟩ := hs.thread j₂ t₂ h₂
      exact he ▸ l₄ j₂ t₀ h₀
    | _ =>
      rw [hf] at hl
      exact hl
  ident := fun j₁ t₁ i h₁ hz₁ => h.ident j₁ t₁ i (hs.live h₁ hz₁) hz₁
  user := fun j₁ t₁ i h₁ hz₁ => h.user j₁ t₁ i (hs.live h₁ hz₁) hz₁
  fresh := fun j₁ t₁ i h₁ hz₁ => h.fresh j₁ t₁ i (hs.live h₁ hz₁) hz₁
  agree := ha

/-- The thread of slot `j` ends, and no entry that still runs depended on it. -/
theorem Inv.agree_finish (h : m.Inv) (hj : m.kernel.threads j = some t) {k' : Kernel Pc}
    (hthr : ∀ j', j' ≠ j → k'.threads j' = m.kernel.threads j')
    (hrun : ∀ i, (k'.table i).state = .running → (m.kernel.table i).state = .running)
    (hstart : ∀ i, (k'.table i).state = .running → m.started i ≠ some t.tid)
    (hkill : ∀ i, (k'.table i).state = .running → t.frame ≠ .killMark i) :
    Agree { m with kernel := k' } := by
  intro i tid hr hs
  rcases h.agree i tid (hrun i hr) hs with ⟨j₁, t₁, h₁, he, hz⟩ | ⟨j₁, t₁, h₁, hz, hk⟩
  · have hne : j₁ ≠ j := by
      rintro rfl
      rw [hj, Option.some.injEq] at h₁
      subst h₁
      exact hstart i hr (he ▸ hs)
    exact Or.inl ⟨j₁, t₁, (hthr j₁ hne).trans h₁, he, hz⟩
  · have hne : j₁ ≠ j := by
      rintro rfl
      rw [hj, Option.some.injEq] at h₁
      subst h₁
      exact hkill i hr hk
    exact Or.inr ⟨j₁, t₁, (hthr j₁ hne).trans h₁, hz, hk⟩

/-- `thread_kill` of a thread no running entry depends on. -/
theorem Inv.threadKill (h : m.Inv) {tid : ℤ}
    (hstart : ∀ i, (m.kernel.table i).state = .running → m.started i ≠ some tid)
    (hkill : ∀ j t', m.kernel.threads j = some t' → t'.tid = tid → ∀ i, t'.frame ≠ .killMark i) :
    Inv { m with kernel := m.kernel.threadKill tid } := by
  refine h.shrink (m.kernel.threadKill_shrink tid) (fun i => by simp) ?_
  unfold Kernel.threadKill
  split
  · rename_i j₁ hk
    obtain ⟨t₁, h₁, he, _, _⟩ := Kernel.killTarget_some hk
    refine h.agree_finish h₁ (fun j' hne => Kernel.finishThread_threads_ne _ _ hne) ?_ ?_ ?_
    · intro i hr
      simpa using hr
    · intro i hr
      rw [Kernel.finishThread_table] at hr
      exact he ▸ hstart i hr
    · exact fun i _ => hkill j₁ t₁ h₁ he i
  · exact h.agree

/-- The first half of `proc_kill`: the killer stays alive to mark the process. -/
theorem Inv.killThread (h : m.Inv) (hj : m.kernel.threads j = some t) (hz : t.state ≠ .zombie)
    (hrun : m.runnable j = true) {i : Slot} (hf : t.frame = .killThread i)
    (hself : (m.kernel.table i).mainTid ≠ t.tid) :
    Inv { m.goto j t (.killMark i) with
      kernel := (m.goto j t (.killMark i)).kernel.threadKill (m.kernel.table i).mainTid } := by
  have h₁ : (m.goto j t (.killMark i)).Inv :=
    h.goto hj hz _ (fun i' hh => by cases hh) rfl trivial (by simp) (fun i' he => by rw [hf] at he; cases he)
      (fun i' he => by rw [hf] at he; cases he)
  have hme : (m.goto j t (.killMark i)).kernel.threads j = some { t with frame := .killMark i } := by
    simp [Machine.goto]
  refine h₁.shrink (Kernel.threadKill_shrink _ _) (fun i' => by simp) ?_
  unfold Kernel.threadKill
  split
  · rename_i j₁ hk
    obtain ⟨t₁, g₁, he, h0, _⟩ := Kernel.killTarget_some hk
    have hne : j ≠ j₁ := by
      rintro rfl
      rw [hme, Option.some.injEq] at g₁
      subst g₁
      exact hself he.symm
    have g₀ : m.kernel.threads j₁ = some t₁ := (Kernel.setThread_threads_ne _ _ hne.symm).symm.trans g₁
    intro i' tid hr hs
    rw [Kernel.finishThread_table] at hr
    have hkeep : ∀ j', j' ≠ j₁ → ((m.goto j t (.killMark i)).kernel.finishThread j₁ (-1)).threads j' =
        (m.goto j t (.killMark i)).kernel.threads j' := fun j' hne => Kernel.finishThread_threads_ne _ _ hne
    by_cases htid : tid = (m.kernel.table i).mainTid
    · -- the thread just killed was this process's own: the killer is still to mark it
      have hst := (h.main i).resolve_left h0
      have hii : i' = i := h.started_inj i' i _ hs (htid ▸ hst)
      exact Or.inr ⟨j, _, (hkeep j hne).trans hme, hz, hii ▸ rfl⟩
    · rcases h₁.agree i' tid hr hs with ⟨j₂, t₂, h₂, he₂, hz₂⟩ | ⟨j₂, t₂, h₂, hz₂, hk₂⟩
      · have hne₂ : j₂ ≠ j₁ := by
          rintro rfl
          rw [g₁, Option.some.injEq] at h₂
          subst h₂
          exact htid (he₂.symm.trans he)
        exact Or.inl ⟨j₂, t₂, (hkeep j₂ hne₂).trans h₂, he₂, hz₂⟩
      · have hne₂ : j₂ ≠ j₁ := by
          -- a process thread inside `proc_kill` would have kept this one off the processor
          rintro rfl
          rw [g₁, Option.some.injEq] at h₂
          subst h₂
          have hst := (h.main i).resolve_left h0
          have hid := h.ident _ t₁ i g₀ hz₂ (he ▸ hst)
          rw [hk₂] at hid
          have hp := hid.resolve_left (by simp)
          have hb : Busy t₁ := ⟨h.user _ t₁ i g₀ hz₂ hp, hz₂, by rw [hk₂]; rfl⟩
          rcases runnable_spec hrun g₀ with hj' | hb'
          · exact hne hj'.symm
          · exact hb' hb
        exact Or.inr ⟨j₂, t₂, (hkeep j₂ hne₂).trans h₂, hz₂, hk₂⟩
  · exact h₁.agree

/-- `thread_exit` after `main_tid` has been stored. -/
theorem Inv.exitThread (h : m.Inv) (hj : m.kernel.threads j = some t) (hz : t.state ≠ .zombie)
    {code : ℤ} (hf : t.frame = .exitThread code)
    (hmain : ∀ i, t.proc = some i → (m.kernel.table i).state = .running → (m.kernel.table i).mainTid ≠ 0) :
    Inv { m with kernel := m.kernel.threadExit j code } := by
  have hown : ∀ i, m.started i = some t.tid → t.proc = some i := by
    intro i hs
    have hid := h.ident j t i hj hz hs
    rw [hf] at hid
    exact hid.resolve_left (by simp)
  have hkm : ∀ i, t.frame ≠ .killMark i := fun i he => by rw [hf] at he; cases he
  have hfin : Inv { m with kernel := m.kernel.finishThread j code } ∨ ∃ i, t.proc = some i ∧
      (m.kernel.table i).state = .running ∧ m.started i = some t.tid := by
    by_cases hex : ∃ i, t.proc = some i ∧ (m.kernel.table i).state = .running ∧ m.started i = some t.tid
    · exact Or.inr hex
    · refine Or.inl (h.shrink (m.kernel.finishThread_shrink j code) (fun i => by simp) ?_)
      refine h.agree_finish hj (fun j' hne => Kernel.finishThread_threads_ne _ _ hne) (fun i hr => by simpa using hr)
        ?_ (fun i _ => hkm i)
      intro i hr hs
      rw [Kernel.finishThread_table] at hr
      exact hex ⟨i, hown i hs, hr, hs⟩
  have hmarked : ∀ i, t.proc = some i → (m.kernel.table i).state = .running →
      Inv { m with kernel := (m.kernel.setProc i
        { m.kernel.table i with exitCode := code, state := .zombie }).finishThread j code } := by
    intro i hp hr
    have h₁ := h.setProc (i := i) (p := { m.kernel.table i with exitCode := code, state := .zombie })
      (h.main i) (fun hc => by cases hc)
    refine h₁.shrink (Kernel.finishThread_shrink _ j code) (fun i' => by simp [Machine.setProc]) ?_
    refine h₁.agree_finish (t := t) hj (fun j' hne => Kernel.finishThread_threads_ne _ _ hne)
      (fun i' hr' => by simpa [Machine.setProc] using hr') ?_ (fun i' _ => hkm i')
    intro i' hr' hs
    rw [Kernel.finishThread_table] at hr'
    have hi : i' = i := Option.some.inj ((hown i' hs).symm.trans hp)
    subst hi
    simp at hr'
  unfold Kernel.threadExit
  simp only [hj]
  cases hp : t.proc with
  | none =>
    rcases hfin with hfin | ⟨i, hp', _⟩
    · exact hfin
    · rw [hp] at hp'
      cases hp'
  | some i =>
    dsimp only
    split
    · rename_i hc
      exact hmarked i hp hc.2
    · rename_i hc
      rcases hfin with hfin | ⟨i', hp', hr, hs⟩
      · exact hfin
      · -- the process runs, so `main_tid` is stored, and it can only be this thread's
        have hii : i' = i := Option.some.inj (hp'.symm.trans hp)
        subst hii
        have hst := (h.main i').resolve_left (hmain i' hp' hr)
        exact absurd ⟨Option.some.inj (hst.symm.trans hs), hr⟩ hc

/-- A process entry whose thread has not been started begins anew. -/
theorem Inv.clear (h : m.Inv) {i : Slot} (hmain : (m.kernel.table i).mainTid = 0)
    (hlate : ∀ j t tid, m.kernel.threads j = some t → t.state ≠ .zombie → t.frame ≠ .spawnMain i tid) :
    Inv { m with started := Function.update m.started i none } := by
  have hback : ∀ i' tid, Function.update m.started i none i' = some tid → m.started i' = some tid := by
    intro i' tid hs
    by_cases he : i' = i
    · subst he
      rw [Function.update_self] at hs
      cases hs
    · rwa [Function.update_of_ne he] at hs
  have hnone : ∀ i', m.started i' = none → Function.update m.started i none i' = none := by
    intro i' hn
    by_cases he : i' = i
    · subst he
      exact Function.update_self _ _ _
    · rwa [Function.update_of_ne he]
  exact {
    tid_lt := h.tid_lt
    tid_inj := h.tid_inj
    nextTid_pos := h.nextTid_pos
    started_range := fun i' tid hs => h.started_range i' tid (hback i' tid hs)
    started_inj := fun i₁ i₂ tid h₁ h₂ => h.started_inj i₁ i₂ tid (hback i₁ tid h₁) (hback i₂ tid h₂)
    main := by
      intro i'
      by_cases he : i' = i
      · exact Or.inl (he ▸ hmain)
      · simpa [Function.update_of_ne he] using h.main i'
    hold_inj := h.hold_inj
    draw_inj := h.draw_inj
    loc := by
      intro j₁ t₁ h₁ hz₁
      have hl := h.loc j₁ t₁ h₁ hz₁
      cases hf : t₁.frame with
      | spawnPid i' => rw [hf] at hl; exact hnone i' hl
      | spawnNextPid i' pid => rw [hf] at hl; exact hnone i' hl
      | spawnRun i' => rw [hf] at hl; exact hnone i' hl
      | spawnMemory i' => rw [hf] at hl; exact hnone i' hl
      | createScan slot => rw [hf] at hl; exact fun i' he => hnone i' (hl i' he)
      | createTid slot j' => rw [hf] at hl; exact fun i' he => hnone i' (hl i' he)
      | createNextTid slot j' tid => rw [hf] at hl; exact fun i' he => hnone i' (hl i' he)
      | spawnMain i' tid =>
        rw [hf] at hl
        have hne : i' ≠ i := fun he => hlate j₁ t₁ tid h₁ hz₁ (he ▸ hf)
        exact (Function.update_of_ne hne _ _).trans hl
      | createPublish slot j' tid =>
        rw [hf] at hl
        obtain ⟨l₁, l₂, l₃, l₄, l₅⟩ := hl
        exact ⟨fun i' he => hnone i' (l₁ i' he), l₂, l₃, l₄, fun i' hs => l₅ i' (hback i' tid hs)⟩
      | _ => trivial
    ident := fun j₁ t₁ i' h₁ hz₁ hs => h.ident j₁ t₁ i' h₁ hz₁ (hback i' _ hs)
    user := h.user
    fresh := h.fresh
    agree := fun i' tid hr hs => h.agree i' tid hr (hback i' tid hs) }

/-- Drawing a tid. -/
theorem Inv.bump (h : m.Inv) (hleft : m.kernel.nextTid.toInt < 2147483647) :
    Inv { m with kernel := { m.kernel with nextTid := m.kernel.nextTid + 1 } } where
  tid_lt := by
    intro j₁ t₁ h₁
    have hlt := h.tid_lt j₁ t₁ h₁
    rw [Kernel.counter_succ hleft]
    omega
  tid_inj := h.tid_inj
  nextTid_pos := by
    have hpos := h.nextTid_pos
    rw [Kernel.counter_succ hleft]
    omega
  started_range := by
    intro i tid hs
    have hlt := h.started_range i tid hs
    rw [Kernel.counter_succ hleft]
    omega
  started_inj := h.started_inj
  main := h.main
  hold_inj := h.hold_inj
  draw_inj := h.draw_inj
  loc := by
    intro j₁ t₁ h₁ hz₁
    have hl := h.loc j₁ t₁ h₁ hz₁
    cases hf : t₁.frame with
    | createPublish slot j' tid =>
      rw [hf] at hl
      obtain ⟨l₁, l₂, l₃, l₄, l₅⟩ := hl
      refine ⟨l₁, l₂, ?_, l₄, l₅⟩
      rw [Kernel.counter_succ hleft]
      omega
    | _ =>
      rw [hf] at hl
      exact hl
  ident := h.ident
  user := h.user
  fresh := h.fresh
  agree := h.agree

/-- A new thread of a fresh tid in an empty slot, for the kernel or for a process entry that had
none. -/
theorem Inv.publish (h : m.Inv) {j' : ThreadSlot} (hj' : m.kernel.threads j' = none) {tid : ℤ}
    (hlt : 0 < tid ∧ tid < m.kernel.nextTid.toInt) (hnew : ∀ j t, m.kernel.threads j = some t → t.tid ≠ tid)
    (hnone : ∀ i, m.started i ≠ some tid)
    (hdraw : ∀ j t, m.kernel.threads j = some t → t.state ≠ .zombie → t.frame.draws ≠ some tid) {pc : Pc}
    (hpc : pc = .body ∨ ∃ i, pc = .entry i) :
    Inv { m with kernel := m.kernel.setThread j' (some { tid := tid, frame := pc }) } := by
  have hholds : pc.holds = none := by rcases hpc with rfl | ⟨i, rfl⟩ <;> rfl
  have hdraws : pc.draws = none := by rcases hpc with rfl | ⟨i, rfl⟩ <;> rfl
  have hkeep : ∀ j₁, j₁ ≠ j' → ∀ t₁, m.kernel.threads j₁ = some t₁ →
      (m.kernel.setThread j' (some { tid := tid, frame := pc })).threads j₁ = some t₁ :=
    fun j₁ hne t₁ h₁ => (Kernel.setThread_threads_ne _ _ hne).trans h₁
  have hold : ∀ j₁ t₁, m.kernel.threads j₁ = some t₁ → j₁ ≠ j' := by
    rintro j₁ t₁ h₁ rfl
    rw [hj'] at h₁
    cases h₁
  constructor
  · intro j₁ t₁ h₁
    rcases setThread_back h₁ with ⟨rfl, rfl⟩ | ⟨_, g₁⟩
    · exact hlt.2
    · exact h.tid_lt j₁ t₁ g₁
  · intro j₁ j₂ t₁ t₂ h₁ h₂ he
    rcases setThread_back h₁ with ⟨rfl, rfl⟩ | ⟨_, g₁⟩ <;> rcases setThread_back h₂ with ⟨rfl, rfl⟩ | ⟨_, g₂⟩
    · rfl
    · exact absurd he.symm (hnew j₂ t₂ g₂)
    · exact absurd he (hnew j₁ t₁ g₁)
    · exact h.tid_inj j₁ j₂ t₁ t₂ g₁ g₂ he
  · exact h.nextTid_pos
  · exact h.started_range
  · exact h.started_inj
  · exact h.main
  · intro j₁ j₂ t₁ t₂ i h₁ h₂ hz₁ hz₂ hh₁ hh₂
    rcases setThread_back h₁ with ⟨rfl, rfl⟩ | ⟨_, g₁⟩
    · rw [hholds] at hh₁
      cases hh₁
    · rcases setThread_back h₂ with ⟨rfl, rfl⟩ | ⟨_, g₂⟩
      · rw [hholds] at hh₂
        cases hh₂
      · exact h.hold_inj j₁ j₂ t₁ t₂ i g₁ g₂ hz₁ hz₂ hh₁ hh₂
  · intro j₁ j₂ t₁ t₂ i h₁ h₂ hz₁ hz₂ hh₁ hh₂
    rcases setThread_back h₁ with ⟨rfl, rfl⟩ | ⟨_, g₁⟩
    · rw [hdraws] at hh₁
      cases hh₁
    · rcases setThread_back h₂ with ⟨rfl, rfl⟩ | ⟨_, g₂⟩
      · rw [hdraws] at hh₂
        cases hh₂
      · exact h.draw_inj j₁ j₂ t₁ t₂ i g₁ g₂ hz₁ hz₂ hh₁ hh₂
  · intro j₁ t₁ h₁ hz₁
    rcases setThread_back h₁ with ⟨rfl, rfl⟩ | ⟨_, g₁⟩
    · rcases hpc with rfl | ⟨i, rfl⟩ <;> trivial
    · have hl := h.loc j₁ t₁ g₁ hz₁
      have hd := hdraw j₁ t₁ g₁ hz₁
      cases hf : t₁.frame with
      | createPublish slot j₂ tid₂ =>
        rw [hf] at hl hd
        obtain ⟨l₁, l₂, l₃, l₄, l₅⟩ := hl
        refine ⟨l₁, l₂, l₃, ?_, l₅⟩
        intro j₃ t₃ h₃
        rcases setThread_back h₃ with ⟨rfl, rfl⟩ | ⟨_, g₃⟩
        · exact fun he => hd (congrArg some he.symm)
        · exact l₄ j₃ t₃ g₃
      | _ =>
        rw [hf] at hl
        exact hl
  · intro j₁ t₁ i h₁ hz₁ hs
    rcases setThread_back h₁ with ⟨rfl, rfl⟩ | ⟨_, g₁⟩
    · exact absurd hs (hnone i)
    · exact h.ident j₁ t₁ i g₁ hz₁ hs
  · intro j₁ t₁ i h₁ hz₁ hp
    rcases setThread_back h₁ with ⟨rfl, rfl⟩ | ⟨_, g₁⟩
    · cases hp
    · exact h.user j₁ t₁ i g₁ hz₁ hp
  · intro j₁ t₁ i h₁ hz₁ he
    rcases setThread_back h₁ with ⟨rfl, rfl⟩ | ⟨_, g₁⟩
    · rfl
    · exact h.fresh j₁ t₁ i g₁ hz₁ he
  · intro i tid' hr hs
    rcases h.agree i tid' hr hs with ⟨j₁, t₁, h₁, he, hz⟩ | ⟨j₁, t₁, h₁, hz, hk⟩
    · exact Or.inl ⟨j₁, t₁, hkeep j₁ (hold j₁ t₁ h₁) t₁ h₁, he, hz⟩
    · exact Or.inr ⟨j₁, t₁, hkeep j₁ (hold j₁ t₁ h₁) t₁ h₁, hz, hk⟩

/-- From the moment a process thread is in the table it counts as started. -/
theorem Inv.begun (h : m.Inv) {i : Slot} {tid : ℤ} (hn : m.started i = none)
    (hmain : (m.kernel.table i).mainTid = 0) (hlt : 0 < tid ∧ tid < m.kernel.nextTid.toInt)
    (hnone : ∀ i, m.started i ≠ some tid)
    (hdraw : ∀ j t, m.kernel.threads j = some t → t.state ≠ .zombie → t.frame.draws ≠ some tid)
    (hheld : ∀ j t, m.kernel.threads j = some t → t.state ≠ .zombie → t.frame.holds ≠ some i)
    (hthread : ∃ j t, m.kernel.threads j = some t ∧ t.tid = tid ∧ t.state ≠ .zombie ∧ t.frame = .entry i) :
    Inv { m with started := Function.update m.started i (some tid) } := by
  have hback : ∀ i' tid', Function.update m.started i (some tid) i' = some tid' →
      i' = i ∧ tid' = tid ∨ i' ≠ i ∧ m.started i' = some tid' := by
    intro i' tid' hs
    by_cases he : i' = i
    · subst he
      rw [Function.update_self, Option.some.injEq] at hs
      exact Or.inl ⟨rfl, hs.symm⟩
    · rw [Function.update_of_ne he] at hs
      exact Or.inr ⟨he, hs⟩
  exact {
    tid_lt := h.tid_lt
    tid_inj := h.tid_inj
    nextTid_pos := h.nextTid_pos
    started_range := by
      intro i' tid' hs
      rcases hback i' tid' hs with ⟨_, rfl⟩ | ⟨_, hs'⟩
      · exact hlt
      · exact h.started_range i' tid' hs'
    started_inj := by
      intro i₁ i₂ tid' h₁ h₂
      rcases hback i₁ tid' h₁ with ⟨rfl, rfl⟩ | ⟨_, g₁⟩ <;> rcases hback i₂ _ h₂ with ⟨e₂, f₂⟩ | ⟨_, g₂⟩
      · exact e₂.symm
      · exact absurd g₂ (hnone i₂)
      · exact absurd (f₂ ▸ g₁) (hnone i₁)
      · exact h.started_inj i₁ i₂ tid' g₁ g₂
    main := by
      intro i'
      by_cases he : i' = i
      · exact Or.inl (he ▸ hmain)
      · simpa [Function.update_of_ne he] using h.main i'
    hold_inj := h.hold_inj
    draw_inj := h.draw_inj
    loc := by
      intro j₁ t₁ h₁ hz₁
      have hl := h.loc j₁ t₁ h₁ hz₁
      have hh := hheld j₁ t₁ h₁ hz₁
      have hd := hdraw j₁ t₁ h₁ hz₁
      have hkeep : ∀ i', t₁.frame.holds = some i' → Function.update m.started i (some tid) i' = m.started i' := by
        intro i' hi'
        exact Function.update_of_ne (fun he => by subst he; exact hh hi') _ _
      cases hf : t₁.frame with
      | spawnPid i' => rw [hf] at hl hkeep; exact (hkeep i' rfl).trans hl
      | spawnNextPid i' pid => rw [hf] at hl hkeep; exact (hkeep i' rfl).trans hl
      | spawnRun i' => rw [hf] at hl hkeep; exact (hkeep i' rfl).trans hl
      | spawnMemory i' => rw [hf] at hl hkeep; exact (hkeep i' rfl).trans hl
      | createScan slot => rw [hf] at hl hkeep; exact fun i' he => (hkeep i' he).trans (hl i' he)
      | createTid slot j' => rw [hf] at hl hkeep; exact fun i' he => (hkeep i' he).trans (hl i' he)
      | createNextTid slot j' tid' => rw [hf] at hl hkeep; exact fun i' he => (hkeep i' he).trans (hl i' he)
      | spawnMain i' tid' => rw [hf] at hl hkeep; exact (hkeep i' rfl).trans hl
      | createPublish slot j' tid' =>
        rw [hf] at hl hkeep hd
        obtain ⟨l₁, l₂, l₃, l₄, l₅⟩ := hl
        refine ⟨fun i' he => (hkeep i' he).trans (l₁ i' he), l₂, l₃, l₄, ?_⟩
        intro i' hs
        rcases hback i' tid' hs with ⟨_, rfl⟩ | ⟨_, hs'⟩
        · exact hd rfl
        · exact l₅ i' hs'
      | _ => trivial
    ident := by
      intro j₁ t₁ i' h₁ hz₁ hs
      rcases hback i' _ hs with ⟨rfl, he⟩ | ⟨_, hs'⟩
      · obtain ⟨j₂, t₂, h₂, he₂, _, hf₂⟩ := hthread
        have hjj := h.tid_inj j₁ j₂ t₁ t₂ h₁ h₂ (he.trans he₂.symm)
        subst hjj
        rw [h₁, Option.some.injEq] at h₂
        exact Or.inl (h₂ ▸ hf₂)
      · exact h.ident j₁ t₁ i' h₁ hz₁ hs'
    user := h.user
    fresh := h.fresh
    agree := by
      intro i' tid' hr hs
      rcases hback i' tid' hs with ⟨rfl, rfl⟩ | ⟨_, hs'⟩
      · obtain ⟨j₂, t₂, h₂, he₂, hz₂, _⟩ := hthread
        exact Or.inl ⟨j₂, t₂, h₂, he₂, hz₂⟩
      · exact h.agree i' tid' hr hs' }

/-! ## Every careful step keeps it -/

theorem Inv.setNextPid (h : m.Inv) (pid : Int32) : Inv { m with kernel := { m.kernel with nextPid := pid } } where
  tid_lt := h.tid_lt
  tid_inj := h.tid_inj
  nextTid_pos := h.nextTid_pos
  started_range := h.started_range
  started_inj := h.started_inj
  main := h.main
  hold_inj := h.hold_inj
  draw_inj := h.draw_inj
  loc := by
    intro j₁ t₁ h₁ hz₁
    have hl := h.loc j₁ t₁ h₁ hz₁
    cases hf : t₁.frame <;> rw [hf] at hl <;> exact hl
  ident := h.ident
  user := h.user
  fresh := h.fresh
  agree := h.agree

theorem Inv.gotoPlain (h : m.Inv) (hj : m.kernel.threads j = some t) (hz : t.state ≠ .zombie) {pc : Pc}
    (hpc : pc.plain = true) (hentry : ∀ i, t.frame ≠ .entry i)
    (hkill : ∀ i, t.frame = .killMark i → (m.kernel.table i).state ≠ .running) : (m.goto j t pc).Inv := by
  obtain ⟨hhold, hdraw, hfresh, hloc⟩ : pc.holds = none ∧ pc.draws = none ∧ (∀ i, pc ≠ .entry i) ∧ m.Local pc := by
    cases pc <;> first | (cases hpc; done) | exact ⟨rfl, rfl, by simp, trivial⟩
  exact h.goto hj hz pc (fun i hi => by rw [hhold] at hi; cases hi) hdraw hloc hfresh hentry hkill

theorem plain_nextTurn {i : Fin 32} {turn : Fin 32 → Pc} {done : Pc} (ht : ∀ i, (turn i).plain = true)
    (hd : done.plain = true) : (nextTurn i turn done).plain = true := by
  unfold nextTurn
  split
  · exact hd
  · exact ht _

theorem Inv.begin (h : m.Inv) (hj : m.kernel.threads j = some t) (hz : t.state ≠ .zombie)
    (hb : t.frame = .body) {c : Call} (hc : m.Careful t (.call c)) : (m.begin j t c).Inv := by
  have hgo : ∀ pc : Pc, pc.plain = true → (m.goto j t pc).Inv :=
    fun pc hpc => h.gotoPlain hj hz hpc (by simp [hb]) (by simp [hb])
  have hfound : ∀ (found : Option Slot) (stop : Slot → Prop) [DecidablePred stop] (pc : Slot → Pc),
      (∀ i, (pc i).plain = true) →
      Inv (match found with | some i => if stop i then m else m.goto j t (pc i) | none => m) := by
    intro found stop _ pc hpc
    cases found with
    | none => exact h
    | some i =>
      dsimp only
      split
      · exact h
      · exact hgo _ (hpc i)
  cases c with
  | procSpawnImage => exact hgo _ rfl
  | threadCreate =>
    exact h.goto hj hz _ (fun i hi => by cases hi) rfl (fun i hi => by cases hi) (by simp) (by simp [hb]) (by simp [hb])
  | procExit code =>
    unfold Machine.begin
    dsimp only
    split <;> exact hgo _ rfl
  | threadExit code => exact hgo _ rfl
  | procKill pid => exact hfound _ _ _ (fun _ => rfl)
  | threadKill tid => exact h.threadKill hc.1 hc.2
  | procWait pid => exact hfound _ _ _ (fun _ => rfl)
  | procTryWait pid => exact hfound _ _ _ (fun _ => rfl)
  | schedReap =>
    unfold Machine.begin
    dsimp only
    split
    · exact hgo _ rfl
    · exact h
  | procReap =>
    unfold Machine.begin
    dsimp only
    split
    · exact hgo _ rfl
    · exact h

/-- `memset` of the entry that `allocate` returned. -/
theorem Inv.spawnClear (h : m.Inv) (hj : m.kernel.threads j = some t) (hz : t.state ≠ .zombie) {i : Slot}
    (hf : t.frame = .spawnClear i) :
    Inv { (m.setProc i {}).goto j t (.spawnPid i) with started := Function.update m.started i none } := by
  have h₁ : (m.setProc i {}).Inv := h.setProc (Or.inl rfl) (fun hr => by cases hr)
  have h₂ : Inv { m.setProc i {} with started := Function.update m.started i none } := by
    refine h₁.clear (by simp [Machine.setProc]) ?_
    intro j' t' tid h' hz' hf'
    -- the only spawn that has this slot is the one that is clearing it
    have hjj := h.hold_inj j j' t t' i hj h' hz hz' (by rw [hf]; rfl) (by rw [hf']; rfl)
    subst hjj
    obtain rfl : t = t' := Option.some.inj (hj.symm.trans h')
    rw [hf] at hf'
    cases hf'
  exact h₂.advance hj hz hf _ rfl rfl (Function.update_self _ _ _) (by simp) (by simp) (by simp)

/-- The tid of the thread that is being built, if no other thread has come in between. -/
theorem Inv.createNextTid (h : m.Inv) (hj : m.kernel.threads j = some t) (hz : t.state ≠ .zombie)
    {slot : Option Slot} {j' : ThreadSlot} {tid : Int32} (hf : t.frame = .createNextTid slot j' tid)
    (hsame : m.kernel.nextTid = tid) (hleft : tid.toInt < 2147483647) :
    Inv { m.goto j t (.createPublish slot j' tid.toInt) with
      kernel := { (m.goto j t (.createPublish slot j' tid.toInt)).kernel with nextTid := tid + 1 } } := by
  subst hsame
  have hl := h.loc j t hj hz
  rw [hf] at hl
  refine (h.bump hleft).move hj hz (u := { t with frame := .createPublish slot j' m.kernel.nextTid.toInt }) rfl rfl
    (fun i hi => Or.inl (by rw [hf]; exact hi)) ?_ ?_ ?_ (fun i hp => h.user j t i hj hz hp) (by simp) (by simp [hf])
  · intro drawn hd j₁ t₁ h₁ hz₁ hd₁
    obtain rfl : m.kernel.nextTid.toInt = drawn := Option.some.inj hd
    have hl₁ := h.loc j₁ t₁ h₁ hz₁
    cases hf₁ : t₁.frame with
    | createPublish slot₁ j₂ tid₁ =>
      rw [hf₁] at hl₁ hd₁
      obtain rfl : tid₁ = m.kernel.nextTid.toInt := Option.some.inj hd₁
      exact absurd hl₁.2.2.1 (lt_irrefl _)
    | _ =>
      rw [hf₁] at hd₁
      cases hd₁
  · refine ⟨hl, h.nextTid_pos, ?_, fun j₁ t₁ h₁ => (h.tid_lt j₁ t₁ h₁).ne, ?_⟩
    · rw [Kernel.counter_succ hleft]
      omega
    · intro i hs
      exact absurd (h.started_range i _ hs).2 (lt_irrefl _)
  · intro i hs
    rcases h.ident j t i hj hz hs with he | hp
    · rw [hf] at he
      cases he
    · exact Or.inr hp

/-- The new thread enters the table. Its creator, back from `thread_create`, has neither the slot
nor the tid any more. -/
theorem Inv.createPublish (h : m.Inv) (hj : m.kernel.threads j = some t) (hz : t.state ≠ .zombie)
    {slot : Option Slot} {j' : ThreadSlot} {tid : ℤ} (hf : t.frame = .createPublish slot j' tid)
    (hfree : m.kernel.threads j' = none) {pc : Pc} (hpc : pc = .body ∨ ∃ i, pc = .entry i) {m' : Machine}
    (hm : m' = { m.goto j t .body with
      kernel := (m.goto j t .body).kernel.setThread j' (some { tid := tid, frame := pc }) }) :
    m'.Inv ∧ ∀ j₁ t₁, m'.kernel.threads j₁ = some t₁ → t₁.state ≠ .zombie →
      t₁.frame.draws ≠ some tid ∧ ∀ i, slot = some i → t₁.frame.holds ≠ some i := by
  subst hm
  have hl := h.loc j t hj hz
  rw [hf] at hl
  obtain ⟨-, l₂, l₃, l₄, l₅⟩ := hl
  have h₁ : (m.goto j t .body).Inv := h.gotoPlain hj hz rfl (by simp [hf]) (by simp [hf])
  have hne : j' ≠ j := by
    rintro rfl
    rw [hj] at hfree
    cases hfree
  have hquiet : ∀ j₁ t₁, (m.goto j t .body).kernel.threads j₁ = some t₁ → t₁.state ≠ .zombie →
      t₁.frame.draws ≠ some tid ∧ ∀ i, slot = some i → t₁.frame.holds ≠ some i := by
    intro j₁ t₁ g₁ hz₁
    rcases setThread_back g₁ with ⟨rfl, rfl⟩ | ⟨hne₁, g₁⟩
    · exact ⟨by simp [Pc.draws], by simp [Pc.holds]⟩
    · constructor
      · intro hd
        exact hne₁ (h.draw_inj j₁ j t₁ t tid g₁ hj hz₁ hz hd (by rw [hf]; rfl))
      · intro i hi hh
        exact hne₁ (h.hold_inj j₁ j t₁ t i g₁ hj hz₁ hz hh (by rw [hf]; exact hi))
  have hnew : ∀ j₁ t₁, (m.goto j t .body).kernel.threads j₁ = some t₁ → t₁.tid ≠ tid := by
    intro j₁ t₁ g₁
    rcases setThread_back g₁ with ⟨rfl, rfl⟩ | ⟨_, g₁⟩
    · exact l₄ _ t hj
    · exact l₄ j₁ t₁ g₁
  refine ⟨h₁.publish ((Kernel.setThread_threads_ne _ _ hne).trans hfree) ⟨l₂, l₃⟩ hnew l₅
    (fun j₁ t₁ g₁ hz₁ => (hquiet j₁ t₁ g₁ hz₁).1) hpc, ?_⟩
  intro j₁ t₁ g₁ hz₁
  rcases setThread_back g₁ with ⟨rfl, rfl⟩ | ⟨_, g₁⟩
  · rcases hpc with rfl | ⟨i, rfl⟩ <;> exact ⟨by simp [Pc.draws], by simp [Pc.holds]⟩
  · exact hquiet j₁ t₁ g₁ hz₁

/-- The kernel thread of `thread_create`. -/
theorem Inv.createKernelThread (h : m.Inv) (hj : m.kernel.threads j = some t) (hz : t.state ≠ .zombie)
    {j' : ThreadSlot} {tid : ℤ} (hf : t.frame = .createPublish none j' tid) (hfree : m.kernel.threads j' = none) :
    Inv (Machine.goto { m with kernel := m.kernel.setThread j' (some { tid := tid, frame := .body }) } j t .body) := by
  have hne : j ≠ j' := by
    rintro rfl
    rw [hj] at hfree
    cases hfree
  refine (h.createPublish hj hz hf hfree (Or.inl rfl) ?_).1
  simp [Machine.goto, Kernel.setThread, Function.update_comm hne]

/-- The thread of a new process. From here on it may run, though `main_tid` is not stored. -/
theorem Inv.createMainThread (h : m.Inv) (hj : m.kernel.threads j = some t) (hz : t.state ≠ .zombie) {i : Slot}
    {j' : ThreadSlot} {tid : ℤ} (hf : t.frame = .createPublish (some i) j' tid)
    (hfree : m.kernel.threads j' = none) :
    Inv (Machine.goto { kernel := m.kernel.setThread j' (some { tid := tid, frame := .entry i })
                        started := Function.update m.started i (some tid) } j t (.spawnMain i tid)) := by
  have hne : j ≠ j' := by
    rintro rfl
    rw [hj] at hfree
    cases hfree
  have hl := h.loc j t hj hz
  rw [hf] at hl
  obtain ⟨l₁, l₂, l₃, -, l₅⟩ := hl
  obtain ⟨h₁, hquiet⟩ := h.createPublish hj hz hf hfree (Or.inr ⟨i, rfl⟩) rfl
  have hmain : (m.kernel.table i).mainTid = 0 := by
    refine (h.main i).resolve_right (fun hs => ?_)
    rw [l₁ i rfl] at hs
    cases hs
  have h₂ := h₁.begun (l₁ i rfl) hmain ⟨l₂, l₃⟩ l₅ (fun j₁ t₁ g₁ hz₁ => (hquiet j₁ t₁ g₁ hz₁).1)
    (fun j₁ t₁ g₁ hz₁ => (hquiet j₁ t₁ g₁ hz₁).2 i rfl)
    ⟨j', _, Kernel.setThread_threads_self _ _ _, rfl, by simp, rfl⟩
  have hme : ((m.goto j t .body).kernel.setThread j' (some { tid := tid, frame := .entry i })).threads j =
      some { t with frame := .body } := by
    rw [Kernel.setThread_threads_ne _ _ hne]
    exact Kernel.setThread_threads_self _ _ _
  have h₃ := h₂.goto hme hz (.spawnMain i tid)
    (fun i' hi => Or.inr (fun j₁ t₁ g₁ hz₁ => hi ▸ (hquiet j₁ t₁ g₁ hz₁).2 i rfl)) rfl
    (Function.update_self _ _ _) (by simp) (by simp) (by simp)
  convert h₃ using 1
  simp [Machine.goto, Kernel.setThread, Function.update_comm hne]

/-- `process_entry`. -/
theorem Inv.entry (h : m.Inv) (hj : m.kernel.threads j = some t) (hz : t.state ≠ .zombie) {i : Slot}
    (hf : t.frame = .entry i) :
    Inv { m with kernel := m.kernel.setThread j (some { t with proc := some i, user := true, frame := .body }) } := by
  refine h.move hj hz rfl rfl (fun i' hi => by cases hi) (fun tid hd => by cases hd) trivial ?_ (fun _ _ => rfl)
    (by simp) (by simp [hf])
  intro i' hs
  rcases h.ident j t i' hj hz hs with he | hp
  · rw [hf] at he
    exact Or.inr (congrArg some (Pc.entry.inj he))
  · rw [h.fresh j t i hj hz hf] at hp
    cases hp

/-- One turn of `sched_reap`. -/
theorem Inv.reapThread (h : m.Inv) (self j' : ThreadSlot) :
    Inv { m with kernel := m.kernel.schedReapAt self j' } := by
  refine h.shrink (m.kernel.schedReapAt_shrink self j') (fun i => by simp) ?_
  intro i tid hr hs
  have hkeep : ∀ j₁ t₁, m.kernel.threads j₁ = some t₁ → t₁.state ≠ .zombie →
      (m.kernel.schedReapAt self j').threads j₁ = some t₁ := by
    intro j₁ t₁ h₁ hz₁
    unfold Kernel.schedReapAt
    split
    · rename_i t' h'
      split
      · rename_i hc
        have hne : j₁ ≠ j' := by
          rintro rfl
          rw [h₁, Option.some.injEq] at h'
          exact hz₁ (h' ▸ hc.2.1)
        exact (Kernel.setThread_threads_ne _ _ hne).trans h₁
      · exact h₁
    · exact h₁
  rw [Kernel.schedReapAt_table] at hr
  rcases h.agree i tid hr hs with ⟨j₁, t₁, h₁, he, hz⟩ | ⟨j₁, t₁, h₁, hz, hk⟩
  · exact Or.inl ⟨j₁, t₁, hkeep j₁ t₁ h₁ hz, he, hz⟩
  · exact Or.inr ⟨j₁, t₁, hkeep j₁ t₁ h₁ hz, hz, hk⟩

theorem Inv.exec (h : m.Inv) (hj : m.kernel.threads j = some t) (hz : t.state ≠ .zombie)
    (hrun : m.runnable j = true) (hc : m.Careful t .next) : (m.exec j t).Inv := by
  have hl := h.loc j t hj hz
  have hplain : ∀ pc : Pc, pc.plain = true → (∀ i, t.frame ≠ .entry i) → (∀ i, t.frame ≠ .killMark i) →
      (m.goto j t pc).Inv :=
    fun pc hpc he hk => h.gotoPlain hj hz hpc he (fun i hi => absurd hi (hk i))
  -- an entry keeps its `main_tid` and does not start to run
  have hset : ∀ (i : Slot) (p : Process) (pc : Pc), p.mainTid = (m.kernel.table i).mainTid →
      (p.state = .running → (m.kernel.table i).state = .running) → pc.plain = true → (∀ i, t.frame ≠ .entry i) →
      (∀ i', t.frame = .killMark i' → i' = i ∧ p.state ≠ .running) → ((m.setProc i p).goto j t pc).Inv := by
    intro i p pc hm hr hpc he hk
    refine (h.setProc (hm ▸ h.main i) (fun hp => Or.inl (hr hp))).gotoPlain hj hz hpc he ?_
    intro i' hi'
    obtain ⟨rfl, hp⟩ := hk i' hi'
    simpa [Machine.setProc] using hp
  unfold Careful at hc
  unfold Machine.exec
  cases hf : t.frame with
  | body => exact h
  | entry i => exact h.entry hj hz hf
  | allocScan i =>
    dsimp only
    split
    · rename_i hfree
      have hu : m.Unheld i := by
        rw [hf] at hc
        exact hc hfree
      exact h.goto hj hz _ (fun i' hi => Or.inr (Option.some.inj hi ▸ hu)) rfl trivial (by simp) (by simp [hf])
        (by simp [hf])
    · exact hplain _ (plain_nextTurn (fun _ => rfl) rfl) (by simp [hf]) (by simp [hf])
  | recycleScan i =>
    dsimp only
    split
    · exact hplain _ rfl (by simp [hf]) (by simp [hf])
    · exact hplain _ (plain_nextTurn (fun _ => rfl) rfl) (by simp [hf]) (by simp [hf])
  | recycleTake i =>
    have hu : m.Unheld i := by
      rw [hf] at hc
      exact hc
    have h₁ := h.setProc (i := i) (p := { m.kernel.table i with state := .free }) (h.main i) (fun hr => by cases hr)
    exact h₁.goto hj hz _ (fun i' hi => Or.inr (Option.some.inj hi ▸ hu)) rfl trivial (by simp) (by simp [hf])
      (by simp [hf])
  | spawnClear i => exact h.spawnClear hj hz hf
  | spawnPid i =>
    rw [hf] at hl
    exact h.advance hj hz hf _ rfl rfl hl (by simp) (by simp) (by simp)
  | spawnNextPid i pid =>
    rw [hf] at hl
    have h₁ := h.setProc (i := i) (p := { m.kernel.table i with pid := pid.toInt, parent := m.currentPid t })
      (h.main i) Or.inl
    have h₂ := h₁.advance hj hz hf (.spawnRun i) rfl rfl hl (by simp) (by simp) (by simp)
    exact h₂.setNextPid _
  | spawnRun i =>
    rw [hf] at hl
    have h₁ := h.setProc (i := i) (p := { m.kernel.table i with state := .running }) (h.main i) (fun _ => Or.inr hl)
    exact h₁.advance hj hz hf _ rfl rfl hl (by simp) (by simp) (by simp)
  | spawnMemory i =>
    rw [hf] at hl
    exact h.advance hj hz hf _ rfl rfl (fun i' hi => Option.some.inj hi ▸ hl) (by simp) (by simp) (by simp)
  | spawnFail i => exact hset i _ _ rfl (fun hr => by cases hr) rfl (by simp [hf]) (by simp [hf])
  | createScan slot =>
    rw [hf] at hl
    dsimp only
    split
    · exact h.advance hj hz hf _ rfl rfl hl (by simp) (by simp) (by simp)
    · cases slot with
      | none => exact hplain _ rfl (by simp [hf]) (by simp [hf])
      | some i =>
        exact h.advance hj hz hf _ rfl rfl trivial (by simp [createFailed]) (by simp) (by simp)
  | createTid slot j' =>
    rw [hf] at hl
    exact h.advance hj hz hf _ rfl rfl hl (by simp) (by simp) (by simp)
  | createNextTid slot j' tid =>
    rw [hf] at hc
    exact h.createNextTid hj hz hf hc.1 hc.2
  | createPublish slot j' tid =>
    have hfree : m.kernel.threads j' = none := by
      rw [hf] at hc
      exact hc
    cases slot with
    | none => exact h.createKernelThread hj hz hf hfree
    | some i => exact h.createMainThread hj hz hf hfree
  | spawnMain i tid =>
    rw [hf] at hl
    have h₁ := h.setProc (i := i) (p := { m.kernel.table i with mainTid := tid }) (Or.inr hl) Or.inl
    exact h₁.gotoPlain hj hz rfl (by simp [hf]) (by simp [hf])
  | exitMark i code => exact hset i _ _ rfl (fun hr => by cases hr) rfl (by simp [hf]) (by simp [hf])
  | exitThread code =>
    rw [hf] at hc
    exact h.exitThread hj hz hf hc
  | killThread i =>
    rw [hf] at hc
    exact h.killThread hj hz hrun hf hc
  | killMark i => exact hset i _ _ rfl (fun hr => by cases hr) rfl (by simp [hf]) (by simp [hf])
  | waitState i =>
    dsimp only
    split <;> exact hplain _ rfl (by simp [hf]) (by simp [hf])
  | waitTest i =>
    dsimp only
    split <;> exact hplain _ rfl (by simp [hf]) (by simp [hf])
  | waitClean i =>
    dsimp only
    split <;> exact hplain _ rfl (by simp [hf]) (by simp [hf])
  | waitFree i => exact hset i _ _ rfl (fun hr => by cases hr) rfl (by simp [hf]) (by simp [hf])
  | tryTest i =>
    dsimp only
    split <;> exact hplain _ rfl (by simp [hf]) (by simp [hf])
  | reapThread j' =>
    exact (hplain _ (plain_nextTurn (fun _ => rfl) rfl) (by simp [hf]) (by simp [hf])).reapThread j j'
  | reapCheck i =>
    dsimp only
    split
    · exact hplain _ (plain_nextTurn (fun _ => rfl) rfl) (by simp [hf]) (by simp [hf])
    · exact hplain _ rfl (by simp [hf]) (by simp [hf])
  | reapExists i =>
    dsimp only
    split
    · exact hplain _ (plain_nextTurn (fun _ => rfl) rfl) (by simp [hf]) (by simp [hf])
    · exact hplain _ rfl (by simp [hf]) (by simp [hf])
  | reapClean i =>
    exact hset i _ _ rfl id (plain_nextTurn (fun _ => rfl) rfl) (by simp [hf]) (by simp [hf])

theorem Inv.execFail (h : m.Inv) (hj : m.kernel.threads j = some t) (hz : t.state ≠ .zombie) :
    (m.execFail j t).Inv := by
  unfold Machine.execFail
  split
  · rename_i i hf
    exact h.advance hj hz hf _ rfl rfl trivial (by simp) (by simp) (by simp)
  · rename_i slot j' hf
    cases slot with
    | none => exact h.gotoPlain hj hz rfl (by simp [hf]) (by simp [hf])
    | some i =>
      exact h.advance hj hz hf _ rfl rfl trivial (by simp [createFailed]) (by simp) (by simp)
  · exact h

theorem inv_step {m' : Machine} (h : m.Inv) (hs : m.CarefulStep m') : m'.Inv := by
  obtain ⟨j, a, t, hj, hc, hstep⟩ := hs
  unfold Machine.step at hstep
  rw [hj] at hstep
  dsimp only at hstep
  split at hstep
  · cases hstep
  · rename_i hlive
    obtain ⟨hz, hrun⟩ := not_or.mp hlive
    cases a with
    | call c =>
      dsimp only at hstep
      split at hstep
      · rename_i hb
        obtain rfl := Option.some.inj hstep
        exact h.begin hj hz hb hc
      · cases hstep
    | next =>
      obtain rfl := Option.some.inj hstep
      exact h.exec hj hz (by simpa using hrun) hc
    | fail =>
      obtain rfl := Option.some.inj hstep
      exact h.execFail hj hz

open ReachableStates

/-- In every run of careful steps, an entry that says `PROC_RUNNING` has its thread, or a
`proc_kill` that ended the thread is still going to mark it. -/
theorem lifecycles_agree (h : Reachable (· = start) CarefulStep m) : m.Agree := by
  have hinv : m.Inv := h.invariant (fun _ hs => hs ▸ inv_start) (fun _ _ => inv_step)
  exact hinv.agree

/-- A careful step, as far as the run goes on. -/
def carefulNext (m : Machine) (ja : ThreadSlot × Action) : Option Machine :=
  match m.kernel.threads ja.1 with
  | some t => if m.Careful t ja.2 then m.step ja.1 ja.2 else none
  | none => none

/-- The boot thread spawns a process in slot `i`, whose thread goes to slot `j`. -/
def spawnAt (i : Nat) : List (ThreadSlot × Action) :=
  (0, .call .procSpawnImage) :: List.replicate (10 + i) (0, .next)

/-- Two processes are spawned, both enter ring 3, and the boot thread kills the first. -/
def spawnAndKill : List (ThreadSlot × Action) :=
  spawnAt 1 ++ spawnAt 2 ++ [(1, .next), (2, .next), (0, .call (.procKill 1)), (0, .next), (0, .next)]

theorem lifecycles_agree_spawnAndKill :
    ∃ m, follow carefulNext start spawnAndKill = some m ∧ (m.kernel.table 1).state = .zombie ∧
      (m.kernel.table 2).state = .running ∧ m.Agree := by
  have he : (follow carefulNext start spawnAndKill).map (fun m =>
      ((m.kernel.table 1).state, (m.kernel.table 2).state)) = some (.zombie, .running) := by decide
  obtain ⟨m, hf, hm⟩ := Option.map_eq_some_iff.mp he
  obtain ⟨h₁, h₂⟩ := Prod.mk.inj hm
  have hreach : Reachable (· = start) CarefulStep m := by
    refine Reachable.follow (fun m ja m' hn => ?_) (.start rfl) hf
    unfold carefulNext at hn
    split at hn
    · rename_i t ht
      split at hn
      · rename_i hc
        exact ⟨ja.1, ja.2, t, ht, hc, hn⟩
      · cases hn
    · cases hn
  exact ⟨m, hf, h₁, h₂, lifecycles_agree hreach⟩

/-- A process kills itself: its thread is dead before `proc_kill` gets to mark the process. -/
def suicide : List (ThreadSlot × Action) := spawnAt 1 ++ [(1, .next), (1, .call (.procKill 1)), (1, .next)]

/-- The entry of a process that killed itself says `PROC_RUNNING` for good. -/
theorem lifecycles_disagree : ¬∀ m, Reachable (· = start) Step m → m.Agree := by
  intro hall
  have he : (follow (fun m ja => m.step ja.1 ja.2) start suicide).map (fun m =>
      (decide ((m.kernel.table 1).state = .running), m.started 1, decide (m.Alive 1 ∨ m.KillInProgress 1))) =
      some (true, some 1, false) := by decide
  obtain ⟨m, hf, hm⟩ := Option.map_eq_some_iff.mp he
  obtain ⟨hr, hm⟩ := Prod.mk.inj hm
  obtain ⟨hs, hn⟩ := Prod.mk.inj hm
  have hreach : Reachable (· = start) Step m :=
    Reachable.follow (fun m ja m' hn => ⟨ja.1, ja.2, hn⟩) (.start rfl) hf
  exact of_decide_eq_false hn (hall m hreach 1 1 (of_decide_eq_true hr) hs)

end Machine
end SifarOS.ProcessLifecycle
