import SifarOS.MachineInt
import Mathlib.Logic.Function.Basic
import Mathlib.Data.Fintype.Basic
import Mathlib.Data.List.FinRange

/-! # The process table and the thread table

`kernel/proc.c` and `kernel/sched.c` keep one table each. The functions below are the parts of
the two files that change a process's or a thread's life; each is the code of one section that
runs with interrupts off or between two yields. A thread carries its saved control state in
`frame`, whose type is a parameter: how finely a run may be interrupted differs from one
result to the next. The memory of a process (its address space, its break) is the subject of
the address-space modules and does not appear here. -/
namespace SifarOS.ProcessTable

/-- `enum proc_state`. -/
inductive ProcState | free | running | zombie deriving DecidableEq, Repr

/-- `enum thread_state`. -/
inductive ThreadState | ready | running | sleeping | blocked | zombie deriving DecidableEq, Repr

/-- An index into `table[MAX_PROCESSES]`; slot 0 is the kernel's. -/
abbrev Slot := Fin 32

/-- An index into `threads[MAX_THREADS]`; slot 0 is the boot thread's. -/
abbrev ThreadSlot := Fin 32

/-- The part of `struct process` that its life depends on. The default value is what `memset`
leaves. -/
structure Process where
  pid : ℤ := 0
  parent : ℤ := 0
  state : ProcState := .free
  exitCode : ℤ := 0
  mainTid : ℤ := 0
  cleaned : Bool := false
  deriving DecidableEq, Repr

/-- `struct thread`. `proc` is the `struct process *`, `none` for a kernel thread. -/
structure Thread (κ : Type) where
  tid : ℤ
  state : ThreadState := .ready
  exitCode : ℤ := 0
  detached : Bool := true
  user : Bool := false
  proc : Option Slot := none
  frame : κ
  deriving DecidableEq, Repr

/-- The static data of `proc.c` and `sched.c`. The two counters are an `int` each. -/
structure Kernel (κ : Type) where
  table : Slot → Process
  nextPid : Int32
  threads : ThreadSlot → Option (Thread κ)
  nextTid : Int32
  exitHistory : Fin 32 → ℤ × ℤ
  exitHistoryNext : Fin 32

variable {κ : Type}

/-- After `proc_init` and `sched_init`: process 0 is the kernel, thread 0 its control flow. -/
def boot (idle : κ) : Kernel κ where
  table := Function.update (fun _ => {}) 0 { state := .running }
  nextPid := 1
  threads := Function.update (fun _ => none) 0 (some { tid := 0, state := .running, frame := idle })
  nextTid := 1
  exitHistory := fun _ => (0, 0)
  exitHistoryNext := 0

namespace Kernel

def setProc (k : Kernel κ) (i : Slot) (p : Process) : Kernel κ :=
  { k with table := Function.update k.table i p }

def setThread (k : Kernel κ) (j : ThreadSlot) (t : Option (Thread κ)) : Kernel κ :=
  { k with threads := Function.update k.threads j t }

@[simp] theorem setProc_threads (k : Kernel κ) (i : Slot) (p : Process) :
    (k.setProc i p).threads = k.threads := rfl

@[simp] theorem setProc_nextPid (k : Kernel κ) (i : Slot) (p : Process) :
    (k.setProc i p).nextPid = k.nextPid := rfl

@[simp] theorem setProc_nextTid (k : Kernel κ) (i : Slot) (p : Process) :
    (k.setProc i p).nextTid = k.nextTid := rfl

@[simp] theorem setProc_table_self (k : Kernel κ) (i : Slot) (p : Process) :
    (k.setProc i p).table i = p := by simp [setProc]

theorem setProc_table_ne (k : Kernel κ) {i i' : Slot} (p : Process) (h : i' ≠ i) :
    (k.setProc i p).table i' = k.table i' := by simp [setProc, h]

@[simp] theorem setThread_table (k : Kernel κ) (j : ThreadSlot) (t : Option (Thread κ)) :
    (k.setThread j t).table = k.table := rfl

@[simp] theorem setThread_nextPid (k : Kernel κ) (j : ThreadSlot) (t : Option (Thread κ)) :
    (k.setThread j t).nextPid = k.nextPid := rfl

@[simp] theorem setThread_nextTid (k : Kernel κ) (j : ThreadSlot) (t : Option (Thread κ)) :
    (k.setThread j t).nextTid = k.nextTid := rfl

@[simp] theorem setThread_threads_self (k : Kernel κ) (j : ThreadSlot) (t : Option (Thread κ)) :
    (k.setThread j t).threads j = t := by simp [setThread]

theorem setThread_threads_ne (k : Kernel κ) {j j' : ThreadSlot} (t : Option (Thread κ))
    (h : j' ≠ j) : (k.setThread j t).threads j' = k.threads j' := by simp [setThread, h]

/-- `proc_by_pid`. -/
def procByPid (k : Kernel κ) (pid : ℤ) : Option Slot :=
  (List.finRange 32).find? (fun i => decide ((k.table i).state ≠ .free ∧ (k.table i).pid = pid))

/-- `allocate`: the first free slot, else the first finished process that nobody waited for,
which is recycled. Slot 0 is never looked at. -/
def allocate (k : Kernel κ) : Option (Slot × Kernel κ) :=
  match (List.finRange 32).find? (fun i => decide (i ≠ 0 ∧ (k.table i).state = .free)) with
  | some i => some (i, k)
  | none =>
    match (List.finRange 32).find?
        (fun i => decide (i ≠ 0 ∧ (k.table i).state = .zombie ∧ (k.table i).cleaned = true)) with
    | some i => some (i, k.setProc i { k.table i with state := .free })
    | none => none

/-- `remember_exit`. -/
def rememberExit (k : Kernel κ) (tid code : ℤ) : Kernel κ :=
  { k with
    exitHistory := Function.update k.exitHistory k.exitHistoryNext (tid, code)
    exitHistoryNext := k.exitHistoryNext + 1 }

/-- `thread_exists`. -/
def threadExists (k : Kernel κ) (tid : ℤ) : Bool :=
  (List.finRange 32).any (fun j => match k.threads j with
    | some t => decide (t.tid = tid)
    | none => false)

/-- The thread `thread_kill` picks: the first one of that tid that is not dead yet. Thread 0
cannot be killed. -/
def killTarget (k : Kernel κ) (tid : ℤ) : Option ThreadSlot :=
  (List.finRange 32).find? (fun j => match k.threads j with
    | some t => decide (t.tid = tid ∧ t.tid ≠ 0 ∧ t.state ≠ .zombie)
    | none => false)

/-- Mark one thread dead with an exit code and note the code for `thread_join`. -/
def finishThread (k : Kernel κ) (j : ThreadSlot) (code : ℤ) : Kernel κ :=
  match k.threads j with
  | some t => (k.setThread j (some { t with state := .zombie, exitCode := code })).rememberExit t.tid code
  | none => k

/-- `thread_kill` up to its last test; the yield of a thread that killed itself is left to the
caller. -/
def threadKill (k : Kernel κ) (tid : ℤ) : Kernel κ :=
  match k.killTarget tid with
  | some j => k.finishThread j (-1)
  | none => k

/-- `thread_exit` for the thread in slot `j`: its process ends with it when it is that process's
main thread. -/
def threadExit (k : Kernel κ) (j : ThreadSlot) (code : ℤ) : Kernel κ :=
  match k.threads j with
  | none => k
  | some t =>
    let k' := match t.proc with
      | none => k
      | some i =>
        if (k.table i).mainTid = t.tid ∧ (k.table i).state = ProcState.running then
          k.setProc i { k.table i with exitCode := code, state := .zombie }
        else k
    k'.finishThread j code

/-- One turn of the loop in `sched_reap`, run by the thread in slot `self`. -/
def schedReapAt (k : Kernel κ) (self j : ThreadSlot) : Kernel κ :=
  match k.threads j with
  | some t =>
    if j ≠ 0 ∧ t.state = .zombie ∧ j ≠ self ∧ t.detached = true then k.setThread j none else k
  | none => k

/-- One turn of the loop in `proc_reap`: release a finished process whose thread is gone. -/
def procReapAt (k : Kernel κ) (i : Slot) : Kernel κ :=
  if i ≠ 0 ∧ (k.table i).state = .zombie ∧ (k.table i).cleaned = false ∧
      k.threadExists (k.table i).mainTid = false then
    k.setProc i { k.table i with cleaned := true }
  else k

/-- The slot `thread_create` finds free. -/
def freeThreadSlot (k : Kernel κ) : Option ThreadSlot :=
  (List.finRange 32).find? (fun j => (k.threads j).isNone)

/-- `thread_create` from the assignment of the tid on, publishing in the slot found before. -/
def publishThread (k : Kernel κ) (j : ThreadSlot) (frame : κ) : Kernel κ :=
  { k with
    threads := Function.update k.threads j (some { tid := k.nextTid.toInt, frame := frame })
    nextTid := k.nextTid + 1 }

/-- A counter that has a number left does not wrap. -/
theorem counter_succ {n : Int32} (h : n.toInt < 2147483647) : (n + 1).toInt = n.toInt + 1 := by
  have hone : (1 : Int32).toInt = 1 := rfl
  have hsum := MachineInt.add_cases n 1
  have hlow := Int32.le_toInt n
  omega

/-! ## What the searches find -/

theorem procByPid_some {k : Kernel κ} {pid : ℤ} {i : Slot} (h : k.procByPid pid = some i) :
    (k.table i).state ≠ .free ∧ (k.table i).pid = pid := by
  simpa using List.find?_some h

theorem allocate_some {k k' : Kernel κ} {i : Slot} (h : k.allocate = some (i, k')) :
    i ≠ 0 ∧ ((k.table i).state = .free ∧ k' = k ∨
      (k.table i).state = .zombie ∧ (k.table i).cleaned = true ∧
        k' = k.setProc i { k.table i with state := .free }) := by
  unfold allocate at h
  split at h
  · rename_i i' hf
    obtain ⟨rfl, rfl⟩ := Prod.mk.inj (Option.some.inj h)
    have hs := List.find?_some hf
    simp only [decide_eq_true_eq] at hs
    exact ⟨hs.1, Or.inl ⟨hs.2, rfl⟩⟩
  · split at h
    · rename_i i' hf
      obtain ⟨rfl, rfl⟩ := Prod.mk.inj (Option.some.inj h)
      have hs := List.find?_some hf
      simp only [decide_eq_true_eq] at hs
      exact ⟨hs.1, Or.inr ⟨hs.2.1, hs.2.2, rfl⟩⟩
    · cases h

theorem killTarget_some {k : Kernel κ} {tid : ℤ} {j : ThreadSlot} (h : k.killTarget tid = some j) :
    ∃ t, k.threads j = some t ∧ t.tid = tid ∧ tid ≠ 0 ∧ t.state ≠ .zombie := by
  have hs := List.find?_some h
  split at hs
  · rename_i t ht
    simp only [decide_eq_true_eq] at hs
    exact ⟨t, ht, hs.1, hs.1 ▸ hs.2.1, hs.2.2⟩
  · cases hs

theorem killTarget_none {k : Kernel κ} {tid : ℤ} (h : k.killTarget tid = none) {j : ThreadSlot}
    {t : Thread κ} (ht : k.threads j = some t) (htid : t.tid = tid) (h0 : tid ≠ 0) :
    t.state = .zombie := by
  have hn := List.find?_eq_none.mp h j (List.mem_finRange j)
  simpa [ht, htid, h0] using hn

theorem freeThreadSlot_some {k : Kernel κ} {j : ThreadSlot} (h : k.freeThreadSlot = some j) :
    k.threads j = none := by
  simpa using List.find?_some h

/-! ## Threads only die -/

/-- `k'` has no thread that `k` had not, and those still alive are untouched. -/
structure ThreadsShrink (k k' : Kernel κ) : Prop where
  nextTid : k'.nextTid = k.nextTid
  thread : ∀ j t', k'.threads j = some t' →
    ∃ t, k.threads j = some t ∧ t.tid = t'.tid ∧ (t'.state ≠ .zombie → t = t')

theorem ThreadsShrink.refl (k : Kernel κ) : ThreadsShrink k k :=
  ⟨rfl, fun _ t' h => ⟨t', h, rfl, fun _ => rfl⟩⟩

theorem ThreadsShrink.live {k k' : Kernel κ} (h : ThreadsShrink k k') {j : ThreadSlot} {t : Thread κ}
    (ht : k'.threads j = some t) (hz : t.state ≠ .zombie) : k.threads j = some t := by
  obtain ⟨t₀, h₀, _, he⟩ := h.thread j t ht
  rw [h₀, he hz]

@[simp] theorem finishThread_table (k : Kernel κ) (j : ThreadSlot) (code : ℤ) :
    (k.finishThread j code).table = k.table := by
  unfold finishThread
  split <;> rfl

@[simp] theorem finishThread_nextPid (k : Kernel κ) (j : ThreadSlot) (code : ℤ) :
    (k.finishThread j code).nextPid = k.nextPid := by
  unfold finishThread
  split <;> rfl

theorem finishThread_shrink (k : Kernel κ) (j : ThreadSlot) (code : ℤ) :
    ThreadsShrink k (k.finishThread j code) := by
  unfold finishThread
  split
  · rename_i t ht
    refine ⟨rfl, fun j' t' h' => ?_⟩
    by_cases hj : j' = j
    · subst hj
      simp only [rememberExit, setThread, Function.update_self, Option.some.injEq] at h'
      subst h'
      exact ⟨t, ht, rfl, fun hz => absurd rfl hz⟩
    · simp only [rememberExit, setThread, Function.update_of_ne hj] at h'
      exact ⟨t', h', rfl, fun _ => rfl⟩
  · exact ThreadsShrink.refl k

/-- The finished thread is dead afterwards. -/
theorem finishThread_dead (k : Kernel κ) {j : ThreadSlot} (code : ℤ) {t : Thread κ}
    (h : (k.finishThread j code).threads j = some t) : t.state = .zombie := by
  unfold finishThread at h
  split at h
  · simp only [rememberExit, setThread, Function.update_self, Option.some.injEq] at h
    rw [← h]
  · rename_i hn
    simp [hn] at h

theorem finishThread_threads_ne (k : Kernel κ) {j j' : ThreadSlot} (code : ℤ) (h : j' ≠ j) :
    (k.finishThread j code).threads j' = k.threads j' := by
  unfold finishThread
  split
  · simp [rememberExit, setThread, h]
  · rfl

theorem finishThread_setProc (k : Kernel κ) (j : ThreadSlot) (code : ℤ) (i : Slot) (p : Process) :
    (k.setProc i p).finishThread j code = (k.finishThread j code).setProc i p := by
  simp only [finishThread, setProc_threads]
  split <;> rfl

@[simp] theorem threadKill_table (k : Kernel κ) (tid : ℤ) : (k.threadKill tid).table = k.table := by
  unfold threadKill
  split <;> simp

@[simp] theorem threadKill_nextPid (k : Kernel κ) (tid : ℤ) :
    (k.threadKill tid).nextPid = k.nextPid := by
  unfold threadKill
  split <;> simp

theorem threadKill_shrink (k : Kernel κ) (tid : ℤ) : ThreadsShrink k (k.threadKill tid) := by
  unfold threadKill
  split
  · exact finishThread_shrink k _ _
  · exact ThreadsShrink.refl k

@[simp] theorem schedReapAt_table (k : Kernel κ) (self j : ThreadSlot) :
    (k.schedReapAt self j).table = k.table := by
  unfold schedReapAt
  split
  · split <;> rfl
  · rfl

@[simp] theorem schedReapAt_nextPid (k : Kernel κ) (self j : ThreadSlot) :
    (k.schedReapAt self j).nextPid = k.nextPid := by
  unfold schedReapAt
  split
  · split <;> rfl
  · rfl

theorem schedReapAt_shrink (k : Kernel κ) (self j : ThreadSlot) :
    ThreadsShrink k (k.schedReapAt self j) := by
  unfold schedReapAt
  split
  · split
    · refine ⟨rfl, fun j' t' h' => ?_⟩
      by_cases hj : j' = j
      · simp [hj] at h'
      · rw [setThread_threads_ne k none hj] at h'
        exact ⟨t', h', rfl, fun _ => rfl⟩
    · exact ThreadsShrink.refl k
  · exact ThreadsShrink.refl k

end Kernel
end SifarOS.ProcessTable
