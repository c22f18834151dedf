import SifarOS.ProcessTable
import SifarOS.ReachableStates

/-! # Waiting for a process

`proc_wait` keeps a pointer into the process table while it yields. Here a run is a sequence of
steps, each the code one thread executes between two calls of `sched_yield`; a thread that
yields inside `proc_wait` keeps the call in its frame. Beside the kernel's data a state carries
what an observer of the table has seen: which slot every pid was given and with which code the
process of that pid ended. -/
namespace SifarOS.ProcessWait
open ProcessTable

/-- The loop of `proc_wait` a caller yielded in. -/
inductive WaitLoop | state | cleaned deriving DecidableEq, Repr

/-- The arguments and locals of a `proc_wait` call that has yielded. -/
structure WaitCall where
  pid : ℤ
  proc : Slot
  loop : WaitLoop
  deriving DecidableEq, Repr

/-- Where a thread continues: at `process_entry` with its launch slot, in code of its own, or
inside `proc_wait`. -/
inductive Frame
  | entry (slot : Slot)
  | body
  | waiting (call : WaitCall)
  deriving DecidableEq, Repr

/-- A return of 0 from `proc_wait`. -/
structure WaitReturn where
  pid : ℤ
  code : ℤ
  slot : Slot
  deriving DecidableEq, Repr

abbrev Kernel := ProcessTable.Kernel Frame

/-- How `proc_spawn_image` fares in everything but the two tables. -/
inductive SpawnMemory | badCall | noDirectory | badImage | noStack | badArguments | ready
  deriving DecidableEq, Repr

/-- `proc_spawn_image`; `heap` tells whether the allocations of `thread_create` succeed. -/
def procSpawnImage (k : Kernel) (parent : ℤ) (memory : SpawnMemory) (heap : Bool) : Kernel × ℤ :=
  if memory = .badCall then (k, -1) else
  match k.allocate with
  | none => (k, -2)
  | some (i, k) =>
    let proc : Process := { pid := k.nextPid.toInt, parent := parent, state := .running }
    let k := { k with nextPid := k.nextPid + 1 }
    let failed := k.setProc i { proc with state := .free }
    match memory with
    | .badCall => (k, -1)
    | .noDirectory => (failed, -3)
    | .badImage => (failed, -4)
    | .noStack => (failed, -5)
    | .badArguments => (failed, -6)
    | .ready =>
      match k.freeThreadSlot with
      | none => (failed, -7)
      | some j =>
        if heap then
          ((k.publishThread j (.entry i)).setProc i { proc with mainTid := k.nextTid.toInt }, proc.pid)
        else (failed, -7)

/-- The end of `proc_wait`: hand out the code and free the slot. -/
def finishWait (k : Kernel) (j : ThreadSlot) (t : Thread Frame) (call : WaitCall) :
    Kernel × Option WaitReturn :=
  let p := k.table call.proc
  ((k.setProc call.proc { p with state := .free }).setThread j (some { t with frame := .body }),
    some ⟨call.pid, p.exitCode, call.proc⟩)

def blockWait (k : Kernel) (j : ThreadSlot) (t : Thread Frame) (call : WaitCall) :
    Kernel × Option WaitReturn :=
  (k.setThread j (some { t with frame := .waiting call }), none)

/-- The second loop of `proc_wait` up to its next yield. -/
def waitCleaned (k : Kernel) (j : ThreadSlot) (t : Thread Frame) (call : WaitCall) :
    Kernel × Option WaitReturn :=
  if (k.table call.proc).cleaned = false then blockWait k j t { call with loop := .cleaned }
  else finishWait k j t call

/-- `proc_wait` from one of its loop tests up to its next yield or its return. -/
def continueWait (k : Kernel) (j : ThreadSlot) (t : Thread Frame) (call : WaitCall) :
    Kernel × Option WaitReturn :=
  match call.loop with
  | .state =>
    if (k.table call.proc).state = .running then blockWait k j t call else waitCleaned k j t call
  | .cleaned => waitCleaned k j t call

/-- `proc_wait`. -/
def procWait (k : Kernel) (j : ThreadSlot) (t : Thread Frame) (pid : ℤ) : Kernel × Option WaitReturn :=
  match k.procByPid pid with
  | none => (k, none)
  | some i => if i = 0 then (k, none) else continueWait k j t ⟨pid, i, .state⟩

/-- `proc_try_wait`. -/
def procTryWait (k : Kernel) (pid : ℤ) : Kernel :=
  match k.procByPid pid with
  | none => k
  | some i =>
    let p := k.table i
    if i = 0 ∨ p.state = .running ∨ p.cleaned = false then k else k.setProc i { p with state := .free }

/-- `proc_exit` of the thread in slot `j`. -/
def procExit (k : Kernel) (j : ThreadSlot) (t : Thread Frame) (code : ℤ) : Kernel :=
  match t.proc with
  | none => k.threadExit j code
  | some i => (k.setProc i { k.table i with exitCode := code, state := .zombie }).threadExit j code

/-- `proc_kill` called by the thread `t`. A thread that kills itself yields inside `thread_kill`
and is never scheduled again, so the two stores that follow are not reached. -/
def procKill (k : Kernel) (t : Thread Frame) (pid : ℤ) : Kernel :=
  match k.procByPid pid with
  | none => k
  | some i =>
    let p := k.table i
    if i = 0 ∨ p.state ≠ .running then k
    else if (k.killTarget p.mainTid).isSome ∧ t.tid = p.mainTid then k.threadKill p.mainTid
    else (k.threadKill p.mainTid).setProc i { p with exitCode := -1, state := .zombie }

/-- A kernel function a thread calls. -/
inductive Call
  | threadCreate (heap : Bool)
  | procSpawnImage (memory : SpawnMemory) (heap : Bool)
  | procExit (code : ℤ)
  | threadExit (code : ℤ)
  | procKill (pid : ℤ)
  | threadKill (tid : ℤ)
  | procWait (pid : ℤ)
  | procTryWait (pid : ℤ)
  | schedReap
  | procReap
  deriving DecidableEq, Repr

/-- A thread enters `process_entry`, comes back from a yield in `proc_wait`, or calls. -/
inductive Action
  | enter
  | resume
  | call (c : Call)
  deriving DecidableEq, Repr

/-- The pid `proc_current` finds for a thread. -/
def currentPid (k : Kernel) (t : Thread Frame) : ℤ :=
  match t.proc with
  | none => (k.table 0).pid
  | some i => (k.table i).pid

/-- One call by the thread `t` of slot `j`, up to its first yield. Only the boot thread reaps. -/
def perform (k : Kernel) (j : ThreadSlot) (t : Thread Frame) : Call → Kernel × Option WaitReturn
  | .threadCreate heap => match k.freeThreadSlot with
    | some j' => (if heap then k.publishThread j' .body else k, none)
    | none => (k, none)
  | .procSpawnImage memory heap => ((procSpawnImage k (currentPid k t) memory heap).1, none)
  | .procExit code => (procExit k j t code, none)
  | .threadExit code => (k.threadExit j code, none)
  | .procKill pid => (procKill k t pid, none)
  | .threadKill tid => (k.threadKill tid, none)
  | .procWait pid => procWait k j t pid
  | .procTryWait pid => (procTryWait k pid, none)
  | .schedReap => (if j = 0 then (List.finRange 32).foldl (fun k i => k.schedReapAt j i) k else k, none)
  | .procReap => (if j = 0 then (List.finRange 32).foldl (fun k i => k.procReapAt i) k else k, none)

/-- What the live thread `t` of slot `j` does in one step. -/
def act (k : Kernel) (j : ThreadSlot) (t : Thread Frame) : Action → Option (Kernel × Option WaitReturn)
  | .enter => match t.frame with
    | .entry i => some (k.setThread j (some { t with proc := some i, user := true, frame := .body }), none)
    | _ => none
  | .resume => match t.frame with
    | .waiting call => some (continueWait k j t call)
    | _ => none
  | .call c => if t.frame = .body then some (perform k j t c) else none

/-- The kernel and what has been seen of its process table. -/
structure Run where
  kernel : Kernel
  born : ℤ → Option Slot
  ended : ℤ → Option ℤ

def start : Run where
  kernel := boot .body
  born := fun _ => none
  ended := fun _ => none

/-- A pid is born in the slot whose pid field changes to it. -/
def seeBirths (k k' : Kernel) (born : ℤ → Option Slot) (pid : ℤ) : Option Slot :=
  ((List.finRange 32).find? (fun i => decide ((k'.table i).pid = pid ∧ (k.table i).pid ≠ pid))).or (born pid)

/-- A process ends with the code its slot holds when it stops running. -/
def seeEnds (k k' : Kernel) (ended : ℤ → Option ℤ) (pid : ℤ) : Option ℤ :=
  (((List.finRange 32).find? (fun i => decide ((k'.table i).pid = pid ∧ (k.table i).state = .running ∧
    (k'.table i).state = .zombie))).map (fun i => (k'.table i).exitCode)).or (ended pid)

/-- One step of the thread in slot `j`. -/
def step (s : Run) (j : ThreadSlot) (a : Action) : Option (Run × Option WaitReturn) :=
  match s.kernel.threads j with
  | none => none
  | some t =>
    if t.state = .zombie then none else
    match act s.kernel j t a with
    | none => none
    | some (k', r) => some (⟨k', seeBirths s.kernel k' s.born, seeEnds s.kernel k' s.ended⟩, r)

/-- The answer `proc_wait` gives is the code with which the process of that pid ended, and the
slot it frees is the one that pid was given and still has. -/
def WaitReturn.Correct (r : WaitReturn) (s : Run) : Prop :=
  s.ended r.pid = some r.code ∧ s.born r.pid = some r.slot ∧ (s.kernel.table r.slot).pid = r.pid

instance (r : WaitReturn) (s : Run) : Decidable (r.Correct s) := by
  unfold WaitReturn.Correct; infer_instance

/-- The thread can still run and is inside `proc_wait` with a pointer to slot `i`. -/
def watches (i : Slot) : Option (Thread Frame) → Bool
  | some t => match t.frame with
    | .waiting call => decide (t.state ≠ .zombie ∧ call.proc = i)
    | _ => false
  | none => false

/-- Some thread is still waiting on slot `i`. -/
def Watched (k : Kernel) (i : Slot) : Prop := ∃ j, watches i (k.threads j) = true

/-- A spawn takes a table slot only when no waiter still points at it. -/
def SpawnsUnwatched (s : Run) : Action → Prop
  | .call (.procSpawnImage _ _) => ∀ i, s.kernel.allocate.map Prod.fst = some i → ¬Watched s.kernel i
  | _ => True

/-- `next_pid` and `next_tid` are not at the end of an `int` when a process or a thread takes its number. -/
def NumbersLeft (s : Run) : Action → Prop
  | .call (.procSpawnImage _ _) => s.kernel.nextPid.toInt < 2147483647 ∧ s.kernel.nextTid.toInt < 2147483647
  | .call (.threadCreate _) => s.kernel.nextTid.toInt < 2147483647
  | _ => True

instance (k : Kernel) (i : Slot) : Decidable (Watched k i) := inferInstanceAs (Decidable (∃ _, _))

instance (s : Run) (a : Action) : Decidable (NumbersLeft s a) := by
  unfold NumbersLeft
  split <;> infer_instance

instance (s : Run) (a : Action) : Decidable (SpawnsUnwatched s a) := by
  unfold SpawnsUnwatched
  split <;> infer_instance

/-- Any step of any thread. -/
def Step (s s' : Run) : Prop := ∃ j a r, step s j a = some (s', r)

/-- A step in which a spawn does not take a slot that is still waited on, and no counter wraps. -/
def UnwatchedStep (s s' : Run) : Prop :=
  ∃ j a r, SpawnsUnwatched s a ∧ NumbersLeft s a ∧ step s j a = some (s', r)

/-- The next state of a run, whatever the step returned. -/
def next (s : Run) (ja : ThreadSlot × Action) : Option Run := (step s ja.1 ja.2).map Prod.fst

/-- The same, as far as the spawns leave the slots alone that are still waited on and no counter wraps. -/
def unwatchedNext (s : Run) (ja : ThreadSlot × Action) : Option Run :=
  if SpawnsUnwatched s ja.2 ∧ NumbersLeft s ja.2 then next s ja else none

/-! ## What the observer records -/

theorem seeBirths_of_pids {k k' : Kernel} (born : ℤ → Option Slot)
    (h : ∀ i, (k'.table i).pid = (k.table i).pid) : seeBirths k k' born = born := by
  funext pid
  have hn : (List.finRange 32).find? (fun i => decide ((k'.table i).pid = pid ∧ (k.table i).pid ≠ pid)) = none := by
    simp [List.find?_eq_none, h]
  simp only [seeBirths, hn, Option.none_or]

theorem seeEnds_of_quiet {k k' : Kernel} (ended : ℤ → Option ℤ)
    (h : ∀ i, (k.table i).state = .running → (k'.table i).state ≠ .zombie) : seeEnds k k' ended = ended := by
  funext pid
  have hn : (List.finRange 32).find? (fun i => decide ((k'.table i).pid = pid ∧ (k.table i).state = .running ∧
      (k'.table i).state = .zombie)) = none := by
    simp only [List.find?_eq_none, decide_eq_true_eq, not_and]
    intro i _ _ hr
    exact h i hr
  simp only [seeEnds, hn, Option.map_none, Option.none_or]

/-- When slot `i` alone stops running, its pid alone is recorded. -/
theorem seeEnds_of_end {k k' : Kernel} (ended : ℤ → Option ℤ) {i : Slot}
    (hpid : (k'.table i).pid = (k.table i).pid) (hr : (k.table i).state = .running)
    (hz : (k'.table i).state = .zombie)
    (h : ∀ i', i' ≠ i → (k.table i').state = .running → (k'.table i').state ≠ .zombie) :
    seeEnds k k' ended = Function.update ended (k.table i).pid (some (k'.table i).exitCode) := by
  funext pid
  by_cases hp : pid = (k.table i).pid
  · subst hp
    cases hf : (List.finRange 32).find? (fun i' => decide ((k'.table i').pid = (k.table i).pid ∧
        (k.table i').state = .running ∧ (k'.table i').state = .zombie)) with
    | none =>
      have hn := List.find?_eq_none.mp hf i (List.mem_finRange i)
      simp [hpid, hr, hz] at hn
    | some i' =>
      have hs := List.find?_some hf
      simp only [decide_eq_true_eq] at hs
      have hi : i' = i := by
        by_contra hne
        exact h i' hne hs.2.1 hs.2.2
      subst hi
      simp only [seeEnds, hf, Option.map_some, Option.some_or, Function.update_self]
  · have hn : (List.finRange 32).find? (fun i' => decide ((k'.table i').pid = pid ∧
        (k.table i').state = .running ∧ (k'.table i').state = .zombie)) = none := by
      simp only [List.find?_eq_none, decide_eq_true_eq, not_and]
      intro i' _ hp' hr' hz'
      by_cases hi : i' = i
      · subst hi
        exact hp (hp'.symm.trans hpid)
      · exact h i' hi hr' hz'
    simp only [seeEnds, hn, Option.map_none, Option.none_or, Function.update_of_ne hp]

/-- When slot `i` alone gets a new pid, that pid alone is recorded. -/
theorem seeBirths_of_birth {k k' : Kernel} (born : ℤ → Option Slot) {i : Slot}
    (hi : (k.table i).pid ≠ (k'.table i).pid)
    (h : ∀ i', i' ≠ i → (k'.table i').pid = (k.table i').pid) :
    seeBirths k k' born = Function.update born (k'.table i).pid (some i) := by
  funext pid
  by_cases hp : pid = (k'.table i).pid
  · subst hp
    cases hf : (List.finRange 32).find? (fun i' => decide ((k'.table i').pid = (k'.table i).pid ∧
        (k.table i').pid ≠ (k'.table i).pid)) with
    | none =>
      have hn := List.find?_eq_none.mp hf i (List.mem_finRange i)
      simp [hi] at hn
    | some i' =>
      have hs := List.find?_some hf
      simp only [decide_eq_true_eq] at hs
      have he : i' = i := by
        by_contra hne
        exact hs.2 ((h i' hne).symm.trans hs.1)
      subst he
      simp only [seeBirths, hf, Option.some_or, Function.update_self]
  · have hn : (List.finRange 32).find? (fun i' => decide ((k'.table i').pid = pid ∧
        (k.table i').pid ≠ pid)) = none := by
      simp only [List.find?_eq_none, decide_eq_true_eq, not_and, not_not]
      intro i' _ hp'
      by_cases he : i' = i
      · subst he
        exact absurd hp'.symm hp
      · exact (h i' he).symm.trans hp'
    simp only [seeBirths, hn, Option.none_or, Function.update_of_ne hp]

/-! ## The invariant of a run without recycled pointers -/

/-- What a waiter may rely on: its slot still has the pid it asked for, and either the process
runs and the waiter is in its first loop, or the process ended with the code in the slot. -/
def WaitCall.Sound (c : WaitCall) (k : Kernel) (ended : ℤ → Option ℤ) : Prop :=
  c.proc ≠ 0 ∧ c.pid ≠ 0 ∧ (k.table c.proc).pid = c.pid ∧
    ((k.table c.proc).state = .running ∧ c.loop = .state ∨
     (k.table c.proc).state ≠ .running ∧ ended c.pid = some (k.table c.proc).exitCode)

structure Inv (k : Kernel) (born : ℤ → Option Slot) (ended : ℤ → Option ℤ) : Prop where
  kernel_pid : (k.table 0).pid = 0
  kernel_running : (k.table 0).state = .running
  born_lt : ∀ p i, born p = some i → 0 < p ∧ p < k.nextPid.toInt
  nextPid_pos : 0 < k.nextPid.toInt
  slot_born : ∀ i, i ≠ 0 → (k.table i).pid = 0 ∨ born (k.table i).pid = some i
  used_pid : ∀ i, i ≠ 0 → (k.table i).state ≠ .free → (k.table i).pid ≠ 0
  zombie_ended : ∀ i, i ≠ 0 → (k.table i).state = .zombie →
    ended (k.table i).pid = some (k.table i).exitCode
  cleaned_dead : ∀ i, i ≠ 0 → (k.table i).cleaned = true → (k.table i).state ≠ .running
  waiter : ∀ j t c, k.threads j = some t → t.state ≠ .zombie → t.frame = .waiting c → c.Sound k ended
  tid_lt : ∀ j t, k.threads j = some t → t.tid < k.nextTid.toInt
  tid_inj : ∀ j j' t t', k.threads j = some t → k.threads j' = some t' → t.tid = t'.tid → j = j'
  nextTid_pos : 0 < k.nextTid.toInt
  owner : ∀ j t i, k.threads j = some t → t.state ≠ .zombie → t.proc = some i ∨ t.frame = .entry i →
    i ≠ 0 ∧ (k.table i).state = .running ∧ (k.table i).mainTid = t.tid ∧ t.tid ≠ 0

variable {k k' : Kernel} {born : ℤ → Option Slot} {ended : ℤ → Option ℤ}

theorem inv_start : Inv start.kernel start.born start.ended := by
  have h0 : ∀ i : Slot, i ≠ 0 → (boot Frame.body).table i = {} := fun i hi => by simp [boot, hi]
  have ht : ∀ (j : ThreadSlot) (t : Thread Frame), (boot Frame.body).threads j = some t →
      j = 0 ∧ t = { tid := 0, state := .running, frame := .body } := by
    intro j t h
    by_cases hj : j = 0
    · subst hj
      simp only [boot, Function.update_self, Option.some.injEq] at h
      exact ⟨rfl, h.symm⟩
    · simp [boot, hj] at h
  constructor
  · simp [start, boot]
  · simp [start, boot]
  · intro p i h
    cases h
  · simp [start, boot]
  · intro i hi
    left
    simp [start, h0 i hi]
  · intro i hi h
    simp [start, h0 i hi] at h
  · intro i hi h
    simp [start, h0 i hi] at h
  · intro i hi h
    simp [start, h0 i hi] at h
  · intro j t c h _ hf
    obtain ⟨_, rfl⟩ := ht j t h
    cases hf
  · intro j t h
    obtain ⟨_, rfl⟩ := ht j t h
    simp [start, boot]
  · intro j j' t t' h h' _
    exact (ht j t h).1.trans (ht j' t' h').1.symm
  · simp [start, boot]
  · intro j t i h _ hp
    obtain ⟨_, rfl⟩ := ht j t h
    rcases hp with hp | hp <;> cases hp

/-- Threads that die, with the process table as it was, keep the invariant. -/
theorem Inv.shrink (h : Inv k born ended) (hs : k.ThreadsShrink k') (ht : k'.table = k.table)
    (hp : k'.nextPid = k.nextPid) : Inv k' born ended where
  kernel_pid := ht ▸ h.kernel_pid
  kernel_running := ht ▸ h.kernel_running
  born_lt := hp ▸ h.born_lt
  nextPid_pos := hp ▸ h.nextPid_pos
  slot_born := ht ▸ h.slot_born
  used_pid := ht ▸ h.used_pid
  zombie_ended := ht ▸ h.zombie_ended
  cleaned_dead := ht ▸ h.cleaned_dead
  waiter := by
    intro j t c hj hz hf
    have hc := h.waiter j t c (hs.live hj hz) hz hf
    simpa only [WaitCall.Sound, ht] using hc
  tid_lt := by
    intro j t hj
    obtain ⟨t₀, h₀, he, _⟩ := hs.thread j t hj
    rw [hs.nextTid, ← he]
    exact h.tid_lt j t₀ h₀
  tid_inj := by
    intro j j' t t' hj hj' he
    obtain ⟨t₀, h₀, he₀, _⟩ := hs.thread j t hj
    obtain ⟨t₁, h₁, he₁, _⟩ := hs.thread j' t' hj'
    exact h.tid_inj j j' t₀ t₁ h₀ h₁ (he₀.trans (he.trans he₁.symm))
  nextTid_pos := hs.nextTid ▸ h.nextTid_pos
  owner := by
    intro j t i hj hz ho
    rw [ht]
    exact h.owner j t i (hs.live hj hz) hz ho

/-- The live thread of slot `j` moves on to a frame its waiters' clause allows. -/
theorem Inv.setFrame (h : Inv k born ended) {j : ThreadSlot} {t t' : Thread Frame}
    (hj : k.threads j = some t) (htid : t'.tid = t.tid)
    (howner : ∀ i, t'.proc = some i ∨ t'.frame = .entry i → t.proc = some i ∨ t.frame = .entry i)
    (hz : t.state ≠ .zombie) (hwait : ∀ c, t'.frame = .waiting c → c.Sound k ended) :
    Inv (k.setThread j (some t')) born ended where
  kernel_pid := h.kernel_pid
  kernel_running := h.kernel_running
  born_lt := h.born_lt
  nextPid_pos := h.nextPid_pos
  slot_born := h.slot_born
  used_pid := h.used_pid
  zombie_ended := h.zombie_ended
  cleaned_dead := h.cleaned_dead
  waiter := by
    intro j₁ t₁ c hj₁ hz₁ hf
    by_cases he : j₁ = j
    · subst he
      rw [Kernel.setThread_threads_self, Option.some.injEq] at hj₁
      subst hj₁
      exact hwait c hf
    · rw [Kernel.setThread_threads_ne k _ he] at hj₁
      exact h.waiter j₁ t₁ c hj₁ hz₁ hf
  tid_lt := by
    intro j₁ t₁ hj₁
    by_cases he : j₁ = j
    · subst he
      rw [Kernel.setThread_threads_self, Option.some.injEq] at hj₁
      subst hj₁
      exact htid ▸ h.tid_lt _ t hj
    · rw [Kernel.setThread_threads_ne k _ he] at hj₁
      exact h.tid_lt j₁ t₁ hj₁
  tid_inj := by
    have hback : ∀ j₁ t₁, (k.setThread j (some t')).threads j₁ = some t₁ →
        ∃ t₀, k.threads j₁ = some t₀ ∧ t₀.tid = t₁.tid := by
      intro j₁ t₁ hj₁
      by_cases he : j₁ = j
      · subst he
        rw [Kernel.setThread_threads_self, Option.some.injEq] at hj₁
        exact ⟨t, hj, hj₁ ▸ htid.symm⟩
      · rw [Kernel.setThread_threads_ne k _ he] at hj₁
        exact ⟨t₁, hj₁, rfl⟩
    intro j₁ j₂ t₁ t₂ h₁ h₂ he
    obtain ⟨u₁, hu₁, e₁⟩ := hback j₁ t₁ h₁
    obtain ⟨u₂, hu₂, e₂⟩ := hback j₂ t₂ h₂
    exact h.tid_inj j₁ j₂ u₁ u₂ hu₁ hu₂ (e₁.trans (he.trans e₂.symm))
  nextTid_pos := h.nextTid_pos
  owner := by
    intro j₁ t₁ i hj₁ hz₁ ho
    by_cases he : j₁ = j
    · subst he
      rw [Kernel.setThread_threads_self, Option.some.injEq] at hj₁
      subst hj₁
      rw [htid]
      exact h.owner _ t i hj hz (howner i ho)
    · rw [Kernel.setThread_threads_ne k _ he] at hj₁
      exact h.owner j₁ t₁ i hj₁ hz₁ ho

/-- Two slots never share a pid that has been handed out. -/
theorem Inv.pid_ne (h : Inv k born ended) {i i' : Slot} (hi : i ≠ 0) (hi' : i' ≠ 0) (hne : i' ≠ i)
    (hp : (k.table i').pid ≠ 0) : (k.table i').pid ≠ (k.table i).pid := by
  intro he
  have h₁ := (h.slot_born i' hi').resolve_left hp
  have h₂ := (h.slot_born i hi).resolve_left (he ▸ hp)
  rw [he, h₂] at h₁
  exact hne (Option.some.inj h₁).symm

/-- A slot other than the kernel's is rewritten under the same pid. -/
theorem Inv.setProc (h : Inv k born ended) {i : Slot} (hi : i ≠ 0) {p : Process} {ended' : ℤ → Option ℤ}
    (hpid : p.pid = (k.table i).pid) (hused : p.state ≠ .free → (k.table i).state ≠ .free)
    (hend : ∀ q, q ≠ (k.table i).pid → ended' q = ended q)
    (hz : p.state = .zombie → ended' p.pid = some p.exitCode)
    (hclean : p.cleaned = true → p.state ≠ .running)
    (hw : ∀ j t c, k.threads j = some t → t.state ≠ .zombie → t.frame = .waiting c → c.proc = i →
      c.Sound k ended → c.Sound (k.setProc i p) ended')
    (ho : ∀ j t, k.threads j = some t → t.state ≠ .zombie → t.proc = some i ∨ t.frame = .entry i →
      p.state = .running ∧ p.mainTid = t.tid) :
    Inv (k.setProc i p) born ended' where
  kernel_pid := by rw [Kernel.setProc_table_ne k p hi.symm]; exact h.kernel_pid
  kernel_running := by rw [Kernel.setProc_table_ne k p hi.symm]; exact h.kernel_running
  born_lt := h.born_lt
  nextPid_pos := h.nextPid_pos
  slot_born := by
    intro i' hi'
    by_cases he : i' = i
    · subst he
      rw [Kernel.setProc_table_self, hpid]
      exact h.slot_born i' hi'
    · rw [Kernel.setProc_table_ne k p he]
      exact h.slot_born i' hi'
  used_pid := by
    intro i' hi'
    by_cases he : i' = i
    · subst he
      rw [Kernel.setProc_table_self, hpid]
      exact fun hs => h.used_pid i' hi' (hused hs)
    · rw [Kernel.setProc_table_ne k p he]
      exact h.used_pid i' hi'
  zombie_ended := by
    intro i' hi' hs
    by_cases he : i' = i
    · subst he
      rw [Kernel.setProc_table_self] at hs ⊢
      exact hz hs
    · rw [Kernel.setProc_table_ne k p he] at hs ⊢
      have hne := h.pid_ne hi hi' he (h.used_pid i' hi' (by simp [hs]))
      rw [hend _ hne]
      exact h.zombie_ended i' hi' hs
  cleaned_dead := by
    intro i' hi' hc
    by_cases he : i' = i
    · subst he
      rw [Kernel.setProc_table_self] at hc ⊢
      exact hclean hc
    · rw [Kernel.setProc_table_ne k p he] at hc ⊢
      exact h.cleaned_dead i' hi' hc
  waiter := by
    intro j t c hj hzt hf
    have hc := h.waiter j t c hj hzt hf
    by_cases he : c.proc = i
    · exact hw j t c hj hzt hf he hc
    · obtain ⟨h0, hq0, hp, hs⟩ := hc
      refine ⟨h0, hq0, by rw [Kernel.setProc_table_ne k p he]; exact hp, ?_⟩
      rw [Kernel.setProc_table_ne k p he]
      rcases hs with hs | ⟨hs, hec⟩
      · exact Or.inl hs
      · have hq : c.pid ≠ (k.table i).pid := hp ▸ h.pid_ne hi h0 he (hp ▸ hq0)
        exact Or.inr ⟨hs, (hend _ hq).trans hec⟩
  tid_lt := h.tid_lt
  tid_inj := h.tid_inj
  nextTid_pos := h.nextTid_pos
  owner := by
    intro j t i' hj hzt hp
    obtain ⟨h0, hr, hm, ht0⟩ := h.owner j t i' hj hzt hp
    by_cases he : i' = i
    · subst he
      rw [Kernel.setProc_table_self]
      obtain ⟨hr', hm'⟩ := ho j t hj hzt hp
      exact ⟨h0, hr', hm', ht0⟩
    · rw [Kernel.setProc_table_ne k p he]
      exact ⟨h0, hr, hm, ht0⟩

/-- A running process with no live thread of its own ends. -/
theorem Inv.finish (h : Inv k born ended) {i : Slot} (hi : i ≠ 0) (hr : (k.table i).state = .running)
    (hdead : ∀ j t, k.threads j = some t → t.state ≠ .zombie → ¬(t.proc = some i ∨ t.frame = .entry i))
    (code : ℤ) :
    Inv (k.setProc i { k.table i with exitCode := code, state := .zombie }) born
      (Function.update ended (k.table i).pid (some code)) := by
  refine h.setProc (p := { k.table i with exitCode := code, state := .zombie }) hi rfl
    (fun _ => by simp [hr]) (fun q hq => Function.update_of_ne hq _ _)
    (fun _ => Function.update_self _ _ _) (fun _ => by simp) ?_ ?_
  · rintro j t c _ _ _ rfl ⟨h0, hq, hp, _⟩
    refine ⟨h0, hq, by simpa using hp, Or.inr ⟨by simp, ?_⟩⟩
    rw [← hp, Kernel.setProc_table_self, Function.update_self]
  · exact fun j t hj hz ho => absurd ho (hdead j t hj hz)

/-- A process that is not running gives up its slot. -/
theorem Inv.release (h : Inv k born ended) {i : Slot} (hi : i ≠ 0) (hr : (k.table i).state ≠ .running) :
    Inv (k.setProc i { k.table i with state := .free }) born ended := by
  refine h.setProc (p := { k.table i with state := .free }) hi rfl (fun hf => absurd rfl hf)
    (fun _ _ => rfl) (fun hf => by cases hf) (fun _ => by simp) ?_ ?_
  · rintro j t c _ _ _ rfl ⟨h0, hq, hp, hs⟩
    refine ⟨h0, hq, by simpa using hp, Or.inr ⟨by simp, ?_⟩⟩
    rw [Kernel.setProc_table_self]
    rcases hs with ⟨hs, _⟩ | ⟨_, hs⟩
    · exact absurd hs hr
    · exact hs
  · exact fun j t hj hz ho => absurd (h.owner j t i hj hz ho).2.1 hr

theorem Inv.procReapAt (h : Inv k born ended) (i : Slot) : Inv (k.procReapAt i) born ended := by
  unfold Kernel.procReapAt
  split
  · rename_i hc
    obtain ⟨hi, hz, _, _⟩ := hc
    refine h.setProc (p := { k.table i with cleaned := true }) hi rfl (fun _ => by simp [hz])
      (fun _ _ => rfl) (h.zombie_ended i hi) (fun _ => by simp [hz]) ?_ ?_
    · rintro j t c _ _ _ rfl ⟨h0, hq, hp, hs⟩
      exact ⟨h0, hq, by simpa using hp, by simpa using hs⟩
    · intro j t hj hzt ho
      have hr := (h.owner j t i hj hzt ho).2.1
      rw [hz] at hr
      cases hr
  · exact h

/-- A slot that is not running and that nobody waits on takes the next pid. -/
theorem Inv.birth (h : Inv k born ended) {i : Slot} (hi : i ≠ 0) (hr : (k.table i).state ≠ .running)
    (hw : ¬Watched k i) (hleft : k.nextPid.toInt < 2147483647) {p : Process} (hpid : p.pid = k.nextPid.toInt)
    (hz : p.state ≠ .zombie) (hc : p.cleaned = false) :
    Inv ({ k with nextPid := k.nextPid + 1 }.setProc i p) (Function.update born k.nextPid.toInt (some i)) ended where
  kernel_pid := by rw [Kernel.setProc_table_ne _ p hi.symm]; exact h.kernel_pid
  kernel_running := by rw [Kernel.setProc_table_ne _ p hi.symm]; exact h.kernel_running
  born_lt := by
    intro q i' hq
    have hpos := h.nextPid_pos
    rw [Kernel.setProc_nextPid, Kernel.counter_succ hleft]
    by_cases he : q = k.nextPid.toInt
    · exact ⟨he ▸ hpos, by omega⟩
    · rw [Function.update_of_ne he] at hq
      have hb := h.born_lt q i' hq
      exact ⟨hb.1, by omega⟩
  nextPid_pos := by
    have hpos := h.nextPid_pos
    rw [Kernel.setProc_nextPid, Kernel.counter_succ hleft]
    omega
  slot_born := by
    intro i' hi'
    by_cases he : i' = i
    · subst he
      rw [Kernel.setProc_table_self, hpid, Function.update_self]
      exact Or.inr rfl
    · rw [Kernel.setProc_table_ne _ p he]
      rcases h.slot_born i' hi' with h0 | hb
      · exact Or.inl h0
      · have hlt := (h.born_lt _ _ hb).2
        exact Or.inr ((Function.update_of_ne (by dsimp only; omega) _ _).trans hb)
  used_pid := by
    intro i' hi'
    by_cases he : i' = i
    · subst he
      have hpos := h.nextPid_pos
      rw [Kernel.setProc_table_self, hpid]
      exact fun _ => by omega
    · rw [Kernel.setProc_table_ne _ p he]
      exact h.used_pid i' hi'
  zombie_ended := by
    intro i' hi' hs
    by_cases he : i' = i
    · subst he
      rw [Kernel.setProc_table_self] at hs
      exact absurd hs hz
    · rw [Kernel.setProc_table_ne _ p he] at hs ⊢
      exact h.zombie_ended i' hi' hs
  cleaned_dead := by
    intro i' hi' hcl
    by_cases he : i' = i
    · subst he
      rw [Kernel.setProc_table_self, hc] at hcl
      cases hcl
    · rw [Kernel.setProc_table_ne _ p he] at hcl ⊢
      exact h.cleaned_dead i' hi' hcl
  waiter := by
    intro j t c hj hzt hf
    obtain ⟨h0, hq, hp, hs⟩ := h.waiter j t c hj hzt hf
    have hk : k.threads j = some t := hj
    have he : c.proc ≠ i := fun he => hw ⟨j, by simp only [watches, hk, hf]; simp [hzt, he]⟩
    rw [WaitCall.Sound, Kernel.setProc_table_ne _ p he]
    exact ⟨h0, hq, hp, hs⟩
  tid_lt := h.tid_lt
  tid_inj := h.tid_inj
  nextTid_pos := h.nextTid_pos
  owner := by
    intro j t i' hj hzt hp
    have hown := h.owner j t i' hj hzt hp
    have he : i' ≠ i := fun he => hr (he ▸ hown.2.1)
    rw [Kernel.setProc_table_ne _ p he]
    exact hown

/-- A new thread in an empty slot; a process thread is the main thread of its running process. -/
theorem Inv.publish (h : Inv k born ended) {j : ThreadSlot} (hj : k.threads j = none)
    (hleft : k.nextTid.toInt < 2147483647) {f : Frame} (hf : ∀ c, f ≠ .waiting c)
    (ho : ∀ i, f = .entry i → i ≠ 0 ∧ (k.table i).state = .running ∧ (k.table i).mainTid = k.nextTid.toInt) :
    Inv (k.publishThread j f) born ended where
  kernel_pid := h.kernel_pid
  kernel_running := h.kernel_running
  born_lt := h.born_lt
  nextPid_pos := h.nextPid_pos
  slot_born := h.slot_born
  used_pid := h.used_pid
  zombie_ended := h.zombie_ended
  cleaned_dead := h.cleaned_dead
  waiter := by
    intro j₁ t c hj₁ hz hfr
    simp only [Kernel.publishThread] at hj₁
    by_cases he : j₁ = j
    · subst he
      rw [Function.update_self, Option.some.injEq] at hj₁
      subst hj₁
      exact absurd hfr (hf c)
    · rw [Function.update_of_ne he] at hj₁
      exact h.waiter j₁ t c hj₁ hz hfr
  tid_lt := by
    intro j₁ t hj₁
    simp only [Kernel.publishThread, Kernel.counter_succ hleft] at hj₁ ⊢
    by_cases he : j₁ = j
    · subst he
      rw [Function.update_self, Option.some.injEq] at hj₁
      subst hj₁
      dsimp only
      omega
    · rw [Function.update_of_ne he] at hj₁
      have := h.tid_lt j₁ t hj₁
      omega
  tid_inj := by
    intro j₁ j₂ t₁ t₂ h₁ h₂ he
    simp only [Kernel.publishThread] at h₁ h₂
    by_cases e₁ : j₁ = j <;> by_cases e₂ : j₂ = j
    · rw [e₁, e₂]
    · subst e₁
      rw [Function.update_self, Option.some.injEq] at h₁
      rw [Function.update_of_ne e₂] at h₂
      have := h.tid_lt j₂ t₂ h₂
      subst h₁
      simp only at he
      omega
    · subst e₂
      rw [Function.update_self, Option.some.injEq] at h₂
      rw [Function.update_of_ne e₁] at h₁
      have := h.tid_lt j₁ t₁ h₁
      subst h₂
      simp only at he
      omega
    · rw [Function.update_of_ne e₁] at h₁
      rw [Function.update_of_ne e₂] at h₂
      exact h.tid_inj j₁ j₂ t₁ t₂ h₁ h₂ he
  nextTid_pos := by
    have := h.nextTid_pos
    simp only [Kernel.publishThread, Kernel.counter_succ hleft]
    omega
  owner := by
    intro j₁ t i hj₁ hz hp
    simp only [Kernel.publishThread] at hj₁
    by_cases he : j₁ = j
    · subst he
      rw [Function.update_self, Option.some.injEq] at hj₁
      subst hj₁
      rcases hp with hp | hp
      · cases hp
      · obtain ⟨h0, hr, hm⟩ := ho i hp
        have := h.nextTid_pos
        exact ⟨h0, hr, hm, by simp only; omega⟩
    · rw [Function.update_of_ne he] at hj₁
      exact h.owner j₁ t i hj₁ hz hp

/-! ## One step -/

/-- A step that hands out no pid and ends no process leaves the record alone. -/
theorem Inv.of_quiet (h : Inv k' born ended) (hp : ∀ i, (k'.table i).pid = (k.table i).pid)
    (hq : ∀ i, (k.table i).state = .running → (k'.table i).state ≠ .zombie) :
    Inv k' (seeBirths k k' born) (seeEnds k k' ended) := by
  rw [seeBirths_of_pids born hp, seeEnds_of_quiet ended hq]
  exact h

theorem Inv.of_table (h : Inv k' born ended) (ht : k'.table = k.table) :
    Inv k' (seeBirths k k' born) (seeEnds k k' ended) :=
  h.of_quiet (fun i => by rw [ht]) (fun i hr => by rw [ht, hr]; simp)

/-- The state and pid fields a kernel step leaves in a slot it releases or does not touch. -/
def SameOrFreed (k k' : Kernel) : Prop :=
  ∀ i, (k'.table i).pid = (k.table i).pid ∧
    ((k'.table i).state = (k.table i).state ∨ (k'.table i).state = .free)

theorem Inv.of_sameOrFreed (h : Inv k' born ended) (hs : SameOrFreed k k') :
    Inv k' (seeBirths k k' born) (seeEnds k k' ended) := by
  refine h.of_quiet (fun i => (hs i).1) (fun i hr hz => ?_)
  rcases (hs i).2 with he | he
  · rw [he, hr] at hz
    cases hz
  · rw [he] at hz
    cases hz

theorem sameOrFreed_release (k : Kernel) (i : Slot) :
    SameOrFreed k (k.setProc i { k.table i with state := .free }) := by
  intro i'
  by_cases he : i' = i
  · subst he
    simp
  · rw [Kernel.setProc_table_ne k _ he]
    exact ⟨rfl, Or.inl rfl⟩

variable {j : ThreadSlot} {t : Thread Frame}

theorem Inv.block (h : Inv k born ended) (hj : k.threads j = some t) (hz : t.state ≠ .zombie)
    {c : WaitCall} (hc : c.Sound k ended) : Inv (blockWait k j t c).1 born ended := by
  refine h.setFrame hj rfl ?_ hz ?_
  · rintro i (hp | hp)
    · exact Or.inl hp
    · cases hp
  · rintro c' hf
    obtain rfl := Frame.waiting.inj hf
    exact hc

/-- `proc_wait` up to its next yield keeps the invariant, and a return it makes is right. -/
theorem Inv.continueWait (h : Inv k born ended) (hj : k.threads j = some t) (hz : t.state ≠ .zombie)
    {c : WaitCall} (hc : c.Sound k ended) :
    Inv (continueWait k j t c).1 born ended ∧ SameOrFreed k (continueWait k j t c).1 ∧
      ∀ r, (continueWait k j t c).2 = some r → r.Correct ⟨k, born, ended⟩ := by
  -- the second loop is entered only once the process has ended
  have hcleaned : (k.table c.proc).state ≠ .running → ended c.pid = some (k.table c.proc).exitCode →
      Inv (waitCleaned k j t c).1 born ended ∧ SameOrFreed k (waitCleaned k j t c).1 ∧
      ∀ r, (waitCleaned k j t c).2 = some r → r.Correct ⟨k, born, ended⟩ := by
    intro hs he
    obtain ⟨h0, hq, hp, _⟩ := hc
    unfold waitCleaned
    split
    · refine ⟨h.block hj hz ⟨h0, hq, hp, Or.inr ⟨hs, he⟩⟩, fun i => ⟨rfl, Or.inl rfl⟩, ?_⟩
      intro r hr
      cases hr
    · refine ⟨?_, sameOrFreed_release k c.proc, ?_⟩
      · have hrel := h.release h0 hs
        refine hrel.setFrame (t := t) (by simpa using hj) rfl ?_ hz ?_
        · rintro i (hp | hp)
          · exact Or.inl hp
          · cases hp
        · intro c' hf
          cases hf
      · intro r hr
        obtain rfl := Option.some.inj hr
        have hb := (h.slot_born c.proc h0).resolve_left (hp ▸ hq)
        exact ⟨he, hp ▸ hb, hp⟩
  unfold ProcessWait.continueWait
  split
  · split
    · refine ⟨h.block hj hz hc, fun i => ⟨rfl, Or.inl rfl⟩, ?_⟩
      intro r hr
      cases hr
    · rename_i hs
      rcases hc.2.2.2 with ⟨hr, _⟩ | ⟨_, he⟩
      · exact absurd hr hs
      · exact hcleaned hs he
  · rename_i hl
    rcases hc.2.2.2 with ⟨_, hl'⟩ | ⟨hs, he⟩
    · rw [hl] at hl'
      cases hl'
    · exact hcleaned hs he

theorem Inv.procWait (h : Inv k born ended) (hj : k.threads j = some t) (hz : t.state ≠ .zombie) (pid : ℤ) :
    Inv (procWait k j t pid).1 born ended ∧ SameOrFreed k (procWait k j t pid).1 ∧
      ∀ r, (procWait k j t pid).2 = some r → r.Correct ⟨k, born, ended⟩ := by
  have hself : Inv k born ended ∧ SameOrFreed k k ∧
      ∀ r : WaitReturn, none = some r → r.Correct ⟨k, born, ended⟩ :=
    ⟨h, fun i => ⟨rfl, Or.inl rfl⟩, fun r hr => by cases hr⟩
  unfold ProcessWait.procWait
  split
  · exact hself
  · rename_i i hf
    obtain ⟨hs, hp⟩ := Kernel.procByPid_some hf
    split
    · exact hself
    · rename_i hi
      have hq := h.used_pid i hi hs
      refine h.continueWait hj hz (c := ⟨pid, i, .state⟩) ⟨hi, hp ▸ hq, hp, ?_⟩
      cases hst : (k.table i).state with
      | free => exact absurd hst hs
      | running => exact Or.inl ⟨rfl, rfl⟩
      | zombie => exact Or.inr ⟨by simp, hp ▸ h.zombie_ended i hi hst⟩

theorem Inv.procTryWait (h : Inv k born ended) (pid : ℤ) :
    Inv (procTryWait k pid) born ended ∧ SameOrFreed k (procTryWait k pid) := by
  have hself : Inv k born ended ∧ SameOrFreed k k := ⟨h, fun i => ⟨rfl, Or.inl rfl⟩⟩
  unfold ProcessWait.procTryWait
  split
  · exact hself
  · rename_i i _
    dsimp only
    split
    · exact hself
    · rename_i hc
      simp only [not_or] at hc
      exact ⟨h.release hc.1 hc.2.1, sameOrFreed_release k i⟩

/-- A live process thread whose process ends in the same step. -/
theorem Inv.endsWith (h : Inv k born ended) {k₁ : Kernel} {i : Slot} (hi : i ≠ 0)
    (hr : (k.table i).state = .running) (hs : k.ThreadsShrink k₁) (ht : k₁.table = k.table)
    (hp : k₁.nextPid = k.nextPid) (code : ℤ)
    (hdead : ∀ j t, k₁.threads j = some t → t.state ≠ .zombie → t.tid ≠ 0 → t.tid ≠ (k.table i).mainTid) :
    Inv (k₁.setProc i { k₁.table i with exitCode := code, state := .zombie })
      (seeBirths k (k₁.setProc i { k₁.table i with exitCode := code, state := .zombie }) born)
      (seeEnds k (k₁.setProc i { k₁.table i with exitCode := code, state := .zombie }) ended) := by
  have h₁ := h.shrink hs ht hp
  have hr₁ : (k₁.table i).state = .running := ht ▸ hr
  have hne : ∀ i', i' ≠ i → (k₁.setProc i { k₁.table i with exitCode := code, state := .zombie }).table i' =
      k.table i' := fun i' he => by rw [Kernel.setProc_table_ne _ _ he, ht]
  rw [seeBirths_of_pids, seeEnds_of_end (i := i)]
  · have hfin := h₁.finish hi hr₁ ?_ code
    · simpa [ht] using hfin
    · intro j t hj hz ho
      obtain ⟨_, _, hm, ht0⟩ := h₁.owner j t i hj hz ho
      exact hdead j t hj hz ht0 (ht ▸ hm.symm)
  · simp [ht]
  · exact hr
  · simp
  · intro i' he hr'
    rw [hne i' he, hr']
    simp
  · intro i'
    by_cases he : i' = i
    · subst he
      simp [ht]
    · rw [hne i' he]

theorem Inv.threadKill (h : Inv k born ended) (tid : ℤ) :
    Inv (k.threadKill tid) (seeBirths k (k.threadKill tid) born) (seeEnds k (k.threadKill tid) ended) :=
  (h.shrink (k.threadKill_shrink tid) (k.threadKill_table tid) (k.threadKill_nextPid tid)).of_table
    (k.threadKill_table tid)

/-- No other live thread has the tid of a live thread that has just been finished. -/
theorem Inv.finished_tid (h : Inv k born ended) (hj : k.threads j = some t) (code : ℤ) :
    ∀ j' t', (k.finishThread j code).threads j' = some t' → t'.state ≠ .zombie → t'.tid ≠ t.tid := by
  intro j' t' hj' hz' he
  have hl := (k.finishThread_shrink j code).live hj' hz'
  have hjj := h.tid_inj j' j t' t hl hj he
  subst hjj
  exact hz' (k.finishThread_dead code hj')

theorem Inv.threadExit (h : Inv k born ended) (hj : k.threads j = some t) (hz : t.state ≠ .zombie) (code : ℤ) :
    Inv (k.threadExit j code) (seeBirths k (k.threadExit j code) born) (seeEnds k (k.threadExit j code) ended) := by
  have hfin : Inv (k.finishThread j code) (seeBirths k (k.finishThread j code) born)
      (seeEnds k (k.finishThread j code) ended) :=
    (h.shrink (k.finishThread_shrink j code) (k.finishThread_table j code)
      (k.finishThread_nextPid j code)).of_table (k.finishThread_table j code)
  unfold Kernel.threadExit
  simp only [hj]
  cases hp : t.proc with
  | none => exact hfin
  | some i =>
    obtain ⟨hi, hr, hm, _⟩ := h.owner j t i hj hz (Or.inl hp)
    have hend := h.endsWith hi hr (k.finishThread_shrink j code) (k.finishThread_table j code)
      (k.finishThread_nextPid j code) code (fun j' t' hj' hz' _ => hm.symm ▸ h.finished_tid hj code j' t' hj' hz')
    simp only [if_pos (And.intro hm hr), Kernel.finishThread_setProc]
    simpa using hend

theorem Inv.procExit (h : Inv k born ended) (hj : k.threads j = some t) (hz : t.state ≠ .zombie) (code : ℤ) :
    Inv (procExit k j t code) (seeBirths k (procExit k j t code) born)
      (seeEnds k (procExit k j t code) ended) := by
  unfold ProcessWait.procExit
  cases hp : t.proc with
  | none => exact h.threadExit hj hz code
  | some i =>
    obtain ⟨hi, hr, hm, _⟩ := h.owner j t i hj hz (Or.inl hp)
    -- the process is already a zombie when `thread_exit` looks at it
    have he : (k.setProc i { k.table i with exitCode := code, state := .zombie }).threadExit j code =
        (k.finishThread j code).setProc i { k.table i with exitCode := code, state := .zombie } := by
      simp [Kernel.threadExit, hj, hp, Kernel.finishThread_setProc]
    have hend := h.endsWith hi hr (k.finishThread_shrink j code) (k.finishThread_table j code)
      (k.finishThread_nextPid j code) code (fun j' t' hj' hz' _ => hm.symm ▸ h.finished_tid hj code j' t' hj' hz')
    simp only [he]
    simpa using hend

/-- After `thread_kill` no live thread has that tid. -/
theorem Inv.killed_tid (h : Inv k born ended) {tid : ℤ} (h0 : tid ≠ 0) :
    ∀ j t, (k.threadKill tid).threads j = some t → t.state ≠ .zombie → t.tid ≠ tid := by
  intro j t hj hz he
  have hl := (k.threadKill_shrink tid).live hj hz
  cases hk : k.killTarget tid with
  | none => exact hz (Kernel.killTarget_none hk hl he h0)
  | some j' =>
    obtain ⟨t', hj', htid, _, _⟩ := Kernel.killTarget_some hk
    have hjj := h.tid_inj j j' t t' hl hj' (he.trans htid.symm)
    subst hjj
    simp only [Kernel.threadKill, hk] at hj
    exact hz (k.finishThread_dead _ hj)

theorem Inv.procKill (h : Inv k born ended) (pid : ℤ) :
    Inv (procKill k t pid) (seeBirths k (procKill k t pid) born) (seeEnds k (procKill k t pid) ended) := by
  have hself : Inv k (seeBirths k k born) (seeEnds k k ended) := h.of_table rfl
  unfold ProcessWait.procKill
  split
  · exact hself
  · rename_i i _
    dsimp only
    split
    · exact hself
    · rename_i hc
      simp only [not_or, not_not] at hc
      split
      · exact h.threadKill _
      · have hend := h.endsWith hc.1 hc.2 (k.threadKill_shrink (k.table i).mainTid) (by simp) (by simp) (-1) ?_
        · simpa using hend
        · intro j t hj hz h0 he
          exact h.killed_tid (he ▸ h0) j t hj hz he

theorem Inv.schedReap (h : Inv k born ended) (self : ThreadSlot) (js : List ThreadSlot) :
    Inv (js.foldl (fun k j => k.schedReapAt self j) k) born ended ∧
      (js.foldl (fun k j => k.schedReapAt self j) k).table = k.table := by
  induction js generalizing k with
  | nil => exact ⟨h, rfl⟩
  | cons j js ih =>
    have h₁ := h.shrink (k.schedReapAt_shrink self j) (k.schedReapAt_table self j) (k.schedReapAt_nextPid self j)
    obtain ⟨hi, ht⟩ := ih h₁
    exact ⟨hi, ht.trans (k.schedReapAt_table self j)⟩

theorem procReapAt_sameOrFreed (k : Kernel) (i : Slot) : SameOrFreed k (k.procReapAt i) := by
  intro i'
  unfold Kernel.procReapAt
  split
  · by_cases he : i' = i
    · subst he
      simp
    · rw [Kernel.setProc_table_ne k _ he]
      exact ⟨rfl, Or.inl rfl⟩
  · exact ⟨rfl, Or.inl rfl⟩

theorem SameOrFreed.trans {k'' : Kernel} (h : SameOrFreed k k') (h' : SameOrFreed k' k'') :
    SameOrFreed k k'' := by
  intro i
  refine ⟨(h' i).1.trans (h i).1, ?_⟩
  rcases (h' i).2 with he | he
  · rcases (h i).2 with he₀ | he₀
    · exact Or.inl (he.trans he₀)
    · exact Or.inr (he.trans he₀)
  · exact Or.inr he

theorem Inv.procReap (h : Inv k born ended) (is : List Slot) :
    Inv (is.foldl (fun k i => k.procReapAt i) k) born ended ∧
      SameOrFreed k (is.foldl (fun k i => k.procReapAt i) k) := by
  induction is generalizing k with
  | nil => exact ⟨h, fun i => ⟨rfl, Or.inl rfl⟩⟩
  | cons i is ih =>
    obtain ⟨hi, hs⟩ := ih (h.procReapAt i)
    exact ⟨hi, (procReapAt_sameOrFreed k i).trans hs⟩

/-- The record after a spawn that has taken slot `i`. -/
theorem Inv.of_birth (h : Inv k born ended) {i : Slot} (hi : i ≠ 0)
    (h' : Inv k' (Function.update born k.nextPid.toInt (some i)) ended) (hp : (k'.table i).pid = k.nextPid.toInt)
    (hz : (k'.table i).state ≠ .zombie) (hne : ∀ i', i' ≠ i → k'.table i' = k.table i') :
    Inv k' (seeBirths k k' born) (seeEnds k k' ended) := by
  have hfresh : (k.table i).pid ≠ k.nextPid.toInt := by
    have hpos := h.nextPid_pos
    rcases h.slot_born i hi with h0 | hb
    · omega
    · exact (h.born_lt _ _ hb).2.ne
  rw [seeBirths_of_birth (i := i) born (hp ▸ hfresh) (fun i' he => by rw [hne i' he]), hp, seeEnds_of_quiet]
  · exact h'
  · intro i' hr
    by_cases he : i' = i
    · exact he ▸ hz
    · rw [hne i' he, hr]
      simp

theorem Inv.spawn (h : Inv k born ended) (parent : ℤ) (memory : SpawnMemory) (heap : Bool)
    (hw : ∀ i, k.allocate.map Prod.fst = some i → ¬Watched k i)
    (hleft : k.nextPid.toInt < 2147483647 ∧ k.nextTid.toInt < 2147483647) :
    Inv (procSpawnImage k parent memory heap).1 (seeBirths k (procSpawnImage k parent memory heap).1 born)
      (seeEnds k (procSpawnImage k parent memory heap).1 ended) := by
  have hself : Inv k (seeBirths k k born) (seeEnds k k ended) := h.of_table rfl
  unfold procSpawnImage
  split
  · exact hself
  split
  · exact hself
  rename_i i k₀ ha
  obtain ⟨hi, hcase⟩ := Kernel.allocate_some ha
  have hwi := hw i (by rw [ha]; rfl)
  -- a recycled slot is released first; either way the slot is not running and not watched
  have hk₀ : Inv k₀ born ended ∧ (k₀.table i).state ≠ .running ∧ k₀.nextPid = k.nextPid ∧ k₀.nextTid = k.nextTid ∧
      k₀.threads = k.threads ∧ ∀ i', i' ≠ i → k₀.table i' = k.table i' := by
    rcases hcase with ⟨hf, rfl⟩ | ⟨hz, _, rfl⟩
    · exact ⟨h, by simp [hf], rfl, rfl, rfl, fun _ _ => rfl⟩
    · exact ⟨h.release hi (by simp [hz]), by simp, rfl, rfl, rfl, fun i' he => Kernel.setProc_table_ne k _ he⟩
  obtain ⟨h₀, hr₀, hpid₀, htid₀, hthr₀, hne₀⟩ := hk₀
  have hw₀ : ¬Watched k₀ i := by
    simpa only [Watched, hthr₀] using hwi
  have hfail : ∀ p : Process, p.pid = k₀.nextPid.toInt → p.state ≠ .zombie → p.cleaned = false →
      Inv ({ k₀ with nextPid := k₀.nextPid + 1 }.setProc i p) (Function.update born k.nextPid.toInt (some i)) ended :=
    fun p hp hz hc => hpid₀ ▸ h₀.birth hi hr₀ hw₀ (hpid₀.symm ▸ hleft.1) hp hz hc
  have hseen : ∀ k₂ : Kernel, Inv k₂ (Function.update born k.nextPid.toInt (some i)) ended →
      ∀ p : Process, (k₂.table = ({ k₀ with nextPid := k₀.nextPid + 1 }.setProc i p).table) →
      p.pid = k₀.nextPid.toInt → p.state ≠ .zombie → Inv k₂ (seeBirths k k₂ born) (seeEnds k k₂ ended) := by
    intro k₂ h₂ p ht hp hz
    refine h.of_birth hi h₂ ?_ ?_ ?_
    · rw [ht, Kernel.setProc_table_self, hp, hpid₀]
    · rw [ht, Kernel.setProc_table_self]
      exact hz
    · intro i' he
      rw [ht, Kernel.setProc_table_ne _ p he]
      exact hne₀ i' he
  have hfailed := hseen _ (hfail { pid := k₀.nextPid.toInt, parent := parent, state := .free } rfl (by simp) rfl)
    { pid := k₀.nextPid.toInt, parent := parent, state := .free } rfl rfl (by simp)
  dsimp only
  cases memory with
  | badCall => exact absurd rfl ‹¬SpawnMemory.badCall = SpawnMemory.badCall›
  | noDirectory => exact hfailed
  | badImage => exact hfailed
  | noStack => exact hfailed
  | badArguments => exact hfailed
  | ready =>
    dsimp only
    split
    · exact hfailed
    · rename_i j hj
      split
      · have hnone := Kernel.freeThreadSlot_some hj
        set p : Process := { pid := k₀.nextPid.toInt, parent := parent, state := .running, mainTid := k₀.nextTid.toInt }
        have hpub := (hfail p rfl (by simp [p]) rfl).publish (j := j) (f := .entry i) hnone (htid₀ ▸ hleft.2)
          (by simp) (by rintro i' hf; obtain rfl := Frame.entry.inj hf; simp [hi, p])
        exact hseen _ hpub p rfl rfl (by simp [p])
      · exact hfailed

/-- A call keeps the invariant when it is no spawn into a watched slot, and what `proc_wait`
returns in it is right. -/
theorem Inv.perform (h : Inv k born ended) (hj : k.threads j = some t) (hz : t.state ≠ .zombie) (c : Call)
    (hsp : SpawnsUnwatched ⟨k, born, ended⟩ (.call c)) (hleft : NumbersLeft ⟨k, born, ended⟩ (.call c)) :
    Inv (perform k j t c).1 (seeBirths k (perform k j t c).1 born) (seeEnds k (perform k j t c).1 ended) ∧
      ∀ w, (perform k j t c).2 = some w → w.Correct ⟨k, born, ended⟩ := by
  have hquiet : ∀ w : WaitReturn, none = some w → w.Correct ⟨k, born, ended⟩ := fun w hw => by cases hw
  cases c with
  | threadCreate heap =>
    simp only [ProcessWait.perform]
    split
    · rename_i j' hj'
      refine ⟨?_, hquiet⟩
      dsimp only
      split
      · exact (h.publish (Kernel.freeThreadSlot_some hj') hleft (by simp) (by simp)).of_table rfl
      · exact h.of_table rfl
    · exact ⟨h.of_table rfl, hquiet⟩
  | procSpawnImage memory heap => exact ⟨h.spawn _ memory heap hsp hleft, hquiet⟩
  | procExit code => exact ⟨h.procExit hj hz code, hquiet⟩
  | threadExit code => exact ⟨h.threadExit hj hz code, hquiet⟩
  | procKill pid => exact ⟨h.procKill pid, hquiet⟩
  | threadKill tid => exact ⟨h.threadKill tid, hquiet⟩
  | procWait pid =>
    obtain ⟨hi, hs, hr⟩ := h.procWait hj hz pid
    exact ⟨hi.of_sameOrFreed hs, hr⟩
  | procTryWait pid =>
    obtain ⟨hi, hs⟩ := h.procTryWait pid
    exact ⟨hi.of_sameOrFreed hs, hquiet⟩
  | schedReap =>
    refine ⟨?_, hquiet⟩
    simp only [ProcessWait.perform]
    split
    · obtain ⟨hi, ht⟩ := h.schedReap j (List.finRange 32)
      exact hi.of_table ht
    · exact h.of_table rfl
  | procReap =>
    refine ⟨?_, hquiet⟩
    simp only [ProcessWait.perform]
    split
    · obtain ⟨hi, hs⟩ := h.procReap (List.finRange 32)
      exact hi.of_sameOrFreed hs
    · exact h.of_table rfl

theorem Inv.act (h : Inv k born ended) (hj : k.threads j = some t) (hz : t.state ≠ .zombie) {a : Action}
    {r : Option WaitReturn} (ha : act k j t a = some (k', r)) (hsp : SpawnsUnwatched ⟨k, born, ended⟩ a)
    (hleft : NumbersLeft ⟨k, born, ended⟩ a) :
    Inv k' (seeBirths k k' born) (seeEnds k k' ended) ∧ ∀ w, r = some w → w.Correct ⟨k, born, ended⟩ := by
  cases a with
  | enter =>
    simp only [ProcessWait.act] at ha
    split at ha
    · rename_i i hf
      obtain ⟨rfl, rfl⟩ := Prod.mk.inj (Option.some.inj ha)
      refine ⟨Inv.of_table (h.setFrame
        hj rfl ?_ hz ?_) rfl, fun w hw => by cases hw⟩
      · rintro i' (hp | hp)
        · obtain rfl := Option.some.inj hp
          exact Or.inr hf
        · cases hp
      · intro c hc
        cases hc
    · cases ha
  | resume =>
    simp only [ProcessWait.act] at ha
    split at ha
    · rename_i c hf
      obtain ⟨hi, hs, hr⟩ := h.continueWait hj hz (h.waiter j t c hj hz hf)
      rw [Option.some.injEq] at ha
      rw [ha] at hi hs hr
      exact ⟨hi.of_sameOrFreed hs, hr⟩
    · cases ha
  | call c =>
    simp only [ProcessWait.act] at ha
    split at ha
    · have hp := h.perform hj hz c hsp hleft
      rw [Option.some.injEq] at ha
      rw [ha] at hp
      exact hp
    · cases ha

/-- What one step can do: a live thread acts, and the observer looks at the table again. -/
theorem step_some {s s' : Run} {j : ThreadSlot} {a : Action} {r : Option WaitReturn}
    (h : step s j a = some (s', r)) :
    ∃ t k', s.kernel.threads j = some t ∧ t.state ≠ .zombie ∧ act s.kernel j t a = some (k', r) ∧
      s' = ⟨k', seeBirths s.kernel k' s.born, seeEnds s.kernel k' s.ended⟩ := by
  unfold step at h
  split at h
  · cases h
  · rename_i t ht
    split at h
    · cases h
    · rename_i hz
      split at h
      · cases h
      · rename_i k' r' ha
        obtain ⟨rfl, rfl⟩ := Prod.mk.inj (Option.some.inj h)
        exact ⟨t, k', ht, hz, ha, rfl⟩

open ReachableStates

theorem inv_of_unwatched {s : Run} (h : Reachable (· = start) UnwatchedStep s) :
    Inv s.kernel s.born s.ended := by
  refine h.invariant (P := fun s => Inv s.kernel s.born s.ended) ?_ ?_
  · rintro s rfl
    exact inv_start
  · rintro s s' hi ⟨j, a, r, hsp, hleft, hs⟩
    obtain ⟨t, k', hj, hz, ha, rfl⟩ := step_some hs
    exact (hi.act hj hz ha hsp hleft).1

/-- A return of 0 is right whatever a call that takes a number may do: it does not return from `proc_wait`. -/
theorem Inv.waitReturn {s s' : Run} {j : ThreadSlot} {a : Action} {r : WaitReturn}
    (hi : Inv s.kernel s.born s.ended) (hs : step s j a = some (s', some r)) : r.Correct s := by
  obtain ⟨t, k', hj, hz, ha, -⟩ := step_some hs
  cases a with
  | call c =>
    cases c with
    | procSpawnImage memory heap =>
      simp only [ProcessWait.act, ProcessWait.perform] at ha
      split at ha <;> cases ha
    | threadCreate heap =>
      simp only [ProcessWait.act, ProcessWait.perform] at ha
      split at ha
      · split at ha <;> cases ha
      · cases ha
    | _ => exact (hi.act hj hz ha trivial trivial).2 r rfl
  | _ => exact (hi.act hj hz ha trivial trivial).2 r rfl

/-- In a run whose spawns take no slot that a waiter still points at, and whose counters do not wrap, every return of
0 from `proc_wait` carries the code its process ended with and frees that process's slot. -/
theorem procWait_correct {s s' : Run} {j : ThreadSlot} {a : Action} {r : WaitReturn}
    (h : Reachable (· = start) UnwatchedStep s) (hs : step s j a = some (s', some r)) : r.Correct s :=
  (inv_of_unwatched h).waitReturn hs

theorem next_step (s : Run) (ja : ThreadSlot × Action) (s' : Run) (h : next s ja = some s') : Step s s' := by
  obtain ⟨⟨s₁, r⟩, hs, rfl⟩ := Option.map_eq_some_iff.mp h
  exact ⟨ja.1, ja.2, r, hs⟩

theorem unwatchedNext_step (s : Run) (ja : ThreadSlot × Action) (s' : Run)
    (h : unwatchedNext s ja = some s') : UnwatchedStep s s' := by
  unfold unwatchedNext at h
  split at h
  · rename_i hu
    obtain ⟨⟨s₁, r⟩, hs, rfl⟩ := Option.map_eq_some_iff.mp h
    exact ⟨ja.1, ja.2, r, hu.1, hu.2, hs⟩
  · cases h

/-- A process is started, one thread waits for it, it ends with 7 and is cleaned up. -/
def oneWaiter : List (ThreadSlot × Action) :=
  [(0, .call (.threadCreate true)), (0, .call (.procSpawnImage .ready true)), (1, .call (.procWait 1)),
   (2, .enter), (2, .call (.procExit 7)), (0, .call .schedReap), (0, .call .procReap)]

/-- Two threads wait for the process. The second is not scheduled until the first has returned,
the slot has been given to the next process, and that process has ended with 9. -/
def twoWaiters : List (ThreadSlot × Action) :=
  [(0, .call (.threadCreate true)), (0, .call (.threadCreate true)), (0, .call (.procSpawnImage .ready true)),
   (1, .call (.procWait 1)), (2, .call (.procWait 1)), (3, .enter), (3, .call (.procExit 7)),
   (0, .call .schedReap), (0, .call .procReap), (1, .resume), (0, .call (.procSpawnImage .ready true)),
   (3, .enter), (3, .call (.procExit 9)), (0, .call .schedReap), (0, .call .procReap)]

/-- The waiter of `oneWaiter` gets its 7. -/
theorem procWait_correct_oneWaiter :
    ∃ s s', follow unwatchedNext start oneWaiter = some s ∧
      step s 1 .resume = some (s', some ⟨1, 7, 1⟩) ∧ WaitReturn.Correct ⟨1, 7, 1⟩ s := by
  have he : ((follow unwatchedNext start oneWaiter).bind (fun s => step s 1 .resume)).map Prod.snd =
      some (some ⟨1, 7, 1⟩) := by
    decide +kernel
  obtain ⟨⟨s', r⟩, hb, hr⟩ := Option.map_eq_some_iff.mp he
  obtain ⟨s, hf, hs⟩ := Option.bind_eq_some_iff.mp hb
  dsimp only at hr
  subst hr
  have hreach : Reachable (· = start) UnwatchedStep s := Reachable.follow unwatchedNext_step (.start rfl) hf
  exact ⟨s, s', hf, hs, procWait_correct hreach hs⟩

/-- Without the condition the answer can be another process's: the second waiter of `twoWaiters`
asked for pid 1 and gets 9, and it frees the slot of pid 2. -/
theorem procWait_answers_for_other :
    ¬∀ s s' j a r, Reachable (· = start) Step s → step s j a = some (s', some r) → WaitReturn.Correct r s := by
  intro hall
  have he : (follow next start twoWaiters).bind (fun s => (step s 2 .resume).bind (fun p =>
      p.2.map (fun r => (r, decide (r.Correct s))))) = some (⟨1, 9, 1⟩, false) := by
    decide +kernel
  obtain ⟨s, hf, hs⟩ := Option.bind_eq_some_iff.mp he
  obtain ⟨⟨s', r'⟩, hstep, hr⟩ := Option.bind_eq_some_iff.mp hs
  obtain ⟨r, hr', hc⟩ := Option.map_eq_some_iff.mp hr
  dsimp only at hr'
  subst hr'
  have hreach : Reachable (· = start) Step s := Reachable.follow next_step (.start rfl) hf
  have hwrong := of_decide_eq_false (Prod.mk.inj hc).2
  exact hwrong (hall s s' 2 .resume r hreach hstep)

end SifarOS.ProcessWait
