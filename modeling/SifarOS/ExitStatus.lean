import SifarOS.ProcessWait

/-! # Exit statuses across the system call

`SYS_WAIT` hands what `proc_try_wait` and `proc_wait` found to the caller in one `int`, and the
user library takes it apart again. -/
namespace SifarOS.ProcessWait
open ProcessTable ReachableStates

/-- What has become of the process of a pid. -/
inductive Phase
  | absent
  | present
  | finished (code : ℤ)
  deriving DecidableEq, Repr

/-- The slot of the process that has this pid. -/
def slotOf (k : Kernel) (pid : ℤ) : Option Slot :=
  (List.finRange 32).find? fun i => decide (i ≠ 0 ∧ (k.table i).state ≠ .free ∧ (k.table i).pid = pid)

/-- A process has finished when it has been cleaned up, with the code it was seen to end with. -/
def phase (s : Run) (pid : ℤ) : Phase :=
  match slotOf s.kernel pid with
  | none => .absent
  | some i => if (s.kernel.table i).cleaned then (s.ended pid).elim .present .finished else .present

/-- What the caller of `try_wait` is to be told. -/
def Phase.answer : Phase → ℤ × Option ℤ
  | .absent => (-1, none)
  | .present => (0, none)
  | .finished code => (1, some code)

/-- An entry keeps its pid, is not given up before it is cleaned up and keeps its code from then on; or it is
given to a new process. -/
inductive EntryStep (nextPid : ℤ) (p p' : Process) : Prop
  | keep (hpid : p'.pid = p.pid) (hfree : p.state = .free → p'.state = .free)
      (hopen : p.state ≠ .free → p.cleaned = false → p'.state ≠ .free)
      (hclean : p.cleaned = true → p'.cleaned = true ∧ p'.exitCode = p.exitCode)
  | fresh (hgone : p.state = .free ∨ p.cleaned = true) (hpid : nextPid ≤ p'.pid)

theorem EntryStep.refl (n : ℤ) (p : Process) : EntryStep n p p :=
  .keep rfl id (fun h _ => h) fun h => ⟨h, rfl⟩

def Evolves (k k' : Kernel) : Prop := ∀ i, i ≠ 0 → EntryStep k.nextPid.toInt (k.table i) (k'.table i)

section Evolves
variable {k k' k'' : Kernel} {born : ℤ → Option Slot} {ended : ℤ → Option ℤ} {j : ThreadSlot} {t : Thread Frame}

theorem Evolves.of_table (h : k'.table = k.table) : Evolves k k' := fun _ _ => h ▸ EntryStep.refl _ _

theorem Evolves.congr (h : Evolves k k') (ht : k''.table = k'.table) : Evolves k k'' := fun i hi => by
  rw [ht]
  exact h i hi

theorem Evolves.setProc {i : Slot} {p : Process} (hp : i ≠ 0 → EntryStep k.nextPid.toInt (k.table i) p) :
    Evolves k (k.setProc i p) := by
  intro i' hi'
  by_cases he : i' = i
  · subst he
    rw [Kernel.setProc_table_self]
    exact hp hi'
  · rw [Kernel.setProc_table_ne k p he]
    exact EntryStep.refl _ _

/-- A process that has been cleaned up gives up its slot. -/
theorem Evolves.release {i : Slot} (hc : (k.table i).cleaned = true) :
    Evolves k (k.setProc i { k.table i with state := .free }) := by
  refine Evolves.setProc fun _ => .keep rfl (fun _ => rfl) (fun _ hopen => ?_) fun h => ⟨h, rfl⟩
  rw [hc] at hopen
  cases hopen

theorem Evolves.continueWait (k : Kernel) (j : ThreadSlot) (t : Thread Frame) (call : WaitCall) :
    Evolves k (continueWait k j t call).1 := by
  have hcleaned : ∀ call : WaitCall, Evolves k (waitCleaned k j t call).1 := by
    intro call
    unfold waitCleaned
    split
    · exact .of_table rfl
    · next hc => exact (Evolves.release (by simpa using hc)).congr rfl
  unfold ProcessWait.continueWait
  split
  · split
    · exact .of_table rfl
    · exact hcleaned call
  · exact hcleaned call

theorem Evolves.procWait (k : Kernel) (j : ThreadSlot) (t : Thread Frame) (pid : ℤ) :
    Evolves k (procWait k j t pid).1 := by
  unfold ProcessWait.procWait
  split
  · exact .of_table rfl
  · split
    · exact .of_table rfl
    · exact .continueWait k j t _

theorem Evolves.procTryWait (k : Kernel) (pid : ℤ) : Evolves k (procTryWait k pid) := by
  unfold ProcessWait.procTryWait
  split
  · exact .of_table rfl
  · dsimp only
    split
    · exact .of_table rfl
    · next hc => exact .release (by simpa using (not_or.mp (not_or.mp hc).2).2)

theorem procReap_table (is : List Slot) (k : Kernel) (i : Slot) :
    let p := k.table i
    let p' := (is.foldl (fun k i => k.procReapAt i) k).table i
    p'.pid = p.pid ∧ p'.state = p.state ∧ p'.exitCode = p.exitCode ∧ (p.cleaned = true → p'.cleaned = true) := by
  induction is generalizing k with
  | nil => exact ⟨rfl, rfl, rfl, id⟩
  | cons i' rest ih =>
    obtain ⟨hpid, hstate, hcode, hclean⟩ := ih (k.procReapAt i')
    have hone : ((k.procReapAt i').table i).pid = (k.table i).pid ∧
        ((k.procReapAt i').table i).state = (k.table i).state ∧
        ((k.procReapAt i').table i).exitCode = (k.table i).exitCode ∧
        ((k.table i).cleaned = true → ((k.procReapAt i').table i).cleaned = true) := by
      unfold Kernel.procReapAt
      split
      · by_cases he : i = i'
        · subst he
          simp
        · simp [Kernel.setProc_table_ne _ _ he]
      · exact ⟨rfl, rfl, rfl, id⟩
    exact ⟨hpid.trans hone.1, hstate.trans hone.2.1, hcode.trans hone.2.2.1, fun h => hclean (hone.2.2.2 h)⟩

theorem Evolves.procReap (k : Kernel) (is : List Slot) : Evolves k (is.foldl (fun k i => k.procReapAt i) k) := by
  intro i _
  obtain ⟨hpid, hstate, hcode, hclean⟩ := procReap_table is k i
  exact .keep hpid (fun h => hstate.trans h) (fun h _ => by rwa [hstate]) fun h => ⟨hclean h, hcode⟩

theorem Evolves.spawn (k : Kernel) (parent : ℤ) (memory : SpawnMemory) (heap : Bool) :
    Evolves k (procSpawnImage k parent memory heap).1 := by
  unfold ProcessWait.procSpawnImage
  split
  · exact .of_table rfl
  next hcall =>
  split
  · exact .of_table rfl
  next i k₁ ha =>
  obtain ⟨hi, hcase⟩ := Kernel.allocate_some ha
  have hnext : k₁.nextPid = k.nextPid := by
    rcases hcase with ⟨-, rfl⟩ | ⟨-, -, rfl⟩ <;> rfl
  have hgone : (k.table i).state = .free ∨ (k.table i).cleaned = true :=
    hcase.imp (fun h => h.1) fun h => h.2.1
  have hother : ∀ i', i' ≠ i → k₁.table i' = k.table i' := by
    intro i' he
    rcases hcase with ⟨-, rfl⟩ | ⟨-, -, rfl⟩
    · rfl
    · exact Kernel.setProc_table_ne k _ he
  have hborn : ∀ {k' : Kernel} {p : Process}, p.pid = k₁.nextPid.toInt → k'.table = (k₁.setProc i p).table → Evolves k k' := by
    intro k' p hp ht i' _
    rw [ht]
    by_cases he : i' = i
    · subst he
      rw [Kernel.setProc_table_self]
      exact .fresh hgone (by rw [hp, hnext])
    · rw [Kernel.setProc_table_ne _ _ he, hother i' he]
      exact EntryStep.refl _ _
  dsimp only
  split
  · exact absurd rfl hcall
  · exact hborn rfl rfl
  · exact hborn rfl rfl
  · exact hborn rfl rfl
  · exact hborn rfl rfl
  · split
    · exact hborn rfl rfl
    · split
      · exact hborn rfl rfl
      · exact hborn rfl rfl

end Evolves

/-! ## Phases -/

section Phases
variable {k k' : Kernel} {s s' : Run} {pid : ℤ} {i : Slot}

end Phases

end SifarOS.ProcessWait
