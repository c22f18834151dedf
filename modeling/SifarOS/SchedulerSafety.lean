import SifarOS.ReachableStates
import SifarOS.Scheduler

/-! # What the scheduler keeps

Every step keeps who may run, who may be freed and who may be chosen next. -/
namespace SifarOS.Scheduler
open ProcessTable ReachableStates

/-- A thread under construction, which only its creator knows. -/
def Place.builds : Place → Option Address
  | .numbering _ a | .numbered _ a _ | .publishing _ a => some a
  | _ => none

/-- A dead thread that is out of the table and about to be freed. -/
def Place.buries : Place → Option Address
  | .freeing _ a | .unstacked _ a => some a
  | _ => none

/-- The entry a creator will fill. -/
def Place.aims : Place → Option ThreadSlot
  | .creating slot | .numbering slot _ | .numbered slot _ _ | .publishing slot _ => some slot
  | _ => none

/-- A descriptor that is in one thread's hands. -/
def Place.holds (p : Place) (a : Address) : Prop := p.builds = some a ∨ p.buries = some a

theorem holds_outside {a : Address} : ¬Place.outside.holds a := by simp [Place.holds, Place.builds, Place.buries]

namespace Sched

/-- The descriptor is in the table. -/
def Listed (s : Sched) (a : Address) : Prop := ∃ j, s.threads j = some a

/-- The invariant, but for the state of the current thread, which a section may change before it
switches. -/
structure Base (s : Sched) : Prop where
  executing : s.cpu = s.current
  boot_entry : s.threads 0 = some boot
  boot_tid : ∀ t, s.memory boot = some t → t.tid = 0
  boot_state : ∀ t, s.memory boot = some t → t.state = if s.current = boot then .running else .ready
  listed : s.Listed s.current
  live : ∀ a, s.Listed a → ∃ t, s.memory a = some t ∧ t.stackFreed = false
  once : ∀ i j a, s.threads i = some a → s.threads j = some a → i = j
  alone : ∀ a t, s.memory a = some t → t.state = .running → a = s.current
  unready : ∀ t, s.memory s.current = some t → t.state ≠ .ready
  unlisted : ∀ x t a, s.memory x = some t → t.place.holds a → ¬s.Listed a
  holder : ∀ x y t u a, s.memory x = some t → s.memory y = some u → t.place.holds a → u.place.holds a → x = y
  built : ∀ x t a, s.memory x = some t → t.place.builds = some a →
    ∃ u, s.memory a = some u ∧ u.state = .ready ∧ u.stackFreed = false ∧ u.place = .outside
  buried : ∀ x t a, s.memory x = some t → t.place.buries = some a → ∃ u, s.memory a = some u ∧ u.state = .zombie
  aimed : ∀ x t k, s.memory x = some t → t.place.aims = some k → k ≠ 0 ∧ s.threads k ≠ some x

section Memory
variable {s : Sched} {a b : Address} {f : Thread → Thread} {t : Thread}

@[simp] theorem update_threads : (s.update a f).threads = s.threads := rfl
@[simp] theorem update_current : (s.update a f).current = s.current := rfl
@[simp] theorem update_cpu : (s.update a f).cpu = s.cpu := rfl
@[simp] theorem update_listed : (s.update a f).Listed b ↔ s.Listed b := Iff.rfl

theorem update_memory (h : s.memory a = some t) : (s.update a f).memory a = some (f t) := by simp [update, h]

theorem update_memory_ne (h : b ≠ a) : (s.update a f).memory b = s.memory b := Function.update_of_ne h _ _

/-- Where a descriptor comes from after a store into `a`. -/
theorem update_back (h : (s.update a f).memory b = some t) :
    (b ≠ a ∧ s.memory b = some t) ∨ (b = a ∧ ∃ u, s.memory a = some u ∧ t = f u) := by
  by_cases hb : b = a
  · subst hb
    simp only [update, Function.update_self, Option.map_eq_some_iff] at h
    obtain ⟨u, hu, rfl⟩ := h
    exact .inr ⟨rfl, u, hu, rfl⟩
  · exact .inl ⟨hb, by rwa [update_memory_ne hb] at h⟩

end Memory

/-- A change of one descriptor that leaves its place alone: the state changes only where a thread of
the table stops or wakes, the stack goes only from a descriptor that is on its way out. -/
structure Retouched (s : Sched) (a : Address) (t t' : Thread) : Prop where
  tid : a = boot → t'.tid = t.tid
  state : t'.state = t.state ∨
    (a ≠ boot ∧ s.Listed a ∧ t'.state ≠ .running ∧ (a = s.current → t'.state ≠ .ready))
  stack : t'.stackFreed = t.stackFreed ∨
    (¬s.Listed a ∧ ∀ x u, s.memory x = some u → u.place.builds ≠ some a)
  place : t'.place = t.place

theorem Base.retouch {s : Sched} (h : s.Base) {a : Address} {f : Thread → Thread}
    (hf : ∀ t, s.memory a = some t → s.Retouched a t (f t)) : (s.update a f).Base where
  executing := h.executing
  boot_entry := h.boot_entry
  boot_tid t ht := by
    rcases update_back ht with ⟨-, ht⟩ | ⟨ha, u, hu, rfl⟩
    · exact h.boot_tid t ht
    · rw [(hf u hu).tid ha.symm]
      exact h.boot_tid u (ha ▸ hu)
  boot_state t ht := by
    rcases update_back ht with ⟨-, ht⟩ | ⟨ha, u, hu, rfl⟩
    · exact h.boot_state t ht
    · rcases (hf u hu).state with hs | ⟨hne, -⟩
      · rw [hs]
        exact h.boot_state u (ha ▸ hu)
      · exact absurd ha.symm hne
  listed := h.listed
  live b hb := by
    obtain ⟨t, ht, hstack⟩ := h.live b hb
    by_cases hba : b = a
    · subst hba
      refine ⟨f t, update_memory ht, ?_⟩
      rcases (hf t ht).stack with hs | ⟨hl, -⟩
      · exact hs.trans hstack
      · exact absurd hb hl
    · exact ⟨t, by rwa [update_memory_ne hba], hstack⟩
  once := h.once
  alone b t ht hrun := by
    rcases update_back ht with ⟨-, ht⟩ | ⟨rfl, u, hu, rfl⟩
    · exact h.alone b t ht hrun
    · rcases (hf u hu).state with hs | ⟨-, -, hne, -⟩
      · exact h.alone b u hu (hs ▸ hrun)
      · exact absurd hrun hne
  unready t ht := by
    rcases update_back ht with ⟨-, ht⟩ | ⟨ha, u, hu, rfl⟩
    · exact h.unready t ht
    · rcases (hf u hu).state with hs | ⟨-, -, -, hne⟩
      · rw [hs]
        exact h.unready u ((ha : s.current = a) ▸ hu)
      · exact hne (Eq.symm ha)
  unlisted x t b ht hb := by
    rcases update_back ht with ⟨-, ht⟩ | ⟨rfl, u, hu, rfl⟩
    · exact h.unlisted x t b ht hb
    · exact h.unlisted x u b hu ((hf u hu).place ▸ hb)
  holder x y t u b ht hu hb hb' := by
    have hplace : ∀ x t, (s.update a f).memory x = some t → ∃ t', s.memory x = some t' ∧ t.place = t'.place := by
      intro x t ht
      rcases update_back ht with ⟨-, ht⟩ | ⟨rfl, u, hu, rfl⟩
      · exact ⟨t, ht, rfl⟩
      · exact ⟨u, hu, (hf u hu).place⟩
    obtain ⟨t', ht', hp⟩ := hplace x t ht
    obtain ⟨u', hu', hp'⟩ := hplace y u hu
    exact h.holder x y t' u' b ht' hu' (hp ▸ hb) (hp' ▸ hb')
  built x t b ht hb := by
    have hbuilt : ∃ t', s.memory x = some t' ∧ t'.place.builds = some b := by
      rcases update_back ht with ⟨-, ht⟩ | ⟨rfl, u, hu, rfl⟩
      · exact ⟨t, ht, hb⟩
      · exact ⟨u, hu, (hf u hu).place ▸ hb⟩
    obtain ⟨t', ht', hb'⟩ := hbuilt
    obtain ⟨v, hv, hstate, hstack, hplace⟩ := h.built x t' b ht' hb'
    by_cases hba : b = a
    · subst hba
      refine ⟨f v, update_memory hv, ?_, ?_, (hf v hv).place.trans hplace⟩
      · rcases (hf v hv).state with hs | ⟨-, hl, -⟩
        · exact hs.trans hstate
        · exact absurd hl (h.unlisted x t' b ht' (.inl hb'))
      · rcases (hf v hv).stack with hs | ⟨-, hnot⟩
        · exact hs.trans hstack
        · exact absurd hb' (hnot x t' ht')
    · exact ⟨v, by rwa [update_memory_ne hba], hstate, hstack, hplace⟩
  buried x t b ht hb := by
    have hburied : ∃ t', s.memory x = some t' ∧ t'.place.buries = some b := by
      rcases update_back ht with ⟨-, ht⟩ | ⟨rfl, u, hu, rfl⟩
      · exact ⟨t, ht, hb⟩
      · exact ⟨u, hu, (hf u hu).place ▸ hb⟩
    obtain ⟨t', ht', hb'⟩ := hburied
    obtain ⟨v, hv, hstate⟩ := h.buried x t' b ht' hb'
    by_cases hba : b = a
    · subst hba
      refine ⟨f v, update_memory hv, ?_⟩
      rcases (hf v hv).state with hs | ⟨-, hl, -⟩
      · exact hs.trans hstate
      · exact absurd hl (h.unlisted x t' b ht' (.inr hb'))
    · exact ⟨v, by rwa [update_memory_ne hba], hstate⟩
  aimed x t k ht hk := by
    rcases update_back ht with ⟨-, ht⟩ | ⟨rfl, u, hu, rfl⟩
    · exact h.aimed x t k ht hk
    · exact h.aimed x u k hu ((hf u hu).place ▸ hk)

/-- A place the running thread can go to: what it holds there is in nobody else's hands and not in the
table. -/
structure Admits (s : Sched) (p : Place) : Prop where
  free : ∀ a, p.holds a → ¬s.Listed a ∧ ∀ x t, s.memory x = some t → t.place.holds a → x = s.current
  built : ∀ a, p.builds = some a →
    ∃ u, s.memory a = some u ∧ u.state = .ready ∧ u.stackFreed = false ∧ u.place = .outside
  buried : ∀ a, p.buries = some a → ∃ u, s.memory a = some u ∧ u.state = .zombie
  aimed : ∀ k, p.aims = some k → k ≠ 0 ∧ s.threads k ≠ some s.current

/-- The running thread, at another place and otherwise as before. -/
structure Moved (p : Place) (t t' : Thread) : Prop where
  tid : t'.tid = t.tid
  state : t'.state = t.state
  stack : t'.stackFreed = t.stackFreed
  place : t'.place = p

theorem Base.move {s : Sched} (h : s.Base) {p : Place} {f : Thread → Thread} (hf : ∀ t, Moved p t (f t))
    (hp : s.Admits p) : (s.update s.cpu f).Base := by
  rw [h.executing]
  -- the running thread is in the table, so it is in nobody's hands
  have hne : ∀ a, ¬s.Listed a → a ≠ s.current := fun a ha heq => ha (heq ▸ h.listed)
  have hback : ∀ {x t}, (s.update s.current f).memory x = some t → ∃ u, s.memory x = some u ∧ t.tid = u.tid ∧
      t.state = u.state ∧ t.stackFreed = u.stackFreed ∧ (x ≠ s.current ∧ t.place = u.place ∨ x = s.current ∧ t.place = p) := by
    intro x t ht
    rcases update_back ht with ⟨hx, ht⟩ | ⟨rfl, u, hu, rfl⟩
    · exact ⟨t, ht, rfl, rfl, rfl, .inl ⟨hx, rfl⟩⟩
    · exact ⟨u, hu, (hf u).tid, (hf u).state, (hf u).stack, .inr ⟨rfl, (hf u).place⟩⟩
  refine ⟨h.executing, h.boot_entry, fun t ht => ?_, fun t ht => ?_, h.listed, fun a ha => ?_, h.once,
    fun a t ht hrun => ?_, fun t ht => ?_, fun x t a ht ha => ?_, fun x y t u a ht hu ha ha' => ?_,
    fun x t a ht ha => ?_, fun x t a ht ha => ?_, fun x t k ht hk => ?_⟩
  · obtain ⟨u, hu, htid, -⟩ := hback ht
    exact htid.trans (h.boot_tid u hu)
  · obtain ⟨u, hu, -, hstate, -⟩ := hback ht
    exact hstate.trans (h.boot_state u hu)
  · obtain ⟨t, ht, hstack⟩ := h.live a ha
    by_cases hx : a = s.current
    · subst hx
      exact ⟨f t, update_memory ht, (hf t).stack.trans hstack⟩
    · exact ⟨t, by rwa [update_memory_ne hx], hstack⟩
  · obtain ⟨u, hu, -, hstate, -⟩ := hback ht
    exact h.alone a u hu (hstate ▸ hrun)
  · obtain ⟨u, hu, -, hstate, -⟩ := hback ht
    rw [hstate]
    exact h.unready u hu
  · obtain ⟨u, hu, -, -, -, ⟨-, hplace⟩ | ⟨-, hplace⟩⟩ := hback ht
    · exact h.unlisted x u a hu (hplace ▸ ha)
    · exact (hp.free a (hplace ▸ ha)).1
  · obtain ⟨t', ht', -, -, -, hx⟩ := hback ht
    obtain ⟨u', hu', -, -, -, hy⟩ := hback hu
    rcases hx with ⟨-, hpx⟩ | ⟨hx, hpx⟩
    · rcases hy with ⟨-, hpy⟩ | ⟨hy, hpy⟩
      · exact h.holder x y t' u' a ht' hu' (hpx ▸ ha) (hpy ▸ ha')
      · rw [hy]
        exact (hp.free a (hpy ▸ ha')).2 x t' ht' (hpx ▸ ha)
    · rcases hy with ⟨-, hpy⟩ | ⟨hy, -⟩
      · rw [hx]
        exact ((hp.free a (hpx ▸ ha)).2 y u' hu' (hpy ▸ ha')).symm
      · exact hx.trans hy.symm
  · have hbuilt : ∃ v, s.memory a = some v ∧ v.state = .ready ∧ v.stackFreed = false ∧ v.place = .outside := by
      obtain ⟨u, hu, -, -, -, ⟨-, hplace⟩ | ⟨-, hplace⟩⟩ := hback ht
      · exact h.built x u a hu (hplace ▸ ha)
      · exact hp.built a (hplace ▸ ha)
    have hout : a ≠ s.current := by
      obtain ⟨u, hu, -, -, -, ⟨-, hplace⟩ | ⟨-, hplace⟩⟩ := hback ht
      · exact hne a (h.unlisted x u a hu (.inl (hplace ▸ ha)))
      · exact hne a (hp.free a (.inl (hplace ▸ ha))).1
    rwa [update_memory_ne hout]
  · have hburied : ∃ v, s.memory a = some v ∧ v.state = .zombie := by
      obtain ⟨u, hu, -, -, -, ⟨-, hplace⟩ | ⟨-, hplace⟩⟩ := hback ht
      · exact h.buried x u a hu (hplace ▸ ha)
      · exact hp.buried a (hplace ▸ ha)
    have hout : a ≠ s.current := by
      obtain ⟨u, hu, -, -, -, ⟨-, hplace⟩ | ⟨-, hplace⟩⟩ := hback ht
      · exact hne a (h.unlisted x u a hu (.inr (hplace ▸ ha)))
      · exact hne a (hp.free a (.inr (hplace ▸ ha))).1
    rwa [update_memory_ne hout]
  · obtain ⟨u, hu, -, -, -, ⟨-, hplace⟩ | ⟨hx, hplace⟩⟩ := hback ht
    · exact h.aimed x u k hu (hplace ▸ hk)
    · rw [hx]
      exact hp.aimed k (hplace ▸ hk)

/-- A place where the thread has nothing in its hands. -/
theorem admits_of_empty {s : Sched} {p : Place} (hb : p.builds = none) (hd : p.buries = none)
    (ha : p.aims = none) : s.Admits p := by
  refine ⟨fun a h => ?_, fun a h => ?_, fun a h => ?_, fun k h => ?_⟩
  · simp [Place.holds, hb, hd] at h
  · simp [hb] at h
  · simp [hd] at h
  · simp [ha] at h

theorem Base.goto {s : Sched} (h : s.Base) {p : Place} (hp : s.Admits p) : (s.goto p).Base :=
  h.move (fun _ => ⟨rfl, rfl, rfl, rfl⟩) hp

theorem Base.returns {s : Sched} (h : s.Base) (value : Int32) : (s.returns value).Base :=
  h.move (p := .outside) (fun _ => ⟨rfl, rfl, rfl, rfl⟩) (admits_of_empty rfl rfl rfl)

/-- The invariant is about the descriptors, the table and the two pointers. -/
theorem Base.congr {s s' : Sched} (h : s.Base) (hm : s'.memory = s.memory) (ht : s'.threads = s.threads)
    (hc : s'.current = s.current) (hp : s'.cpu = s.cpu) : s'.Base := by
  obtain ⟨memory, threads, current, cpu⟩ := s
  obtain ⟨memory', threads', current', cpu'⟩ := s'
  dsimp only at hm ht hc hp
  subst hm ht hc hp
  exact ⟨h.1, h.2, h.3, h.4, h.5, h.6, h.7, h.8, h.9, h.10, h.11, h.12, h.13, h.14⟩

section Blocks
variable {s : Sched} {a : Address}

theorem setBlock_memory_ne {t : Option Thread} {b : Address} (h : b ≠ a) :
    (s.setBlock a t).memory b = s.memory b := Function.update_of_ne h _ _

/-- Where a descriptor comes from when the block at `a` has been overwritten. -/
theorem setBlock_back {t : Option Thread} {b : Address} {u : Thread} (h : (s.setBlock a t).memory b = some u) :
    (b ≠ a ∧ s.memory b = some u) ∨ (b = a ∧ t = some u) := by
  by_cases hb : b = a
  · subst hb
    simp only [setBlock, Function.update_self] at h
    exact .inr ⟨rfl, h⟩
  · exact .inl ⟨hb, by rwa [setBlock_memory_ne hb] at h⟩

/-- The heap hands out a block that is no descriptor. -/
theorem Base.alloc (h : s.Base) (ha : s.memory a = none) : (s.setBlock a (some {})).Base := by
  have hne : ∀ {b t}, s.memory b = some t → b ≠ a := by
    rintro b t hb rfl
    simp [ha] at hb
  have hkeep : ∀ {b t}, s.memory b = some t → (s.setBlock a (some {})).memory b = some t := fun hb => by
    rwa [setBlock_memory_ne (hne hb)]
  have hempty : ∀ {x t}, (s.setBlock a (some {})).memory x = some t →
      s.memory x = some t ∨ (x = a ∧ t = {}) := by
    intro x t hx
    rcases setBlock_back hx with ⟨-, hx⟩ | ⟨hx, ht⟩
    · exact .inl hx
    · exact .inr ⟨hx, (Option.some.inj ht).symm⟩
  have hlist : ∀ b, s.Listed b → b ≠ a := fun b hb => by
    obtain ⟨t, ht, -⟩ := h.live b hb
    exact hne ht
  refine ⟨h.executing, h.boot_entry, fun t ht => ?_, fun t ht => ?_, h.listed, fun b hb => ?_, h.once,
    fun b t ht hrun => ?_, fun t ht => ?_, fun x t b ht hb => ?_, fun x y t u b ht hu hb hb' => ?_,
    fun x t b ht hb => ?_, fun x t b ht hb => ?_, fun x t k ht hk => ?_⟩
  · rw [setBlock_memory_ne (hlist boot ⟨0, h.boot_entry⟩)] at ht
    exact h.boot_tid t ht
  · rw [setBlock_memory_ne (hlist boot ⟨0, h.boot_entry⟩)] at ht
    exact h.boot_state t ht
  · obtain ⟨t, ht, hstack⟩ := h.live b hb
    exact ⟨t, hkeep ht, hstack⟩
  · rcases hempty ht with ht | ⟨-, rfl⟩
    · exact h.alone b t ht hrun
    · cases hrun
  · rw [show (s.setBlock a (some {})).current = s.current from rfl,
      setBlock_memory_ne (hlist _ h.listed)] at ht
    exact h.unready t ht
  · rcases hempty ht with ht | ⟨-, rfl⟩
    · exact h.unlisted x t b ht hb
    · exact absurd hb holds_outside
  · rcases hempty ht with ht | ⟨-, rfl⟩
    · rcases hempty hu with hu | ⟨-, rfl⟩
      · exact h.holder x y t u b ht hu hb hb'
      · exact absurd hb' holds_outside
    · exact absurd hb holds_outside
  · rcases hempty ht with ht | ⟨-, rfl⟩
    · obtain ⟨u, hu, hrest⟩ := h.built x t b ht hb
      exact ⟨u, hkeep hu, hrest⟩
    · cases hb
  · rcases hempty ht with ht | ⟨-, rfl⟩
    · obtain ⟨u, hu, hrest⟩ := h.buried x t b ht hb
      exact ⟨u, hkeep hu, hrest⟩
    · cases hb
  · rcases hempty ht with ht | ⟨-, rfl⟩
    · exact h.aimed x t k ht hk
    · cases hk

/-- A descriptor in nobody's hands and in no table is freed. -/
theorem Base.free (h : s.Base) (hl : ¬s.Listed a) (hh : ∀ x t, s.memory x = some t → ¬t.place.holds a) :
    (s.setBlock a none).Base := by
  have hback : ∀ {x t}, (s.setBlock a none).memory x = some t → s.memory x = some t := by
    intro x t hx
    rcases setBlock_back hx with ⟨-, hx⟩ | ⟨-, ht⟩
    · exact hx
    · cases ht
  have hkeep : ∀ {b}, b ≠ a → (s.setBlock a none).memory b = s.memory b := fun hb => setBlock_memory_ne hb
  refine ⟨h.executing, h.boot_entry, fun t ht => h.boot_tid t (hback ht), fun t ht => h.boot_state t (hback ht),
    h.listed, fun b hb => ?_, h.once, fun b t ht => h.alone b t (hback ht), fun t ht => h.unready t (hback ht),
    fun x t b ht => h.unlisted x t b (hback ht), fun x y t u b ht hu => h.holder x y t u b (hback ht) (hback hu),
    fun x t b ht hb => ?_, fun x t b ht hb => ?_, fun x t k ht => h.aimed x t k (hback ht)⟩
  · rw [hkeep fun heq => hl (heq ▸ hb)]
    exact h.live b hb
  · rw [hkeep fun heq => hh x t (hback ht) (heq ▸ .inl hb)]
    exact h.built x t b (hback ht) hb
  · rw [hkeep fun heq => hh x t (hback ht) (heq ▸ .inr hb)]
    exact h.buried x t b (hback ht) hb

end Blocks

section Entries
variable {s : Sched} {a : Address} {slot : ThreadSlot}

theorem setEntry_threads_ne {entry : Option Address} {j : ThreadSlot} (h : j ≠ slot) :
    (s.setEntry slot entry).threads j = s.threads j := Function.update_of_ne h _ _

theorem setEntry_back {entry : Option Address} {j : ThreadSlot} {b : Address}
    (h : (s.setEntry slot entry).threads j = some b) : (j ≠ slot ∧ s.threads j = some b) ∨ (j = slot ∧ entry = some b) := by
  by_cases hj : j = slot
  · subst hj
    simp only [setEntry, Function.update_self] at h
    exact .inr ⟨rfl, h⟩
  · exact .inl ⟨hj, by rwa [setEntry_threads_ne hj] at h⟩

/-- A finished descriptor enters the table, over whatever has come to stand there in the meantime. -/
theorem Base.publish (h : s.Base) {t : Thread} (ht : s.memory a = some t) (hstack : t.stackFreed = false)
    (hplace : t.place = .outside) (hl : ¬s.Listed a) (hh : ∀ x u, s.memory x = some u → ¬u.place.holds a)
    (hzero : slot ≠ 0) (hself : s.threads slot ≠ some s.current) : (s.setEntry slot (some a)).Base := by
  have hlisted : ∀ b, (s.setEntry slot (some a)).Listed b → s.Listed b ∨ b = a := by
    rintro b ⟨j, hj⟩
    rcases setEntry_back hj with ⟨-, hj⟩ | ⟨-, hb⟩
    · exact .inl ⟨j, hj⟩
    · exact .inr (Option.some.inj hb).symm
  refine ⟨h.executing, ?_, h.boot_tid, h.boot_state, ?_, fun b hb => ?_, fun i j b hi hj => ?_, h.alone, h.unready,
    fun x u b hu hb => ?_, h.holder, h.built, h.buried, fun x u k hu hk => ?_⟩
  · rw [setEntry_threads_ne hzero.symm]
    exact h.boot_entry
  · obtain ⟨j, hj⟩ := h.listed
    have hne : j ≠ slot := by
      rintro rfl
      exact hself hj
    exact ⟨j, by rwa [setEntry_threads_ne hne]⟩
  · rcases hlisted b hb with hb | rfl
    · exact h.live b hb
    · exact ⟨t, ht, hstack⟩
  · rcases setEntry_back hi with ⟨-, hi'⟩ | ⟨hi', hb⟩
    · rcases setEntry_back hj with ⟨-, hj'⟩ | ⟨-, hb⟩
      · exact h.once i j b hi' hj'
      · exact absurd ⟨i, hi'.trans hb.symm⟩ hl
    · rcases setEntry_back hj with ⟨-, hj'⟩ | ⟨hj', -⟩
      · exact absurd ⟨j, hj'.trans hb.symm⟩ hl
      · exact hi'.trans hj'.symm
  · intro hb'
    rcases hlisted b hb' with hb' | rfl
    · exact h.unlisted x u b hu hb hb'
    · exact hh x u hu hb
  · obtain ⟨hk0, hne⟩ := h.aimed x u k hu hk
    refine ⟨hk0, fun hx => ?_⟩
    rcases setEntry_back hx with ⟨-, hx⟩ | ⟨-, hx⟩
    · exact hne hx
    · obtain rfl := Option.some.inj hx
      rw [Option.some.inj (hu.symm.trans ht), hplace] at hk
      cases hk

/-- A descriptor leaves the table. -/
theorem Base.unlist (h : s.Base) (ha : s.threads slot = some a) (hcur : a ≠ s.current) (hboot : slot ≠ 0) :
    (s.setEntry slot none).Base ∧ ¬(s.setEntry slot none).Listed a := by
  have hsub : ∀ {j b}, (s.setEntry slot none).threads j = some b → j ≠ slot ∧ s.threads j = some b := by
    intro j b hj
    rcases setEntry_back hj with hj | ⟨-, hb⟩
    · exact hj
    · cases hb
  have hlisted : ∀ {b}, (s.setEntry slot none).Listed b → s.Listed b := fun ⟨j, hj⟩ => ⟨j, (hsub hj).2⟩
  refine ⟨⟨h.executing, ?_, h.boot_tid, h.boot_state, ?_, fun b hb => h.live b (hlisted hb),
    fun i j b hi hj => h.once i j b (hsub hi).2 (hsub hj).2, h.alone, h.unready,
    fun x u b hu hb hb' => h.unlisted x u b hu hb (hlisted hb'), h.holder, h.built, h.buried,
    fun x u k hu hk => ⟨(h.aimed x u k hu hk).1, fun hx => (h.aimed x u k hu hk).2 (hsub hx).2⟩⟩, ?_⟩
  · rw [setEntry_threads_ne hboot.symm]
    exact h.boot_entry
  · obtain ⟨j, hj⟩ := h.listed
    have hne : j ≠ slot := by
      rintro rfl
      exact hcur (Option.some.inj (ha.symm.trans hj))
    exact ⟨j, by rwa [setEntry_threads_ne hne]⟩
  · rintro ⟨j, hj⟩
    obtain ⟨hne, hj⟩ := hsub hj
    exact hne (h.once j slot a hj ha)

end Entries

theorem inState_iff {s : Sched} {entry : Option Address} {state : ThreadState} :
    s.inState entry state = true ↔ ∃ a t, entry = some a ∧ s.memory a = some t ∧ t.state = state := by
  cases entry with
  | none => simp [inState]
  | some a => simp [inState, Option.any_eq_true]

/-- Whom `pick_next` may choose: a ready thread of the table, or the current one if it is running. -/
def Eligible (s : Sched) (x : Address) : Prop :=
  ∃ t, s.memory x = some t ∧ (s.Listed x ∧ t.state = .ready ∨ x = s.current ∧ t.state = .running)

/-- The fallback to thread 0 is never needed: thread 0 is ready whenever it is not running. -/
theorem Base.pickNext {s : Sched} (h : s.Base) : ∃ x, s.pickNext = some x ∧ s.Eligible x := by
  obtain ⟨cur, hcur, -⟩ := h.live _ h.listed
  unfold Sched.pickNext
  extract_lets first
  split
  · next x hx =>
    obtain ⟨step, -, hstep⟩ := List.exists_of_findSome?_eq_some hx
    dsimp only at hstep
    split at hstep
    · next hready =>
      obtain ⟨a, t, ha, ht, hstate⟩ := inState_iff.mp hready
      obtain rfl := Option.some.inj (ha.symm.trans hstep)
      exact ⟨a, rfl, t, ht, .inl ⟨⟨_, ha⟩, hstate⟩⟩
    · cases hstep
  · next hnone =>
    by_cases hrun : cur.state = .running
    · have hin : s.inState (some s.current) .running = true := inState_iff.mpr ⟨_, cur, rfl, hcur, hrun⟩
      exact ⟨s.current, by rw [if_pos (.inl hin)], cur, hcur, .inr ⟨rfl, hrun⟩⟩
    · exfalso
      obtain ⟨t, ht, -⟩ := h.live boot ⟨0, h.boot_entry⟩
      have hother : s.current ≠ boot := by
        intro heq
        have hstate := h.boot_state t ht
        rw [if_pos heq] at hstate
        obtain rfl := Option.some.inj (ht.symm.trans (heq ▸ hcur))
        exact hrun hstate
      have hready : s.inState (s.threads 0) .ready = true := by
        refine inState_iff.mpr ⟨boot, t, h.boot_entry, ht, ?_⟩
        rw [h.boot_state t ht, if_neg hother]
      have hround : first + Fin.ofNat 32 (31 - first.val + 1) = 0 := by
        obtain ⟨first, hfirst⟩ := first
        simp only [Fin.ext_iff, Fin.val_add, Fin.val_ofNat, Fin.val_zero]
        omega
      have hskip := List.findSome?_eq_none_iff.mp hnone (31 - first.val) (List.mem_range.mpr (by omega))
      rw [hround, if_pos hready, h.boot_entry] at hskip
      cases hskip

section Switch
variable {s : Sched} {x : Address}

/-- The state of a thread after `switch_to`. -/
def stateAfter (s : Sched) (x b : Address) (state : ThreadState) : ThreadState :=
  if b = x then .running else if b = s.current ∧ state = .running then .ready else state

theorem switchTo_memory (hx : x ≠ s.current) (b : Address) :
    (s.switchTo x).memory b = (s.memory b).map fun t => { t with state := s.stateAfter x b t.state } := by
  unfold switchTo
  extract_lets prev s₁ s₂
  rw [if_neg hx]
  change s₂.memory b = _
  have hs₁ : ∀ b, b ≠ x → s₁.memory b = (s.memory b).map fun t => { t with state := s.stateAfter x b t.state } := by
    intro b hb
    by_cases hprev : b = s.current
    · subst hprev
      cases hm : s.memory s.current with
      | none => simp [s₁, prev, inState, hm]
      | some t =>
        by_cases hrun : t.state = .running
        · simp [s₁, prev, inState, setState, update, hm, hrun, stateAfter, hb]
        · simp [s₁, prev, inState, hm, hrun, stateAfter, hb]
    · have hsame : s₁.memory b = s.memory b := by
        simp only [s₁]
        split
        · exact update_memory_ne hprev
        · rfl
      rw [hsame]
      cases s.memory b with
      | none => rfl
      | some t => simp [stateAfter, hb, hprev]
  by_cases hb : b = x
  · subst hb
    have hsame : s₁.memory b = s.memory b := by
      simp only [s₁]
      split
      · exact update_memory_ne hx
      · rfl
    simp only [s₂, setState, update, Function.update_self, hsame]
    cases s.memory b with
    | none => rfl
    | some t => simp [stateAfter]
  · simp only [s₂, setState, update, Function.update_of_ne hb]
    exact hs₁ b hb

theorem switchTo_fields (hx : x ≠ s.current) : (s.switchTo x).threads = s.threads ∧
    (s.switchTo x).current = x ∧ (s.switchTo x).cpu = x := by
  unfold switchTo
  extract_lets prev s₁ s₂
  rw [if_neg hx]
  refine ⟨?_, rfl, rfl⟩
  change s₁.threads = s.threads
  simp only [s₁]
  split <;> rfl

/-- The current thread, if it is chosen, is running, and nothing happens. -/
theorem Base.switchTo_current (h : s.Base) (he : s.Eligible s.current) : s.switchTo s.current = s ∧
    ∃ t, s.memory s.current = some t ∧ t.state = .running := by
  obtain ⟨t, ht, ⟨-, hready⟩ | ⟨-, hrun⟩⟩ := he
  · exact absurd hready (h.unready t ht)
  · have hnot : s.inState (some s.current) .ready = false := by
      simp [inState, ht, hrun]
    exact ⟨by simp [switchTo, hnot], t, ht, hrun⟩

theorem Base.switchTo (h : s.Base) (he : s.Eligible x) : (s.switchTo x).Base ∧ (s.switchTo x).current = x ∧
    ∃ t, (s.switchTo x).memory x = some t ∧ t.state = .running := by
  by_cases hx : x = s.current
  · subst hx
    obtain ⟨hsame, hrun⟩ := h.switchTo_current he
    rw [hsame]
    exact ⟨h, rfl, hrun⟩
  obtain ⟨threads, current, cpu⟩ := switchTo_fields (s := s) hx
  obtain ⟨chosen, hchosen, ⟨hlisted, hready⟩ | ⟨hcur, -⟩⟩ := he
  swap
  · exact absurd hcur hx
  have hmem := switchTo_memory (s := s) hx
  have hback : ∀ {b t}, (s.switchTo x).memory b = some t →
      ∃ u, s.memory b = some u ∧ t = { u with state := s.stateAfter x b u.state } := by
    intro b t ht
    rw [hmem, Option.map_eq_some_iff] at ht
    obtain ⟨u, hu, rfl⟩ := ht
    exact ⟨u, hu, rfl⟩
  have hfwd : ∀ {b u}, s.memory b = some u →
      (s.switchTo x).memory b = some { u with state := s.stateAfter x b u.state } := by
    intro b u hu
    rw [hmem, hu, Option.map_some]
  have hlist : ∀ {b}, (s.switchTo x).Listed b ↔ s.Listed b := by
    intro b
    unfold Listed
    rw [threads]
  -- a thread in somebody's hands is not in the table, so its state is what it was
  have hsame : ∀ {b u}, ¬s.Listed b → s.stateAfter x b u = u := by
    intro b u hb
    have hbx : b ≠ x := fun heq => hb (heq ▸ hlisted)
    have hbc : b ≠ s.current := fun heq => hb (heq ▸ h.listed)
    simp [stateAfter, hbx, hbc]
  refine ⟨⟨cpu.trans current.symm, threads ▸ h.boot_entry, fun t ht => ?_, fun t ht => ?_, ?_, fun b hb => ?_, ?_,
    fun b t ht hrun => ?_, fun t ht => ?_, fun y t b ht hb => ?_, fun y z t u b ht hu hb hb' => ?_,
    fun y t b ht hb => ?_, fun y t b ht hb => ?_, fun y t k ht hk => ?_⟩, current, ?_⟩
  · obtain ⟨u, hu, rfl⟩ := hback ht
    exact h.boot_tid u hu
  · obtain ⟨u, hu, rfl⟩ := hback ht
    have hstate := h.boot_state u hu
    rw [current]
    by_cases hboot : boot = x
    · simp [stateAfter, hboot]
    · by_cases hcur : s.current = boot
      · rw [if_pos hcur] at hstate
        simp [stateAfter, hboot, hcur, hstate, Ne.symm hboot]
      · rw [if_neg hcur] at hstate
        simp [stateAfter, hboot, hstate, Ne.symm hboot]
  · rw [current, hlist]
    exact hlisted
  · obtain ⟨u, hu, hstack⟩ := h.live b (hlist.mp hb)
    exact ⟨_, hfwd hu, hstack⟩
  · rw [threads]
    exact h.once
  · obtain ⟨u, hu, rfl⟩ := hback ht
    rw [current]
    by_contra hb
    have hold : u.state = .running := by
      simp only [stateAfter, hb, if_false] at hrun
      split at hrun
      · cases hrun
      · exact hrun
    obtain rfl := h.alone b u hu hold
    simp [stateAfter, hb, hold] at hrun
  · rw [current] at ht
    obtain ⟨u, -, rfl⟩ := hback ht
    simp [stateAfter]
  · obtain ⟨u, hu, rfl⟩ := hback ht
    rw [hlist]
    exact h.unlisted y u b hu hb
  · obtain ⟨t', ht', rfl⟩ := hback ht
    obtain ⟨u', hu', rfl⟩ := hback hu
    exact h.holder y z t' u' b ht' hu' hb hb'
  · obtain ⟨u, hu, rfl⟩ := hback ht
    obtain ⟨v, hv, hstate, hstack, hplace⟩ := h.built y u b hu hb
    refine ⟨_, hfwd hv, ?_, hstack, hplace⟩
    rw [hsame (h.unlisted y u b hu (.inl hb))]
    exact hstate
  · obtain ⟨u, hu, rfl⟩ := hback ht
    obtain ⟨v, hv, hstate⟩ := h.buried y u b hu hb
    refine ⟨_, hfwd hv, ?_⟩
    rw [hsame (h.unlisted y u b hu (.inr hb))]
    exact hstate
  · obtain ⟨u, hu, rfl⟩ := hback ht
    rw [threads]
    exact h.aimed y u k hu hk
  · exact ⟨_, hfwd hchosen, by simp [stateAfter]⟩

end Switch

/-- A step leaves the dead dead, and the sleepers asleep unless it kills them. -/
def Steady (s s' : Sched) : Prop :=
  ∀ x u, s.memory x = some u → u.state = .zombie ∨ u.state = .sleeping →
    ∃ u', s'.memory x = some u' ∧ (u'.state = u.state ∧ u'.wakeAtMs = u.wakeAtMs ∨ u'.state = .zombie)

section Steady
variable {s s' s'' : Sched} {a : Address}

theorem Steady.of_memory (h : s'.memory = s.memory) : s.Steady s' := fun x u hu _ =>
  ⟨u, by rw [h, hu], .inl ⟨rfl, rfl⟩⟩

theorem Steady.trans (h : s.Steady s') (h' : s'.Steady s'') : s.Steady s'' := by
  intro x u hu hstate
  obtain ⟨u', hu', hcase⟩ := h x u hu hstate
  rcases hcase with ⟨hsame, hwake⟩ | hdead
  · obtain ⟨u'', hu'', ⟨hsame', hwake'⟩ | hdead'⟩ := h' x u' hu' (hsame ▸ hstate)
    · exact ⟨u'', hu'', .inl ⟨hsame'.trans hsame, hwake'.trans hwake⟩⟩
    · exact ⟨u'', hu'', .inr hdead'⟩
  · obtain ⟨u'', hu'', ⟨hsame', -⟩ | hdead'⟩ := h' x u' hu' (.inl hdead)
    · exact ⟨u'', hu'', .inr (hsame'.trans hdead)⟩
    · exact ⟨u'', hu'', .inr hdead'⟩

theorem Steady.update {f : Thread → Thread} (hf : ∀ t, s.memory a = some t → t.state = .zombie ∨ t.state = .sleeping →
    (f t).state = t.state ∧ (f t).wakeAtMs = t.wakeAtMs ∨ (f t).state = .zombie) : s.Steady (s.update a f) := by
  intro x u hu hstate
  by_cases hx : x = a
  · subst hx
    exact ⟨f u, update_memory hu, hf u hu hstate⟩
  · exact ⟨u, by rwa [update_memory_ne hx], .inl ⟨rfl, rfl⟩⟩

theorem Steady.goto (p : Place) : s.Steady (s.goto p) := Steady.update fun _ _ _ => .inl ⟨rfl, rfl⟩

theorem Steady.returns (value : Int32) : s.Steady (s.returns value) := Steady.update fun _ _ _ => .inl ⟨rfl, rfl⟩

theorem Steady.alloc (ha : s.memory a = none) : s.Steady (s.setBlock a (some {})) := by
  intro x u hu _
  have hx : x ≠ a := by
    rintro rfl
    simp [ha] at hu
  exact ⟨u, by rwa [setBlock_memory_ne hx], .inl ⟨rfl, rfl⟩⟩

theorem Base.steady_switchTo (h : s.Base) {x : Address} (he : s.Eligible x) : s.Steady (s.switchTo x) := by
  intro b u hu hstate
  by_cases hx : x = s.current
  · subst hx
    rw [(h.switchTo_current he).1]
    exact ⟨u, hu, .inl ⟨rfl, rfl⟩⟩
  · refine ⟨{ u with state := s.stateAfter x b u.state }, by rw [switchTo_memory hx, hu, Option.map_some],
      .inl ⟨?_, rfl⟩⟩
    obtain ⟨t, ht, ⟨-, hready⟩ | ⟨hcur, -⟩⟩ := he
    · have hb : b ≠ x := by
        rintro rfl
        obtain rfl := Option.some.inj (hu.symm.trans ht)
        rcases hstate with hstate | hstate <;> cases hstate.symm.trans hready
      have hnot : u.state ≠ .running := by
        rcases hstate with hstate | hstate <;> simp [hstate]
      simp [stateAfter, hb, hnot]
    · exact absurd hcur hx

end Steady

/-- The current thread goes on running, or has just killed itself and is about to leave. -/
def Goes (s : Sched) : Prop :=
  ∀ t, s.memory s.current = some t → t.state = .running ∨ t.state = .zombie ∧ t.place = .killed t.tid

/-- The current thread is running. -/
def Runs (s : Sched) : Prop := ∃ t, s.memory s.current = some t ∧ t.state = .running

section Running
variable {s : Sched} {a : Address}

theorem Runs.goes (h : s.Runs) : s.Goes := by
  intro t ht
  obtain ⟨u, hu, hrun⟩ := h
  exact .inl (Option.some.inj (ht.symm.trans hu) ▸ hrun)

theorem Runs.update (h : s.Runs) {f : Thread → Thread} (hf : ∀ t, (f t).state = t.state) : (s.update a f).Runs := by
  obtain ⟨t, ht, hrun⟩ := h
  by_cases ha : s.current = a
  · subst ha
    exact ⟨f t, update_memory ht, (hf t).trans hrun⟩
  · exact ⟨t, (update_memory_ne (f := f) ha).trans ht, hrun⟩

theorem Runs.goto (h : s.Runs) (p : Place) : (s.goto p).Runs := h.update fun _ => rfl

theorem Runs.returns (h : s.Runs) (value : Int32) : (s.returns value).Runs := h.update fun _ => rfl

theorem Goes.update (h : s.Goes) {f : Thread → Thread}
    (hf : ∀ t, (f t).state = t.state ∧ (f t).place = t.place ∧ (f t).tid = t.tid) : (s.update a f).Goes := by
  intro t ht
  rcases update_back ht with ⟨-, ht⟩ | ⟨ha, u, hu, rfl⟩
  · exact h t ht
  · obtain ⟨hstate, hplace, htid⟩ := hf u
    rw [hstate, hplace, htid]
    exact h u ((show s.current = a from ha) ▸ hu)

end Running

/-- What the loop of `sched_tick` does: some sleepers whose time has come are ready now. -/
structure Woken (s s' : Sched) : Prop where
  threads : s'.threads = s.threads
  current : s'.current = s.current
  cpu : s'.cpu = s.cpu
  timer : s'.timerMs = s.timerMs
  memory : ∀ b u, s.memory b = some u → s'.memory b = some u ∨
    u.state = .sleeping ∧ u.wakeAtMs ≤ s.timerMs ∧ s'.memory b = some { u with state := .ready }

section Wake
variable {s s' s'' : Sched}

theorem Woken.refl (s : Sched) : s.Woken s := ⟨rfl, rfl, rfl, rfl, fun _ _ h => .inl h⟩

theorem Woken.trans (h : s.Woken s') (h' : s'.Woken s'') : s.Woken s'' := by
  refine ⟨h'.threads.trans h.threads, h'.current.trans h.current, h'.cpu.trans h.cpu, h'.timer.trans h.timer,
    fun b u hu => ?_⟩
  rcases h.memory b u hu with hu' | ⟨hsleep, hdue, hu'⟩
  · rcases h'.memory b u hu' with hu'' | ⟨hsleep, hdue, hu''⟩
    · exact .inl hu''
    · exact .inr ⟨hsleep, h.timer ▸ hdue, hu''⟩
  · rcases h'.memory b _ hu' with hu'' | ⟨hready, -⟩
    · exact .inr ⟨hsleep, hdue, hu''⟩
    · cases hready

/-- One turn of the loop. -/
theorem Base.wakeOne (h : s.Base) (hg : s.Goes) {i : ThreadSlot} {a : Address} (ha : s.threads i = some a) :
    (s.update a fun t => if t.state = .sleeping ∧ s.timerMs ≥ t.wakeAtMs then { t with state := .ready } else t).Base ∧
      s.Woken (s.update a fun t =>
        if t.state = .sleeping ∧ s.timerMs ≥ t.wakeAtMs then { t with state := .ready } else t) := by
  refine ⟨h.retouch fun t ht => ?_, rfl, rfl, rfl, rfl, fun b u hu => ?_⟩
  · split
    · next hdue =>
      refine ⟨fun _ => rfl, .inr ⟨?_, ⟨i, ha⟩, by simp, ?_⟩, .inl rfl, rfl⟩
      · rintro rfl
        have hboot := h.boot_state t ht
        rw [hdue.1] at hboot
        split at hboot <;> cases hboot
      · rintro rfl
        rcases hg t ht with hrun | ⟨hdead, -⟩
        · cases hdue.1.symm.trans hrun
        · cases hdue.1.symm.trans hdead
    · exact ⟨fun _ => rfl, .inl rfl, .inl rfl, rfl⟩
  · by_cases hb : b = a
    · subst hb
      rw [update_memory hu]
      split
      · next hdue => exact .inr ⟨hdue.1, hdue.2, rfl⟩
      · exact .inl rfl
    · exact .inl (by rwa [update_memory_ne hb])

theorem Woken.goes (h : s.Woken s') (hb : s.Base) (hg : s.Goes) : s'.Goes := by
  intro t ht
  obtain ⟨u, hu, -⟩ := hb.live _ hb.listed
  rw [h.current] at ht
  rcases h.memory _ u hu with hu' | ⟨hsleep, -⟩
  · exact Option.some.inj (ht.symm.trans hu') ▸ hg u hu
  · rcases hg u hu with hrun | ⟨hdead, -⟩
    · cases hsleep.symm.trans hrun
    · cases hsleep.symm.trans hdead

theorem Base.wake (h : s.Base) (hg : s.Goes) : s.wake.Base ∧ s.Woken s.wake := by
  unfold Sched.wake
  generalize List.finRange 32 = slots
  induction slots generalizing s with
  | nil => exact ⟨h, Woken.refl s⟩
  | cons i rest ih =>
    rw [List.foldl_cons]
    cases ha : s.threads i with
    | none => exact ih h hg
    | some a =>
      obtain ⟨hbase, hwoken⟩ := h.wakeOne hg ha
      obtain ⟨hbase', hwoken'⟩ := ih hbase (hwoken.goes h hg)
      exact ⟨hbase', hwoken.trans hwoken'⟩

end Wake

/-- What a step may do to the dead and to the sleepers: a dead thread stays dead, or is freed once it is
out of the table; a sleeper goes on sleeping, is killed, or is woken by a tick when its time has come. -/
structure Lawful (a : Action) (s s' : Sched) : Prop where
  dead : ∀ x u, s.memory x = some u → u.state = .zombie →
    (∃ u', s'.memory x = some u' ∧ u'.state = .zombie) ∨ ¬s.Listed x ∧ s'.memory x = none
  asleep : ∀ x u, s.memory x = some u → u.state = .sleeping →
    ∃ u', s'.memory x = some u' ∧ (u'.state = .sleeping ∧ u'.wakeAtMs = u.wakeAtMs ∨ u'.state = .zombie ∨
      a = .tick ∧ u'.state = .ready ∧ u.wakeAtMs ≤ s'.timerMs)

theorem Steady.lawful {a : Action} {s s' : Sched} (h : s.Steady s') : Lawful a s s' := by
  refine ⟨fun x u hu hdead => ?_, fun x u hu hsleep => ?_⟩
  · obtain ⟨u', hu', ⟨hsame, -⟩ | hdead'⟩ := h x u hu (.inl hdead)
    · exact .inl ⟨u', hu', hsame.trans hdead⟩
    · exact .inl ⟨u', hu', hdead'⟩
  · obtain ⟨u', hu', ⟨hsame, hwake⟩ | hdead⟩ := h x u hu (.inr hsleep)
    · exact ⟨u', hu', .inl ⟨hsame.trans hsleep, hwake⟩⟩
    · exact ⟨u', hu', .inr (.inl hdead)⟩

/-- What is known after a section, before the switch if it makes one. -/
structure Outcome (a : Action) (s s' : Sched) (switches : Bool) : Prop where
  base : s'.Base
  lawful : Lawful a s s'
  steady : switches = true → s.Steady s'
  goes : switches = false → s'.Goes

theorem age_fields (s : Sched) : s.age.memory = s.memory ∧ s.age.threads = s.threads ∧ s.age.current = s.current ∧
    s.age.cpu = s.cpu ∧ s.age.timerMs = s.timerMs := by
  unfold age
  split <;> exact ⟨rfl, rfl, rfl, rfl, rfl⟩

theorem Base.tick {s : Sched} (h : s.Base) (hg : s.Goes) : Outcome .tick s s.schedTick false := by
  let s₁ : Sched := { s with ticks := s.ticks + 1 }
  let s₂ : Sched := s₁.update s.current fun t => { t with cpuTicks := t.cpuTicks + 1 }
  have hbase₁ : s₁.Base := h.congr rfl rfl rfl rfl
  have hbase₂ : s₂.Base := hbase₁.retouch fun t _ => ⟨fun _ => rfl, .inl rfl, .inl rfl, rfl⟩
  have hgoes₂ : s₂.Goes := Goes.update (s := s₁) hg fun _ => ⟨rfl, rfl, rfl⟩
  have hsteady : s₁.Steady s₂ := Steady.update fun _ _ _ => .inl ⟨rfl, rfl⟩
  obtain ⟨hbase₃, hwoken⟩ := hbase₂.wake hgoes₂
  have hgoes₃ := hwoken.goes hbase₂ hgoes₂
  obtain ⟨hm, ht, hc, hcpu, htimer⟩ := age_fields s₂.wake
  refine ⟨hbase₃.congr hm ht hc hcpu, ⟨fun x u hu hdead => .inl ?_, fun x u hu hsleep => ?_⟩, fun hf => absurd hf (by decide),
    fun _ => ?_⟩
  · obtain ⟨u₂, hu₂, hsame⟩ := hsteady x u hu (.inl hdead)
    have hdead₂ : u₂.state = .zombie := hsame.elim (fun h => h.1.trans hdead) fun h => h
    rcases hwoken.memory x u₂ hu₂ with hu₃ | ⟨hsleep, -⟩
    · exact ⟨u₂, (congrFun hm x).trans hu₃, hdead₂⟩
    · cases hsleep.symm.trans hdead₂
  · obtain ⟨u₂, hu₂, ⟨hsame, hwake⟩ | hdead⟩ := hsteady x u hu (.inr hsleep)
    · rcases hwoken.memory x u₂ hu₂ with hu₃ | ⟨-, hdue, hu₃⟩
      · exact ⟨u₂, (congrFun hm x).trans hu₃, .inl ⟨hsame.trans hsleep, hwake⟩⟩
      · refine ⟨_, (congrFun hm x).trans hu₃, .inr (.inr ⟨rfl, rfl, ?_⟩)⟩
        have hclock : s.schedTick.timerMs = s₂.timerMs := htimer.trans hwoken.timer
        rw [hclock, ← hwake]
        exact hdue
    · rcases hwoken.memory x u₂ hu₂ with hu₃ | ⟨hsleep', -⟩
      · exact ⟨u₂, (congrFun hm x).trans hu₃, .inr (.inl hdead)⟩
      · cases hsleep'.symm.trans hdead
  · intro t hcur
    have hcur' : s₂.wake.memory s₂.wake.current = some t := by
      rw [← hc, ← hm]
      exact hcur
    exact hgoes₃ t hcur'

section Sections
variable {a : Action} {s s' : Sched}

/-- A section after which the current thread runs on. -/
theorem Outcome.on (hb : s'.Base) (hs : s.Steady s') (hr : s'.Runs) : Outcome a s s' false :=
  ⟨hb, hs.lawful, fun _ => hs, fun _ => hr.goes⟩

/-- A section that ends in a switch. -/
theorem Outcome.off (hb : s'.Base) (hs : s.Steady s') : Outcome a s s' true :=
  ⟨hb, hs.lawful, fun _ => hs, fun hf => absurd hf (by decide)⟩

theorem Base.outcome_goto (h : s.Base) (hr : s.Runs) {p : Place} (hp : s.Admits p) : Outcome a s (s.goto p) false :=
  .on (h.goto hp) (.goto p) (hr.goto p)

theorem Base.outcome_returns (h : s.Base) (hr : s.Runs) (value : Int32) : Outcome a s (s.returns value) false :=
  .on (h.returns value) (.returns value) (hr.returns value)

/-- A thread of the table other than thread 0 dies. -/
theorem Base.dies (h : s.Base) {b : Address} (hb : b ≠ boot) (hl : s.Listed b) (tid code : Int32) :
    ((s.update b fun t => { t with state := .zombie, exitCode := code }).rememberExit tid code).Base ∧
      s.Steady ((s.update b fun t => { t with state := .zombie, exitCode := code }).rememberExit tid code) := by
  have hdead : (s.update b fun t => { t with state := .zombie, exitCode := code }).Base :=
    h.retouch fun _ _ => ⟨fun _ => rfl, .inr ⟨hb, hl, by simp, by simp⟩, .inl rfl, rfl⟩
  have hsteady : s.Steady (s.update b fun t => { t with state := .zombie, exitCode := code }) :=
    Steady.update fun _ _ _ => .inr rfl
  exact ⟨hdead.congr rfl rfl rfl rfl, hsteady.trans (.of_memory rfl)⟩

theorem killTarget_some {tid : Int32} {b : Address} (h : s.killTarget tid = some b) :
    s.Listed b ∧ ∃ t, s.memory b = some t ∧ t.tid = tid ∧ t.tid ≠ 0 ∧ t.state ≠ .zombie := by
  obtain ⟨i, -, hi⟩ := List.exists_of_findSome?_eq_some h
  split at hi
  · next c hc =>
    split at hi
    · next hany =>
      obtain rfl := Option.some.inj hi
      obtain ⟨t, ht, hfacts⟩ := (Option.any_eq_true _ _).mp hany
      exact ⟨⟨i, hc⟩, t, ht, of_decide_eq_true hfacts⟩
    · cases hi
  · cases hi

theorem reapTarget_some {i : ℕ} {j : ThreadSlot} {b : Address} (h : s.reapTarget i = some (j, b)) :
    s.threads j = some b ∧ b ≠ s.current ∧ ∃ t, s.memory b = some t ∧ t.state = .zombie := by
  obtain ⟨k, -, hk⟩ := List.exists_of_findSome?_eq_some h
  split at hk
  · next c hc =>
    split at hk
    · next hfacts =>
      obtain ⟨rfl, rfl⟩ := Prod.mk.inj (Option.some.inj hk)
      obtain ⟨-, hany, hcur⟩ := hfacts
      obtain ⟨t, ht, hdead⟩ := (Option.any_eq_true _ _).mp hany
      exact ⟨hc, hcur, t, ht, (of_decide_eq_true hdead).1⟩
    · cases hk
  · cases hk

/-- Thread 0, which the scheduler falls back on, neither sleeps nor exits. -/
def Permitted (s : Sched) : Action → Prop
  | .call (.sleep _) | .call (.exit _) => s.current ≠ boot
  | _ => True

instance (s : Sched) (a : Action) : Decidable (s.Permitted a) := by
  unfold Permitted
  split <;> infer_instance

theorem Base.enter (h : s.Base) (hr : s.Runs) (c : Call) (hperm : s.Permitted (.call c)) :
    Outcome a s (s.enter c).1 (s.enter c).2 := by
  cases c with
  | create =>
    simp only [Sched.enter]
    split
    · exact h.outcome_returns hr (-1)
    · next slot hslot =>
      have hempty : s.threads slot = none := by simpa using List.find?_some hslot
      refine h.outcome_goto hr ⟨fun b hb => ?_, fun b hb => ?_, fun b hb => ?_, fun k hk => ?_⟩
      · simp [Place.holds, Place.builds, Place.buries] at hb
      · cases hb
      · cases hb
      · obtain rfl := Option.some.inj hk
        refine ⟨?_, by simp [hempty]⟩
        rintro rfl
        simp [h.boot_entry] at hempty
  | yield => exact .off (h.congr rfl rfl rfl rfl) (.of_memory rfl)
  | sleep ms =>
    obtain ⟨t, ht, hrun⟩ := hr
    refine .off (h.retouch fun t _ => ⟨fun _ => rfl, .inr ⟨hperm, h.listed, by simp, by simp⟩, .inl rfl, rfl⟩)
      (Steady.update fun u hu hstate => ?_)
    obtain rfl := Option.some.inj (hu.symm.trans ht)
    rcases hstate with hstate | hstate <;> cases hstate.symm.trans hrun
  | exit code =>
    obtain ⟨hbase, hsteady⟩ := h.dies (b := s.current) hperm h.listed (((s.memory s.current).map Thread.tid).getD 0) code
    exact .off (hbase.goto (admits_of_empty rfl rfl rfl)) (hsteady.trans (.goto .exited))
  | join tid => exact h.outcome_goto hr (admits_of_empty rfl rfl rfl)
  | kill tid =>
    simp only [Sched.enter]
    split
    · exact h.outcome_returns hr (-1)
    · next b hb =>
      obtain ⟨hl, t, ht, htid, hzero, -⟩ := killTarget_some hb
      have hboot : b ≠ boot := by
        rintro rfl
        exact hzero (h.boot_tid t ht)
      obtain ⟨hbase, hsteady⟩ := h.dies hboot hl tid (-1)
      have hs := hsteady.trans (.goto (.killed tid))
      refine ⟨hbase.goto (admits_of_empty rfl rfl rfl), hs.lawful, fun _ => hs, fun _ => ?_⟩
      -- the killer itself is dead now, if it named its own tid
      obtain ⟨c, hc, hrun⟩ := hr
      have hkiller : ∀ {u}, ((s.update b fun t => { t with state := .zombie, exitCode := -1 }).rememberExit tid (-1)).memory
          s.current = some u → u.state = .running ∨ u.state = .zombie ∧ u.tid = tid := by
        intro u hu
        rcases update_back (s := s) hu with ⟨-, hu⟩ | ⟨hcur, v, hv, rfl⟩
        · exact .inl (Option.some.inj (hc.symm.trans hu) ▸ hrun)
        · exact .inr ⟨rfl, by rw [← htid, Option.some.inj (ht.symm.trans hv)]⟩
      intro u hu
      rcases update_back hu with ⟨hne, -⟩ | ⟨-, v, hv, rfl⟩
      · exact absurd h.executing.symm hne
      · rcases hkiller (h.executing ▸ hv) with hrun | ⟨hdead, hself⟩
        · exact .inl hrun
        · exact .inr ⟨hdead, by rw [← hself]⟩
  | reap => exact h.outcome_goto hr (admits_of_empty rfl rfl rfl)

/-- The running thread may go where its hands stay as they are. -/
theorem Base.admits (h : s.Base) {t : Thread} (ht : s.memory s.cpu = some t) {p : Place}
    (hb : p.builds = t.place.builds) (hd : p.buries = t.place.buries) (ha : p.aims = t.place.aims) : s.Admits p := by
  rw [h.executing] at ht
  refine ⟨fun b hp => ?_, fun b hp => h.built _ t b ht (hb ▸ hp), fun b hp => h.buried _ t b ht (hd ▸ hp),
    fun k hk => h.aimed _ t k ht (ha ▸ hk)⟩
  have hholds : t.place.holds b := by
    unfold Place.holds at hp ⊢
    rwa [← hb, ← hd]
  exact ⟨h.unlisted _ t b ht hholds, fun x u hu hx => h.holder x _ u t b hu ht hx hholds⟩

theorem Base.resume_creating (h : s.Base) (hr : s.Runs) {t : Thread} (ht : s.memory s.cpu = some t) {slot : ThreadSlot}
    (hp : t.place = .creating slot) {b : Address} (hb : s.memory b = none) :
    Outcome a s ((s.setBlock b (some {})).goto (.numbering slot b)) false := by
  have hl : ¬s.Listed b := fun hl => by
    obtain ⟨u, hu, -⟩ := h.live b hl
    cases hb.symm.trans hu
  have hcur : s.current ≠ b := fun heq => hl (heq ▸ h.listed)
  have hbase := h.alloc hb
  have hsteady : s.Steady (s.setBlock b (some {})) := .alloc hb
  have hruns : (s.setBlock b (some {})).Runs := by
    obtain ⟨u, hu, hrun⟩ := hr
    exact ⟨u, (setBlock_memory_ne hcur).trans hu, hrun⟩
  refine .on (hbase.goto ⟨fun c hc => ?_, fun c hc => ?_, fun c hc => ?_, fun k hk => ?_⟩) (hsteady.trans (.goto _))
    (hruns.goto _)
  · obtain rfl : b = c := by simpa [Place.holds, Place.builds, Place.buries] using hc
    refine ⟨hl, fun x u hu hx => ?_⟩
    rcases setBlock_back hu with ⟨-, hu⟩ | ⟨-, hu⟩
    · rcases hx with hx | hx
      · obtain ⟨v, hv, -⟩ := h.built x u b hu hx
        cases hb.symm.trans hv
      · obtain ⟨v, hv, -⟩ := h.buried x u b hu hx
        cases hb.symm.trans hv
    · obtain rfl := Option.some.inj hu
      exact absurd hx holds_outside
  · obtain rfl := Option.some.inj hc
    exact ⟨{}, by simp [setBlock], rfl, rfl, rfl⟩
  · cases hc
  · exact h.aimed _ t k (h.executing ▸ ht) (hp ▸ hk)

theorem Base.resume_numbered (h : s.Base) (hr : s.Runs) {t : Thread} (ht : s.memory s.cpu = some t) {slot : ThreadSlot}
    {b : Address} {tid : Int32} (hp : t.place = .numbered slot b tid) :
    Outcome a s (((s.setNextTid (tid + 1)).update b fun t => { t with tid := tid, state := .ready, detached := true }).goto
      (.publishing slot b)) false := by
  have hl : ¬s.Listed b := h.unlisted _ t b ht (.inl (by rw [hp]; rfl))
  obtain ⟨u, hu, hready, -⟩ := h.built _ t b ht (by rw [hp]; rfl)
  have hcur : s.current ≠ b := fun heq => hl (heq ▸ h.listed)
  have hboot : b ≠ boot := fun heq => hl (heq ▸ ⟨0, h.boot_entry⟩)
  have hsame : ∀ v, s.memory b = some v → ThreadState.ready = v.state := fun v hv => by
    rw [← Option.some.inj (hu.symm.trans hv), hready]
  have h₁ : (s.setNextTid (tid + 1)).Base := h.congr rfl rfl rfl rfl
  have hbase := h₁.retouch (a := b) (f := fun t => { t with tid := tid, state := .ready, detached := true })
    fun v hv => ⟨fun heq => absurd heq hboot, .inl (hsame v hv), .inl rfl, rfl⟩
  have hmem : ((s.setNextTid (tid + 1)).update b fun t => { t with tid := tid, state := .ready, detached := true }).memory
      s.cpu = some t := by
    rw [update_memory_ne (h.executing ▸ hcur)]
    exact ht
  have hsteady : s.Steady ((s.setNextTid (tid + 1)).update b fun t =>
      { t with tid := tid, state := .ready, detached := true }) :=
    Steady.trans (.of_memory rfl) (Steady.update fun v hv hstate => by
      rw [← hsame v hv] at hstate
      rcases hstate with hstate | hstate <;> cases hstate)
  have hruns : ((s.setNextTid (tid + 1)).update b fun t =>
      { t with tid := tid, state := .ready, detached := true }).Runs := by
    obtain ⟨v, hv, hrun⟩ := hr
    exact ⟨v, (update_memory_ne hcur).trans hv, hrun⟩
  exact .on (hbase.goto (hbase.admits hmem (by rw [hp]; rfl) (by rw [hp]; rfl) (by rw [hp]; rfl)))
    (hsteady.trans (.goto _)) (hruns.goto _)

theorem Base.resume_publishing (h : s.Base) (hr : s.Runs) {t : Thread} (ht : s.memory s.cpu = some t)
    {slot : ThreadSlot} {b : Address} (hp : t.place = .publishing slot b) (value : Int32) :
    Outcome a s ((s.setEntry slot (some b)).returns value) false := by
  have hholds : t.place.holds b := .inl (by rw [hp]; rfl)
  have hl : ¬s.Listed b := h.unlisted _ t b ht hholds
  obtain ⟨u, hu, -, hstack, hplace⟩ := h.built _ t b ht (by rw [hp]; rfl)
  obtain ⟨hzero, hself⟩ := h.aimed _ t slot ht (by rw [hp]; rfl)
  have hcur : b ≠ s.cpu := fun heq => hl (heq ▸ h.executing ▸ h.listed)
  have hu' : (s.returns value).memory b = some u := by
    unfold Sched.returns
    rwa [update_memory_ne hcur]
  have hbase : ((s.returns value).setEntry slot (some b)).Base := by
    refine (h.returns value).publish hu' hstack hplace hl (fun x v hv hx => ?_) hzero (h.executing ▸ hself)
    rcases update_back hv with ⟨hne, hv⟩ | ⟨-, w, -, rfl⟩
    · exact hne (h.holder x _ v t b hv ht hx hholds)
    · exact absurd hx holds_outside
  have hsteady : s.Steady (s.returns value) := .returns value
  exact .on hbase (hsteady.trans (.of_memory rfl)) (hr.returns value)

theorem Base.resume_reaping (h : s.Base) (hr : s.Runs) {i : ℕ} {j : ThreadSlot} {b : Address}
    (htarget : s.reapTarget i = some (j, b)) : Outcome a s ((s.setEntry j none).goto (.freeing j b)) false := by
  obtain ⟨hj, hcur, u, hu, hdead⟩ := reapTarget_some htarget
  have hzero : j ≠ 0 := by
    rintro rfl
    obtain rfl := Option.some.inj (hj.symm.trans h.boot_entry)
    have hboot := h.boot_state u hu
    rw [hdead] at hboot
    split at hboot <;> cases hboot
  obtain ⟨hbase, hl⟩ := h.unlist hj hcur hzero
  have hsteady : s.Steady (s.setEntry j none) := .of_memory rfl
  refine .on (hbase.goto ⟨fun c hc => ?_, fun c hc => ?_, fun c hc => ?_, fun k hk => ?_⟩) (hsteady.trans (.goto _))
    (Runs.goto (s := s.setEntry j none) hr _)
  · obtain rfl : b = c := by simpa [Place.holds, Place.builds, Place.buries] using hc
    exact ⟨hl, fun x v hv hx => absurd ⟨j, hj⟩ (h.unlisted x v b hv hx)⟩
  · cases hc
  · obtain rfl := Option.some.inj hc
    exact ⟨u, hu, hdead⟩
  · cases hk

theorem Base.resume_freeing (h : s.Base) (hr : s.Runs) {t : Thread} (ht : s.memory s.cpu = some t) {i : ℕ}
    {b : Address} (hp : t.place = .freeing i b) :
    Outcome a s ((s.update b fun t => { t with stackFreed := true }).goto (.unstacked i b)) false := by
  have hholds : t.place.holds b := .inr (by rw [hp]; rfl)
  have hl : ¬s.Listed b := h.unlisted _ t b ht hholds
  have hcur : s.cpu ≠ b := fun heq => hl (heq ▸ h.executing ▸ h.listed)
  have hbase := h.retouch (a := b) (f := fun t => { t with stackFreed := true }) fun v _ =>
    ⟨fun _ => rfl, .inl rfl, .inr ⟨hl, fun x u hu hb => by
      obtain rfl := h.holder x _ u t b hu ht (.inl hb) hholds
      rw [Option.some.inj (hu.symm.trans ht), hp] at hb
      cases hb⟩, rfl⟩
  have hmem : (s.update b fun t => { t with stackFreed := true }).memory s.cpu = some t := by
    rwa [update_memory_ne hcur]
  have hsteady : s.Steady (s.update b fun t => { t with stackFreed := true }) :=
    Steady.update fun _ _ _ => .inl ⟨rfl, rfl⟩
  have hruns : (s.update b fun t => { t with stackFreed := true }).Runs := hr.update fun _ => rfl
  exact .on (hbase.goto (hbase.admits hmem (by rw [hp]; rfl) (by rw [hp]; rfl) (by rw [hp]; rfl)))
    (hsteady.trans (.goto _)) (hruns.goto _)

theorem Base.resume_unstacked (h : s.Base) (hr : s.Runs) {t : Thread} (ht : s.memory s.cpu = some t) {i : ℕ}
    {b : Address} (hp : t.place = .unstacked i b) :
    Outcome a s ((s.setBlock b none).goto (.reaping (i + 1))) false := by
  have hholds : t.place.holds b := .inr (by rw [hp]; rfl)
  have hl : ¬s.Listed b := h.unlisted _ t b ht hholds
  obtain ⟨u, hu, hdead⟩ := h.buried _ t b ht (by rw [hp]; rfl)
  have hcur : s.cpu ≠ b := fun heq => hl (heq ▸ h.executing ▸ h.listed)
  have hswap : (s.setBlock b none).goto (.reaping (i + 1)) = (s.goto (.reaping (i + 1))).setBlock b none := by
    unfold setBlock Sched.goto Sched.update
    simp only [Function.update_of_ne hcur]
    rw [Function.update_comm hcur]
  have hbase : (s.goto (.reaping (i + 1))).Base := h.goto (admits_of_empty rfl rfl rfl)
  rw [hswap]
  have hmem : ∀ x, x ≠ b → ((s.goto (.reaping (i + 1))).setBlock b none).memory x =
      (s.goto (.reaping (i + 1))).memory x := fun x hx => setBlock_memory_ne hx
  have hsteady : s.Steady (s.goto (.reaping (i + 1))) := .goto _
  refine ⟨hbase.free hl fun x v hv hx => ?_, ⟨fun x v hv hx => ?_, fun x v hv hx => ?_⟩,
    fun hf => absurd hf (by decide), fun _ => ?_⟩
  · rcases update_back hv with ⟨hne, hv⟩ | ⟨-, w, -, rfl⟩
    · exact hne (h.holder x _ v t b hv ht hx hholds)
    · simp [Place.holds, Place.builds, Place.buries] at hx
  · by_cases hxb : x = b
    · subst hxb
      exact .inr ⟨hl, by simp [setBlock]⟩
    · rw [hmem x hxb]
      exact (hsteady.lawful (a := a)).dead x v hv hx
  · have hxb : x ≠ b := by
      rintro rfl
      rw [Option.some.inj (hu.symm.trans hv)] at hdead
      cases hdead.symm.trans hx
    obtain ⟨v', hv', hsame | hzombie⟩ := hsteady x v hv (.inr hx)
    · exact ⟨v', (hmem x hxb).trans hv', .inl ⟨hsame.1.trans hx, hsame.2⟩⟩
    · exact ⟨v', (hmem x hxb).trans hv', .inr (.inl hzombie)⟩
  · obtain ⟨v, hv, hrun⟩ := hr.goto (.reaping (i + 1))
    exact Runs.goes ⟨v, (hmem _ (h.executing ▸ hcur)).trans hv, hrun⟩

/-- The thread's claim on another one is a store to `detached`, wherever the pointer leads. -/
theorem Base.resume_claiming (h : s.Base) (hr : s.Runs) (b : Address) (detached : Bool) :
    (s.update b fun t => { t with detached := detached }).Base ∧
      s.Steady (s.update b fun t => { t with detached := detached }) ∧
      (s.update b fun t => { t with detached := detached }).Runs :=
  ⟨h.retouch fun _ _ => ⟨fun _ => rfl, .inl rfl, .inl rfl, rfl⟩, Steady.update fun _ _ _ => .inl ⟨rfl, rfl⟩,
    hr.update fun _ => rfl⟩

theorem Base.resume (h : s.Base) (hg : s.Goes) {t : Thread} (ht : s.memory s.cpu = some t) {block : Option Address}
    {stale : Option Int32} {switches : Bool} (hs : s.resume block stale t.place = some (s', switches)) :
    Outcome a s s' switches := by
  have hruns : (∀ tid, t.place ≠ .killed tid) → s.Runs := by
    intro hp
    rw [h.executing] at ht
    rcases hg t ht with hrun | ⟨-, hplace⟩
    · exact ⟨t, ht, hrun⟩
    · exact absurd hplace (hp _)
  cases hp : t.place with
  | outside =>
    rw [hp] at hs
    cases hs
  | creating slot =>
    have hr := hruns (by simp [hp])
    rw [hp] at hs
    simp only [Sched.resume] at hs
    split at hs
    · obtain ⟨rfl, rfl⟩ := Prod.mk.inj (Option.some.inj hs)
      exact h.outcome_returns hr (-1)
    · next b =>
      split at hs
      · cases hs
      · next hb =>
        obtain ⟨rfl, rfl⟩ := Prod.mk.inj (Option.some.inj hs)
        exact h.resume_creating hr ht hp (by simpa using hb)
  | numbering slot b =>
    have hr := hruns (by simp [hp])
    rw [hp] at hs
    obtain ⟨rfl, rfl⟩ := Prod.mk.inj (Option.some.inj hs)
    exact h.outcome_goto hr (h.admits ht (by rw [hp]; rfl) (by rw [hp]; rfl) (by rw [hp]; rfl))
  | numbered slot b tid =>
    have hr := hruns (by simp [hp])
    rw [hp] at hs
    obtain ⟨rfl, rfl⟩ := Prod.mk.inj (Option.some.inj hs)
    exact h.resume_numbered hr ht hp
  | publishing slot b =>
    have hr := hruns (by simp [hp])
    rw [hp] at hs
    obtain ⟨rfl, rfl⟩ := Prod.mk.inj (Option.some.inj hs)
    exact h.resume_publishing hr ht hp _
  | joining tid =>
    have hr := hruns (by simp [hp])
    rw [hp] at hs
    simp only [Sched.resume] at hs
    split at hs
    · obtain ⟨rfl, rfl⟩ := Prod.mk.inj (Option.some.inj hs)
      exact h.outcome_returns hr _
    · obtain ⟨rfl, rfl⟩ := Prod.mk.inj (Option.some.inj hs)
      exact h.outcome_goto hr (admits_of_empty rfl rfl rfl)
  | claiming tid b =>
    have hr := hruns (by simp [hp])
    rw [hp] at hs
    simp only [Sched.resume] at hs
    split at hs
    · split at hs
      · obtain ⟨rfl, rfl⟩ := Prod.mk.inj (Option.some.inj hs)
        obtain ⟨hbase, hsteady, hr'⟩ := h.resume_claiming hr b true
        exact .on (hbase.returns _) (hsteady.trans (.returns _)) (hr'.returns _)
      · obtain ⟨rfl, rfl⟩ := Prod.mk.inj (Option.some.inj hs)
        obtain ⟨hbase, hsteady, hr'⟩ := h.resume_claiming hr b false
        exact .on (hbase.goto (admits_of_empty rfl rfl rfl)) (hsteady.trans (.goto _)) (hr'.goto _)
    · split at hs
      · obtain ⟨rfl, rfl⟩ := Prod.mk.inj (Option.some.inj hs)
        exact h.outcome_returns hr _
      · obtain ⟨rfl, rfl⟩ := Prod.mk.inj (Option.some.inj hs)
        exact h.outcome_goto hr (admits_of_empty rfl rfl rfl)
  | rejoining tid =>
    rw [hp] at hs
    obtain ⟨rfl, rfl⟩ := Prod.mk.inj (Option.some.inj hs)
    have hbase : s.clearResched.Base := h.congr rfl rfl rfl rfl
    exact .off (hbase.goto (admits_of_empty rfl rfl rfl)) (Steady.trans (.of_memory rfl) (.goto _))
  | killed tid =>
    rw [hp] at hs
    simp only [Sched.resume] at hs
    split at hs
    · obtain ⟨rfl, rfl⟩ := Prod.mk.inj (Option.some.inj hs)
      have hbase : s.clearResched.Base := h.congr rfl rfl rfl rfl
      exact .off (hbase.returns 0) (Steady.trans (.of_memory rfl) (.returns 0))
    · next hother =>
      obtain ⟨rfl, rfl⟩ := Prod.mk.inj (Option.some.inj hs)
      rw [h.executing] at ht
      -- had it killed itself, it would bear the tid it killed
      have hr : s.Runs := by
        rcases hg t ht with hrun | ⟨-, hplace⟩
        · exact ⟨t, ht, hrun⟩
        · rw [hp, Place.killed.injEq] at hplace
          simp [ht, hplace] at hother
      exact h.outcome_returns hr 0
  | reaping i =>
    have hr := hruns (by simp [hp])
    rw [hp] at hs
    simp only [Sched.resume] at hs
    split at hs
    · obtain ⟨rfl, rfl⟩ := Prod.mk.inj (Option.some.inj hs)
      exact h.outcome_returns hr 0
    · next j b hb =>
      obtain ⟨rfl, rfl⟩ := Prod.mk.inj (Option.some.inj hs)
      exact h.resume_reaping hr hb
  | freeing i b =>
    have hr := hruns (by simp [hp])
    rw [hp] at hs
    obtain ⟨rfl, rfl⟩ := Prod.mk.inj (Option.some.inj hs)
    exact h.resume_freeing hr ht hp
  | unstacked i b =>
    have hr := hruns (by simp [hp])
    rw [hp] at hs
    obtain ⟨rfl, rfl⟩ := Prod.mk.inj (Option.some.inj hs)
    exact h.resume_unstacked hr ht hp
  | exited =>
    rw [hp] at hs
    cases hs

end Sections

/-- Every section, up to the switch it may make. -/
theorem Base.prelude {s s' : Sched} (h : s.Base) (hg : s.Goes) {a : Action} (hperm : s.Permitted a) {switches : Bool}
    (hs : s.prelude a = some (s', switches)) : Outcome a s s' switches := by
  cases a with
  | tick =>
    obtain ⟨rfl, rfl⟩ := Prod.mk.inj (Option.some.inj hs)
    exact h.tick hg
  | preempt =>
    simp only [Sched.prelude] at hs
    split at hs
    · obtain ⟨rfl, rfl⟩ := Prod.mk.inj (Option.some.inj hs)
      exact .off (h.congr rfl rfl rfl rfl) (.of_memory rfl)
    · obtain ⟨rfl, rfl⟩ := Prod.mk.inj (Option.some.inj hs)
      have hsteady : s.Steady s := .of_memory rfl
      exact ⟨h, hsteady.lawful, fun _ => hsteady, fun _ => hg⟩
  | call c =>
    simp only [Sched.prelude] at hs
    split at hs
    · next t ht =>
      split at hs
      · next hp =>
        rw [h.executing] at ht
        have hr : s.Runs := by
          rcases hg t ht with hrun | ⟨-, hplace⟩
          · exact ⟨t, ht, hrun⟩
          · cases hp.symm.trans hplace
        obtain ⟨rfl, rfl⟩ := Prod.mk.inj (Option.some.inj hs)
        exact h.enter hr c hperm
      · cases hs
    · cases hs
  | next block stale =>
    simp only [Sched.prelude] at hs
    split at hs
    · next t ht => exact h.resume hg ht hs
    · cases hs

/-- One step keeps the invariant and the law. -/
theorem Base.step {s s' : Sched} (h : s.Base) (hg : s.Goes) {a : Action} (hperm : s.Permitted a)
    (hs : s.step a = some s') : s'.Base ∧ s'.Goes ∧ Lawful a s s' := by
  unfold Sched.step at hs
  split at hs
  · cases hs
  · next hpre =>
    obtain rfl := Option.some.inj hs
    have hout := h.prelude hg hperm hpre
    exact ⟨hout.base, hout.goes rfl, hout.lawful⟩
  · next s₁ hpre =>
    have hout := h.prelude hg hperm hpre
    obtain ⟨x, hx, he⟩ := hout.base.pickNext
    rw [hx] at hs
    obtain rfl := Option.some.inj hs
    obtain ⟨hbase, hcur, hrun⟩ := hout.base.switchTo he
    exact ⟨hbase, Runs.goes (by rw [Runs, hcur]; exact hrun),
      ((hout.steady rfl).trans (hout.base.steady_switchTo he)).lawful⟩

end Sched

/-- One step of a run in which thread 0 neither sleeps nor exits. -/
def Step (s s' : Sched) : Prop := ∃ a, s.Permitted a ∧ s.step a = some s'

/-- What is true in every state between two sections, and of every step from there. -/
structure Healthy (s : Sched) : Prop where
  executing : s.cpu = s.current
  running : ∀ t, s.memory s.cpu = some t → t.place = .outside → t.state = .running
  alone : ∀ x t, s.memory x = some t → t.state = .running → x = s.current
  kept : ∃ t, s.memory s.current = some t ∧ t.stackFreed = false
  chosen : ∀ a s', s.Permitted a → s.prelude a = some (s', true) →
    ∃ x t, s'.pickNext = some x ∧ s'.memory x = some t ∧ t.state ≠ .zombie ∧ t.state ≠ .sleeping
  lawful : ∀ a s', s.Permitted a → s.step a = some s' → Sched.Lawful a s s'

theorem Sched.Base.healthy {s : Sched} (h : s.Base) (hg : s.Goes) : Healthy s where
  executing := h.executing
  running t ht hp := by
    rcases hg t (h.executing ▸ ht) with hrun | ⟨-, hplace⟩
    · exact hrun
    · cases hp.symm.trans hplace
  alone := h.alone
  kept := h.live _ h.listed
  chosen a s' hperm hs := by
    obtain ⟨x, hx, t, ht, hcase⟩ := (h.prelude hg hperm hs).base.pickNext
    refine ⟨x, t, hx, ht, ?_⟩
    rcases hcase with ⟨-, hstate⟩ | ⟨-, hstate⟩ <;> simp [hstate]
  lawful a s' hperm hs := (h.step hg hperm hs).2.2

theorem start_base (ticks frequency : UInt64) : (start ticks frequency).Base ∧ (start ticks frequency).Goes := by
  have honly : ∀ {x t}, (start ticks frequency).memory x = some t → x = boot ∧ t = { state := .running } := by
    intro x t ht
    by_cases hx : x = boot
    · subst hx
      simp only [start, Function.update_self] at ht
      exact ⟨rfl, (Option.some.inj ht).symm⟩
    · simp [start, hx] at ht
  have hentry : ∀ {j x}, (start ticks frequency).threads j = some x → j = 0 ∧ x = boot := by
    intro j x hj
    by_cases hj0 : j = 0
    · subst hj0
      simp only [start, Function.update_self] at hj
      exact ⟨rfl, (Option.some.inj hj).symm⟩
    · simp [start, hj0] at hj
  have hboot : (start ticks frequency).memory boot = some { state := .running } := by simp [start]
  have hzero : (start ticks frequency).threads 0 = some boot := by simp [start]
  refine ⟨⟨rfl, hzero, fun t ht => ?_, fun t ht => ?_, ⟨0, hzero⟩, ?_, fun i j x hi hj => ?_, fun x t ht _ => (honly ht).1,
    fun t ht => ?_, fun x t b ht hb => ?_, fun x y t u b ht hu hb _ => ?_, fun x t b ht hb => ?_, fun x t b ht hb => ?_,
    fun x t k ht hk => ?_⟩, fun t ht => ?_⟩
  · rw [(honly ht).2]
  · rw [(honly ht).2]
    rfl
  · rintro x ⟨j, hj⟩
    rw [(hentry hj).2]
    exact ⟨_, hboot, rfl⟩
  · rw [(hentry hi).1, (hentry hj).1]
  · rw [(honly ht).2]
    simp
  · rw [(honly ht).2] at hb
    exact absurd hb holds_outside
  · rw [(honly ht).2] at hb
    exact absurd hb holds_outside
  · rw [(honly ht).2] at hb
    cases hb
  · rw [(honly ht).2] at hb
    cases hb
  · rw [(honly ht).2] at hk
    cases hk
  · rw [(honly ht).2]
    exact .inl rfl

/-- Over every run in which thread 0 neither sleeps nor exits: a thread outside the scheduler is current
and the only one running, whoever is chosen is neither dead nor asleep, the dead stay dead until they are
out of the table, sleepers wake when their time has come, and the current thread is never freed. -/
theorem scheduler_healthy (ticks frequency : UInt64) {s : Sched}
    (h : Reachable (· = start ticks frequency) Step s) : Healthy s := by
  have hinv : s.Base ∧ s.Goes := by
    induction h with
    | start h =>
      subst h
      exact start_base ticks frequency
    | next _ hs ih =>
      obtain ⟨a, hperm, hs⟩ := hs
      obtain ⟨hbase, hgoes, -⟩ := ih.1.step ih.2 hperm hs
      exact ⟨hbase, hgoes⟩
  exact hinv.1.healthy hinv.2

/-- A step of such a run, as a function. -/
def permittedStep (s : Sched) (a : Action) : Option Sched := if s.Permitted a then s.step a else none

/-- Thread 0 creates a thread and yields to it; that one sleeps for ten milliseconds. -/
def sleeper : Sched :=
  (follow permittedStep (start 0 100) [.call .create, .next (some 1) none, .next none none, .next none none,
    .next none none, .call .yield, .call (.sleep 10)]).getD (start 0 100)

theorem scheduler_healthy_sleeper :
    ((sleeper.memory 1).any fun t => t.state = .sleeping ∧ t.wakeAtMs = 10) = true ∧ Healthy sleeper := by
  have h0 : Reachable (· = start 0 100) Step (start 0 100) := .start rfl
  refine ⟨by decide, scheduler_healthy 0 100 (h0.follow (f := permittedStep)
    (l := [.call .create, .next (some 1) none, .next none none, .next none none, .next none none, .call .yield,
      .call (.sleep 10)])
    (fun s a t h => ?_) rfl)⟩
  unfold permittedStep at h
  split at h
  · next hperm => exact ⟨a, hperm, h⟩
  · cases h

end SifarOS.Scheduler
