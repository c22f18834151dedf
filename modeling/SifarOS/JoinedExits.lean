import SifarOS.RingHistory
import SifarOS.SchedulerSafety

/-! # The exit codes that `thread_join` returns

Beside the scheduler a run keeps the tids handed out and, in their order, the ends of threads: by
`thread_exit` and by `thread_kill`. The descriptors and the ring of `remember_exit` are compared with
that list. -/
namespace SifarOS.Scheduler
open ProcessTable ReachableStates RingHistory

namespace Sched

/-- The thread that ends in this step, and its exit code. -/
def ends (s : Sched) : Action → Option (Int32 × Int32)
  | .call (.exit code) => (s.memory s.current).map fun t => (t.tid, code)
  | .call (.kill tid) => (s.killTarget tid).map fun _ => (tid, -1)
  | _ => none

/-- The tid that `next_tid++` hands out in this step. -/
def numbers (s : Sched) : Action → Option Int32
  | .next _ _ =>
    match (s.memory s.cpu).map Thread.place with
    | some (.numbered _ _ tid) => some tid
    | _ => none
  | _ => none

end Sched

/-- The scheduler, the tids handed out and the ends of threads. -/
structure Ledger where
  sched : Sched
  numbered : List Int32
  ended : List (Int32 × Int32)

def Ledger.step (r : Ledger) (a : Action) : Option Ledger :=
  (r.sched.step a).map fun s =>
    { sched := s
      numbered := (r.sched.numbers a).toList ++ r.numbered
      ended := r.ended ++ (r.sched.ends a).toList }

/-- A step that hands out no tid twice, and not that of thread 0. -/
def Ledger.FreshStep (r r' : Ledger) : Prop :=
  ∃ a, r.sched.Permitted a ∧ (∀ tid ∈ r.sched.numbers a, tid ≠ 0 ∧ tid ∉ r.numbered) ∧ r.step a = some r'

namespace Place

/-- The thread that a call of `thread_join` waits for. -/
def joins : Place → Option Int32
  | .joining tid | .claiming tid _ => some tid
  | _ => none

/-- The descriptor that a call of `thread_join` has found. -/
def claims : Place → Option (Int32 × Address)
  | .claiming tid a => some (tid, a)
  | _ => none

end Place

/-- In this step a call of `thread_join(tid)` returns, with this value. -/
def Sched.JoinReturns (s : Sched) (a : Action) (tid value : Int32) : Prop :=
  ∃ block stale t s' t', a = .next block stale ∧ s.memory s.cpu = some t ∧ t.place.joins = some tid ∧
    s.step a = some s' ∧ s'.memory s.cpu = some t' ∧ t'.place = .outside ∧ t'.result = value

/-- The exit code is where `thread_join` reads it in this step. A call that finds no descriptor has the last
32 ends of all; one that has found a descriptor, and was interrupted before it claimed it, has whatever
stands in that block now. -/
def Ledger.Remembers (r : Ledger) (a : Action) (tid code : Int32) : Prop :=
  match a, (r.sched.memory r.sched.cpu).map Thread.place with
  | .next _ _, some (.joining _) => (tid, code) ∈ r.ended.drop (r.ended.length - 32) ∨ code = 0
  | .next _ _, some (.claiming _ b) => ∃ t, r.sched.memory b = some t ∧ t.tid = tid
  | _, _ => False

/-! ## What the exit codes depend on -/

/-- What is compared of a descriptor: its exit code only once its thread is dead. -/
@[ext] structure Card where
  tid : Int32
  place : Place
  exit : Option Int32
  deriving DecidableEq

def Thread.card (t : Thread) : Card := ⟨t.tid, t.place, if t.state = .zombie then some t.exitCode else none⟩

def Sched.card (s : Sched) (x : Address) : Option Card := (s.memory x).map Thread.card

namespace Place

/-- The thread under construction, while it has no tid yet. -/
def unnumbered : Place → Option Address
  | .numbering _ a | .numbered _ a _ => some a
  | _ => none

/-- The thread under construction, once it has its tid. -/
def publishes : Place → Option Address
  | .publishing _ a => some a
  | _ => none

end Place

/-- What a place says of other threads is true. -/
structure Settled (s : Sched) (ended : List (Int32 × Int32)) (p : Place) : Prop where
  young : ∀ a k, p.unnumbered = some a → s.card a = some k → k.tid = 0
  named : ∀ a k, p.publishes = some a → s.card a = some k → k.tid ≠ 0
  claimed : ∀ tid a, p.claims = some (tid, a) → tid ≠ 0 →
    (∃ k, s.card a = some k ∧ k.tid = tid) ∨ ∃ code, (tid, code) ∈ ended

theorem settled_of_empty {s : Sched} {ended : List (Int32 × Int32)} {p : Place} (hy : p.unnumbered = none)
    (hn : p.publishes = none) (hc : p.claims = none) : Settled s ended p where
  young a k h := by simp [hy] at h
  named a k h := by simp [hn] at h
  claimed tid a h := by simp [hc] at h

/-- The descriptors and the ring agree with the list of ends. -/
structure Recorded (s : Sched) (numbered : List Int32) (ended : List (Int32 × Int32)) : Prop where
  kept : Kept 32 (Fin.ofNat 32) s.exitHistory ended
  recent : Recent 32 (Fin.ofNat 32) s.exitHistory (0, 0) ended
  next : s.exitHistoryNext = Fin.ofNat 32 ended.length
  once : (ended.map Prod.fst).Nodup
  drawn : ∀ e ∈ ended, e.1 ≠ 0 ∧ e.1 ∈ numbered
  known : ∀ x k, s.card x = some k → k.tid = 0 ∨ k.tid ∈ numbered
  distinct : ∀ x y k l, s.card x = some k → s.card y = some l → k.tid = l.tid → k.tid ≠ 0 → x = y
  exits : ∀ x k, s.card x = some k → ∀ code, (k.tid, code) ∈ ended ↔ k.exit = some code
  listed : ∀ x k, s.Listed x → x ≠ boot → s.card x = some k → k.tid ≠ 0
  places : ∀ x k, s.card x = some k → Settled s ended k.place

section Recorded
variable {s s' : Sched} {numbered : List Int32} {ended : List (Int32 × Int32)} {a : Address}

/-- A step that changes no tid, lets nobody end and frees nobody. -/
structure Keeps (s s' : Sched) (ended : List (Int32 × Int32)) : Prop where
  history : s'.exitHistory = s.exitHistory
  next : s'.exitHistoryNext = s.exitHistoryNext
  listed : ∀ x, s'.Listed x → s.Listed x
  back : ∀ x k', s'.card x = some k' → ∃ k, s.card x = some k ∧ k'.tid = k.tid ∧ k'.exit = k.exit ∧
    (k'.place = k.place ∨ Settled s ended k'.place)
  on : ∀ x k, s.card x = some k → ∃ k', s'.card x = some k' ∧ k'.tid = k.tid

theorem Settled.keep {p : Place} (h : Settled s ended p) (hk : Keeps s s' ended) : Settled s' ended p where
  young b k' hp hb := by
    obtain ⟨k, hk, htid, -⟩ := hk.back b k' hb
    exact htid.trans (h.young b k hp hk)
  named b k' hp hb := by
    obtain ⟨k, hk, htid, -⟩ := hk.back b k' hb
    rw [htid]
    exact h.named b k hp hk
  claimed tid b hp htid := by
    rcases h.claimed tid b hp htid with ⟨k, hb, hsame⟩ | hended
    · obtain ⟨k', hb', htid'⟩ := hk.on b k hb
      exact .inl ⟨k', hb', htid'.trans hsame⟩
    · exact .inr hended

theorem Recorded.keep (h : Recorded s numbered ended) (hk : Keeps s s' ended) : Recorded s' numbered ended where
  kept := by
    rw [hk.history]
    exact h.kept
  recent := by
    rw [hk.history]
    exact h.recent
  next := hk.next.trans h.next
  once := h.once
  drawn := h.drawn
  known x k' hx := by
    obtain ⟨k, hx, htid, -⟩ := hk.back x k' hx
    rw [htid]
    exact h.known x k hx
  distinct x y k' l' hx hy hsame hzero := by
    obtain ⟨k, hx, htid, -⟩ := hk.back x k' hx
    obtain ⟨l, hy, htid', -⟩ := hk.back y l' hy
    exact h.distinct x y k l hx hy (htid.symm.trans (hsame.trans htid')) (htid ▸ hzero)
  exits x k' hx code := by
    obtain ⟨k, hx, htid, hexit, -⟩ := hk.back x k' hx
    rw [htid, hexit]
    exact h.exits x k hx code
  listed x k' hl hboot hx := by
    obtain ⟨k, hx, htid, -⟩ := hk.back x k' hx
    rw [htid]
    exact h.listed x k (hk.listed x hl) hboot hx
  places x k' hx := by
    obtain ⟨k, hx, -, -, hsame | hp⟩ := hk.back x k' hx
    · rw [hsame]
      exact (h.places x k hx).keep hk
    · exact hp.keep hk

/-! ## Steps that let nobody end -/

theorem card_update_ne {f : Thread → Thread} {x : Address} (hx : x ≠ a) : (s.update a f).card x = s.card x := by
  rw [Sched.card, Sched.update_memory_ne hx, Sched.card]

theorem card_some {t : Thread} (h : s.memory a = some t) : s.card a = some t.card := by simp [Sched.card, h]

theorem card_back {k : Card} (h : s.card a = some k) : ∃ t, s.memory a = some t ∧ k = t.card := by
  obtain ⟨t, ht, rfl⟩ := Option.map_eq_some_iff.mp h
  exact ⟨t, ht, rfl⟩

theorem card_on {f : Thread → Thread} {x : Address} {k : Card}
    (hf : ∀ t, s.memory a = some t → (f t).card.tid = t.card.tid) (hx : s.card x = some k) :
    ∃ k', (s.update a f).card x = some k' ∧ k'.tid = k.tid := by
  obtain ⟨t, ht, rfl⟩ := card_back hx
  by_cases hxa : x = a
  · subst hxa
    exact ⟨(f t).card, card_some (Sched.update_memory ht), hf t ht⟩
  · exact ⟨t.card, by rw [card_update_ne hxa, card_some ht], rfl⟩

theorem card_goto_back {p : Place} {x : Address} {k : Card} (hx : (s.goto p).card x = some k) :
    ∃ l, s.card x = some l ∧ k.tid = l.tid ∧ k.exit = l.exit ∧ (x ≠ s.cpu ∧ k.place = l.place ∨ x = s.cpu ∧ k.place = p) := by
  obtain ⟨t, ht, rfl⟩ := card_back hx
  rcases Sched.update_back ht with ⟨hxc, ht⟩ | ⟨rfl, u, hu, rfl⟩
  · exact ⟨t.card, card_some ht, rfl, rfl, .inl ⟨hxc, rfl⟩⟩
  · exact ⟨u.card, card_some hu, rfl, rfl, .inr ⟨rfl, rfl⟩⟩

/-- A store into one descriptor that may send its thread to another place. -/
theorem Keeps.update {f : Thread → Thread} (hf : ∀ t, s.memory a = some t → (f t).card.tid = t.card.tid ∧
    (f t).card.exit = t.card.exit ∧ ((f t).card.place = t.card.place ∨ Settled s ended (f t).card.place)) :
    Keeps s (s.update a f) ended := by
  refine ⟨rfl, rfl, fun _ h => h, fun x k' hx => ?_, fun x k hx => card_on (fun t ht => (hf t ht).1) hx⟩
  obtain ⟨t, ht, rfl⟩ := card_back hx
  rcases Sched.update_back ht with ⟨-, ht⟩ | ⟨rfl, u, hu, rfl⟩
  · exact ⟨t.card, card_some ht, rfl, rfl, .inl rfl⟩
  · exact ⟨u.card, card_some hu, hf u hu⟩

theorem Recorded.goto (h : Recorded s numbered ended) {p : Place} (hp : Settled s ended p) :
    Recorded (s.goto p) numbered ended := h.keep (Keeps.update fun _ _ => ⟨rfl, rfl, .inr hp⟩)

theorem Recorded.returns (h : Recorded s numbered ended) (value : Int32) : Recorded (s.returns value) numbered ended :=
  h.keep (Keeps.update fun _ _ => ⟨rfl, rfl, .inr (settled_of_empty rfl rfl rfl)⟩)

/-- The descriptors, the table and the ring stay as they are. -/
theorem Recorded.congr (h : Recorded s numbered ended) (hm : s'.memory = s.memory) (ht : s'.threads = s.threads)
    (hh : s'.exitHistory = s.exitHistory) (hn : s'.exitHistoryNext = s.exitHistoryNext) : Recorded s' numbered ended := by
  have hcard : s'.card = s.card := by
    funext x
    rw [Sched.card, hm, Sched.card]
  refine h.keep ⟨hh, hn, fun x hx => ?_, fun x k' hx => ?_, fun x k hx => ?_⟩
  · rwa [Sched.Listed, ← ht]
  · exact ⟨k', by rw [← hcard, hx], rfl, rfl, .inl rfl⟩
  · exact ⟨k, by rw [hcard, hx], rfl⟩

/-- A change of state that neither ends the thread nor brings it back. -/
theorem card_state {t : Thread} {state : ThreadState} (h : state = .zombie ↔ t.state = .zombie) :
    ({ t with state := state } : Thread).card = t.card := by
  simp [Thread.card, h]

theorem Recorded.wake (h : Recorded s numbered ended) : Recorded s.wake numbered ended := by
  unfold Sched.wake
  generalize List.finRange 32 = slots
  induction slots generalizing s with
  | nil => exact h
  | cons i rest ih =>
    rw [List.foldl_cons]
    apply ih
    split
    · apply h.keep
      apply Keeps.update
      intro t _
      split
      · next hdue =>
        rw [card_state (by simp [hdue.1])]
        exact ⟨rfl, rfl, .inl rfl⟩
      · exact ⟨rfl, rfl, .inl rfl⟩
    · exact h

theorem Recorded.schedTick (h : Recorded s numbered ended) : Recorded s.schedTick numbered ended := by
  let s₁ : Sched := { s with ticks := s.ticks + 1 }
  let s₂ : Sched := s₁.update s.current fun t => { t with cpuTicks := t.cpuTicks + 1 }
  have hticks : Recorded s₁ numbered ended := h.congr rfl rfl rfl rfl
  have hcpu : Recorded s₂ numbered ended := hticks.keep (Keeps.update fun _ _ => ⟨rfl, rfl, .inl rfl⟩)
  have hage : s₂.wake.age.exitHistory = s₂.wake.exitHistory ∧ s₂.wake.age.exitHistoryNext = s₂.wake.exitHistoryNext := by
    unfold Sched.age
    split <;> exact ⟨rfl, rfl⟩
  exact hcpu.wake.congr (Sched.age_fields _).1 (Sched.age_fields _).2.1 hage.1 hage.2

theorem switchTo_history (s : Sched) (x : Address) : (s.switchTo x).exitHistory = s.exitHistory ∧
    (s.switchTo x).exitHistoryNext = s.exitHistoryNext := by
  unfold Sched.switchTo
  extract_lets prev s₁ s₂
  have hprev : s₁.exitHistory = s.exitHistory ∧ s₁.exitHistoryNext = s.exitHistoryNext := by
    simp only [s₁]
    split <;> exact ⟨rfl, rfl⟩
  split
  · split <;> exact ⟨rfl, rfl⟩
  · exact hprev

theorem Recorded.switchTo (h : Recorded s numbered ended) (hb : s.Base) {x : Address} (he : s.Eligible x) :
    Recorded (s.switchTo x) numbered ended := by
  by_cases hx : x = s.current
  · subst hx
    rw [(hb.switchTo_current he).1]
    exact h
  · have hcard : (s.switchTo x).card = s.card := by
      funext b
      rw [Sched.card, Sched.switchTo_memory hx, Sched.card, Option.map_map]
      refine Option.map_congr fun t ht => card_state ?_
      obtain ⟨u, hu, ⟨-, hready⟩ | ⟨hcur, -⟩⟩ := he
      · by_cases hbx : b = x
        · subst hbx
          obtain rfl := Option.some.inj (ht.symm.trans hu)
          simp [Sched.stateAfter, hready]
        · simp only [Sched.stateAfter, hbx, if_false]
          split
          · next hrun => simp [hrun.2]
          · exact Iff.rfl
      · exact absurd hcur hx
    obtain ⟨hhistory, hnext⟩ := switchTo_history s x
    refine h.keep ⟨hhistory, hnext, fun b hl => ?_, fun b k' hk => ?_, fun b k hk => ?_⟩
    · rwa [Sched.Listed, (Sched.switchTo_fields hx).1] at hl
    · exact ⟨k', by rw [← hcard, hk], rfl, rfl, .inl rfl⟩
    · exact ⟨k, by rw [hcard, hk], rfl⟩

/-! ## The life of a descriptor -/

theorem apart_ofNat : Apart 32 (Fin.ofNat 32) := fun i j hij hn heq => apart_mod 32 i j hij hn (congrArg Fin.val heq)

theorem ofNat_add (i : ℕ) : Fin.ofNat 32 (i + 32) = Fin.ofNat 32 i := by
  ext
  exact Nat.add_mod_right i 32

theorem ofNat_succ (i : ℕ) : Fin.ofNat 32 i + 1 = Fin.ofNat 32 (i + 1) := by
  ext
  simp [Fin.val_add]

theorem publishes_builds {p : Place} {b : Address} (h : p.publishes = some b) : p.builds = some b := by
  cases p <;> first | cases h; rfl | cases h

theorem unnumbered_builds {p : Place} {b : Address} (h : p.unnumbered = some b) : p.builds = some b := by
  cases p <;> first | cases h; rfl | cases h

/-- `thread_create` gets a block that is no descriptor yet. -/
theorem Recorded.born (h : Recorded s numbered ended) (hb : s.Base) (ha : s.memory a = none) :
    Recorded (s.setBlock a (some {})) numbered ended := by
  have hl : ¬s.Listed a := by
    intro hl
    obtain ⟨t, ht, -⟩ := hb.live a hl
    cases ha.symm.trans ht
  have hcard : ∀ x k, (s.setBlock a (some {})).card x = some k →
      s.card x = some k ∨ x = a ∧ k = ⟨0, .outside, none⟩ := by
    intro x k hx
    obtain ⟨t, ht, rfl⟩ := card_back hx
    rcases Sched.setBlock_back ht with ⟨-, ht⟩ | ⟨hxa, ht'⟩
    · exact .inl (card_some ht)
    · obtain rfl := Option.some.inj ht'
      exact .inr ⟨hxa, rfl⟩
  have hon : ∀ x k, s.card x = some k → (s.setBlock a (some {})).card x = some k := by
    intro x k hx
    have hne : x ≠ a := by
      rintro rfl
      simp [Sched.card, ha] at hx
    rwa [Sched.card, Sched.setBlock_memory_ne hne, ← Sched.card]
  refine ⟨h.kept, h.recent, h.next, h.once, h.drawn, fun x k hx => ?_, fun x y k l hx hy hsame hzero => ?_,
    fun x k hx code => ?_, fun x k hlx hboot hx => ?_, fun x k hx => ?_⟩
  · rcases hcard x k hx with hx | ⟨-, rfl⟩
    · exact h.known x k hx
    · exact .inl rfl
  · rcases hcard x k hx with hx | ⟨-, rfl⟩
    · rcases hcard y l hy with hy | ⟨-, rfl⟩
      · exact h.distinct x y k l hx hy hsame hzero
      · exact absurd hsame hzero
    · exact absurd rfl hzero
  · rcases hcard x k hx with hx | ⟨-, rfl⟩
    · exact h.exits x k hx code
    · exact ⟨fun hmem => absurd rfl (h.drawn _ hmem).1, fun hnone => by cases hnone⟩
  · rcases hcard x k hx with hx | ⟨rfl, -⟩
    · exact h.listed x k hlx hboot hx
    · exact absurd hlx hl
  · rcases hcard x k hx with hx₀ | ⟨-, rfl⟩
    · have hp := h.places x k hx₀
      refine ⟨fun b l hy hk => ?_, fun b l hn hk => ?_, fun tid b hc htid => ?_⟩
      · rcases hcard b l hk with hk | ⟨-, rfl⟩
        · exact hp.young b l hy hk
        · rfl
      · rcases hcard b l hk with hk | ⟨rfl, -⟩
        · exact hp.named b l hn hk
        · -- whoever is about to store a descriptor in the table has it in the heap
          obtain ⟨t, ht, rfl⟩ := card_back hx₀
          obtain ⟨u, hu, -⟩ := hb.built x t b ht (publishes_builds hn)
          cases ha.symm.trans hu
      · rcases hp.claimed tid b hc htid with ⟨l, hk, hsame⟩ | hended
        · exact .inl ⟨l, hon b l hk, hsame⟩
        · exact .inr hended
    · exact settled_of_empty rfl rfl rfl

/-- `thread_create` gives its thread a tid that nobody had. -/
theorem Recorded.number (h : Recorded s numbered ended) (hb : s.Base) {t : Thread} (ht : s.memory s.cpu = some t)
    {slot : ThreadSlot} {tid : Int32} (hp : t.place = .numbered slot a tid) (hzero : tid ≠ 0) (hfresh : tid ∉ numbered) :
    Recorded ((s.update a fun t => { t with tid := tid, state := .ready, detached := true }).goto (.publishing slot a))
      (tid :: numbered) ended := by
  have hbuilds : t.place.builds = some a := by
    rw [hp]
    rfl
  obtain ⟨u, hu, hready, -, houtside⟩ := hb.built _ t a ht hbuilds
  have hl : ¬s.Listed a := hb.unlisted _ t a ht (.inl hbuilds)
  have hcpu : s.cpu ≠ a := fun heq => hl (heq ▸ hb.executing ▸ hb.listed)
  let s₁ : Sched := s.update a fun t => { t with tid := tid, state := .ready, detached := true }
  have hnew : s₁.card a = some ⟨tid, .outside, none⟩ := by
    rw [card_some (Sched.update_memory hu), Thread.card, houtside]
    rfl
  have hother : ∀ x, x ≠ a → s₁.card x = s.card x := fun x hx => card_update_ne hx
  have hback : ∀ x k, (s₁.goto (.publishing slot a)).card x = some k →
      x = a ∧ k = ⟨tid, .outside, none⟩ ∨ x ≠ a ∧ ∃ l, s.card x = some l ∧ k.tid = l.tid ∧ k.exit = l.exit ∧
        (x ≠ s.cpu ∧ k.place = l.place ∨ x = s.cpu ∧ k.place = .publishing slot a) := by
    intro x k hx
    obtain ⟨l, hl, htid, hexit, hplace⟩ := card_goto_back hx
    by_cases hxa : x = a
    · subst hxa
      obtain rfl := Option.some.inj (hl.symm.trans hnew)
      rcases hplace with ⟨-, hplace⟩ | hplace
      · exact .inl ⟨rfl, Card.ext htid hplace hexit⟩
      · exact absurd hplace.1.symm hcpu
    · rw [hother x hxa] at hl
      exact .inr ⟨hxa, l, hl, htid, hexit, hplace⟩
  have hnobody : ∀ x k, s.card x = some k → k.tid ≠ tid := by
    rintro x k hx rfl
    rcases h.known x k hx with hnone | hknown
    · exact hzero hnone
    · exact hfresh hknown
  refine ⟨h.kept, h.recent, h.next, h.once, fun e he => ?_, fun x k hx => ?_, fun x y k l hx hy hsame hne => ?_,
    fun x k hx code => ?_, fun x k hlx hboot hx => ?_, fun x k hx => ?_⟩
  · exact ⟨(h.drawn e he).1, List.mem_cons_of_mem _ (h.drawn e he).2⟩
  · rcases hback x k hx with ⟨-, rfl⟩ | ⟨-, l, hx, htid, -⟩
    · exact .inr List.mem_cons_self
    · rw [htid]
      exact (h.known x l hx).imp_right (List.mem_cons_of_mem _)
  · rcases hback x k hx with ⟨hxa, rfl⟩ | ⟨-, k₀, hx₀, htid, -⟩
    · rcases hback y l hy with ⟨hya, -⟩ | ⟨-, l₀, hy₀, htid', -⟩
      · exact hxa.trans hya.symm
      · exact absurd (htid'.symm.trans hsame.symm) (hnobody y l₀ hy₀)
    · rcases hback y l hy with ⟨-, rfl⟩ | ⟨-, l₀, hy₀, htid', -⟩
      · exact absurd (htid.symm.trans hsame) (hnobody x k₀ hx₀)
      · exact h.distinct x y k₀ l₀ hx₀ hy₀ (htid.symm.trans (hsame.trans htid')) (htid ▸ hne)
  · rcases hback x k hx with ⟨-, rfl⟩ | ⟨-, l, hx, htid, hexit, -⟩
    · exact ⟨fun hmem => absurd (h.drawn _ hmem).2 hfresh, fun hnone => by cases hnone⟩
    · rw [htid, hexit]
      exact h.exits x l hx code
  · rcases hback x k hx with ⟨rfl, -⟩ | ⟨-, l, hx, htid, -⟩
    · exact absurd hlx hl
    · rw [htid]
      exact h.listed x l hlx hboot hx
  · have hcreator : Settled (s₁.goto (.publishing slot a)) ended (.publishing slot a) := by
      refine ⟨fun _ _ hy => by simp [Place.unnumbered] at hy, fun b k hn hk => ?_,
        fun _ _ hc => by simp [Place.claims] at hc⟩
      obtain rfl := Option.some.inj hn
      rcases hback a k hk with ⟨-, rfl⟩ | ⟨hne, -⟩
      · exact hzero
      · exact absurd rfl hne
    rcases hback x k hx with ⟨-, rfl⟩ | ⟨-, l, hx, -, -, ⟨hxc, hplace⟩ | ⟨-, hplace⟩⟩
    · exact settled_of_empty rfl rfl rfl
    · rw [hplace]
      obtain ⟨v, hv, rfl⟩ := card_back hx
      -- nobody else builds this thread
      have hbuild : v.card.place.builds ≠ some a := fun heq => hxc (hb.holder x _ v t a hv ht (.inl heq) (.inl hbuilds))
      have hp := h.places x v.card hx
      refine ⟨fun b k hy hk => ?_, fun b k hn hk => ?_, fun tid' b hc htid => ?_⟩
      · rcases hback b k hk with ⟨rfl, -⟩ | ⟨-, k₀, hk, htid, -⟩
        · exact absurd (unnumbered_builds hy) hbuild
        · exact htid.trans (hp.young b k₀ hy hk)
      · rcases hback b k hk with ⟨rfl, -⟩ | ⟨-, k₀, hk, htid, -⟩
        · exact absurd (publishes_builds hn) hbuild
        · rw [htid]
          exact hp.named b k₀ hn hk
      · rcases hp.claimed tid' b hc htid with ⟨k, hk, hsame⟩ | hended
        · -- a descriptor without a tid has not been found by anybody
          have hba : b ≠ a := by
            rintro rfl
            have hyoung := (h.places _ _ (card_some ht)).young b k (by rw [Thread.card, hp]; rfl) hk
            exact htid (hsame.symm.trans hyoung)
          rw [← hother b hba] at hk
          obtain ⟨k', hk', htid'⟩ := card_on (s := s₁) (a := s₁.cpu)
            (f := fun t => { t with place := .publishing slot a }) (fun _ _ => rfl) hk
          exact .inl ⟨k', hk', htid'.trans hsame⟩
        · exact .inr hended
    · rw [hplace]
      exact hcreator

/-- A thread with a tid ends; the ring keeps its exit code. -/
theorem Recorded.die (h : Recorded s numbered ended) {t : Thread} (ht : s.memory a = some t) (hzero : t.tid ≠ 0)
    (halive : t.state ≠ .zombie) (code : Int32) :
    Recorded ((s.update a fun t => { t with exitCode := code, state := .zombie }).rememberExit t.tid code) numbered
      (ended ++ [(t.tid, code)]) := by
  have hself : t.card = ⟨t.tid, t.place, none⟩ := by simp [Thread.card, halive]
  have hnot : ∀ c, (t.tid, c) ∉ ended := by
    intro c hmem
    have hexit := (h.exits a _ (card_some ht) c).mp hmem
    simp [hself] at hexit
  have hknown : t.tid ∈ numbered := by
    rcases h.known a _ (card_some ht) with hnone | hknown
    · exact absurd hnone hzero
    · exact hknown
  have hback : ∀ x k, (s.update a fun t => { t with exitCode := code, state := .zombie }).card x = some k →
      ∃ l, s.card x = some l ∧ k.tid = l.tid ∧ k.place = l.place ∧
        (x ≠ a ∧ k.exit = l.exit ∨ x = a ∧ k.exit = some code) := by
    intro x k hx
    obtain ⟨u, hu, rfl⟩ := card_back hx
    rcases Sched.update_back hu with ⟨hxa, hu⟩ | ⟨rfl, v, hv, rfl⟩
    · exact ⟨u.card, card_some hu, rfl, rfl, .inl ⟨hxa, rfl⟩⟩
    · exact ⟨v.card, card_some hv, rfl, rfl, .inr ⟨rfl, rfl⟩⟩
  have hcell := h.next
  refine ⟨?_, ?_, ?_, ?_, fun e he => ?_, fun x k hx => ?_, fun x y k l hx hy hsame hne => ?_, fun x k hx c => ?_,
    fun x k hl hboot hx => ?_, fun x k hx => ?_⟩
  · change Kept 32 (Fin.ofNat 32) (Function.update s.exitHistory s.exitHistoryNext (t.tid, code)) _
    rw [hcell]
    exact h.kept.push apart_ofNat (t.tid, code)
  · change Recent 32 (Fin.ofNat 32) (Function.update s.exitHistory s.exitHistoryNext (t.tid, code)) _ _
    rw [hcell]
    exact h.recent.push (by decide) ofNat_add (t.tid, code)
  · change s.exitHistoryNext + 1 = _
    rw [hcell, List.length_append, List.length_singleton]
    exact ofNat_succ _
  · rw [List.map_append, List.nodup_append]
    refine ⟨h.once, by simp, ?_⟩
    intro i hi j hj
    obtain rfl := List.mem_singleton.mp hj
    rintro rfl
    obtain ⟨e, he, hfst⟩ := List.mem_map.mp hi
    have htid : e.1 = t.tid := hfst
    exact hnot e.2 (htid ▸ he)
  · rcases List.mem_append.mp he with he | he
    · exact h.drawn e he
    · obtain rfl := List.mem_singleton.mp he
      exact ⟨hzero, hknown⟩
  · obtain ⟨l, hl, htid, -⟩ := hback x k hx
    rw [htid]
    exact h.known x l hl
  · obtain ⟨k₀, hx₀, htid, -⟩ := hback x k hx
    obtain ⟨l₀, hy₀, htid', -⟩ := hback y l hy
    exact h.distinct x y k₀ l₀ hx₀ hy₀ (htid.symm.trans (hsame.trans htid')) (htid ▸ hne)
  · obtain ⟨l, hl, htid, -, ⟨hxa, hexit⟩ | ⟨rfl, hexit⟩⟩ := hback x k hx
    · have hother : l.tid ≠ t.tid := fun heq => hxa (h.distinct x a l _ hl (card_some ht) heq (heq ▸ hzero))
      rw [htid, hexit, ← h.exits x l hl c]
      simp [hother]
    · obtain rfl := Option.some.inj (hl.symm.trans (card_some ht))
      rw [htid, hexit, Option.some.injEq, List.mem_append, List.mem_singleton]
      constructor
      · rintro (hmem | heq)
        · exact absurd hmem (hnot c)
        · exact (Prod.mk.inj heq).2.symm
      · rintro rfl
        exact .inr rfl
  · obtain ⟨l, hx₀, htid, -⟩ := hback x k hx
    rw [htid]
    exact h.listed x l hl hboot hx₀
  · obtain ⟨l, hx₀, -, hplace, -⟩ := hback x k hx
    have hp := h.places x l hx₀
    rw [hplace]
    refine ⟨fun b m hy hm => ?_, fun b m hn hm => ?_, fun tid b hc htid => ?_⟩
    · obtain ⟨m₀, hm₀, htid', -⟩ := hback b m hm
      exact htid'.trans (hp.young b m₀ hy hm₀)
    · obtain ⟨m₀, hm₀, htid', -⟩ := hback b m hm
      rw [htid']
      exact hp.named b m₀ hn hm₀
    · rcases hp.claimed tid b hc htid with ⟨m, hm, hsame⟩ | ⟨c, hended⟩
      · obtain ⟨m', hm', htid'⟩ := card_on (a := a) (f := fun t => { t with exitCode := code, state := .zombie })
          (fun _ _ => rfl) hm
        exact .inl ⟨m', hm', htid'.trans hsame⟩
      · exact .inr ⟨c, List.mem_append_left _ hended⟩

/-- The reaper frees the descriptor of a dead thread. -/
theorem Recorded.free (h : Recorded s numbered ended) {t : Thread} (ht : s.memory a = some t) (hdead : t.state = .zombie) :
    Recorded (s.setBlock a none) numbered ended := by
  have hback : ∀ x k, (s.setBlock a none).card x = some k → s.card x = some k := by
    intro x k hx
    obtain ⟨u, hu, rfl⟩ := card_back hx
    rcases Sched.setBlock_back hu with ⟨-, hu⟩ | ⟨-, hnone⟩
    · exact card_some hu
    · cases hnone
  refine ⟨h.kept, h.recent, h.next, h.once, h.drawn, fun x k hx => h.known x k (hback x k hx),
    fun x y k l hx hy => h.distinct x y k l (hback x k hx) (hback y l hy), fun x k hx => h.exits x k (hback x k hx),
    fun x k hl hboot hx => h.listed x k hl hboot (hback x k hx), fun x k hx => ?_⟩
  have hp := h.places x k (hback x k hx)
  refine ⟨fun b l hy hl => hp.young b l hy (hback b l hl), fun b l hn hl => hp.named b l hn (hback b l hl),
    fun tid b hc htid => ?_⟩
  rcases hp.claimed tid b hc htid with ⟨l, hl, hsame⟩ | hended
  · by_cases hba : b = a
    · subst hba
      obtain rfl := Option.some.inj (hl.symm.trans (card_some ht))
      refine .inr ⟨t.exitCode, ?_⟩
      rw [← hsame, h.exits _ _ hl]
      simp [Thread.card, hdead]
    · exact .inl ⟨l, by rwa [Sched.card, Sched.setBlock_memory_ne hba, ← Sched.card], hsame⟩
  · exact .inr hended

/-- A thread with a tid enters the table. -/
theorem Recorded.publish (h : Recorded s numbered ended) {slot : ThreadSlot}
    (ha : ∀ k, s.card a = some k → k.tid ≠ 0) : Recorded (s.setEntry slot (some a)) numbered ended := by
  refine ⟨h.kept, h.recent, h.next, h.once, h.drawn, h.known, h.distinct, h.exits, fun x k hl hboot hx => ?_,
    fun x k hx => ?_⟩
  · obtain ⟨j, hj⟩ := hl
    rcases Sched.setEntry_back hj with ⟨-, hj⟩ | ⟨-, hxa⟩
    · exact h.listed x k ⟨j, hj⟩ hboot hx
    · obtain rfl := Option.some.inj hxa
      exact ha k hx
  · obtain ⟨young, named, claimed⟩ := h.places x k hx
    exact ⟨young, named, claimed⟩

theorem Recorded.unlist (h : Recorded s numbered ended) (slot : ThreadSlot) :
    Recorded (s.setEntry slot none) numbered ended := by
  refine h.keep ⟨rfl, rfl, fun x hl => ?_, fun x k hx => ⟨k, hx, rfl, rfl, .inl rfl⟩, fun x k hx => ⟨k, hx, rfl⟩⟩
  obtain ⟨j, hj⟩ := hl
  rcases Sched.setEntry_back hj with ⟨-, hj⟩ | ⟨-, hnone⟩
  · exact ⟨j, hj⟩
  · cases hnone

end Recorded

/-! ## Steps -/

theorem findThread_some {s : Sched} {tid : Int32} {b : Address} (h : s.findThread tid = some b) :
    s.Listed b ∧ ∃ t, s.memory b = some t ∧ t.tid = tid := by
  obtain ⟨i, -, hi⟩ := List.exists_of_findSome?_eq_some h
  split at hi
  · next c hc =>
    split at hi
    · next hany =>
      obtain rfl := Option.some.inj hi
      obtain ⟨t, ht, htid⟩ := (Option.any_eq_true _ _).mp hany
      exact ⟨⟨i, hc⟩, t, ht, of_decide_eq_true htid⟩
    · cases hi
  · cases hi

theorem findThread_none {s : Sched} {tid : Int32} (h : s.findThread tid = none) {b : Address} {t : Thread}
    (hl : s.Listed b) (ht : s.memory b = some t) : t.tid ≠ tid := by
  rintro rfl
  obtain ⟨i, hi⟩ := hl
  have hskip := List.findSome?_eq_none_iff.mp h i (List.mem_finRange i)
  simp [hi, ht] at hskip

namespace Ledger

/-- The list of a state, after a step in which these threads get their tid and end. -/
def Records (r : Ledger) (a : Action) (s : Sched) : Prop :=
  Recorded s ((r.sched.numbers a).toList ++ r.numbered) (r.ended ++ (r.sched.ends a).toList)

section Steps
variable {r r' : Ledger} {a : Action} {s' : Sched} {switches : Bool}

theorem Records.of_quiet (hn : r.sched.numbers a = none) (he : r.sched.ends a = none)
    (h : Recorded s' r.numbered r.ended) : r.Records a s' := by
  rw [Records, hn, he]
  simpa using h

theorem records_enter (h : Recorded r.sched r.numbered r.ended) (hb : r.sched.Base) {t : Thread}
    (ht : r.sched.memory r.sched.cpu = some t) (hrun : t.state = .running) (c : Call) (hperm : r.sched.Permitted (.call c)) :
    r.Records (.call c) (r.sched.enter c).1 := by
  cases c with
  | create =>
    refine .of_quiet rfl rfl ?_
    simp only [Sched.enter]
    split
    · exact h.returns _
    · exact h.goto (settled_of_empty rfl rfl rfl)
  | yield => exact .of_quiet rfl rfl (h.congr rfl rfl rfl rfl)
  | sleep ms =>
    refine .of_quiet rfl rfl (h.keep (Keeps.update fun u hu => ?_))
    rw [← hb.executing] at hu
    obtain rfl := Option.some.inj (hu.symm.trans ht)
    simp [Thread.card, hrun]
  | exit code =>
    rw [hb.executing] at ht
    have hzero : t.tid ≠ 0 := h.listed _ t.card hb.listed hperm (card_some ht)
    have hdead := h.die ht hzero (by simp [hrun]) code
    simp only [Records, Sched.numbers, Sched.ends, Sched.enter, ht, Option.map_some, Option.getD_some]
    exact hdead.goto (settled_of_empty rfl rfl rfl)
  | join tid => exact .of_quiet rfl rfl (h.goto (settled_of_empty rfl rfl rfl))
  | kill tid =>
    simp only [Records, Sched.numbers, Sched.ends, Sched.enter]
    cases hk : r.sched.killTarget tid with
    | none => simpa using h.returns (-1)
    | some b =>
      obtain ⟨-, u, hu, rfl, hzero, halive⟩ := Sched.killTarget_some hk
      exact (h.die hu hzero halive (-1)).goto (settled_of_empty rfl rfl rfl)
  | reap => exact .of_quiet rfl rfl (h.goto (settled_of_empty rfl rfl rfl))

theorem records_resume (h : Recorded r.sched r.numbered r.ended) (hb : r.sched.Base) {t : Thread}
    (ht : r.sched.memory r.sched.cpu = some t) {block : Option Address} {stale : Option Int32}
    (hfresh : ∀ tid ∈ r.sched.numbers (.next block stale), tid ≠ 0 ∧ tid ∉ r.numbered)
    (hs : r.sched.resume block stale t.place = some (s', switches)) : r.Records (.next block stale) s' := by
  have hsettled := h.places _ _ (card_some ht)
  have hquiet : (∀ slot b tid, t.place ≠ .numbered slot b tid) → Recorded s' r.numbered r.ended →
      r.Records (.next block stale) s' := by
    intro hp
    refine .of_quiet ?_ rfl
    simp only [Sched.numbers, ht, Option.map_some]
    split
    · next slot b tid heq => exact absurd (Option.some.inj heq) (hp slot b tid)
    · rfl
  cases hp : t.place with
  | outside =>
    rw [hp] at hs
    cases hs
  | creating slot =>
    rw [hp] at hs
    apply hquiet (by simp [hp])
    simp only [Sched.resume] at hs
    split at hs
    · obtain ⟨rfl, rfl⟩ := Prod.mk.inj (Option.some.inj hs)
      exact h.returns _
    · next b =>
      split at hs
      · cases hs
      · next hnew =>
        obtain ⟨rfl, rfl⟩ := Prod.mk.inj (Option.some.inj hs)
        have hborn := h.born hb (a := b) (by simpa using hnew)
        refine hborn.goto ⟨fun c k hy hk => ?_, fun _ _ hn => by simp [Place.publishes] at hn,
          fun _ _ hc => by simp [Place.claims] at hc⟩
        obtain rfl := Option.some.inj hy
        rw [card_some (t := {}) (by simp [Sched.setBlock])] at hk
        obtain rfl := Option.some.inj hk
        rfl
  | numbering slot b =>
    rw [hp] at hs
    apply hquiet (by simp [hp])
    obtain ⟨rfl, rfl⟩ := Prod.mk.inj (Option.some.inj hs)
    refine h.goto ⟨fun c k hy hk => ?_, fun _ _ hn => by simp [Place.publishes] at hn,
      fun _ _ hc => by simp [Place.claims] at hc⟩
    exact hsettled.young c k (by rw [Thread.card, hp]; exact hy) hk
  | numbered slot b tid =>
    rw [hp] at hs
    obtain ⟨rfl, rfl⟩ := Prod.mk.inj (Option.some.inj hs)
    have hnumbers : r.sched.numbers (.next block stale) = some tid := by simp [Sched.numbers, ht, hp]
    obtain ⟨hzero, hnew⟩ := hfresh tid hnumbers
    have hbase : (r.sched.setNextTid (tid + 1)).Base := hb.congr rfl rfl rfl rfl
    have hrec : Recorded (r.sched.setNextTid (tid + 1)) r.numbered r.ended := h.congr rfl rfl rfl rfl
    rw [Records, hnumbers, show r.sched.ends (.next block stale) = none from rfl]
    simpa using hrec.number hbase ht hp hzero hnew
  | publishing slot b =>
    rw [hp] at hs
    apply hquiet (by simp [hp])
    obtain ⟨rfl, rfl⟩ := Prod.mk.inj (Option.some.inj hs)
    apply Recorded.returns
    apply h.publish
    intro k hk
    exact hsettled.named b k (by rw [Thread.card, hp]; rfl) hk
  | joining tid =>
    rw [hp] at hs
    apply hquiet (by simp [hp])
    simp only [Sched.resume] at hs
    split at hs
    · obtain ⟨rfl, rfl⟩ := Prod.mk.inj (Option.some.inj hs)
      exact h.returns _
    · next b hfind =>
      obtain ⟨rfl, rfl⟩ := Prod.mk.inj (Option.some.inj hs)
      obtain ⟨-, u, hu, htid⟩ := findThread_some hfind
      refine h.goto ⟨fun _ _ hy => by simp [Place.unnumbered] at hy, fun _ _ hn => by simp [Place.publishes] at hn,
        fun tid' c hc _ => ?_⟩
      obtain ⟨rfl, rfl⟩ := Prod.mk.inj (Option.some.inj hc)
      exact .inl ⟨u.card, card_some hu, htid⟩
  | claiming tid b =>
    rw [hp] at hs
    apply hquiet (by simp [hp])
    have hclaim : ∀ detached, Recorded (r.sched.update b fun t => { t with detached := detached }) r.numbered r.ended :=
      fun _ => h.keep (Keeps.update fun _ _ => ⟨rfl, rfl, .inl rfl⟩)
    simp only [Sched.resume] at hs
    split at hs
    · split at hs
      · obtain ⟨rfl, rfl⟩ := Prod.mk.inj (Option.some.inj hs)
        exact (hclaim true).returns _
      · obtain ⟨rfl, rfl⟩ := Prod.mk.inj (Option.some.inj hs)
        exact (hclaim false).goto (settled_of_empty rfl rfl rfl)
    · split at hs
      · obtain ⟨rfl, rfl⟩ := Prod.mk.inj (Option.some.inj hs)
        exact h.returns _
      · obtain ⟨rfl, rfl⟩ := Prod.mk.inj (Option.some.inj hs)
        exact h.goto (settled_of_empty rfl rfl rfl)
  | rejoining tid =>
    rw [hp] at hs
    apply hquiet (by simp [hp])
    obtain ⟨rfl, rfl⟩ := Prod.mk.inj (Option.some.inj hs)
    have hclear : Recorded r.sched.clearResched r.numbered r.ended := h.congr rfl rfl rfl rfl
    exact hclear.goto (settled_of_empty rfl rfl rfl)
  | killed tid =>
    rw [hp] at hs
    apply hquiet (by simp [hp])
    have hclear : Recorded r.sched.clearResched r.numbered r.ended := h.congr rfl rfl rfl rfl
    simp only [Sched.resume] at hs
    split at hs
    · obtain ⟨rfl, rfl⟩ := Prod.mk.inj (Option.some.inj hs)
      exact hclear.returns 0
    · obtain ⟨rfl, rfl⟩ := Prod.mk.inj (Option.some.inj hs)
      exact h.returns 0
  | reaping i =>
    rw [hp] at hs
    apply hquiet (by simp [hp])
    simp only [Sched.resume] at hs
    split at hs
    · obtain ⟨rfl, rfl⟩ := Prod.mk.inj (Option.some.inj hs)
      exact h.returns 0
    · obtain ⟨rfl, rfl⟩ := Prod.mk.inj (Option.some.inj hs)
      exact (h.unlist _).goto (settled_of_empty rfl rfl rfl)
  | freeing i b =>
    rw [hp] at hs
    apply hquiet (by simp [hp])
    obtain ⟨rfl, rfl⟩ := Prod.mk.inj (Option.some.inj hs)
    have hstack : Recorded (r.sched.update b fun t => { t with stackFreed := true }) r.numbered r.ended :=
      h.keep (Keeps.update fun _ _ => ⟨rfl, rfl, .inl rfl⟩)
    exact hstack.goto (settled_of_empty rfl rfl rfl)
  | unstacked i b =>
    rw [hp] at hs
    apply hquiet (by simp [hp])
    obtain ⟨rfl, rfl⟩ := Prod.mk.inj (Option.some.inj hs)
    obtain ⟨u, hu, hdead⟩ := hb.buried _ t b ht (by rw [hp]; rfl)
    exact (h.free hu hdead).goto (settled_of_empty rfl rfl rfl)
  | exited =>
    rw [hp] at hs
    cases hs

theorem records_prelude (h : Recorded r.sched r.numbered r.ended) (hb : r.sched.Base) (hg : r.sched.Goes)
    (hperm : r.sched.Permitted a) (hfresh : ∀ tid ∈ r.sched.numbers a, tid ≠ 0 ∧ tid ∉ r.numbered)
    (hs : r.sched.prelude a = some (s', switches)) : r.Records a s' := by
  cases a with
  | tick =>
    obtain ⟨rfl, rfl⟩ := Prod.mk.inj (Option.some.inj hs)
    exact .of_quiet rfl rfl h.schedTick
  | preempt =>
    simp only [Sched.prelude] at hs
    split at hs
    · obtain ⟨rfl, rfl⟩ := Prod.mk.inj (Option.some.inj hs)
      exact .of_quiet rfl rfl (h.congr rfl rfl rfl rfl)
    · obtain ⟨rfl, rfl⟩ := Prod.mk.inj (Option.some.inj hs)
      exact .of_quiet rfl rfl h
  | call c =>
    simp only [Sched.prelude] at hs
    split at hs
    · next t ht =>
      split at hs
      · next hp =>
        obtain ⟨rfl, rfl⟩ := Prod.mk.inj (Option.some.inj hs)
        rcases hg t (hb.executing ▸ ht) with hrun | ⟨-, hplace⟩
        · exact records_enter h hb ht hrun c hperm
        · cases hp.symm.trans hplace
      · cases hs
    · cases hs
  | next block stale =>
    simp only [Sched.prelude] at hs
    split at hs
    · next t ht => exact records_resume h hb ht hfresh hs
    · cases hs

theorem Records.switchTo (h : r.Records a s') (hb : s'.Base) {x : Address} (he : s'.Eligible x) :
    r.Records a (s'.switchTo x) := Recorded.switchTo h hb he

theorem step_some (h : r.step a = some r') : r.sched.step a = some r'.sched ∧
    r'.numbered = (r.sched.numbers a).toList ++ r.numbered ∧ r'.ended = r.ended ++ (r.sched.ends a).toList := by
  obtain ⟨s, hs, rfl⟩ := Option.map_eq_some_iff.mp h
  exact ⟨hs, rfl, rfl⟩

/-- One step, with the switch at its end if it makes one. -/
theorem recorded_step (h : Recorded r.sched r.numbered r.ended) (hb : r.sched.Base) (hg : r.sched.Goes)
    (hperm : r.sched.Permitted a) (hfresh : ∀ tid ∈ r.sched.numbers a, tid ≠ 0 ∧ tid ∉ r.numbered)
    (hs : r.step a = some r') : Recorded r'.sched r'.numbered r'.ended := by
  obtain ⟨hstep, hnumbered, hended⟩ := step_some hs
  rw [hnumbered, hended]
  unfold Sched.step at hstep
  split at hstep
  · cases hstep
  · next hpre =>
    obtain rfl := Option.some.inj hstep
    exact records_prelude h hb hg hperm hfresh hpre
  · next s₁ hpre =>
    have hout := hb.prelude hg hperm hpre
    obtain ⟨x, hx, he⟩ := hout.base.pickNext
    rw [hx, Option.map_some] at hstep
    rw [← Option.some.inj hstep]
    exact (records_prelude h hb hg hperm hfresh hpre).switchTo hout.base he

end Steps

end Ledger

/-! ## What a join returns -/

theorem start_recorded (ticks frequency : UInt64) : Recorded (start ticks frequency) [] [] := by
  have honly : ∀ {x k}, (start ticks frequency).card x = some k → x = boot ∧ k = ⟨0, .outside, none⟩ := by
    intro x k hx
    obtain ⟨t, ht, rfl⟩ := card_back hx
    by_cases hboot : x = boot
    · subst hboot
      simp only [start, Function.update_self] at ht
      obtain rfl := Option.some.inj ht
      exact ⟨rfl, rfl⟩
    · simp [start, hboot] at ht
  refine ⟨.nil 32 _ _, .blank 32 _ _, rfl, List.nodup_nil, by simp, fun x k hx => .inl ?_, fun x y k l hx hy _ _ => ?_,
    fun x k hx code => ?_, fun x k _ hboot hx => ?_, fun x k hx => ?_⟩
  · rw [(honly hx).2]
  · rw [(honly hx).1, (honly hy).1]
  · rw [(honly hx).2]
    simp
  · exact absurd (honly hx).1 hboot
  · rw [(honly hx).2]
    exact settled_of_empty rfl rfl rfl

section Joins
variable {r : Ledger} {s : Sched} {a : Action} {tid value code : Int32}

theorem returns_result {t t' : Thread} (ht : s.memory s.cpu = some t) (ht' : (s.returns value).memory s.cpu = some t') :
    t'.result = value := by
  rw [Sched.returns, Sched.update_memory ht] at ht'
  rw [← Option.some.inj ht']

theorem goto_place {t t' : Thread} {p : Place} (ht : s.memory s.cpu = some t)
    (ht' : (s.goto p).memory s.cpu = some t') : t'.place = p := by
  rw [Sched.goto, Sched.update_memory ht] at ht'
  rw [← Option.some.inj ht']

/-- The two ways in which a join returns. -/
theorem joinReturns_cases (h : s.JoinReturns a tid value) : ∃ block stale t, a = .next block stale ∧
    s.memory s.cpu = some t ∧ (t.place = .joining tid ∧ s.findThread tid = none ∧ value = s.recallExit tid ∨
      ∃ b, t.place = .claiming tid b ∧ ((∃ u, s.memory b = some u ∧ u.state = .zombie ∧ value = u.exitCode) ∨
        s.memory b = none ∧ stale = some value)) := by
  obtain ⟨block, stale, t, s', t', rfl, ht, hjoins, hs, ht', hout, rfl⟩ := h
  refine ⟨block, stale, t, rfl, ht, ?_⟩
  simp only [Sched.step, Sched.prelude, ht] at hs
  cases hp : t.place with
  | joining tid' =>
    rw [hp] at hs hjoins
    obtain rfl := Option.some.inj hjoins
    cases hfind : s.findThread tid' with
    | none =>
      simp only [Sched.resume, hfind, Option.some.injEq] at hs
      subst hs
      exact .inl ⟨rfl, rfl, returns_result ht ht'⟩
    | some b =>
      simp only [Sched.resume, hfind, Option.some.injEq] at hs
      subst hs
      exact absurd hout (by simp [goto_place ht ht'])
  | claiming tid' b =>
    rw [hp] at hs hjoins
    obtain rfl := Option.some.inj hjoins
    refine .inr ⟨b, rfl, ?_⟩
    cases hb : s.memory b with
    | some u =>
      have hcpu : ∀ detached, ∃ v, (s.update b fun t => { t with detached := detached }).memory s.cpu = some v := by
        intro detached
        by_cases hsame : s.cpu = b
        · subst hsame
          exact ⟨_, Sched.update_memory hb⟩
        · exact ⟨t, by rwa [Sched.update_memory_ne hsame]⟩
      by_cases hdead : u.state = .zombie
      · simp only [Sched.resume, hb, hdead, if_true, Option.some.injEq] at hs
        subst hs
        obtain ⟨v, hv⟩ := hcpu true
        exact .inl ⟨u, rfl, hdead, returns_result hv ht'⟩
      · simp only [Sched.resume, hb, hdead, if_false, Option.some.injEq] at hs
        subst hs
        obtain ⟨v, hv⟩ := hcpu false
        exact absurd hout (by simp [goto_place hv ht'])
    | none =>
      cases stale with
      | some code =>
        simp only [Sched.resume, hb, Option.some.injEq] at hs
        subst hs
        exact .inr ⟨rfl, congrArg some (returns_result ht ht').symm⟩
      | none =>
        simp only [Sched.resume, hb, Option.some.injEq] at hs
        subst hs
        exact absurd hout (by simp [goto_place ht ht'])
  | _ => simp [hp, Place.joins] at hjoins

theorem Recorded.code_unique {numbered : List Int32} {ended : List (Int32 × Int32)} (h : Recorded s numbered ended)
    {code' : Int32} (hc : (tid, code) ∈ ended) (hc' : (tid, code') ∈ ended) : code = code' :=
  (Prod.mk.inj (List.inj_on_of_nodup_map h.once hc hc' rfl)).2

/-- The ring has the exit code as long as fewer than 32 threads have ended since. -/
theorem Recorded.recallExit {numbered : List Int32} {ended : List (Int32 × Int32)} (h : Recorded s numbered ended)
    (hc : (tid, code) ∈ ended) :
    s.recallExit tid = if (tid, code) ∈ ended.drop (ended.length - 32) then code else 0 := by
  unfold Sched.recallExit
  split
  · next i hi =>
    have htid : (s.exitHistory i).1 = tid := by simpa using List.find?_some hi
    rcases h.recent.mem i with hblank | hmem
    · rw [hblank] at htid
      exact absurd htid.symm (h.drawn _ hc).1
    · have hsame : s.exitHistory i = (tid, code) := by
        have hended : (tid, (s.exitHistory i).2) ∈ ended := by
          rw [← htid]
          exact List.mem_of_mem_drop hmem
        rw [h.code_unique hc hended, ← htid]
      rw [hsame] at hmem ⊢
      rw [if_pos hmem]
  · next hnone =>
    rw [if_neg]
    intro hmem
    obtain ⟨i, hi⟩ := h.kept.mem hmem
    have hskip := List.find?_eq_none.mp hnone i (List.mem_finRange i)
    simp [hi] at hskip

/-- A join that reads the exit code where it is remembered returns it, and no join returns for a living thread of
the table. -/
theorem Recorded.join (h : Recorded r.sched r.numbered r.ended) (hj : r.sched.JoinReturns a tid value) :
    (∀ x t, r.sched.Listed x → r.sched.memory x = some t → t.tid = tid → tid ≠ 0 → t.state = .zombie) ∧
      ∀ code, (tid, code) ∈ r.ended → (r.Remembers a tid code → value = code) ∧
        ((r.sched.memory r.sched.cpu).map Thread.place = some (.joining tid) → value = code → r.Remembers a tid code) := by
  obtain ⟨block, stale, t, rfl, ht, ⟨hp, hfind, rfl⟩ | ⟨b, hp, hread⟩⟩ := joinReturns_cases hj
  · refine ⟨fun x u hl hu htid _ => absurd htid (findThread_none hfind hl hu), fun code hc => ?_⟩
    rw [h.recallExit hc]
    simp only [Ledger.Remembers, ht, Option.map_some, hp]
    split
    · next hmem => simp [hmem]
    · next hmem => simp [hmem, eq_comm]
  · have hclaim := (h.places _ _ (card_some ht)).claimed tid b (by rw [Thread.card, hp]; rfl)
    have hdone : ∀ u, r.sched.memory b = some u → u.state = .zombie → (u.tid, u.exitCode) ∈ r.ended := by
      intro u hu hdead
      exact (h.exits b _ (card_some hu) _).mpr (by simp [Thread.card, hdead])
    refine ⟨fun x u hl hu htid hzero => ?_, fun code hc => ⟨?_, ?_⟩⟩
    · by_contra halive
      have hnot : ∀ c, (tid, c) ∉ r.ended := by
        rintro c hmem
        rw [← htid] at hmem
        have hexit := (h.exits x _ (card_some hu) c).mp hmem
        simp [Thread.card, halive] at hexit
      rcases hclaim hzero with ⟨k, hk, hsame⟩ | ⟨c, hmem⟩
      · obtain ⟨v, hv, rfl⟩ := card_back hk
        rcases hread with ⟨w, hw, hdead, -⟩ | ⟨hnone, -⟩
        · obtain rfl := Option.some.inj (hv.symm.trans hw)
          have htid' : v.tid = tid := hsame
          exact hnot _ (htid' ▸ hdone v hv hdead)
        · cases hnone.symm.trans hv
      · exact hnot c hmem
    · simp only [Ledger.Remembers, ht, Option.map_some, hp]
      rintro ⟨v, hv, rfl⟩
      rcases hread with ⟨u, hu, hdead, rfl⟩ | ⟨hnone, -⟩
      · obtain rfl := Option.some.inj (hv.symm.trans hu)
        exact h.code_unique (hdone v hv hdead) hc
      · cases hnone.symm.trans hv
    · intro hplace
      simp [ht, hp] at hplace

end Joins

theorem reachable_recorded {ticks frequency : UInt64} {r : Ledger}
    (h : Reachable (· = ⟨start ticks frequency, [], []⟩) Ledger.FreshStep r) :
    r.sched.Base ∧ r.sched.Goes ∧ Recorded r.sched r.numbered r.ended := by
  induction h with
  | start h =>
    subst h
    obtain ⟨hbase, hgoes⟩ := start_base ticks frequency
    exact ⟨hbase, hgoes, start_recorded ticks frequency⟩
  | next _ hs ih =>
    obtain ⟨a, hperm, hfresh, hs⟩ := hs
    obtain ⟨hbase, hgoes, hrec⟩ := ih
    obtain ⟨hbase', hgoes', -⟩ := hbase.step hgoes hperm (Ledger.step_some hs).1
    exact ⟨hbase', hgoes', Ledger.recorded_step hrec hbase hgoes hperm hfresh hs⟩

/-- Over every run that hands out no tid twice: a join of a thread that has ended returns its exit code if that is
still where the join reads it, and only then if it has found no descriptor; and no join returns for a thread of the
table that lives. -/
theorem join_returns_exit_code (ticks frequency : UInt64) {r : Ledger}
    (h : Reachable (· = ⟨start ticks frequency, [], []⟩) Ledger.FreshStep r) {a : Action} {tid value : Int32}
    (hj : r.sched.JoinReturns a tid value) :
    (∀ x t, r.sched.Listed x → r.sched.memory x = some t → t.tid = tid → tid ≠ 0 → t.state = .zombie) ∧
      ∀ code, (tid, code) ∈ r.ended → (r.Remembers a tid code → value = code) ∧
        ((r.sched.memory r.sched.cpu).map Thread.place = some (.joining tid) → value = code → r.Remembers a tid code) :=
  (reachable_recorded h).2.2.join hj

instance (r : Ledger) (a : Action) : Decidable (∀ tid ∈ r.sched.numbers a, tid ≠ 0 ∧ tid ∉ r.numbered) := Option.decidableForallMem _

/-- A step of such a run, as a function. -/
def Ledger.freshStep (r : Ledger) (a : Action) : Option Ledger :=
  if r.sched.Permitted a ∧ ∀ tid ∈ r.sched.numbers a, tid ≠ 0 ∧ tid ∉ r.numbered then r.step a else none

theorem Ledger.freshStep_some {r r' : Ledger} {a : Action} (h : r.freshStep a = some r') : r.FreshStep r' := by
  unfold Ledger.freshStep at h
  split at h
  · next hc => exact ⟨a, hc.1, hc.2, h⟩
  · cases h

/-- What the current thread has, after this step, returned. -/
def Sched.answer (s : Sched) (a : Action) : Option (Option Place × Option (Place × Int32)) :=
  (s.step a).map fun s' => ((s.memory s.cpu).map Thread.place, (s'.memory s.cpu).map fun t => (t.place, t.result))

theorem Sched.joinReturns_of_answer {s : Sched} {block : Option Address} {stale : Option Int32} {p : Place}
    {tid value : Int32} (hp : p.joins = some tid)
    (h : s.answer (.next block stale) = some (some p, some (.outside, value))) :
    s.JoinReturns (.next block stale) tid value := by
  obtain ⟨s', hs, hanswer⟩ := Option.map_eq_some_iff.mp h
  obtain ⟨hplace, hresult⟩ := Prod.mk.inj hanswer
  obtain ⟨t, ht, rfl⟩ := Option.map_eq_some_iff.mp hplace
  obtain ⟨t', ht', hout⟩ := Option.map_eq_some_iff.mp hresult
  obtain ⟨hout, hvalue⟩ := Prod.mk.inj hout
  exact ⟨block, stale, t, s', t', rfl, ht, hp, hs, ht', hout, hvalue⟩

/-- Thread 1 exits with 7 and is reaped; thread 0 joins it. -/
def reapedJoin : List Action :=
  [.call .create, .next (some 1) none, .next none none, .next none none, .next none none, .call .yield,
    .call (.exit 7), .call .reap, .next none none, .next none none, .next none none, .next none none, .call (.join 1)]

theorem join_returns_exit_code_reaped : ∃ r : Ledger, r.sched.JoinReturns (.next none none) 1 7 ∧ (1, 7) ∈ r.ended ∧
    r.Remembers (.next none none) 1 7 := by
  have he : (follow Ledger.freshStep ⟨start 0 100, [], []⟩ reapedJoin).map
      (fun r => (r.ended, r.sched.answer (.next none none))) =
      some ([(1, 7)], some (some (.joining 1), some (.outside, 7))) := by
    decide
  obtain ⟨r, hr, hfacts⟩ := Option.map_eq_some_iff.mp he
  obtain ⟨hended, hanswer⟩ := Prod.mk.inj hfacts
  obtain ⟨s', -, hplaces⟩ := Option.map_eq_some_iff.mp hanswer
  have hjoin : r.sched.JoinReturns (.next none none) 1 7 := Sched.joinReturns_of_answer rfl hanswer
  have hmem : ((1, 7) : Int32 × Int32) ∈ r.ended := by simp [hended]
  have hreach : Reachable (· = ⟨start 0 100, [], []⟩) Ledger.FreshStep r :=
    Reachable.follow (f := Ledger.freshStep) (fun _ _ _ => Ledger.freshStep_some) (.start rfl) hr
  exact ⟨r, hjoin, hmem, ((join_returns_exit_code 0 100 hreach hjoin).2 7 hmem).2 (congrArg Prod.fst hplaces) rfl⟩

/-- Thread 1 has found thread 2 when its slice runs out. Thread 2 exits with 7 and is reaped, and thread 0
creates thread 3 in the same block and kills it. -/
def reusedBlock : List Action :=
  [.call .create, .next (some 1) none, .next none none, .next none none, .next none none,
    .call .create, .next (some 2) none, .next none none, .next none none, .next none none, .call .yield,
    .tick, .tick, .tick, .tick, .call (.join 2), .next none none, .tick, .preempt,
    .call (.exit 7), .call .reap, .next none none, .next none none, .next none none, .next none none,
    .call .create, .next (some 2) none, .next none none, .next none none, .next none none,
    .call (.kill 3), .next none none, .call .yield]

set_option maxRecDepth 4000 in
/-- The join of thread 2 returns the exit code of thread 3. -/
theorem join_returns_another : ∃ r : Ledger, Reachable (· = ⟨start 0 100, [], []⟩) Ledger.FreshStep r ∧
    r.sched.JoinReturns (.next none none) 2 (-1) ∧ (2, 7) ∈ r.ended := by
  have he : (follow Ledger.freshStep ⟨start 0 100, [], []⟩ reusedBlock).map
      (fun r => (r.ended, r.sched.answer (.next none none))) =
      some ([(2, 7), (3, -1)], some (some (.claiming 2 2), some (.outside, -1))) := by
    decide
  obtain ⟨r, hr, hfacts⟩ := Option.map_eq_some_iff.mp he
  obtain ⟨hended, hanswer⟩ := Prod.mk.inj hfacts
  exact ⟨r, Reachable.follow (f := Ledger.freshStep) (fun _ _ _ => Ledger.freshStep_some) (.start rfl) hr,
    Sched.joinReturns_of_answer rfl hanswer, by simp [hended]⟩

end SifarOS.Scheduler
