import SifarOS.SchedulerSafety

/-! # Threads from their creation to their end

`thread_create` looks for an empty entry of the table in one section and stores the new descriptor
in a later one. Beside the scheduler a run keeps what the calls of `thread_create` have returned: the
threads that have not ended yet, each with the entry it was given. -/
namespace SifarOS.Scheduler
open ProcessTable ReachableStates

namespace Sched

/-- The thread at this address has not ended. -/
def lives (s : Sched) (a : Address) : Bool := (s.memory a).any fun t => t.state ≠ .zombie

/-- The entry and the descriptor of the `thread_create` whose last section comes next. -/
def publishes (s : Sched) : Action → Option (ThreadSlot × Address)
  | .next _ _ =>
    match (s.memory s.cpu).map Thread.place with
    | some (.publishing slot a) => some (slot, a)
    | _ => none
  | _ => none

end Sched

/-- A thread that a call of `thread_create` returned, and the entry it went to. -/
structure Created where
  thread : Address
  slot : ThreadSlot
  tid : Int32
  deriving DecidableEq, Repr

/-- The scheduler, and the created threads that have not ended. -/
structure Run where
  sched : Sched
  created : List Created

/-- What `thread_create` returns in this step. -/
def Sched.returned (s : Sched) (a : Action) : List Created :=
  match s.publishes a with
  | some (slot, x) => [⟨x, slot, ((s.memory x).map Thread.tid).getD 0⟩]
  | none => []

def Run.step (r : Run) (a : Action) : Option Run :=
  (r.sched.step a).map fun s =>
    { sched := s
      created := (r.sched.returned a ++ r.created).filter fun c => s.lives c.thread }

/-- Every created thread that has not ended is in the table under its entry and its tid, and no other
such thread has that entry. -/
structure Run.Kept (r : Run) : Prop where
  entry : ∀ c ∈ r.created, r.sched.threads c.slot = some c.thread
  tid : ∀ c ∈ r.created, ∃ t, r.sched.memory c.thread = some t ∧ t.tid = c.tid
  alone : ∀ c ∈ r.created, ∀ d ∈ r.created, c.slot = d.slot → c = d

theorem Run.Kept.of_entries {r : Run} (entry : ∀ c ∈ r.created, r.sched.threads c.slot = some c.thread)
    (tid : ∀ c ∈ r.created, ∃ t, r.sched.memory c.thread = some t ∧ t.tid = c.tid) : r.Kept := by
  refine ⟨entry, tid, fun c hc d hd hslot => ?_⟩
  obtain ⟨t, ht, htid⟩ := tid c hc
  obtain ⟨u, hu, hutid⟩ := tid d hd
  have hthread : c.thread = d.thread := Option.some.inj ((entry c hc).symm.trans (hslot ▸ entry d hd))
  have hsame : t = u := Option.some.inj (ht.symm.trans (hthread ▸ hu))
  cases c
  cases d
  simp_all

/-! ## What a step does to the table -/

namespace Sched

/-- The table stays as it is, and so do the tids of its threads. -/
structure Carries (s s' : Sched) : Prop where
  threads : s'.threads = s.threads
  tid : ∀ x t, s.Listed x → s.memory x = some t → ∃ t', s'.memory x = some t' ∧ t'.tid = t.tid

section Carries
variable {s s' s'' : Sched} {a : Address}

theorem Carries.of_memory (ht : s'.threads = s.threads) (hm : s'.memory = s.memory) : s.Carries s' :=
  ⟨ht, fun _ t _ hx => ⟨t, by rw [hm, hx], rfl⟩⟩

theorem Carries.trans (h : s.Carries s') (h' : s'.Carries s'') : s.Carries s'' := by
  refine ⟨h'.threads.trans h.threads, fun x t hl ht => ?_⟩
  obtain ⟨t', ht', htid⟩ := h.tid x t hl ht
  obtain ⟨t'', ht'', htid'⟩ := h'.tid x t' (by rwa [Listed, h.threads]) ht'
  exact ⟨t'', ht'', htid'.trans htid⟩

theorem Carries.update {f : Thread → Thread} (hf : ∀ t, s.Listed a → (f t).tid = t.tid) : s.Carries (s.update a f) := by
  refine ⟨rfl, fun x t hl ht => ?_⟩
  by_cases hx : x = a
  · subst hx
    exact ⟨f t, update_memory ht, hf t hl⟩
  · exact ⟨t, by rwa [update_memory_ne hx], rfl⟩

theorem Carries.goto (h : s.Carries s') (p : Place) : s.Carries (s'.goto p) :=
  h.trans (Carries.update fun _ _ => rfl)

theorem Carries.returns (h : s.Carries s') (value : Int32) : s.Carries (s'.returns value) :=
  h.trans (Carries.update fun _ _ => rfl)

theorem Carries.rememberExit (h : s.Carries s') (tid code : Int32) : s.Carries (s'.rememberExit tid code) :=
  h.trans (.of_memory rfl rfl)

theorem Carries.refl (s : Sched) : s.Carries s := .of_memory rfl rfl

/-- The block at `a` changes hands while no entry points to it. -/
theorem Carries.setBlock {t : Option Thread} (h : ¬s.Listed a) : s.Carries (s.setBlock a t) := by
  refine ⟨rfl, fun x u hl hu => ⟨u, ?_, rfl⟩⟩
  have hx : x ≠ a := by
    rintro rfl
    exact h hl
  rwa [setBlock_memory_ne hx]

theorem Carries.setState (s : Sched) (a : Address) (state : ThreadState) : s.Carries (s.setState a state) :=
  Carries.update fun _ _ => rfl

theorem Carries.switchTo (s : Sched) (x : Address) : s.Carries (s.switchTo x) := by
  unfold Sched.switchTo
  extract_lets prev s₁ s₂
  have hprev : s.Carries s₁ := by
    simp only [s₁]
    split
    · apply Carries.setState
    · exact .of_memory rfl rfl
  split
  · split
    · apply Carries.setState
    · exact .of_memory rfl rfl
  · exact (hprev.trans (Carries.setState s₁ x .running)).trans (.of_memory rfl rfl)

theorem Carries.wake (s : Sched) : s.Carries s.wake := by
  unfold Sched.wake
  generalize List.finRange 32 = slots
  induction slots generalizing s with
  | nil => exact .of_memory rfl rfl
  | cons i rest ih =>
    rw [List.foldl_cons]
    refine Carries.trans ?_ (ih _)
    split
    · apply Carries.update
      intro t _
      split <;> rfl
    · exact .of_memory rfl rfl

theorem Carries.schedTick (s : Sched) : s.Carries s.schedTick := by
  let s₁ : Sched := { s with ticks := s.ticks + 1 }
  let s₂ : Sched := s₁.update s.current fun t => { t with cpuTicks := t.cpuTicks + 1 }
  have hticks : s.Carries s₁ := .of_memory rfl rfl
  have hcpu : s₁.Carries s₂ := Carries.update fun _ _ => rfl
  have hage : s₂.wake.Carries s₂.wake.age := .of_memory (age_fields _).2.1 (age_fields _).1
  exact (hticks.trans hcpu).trans ((Carries.wake s₂).trans hage)

end Carries

/-- The three things that can become of the table. -/
inductive Change (s : Sched) (a : Action) (s' : Sched) : Prop
  | same (hp : s.publishes a = none) (h : s.Carries s')
  | publish (slot : ThreadSlot) (x : Address) (hp : s.publishes a = some (slot, x))
      (h : s' = (s.setEntry slot (some x)).returns (((s.memory x).map Thread.tid).getD 0))
  | reap (j : ThreadSlot) (b : Address) (hp : s.publishes a = none) (hj : s.threads j = some b)
      (hb : s.lives b = false) (h : (s.setEntry j none).Carries s')

section Change
variable {s s' : Sched} {a : Action}

theorem Change.enter (s : Sched) (c : Call) : s.Change (.call c) (s.enter c).1 := by
  refine .same rfl ?_
  cases c with
  | create =>
    simp only [Sched.enter]
    split
    · exact (Carries.refl s).returns _
    · exact (Carries.refl s).goto _
  | yield => exact .of_memory rfl rfl
  | sleep ms => exact Carries.update (by simp)
  | exit code =>
    have hdead : s.Carries (s.update s.current fun t => { t with exitCode := code, state := .zombie }) :=
      Carries.update (by simp)
    exact (hdead.rememberExit _ _).goto .exited
  | join tid => exact (Carries.refl s).goto _
  | kill tid =>
    simp only [Sched.enter]
    split
    · exact (Carries.refl s).returns _
    · next b _ =>
      have hdead : s.Carries (s.update b fun t => { t with state := .zombie, exitCode := -1 }) :=
        Carries.update (by simp)
      exact (hdead.rememberExit _ _).goto (.killed tid)
  | reap => exact (Carries.refl s).goto _

theorem lives_returns (s : Sched) (value : Int32) (x : Address) : (s.returns value).lives x = s.lives x := by
  by_cases hx : x = s.cpu
  · subst hx
    cases hm : s.memory s.cpu with
    | none => simp [lives, returns, update, hm]
    | some t => simp [lives, returns, update, hm]
  · rw [lives, returns, update_memory_ne hx, lives]

theorem publishes_some {slot : ThreadSlot} {x : Address} (h : s.publishes a = some (slot, x)) :
    ∃ t, s.memory s.cpu = some t ∧ t.place = .publishing slot x := by
  cases a with
  | next block stale =>
    simp only [publishes] at h
    split at h
    · next hplace =>
      obtain ⟨t, ht, hp⟩ := Option.map_eq_some_iff.mp hplace
      obtain ⟨rfl, rfl⟩ := Prod.mk.inj (Option.some.inj h)
      exact ⟨t, ht, hp⟩
    · cases h
  | _ => cases h

theorem publishes_next {t : Thread} (block : Option Address) (stale : Option Int32) (ht : s.memory s.cpu = some t) :
    s.publishes (.next block stale) = match t.place with
      | .publishing slot x => some (slot, x)
      | _ => none := by
  simp only [publishes, ht, Option.map_some]
  cases t.place <;> rfl

/-- A section inside a function. Only the descriptors that nobody else can reach get a new tid or leave the
heap. -/
theorem Base.change_resume (h : s.Base) {t : Thread} (ht : s.memory s.cpu = some t) {block : Option Address}
    {stale : Option Int32} {switches : Bool} (hs : s.resume block stale t.place = some (s', switches)) :
    s.Change (.next block stale) s' ∧ (s.publishes (.next block stale) ≠ none → switches = false) := by
  have hpub := publishes_next block stale ht
  cases hp : t.place with
  | outside =>
    rw [hp] at hs
    cases hs
  | creating slot =>
    rw [hp] at hs hpub
    refine ⟨.same hpub ?_, fun hne => absurd hpub hne⟩
    simp only [Sched.resume] at hs
    split at hs
    · obtain ⟨rfl, rfl⟩ := Prod.mk.inj (Option.some.inj hs)
      exact (Carries.refl s).returns _
    · next b =>
      split at hs
      · cases hs
      · next hb =>
        obtain ⟨rfl, rfl⟩ := Prod.mk.inj (Option.some.inj hs)
        refine Carries.goto (Carries.setBlock fun hl => ?_) _
        obtain ⟨u, hu, -⟩ := h.live b hl
        simp [hu] at hb
  | numbering slot b =>
    rw [hp] at hs hpub
    obtain ⟨rfl, rfl⟩ := Prod.mk.inj (Option.some.inj hs)
    exact ⟨.same hpub ((Carries.refl _).goto _), fun _ => rfl⟩
  | numbered slot b tid =>
    rw [hp] at hs hpub
    obtain ⟨rfl, rfl⟩ := Prod.mk.inj (Option.some.inj hs)
    have hhidden : ¬s.Listed b := h.unlisted s.cpu t b ht (.inl (by rw [hp]; rfl))
    have hnext : s.Carries (s.setNextTid (tid + 1)) := .of_memory rfl rfl
    refine ⟨.same hpub (Carries.goto (hnext.trans (Carries.update fun u hl => ?_)) _), fun _ => rfl⟩
    exact absurd hl hhidden
  | publishing slot b =>
    rw [hp] at hs hpub
    obtain ⟨rfl, rfl⟩ := Prod.mk.inj (Option.some.inj hs)
    exact ⟨.publish slot b hpub rfl, fun _ => rfl⟩
  | joining tid =>
    rw [hp] at hs hpub
    refine ⟨.same hpub ?_, fun hne => absurd hpub hne⟩
    simp only [Sched.resume] at hs
    split at hs
    · obtain ⟨rfl, rfl⟩ := Prod.mk.inj (Option.some.inj hs)
      exact (Carries.refl s).returns _
    · obtain ⟨rfl, rfl⟩ := Prod.mk.inj (Option.some.inj hs)
      exact (Carries.refl s).goto _
  | claiming tid b =>
    rw [hp] at hs hpub
    refine ⟨.same hpub ?_, fun hne => absurd hpub hne⟩
    simp only [Sched.resume] at hs
    split at hs
    · split at hs
      · obtain ⟨rfl, rfl⟩ := Prod.mk.inj (Option.some.inj hs)
        exact Carries.returns (Carries.update (by simp)) _
      · obtain ⟨rfl, rfl⟩ := Prod.mk.inj (Option.some.inj hs)
        exact Carries.goto (Carries.update (by simp)) _
    · split at hs
      · obtain ⟨rfl, rfl⟩ := Prod.mk.inj (Option.some.inj hs)
        exact (Carries.refl s).returns _
      · obtain ⟨rfl, rfl⟩ := Prod.mk.inj (Option.some.inj hs)
        exact (Carries.refl s).goto _
  | rejoining tid =>
    rw [hp] at hs hpub
    obtain ⟨rfl, rfl⟩ := Prod.mk.inj (Option.some.inj hs)
    have hclear : s.Carries s.clearResched := .of_memory rfl rfl
    exact ⟨.same hpub (hclear.goto _), fun hne => absurd hpub hne⟩
  | killed tid =>
    rw [hp] at hs hpub
    refine ⟨.same hpub ?_, fun hne => absurd hpub hne⟩
    simp only [Sched.resume] at hs
    split at hs
    · obtain ⟨rfl, rfl⟩ := Prod.mk.inj (Option.some.inj hs)
      have hclear : s.Carries s.clearResched := .of_memory rfl rfl
      exact hclear.returns _
    · obtain ⟨rfl, rfl⟩ := Prod.mk.inj (Option.some.inj hs)
      exact (Carries.refl s).returns _
  | reaping i =>
    rw [hp] at hs hpub
    refine ⟨?_, fun hne => absurd hpub hne⟩
    simp only [Sched.resume] at hs
    split at hs
    · obtain ⟨rfl, rfl⟩ := Prod.mk.inj (Option.some.inj hs)
      exact .same hpub ((Carries.refl _).returns _)
    · next j b hb =>
      obtain ⟨rfl, rfl⟩ := Prod.mk.inj (Option.some.inj hs)
      obtain ⟨hj, -, u, hu, hdead⟩ := reapTarget_some hb
      exact .reap j b hpub hj (by simp [lives, hu, hdead]) ((Carries.refl _).goto _)
  | freeing i b =>
    rw [hp] at hs hpub
    obtain ⟨rfl, rfl⟩ := Prod.mk.inj (Option.some.inj hs)
    exact ⟨.same hpub (Carries.goto (Carries.update (by simp)) _), fun _ => rfl⟩
  | unstacked i b =>
    rw [hp] at hs hpub
    obtain ⟨rfl, rfl⟩ := Prod.mk.inj (Option.some.inj hs)
    have hhidden : ¬s.Listed b := h.unlisted s.cpu t b ht (.inr (by rw [hp]; rfl))
    exact ⟨.same hpub ((Carries.setBlock hhidden).goto _), fun _ => rfl⟩
  | exited =>
    rw [hp] at hs
    cases hs

theorem Base.change_prelude (h : s.Base) {switches : Bool} (hs : s.prelude a = some (s', switches)) :
    s.Change a s' ∧ (s.publishes a ≠ none → switches = false) := by
  cases a with
  | tick =>
    obtain ⟨rfl, rfl⟩ := Prod.mk.inj (Option.some.inj hs)
    exact ⟨.same rfl (Carries.schedTick s), fun _ => rfl⟩
  | preempt =>
    refine ⟨.same rfl ?_, fun hne => absurd rfl hne⟩
    simp only [Sched.prelude] at hs
    split at hs
    · obtain ⟨rfl, rfl⟩ := Prod.mk.inj (Option.some.inj hs)
      exact .of_memory rfl rfl
    · obtain ⟨rfl, rfl⟩ := Prod.mk.inj (Option.some.inj hs)
      exact .of_memory rfl rfl
  | call c =>
    simp only [Sched.prelude] at hs
    split at hs
    · split at hs
      · obtain ⟨rfl, rfl⟩ := Prod.mk.inj (Option.some.inj hs)
        exact ⟨.enter s c, fun hne => absurd rfl hne⟩
      · cases hs
    · cases hs
  | next block stale =>
    simp only [Sched.prelude] at hs
    split at hs
    · next t ht => exact h.change_resume ht hs
    · cases hs

/-- A step, with the switch at its end if it makes one. -/
theorem Base.change (h : s.Base) (hs : s.step a = some s') : s.Change a s' := by
  unfold Sched.step at hs
  split at hs
  · cases hs
  · next hpre =>
    obtain rfl := Option.some.inj hs
    exact (h.change_prelude hpre).1
  · next s₁ hpre =>
    obtain ⟨x, -, rfl⟩ := Option.map_eq_some_iff.mp hs
    obtain ⟨hchange, hswitch⟩ := h.change_prelude hpre
    cases hchange with
    | same hp hc => exact .same hp (hc.trans (Carries.switchTo _ _))
    | publish slot y hp _ => cases hswitch (by simp [hp])
    | reap j b hp hj hb hc => exact .reap j b hp hj hb (hc.trans (Carries.switchTo _ _))

end Change

end Sched

/-! ## Runs -/

/-- Where the call of `thread_create` stores its descriptor, no thread that lives has come to stand since
the call chose the entry. -/
def Sched.Vacant (s : Sched) (a : Action) : Prop :=
  ∀ p ∈ s.publishes a, ∀ b ∈ s.threads p.1, s.lives b = false

instance (s : Sched) (a : Action) : Decidable (s.Vacant a) :=
  inferInstanceAs (Decidable (∀ p ∈ s.publishes a, ∀ b ∈ s.threads p.1, s.lives b = false))

/-- The ghost list is up to date: it holds living threads only, and every living thread of the table but
thread 0. -/
structure Run.Known (r : Run) : Prop where
  lives : ∀ c ∈ r.created, r.sched.lives c.thread = true
  all : ∀ j b, j ≠ 0 → r.sched.threads j = some b → r.sched.lives b = true →
    ∃ c ∈ r.created, c.slot = j ∧ c.thread = b

section Runs
variable {r r' : Run} {a : Action}

theorem Run.step_some (h : r.step a = some r') : r.sched.step a = some r'.sched ∧
    r'.created = (r.sched.returned a ++ r.created).filter fun c => r'.sched.lives c.thread := by
  obtain ⟨s, hs, rfl⟩ := Option.map_eq_some_iff.mp h
  exact ⟨hs, rfl⟩

/-- Whoever lives after a step and was in the table before it lived before it. -/
theorem Sched.Base.lived {s s' : Sched} (h : s.Base) (hg : s.Goes) (hperm : s.Permitted a) (hs : s.step a = some s')
    {b : Address} (hl : s.Listed b) (hb : s'.lives b = true) : s.lives b = true := by
  obtain ⟨t, ht, -⟩ := h.live b hl
  by_contra hdead
  have hzombie : t.state = .zombie := by simpa [lives, ht] using hdead
  rcases (h.step hg hperm hs).2.2.dead b t ht hzombie with ⟨u, hu, hstill⟩ | ⟨hnot, -⟩
  · simp [lives, hu, hstill] at hb
  · exact hnot hl

theorem Run.Known.step (hk : r.Known) (h : r.sched.Base) (hg : r.sched.Goes) (hperm : r.sched.Permitted a)
    (hs : r.step a = some r') : r'.Known := by
  obtain ⟨hstep, hcreated⟩ := Run.step_some hs
  refine ⟨fun c hc => ?_, fun j b hj hb hlives => ?_⟩
  · rw [hcreated] at hc
    exact (List.mem_filter.mp hc).2
  · rw [hcreated]
    -- a thread that was there before is on the list already
    have hold : r.sched.threads j = some b → ∃ c ∈ (r.sched.returned a ++ r.created).filter
        fun c => r'.sched.lives c.thread, c.slot = j ∧ c.thread = b := by
      intro hb
      obtain ⟨c, hc, hslot, rfl⟩ := hk.all j b hj hb (h.lived hg hperm hstep ⟨j, hb⟩ hlives)
      exact ⟨c, List.mem_filter.mpr ⟨List.mem_append_right _ hc, hlives⟩, hslot, rfl⟩
    cases h.change hstep with
    | same _ hc =>
      rw [hc.threads] at hb
      exact hold hb
    | publish slot x hp hx =>
      rw [hx] at hb
      rcases Sched.setEntry_back hb with ⟨-, hb⟩ | ⟨rfl, hxb⟩
      · exact hold hb
      · obtain rfl := Option.some.inj hxb
        refine ⟨⟨x, j, ((r.sched.memory x).map Thread.tid).getD 0⟩,
          List.mem_filter.mpr ⟨List.mem_append_left _ ?_, hlives⟩, rfl, rfl⟩
        simp [Sched.returned, hp]
    | reap i x _ _ _ hc =>
      rw [hc.threads] at hb
      rcases Sched.setEntry_back hb with ⟨-, hb⟩ | ⟨-, hb⟩
      · exact hold hb
      · cases hb

/-- The created threads of a step that stores no descriptor were there before. -/
theorem Run.mem_created (hs : r.step a = some r') (hp : r.sched.publishes a = none) {c : Created}
    (hc : c ∈ r'.created) : c ∈ r.created := by
  rw [(Run.step_some hs).2, Sched.returned, hp] at hc
  exact List.mem_of_mem_filter hc

theorem Run.Kept.carry {s s' : Sched} (hc : s.Carries s') {c : Created} (hentry : s.threads c.slot = some c.thread)
    (htid : ∃ t, s.memory c.thread = some t ∧ t.tid = c.tid) :
    s'.threads c.slot = some c.thread ∧ ∃ t, s'.memory c.thread = some t ∧ t.tid = c.tid := by
  obtain ⟨t, ht, htid⟩ := htid
  obtain ⟨t', ht', htid'⟩ := hc.tid c.thread t ⟨c.slot, hentry⟩ ht
  exact ⟨by rw [hc.threads, hentry], t', ht', htid'.trans htid⟩

/-- A step that finds the entry vacant loses nobody. -/
theorem Run.Kept.step (hkept : r.Kept) (hk : r.Known) (h : r.sched.Base) (hs : r.step a = some r')
    (hv : r.sched.Vacant a) : r'.Kept := by
  obtain ⟨hstep, hcreated⟩ := Run.step_some hs
  suffices hall : ∀ c ∈ r'.created, r'.sched.threads c.slot = some c.thread ∧
      ∃ t, r'.sched.memory c.thread = some t ∧ t.tid = c.tid from
    .of_entries (fun c hc => (hall c hc).1) fun c hc => (hall c hc).2
  intro c hc
  cases h.change hstep with
  | same hp hcarry =>
    have hc := Run.mem_created hs hp hc
    exact Run.Kept.carry hcarry (hkept.entry c hc) (hkept.tid c hc)
  | reap j b hp hj hb hcarry =>
    have hc := Run.mem_created hs hp hc
    have hne : c.slot ≠ j := by
      rintro rfl
      obtain rfl := Option.some.inj (hj.symm.trans (hkept.entry c hc))
      simp [hk.lives c hc] at hb
    refine Run.Kept.carry hcarry ?_ (hkept.tid c hc)
    rw [Sched.setEntry_threads_ne hne]
    exact hkept.entry c hc
  | publish slot x hp hx =>
    have hcarry : (r.sched.setEntry slot (some x)).Carries r'.sched := by
      rw [hx]
      exact (Sched.Carries.refl _).returns _
    rw [hcreated, Sched.returned, hp] at hc
    rcases List.mem_append.mp (List.mem_of_mem_filter hc) with hnew | hold
    · obtain rfl := List.mem_singleton.mp hnew
      refine Run.Kept.carry hcarry (by simp [Sched.setEntry]) ?_
      obtain ⟨t, ht, hplace⟩ := Sched.publishes_some hp
      obtain ⟨u, hu, -⟩ := h.built _ t x ht (by rw [hplace]; rfl)
      exact ⟨u, hu, by simp [hu]⟩
    · have hne : c.slot ≠ slot := by
        rintro rfl
        have hdead := hv (c.slot, x) hp c.thread (hkept.entry c hold)
        simp [hk.lives c hold] at hdead
      refine Run.Kept.carry hcarry ?_ (hkept.tid c hold)
      rw [Sched.setEntry_threads_ne hne]
      exact hkept.entry c hold

/-- A step that does not find it vacant loses the thread it finds. -/
theorem Run.lost (hk : r.Known) (h : r.sched.Base) (hs : r.step a = some r') (hv : ¬r.sched.Vacant a) : ¬r'.Kept := by
  intro hkept
  obtain ⟨hstep, hcreated⟩ := Run.step_some hs
  simp only [Sched.Vacant, not_forall, Bool.not_eq_false] at hv
  obtain ⟨⟨slot, x⟩, hp, b, hb, hlives⟩ := hv
  obtain ⟨t, ht, hplace⟩ := Sched.publishes_some hp
  have hzero : slot ≠ 0 := (h.aimed _ t slot ht (by rw [hplace]; rfl)).1
  have hhidden : ¬r.sched.Listed x := h.unlisted _ t x ht (.inl (by rw [hplace]; rfl))
  obtain ⟨c, hc, rfl, rfl⟩ := hk.all slot b hzero hb hlives
  cases h.change hstep with
  | same hn _ => cases hn.symm.trans hp
  | reap _ _ hn _ _ _ => cases hn.symm.trans hp
  | publish slot' x' hp' hx =>
    obtain ⟨rfl, rfl⟩ := Prod.mk.inj (Option.some.inj (hp'.symm.trans hp))
    have hstill : r'.sched.lives c.thread = true := by
      rw [hx, Sched.lives_returns]
      exact hlives
    have hin : c ∈ r'.created := by
      rw [hcreated]
      exact List.mem_filter.mpr ⟨List.mem_append_right _ hc, hstill⟩
    have hentry := hkept.entry c hin
    rw [hx] at hentry
    rcases Sched.setEntry_back hentry with ⟨hne, -⟩ | ⟨-, hsame⟩
    · exact hne rfl
    · obtain rfl := Option.some.inj hsame
      exact hhidden ⟨c.slot, hb⟩

end Runs

/-- One step of a run in which every `thread_create` finds its entry as it left it, or its thread dead. -/
def CarefulStep (r r' : Run) : Prop := ∃ a, r.sched.Permitted a ∧ r.sched.Vacant a ∧ r.step a = some r'

/-- Over every run, for as long as each `thread_create` stores its descriptor where no living thread
stands, every thread it has returned is in the table under an entry of its own until it ends; and the
first step for which that is not so loses a thread. -/
theorem created_kept (ticks frequency : UInt64) {r : Run}
    (h : Reachable (· = ⟨start ticks frequency, []⟩) CarefulStep r) :
    r.Kept ∧ ∀ a r', r.sched.Permitted a → r.step a = some r' → (r'.Kept ↔ r.sched.Vacant a) := by
  have hinv : r.sched.Base ∧ r.sched.Goes ∧ r.Known ∧ r.Kept := by
    induction h with
    | start h =>
      subst h
      obtain ⟨hbase, hgoes⟩ := start_base ticks frequency
      refine ⟨hbase, hgoes, ⟨by simp, fun j b hj hb => ?_⟩, .of_entries (by simp) (by simp)⟩
      simp [start, hj] at hb
    | next _ hs ih =>
      obtain ⟨a, hperm, hv, hs⟩ := hs
      obtain ⟨hbase, hgoes, hknown, hkept⟩ := ih
      obtain ⟨hbase', hgoes', -⟩ := hbase.step hgoes hperm (Run.step_some hs).1
      exact ⟨hbase', hgoes', hknown.step hbase hgoes hperm hs, hkept.step hknown hbase hs hv⟩
  obtain ⟨hbase, -, hknown, hkept⟩ := hinv
  refine ⟨hkept, fun a r' _ hs => ⟨fun hkept' => ?_, hkept.step hknown hbase hs⟩⟩
  by_contra hv
  exact Run.lost hknown hbase hs hv hkept'

/-- A step of such a run, as a function. -/
def carefulStep (r : Run) (a : Action) : Option Run :=
  if r.sched.Permitted a ∧ r.sched.Vacant a then r.step a else none

/-- Thread 0 creates a thread and, after its slice has run out, that one creates another. -/
def twoCreated : List Action :=
  [.call .create, .next (some 1) none, .next none none, .next none none, .next none none,
    .tick, .tick, .tick, .tick, .tick, .preempt,
    .call .create, .next (some 2) none, .next none none, .next none none, .next none none]

theorem created_kept_two : ∃ r, follow carefulStep ⟨start 0 100, []⟩ twoCreated = some r ∧
    r.created = [⟨2, 2, 2⟩, ⟨1, 1, 1⟩] ∧ r.Kept := by
  have he : (follow carefulStep ⟨start 0 100, []⟩ twoCreated).map Run.created = some [⟨2, 2, 2⟩, ⟨1, 1, 1⟩] := by decide +kernel
  obtain ⟨r, hr, hcreated⟩ := Option.map_eq_some_iff.mp he
  have hreach : Reachable (· = ⟨start 0 100, []⟩) CarefulStep r := by
    refine Reachable.follow (fun r a r' hstep => ?_) (.start rfl) hr
    unfold carefulStep at hstep
    split at hstep
    · next hc => exact ⟨a, hc.1, hc.2, hstep⟩
    · cases hstep
  exact ⟨r, hr, hcreated, (created_kept 0 100 hreach).1⟩

/-- Thread 0 has chosen entry 2 when its slice runs out; thread 1 creates a thread there; thread 0 goes on. -/
def overwritten : List Action :=
  [.call .create, .next (some 1) none, .next none none, .next none none, .next none none,
    .call .create, .tick, .tick, .tick, .tick, .tick, .preempt,
    .call .create, .next (some 2) none, .next none none, .next none none, .next none none,
    .call .yield, .call .yield,
    .next (some 3) none, .next none none, .next none none, .next none none]

/-- A step of a run in which thread 0 neither sleeps nor exits. -/
def anyStep (r : Run) (a : Action) : Option Run := if r.sched.Permitted a then r.step a else none

/-- The thread of the second call lives and is no longer in the table. -/
theorem created_lost : ∃ r : Run, Reachable (· = ⟨start 0 100, []⟩)
    (fun r r' => ∃ a, r.sched.Permitted a ∧ r.step a = some r') r ∧ ¬r.Kept := by
  have he : (follow anyStep ⟨start 0 100, []⟩ overwritten).map (fun r => (r.created, r.sched.threads 2)) =
      some ([⟨3, 2, 3⟩, ⟨2, 2, 2⟩, ⟨1, 1, 1⟩], some 3) := by
    decide +kernel
  obtain ⟨r, hr, hlost⟩ := Option.map_eq_some_iff.mp he
  obtain ⟨hcreated, hentry⟩ := Prod.mk.inj hlost
  refine ⟨r, Reachable.follow (fun r a r' hstep => ?_) (.start rfl) hr, fun hkept => ?_⟩
  · unfold anyStep at hstep
    split at hstep
    · next hperm => exact ⟨a, hperm, hstep⟩
    · cases hstep
  · have hthread := hkept.entry ⟨2, 2, 2⟩ (by simp [hcreated])
    cases hthread.symm.trans hentry

end SifarOS.Scheduler
