import SifarOS.FrameAllocator

/-! # Frames that are held

What callers do with the frame allocator, over whole runs from the state that `pmm_init` leaves. They give
back only frames that they hold. -/
namespace SifarOS.HeldFrames
open ByteMemory BlockOwnership Paging WordBitmap FrameAllocator ReachableStates

variable {s t : Pmm} {f g n count start first : ℕ}

/-- What every call keeps of the allocator. -/
structure Sound (s : Pmm) : Prop where
  counted : s.Counted
  total : s.totalFrames ≤ 262144
  words : s.totalFrames ≤ 32 * s.bitmapWords
  zero : s.bitTest 0 = true

/-- The frames from `start` on. -/
def inRun (start count g : ℕ) : Bool := start ≤ g ∧ g < start + count

theorem inRun_iff : inRun start count g = true ↔ start ≤ g ∧ g < start + count := decide_eq_true_iff

theorem inRun_succ : inRun start (n + 1) g = (inRun start n g || decide (g = start + n)) := by
  rw [Bool.eq_iff_iff]
  simp only [Bool.or_eq_true, inRun_iff, decide_eq_true_eq]
  omega

theorem Sound.of_marked {used : ℕ → Bool} (h : Sound s) (hm : Pmm.Marked s t used) (hzero : used 0 = true) : Sound t where
  counted := hm.counted h.counted
  total := hm.total ▸ h.total
  words := hm.words ▸ hm.total ▸ h.words
  zero := (hm.test 0).trans hzero

theorem init_sound {map : List E820Entry} {kernelEnd : ℕ} {memory : ℕ → BitVec 32} (hkernel : kernelEnd ≤ maxManagedPhys)
    (h : pmmInit map kernelEnd memory = some s) : Sound s := by
  have hm := pmmInit_marked h
  obtain ⟨hpos, hreserved⟩ := pmmInit_some h
  have hend := alignUp_reservedEnd_pos hreserved (reservedEnd_pos hkernel hpos)
  refine ⟨hm.counted (reserved_counted map memory), ?_, ?_, ?_⟩
  · rw [hm.total]
    exact managed_le map
  · rw [hm.total, hm.words]
    change managed map ≤ 32 * ((managed map + 31) / 32)
    omega
  · rw [hm.test]
    simp [hpos, hend]

/-! ## Taking frames -/

theorem takeFrame_eq (hfree : s.bitTest f = false) : s.takeFrame f = s.useFrame f := by
  unfold Pmm.takeFrame Pmm.useFrame
  rw [hfree]
  rfl

theorem takeRun_marked (h : FreeRun s.bitTest s.totalFrames count start) :
    Pmm.Marked s (s.takeRun start count) fun g => s.bitTest g || inRun start count g := by
  unfold Pmm.takeRun
  induction count with
  | zero =>
    refine (Pmm.Marked.refl s).congr fun g => ?_
    have hempty : inRun start 0 g = false := by
      rw [← Bool.not_eq_true, inRun_iff]
      omega
    simp [hempty]
  | succ n ih =>
    obtain ⟨hend, hfree⟩ := h
    have hm := ih ⟨by omega, fun i hi => hfree i (by omega)⟩
    rw [List.range_succ, List.foldl_append]
    generalize (List.range n).foldl (fun s i => s.takeFrame (start + i)) s = t at hm
    have hlast : t.bitTest (start + n) = false := by
      rw [hm.test, hfree n (Nat.lt_succ_self n), Bool.false_or, ← Bool.not_eq_true, inRun_iff]
      omega
    have hnext := Pmm.useFrame_marked (s := t) (f := start + n) (by rw [hm.total]; omega)
    rw [← takeFrame_eq hlast] at hnext
    refine (hm.trans hnext).congr fun g => ?_
    rw [hm.test, inRun_succ, Bool.or_assoc]

/-- The word scan and the run scan agree on single frames. -/
theorem anyRun_one {used : ℕ → Bool} {total : ℕ} {o : Option ℕ} (h : FirstClear used 0 total o) : AnyRun used total 1 o := by
  cases o with
  | none =>
    rintro s ⟨hle, hfree⟩
    have hused := h s (Nat.zero_le s) (by omega)
    have hs := hfree 0 Nat.one_pos
    rw [Nat.add_zero, hused] at hs
    cases hs
  | some f =>
    obtain ⟨-, hlt, hfree, -⟩ := h
    refine ⟨hlt, fun i hi => ?_⟩
    obtain rfl : i = 0 := by omega
    exact hfree

/-- The result of a call that has searched for a run. -/
def runResult (s : Pmm) (count : ℕ) : Option ℕ → Pmm × ℕ
  | some start => (s.takeRun start count, u32 (start * pageSize))
  | none => (s, 0)

theorem allocFrame_run (h : Sound s) : ∃ o, AnyRun s.bitTest s.totalFrames 1 o ∧
    s.pmmAllocFrame = runResult s 1 o := by
  have hscan := scanWords_first (w := 32) (by decide) s.bitmap s.totalFrames s.bitmapWords 0
  rw [Nat.mul_zero, Nat.zero_add, Nat.min_eq_left h.words] at hscan
  have htest : s.bitTest = WordBitmap.test s.bitmap := funext s.bitTest_eq
  refine ⟨_, anyRun_one (htest ▸ hscan), ?_⟩
  unfold Pmm.pmmAllocFrame
  cases scanWords s.bitmap s.totalFrames s.bitmapWords 0 <;> rfl

/-- Every allocation is a search for a run. -/
theorem allocFrames_run (h : Sound s) (hcount : 1 ≤ count) : ∃ o, AnyRun s.bitTest s.totalFrames count o ∧
    s.pmmAllocFrames count = runResult s count o := by
  unfold Pmm.pmmAllocFrames
  rw [if_neg (by omega)]
  split
  · next hone =>
    subst hone
    exact allocFrame_run h
  · split
    · next hmany =>
      refine ⟨none, ?_, rfl⟩
      rintro start ⟨hle, -⟩
      omega
    · have hscan : AnyRun s.bitTest s.totalFrames count (scanRun s.bitTest count s.totalFrames 0 0 0) := scanRun_iff hcount
      refine ⟨_, hscan, ?_⟩
      cases scanRun s.bitTest count s.totalFrames 0 0 0 <;> rfl

/-- What an allocation of `count` frames does. -/
def Allocated (s : Pmm) (count : ℕ) (t : Pmm) (result : ℕ) : Prop :=
  (result = 0 ∧ t = s ∧ ∀ start, ¬FreeRun s.bitTest s.totalFrames count start) ∨
  ∃ start, start ≠ 0 ∧ result = start * pageSize ∧ (start + count) * pageSize ≤ maxManagedPhys ∧
    FreeRun s.bitTest s.totalFrames count start ∧ Pmm.Marked s t fun g => s.bitTest g || inRun start count g

theorem Sound.allocated (h : Sound s) (hcount : 1 ≤ count) {o : Option ℕ} (ho : AnyRun s.bitTest s.totalFrames count o) :
    Allocated s count (runResult s count o).1 (runResult s count o).2 := by
  have htotal := h.total
  have hmax : maxManagedPhys = 262144 * pageSize := rfl
  cases o with
  | none => exact Or.inl ⟨rfl, rfl, ho⟩
  | some start =>
    have hend : start + count ≤ 262144 := Nat.le_trans ho.1 htotal
    refine Or.inr ⟨start, ?_, ?_, ?_, ho, takeRun_marked ho⟩
    · rintro rfl
      have hfirst := ho.2 0 hcount
      rw [Nat.add_zero, h.zero] at hfirst
      cases hfirst
    · apply u32_of_lt
      unfold pageSize
      omega
    · rw [hmax]
      exact Nat.mul_le_mul_right _ hend

theorem Allocated.sound {result : ℕ} (h : Sound s) (ha : Allocated s count t result) : Sound t := by
  rcases ha with ⟨-, rfl, -⟩ | ⟨start, -, -, -, -, hm⟩
  · exact h
  · exact h.of_marked hm (by rw [h.zero, Bool.true_or])

/-! ## Giving frames back -/

theorem freeFrame_eq (hf : f < s.totalFrames) : s.pmmFreeFrame (f * pageSize) = s.freeFrame f := by
  have hsize : 0 < pageSize := by decide
  unfold Pmm.pmmFreeFrame
  rw [Nat.mul_mod_left, Nat.mul_div_cancel _ hsize, if_neg (by simp), if_neg (by omega)]

theorem freeContiguous_marked (htotal : s.totalFrames ≤ 262144) (hrun : ∀ i < count, first + i < s.totalFrames) :
    Pmm.Marked s (s.pmmFreeContiguous (first * pageSize) count) fun g => s.bitTest g && !inRun first count g := by
  unfold Pmm.pmmFreeContiguous
  rw [Nat.mul_mod_left, if_neg (by simp)]
  induction count with
  | zero =>
    refine (Pmm.Marked.refl s).congr fun g => ?_
    have hempty : inRun first 0 g = false := by
      rw [← Bool.not_eq_true, inRun_iff]
      omega
    simp [hempty]
  | succ n ih =>
    have hn := hrun n (Nat.lt_succ_self n)
    have hm := ih fun i hi => hrun i (Nat.lt_succ_of_lt hi)
    rw [List.range_succ, List.foldl_append]
    generalize (List.range n).foldl (fun s i => s.pmmFreeFrame (u32 (first * pageSize + i * pageSize))) s = t at hm
    have hlast : first + n < t.totalFrames := by rwa [hm.total]
    have haddr : u32 (first * pageSize + n * pageSize) = (first + n) * pageSize := by
      rw [← Nat.add_mul]
      apply u32_of_lt
      unfold pageSize
      omega
    have hnext := Pmm.freeFrame_marked hlast
    rw [← freeFrame_eq hlast, ← haddr] at hnext
    refine (hm.trans hnext).congr fun g => ?_
    rw [hm.test, inRun_succ, Bool.and_assoc]
    simp

/-! ## Runs -/

/-- The allocator beside the numbers of the frames that its callers hold. -/
structure Ledger where
  pmm : Pmm
  held : List ℕ

inductive Call where
  | allocFrame
  | allocFrames (count : ℕ)
  | freeFrame (frame : ℕ)
  | freeContiguous (first count : ℕ)

def Call.run (s : Pmm) : Call → Pmm × ℕ
  | .allocFrame => s.pmmAllocFrame
  | .allocFrames count => s.pmmAllocFrames count
  | .freeFrame frame => (s.pmmFreeFrame (frame * pageSize), 0)
  | .freeContiguous first count => (s.pmmFreeContiguous (first * pageSize) count, 0)

/-- The frames that a result stands for. -/
def granted (count result : ℕ) : List ℕ := if result = 0 then [] else List.range' (result / pageSize) count

def Call.heldAfter (held : List ℕ) (result : ℕ) : Call → List ℕ
  | .allocFrame => granted 1 result ++ held
  | .allocFrames count => granted count result ++ held
  | .freeFrame frame => held.filter fun f => !inRun frame 1 f
  | .freeContiguous first count => held.filter fun f => !inRun first count f

/-- Only frames that are held are given back. -/
def Call.Owned (held : List ℕ) : Call → Prop
  | .freeFrame frame => frame ∈ held
  | .freeContiguous first count => ∀ i < count, first + i ∈ held
  | _ => True

def Ledger.after (l : Ledger) (c : Call) : Ledger := ⟨(c.run l.pmm).1, c.heldAfter l.held (c.run l.pmm).2⟩

/-- The allocator after `pmm_init`, of a kernel that ends below 1 GiB. -/
def Started (l : Ledger) : Prop :=
  l.held = [] ∧ ∃ map kernelEnd memory, kernelEnd ≤ maxManagedPhys ∧ pmmInit map kernelEnd memory = some l.pmm

def Step (l l' : Ledger) : Prop := ∃ c : Call, c.Owned l.held ∧ l' = l.after c

structure Keeps (l : Ledger) : Prop where
  sound : Sound l.pmm
  nodup : l.held.Nodup
  managed : ∀ f ∈ l.held, f < l.pmm.totalFrames
  taken : ∀ f ∈ l.held, l.pmm.bitTest f = true
  pos : ∀ f ∈ l.held, f ≠ 0

variable {l l' : Ledger}

theorem Keeps.alloc (h : Keeps l) {result : ℕ} (ha : Allocated l.pmm count t result) : Keeps ⟨t, granted count result ++ l.held⟩ := by
  have hsound := ha.sound h.sound
  have hsize : 0 < pageSize := by decide
  rcases ha with ⟨rfl, rfl, -⟩ | ⟨start, hstart, rfl, -, ⟨hend, hfree⟩, hm⟩
  · exact h
  · have hgranted : granted count (start * pageSize) = List.range' start count := by
      unfold granted
      rw [if_neg (Nat.mul_ne_zero hstart (Nat.ne_of_gt hsize)), Nat.mul_div_cancel _ hsize]
    rw [hgranted]
    have hmem : ∀ f, f ∈ List.range' start count ++ l.held → inRun start count f = true ∨ f ∈ l.held := by
      intro f hf
      rw [List.mem_append, List.mem_range'_1] at hf
      rwa [inRun_iff]
    refine ⟨hsound, ?_, fun f hf => ?_, fun f hf => ?_, fun f hf => ?_⟩
    · refine List.nodup_append.mpr ⟨List.nodup_range', h.nodup, fun f hf g hg he => ?_⟩
      -- a frame of the run was free
      subst he
      have hrun := List.mem_range'_1.mp hf
      have hnot := hfree (f - start) (by omega)
      rw [show start + (f - start) = f by omega, h.taken f hg] at hnot
      cases hnot
    · change f < t.totalFrames
      rw [hm.total]
      rcases hmem f hf with hrun | hheld
      · have hle := inRun_iff.mp hrun
        omega
      · exact h.managed f hheld
    · rw [hm.test]
      rcases hmem f hf with hrun | hheld
      · rw [hrun, Bool.or_true]
      · rw [h.taken f hheld, Bool.true_or]
    · rcases hmem f hf with hrun | hheld
      · have hle := inRun_iff.mp hrun
        omega
      · exact h.pos f hheld

theorem Keeps.free (h : Keeps l) (hheld : ∀ i < count, first + i ∈ l.held)
    (hm : Pmm.Marked l.pmm t fun g => l.pmm.bitTest g && !inRun first count g) :
    Keeps ⟨t, l.held.filter fun f => !inRun first count f⟩ := by
  have hzero : inRun first count 0 = false := by
    rw [← Bool.not_eq_true, inRun_iff]
    rintro ⟨h₁, h₂⟩
    exact h.pos _ (hheld 0 (by omega)) (by omega)
  refine ⟨h.sound.of_marked hm ?_, h.nodup.filter _, fun f hf => ?_, fun f hf => ?_, fun f hf => ?_⟩
  · rw [h.sound.zero, hzero]
    rfl
  · change f < t.totalFrames
    rw [hm.total]
    exact h.managed f (List.mem_filter.mp hf).1
  · obtain ⟨hin, hout⟩ := List.mem_filter.mp hf
    rw [hm.test, h.taken f hin]
    simpa using hout
  · exact h.pos f (List.mem_filter.mp hf).1

theorem Keeps.allocFrame (h : Keeps l) : Allocated l.pmm 1 l.pmm.pmmAllocFrame.1 l.pmm.pmmAllocFrame.2 := by
  obtain ⟨o, ho, hr⟩ := allocFrame_run h.sound
  rw [hr]
  exact h.sound.allocated (Nat.le_refl 1) ho

theorem Keeps.allocFrames (h : Keeps l) (hcount : 1 ≤ count) :
    Allocated l.pmm count (l.pmm.pmmAllocFrames count).1 (l.pmm.pmmAllocFrames count).2 := by
  obtain ⟨o, ho, hr⟩ := allocFrames_run h.sound hcount
  rw [hr]
  exact h.sound.allocated hcount ho

theorem Keeps.freeFrame (h : Keeps l) (hheld : f ∈ l.held) :
    Pmm.Marked l.pmm (l.pmm.pmmFreeFrame (f * pageSize)) fun g => l.pmm.bitTest g && !inRun f 1 g := by
  have hlt := h.managed f hheld
  rw [freeFrame_eq hlt]
  refine (Pmm.freeFrame_marked hlt).congr fun g => ?_
  have hone : inRun f 1 g = decide (g = f) := by
    rw [Bool.eq_iff_iff, inRun_iff, decide_eq_true_eq]
    omega
  simp [hone]

theorem Keeps.freeContiguous (h : Keeps l) (hheld : ∀ i < count, first + i ∈ l.held) :
    Pmm.Marked l.pmm (l.pmm.pmmFreeContiguous (first * pageSize) count) fun g => l.pmm.bitTest g && !inRun first count g :=
  freeContiguous_marked h.sound.total fun i hi => h.managed _ (hheld i hi)

theorem Keeps.step (h : Keeps l) (hs : Step l l') : Keeps l' := by
  obtain ⟨c, howned, rfl⟩ := hs
  cases c with
  | allocFrame => exact h.alloc h.allocFrame
  | allocFrames count =>
    cases count with
    | zero => exact h
    | succ n => exact h.alloc (h.allocFrames (Nat.succ_pos n))
  | freeFrame frame =>
    apply h.free (fun i hi => ?_) (h.freeFrame howned)
    obtain rfl : i = 0 := by omega
    exact howned
  | freeContiguous first count => exact h.free howned (h.freeContiguous howned)

theorem Keeps.reachable (h : Reachable Started Step l) : Keeps l := by
  apply h.invariant
  · rintro ⟨s, held⟩ ⟨hheld, map, kernelEnd, memory, hkernel, hinit⟩
    obtain rfl : held = [] := hheld
    exact ⟨init_sound hkernel hinit, List.nodup_nil, by simp, by simp, by simp⟩
  · exact fun l l' hl hs => hl.step hs

/-! ## What the callers see -/

/-- The number of set bits below `total_frames`. -/
def setBits (s : Pmm) : ℕ := ((List.range s.totalFrames).filter s.bitTest).length

theorem setBits_eq (h : s.Counted) : s.usedFrames = setBits s := by
  have hsplit := List.length_eq_length_filter_add (l := List.range s.totalFrames) s.bitTest
  rw [List.length_range] at hsplit
  have hcount := h.count
  unfold Pmm.freeFrames clearCount at hcount
  unfold setBits
  omega

/-- A search for `n` free frames in a row. -/
structure Grants (l : Ledger) (n : ℕ) (r : Pmm × ℕ) : Prop where
  fails : 1 ≤ n → (r.2 = 0 ↔ ¬∃ start, ∀ i < n, l.pmm.Free (start + i))
  unchanged : r.2 = 0 → r.1 = l.pmm
  grants : r.2 ≠ 0 → ∃ start, r.2 = start * pageSize ∧ (start + n) * pageSize ≤ maxManagedPhys ∧
    (∀ i < n, l.pmm.Free (start + i) ∧ start + i ∉ l.held) ∧
    ∀ g, r.1.Free g ↔ l.pmm.Free g ∧ ¬(start ≤ g ∧ g < start + n)

/-- The frames from `first` on are free again, and no others. -/
def Restores (s : Pmm) (first n : ℕ) (t : Pmm) : Prop := ∀ g, t.Free g ↔ s.Free g ∨ (first ≤ g ∧ g < first + n)

theorem freeRun_iff (hcount : 1 ≤ count) : FreeRun s.bitTest s.totalFrames count start ↔ ∀ i < count, s.Free (start + i) := by
  constructor
  · rintro ⟨hend, hfree⟩ i hi
    exact ⟨by omega, hfree i hi⟩
  · intro h
    have hlast := (h (count - 1) (by omega)).1
    exact ⟨by omega, fun i hi => (h i hi).2⟩

theorem Keeps.grants (h : Keeps l) {r : Pmm × ℕ} (hcount : 1 ≤ count) (ha : Allocated l.pmm count r.1 r.2) : Grants l count r := by
  have hsize : 0 < pageSize := by decide
  rcases ha with ⟨hzero, hsame, hnone⟩ | ⟨start, hstart, hresult, hend, hrun, hm⟩
  · refine ⟨fun _ => iff_of_true hzero ?_, fun _ => hsame, fun hne => absurd hzero hne⟩
    rintro ⟨start, hfree⟩
    exact hnone start ((freeRun_iff hcount).mpr hfree)
  · have hfree := (freeRun_iff hcount).mp hrun
    have hne : r.2 ≠ 0 := by
      rw [hresult]
      exact Nat.mul_ne_zero hstart (Nat.ne_of_gt hsize)
    refine ⟨fun _ => iff_of_false hne (not_not_intro ⟨start, hfree⟩), fun hzero => absurd hzero hne, fun _ => ?_⟩
    refine ⟨start, hresult, hend, fun i hi => ⟨hfree i hi, fun hheld => ?_⟩, fun g => ?_⟩
    · have htaken := h.taken _ hheld
      rw [(hfree i hi).2] at htaken
      cases htaken
    · unfold Pmm.Free
      rw [hm.total, hm.test, Bool.or_eq_false_iff, ← Bool.not_eq_true (inRun start count g), inRun_iff, and_assoc]

theorem Keeps.restores (h : Keeps l) (hheld : ∀ i < count, first + i ∈ l.held)
    (hm : Pmm.Marked l.pmm t fun g => l.pmm.bitTest g && !inRun first count g) : Restores l.pmm first count t := by
  intro g
  unfold Pmm.Free
  rw [hm.total, hm.test, Bool.and_eq_false_iff, Bool.not_eq_false', inRun_iff]
  constructor
  · rintro ⟨hlt, hfree | hin⟩
    · exact Or.inl ⟨hlt, hfree⟩
    · exact Or.inr hin
  · rintro (⟨hlt, hfree⟩ | hin)
    · exact ⟨hlt, Or.inl hfree⟩
    · have hg := hheld (g - first) (by omega)
      rw [show first + (g - first) = g by omega] at hg
      exact ⟨h.managed g hg, Or.inr hin⟩

/-- What callers can rely on. -/
structure Serves (l : Ledger) : Prop where
  counter : l.pmm.usedFrames = setBits l.pmm
  once : l.held.Nodup
  held : ∀ f ∈ l.held, ¬l.pmm.Free f
  allocFrame : Grants l 1 l.pmm.pmmAllocFrame
  allocFrames : ∀ n, Grants l n (l.pmm.pmmAllocFrames n)
  freeFrame : ∀ f ∈ l.held, Restores l.pmm f 1 (l.pmm.pmmFreeFrame (f * pageSize))
  freeContiguous : ∀ first n, (∀ i < n, first + i ∈ l.held) → Restores l.pmm first n (l.pmm.pmmFreeContiguous (first * pageSize) n)

/-- The allocator in every state that its callers can bring it into. -/
theorem frames_correct (h : Reachable Started Step l) : Serves l := by
  have hk := Keeps.reachable h
  refine ⟨setBits_eq hk.sound.counted, hk.nodup, fun f hf hfree => ?_, hk.grants (Nat.le_refl 1) hk.allocFrame, fun n => ?_,
    fun f hf => ?_, fun first n hheld => hk.restores hheld (hk.freeContiguous hheld)⟩
  · have htaken := hk.taken f hf
    rw [hfree.2] at htaken
    cases htaken
  · cases n with
    | zero => exact ⟨by simp, fun _ => rfl, fun hne => absurd rfl hne⟩
    | succ n => exact hk.grants (Nat.succ_pos n) (hk.allocFrames (Nat.succ_pos n))
  · apply hk.restores (fun i hi => ?_) (hk.freeFrame hf)
    obtain rfl : i = 0 := by omega
    exact hf

/-- The allocator of `smallMap` with a kernel that ends at 384 KiB. -/
def smallLedger : Ledger := ⟨(pmmInit smallMap 0x60000 fun _ => 0#32).getD (reserved smallMap fun _ => 0#32), []⟩

theorem smallLedger_started : Started smallLedger := by
  have hreserved : reservedEnd smallMap 0x60000 < maxManagedPhys := reservedEnd_lt (by decide)
  have husable : Usable smallMap 256 := by decide
  obtain ⟨s, hs⟩ := pmmInit_isSome (fun _ => 0#32) hreserved husable
  refine ⟨rfl, smallMap, 0x60000, fun _ => 0#32, by decide, ?_⟩
  unfold smallLedger
  rw [hs]
  rfl

theorem frames_correct_smallLedger : Serves (smallLedger.after (.allocFrames 3)) :=
  frames_correct (.next (.start smallLedger_started) ⟨.allocFrames 3, trivial, rfl⟩)

/-! ## The frames under the page directories

The page directories are modelled over marks of frames alone. The allocator refines these. -/

variable {m : Machine}

/-- The marks of the machine are the bits of the allocator. -/
structure Shows (m : Machine) (s : Pmm) : Prop where
  total : m.totalFrames = s.totalFrames
  bitmap : ∀ f, m.bitmap f = s.bitTest f

theorem find_firstClear (used : ℕ → Bool) (total : ℕ) : FirstClear used 0 total ((List.range total).find? fun f => !used f) := by
  cases hfind : (List.range total).find? fun f => !used f with
  | none =>
    intro i _ hi
    rw [List.find?_range_eq_none] at hfind
    simpa using hfind i hi
  | some f =>
    obtain ⟨hf, hin, hbefore⟩ := List.find?_range_eq_some.mp hfind
    refine ⟨Nat.zero_le f, List.mem_range.mp hin, by simpa using hf, fun i _ hi => ?_⟩
    simpa using hbefore i hi

theorem Shows.pmmAllocFrame (h : Shows m s) (hs : Sound s) :
    Shows m.pmmAllocFrame.1 s.pmmAllocFrame.1 ∧ s.pmmAllocFrame.2 = m.pmmAllocFrame.2 * pageSize := by
  have hscan := scanWords_first (w := 32) (by decide) s.bitmap s.totalFrames s.bitmapWords 0
  rw [Nat.mul_zero, Nat.zero_add, Nat.min_eq_left hs.words] at hscan
  have hsame : m.bitmap = WordBitmap.test s.bitmap := funext fun f => (h.bitmap f).trans (s.bitTest_eq f)
  have hfind := hscan.unique (find_firstClear (WordBitmap.test s.bitmap) s.totalFrames)
  rw [← hsame, ← h.total] at hfind
  unfold Machine.pmmAllocFrame Pmm.pmmAllocFrame
  rw [← h.total, hfind]
  cases hcase : (List.range m.totalFrames).find? fun f => !m.bitmap f with
  | none => exact ⟨h, (Nat.zero_mul pageSize).symm⟩
  | some f =>
    obtain ⟨-, hin, -⟩ := List.find?_range_eq_some.mp hcase
    have hlt := List.mem_range.mp hin
    have htotal := hs.total
    rw [h.total] at hlt
    have haddr : u32 (f * pageSize) = f * pageSize := by
      apply u32_of_lt
      unfold pageSize
      omega
    dsimp only
    rw [haddr]
    refine ⟨⟨h.total, fun g => ?_⟩, rfl⟩
    change Function.update m.bitmap f true g = (s.bitSet f).bitTest g
    rw [Pmm.bitTest_bitSet, ← h.bitmap]
    by_cases hg : g = f <;> simp [hg]

theorem Shows.pmmFreeFrame (h : Shows m s) (f : ℕ) : Shows (m.pmmFreeFrame f) (s.pmmFreeFrame (f * pageSize)) := by
  have htotal := h.total
  by_cases hf : f < s.totalFrames
  · have hm := Pmm.freeFrame_marked hf
    rw [freeFrame_eq hf]
    unfold Machine.pmmFreeFrame
    rw [if_neg (by omega)]
    refine ⟨h.total.trans hm.total.symm, fun g => ?_⟩
    rw [hm.test, ← h.bitmap]
    by_cases hg : g = f <;> simp [hg]
  · have hsize : 0 < pageSize := by decide
    unfold Machine.pmmFreeFrame Pmm.pmmFreeFrame
    rw [Nat.mul_mod_left, Nat.mul_div_cancel _ hsize, if_pos (by omega), if_neg (by simp), if_pos (by omega)]
    exact h

end SifarOS.HeldFrames
