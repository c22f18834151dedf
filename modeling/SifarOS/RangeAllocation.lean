import SifarOS.AddressSpace

/-! # Ranges of pages

`vmm_alloc_range` and `vmm_free_range` of `kernel/mm/paging.c`. -/
namespace SifarOS.Paging
open ByteMemory

namespace Machine

/-- The loop of `vmm_free_range` over `n` pages. -/
def freeLoop (pd : ℕ) : ℕ → ℕ → Machine → Machine
  | 0, _, m => m
  | n + 1, page, m =>
    let phys := m.vmmTranslateIn pd page
    freeLoop pd n (page + pageSize) (if phys = 0 then m else (m.vmmUnmapIn pd page).pmmFreeFrame (phys / pageSize))

def vmmFreeRange (m : Machine) (pd start size : ℕ) : Machine :=
  if pd = 0 ∨ size = 0 then m
  else
    let stop := start + size
    if 4294967295 < stop ∨ stop ≤ start then m
    else
      let first := start / pageSize * pageSize
      let last := alignUp stop pageSize
      if last < first then m else freeLoop pd ((last - first) / pageSize) first m

/-- A turn of the loop of `vmm_alloc_range` at a page that is not mapped. -/
def newPage (m : Machine) (pd page flags : ℕ) : Machine × Bool :=
  let allocated := m.pmmAllocFrame
  let frame := allocated.2
  if frame = 0 then (allocated.1, false)
  else
    let mapped := (allocated.1.clear frame).vmmMapIn pd page (frame * pageSize) flags
    if mapped.2 < 0 then (mapped.1.pmmFreeFrame frame, false) else (mapped.1, true)

/-- The rollback: `rollbackFirst` is `none` where `allocated_any` is not set. -/
def rollback (m : Machine) (pd page : ℕ) : Option ℕ → Machine
  | none => m
  | some rollbackFirst => m.vmmFreeRange pd rollbackFirst (page - rollbackFirst)

/-- The loop of `vmm_alloc_range` over `n` pages. -/
def allocLoop (pd flags : ℕ) : ℕ → ℕ → Option ℕ → Machine → Machine × ℤ
  | 0, _, _, m => (m, 0)
  | n + 1, page, rollbackFirst, m =>
    if m.vmmTranslateIn pd page ≠ 0 then
      if rollbackFirst.isSome then (m.rollback pd page rollbackFirst, -1)
      else allocLoop pd flags n (page + pageSize) rollbackFirst m
    else
      let made := m.newPage pd page flags
      if made.2 = false then (made.1.rollback pd page rollbackFirst, -1)
      else allocLoop pd flags n (page + pageSize) (some (rollbackFirst.getD page)) made.1

def vmmAllocRange (m : Machine) (pd start size flags : ℕ) : Machine × ℤ :=
  if pd = 0 then (m, -1)
  else if size = 0 then (m, 0)
  else
    let stop := start + size
    if 4294967295 < stop ∨ stop ≤ start then (m, -1)
    else if flags &&& pteUser ≠ 0 ∧ (start < userMin ∨ userMax < stop) then (m, -1)
    else
      let first := start / pageSize * pageSize
      let last := alignUp stop pageSize
      if last < first then (m, -1) else allocLoop pd flags ((last - first) / pageSize) first none m

variable {m m' m'' m₀ : Machine} {pd p q f flags start size n r : ℕ} {S S' : ℕ → Prop}

/-! ## Pages given back -/

theorem page_succ (p : ℕ) : p * pageSize + pageSize = (p + 1) * pageSize := (Nat.succ_mul p pageSize).symm

theorem Space.translate_page (h : m.Space pd) (hp : p < pageCount) :
    m.vmmTranslateIn pd (p * pageSize) = if present (m.pte pd p) then m.frameAt pd p * pageSize else 0 := by
  have hsize : 0 < pageSize := by decide
  have he := h.translate hp hsize
  rw [Nat.add_zero, Nat.add_zero] at he
  exact he

theorem Space.translate_none (h : m.Space pd) (hp : p < pageCount) (hview : m.view pd p = none) :
    m.vmmTranslateIn pd (p * pageSize) = 0 := by
  rw [h.translate_page hp, view_eq_none.mp hview]
  rfl

/-- Page 0 apart, a page that translates to 0 is not mapped. -/
theorem Space.view_none (h : m.Space pd) (hp : p < pageCount) (hzero : m.vmmTranslateIn pd (p * pageSize) = 0)
    (hpage : p = 0 → ¬(present (m.pte pd 0) = true ∧ m.frameAt pd 0 = 0)) : m.view pd p = none := by
  rw [view_eq_none, ← Bool.not_eq_true]
  intro hmapped
  have hframe : m.frameAt pd p = 0 := by
    by_contra hne
    exact (h.translate_ne_zero hp).mpr ⟨hmapped, hne⟩ hzero
  obtain rfl := h.zero p hp hmapped hframe
  exact hpage rfl ⟨hmapped, hframe⟩

/-- The loop gives back the pages of `S` that it comes to. -/
theorem Grown.freeLoop (h : Grown m₀ m pd S) (hn : p + n ≤ pageCount)
    (hold : ∀ q, p ≤ q → q < p + n → ¬S q → m₀.view pd q = none) :
    Grown m₀ (freeLoop pd n (p * pageSize) m) pd fun q => S q ∧ ¬(p ≤ q ∧ q < p + n) := by
  induction n generalizing p m S with
  | zero => exact h.congr fun q => ⟨fun hq => ⟨hq, by omega⟩, And.left⟩
  | succ n ih =>
    have hp : p < pageCount := by omega
    rw [Machine.freeLoop, page_succ]
    by_cases hs : S p
    · have hphys : m.vmmTranslateIn pd (p * pageSize) = m.frameAt pd p * pageSize := by
        rw [h.space.translate_page hp, h.mapped p hs, if_pos rfl]
      have hne := (h.space.translate_ne_zero hp).mpr ⟨h.mapped p hs, h.frame_ne hs⟩
      rw [if_neg hne, hphys, Nat.mul_div_cancel _ (by decide)]
      refine (ih (h.drop hs) (by omega) fun q hlo hhi hnot => ?_).congr fun q => ?_
      · exact hold q (by omega) (by omega) fun hq => hnot ⟨hq, by omega⟩
      · constructor
        · rintro ⟨⟨hq, hne⟩, hout⟩
          exact ⟨hq, by omega⟩
        · rintro ⟨hq, hout⟩
          exact ⟨⟨hq, by omega⟩, by omega⟩
    · have hview : m.view pd p = none := (h.old p hp hs).trans (hold p (Nat.le_refl p) (by omega) hs)
      rw [h.space.translate_none hp hview, if_pos rfl]
      refine (ih h (by omega) fun q hlo hhi hnot => hold q (by omega) (by omega) hnot).congr fun q => ?_
      refine and_congr_right fun hq => not_congr ⟨fun hin => by omega, fun hin => ⟨?_, by omega⟩⟩
      have hne : q ≠ p := by
        rintro rfl
        exact hs hq
      omega

/-- Addresses up to the last page do not wrap when they are rounded up. -/
theorem alignUp_page {x : ℕ} (hx : x ≤ 4294963200) : alignUp x pageSize = (x + 4095) / 4096 * pageSize := by
  unfold alignUp u32 pageSize
  omega

theorem alignUp_wrap {x : ℕ} (hx : 4294963200 < x) (hlt : x ≤ 4294967295) : alignUp x pageSize = 0 := by
  unfold alignUp u32 pageSize
  omega

theorem Grown.freeRange (h : Grown m₀ m pd S) (hn : 0 < n) (hend : p + n < pageCount)
    (hold : ∀ q, p ≤ q → q < p + n → ¬S q → m₀.view pd q = none) :
    Grown m₀ (m.vmmFreeRange pd (p * pageSize) (n * pageSize)) pd fun q => S q ∧ ¬(p ≤ q ∧ q < p + n) := by
  have hstop : p * pageSize + n * pageSize = (p + n) * pageSize := (Nat.add_mul p n pageSize).symm
  have hmax : (p + n) * pageSize ≤ 4294963200 := by
    unfold pageCount at hend
    unfold pageSize
    omega
  have hlast : alignUp ((p + n) * pageSize) pageSize = (p + n) * pageSize := by
    rw [alignUp_page hmax]
    unfold pageSize
    omega
  have hsize : n * pageSize ≠ 0 := Nat.mul_ne_zero (Nat.ne_of_gt hn) (by decide)
  have hle : p * pageSize < (p + n) * pageSize := Nat.mul_lt_mul_of_pos_right (by omega) (by decide)
  unfold vmmFreeRange
  rw [if_neg (not_or.mpr ⟨h.space.pd_ne, hsize⟩), hstop]
  dsimp only
  rw [if_neg (by omega), hlast, Nat.mul_div_cancel _ (by decide), if_neg (Nat.not_lt.mpr (Nat.le_of_lt hle)),
    ← Nat.sub_mul, Nat.mul_div_cancel _ (by decide), Nat.add_sub_cancel_left]
  exact h.freeLoop (by omega) hold

/-! ## Pages mapped -/

/-- The pages of `S` are new, cleared and mapped with the flags. -/
structure Filled (m₀ m : Machine) (pd flags : ℕ) (S : ℕ → Prop) : Prop extends Grown m₀ m pd S where
  entry : ∀ q, S q → m.pte pd q = mapEntry (m.frameAt pd q) flags
  zeroed : ∀ q, S q → m.mem (m.frameAt pd q) = fun _ => 0
  reach : ∀ q, S q → flags &&& pteUser ≠ 0 → m.UserTable pd q

theorem Grown.filled (h : Grown m₀ m pd fun _ => False) : Filled m₀ m pd flags fun _ => False where
  toGrown := h
  entry := fun _ hq => hq.elim
  zeroed := fun _ hq => hq.elim
  reach := fun _ hq => hq.elim

theorem Filled.congr (h : Filled m₀ m pd flags S) (hs : ∀ q, S q ↔ S' q) : Filled m₀ m pd flags S' := by
  obtain rfl : S = S' := funext fun q => propext (hs q)
  exact h

theorem Filled.trans (h : Filled m₀ m pd flags S) (h' : Filled m m' pd flags S') : Filled m₀ m' pd flags fun q => S q ∨ S' q := by
  have hpte : ∀ q, S q → m'.pte pd q = m.pte pd q := fun q hq => h'.pte_old (h.mapped q hq) (h.bound q hq)
  have hframe : ∀ q, S q → m'.frameAt pd q = m.frameAt pd q := by
    intro q hq
    unfold frameAt
    rw [hpte q hq]
  refine ⟨h.toGrown.trans h'.toGrown, fun q hq => ?_, fun q hq => ?_, fun q hq hflags => ?_⟩
  · rcases hq with hq | hq
    · rw [hframe q hq, hpte q hq]
      exact h.entry q hq
    · exact h'.entry q hq
  · rcases hq with hq | hq
    · rw [hframe q hq, h'.mem _ (h.frame_used hq) (h.frame_not_holds hq)]
      exact h.zeroed q hq
    · exact h'.zeroed q hq
  · rcases hq with hq | hq
    · exact h'.user q (h.bound q hq) (h.reach q hq hflags)
    · exact h'.reach q hq hflags

theorem newPage_eq (hf : f ≠ 0) (he : m.pmmAllocFrame = ({ m with bitmap := Function.update m.bitmap f true }, f)) (page flags : ℕ) :
    m.newPage pd page flags =
      if ((m.withFrame f).vmmMapIn pd page (f * pageSize) flags).2 < 0 then
        (((m.withFrame f).vmmMapIn pd page (f * pageSize) flags).1.pmmFreeFrame f, false)
      else (((m.withFrame f).vmmMapIn pd page (f * pageSize) flags).1, true) := by
  unfold Machine.newPage
  rw [he]
  exact if_neg hf

/-- A turn at a page without an entry fails and leaves the pages as they were, or makes the page. -/
theorem Updated.newPage {e : ℕ} (h : Updated m₀ m pd (Function.update (m₀.pte pd) p e)) (h₀ : m₀.Space pd) (hp : p < pageCount)
    (hview : m₀.view pd p = none) (huser : flags &&& pteUser ≠ 0 → userPage (p * pageSize) = true) :
    (∃ m', m.newPage pd (p * pageSize) flags = (m', false) ∧ Grown m m' pd fun _ => False) ∨
      ∃ m', m.newPage pd (p * pageSize) flags = (m', true) ∧ Filled m₀ m' pd flags fun q => q = p := by
  rcases m.pmmAllocFrame_spec with ⟨f, hlt, hf, he⟩ | ⟨he, -⟩
  · have hzero : f ≠ 0 := by
      rintro rfl
      rw [h.space.reserved] at hf
      cases hf
    rw [newPage_eq hzero he]
    rcases h.takePage h₀ hp hview hlt hf huser with he' | ⟨m', he', hg, hentry, hzeroed, hreach⟩
    · rw [he']
      exact Or.inl ⟨_, rfl, h.space.returnFrame hlt hf⟩
    · rw [he']
      have hframe : m'.frameAt pd p = f := by
        unfold frameAt
        rw [hentry, mapEntry_frame]
      refine Or.inr ⟨m', rfl, hg, ?_, ?_, ?_⟩
      · rintro q rfl
        rw [hframe]
        exact hentry
      · rintro q rfl
        rw [hframe]
        exact hzeroed
      · rintro q rfl
        exact hreach
  · refine Or.inl ⟨m, ?_, .refl h.space⟩
    unfold Machine.newPage
    rw [he]
    rfl

theorem Space.newPage (h : m.Space pd) (hp : p < pageCount) (hview : m.view pd p = none)
    (huser : flags &&& pteUser ≠ 0 → userPage (p * pageSize) = true) :
    (∃ m', m.newPage pd (p * pageSize) flags = (m', false) ∧ Grown m m' pd fun _ => False) ∨
      ∃ m', m.newPage pd (p * pageSize) flags = (m', true) ∧ Filled m m' pd flags fun q => q = p := by
  refine Updated.newPage (e := m.pte pd p) ?_ h hp hview huser
  rw [Function.update_eq_self]
  exact .refl h

/-- The pages from `r` on are given back. -/
theorem Grown.rollback (h : Grown m₀ m pd fun q => r ≤ q ∧ q < p) (hr : r < p) (hp : p < pageCount) :
    Grown m₀ (m.rollback pd (p * pageSize) (some (r * pageSize))) pd fun _ => False := by
  obtain ⟨n, rfl⟩ : ∃ n, p = r + n := ⟨p - r, by omega⟩
  have hsize : (r + n) * pageSize - r * pageSize = n * pageSize := by
    rw [← Nat.sub_mul, Nat.add_sub_cancel_left]
  unfold Machine.rollback
  dsimp only
  rw [hsize]
  refine (h.freeRange (by omega) hp fun q hlo hhi hnot => absurd ⟨hlo, hhi⟩ hnot).congr fun q => ?_
  exact ⟨fun hq => hq.2 hq.1, False.elim⟩

/-- Once a page has been made, the loop makes all that are left or gives back what it made. -/
theorem Filled.allocLoop (h : Filled m₀ m pd flags fun q => r ≤ q ∧ q < p) (hr : r < p) (hn : p + n < pageCount)
    (huser : flags &&& pteUser ≠ 0 → ∀ q, p ≤ q → q < p + n → userPage (q * pageSize) = true) :
    (∃ m', allocLoop pd flags n (p * pageSize) (some (r * pageSize)) m = (m', -1) ∧ Grown m₀ m' pd fun _ => False) ∨
      ∃ m', allocLoop pd flags n (p * pageSize) (some (r * pageSize)) m = (m', 0) ∧
        Filled m₀ m' pd flags fun q => r ≤ q ∧ q < p + n := by
  induction n generalizing p m with
  | zero => exact Or.inr ⟨m, rfl, h⟩
  | succ n ih =>
    have hp : p < pageCount := by omega
    rw [Machine.allocLoop, page_succ]
    by_cases htrans : m.vmmTranslateIn pd (p * pageSize) = 0
    · rw [if_neg (not_not_intro htrans)]
      have hview := h.space.view_none hp htrans fun he => absurd he (by omega)
      rcases h.space.newPage hp hview (fun hf => huser hf p (Nat.le_refl p) (by omega)) with ⟨m₁, he, hg⟩ | ⟨m₁, he, hg⟩
      · rw [he]
        refine Or.inl ⟨_, rfl, Grown.rollback ?_ hr hp⟩
        exact (h.toGrown.trans hg).congr fun q => or_iff_left id
      · rw [he]
        have hnext : Filled m₀ m₁ pd flags fun q => r ≤ q ∧ q < p + 1 := (h.trans hg).congr fun q => by omega
        have hrun := ih hnext (by omega) (by omega) fun hf q hlo hhi => huser hf q (by omega) (by omega)
        rw [Nat.add_right_comm] at hrun
        exact hrun
    · rw [if_pos htrans]
      exact Or.inl ⟨_, rfl, h.toGrown.rollback hr hp⟩

/-- Pages that are mapped already may come first. -/
theorem Space.allocLoop (h : m.Space pd) (hn : p + n < pageCount)
    (hzero : p = 0 → 0 < n → ¬(present (m.pte pd 0) = true ∧ m.frameAt pd 0 = 0))
    (huser : flags &&& pteUser ≠ 0 → ∀ q, p ≤ q → q < p + n → userPage (q * pageSize) = true) :
    (∃ m', allocLoop pd flags n (p * pageSize) none m = (m', -1) ∧ Grown m m' pd fun _ => False) ∨
      ∃ m' k, k ≤ n ∧ allocLoop pd flags n (p * pageSize) none m = (m', 0) ∧
        (∀ q, p ≤ q → q < p + k → present (m.pte pd q) = true) ∧ Filled m m' pd flags fun q => p + k ≤ q ∧ q < p + n := by
  induction n generalizing p with
  | zero =>
    exact Or.inr ⟨m, 0, Nat.le_refl 0, rfl, fun q hlo hhi => by omega, (Grown.refl h).filled.congr fun q => ⟨False.elim, fun hq => by omega⟩⟩
  | succ n ih =>
    have hp : p < pageCount := by omega
    rw [Machine.allocLoop, page_succ]
    by_cases htrans : m.vmmTranslateIn pd (p * pageSize) = 0
    · rw [if_neg (not_not_intro htrans)]
      have hview : m.view pd p = none := by
        refine h.view_none hp htrans fun he => ?_
        exact hzero he (by omega)
      rcases h.newPage hp hview (fun hf => huser hf p (Nat.le_refl p) (by omega)) with ⟨m₁, he, hg⟩ | ⟨m₁, he, hg⟩
      · rw [he]
        exact Or.inl ⟨_, rfl, hg⟩
      · rw [he]
        have hnext : Filled m m₁ pd flags fun q => p ≤ q ∧ q < p + 1 := hg.congr fun q => by omega
        rcases hnext.allocLoop (n := n) (by omega) (by omega) (fun hf q hlo hhi => huser hf q (by omega) (by omega)) with
          ⟨m', he', hg'⟩ | ⟨m', he', hg'⟩
        · exact Or.inl ⟨m', he', hg'⟩
        · refine Or.inr ⟨m', 0, Nat.zero_le _, he', fun q hlo hhi => by omega, hg'.congr fun q => by omega⟩
    · rw [if_pos htrans]
      obtain ⟨hmapped, -⟩ := (h.translate_ne_zero hp).mp htrans
      rcases ih (p := p + 1) (by omega) (fun he => by omega) (fun hf q hlo hhi => huser hf q (by omega) (by omega)) with
        ⟨m', he, hg⟩ | ⟨m', k, hk, he, hlead, hg⟩
      · exact Or.inl ⟨m', he, hg⟩
      · refine Or.inr ⟨m', k + 1, by omega, he, fun q hlo hhi => ?_, hg.congr fun q => by omega⟩
        by_cases heq : q = p
        · rw [heq]
          exact hmapped
        · exact hlead q (by omega) (by omega)

/-- The first page that starts at `stop` or after it. -/
def pagesTo (stop : ℕ) : ℕ := (stop + 4095) / 4096

theorem allocRange_loop (m : Machine) (hpd : pd ≠ 0) (hsize : size ≠ 0) (hstop : start + size ≤ 4294963200)
    (hflags : flags &&& pteUser ≠ 0 → userMin ≤ start ∧ start + size ≤ userMax) :
    m.vmmAllocRange pd start size flags =
      allocLoop pd flags (pagesTo (start + size) - start / pageSize) (start / pageSize * pageSize) none m := by
  have hwindow : ¬(flags &&& pteUser ≠ 0 ∧ (start < userMin ∨ userMax < start + size)) := by
    rintro ⟨hf, hout⟩
    obtain ⟨hlo, hhi⟩ := hflags hf
    omega
  have hle : start / pageSize * pageSize ≤ pagesTo (start + size) * pageSize := by
    unfold pagesTo pageSize
    omega
  unfold vmmAllocRange
  rw [if_neg hpd, if_neg hsize]
  dsimp only
  rw [if_neg (by omega), if_neg hwindow, alignUp_page hstop]
  change (if pagesTo (start + size) * pageSize < _ then _ else allocLoop pd flags ((pagesTo (start + size) * pageSize - _) / _) _ _ _) = _
  rw [if_neg (Nat.not_lt.mpr hle), ← Nat.sub_mul, Nat.mul_div_cancel _ (by decide)]

/-- `vmm_alloc_range` leaves everything as it was, or fills what comes after the pages that are mapped already. -/
theorem Space.allocRange (h : m.Space pd) (start size flags : ℕ) (hsize : size ≠ 0) (hstop : start + size ≤ 4294963200)
    (hflags : flags &&& pteUser ≠ 0 → userMin ≤ start ∧ start + size ≤ userMax)
    (hzero : start < pageSize → ¬(present (m.pte pd 0) = true ∧ m.frameAt pd 0 = 0)) :
    (∃ m', m.vmmAllocRange pd start size flags = (m', -1) ∧ Grown m m' pd fun _ => False) ∨
      ∃ m' k, m.vmmAllocRange pd start size flags = (m', 0) ∧ start / pageSize ≤ k ∧ k ≤ pagesTo (start + size) ∧
        (∀ q, start / pageSize ≤ q → q < k → present (m.pte pd q) = true) ∧
          Filled m m' pd flags fun q => k ≤ q ∧ q < pagesTo (start + size) := by
  rw [allocRange_loop m h.pd_ne hsize hstop hflags]
  obtain ⟨n, hn⟩ : ∃ n, pagesTo (start + size) = start / pageSize + n := by
    refine ⟨pagesTo (start + size) - start / pageSize, ?_⟩
    unfold pagesTo pageSize
    omega
  have hend : start / pageSize + n < pageCount := by
    rw [← hn]
    unfold pagesTo pageCount
    omega
  have huser : flags &&& pteUser ≠ 0 → ∀ q, start / pageSize ≤ q → q < start / pageSize + n → userPage (q * pageSize) = true := by
    intro hf q hlo hhi
    obtain ⟨hmin, hmax⟩ := hflags hf
    rw [← hn] at hhi
    unfold userPage
    unfold pagesTo userMin userMax pageSize at *
    simp only [decide_eq_true_eq]
    omega
  rw [hn, Nat.add_sub_cancel_left]
  rcases h.allocLoop hend (fun he _ => hzero (by unfold pageSize at *; omega)) huser with hfail | ⟨m', k, hk, he, hlead, hg⟩
  · exact Or.inl hfail
  · exact Or.inr ⟨m', start / pageSize + k, he, Nat.le_add_right _ _, by omega, hlead, hg⟩

/-! ## All or nothing -/

/-- The page has a byte of the range. -/
def Touches (start size p : ℕ) : Prop := ∃ virt, start ≤ virt ∧ virt < start + size ∧ virt / pageSize = p

/-- The pages of the range that were mapped are as they were, like all outside it. The others have cleared frames of
their own that were free. -/
structure AllMapped (m m' : Machine) (pd start size flags : ℕ) : Prop where
  mapped : ∀ p, Touches start size p → present (m'.pte pd p) = true
  kept : ∀ p < pageCount, present (m.pte pd p) = true ∨ ¬Touches start size p → m'.view pd p = m.view pd p
  new : ∀ p, Touches start size p → present (m.pte pd p) = false →
    m'.pte pd p = mapEntry (m'.frameAt pd p) flags ∧ m'.mem (m'.frameAt pd p) = (fun _ => 0) ∧
      m.bitmap (m'.frameAt pd p) = false ∧ m'.bitmap (m'.frameAt pd p) = true
  distinct : ∀ p q, Touches start size p → Touches start size q → present (m.pte pd p) = false → present (m.pte pd q) = false →
    m'.frameAt pd p = m'.frameAt pd q → p = q

/-- Every page is as it was. Only tables have been taken. -/
structure NothingMapped (m m' : Machine) (pd : ℕ) : Prop where
  kept : ∀ p < pageCount, m'.view pd p = m.view pd p
  taken : ∀ f, m'.bitmap f = true → m.bitmap f = true ∨ m'.IsTable pd f
  held : ∀ f, m.bitmap f = true → m'.bitmap f = true

/-- What `vmm_alloc_range` is to do. -/
def AllOrNothing (m : Machine) (pd start size flags : ℕ) : Prop :=
  (m.vmmAllocRange pd start size flags).2 = 0 ∧ AllMapped m (m.vmmAllocRange pd start size flags).1 pd start size flags ∨
    (m.vmmAllocRange pd start size flags).2 = -1 ∧ NothingMapped m (m.vmmAllocRange pd start size flags).1 pd

/-- A range that starts in page 0 must not reach into the last page, unless every page is mapped, and page 0 must not
be mapped to frame 0, unless all frames are in use. -/
def Allocatable (m : Machine) (pd start size flags : ℕ) : Prop :=
  pd = 0 ∨ size = 0 ∨ 4294967295 < start + size ∨ flags &&& pteUser ≠ 0 ∨ pageSize ≤ start ∨
    if 4294963200 < start + size then ∀ p < pageCount, present (m.pte pd p) = true
    else ¬(present (m.pte pd 0) = true ∧ m.frameAt pd 0 = 0) ∨ ∀ f < m.totalFrames, m.bitmap f = true

theorem touches_iff (hsize : size ≠ 0) : Touches start size p ↔ start / pageSize ≤ p ∧ p < pagesTo (start + size) := by
  constructor
  · rintro ⟨virt, hlo, hhi, rfl⟩
    unfold pagesTo pageSize
    omega
  · rintro ⟨hlo, hhi⟩
    by_cases hp : start / pageSize = p
    · exact ⟨start, Nat.le_refl _, by omega, hp⟩
    · refine ⟨p * pageSize, ?_, ?_, Nat.mul_div_cancel _ (by decide)⟩
      · unfold pageSize at *
        omega
      · unfold pagesTo at hhi
        unfold pageSize at *
        omega

/-- A range without a page that is mapped already. -/
theorem Space.allocRange_new (h : m.Space pd) (start size flags : ℕ) (hsize : size ≠ 0) (hstart : pageSize ≤ start) (hstop : start + size ≤ 4294963200)
    (hflags : flags &&& pteUser ≠ 0 → userMin ≤ start ∧ start + size ≤ userMax) (hnew : ∀ p, Touches start size p → m.view pd p = none) :
    (∃ m', m.vmmAllocRange pd start size flags = (m', -1) ∧ Grown m m' pd fun _ => False) ∨
      ∃ m', m.vmmAllocRange pd start size flags = (m', 0) ∧ Filled m m' pd flags (Touches start size) := by
  rcases h.allocRange start size flags hsize hstop hflags (fun hlt => absurd hstart (Nat.not_le.mpr hlt)) with hfail | ⟨m', k, he, hk, hk', hlead, hg⟩
  · exact Or.inl hfail
  · have hfirst : k = start / pageSize := by
      by_contra hne
      have hlt : start / pageSize < k := by omega
      have hpresent := hlead _ (Nat.le_refl _) hlt
      have hview := hnew _ ((touches_iff hsize).mpr ⟨Nat.le_refl _, by omega⟩)
      rw [view_eq_none, hpresent] at hview
      cases hview
    refine Or.inr ⟨m', he, hg.congr fun p => ?_⟩
    rw [touches_iff hsize, hfirst]

theorem NothingMapped.refl (m : Machine) (pd : ℕ) : NothingMapped m m pd :=
  ⟨fun _ _ => rfl, fun _ hf => Or.inl hf, fun _ hf => hf⟩

theorem Grown.nothingMapped (h : Grown m m' pd fun _ => False) : NothingMapped m m' pd := by
  refine ⟨fun p hp => h.old p hp id, fun f hf => ?_, fun f hf => (h.used f).mpr (Or.inl hf)⟩
  rcases (h.used f).mp hf with hf | hf | ⟨p, hp, -⟩
  · exact Or.inl hf
  · exact Or.inr hf
  · exact hp.elim

/-- Where what is filled comes after a mapped part, it is what was not mapped. -/
theorem Filled.allMapped {k : ℕ} (h : Filled m m' pd flags fun q => k ≤ q ∧ q < pagesTo (start + size)) (hsize : size ≠ 0)
    (hk : start / pageSize ≤ k) (hend : pagesTo (start + size) ≤ pageCount)
    (hlead : ∀ q, start / pageSize ≤ q → q < k → present (m.pte pd q) = true) : AllMapped m m' pd start size flags := by
  have hnew : ∀ p, Touches start size p → present (m.pte pd p) = false → k ≤ p ∧ p < pagesTo (start + size) := by
    intro p hp hnot
    obtain ⟨hlo, hhi⟩ := (touches_iff hsize).mp hp
    refine ⟨Nat.le_of_not_lt fun hlt => ?_, hhi⟩
    rw [hlead p hlo hlt] at hnot
    cases hnot
  refine ⟨fun p hp => ?_, fun p hlt hp => ?_, fun p hp hnot => ?_, fun p q hp hq hp' hq' he => ?_⟩
  · obtain ⟨hlo, hhi⟩ := (touches_iff hsize).mp hp
    cases hmapped : present (m.pte pd p) with
    | true => rw [h.pte_old hmapped (Nat.lt_of_lt_of_le hhi hend), hmapped]
    | false => exact h.mapped p (hnew p hp hmapped)
  · refine h.old p hlt fun hin => ?_
    rcases hp with hp | hp
    · rw [view_eq_none.mp (h.fresh p hin)] at hp
      cases hp
    · exact hp ((touches_iff hsize).mpr ⟨Nat.le_trans hk hin.1, hin.2⟩)
  · have hin := hnew p hp hnot
    exact ⟨h.entry p hin, h.zeroed p hin, h.free p hin, h.frame_used hin⟩
  · exact h.inj p q (hnew p hp hp') (hnew q hq hq') he

theorem store_store (m : Machine) (t i v w : ℕ) : (m.store t i v).store t i w = m.store t i w := by
  unfold Machine.store
  simp

theorem store_self (m : Machine) (t i : ℕ) : m.store t i (m.mem t i) = m := by
  unfold Machine.store
  simp

/-- The space without one of its pages. -/
theorem Space.without (h : m.Space pd) (hp : p < pageCount) (hmapped : present (m.pte pd p) = true) :
    ∃ m₀, m₀.Space pd ∧ Updated m₀ m pd (Function.update (m₀.pte pd) p (m.pte pd p)) ∧ m₀.view pd p = none := by
  have hpde : present (m.mem pd (p / 1024)) = true := by
    by_contra hno
    rw [pte_of_absent (by simpa using hno)] at hmapped
    cases hmapped
  obtain ⟨-, -, hnepd⟩ := h.table _ (index_lt hp) hpde
  have hstore := h.storePage hp hpde 0 fun he => by cases he
  have hentry := pte_of_present hpde
  generalize ht : frameOf (m.mem pd (p / 1024)) = t at *
  have hpd : (m.store t (p % 1024) 0).mem pd = m.mem pd := Function.update_of_ne hnepd.symm ..
  have hback := hstore.space.storePage hp (by rw [hpd]; exact hpde) (m.pte pd p) fun _ => h.zero p hp hmapped
  rw [hpd, ht, store_store, hentry, store_self] at hback
  refine ⟨m.store t (p % 1024) 0, hstore.space, ?_, ?_⟩
  · rw [hentry]
    exact hback
  · rw [view_eq_none, hstore.pte p hp, Function.update_self]
    rfl

/-- With a table, there is nothing that `vmm_map_in` can fail at. -/
theorem Space.mapIn_ok (h : m.Space pd) (hp : p < pageCount) (hpde : present (m.mem pd (p / 1024)) = true)
    (hflags : flags &&& pteUser = 0) : (m.vmmMapIn pd (p * pageSize) (f * pageSize) flags).2 = 0 := by
  obtain ⟨-, hne, -⟩ := h.table _ (index_lt hp) hpde
  unfold Machine.vmmMapIn Machine.tableFor
  rw [if_neg h.pd_ne, if_neg (by simp), pageStart_div]
  simp [hflags, hpde, hne]

/-- Page 0 translates to 0 when it is mapped to frame 0, and is taken for a page that is not mapped. -/
theorem Space.page_zero_lost (h : m.Space pd) (hsize : size ≠ 0) (hstop : start + size ≤ 4294963200) (hstart : start < pageSize)
    (hflags : flags &&& pteUser = 0) (hmapped : present (m.pte pd 0) = true) (hframe : m.frameAt pd 0 = 0)
    (hf : ∃ f < m.totalFrames, m.bitmap f = false) : (m.vmmAllocRange pd start size flags).1.view pd 0 ≠ m.view pd 0 := by
  have hp : 0 < pageCount := by decide
  have hfirst : start / pageSize = 0 := Nat.div_eq_of_lt hstart
  have hnouser : ¬flags &&& pteUser ≠ 0 := not_not_intro hflags
  have hend : pagesTo (start + size) < pageCount := by
    unfold pagesTo pageCount
    omega
  obtain ⟨n, hn⟩ : ∃ n, pagesTo (start + size) = n + 1 := by
    refine ⟨pagesTo (start + size) - 1, ?_⟩
    unfold pagesTo
    omega
  have htrans : m.vmmTranslateIn pd (0 * pageSize) = 0 := by
    rw [h.translate_page hp, hmapped, if_pos rfl, hframe, Nat.zero_mul]
  have hpde : present (m.mem pd (0 / 1024)) = true := by
    by_contra hno
    rw [pte_of_absent (by simpa using hno)] at hmapped
    cases hmapped
  obtain ⟨m₀, h₀, hu, hview⟩ := h.without hp hmapped
  rw [allocRange_loop m h.pd_ne hsize hstop fun he => absurd he hnouser, hfirst, hn, Nat.sub_zero, Machine.allocLoop,
    if_neg (not_not_intro htrans), page_succ]
  have hmade : ∃ m', m.newPage pd (0 * pageSize) flags = (m', true) ∧ Filled m₀ m' pd flags fun q => q = 0 := by
    refine (hu.newPage h₀ hp hview fun he => absurd he hnouser).resolve_left ?_
    rintro ⟨m', he, -⟩
    rcases m.pmmAllocFrame_spec with ⟨f, -, hfree, hf'⟩ | ⟨-, hall⟩
    · have hzero : f ≠ 0 := by
        rintro rfl
        rw [h.reserved] at hfree
        cases hfree
      obtain ⟨hspace, -, -⟩ := h.withFrame hfree
      have hsame : (m.withFrame f).mem pd = m.mem pd := withFrame_mem m fun he => h.not_holds_free hfree (Or.inl he.symm)
      have hok := hspace.mapIn_ok (f := f) hp (by rw [hsame]; exact hpde) hflags
      rw [newPage_eq hzero hf', hok, if_neg (by decide)] at he
      cases he
    · obtain ⟨f, hlt, hfree⟩ := hf
      rw [hall f hlt] at hfree
      cases hfree
  obtain ⟨m₁, he, hg⟩ := hmade
  rw [he, view_of_present hmapped]
  have hnext : Filled m₀ m₁ pd flags fun q => 0 ≤ q ∧ q < 0 + 1 := hg.congr fun q => by omega
  rcases hnext.allocLoop (n := n) (by omega) (by omega) (fun he => absurd he hnouser) with ⟨m', he', hg'⟩ | ⟨m', he', hg'⟩
  · change (Machine.allocLoop pd flags n ((0 + 1) * pageSize) (some (0 * pageSize)) m₁).1.view pd 0 ≠ _
    rw [he', hg'.old 0 hp id, hview]
    exact Option.some_ne_none _ |>.symm
  · change (Machine.allocLoop pd flags n ((0 + 1) * pageSize) (some (0 * pageSize)) m₁).1.view pd 0 ≠ _
    rw [he']
    intro hsame
    have hin : 0 ≤ 0 ∧ 0 < 0 + 1 + n := by omega
    have hentry := (present_of_view hsame).2
    apply hg'.frame_ne hin
    unfold frameAt at hframe ⊢
    rw [hentry]
    exact hframe

/-- Without a free frame the call stops at page 0. -/
theorem Space.allocRange_full (h : m.Space pd) (hsize : size ≠ 0) (hstop : start + size ≤ 4294963200) (hstart : start < pageSize)
    (hflags : flags &&& pteUser = 0) (hmapped : present (m.pte pd 0) = true) (hframe : m.frameAt pd 0 = 0)
    (hfull : ∀ f < m.totalFrames, m.bitmap f = true) : m.vmmAllocRange pd start size flags = (m, -1) := by
  have htrans : m.vmmTranslateIn pd (0 * pageSize) = 0 := by
    rw [h.translate_page (by decide), hmapped, if_pos rfl, hframe, Nat.zero_mul]
  obtain ⟨n, hn⟩ : ∃ n, pagesTo (start + size) = n + 1 := by
    refine ⟨pagesTo (start + size) - 1, ?_⟩
    unfold pagesTo
    omega
  have hmade : m.newPage pd (0 * pageSize) flags = (m, false) := by
    rcases m.pmmAllocFrame_spec with ⟨f, hlt, hfree, -⟩ | ⟨he, -⟩
    · rw [hfull f hlt] at hfree
      cases hfree
    · unfold Machine.newPage
      rw [he]
      rfl
  rw [allocRange_loop m h.pd_ne hsize hstop fun he => absurd hflags he, Nat.div_eq_of_lt hstart, hn, Nat.sub_zero, Machine.allocLoop,
    if_neg (not_not_intro htrans), hmade]
  rfl

theorem allOrNothing_rejected (h : m.vmmAllocRange pd start size flags = (m, -1)) : AllOrNothing m pd start size flags := by
  refine Or.inr ?_
  rw [h]
  exact ⟨rfl, .refl m pd⟩

/-- The call is rejected for its arguments. -/
theorem allocRange_rejects (m : Machine) (hsize : size ≠ 0)
    (h : pd = 0 ∨ 4294967295 < start + size ∨ flags &&& pteUser ≠ 0 ∧ (start < userMin ∨ userMax < start + size) ∨
      4294963200 < start + size ∧ pageSize ≤ start) : m.vmmAllocRange pd start size flags = (m, -1) := by
  unfold vmmAllocRange
  rw [if_neg hsize]
  split
  · rfl
  · next hpd =>
    dsimp only
    split
    · rfl
    · next hstop =>
      split
      · rfl
      · next hwindow =>
        obtain ⟨hlast, hstart⟩ := ((h.resolve_left hpd).resolve_left fun hlt => hstop (Or.inl hlt)).resolve_left hwindow
        rw [alignUp_wrap hlast (by omega), if_pos]
        unfold pageSize at *
        omega

/-- Below the last page and outside page 0 the loop does what it is to do. -/
theorem Space.allOrNothing (h : m.Space pd) (hsize : size ≠ 0) (hstop : start + size ≤ 4294963200)
    (hflags : flags &&& pteUser ≠ 0 → userMin ≤ start ∧ start + size ≤ userMax)
    (hzero : start < pageSize → ¬(present (m.pte pd 0) = true ∧ m.frameAt pd 0 = 0)) : AllOrNothing m pd start size flags := by
  unfold AllOrNothing
  rcases h.allocRange start size flags hsize hstop hflags hzero with ⟨m', he, hg⟩ | ⟨m', k, he, hk, -, hlead, hg⟩
  · rw [he]
    exact Or.inr ⟨rfl, hg.nothingMapped⟩
  · rw [he]
    refine Or.inl ⟨rfl, hg.allMapped hsize hk ?_ hlead⟩
    unfold pagesTo pageCount
    omega

/-- A range of all pages wraps around to an empty one. -/
theorem allOrNothing_wraps (m : Machine) (hpd : pd ≠ 0) (hstart : start < pageSize) (hlast : 4294963200 < start + size)
    (hstop : start + size ≤ 4294967295) (hflags : flags &&& pteUser = 0) :
    AllOrNothing m pd start size flags ↔ ∀ p < pageCount, present (m.pte pd p) = true := by
  have hsize : size ≠ 0 := by
    unfold pageSize at hstart
    omega
  have htouches : ∀ p < pageCount, Touches start size p := by
    intro p hp
    rw [touches_iff hsize, Nat.div_eq_of_lt hstart]
    unfold pagesTo
    unfold pageCount at hp
    omega
  have hrun : m.vmmAllocRange pd start size flags = (m, 0) := by
    unfold vmmAllocRange
    rw [if_neg hpd, if_neg hsize]
    dsimp only
    rw [if_neg (by omega), if_neg fun he => he.1 hflags, alignUp_wrap hlast hstop, Nat.div_eq_of_lt hstart, Nat.zero_mul]
    rfl
  unfold AllOrNothing
  rw [hrun]
  constructor
  · rintro (⟨-, hall⟩ | ⟨hfail, -⟩) p hp
    · exact hall.mapped p (htouches p hp)
    · cases hfail
  · intro hall
    have hlt : ∀ p, Touches start size p → p < pageCount := by
      rintro p ⟨virt, -, hhi, rfl⟩
      unfold pageCount pageSize
      omega
    refine Or.inl ⟨rfl, fun p hp => hall p (hlt p hp), fun _ _ _ => rfl, fun p hp hnot => ?_, fun p q hp _ hnot => ?_⟩
    · rw [hall p (hlt p hp)] at hnot
      cases hnot
    · rw [hall p (hlt p hp)] at hnot
      cases hnot

/-- `vmm_alloc_range` maps the whole range or leaves all pages as they were. -/
theorem alloc_range_iff (m : Machine) (hspace : pd = 0 ∨ m.Space pd) (start size flags : ℕ) :
    AllOrNothing m pd start size flags ↔ Allocatable m pd start size flags := by
  unfold Allocatable
  by_cases hsize : size = 0
  · subst hsize
    refine iff_of_true ?_ (Or.inr (Or.inl rfl))
    rcases hspace with rfl | h
    · exact allOrNothing_rejected rfl
    · have hrun : m.vmmAllocRange pd start 0 flags = (m, 0) := by
        unfold vmmAllocRange
        rw [if_neg h.pd_ne]
        rfl
      have hnone : ∀ p, ¬Touches start 0 p := by
        rintro p ⟨virt, hlo, hhi, -⟩
        omega
      refine Or.inl ?_
      rw [hrun]
      exact ⟨rfl, fun p hp => (hnone p hp).elim, fun _ _ _ => rfl, fun p hp => (hnone p hp).elim, fun p _ hp => (hnone p hp).elim⟩
  rcases hspace with hpd | h
  · exact iff_of_true (allOrNothing_rejected (allocRange_rejects m hsize (Or.inl hpd))) (Or.inl hpd)
  have hpd := h.pd_ne
  by_cases hstop : 4294967295 < start + size
  · exact iff_of_true (allOrNothing_rejected (allocRange_rejects m hsize (Or.inr (Or.inl hstop)))) (Or.inr (Or.inr (Or.inl hstop)))
  by_cases hflags : flags &&& pteUser = 0
  · have hnouser : ¬flags &&& pteUser ≠ 0 := not_not_intro hflags
    by_cases hstart : pageSize ≤ start
    · refine iff_of_true ?_ (Or.inr (Or.inr (Or.inr (Or.inr (Or.inl hstart)))))
      by_cases hlast : 4294963200 < start + size
      · exact allOrNothing_rejected (allocRange_rejects m hsize (Or.inr (Or.inr (Or.inr ⟨hlast, hstart⟩))))
      · exact h.allOrNothing hsize (by omega) (fun he => absurd he hnouser) fun hlt => absurd hstart (Nat.not_le.mpr hlt)
    · have hlow := Nat.lt_of_not_le hstart
      simp only [hpd, hsize, hstop, hflags, hstart, ne_eq, not_true_eq_false, false_or]
      split
      · next hlast => exact allOrNothing_wraps m hpd hlow hlast (by omega) hflags
      · next hlast =>
        have hle : start + size ≤ 4294963200 := by omega
        by_cases hzero : present (m.pte pd 0) = true ∧ m.frameAt pd 0 = 0
        · by_cases hfull : ∀ f < m.totalFrames, m.bitmap f = true
          · exact iff_of_true (allOrNothing_rejected (h.allocRange_full hsize hle hlow hflags hzero.1 hzero.2 hfull)) (Or.inr hfull)
          · refine iff_of_false ?_ fun hor => hor.elim (fun hno => hno hzero) hfull
            have hfree : ∃ f < m.totalFrames, m.bitmap f = false := by
              by_contra hno
              refine hfull fun f hf => ?_
              by_contra hbit
              exact hno ⟨f, hf, by simpa using hbit⟩
            have hlost := h.page_zero_lost hsize hle hlow hflags hzero.1 hzero.2 hfree
            rintro (⟨-, hall⟩ | ⟨-, hno⟩)
            · exact hlost (hall.kept 0 (by decide) (Or.inl hzero.1))
            · exact hlost (hno.kept 0 (by decide))
        · exact iff_of_true (h.allOrNothing hsize hle (fun he => absurd he hnouser) fun _ => hzero) (Or.inl hzero)
  · refine iff_of_true ?_ (Or.inr (Or.inr (Or.inr (Or.inl hflags))))
    by_cases hwindow : start < userMin ∨ userMax < start + size
    · exact allOrNothing_rejected (allocRange_rejects m hsize (Or.inr (Or.inr (Or.inl ⟨hflags, hwindow⟩))))
    · unfold userMin userMax at hwindow
      refine h.allOrNothing hsize (by omega) (fun _ => ?_) fun hlt => ?_
      · unfold userMin userMax
        omega
      · unfold pageSize at hlt
        omega

/-- A directory without tables, in frame 1. -/
def noTables : Machine where
  bitmap := fun f => f < 2
  totalFrames := 64
  mem := fun _ _ => 0
  kernelPd := 1
  spaces := []
  mappedPages := 0

theorem noTables_absent (i : ℕ) : present (noTables.mem 1 i) = false := by
  change present 0 = false
  decide

theorem noTables_view (p : ℕ) : noTables.view 1 p = none := by
  rw [view_eq_none, pte_of_absent (noTables_absent _)]
  decide

theorem noTables_space : noTables.Space 1 := by
  refine ⟨by decide, rfl, rfl, fun i _ hp => ?_, fun i _ j _ hp => ?_, fun p _ hp => ?_⟩
  · rw [noTables_absent] at hp
    cases hp
  · rw [noTables_absent] at hp
    cases hp
  · rw [view_eq_none.mp (noTables_view p)] at hp
    cases hp

theorem alloc_range_iff_twoPages : (noTables.vmmAllocRange 1 0x40000FFC 8 7).2 = 0 ∧ AllOrNothing noTables 1 0x40000FFC 8 7 :=
  ⟨by decide, (alloc_range_iff noTables (Or.inr noTables_space) 0x40000FFC 8 7).mpr (by
    unfold Allocatable
    exact Or.inr (Or.inr (Or.inr (Or.inl (by decide)))))⟩

/-- From page 0 into the last page: nothing is mapped, and 0 is returned. -/
theorem alloc_range_wraps : noTables.vmmAllocRange 1 0 0xFFFFF001 3 = (noTables, 0) ∧ ¬AllOrNothing noTables 1 0 0xFFFFF001 3 := by
  have hrun : noTables.vmmAllocRange 1 0 0xFFFFF001 3 = (noTables, 0) := rfl
  refine ⟨hrun, ?_⟩
  unfold AllOrNothing
  rw [hrun]
  rintro (⟨-, hall⟩ | ⟨hfail, -⟩)
  · have hmapped := hall.mapped 0 ⟨0, by decide, by decide, rfl⟩
    rw [pte_of_absent (noTables_absent _)] at hmapped
    exact absurd hmapped (by decide)
  · cases hfail

end Machine

end SifarOS.Paging
