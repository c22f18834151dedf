import SifarOS.RangeAllocation

/-! # The pages a process owns

Every page that a space maps for its process has a frame of its own. From this a machine can be had in which none of
them is mapped yet, so that all that is known of pages mapped since then applies to them. -/
namespace SifarOS.Paging

namespace Machine

/-- The space maps the page for its process. -/
def UserPage (m : Machine) (pd p : ℕ) : Prop := userPage (p * pageSize) = true ∧ present (m.pte pd p) = true

/-- The frames of the process's pages are in use, all different, and none holds entries. -/
structure Private (m : Machine) (pd : ℕ) : Prop extends m.Space pd where
  used : ∀ p, m.UserPage pd p → m.bitmap (m.frameAt pd p) = true
  frame : ∀ p, m.UserPage pd p → ¬m.Holds pd (m.frameAt pd p)
  managed : ∀ p, m.UserPage pd p → m.frameAt pd p < m.totalFrames
  inj : ∀ p q, m.UserPage pd p → m.UserPage pd q → m.frameAt pd p = m.frameAt pd q → p = q

open Classical in
/-- The machine with the process's pages taken away. -/
noncomputable def bare (m : Machine) (pd : ℕ) : Machine :=
  { m with
    bitmap := fun f => decide (m.bitmap f = true ∧ ¬∃ p, m.UserPage pd p ∧ m.frameAt pd p = f)
    mem := fun f i => if ∃ p, m.UserPage pd p ∧ frameOf (m.mem pd (p / 1024)) = f ∧ p % 1024 = i then 0 else m.mem f i }

variable {m m' m₀ : Machine} {pd p q f : ℕ} {S : ℕ → Prop}

theorem userPage_lt (hp : userPage (p * pageSize) = true) : p < pageCount := by
  unfold userPage at hp
  unfold userMin userMax pageSize at hp
  rw [decide_eq_true_eq] at hp
  unfold pageCount
  omega

theorem UserPage.lt (h : m.UserPage pd p) : p < pageCount := userPage_lt h.1

theorem UserPage.pde (h : m.UserPage pd p) : present (m.mem pd (p / 1024)) = true := by
  by_contra hno
  have hp := h.2
  rw [pte_of_absent (by simpa using hno)] at hp
  exact absurd hp (by decide)

theorem Private.frame_ne (h : m.Private pd) (hp : m.UserPage pd p) : m.frameAt pd p ≠ 0 := by
  intro hzero
  obtain rfl := h.zero p hp.lt hp.2 hzero
  exact absurd hp.1 (by decide)

theorem bare_bitmap (m : Machine) (pd f : ℕ) :
    (m.bare pd).bitmap f = true ↔ m.bitmap f = true ∧ ¬∃ p, m.UserPage pd p ∧ m.frameAt pd p = f := by
  classical
  unfold bare
  dsimp only
  rw [decide_eq_true_eq]

/-- Frames that are no tables are as they were. -/
theorem bare_mem (hf : ¬m.IsTable pd f) : (m.bare pd).mem f = m.mem f := by
  classical
  funext i
  unfold bare
  dsimp only
  rw [if_neg]
  rintro ⟨p, hp, hframe, -⟩
  exact hf ⟨p / 1024, index_lt hp.lt, hp.pde, hframe⟩

theorem bare_pte (h : m.Space pd) (hp : p < pageCount) :
    (¬m.UserPage pd p → (m.bare pd).pte pd p = m.pte pd p) ∧ (m.UserPage pd p → (m.bare pd).pte pd p = 0) := by
  classical
  have hpd : (m.bare pd).mem pd = m.mem pd := by
    apply bare_mem
    rintro ⟨i, hi, hpi, he⟩
    exact (h.table i hi hpi).2.2 he
  cases hpde : present (m.mem pd (p / 1024)) with
  | false =>
    have hpde' : present ((m.bare pd).mem pd (p / 1024)) = false := by rw [hpd]; exact hpde
    rw [pte_of_absent hpde', pte_of_absent hpde]
    exact ⟨fun _ => rfl, fun _ => rfl⟩
  | true =>
    have hpde' : present ((m.bare pd).mem pd (p / 1024)) = true := by rw [hpd]; exact hpde
    rw [pte_of_present hpde', pte_of_present hpde, hpd]
    unfold bare
    dsimp only
    constructor
    · intro hnot
      rw [if_neg]
      rintro ⟨q, hq, hframe, hmod⟩
      have hdiv := h.tables _ (index_lt hq.lt) _ (index_lt hp) hq.pde hpde hframe
      rw [page_eq hdiv hmod] at hq
      exact hnot hq
    · intro hu
      exact if_pos ⟨p, hu, rfl, rfl⟩

/-- Nothing is mapped for the process in the bare machine, and its pages are what has been mapped since. -/
theorem Private.grown (h : m.Private pd) : (m.bare pd).Grown m pd (m.UserPage pd) ∧
    ∀ p, userPage (p * pageSize) = true → (m.bare pd).view pd p = none := by
  have hnotpd : ¬m.IsTable pd pd := by
    rintro ⟨i, hi, hpi, he⟩
    exact (h.table i hi hpi).2.2 he
  have hpd : (m.bare pd).mem pd = m.mem pd := bare_mem hnotpd
  have htable : ∀ g, (m.bare pd).IsTable pd g ↔ m.IsTable pd g := by
    intro g
    unfold IsTable
    rw [hpd]
  have hzeroentry : present 0 = false := by decide
  have hholds : ∀ g, m.Holds pd g → ¬∃ p, m.UserPage pd p ∧ m.frameAt pd p = g := by
    rintro g hg ⟨p, hp, rfl⟩
    exact h.frame p hp hg
  have hspace : (m.bare pd).Space pd := by
    refine ⟨h.pd_ne, ?_, ?_, fun i hi hp => ?_, ?_, fun p hp hpresent hzero => ?_⟩
    · exact (bare_bitmap m pd pd).mpr ⟨h.pd_used, hholds pd (Or.inl rfl)⟩
    · refine (bare_bitmap m pd 0).mpr ⟨h.reserved, ?_⟩
      rintro ⟨p, hp, hframe⟩
      exact h.frame_ne hp hframe
    · rw [hpd] at hp ⊢
      obtain ⟨hbit, hne, hne'⟩ := h.table i hi hp
      exact ⟨(bare_bitmap m pd _).mpr ⟨hbit, hholds _ (Or.inr ⟨i, hi, hp, rfl⟩)⟩, hne, hne'⟩
    · rw [hpd]
      exact h.tables
    · by_cases hu : m.UserPage pd p
      · rw [(bare_pte h.toSpace hp).2 hu, hzeroentry] at hpresent
        cases hpresent
      · unfold frameAt at hzero
        rw [(bare_pte h.toSpace hp).1 hu] at hpresent hzero
        exact h.zero p hp hpresent hzero
  have hnone : ∀ p, m.UserPage pd p → (m.bare pd).view pd p = none := by
    intro p hp
    rw [view_eq_none, (bare_pte h.toSpace hp.lt).2 hp]
    exact hzeroentry
  refine ⟨⟨hspace, h.toSpace, rfl, fun p hp => hp.lt, fun p hp hnot => (view_congr ((bare_pte h.toSpace hp).1 hnot)).symm, hnone,
    fun p hp => hp.2, fun p hp => ?_, fun p hp htab => h.frame p hp (Or.inr htab), h.managed, h.inj, fun f => ?_, fun f hf hnot => ?_,
    fun f hf => (htable f).mp hf, fun f hf => Or.inl ((htable f).mpr hf), fun p _ hu => ?_⟩, fun p hp => ?_⟩
  · rw [← Bool.not_eq_true, bare_bitmap]
    exact fun hand => hand.2 ⟨p, hp, rfl⟩
  · rw [bare_bitmap]
    constructor
    · intro hf
      by_cases hown : ∃ p, m.UserPage pd p ∧ m.frameAt pd p = f
      · exact Or.inr (Or.inr hown)
      · exact Or.inl ⟨hf, hown⟩
    · rintro (hf | hf | ⟨p, hp, rfl⟩)
      · exact hf.1
      · exact h.used_table hf
      · exact h.used p hp
  · exact (bare_mem fun htab => hnot (Or.inr ((htable f).mpr htab))).symm
  · unfold UserTable at hu ⊢
    rw [← hpd]
    exact hu
  · by_cases hu : m.UserPage pd p
    · exact hnone p hu
    · rw [view_congr ((bare_pte h.toSpace (userPage_lt hp)).1 hu), view_eq_none]
      cases hpresent : present (m.pte pd p) with
      | false => rfl
      | true => exact absurd ⟨hp, hpresent⟩ hu

/-- Pages that were mapped where none was mapped before are the process's pages. -/
theorem Grown.private_pages (h : m₀.Grown m pd S) (hbare : ∀ p, userPage (p * pageSize) = true → m₀.view pd p = none)
    (hs : ∀ p, S p → userPage (p * pageSize) = true) : m.Private pd ∧ ∀ p, m.UserPage pd p ↔ S p := by
  have hiff : ∀ p, m.UserPage pd p ↔ S p := by
    intro p
    constructor
    · rintro ⟨huser, hmapped⟩
      by_contra hnot
      have hview := h.old p (userPage_lt huser) hnot
      rw [hbare p huser, view_eq_none, hmapped] at hview
      cases hview
    · intro hp
      exact ⟨hs p hp, h.mapped p hp⟩
  refine ⟨⟨h.space, fun p hp => h.frame_used ((hiff p).mp hp), fun p hp => h.frame_not_holds ((hiff p).mp hp),
    fun p hp => h.managed p ((hiff p).mp hp), fun p q hp hq => h.inj p q ((hiff p).mp hp) ((hiff q).mp hq)⟩, hiff⟩

/-- What the rest of the kernel and the processes do leaves the entries of the process's pages alone, and their frames in
use. -/
structure Elsewhere (m m' : Machine) (pd : ℕ) : Prop where
  space : m'.Space pd
  total : m'.totalFrames = m.totalFrames
  directory : m'.mem pd = m.mem pd
  pte : ∀ p, userPage (p * pageSize) = true → m'.pte pd p = m.pte pd p
  used : ∀ p, m.UserPage pd p → m'.bitmap (m.frameAt pd p) = true

theorem Private.elsewhere (h : m.Private pd) (he : m.Elsewhere m' pd) : m'.Private pd ∧ ∀ p, m'.UserPage pd p ↔ m.UserPage pd p := by
  have hiff : ∀ p, m'.UserPage pd p ↔ m.UserPage pd p := by
    intro p
    exact and_congr_right fun hp => by rw [he.pte p hp]
  have hframe : ∀ p, m.UserPage pd p → m'.frameAt pd p = m.frameAt pd p := by
    intro p hp
    unfold frameAt
    rw [he.pte p hp.1]
  refine ⟨⟨he.space, fun p hp => ?_, fun p hp => ?_, fun p hp => ?_, fun p q hp hq heq => ?_⟩, hiff⟩
  · rw [hiff] at hp
    rw [hframe p hp]
    exact he.used p hp
  · rw [hiff] at hp
    rw [hframe p hp]
    have hnot := h.frame p hp
    unfold Holds IsTable at hnot ⊢
    rw [he.directory]
    exact hnot
  · rw [hiff] at hp
    rw [hframe p hp, he.total]
    exact h.managed p hp
  · rw [hiff] at hp hq
    rw [hframe p hp, hframe q hq] at heq
    exact h.inj p q hp hq heq

end Machine

end SifarOS.Paging
