import SifarOS.UserAccess

/-! # Address spaces

One directory of `kernel/mm/paging.c` with its tables, page by page. A page is given by its number. What
the calls do to it is said by the entries of all its pages, the frames in use and the contents of frames that
hold no entries. -/
namespace SifarOS.Paging
open ByteMemory

/-- The pages that an address of 32 bits can be in. -/
def pageCount : ℕ := 1048576

namespace Machine

section definitions
variable (m : Machine) (pd : ℕ)

/-- The table entry of page `p`, 0 where it has no table. -/
def pte (p : ℕ) : ℕ := if present (m.mem pd (p / 1024)) then m.mem (frameOf (m.mem pd (p / 1024))) (p % 1024) else 0

/-- The entry, if it counts. -/
def view (p : ℕ) : Option ℕ := if present (m.pte pd p) then some (m.pte pd p) else none

def frameAt (p : ℕ) : ℕ := frameOf (m.pte pd p)

def IsTable (f : ℕ) : Prop := ∃ i < 1024, present (m.mem pd i) = true ∧ frameOf (m.mem pd i) = f

/-- The frame is the directory or one of its tables. -/
def Holds (f : ℕ) : Prop := f = pd ∨ m.IsTable pd f

/-- Processes may get through to the table of page `p`. -/
def UserTable (p : ℕ) : Prop := present (m.mem pd (p / 1024)) = true ∧ m.mem pd (p / 1024) &&& pteUser ≠ 0

/-- The directory and its tables are frames in use, all different. Frame 0 is never handed out, and only page 0
may be mapped to it. -/
structure Space : Prop where
  pd_ne : pd ≠ 0
  pd_used : m.bitmap pd = true
  reserved : m.bitmap 0 = true
  table : ∀ i < 1024, present (m.mem pd i) = true →
    m.bitmap (frameOf (m.mem pd i)) = true ∧ frameOf (m.mem pd i) ≠ 0 ∧ frameOf (m.mem pd i) ≠ pd
  tables : ∀ i < 1024, ∀ j < 1024, present (m.mem pd i) = true → present (m.mem pd j) = true →
    frameOf (m.mem pd i) = frameOf (m.mem pd j) → i = j
  zero : ∀ p < pageCount, present (m.pte pd p) = true → m.frameAt pd p = 0 → p = 0

end definitions

variable {m m' m'' : Machine} {pd p q f t off flags : ℕ} {new new' : ℕ → ℕ}

/-! ## Pages and addresses -/

theorem page_div (hoff : off < pageSize) : (p * pageSize + off) / pdeSpan = p / 1024 := by
  unfold pageSize pdeSpan at *
  omega

theorem page_pteIndex (hoff : off < pageSize) : pteIndex (p * pageSize + off) = p % 1024 := by
  unfold pteIndex pageSize at *
  omega

theorem page_mod (hoff : off < pageSize) : (p * pageSize + off) % pageSize = off := by
  unfold pageSize at *
  omega

theorem pageStart_div (p : ℕ) : p * pageSize / pdeSpan = p / 1024 := by
  unfold pageSize pdeSpan
  omega

theorem pageStart_pteIndex (p : ℕ) : pteIndex (p * pageSize) = p % 1024 := by
  unfold pteIndex pageSize
  omega

theorem index_lt (hp : p < pageCount) : p / 1024 < 1024 := by
  unfold pageCount at hp
  omega

/-- Two pages have the same place in the same table only if they are one. -/
theorem page_eq (hdiv : p / 1024 = q / 1024) (hmod : p % 1024 = q % 1024) : p = q := by omega

theorem pte_of_present (hp : present (m.mem pd (p / 1024)) = true) :
    m.pte pd p = m.mem (frameOf (m.mem pd (p / 1024))) (p % 1024) := if_pos hp

theorem pte_of_absent (hp : present (m.mem pd (p / 1024)) = false) : m.pte pd p = 0 := by
  unfold pte
  rw [hp]
  rfl

theorem view_eq_none : m.view pd p = none ↔ present (m.pte pd p) = false := by
  unfold view
  cases present (m.pte pd p) <;> simp

theorem view_of_present (hp : present (m.pte pd p) = true) : m.view pd p = some (m.pte pd p) := if_pos hp

theorem view_congr (h : m'.pte pd p = m.pte pd p) : m'.view pd p = m.view pd p := by
  unfold view
  rw [h]

theorem present_of_view {e : ℕ} (h : m.view pd p = some e) : present (m.pte pd p) = true ∧ m.pte pd p = e := by
  unfold view at h
  split at h
  · next hp => exact ⟨hp, Option.some.inj h⟩
  · cases h

/-- `vmm_translate_in` by the entry of the page. -/
theorem Space.translate (h : m.Space pd) (hp : p < pageCount) (hoff : off < pageSize) :
    m.vmmTranslateIn pd (p * pageSize + off) = if present (m.pte pd p) then m.frameAt pd p * pageSize + off else 0 := by
  rw [vmmTranslateIn_eq h.pd_ne, page_div hoff, Machine.translate, page_pteIndex hoff, page_mod hoff]
  cases hpde : present (m.mem pd (p / 1024)) with
  | false =>
    rw [pte_of_absent hpde]
    rfl
  | true =>
    obtain ⟨-, hne, -⟩ := h.table _ (index_lt hp) hpde
    unfold frameAt
    rw [pte_of_present hpde]
    cases present (m.mem (frameOf (m.mem pd (p / 1024))) (p % 1024)) <;> simp [hne]

theorem Space.translate_ne_zero (h : m.Space pd) (hp : p < pageCount) :
    m.vmmTranslateIn pd (p * pageSize) ≠ 0 ↔ present (m.pte pd p) = true ∧ m.frameAt pd p ≠ 0 := by
  have hsize : 0 < pageSize := by decide
  have he := h.translate hp hsize
  rw [Nat.add_zero] at he
  rw [he]
  cases present (m.pte pd p) with
  | false => simp
  | true =>
    simp only [if_true, Nat.add_zero, true_and]
    exact ⟨fun hne hzero => hne (by rw [hzero, Nat.zero_mul]), fun hne => Nat.mul_ne_zero hne (Nat.ne_of_gt hsize)⟩

theorem Space.not_holds_free (h : m.Space pd) (hf : m.bitmap f = false) : ¬m.Holds pd f := by
  rintro (rfl | ⟨i, hi, hp, rfl⟩)
  · rw [h.pd_used] at hf
    cases hf
  · rw [(h.table i hi hp).1] at hf
    cases hf

/-- Where the directory and the tables are left alone, and no frame in use becomes free, the space stays. -/
theorem Space.congr (h : m.Space pd) (hmem : ∀ f, m.Holds pd f → m'.mem f = m.mem f)
    (hused : ∀ f, m.bitmap f = true → m'.bitmap f = true ∨ f ≠ 0 ∧ ¬m.Holds pd f) :
    m'.Space pd ∧ (∀ p < pageCount, m'.pte pd p = m.pte pd p) ∧ ∀ f, m'.IsTable pd f ↔ m.IsTable pd f := by
  have hpd : m'.mem pd = m.mem pd := hmem pd (Or.inl rfl)
  have hpte : ∀ p < pageCount, m'.pte pd p = m.pte pd p := by
    intro p hp
    cases hpde : present (m.mem pd (p / 1024)) with
    | false => rw [pte_of_absent hpde, pte_of_absent (by rw [hpd]; exact hpde)]
    | true =>
      rw [pte_of_present hpde, pte_of_present (by rw [hpd]; exact hpde), hpd,
        hmem _ (Or.inr ⟨_, index_lt hp, hpde, rfl⟩)]
  refine ⟨⟨h.pd_ne, ?_, ?_, fun i hi hp => ?_, ?_, fun p hp => ?_⟩, hpte, fun f => ?_⟩
  · exact (hused pd h.pd_used).resolve_right fun hno => hno.2 (Or.inl rfl)
  · exact (hused 0 h.reserved).resolve_right fun hno => hno.1 rfl
  · rw [hpd] at hp ⊢
    obtain ⟨hbit, hne, hne'⟩ := h.table i hi hp
    exact ⟨(hused _ hbit).resolve_right fun hno => hno.2 (Or.inr ⟨i, hi, hp, rfl⟩), hne, hne'⟩
  · rw [hpd]
    exact h.tables
  · unfold frameAt
    rw [hpte p hp]
    exact h.zero p hp
  · unfold IsTable
    rw [hpd]

/-! ## What the calls do -/

/-- The entries become `new`; some frames may have become tables. -/
structure Updated (m m' : Machine) (pd : ℕ) (new : ℕ → ℕ) : Prop where
  space : m'.Space pd
  total : m'.totalFrames = m.totalFrames
  pte : ∀ p < pageCount, m'.pte pd p = new p
  used : ∀ f, m'.bitmap f = true ↔ m.bitmap f = true ∨ m'.IsTable pd f
  mem : ∀ f, m.bitmap f = true → ¬m.Holds pd f → m'.mem f = m.mem f
  tables : ∀ f, m.IsTable pd f → m'.IsTable pd f
  made : ∀ f, m'.IsTable pd f → m.IsTable pd f ∨ m.bitmap f = false
  user : ∀ p < pageCount, m.UserTable pd p → m'.UserTable pd p

theorem Space.used_table (h : m.Space pd) (hf : m.IsTable pd f) : m.bitmap f = true := by
  obtain ⟨i, hi, hp, rfl⟩ := hf
  exact (h.table i hi hp).1

theorem Updated.refl (h : m.Space pd) : Updated m m pd (m.pte pd) :=
  ⟨h, rfl, fun _ _ => rfl, fun _ => ⟨Or.inl, fun hor => hor.elim id h.used_table⟩, fun _ _ _ => rfl, fun _ hf => hf, fun _ hf => Or.inl hf,
    fun _ _ hu => hu⟩

/-- A frame that is free has been free all along. -/
theorem Updated.earlier_free (h : Updated m m' pd new) (hf : m'.bitmap f = false) : m.bitmap f = false := by
  rw [← Bool.not_eq_true]
  intro hused
  rw [(h.used f).mpr (Or.inl hused)] at hf
  cases hf

/-- New tables are frames that were free. -/
theorem not_holds_of_made (hmade : ∀ f, m'.IsTable pd f → m.IsTable pd f ∨ m.bitmap f = false) (hf : m.bitmap f = true)
    (hnot : ¬m.Holds pd f) : ¬m'.Holds pd f := by
  rintro (rfl | htable)
  · exact hnot (Or.inl rfl)
  · rcases hmade f htable with htable | hfree
    · exact hnot (Or.inr htable)
    · rw [hf] at hfree
      cases hfree

theorem Updated.not_holds_later (h : Updated m m' pd new) (hf : m.bitmap f = true) (hnot : ¬m.Holds pd f) : ¬m'.Holds pd f :=
  not_holds_of_made h.made hf hnot

theorem Updated.trans (h : Updated m m' pd new) (h' : Updated m' m'' pd new') : Updated m m'' pd new' := by
  refine ⟨h'.space, h'.total.trans h.total, h'.pte, fun f => ?_, fun f hf hnot => ?_, fun f hf => h'.tables f (h.tables f hf),
    fun f hf => ?_, fun p hp hu => h'.user p hp (h.user p hp hu)⟩
  · rw [h'.used, h.used, or_assoc]
    exact or_congr_right ⟨fun hor => hor.elim (h'.tables f) id, Or.inr⟩
  · rw [h'.mem f ((h.used f).mpr (Or.inl hf)) (h.not_holds_later hf hnot), h.mem f hf hnot]
  · rcases h'.made f hf with htable | hfree
    · exact h.made f htable
    · exact Or.inr (h.earlier_free hfree)

/-! ## Frames -/

theorem pmmAllocFrame_spec (m : Machine) :
    (∃ f < m.totalFrames, m.bitmap f = false ∧ m.pmmAllocFrame = ({ m with bitmap := Function.update m.bitmap f true }, f)) ∨
      (m.pmmAllocFrame = (m, 0) ∧ ∀ f < m.totalFrames, m.bitmap f = true) := by
  unfold pmmAllocFrame
  split
  · next f hf =>
    obtain ⟨hfree, hin, -⟩ := List.find?_range_eq_some.mp hf
    exact Or.inl ⟨f, List.mem_range.mp hin, by simpa using hfree, rfl⟩
  · next hnone =>
    refine Or.inr ⟨rfl, fun f hf => ?_⟩
    rw [List.find?_range_eq_none] at hnone
    simpa using hnone f hf

/-- The machine after a frame has been taken and cleared. -/
def withFrame (m : Machine) (f : ℕ) : Machine := ({ m with bitmap := Function.update m.bitmap f true } : Machine).clear f

theorem withFrame_bitmap (m : Machine) (f g : ℕ) : (m.withFrame f).bitmap g = true ↔ m.bitmap g = true ∨ g = f := by
  change Function.update m.bitmap f true g = true ↔ _
  by_cases hg : g = f <;> simp [hg]

theorem withFrame_mem (m : Machine) {g : ℕ} (hg : g ≠ f) : (m.withFrame f).mem g = m.mem g := Function.update_of_ne hg ..

theorem withFrame_zero (m : Machine) (f : ℕ) : (m.withFrame f).mem f = fun _ => 0 := Function.update_self ..

/-- A frame that is taken has nothing to do with the space. -/
theorem Space.withFrame (h : m.Space pd) (hf : m.bitmap f = false) :
    (m.withFrame f).Space pd ∧ (∀ p < pageCount, (m.withFrame f).pte pd p = m.pte pd p) ∧
      ∀ g, (m.withFrame f).IsTable pd g ↔ m.IsTable pd g := by
  refine h.congr (fun g hg => withFrame_mem m ?_) fun g hg => Or.inl ((withFrame_bitmap m f g).mpr (Or.inl hg))
  rintro rfl
  exact h.not_holds_free hf hg

/-! ## Tables -/

theorem table_entry (extra : ℕ) (hextra : extra < 8) :
    present (f * pageSize ||| ptePresent ||| pteWrite ||| extra) = true ∧
      frameOf (f * pageSize ||| ptePresent ||| pteWrite ||| extra) = f := by
  constructor
  · simp [present, ptePresent]
  · rw [Nat.or_assoc, Nat.or_assoc]
    apply frameOf_or
    have hlt : pteWrite ||| extra < 2 ^ 3 := Nat.or_lt_two_pow (by decide) hextra
    have hlt' : ptePresent ||| (pteWrite ||| extra) < 2 ^ 3 := Nat.or_lt_two_pow (by decide) hlt
    unfold pageSize
    omega

theorem and_user_of_or (entry : ℕ) : (entry ||| pteUser) &&& pteUser ≠ 0 := by
  intro hzero
  rw [Nat.and_or_distrib_right, Nat.or_eq_zero_iff] at hzero
  cases hzero.2

theorem user_of_or {entry : ℕ} (e : ℕ) (h : entry &&& pteUser ≠ 0) : (entry ||| e) &&& pteUser ≠ 0 := by
  intro hzero
  rw [Nat.and_or_distrib_right, Nat.or_eq_zero_iff] at hzero
  exact h hzero.1

theorem present_or_user (entry : ℕ) : present (entry ||| pteUser) = present entry := by
  simp [present, pteUser]

theorem frameOf_or_user (entry : ℕ) : frameOf (entry ||| pteUser) = frameOf entry := by
  have hdiv : (entry ||| pteUser) / 2 ^ 12 = entry / 2 ^ 12 ||| pteUser / 2 ^ 12 := Nat.or_div_two_pow
  exact hdiv.trans (Nat.or_zero _)

/-- The `PTE_USER` that `table_for` adds to a directory entry. -/
theorem Space.markUser (h : m.Space pd) (hpde : present (m.mem pd (p / 1024)) = true) :
    Updated m (m.store pd (p / 1024) (m.mem pd (p / 1024) ||| pteUser)) pd (m.pte pd) ∧
      (m.store pd (p / 1024) (m.mem pd (p / 1024) ||| pteUser)).UserTable pd p := by
  generalize hm' : m.store pd (p / 1024) (m.mem pd (p / 1024) ||| pteUser) = m'
  have hpd : ∀ i, m'.mem pd i = if i = p / 1024 then m.mem pd (p / 1024) ||| pteUser else m.mem pd i := by
    intro i
    rw [← hm']
    unfold Machine.store
    dsimp only
    rw [Function.update_self, Function.update_apply]
  have hother : ∀ g, g ≠ pd → m'.mem g = m.mem g := by
    intro g hg
    rw [← hm']
    exact Function.update_of_ne hg ..
  have hpresent : ∀ i, present (m'.mem pd i) = present (m.mem pd i) := by
    intro i
    rw [hpd]
    split
    · next hi => rw [hi, present_or_user]
    · rfl
  have hframe : ∀ i, frameOf (m'.mem pd i) = frameOf (m.mem pd i) := by
    intro i
    rw [hpd]
    split
    · next hi => rw [hi, frameOf_or_user]
    · rfl
  have htable : ∀ g, m'.IsTable pd g ↔ m.IsTable pd g := by
    intro g
    unfold IsTable
    simp only [hpresent, hframe]
  have hpte : ∀ q < pageCount, m'.pte pd q = m.pte pd q := by
    intro q hq
    unfold pte
    rw [hpresent, hframe]
    split
    · next hq' => rw [hother _ (h.table _ (index_lt hq) hq').2.2]
    · rfl
  have hbit : m'.bitmap = m.bitmap := by
    rw [← hm']
    rfl
  refine ⟨⟨⟨h.pd_ne, hbit ▸ h.pd_used, hbit ▸ h.reserved, ?_, ?_, fun q hq => ?_⟩, ?_, hpte, fun g => ?_, fun g _ hg => ?_,
    fun g => (htable g).mpr, fun g hg => Or.inl ((htable g).mp hg), fun q _ hu => ?_⟩, ?_⟩
  · simp only [hpresent, hframe, hbit]
    exact h.table
  · simp only [hpresent, hframe]
    exact h.tables
  · unfold frameAt
    rw [hpte q hq]
    exact h.zero q hq
  · rw [← hm']
    rfl
  · rw [hbit, htable]
    exact ⟨Or.inl, fun hor => hor.elim id h.used_table⟩
  · exact hother g fun he => hg (Or.inl he)
  · obtain ⟨hq, hu⟩ := hu
    refine ⟨(hpresent _).trans hq, ?_⟩
    rw [hpd]
    split
    · next hi =>
      rw [← hi]
      exact user_of_or pteUser hu
    · exact hu
  · refine ⟨(hpresent _).trans hpde, ?_⟩
    rw [hpd, if_pos rfl]
    exact and_user_of_or _

/-- A new table, cleared and entered in the directory. -/
def newTable (m : Machine) (pd p f extra : ℕ) : Machine :=
  (m.withFrame f).store pd (p / 1024) (f * pageSize ||| ptePresent ||| pteWrite ||| extra)

theorem Space.newTable (h : m.Space pd) (hp : p < pageCount) (hf : m.bitmap f = false) (hpde : present (m.mem pd (p / 1024)) = false)
    {extra : ℕ} (hextra : extra < 8) : Updated m (m.newTable pd p f extra) pd (m.pte pd) ∧
      present ((m.newTable pd p f extra).mem pd (p / 1024)) = true ∧ frameOf ((m.newTable pd p f extra).mem pd (p / 1024)) = f := by
  obtain ⟨hpresentE, hframeE⟩ := table_entry (f := f) extra hextra
  have hne : f ≠ pd := fun he => h.not_holds_free hf (Or.inl he)
  have hzero : f ≠ 0 := by
    rintro rfl
    rw [h.reserved] at hf
    cases hf
  generalize hE : f * pageSize ||| ptePresent ||| pteWrite ||| extra = entry at hpresentE hframeE
  generalize hm' : m.newTable pd p f extra = m'
  have hpd : ∀ i, m'.mem pd i = if i = p / 1024 then entry else m.mem pd i := by
    intro i
    rw [← hm', Machine.newTable, hE]
    unfold Machine.store
    dsimp only
    rw [Function.update_self, Function.update_apply, withFrame_mem m hne.symm]
  have hfresh : m'.mem f = fun _ => 0 := by
    rw [← hm', Machine.newTable]
    exact (Function.update_of_ne hne ..).trans (withFrame_zero m f)
  have hother : ∀ g, g ≠ pd → g ≠ f → m'.mem g = m.mem g := by
    intro g hg hgf
    rw [← hm', Machine.newTable]
    exact (Function.update_of_ne hg ..).trans (withFrame_mem m hgf)
  have hbit : ∀ g, m'.bitmap g = true ↔ m.bitmap g = true ∨ g = f := by
    intro g
    rw [← hm']
    exact withFrame_bitmap m f g
  have hold : ∀ i, i ≠ p / 1024 → m'.mem pd i = m.mem pd i := fun i hi => (hpd i).trans (if_neg hi)
  have hnew : m'.mem pd (p / 1024) = entry := (hpd _).trans (if_pos rfl)
  have htable : ∀ g, m'.IsTable pd g ↔ m.IsTable pd g ∨ g = f := by
    intro g
    constructor
    · rintro ⟨i, hi, hpi, rfl⟩
      by_cases he : i = p / 1024
      · rw [he, hnew, hframeE]
        exact Or.inr rfl
      · rw [hold i he] at hpi ⊢
        exact Or.inl ⟨i, hi, hpi, rfl⟩
    · rintro (⟨i, hi, hpi, rfl⟩ | rfl)
      · have he : i ≠ p / 1024 := by
          rintro rfl
          rw [hpde] at hpi
          cases hpi
        exact ⟨i, hi, by rw [hold i he]; exact hpi, by rw [hold i he]⟩
      · exact ⟨p / 1024, index_lt hp, by rw [hnew]; exact hpresentE, by rw [hnew]; exact hframeE⟩
  have hpte : ∀ q < pageCount, m'.pte pd q = m.pte pd q := by
    intro q hq
    by_cases he : q / 1024 = p / 1024
    · have hbefore : m.pte pd q = 0 := pte_of_absent (by rw [he]; exact hpde)
      rw [hbefore, pte_of_present (by rw [he, hnew]; exact hpresentE), he, hnew, hframeE, hfresh]
    · unfold pte
      rw [hold _ he]
      split
      · next hq' =>
        have hholds : m.Holds pd (frameOf (m.mem pd (q / 1024))) := Or.inr ⟨_, index_lt hq, hq', rfl⟩
        rw [hother _ (h.table _ (index_lt hq) hq').2.2]
        intro heq
        rw [heq] at hholds
        exact h.not_holds_free hf hholds
      · rfl
  have hlive : ∀ i < 1024, present (m.mem pd i) = true → frameOf (m.mem pd i) ≠ f := by
    intro i hi hpi heq
    exact h.not_holds_free hf (Or.inr ⟨i, hi, hpi, heq⟩)
  refine ⟨⟨⟨h.pd_ne, (hbit pd).mpr (Or.inl h.pd_used), (hbit 0).mpr (Or.inl h.reserved), fun i hi hpi => ?_,
    fun i hi j hj hpi hpj heq => ?_, fun q hq => ?_⟩, ?_, hpte, fun g => ?_, fun g hg hnot => ?_, fun g hg => (htable g).mpr (Or.inl hg),
    fun g hg => ?_, fun q _ hu => ?_⟩, by rw [hnew]; exact hpresentE, by rw [hnew]; exact hframeE⟩
  · by_cases he : i = p / 1024
    · rw [he, hnew, hframeE]
      exact ⟨(hbit f).mpr (Or.inr rfl), hzero, hne⟩
    · rw [hold i he] at hpi ⊢
      obtain ⟨hb, hz, hn⟩ := h.table i hi hpi
      exact ⟨(hbit _).mpr (Or.inl hb), hz, hn⟩
  · by_cases hei : i = p / 1024
    · by_cases hej : j = p / 1024
      · exact hei.trans hej.symm
      · rw [hold j hej] at hpj heq
        rw [hei, hnew, hframeE] at heq
        exact absurd heq.symm (hlive j hj hpj)
    · rw [hold i hei] at hpi heq
      by_cases hej : j = p / 1024
      · rw [hej, hnew, hframeE] at heq
        exact absurd heq (hlive i hi hpi)
      · rw [hold j hej] at hpj heq
        exact h.tables i hi j hj hpi hpj heq
  · unfold frameAt
    rw [hpte q hq]
    exact h.zero q hq
  · rw [← hm']
    rfl
  · rw [hbit, htable]
    constructor
    · rintro (hg | hg)
      · exact Or.inl hg
      · exact Or.inr (Or.inr hg)
    · rintro (hg | hg | hg)
      · exact Or.inl hg
      · exact Or.inl (h.used_table hg)
      · exact Or.inr hg
  · apply hother g
    · rintro rfl
      exact hnot (Or.inl rfl)
    · rintro rfl
      rw [hf] at hg
      cases hg
  · rcases (htable g).mp hg with hg | rfl
    · exact Or.inl hg
    · exact Or.inr hf
  · obtain ⟨hq, hu⟩ := hu
    have he : q / 1024 ≠ p / 1024 := by
      intro he
      rw [he, hpde] at hq
      cases hq
    unfold UserTable
    rw [hold _ he]
    exact ⟨hq, hu⟩

/-- `table_for` finds the table of a page, makes it, or fails and changes nothing. -/
theorem Space.tableFor (h : m.Space pd) (hp : p < pageCount) {extra : ℕ} (hextra : extra = 0 ∨ extra = pteUser) :
    m.tableFor pd (p * pageSize) true extra = (m, 0) ∨
      ∃ m' t, m.tableFor pd (p * pageSize) true extra = (m', t) ∧ t ≠ 0 ∧ Updated m m' pd (m.pte pd) ∧
        present (m'.mem pd (p / 1024)) = true ∧ frameOf (m'.mem pd (p / 1024)) = t ∧ (extra = pteUser → m'.UserTable pd p) := by
  have hdiv : p * pageSize / pdeSpan = p / 1024 := pageStart_div p
  have hlt : extra < 8 := by
    rcases hextra with rfl | rfl <;> decide
  unfold Machine.tableFor
  rw [hdiv]
  dsimp only
  cases hpde : present (m.mem pd (p / 1024)) with
  | true =>
    obtain ⟨-, hne, -⟩ := h.table _ (index_lt hp) hpde
    refine Or.inr ?_
    rcases hextra with rfl | rfl
    · exact ⟨m, _, by simp, hne, .refl h, hpde, rfl, fun he => absurd he (by decide)⟩
    · obtain ⟨hu, hut⟩ := h.markUser hpde
      have hframe : frameOf ((m.store pd (p / 1024) (m.mem pd (p / 1024) ||| pteUser)).mem pd (p / 1024)) =
          frameOf (m.mem pd (p / 1024)) := by
        unfold Machine.store
        dsimp only
        rw [Function.update_self, Function.update_self, frameOf_or_user]
      exact ⟨m.store pd (p / 1024) (m.mem pd (p / 1024) ||| pteUser), _, by simp [pteUser], hne, hu, hut.1, hframe, fun _ => hut⟩
  | false =>
    rcases m.pmmAllocFrame_spec with ⟨f, -, hf, he⟩ | ⟨he, -⟩
    · have hzero : f ≠ 0 := by
        rintro rfl
        rw [h.reserved] at hf
        cases hf
      obtain ⟨hu, hpresent, hframe⟩ := h.newTable hp hf hpde hlt
      refine Or.inr ⟨m.newTable pd p f extra, f, ?_, hzero, hu, hpresent, hframe, fun he => ⟨hpresent, ?_⟩⟩
      · simp only [he, if_true, if_neg hzero]
        rfl
      · subst he
        unfold Machine.newTable Machine.store
        dsimp only
        rw [Function.update_self, Function.update_self]
        exact and_user_of_or _
    · refine Or.inl ?_
      simp [he]

/-! ## Entries -/

/-- The entry of a page is stored in its table. -/
theorem Space.storePage (h : m.Space pd) (hp : p < pageCount) (hpde : present (m.mem pd (p / 1024)) = true) (entry : ℕ)
    (hentry : present entry = true → frameOf entry = 0 → p = 0) :
    Updated m (m.store (frameOf (m.mem pd (p / 1024))) (p % 1024) entry) pd (Function.update (m.pte pd) p entry) := by
  obtain ⟨hbit, hne, hnepd⟩ := h.table _ (index_lt hp) hpde
  have htable : m.IsTable pd (frameOf (m.mem pd (p / 1024))) := ⟨_, index_lt hp, hpde, rfl⟩
  generalize ht : frameOf (m.mem pd (p / 1024)) = t at *
  generalize hm' : m.store t (p % 1024) entry = m'
  have hpd : m'.mem pd = m.mem pd := by
    rw [← hm']
    exact Function.update_of_ne hnepd.symm ..
  have hpte : ∀ q < pageCount, m'.pte pd q = Function.update (m.pte pd) p entry q := by
    intro q hq
    by_cases he : q = p
    · subst he
      rw [Function.update_self, pte_of_present (by rw [hpd]; exact hpde), hpd, ht, ← hm']
      unfold Machine.store
      dsimp only
      rw [Function.update_self, Function.update_self]
    · rw [Function.update_of_ne he]
      unfold pte
      rw [hpd]
      split
      · next hq' =>
        by_cases hsame : q / 1024 = p / 1024
        · rw [hsame, ht, ← hm']
          unfold Machine.store
          dsimp only
          rw [Function.update_self, Function.update_of_ne fun hmod => he (page_eq hsame hmod)]
        · have hother : frameOf (m.mem pd (q / 1024)) ≠ t := by
            rw [← ht]
            exact fun heq => hsame (h.tables _ (index_lt hq) _ (index_lt hp) hq' hpde heq)
          rw [← hm']
          exact congrFun (Function.update_of_ne hother ..) _
      · rfl
  have hbits : m'.bitmap = m.bitmap := by
    rw [← hm']
    rfl
  have htables : ∀ g, m'.IsTable pd g ↔ m.IsTable pd g := by
    intro g
    unfold IsTable
    rw [hpd]
  refine ⟨⟨h.pd_ne, hbits ▸ h.pd_used, hbits ▸ h.reserved, ?_, ?_, fun q hq => ?_⟩, ?_, hpte, fun g => ?_, fun g _ hg => ?_,
    fun g => (htables g).mpr, fun g hg => Or.inl ((htables g).mp hg), fun q _ hu => ?_⟩
  · rw [hpd, hbits]
    exact h.table
  · rw [hpd]
    exact h.tables
  · unfold frameAt
    rw [hpte q hq]
    by_cases he : q = p
    · rw [he, Function.update_self]
      exact hentry
    · rw [Function.update_of_ne he]
      exact h.zero q hq
  · rw [← hm']
    rfl
  · rw [hbits, htables]
    exact ⟨Or.inl, fun hor => hor.elim id h.used_table⟩
  · rw [← hm']
    refine Function.update_of_ne ?_ ..
    rintro rfl
    exact hg (Or.inr htable)
  · unfold UserTable
    rw [hpd]
    exact hu

/-- The counter of mapped pages is not read. -/
theorem Updated.counter (n : ℕ) (h : Updated m m' pd new) : Updated m { m' with mappedPages := n } pd new :=
  ⟨⟨h.space.pd_ne, h.space.pd_used, h.space.reserved, h.space.table, h.space.tables, h.space.zero⟩, h.total, h.pte, h.used, h.mem,
    h.tables, h.made, h.user⟩

/-- The entry that `vmm_map_in` makes. -/
def mapEntry (f flags : ℕ) : ℕ := f * pageSize ||| (flags &&& 0xFFF) ||| ptePresent

theorem mapEntry_present (f flags : ℕ) : present (mapEntry f flags) = true := present_or _

theorem mapEntry_frame (f flags : ℕ) : frameOf (mapEntry f flags) = f := by
  unfold mapEntry
  rw [Nat.or_assoc]
  apply frameOf_or
  have hlow : flags &&& 0xFFF < 2 ^ 12 := Nat.lt_of_le_of_lt Nat.and_le_right (by decide)
  have hlt : (flags &&& 0xFFF) ||| ptePresent < 2 ^ 12 := Nat.or_lt_two_pow hlow (by decide)
  unfold pageSize
  omega

theorem and_user (flags : ℕ) : flags &&& pteUser = 0 ∨ flags &&& pteUser = pteUser := by
  have hcases : ∀ low < 8, low &&& pteUser = 0 ∨ low &&& pteUser = pteUser := by decide
  rw [and_flags flags (by decide)]
  exact hcases _ (Nat.mod_lt _ (by decide))

/-- `vmm_map_in` fails and changes nothing, or enters the page. -/
theorem Space.mapIn (h : m.Space pd) (hp : p < pageCount) (hf : f ≠ 0 ∨ p = 0) (flags : ℕ)
    (huser : flags &&& pteUser ≠ 0 → userPage (p * pageSize) = true) :
    m.vmmMapIn pd (p * pageSize) (f * pageSize) flags = (m, -1) ∨
      ∃ m', m.vmmMapIn pd (p * pageSize) (f * pageSize) flags = (m', 0) ∧
        Updated m m' pd (Function.update (m.pte pd) p (mapEntry f flags)) ∧ (flags &&& pteUser ≠ 0 → m'.UserTable pd p) := by
  unfold Machine.vmmMapIn
  have hflags : ¬(flags &&& pteUser ≠ 0 ∧ userPage (p * pageSize) = false) := by
    rintro ⟨hne, hout⟩
    rw [huser hne] at hout
    cases hout
  rw [if_neg h.pd_ne, if_neg (by simp), if_neg hflags, pageStart_pteIndex]
  rcases h.tableFor hp (and_user flags) with he | ⟨m₁, t, he, hne, hu, hpresent, hframe, hut⟩
  · rw [he]
    exact Or.inl rfl
  · rw [he]
    dsimp only
    rw [if_neg hne]
    have hentry : present (mapEntry f flags) = true → frameOf (mapEntry f flags) = 0 → p = 0 := by
      intro _ hz
      rw [mapEntry_frame] at hz
      exact hf.resolve_left (not_not_intro hz)
    have hstore := hu.space.storePage hp hpresent (mapEntry f flags) hentry
    rw [hframe] at hstore
    have hsame : ∀ q < pageCount, Function.update (m₁.pte pd) p (mapEntry f flags) q = Function.update (m.pte pd) p (mapEntry f flags) q := by
      intro q hq
      by_cases hqp : q = p
      · rw [hqp, Function.update_self, Function.update_self]
      · rw [Function.update_of_ne hqp, Function.update_of_ne hqp, hu.pte q hq]
    have hall := hu.trans hstore
    have hdone : Updated m (m₁.store t (p % 1024) (mapEntry f flags)) pd (Function.update (m.pte pd) p (mapEntry f flags)) :=
      ⟨hall.space, hall.total, fun q hq => (hall.pte q hq).trans (hsame q hq), hall.used, hall.mem, hall.tables, hall.made, hall.user⟩
    have hreach : flags &&& pteUser ≠ 0 → (m₁.store t (p % 1024) (mapEntry f flags)).UserTable pd p := fun hne =>
      hstore.user p hp (hut ((and_user flags).resolve_left hne))
    refine Or.inr ⟨_, rfl, ?_, ?_⟩
    · split
      · exact hdone
      · exact hdone.counter _
    · split
      · exact hreach
      · exact hreach

/-- `vmm_unmap_in` of a page that is mapped. -/
theorem Space.unmapIn (h : m.Space pd) (hp : p < pageCount) (hmapped : present (m.pte pd p) = true) :
    Updated m (m.vmmUnmapIn pd (p * pageSize)) pd (Function.update (m.pte pd) p 0) := by
  have hsize : 0 < pageSize := by decide
  have hpde : present (m.mem pd (p / 1024)) = true := by
    by_contra hno
    rw [pte_of_absent (by simpa using hno)] at hmapped
    cases hmapped
  obtain ⟨-, hne, -⟩ := h.table _ (index_lt hp) hpde
  rw [pte_of_present hpde] at hmapped
  unfold Machine.vmmUnmapIn Machine.tableFor
  dsimp only
  rw [if_neg h.pd_ne, Nat.mul_div_cancel _ hsize, pageStart_div, pageStart_pteIndex]
  simp only [hpde, Bool.true_eq_false, if_false, hne, hmapped, or_self]
  exact (h.storePage hp hpde 0 (by intro hno; cases hno)).counter _

/-! ## Pages with frames of their own -/

/-- Since `m₀` the pages of `S` have been mapped, each to a frame of its own that was free, and nothing else of the
space has changed but for new tables. -/
structure Grown (m₀ m : Machine) (pd : ℕ) (S : ℕ → Prop) : Prop where
  start : m₀.Space pd
  space : m.Space pd
  total : m.totalFrames = m₀.totalFrames
  bound : ∀ p, S p → p < pageCount
  old : ∀ p < pageCount, ¬S p → m.view pd p = m₀.view pd p
  fresh : ∀ p, S p → m₀.view pd p = none
  mapped : ∀ p, S p → present (m.pte pd p) = true
  free : ∀ p, S p → m₀.bitmap (m.frameAt pd p) = false
  frame : ∀ p, S p → ¬m.IsTable pd (m.frameAt pd p)
  managed : ∀ p, S p → m.frameAt pd p < m.totalFrames
  inj : ∀ p q, S p → S q → m.frameAt pd p = m.frameAt pd q → p = q
  used : ∀ f, m.bitmap f = true ↔ m₀.bitmap f = true ∨ m.IsTable pd f ∨ ∃ p, S p ∧ m.frameAt pd p = f
  mem : ∀ f, m₀.bitmap f = true → ¬m₀.Holds pd f → m.mem f = m₀.mem f
  tables : ∀ f, m₀.IsTable pd f → m.IsTable pd f
  made : ∀ f, m.IsTable pd f → m₀.IsTable pd f ∨ m₀.bitmap f = false
  user : ∀ p < pageCount, m₀.UserTable pd p → m.UserTable pd p

variable {m₀ : Machine} {S S' : ℕ → Prop}

theorem Updated.grown (h : m.Space pd) (hu : Updated m m' pd new) (hsame : ∀ p < pageCount, new p = m.pte pd p) :
    Grown m m' pd fun _ => False where
  start := h
  space := hu.space
  total := hu.total
  bound := fun _ hp => hp.elim
  old := fun p hp _ => view_congr ((hu.pte p hp).trans (hsame p hp))
  fresh := fun _ hp => hp.elim
  mapped := fun _ hp => hp.elim
  free := fun _ hp => hp.elim
  frame := fun _ hp => hp.elim
  managed := fun _ hp => hp.elim
  inj := fun _ _ hp => hp.elim
  used := fun f => by
    rw [hu.used]
    exact or_congr_right ⟨Or.inl, fun hor => hor.elim id fun ⟨_, hp, _⟩ => hp.elim⟩
  mem := hu.mem
  tables := hu.tables
  made := hu.made
  user := hu.user

theorem Grown.refl (h : m.Space pd) : Grown m m pd fun _ => False := (Updated.refl h).grown h fun _ _ => rfl

theorem Grown.congr (h : Grown m₀ m pd S) (hs : ∀ p, S p ↔ S' p) : Grown m₀ m pd S' := by
  obtain rfl : S = S' := funext fun p => propext (hs p)
  exact h

theorem Grown.frame_ne (h : Grown m₀ m pd S) (hp : S p) : m.frameAt pd p ≠ 0 := by
  intro hzero
  have hfree := h.free p hp
  rw [hzero, h.start.reserved] at hfree
  cases hfree

theorem Grown.frame_used (h : Grown m₀ m pd S) (hp : S p) : m.bitmap (m.frameAt pd p) = true :=
  (h.used _).mpr (Or.inr (Or.inr ⟨p, hp, rfl⟩))

theorem Grown.frame_not_holds (h : Grown m₀ m pd S) (hp : S p) : ¬m.Holds pd (m.frameAt pd p) := by
  rintro (he | htable)
  · have hfree := h.free p hp
    rw [he, h.start.pd_used] at hfree
    cases hfree
  · exact h.frame p hp htable

/-- What was mapped has its entry still. -/
theorem Grown.pte_old (h : Grown m₀ m pd S) (hp : present (m₀.pte pd p) = true) (hlt : p < pageCount) : m.pte pd p = m₀.pte pd p := by
  have hnot : ¬S p := by
    intro hs
    rw [view_eq_none.mp (h.fresh p hs)] at hp
    cases hp
  have hview := h.old p hlt hnot
  rw [view_of_present hp] at hview
  exact (present_of_view hview).2

theorem Grown.earlier_free (h : Grown m₀ m pd S) (hf : m.bitmap f = false) : m₀.bitmap f = false := by
  rw [← Bool.not_eq_true]
  intro hused
  rw [(h.used f).mpr (Or.inl hused)] at hf
  cases hf

theorem Grown.trans (h : Grown m₀ m pd S) (h' : Grown m m' pd S') : Grown m₀ m' pd fun p => S p ∨ S' p := by
  have hpte : ∀ p, S p → m'.pte pd p = m.pte pd p := fun p hp => h'.pte_old (h.mapped p hp) (h.bound p hp)
  have hframe : ∀ p, S p → m'.frameAt pd p = m.frameAt pd p := by
    intro p hp
    unfold frameAt
    rw [hpte p hp]
  have happart : ∀ p q, S p → S' q → m'.frameAt pd p ≠ m'.frameAt pd q := by
    intro p q hp hq he
    have hfree := h'.free q hq
    rw [← he, hframe p hp, h.frame_used hp] at hfree
    cases hfree
  refine ⟨h.start, h'.space, h'.total.trans h.total, fun p hp => hp.elim (h.bound p) (h'.bound p), fun p hp hnot => ?_,
    fun p hp => ?_, fun p hp => ?_, fun p hp => ?_, fun p hp => ?_, fun p hp => ?_, fun p q hp hq he => ?_, fun f => ?_,
    fun f hf hnot => ?_, fun f hf => h'.tables f (h.tables f hf), fun f hf => ?_, fun p hp hu => h'.user p hp (h.user p hp hu)⟩
  · rw [not_or] at hnot
    rw [h'.old p hp hnot.2, h.old p hp hnot.1]
  · rcases hp with hp | hp
    · exact h.fresh p hp
    · by_cases hs : S p
      · exact h.fresh p hs
      · rw [← h.old p (h'.bound p hp) hs]
        exact h'.fresh p hp
  · rcases hp with hp | hp
    · rw [hpte p hp]
      exact h.mapped p hp
    · exact h'.mapped p hp
  · rcases hp with hp | hp
    · rw [hframe p hp]
      exact h.free p hp
    · exact h.earlier_free (h'.free p hp)
  · rcases hp with hp | hp
    · rw [hframe p hp]
      intro htable
      rcases h'.made _ htable with htable | hfree
      · exact h.frame p hp htable
      · rw [h.frame_used hp] at hfree
        cases hfree
    · exact h'.frame p hp
  · rcases hp with hp | hp
    · rw [hframe p hp, h'.total]
      exact h.managed p hp
    · exact h'.managed p hp
  · rcases hp with hp | hp
    · rcases hq with hq | hq
      · rw [hframe p hp, hframe q hq] at he
        exact h.inj p q hp hq he
      · exact absurd he (happart p q hp hq)
    · rcases hq with hq | hq
      · exact absurd he.symm (happart q p hq hp)
      · exact h'.inj p q hp hq he
  · rw [h'.used, h.used]
    constructor
    · rintro ((hf | hf | ⟨p, hp, rfl⟩) | hf | ⟨p, hp, rfl⟩)
      · exact Or.inl hf
      · exact Or.inr (Or.inl (h'.tables f hf))
      · exact Or.inr (Or.inr ⟨p, Or.inl hp, hframe p hp⟩)
      · exact Or.inr (Or.inl hf)
      · exact Or.inr (Or.inr ⟨p, Or.inr hp, rfl⟩)
    · rintro (hf | hf | ⟨p, hp | hp, rfl⟩)
      · exact Or.inl (Or.inl hf)
      · exact Or.inr (Or.inl hf)
      · exact Or.inl (Or.inr (Or.inr ⟨p, hp, (hframe p hp).symm⟩))
      · exact Or.inr (Or.inr ⟨p, hp, rfl⟩)
  · rw [h'.mem f ((h.used f).mpr (Or.inl hf)) (not_holds_of_made h.made hf hnot), h.mem f hf hnot]
  · rcases h'.made f hf with htable | hfree
    · exact h.made f htable
    · exact Or.inr (h.earlier_free hfree)

/-- A frame with the given contents. -/
def setFrame (m : Machine) (f : ℕ) (words : ℕ → ℕ) : Machine := { m with mem := Function.update m.mem f words }

/-- Contents of frames that hold no entries do not matter to the space. -/
theorem Space.setFrame (h : m.Space pd) (hf : ¬m.Holds pd f) (words : ℕ → ℕ) :
    (m.setFrame f words).Space pd ∧ (∀ p < pageCount, (m.setFrame f words).pte pd p = m.pte pd p) ∧
      ∀ g, (m.setFrame f words).IsTable pd g ↔ m.IsTable pd g := by
  refine h.congr (fun g hg => Function.update_of_ne ?_ ..) fun g hg => Or.inl hg
  rintro rfl
  exact hf hg

theorem Grown.setFrame (h : Grown m₀ m pd S) (hp : S p) (words : ℕ → ℕ) : Grown m₀ (m.setFrame (m.frameAt pd p) words) pd S := by
  obtain ⟨hspace, hpte, htable⟩ := h.space.setFrame (h.frame_not_holds hp) words
  generalize hm' : m.setFrame (m.frameAt pd p) words = m' at *
  have hbits : m'.bitmap = m.bitmap := by
    rw [← hm']
    rfl
  have htotal : m'.totalFrames = m.totalFrames := by
    rw [← hm']
    rfl
  have hmem : ∀ g, g ≠ m.frameAt pd p → m'.mem g = m.mem g := by
    intro g hg
    rw [← hm']
    exact Function.update_of_ne hg ..
  have hframe : ∀ q, S q → m'.frameAt pd q = m.frameAt pd q := by
    intro q hq
    unfold frameAt
    rw [hpte q (h.bound q hq)]
  have hpd : m'.mem pd = m.mem pd := hmem pd fun he => h.frame_not_holds hp (Or.inl he.symm)
  refine ⟨h.start, hspace, htotal.trans h.total, h.bound, fun q hq hnot => ?_, h.fresh, fun q hq => ?_, fun q hq => ?_, fun q hq => ?_,
    fun q hq => ?_, fun q r hq hr he => ?_, fun g => ?_, fun g hg hnot => ?_, fun g hg => (htable g).mpr (h.tables g hg),
    fun g hg => h.made g ((htable g).mp hg), fun q hq hu => ?_⟩
  · rw [view_congr (hpte q hq)]
    exact h.old q hq hnot
  · rw [hpte q (h.bound q hq)]
    exact h.mapped q hq
  · rw [hframe q hq]
    exact h.free q hq
  · rw [hframe q hq, htable]
    exact h.frame q hq
  · rw [hframe q hq, htotal]
    exact h.managed q hq
  · rw [hframe q hq, hframe r hr] at he
    exact h.inj q r hq hr he
  · rw [hbits, h.used, htable]
    have hpages : (∃ q, S q ∧ m.frameAt pd q = g) ↔ ∃ q, S q ∧ m'.frameAt pd q = g :=
      exists_congr fun q => and_congr_right fun hq => by rw [hframe q hq]
    rw [hpages]
  · rw [hmem g, h.mem g hg hnot]
    rintro rfl
    rw [h.free p hp] at hg
    cases hg
  · unfold UserTable
    rw [hpd]
    exact h.user q hq hu

/-! ## One page more, one page less -/

theorem pmmFreeFrame_bitmap (hf : f < m.totalFrames) (g : ℕ) :
    (m.pmmFreeFrame f).bitmap g = true ↔ m.bitmap g = true ∧ g ≠ f := by
  unfold Machine.pmmFreeFrame
  rw [if_neg (Nat.not_le.mpr hf)]
  dsimp only
  by_cases hg : g = f <;> simp [hg]

theorem pmmFreeFrame_same (m : Machine) (f : ℕ) :
    (m.pmmFreeFrame f).mem = m.mem ∧ (m.pmmFreeFrame f).totalFrames = m.totalFrames := by
  unfold Machine.pmmFreeFrame
  split <;> exact ⟨rfl, rfl⟩

/-- A frame that was taken and is given back. -/
theorem Space.returnFrame (h : m.Space pd) (hlt : f < m.totalFrames) (hf : m.bitmap f = false) :
    Grown m ((m.withFrame f).pmmFreeFrame f) pd fun _ => False := by
  have hbits : ∀ g, ((m.withFrame f).pmmFreeFrame f).bitmap g = true ↔ m.bitmap g = true := by
    intro g
    rw [pmmFreeFrame_bitmap (m := m.withFrame f) hlt, withFrame_bitmap]
    constructor
    · rintro ⟨hg | hg, hne⟩
      · exact hg
      · exact absurd hg hne
    · intro hg
      refine ⟨Or.inl hg, ?_⟩
      rintro rfl
      rw [hf] at hg
      cases hg
  obtain ⟨hmem, htotal⟩ := pmmFreeFrame_same (m.withFrame f) f
  have hother : ∀ g, g ≠ f → ((m.withFrame f).pmmFreeFrame f).mem g = m.mem g := by
    intro g hg
    rw [hmem]
    exact withFrame_mem m hg
  generalize (m.withFrame f).pmmFreeFrame f = m' at *
  have hholds : ∀ g, m.Holds pd g → g ≠ f := by
    rintro g hg rfl
    exact h.not_holds_free hf hg
  obtain ⟨hspace, hpte, htable⟩ := h.congr (fun g hg => hother g (hholds g hg)) fun g hg => Or.inl ((hbits g).mpr hg)
  have hu : Updated m m' pd (m.pte pd) := by
    refine ⟨hspace, htotal, hpte, fun g => ?_, fun g hg _ => hother g ?_, fun g hg => (htable g).mpr hg,
      fun g hg => Or.inl ((htable g).mp hg), fun q _ hq => ?_⟩
    · rw [hbits, htable]
      exact ⟨Or.inl, fun hor => hor.elim id h.used_table⟩
    · rintro rfl
      rw [hf] at hg
      cases hg
    · unfold UserTable
      rw [hother pd (hholds pd (Or.inl rfl))]
      exact hq
  exact hu.grown h fun _ _ => rfl

/-- A new page: the frame is cleared, then it is mapped. `m` is `m₀` but for the entry that the page has. -/
theorem Updated.takePage {e : ℕ} (h : Updated m₀ m pd (Function.update (m₀.pte pd) p e)) (h₀ : m₀.Space pd) (hp : p < pageCount)
    (hview : m₀.view pd p = none) (hlt : f < m.totalFrames) (hf : m.bitmap f = false)
    (huser : flags &&& pteUser ≠ 0 → userPage (p * pageSize) = true) :
    (m.withFrame f).vmmMapIn pd (p * pageSize) (f * pageSize) flags = (m.withFrame f, -1) ∨
      ∃ m', (m.withFrame f).vmmMapIn pd (p * pageSize) (f * pageSize) flags = (m', 0) ∧ (Grown m₀ m' pd fun q => q = p) ∧
        m'.pte pd p = mapEntry f flags ∧ m'.mem f = (fun _ => 0) ∧ (flags &&& pteUser ≠ 0 → m'.UserTable pd p) := by
  obtain ⟨hspace, hpte, htable⟩ := h.space.withFrame hf
  have hzero : f ≠ 0 := by
    rintro rfl
    rw [h.space.reserved] at hf
    cases hf
  have hholds : ∀ g, m.Holds pd g → g ≠ f := by
    rintro g hg rfl
    exact h.space.not_holds_free hf hg
  have hnotholds : ¬(m.withFrame f).Holds pd f := by
    rintro (he | htab)
    · exact hholds pd (Or.inl rfl) he.symm
    · exact hholds f (Or.inr ((htable f).mp htab)) rfl
  have hearlier : ∀ g, m.bitmap g = false → m₀.bitmap g = false := fun g hg => h.earlier_free hg
  rcases hspace.mapIn hp (Or.inl hzero) flags huser with he | ⟨m', he, hu, hut⟩
  · exact Or.inl he
  · have hused : (m.withFrame f).bitmap f = true := (withFrame_bitmap m f f).mpr (Or.inr rfl)
    have hentry : m'.pte pd p = mapEntry f flags := by rw [hu.pte p hp, Function.update_self]
    have hframe : m'.frameAt pd p = f := by
      unfold frameAt
      rw [hentry, mapEntry_frame]
    have hnottable : ¬m'.IsTable pd f := by
      intro htab
      rcases hu.made f htab with htab | hfree
      · exact hnotholds (Or.inr htab)
      · rw [hused] at hfree
        cases hfree
    refine Or.inr ⟨m', he, ⟨h₀, hu.space, hu.total.trans h.total, ?_, fun q hq hne => ?_, ?_, ?_, ?_, ?_, ?_,
      fun q r hq hr _ => hq.trans hr.symm, fun g => ?_, fun g hg hnot => ?_, fun g hg => hu.tables g ((htable g).mpr (h.tables g hg)),
      fun g hg => ?_, fun q hq hqu => hu.user q hq ?_⟩, hentry, ?_, hut⟩
    · rintro q rfl
      exact hp
    · apply view_congr
      rw [hu.pte q hq, Function.update_of_ne hne, hpte q hq, h.pte q hq, Function.update_of_ne hne]
    · rintro q rfl
      exact hview
    · rintro q rfl
      rw [hentry]
      exact mapEntry_present f flags
    · rintro q rfl
      rw [hframe]
      exact hearlier f hf
    · rintro q rfl
      rw [hframe]
      exact hnottable
    · rintro q rfl
      rw [hframe, hu.total]
      exact hlt
    · rw [hu.used, withFrame_bitmap, h.used]
      constructor
      · rintro (((hg | hg) | rfl) | hg)
        · exact Or.inl hg
        · exact Or.inr (Or.inl (hu.tables g ((htable g).mpr hg)))
        · exact Or.inr (Or.inr ⟨p, rfl, hframe⟩)
        · exact Or.inr (Or.inl hg)
      · rintro (hg | hg | ⟨q, rfl, hg⟩)
        · exact Or.inl (Or.inl (Or.inl hg))
        · exact Or.inr hg
        · exact Or.inl (Or.inr (hg.symm.trans hframe))
    · have hbit : m.bitmap g = true := (h.used g).mpr (Or.inl hg)
      have hgf : g ≠ f := by
        rintro rfl
        rw [hf] at hbit
        cases hbit
      have hnotm : ¬m.Holds pd g := h.not_holds_later hg hnot
      rw [hu.mem g ((withFrame_bitmap m f g).mpr (Or.inl hbit)), withFrame_mem m hgf, h.mem g hg hnot]
      rintro (he | htab)
      · exact hnotm (Or.inl he)
      · exact hnotm (Or.inr ((htable g).mp htab))
    · rcases hu.made g hg with hg | hg
      · exact h.made g ((htable g).mp hg)
      · refine Or.inr (hearlier g ?_)
        rw [← Bool.not_eq_true]
        intro hgu
        rw [(withFrame_bitmap m f g).mpr (Or.inl hgu)] at hg
        cases hg
    · have hqm := h.user q hq hqu
      unfold UserTable at hqm ⊢
      rw [withFrame_mem m (hholds pd (Or.inl rfl))]
      exact hqm
    · rw [hu.mem f hused hnotholds, withFrame_zero]

/-- A page of `S` is unmapped and its frame given back. -/
theorem Grown.drop (h : Grown m₀ m pd S) (hp : S p) :
    Grown m₀ ((m.vmmUnmapIn pd (p * pageSize)).pmmFreeFrame (m.frameAt pd p)) pd fun q => S q ∧ q ≠ p := by
  have hu := h.space.unmapIn (h.bound p hp) (h.mapped p hp)
  have hfree := h.free p hp
  have hnot := h.frame_not_holds hp
  have hne := h.frame_ne hp
  have hlt := h.managed p hp
  generalize hF : m.frameAt pd p = f at *
  generalize m.vmmUnmapIn pd (p * pageSize) = u at *
  obtain ⟨hmem, htotal⟩ := pmmFreeFrame_same u f
  have hbits : ∀ g, (u.pmmFreeFrame f).bitmap g = true ↔ u.bitmap g = true ∧ g ≠ f := pmmFreeFrame_bitmap (by rw [hu.total]; exact hlt)
  generalize u.pmmFreeFrame f = m' at *
  have hnottable : ¬u.IsTable pd f := by
    intro htab
    rcases hu.made f htab with htab | hf
    · exact hnot (Or.inr htab)
    · rw [← hF, h.frame_used hp] at hf
      cases hf
  have hnotu : ¬u.Holds pd f := by
    rintro (he | htab)
    · exact hnot (Or.inl he)
    · exact hnottable htab
  have hused : ∀ g, u.bitmap g = true → m'.bitmap g = true ∨ g ≠ 0 ∧ ¬u.Holds pd g := by
    intro g hg
    by_cases hgf : g = f
    · rw [hgf]
      exact Or.inr ⟨hne, hnotu⟩
    · exact Or.inl ((hbits g).mpr ⟨hg, hgf⟩)
  obtain ⟨hspace, hpte, htable⟩ := hu.space.congr (fun g _ => by rw [hmem]) hused
  have hsame : ∀ q < pageCount, q ≠ p → m'.pte pd q = m.pte pd q := by
    intro q hq hqp
    rw [hpte q hq, hu.pte q hq, Function.update_of_ne hqp]
  have hframe : ∀ q, S q → q ≠ p → m'.frameAt pd q = m.frameAt pd q := by
    intro q hq hqp
    unfold frameAt
    rw [hsame q (h.bound q hq) hqp]
  refine ⟨h.start, hspace, htotal.trans (hu.total.trans h.total), fun q hq => h.bound q hq.1, fun q hq hnots => ?_,
    fun q hq => h.fresh q hq.1, fun q hq => ?_, fun q hq => ?_, fun q hq => ?_, fun q hq => ?_, fun q r hq hr he => ?_, fun g => ?_,
    fun g hg hnotg => ?_, fun g hg => (htable g).mpr (hu.tables g (h.tables g hg)), fun g hg => ?_, fun q hq hqu => ?_⟩
  · by_cases hqp : q = p
    · subst hqp
      rw [h.fresh q hp, view_eq_none, hpte q hq, hu.pte q hq, Function.update_self]
      rfl
    · rw [view_congr (hsame q hq hqp)]
      exact h.old q hq fun hs => hnots ⟨hs, hqp⟩
  · rw [hsame q (h.bound q hq.1) hq.2]
    exact h.mapped q hq.1
  · rw [hframe q hq.1 hq.2]
    exact h.free q hq.1
  · rw [hframe q hq.1 hq.2, htable]
    intro htab
    rcases hu.made _ htab with htab | hf
    · exact h.frame q hq.1 htab
    · rw [h.frame_used hq.1] at hf
      cases hf
  · rw [hframe q hq.1 hq.2, htotal, hu.total]
    exact h.managed q hq.1
  · rw [hframe q hq.1 hq.2, hframe r hr.1 hr.2] at he
    exact h.inj q r hq.1 hr.1 he
  · rw [hbits, hu.used, h.used, htable]
    constructor
    · rintro ⟨(hg | hg | ⟨q, hq, rfl⟩) | hg, hgf⟩
      · exact Or.inl hg
      · exact Or.inr (Or.inl (hu.tables g hg))
      · have hqp : q ≠ p := fun he => hgf (by rw [he]; exact hF)
        exact Or.inr (Or.inr ⟨q, ⟨hq, hqp⟩, hframe q hq hqp⟩)
      · exact Or.inr (Or.inl hg)
    · rintro (hg | hg | ⟨q, ⟨hq, hqp⟩, rfl⟩)
      · refine ⟨Or.inl (Or.inl hg), ?_⟩
        rintro rfl
        rw [hfree] at hg
        cases hg
      · refine ⟨Or.inr hg, ?_⟩
        rintro rfl
        exact hnottable hg
      · rw [hframe q hq hqp]
        refine ⟨Or.inl (Or.inr (Or.inr ⟨q, hq, rfl⟩)), fun he => hqp ?_⟩
        exact h.inj q p hq hp (he.trans hF.symm)
  · rw [hmem, hu.mem g ((h.used g).mpr (Or.inl hg)) (not_holds_of_made h.made hg hnotg), h.mem g hg hnotg]
  · rcases hu.made g ((htable g).mp hg) with hg | hf
    · exact h.made g hg
    · exact Or.inr (h.earlier_free hf)
  · have huq := hu.user q hq (h.user q hq hqu)
    unfold UserTable at huq ⊢
    rw [hmem]
    exact huq

/-! ## Where spaces come from -/

/-- A space in which nothing is mapped for processes. -/
structure Fresh (m : Machine) (pd : ℕ) : Prop extends m.Space pd where
  empty : ∀ i < 1024, isKernelPde i = false → present (m.mem pd i) = false

theorem Fresh.view (h : m.Fresh pd) (hp : userPage (p * pageSize) = true) : m.view pd p = none := by
  unfold userPage at hp
  unfold userMin userMax pageSize at hp
  simp only [decide_eq_true_eq] at hp
  have hlt : p < pageCount := by
    unfold pageCount
    omega
  have hkernel : isKernelPde (p / 1024) = false := by
    unfold isKernelPde
    unfold userMin userMax pdeSpan
    simp only [decide_eq_false_iff_not]
    omega
  rw [view_eq_none, pte_of_absent (h.empty _ (index_lt hlt) hkernel)]
  decide

/-- The directory of a new space is a frame that was free, and its tables are the kernel's. -/
theorem Space.create (h : m.Space m.kernelPd) (he : m.vmmSpaceCreate = (m', 0)) : ∃ f, m'.spaces = f :: m.spaces ∧ m'.Fresh f := by
  rcases m.pmmAllocFrame_spec with ⟨f, -, hf, hframe⟩ | ⟨hframe, -⟩
  · have hzero : f ≠ 0 := by
      rintro rfl
      rw [h.reserved] at hf
      cases hf
    unfold vmmSpaceCreate at he
    simp only [hframe, if_neg hzero, Prod.mk.injEq, and_true] at he
    have hused : ∀ g, m.bitmap g = true → m'.bitmap g = true := by
      intro g hg
      rw [← he]
      dsimp only
      rw [Function.update_apply]
      split
      · rfl
      · exact hg
    have hdir : ∀ i, m'.mem f i = if i < 1024 ∧ isKernelPde i = true then m.mem m.kernelPd i else 0 := by
      intro i
      rw [← he]
      dsimp only
      rw [Function.update_self]
    have hother : ∀ g, g ≠ f → m'.mem g = m.mem g := by
      intro g hg
      rw [← he]
      exact Function.update_of_ne hg ..
    have hentry : ∀ i, present (m'.mem f i) = true → isKernelPde i = true ∧ m'.mem f i = m.mem m.kernelPd i := by
      intro i hp
      rw [hdir] at hp ⊢
      split at hp
      · next hi => exact ⟨hi.2, if_pos hi⟩
      · exact absurd hp (by decide)
    have htable : ∀ i < 1024, present (m.mem m.kernelPd i) = true → frameOf (m.mem m.kernelPd i) ≠ f := by
      intro i hi hp heq
      exact h.not_holds_free hf (Or.inr ⟨i, hi, hp, heq⟩)
    refine ⟨f, by rw [← he], ⟨hzero, ?_, hused 0 h.reserved, fun i hi hp => ?_, fun i hi j hj hp hq heq => ?_, fun p hlt hp hzero => ?_⟩,
      fun i _ hik => ?_⟩
    · rw [← he]
      exact Function.update_self ..
    · obtain ⟨-, hsame⟩ := hentry i hp
      rw [hsame] at hp ⊢
      obtain ⟨hbit, hne, -⟩ := h.table i hi hp
      exact ⟨hused _ hbit, hne, htable i hi hp⟩
    · have hsame := (hentry i hp).2
      have hsame' := (hentry j hq).2
      rw [hsame] at hp heq
      rw [hsame'] at hq heq
      exact h.tables i hi j hj hp hq heq
    · have hpde : present (m'.mem f (p / 1024)) = true := by
        by_contra hno
        rw [pte_of_absent (by simpa using hno)] at hp
        exact absurd hp (by decide)
      have hsame := (hentry _ hpde).2
      have hpte : m'.pte f p = m.pte m.kernelPd p := by
        have hpde' := hpde
        rw [hsame] at hpde'
        rw [pte_of_present hpde, pte_of_present hpde', hsame, hother _ (htable _ (index_lt hlt) hpde')]
      unfold frameAt at hzero
      rw [hpte] at hp hzero
      exact h.zero p hlt hp hzero
    · rw [hdir, if_neg fun hi => by rw [hik] at hi; cases hi.2]
      decide
  · unfold vmmSpaceCreate at he
    rw [hframe] at he
    have hneg : (-1 : ℤ) = 0 := congrArg Prod.snd he
    cases hneg

theorem pmmAllocFrame_kernelPd (m : Machine) : m.pmmAllocFrame.1.kernelPd = m.kernelPd := by
  rcases m.pmmAllocFrame_spec with ⟨f, -, -, he⟩ | ⟨he, -⟩
  · rw [he]
  · rw [he]

theorem tableFor_kernelPd (m : Machine) (pd virt extra : ℕ) : (m.tableFor pd virt true extra).1.kernelPd = m.kernelPd := by
  have hframe := m.pmmAllocFrame_kernelPd
  unfold Machine.tableFor
  dsimp only
  generalize m.pmmAllocFrame = allocated at *
  split
  · rw [if_pos rfl]
    split
    · exact hframe
    · exact hframe
  · split <;> rfl

theorem vmmMapIn_kernelPd (m : Machine) (pd virt phys flags : ℕ) : (m.vmmMapIn pd virt phys flags).1.kernelPd = m.kernelPd := by
  have hfound := m.tableFor_kernelPd pd virt (flags &&& pteUser)
  unfold Machine.vmmMapIn
  dsimp only
  generalize m.tableFor pd virt true (flags &&& pteUser) = found at *
  split
  · rfl
  split
  · rfl
  split
  · rfl
  split
  · exact hfound
  · split <;> exact hfound

theorem Space.identityMap {n : ℕ} (h : m.Space m.kernelPd) (hn : p + n ≤ pageCount) (hs : identityMap n p m = some m') :
    m'.Space m'.kernelPd := by
  induction n generalizing p m with
  | zero =>
    obtain rfl := Option.some.inj hs
    exact h
  | succ n ih =>
    rw [Machine.identityMap] at hs
    have hpd := m.vmmMapIn_kernelPd m.kernelPd (p * pageSize) (p * pageSize) (ptePresent ||| pteWrite)
    rcases h.mapIn (f := p) (by omega) (Decidable.em _ |>.symm) (ptePresent ||| pteWrite) (fun he => absurd he (by decide)) with
      he | ⟨m₁, he, hu, -⟩
    · rw [he] at hs
      cases hs
    · rw [he] at hs hpd
      dsimp only at hs hpd
      rw [if_neg (by decide)] at hs
      exact ih (by rw [hpd]; exact hu.space) (by omega) hs

theorem Space.reserveTables {n : ℕ} (h : m.Space m.kernelPd) (hn : p + n * 1024 ≤ pageCount) (hs : reserveTables n (p * pageSize) m = some m') :
    m'.Space m'.kernelPd := by
  induction n generalizing p m with
  | zero =>
    obtain rfl := Option.some.inj hs
    exact h
  | succ n ih =>
    have hnext : p * pageSize + pdeSpan = (p + 1024) * pageSize := by
      unfold pdeSpan pageSize
      omega
    simp only [Machine.reserveTables] at hs
    have hpd := m.tableFor_kernelPd m.kernelPd (p * pageSize) 0
    rcases h.tableFor (p := p) (by omega) (Or.inl rfl) with he | ⟨m₁, t, he, hne, hu, -⟩
    · rw [he] at hs
      cases hs
    · rw [he] at hs hpd
      dsimp only at hs hpd
      rw [if_neg hne, hnext] at hs
      exact ih (by rw [hpd]; exact hu.space) (by omega) hs

/-- The kernel's own space after `paging_init`. `pmm_init` has put frame 0 in use. -/
theorem pagingInit_space (hzero : m₀.bitmap 0 = true) (hs : m₀.pagingInit = some m) : m.Space m.kernelPd := by
  unfold pagingInit at hs
  rcases m₀.pmmAllocFrame_spec with ⟨f, -, hf, he⟩ | ⟨he, -⟩
  · have hne : f ≠ 0 := by
      rintro rfl
      rw [hzero] at hf
      cases hf
    simp only [he, if_neg hne] at hs
    obtain ⟨m₂, h₂, hs⟩ := Option.bind_eq_some_iff.mp hs
    obtain ⟨m₃, h₃, hs⟩ := Option.bind_eq_some_iff.mp hs
    change Machine.identityMap _ 0 (m₀.withDirectory f) = some m₂ at h₂
    have hempty : ∀ i, present ((m₀.withDirectory f).mem f i) = false := by
      intro i
      unfold withDirectory clear
      dsimp only
      rw [Function.update_self]
      decide
    have hspace : (m₀.withDirectory f).Space f := by
      refine ⟨hne, Function.update_self .., ?_, fun i _ hp => ?_, fun i _ j _ hp => ?_, fun p _ hp => ?_⟩
      · exact (Function.update_of_ne hne.symm ..).trans hzero
      · rw [hempty] at hp
        cases hp
      · rw [hempty] at hp
        cases hp
      · rw [pte_of_absent (hempty _)] at hp
        exact absurd hp (by decide)
    have hspace₂ := hspace.identityMap (p := 0) (by unfold pageCount userMin pageSize; omega) h₂
    have hspace₃ := hspace₂.reserveTables (p := kernelHeapBase / pageSize) (by decide) h₃
    exact hspace₃.reserveTables (p := kernelFbBase / pageSize) (by decide) hs
  · rw [he] at hs
    cases hs

end Machine

end SifarOS.Paging
