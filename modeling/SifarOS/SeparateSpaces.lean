import SifarOS.AddressSpace
import SifarOS.WordBitmap

/-! # Address spaces side by side

The directories of all processes in one machine, and runs of frames. The tables behind a process's own pages
belong to no other space, so what is mapped for one process is seen by no other one. -/
namespace SifarOS.Paging

namespace Machine

/-! ## Runs of frames -/

section definitions
variable (m : Machine)

def takeRun (start count : ℕ) : Machine :=
  (List.range count).foldl (fun m i => { m with bitmap := Function.update m.bitmap (start + i) true }) m

/-- `pmm_alloc_frames`, which gives the first frame of the run. -/
def pmmAllocFrames (count : ℕ) : Machine × ℕ :=
  if count = 0 then (m, 0)
  else if count = 1 then m.pmmAllocFrame
  else if m.totalFrames < count then (m, 0)
  else
    match WordBitmap.scanRun m.bitmap count m.totalFrames 0 0 0 with
    | some start => (m.takeRun start count, start)
    | none => (m, 0)

def pmmFreeContiguous (base count : ℕ) : Machine := (List.range count).foldl (fun m i => m.pmmFreeFrame (base + i)) m

/-- `memset` of a run. -/
def clearRun (base count : ℕ) : Machine := (List.range count).foldl (fun m i => m.clear (base + i)) m

end definitions

variable {m m' m'' : Machine} {directory : ℕ → ℕ} {f g n p q o o' pd : ℕ} {new new' : ℕ → ℕ}

/-- The frame is one of the run. -/
def InRun (base count g : ℕ) : Prop := base ≤ g ∧ g < base + count

theorem inRun_succ : InRun f (n + 1) g ↔ InRun f n g ∨ g = f + n := by
  unfold InRun
  omega

theorem takeRun_succ (m : Machine) (f n : ℕ) :
    m.takeRun f (n + 1) = { m.takeRun f n with bitmap := Function.update (m.takeRun f n).bitmap (f + n) true } := by
  unfold takeRun
  rw [List.range_succ, List.foldl_append]
  rfl

theorem takeRun_spec (m : Machine) (f n : ℕ) : (∀ g, (m.takeRun f n).bitmap g = true ↔ m.bitmap g = true ∨ InRun f n g) ∧
    (m.takeRun f n).mem = m.mem ∧ (m.takeRun f n).totalFrames = m.totalFrames := by
  induction n with
  | zero => exact ⟨fun g => ⟨Or.inl, fun hor => hor.elim id fun hin => absurd hin (by unfold InRun; omega)⟩, rfl, rfl⟩
  | succ n ih =>
    obtain ⟨hbit, hmem, htotal⟩ := ih
    rw [takeRun_succ]
    refine ⟨fun g => ?_, hmem, htotal⟩
    dsimp only
    rw [inRun_succ, ← or_assoc, ← hbit]
    rcases eq_or_ne g (f + n) with rfl | hne
    · simp
    · rw [Function.update_of_ne hne, or_iff_left hne]

theorem clearRun_succ (m : Machine) (f n : ℕ) : m.clearRun f (n + 1) = (m.clearRun f n).clear (f + n) := by
  unfold clearRun
  rw [List.range_succ, List.foldl_append]
  rfl

theorem clearRun_spec (m : Machine) (f n : ℕ) : (m.clearRun f n).bitmap = m.bitmap ∧
    (∀ g, ¬InRun f n g → (m.clearRun f n).mem g = m.mem g) ∧ (∀ g, InRun f n g → (m.clearRun f n).mem g = fun _ => 0) ∧
    (m.clearRun f n).totalFrames = m.totalFrames := by
  induction n with
  | zero => exact ⟨rfl, fun _ _ => rfl, fun g hin => absurd hin (by unfold InRun; omega), rfl⟩
  | succ n ih =>
    obtain ⟨hbit, hold, hzero, htotal⟩ := ih
    rw [clearRun_succ]
    refine ⟨hbit, fun g hout => ?_, fun g hin => ?_, htotal⟩
    · rw [inRun_succ, not_or] at hout
      exact (Function.update_of_ne hout.2 ..).trans (hold g hout.1)
    · rcases eq_or_ne g (f + n) with rfl | hne
      · exact Function.update_self ..
      · exact (Function.update_of_ne hne ..).trans (hzero g ((inRun_succ.mp hin).resolve_right hne))

theorem pmmFreeContiguous_succ (m : Machine) (f n : ℕ) :
    m.pmmFreeContiguous f (n + 1) = (m.pmmFreeContiguous f n).pmmFreeFrame (f + n) := by
  unfold pmmFreeContiguous
  rw [List.range_succ, List.foldl_append]
  rfl

theorem pmmFreeContiguous_spec (m : Machine) {f n : ℕ} (hend : f + n ≤ m.totalFrames) :
    (∀ g, (m.pmmFreeContiguous f n).bitmap g = true ↔ m.bitmap g = true ∧ ¬InRun f n g) ∧
      (m.pmmFreeContiguous f n).mem = m.mem ∧ (m.pmmFreeContiguous f n).totalFrames = m.totalFrames := by
  induction n with
  | zero => exact ⟨fun g => ⟨fun hg => ⟨hg, by unfold InRun; omega⟩, And.left⟩, rfl, rfl⟩
  | succ n ih =>
    obtain ⟨hbit, hmem, htotal⟩ := ih (by omega)
    rw [pmmFreeContiguous_succ]
    have hfree : (m.pmmFreeContiguous f n).pmmFreeFrame (f + n) =
        { m.pmmFreeContiguous f n with bitmap := Function.update (m.pmmFreeContiguous f n).bitmap (f + n) false } :=
      if_neg (by omega)
    rw [hfree]
    refine ⟨fun g => ?_, hmem, htotal⟩
    dsimp only
    rw [inRun_succ, not_or, ← and_assoc, ← hbit]
    rcases eq_or_ne g (f + n) with rfl | hne
    · simp
    · rw [Function.update_of_ne hne, and_iff_left hne]

/-- A run is found where there is one, and then the frames before it stay as they were. -/
theorem pmmAllocFrames_cases (m : Machine) (hzero : m.bitmap 0 = true) (hn : 0 < n) :
    m.pmmAllocFrames n = (m, 0) ∨
      ∃ f, m.pmmAllocFrames n = (m.takeRun f n, f) ∧ f ≠ 0 ∧ f + n ≤ m.totalFrames ∧ ∀ g, InRun f n g → m.bitmap g = false := by
  have hne : ∀ {f}, m.bitmap f = false → f ≠ 0 := by
    rintro f hf rfl
    rw [hzero] at hf
    cases hf
  unfold pmmAllocFrames
  rw [if_neg (Nat.ne_of_gt hn)]
  split
  · next hone =>
    subst hone
    rcases m.pmmAllocFrame_spec with ⟨f, hlt, hf, he⟩ | ⟨he, -⟩
    · refine Or.inr ⟨f, he, hne hf, hlt, fun g hg => ?_⟩
      obtain rfl : g = f := by
        unfold InRun at hg
        omega
      exact hf
    · exact Or.inl he
  · split
    · exact Or.inl rfl
    · have hscan : WordBitmap.AnyRun m.bitmap m.totalFrames n (WordBitmap.scanRun m.bitmap n m.totalFrames 0 0 0) :=
        WordBitmap.scanRun_iff hn
      split
      · next f hf =>
        rw [hf] at hscan
        obtain ⟨hend, hfree⟩ := hscan
        refine Or.inr ⟨f, rfl, hne (hfree 0 hn), hend, fun g hg => ?_⟩
        obtain ⟨k, rfl⟩ := Nat.exists_eq_add_of_le hg.1
        exact hfree k (Nat.lt_of_add_lt_add_left hg.2)
      · exact Or.inl rfl

/-! ## Spaces side by side -/

/-- A directory entry of the processes' half. -/
def UserIndex (i : ℕ) : Prop := 256 ≤ i ∧ i < 832

theorem userIndex_of_page (hp : userPage (p * pageSize) = true) : UserIndex (p / 1024) := by
  unfold userPage userMin userMax pageSize at hp
  rw [decide_eq_true_eq] at hp
  unfold UserIndex
  omega

theorem lt_of_userPage (hp : userPage (p * pageSize) = true) : p < pageCount := by
  unfold userPage userMin userMax pageSize at hp
  rw [decide_eq_true_eq] at hp
  unfold pageCount
  omega

/-- The processes' directories, 0 where a process has none. No space holds the directory of another one, nor the
tables behind its own half. -/
structure Spaces (m : Machine) (directory : ℕ → ℕ) : Prop where
  reserved : m.bitmap 0 = true
  space : ∀ o, directory o ≠ 0 → m.Space (directory o)
  apart : ∀ o o', o ≠ o' → directory o ≠ 0 → directory o' ≠ 0 → ¬m.Holds (directory o') (directory o)
  table : ∀ o o', o ≠ o' → directory o ≠ 0 → directory o' ≠ 0 → ∀ i, UserIndex i → present (m.mem (directory o) i) = true →
    ¬m.Holds (directory o') (frameOf (m.mem (directory o) i))

/-- The frame holds no entries of any space. -/
def Loose (m : Machine) (directory : ℕ → ℕ) (g : ℕ) : Prop := ∀ o, directory o ≠ 0 → ¬m.Holds (directory o) g

theorem Spaces.loose (h : Spaces m directory) (hg : m.bitmap g = false) : m.Loose directory g :=
  fun o ho => (h.space o ho).not_holds_free hg

/-- Where the frames of the directories and tables are left alone and stay in use, the spaces stay. -/
theorem Spaces.congr (h : Spaces m directory) (hmem : ∀ g, ¬m.Loose directory g → m'.mem g = m.mem g)
    (hused : ∀ g, m.bitmap g = true → m'.bitmap g = true ∨ g ≠ 0 ∧ m.Loose directory g) :
    Spaces m' directory ∧ (∀ o, directory o ≠ 0 → ∀ p < pageCount, m'.pte (directory o) p = m.pte (directory o) p) ∧
      (∀ g, m'.Loose directory g ↔ m.Loose directory g) ∧
      ∀ o, directory o ≠ 0 → m'.mem (directory o) = m.mem (directory o) := by
  have hheld : ∀ o, directory o ≠ 0 → ∀ g, m.Holds (directory o) g → ¬m.Loose directory g :=
    fun o ho g hg hloose => hloose o ho hg
  have hspace := fun o ho => (h.space o ho).congr (fun g hg => hmem g (hheld o ho g hg))
    fun g hg => (hused g hg).imp_right fun hand => ⟨hand.1, hand.2 o ho⟩
  have hpd : ∀ o, directory o ≠ 0 → m'.mem (directory o) = m.mem (directory o) :=
    fun o ho => hmem _ (hheld o ho _ (Or.inl rfl))
  have hholds : ∀ o, directory o ≠ 0 → ∀ g, m'.Holds (directory o) g ↔ m.Holds (directory o) g :=
    fun o ho g => or_congr_right ((hspace o ho).2.2 g)
  refine ⟨⟨?_, fun o ho => (hspace o ho).1, fun o o' hne ho ho' => ?_, fun o o' hne ho ho' i hi hp => ?_⟩,
    fun o ho => (hspace o ho).2.1, fun g => forall₂_congr fun o ho => not_congr (hholds o ho g), hpd⟩
  · exact (hused 0 h.reserved).resolve_right fun hand => hand.1 rfl
  · rw [hholds o' ho']
    exact h.apart o o' hne ho ho'
  · rw [hpd o ho] at hp ⊢
    rw [hholds o' ho']
    exact h.table o o' hne ho ho' i hi hp

/-! ## Entries of one space -/

/-- The entries of the process `o` become `new`, and no other process notices. -/
structure Edited (directory : ℕ → ℕ) (m m' : Machine) (o : ℕ) (new : ℕ → ℕ) : Prop where
  spaces : Spaces m' directory
  total : m'.totalFrames = m.totalFrames
  pte : ∀ p < pageCount, m'.pte (directory o) p = new p
  other : ∀ o', o' ≠ o → directory o' ≠ 0 → ∀ p < pageCount, m'.pte (directory o') p = m.pte (directory o') p
  used : ∀ g, m'.bitmap g = true ↔ m.bitmap g = true ∨ m'.IsTable (directory o) g
  tables : ∀ g, m.IsTable (directory o) g → m'.IsTable (directory o) g
  entry : ∀ i, present (m.mem (directory o) i) = true → present (m'.mem (directory o) i) = true
  loose : ∀ g, m.bitmap g = true → m.Loose directory g → m'.Loose directory g ∧ m'.mem g = m.mem g

theorem Edited.refl (h : Spaces m directory) (ho : directory o ≠ 0) : Edited directory m m o (m.pte (directory o)) where
  spaces := h
  total := rfl
  pte := fun _ _ => rfl
  other := fun _ _ _ _ _ => rfl
  used := fun _ => ⟨Or.inl, fun hor => hor.elim id (h.space o ho).used_table⟩
  tables := fun _ hg => hg
  entry := fun _ hp => hp
  loose := fun _ _ hg => ⟨hg, rfl⟩

theorem Edited.trans (h : Edited directory m m' o new) (h' : Edited directory m' m'' o new') : Edited directory m m'' o new' where
  spaces := h'.spaces
  total := h'.total.trans h.total
  pte := h'.pte
  other := fun o' hne ho' p hp => (h'.other o' hne ho' p hp).trans (h.other o' hne ho' p hp)
  used := fun g => by
    rw [h'.used, h.used, or_assoc]
    exact or_congr_right ⟨fun hor => hor.elim (h'.tables g) id, Or.inr⟩
  tables := fun g hg => h'.tables g (h.tables g hg)
  entry := fun i hp => h'.entry i (h.entry i hp)
  loose := fun g hg hloose => by
    obtain ⟨hnext, hmem⟩ := h.loose g hg hloose
    obtain ⟨hlast, hmem'⟩ := h'.loose g ((h.used g).mpr (Or.inl hg)) hnext
    exact ⟨hlast, hmem'.trans hmem⟩

theorem Edited.congr (h : Edited directory m m' o new) (hnew : ∀ p < pageCount, new p = new' p) : Edited directory m m' o new' :=
  { h with pte := fun p hp => (h.pte p hp).trans (hnew p hp) }

/-- What an edit of one space needs to be one: it writes to the directory and to one of its tables, which is one of the
process's own, or a frame that was free. -/
theorem Spaces.edited (h : Spaces m directory) (ho : directory o ≠ 0) {t : ℕ} (hu : Updated m m' (directory o) new)
    (hmem : ∀ g, g ≠ directory o → g ≠ t → m'.mem g = m.mem g)
    (ht : (∃ i, UserIndex i ∧ present (m.mem (directory o) i) = true ∧ frameOf (m.mem (directory o) i) = t) ∨ m.bitmap t = false)
    (hframe : ∀ i, UserIndex i → present (m'.mem (directory o) i) = true →
      frameOf (m'.mem (directory o) i) = t ∨ present (m.mem (directory o) i) = true ∧
        frameOf (m'.mem (directory o) i) = frameOf (m.mem (directory o) i))
    (hentry : ∀ i, present (m.mem (directory o) i) = true → present (m'.mem (directory o) i) = true) :
    Edited directory m m' o new := by
  have hown : ∀ o', o' ≠ o → directory o' ≠ 0 → ¬m.Holds (directory o') t := by
    intro o' hne ho'
    rcases ht with ⟨i, hi, hp, rfl⟩ | hfree
    · exact h.table o o' hne.symm ho ho' i hi hp
    · exact (h.space o' ho').not_holds_free hfree
  have hkept : ∀ o', o' ≠ o → directory o' ≠ 0 → ∀ g, m.Holds (directory o') g → m'.mem g = m.mem g := by
    intro o' hne ho' g hg
    refine hmem g ?_ ?_
    · rintro rfl
      exact h.apart o o' hne.symm ho ho' hg
    · rintro rfl
      exact hown o' hne ho' hg
  have hspace := fun o' hne ho' => (h.space o' ho').congr (hkept o' hne ho') fun g hg => Or.inl ((hu.used g).mpr (Or.inl hg))
  have hpd : ∀ o', o' ≠ o → directory o' ≠ 0 → m'.mem (directory o') = m.mem (directory o') :=
    fun o' hne ho' => hkept o' hne ho' _ (Or.inl rfl)
  have hholds : ∀ o', o' ≠ o → directory o' ≠ 0 → ∀ g, m'.Holds (directory o') g ↔ m.Holds (directory o') g :=
    fun o' hne ho' g => or_congr_right ((hspace o' hne ho').2.2 g)
  have hlater : ∀ g, m.bitmap g = true → ¬m.Holds (directory o) g → ¬m'.Holds (directory o) g :=
    fun g hg hnot => hu.not_holds_later hg hnot
  have hall : ∀ o', directory o' ≠ 0 → m'.Space (directory o') := by
    intro o' ho'
    rcases eq_or_ne o' o with rfl | hne
    · exact hu.space
    · exact (hspace o' hne ho').1
  refine ⟨⟨(hu.used 0).mpr (Or.inl h.reserved), hall, fun a b hab ha hb => ?_, fun a b hab ha hb i hi hp => ?_⟩, hu.total, hu.pte,
    fun o' hne ho' => (hspace o' hne ho').2.1, hu.used, hu.tables, hentry, fun g hg hloose => ⟨fun o' ho' => ?_, ?_⟩⟩
  · have hnot := h.apart a b hab ha hb
    rcases eq_or_ne b o with rfl | hb'
    · exact hlater _ (h.space a ha).pd_used hnot
    · rwa [hholds b hb' hb]
  · rcases eq_or_ne b o with rfl | hb'
    · rw [hpd a hab ha] at hp ⊢
      refine hlater _ ?_ (h.table a b hab ha hb i hi hp)
      exact ((h.space a ha).table i (Nat.lt_trans hi.2 (by decide)) hp).1
    · rw [hholds b hb' hb]
      rcases eq_or_ne a o with rfl | ha'
      · rcases hframe i hi hp with heq | ⟨hold, heq⟩
        · rw [heq]
          exact hown b hb' hb
        · rw [heq]
          exact h.table a b hab ha hb i hi hold
      · rw [hpd a ha' ha] at hp ⊢
        exact h.table a b hab ha hb i hi hp
  · rcases eq_or_ne o' o with rfl | hne
    · exact hlater g hg (hloose o' ho')
    · rw [hholds o' hne ho']
      exact hloose o' ho'
  · refine hmem g ?_ ?_
    · rintro rfl
      exact hloose o ho (Or.inl rfl)
    · rintro rfl
      rcases ht with ⟨i, hi, hp, rfl⟩ | hfree
      · exact hloose o ho (Or.inr ⟨i, Nat.lt_trans hi.2 (by decide), hp, rfl⟩)
      · rw [hg] at hfree
        cases hfree

/-- The flags of a page of a window's buffer. -/
def userFlags : ℕ := ptePresent ||| pteWrite ||| pteUser

theorem store_mem (m : Machine) (t i v : ℕ) (hg : g ≠ t) : (m.store t i v).mem g = m.mem g := Function.update_of_ne hg ..

theorem store_entry (m : Machine) (t i v j : ℕ) : (m.store t i v).mem t j = if j = i then v else m.mem t j := by
  unfold store
  dsimp only
  rw [Function.update_self, Function.update_apply]

/-- `vmm_map_in` of a page of a process, step by step: into the table that there is, into a new one, or not at all. -/
theorem Space.mapIn_shape (h : m.Space pd) (hp : userPage (p * pageSize) = true) (f : ℕ) {flags : ℕ} (hflags : flags &&& pteUser = pteUser) :
    (present (m.mem pd (p / 1024)) = true ∧ ∃ n, m.vmmMapIn pd (p * pageSize) (f * pageSize) flags =
      ({ (m.store pd (p / 1024) (m.mem pd (p / 1024) ||| pteUser)).store (frameOf (m.mem pd (p / 1024))) (p % 1024)
          (mapEntry f flags) with mappedPages := n }, 0)) ∨
    (present (m.mem pd (p / 1024)) = false ∧ ∃ t n, m.bitmap t = false ∧
      m.vmmMapIn pd (p * pageSize) (f * pageSize) flags =
        ({ (m.newTable pd p t pteUser).store t (p % 1024) (mapEntry f flags) with mappedPages := n }, 0)) ∨
    (present (m.mem pd (p / 1024)) = false ∧ m.vmmMapIn pd (p * pageSize) (f * pageSize) flags = (m, -1)) := by
  have huser : ¬(pteUser ≠ 0 ∧ userPage (p * pageSize) = false) := fun hand => by
    rw [hp] at hand
    cases hand.2
  have halign : ¬(p * pageSize % pageSize ≠ 0 ∨ f * pageSize % pageSize ≠ 0) := by simp
  rw [Machine.vmmMapIn, if_neg h.pd_ne, if_neg halign, hflags, if_neg huser, pageStart_pteIndex]
  cases hpde : present (m.mem pd (p / 1024)) with
  | true =>
    obtain ⟨-, hne, -⟩ := h.table _ (index_lt (lt_of_userPage hp)) hpde
    have hfound : m.tableFor pd (p * pageSize) true pteUser =
        (m.store pd (p / 1024) (m.mem pd (p / 1024) ||| pteUser), frameOf (m.mem pd (p / 1024))) := by
      rw [Machine.tableFor, pageStart_div]
      dsimp only
      rw [hpde]
      rfl
    refine Or.inl ⟨rfl, ?_⟩
    rw [hfound]
    dsimp only
    rw [if_neg hne]
    split <;> exact ⟨_, rfl⟩
  | false =>
    rcases m.pmmAllocFrame_spec with ⟨t, -, hfree, he⟩ | ⟨he, -⟩
    · have hzero : t ≠ 0 := by
        rintro rfl
        rw [h.reserved] at hfree
        cases hfree
      have hfound : m.tableFor pd (p * pageSize) true pteUser = (m.newTable pd p t pteUser, t) := by
        rw [Machine.tableFor, pageStart_div]
        dsimp only
        rw [hpde, if_pos rfl, if_pos rfl, he]
        exact if_neg hzero
      refine Or.inr (Or.inl ⟨rfl, t, ?_⟩)
      rw [hfound]
      dsimp only
      rw [if_neg hzero]
      split <;> exact ⟨_, hfree, rfl⟩
    · have hfound : m.tableFor pd (p * pageSize) true pteUser = (m, 0) := by
        rw [Machine.tableFor, pageStart_div]
        dsimp only
        rw [hpde, if_pos rfl, if_pos rfl, he]
        rfl
      refine Or.inr (Or.inr ⟨rfl, ?_⟩)
      rw [hfound]
      rfl

/-- A page of a process is mapped, unless a table is missing and there is no frame for it. -/
theorem Spaces.mapIn (h : Spaces m directory) (ho : directory o ≠ 0) (hp : userPage (p * pageSize) = true) (hf : f ≠ 0) {flags : ℕ}
    (hflags : flags &&& pteUser = pteUser) :
    (present (m.mem (directory o) (p / 1024)) = false ∧
      m.vmmMapIn (directory o) (p * pageSize) (f * pageSize) flags = (m, -1)) ∨
    ∃ m', m.vmmMapIn (directory o) (p * pageSize) (f * pageSize) flags = (m', 0) ∧
      Edited directory m m' o (Function.update (m.pte (directory o)) p (mapEntry f flags)) ∧
      present (m'.mem (directory o) (p / 1024)) = true ∧
      (present (m.mem (directory o) (p / 1024)) = true → m'.bitmap = m.bitmap) := by
  have hspace := h.space o ho
  have hlt := lt_of_userPage hp
  have hindex := userIndex_of_page hp
  have hupdated := (hspace.mapIn hlt (Or.inl hf) flags fun _ => hp)
  rcases hspace.mapIn_shape hp f hflags with ⟨hpde, n, he⟩ | ⟨hpde, t, n, hfree, he⟩ | ⟨hpde, he⟩
  · obtain ⟨-, -, hnepd⟩ := hspace.table _ (index_lt hlt) hpde
    rw [he] at hupdated ⊢
    have hu := hupdated.resolve_left fun heq => by cases (Prod.mk.inj heq).2
    obtain ⟨m', heq, hu, -⟩ := hu
    obtain rfl := (Prod.mk.inj heq).1
    have hmem : ∀ i, (m.store (directory o) (p / 1024) (m.mem (directory o) (p / 1024) ||| pteUser)).mem (directory o) i =
        if i = p / 1024 then m.mem (directory o) (p / 1024) ||| pteUser else m.mem (directory o) i := store_entry m _ _ _
    generalize ht : frameOf (m.mem (directory o) (p / 1024)) = t at *
    have hpd : ∀ i, ((m.store (directory o) (p / 1024) (m.mem (directory o) (p / 1024) ||| pteUser)).store t (p % 1024)
        (mapEntry f flags)).mem (directory o) i =
        if i = p / 1024 then m.mem (directory o) (p / 1024) ||| pteUser else m.mem (directory o) i := by
      intro i
      rw [store_mem _ _ _ _ hnepd.symm, hmem]
    refine Or.inr ⟨_, rfl, h.edited ho hu (fun g hg hgt => ?_) (Or.inl ⟨_, hindex, hpde, ht⟩) (fun i hi hpi => ?_)
      (fun i hpi => ?_), ?_, fun _ => rfl⟩
    · exact (store_mem _ _ _ _ hgt).trans (store_mem _ _ _ _ hg)
    · dsimp only at hpi ⊢
      rw [hpd] at hpi ⊢
      split
      · next hidx =>
        rw [frameOf_or_user]
        exact Or.inl ht
      · next hidx =>
        rw [if_neg hidx] at hpi
        exact Or.inr ⟨hpi, rfl⟩
    · dsimp only
      rw [hpd]
      split
      · rwa [present_or_user]
      · exact hpi
    · dsimp only
      rw [hpd, if_pos rfl, present_or_user]
      exact hpde
  · rw [he] at hupdated ⊢
    obtain ⟨m', heq, hu, -⟩ := hupdated.resolve_left fun heq => by cases (Prod.mk.inj heq).2
    obtain rfl := (Prod.mk.inj heq).1
    have hnepd : directory o ≠ t := by
      rintro rfl
      rw [hspace.pd_used] at hfree
      cases hfree
    obtain ⟨-, hpresent, hframe⟩ := hspace.newTable hlt hfree hpde (show pteUser < 8 by decide)
    have hold : ∀ i, i ≠ p / 1024 → (m.newTable (directory o) p t pteUser).mem (directory o) i = m.mem (directory o) i := by
      intro i hi
      rw [Machine.newTable, store_entry, if_neg hi, withFrame_mem m hnepd]
    refine Or.inr ⟨_, rfl, h.edited ho hu (fun g hg hgt => ?_) (Or.inr hfree) (fun i hi hpi => ?_) (fun i hpi => ?_), ?_,
      fun hp' => by rw [hpde] at hp'; cases hp'⟩
    · refine (store_mem _ _ _ _ hgt).trans ((store_mem _ _ _ _ hg).trans ?_)
      exact withFrame_mem m hgt
    · dsimp only at hpi ⊢
      rw [store_mem _ _ _ _ hnepd] at hpi ⊢
      rcases eq_or_ne i (p / 1024) with rfl | hidx
      · exact Or.inl hframe
      · rw [hold i hidx] at hpi ⊢
        exact Or.inr ⟨hpi, rfl⟩
    · dsimp only
      rw [store_mem _ _ _ _ hnepd]
      rcases eq_or_ne i (p / 1024) with rfl | hidx
      · exact hpresent
      · rwa [hold i hidx]
    · dsimp only
      rw [store_mem _ _ _ _ hnepd]
      exact hpresent
  · exact Or.inl ⟨hpde, he⟩

/-- A page of a process that is mapped is unmapped. -/
theorem Spaces.unmapIn (h : Spaces m directory) (ho : directory o ≠ 0) (hp : userPage (p * pageSize) = true)
    (hmapped : present (m.pte (directory o) p) = true) :
    Edited directory m (m.vmmUnmapIn (directory o) (p * pageSize)) o (Function.update (m.pte (directory o)) p 0) ∧
      (m.vmmUnmapIn (directory o) (p * pageSize)).bitmap = m.bitmap := by
  have hspace := h.space o ho
  have hlt := lt_of_userPage hp
  have hpde : present (m.mem (directory o) (p / 1024)) = true := by
    by_contra hno
    rw [pte_of_absent (by simpa using hno)] at hmapped
    cases hmapped
  obtain ⟨-, hne, hnepd⟩ := hspace.table _ (index_lt hlt) hpde
  have hu := hspace.unmapIn hlt hmapped
  have hshape : m.vmmUnmapIn (directory o) (p * pageSize) =
      { m.store (frameOf (m.mem (directory o) (p / 1024))) (p % 1024) 0 with mappedPages := m.mappedPages - 1 } := by
    rw [pte_of_present hpde] at hmapped
    unfold Machine.vmmUnmapIn Machine.tableFor
    dsimp only
    rw [if_neg hspace.pd_ne, Nat.mul_div_cancel _ (by decide), pageStart_div, pageStart_pteIndex]
    simp only [hpde, Bool.true_eq_false, if_false, hne, hmapped, or_self]
  rw [hshape] at hu ⊢
  have hpd : ∀ i, (m.store (frameOf (m.mem (directory o) (p / 1024))) (p % 1024) 0).mem (directory o) i =
      m.mem (directory o) i := fun i => congrFun (store_mem m _ _ _ hnepd.symm) i
  refine ⟨h.edited ho hu (fun g _ hgt => store_mem m _ _ _ hgt) (Or.inl ⟨_, userIndex_of_page hp, hpde, rfl⟩)
    (fun i _ hpi => ?_) (fun i hpi => ?_), rfl⟩
  · dsimp only at hpi ⊢
    rw [hpd] at hpi ⊢
    exact Or.inr ⟨hpi, rfl⟩
  · dsimp only
    rwa [hpd]

end Machine

end SifarOS.Paging
