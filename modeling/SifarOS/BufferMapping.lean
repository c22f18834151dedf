import SifarOS.WindowBuffers
import SifarOS.WindowEdits

/-! # How a buffer is mapped

The 4 MiB of a window have one table. Once the first page of a buffer is mapped, nothing can fail any more, so
`allocate_buffer` maps all of the buffer or leaves the spaces and the marks of the frames as they were. -/
namespace SifarOS.WindowBuffers
open ByteMemory Graphics Paging Paging.Machine WindowServer WindowEdits

variable {m m' : Machine} {directory : ℕ → ℕ} {i j : WindowSlot} {f g n k o p : ℕ} {new : ℕ → ℕ}

/-! ## The pages of a slot -/

def firstPage (i : WindowSlot) : ℕ := 393216 + i * 1024

def address (i : WindowSlot) : ℕ := windowVaBase + i * windowVaStep

theorem address_page (i : WindowSlot) (k : ℕ) : address i + k * pageSize = (firstPage i + k) * pageSize := by
  unfold address firstPage windowVaBase windowVaStep pageSize
  omega

theorem page_index (i : WindowSlot) (hk : k < 1024) : (firstPage i + k) / 1024 = 384 + i := by
  unfold firstPage
  omega

theorem page_user (i : WindowSlot) (hk : k < 1024) : userPage ((firstPage i + k) * pageSize) = true := by
  have hi := i.isLt
  unfold firstPage userPage userMin userMax pageSize
  rw [decide_eq_true_eq]
  omega

/-- The entries with the pages from `k` to `k + n` of a slot mapped to the frames behind `f`. -/
def filled (old : ℕ → ℕ) (i : WindowSlot) (f k n q : ℕ) : ℕ :=
  if firstPage i + k ≤ q ∧ q < firstPage i + k + n then mapEntry (f + (q - firstPage i)) userFlags else old q

/-- The entries without the pages from `k` to `k + n`. -/
def emptied (old : ℕ → ℕ) (i : WindowSlot) (k n q : ℕ) : ℕ :=
  if firstPage i + k ≤ q ∧ q < firstPage i + k + n then 0 else old q

/-- One page first, and then the others. -/
theorem filled_succ {old next : ℕ → ℕ} (i : WindowSlot) (f k n : ℕ)
    (hnext : ∀ q < pageCount, next q = Function.update old (firstPage i + k) (mapEntry (f + k) userFlags) q) {q : ℕ}
    (hq : q < pageCount) : filled next i f (k + 1) n q = filled old i f k (n + 1) q := by
  unfold filled
  rcases eq_or_ne q (firstPage i + k) with rfl | hne
  · rw [if_neg (by omega), hnext _ hq, Function.update_self, if_pos (by omega), Nat.add_sub_cancel_left]
  · rw [hnext _ hq, Function.update_of_ne hne]
    by_cases hin : firstPage i + k ≤ q ∧ q < firstPage i + k + (n + 1)
    · rw [if_pos hin, if_pos (by omega)]
    · rw [if_neg hin, if_neg (by omega)]

theorem emptied_succ {old next : ℕ → ℕ} (i : WindowSlot) (k n : ℕ)
    (hnext : ∀ q < pageCount, next q = Function.update old (firstPage i + k) 0 q) {q : ℕ} (hq : q < pageCount) :
    emptied next i (k + 1) n q = emptied old i k (n + 1) q := by
  unfold emptied
  rcases eq_or_ne q (firstPage i + k) with rfl | hne
  · rw [if_neg (by omega), hnext _ hq, Function.update_self, if_pos (by omega)]
  · rw [hnext _ hq, Function.update_of_ne hne]
    by_cases hin : firstPage i + k ≤ q ∧ q < firstPage i + k + (n + 1)
    · rw [if_pos hin, if_pos (by omega)]
    · rw [if_neg hin, if_neg (by omega)]

/-! ## The loops -/

/-- With the table of the slot, every page is mapped. -/
theorem mapLoop_present (h : Spaces m directory) (ho : directory o ≠ 0) (hf : f ≠ 0) (hend : k + n ≤ 1024)
    (hpde : present (m.mem (directory o) (384 + i)) = true) :
    ∃ m', mapLoop (directory o) (address i) f n k m = (m', true) ∧ remapLoop (directory o) (address i) f n k m = m' ∧
      Edited directory m m' o (filled (m.pte (directory o)) i f k n) ∧ m'.bitmap = m.bitmap := by
  induction n generalizing m k with
  | zero =>
    refine ⟨m, rfl, rfl, (Edited.refl h ho).congr fun q _ => ?_, rfl⟩
    unfold filled
    rw [if_neg (by omega)]
  | succ n ih =>
    have hk : k < 1024 := by omega
    have hindex : (firstPage i + k) / 1024 = 384 + i := page_index i hk
    rw [mapLoop, remapLoop, address_page]
    rcases h.mapIn ho (page_user i hk) (show f + k ≠ 0 by omega) (show userFlags &&& pteUser = pteUser from rfl) with ⟨habsent, -⟩ | ⟨m₁, he, hedit, hpde₁, hbitmap⟩
    · rw [hindex, hpde] at habsent
      cases habsent
    · rw [hindex] at hpde₁ hbitmap
      obtain ⟨m', hmap, hremap, hrest, hbitmap'⟩ := ih hedit.spaces (k := k + 1) (by omega) hpde₁
      rw [he]
      refine ⟨m', hmap, hremap, (hedit.trans hrest).congr fun q hq => ?_, hbitmap'.trans (hbitmap hpde)⟩
      exact filled_succ i f k n hedit.pte hq

/-- Only the first page can fail, and then nothing has changed. -/
theorem mapLoop_cases (h : Spaces m directory) (ho : directory o ≠ 0) (hf : f ≠ 0) (hn : 0 < n) (hend : n ≤ 1024) :
    (present (m.mem (directory o) (384 + i)) = false ∧ mapLoop (directory o) (address i) f n 0 m = (m, false)) ∨
      ∃ m', mapLoop (directory o) (address i) f n 0 m = (m', true) ∧
        Edited directory m m' o (filled (m.pte (directory o)) i f 0 n) ∧
        present (m'.mem (directory o) (384 + i)) = true ∧
        (present (m.mem (directory o) (384 + i)) = true → m'.bitmap = m.bitmap) := by
  obtain ⟨n, rfl⟩ := Nat.exists_eq_succ_of_ne_zero (Nat.ne_of_gt hn)
  have hzero : (0 : ℕ) < 1024 := by decide
  have hindex : (firstPage i + 0) / 1024 = 384 + i := page_index i hzero
  rw [Nat.succ_eq_add_one, mapLoop, address_page]
  rcases h.mapIn ho (page_user i hzero) (show f + 0 ≠ 0 by omega) (show userFlags &&& pteUser = pteUser from rfl) with ⟨habsent, he⟩ | ⟨m₁, he, hedit, hpde₁, hbitmap⟩
  · rw [hindex] at habsent
    rw [he]
    exact Or.inl ⟨habsent, rfl⟩
  · rw [hindex] at hpde₁ hbitmap
    obtain ⟨m', hmap, -, hrest, hbitmap'⟩ := mapLoop_present (k := 1) hedit.spaces ho hf (show 1 + n ≤ 1024 by omega) hpde₁
    rw [he]
    refine Or.inr ⟨m', hmap, (hedit.trans hrest).congr fun q hq => ?_, hrest.entry _ hpde₁,
      fun hpde => hbitmap'.trans (hbitmap hpde)⟩
    exact filled_succ i f 0 n hedit.pte hq

/-- All the pages of a buffer are unmapped, and the table stays. -/
theorem unmapLoop_spec (h : Spaces m directory) (ho : directory o ≠ 0) (hend : k + n ≤ 1024)
    (hmapped : ∀ q, firstPage i + k ≤ q → q < firstPage i + k + n → present (m.pte (directory o) q) = true) :
    Edited directory m (unmapLoop (directory o) (address i) n k m) o (emptied (m.pte (directory o)) i k n) ∧
      (unmapLoop (directory o) (address i) n k m).bitmap = m.bitmap := by
  induction n generalizing m k with
  | zero =>
    refine ⟨(Edited.refl h ho).congr fun q _ => ?_, rfl⟩
    unfold emptied
    rw [if_neg (by omega)]
  | succ n ih =>
    have hk : k < 1024 := by omega
    rw [unmapLoop, address_page]
    obtain ⟨hedit, hbitmap⟩ := h.unmapIn ho (page_user i hk) (hmapped _ (Nat.le_refl _) (by omega))
    obtain ⟨hrest, hbitmap'⟩ := ih hedit.spaces (k := k + 1) (by omega) (fun q hlo hhi => by
      have hlt : q < pageCount := by
        have hi := i.isLt
        unfold firstPage at hhi
        unfold pageCount
        omega
      rw [hedit.pte q hlt, Function.update_of_ne (by omega)]
      exact hmapped q (by omega) (by omega))
    refine ⟨(hedit.trans hrest).congr fun q hq => ?_, hbitmap'.trans hbitmap⟩
    exact emptied_succ i k n hedit.pte hq

/-! ## The size of a buffer -/

theorem toUInt32_nat {width : Int32} (h : 0 < width) : (width.toUInt32.toNat : ℤ) = width.toInt := by
  have hcases := MachineInt.toInt32_cases width.toUInt32
  rw [Int32.toInt32_toUInt32] at hcases
  have hlt := width.toUInt32.toNat_lt
  have hpos := Int32.lt_iff_toInt_lt.mp h
  rw [Int32.toInt_zero] at hpos
  omega

/-- On a screen of 1280 by 800 a buffer has at most 1000 pages, so it fits in the 4 MiB of its window. -/
theorem pagesFor_bounds {screen : Screen} {width height : Int32} (hs : screen.width ≤ 1280 ∧ screen.height ≤ 800)
    (h : Allowed screen width height) : 0 < pagesFor width height ∧ pagesFor width height ≤ 1000 := by
  have hw := Int32.le_iff_toInt_le.mp (Int32.le_trans h.width_le hs.1)
  have hh := Int32.le_iff_toInt_le.mp (Int32.le_trans h.height_le hs.2)
  have hw₀ := Int32.lt_iff_toInt_lt.mp h.width_pos
  have hh₀ := Int32.lt_iff_toInt_lt.mp h.height_pos
  have hwn := toUInt32_nat h.width_pos
  have hhn := toUInt32_nat h.height_pos
  have h1280 : (1280 : Int32).toInt = 1280 := by decide
  have h800 : (800 : Int32).toInt = 800 := by decide
  rw [h1280] at hw
  rw [h800] at hh
  rw [Int32.toInt_zero] at hw₀ hh₀
  unfold pagesFor
  generalize width.toUInt32.toNat = a at *
  generalize height.toUInt32.toNat = b at *
  have hle : a * b ≤ 1280 * 800 := Nat.mul_le_mul (by omega) (by omega)
  have hpos : 0 < a * b := Nat.mul_pos (by omega) (by omega)
  generalize a * b = c at *
  unfold u32 pageSize
  omega

/-! ## Allocation -/

/-- The marks of the frames, and everything that is mapped, are as before, and so are the frames in use that hold no
entries. -/
structure Unchanged (directory : ℕ → ℕ) (m m' : Machine) : Prop where
  spaces : Spaces m' directory
  total : m'.totalFrames = m.totalFrames
  bitmap : m'.bitmap = m.bitmap
  pte : ∀ o, directory o ≠ 0 → ∀ p < pageCount, m'.pte (directory o) p = m.pte (directory o) p
  loose : ∀ g, m.bitmap g = true → m.Loose directory g → m'.Loose directory g ∧ m'.mem g = m.mem g

theorem Unchanged.refl (h : Spaces m directory) : Unchanged directory m m :=
  ⟨h, rfl, rfl, fun _ _ _ _ => rfl, fun _ _ hg => ⟨hg, rfl⟩⟩

/-- A zeroed run of frames that were free is mapped in a slot, and all else that is mapped is as before. -/
structure Placed (directory : ℕ → ℕ) (m m' : Machine) (o : ℕ) (i : WindowSlot) (f n : ℕ) : Prop where
  spaces : Spaces m' directory
  total : m'.totalFrames = m.totalFrames
  run : f ≠ 0 ∧ f + n ≤ m.totalFrames
  free : ∀ g, InRun f n g → m.bitmap g = false
  pte : ∀ p < pageCount, m'.pte (directory o) p = filled (m.pte (directory o)) i f 0 n p
  other : ∀ o', o' ≠ o → directory o' ≠ 0 → ∀ p < pageCount, m'.pte (directory o') p = m.pte (directory o') p
  used : ∀ g, m'.bitmap g = true ↔ m.bitmap g = true ∨ InRun f n g ∨ m'.IsTable (directory o) g
  table : present (m.mem (directory o) (384 + i)) = true → ∀ g, m'.bitmap g = true ↔ m.bitmap g = true ∨ InRun f n g
  zeroed : ∀ g, InRun f n g → m'.Loose directory g ∧ m'.mem g = fun _ => 0
  loose : ∀ g, m.bitmap g = true → m.Loose directory g → m'.Loose directory g ∧ m'.mem g = m.mem g

/-- A run is taken, and cleared: no space notices. -/
theorem clearRun_spaces (h : Spaces m directory) (hfree : ∀ g, InRun f n g → m.bitmap g = false) :
    Spaces ((m.takeRun f n).clearRun f n) directory ∧
      (∀ o, directory o ≠ 0 → ∀ p < pageCount, ((m.takeRun f n).clearRun f n).pte (directory o) p = m.pte (directory o) p) ∧
      (∀ g, ((m.takeRun f n).clearRun f n).Loose directory g ↔ m.Loose directory g) ∧
      (∀ o, directory o ≠ 0 → ((m.takeRun f n).clearRun f n).mem (directory o) = m.mem (directory o)) := by
  obtain ⟨htaken, hmem, -⟩ := takeRun_spec m f n
  obtain ⟨hbit, hold, -, -⟩ := clearRun_spec (m.takeRun f n) f n
  refine h.congr (fun g hg => ?_) fun g hg => Or.inl ?_
  · have hout : ¬InRun f n g := fun hin => hg (h.loose (hfree g hin))
    rw [hold g hout, hmem]
  · rw [hbit, htaken]
    exact Or.inl hg

/-- A run of frames that hold no entries is freed, and no space notices. -/
theorem freeRun_spaces (h : Spaces m directory) (hf : f ≠ 0) (hend : f + n ≤ m.totalFrames)
    (hloose : ∀ g, InRun f n g → m.Loose directory g) :
    Spaces (m.pmmFreeContiguous f n) directory ∧
      (∀ o, directory o ≠ 0 → ∀ p < pageCount, (m.pmmFreeContiguous f n).pte (directory o) p = m.pte (directory o) p) ∧
      (∀ g, (m.pmmFreeContiguous f n).Loose directory g ↔ m.Loose directory g) ∧
      ∀ o, directory o ≠ 0 → (m.pmmFreeContiguous f n).mem (directory o) = m.mem (directory o) := by
  obtain ⟨hgiven, hmem, -⟩ := pmmFreeContiguous_spec m hend
  refine h.congr (fun g _ => by rw [hmem]) fun g hg => ?_
  rw [hgiven]
  by_cases hrun : InRun f n g
  · refine Or.inr ⟨fun hzero => hf ?_, hloose g hrun⟩
    unfold InRun at hrun
    omega
  · exact Or.inl ⟨hg, hrun⟩

/-- A run that was taken in vain is given back: `allocate_buffer` has changed nothing. -/
theorem giveBack (h : Spaces m directory) (hf : f ≠ 0) (hin : f + n ≤ m.totalFrames) (hfree : ∀ g, InRun f n g → m.bitmap g = false) :
    Unchanged directory m (((m.takeRun f n).clearRun f n).pmmFreeContiguous f n) ∧
      ∀ o, directory o ≠ 0 → (((m.takeRun f n).clearRun f n).pmmFreeContiguous f n).mem (directory o) = m.mem (directory o) := by
  obtain ⟨htaken, hmem, htotal⟩ := takeRun_spec m f n
  obtain ⟨hbit, hold, -, htotal'⟩ := clearRun_spec (m.takeRun f n) f n
  obtain ⟨hspaces, hpte, hloose, hpd⟩ := clearRun_spaces h hfree
  generalize (m.takeRun f n).clearRun f n = m₁ at *
  have hin' : f + n ≤ m₁.totalFrames := by rwa [htotal', htotal]
  obtain ⟨hgiven, hmem', htotal''⟩ := pmmFreeContiguous_spec m₁ hin'
  obtain ⟨hspaces', hpte', hloose', hpd'⟩ := freeRun_spaces hspaces hf hin' fun g hg => (hloose g).mpr (h.loose (hfree g hg))
  have hout : ∀ g, m.bitmap g = true → ¬InRun f n g := fun g hg hrun => by
    rw [hfree g hrun] at hg
    cases hg
  refine ⟨⟨hspaces', htotal''.trans (htotal'.trans htotal), funext fun g => ?_, fun o ho p hp => ?_, fun g hg hl => ⟨?_, ?_⟩⟩,
    fun o ho => (hpd' o ho).trans (hpd o ho)⟩
  · rw [Bool.eq_iff_iff, hgiven, hbit, htaken]
    exact ⟨fun hand => hand.1.resolve_right hand.2, fun hg => ⟨Or.inl hg, hout g hg⟩⟩
  · rw [hpte' o ho p hp, hpte o ho p hp]
  · exact (hloose' g).mpr ((hloose g).mpr hl)
  · rw [hmem', hold g (hout g hg), hmem]

/-- `allocate_buffer` maps all of a new buffer, or changes nothing. -/
theorem allocateBuffer_cases (h : Spaces m directory) {w : Buffer} {width height : Int32}
    (hw : w.userAddress = address i) (hn : 0 < pagesFor width height) (hend : pagesFor width height ≤ 1024) :
    (∃ m', allocateBuffer m (directory o) w width height = (m', none) ∧ Unchanged directory m m' ∧
        (directory o ≠ 0 → m'.mem (directory o) = m.mem (directory o))) ∨
      ∃ m' f, allocateBuffer m (directory o) w width height = (m', some { w with
          bufferPhys := f
          bufferPages := pagesFor width height
          surface := surfaceInit f width height width }) ∧
        directory o ≠ 0 ∧ Placed directory m m' o i f (pagesFor width height) := by
  unfold allocateBuffer
  dsimp only
  rw [hw]
  generalize pagesFor width height = n at *
  rcases m.pmmAllocFrames_cases h.reserved hn with he | ⟨f, he, hf, hin, hfree⟩
  · rw [he]
    exact Or.inl ⟨m, if_pos rfl, Unchanged.refl h, fun _ => rfl⟩
  · obtain ⟨htaken, hmem, htotal⟩ := takeRun_spec m f n
    obtain ⟨hbit, hold, hzero, htotal'⟩ := clearRun_spec (m.takeRun f n) f n
    obtain ⟨hspaces, hpte, hloose, hpd⟩ := clearRun_spaces h hfree
    obtain ⟨hback, hbackPd⟩ := giveBack h hf hin hfree
    rw [he]
    dsimp only
    rw [if_neg hf]
    generalize (m.takeRun f n).clearRun f n = m₁ at *
    rcases eq_or_ne (directory o) 0 with ho | ho
    · -- a process without a directory has no page mapped
      obtain ⟨k, rfl⟩ := Nat.exists_eq_succ_of_ne_zero (Nat.ne_of_gt hn)
      rw [ho]
      exact Or.inl ⟨_, rfl, hback, fun hne => absurd rfl hne⟩
    · rcases mapLoop_cases hspaces ho hf hn hend with ⟨-, hfail⟩ | ⟨m', hmap, hedit, -, htable⟩
      · -- the first page has no table, and there is no frame for one
        rw [hfail]
        exact Or.inl ⟨_, if_pos rfl, hback, fun hne => hbackPd o hne⟩
      · have hused : ∀ g, m₁.bitmap g = true ↔ m.bitmap g = true ∨ InRun f n g := fun g => by rw [hbit, htaken]
        have hsame : ∀ g, m.bitmap g = true → m₁.mem g = m.mem g := by
          intro g hg
          have hout : ¬InRun f n g := fun hrun => by
            rw [hfree g hrun] at hg
            cases hg
          rw [hold g hout, hmem]
        rw [hmap]
        refine Or.inr ⟨m', f, rfl, ho, hedit.spaces, hedit.total.trans (htotal'.trans htotal), ⟨hf, hin⟩, hfree, fun p hp => ?_,
          fun o' hne ho' p hp => ?_, fun g => ?_, fun hpresent g => ?_, fun g hg => ?_, fun g hg hl => ?_⟩
        · rw [hedit.pte p hp]
          unfold filled
          rw [hpte o ho p hp]
        · rw [hedit.other o' hne ho' p hp, hpte o' ho' p hp]
        · rw [hedit.used, hused, or_assoc]
        · rw [htable (by rw [hpd o ho]; exact hpresent), hused]
        · obtain ⟨hlater, hkept⟩ := hedit.loose g ((hused g).mpr (Or.inr hg)) ((hloose g).mpr (h.loose (hfree g hg)))
          exact ⟨hlater, hkept.trans (hzero g hg)⟩
        · obtain ⟨hlater, hkept⟩ := hedit.loose g ((hused g).mpr (Or.inl hg)) ((hloose g).mpr hl)
          exact ⟨hlater, hkept.trans (hsame g hg)⟩

end SifarOS.WindowBuffers
