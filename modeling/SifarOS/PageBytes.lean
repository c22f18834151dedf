import SifarOS.RangeAllocation
import SifarOS.UserStrings

/-! # The bytes of pages

Frames hold words. Here they are read and written byte by byte, and the kernel writes into a space that it does
not run in: page by page, through the identity mapping of the frames. -/
namespace SifarOS.Paging
open ByteMemory

namespace Machine

def frameByte (m : Machine) (f x : ℕ) : UInt8 := wordByte (m.mem f (x / 4)) (x % 4)

/-- The byte at an address of the space. -/
def byteAt (m : Machine) (pd virt : ℕ) : UInt8 := m.frameByte (m.frameAt pd (virt / pageSize)) (virt % pageSize)

/-- `memcpy` to a physical address, inside one frame -/
def memcpy (m : Machine) (phys n : ℕ) (content : ℕ → UInt8) : Machine :=
  m.setFrame (phys / pageSize) fun i => load32 (fill (m.frameByte (phys / pageSize)) (phys % pageSize) n content) (4 * i)

/-- The loop that `write_to_space` and `build_stack` have in common. The source has `bound` bytes, and there is no
result where `memcpy` reads behind them. It makes a turn for every page, so no more than there are bytes. -/
def writeLoop (pd : ℕ) (src : Memory) (bound : ℕ) : ℕ → ℕ → ℕ → ℕ → Machine → Option (Machine × ℤ)
  | 0, _, _, _, m => some (m, 0)
  | fuel + 1, dst, index, len, m =>
    if len = 0 then some (m, 0)
    else
      let phys := m.vmmTranslateIn pd dst
      if phys = 0 then some (m, -1)
      else
        let chunk := min (pageSize - dst % pageSize) len
        if bound < index + chunk then none
        else writeLoop pd src bound fuel (u32 (dst + chunk)) (index + chunk) (len - chunk)
          (m.memcpy phys chunk fun i => src (index + i))

variable {m m' m'' m₀ : Machine} {pd p q f dst index len n bound fuel virt flags : ℕ} {S S' : ℕ → Prop} {src : Memory}
  {content content' : ℕ → UInt8}

/-! ## Bytes of frames -/

theorem wordByte_load32 (mem : Memory) (a : ℕ) {j : ℕ} (hj : j < 4) : wordByte (load32 mem a) j = mem (a + j) := by
  have h₀ := (mem a).toNat_lt
  have h₁ := (mem (a + 1)).toNat_lt
  have h₂ := (mem (a + 2)).toNat_lt
  have h₃ := (mem (a + 3)).toNat_lt
  apply UInt8.toNat.inj
  unfold wordByte load32
  rw [UInt8.toNat_ofNat']
  match j, hj with
  | 0, _ =>
    simp only [Nat.pow_zero, Nat.div_one, Nat.add_zero]
    omega
  | 1, _ =>
    simp only [Nat.pow_one]
    omega
  | 2, _ =>
    simp only [Nat.reducePow]
    omega
  | 3, _ =>
    simp only [Nat.reducePow]
    omega

theorem frameByte_memcpy (m : Machine) (hoff : index < pageSize) (n : ℕ) (content : ℕ → UInt8) (x : ℕ) :
    (m.memcpy (f * pageSize + index) n content).frameByte f x = fill (m.frameByte f) index n content x := by
  have hframe : (f * pageSize + index) / pageSize = f := by
    unfold pageSize at *
    omega
  have hx : 4 * (x / 4) + x % 4 = x := Nat.div_add_mod x 4
  unfold memcpy setFrame
  rw [hframe, page_mod hoff, frameByte]
  dsimp only
  rw [Function.update_self, wordByte_load32 _ _ (Nat.mod_lt x (by decide)), hx]

theorem memcpy_mem (m : Machine) {phys : ℕ} (hf : f ≠ phys / pageSize) : (m.memcpy phys n content).mem f = m.mem f :=
  Function.update_of_ne hf ..

theorem frameByte_congr (h : m'.mem f = m.mem f) (x : ℕ) : m'.frameByte f x = m.frameByte f x := by
  unfold frameByte
  rw [h]

theorem byteAt_congr (hpte : m'.pte pd (virt / pageSize) = m.pte pd (virt / pageSize))
    (hmem : m'.mem (m.frameAt pd (virt / pageSize)) = m.mem (m.frameAt pd (virt / pageSize))) : m'.byteAt pd virt = m.byteAt pd virt := by
  have hframe : m'.frameAt pd (virt / pageSize) = m.frameAt pd (virt / pageSize) := by
    unfold frameAt
    rw [hpte]
  unfold byteAt
  rw [hframe]
  exact frameByte_congr hmem _

/-- What the processor reads for a process is the byte of the space. -/
theorem userRead_eq (hp : present (m.pte pd (virt / pageSize)) = true) : m.userRead (some pd) virt = m.byteAt pd virt := by
  have hpde : present (m.mem pd (virt / pageSize / 1024)) = true := by
    by_contra hno
    rw [pte_of_absent (by simpa using hno)] at hp
    exact absurd hp (by decide)
  have hdiv : virt / pdeSpan = virt / pageSize / 1024 := by
    unfold pdeSpan pageSize
    omega
  have hmod : virt % 4 = virt % pageSize % 4 := by
    unfold pageSize
    omega
  unfold userRead byteAt frameAt frameByte
  rw [pte_of_present hpde]
  dsimp only
  rw [hdiv, hmod]
  rfl

/-- What the processor asks of a byte, by the entry of its page. -/
theorem userByte_iff (m : Machine) (pd : ℕ) (write : Bool) (virt : ℕ) : m.UserByte pd write virt ↔ m.UserTable pd (virt / pageSize) ∧
    present (m.pte pd (virt / pageSize)) = true ∧ m.pte pd (virt / pageSize) &&& pteUser ≠ 0 ∧
      (write = true → m.pte pd (virt / pageSize) &&& pteWrite ≠ 0) := by
  have hdiv : virt / pdeSpan = virt / pageSize / 1024 := by
    unfold pdeSpan pageSize
    omega
  constructor
  · rintro ⟨⟨hpde, hu⟩, ⟨hp, hflag⟩, hwrite⟩
    rw [hdiv] at hpde hu hp hflag hwrite
    rw [pte_of_present hpde]
    exact ⟨⟨hpde, hu⟩, hp, hflag, hwrite⟩
  · rintro ⟨⟨hpde, hu⟩, hp, hflag, hwrite⟩
    rw [pte_of_present hpde] at hp hflag hwrite
    rw [← hdiv] at hpde hu hp hflag hwrite
    exact ⟨⟨hpde, hu⟩, ⟨hp, hflag⟩, hwrite⟩

/-- The flags of an entry are the flags it was made with. -/
theorem mapEntry_and {flags mask : ℕ} (f : ℕ) (hmask : mask < 8) (hodd : mask % 2 = 0) :
    mapEntry f flags &&& mask = flags &&& mask := by
  have hcases : ∀ low < 8, ∀ mask < 8, mask % 2 = 0 → (low ||| ptePresent) &&& mask = low &&& mask := by decide
  have hlow : mapEntry f flags % 8 = flags % 8 ||| ptePresent := by
    unfold mapEntry
    have hframe : f * pageSize % 2 ^ 3 = 0 := by
      unfold pageSize
      omega
    have hflags : (flags &&& 0xFFF) % 2 ^ 3 = flags % 2 ^ 3 := by
      rw [Nat.and_mod_two_pow, show 0xFFF % 2 ^ 3 = 2 ^ 3 - 1 by rfl, Nat.and_two_pow_sub_one_eq_mod, Nat.mod_mod]
    have hpair := Nat.or_mod_two_pow (a := f * pageSize) (b := flags &&& 0xFFF) (n := 3)
    have hall := Nat.or_mod_two_pow (a := f * pageSize ||| (flags &&& 0xFFF)) (b := ptePresent) (n := 3)
    rw [hpair, hframe, hflags, Nat.zero_or] at hall
    exact hall
  rw [and_flags _ hmask, hlow, hcases _ (Nat.mod_lt _ (by decide)) mask hmask hodd, ← and_flags flags hmask]

/-! ## New pages and old ones -/

/-- The pages that were mapped keep their bytes if their frames hold no entries. -/
theorem Grown.byte_old (h : Grown m m' pd S) (hv : virt / pageSize < pageCount) (hp : present (m.pte pd (virt / pageSize)) = true)
    (hused : m.bitmap (m.frameAt pd (virt / pageSize)) = true) (hnot : ¬m.Holds pd (m.frameAt pd (virt / pageSize))) :
    m'.byteAt pd virt = m.byteAt pd virt :=
  byteAt_congr (h.pte_old hp hv) (h.mem _ hused hnot)

theorem wordByte_zero (j : ℕ) : wordByte 0 j = 0 := by
  unfold wordByte
  rw [Nat.zero_div]
  rfl

theorem Filled.byte_new (h : Filled m m' pd flags S) (hs : S (virt / pageSize)) : m'.byteAt pd virt = 0 := by
  unfold byteAt frameByte
  rw [h.zeroed _ hs]
  exact wordByte_zero _

/-! ## Writing into a space -/

/-- Bytes `dst` to `dst + n` of the space are new. The other bytes of the pages of `S` are as they were, and so is every
frame that is not one of theirs. -/
structure Written (m m' : Machine) (pd : ℕ) (S : ℕ → Prop) (dst n : ℕ) (content : ℕ → UInt8) : Prop where
  directory : m'.mem pd = m.mem pd
  pte : ∀ p < pageCount, m'.pte pd p = m.pte pd p
  byte : ∀ virt, S (virt / pageSize) → m'.byteAt pd virt = fill (m.byteAt pd) dst n content virt

theorem Written.refl (m : Machine) (pd : ℕ) (S : ℕ → Prop) (dst : ℕ) (content : ℕ → UInt8) : Written m m pd S dst 0 content :=
  ⟨rfl, fun _ _ => rfl, fun _ _ => (fill_of_disjoint _ _ (by omega)).symm⟩

/-- Two writes, one behind the other. -/
theorem Written.trans (h : Written m m' pd S dst n content) (h' : Written m' m'' pd S (dst + n) len content') :
    Written m m'' pd S dst (n + len) fun i => if i < n then content i else content' (i - n) := by
  refine ⟨h'.directory.trans h.directory, fun p hp => (h'.pte p hp).trans (h.pte p hp), fun virt hv => ?_⟩
  rw [h'.byte virt hv]
  unfold fill
  by_cases hlo : dst + n ≤ virt ∧ virt < dst + n + len
  · have hback : ¬virt - dst < n := by omega
    rw [if_pos hlo, if_pos (by omega)]
    dsimp only
    rw [if_neg hback, Nat.sub_sub]
  · rw [if_neg hlo, h.byte virt hv]
    unfold fill
    by_cases hin : dst ≤ virt ∧ virt < dst + n
    · have hfront : virt - dst < n := by omega
      rw [if_pos hin, if_pos (by omega)]
      dsimp only
      rw [if_pos hfront]
    · rw [if_neg hin, if_neg (by omega)]

theorem Written.congr (h : Written m m' pd S dst n content) (hc : ∀ i < n, content i = content' i) : Written m m' pd S dst n content' := by
  refine ⟨h.directory, h.pte, fun virt hv => ?_⟩
  rw [h.byte virt hv]
  unfold fill
  split
  · next hin => exact hc _ (by omega)
  · rfl

/-- `memcpy` into a page of `S`. -/
theorem Grown.memcpy (h : Grown m₀ m pd S) (hs : S (dst / pageSize)) (hn : n ≤ pageSize - dst % pageSize) (content : ℕ → UInt8) :
    Grown m₀ (m.memcpy (m.frameAt pd (dst / pageSize) * pageSize + dst % pageSize) n content) pd S ∧
      Written m (m.memcpy (m.frameAt pd (dst / pageSize) * pageSize + dst % pageSize) n content) pd S dst n content := by
  have hoff : dst % pageSize < pageSize := Nat.mod_lt _ (by decide)
  have hphys : (m.frameAt pd (dst / pageSize) * pageSize + dst % pageSize) / pageSize = m.frameAt pd (dst / pageSize) := by
    unfold pageSize at *
    omega
  have hnot := h.frame_not_holds hs
  have hbyte := frameByte_memcpy (f := m.frameAt pd (dst / pageSize)) m hoff n content
  have hother : ∀ g, g ≠ m.frameAt pd (dst / pageSize) →
      (m.memcpy (m.frameAt pd (dst / pageSize) * pageSize + dst % pageSize) n content).mem g = m.mem g := by
    intro g hg
    exact memcpy_mem m (by rw [hphys]; exact hg)
  have hset : m.memcpy (m.frameAt pd (dst / pageSize) * pageSize + dst % pageSize) n content =
      m.setFrame (m.frameAt pd (dst / pageSize)) fun i => load32 (fill (m.frameByte (m.frameAt pd (dst / pageSize)))
        (dst % pageSize) n content) (4 * i) := by
    unfold Machine.memcpy
    rw [hphys, page_mod hoff]
  have hgrown : Grown m₀ (m.memcpy (m.frameAt pd (dst / pageSize) * pageSize + dst % pageSize) n content) pd S := by
    rw [hset]
    exact h.setFrame hs _
  have hpte : ∀ p < pageCount, (m.memcpy (m.frameAt pd (dst / pageSize) * pageSize + dst % pageSize) n content).pte pd p = m.pte pd p := by
    rw [hset]
    exact (h.space.setFrame hnot _).2.1
  generalize m.memcpy (m.frameAt pd (dst / pageSize) * pageSize + dst % pageSize) n content = m' at *
  refine ⟨hgrown, hother pd fun he => hnot (Or.inl he.symm), hpte, fun virt hv => ?_⟩
  have hframe : m'.frameAt pd (virt / pageSize) = m.frameAt pd (virt / pageSize) := by
    unfold frameAt
    rw [hpte _ (h.bound _ hv)]
  by_cases hsame : virt / pageSize = dst / pageSize
  · have hoffset : virt - dst = virt % pageSize - dst % pageSize ∧
        (dst ≤ virt ∧ virt < dst + n ↔ dst % pageSize ≤ virt % pageSize ∧ virt % pageSize < dst % pageSize + n) := by
      unfold pageSize at *
      omega
    unfold byteAt
    rw [hframe, hsame, hbyte]
    unfold fill
    dsimp only
    rw [hoffset.1, hsame]
    exact if_congr hoffset.2.symm rfl rfl
  · have hout : virt < dst ∨ dst + n ≤ virt := by
      unfold pageSize at *
      omega
    rw [fill_of_disjoint _ _ hout]
    refine byteAt_congr (hpte _ (h.bound _ hv)) (hother _ fun he => hsame ?_)
    exact h.inj _ _ hv hs he

/-- The loop writes all bytes if their pages are pages of `S`. -/
theorem Grown.writeLoop (h : Grown m₀ m pd S) (src : Memory) (hs : ∀ virt, dst ≤ virt → virt < dst + len → S (virt / pageSize)) (hfuel : len ≤ fuel)
    (hbound : index + len ≤ bound) (hmax : dst + len < 4294967296) :
    ∃ m', writeLoop pd src bound fuel dst index len m = some (m', 0) ∧ Grown m₀ m' pd S ∧
      Written m m' pd S dst len fun i => src (index + i) := by
  induction fuel generalizing m dst index len with
  | zero =>
    obtain rfl : len = 0 := by omega
    exact ⟨m, rfl, h, .refl ..⟩
  | succ fuel ih =>
    unfold Machine.writeLoop
    by_cases hlen : len = 0
    · subst hlen
      exact ⟨m, if_pos rfl, h, .refl ..⟩
    · have hpage := hs dst (Nat.le_refl _) (by omega)
      have hoff : dst % pageSize < pageSize := Nat.mod_lt _ (by decide)
      have hphys : m.vmmTranslateIn pd dst = m.frameAt pd (dst / pageSize) * pageSize + dst % pageSize := by
        have htranslate := h.space.translate (h.bound _ hpage) hoff
        rw [h.mapped _ hpage, if_pos rfl, Nat.div_add_mod' dst pageSize] at htranslate
        exact htranslate
      have hne : m.frameAt pd (dst / pageSize) * pageSize + dst % pageSize ≠ 0 := by
        have hframe := h.frame_ne hpage
        unfold pageSize at *
        omega
      dsimp only
      rw [if_neg hlen, hphys, if_neg hne]
      generalize hc : min (pageSize - dst % pageSize) len = chunk
      have hchunk : chunk ≤ pageSize - dst % pageSize ∧ chunk ≤ len ∧ 0 < chunk := by omega
      obtain ⟨hgrown, hwritten⟩ := h.memcpy hpage hchunk.1 fun i => src (index + i)
      rw [if_neg (by omega), u32_of_lt (by omega)]
      have hrest : ∀ virt, dst + chunk ≤ virt → virt < dst + chunk + (len - chunk) → S (virt / pageSize) :=
        fun virt hlo hhi => hs virt (by omega) (by omega)
      have hfuel' : len - chunk ≤ fuel := by omega
      have hbound' : index + chunk + (len - chunk) ≤ bound := by omega
      obtain ⟨m', he, hgrown', hwritten'⟩ := ih hgrown hrest hfuel' hbound' (by omega)
      refine ⟨m', he, hgrown', ?_⟩
      have hall := hwritten.trans hwritten'
      rw [Nat.add_sub_cancel' hchunk.2.1] at hall
      refine hall.congr fun i hi => ?_
      split
      · rfl
      · congr 1
        omega

end Machine

end SifarOS.Paging
