import SifarOS.WordBitmap
import SifarOS.BlockOwnership
import SifarOS.ByteMemory
import SifarOS.Paging

/-! # The frame allocator

`kernel/mm/pmm.c`. The bitmap has a bit for every frame, in words of 32 bits; the memory that it is put
into may hold anything. A panic is `none`. -/
namespace SifarOS.FrameAllocator
open ByteMemory BlockOwnership Paging

def u64 (n : ℕ) : ℕ := n % 18446744073709551616

def maxManagedPhys : ℕ := userMin

/-- `struct e820_entry` -/
structure E820Entry where
  base : UInt64
  length : UInt64
  type : UInt32
  deriving DecidableEq, Repr

def e820Usable : UInt32 := 1

/-- The static variables of `pmm.c`. -/
structure Pmm where
  bitmap : ℕ → BitVec 32
  bitmapWords : ℕ
  totalFrames : ℕ
  usedFrames : ℕ
  totalBytes : ℕ

namespace Pmm

section model
variable (s : Pmm)

def bitSet (frame : ℕ) : Pmm :=
  { s with bitmap := Function.update s.bitmap (frame / 32) (s.bitmap (frame / 32) ||| 1#32 <<< (frame % 32)) }

def bitClear (frame : ℕ) : Pmm :=
  { s with bitmap := Function.update s.bitmap (frame / 32) (s.bitmap (frame / 32) &&& ~~~(1#32 <<< (frame % 32))) }

def bitTest (frame : ℕ) : Bool := (s.bitmap (frame / 32) >>> (frame % 32)) &&& 1#32 ≠ 0#32

/-- A turn of the loop of `mark_used`. -/
def useFrame (frame : ℕ) : Pmm :=
  if s.bitTest frame then s else { s.bitSet frame with usedFrames := u32 (s.usedFrames + 1) }

/-- A turn of the loop of `mark_free`. -/
def freeFrame (frame : ℕ) : Pmm :=
  if s.bitTest frame then { s.bitClear frame with usedFrames := sub32 s.usedFrames 1 } else s

/-- The frames of such a loop. -/
def frames (first last : ℕ) : List ℕ := List.range' first (min last s.totalFrames - first)

def markUsed (base length : ℕ) : Pmm :=
  let stop := u64 (base + length)
  let stop := if maxManagedPhys < stop then maxManagedPhys else stop
  if stop ≤ base then s
  else (s.frames (base / pageSize) ((stop + pageSize - 1) / pageSize)).foldl useFrame s

/-- Where an entry of the memory map ends, cut off at 1 GiB. -/
def clampEnd (base length : ℕ) : ℕ :=
  let stop := u64 (base + length)
  if stop < base ∨ maxManagedPhys < stop then maxManagedPhys else stop

def markFree (base length : ℕ) : Pmm :=
  if maxManagedPhys ≤ base ∨ length = 0 then s
  else (s.frames (u32 ((base + pageSize - 1) / pageSize)) (u32 (clampEnd base length / pageSize))).foldl freeFrame s

/-- A frame that is handed out. -/
def takeFrame (frame : ℕ) : Pmm := { s.bitSet frame with usedFrames := u32 (s.usedFrames + 1) }

def pmmAllocFrame : Pmm × ℕ :=
  match WordBitmap.scanWords s.bitmap s.totalFrames s.bitmapWords 0 with
  | some frame => (s.takeFrame frame, u32 (frame * pageSize))
  | none => (s, 0)

/-- The loop over a run that `pmm_alloc_frames` has found. -/
def takeRun (start count : ℕ) : Pmm := (List.range count).foldl (fun s i => s.takeFrame (start + i)) s

def pmmAllocFrames (count : ℕ) : Pmm × ℕ :=
  if count = 0 then (s, 0)
  else if count = 1 then s.pmmAllocFrame
  else if s.totalFrames < count then (s, 0)
  else
    match WordBitmap.scanRun s.bitTest count s.totalFrames 0 0 0 with
    | some start => (s.takeRun start count, u32 (start * pageSize))
    | none => (s, 0)

def pmmFreeFrame (addr : ℕ) : Pmm :=
  if addr % pageSize ≠ 0 then s
  else if s.totalFrames ≤ addr / pageSize then s
  else s.freeFrame (addr / pageSize)

def pmmFreeContiguous (base count : ℕ) : Pmm :=
  if base % pageSize ≠ 0 then s
  else (List.range count).foldl (fun s i => s.pmmFreeFrame (u32 (base + i * pageSize))) s

end model

end Pmm

/-- A turn of the first loop of `pmm_init`, on `total_bytes` and `highest`. -/
def describe (seen : ℕ × ℕ) (e : E820Entry) : ℕ × ℕ :=
  if e.type ≠ e820Usable ∨ e.length = 0 then seen
  else if maxManagedPhys ≤ e.base.toNat then seen
  else
    let stop := Pmm.clampEnd e.base.toNat e.length.toNat
    if stop ≤ e.base.toNat then seen
    else (u64 (seen.1 + (stop - e.base.toNat)), if seen.2 < stop then stop else seen.2)

/-- A turn of the second loop. -/
def handBack (s : Pmm) (e : E820Entry) : Pmm :=
  if e.type = e820Usable then s.markFree e.base.toNat e.length.toNat else s

/-- The frames that `pmm_init` manages. -/
def managed (map : List E820Entry) : ℕ := u32 ((map.foldl describe (0, 0)).2 / pageSize)

/-- The end of the bitmap, for a kernel image that ends at `kernelEnd`. -/
def reservedEnd (map : List E820Entry) (kernelEnd : ℕ) : ℕ :=
  u32 (alignUp kernelEnd 16 + u32 ((managed map + 31) / 32 * 4))

/-- `pmm_init`. The words from the bitmap on are those of `memory`. -/
def pmmInit (map : List E820Entry) (kernelEnd : ℕ) (memory : ℕ → BitVec 32) : Option Pmm :=
  let total := managed map
  let words := (total + 31) / 32
  if total = 0 ∨ words = 0 then none
  else
    let s : Pmm := {
      bitmap := fun k => if k < words then BitVec.allOnes 32 else memory k
      bitmapWords := words
      totalFrames := total
      usedFrames := total
      totalBytes := (map.foldl describe (0, 0)).1 }
    let s := map.foldl handBack s
    if maxManagedPhys ≤ reservedEnd map kernelEnd then none
    else some (s.markUsed 0 (alignUp (reservedEnd map kernelEnd) pageSize))

/-! ## Single frames -/

namespace Pmm

variable {s t : Pmm} {used : ℕ → Bool} {f g base length : ℕ} {l : List ℕ}

theorem bitTest_eq (s : Pmm) (f : ℕ) : s.bitTest f = WordBitmap.test s.bitmap f := by
  unfold bitTest WordBitmap.test
  rw [BitVec.and_one_eq_setWidth_ofBool_getLsbD, BitVec.getLsbD_ushiftRight, Nat.add_zero]
  cases (s.bitmap (f / 32)).getLsbD (f % 32) <;> rfl

@[simp] theorem bitTest_bitSet : (s.bitSet f).bitTest g = (s.bitTest g || decide (g = f)) := by
  rw [bitTest_eq, bitTest_eq]
  exact WordBitmap.test_set (by decide)

@[simp] theorem bitTest_bitClear : (s.bitClear f).bitTest g = (s.bitTest g && decide (g ≠ f)) := by
  rw [bitTest_eq, bitTest_eq]
  exact WordBitmap.test_clear (by decide)

/-- A frame that may be handed out. -/
def Free (s : Pmm) (f : ℕ) : Prop := f < s.totalFrames ∧ s.bitTest f = false

/-- The number of free frames. -/
def freeFrames (s : Pmm) : ℕ := clearCount s.totalFrames s.bitTest

/-- The counter agrees with the bitmap. -/
structure Counted (s : Pmm) : Prop where
  small : s.totalFrames < 4294967296
  count : s.usedFrames + s.freeFrames = s.totalFrames

/-- `t` has the frames of `s`, those of `used` are not free. -/
structure Marked (s t : Pmm) (used : ℕ → Bool) : Prop where
  total : t.totalFrames = s.totalFrames
  words : t.bitmapWords = s.bitmapWords
  test : ∀ g, t.bitTest g = used g
  counted : s.Counted → t.Counted

theorem Marked.refl (s : Pmm) : Marked s s s.bitTest := ⟨rfl, rfl, fun _ => rfl, id⟩

theorem Marked.congr {used' : ℕ → Bool} (h : Marked s t used) (he : ∀ g, used g = used' g) : Marked s t used' :=
  ⟨h.total, h.words, fun g => (h.test g).trans (he g), h.counted⟩

theorem Marked.trans {r : Pmm} {used' : ℕ → Bool} (h : Marked s t used) (h' : Marked t r used') : Marked s r used' :=
  ⟨h'.total.trans h.total, h'.words.trans h.words, h'.test, fun hs => h'.counted (h.counted hs)⟩

/-- The counter is not read. -/
theorem bitTest_counter (s : Pmm) (n : ℕ) : { s with usedFrames := n }.bitTest = s.bitTest := rfl

theorem Counted.take (h : s.Counted) (hf : s.Free f) {n : ℕ} (hn : n = s.usedFrames + 1) :
    { s.bitSet f with usedFrames := n }.Counted := by
  have hcount : clearCount s.totalFrames (s.bitSet f).bitTest + 1 = s.freeFrames := by
    apply clearCount_take hf.1 hf.2
    intro g _
    simp [or_comm]
  have hall := h.count
  refine ⟨h.small, ?_⟩
  change n + clearCount s.totalFrames (s.bitSet f).bitTest = s.totalFrames
  omega

theorem Counted.give (h : s.Counted) (hf : f < s.totalFrames) (hu : s.bitTest f = true) {n : ℕ} (hn : n + 1 = s.usedFrames) :
    { s.bitClear f with usedFrames := n }.Counted := by
  have hcount : s.freeFrames + 1 = clearCount s.totalFrames (s.bitClear f).bitTest := by
    apply clearCount_take hf
    · simp
    · intro g _
      by_cases hg : g = f
      · simp [hg, hu]
      · simp [hg]
  have hall := h.count
  refine ⟨h.small, ?_⟩
  change n + clearCount s.totalFrames (s.bitClear f).bitTest = s.totalFrames
  omega

theorem Counted.used_le (h : s.Counted) : s.usedFrames ≤ s.totalFrames := by
  have hall := h.count
  omega

theorem Counted.used_pos (h : s.Counted) (hf : f < s.totalFrames) (hu : s.bitTest f = true) : 0 < s.usedFrames := by
  have hlt := clearCount_lt hf hu
  have hall := h.count
  unfold freeFrames at hall
  omega

theorem useFrame_marked (hf : f < s.totalFrames) : Marked s (s.useFrame f) fun g => s.bitTest g || decide (g = f) := by
  unfold useFrame
  split
  · next hu =>
    refine (Marked.refl s).congr fun g => ?_
    by_cases hg : g = f
    · simp [hg, hu]
    · simp [hg]
  · next hu =>
    have hfree : s.bitTest f = false := by simpa using hu
    refine ⟨rfl, rfl, fun g => ?_, fun h => h.take ⟨hf, hfree⟩ ?_⟩
    · rw [bitTest_counter, bitTest_bitSet]
    · have hlt := clearCount_pos hf hfree
      have hcount := h.count
      have hsmall := h.small
      unfold freeFrames at hcount
      rw [u32_of_lt (by omega)]

theorem freeFrame_marked (hf : f < s.totalFrames) : Marked s (s.freeFrame f) fun g => s.bitTest g && decide (g ≠ f) := by
  unfold freeFrame
  split
  · next hu =>
    refine ⟨rfl, rfl, fun g => ?_, fun h => h.give hf hu ?_⟩
    · rw [bitTest_counter, bitTest_bitClear]
    · have hpos := h.used_pos hf hu
      have hle := h.used_le
      have hsmall := h.small
      unfold sub32
      omega
  · next hu =>
    refine (Marked.refl s).congr fun g => ?_
    by_cases hg : g = f
    · simp [hg, hu]
    · simp [hg]

theorem foldl_useFrame (hl : ∀ f ∈ l, f < s.totalFrames) :
    Marked s (l.foldl useFrame s) fun g => s.bitTest g || decide (g ∈ l) := by
  induction l generalizing s with
  | nil => exact (Marked.refl s).congr fun g => by simp
  | cons f l ih =>
    have hf := useFrame_marked (hl f List.mem_cons_self)
    have hrest := ih (s := s.useFrame f) fun g hg => by
      rw [hf.total]
      exact hl g (List.mem_cons_of_mem _ hg)
    refine (hf.trans hrest).congr fun g => ?_
    simp [hf.test, Bool.or_assoc]

theorem foldl_freeFrame (hl : ∀ f ∈ l, f < s.totalFrames) :
    Marked s (l.foldl freeFrame s) fun g => s.bitTest g && decide (g ∉ l) := by
  induction l generalizing s with
  | nil => exact (Marked.refl s).congr fun g => by simp
  | cons f l ih =>
    have hf := freeFrame_marked (hl f List.mem_cons_self)
    have hrest := ih (s := s.freeFrame f) fun g hg => by
      rw [hf.total]
      exact hl g (List.mem_cons_of_mem _ hg)
    refine (hf.trans hrest).congr fun g => ?_
    simp [hf.test, Bool.and_assoc]

/-! ## The memory map -/

theorem mem_frames {first last : ℕ} : f ∈ s.frames first last ↔ first ≤ f ∧ f < last ∧ f < s.totalFrames := by
  unfold frames
  rw [List.mem_range'_1]
  omega

/-- A frame lies wholly in a region, cut off at 1 GiB. -/
def Inside (base length f : ℕ) : Prop := base ≤ f * pageSize ∧ (f + 1) * pageSize ≤ min (base + length) maxManagedPhys

instance : Decidable (Inside base length f) := inferInstanceAs (Decidable (_ ∧ _))

/-- The sum wraps only where the region reaches beyond 1 GiB. -/
theorem clampEnd_eq (hb : base < 18446744073709551616) (hl : length < 18446744073709551616) :
    clampEnd base length = min (base + length) maxManagedPhys := by
  have hmax : maxManagedPhys = 1073741824 := rfl
  unfold clampEnd u64
  dsimp only
  split <;> omega

/-- The whole frames of a region. -/
theorem inside_iff : Inside base length g ↔
    (base + pageSize - 1) / pageSize ≤ g ∧ g < min (base + length) maxManagedPhys / pageSize := by
  unfold Inside pageSize
  omega

theorem not_inside (h : maxManagedPhys ≤ base ∨ length = 0) : ¬Inside base length g := by
  unfold Inside pageSize
  omega

theorem markFree_marked (hb : base < 18446744073709551616) (hl : length < 18446744073709551616) :
    Marked s (s.markFree base length) fun g => s.bitTest g && !decide (g < s.totalFrames ∧ Inside base length g) := by
  have hmax : maxManagedPhys = 1073741824 := rfl
  unfold markFree
  split
  · next hnone =>
    refine (Marked.refl s).congr fun g => ?_
    have hout : ¬Inside base length g := not_inside hnone
    simp [hout]
  · next hsome =>
    have hfirst : u32 ((base + pageSize - 1) / pageSize) = (base + pageSize - 1) / pageSize := by
      apply u32_of_lt
      unfold pageSize
      omega
    have hlast : u32 (min (base + length) maxManagedPhys / pageSize) = min (base + length) maxManagedPhys / pageSize := by
      apply u32_of_lt
      unfold pageSize
      omega
    refine (foldl_freeFrame fun f hf => (mem_frames.mp hf).2.2).congr fun g => ?_
    rw [clampEnd_eq hb hl, hfirst, hlast]
    have hiff : g ∈ s.frames ((base + pageSize - 1) / pageSize) (min (base + length) maxManagedPhys / pageSize) ↔
        g < s.totalFrames ∧ Inside base length g := by
      rw [mem_frames, inside_iff]
      omega
    simp [hiff]

/-- The frames from 0 up to a page boundary. -/
theorem markUsed_marked {pages : ℕ} (hle : pages * pageSize ≤ maxManagedPhys) :
    Marked s (s.markUsed 0 (pages * pageSize)) fun g => s.bitTest g || decide (g < s.totalFrames ∧ g < pages) := by
  have hmax : maxManagedPhys = 1073741824 := rfl
  have hstop : u64 (0 + pages * pageSize) = pages * pageSize := by
    unfold u64
    omega
  unfold markUsed
  dsimp only
  rw [hstop, if_neg (show ¬maxManagedPhys < pages * pageSize by omega)]
  split
  · next hnone =>
    have hpages : pages = 0 := by
      unfold pageSize at hnone
      omega
    exact (Marked.refl s).congr fun g => by simp [hpages]
  · next hsome =>
    have hlast : (pages * pageSize + pageSize - 1) / pageSize = pages := by
      unfold pageSize
      omega
    refine (foldl_useFrame fun f hf => (mem_frames.mp hf).2.2).congr fun g => ?_
    rw [Nat.zero_div, hlast]
    simp [mem_frames, and_comm]

end Pmm

section init
open Pmm

variable {map : List E820Entry} {kernelEnd f : ℕ} {s : Pmm}

/-- A frame lies wholly in some usable entry, cut off at 1 GiB. -/
def Usable (map : List E820Entry) (f : ℕ) : Prop :=
  ∃ e ∈ map, e.type = e820Usable ∧ Inside e.base.toNat e.length.toNat f

instance : Decidable (Usable map f) := inferInstanceAs (Decidable (∃ e ∈ map, _))

theorem handBack_marked (s : Pmm) (e : E820Entry) :
    Marked s (handBack s e) fun g => s.bitTest g && !decide (g < s.totalFrames ∧ Usable [e] g) := by
  unfold handBack
  split
  · next htype =>
    refine (markFree_marked e.base.toNat_lt e.length.toNat_lt).congr fun g => ?_
    simp [Usable, htype]
  · next htype =>
    refine (Marked.refl s).congr fun g => ?_
    simp [Usable, htype]

theorem foldl_handBack (s : Pmm) (map : List E820Entry) :
    Marked s (map.foldl handBack s) fun g => s.bitTest g && !decide (g < s.totalFrames ∧ Usable map g) := by
  induction map generalizing s with
  | nil => exact (Marked.refl s).congr fun g => by simp [Usable]
  | cons e map ih =>
    have he := handBack_marked s e
    refine (he.trans (ih (handBack s e))).congr fun g => ?_
    have hiff : Usable (e :: map) g ↔ Usable [e] g ∨ Usable map g := by simp [Usable]
    rw [he.test, he.total, Bool.and_assoc]
    by_cases hg : g < s.totalFrames <;> simp [hg, hiff]

theorem describe_le (seen : ℕ × ℕ) (e : E820Entry) (h : seen.2 ≤ maxManagedPhys) :
    seen.2 ≤ (describe seen e).2 ∧ (describe seen e).2 ≤ maxManagedPhys := by
  have hend := clampEnd_eq e.base.toNat_lt e.length.toNat_lt
  unfold describe
  dsimp only
  split
  · exact ⟨Nat.le_refl _, h⟩
  · split
    · exact ⟨Nat.le_refl _, h⟩
    · split
      · exact ⟨Nat.le_refl _, h⟩
      · split <;> constructor <;> dsimp only <;> omega

/-- The first loop sees where the frames of a usable entry end. -/
theorem describe_inside (seen : ℕ × ℕ) {e : E820Entry} (htype : e.type = e820Usable) (h : Inside e.base.toNat e.length.toNat f) :
    (f + 1) * pageSize ≤ (describe seen e).2 := by
  have hend := clampEnd_eq e.base.toNat_lt e.length.toNat_lt
  have hsize : 0 < pageSize := by decide
  have hnext : (f + 1) * pageSize = f * pageSize + pageSize := Nat.succ_mul f pageSize
  obtain ⟨h₁, h₂⟩ := h
  have hlength : e.length ≠ 0 := by
    intro hzero
    rw [hzero] at h₂
    change (f + 1) * pageSize ≤ min (e.base.toNat + 0) maxManagedPhys at h₂
    omega
  unfold describe
  dsimp only
  rw [if_neg (by simp [htype, hlength]), if_neg (by omega), if_neg (by omega)]
  dsimp only
  split <;> omega

theorem foldl_describe_le (seen : ℕ × ℕ) (map : List E820Entry) (h : seen.2 ≤ maxManagedPhys) :
    seen.2 ≤ (map.foldl describe seen).2 ∧ (map.foldl describe seen).2 ≤ maxManagedPhys := by
  induction map generalizing seen with
  | nil => exact ⟨Nat.le_refl _, h⟩
  | cons e map ih =>
    have he := describe_le seen e h
    have hrest := ih (describe seen e) he.2
    exact ⟨Nat.le_trans he.1 hrest.1, hrest.2⟩

theorem foldl_describe_usable (seen : ℕ × ℕ) (hseen : seen.2 ≤ maxManagedPhys) (h : Usable map f) :
    (f + 1) * pageSize ≤ (map.foldl describe seen).2 := by
  obtain ⟨e, he, htype, hin⟩ := h
  induction map generalizing seen with
  | nil => cases he
  | cons d map ih =>
    have hd := describe_le seen d hseen
    rcases List.mem_cons.mp he with rfl | he
    · exact Nat.le_trans (describe_inside seen htype hin) (foldl_describe_le _ map hd.2).1
    · exact ih (describe seen d) hd.2 he

theorem managed_le (map : List E820Entry) : managed map ≤ 262144 := by
  have hmax : maxManagedPhys = 1073741824 := rfl
  have h := (foldl_describe_le (0, 0) map (Nat.zero_le _)).2
  unfold managed u32 pageSize
  omega

/-- Every usable frame is managed. -/
theorem Usable.lt_managed (h : Usable map f) : f < managed map := by
  have hmax : maxManagedPhys = 1073741824 := rfl
  have hle := (foldl_describe_le (0, 0) map (Nat.zero_le _)).2
  have hend := foldl_describe_usable (0, 0) (Nat.zero_le _) h
  unfold pageSize at hend
  unfold managed pageSize
  rw [u32_of_lt (by omega)]
  omega

/-- The bitmap takes at most 32 KiB. -/
theorem reservedEnd_lt (hkernel : kernelEnd + 0x10000 ≤ maxManagedPhys) : reservedEnd map kernelEnd < maxManagedPhys := by
  have hmax : maxManagedPhys = 1073741824 := rfl
  have hle := managed_le map
  unfold reservedEnd alignUp u32
  omega

/-- Where every frame is taken, before the second loop. -/
def reserved (map : List E820Entry) (memory : ℕ → BitVec 32) : Pmm where
  bitmap := fun k => if k < (managed map + 31) / 32 then BitVec.allOnes 32 else memory k
  bitmapWords := (managed map + 31) / 32
  totalFrames := managed map
  usedFrames := managed map
  totalBytes := (map.foldl describe (0, 0)).1

theorem reserved_bitTest (memory : ℕ → BitVec 32) (hf : f < managed map) : (reserved map memory).bitTest f = true := by
  rw [bitTest_eq]
  refine WordBitmap.test_of_full (by decide) ?_ rfl
  have hword : f / 32 < (managed map + 31) / 32 := by omega
  exact if_pos hword

theorem reserved_counted (map : List E820Entry) (memory : ℕ → BitVec 32) : (reserved map memory).Counted := by
  have hle := managed_le map
  refine ⟨?_, ?_⟩
  · change managed map < 4294967296
    omega
  · change managed map + clearCount (managed map) (reserved map memory).bitTest = managed map
    rw [clearCount_eq_zero fun f hf => reserved_bitTest memory hf, Nat.add_zero]

/-- What `pmm_init` checks. -/
theorem pmmInit_some {memory : ℕ → BitVec 32} (hs : pmmInit map kernelEnd memory = some s) :
    0 < managed map ∧ reservedEnd map kernelEnd < maxManagedPhys := by
  unfold pmmInit at hs
  dsimp only at hs
  split at hs
  · cases hs
  · split at hs
    · cases hs
    · constructor <;> omega

/-- What `pmm_init` leaves, when it does not panic. -/
theorem pmmInit_marked {memory : ℕ → BitVec 32} (hs : pmmInit map kernelEnd memory = some s) :
    Marked (reserved map memory) s fun g =>
      (!decide (g < managed map ∧ Usable map g) && (reserved map memory).bitTest g) ||
        decide (g < managed map ∧ g * pageSize < alignUp (reservedEnd map kernelEnd) pageSize) := by
  have hmax : maxManagedPhys = 1073741824 := rfl
  unfold pmmInit at hs
  dsimp only at hs
  split at hs
  · cases hs
  · split at hs
    · cases hs
    · next hreserved =>
      obtain rfl := Option.some.inj hs
      obtain ⟨pages, hpages⟩ : ∃ pages, alignUp (reservedEnd map kernelEnd) pageSize = pages * pageSize := ⟨_, rfl⟩
      have hle : pages * pageSize ≤ maxManagedPhys := by
        rw [← hpages]
        unfold alignUp u32 pageSize
        omega
      have hback := foldl_handBack (reserved map memory) map
      have hused := markUsed_marked (s := map.foldl handBack (reserved map memory)) hle
      rw [hpages]
      refine (hback.trans hused).congr fun g => ?_
      rw [hback.test, hback.total, Bool.and_comm]
      have hiff : g * pageSize < pages * pageSize ↔ g < pages := Nat.mul_lt_mul_right (by decide)
      simp only [hiff]
      rfl

theorem pmmInit_isSome (memory : ℕ → BitVec 32) (hreserved : reservedEnd map kernelEnd < maxManagedPhys) (h : Usable map f) :
    ∃ s, pmmInit map kernelEnd memory = some s := by
  have hlt := h.lt_managed
  unfold pmmInit
  dsimp only
  rw [if_neg (by omega), if_neg (by omega)]
  exact ⟨_, rfl⟩

/-- The kernel and the bitmap take frame 0. -/
theorem reservedEnd_pos (hkernel : kernelEnd ≤ maxManagedPhys) (hpos : 0 < managed map) : 0 < reservedEnd map kernelEnd := by
  have hmax : maxManagedPhys = 1073741824 := rfl
  have hle := managed_le map
  unfold reservedEnd alignUp u32
  omega

theorem alignUp_reservedEnd_pos (hreserved : reservedEnd map kernelEnd < maxManagedPhys) (hpos : 0 < reservedEnd map kernelEnd) :
    0 < alignUp (reservedEnd map kernelEnd) pageSize := by
  have hmax : maxManagedPhys = 1073741824 := rfl
  unfold alignUp u32 pageSize
  omega

/-- After `pmm_init` the free frames are those that lie wholly in usable memory below 1 GiB and start behind
the bitmap. -/
theorem pmmInit_free (map : List E820Entry) (kernelEnd : ℕ) (memory : ℕ → BitVec 32)
    (hkernel : kernelEnd ≤ maxManagedPhys) (hreserved : reservedEnd map kernelEnd < maxManagedPhys) (husable : ∃ f, Usable map f) :
    ∃ s, pmmInit map kernelEnd memory = some s ∧
      (∀ f, s.Free f ↔ Usable map f ∧ alignUp (reservedEnd map kernelEnd) pageSize ≤ f * pageSize) ∧
      ¬s.Free 0 ∧ s.usedFrames + s.freeFrames = s.totalFrames := by
  obtain ⟨f₀, h₀⟩ := husable
  obtain ⟨s, hs⟩ := pmmInit_isSome memory hreserved h₀
  have hmarked := pmmInit_marked hs
  have hfree : ∀ f, s.Free f ↔ Usable map f ∧ alignUp (reservedEnd map kernelEnd) pageSize ≤ f * pageSize := by
    intro f
    unfold Free
    rw [hmarked.total, hmarked.test]
    change f < managed map ∧ _ ↔ _
    constructor
    · rintro ⟨hlt, htest⟩
      simpa [hlt, reserved_bitTest memory hlt] using htest
    · rintro ⟨hin, hbehind⟩
      have hlt := hin.lt_managed
      refine ⟨hlt, ?_⟩
      simp [hin, hlt, Nat.not_lt.mpr hbehind]
  refine ⟨s, hs, hfree, fun h => ?_, (hmarked.counted (reserved_counted map memory)).count⟩
  have hbehind := ((hfree 0).mp h).2
  have hpos := reservedEnd_pos hkernel (Nat.zero_lt_of_lt h₀.lt_managed)
  have hstart := alignUp_reservedEnd_pos hreserved hpos
  omega

/-- A machine with low memory and 126 MiB from 1 MiB on. -/
def smallMap : List E820Entry := [⟨0, 0x9FC00, 1⟩, ⟨0x9FC00, 0x400, 2⟩, ⟨0x100000, 0x7EE0000, 1⟩]

theorem pmmInit_free_smallMap : ∃ s, pmmInit smallMap 0x60000 (fun _ => 0#32) = some s ∧
    (∀ f, s.Free f ↔ Usable smallMap f ∧ alignUp (reservedEnd smallMap 0x60000) pageSize ≤ f * pageSize) ∧
      ¬s.Free 0 ∧ s.usedFrames + s.freeFrames = s.totalFrames :=
  pmmInit_free smallMap 0x60000 (fun _ => 0#32) (by decide) (reservedEnd_lt (by decide)) ⟨256, by decide⟩

end init

end SifarOS.FrameAllocator
