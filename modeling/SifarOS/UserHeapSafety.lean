import SifarOS.UserHeap
import SifarOS.ReachableStates
import Mathlib.Data.List.Basic
import Mathlib.Data.List.Pairwise

/-! # The heap of a process keeps its blocks apart

The bytes of the heap stand for a list of blocks that fill the range from `brk_start` to `brk`. Every call turns one
such list into another, as long as the number of bytes it asks for is small enough for the sums that `malloc` and
`grow_heap` make of it. -/
namespace SifarOS.UserHeapSafety
open ByteMemory BlockList UserHeap

/-- A block of this heap. -/
abbrev Block := BlockList.Block headerSize

/-- The members of the header of `b`, with `next` behind it. -/
def field (b : Block) (next : ℕ) : Field → ℕ
  | .magic => heapMagic
  | .size => b.size
  | .next => next
  | .free => if b.free then 1 else 0

/-- The header of `b` is in place, with `next` behind it. A block does not know the one before it. -/
def HeaderAt (m : Memory) (b : Block) (_ next : ℕ) : Prop := ∀ f, header.get m b.addr f = field b next f

variable {m m' : Memory} {b c d : Block} {pre post bs bs' : List Block} {q lo hi before after : ℕ}

theorem HeaderAt.frame (h : HeaderAt m b before q) (hs : SameOn m m' b.addr headerSize) : HeaderAt m' b before q := by
  intro f
  rw [header.get_congr hs, h f]

instance : HeaderOnly HeaderAt := ⟨HeaderAt.frame⟩

theorem HeaderAt.free_iff (h : HeaderAt m b before q) : header.get m b.addr .free ≠ 0 ↔ b.free = true := by
  rw [h .free]
  cases hb : b.free <;> simp [field, hb]

/-- The links do not say what lies before the first block. -/
theorem linked_before (h : Linked HeaderAt m before bs after) (p : ℕ) : Linked HeaderAt m p bs after := by
  cases bs with
  | nil => trivial
  | cons b bs => exact h

theorem linked_walk (h : Linked HeaderAt m before bs 0) (ht : Tiled lo bs hi) (hlo : 0 < lo) {fuel : ℕ}
    (hf : bs.length ≤ fuel) : walk (header.get m · .next) fuel (headAddr bs 0) = bs.map Block.addr :=
  h.walk (fun _ _ _ hb => hb .next) ht.placed hlo hf

/-! ## The invariant -/

/-- Where the stack of a process begins. -/
def heapLimit : ℕ := userStackTop - userStackPages * pageSize

/-- The bytes of the heap stand for the list `bs`. -/
structure Inv (p : Process) (bs : List Block) : Prop where
  head : p.heapHead = headAddr bs 0
  linked : Linked HeaderAt p.mem 0 bs 0
  tiling : Tiled p.brkStart bs p.brk
  start : userMin ≤ p.brkStart
  brk_lt : p.brk < heapLimit
  stack : p.stackTop = userStackTop

variable {p p' : Process} {size : ℕ}

theorem Inv.blocks (h : Inv p bs) : p.blocks = bs.map Block.addr := by
  have hlen := h.tiling.placed.length_le
  have hstart := h.start
  unfold Process.blocks
  rw [h.head]
  refine linked_walk h.linked h.tiling (by unfold userMin at hstart; omega) ?_
  unfold Process.room
  unfold headerSize at hlen
  omega

theorem Inv.head_ne (h : Inv p bs) (hne : bs ≠ []) : p.heapHead ≠ 0 := by
  have hstart := h.start
  cases bs with
  | nil => exact absurd rfl hne
  | cons b bs =>
    have haddr := h.tiling.1
    rw [h.head, headAddr_cons]
    unfold userMin at hstart
    omega

/-- Where the parts of the list lie. -/
theorem Inv.places (h : Inv p (pre ++ b :: post)) :
    Tiled p.brkStart pre b.addr ∧ Tiled b.stop post p.brk ∧ userMin ≤ p.brkStart ∧ p.brkStart ≤ b.addr ∧
      b.addr + headerSize + b.size ≤ p.brk ∧ p.brk < heapLimit := by
  obtain ⟨h₁, h₂⟩ := tiled_focus.mp h.tiling
  have hpre := h₁.placed.le
  have hpost := h₂.placed.le
  unfold Block.stop at hpost
  exact ⟨h₁, h₂, h.start, by omega, by omega, h.brk_lt⟩

theorem Inv.headerAt (h : Inv p (pre ++ b :: post)) : HeaderAt p.mem b (lastAddr 0 pre) (headAddr post 0) :=
  (linked_focus.mp h.linked).2.1

/-- A new list from the address of `b` on, from what was written there. -/
theorem Inv.rebuild (h : Inv p (pre ++ b :: post)) {b' : Block} {post' : List Block} (haddr : b'.addr = b.addr)
    (hpre : SameOn p.mem m p.brkStart (b.addr - p.brkStart)) (hhead : HeaderAt m b' (lastAddr 0 pre) (headAddr post' 0))
    (hpost : Linked HeaderAt m b'.addr post' 0) (htiling : Tiled b'.stop post' p.brk) :
    Inv { p with mem := m } (pre ++ b' :: post') where
  head := by
    have hh := h.head
    rw [headAddr_append] at hh
    rw [headAddr_append, haddr]
    exact hh
  linked := by
    obtain ⟨h₁, -⟩ := linked_focus.mp h.linked
    refine linked_focus.mpr ⟨?_, hhead, hpost⟩
    have hlink : Linked HeaderAt p.mem 0 pre b'.addr := by
      rw [haddr]
      exact h₁
    exact hlink.frame h.places.1.placed hpre
  tiling := tiled_focus.mpr ⟨haddr ▸ h.places.1, htiling⟩
  start := h.start
  brk_lt := h.brk_lt
  stack := h.stack

/-- Writes into the block of `b` leave the other payloads alone. -/
theorem Inv.others (h : Inv p (pre ++ b :: post)) (hs : ∀ x k, x + k ≤ b.addr ∨ b.stop ≤ x → SameOn p.mem m x k)
    (hc : c ∈ pre ++ b :: post) (hne : c.addr ≠ b.addr) : (c ∈ pre ∨ c ∈ post) ∧ SameOn p.mem m c.payload c.size := by
  obtain ⟨h₁, h₂, -⟩ := h.places
  rcases List.mem_append.mp hc with hc | hc
  · exact ⟨.inl hc, hs _ _ (.inl (h₁.placed.mem hc).2)⟩
  · rcases List.mem_cons.mp hc with rfl | hc
    · exact absurd rfl hne
    · refine ⟨.inr hc, hs _ _ (.inr ?_)⟩
      have := (h₂.placed.mem hc).1
      unfold Block.payload
      omega

/-! ## Taking a block -/

/-- The members of a new free block. -/
def newHeader (m : Memory) (r size next : ℕ) : Memory :=
  header.set (header.set (header.set (header.set m r .magic heapMagic) r .size size) r .free 1) r .next next

theorem newHeader_sameOn (m : Memory) (size next : ℕ) {r a n : ℕ} (h : a + n ≤ r ∨ r + headerSize ≤ a) :
    SameOn m (newHeader m r size next) a n := by
  have h₁ := header.set_sameOn m .magic heapMagic h
  have h₂ := h₁.trans (header.set_sameOn _ .size size h)
  have h₃ := h₂.trans (header.set_sameOn _ .free 1 h)
  exact h₃.trans (header.set_sameOn _ .next next h)

theorem newHeader_headerAt (m : Memory) {r size next : ℕ} (hs : size < 4294967296) (hn : next < 4294967296) :
    HeaderAt (newHeader m r size next) ⟨r, size, true⟩ before next := by
  intro f
  cases f <;> simp [newHeader, field, header.get_set, Nat.mod_eq_of_lt hs, Nat.mod_eq_of_lt hn, heapMagic]

/-- `split` in one piece, where nothing overlaps or wraps around. -/
theorem split_eq {a : ℕ} (hbig : size + headerSize + 32 ≤ header.get m a .size)
    (hend : a + headerSize + header.get m a .size < 4294967296) :
    UserHeap.split m a size =
      header.set (header.set
        (newHeader m (a + headerSize + size) (header.get m a .size - size - headerSize) (header.get m a .next))
        a .next (a + headerSize + size)) a .size size := by
  have hsum : u32 (size + headerSize + 32) = size + headerSize + 32 := u32_of_lt (by omega)
  have hrest : u32 (a + headerSize + size) = a + headerSize + size := u32_of_lt (by omega)
  have hsub : sub32 (sub32 (header.get m a .size) size) headerSize = header.get m a .size - size - headerSize := by
    simp only [sub32, headerSize] at *
    omega
  have hoff : a + headerSize ≤ a + headerSize + size := by omega
  unfold UserHeap.split newHeader
  rw [hsum, if_pos hbig]
  simp only [hrest, header.get_set_block _ _ _ _ (.inl hoff), hsub]

/-- `split`, when the block is large enough for it. -/
theorem Inv.split (h : Inv p (pre ++ b :: post)) (hbig : size + headerSize + 32 ≤ b.size) :
    Inv { p with mem := UserHeap.split p.mem b.addr size }
      (pre ++ { b with size := size } :: ⟨b.addr + headerSize + size, b.size - size - headerSize, true⟩ :: post) ∧
    ∀ x k, x + k ≤ b.addr ∨ b.stop ≤ x → SameOn p.mem (UserHeap.split p.mem b.addr size) x k := by
  obtain ⟨h₁, h₂, h₃, h₄, h₅, h₆⟩ := h.places
  obtain ⟨-, hhead, hpost⟩ := linked_focus.mp h.linked
  have hlimit : heapLimit < 4294967296 := by decide
  have hsize : header.get p.mem b.addr .size = b.size := hhead .size
  have hnext : header.get p.mem b.addr .next = headAddr post 0 := hhead .next
  have hnext_lt : headAddr post 0 < 4294967296 := hnext ▸ header.get_lt _ _ _
  rw [split_eq (by rw [hsize]; exact hbig) (by rw [hsize]; omega), hsize, hnext]
  have hframe : ∀ x k, x + k ≤ b.addr ∨ b.stop ≤ x →
      SameOn p.mem (header.set (header.set (newHeader p.mem (b.addr + headerSize + size) (b.size - size - headerSize)
        (headAddr post 0)) b.addr .next (b.addr + headerSize + size)) b.addr .size size) x k := by
    intro x k hx
    unfold Block.stop at hx
    have hnew := newHeader_sameOn p.mem (b.size - size - headerSize) (headAddr post 0)
      (r := b.addr + headerSize + size) (a := x) (n := k) (by omega)
    have hself : x + k ≤ b.addr ∨ b.addr + headerSize ≤ x := by omega
    exact (hnew.trans (header.set_sameOn _ _ _ hself)).trans (header.set_sameOn _ _ _ hself)
  refine ⟨h.rebuild rfl (hframe _ _ (.inl (by omega))) ?_ ⟨?_, ?_⟩ ⟨rfl, ?_⟩, hframe⟩
  · -- the block itself, with the new one behind it
    intro f
    have hkeep := header.get_congr (newHeader_sameOn p.mem (b.size - size - headerSize) (headAddr post 0)
      (r := b.addr + headerSize + size) (a := b.addr) (n := headerSize) (.inl (by omega)))
    have hr : (b.addr + headerSize + size) % 4294967296 = b.addr + headerSize + size := Nat.mod_eq_of_lt (by omega)
    have hz : size % 4294967296 = size := Nat.mod_eq_of_lt (by omega)
    have hb := hhead f
    cases f <;> simp [field, header.get_set, hkeep, hr, hz] at hb ⊢ <;> exact hb
  · -- the rest
    refine (newHeader_headerAt p.mem (by omega) hnext_lt).frame ?_
    have hafter : b.addr + headerSize ≤ b.addr + headerSize + size := by omega
    exact (header.set_sameOn _ _ _ (.inr hafter)).trans (header.set_sameOn _ _ _ (.inr hafter))
  · exact linked_before (hpost.frame h₂.placed (hframe _ _ (.inr (Nat.le_refl _)))) _
  · have hstop : (⟨b.addr + headerSize + size, b.size - size - headerSize, true⟩ : Block).stop = b.stop := by
      unfold Block.stop
      dsimp only
      omega
    rw [hstop]
    exact h₂

/-- `block->free = free` -/
theorem Inv.setFree (h : Inv p (pre ++ b :: post)) (free : Bool) :
    Inv { p with mem := header.set p.mem b.addr .free (if free then 1 else 0) }
      (pre ++ { b with free := free } :: post) := by
  obtain ⟨h₁, h₂, h₃, h₄, h₅, h₆⟩ := h.places
  obtain ⟨-, hhead, hpost⟩ := linked_focus.mp h.linked
  refine h.rebuild rfl (header.set_sameOn _ _ _ (.inl (by omega))) (fun f => ?_) ?_ h₂
  · have hb := hhead f
    cases free <;> cases f <;> simp [field, header.get_set] at hb ⊢ <;> exact hb
  · refine hpost.frame h₂.placed (header.set_sameOn _ _ _ (.inr ?_))
    unfold Block.stop
    omega

/-- The end of `malloc`: the block is cut to size if that pays, and is in use. -/
theorem Inv.take (h : Inv p (pre ++ b :: post)) (hfit : size ≤ b.size) :
    ∃ d post', d.addr = b.addr ∧ d.free = false ∧ size ≤ d.size ∧
      Inv { p with mem := header.set (UserHeap.split p.mem b.addr size) b.addr .free 0 } (pre ++ d :: post') ∧
      (∀ c ∈ post, c ∈ post') ∧
      ∀ x k, x + k ≤ b.addr ∨ b.stop ≤ x →
        SameOn p.mem (header.set (UserHeap.split p.mem b.addr size) b.addr .free 0) x k := by
  obtain ⟨-, -, -, -, h₅, h₆⟩ := h.places
  have hlimit : heapLimit < 4294967296 := by decide
  have hself : ∀ {x k : ℕ}, x + k ≤ b.addr ∨ b.stop ≤ x → x + k ≤ b.addr ∨ b.addr + headerSize ≤ x := by
    intro x k hx
    unfold Block.stop at hx
    omega
  by_cases hbig : size + headerSize + 32 ≤ b.size
  · obtain ⟨hinv, hframe⟩ := h.split hbig
    refine ⟨{ b with size := size, free := false }, _, rfl, rfl, Nat.le_refl _, hinv.setFree false,
      fun c hc => List.mem_cons_of_mem _ hc, fun x k hx => (hframe x k hx).trans (header.set_sameOn _ _ _ (hself hx))⟩
  · have hsame : UserHeap.split p.mem b.addr size = p.mem := by
      have hsum : u32 (size + headerSize + 32) = size + headerSize + 32 := by
        refine u32_of_lt ?_
        unfold heapLimit userStackTop userStackPages pageSize at h₆
        omega
      unfold UserHeap.split
      have hsize : header.get p.mem b.addr .size = b.size := h.headerAt .size
      rw [hsum, hsize, if_neg hbig]
    rw [hsame]
    exact ⟨{ b with free := false }, post, rfl, rfl, hfit, h.setFree false, fun c hc => hc,
      fun x k hx => header.set_sameOn _ _ _ (hself hx)⟩

/-! ## Giving a block back -/

/-- The block at `b` takes in the one at `c`, which has `next` behind it. -/
def absorb (m : Memory) (b c next : ℕ) : Memory :=
  header.set (header.set m b .size (header.get m b .size + (headerSize + header.get m c .size))) b .next next

/-- One turn of the loop of `free`. -/
theorem Inv.absorb (h : Inv p (pre ++ b :: c :: post)) :
    Inv { p with mem := UserHeapSafety.absorb p.mem b.addr c.addr (headAddr post 0) }
      (pre ++ { b with size := b.size + (headerSize + c.size) } :: post) := by
  obtain ⟨h₁, h₂, h₃, h₄, h₅, h₆⟩ := h.places
  obtain ⟨-, hhead, hc, hpost⟩ := linked_focus.mp h.linked
  have hbound := h₂.2.placed.le
  have haddr := h₂.1
  unfold Block.stop at haddr hbound
  have hlimit : heapLimit < 4294967296 := by decide
  have hsize : header.get p.mem b.addr .size = b.size := hhead .size
  have hcsize : header.get p.mem c.addr .size = c.size := hc .size
  have hnext : headAddr post 0 < 4294967296 := by
    have hcnext : header.get p.mem c.addr .next = headAddr post 0 := hc .next
    exact hcnext ▸ header.get_lt _ _ _
  have hframe : ∀ x k, x + k ≤ b.addr ∨ b.addr + headerSize ≤ x → SameOn p.mem
      (header.set (header.set p.mem b.addr .size (b.size + (headerSize + c.size))) b.addr .next (headAddr post 0)) x k :=
    fun x k hx => (header.set_sameOn _ _ _ hx).trans (header.set_sameOn _ _ _ hx)
  have hstop : (⟨b.addr, b.size + (headerSize + c.size), b.free⟩ : Block).stop = c.stop := by
    unfold Block.stop
    dsimp only
    omega
  rw [UserHeapSafety.absorb, hsize, hcsize]
  refine h.rebuild rfl (hframe _ _ (.inl (by omega))) (fun f => ?_) ?_ ?_
  · have hsum : (b.size + (headerSize + c.size)) % 4294967296 = b.size + (headerSize + c.size) :=
      Nat.mod_eq_of_lt (by omega)
    have hb := hhead f
    cases f <;> simp [field, header.get_set, hsum, Nat.mod_eq_of_lt hnext] at hb ⊢ <;> exact hb
  · refine linked_before (hpost.frame h₂.2.placed (hframe _ _ (.inr ?_))) _
    unfold Block.stop
    omega
  · rw [hstop]
    exact h₂.2

/-- The loop of `free` takes in the free blocks behind `b` and writes its header only. -/
theorem Inv.merge {fuel : ℕ} (h : Inv p (pre ++ b :: post)) (hf : post.length < fuel) :
    ∃ b' post', b'.addr = b.addr ∧ b'.free = b.free ∧
      Inv { p with mem := UserHeap.merge fuel p.mem b.addr } (pre ++ b' :: post') ∧
      (∀ c ∈ post, c.free = false → c ∈ post') ∧
      ∀ x k, x + k ≤ b.addr ∨ b.addr + headerSize ≤ x → SameOn p.mem (UserHeap.merge fuel p.mem b.addr) x k := by
  induction post generalizing p b fuel with
  | nil =>
    cases fuel with
    | zero => cases hf
    | succ fuel =>
      have hnext : header.get p.mem b.addr .next = 0 := h.headerAt .next
      have hsame : UserHeap.merge (fuel + 1) p.mem b.addr = p.mem := by simp [UserHeap.merge, hnext]
      rw [hsame]
      exact ⟨b, [], rfl, rfl, h, fun c hc => absurd hc (by simp), fun x k _ => .refl _ _ _⟩
  | cons c post ih =>
    cases fuel with
    | zero => cases hf
    | succ fuel =>
      obtain ⟨h₁, h₂, h₃, h₄, h₅, h₆⟩ := h.places
      have hnext : header.get p.mem b.addr .next = c.addr := h.headerAt .next
      have hc : HeaderAt p.mem c b.addr (headAddr post 0) := (linked_focus.mp h.linked).2.2.1
      have hcaddr : b.addr + headerSize ≤ c.addr := by
        have := h₂.1
        unfold Block.stop at this
        omega
      have hcne : c.addr ≠ 0 := by
        unfold headerSize at hcaddr
        omega
      cases hfree : c.free with
      | false =>
        have hstop : ¬header.get p.mem c.addr .free ≠ 0 := by rw [hc.free_iff, hfree]; simp
        have hsame : UserHeap.merge (fuel + 1) p.mem b.addr = p.mem := by
          rw [UserHeap.merge]
          dsimp only
          rw [hnext, if_neg (fun hg => hstop hg.2)]
        rw [hsame]
        exact ⟨b, c :: post, rfl, rfl, h, fun d hd _ => hd, fun x k _ => .refl _ _ _⟩
      | true =>
        have hgo : header.get p.mem c.addr .free ≠ 0 := hc.free_iff.mpr hfree
        have hcnext : header.get (header.set p.mem b.addr .size
            (header.get p.mem b.addr .size + (headerSize + header.get p.mem c.addr .size)))
            c.addr .next = headAddr post 0 := by
          rw [header.get_set_block _ _ _ _ (.inr hcaddr)]
          exact hc .next
        have hturn : UserHeap.merge (fuel + 1) p.mem b.addr =
            UserHeap.merge fuel (UserHeapSafety.absorb p.mem b.addr c.addr (headAddr post 0)) b.addr := by
          rw [UserHeap.merge]
          dsimp only
          rw [hnext, if_pos ⟨hcne, hgo⟩, hcnext, UserHeapSafety.absorb]
        obtain ⟨b', post', ha, hb, hinv, hkept, hframe⟩ := ih h.absorb (Nat.lt_of_succ_lt_succ hf)
        rw [hturn]
        refine ⟨b', post', ha, hb, hinv, fun d hd hused => ?_, fun x k hx => ?_⟩
        · rcases List.mem_cons.mp hd with rfl | hd
          · rw [hfree] at hused
            cases hused
          · exact hkept d hd hused
        · exact ((header.set_sameOn _ _ _ hx).trans (header.set_sameOn _ _ _ hx)).trans (hframe x k hx)

/-! ## A larger heap -/

/-- The most bytes for which `grow_heap` asks the kernel with a positive number. -/
def maxRequest : ℕ := 0x7FFEFFF0

/-- What `proc_sbrk` comes to for a positive number. -/
theorem Inv.procSbrk (h : Inv p bs) {n : ℕ} (hpos : 0 < n) (hn : n < 2147483648) (pages : Pages) :
    procSbrk p (toInt n) pages = (p, 0) ∨
      ∃ page used, procSbrk p (toInt n) pages =
          ({ p with mem := fill p.mem p.brk n page, brk := p.brk + n, userPages := used }, p.brk) ∧
        p.brk + n < heapLimit := by
  have hint : toInt n = (n : ℤ) := if_pos hn
  have hfloor : stackFloor p = heapLimit := by
    unfold stackFloor
    rw [h.stack]
    decide
  rw [hint, UserHeap.procSbrk, if_pos (by omega)]
  dsimp only
  rw [Int.toNat_natCast, hfloor]
  split
  · exact .inl rfl
  · next hroom =>
    cases pages with
    | none => exact .inl rfl
    | some page => exact .inr ⟨page, _, rfl, by omega⟩

/-- The bytes `grow_heap` asks for. -/
theorem chunk_bounds {size : ℕ} (h : size ≤ maxRequest) :
    size + headerSize ≤ alignUp (u32 (size + headerSize)) 65536 ∧
      alignUp (u32 (size + headerSize)) 65536 < 2147483648 := by
  unfold maxRequest at h
  simp only [alignUp, u32, headerSize]
  omega

/-- The memory after `grow_heap` has written the header of its block and before it has linked it. -/
theorem Inv.newBlock (h : Inv p bs) {n : ℕ} (page : ℕ → UInt8) (hn : headerSize ≤ n) (hroom : p.brk + n < heapLimit)
    (hm : newHeader (fill p.mem p.brk n page) p.brk (n - headerSize) 0 = m) :
    Linked HeaderAt m 0 bs 0 ∧ (∀ q, HeaderAt m ⟨p.brk, n - headerSize, true⟩ q 0) ∧
      ∀ x k, x + k ≤ p.brk → SameOn p.mem m x k := by
  subst hm
  have hlimit : heapLimit < 4294967296 := by decide
  have hframe : ∀ x k, x + k ≤ p.brk →
      SameOn p.mem (newHeader (fill p.mem p.brk n page) p.brk (n - headerSize) 0) x k := fun x k hx =>
    (fill_sameOn p.mem page (.inl hx)).trans (newHeader_sameOn _ _ _ (.inl hx))
  refine ⟨h.linked.frame h.tiling.placed (hframe _ _ ?_), fun _ => newHeader_headerAt _ (by omega) (by decide), hframe⟩
  have := h.tiling.placed.length_le
  omega

/-- The last block gets a successor. -/
theorem Inv.link {b : Block} {pre : List Block} (h : Inv p (pre ++ [b])) {n used : ℕ} (hn : headerSize ≤ n)
    (hroom : p.brk + n < heapLimit) (hlinked : Linked HeaderAt m 0 (pre ++ [b]) 0)
    (hnew : HeaderAt m ⟨p.brk, n - headerSize, true⟩ b.addr 0) :
    Inv { p with mem := header.set m b.addr .next p.brk, brk := p.brk + n, userPages := used }
      (pre ++ [b] ++ [⟨p.brk, n - headerSize, true⟩]) := by
  obtain ⟨h₁, h₂, h₃, h₄, h₅, h₆⟩ := h.places
  obtain ⟨hpre, hb, -⟩ := linked_focus.mp hlinked
  have hlimit : heapLimit < 4294967296 := by decide
  have hbrk : p.brk % 4294967296 = p.brk := Nat.mod_eq_of_lt (by omega)
  have hframe : ∀ x k, x + k ≤ b.addr ∨ b.addr + headerSize ≤ x → SameOn m (header.set m b.addr .next p.brk) x k :=
    fun x k hx => header.set_sameOn _ _ _ hx
  refine ⟨?_, ?_, ?_, h₃, hroom, h.stack⟩
  · have hh := h.head
    rw [headAddr_append] at hh
    rw [List.append_assoc, List.singleton_append, headAddr_append]
    exact hh
  · rw [List.append_assoc, List.singleton_append]
    refine linked_focus.mpr ⟨hpre.frame h₁.placed (hframe _ _ (.inl (by omega))), fun f => ?_, ?_, trivial⟩
    · have hf := hb f
      cases f <;> simp [field, header.get_set, hbrk] at hf ⊢ <;> exact hf
    · exact hnew.frame (hframe _ _ (.inr (by dsimp only; omega)))
  · refine (tiled_append h.tiling).mpr ⟨rfl, ?_⟩
    unfold Tiled Block.stop
    dsimp only
    omega

theorem Inv.growHeap (h : Inv p bs) (hsize : size ≤ maxRequest) (pages : Pages) :
    growHeap p size pages = (p, 0) ∨
      ∃ p' b, growHeap p size pages = (p', b.addr) ∧ b.addr ≠ 0 ∧ b.free = true ∧ size ≤ b.size ∧ Inv p' (bs ++ [b]) ∧
        p.brk ≤ p'.brk ∧ p'.brkStart = p.brkStart ∧ ∀ c ∈ bs, SameOn p.mem p'.mem c.payload c.size := by
  obtain ⟨hchunk, hint⟩ := chunk_bounds hsize
  simp only [UserHeap.growHeap]
  generalize alignUp (u32 (size + headerSize)) 65536 = n at hchunk hint
  have hstart := h.start
  have hle := h.tiling.placed.length_le
  have hbrk : p.brk ≠ 0 := by
    unfold userMin at hstart
    omega
  have hlimit : heapLimit < 4294967296 := by decide
  have hn : headerSize ≤ n := by omega
  have hsub : sub32 n headerSize = n - headerSize := by
    unfold sub32 headerSize at *
    omega
  rcases h.procSbrk (n := n) (by unfold headerSize at hchunk; omega) hint pages with he | ⟨page, used, he, hroom⟩
  · left
    rw [he]
    rfl
  right
  rw [he]
  obtain ⟨hlinked, hnew, hframe⟩ := h.newBlock page hn hroom rfl
  have hkept : ∀ c ∈ bs, c.payload + c.size ≤ p.brk := fun c hc => (h.tiling.placed.mem hc).2
  rcases List.eq_nil_or_concat' bs with rfl | ⟨pre, b, rfl⟩
  · have hhead : p.heapHead = 0 := h.head
    have htile : p.brkStart = p.brk := h.tiling
    rw [appendBlock, if_neg hbrk]
    simp only [hsub, if_pos hhead]
    refine ⟨_, ⟨p.brk, n - headerSize, true⟩, rfl, hbrk, rfl, by dsimp only; omega,
      ⟨rfl, ⟨hnew _, trivial⟩, ⟨htile.symm, ?_⟩, hstart, hroom, h.stack⟩, by dsimp only; omega, rfl,
      fun c hc => hframe _ _ (hkept c hc)⟩
    unfold Tiled Block.stop
    dsimp only
    omega
  · have hne := h.head_ne (by simp)
    have hfuel : (pre ++ [b]).length ≤ p.brk + n - p.brkStart + 1 := by
      unfold headerSize at hle
      omega
    have hwalk := linked_walk hlinked h.tiling (by unfold userMin at hstart; omega) hfuel
    rw [← h.head] at hwalk
    rw [appendBlock, if_neg hbrk]
    simp only [hsub, if_neg hne, Process.room]
    unfold newHeader at hwalk
    have hlast : ((pre ++ [b]).map Block.addr).getLast?.getD p.heapHead = b.addr := by simp
    rw [hwalk, hlast]
    exact ⟨_, ⟨p.brk, n - headerSize, true⟩, rfl, hbrk, rfl, by dsimp only; omega, h.link hn hroom hlinked (hnew _),
      by dsimp only; omega, rfl, fun c hc =>
        (hframe _ _ (hkept c hc)).trans (header.set_sameOn _ _ _ (h.tiling.placed.apart (by simp) hc))⟩

/-! ## What each function does to the list -/

/-- `q` points to a block in use with room for `size` bytes that was not in use before. -/
def Fresh (bs bs' : List Block) (size q : ℕ) : Prop :=
  0 < size ∧ ∃ d ∈ bs', d.free = false ∧ q = d.payload ∧ size ≤ d.size ∧ ∀ c ∈ bs, c.free = false → c.addr ≠ d.addr

theorem Inv.addr_pos (h : Inv p bs) (hb : b ∈ bs) : 0 < b.addr := by
  have hstart := h.start
  have := (h.tiling.placed.mem hb).1
  unfold userMin at hstart
  omega

theorem Inv.stop_lt (h : Inv p bs) (hb : b ∈ bs) : b.addr + headerSize + b.size < heapLimit := by
  have hstop := (h.tiling.placed.mem hb).2
  have hlimit := h.brk_lt
  unfold Block.stop at hstop
  omega

/-- The block behind a pointer. -/
theorem Inv.sub_payload (h : Inv p bs) (hb : b ∈ bs) : sub32 b.payload headerSize = b.addr := by
  have := h.stop_lt hb
  unfold heapLimit userStackTop userStackPages pageSize at this
  unfold sub32 Block.payload headerSize at *
  omega

theorem Inv.header_of_mem (h : Inv p bs) (hb : b ∈ bs) (f : Field) (hf : f ≠ .next) :
    header.get p.mem b.addr f = field b 0 f := by
  obtain ⟨pre, post, rfl⟩ := List.append_of_mem hb
  rw [h.headerAt f]
  cases f with
  | next => exact absurd rfl hf
  | magic => rfl
  | size => rfl
  | free => rfl

/-- A free block that is large enough becomes a fresh one. -/
theorem Inv.takeFresh (h : Inv p bs) (hb : b ∈ bs) (hfree : b.free = true) (hpos : 0 < size) (hfit : size ≤ b.size) :
    ∃ bs', Inv { p with mem := header.set (UserHeap.split p.mem b.addr size) b.addr .free 0 } bs' ∧
      Keeps p.mem (header.set (UserHeap.split p.mem b.addr size) b.addr .free 0) bs bs' 0 ∧
      Fresh bs bs' size (u32 (b.addr + headerSize)) := by
  have hlt := h.stop_lt hb
  have hlimit : heapLimit < 4294967296 := by decide
  have htiling := h.tiling
  have hown : ∀ c ∈ bs, c.free = false → c.addr ≠ b.addr := by
    intro c hc hused he
    obtain rfl := htiling.placed.inj (by decide) hc hb he
    rw [hfree] at hused
    cases hused
  obtain ⟨pre, post, rfl⟩ := List.append_of_mem hb
  obtain ⟨d, post', haddr, hused, hsize, hinv, hpost, hframe⟩ := h.take hfit
  refine ⟨_, hinv, fun c hc hcu _ => ?_, hpos, d, by simp, hused, ?_, hsize, ?_⟩
  · obtain ⟨hmem, hsame⟩ := h.others hframe hc (hown c hc hcu)
    refine ⟨?_, hsame⟩
    rcases hmem with hmem | hmem
    · exact List.mem_append_left _ hmem
    · exact List.mem_append_right _ (List.mem_cons_of_mem _ (hpost c hmem))
  · rw [u32_of_lt (by omega), Block.payload, haddr]
  · rw [haddr]
    exact hown

theorem Inv.findFit_some (h : Inv p bs) {block : ℕ} (hf : findFit p size = some block) :
    ∃ b ∈ bs, b.addr = block ∧ b.free = true ∧ size ≤ b.size := by
  unfold findFit at hf
  rw [h.blocks] at hf
  have hmem := List.mem_of_find?_eq_some hf
  have hgood := List.find?_some hf
  obtain ⟨b, hb, rfl⟩ := List.mem_map.mp hmem
  obtain ⟨hfree, hfit⟩ := of_decide_eq_true hgood
  rw [h.header_of_mem hb .size (by decide)] at hfit
  rw [h.header_of_mem hb .free (by decide)] at hfree
  refine ⟨b, hb, rfl, ?_, hfit⟩
  by_contra hn
  simp [field, hn] at hfree

theorem Inv.malloc (h : Inv p bs) (hsize : size ≤ maxRequest) (pages : Pages) :
    ∃ bs', Inv (malloc p size pages).1 bs' ∧ Keeps p.mem (malloc p size pages).1.mem bs bs' 0 ∧
      p.brk ≤ (malloc p size pages).1.brk ∧ (malloc p size pages).1.brkStart = p.brkStart ∧
      ((malloc p size pages).2 = 0 ∨ Fresh bs bs' size (malloc p size pages).2) := by
  have hsame : ∃ bs', Inv p bs' ∧ Keeps p.mem p.mem bs bs' 0 ∧ p.brk ≤ p.brk ∧ p.brkStart = p.brkStart ∧
      (0 = 0 ∨ Fresh bs bs' size 0) :=
    ⟨bs, h, fun c hc _ _ => ⟨hc, .refl _ _ _⟩, Nat.le_refl _, rfl, .inl rfl⟩
  unfold UserHeap.malloc
  by_cases hz : size = 0
  · rw [if_pos hz]
    exact hsame
  rw [if_neg hz]
  have hround : size ≤ alignUp size 8 ∧ alignUp size 8 ≤ maxRequest := by
    unfold maxRequest at *
    simp only [alignUp, u32]
    omega
  obtain ⟨hle, hmax⟩ := hround
  have hfresh : ∀ {bs' : List Block} {q : ℕ}, Fresh bs bs' (alignUp size 8) q → Fresh bs bs' size q := by
    rintro bs' q ⟨-, d, hd, hused, hq, hfit, hother⟩
    exact ⟨by omega, d, hd, hused, hq, Nat.le_trans hle hfit, hother⟩
  dsimp only
  cases hf : findFit p (alignUp size 8) with
  | some block =>
    obtain ⟨b, hb, rfl, hfree, hfit⟩ := h.findFit_some hf
    obtain ⟨bs', hinv, hk, hnew⟩ := h.takeFresh hb hfree (by omega) hfit
    rw [if_neg (Nat.pos_iff_ne_zero.mp (h.addr_pos hb))]
    exact ⟨bs', hinv, hk, Nat.le_refl _, rfl, .inr (hfresh hnew)⟩
  | none =>
    rcases h.growHeap hmax pages with he | ⟨p', b, he, hne, hfree, hfit, hinv, hbrk, hstart, hframe⟩
    · rw [he, if_pos rfl]
      exact hsame
    · obtain ⟨bs', hinv', hk, hpos, d, hd, hused, hq, hfit', hother⟩ :=
        hinv.takeFresh (List.mem_append_right _ (List.mem_singleton_self b)) hfree (by omega) hfit
      rw [he, if_neg hne]
      have hgrown : Keeps p.mem p'.mem bs (bs ++ [b]) 0 := fun c hc _ _ => ⟨List.mem_append_left _ hc, hframe c hc⟩
      refine ⟨bs', hinv', hgrown.trans hk, hbrk, hstart, .inr (hfresh ⟨hpos, d, hd, hused, hq, hfit', ?_⟩)⟩
      exact fun c hc => hother c (List.mem_append_left _ hc)

theorem Inv.free (h : Inv p bs) (hb : b ∈ bs) :
    ∃ bs', Inv (free p b.payload) bs' ∧ Keeps p.mem (free p b.payload).mem bs bs' b.addr ∧
      (free p b.payload).brk = p.brk ∧ (free p b.payload).brkStart = p.brkStart := by
  have hne : b.payload ≠ 0 := by
    unfold Block.payload headerSize
    omega
  have hmagic : ¬header.get p.mem b.addr .magic ≠ heapMagic := not_not.mpr (h.header_of_mem hb .magic (by decide))
  have hlen := h.tiling.placed.length_le
  unfold UserHeap.free
  rw [if_neg hne]
  dsimp only
  rw [h.sub_payload hb, if_neg hmagic]
  obtain ⟨pre, post, rfl⟩ := List.append_of_mem hb
  have hfuel : post.length < p.room := by
    simp only [List.length_append, List.length_cons, headerSize] at hlen
    unfold Process.room
    omega
  obtain ⟨b', post', haddr, hbfree, hinv, hpost, hframe⟩ := (h.setFree true).merge hfuel
  refine ⟨_, hinv, fun c hc hused hne => ?_, rfl, rfl⟩
  have hwrite : ∀ x k, x + k ≤ b.addr ∨ b.stop ≤ x →
      SameOn p.mem (UserHeap.merge p.room (header.set p.mem b.addr .free 1) b.addr) x k := by
    intro x k hx
    have hself : x + k ≤ b.addr ∨ b.addr + headerSize ≤ x := by
      unfold Block.stop at hx
      omega
    exact (header.set_sameOn _ _ _ hself).trans (hframe x k hself)
  obtain ⟨hmem, hsame⟩ := h.others hwrite hc hne
  refine ⟨?_, hsame⟩
  rcases hmem with hmem | hmem
  · exact List.mem_append_left _ hmem
  · exact List.mem_append_right _ (List.mem_cons_of_mem _ (hpost c hmem hused))

/-- The owner of a block, `calloc` and `realloc` write the payload of one block. -/
theorem Inv.writePayload (h : Inv p bs) (hb : b ∈ bs) {a n : ℕ} (content : ℕ → UInt8) (hlo : b.payload ≤ a)
    (hhi : a + n ≤ b.payload + b.size) :
    Inv { p with mem := fill p.mem a n content } bs ∧ Keeps p.mem (fill p.mem a n content) bs bs b.addr := by
  refine ⟨⟨h.head, h.linked.congr fun c hc => fill_sameOn _ _ ?_, h.tiling, h.start, h.brk_lt, h.stack⟩,
    fun c hc _ hne => ⟨hc, fill_sameOn _ _ ?_⟩⟩
  · have := h.tiling.placed.apart hc hb
    omega
  · have hcb : c ≠ b := by
      rintro rfl
      exact hne rfl
    have := h.tiling.placed.ordered hb hc hcb
    unfold Block.stop at this
    unfold Block.payload at *
    omega

theorem Inv.calloc (h : Inv p bs) {count : ℕ} (hsize : count * size ≤ maxRequest ∨ u32 (count * size) = 0)
    (pages : Pages) :
    ∃ bs', Inv (calloc p count size pages).1 bs' ∧ Keeps p.mem (calloc p count size pages).1.mem bs bs' 0 ∧
      p.brk ≤ (calloc p count size pages).1.brk ∧ (calloc p count size pages).1.brkStart = p.brkStart ∧
      ((calloc p count size pages).2 = 0 ∨ Fresh bs bs' (count * size) (calloc p count size pages).2) := by
  have hreq : u32 (count * size) ≤ maxRequest ∧ (u32 (count * size) = count * size ∨ u32 (count * size) = 0) := by
    rcases hsize with hsize | hsize
    · have hexact : u32 (count * size) = count * size := u32_of_lt (by unfold maxRequest at hsize; omega)
      exact ⟨by omega, .inl hexact⟩
    · exact ⟨by omega, .inr hsize⟩
  obtain ⟨hmax, hexact⟩ := hreq
  obtain ⟨bs', hinv, hk, hbrk, hstart, hq⟩ := h.malloc hmax pages
  unfold UserHeap.calloc
  dsimp only
  generalize UserHeap.malloc p (u32 (count * size)) pages = r at hinv hk hbrk hstart hq
  rcases hq with hq | ⟨hpos, d, hd, hused, hq, hfit, hother⟩
  · rw [if_neg (not_not.mpr hq)]
    exact ⟨bs', hinv, hk, hbrk, hstart, .inl hq⟩
  · have hne : r.2 ≠ 0 := by
      rw [hq]
      unfold Block.payload headerSize
      omega
    have hsame : u32 (count * size) = count * size := hexact.resolve_right (by omega)
    rw [if_pos hne]
    obtain ⟨hinv', hk'⟩ := hinv.writePayload hd (a := r.2) (n := u32 (count * size)) (fun _ => 0) (by omega) (by omega)
    refine ⟨bs', hinv', fun c hc hcu hz => ?_, hbrk, hstart, .inr ⟨by omega, d, hd, hused, hq, by omega, hother⟩⟩
    obtain ⟨hc', hs⟩ := hk c hc hcu hz
    obtain ⟨hc'', hs'⟩ := hk' c hc' hcu (hother c hc hcu)
    exact ⟨hc'', hs.trans hs'⟩

/-- The pointer that `realloc` returns for a block in use, and what becomes of the block. -/
inductive Resized (p p' : Process) (bs bs' : List Block) (b : Block) (size q : ℕ) : Prop
  | freed (hz : size = 0) (hq : q = 0)
  | failed (hz : size ≠ 0) (hq : q = 0) (hb : b ∈ bs') (hs : SameOn p.mem p'.mem b.payload b.size)
  | kept (hz : size ≠ 0) (hq : q = b.payload) (hfit : size ≤ b.size) (hb : b ∈ bs')
      (hs : SameOn p.mem p'.mem b.payload b.size)
  | moved (hq : Fresh bs bs' size q) (hs : ∀ i < b.size, p'.mem (q + i) = p.mem (b.payload + i))

/-- The end of `realloc`: the bytes of `b` are copied to `d`, and `b` is freed after that. -/
theorem Inv.move (h : Inv p bs) (hb : b ∈ bs) (hd : d ∈ bs) (hdused : d.free = false) (hne : d.addr ≠ b.addr)
    (hfit : b.size ≤ d.size)
    (hp' : p' = UserHeap.free { p with mem := fill p.mem d.payload b.size fun i => p.mem (b.payload + i) } b.payload) :
    ∃ bs', Inv p' bs' ∧ p'.brk = p.brk ∧ p'.brkStart = p.brkStart ∧ d ∈ bs' ∧
      (∀ c ∈ bs, c.free = false → c.addr ≠ b.addr → c.addr ≠ d.addr →
        c ∈ bs' ∧ SameOn p.mem p'.mem c.payload c.size) ∧
      ∀ i < b.size, p'.mem (d.payload + i) = p.mem (b.payload + i) := by
  obtain ⟨hinv, hk⟩ := h.writePayload hd (a := d.payload) (n := b.size) (fun i => p.mem (b.payload + i))
    (Nat.le_refl _) (by omega)
  obtain ⟨bs', hinv', hk', hbrk, hstart⟩ := hinv.free hb
  rw [← hp'] at hinv' hk' hbrk hstart
  obtain ⟨hd', hs⟩ := hk' d hd hdused hne
  refine ⟨bs', hinv', hbrk, hstart, hd', fun c hc hused hcb hcd => ?_, fun i hi => ?_⟩
  · obtain ⟨hc₁, hs₁⟩ := hk c hc hused hcd
    obtain ⟨hc₂, hs₂⟩ := hk' c hc₁ hused hcb
    exact ⟨hc₂, hs₁.trans hs₂⟩
  · rw [hs (d.payload + i) (by omega) (by omega)]
    exact fill_at p.mem (fun i => p.mem (b.payload + i)) hi

theorem Inv.realloc (h : Inv p bs) (hb : b ∈ bs) (hused : b.free = false) (hsize : size ≤ maxRequest) (pages : Pages) :
    ∃ bs', Inv (realloc p b.payload size pages).1 bs' ∧
      Keeps p.mem (realloc p b.payload size pages).1.mem bs bs' b.addr ∧
      p.brk ≤ (realloc p b.payload size pages).1.brk ∧ (realloc p b.payload size pages).1.brkStart = p.brkStart ∧
      Resized p (realloc p b.payload size pages).1 bs bs' b size (realloc p b.payload size pages).2 := by
  have hne : b.payload ≠ 0 := by
    unfold Block.payload headerSize
    omega
  have hmagic : ¬header.get p.mem b.addr .magic ≠ heapMagic := not_not.mpr (h.header_of_mem hb .magic (by decide))
  have hbsize : header.get p.mem b.addr .size = b.size := h.header_of_mem hb .size (by decide)
  unfold UserHeap.realloc
  rw [if_neg hne]
  by_cases hz : size = 0
  · obtain ⟨bs', hinv, hk, hbrk, hstart⟩ := h.free hb
    rw [if_pos hz]
    exact ⟨bs', hinv, hk, Nat.le_of_eq hbrk.symm, hstart, .freed hz rfl⟩
  rw [if_neg hz]
  dsimp only
  rw [h.sub_payload hb, if_neg hmagic, hbsize]
  by_cases hfit : size ≤ b.size
  · rw [if_pos hfit]
    exact ⟨bs, h, fun c hc _ _ => ⟨hc, .refl _ _ _⟩, Nat.le_refl _, rfl, .kept hz rfl hfit hb (.refl _ _ _)⟩
  rw [if_neg hfit]
  obtain ⟨bs₁, hinv, hk, hbrk, hstart, hq⟩ := h.malloc hsize pages
  generalize UserHeap.malloc p size pages = r at hinv hk hbrk hstart hq
  obtain ⟨hb₁, hs₁⟩ := hk b hb hused (Nat.pos_iff_ne_zero.mp (h.addr_pos hb))
  have hown : Keeps p.mem r.1.mem bs bs₁ b.addr :=
    hk.weaken fun c hc he => absurd he (Nat.pos_iff_ne_zero.mp (h.addr_pos hc))
  rcases hq with hq | ⟨hpos, d, hd, hdused, hq, hdfit, hother⟩
  · rw [if_pos hq]
    exact ⟨bs₁, hinv, hown, hbrk, hstart, .failed hz rfl hb₁ hs₁⟩
  have hqne : r.2 ≠ 0 := by
    rw [hq]
    unfold Block.payload headerSize
    omega
  have hb₁size : header.get r.1.mem b.addr .size = b.size := hinv.header_of_mem hb₁ .size (by decide)
  rw [if_neg hqne, hb₁size, hq]
  generalize hp' : UserHeap.free { r.1 with mem := fill r.1.mem d.payload b.size fun i => r.1.mem (b.payload + i) }
    b.payload = p'
  obtain ⟨bs₂, hinv₂, hbrk₂, hstart₂, hd₂, hkept, hcopy⟩ :=
    hinv.move hb₁ hd hdused (hother b hb hused).symm (by omega) hp'.symm
  refine ⟨bs₂, hinv₂, fun c hc hcu hcne => ?_, hbrk₂ ▸ hbrk, hstart₂.trans hstart,
    .moved ⟨hpos, d, hd₂, hdused, rfl, hdfit, hother⟩ fun i hi => (hcopy i hi).trans ?_⟩
  · obtain ⟨hc₁, hcs₁⟩ := hown c hc hcu hcne
    obtain ⟨hc₂, hcs₂⟩ := hkept c hc₁ hcu hcne (hother c hc hcu)
    exact ⟨hc₂, hcs₁.trans hcs₂⟩
  · exact hs₁ (b.payload + i) (by omega) (by omega)

/-! ## Runs -/

/-- The blocks, as a loop over `next` sees them, fill `[lo, hi)`. -/
def Tiles (m : Memory) : ℕ → List ℕ → ℕ → Prop
  | lo, [], hi => lo = hi
  | lo, b :: bs, hi => b = lo ∧ Tiles m (b + headerSize + header.get m b .size) bs hi

/-- What the allocator promises in every state. -/
structure Contract (s : State) : Prop where
  tiles : Tiles s.proc.mem s.proc.brkStart s.proc.blocks s.proc.brk
  inside : ∀ a ∈ s.live, s.proc.brkStart ≤ a.ptr ∧ a.ptr + a.bytes ≤ s.proc.brk
  block : ∀ a ∈ s.live, ∃ b ∈ s.proc.blocks, a.ptr = b + headerSize ∧ header.get s.proc.mem b .free = 0 ∧
    a.bytes ≤ header.get s.proc.mem b .size
  disjoint : s.live.Pairwise fun a b => a.ptr + a.bytes ≤ b.ptr ∨ b.ptr + b.bytes ≤ a.ptr

/-- What it promises of a call that returned `q`. -/
structure Respects (s s' : State) (a : Action) (q : ℕ) : Prop where
  brk_le : s.proc.brk ≤ s'.proc.brk
  result : q ≠ 0 → ⟨q, a.bytes⟩ ∈ s'.live
  others : ∀ x ∈ s.live, x.ptr ≠ a.own → x ∈ s'.live ∧ SameOn s.proc.mem s'.proc.mem x.ptr x.bytes
  contents : ∀ x ∈ s.live, ∀ size, a = .realloc x.ptr size → q ≠ 0 →
    ∀ i < min x.bytes size, s'.proc.mem (q + i) = s.proc.mem (x.ptr + i)
  failed : ∀ x ∈ s.live, ∀ size, a = .realloc x.ptr size → size ≠ 0 → q = 0 →
    x ∈ s'.live ∧ SameOn s.proc.mem s'.proc.mem x.ptr x.bytes

/-- The number of bytes is small enough for `grow_heap`. A product that wraps around to 0 is refused by `malloc`. -/
def Fits : Action → Prop
  | .malloc size | .realloc _ size => size ≤ maxRequest
  | .calloc count size => count * size ≤ maxRequest ∨ u32 (count * size) = 0
  | .free _ | .store _ _ _ => True

/-- What the process holds are blocks in use of the list. -/
structure Owned (s : State) (bs : List Block) : Prop where
  inv : Inv s.proc bs
  live : ∀ a ∈ s.live, ∃ b ∈ bs, b.free = false ∧ a.ptr = b.payload ∧ 0 < a.bytes ∧ a.bytes ≤ b.size
  distinct : s.live.Pairwise fun a b => a.ptr ≠ b.ptr

theorem linked_tiles (h : Linked HeaderAt m before bs after) (ht : Tiled lo bs hi) : Tiles m lo (bs.map Block.addr) hi := by
  induction bs generalizing before lo with
  | nil => exact ht
  | cons b bs ih =>
    have hsize : header.get m b.addr .size = b.size := h.1 .size
    refine ⟨ht.1, ?_⟩
    rw [hsize]
    exact ih h.2 ht.2

variable {s s' : State} {a : Action} {live : List Allocation}

theorem Owned.contract (ho : Owned s bs) : Contract s where
  tiles := by
    rw [ho.inv.blocks]
    exact linked_tiles ho.inv.linked ho.inv.tiling
  inside a ha := by
    obtain ⟨b, hb, -, hptr, -, hle⟩ := ho.live a ha
    have := ho.inv.tiling.placed.mem hb
    unfold Block.stop at this
    unfold Block.payload at hptr
    omega
  block a ha := by
    obtain ⟨b, hb, hused, hptr, -, hle⟩ := ho.live a ha
    refine ⟨b.addr, ?_, hptr, ?_, ?_⟩
    · rw [ho.inv.blocks]
      exact List.mem_map_of_mem hb
    · rw [ho.inv.header_of_mem hb .free (by decide)]
      simp [field, hused]
    · rw [ho.inv.header_of_mem hb .size (by decide)]
      exact hle
  disjoint := by
    refine ho.distinct.imp_of_mem fun {a b} ha hb hne => ?_
    obtain ⟨c, hc, -, hcptr, -, hcle⟩ := ho.live a ha
    obtain ⟨d, hd, -, hdptr, -, hdle⟩ := ho.live b hb
    have hcd : c ≠ d := by
      rintro rfl
      exact hne (hcptr.trans hdptr.symm)
    have := ho.inv.tiling.placed.ordered hd hc hcd
    unfold Block.stop at this
    unfold Block.payload at hcptr hdptr
    omega

theorem Owned.ptr_ne (ho : Owned s bs) {x : Allocation} (hx : x ∈ s.live) : x.ptr ≠ 0 := by
  obtain ⟨b, -, -, hptr, -⟩ := ho.live x hx
  rw [hptr]
  unfold Block.payload headerSize
  omega

theorem Owned.release_zero (ho : Owned s bs) : release s.live 0 = s.live := by
  refine List.filter_eq_self.mpr fun x hx => ?_
  simpa using ho.ptr_ne hx

theorem mem_release {x : Allocation} {ptr : ℕ} : x ∈ release live ptr ↔ x ∈ live ∧ x.ptr ≠ ptr := by
  simp [release]

/-- The allocations other than the one at `ptr` stay as they are. -/
theorem Owned.release (ho : Owned s bs) (ptr : ℕ) {own : ℕ} (hinv : Inv p' bs') (hk : Keeps s.proc.mem p'.mem bs bs' own)
    (hown : ∀ b ∈ bs, b.payload ≠ ptr → b.addr ≠ own) :
    Owned ⟨p', UserHeap.release s.live ptr⟩ bs' ∧
      ∀ x ∈ s.live, x.ptr ≠ ptr → SameOn s.proc.mem p'.mem x.ptr x.bytes := by
  have hstays : ∀ x ∈ s.live, x.ptr ≠ ptr → ∃ b ∈ bs, b.free = false ∧ x.ptr = b.payload ∧ 0 < x.bytes ∧
      x.bytes ≤ b.size ∧ b ∈ bs' ∧ SameOn s.proc.mem p'.mem b.payload b.size := by
    intro x hx hne
    obtain ⟨b, hb, hused, hptr, hpos, hle⟩ := ho.live x hx
    exact ⟨b, hb, hused, hptr, hpos, hle, hk b hb hused (hown b hb (hptr ▸ hne))⟩
  refine ⟨⟨hinv, fun x hx => ?_, ho.distinct.filter _⟩, fun x hx hne => ?_⟩
  · obtain ⟨hx, hne⟩ := mem_release.mp hx
    obtain ⟨b, -, hused, hptr, hpos, hle, hb, -⟩ := hstays x hx hne
    exact ⟨b, hb, hused, hptr, hpos, hle⟩
  · obtain ⟨b, -, -, hptr, -, hle, -, hs⟩ := hstays x hx hne
    rw [hptr]
    exact hs.mono (Nat.le_refl _) (by omega)

/-- The process gets a block that none of its pointers is for. -/
theorem Owned.add (ho : Owned ⟨p, live⟩ bs) (hd : d ∈ bs) (hused : d.free = false) {n : ℕ} (hpos : 0 < n) (hn : n ≤ d.size)
    (hne : ∀ x ∈ live, d.payload ≠ x.ptr) : Owned ⟨p, ⟨d.payload, n⟩ :: live⟩ bs where
  inv := ho.inv
  live x hx := by
    rcases List.mem_cons.mp hx with rfl | hx
    · exact ⟨d, hd, hused, rfl, hpos, hn⟩
    · exact ho.live x hx
  distinct := List.pairwise_cons.mpr ⟨hne, ho.distinct⟩

theorem held_of_ne {q : ℕ} (hq : q ≠ 0) : held live a q = ⟨q, a.bytes⟩ :: UserHeap.release live a.own := if_pos hq

/-- A fresh block is none of those that the process had. -/
theorem Owned.addFresh (ho : Owned s bs) {q n ptr : ℕ} (hr : Owned ⟨p', UserHeap.release s.live ptr⟩ bs')
    (hq : Fresh bs bs' n q) : q ≠ 0 ∧ Owned ⟨p', ⟨q, n⟩ :: UserHeap.release s.live ptr⟩ bs' := by
  obtain ⟨hpos, d, hd, hused, rfl, hfit, hother⟩ := hq
  refine ⟨?_, hr.add hd hused hpos hfit fun x hx he => ?_⟩
  · unfold Block.payload headerSize
    omega
  · obtain ⟨c, hc, hcused, hptr, -⟩ := ho.live x (mem_release.mp hx).1
    refine hother c hc hcused ?_
    rw [hptr] at he
    unfold Block.payload at he
    omega

theorem mem_held {x : Allocation} {q : ℕ} (hx : x ∈ live) (hne : x.ptr ≠ a.own) : x ∈ held live a q := by
  have hr := mem_release.mpr ⟨hx, hne⟩
  unfold held
  split
  · exact List.mem_cons_of_mem _ hr
  · split
    · exact hr
    · exact hr
    · exact hx

theorem Owned.held_zero (ho : Owned s bs) (hown : a.own = 0) : held s.live a 0 = s.live := by
  have hz := ho.release_zero
  unfold held
  rw [if_neg (by simp)]
  split
  · next pointer =>
    obtain rfl : pointer = 0 := hown
    exact hz
  · next pointer =>
    obtain rfl : pointer = 0 := hown
    exact hz
  · rfl

/-- A call that is given no pointer, with what it returned. -/
theorem Owned.allocate (ho : Owned s bs) {r : Process × ℕ} (hown : a.own = 0) (hinv : Inv r.1 bs')
    (hk : Keeps s.proc.mem r.1.mem bs bs' 0) (hbrk : s.proc.brk ≤ r.1.brk)
    (hq : r.2 = 0 ∨ Fresh bs bs' a.bytes r.2) :
    Owned ⟨r.1, held s.live a r.2⟩ bs' ∧ Respects s ⟨r.1, held s.live a r.2⟩ a r.2 := by
  obtain ⟨hr, hsame⟩ := ho.release 0 hinv hk fun b hb _ => Nat.pos_iff_ne_zero.mp (ho.inv.addr_pos hb)
  have hno : ∀ x ∈ s.live, ∀ size, a ≠ .realloc x.ptr size := by
    rintro x hx size rfl
    exact ho.ptr_ne hx hown
  have howned : Owned ⟨r.1, held s.live a r.2⟩ bs' := by
    rcases hq with hq | hq
    · rw [hq, ho.held_zero hown]
      rw [ho.release_zero] at hr
      exact hr
    · obtain ⟨hne, hadd⟩ := ho.addFresh hr hq
      rw [held_of_ne hne, hown]
      exact hadd
  refine ⟨howned, hbrk, fun hne => ?_, fun x hx hne => ⟨mem_held hx hne, hsame x hx (ho.ptr_ne hx)⟩,
    fun x hx size he => absurd he (hno x hx size), fun x hx size he => absurd he (hno x hx size)⟩
  rw [held_of_ne hne]
  exact List.mem_cons_self ..

/-- The block of a live pointer, and what its address says about the others. -/
theorem Owned.block_of (ho : Owned s bs) {x : Allocation} (hx : x ∈ s.live) :
    ∃ b ∈ bs, b.free = false ∧ x.ptr = b.payload ∧ x.bytes ≤ b.size ∧
      ∀ c ∈ bs, c.payload ≠ b.payload → c.addr ≠ b.addr := by
  obtain ⟨b, hb, hused, hptr, -, hle⟩ := ho.live x hx
  refine ⟨b, hb, hused, hptr, hle, fun c _ hne he => hne ?_⟩
  rw [Block.payload, Block.payload, he]

theorem Owned.freeStep (ho : Owned s bs) {x : Allocation} (hx : x ∈ s.live) :
    ∃ bs', Owned ⟨free s.proc x.ptr, UserHeap.release s.live x.ptr⟩ bs' ∧
      Respects s ⟨free s.proc x.ptr, UserHeap.release s.live x.ptr⟩ (.free x.ptr) 0 := by
  obtain ⟨b, hb, -, hptr, -, hother⟩ := ho.block_of hx
  rw [hptr]
  obtain ⟨bs', hinv, hk, hbrk, -⟩ := ho.inv.free hb
  obtain ⟨hr, hsame⟩ := ho.release _ hinv hk hother
  exact ⟨bs', hr, Nat.le_of_eq hbrk.symm, fun hne => absurd rfl hne,
    fun y hy hne => ⟨mem_release.mpr ⟨hy, hne⟩, hsame y hy hne⟩, fun _ _ _ => nofun, fun _ _ _ => nofun⟩

theorem Owned.storeStep (ho : Owned s bs) {x : Allocation} (hx : x ∈ s.live) {offset : ℕ} (hoff : offset < x.bytes)
    (byte : UInt8) (hm : fill s.proc.mem (x.ptr + offset) 1 (fun _ => byte) = m) :
    Owned ⟨{ s.proc with mem := m }, s.live⟩ bs ∧
      Respects s ⟨{ s.proc with mem := m }, s.live⟩ (.store x.ptr offset byte) 0 := by
  subst hm
  obtain ⟨b, hb, -, hptr, hle, hother⟩ := ho.block_of hx
  obtain ⟨hinv, hk⟩ := ho.inv.writePayload hb (a := x.ptr + offset) (n := 1) (fun _ => byte) (by omega) (by omega)
  obtain ⟨-, hsame⟩ := ho.release _ hinv hk hother
  exact ⟨⟨hinv, ho.live, ho.distinct⟩, Nat.le_refl _, fun hne => absurd rfl hne,
    fun y hy hne => ⟨hy, hsame y hy (hptr ▸ hne)⟩, fun _ _ _ => nofun, fun _ _ _ => nofun⟩

theorem Owned.reallocStep (ho : Owned s bs) {x : Allocation} (hx : x ∈ s.live) {n : ℕ} (hn : n ≤ maxRequest)
    (pages : Pages) {r : Process × ℕ} (hr : realloc s.proc x.ptr n pages = r) :
    ∃ bs', Owned ⟨r.1, held s.live (.realloc x.ptr n) r.2⟩ bs' ∧
      Respects s ⟨r.1, held s.live (.realloc x.ptr n) r.2⟩ (.realloc x.ptr n) r.2 := by
  obtain ⟨b, hb, hused, hptr, hle, hother⟩ := ho.block_of hx
  obtain ⟨bs', hinv, hk, hbrk, -, hcase⟩ := ho.inv.realloc hb hused hn pages
  rw [← hptr, hr] at hinv hk hbrk hcase
  obtain ⟨hrel, hsame⟩ := ho.release _ hinv hk hother
  rw [← hptr] at hrel hsame
  have huniq : ∀ y ∈ s.live, ∀ size, Action.realloc x.ptr n = .realloc y.ptr size → y = x ∧ size = n := by
    intro y hy size he
    obtain ⟨hp, hsz⟩ := Action.realloc.inj he
    refine ⟨?_, hsz.symm⟩
    by_contra hne
    have hsymm : Std.Symm fun a b : Allocation => a.ptr ≠ b.ptr := ⟨fun _ _ => Ne.symm⟩
    exact ho.distinct.forall hx hy (Ne.symm hne) hp
  have hothers : ∀ y ∈ s.live, y.ptr ≠ x.ptr →
      y ∈ held s.live (.realloc x.ptr n) r.2 ∧ SameOn s.proc.mem r.1.mem y.ptr y.bytes :=
    fun y hy hne => ⟨mem_held hy hne, hsame y hy hne⟩
  have hresult : r.2 ≠ 0 → ⟨r.2, n⟩ ∈ held s.live (.realloc x.ptr n) r.2 := by
    intro hne
    rw [held_of_ne hne]
    exact List.mem_cons_self ..
  cases hcase with
  | freed hz hq =>
    have hheld : held s.live (.realloc x.ptr n) r.2 = UserHeap.release s.live x.ptr := by simp [held, hq, hz]
    refine ⟨bs', hheld ▸ hrel, hbrk, hresult, hothers, fun y hy size he hne => absurd hq hne, fun y hy size he hne => ?_⟩
    exact absurd ((huniq y hy size he).2.trans hz) hne
  | failed hz hq hb' hs =>
    have hheld : held s.live (.realloc x.ptr n) r.2 = s.live := by
      cases n with
      | zero => exact absurd rfl hz
      | succ n => simp [held, hq]
    have hlive : ∀ y ∈ s.live, ∃ c ∈ bs', c.free = false ∧ y.ptr = c.payload ∧ 0 < y.bytes ∧ y.bytes ≤ c.size := by
      intro y hy
      by_cases hyx : y.ptr = x.ptr
      · obtain ⟨c, hc, hcused, hcptr, hpos, hcle⟩ := ho.live y hy
        obtain rfl := ho.inv.tiling.placed.inj (by decide) hc hb (by
          rw [hyx, hptr] at hcptr
          unfold Block.payload at hcptr
          omega)
        exact ⟨c, hb', hcused, hcptr, hpos, hcle⟩
      · exact hrel.live y (mem_release.mpr ⟨hy, hyx⟩)
    refine ⟨bs', ⟨hinv, hheld.symm ▸ hlive, hheld.symm ▸ ho.distinct⟩, hbrk, hresult, hothers,
      fun y hy size he hne => absurd hq hne, fun y hy size he _ _ => ?_⟩
    obtain ⟨rfl, -⟩ := huniq y hy size he
    dsimp only
    rw [hheld, hptr]
    exact ⟨hx, hs.mono (Nat.le_refl _) (by omega)⟩
  | kept hz hq hfit hb' hs =>
    have hne : r.2 ≠ 0 := by
      rw [hq, ← hptr]
      exact ho.ptr_ne hx
    have hadd := hrel.add hb' hused (Nat.pos_iff_ne_zero.mpr hz) hfit fun y hy he =>
      (mem_release.mp hy).2 (he.symm.trans hptr.symm)
    have hheld : held s.live (.realloc x.ptr n) r.2 = ⟨b.payload, n⟩ :: UserHeap.release s.live x.ptr := by
      rw [held_of_ne hne, hq]
      rfl
    refine ⟨bs', hheld ▸ hadd, hbrk, hresult, hothers, fun y hy size he _ i hi => ?_,
      fun y hy size he _ hz' => absurd hz' hne⟩
    obtain ⟨rfl, -⟩ := huniq y hy size he
    rw [hq, hptr]
    exact hs _ (by omega) (by omega)
  | moved hq hs =>
    obtain ⟨hne, hadd⟩ := ho.addFresh hrel hq
    have hheld : held s.live (.realloc x.ptr n) r.2 = ⟨r.2, n⟩ :: UserHeap.release s.live x.ptr := held_of_ne hne
    refine ⟨bs', hheld ▸ hadd, hbrk, hresult, hothers, fun y hy size he _ i hi => ?_,
      fun y hy size he _ hz' => absurd hz' hne⟩
    obtain ⟨rfl, -⟩ := huniq y hy size he
    rw [hptr]
    exact hs i (by omega)

theorem Owned.step (ho : Owned s bs) (hf : Fits a) {pages : Pages} (hs : step s a pages = some s') :
    ∃ bs', Owned s' bs' ∧ Respects s s' a (serve s.proc pages a).2 := by
  unfold UserHeap.step at hs
  split at hs
  case isFalse => cases hs
  case isTrue hallowed =>
  obtain rfl := Option.some.inj hs
  cases a with
  | malloc size =>
    obtain ⟨bs', hinv, hk, hbrk, -, hq⟩ := ho.inv.malloc hf pages
    exact ⟨bs', ho.allocate rfl hinv hk hbrk hq⟩
  | calloc count size =>
    obtain ⟨bs', hinv, hk, hbrk, -, hq⟩ := ho.inv.calloc hf pages
    exact ⟨bs', ho.allocate rfl hinv hk hbrk hq⟩
  | realloc pointer size =>
    rcases hallowed.2 with rfl | ⟨x, hx, rfl⟩
    · obtain ⟨bs', hinv, hk, hbrk, -, hq⟩ := ho.inv.malloc hf pages
      have hserve : serve s.proc pages (.realloc 0 size) = malloc s.proc size pages := by simp [serve, UserHeap.realloc]
      rw [hserve]
      exact ⟨bs', ho.allocate rfl hinv hk hbrk hq⟩
    · exact ho.reallocStep hx hf pages rfl
  | free pointer =>
    rcases hallowed with rfl | ⟨x, hx, rfl⟩
    · have hserve : serve s.proc pages (.free 0) = (s.proc, 0) := by simp [serve, UserHeap.free]
      rw [hserve]
      exact ⟨bs, ho.allocate rfl ho.inv (fun c hc _ _ => ⟨hc, .refl _ _ _⟩) (Nat.le_refl _) (.inl rfl)⟩
    · exact ho.freeStep hx
  | store pointer offset byte =>
    obtain ⟨x, hx, rfl, hoff⟩ := hallowed
    exact ⟨bs, ho.storeStep hx hoff byte rfl⟩

open ReachableStates

/-- A call that asks for few enough bytes. -/
def FittingStep (s s' : State) : Prop := ∃ a pages, Fits a ∧ step s a pages = some s'

theorem owned_of_reachable (hr : Reachable Started FittingStep s) : ∃ bs, Owned s bs := by
  refine hr.invariant (P := fun s => ∃ bs, Owned s bs) ?_ ?_
  · rintro s ⟨hlive, hhead, hbrk, hstack, hmin, hlt⟩
    have hfloor : stackFloor s.proc = heapLimit := by
      unfold stackFloor
      rw [hstack]
      decide
    rw [hfloor, ← hbrk] at hlt
    exact ⟨[], ⟨hhead, trivial, hbrk.symm, hmin, hlt, hstack⟩, by simp [hlive], by simp [hlive]⟩
  · rintro s s' ⟨bs, ho⟩ ⟨a, pages, hf, hs⟩
    obtain ⟨bs', ho', -⟩ := ho.step hf hs
    exact ⟨bs', ho'⟩

/-- In every run of a process whose requests are for at most `maxRequest` bytes, wherever the kernel refuses to
give it more, the blocks fill the heap, what the process holds is inside, as large as it asked for and disjoint, no
call changes what another pointer is for, `realloc` preserves the contents, and the break does not go down. -/
theorem user_heap (hr : Reachable Started FittingStep s) :
    Contract s ∧ ∀ a pages s', Fits a → step s a pages = some s' →
      Contract s' ∧ Respects s s' a (serve s.proc pages a).2 := by
  obtain ⟨bs, ho⟩ := owned_of_reachable hr
  refine ⟨ho.contract, fun a pages s' hf hs => ?_⟩
  obtain ⟨bs', ho', hresp⟩ := ho.step hf hs
  exact ⟨ho'.contract, hresp⟩

/-- A process with its break at `0x40002000`. -/
def launched : State where
  proc := { mem := fun _ => 0, heapHead := 0, brkStart := 0x40002000, brk := 0x40002000, stackTop := userStackTop, userPages := 16 }
  live := []

theorem launched_started : Started launched := ⟨rfl, rfl, rfl, rfl, by decide, by decide⟩

instance (a : Action) : Decidable (Fits a) :=
  match a with
  | .malloc size => inferInstanceAs (Decidable (size ≤ maxRequest))
  | .realloc _ size => inferInstanceAs (Decidable (size ≤ maxRequest))
  | .calloc count size => inferInstanceAs (Decidable (count * size ≤ maxRequest ∨ u32 (count * size) = 0))
  | .free _ => .isTrue trivial
  | .store _ _ _ => .isTrue trivial

/-- A call that asks for few enough bytes, with zeroed pages. -/
def fittingStep (s : State) (a : Action) : Option State := if Fits a then step s a (some fun _ => 0) else none

/-- Two allocations, a byte written to the first, and the first enlarged. -/
theorem user_heap_sample :
    ∃ s, Reachable Started FittingStep s ∧ s.live = [⟨0x400020C0, 200⟩, ⟨0x40002088, 40⟩] ∧ Contract s := by
  have hrun : (follow fittingStep launched [.malloc 100, .calloc 4 10, .store 0x40002010 7 0xAB,
      .realloc 0x40002010 200]).map (fun s => (s.live, s.proc.mem 0x400020C7)) =
        some ([⟨0x400020C0, 200⟩, ⟨0x40002088, 40⟩], 0xAB) := by decide
  obtain ⟨s, hs, hl⟩ := Option.map_eq_some_iff.mp hrun
  have hr : Reachable Started FittingStep s := by
    refine Reachable.follow (fun s a s' hn => ?_) (.start launched_started) hs
    unfold fittingStep at hn
    split at hn
    · next hf => exact ⟨a, _, hf, hn⟩
    · cases hn
  exact ⟨s, hr, congrArg Prod.fst hl, (user_heap hr).1⟩

/-- `malloc(0xFFFFFFFF)` rounds its argument up to 0 and returns a block of no bytes. -/
theorem huge_request_granted :
    ∃ s, Reachable Started (fun s s' => ∃ a pages, step s a pages = some s') s ∧ ¬Contract s := by
  have hrun : (step launched (.malloc 0xFFFFFFFF) (some fun _ => 0)).map (fun s => (s.live, s.proc.brk)) =
      some ([⟨0x40002010, 0xFFFFFFFF⟩], 0x40012000) := by decide
  obtain ⟨s, hs, hl⟩ := Option.map_eq_some_iff.mp hrun
  obtain ⟨hlive, hbrk⟩ : s.live = [⟨0x40002010, 0xFFFFFFFF⟩] ∧ s.proc.brk = 0x40012000 := by simpa using hl
  refine ⟨s, .next (.start launched_started) ⟨_, _, hs⟩, fun hc => ?_⟩
  have hin := (hc.inside ⟨0x40002010, 0xFFFFFFFF⟩ (by simp [hlive])).2
  rw [hbrk] at hin
  exact absurd hin (by decide)

end SifarOS.UserHeapSafety
