import SifarOS.KernelHeap
import SifarOS.ReachableStates
import Mathlib.Data.List.Basic
import Mathlib.Data.List.Chain

/-! # The kernel heap keeps its blocks apart

The bytes of the heap stand for a list of blocks. Every call of the allocator turns one such list
into another and leaves the payloads alone that are not its own. -/
namespace SifarOS.KernelHeapSafety
open ByteMemory BlockList KernelHeap

/-- A block of this heap. -/
abbrev Block := BlockList.Block headerSize

/-- The header of `b` is in place, between the neighbours `p` and `n`. -/
structure HeaderAt (m : Memory) (b : Block) (p n : ℕ) : Prop where
  magic : header.get m b.addr .magic = blockMagic
  size : header.get m b.addr .size = b.size
  next : header.get m b.addr .next = n
  prev : header.get m b.addr .prev = p
  free : header.get m b.addr .free = if b.free then 1 else 0

variable {m m' : Memory} {b c d : Block} {pre post bs : List Block} {p q lo hi before after : ℕ}

theorem HeaderAt.frame (h : HeaderAt m b p q) (hs : SameOn m m' b.addr headerSize) : HeaderAt m' b p q where
  magic := (header.get_congr hs _).trans h.magic
  size := (header.get_congr hs _).trans h.size
  next := (header.get_congr hs _).trans h.next
  prev := (header.get_congr hs _).trans h.prev
  free := (header.get_congr hs _).trans h.free

instance : HeaderOnly HeaderAt := ⟨HeaderAt.frame⟩

theorem HeaderAt.free_iff (h : HeaderAt m b p q) : header.get m b.addr .free ≠ 0 ↔ b.free = true := by
  rw [h.free]
  cases b.free <;> simp

/-- The first block of a list gets another predecessor. -/
theorem linked_setPrev (before : ℕ) (h : Linked HeaderAt m before bs 0) (hp : Placed lo bs hi) (hlo : 0 < lo)
    (hq : q < 4294967296) :
    Linked HeaderAt (setPrev m (headAddr bs 0) q) q bs 0 := by
  cases bs with
  | nil => trivial
  | cons c bs =>
    have hc : c.addr ≠ 0 := by have := hp.1; omega
    have he : KernelHeap.setPrev m (headAddr (c :: bs) 0) q = header.set m c.addr .prev q := if_pos hc
    rw [he]
    refine ⟨⟨?_, ?_, ?_, ?_, ?_⟩, h.2.frame hp.2 (header.set_sameOn m _ _ (Or.inr ?_))⟩
    · rw [header.get_set_field _ _ _ (by decide)]
      exact h.1.magic
    · rw [header.get_set_field _ _ _ (by decide)]
      exact h.1.size
    · rw [header.get_set_field _ _ _ (by decide)]
      exact h.1.next
    · rw [header.get_set_self]
      exact Nat.mod_eq_of_lt hq
    · rw [header.get_set_field _ _ _ (by decide)]
      exact h.1.free
    · unfold Block.stop
      omega

/-- The members of a new free block, in the order in which `split` and `extend_heap` write them. -/
def newHeader (m : Memory) (r size next prev : ℕ) : Memory :=
  let m := header.set m r .magic blockMagic
  let m := header.set m r .size size
  let m := header.set m r .free 1
  let m := header.set m r .next next
  header.set m r .prev prev

theorem newHeader_sameOn (m : Memory) (size next prev : ℕ) {r a n : ℕ} (h : a + n ≤ r ∨ r + headerSize ≤ a) :
    SameOn m (newHeader m r size next prev) a n := by
  have h₁ := header.set_sameOn m .magic blockMagic h
  have h₂ := h₁.trans (header.set_sameOn _ .size size h)
  have h₃ := h₂.trans (header.set_sameOn _ .free 1 h)
  have h₄ := h₃.trans (header.set_sameOn _ .next next h)
  exact h₄.trans (header.set_sameOn _ .prev prev h)

theorem newHeader_headerAt (m : Memory) {r size next prev : ℕ} (hs : size < 4294967296) (hn : next < 4294967296)
    (hp : prev < 4294967296) : HeaderAt (newHeader m r size next prev) ⟨r, size, true⟩ prev next := by
  unfold newHeader
  constructor
  · dsimp only
    rw [header.get_set_field _ _ _ (by decide), header.get_set_field _ _ _ (by decide),
      header.get_set_field _ _ _ (by decide),
      header.get_set_field _ _ _ (by decide), header.get_set_self]
    rfl
  · dsimp only
    rw [header.get_set_field _ _ _ (by decide), header.get_set_field _ _ _ (by decide),
      header.get_set_field _ _ _ (by decide),
      header.get_set_self, Nat.mod_eq_of_lt hs]
  · dsimp only
    rw [header.get_set_field _ _ _ (by decide), header.get_set_self, Nat.mod_eq_of_lt hn]
  · dsimp only
    rw [header.get_set_self, Nat.mod_eq_of_lt hp]
  · dsimp only
    rw [header.get_set_field _ _ _ (by decide), header.get_set_field _ _ _ (by decide), header.get_set_self]
    rfl

/-! ## The invariant -/

/-- Of two neighbours one is in use. -/
def Alternate (bs : List Block) : Prop := bs.IsChain (fun b c => ¬(b.free = true ∧ c.free = true))

theorem alternate_focus : Alternate (pre ++ b :: post) ↔ Alternate pre ∧ Alternate post ∧
    (∀ c ∈ pre.getLast?, ¬(c.free = true ∧ b.free = true)) ∧ ∀ d ∈ post.head?, ¬(b.free = true ∧ d.free = true) := by
  unfold Alternate
  rw [List.isChain_append, List.isChain_cons]
  simp only [List.head?_cons, Option.mem_some_iff, forall_eq']
  tauto

/-- The bytes of the heap stand for the list `bs`. -/
structure Shape (h : Heap) (bs : List Block) : Prop where
  ne : bs ≠ []
  first : h.firstBlock = headAddr bs 0
  linked : Linked HeaderAt h.mem 0 bs 0
  placed : Placed heapBase bs h.heapEnd
  end_le : h.heapEnd ≤ heapBase + heapMaxSize
  bytes : h.heapBytes = h.heapEnd - heapBase

/-- What holds between two calls. -/
structure Inv (h : Heap) (bs : List Block) : Prop extends Shape h bs where
  alternate : Alternate bs

/-- The pointers of the blocks in use. -/
def pointers (bs : List Block) : List ℕ := (bs.filter fun b => !b.free).map Block.payload

@[simp] theorem pointers_nil : pointers [] = [] := rfl

@[simp] theorem pointers_append (bs bs' : List Block) : pointers (bs ++ bs') = pointers bs ++ pointers bs' := by
  simp [pointers]

theorem pointers_cons_free (bs : List Block) (h : b.free = true) : pointers (b :: bs) = pointers bs := by
  simp [pointers, h]

theorem pointers_cons_used (bs : List Block) (h : b.free = false) : pointers (b :: bs) = b.payload :: pointers bs := by
  simp [pointers, h]

/-- The bytes of the blocks, headers included. -/
def extent : List Block → ℕ
  | [] => 0
  | b :: bs => headerSize + b.size + extent bs

@[simp] theorem extent_nil : extent [] = 0 := rfl

@[simp] theorem extent_cons (b : Block) (bs : List Block) : extent (b :: bs) = headerSize + b.size + extent bs := rfl

@[simp] theorem extent_append (bs bs' : List Block) : extent (bs ++ bs') = extent bs + extent bs' := by
  induction bs with
  | nil => exact (Nat.zero_add _).symm
  | cons b bs ih => rw [List.cons_append, extent_cons, extent_cons, ih, Nat.add_assoc (headerSize + b.size)]

variable {h h' : Heap} {size : ℕ}

theorem Shape.blocks (hi : Shape h bs) : h.blocks = bs.map Block.addr := by
  have hl := hi.placed.length_le
  unfold Heap.blocks
  rw [hi.first]
  refine hi.linked.walk (fun _ _ _ h => h.next) hi.placed (by decide) ?_
  rw [hi.bytes]
  simp only [headerSize] at hl
  omega

theorem Shape.headerAt (hi : Shape h (pre ++ b :: post)) : HeaderAt h.mem b (lastAddr 0 pre) (headAddr post 0) :=
  (linked_focus.mp hi.linked).2.1

/-- Where the parts of the list lie. -/
theorem Shape.places (hi : Shape h (pre ++ b :: post)) :
    Placed heapBase pre b.addr ∧ Placed b.stop post h.heapEnd ∧ heapBase ≤ b.addr ∧
      b.addr + headerSize + b.size ≤ h.heapEnd ∧ h.heapEnd ≤ heapBase + heapMaxSize := by
  obtain ⟨h₁, h₂⟩ := placed_focus.mp hi.placed
  exact ⟨h₁, h₂, h₁.le, h₂.le, hi.end_le⟩

/-- A new list around the address of `b`, from what was written there. -/
theorem Shape.rebuild (hi : Shape h (pre ++ b :: post)) {b' : Block} {post' : List Block} (haddr : b'.addr = b.addr)
    (hpre : SameOn h.mem m heapBase (b.addr - heapBase)) (hhead : HeaderAt m b' (lastAddr 0 pre) (headAddr post' 0))
    (hpost : Linked HeaderAt m b'.addr post' 0) (hplaced : Placed b'.stop post' h.heapEnd) :
    Shape { h with mem := m } (pre ++ b' :: post') where
  ne := by simp
  first := by
    have hf := hi.first
    cases pre with
    | nil => exact hf.trans haddr.symm
    | cons c pre => exact hf
  linked := by
    obtain ⟨h₁, -, -⟩ := linked_focus.mp hi.linked
    refine linked_focus.mpr ⟨?_, hhead, hpost⟩
    rw [haddr]
    exact h₁.frame hi.places.1 hpre
  placed := placed_focus.mpr ⟨haddr ▸ hi.places.1, hplaced⟩
  end_le := hi.end_le
  bytes := hi.bytes

/-- The payloads of the other blocks are apart from the extent of `b` and from the header behind it. -/
theorem Shape.others (hi : Shape h (pre ++ b :: post)) (hc : c ∈ pre ++ b :: post) (hne : c.addr ≠ b.addr) :
    c ∈ pre ∧ c.payload + c.size ≤ b.addr ∨
      c ∈ post ∧ b.stop ≤ c.payload ∧ headAddr post 0 + headerSize ≤ c.payload := by
  obtain ⟨h₁, h₂, -⟩ := hi.places
  rcases List.mem_append.mp hc with hc | hc
  · exact Or.inl ⟨hc, (h₁.mem hc).2⟩
  · rcases List.mem_cons.mp hc with rfl | hc
    · exact absurd rfl hne
    · refine Or.inr ⟨hc, ?_, ?_⟩
      · have := (h₂.mem hc).1
        unfold Block.payload
        omega
      · cases post with
        | nil => cases hc
        | cons d post =>
          rcases List.mem_cons.mp hc with rfl | hc
          · exact le_rfl
          · have := (h₂.2.mem hc).1
            have hd : headAddr (d :: post) 0 = d.addr := rfl
            unfold Block.stop at this
            unfold Block.payload
            omega

/-! ## Taking a block -/

/-- The end of `kmalloc`, for a block that is not split. -/
theorem Shape.setFree (hi : Shape h (pre ++ b :: post)) (free : Bool) {v : ℕ} (hv : v = if free then 1 else 0) :
    Shape { h with mem := header.set h.mem b.addr .free v } (pre ++ { b with free := free } :: post) := by
  obtain ⟨h₁, h₂, h₃, h₄, h₅⟩ := hi.places
  obtain ⟨-, hhead, hpost⟩ := linked_focus.mp hi.linked
  refine hi.rebuild rfl (header.set_sameOn _ _ _ (Or.inl (by omega))) ?_ ?_ h₂
  · constructor
    · exact (header.get_set_field _ _ _ (by decide)).trans hhead.magic
    · exact (header.get_set_field _ _ _ (by decide)).trans hhead.size
    · exact (header.get_set_field _ _ _ (by decide)).trans hhead.next
    · exact (header.get_set_field _ _ _ (by decide)).trans hhead.prev
    · dsimp only
      rw [header.get_set_self, hv]
      cases free <;> rfl
  · exact hpost.frame h₂ (header.set_sameOn _ _ _ (Or.inr (by unfold Block.stop; omega)))

/-- `split` in one piece, where nothing overlaps or wraps around. -/
theorem split_eq {a : ℕ} (hbig : size + headerSize + minSplit ≤ header.get m a .size)
    (hend : a + headerSize + header.get m a .size < 4294967296) :
    KernelHeap.split m a size =
      header.set (header.set (setPrev
        (newHeader m (a + headerSize + size) (header.get m a .size - size - headerSize) (header.get m a .next) a)
        (header.get m a .next) (a + headerSize + size)) a .next (a + headerSize + size)) a .size size := by
  have hsum : u32 (size + headerSize + minSplit) = size + headerSize + minSplit := by
    simp only [u32, headerSize, minSplit] at *
    omega
  have hrest : u32 (a + headerSize + size) = a + headerSize + size := by
    simp only [u32, headerSize, minSplit] at *
    omega
  have hsub : sub32 (sub32 (header.get m a .size) size) headerSize = header.get m a .size - size - headerSize := by
    simp only [sub32, headerSize, minSplit] at *
    omega
  have hoff : a + headerSize ≤ a + headerSize + size := by omega
  unfold KernelHeap.split newHeader
  rw [hsum, if_neg (by omega)]
  simp only [hrest, header.get_set_block _ _ _ _ (Or.inl hoff), hsub]

/-- `split`, when the block is large enough for it. -/
theorem Shape.split (hi : Shape h (pre ++ b :: post)) (hbig : size + headerSize + minSplit ≤ b.size) :
    Shape { h with mem := KernelHeap.split h.mem b.addr size }
      (pre ++ { b with size := size } :: ⟨b.addr + headerSize + size, b.size - size - headerSize, true⟩ :: post) ∧
    ∀ c ∈ pre ++ b :: post, c.addr ≠ b.addr →
      SameOn h.mem (KernelHeap.split h.mem b.addr size) c.payload c.size := by
  obtain ⟨h₁, h₂, h₃, h₄, h₅⟩ := hi.places
  obtain ⟨-, hhead, hpost⟩ := linked_focus.mp hi.linked
  have hmax : heapBase + heapMaxSize < 4294967296 := by decide
  have hpos : 0 < heapBase := by decide
  have hnext : headAddr post 0 = 0 ∨ b.stop ≤ headAddr post 0 := by
    cases post with
    | nil => exact Or.inl rfl
    | cons d post => exact Or.inr h₂.1
  unfold Block.stop at hnext
  rw [split_eq (by rw [hhead.size]; exact hbig) (by rw [hhead.size]; omega), hhead.size, hhead.next]
  generalize hr : b.addr + headerSize + size = r
  generalize hm₁ : newHeader h.mem r (b.size - size - headerSize) (headAddr post 0) b.addr = m₁
  generalize hm₂ : setPrev m₁ (headAddr post 0) r = m₂
  have hlow : ∀ {x k : ℕ}, x + k ≤ r → x + k ≤ b.stop → SameOn h.mem m₂ x k := by
    intro x k hx hk
    unfold Block.stop at hk
    rw [← hm₂]
    refine SameOn.trans (hm₁ ▸ newHeader_sameOn _ _ _ _ (Or.inl hx)) (setPrev_sameOn _ _ ?_)
    omega
  have hset : ∀ {x k : ℕ}, x + k ≤ b.addr ∨ b.addr + headerSize ≤ x →
      SameOn m₂ (header.set (header.set m₂ b.addr .next r) b.addr .size size) x k := fun hx =>
    (header.set_sameOn _ _ _ hx).trans (header.set_sameOn _ _ _ hx)
  have hrlt : r < 4294967296 := by
    unfold minSplit at hbig
    omega
  have hrest : HeaderAt m₂ ⟨r, b.size - size - headerSize, true⟩ b.addr (headAddr post 0) := by
    have hn : headAddr post 0 < 4294967296 := by
      rw [← hhead.next]
      exact header.get_lt _ _ _
    have hnew := newHeader_headerAt h.mem (r := r) (show b.size - size - headerSize < 4294967296 by omega) hn
      (show b.addr < 4294967296 by omega)
    rw [hm₁] at hnew
    rw [← hm₂]
    refine hnew.frame (setPrev_sameOn _ _ ?_)
    dsimp only
    unfold minSplit at hbig
    omega
  have hpost₂ : Linked HeaderAt m₂ r post 0 := by
    rw [← hm₂]
    refine linked_setPrev b.addr ?_ h₂ (by unfold Block.stop; omega) hrlt
    refine hpost.frame h₂ (hm₁ ▸ newHeader_sameOn _ _ _ _ (Or.inr ?_))
    unfold Block.stop minSplit at *
    omega
  have hb₂ : ∀ f, header.get m₂ b.addr f = header.get h.mem b.addr f := by
    intro f
    refine header.get_congr (hlow ?_ ?_) f
    · omega
    · unfold Block.stop
      omega
  constructor
  · refine hi.rebuild rfl ((hlow ?_ ?_).trans (hset ?_)) ?_ ?_ ?_
    · omega
    · unfold Block.stop
      omega
    · omega
    · constructor
      · rw [header.get_set_field _ _ _ (by decide), header.get_set_field _ _ _ (by decide), hb₂]
        exact hhead.magic
      · rw [header.get_set_self, Nat.mod_eq_of_lt (by omega)]
      · rw [header.get_set_field _ _ _ (by decide), header.get_set_self]
        exact Nat.mod_eq_of_lt hrlt
      · rw [header.get_set_field _ _ _ (by decide), header.get_set_field _ _ _ (by decide), hb₂]
        exact hhead.prev
      · rw [header.get_set_field _ _ _ (by decide), header.get_set_field _ _ _ (by decide), hb₂]
        exact hhead.free
    · refine ⟨hrest.frame (hset (Or.inr ?_)), hpost₂.frame h₂ (hset (Or.inr ?_))⟩
      · dsimp only
        omega
      · unfold Block.stop
        omega
    · refine ⟨?_, h₂.mono ?_ le_rfl⟩
      · unfold Block.stop
        dsimp only
        omega
      · unfold Block.stop minSplit at *
        dsimp only
        omega
  · intro c hc hne
    rcases hi.others hc hne with ⟨-, hlt⟩ | ⟨-, hlt, hlt'⟩
    · refine (hlow ?_ ?_).trans (hset (Or.inl hlt))
      · omega
      · unfold Block.stop
        omega
    · unfold Block.stop at hlt
      refine SameOn.trans ?_ (hset (Or.inr (by omega)))
      rw [← hm₂]
      refine SameOn.trans (hm₁ ▸ newHeader_sameOn _ _ _ _ (Or.inr ?_)) (setPrev_sameOn _ _ (fun _ => Or.inr hlt'))
      unfold minSplit at hbig
      omega

/-! ## Giving a block back -/

/-- The block that `b` and its successor `n` become. A gap between the two is lost at the end. -/
def Block.join (b n : Block) : Block := { b with size := b.size + headerSize + n.size }

theorem extent_join (b n : Block) (bs : List Block) : extent (b.join n :: bs) = extent (b :: n :: bs) := by
  simp only [extent_cons, Block.join]
  omega

theorem Shape.absorb (hi : Shape h (pre ++ b :: d :: post)) :
    Shape { h with mem := KernelHeap.absorb h.mem b.addr d.addr } (pre ++ b.join d :: post) ∧
    ∀ c ∈ pre ++ b :: d :: post, c.addr ≠ b.addr → c.addr ≠ d.addr →
      SameOn h.mem (KernelHeap.absorb h.mem b.addr d.addr) c.payload c.size := by
  obtain ⟨h₁, ⟨h₂, hplaced⟩, h₃, h₄, h₅⟩ := hi.places
  obtain ⟨-, hhead, hheadn, hpost⟩ := linked_focus.mp hi.linked
  have hmax : heapBase + heapMaxSize < 4294967296 := by decide
  have hpos : 0 < heapBase := by decide
  have hdstop := hplaced.le
  have hnext : headAddr post 0 = 0 ∨ d.stop ≤ headAddr post 0 := by
    cases post with
    | nil => exact Or.inl rfl
    | cons e post => exact Or.inr hplaced.1
  unfold Block.stop at h₂ hdstop hnext
  have hoff : b.addr + headerSize ≤ d.addr := by omega
  unfold KernelHeap.absorb
  simp only [header.get_set_block _ _ _ _ (Or.inr hoff)]
  rw [hhead.size, hheadn.size, hheadn.next]
  generalize hm₁ :
    header.set (header.set h.mem b.addr .size (b.size + headerSize + d.size)) b.addr .next (headAddr post 0) = m₁
  have hset : ∀ {x k : ℕ}, x + k ≤ b.addr ∨ b.addr + headerSize ≤ x → SameOn h.mem m₁ x k := by
    intro x k hx
    rw [← hm₁]
    exact (header.set_sameOn _ _ _ hx).trans (header.set_sameOn _ _ _ hx)
  have hn : headAddr post 0 < 4294967296 := by
    rw [← hheadn.next]
    exact header.get_lt _ _ _
  have hjoin : HeaderAt m₁ (b.join d) (lastAddr 0 pre) (headAddr post 0) := by
    rw [← hm₁]
    constructor
    · refine (header.get_set_field _ _ _ (by decide)).trans ?_
      exact (header.get_set_field _ _ _ (by decide)).trans hhead.magic
    · refine (header.get_set_field _ _ _ (by decide)).trans ?_
      refine (header.get_set_self _ _ _ _).trans (Nat.mod_eq_of_lt ?_)
      omega
    · exact (header.get_set_self _ _ _ _).trans (Nat.mod_eq_of_lt hn)
    · refine (header.get_set_field _ _ _ (by decide)).trans ?_
      exact (header.get_set_field _ _ _ (by decide)).trans hhead.prev
    · refine (header.get_set_field _ _ _ (by decide)).trans ?_
      exact (header.get_set_field _ _ _ (by decide)).trans hhead.free
  constructor
  · refine hi.rebuild rfl ?_ ?_ ?_ (hplaced.mono ?_ le_rfl)
    · refine (hset (Or.inl (by omega))).trans (setPrev_sameOn _ _ ?_)
      omega
    · refine hjoin.frame (setPrev_sameOn _ _ ?_)
      simp only [Block.join]
      omega
    · refine linked_setPrev d.addr (hpost.frame hplaced (hset (Or.inr ?_))) hplaced ?_ ?_
      · unfold Block.stop
        omega
      · unfold Block.stop
        omega
      · omega
    · simp only [Block.stop, Block.join]
      omega
  · intro c hc hne hne'
    rcases hi.others hc hne with ⟨-, hlt⟩ | ⟨hc, hlt, -⟩
    · refine (hset (Or.inl hlt)).trans (setPrev_sameOn _ _ ?_)
      omega
    · unfold Block.stop at hlt
      refine (hset (Or.inr (by omega))).trans (setPrev_sameOn _ _ (fun hne₀ => Or.inr ?_))
      rcases List.mem_cons.mp hc with rfl | hc
      · exact absurd rfl hne'
      · cases post with
        | nil => cases hc
        | cons e post =>
          have he : headAddr (e :: post) 0 = e.addr := rfl
          rcases List.mem_cons.mp hc with rfl | hc
          · exact le_rfl
          · have := (hplaced.2.mem hc).1
            unfold Block.stop at this
            unfold Block.payload
            omega

/-- The two halves of `coalesce`. -/
def coalesceNext (m : Memory) (b : ℕ) : Memory :=
  if header.get m b .next ≠ 0 ∧ header.get m (header.get m b .next) .free ≠ 0 then
    KernelHeap.absorb m b (header.get m b .next)
  else m

def coalescePrev (m : Memory) (b : ℕ) : Memory :=
  if header.get m b .prev ≠ 0 ∧ header.get m (header.get m b .prev) .free ≠ 0 then
    KernelHeap.absorb m (header.get m b .prev) b
  else m

/-- A free successor is taken in. -/
theorem Shape.coalesceNext (hi : Shape h (pre ++ b :: post)) :
    ∃ b' post', Shape { h with mem := coalesceNext h.mem b.addr } (pre ++ b' :: post') ∧
      b'.addr = b.addr ∧ b'.free = b.free ∧ extent (b' :: post') = extent (b :: post) ∧
      (post' = post ∧ (∀ d ∈ post.head?, d.free = false) ∨ ∃ d, post = d :: post' ∧ d.free = true) ∧
      ∀ c ∈ pre ++ b :: post, c.free = false → c.addr ≠ b.addr →
        SameOn h.mem (coalesceNext h.mem b.addr) c.payload c.size := by
  have hhead := hi.headerAt
  unfold KernelHeapSafety.coalesceNext
  rw [hhead.next]
  cases post with
  | nil =>
    rw [if_neg (fun hc => hc.1 rfl)]
    exact ⟨b, [], hi, rfl, rfl, rfl, Or.inl ⟨rfl, by simp⟩, fun c _ _ _ => SameOn.refl _ _ _⟩
  | cons d post =>
    have hheadn := (linked_focus.mp hi.linked).2.2.1
    have hd : headAddr (d :: post) 0 = d.addr := rfl
    have hpos : 0 < heapBase := by decide
    have hd₀ : d.addr ≠ 0 := by
      have := (hi.placed.mem (b := d) (by simp)).1
      omega
    rw [hd]
    split
    · rename_i hc
      have hfree := hheadn.free_iff.mp hc.2
      obtain ⟨hs, hk⟩ := hi.absorb
      refine ⟨b.join d, post, hs, rfl, rfl, extent_join b d post, Or.inr ⟨d, rfl, hfree⟩, fun c hc hu hne => hk c hc hne ?_⟩
      intro he
      rw [hi.placed.inj (by decide) hc (by simp) he, hfree] at hu
      cases hu
    · rename_i hc
      refine ⟨b, d :: post, hi, rfl, rfl, rfl, Or.inl ⟨rfl, ?_⟩, fun c _ _ _ => SameOn.refl _ _ _⟩
      intro e he
      obtain rfl : d = e := by simpa using he
      have hnot : ¬d.free = true := fun hf => hc ⟨hd₀, hheadn.free_iff.mpr hf⟩
      simpa using hnot

/-- A free predecessor takes the block in. -/
theorem Shape.coalescePrev (hi : Shape h (pre ++ b :: post)) (hb : b.free = true) :
    ∃ (b' : Block) (pre' : List Block), Shape { h with mem := coalescePrev h.mem b.addr } (pre' ++ b' :: post) ∧ b'.free = true ∧
      extent (pre' ++ b' :: post) = extent (pre ++ b :: post) ∧
      (pre' = pre ∧ (∀ c ∈ pre.getLast?, c.free = false) ∨ ∃ c, pre = pre' ++ [c] ∧ c.free = true) ∧
      ∀ c ∈ pre ++ b :: post, c.free = false →
        SameOn h.mem (coalescePrev h.mem b.addr) c.payload c.size := by
  have hhead := hi.headerAt
  unfold KernelHeapSafety.coalescePrev
  rw [hhead.prev]
  rcases List.eq_nil_or_concat pre with rfl | ⟨pre', p, rfl⟩
  · rw [if_neg (fun hc => hc.1 rfl)]
    exact ⟨b, [], hi, hb, rfl, Or.inl ⟨rfl, by simp⟩, fun c _ _ => SameOn.refl _ _ _⟩
  · rw [List.concat_eq_append] at *
    have hi' : Shape h (pre' ++ p :: b :: post) := by simpa using hi
    have hheadp := hi'.headerAt
    have hpos : 0 < heapBase := by decide
    have hp₀ : p.addr ≠ 0 := by
      have := (hi.placed.mem (b := p) (by simp)).1
      omega
    rw [lastAddr_concat]
    split
    · rename_i hc
      have hfree := hheadp.free_iff.mp hc.2
      obtain ⟨hs, hk⟩ := hi'.absorb
      have hextent : extent (pre' ++ p.join b :: post) = extent (pre' ++ [p] ++ b :: post) := by
        rw [extent_append, extent_join, List.append_assoc, extent_append]
        rfl
      refine ⟨p.join b, pre', hs, hfree, hextent, Or.inr ⟨p, rfl, hfree⟩, fun c hc hu => hk c (by simpa using hc) ?_ ?_⟩
      · intro he
        rw [hi.placed.inj (by decide) hc (by simp) he, hfree] at hu
        cases hu
      · intro he
        rw [hi.placed.inj (by decide) hc (by simp) he, hb] at hu
        cases hu
    · rename_i hc
      refine ⟨b, pre' ++ [p], hi, hb, rfl, Or.inl ⟨rfl, ?_⟩, fun c _ _ => SameOn.refl _ _ _⟩
      intro e he
      obtain rfl : p = e := by simpa using he
      have hnot : ¬p.free = true := fun hf => hc ⟨hp₀, hheadp.free_iff.mpr hf⟩
      simpa using hnot

/-- `kfree` of a block in use. -/
theorem Inv.kfree (hi : Inv h bs) (hb : b ∈ bs) (hused : b.free = false) :
    ∃ h' bs', kfree h b.payload = some h' ∧ Inv h' bs' ∧ Keeps h.mem h'.mem bs bs' b.addr ∧
      (pointers bs).Perm (b.payload :: pointers bs') ∧ extent bs' = extent bs := by
  obtain ⟨pre, post, rfl⟩ := List.append_of_mem hb
  obtain ⟨hpre, hpost, -, -⟩ := alternate_focus.mp hi.alternate
  have hhead := hi.headerAt
  obtain ⟨-, -, h₃, h₄, h₅⟩ := hi.places
  have hmax : heapBase + heapMaxSize < 4294967296 := by decide
  have hsub : sub32 b.payload headerSize = b.addr := by
    unfold sub32 Block.payload headerSize at *
    omega
  have hne : b.payload ≠ 0 := by
    unfold Block.payload headerSize
    omega
  have hnot : ¬header.get h.mem b.addr .free ≠ 0 := by
    rw [hhead.free_iff, hused]
    simp
  have hs₁ := hi.setFree true (v := 1) rfl
  obtain ⟨b₂, post₂, hs₂, haddr₂, hfree₂, hextent₂, hpost₂, hk₂⟩ := hs₁.coalesceNext
  dsimp only at haddr₂ hs₂ hk₂
  obtain ⟨b₃, pre₃, hs₃, hfree₃, hextent₃, hpre₃, hk₃⟩ := hs₂.coalescePrev hfree₂
  rw [haddr₂] at hs₃ hk₃
  refine ⟨_, pre₃ ++ b₃ :: post₂, ?_, ⟨hs₃, ?_⟩, ?_, ?_, ?_⟩
  · unfold KernelHeap.kfree
    rw [if_neg hne, hsub, if_neg (fun hc => hc hhead.magic), if_neg hnot]
    rfl
  · refine alternate_focus.mpr ⟨?_, ?_, ?_, ?_⟩
    · rcases hpre₃ with ⟨rfl, -⟩ | ⟨c, rfl, -⟩
      · exact hpre
      · exact hpre.left_of_append
    · rcases hpost₂ with ⟨rfl, -⟩ | ⟨d, rfl, -⟩
      · exact hpost
      · exact (List.isChain_cons.mp hpost).2
    · intro c hc hcf
      rcases hpre₃ with ⟨rfl, hl⟩ | ⟨p, rfl, hp⟩
      · rw [hl c hc] at hcf
        cases hcf.1
      · exact (List.isChain_append.mp hpre).2.2 c hc p (by simp) ⟨hcf.1, hp⟩
    · intro d hd hdf
      rcases hpost₂ with ⟨rfl, hl⟩ | ⟨e, rfl, he⟩
      · rw [hl d hd] at hdf
        cases hdf.2
      · exact (List.isChain_cons.mp hpost).1 d hd ⟨he, hdf.2⟩
  · intro c hc hcu hca
    -- the freed block is in neither part of the list, so `c` is a block of `pre` or of `post`
    have hside : c ∈ pre ∨ c ∈ post := by
      rcases List.mem_append.mp hc with hc | hc
      · exact Or.inl hc
      · rcases List.mem_cons.mp hc with rfl | hc
        · exact absurd rfl hca
        · exact Or.inr hc
    have hin₁ : c ∈ pre ++ { b with free := true } :: post := by
      rcases hside with hc | hc <;> simp [hc]
    have hin₂ : c ∈ pre ∨ c ∈ post₂ := by
      refine hside.imp_right (fun hc => ?_)
      rcases hpost₂ with ⟨rfl, -⟩ | ⟨d, rfl, hd⟩
      · exact hc
      · rcases List.mem_cons.mp hc with rfl | hc
        · rw [hcu] at hd
          cases hd
        · exact hc
    have hin₃ : c ∈ pre₃ ∨ c ∈ post₂ := by
      refine hin₂.imp_left (fun hc => ?_)
      rcases hpre₃ with ⟨rfl, -⟩ | ⟨p, rfl, hp⟩
      · exact hc
      · rcases List.mem_append.mp hc with hc | hc
        · exact hc
        · obtain rfl := List.mem_singleton.mp hc
          rw [hcu] at hp
          cases hp
    refine ⟨by rcases hin₃ with hc | hc <;> simp [hc], ?_⟩
    have hset : SameOn h.mem (header.set h.mem b.addr .free 1) c.payload c.size := by
      refine header.set_sameOn _ _ _ ?_
      rcases hi.others hc hca with ⟨-, hlt⟩ | ⟨-, hlt, -⟩
      · exact Or.inl hlt
      · unfold Block.stop at hlt
        exact Or.inr (by omega)
    have hin₄ : c ∈ pre ++ b₂ :: post₂ := by
      rcases hin₂ with hc | hc <;> simp [hc]
    have hc₂ := hk₂ c hin₁ hcu hca
    have hc₃ := hk₃ c hin₄ hcu
    dsimp only at hc₃ ⊢
    exact (hset.trans hc₂).trans hc₃
  · have hpost : pointers post₂ = pointers post := by
      rcases hpost₂ with ⟨rfl, -⟩ | ⟨d, rfl, hd⟩
      · rfl
      · rw [pointers_cons_free _ hd]
    have hpre : pointers pre₃ = pointers pre := by
      rcases hpre₃ with ⟨rfl, -⟩ | ⟨p, rfl, hp⟩
      · rfl
      · rw [pointers_append, pointers_cons_free _ hp, pointers_nil, List.append_nil]
    rw [pointers_append, pointers_append, pointers_cons_used _ hused, pointers_cons_free _ hfree₃, hpre, hpost]
    exact List.perm_middle
  · rw [hextent₃, extent_append, hextent₂, extent_append]
    rfl

/-! ## Growing -/

/-- `k` bytes have been mapped at the end of the heap. -/
structure Grown (h h' : Heap) (k : ℕ) : Prop where
  first : h'.firstBlock = h.firstBlock
  heapEnd : h'.heapEnd = h.heapEnd + k
  bytes : h'.heapBytes = h.heapBytes + k
  mem : ∀ {a n : ℕ}, a + n ≤ h.heapEnd → SameOn h.mem h'.mem a n

theorem Grown.refl (h : Heap) : Grown h h 0 := ⟨rfl, rfl, rfl, fun _ => SameOn.refl _ _ _⟩

theorem Grown.trans {h'' : Heap} {k k' : ℕ} (hg : Grown h h' k) (hg' : Grown h' h'' k') : Grown h h'' (k + k') where
  first := hg'.first.trans hg.first
  heapEnd := by rw [hg'.heapEnd, hg.heapEnd, Nat.add_assoc]
  bytes := by rw [hg'.bytes, hg.bytes, Nat.add_assoc]
  mem := fun ha => (hg.mem ha).trans (hg'.mem (by rw [hg.heapEnd]; omega))

/-- The loop maps the pages it is given, or stops at the first that fails. -/
theorem growLoop_grown (supply : Supply) (pages i : ℕ) (h : Heap) (hb : h.heapBytes ≤ h.heapEnd)
    (hend : h.heapEnd + pages * pageSize < 4294967296) :
    ∃ k, Grown h (growLoop supply pages i h).1 k ∧ k ≤ pages * pageSize ∧
      ((growLoop supply pages i h).2 = true → k = pages * pageSize) := by
  induction pages generalizing i h with
  | zero => exact ⟨0, Grown.refl h, by omega, fun _ => by omega⟩
  | succ pages ih =>
    unfold growLoop
    simp only [pageSize] at *
    split
    · exact ⟨0, Grown.refl h, by omega, fun hc => by cases hc⟩
    · rename_i page _
      have hu : u32 (h.heapEnd + 4096) = h.heapEnd + 4096 := Nat.mod_eq_of_lt (by omega)
      have hu' : u32 (h.heapBytes + 4096) = h.heapBytes + 4096 := Nat.mod_eq_of_lt (by omega)
      rw [hu, hu']
      obtain ⟨k, hg, hk, hk'⟩ := ih (i + 1)
        { h with mem := fill h.mem h.heapEnd 4096 page, heapEnd := h.heapEnd + 4096, heapBytes := h.heapBytes + 4096 }
        (by dsimp only; omega) (by dsimp only; omega)
      have hone : Grown h { h with
          mem := fill h.mem h.heapEnd 4096 page
          heapEnd := h.heapEnd + 4096
          heapBytes := h.heapBytes + 4096 } 4096 :=
        ⟨rfl, rfl, rfl, fun ha => fill_sameOn _ _ (Or.inl ha)⟩
      exact ⟨4096 + k, hone.trans hg, by omega, fun ht => by have := hk' ht; omega⟩

/-- `grow` for a number of bytes that is itself a whole number of pages. -/
theorem grow_grown (supply : Supply) (pages : ℕ) (h : Heap) (hb : h.heapBytes ≤ h.heapEnd)
    (hend : h.heapEnd ≤ heapBase + heapMaxSize) (hp : pages ≤ 32768) :
    ∃ k, Grown h (grow h (pages * pageSize) supply).1 k ∧ h.heapEnd + k ≤ heapBase + heapMaxSize ∧
      ((grow h (pages * pageSize) supply).2 = true → k = pages * pageSize) := by
  have hmax : heapBase + heapMaxSize = 3556769792 := by decide
  have hpages : alignUp (pages * pageSize) pageSize / pageSize = pages := by
    simp only [alignUp, u32, pageSize]
    omega
  unfold grow
  simp only [hpages]
  split
  · exact ⟨0, Grown.refl h, hend, fun hc => by cases hc⟩
  · rename_i hfit
    simp only [u32, pageSize] at hfit
    have hlt : h.heapEnd + pages * pageSize ≤ heapBase + heapMaxSize := by
      unfold pageSize
      omega
    obtain ⟨k, hg, hk, hk'⟩ := growLoop_grown supply pages 0 h hb (by omega)
    exact ⟨k, hg, by omega, hk'⟩

theorem Shape.grown {k : ℕ} (hi : Shape h bs) (hg : Grown h h' k) (hend : h.heapEnd + k ≤ heapBase + heapMaxSize) :
    Shape h' bs where
  ne := hi.ne
  first := hg.first.trans hi.first
  linked := hi.linked.frame hi.placed (hg.mem (by have := hi.placed.le; omega))
  placed := hi.placed.mono le_rfl (by rw [hg.heapEnd]; omega)
  end_le := by rw [hg.heapEnd]; exact hend
  bytes := by
    have := hi.placed.le
    rw [hg.bytes, hi.bytes, hg.heapEnd]
    omega

theorem Shape.keeps_grown {k : ℕ} (hi : Shape h bs) (hg : Grown h h' k) (own : ℕ) : Keeps h.mem h'.mem bs bs own :=
  fun _ hc _ _ => ⟨hc, hg.mem (hi.placed.mem hc).2⟩

/-- The last block gets the new bytes. -/
theorem Shape.stretch {k : ℕ} (hi : Shape h (pre ++ [b])) (hfit : b.stop + k ≤ h.heapEnd) :
    Shape { h with mem := header.set h.mem b.addr .size (b.size + k) } (pre ++ [{ b with size := b.size + k }]) := by
  obtain ⟨h₁, -, h₃, h₄, h₅⟩ := hi.places
  have hmax : heapBase + heapMaxSize < 4294967296 := by decide
  have hhead := hi.headerAt
  unfold Block.stop at hfit
  refine hi.rebuild rfl (header.set_sameOn _ _ _ (Or.inl (by omega))) ?_ trivial ?_
  · constructor
    · exact (header.get_set_field _ _ _ (by decide)).trans hhead.magic
    · exact (header.get_set_self _ _ _ _).trans (Nat.mod_eq_of_lt (by omega))
    · exact (header.get_set_field _ _ _ (by decide)).trans hhead.next
    · exact (header.get_set_field _ _ _ (by decide)).trans hhead.prev
    · exact (header.get_set_field _ _ _ (by decide)).trans hhead.free
  · simp only [Placed, Block.stop]
    omega

/-- A new block at `r` behind the last one. -/
theorem Shape.append {r k : ℕ} (hi : Shape h (pre ++ [b])) (hr : b.stop ≤ r) (hk : headerSize ≤ k)
    (hfit : r + k ≤ h.heapEnd) :
    Shape { h with mem := header.set (newHeader h.mem r (k - headerSize) 0 b.addr) b.addr .next r }
      (pre ++ [b, ⟨r, k - headerSize, true⟩]) := by
  obtain ⟨h₁, -, h₃, h₄, h₅⟩ := hi.places
  have hmax : heapBase + heapMaxSize < 4294967296 := by decide
  have hhead := hi.headerAt
  have hoff : b.addr + headerSize ≤ r := by
    unfold Block.stop at hr
    omega
  have hkeep : ∀ {x n : ℕ}, x + n ≤ b.addr → SameOn h.mem
      (header.set (newHeader h.mem r (k - headerSize) 0 b.addr) b.addr .next r) x n := by
    intro x n hx
    exact (newHeader_sameOn _ _ _ _ (Or.inl (by omega))).trans (header.set_sameOn _ _ _ (Or.inl hx))
  have hb : ∀ f, header.get (newHeader h.mem r (k - headerSize) 0 b.addr) b.addr f = header.get h.mem b.addr f := fun f =>
    header.get_congr (newHeader_sameOn _ _ _ _ (Or.inl hoff)) f
  refine hi.rebuild rfl (hkeep (by omega)) ?_ ⟨?_, trivial⟩ ?_
  · constructor
    · exact (header.get_set_field _ _ _ (by decide)).trans ((hb _).trans hhead.magic)
    · exact (header.get_set_field _ _ _ (by decide)).trans ((hb _).trans hhead.size)
    · exact (header.get_set_self _ _ _ _).trans (Nat.mod_eq_of_lt (by omega))
    · exact (header.get_set_field _ _ _ (by decide)).trans ((hb _).trans hhead.prev)
    · exact (header.get_set_field _ _ _ (by decide)).trans ((hb _).trans hhead.free)
  · refine HeaderAt.frame ?_ (header.set_sameOn _ _ _ (Or.inr hoff))
    exact newHeader_headerAt _ (by omega) (by decide) (by omega)
  · refine ⟨hr, ?_⟩
    simp only [Placed, Block.stop]
    omega

/-- What `extend_heap` asks `grow` for. -/
theorem alignUp_chunk (hsize : size ≤ 67108872) :
    ∃ pages, alignUp (u32 (size + headerSize)) (64 * 1024) = pages * pageSize ∧ pages ≤ 32768 ∧
      size + headerSize ≤ pages * pageSize := by
  refine ⟨(size + headerSize + 65535) / 65536 * 16, ?_, ?_, ?_⟩
  · simp only [alignUp, u32, headerSize, pageSize]
    omega
  · simp only [headerSize]
    omega
  · simp only [headerSize, pageSize]
    omega

theorem sub32_add_self {x y : ℕ} (h : x + y < 4294967296) : sub32 (x + y) x = y := by
  unfold sub32
  omega

/-- A growth of the heap ends in a free block with the new bytes. -/
theorem Inv.extendChunk {pages : ℕ} {last : Block} (hi : Inv h (pre ++ [last]))
    (hchunk : alignUp (u32 (size + headerSize)) (64 * 1024) = pages * pageSize) (hpages : pages ≤ 32768)
    (hroom : last.free = true ∨ 1 ≤ pages) (supply : Supply) :
    (extendHeap h size supply).2 = (grow h (pages * pageSize) supply).2 ∧
      ∃ bs', Inv (extendHeap h size supply).1 bs' ∧ Keeps h.mem (extendHeap h size supply).1.mem (pre ++ [last]) bs' 0 ∧
        pointers bs' = pointers (pre ++ [last]) ∧
        ((extendHeap h size supply).2 = true →
          (∃ (pre' : List Block) (b : Block), bs' = pre' ++ [b] ∧ b.free = true ∧ pages * pageSize - headerSize ≤ b.size) ∧
            extent bs' = extent (pre ++ [last]) + pages * pageSize) := by
  have hend := hi.end_le
  have hle := hi.placed.le
  obtain ⟨-, -, h₃, h₄, h₅⟩ := hi.places
  have hmax : heapBase + heapMaxSize < 4294967296 := by decide
  have hpos : 0 < heapBase := by decide
  obtain ⟨k, hg, hk, hk'⟩ := grow_grown supply pages h (by rw [hi.bytes]; omega) hend hpages
  have hs := hi.toShape.grown hg hk
  have hkeep := hi.toShape.keeps_grown hg 0
  have hlast : h.blocks.getLast?.getD h.firstBlock = last.addr := by
    rw [hi.blocks]
    simp
  have hgrows : last.free = true ∨ headerSize ≤ pages * pageSize := by
    refine hroom.imp_right fun hone => ?_
    unfold headerSize pageSize
    omega
  unfold KernelHeap.extendHeap
  simp only [hchunk, hlast]
  clear hchunk hroom hpages
  -- how many pages there are does not matter any more
  generalize pages * pageSize = bytes at *
  generalize hgr : grow h bytes supply = r at hg hs hkeep hk' ⊢
  obtain ⟨h', ok⟩ := r
  dsimp only at hg hs hkeep hk' ⊢
  cases ok with
  | false => exact ⟨rfl, _, ⟨hs, hi.alternate⟩, hkeep, rfl, fun hc => by cases hc⟩
  | true =>
    obtain rfl := hk' rfl
    have hadd : sub32 h'.heapEnd h.heapEnd = k := by
      rw [hg.heapEnd]
      exact sub32_add_self (Nat.lt_of_le_of_lt hk hmax)
    have hhead := hs.headerAt
    dsimp only
    rw [hadd]
    split
    · rename_i hfree
      have hlf := hhead.free_iff.mp hfree
      rw [hhead.size]
      refine ⟨rfl, _, ⟨hs.stretch ?_, ?_⟩, hkeep.trans ?_, ?_, fun _ => ⟨⟨pre, _, rfl, hlf, ?_⟩, ?_⟩⟩
      · rw [hg.heapEnd]
        exact Nat.add_le_add_right h₄ k
      · obtain ⟨a₁, a₂, a₃, a₄⟩ := alternate_focus.mp hi.alternate
        exact alternate_focus.mpr ⟨a₁, a₂, a₃, a₄⟩
      · intro c hc hu _
        have hne : c.addr ≠ last.addr := by
          intro he
          rw [hs.placed.inj (by decide) hc (by simp) he, hlf] at hu
          cases hu
        rcases hs.others hc hne with ⟨hc, hlt⟩ | ⟨hc, -⟩
        · exact ⟨by simp [hc], header.set_sameOn _ _ _ (Or.inl hlt)⟩
        · cases hc
      · simp [pointers, hlf]
      · dsimp only
        omega
      · simp only [extent_append, extent_cons, extent_nil]
        omega
    · rename_i hused
      have hlu : last.free = false := by
        have hnot : ¬last.free = true := fun hf => hused (hhead.free_iff.mpr hf)
        simpa using hnot
      have hsize : headerSize ≤ k := hgrows.resolve_left (by simp [hlu])
      have hsub : sub32 (k) headerSize = k - headerSize := by
        unfold sub32
        omega
      rw [hsub]
      refine ⟨rfl, _, ⟨hs.append (r := h.heapEnd) (k := k) ?_ hsize ?_, ?_⟩, hkeep.trans ?_, ?_,
        fun _ => ⟨⟨pre ++ [last], ⟨h.heapEnd, k - headerSize, true⟩, by simp, rfl, Nat.le_refl _⟩, ?_⟩⟩
      · exact h₄
      · rw [hg.heapEnd]
      · obtain ⟨a₁, a₂, a₃, a₄⟩ := alternate_focus.mp hi.alternate
        refine alternate_focus.mpr ⟨a₁, by simp [Alternate], a₃, ?_⟩
        rintro d - ⟨hf, -⟩
        rw [hlu] at hf
        cases hf
      · intro c hc hu _
        refine ⟨?_, ?_⟩
        · rcases List.mem_append.mp hc with hc | hc
          · simp [hc]
          · obtain rfl := List.mem_singleton.mp hc
            simp
        · have hcs := (hi.placed.mem hc).2
          refine SameOn.trans (newHeader_sameOn _ _ _ _ (Or.inl hcs)) (header.set_sameOn _ _ _ ?_)
          by_cases hne : c.addr = last.addr
          · unfold Block.payload
            exact Or.inr (by omega)
          · rcases hs.others hc hne with ⟨-, hlt⟩ | ⟨hc, -⟩
            · exact Or.inl hlt
            · cases hc
      · simp [pointers, hlu]
      · simp only [extent_append, extent_cons, extent_nil]
        omega

theorem Inv.concat (hi : Inv h bs) : ∃ pre last, bs = pre ++ [last] := by
  rcases List.eq_nil_or_concat bs with he | ⟨pre, last, he⟩
  · exact absurd he hi.ne
  · exact ⟨pre, last, by simpa using he⟩

theorem Inv.extendHeap (hi : Inv h bs) (hsize : size ≤ 67108872) (supply : Supply) :
    ∃ bs', Inv (extendHeap h size supply).1 bs' ∧ Keeps h.mem (extendHeap h size supply).1.mem bs bs' 0 ∧
      pointers bs' = pointers bs ∧ ((extendHeap h size supply).2 = true → ∃ b ∈ bs', b.free = true ∧ size ≤ b.size) := by
  obtain ⟨pre, last, rfl⟩ := hi.concat
  obtain ⟨pages, hchunk, hpages, hbig⟩ := alignUp_chunk hsize
  have hone : 1 ≤ pages := by
    rcases Nat.eq_zero_or_pos pages with rfl | hpos
    · unfold headerSize at hbig
      omega
    · exact hpos
  obtain ⟨-, bs', hi', hk, hp, hend⟩ := hi.extendChunk hchunk hpages (Or.inr hone) supply
  refine ⟨bs', hi', hk, hp, fun htrue => ?_⟩
  obtain ⟨⟨pre', b, rfl, hfree, hle⟩, -⟩ := hend htrue
  exact ⟨b, by simp, hfree, by omega⟩

/-! ## The calls -/

/-- A free block of at least `size` bytes is cut to size, where that pays, and handed out. -/
theorem Inv.take (hi : Inv h (pre ++ b :: post)) (hfree : b.free = true) (hsize : size ≤ b.size) :
    ∃ bs', Inv { h with mem := header.set (KernelHeap.split h.mem b.addr size) b.addr .free 0 } bs' ∧
      Keeps h.mem (header.set (KernelHeap.split h.mem b.addr size) b.addr .free 0) (pre ++ b :: post) bs' 0 ∧
      (∃ d ∈ bs', d.free = false ∧ d.addr = b.addr ∧ size ≤ d.size) ∧
      (pointers bs').Perm (b.payload :: pointers (pre ++ b :: post)) ∧ extent bs' = extent (pre ++ b :: post) := by
  obtain ⟨a₁, a₂, a₃, a₄⟩ := alternate_focus.mp hi.alternate
  obtain ⟨-, -, h₃, h₄, h₅⟩ := hi.places
  have hmax : heapBase + heapMaxSize < 4294967296 := by decide
  have hother : ∀ c ∈ pre ++ b :: post, c.free = false → c.addr ≠ b.addr := by
    intro c hc hu he
    rw [hi.placed.inj (by decide) hc (by simp) he, hfree] at hu
    cases hu
  have hlast : ∀ {m₁ : Memory} {c : Block}, c ∈ pre ++ b :: post → c.addr ≠ b.addr →
      SameOn m₁ (header.set m₁ b.addr .free 0) c.payload c.size := by
    intro m₁ c hc hne
    refine header.set_sameOn _ _ _ ?_
    rcases hi.others hc hne with ⟨-, hlt⟩ | ⟨-, hlt, -⟩
    · exact Or.inl hlt
    · unfold Block.stop at hlt
      exact Or.inr (by omega)
  have hused : ∀ {c : Block} {x : List Block}, c.free = false → ∀ d ∈ x.head?, ¬(c.free = true ∧ d.free = true) := by
    rintro c x hc d - ⟨hf, -⟩
    rw [hc] at hf
    cases hf
  have hbefore : ∀ {c : Block}, c.free = false → ∀ d ∈ pre.getLast?, ¬(d.free = true ∧ c.free = true) := by
    rintro c hc d - ⟨-, hf⟩
    rw [hc] at hf
    cases hf
  by_cases hbig : size + headerSize + minSplit ≤ b.size
  · obtain ⟨hs, hk⟩ := hi.toShape.split hbig
    have hs₂ := hs.setFree false (v := 0) rfl
    dsimp only at hs₂
    refine ⟨_, ⟨hs₂, ?_⟩, ?_, ⟨_, List.mem_append_right _ (List.mem_cons_self ..), rfl, rfl, le_rfl⟩, ?_, ?_⟩
    · refine alternate_focus.mpr ⟨a₁, ?_, hbefore rfl, hused rfl⟩
      refine List.isChain_cons.mpr ⟨?_, a₂⟩
      rintro d hd ⟨-, hdf⟩
      exact a₄ d hd ⟨hfree, hdf⟩
    · intro c hc hu _
      have hne := hother c hc hu
      refine ⟨?_, (hk c hc hne).trans (hlast hc hne)⟩
      rcases hi.others hc hne with ⟨hc, -⟩ | ⟨hc, -⟩ <;> simp [hc]
    · rw [pointers_append, pointers_append, pointers_cons_free _ hfree, pointers_cons_used _ rfl,
        pointers_cons_free _ rfl]
      exact List.perm_middle
    · simp only [extent_append, extent_cons]
      omega
  · have hsmall : KernelHeap.split h.mem b.addr size = h.mem := by
      unfold KernelHeap.split
      rw [hi.headerAt.size]
      refine if_pos ?_
      unfold u32
      simp only [headerSize, minSplit, heapBase, heapMaxSize] at *
      omega
    rw [hsmall]
    refine ⟨_, ⟨hi.toShape.setFree false (v := 0) rfl, ?_⟩, ?_,
      ⟨_, List.mem_append_right _ (List.mem_cons_self ..), rfl, rfl, hsize⟩, ?_, ?_⟩
    · exact alternate_focus.mpr ⟨a₁, a₂, hbefore rfl, hused rfl⟩
    · intro c hc hu _
      have hne := hother c hc hu
      refine ⟨?_, hlast hc hne⟩
      rcases hi.others hc hne with ⟨hc, -⟩ | ⟨hc, -⟩ <;> simp [hc]
    · rw [pointers_append, pointers_append, pointers_cons_free _ hfree, pointers_cons_used _ rfl]
      exact List.perm_middle
    · simp only [extent_append, extent_cons]

/-- The pointer `p` is that of a block in use that is not one of `bs`'s blocks in use. -/
def Fresh (bs bs' : List Block) (size p : ℕ) : Prop :=
  ∃ b ∈ bs', b.free = false ∧ p = b.payload ∧ size ≤ b.size ∧ ∀ c ∈ bs, c.free = false → c.addr ≠ b.addr

theorem Inv.findFit {a : ℕ} (hi : Inv h bs) (hf : findFit h size = some a) :
    ∃ (pre : List Block) (b : Block) (post : List Block), bs = pre ++ b :: post ∧ b.addr = a ∧ b.free = true ∧ size ≤ b.size := by
  unfold KernelHeap.findFit at hf
  rw [hi.blocks] at hf
  have hp := List.find?_some hf
  obtain ⟨b, hb, rfl⟩ := List.mem_map.mp (List.mem_of_find?_eq_some hf)
  obtain ⟨pre, post, rfl⟩ := List.append_of_mem hb
  simp only [decide_eq_true_eq] at hp
  rw [hi.headerAt.size] at hp
  exact ⟨pre, b, post, rfl, rfl, hi.headerAt.free_iff.mp hp.1, hp.2⟩

theorem Inv.kmallocLoop {attempts i : ℕ} {supply : ℕ → Supply} (hi : Inv h bs) (hsize : size ≤ 67108872)
    (hr : kmallocLoop size supply attempts i h = (h', p)) :
    ∃ bs', Inv h' bs' ∧ Keeps h.mem h'.mem bs bs' 0 ∧ (p = 0 ∨ Fresh bs bs' size p) ∧
      (pointers bs').Perm (hold (pointers bs) p) := by
  induction attempts generalizing i h bs with
  | zero =>
    obtain ⟨rfl, rfl⟩ := Prod.mk.inj hr
    exact ⟨bs, hi, Keeps.refl _ _ _, Or.inl rfl, .rfl⟩
  | succ attempts ih =>
    cases hf : KernelHeap.findFit h size with
    | some a =>
      rw [KernelHeap.kmallocLoop, hf] at hr
      obtain ⟨rfl, rfl⟩ := Prod.mk.inj hr
      obtain ⟨pre, b, post, rfl, rfl, hfree, hfit⟩ := hi.findFit hf
      obtain ⟨bs', hi', hk, ⟨d, hd, hdu, hda, hds⟩, hperm, -⟩ := hi.take hfree hfit
      have hpay : u32 (b.addr + headerSize) = b.payload := by
        have hend := (hi.placed.mem (b := b) (by simp)).2
        have hle := hi.end_le
        have hmax : heapBase + heapMaxSize < 4294967296 := by decide
        unfold Block.stop at hend
        exact u32_of_lt (by omega)
      refine ⟨bs', hi', hk, Or.inr ⟨d, hd, hdu, ?_, hds, ?_⟩, ?_⟩
      · rw [hpay, Block.payload, Block.payload, hda]
      · intro c hc hu he
        rw [hi.placed.inj (by decide) hc (by simp) (he.trans hda), hfree] at hu
        cases hu
      · rw [hpay, hold, if_neg (by unfold Block.payload headerSize; omega)]
        exact hperm
    | none =>
      obtain ⟨bs₁, hi₁, hk₁, hperm₁, -⟩ := hi.extendHeap hsize (supply i)
      rw [KernelHeap.kmallocLoop, hf] at hr
      dsimp only at hr
      split at hr
      · obtain ⟨bs₂, hi₂, hk₂, hp, hperm₂⟩ := ih hi₁ hr
        refine ⟨bs₂, hi₂, hk₁.trans hk₂, hp.imp_right ?_, hperm₁ ▸ hperm₂⟩
        rintro ⟨b, hb, hu, hpb, hs, hfresh⟩
        refine ⟨b, hb, hu, hpb, hs, fun c hc hcu => ?_⟩
        have hc₀ : c.addr ≠ 0 := by
          have := (hi.placed.mem hc).1
          have hpos : 0 < heapBase := by decide
          omega
        exact hfresh c (hk₁ c hc hcu hc₀).1 hcu
      · obtain ⟨rfl, rfl⟩ := Prod.mk.inj hr
        exact ⟨bs₁, hi₁, hk₁, Or.inl rfl, by rw [hperm₁]; rfl⟩

theorem Inv.kmalloc {supply : ℕ → Supply} (hi : Inv h bs) (hsize : size ≤ heapMaxSize)
    (hr : kmalloc h size supply = (h', p)) :
    ∃ bs', Inv h' bs' ∧ Keeps h.mem h'.mem bs bs' 0 ∧ (p = 0 ∨ Fresh bs bs' size p) ∧
      (pointers bs').Perm (hold (pointers bs) p) := by
  unfold KernelHeap.kmalloc at hr
  split at hr
  · obtain ⟨rfl, rfl⟩ := Prod.mk.inj hr
    exact ⟨bs, hi, Keeps.refl _ _ _, Or.inl rfl, .rfl⟩
  · have hmax : heapMaxSize = 67108864 := by decide
    have hal : size ≤ alignUp size 8 ∧ alignUp size 8 ≤ 67108872 := by
      simp only [alignUp, u32]
      omega
    obtain ⟨bs', hi', hk, hp, hperm⟩ := hi.kmallocLoop hal.2 hr
    refine ⟨bs', hi', hk, hp.imp_right ?_, hperm⟩
    rintro ⟨b, hb, hu, hpb, hs, hfresh⟩
    exact ⟨b, hb, hu, hpb, hal.1.trans hs, hfresh⟩

/-- The owner of a block writes to its payload. -/
theorem Inv.writePayload (hi : Inv h bs) (hb : b ∈ bs)
    (hw : ∀ x, x < b.payload ∨ b.payload + b.size ≤ x → m x = h.mem x) :
    Inv { h with mem := m } bs ∧ Keeps h.mem m bs bs b.addr := by
  obtain ⟨pre, post, rfl⟩ := List.append_of_mem hb
  obtain ⟨h₁, h₂, -⟩ := hi.places
  have hout : ∀ {x n : ℕ}, x + n ≤ b.payload ∨ b.stop ≤ x → SameOn h.mem m x n := by
    intro x n hx y hy₁ hy₂
    unfold Block.stop at hx
    refine hw y ?_
    unfold Block.payload at *
    omega
  refine ⟨⟨⟨hi.ne, hi.first, hi.linked.congr ?_, hi.placed, hi.end_le, hi.bytes⟩, hi.alternate⟩, ?_⟩
  · intro c hc
    rcases List.mem_append.mp hc with hc | hc
    · refine hout (Or.inl ?_)
      have := (h₁.mem hc).2
      unfold Block.stop at this
      unfold Block.payload
      omega
    · rcases List.mem_cons.mp hc with rfl | hc
      · exact hout (Or.inl le_rfl)
      · exact hout (Or.inr (h₂.mem hc).1)
  · intro c hc _ hne
    refine ⟨hc, ?_⟩
    rcases hi.others hc hne with ⟨-, hlt⟩ | ⟨-, hlt, -⟩
    · refine hout (Or.inl ?_)
      unfold Block.payload at *
      omega
    · exact hout (Or.inr hlt)

theorem Inv.kcalloc {supply : ℕ → Supply} {count : ℕ} (hi : Inv h bs) (hsize : u32 (count * size) ≤ heapMaxSize)
    (hr : kcalloc h count size supply = (h', p)) :
    ∃ bs', Inv h' bs' ∧ Keeps h.mem h'.mem bs bs' 0 ∧ (p = 0 ∨ Fresh bs bs' (u32 (count * size)) p) ∧
      Inv (KernelHeap.kmalloc h (u32 (count * size)) supply).1 bs' := by
  rw [KernelHeap.kcalloc] at hr
  dsimp only at hr
  generalize hm : KernelHeap.kmalloc h (u32 (count * size)) supply = r at hr ⊢
  obtain ⟨h₁, p₁⟩ := r
  obtain ⟨bs', hi', hk, hp, -⟩ := hi.kmalloc hsize hm
  obtain ⟨he, rfl⟩ := Prod.mk.inj hr
  dsimp only at he
  rcases hp with h0 | ⟨b, hb, hu, rfl, hs, hfresh⟩
  · rw [if_neg (not_not.mpr h0)] at he
    exact ⟨bs', he ▸ hi', he ▸ hk, Or.inl h0, hi'⟩
  · have hne : b.payload ≠ 0 := by
      unfold Block.payload headerSize
      omega
    rw [if_pos hne] at he
    subst he
    obtain ⟨hi₂, hk₂⟩ := hi'.writePayload hb (m := fill h₁.mem b.payload (u32 (count * size)) (fun _ => 0)) (by
      intro x hx
      refine fill_sameOn (b := x) (k := 1) _ _ ?_ x le_rfl (by omega)
      omega)
    refine ⟨bs', hi₂, ?_, Or.inr ⟨b, hb, hu, rfl, hs, hfresh⟩, hi'⟩
    intro c hc hcu hc₀
    obtain ⟨hin, hsame⟩ := hk c hc hcu hc₀
    exact ⟨hin, hsame.trans (hk₂ c hin hcu (hfresh c hc hcu)).2⟩

/-- `krealloc` of a block in use: it stays, or its contents move and it is freed. -/
theorem Inv.krealloc (hi : Inv h bs) (supply : ℕ → Supply) (hb : b ∈ bs) (hused : b.free = false)
    (hsize : size ≤ heapMaxSize) :
    ∃ h' p bs', krealloc h b.payload size supply = some (h', p) ∧ Inv h' bs' ∧ Keeps h.mem h'.mem bs bs' b.addr ∧
      (size = 0 ∧ p = 0 ∨ size ≠ 0 ∧ p = 0 ∧ b ∈ bs' ∧ SameOn h.mem h'.mem b.payload b.size ∨
        p = b.payload ∧ b ∈ bs' ∧ size ≤ b.size ∧ h' = h ∨
        Fresh bs bs' size p ∧ ∀ i < b.size, h'.mem (p + i) = h.mem (b.payload + i)) ∧
      ∃ bs₁, Inv (KernelHeap.kmalloc h (if size ≤ b.size then 0 else size) supply).1 bs₁ ∧ extent bs' = extent bs₁ := by
  have hbounds := hi.placed.mem hb
  have hend := hi.end_le
  have hmax : heapBase + heapMaxSize < 4294967296 := by decide
  have hsub : sub32 b.payload headerSize = b.addr := by
    unfold sub32 Block.payload Block.stop headerSize at *
    omega
  have hne : b.payload ≠ 0 := by
    unfold Block.payload headerSize
    omega
  have hne₀ : b.addr ≠ 0 := by
    have hpos : 0 < heapBase := by decide
    omega
  have hhead : ∀ {h₁ : Heap} {bs₁ : List Block}, Inv h₁ bs₁ → b ∈ bs₁ →
      header.get h₁.mem b.addr .magic = blockMagic ∧ header.get h₁.mem b.addr .size = b.size := by
    intro h₁ bs₁ hi₁ hb₁
    obtain ⟨pre, post, rfl⟩ := List.append_of_mem hb₁
    exact ⟨hi₁.headerAt.magic, hi₁.headerAt.size⟩
  obtain ⟨hmagic, hbsize⟩ := hhead hi hb
  unfold KernelHeap.krealloc
  rw [if_neg hne]
  split
  · rename_i hz
    obtain ⟨h₁, bs₁, he, hi₁, hk₁, -, hextent⟩ := hi.kfree hb hused
    rw [he, if_pos (by omega)]
    exact ⟨h₁, 0, bs₁, rfl, hi₁, hk₁, Or.inl ⟨hz, rfl⟩, bs, hi, hextent⟩
  · rename_i hz
    dsimp only
    rw [hsub, if_neg (not_not.mpr hmagic), hbsize]
    split
    · next hfits =>
      exact ⟨h, b.payload, bs, rfl, hi, Keeps.refl _ _ _, Or.inr (Or.inr (Or.inl ⟨rfl, hb, hfits, rfl⟩)), bs, hi, rfl⟩
    · rename_i hbig
      generalize hm : KernelHeap.kmalloc h size supply = r
      obtain ⟨h₁, p⟩ := r
      dsimp only
      obtain ⟨bs₁, hi₁, hk₁, hp, -⟩ := hi.kmalloc hsize hm
      obtain ⟨hb₁, hbytes⟩ := hk₁ b hb hused hne₀
      have hk₁' : Keeps h.mem h₁.mem bs bs₁ b.addr := by
        intro c hc hcu _
        refine hk₁ c hc hcu ?_
        have := (hi.placed.mem hc).1
        have hpos : 0 < heapBase := by decide
        omega
      split
      · exact ⟨h₁, 0, bs₁, rfl, hi₁, hk₁', Or.inr (Or.inl ⟨hz, rfl, hb₁, hbytes⟩), bs₁, hi₁, rfl⟩
      · rename_i hp₀
        obtain ⟨d, hd, hdu, rfl, hds, hfresh⟩ := hp.resolve_left hp₀
        rw [(hhead hi₁ hb₁).2]
        -- the copy fits into the new block
        obtain ⟨hi₂, hk₂⟩ := hi₁.writePayload hd
          (m := fill h₁.mem d.payload b.size (fun i => h₁.mem (b.payload + i))) (by
            intro x hx
            refine fill_sameOn (b := x) (k := 1) _ _ ?_ x le_rfl (by omega)
            omega)
        obtain ⟨h₃, bs₃, he, hi₃, hk₃, -, hextent⟩ := hi₂.kfree hb₁ hused
        rw [he]
        refine ⟨h₃, d.payload, bs₃, rfl, hi₃, ?_, Or.inr (Or.inr (Or.inr ?_)), bs₁, hi₁, hextent⟩
        · intro c hc hcu hcb
          obtain ⟨hin₁, hs₁⟩ := hk₁' c hc hcu hcb
          obtain ⟨hin₂, hs₂⟩ := hk₂ c hin₁ hcu (hfresh c hc hcu)
          obtain ⟨hin₃, hs₃⟩ := hk₃ c hin₂ hcu hcb
          exact ⟨hin₃, (hs₁.trans hs₂).trans hs₃⟩
        · have hdb : d.addr ≠ b.addr := fun he => hfresh b hb hused he.symm
          obtain ⟨hd₃, hs₃⟩ := hk₃ d hd hdu hdb
          refine ⟨⟨d, hd₃, hdu, rfl, hds, hfresh⟩, fun i hi => ?_⟩
          rw [hs₃ (d.payload + i) (Nat.le_add_right _ _) (by omega)]
          dsimp only
          rw [fill_at _ _ hi]
          exact hbytes (b.payload + i) (Nat.le_add_right _ _) (by omega)

/-- The heap at boot is one free block. -/
theorem kheapInit_inv {m₀ : Memory} {supply : Supply} (hinit : kheapInit m₀ supply = some h) :
    ∃ bs, Inv h bs ∧ extent bs = h.heapBytes := by
  have hmax : heapBase + heapMaxSize < 4294967296 := by decide
  unfold kheapInit at hinit
  obtain ⟨k, hg, hk, hk'⟩ := grow_grown supply 16 { mem := m₀, firstBlock := 0, heapEnd := heapBase, heapBytes := 0 }
    (Nat.zero_le _) (Nat.le_add_right _ _) (by decide)
  have h64 : 16 * pageSize = 64 * 1024 := by decide
  rw [h64] at hg hk'
  dsimp only at hinit
  generalize grow { mem := m₀, firstBlock := 0, heapEnd := heapBase, heapBytes := 0 } (64 * 1024) supply = r
    at hinit hg hk'
  obtain ⟨h₁, ok⟩ := r
  cases ok with
  | false => cases hinit
  | true =>
    obtain rfl := hk' rfl
    rw [if_pos rfl] at hinit
    obtain rfl := Option.some.inj hinit
    have hb := hg.bytes
    have he := hg.heapEnd
    dsimp only at hb he hk ⊢
    rw [Nat.zero_add] at hb
    rw [hb]
    refine ⟨[⟨heapBase, 64 * 1024 - headerSize, true⟩], ⟨⟨by simp, rfl, ⟨⟨?_, ?_, ?_, ?_, ?_⟩, trivial⟩, ?_, ?_, ?_⟩, ?_⟩, ?_⟩
    · simp only [header.get_set_field _ _ _ (show Field.magic ≠ Field.free by decide),
        header.get_set_field _ _ _ (show Field.magic ≠ Field.prev by decide),
        header.get_set_field _ _ _ (show Field.magic ≠ Field.next by decide),
        header.get_set_field _ _ _ (show Field.magic ≠ Field.size by decide), header.get_set_self]
      rfl
    · simp only [header.get_set_field _ _ _ (show Field.size ≠ Field.free by decide),
        header.get_set_field _ _ _ (show Field.size ≠ Field.prev by decide),
        header.get_set_field _ _ _ (show Field.size ≠ Field.next by decide), header.get_set_self]
      rfl
    · simp only [header.get_set_field _ _ _ (show Field.next ≠ Field.free by decide),
        header.get_set_field _ _ _ (show Field.next ≠ Field.prev by decide), header.get_set_self]
      rfl
    · simp only [header.get_set_field _ _ _ (show Field.prev ≠ Field.free by decide), header.get_set_self]
    · rw [header.get_set_self]
      rfl
    · have hstop : (⟨heapBase, 64 * 1024 - headerSize, true⟩ : Block).stop ≤ h₁.heapEnd := by
        rw [he]
        decide
      exact ⟨le_rfl, hstop⟩
    · rw [he]
      exact hk
    · rw [he]
      exact (Nat.add_sub_cancel_left ..).symm
    · exact List.isChain_singleton _
    · rfl

/-! ## Every run -/

/-- The list behind the heap, and a block in use behind every live pointer. -/
structure Owned (s : State) (bs : List Block) : Prop where
  inv : Inv s.heap bs
  nodup : s.live.Nodup
  live : ∀ p ∈ s.live, ∃ b ∈ bs, b.free = false ∧ p = b.payload

variable {s s' : State} {bs' : List Block} {a : Action} {supply : ℕ → Supply}

theorem Inv.addr_ne_zero (hi : Inv h bs) (hb : b ∈ bs) : b.addr ≠ 0 := by
  have := (hi.placed.mem hb).1
  have hpos : 0 < heapBase := by decide
  omega

/-- The pointers that the call was not given stay live. -/
theorem Owned.keep {own : ℕ} (ho : Owned s bs) (hk : Keeps s.heap.mem m bs bs' own) (hp : p ∈ s.live)
    (hne : ∀ b ∈ bs, p = b.payload → b.addr ≠ own) : ∃ b ∈ bs', b.free = false ∧ p = b.payload := by
  obtain ⟨b, hb, hu, rfl⟩ := ho.live p hp
  exact ⟨b, (hk b hb hu (hne b hb rfl)).1, hu, rfl⟩

/-- A call that was given no pointer and returned `p`. -/
theorem Owned.allocate (ho : Owned s bs) (hi : Inv h' bs') (hk : Keeps s.heap.mem h'.mem bs bs' 0)
    (hp : p = 0 ∨ Fresh bs bs' size p) : Owned ⟨h', hold s.live p⟩ bs' := by
  have hold_live : ∀ q ∈ s.live, ∃ b ∈ bs', b.free = false ∧ q = b.payload := fun q hq =>
    ho.keep hk hq (fun b hb _ => ho.inv.addr_ne_zero hb)
  unfold hold
  split
  · exact ⟨hi, ho.nodup, hold_live⟩
  · rename_i hp₀
    obtain ⟨b, hb, hu, rfl, -, hfresh⟩ := hp.resolve_left hp₀
    refine ⟨hi, List.nodup_cons.mpr ⟨fun hmem => ?_, ho.nodup⟩, ?_⟩
    · obtain ⟨c, hc, hcu, he⟩ := ho.live _ hmem
      exact hfresh c hc hcu (Block.payload_inj he.symm)
    · intro q hq
      rcases List.mem_cons.mp hq with rfl | hq
      · exact ⟨b, hb, hu, rfl⟩
      · exact hold_live q hq

/-- The pointers other than that of the block `b`, when only `b` was given up. -/
theorem Owned.release (ho : Owned s bs) (hi : Inv h' bs')
    (hk : Keeps s.heap.mem h'.mem bs bs' b.addr) : Owned ⟨h', s.live.erase b.payload⟩ bs' := by
  refine ⟨hi, ho.nodup.erase _, ?_⟩
  intro q hq
  obtain ⟨hne, hq⟩ := (ho.nodup.mem_erase_iff).mp hq
  exact ho.keep hk hq (fun c hc he heq => hne (by rw [he, Block.payload, Block.payload, heq]))

/-- The bytes of every live block that the action is not given. -/
def Untouched (s s' : State) (bs : List Block) (own : ℕ) : Prop :=
  ∀ b ∈ bs, b.payload ∈ s.live → b.payload ≠ own → SameOn s.heap.mem s'.heap.mem b.payload b.size

theorem Owned.untouched {own : ℕ} (ho : Owned s bs) (hk : Keeps s.heap.mem s'.heap.mem bs bs' own)
    (hown : ∀ b ∈ bs, b.addr = own → b.payload = a.own) : Untouched s s' bs a.own := by
  intro b hb hl hne
  obtain ⟨c, hc, hcu, he⟩ := ho.live _ hl
  obtain rfl := ho.inv.placed.inj (by decide) hb hc (Block.payload_inj he)
  exact (hk b hb hcu (fun heq => hne (hown b hb heq))).2

theorem Owned.kreallocStep {ptr : ℕ} (ho : Owned s bs) (hb : b ∈ bs) (hused : b.free = false) (hptr : ptr = b.payload)
    (hlive : ptr ∈ s.live) (hsize : size ≤ heapMaxSize) :
    ∃ h' p bs', krealloc s.heap ptr size supply = some (h', p) ∧
      Owned ⟨h', if p = 0 ∧ size ≠ 0 then s.live else hold (s.live.erase ptr) p⟩ bs' ∧
      Keeps s.heap.mem h'.mem bs bs' b.addr := by
  subst hptr
  obtain ⟨h', p, bs', he, hi', hk, hp, -⟩ := ho.inv.krealloc supply hb hused hsize
  refine ⟨h', p, bs', he, ?_, hk⟩
  have hrel := ho.release hi' hk
  have hne : b.payload ≠ 0 := by
    unfold Block.payload headerSize
    omega
  have hnot : b.payload ∉ s.live.erase b.payload := fun hm => ((ho.nodup.mem_erase_iff).mp hm).1 rfl
  rcases hp with ⟨hz, rfl⟩ | ⟨hz, rfl, hb', -⟩ | ⟨rfl, hb', -⟩ | ⟨⟨d, hd, hdu, rfl, -, hfresh⟩, -⟩
  · rw [if_neg (fun hc => hc.2 hz)]
    exact hrel
  · rw [if_pos ⟨rfl, hz⟩]
    refine ⟨hi', ho.nodup, fun q hq => ?_⟩
    by_cases heq : q = b.payload
    · exact ⟨b, hb', hused, heq⟩
    · exact hrel.live q ((ho.nodup.mem_erase_iff).mpr ⟨heq, hq⟩)
  · rw [if_neg (fun hc => hne hc.1), hold, if_neg hne]
    refine ⟨hi', List.nodup_cons.mpr ⟨hnot, hrel.nodup⟩, fun q hq => ?_⟩
    rcases List.mem_cons.mp hq with rfl | hq
    · exact ⟨b, hb', hused, rfl⟩
    · exact hrel.live q hq
  · have hd₀ : d.payload ≠ 0 := by
      unfold Block.payload headerSize
      omega
    rw [if_neg (fun hc => hd₀ hc.1), hold, if_neg hd₀]
    refine ⟨hi', List.nodup_cons.mpr ⟨fun hm => ?_, hrel.nodup⟩, fun q hq => ?_⟩
    · obtain ⟨c, hc, hcu, hce⟩ := ho.live _ (List.mem_of_mem_erase hm)
      exact hfresh c hc hcu (Block.payload_inj hce.symm)
    · rcases List.mem_cons.mp hq with rfl | hq
      · exact ⟨d, hd, hdu, rfl⟩
      · exact hrel.live q hq

/-- `NULL` is no live pointer. -/
theorem Owned.zero_not_live (ho : Owned s bs) : 0 ∉ s.live := by
  intro hm
  obtain ⟨b, -, -, he⟩ := ho.live 0 hm
  unfold Block.payload headerSize at he
  omega

theorem Owned.allocateStep (ho : Owned s bs) (hi : Inv h' bs') (hk : Keeps s.heap.mem h'.mem bs bs' 0)
    (hp : p = 0 ∨ Fresh bs bs' size p) :
    ∃ bs', Owned ⟨h', hold s.live p⟩ bs' ∧ Untouched s ⟨h', hold s.live p⟩ bs a.own :=
  ⟨bs', ho.allocate hi hk hp, ho.untouched hk (fun _ hb he => absurd he (ho.inv.addr_ne_zero hb))⟩

theorem Owned.step (ho : Owned s bs) (hs : step s a supply = some s') :
    ∃ bs', Owned s' bs' ∧ Untouched s s' bs a.own := by
  cases a with
  | kmalloc size =>
    simp only [KernelHeap.step] at hs
    split at hs
    · rename_i hsize
      obtain rfl := Option.some.inj hs
      obtain ⟨bs', hi', hk, hp, -⟩ := ho.inv.kmalloc hsize (Prod.eta _).symm
      exact ho.allocateStep hi' hk hp
    · cases hs
  | kcalloc count size =>
    simp only [KernelHeap.step] at hs
    split at hs
    · rename_i hsize
      obtain rfl := Option.some.inj hs
      obtain ⟨bs', hi', hk, hp, -⟩ := ho.inv.kcalloc hsize (Prod.eta _).symm
      exact ho.allocateStep hi' hk hp
    · cases hs
  | krealloc ptr size =>
    simp only [KernelHeap.step] at hs
    split at hs
    · rename_i hc
      obtain ⟨hptr, hsize⟩ := hc
      rcases hptr with rfl | hlive
      · have he : krealloc s.heap 0 size supply = some (KernelHeap.kmalloc s.heap size supply) := if_pos rfl
        rw [he, List.erase_of_not_mem ho.zero_not_live] at hs
        obtain rfl := Option.some.inj hs
        obtain ⟨bs', hi', hk, hp, -⟩ := ho.inv.kmalloc hsize (Prod.eta _).symm
        obtain ⟨bs'', ho', hu⟩ := ho.allocateStep (a := .krealloc 0 size) hi' hk hp
        have hsame : (if (KernelHeap.kmalloc s.heap size supply).2 = 0 ∧ size ≠ 0 then s.live
            else hold s.live (KernelHeap.kmalloc s.heap size supply).2) =
            hold s.live (KernelHeap.kmalloc s.heap size supply).2 := by
          split
          · rename_i hz
            rw [hold, if_pos hz.1]
          · rfl
        dsimp only
        rw [hsame]
        exact ⟨bs'', ho', hu⟩
      · obtain ⟨b, hb, hu, rfl⟩ := ho.live ptr hlive
        obtain ⟨h', p, bs', he, ho', hk⟩ := ho.kreallocStep hb hu rfl hlive hsize
        rw [he] at hs
        obtain rfl := Option.some.inj hs
        refine ⟨bs', ho', ho.untouched hk (fun c hc heq => ?_)⟩
        rw [ho.inv.placed.inj (by decide) hc hb heq]
        rfl
    · cases hs
  | kfree ptr =>
    simp only [KernelHeap.step] at hs
    split at hs
    · rename_i hptr
      rcases hptr with rfl | hlive
      · have he : KernelHeap.kfree s.heap 0 = some s.heap := if_pos rfl
        rw [he, List.erase_of_not_mem ho.zero_not_live] at hs
        obtain rfl := Option.some.inj hs
        exact ⟨bs, ho, fun b _ _ _ => SameOn.refl _ _ _⟩
      · obtain ⟨b, hb, hu, rfl⟩ := ho.live ptr hlive
        obtain ⟨h', bs', he, hi', hk, -⟩ := ho.inv.kfree hb hu
        rw [he] at hs
        obtain rfl := Option.some.inj hs
        refine ⟨bs', ho.release hi' hk, ho.untouched hk (fun c hc heq => ?_)⟩
        rw [ho.inv.placed.inj (by decide) hc hb heq]
        rfl
    · cases hs
  | store ptr offset byte =>
    simp only [KernelHeap.step] at hs
    split at hs
    · rename_i hc
      obtain ⟨hlive, hoff⟩ := hc
      obtain rfl := Option.some.inj hs
      obtain ⟨b, hb, hu, rfl⟩ := ho.live ptr hlive
      have hsub : sub32 b.payload headerSize = b.addr := by
        have hbounds := ho.inv.placed.mem hb
        have hend := ho.inv.end_le
        have hmax : heapBase + heapMaxSize < 4294967296 := by decide
        unfold sub32 Block.payload Block.stop headerSize at *
        omega
      have hsize : header.get s.heap.mem b.addr .size = b.size := by
        obtain ⟨pre, post, hbs⟩ := List.append_of_mem hb
        exact (hbs ▸ ho.inv).headerAt.size
      rw [hsub, hsize] at hoff
      obtain ⟨hi', hk⟩ := ho.inv.writePayload hb (m := fill s.heap.mem (b.payload + offset) 1 (fun _ => byte)) (by
        intro x hx
        refine fill_sameOn (b := x) (k := 1) _ _ ?_ x le_rfl (by omega)
        omega)
      refine ⟨bs, ⟨hi', ho.nodup, ho.live⟩, ho.untouched hk (fun c hc heq => ?_)⟩
      rw [ho.inv.placed.inj (by decide) hc hb heq]
      rfl
    · cases hs

open ReachableStates

theorem owned_of_reachable (hr : Reachable Booted Step s) : ∃ bs, Owned s bs := by
  refine hr.invariant (P := fun s => ∃ bs, Owned s bs) ?_ ?_
  · rintro s ⟨m, supply, hinit, hlive⟩
    obtain ⟨bs, hi, -⟩ := kheapInit_inv hinit
    exact ⟨bs, hi, hlive ▸ List.nodup_nil, by simp [hlive]⟩
  · rintro s s' ⟨bs, ho⟩ ⟨a, supply, hs⟩
    obtain ⟨bs', ho', -⟩ := ho.step hs
    exact ⟨bs', ho'⟩

/-- What `kheap_check` looks for, and more: the blocks of the list are in order, linked both ways,
apart from each other, inside the heap and not free side by side, and the live pointers are those
of blocks in use. -/
structure Healthy (s : State) (bs : List Block) : Prop where
  first : s.heap.firstBlock = headAddr bs 0
  linked : Linked HeaderAt s.heap.mem 0 bs 0
  increasing : bs.Pairwise (fun b c => b.addr < c.addr)
  disjoint : bs.Pairwise (fun b c => b.stop ≤ c.addr ∨ c.stop ≤ b.addr)
  inside : ∀ b ∈ bs, heapBase ≤ b.addr ∧ b.stop ≤ s.heap.heapEnd
  alternate : Alternate bs
  live : ∀ p ∈ s.live, ∃ b ∈ bs, b.free = false ∧ p = b.payload

theorem Owned.healthy (ho : Owned s bs) : Healthy s bs where
  first := ho.inv.first
  linked := ho.inv.linked
  increasing := by
    refine ho.inv.placed.pairwise.imp (fun {b c} h => ?_)
    unfold Block.stop headerSize at h
    omega
  disjoint := ho.inv.placed.pairwise.imp Or.inl
  inside := fun _ hb => ho.inv.placed.mem hb
  alternate := ho.inv.alternate
  live := ho.live

/-- In every state that calls of the allocator can lead to, whatever pages `grow` fails to get, the
heap is healthy; a call changes no byte of a live block other than the one it is given; and no live
pointer makes `kfree` or `krealloc` panic. -/
theorem heap_safe (hr : Reachable Booted Step s) :
    ∃ bs, Healthy s bs ∧
      (∀ a supply s', step s a supply = some s' → Untouched s s' bs a.own) ∧
      ∀ p ∈ s.live, (kfree s.heap p).isSome ∧
        ∀ size supply, size ≤ heapMaxSize → (krealloc s.heap p size supply).isSome := by
  obtain ⟨bs, ho⟩ := owned_of_reachable hr
  refine ⟨bs, ho.healthy, ?_, ?_⟩
  · intro a supply s' hs
    obtain ⟨-, -, hu⟩ := ho.step hs
    exact hu
  · intro p hp
    obtain ⟨b, hb, hused, rfl⟩ := ho.live p hp
    constructor
    · obtain ⟨h', -, he, -⟩ := ho.inv.kfree hb hused
      simp [he]
    · intro size supply hsize
      obtain ⟨h', q, -, he, -⟩ := ho.inv.krealloc supply hb hused hsize
      simp [he]

/-- Zeroed frames without end. -/
def plenty : Supply := fun _ => some (fun _ => 0)

/-- A heap, two allocations, and the first of them freed and enlarged again. -/
def sample : Option State :=
  (kheapInit (fun _ => 0) plenty).bind (fun h =>
    follow (fun s a => step s a (fun _ => plenty)) ⟨h, []⟩
      [.kmalloc 100, .kcalloc 4 10, .kfree 0xD0000014, .krealloc 0xD0000090 200])

theorem heap_safe_sample :
    ∃ s, sample = some s ∧ s.live = [0xD00000CC] ∧ ∃ bs, Healthy s bs := by
  have he : sample.map State.live = some [0xD00000CC] := by decide
  obtain ⟨s, hs, hl⟩ := Option.map_eq_some_iff.mp he
  obtain ⟨h, hinit, hf⟩ := Option.bind_eq_some_iff.mp hs
  have hr : Reachable Booted Step s :=
    Reachable.follow (fun s a s' hn => ⟨a, _, hn⟩) (.start ⟨_, _, hinit, rfl⟩) hf
  obtain ⟨bs, hh, -⟩ := heap_safe hr
  exact ⟨s, hs, hl, bs, hh⟩

end SifarOS.KernelHeapSafety
